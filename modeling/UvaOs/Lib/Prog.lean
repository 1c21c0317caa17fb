import Mathlib

/-! State-passing programs that may stop the machine.
A run either returns a value with the next state or ends in an error; an error
keeps no state, since nothing runs after it. The weakest precondition below is
the only interface later proofs use: one rule for each way to build a program. -/

/-- A program over states `σ` which may stop with an error in `ε`. -/
def Prog (σ ε α : Type) : Type := σ → Except ε (α × σ)

namespace Prog

variable {σ τ ε α β : Type}

variable {m : Prog σ ε α} {a : α} {f : α → Prog σ ε β} {P Q R : α → σ → Prop} {e : ε} {E F : ε → Prop}
  {s t : σ} {init : σ → Prop} {step : σ → α → Except ε σ}

instance : Monad (Prog σ ε) where
  pure a := fun s => .ok (a, s)
  bind m f := fun s =>
    match m s with
    | .ok (a, t) => f a t
    | .error e => .error e

def get : Prog σ ε σ := fun s => .ok (s, s)

def modify (f : σ → σ) : Prog σ ε Unit := fun s => .ok ((), f s)

def stop (e : ε) : Prog σ ε α := fun _ => .error e

/-- The body runs for `i`, `i + 1`, … , `i + n - 1`. -/
def forRange (body : Nat → Prog σ ε Unit) : Nat → Nat → Prog σ ε Unit
  | _, 0 => pure ()
  | i, n + 1 => do
    body i
    forRange body (i + 1) n

/-- The value and the state of a normal return satisfy `Q`, an error satisfies `E`. -/
def wp (m : Prog σ ε α) (Q : α → σ → Prop) (E : ε → Prop) (s : σ) : Prop :=
  match m s with
  | .ok (a, t) => Q a t
  | .error e => E e

theorem wp_pure (a : α) (Q : α → σ → Prop) (E : ε → Prop) (s : σ) :
    wp (pure a) Q E s ↔ Q a s := Iff.rfl

theorem wp_get (Q : σ → σ → Prop) (E : ε → Prop) (s : σ) : wp get Q E s ↔ Q s s := Iff.rfl

theorem wp_modify (f : σ → σ) (Q : Unit → σ → Prop) (E : ε → Prop) (s : σ) :
    wp (modify f) Q E s ↔ Q () (f s) := Iff.rfl

theorem wp_bind (m : Prog σ ε α) (f : α → Prog σ ε β) (Q : β → σ → Prop) (E : ε → Prop)
    (s : σ) : wp (m >>= f) Q E s ↔ wp m (fun a t => wp (f a) Q E t) E s := by
  simp only [wp, bind]
  cases m s with
  | ok r => exact Iff.rfl
  | error e => exact Iff.rfl

theorem wp_mono
    (h : wp m Q E s) (hQ : ∀ a t, Q a t → R a t) (hE : ∀ e, E e → F e) : wp m R F s := by
  unfold wp at h ⊢
  split at h
  · exact hQ _ _ h
  · exact hE _ h

theorem wp_call {Q : β → σ → Prop} (h : wp m P E s)
    (next : ∀ a t, P a t → wp (f a) Q E t) : wp (m >>= f) Q E s :=
  (wp_bind m f Q E s).mpr (wp_mono h next (fun _ he => he))

theorem wp_callE {Q : β → σ → Prop} (h : wp m P F s) (errors : ∀ e, F e → E e)
    (next : ∀ a t, P a t → wp (f a) Q E t) : wp (m >>= f) Q E s :=
  wp_call (wp_mono h (fun _ _ p => p) errors) next

theorem wp_and (h : wp m Q E s) (k : wp m R F s) :
    wp m (fun a t => Q a t ∧ R a t) (fun e => E e ∧ F e) s := by
  unfold wp at *
  cases hm : m s with
  | ok r => rw [hm] at h k; exact ⟨h, k⟩
  | error e => rw [hm] at h k; exact ⟨h, k⟩

theorem wp_ok (h : wp m Q E s) (hm : m s = .ok (a, t)) : Q a t := by
  unfold wp at h
  rw [hm] at h
  exact h

theorem wp_returns (h : wp m Q E s) (none : ∀ e, ¬ E e) : ∃ a t, m s = .ok (a, t) ∧ Q a t := by
  unfold wp at h
  split at h
  · rename_i a t ok
    exact ⟨a, t, ok, h⟩
  · exact absurd h (none _)

theorem wp_error (h : wp m Q E s) (hm : m s = .error e) : E e := by
  unfold wp at h
  rw [hm] at h
  exact h

theorem wp_forRange {body : Nat → Prog σ ε Unit} (I : Nat → σ → Prop) (n i : Nat) (s : σ)
    (step : ∀ j t, i ≤ j → j < i + n → I j t → wp (body j) (fun _ u => I (j + 1) u) E t)
    (start : I i s) : wp (forRange body i n) (fun _ t => I (i + n) t) E s := by
  induction n generalizing i s with
  | zero => exact start
  | succ n ih =>
    refine wp_call (step i s (Nat.le_refl i) (by omega) start) ?_
    intro _ t ht
    have tail := ih (i + 1) t (fun j u lo hi => step j u (by omega) (by omega)) ht
    rwa [Nat.add_assoc, Nat.add_comm 1 n] at tail

theorem run_bind (h : m s = .ok (a, t)) : (m >>= f) s = f a t := by
  simp only [bind, h]

theorem run_get (f : σ → Prog σ ε α) (s : σ) : (get >>= f) s = f s s := rfl

theorem run_modify (k : σ → σ) (f : Unit → Prog σ ε α) (s : σ) : (modify k >>= f) s = f () (k s) := rfl

theorem bind_ok {r : β × σ}
    (h : (m >>= f) s = .ok r) : ∃ a t, m s = .ok (a, t) ∧ f a t = .ok r := by
  simp only [bind] at h
  split at h
  · rename_i a t first
    exact ⟨a, t, first, h⟩
  · cases h

theorem run_bind_error (h : m s = .error e) (f : α → Prog σ ε β) : (m >>= f) s = .error e := by
  simp only [bind, h]

inductive Reach (init : σ → Prop) (step : σ → σ → Prop) : σ → Prop
  | start {s : σ} : init s → Reach init step s
  | next {s t : σ} : Reach init step s → step s t → Reach init step t

theorem Reach.invariant {step : σ → σ → Prop} (I : σ → Prop)
    (base : ∀ s, init s → I s) (keeps : ∀ s t, I s → step s t → I t)
    (h : Reach init step s) : I s := by
  induction h with
  | start hs => exact base _ hs
  | next _ hst ih => exact keeps _ _ ih hst

/-- Feed events to a machine, up to the first error. -/
def play (step : σ → α → Except ε σ) : σ → List α → Except ε σ
  | s, [] => .ok s
  | s, e :: es =>
    match step s e with
    | .ok t => play step t es
    | .error h => .error h

theorem play_cons {e : α} (ran : step s e = .ok t)
    (es : List α) : play step s (e :: es) = play step t es := by
  rw [play, ran]

theorem play_append {es : List α}
    (ran : play step s es = .ok t) (fs : List α) : play step s (es ++ fs) = play step t fs := by
  induction es generalizing s with
  | nil =>
    cases ran
    rfl
  | cons e es ih => grind [play, play_cons]

/-- The state after a list of events that the machine survives. -/
def played (step : σ → α → Except ε σ) (s : σ) (es : List α) : σ :=
  match play step s es with
  | .ok t => t
  | .error _ => s

theorem Reach.play {rel : σ → σ → Prop}
    {fits : α → Prop} (sound : ∀ s e t, fits e → step s e = .ok t → rel s t) (es : List α)
    (reached : Reach init rel s) (all : ∀ e ∈ es, fits e) (run : play step s es = .ok t) :
    Reach init rel t := by
  induction es generalizing s with
  | nil =>
    cases run
    exact reached
  | cons e es ih =>
    rw [Prog.play] at run
    cases h : step s e with
    | error x => rw [h] at run; cases run
    | ok u => grind [reached.next]

end Prog
