import UvaOs.Lib.Prog

/-! Tasks that share data under one spin lock and wait for each other by `sleep` and
`wakeup`, with a second lock inside these two.

The code of the tasks is a function from the point where the holder of the lock stands to
what it does next; any task may take its next step at any time. `sleep` takes the inner
lock before it gives the outer one back, so there is a moment when a task is on its way to
sleep and others already have the outer lock. `kill` takes the inner lock only, and the
flag of a task may also be set without any lock.

`Outline` is the proof rule: assertions for the free lock, for its holder and for a task
that waits, with one obligation for each thing the holder can do. -/
namespace Monitor

open Prog (Reach)

/-- What the holder of the lock does next. -/
inductive Act (σ π κ : Type) where
  | go (d : σ) (p : π)
  | wakeup (k : κ) (p : π)
  | sleep (k : κ) (p : π)
  | leave (d : σ) (result : Int)
  | halt

/-- `start d p` tells whether a task may begin a call at the point `p`, and `tick` how the
data change by themselves. -/
structure Code (σ π κ : Type) where
  start : σ → π → Bool
  act : σ → Nat → Bool → π → Act σ π κ
  tick : σ → Nat → σ

inductive Phase (π κ : Type) where
  | out
  | entering (p : π)
  | inside (p : π)
  /-- In `sleep`: it has the inner lock and has given back the outer one. -/
  | dozing (k : κ) (p : π)
  | asleep (k : κ) (p : π)

/-- `lock` and `inner` are the tasks that have the two locks. -/
structure State (σ π κ : Type) where
  data : σ
  lock : Option Nat
  inner : Option Nat
  phase : Nat → Phase π κ
  killed : Nat → Bool

inductive Event (π : Type) where
  | call (i : Nat) (p : π)
  | go (i : Nat)
  | kill (i : Nat)
  | setkilled (i : Nat)
  | tick (n : Nat)

/-- Why there is no next state: the task has to spin, or the machine has stopped. -/
inductive Stop where
  | blocked | halted
  deriving DecidableEq

variable {σ π κ : Type}

namespace Phase

/-- `wakeup(k)`. -/
def wake [DecidableEq κ] (k : κ) : Phase π κ → Phase π κ
  | .asleep k' p => if k' = k then .entering p else .asleep k' p
  | ph => ph

/-- What `kill` does to a task that sleeps. -/
def rouse : Phase π κ → Phase π κ
  | .asleep _ p => .entering p
  | ph => ph

def holds : Phase π κ → Bool
  | .inside _ => true
  | _ => false

def dozes : Phase π κ → Bool
  | .dozing .. => true
  | _ => false

/-- The task sleeps on `k` or is on its way to. -/
def SleepsOn (k : κ) : Phase π κ → Prop
  | .dozing l _ | .asleep l _ => l = k
  | _ => False

/-- The task does not have the lock and will go on at `p` when it has. -/
def WaitsAt (p : π) : Phase π κ → Prop
  | .entering q | .dozing _ q | .asleep _ q => q = p
  | _ => False

@[simp] theorem rouse_holds (ph : Phase π κ) : ph.rouse.holds = ph.holds := by
  cases ph <;> rfl

@[simp] theorem rouse_dozes (ph : Phase π κ) : ph.rouse.dozes = ph.dozes := by
  cases ph <;> rfl

section

variable [DecidableEq κ] (k : κ) (ph : Phase π κ)

@[simp] theorem wake_holds : (ph.wake k).holds = ph.holds := by
  cases ph with
  | asleep k' p => simp only [wake]; split <;> rfl
  | _ => rfl

@[simp] theorem wake_dozes : (ph.wake k).dozes = ph.dozes := by
  cases ph with
  | asleep k' p => simp only [wake]; split <;> rfl
  | _ => rfl

end

end Phase

namespace State

def put (s : State σ π κ) (i : Nat) (ph : Phase π κ) : State σ π κ :=
  { s with phase := Function.update s.phase i ph }

def mark (s : State σ π κ) (i : Nat) : State σ π κ :=
  { s with killed := Function.update s.killed i true }

end State

section Steps

variable [DecidableEq κ]

def perform (s : State σ π κ) (i : Nat) : Act σ π κ → Except Stop (State σ π κ)
  | .go d p => .ok { s.put i (.inside p) with data := d }
  | .wakeup k p =>
    if s.inner = none then
      .ok ({ s with phase := fun j => (s.phase j).wake k }.put i (.inside p))
    else .error .blocked
  | .sleep k p =>
    if s.inner = none then .ok { s.put i (.dozing k p) with inner := some i, lock := none }
    else .error .blocked
  | .leave d _ => .ok { s.put i .out with data := d, lock := none }
  | .halt => .error .halted

def go (M : Code σ π κ) (s : State σ π κ) (i : Nat) : Except Stop (State σ π κ) :=
  match s.phase i with
  | .out | .asleep .. => .error .blocked
  | .entering p =>
    if s.lock = none then .ok { s.put i (.inside p) with lock := some i } else .error .blocked
  | .inside p => perform s i (M.act s.data i (s.killed i) p)
  | .dozing k p => .ok { s.put i (.asleep k p) with inner := none }

def step (M : Code σ π κ) (s : State σ π κ) : Event π → Except Stop (State σ π κ)
  | .call i p =>
    match s.phase i with
    | .out => if M.start s.data p then .ok (s.put i (.entering p)) else .error .blocked
    | _ => .error .blocked
  | .go i => go M s i
  | .kill i =>
    if s.inner = none then .ok ((s.mark i).put i (s.phase i).rouse) else .error .blocked
  | .setkilled i => .ok (s.mark i)
  | .tick n => .ok { s with data := M.tick s.data n }

end Steps

def Sleeps (s : State σ π κ) (k : κ) (i : Nat) : Prop := (s.phase i).SleepsOn k

def Waits (s : State σ π κ) (i : Nat) (p : π) : Prop := (s.phase i).WaitsAt p

/-- The locks are held by the tasks that are at the right place for it. -/
structure Locks (s : State σ π κ) : Prop where
  outer : ∀ i, s.lock = some i ↔ (s.phase i).holds = true
  inner : ∀ i, s.inner = some i ↔ (s.phase i).dozes = true

structure Idle (s : State σ π κ) : Prop where
  lock : s.lock = none
  inner : s.inner = none
  phase : ∀ i, s.phase i = .out

/-- What task `i` returns with its next step. -/
def Returns (M : Code σ π κ) (s : State σ π κ) (i : Nat) (p : π) (r : Int) : Prop :=
  s.phase i = .inside p ∧ ∃ d, M.act s.data i (s.killed i) p = .leave d r

/-- Runs whose steps are all taken in a state where `calm` allows the event. -/
def Run [DecidableEq κ] (M : Code σ π κ) (calm : State σ π κ → Event π → Prop)
    (init : State σ π κ → Prop) : State σ π κ → Prop :=
  Reach init (fun s t => ∃ e, calm s e ∧ step M s e = .ok t)

section Cases

variable [DecidableEq κ] {M : Code σ π κ} {s t : State σ π κ}

variable {calm : State σ π κ → Event π → Prop} {init : State σ π κ → Prop}

/-- A step that is taken only where a test allows it. -/
def guarded (M : Code σ π κ) (check : State σ π κ → Event π → Bool) (s : State σ π κ) (e : Event π) :
    Except Stop (State σ π κ) :=
  if check s e then step M s e else .error .blocked

theorem Run.guarded
    {check : State σ π κ → Event π → Bool} (sound : ∀ s e, check s e = true → calm s e)
    (es : List (Event π)) (start : init s)
    (run : Prog.play (Monitor.guarded M check) s es = .ok t) : Run M calm init t := by
  refine Reach.play (fun s e t (_ : True) ok => ?_) es (.start start) (fun _ _ => trivial) run
  unfold Monitor.guarded at ok
  split at ok
  · rename_i passed
    exact ⟨e, sound s e passed, ok⟩
  · cases ok

/-- `calm` allows the events of a list, each in the state where it comes. -/
def Fine (M : Code σ π κ) (calm : State σ π κ → Event π → Prop) : State σ π κ → List (Event π) → Prop
  | _, [] => True
  | s, e :: es => calm s e ∧
    match step M s e with
    | .ok t => Fine M calm t es
    | .error _ => True

theorem Run.replay (es : List (Event π)) (reached : Run M calm init s) (fine : Fine M calm s es)
    (run : Prog.play (step M) s es = .ok t) : Run M calm init t := by
  induction es generalizing s with
  | nil =>
    cases run
    exact reached
  | cons e es ih =>
    obtain ⟨allowed, rest⟩ := fine
    rw [Prog.play] at run
    cases h : step M s e with
    | error _ => rw [h] at run; cases run
    | ok u =>
      rw [h] at run rest
      exact ih (reached.next ⟨e, allowed, h⟩) rest run

theorem Run.play (es : List (Event π)) (start : init s) (fine : ∀ s, ∀ e ∈ es, calm s e)
    (run : Prog.play (step M) s es = .ok t) : Run M calm init t :=
  Reach.play (fun s e _ (mem : e ∈ es) ok => ⟨e, fine s e mem, ok⟩) es (.start start)
    (fun _ mem => mem) run

inductive Did (M : Code σ π κ) (s t : State σ π κ) : Event π → Prop
  | call {i p} : s.phase i = .out → M.start s.data p = true → t = s.put i (.entering p) →
      Did M s t (.call i p)
  | enter {i p} : s.phase i = .entering p → s.lock = none →
      t = { s.put i (.inside p) with lock := some i } → Did M s t (.go i)
  | go {i p d q} : s.phase i = .inside p → M.act s.data i (s.killed i) p = .go d q →
      t = { s.put i (.inside q) with data := d } → Did M s t (.go i)
  | wakeup {i p k q} : s.phase i = .inside p → M.act s.data i (s.killed i) p = .wakeup k q →
      s.inner = none → t = { s with phase := fun j => (s.phase j).wake k }.put i (.inside q) →
      Did M s t (.go i)
  | sleep {i p k q} : s.phase i = .inside p → M.act s.data i (s.killed i) p = .sleep k q →
      s.inner = none → t = { s.put i (.dozing k q) with inner := some i, lock := none } →
      Did M s t (.go i)
  | leave {i p d r} : s.phase i = .inside p → M.act s.data i (s.killed i) p = .leave d r →
      t = { s.put i .out with data := d, lock := none } → Did M s t (.go i)
  | doze {i k p} : s.phase i = .dozing k p → t = { s.put i (.asleep k p) with inner := none } →
      Did M s t (.go i)
  | kill {i} : s.inner = none → t = (s.mark i).put i (s.phase i).rouse → Did M s t (.kill i)
  | setkilled {i} : t = s.mark i → Did M s t (.setkilled i)
  | tick {n} : t = { s with data := M.tick s.data n } → Did M s t (.tick n)

theorem did_of_step {e : Event π} (h : step M s e = .ok t) : Did M s t e := by
  cases e with
  | call i p =>
    simp only [step] at h
    split at h
    · rename_i out
      split at h
      · rename_i may
        cases h
        exact .call out may rfl
      · cases h
    · cases h
  | go i =>
    simp only [step, go] at h
    split at h
    · cases h
    · cases h
    · rename_i p entering
      split at h
      · rename_i free
        cases h
        exact .enter entering free rfl
      · cases h
    · rename_i p inside
      unfold perform at h
      split at h
      · rename_i act
        cases h
        exact .go inside act rfl
      · rename_i act
        split at h
        · rename_i free
          cases h
          exact .wakeup inside act free rfl
        · cases h
      · rename_i act
        split at h
        · rename_i free
          cases h
          exact .sleep inside act free rfl
        · cases h
      · rename_i act
        cases h
        exact .leave inside act rfl
      · cases h
    · rename_i k p dozing
      cases h
      exact .doze dozing rfl
  | kill i =>
    simp only [step] at h
    split at h
    · rename_i free
      cases h
      exact .kill free rfl
    · cases h
  | setkilled i =>
    cases h
    exact .setkilled rfl
  | tick n =>
    cases h
    exact .tick rfl

end Cases

section Locks

variable {M : Code σ π κ} {s t : State σ π κ}

variable {i : Nat} {ph : Phase π κ} {p : π}

theorem Idle.locks (idle : Idle s) : Locks s where
  outer i := by simp [idle.lock, idle.phase, Phase.holds]
  inner i := by simp [idle.inner, idle.phase, Phase.dozes]

theorem Locks.inside (locks : Locks s) (inside : s.phase i = .inside p) :
    s.lock = some i := (locks.outer i).mpr (by rw [inside]; rfl)

theorem Locks.dozing {k : κ} (locks : Locks s) (dozing : s.phase i = .dozing k p) :
    s.inner = some i := (locks.inner i).mpr (by rw [dozing]; rfl)

theorem Locks.not_lock (locks : Locks s) (out : (s.phase i).holds = false) :
    s.lock ≠ some i := fun has => by
  rw [(locks.outer i).mp has] at out
  cases out

/-- Task `i` takes a lock, gives it back or does neither. -/
def Passed (i : Nat) (lock lock' : Option Nat) (had has : Bool) : Prop :=
  lock' = lock ∧ has = had ∨ lock = none ∧ lock' = some i ∧ has = true ∨
    lock = some i ∧ lock' = none ∧ has = false

theorem Locks.move (locks : Locks s) (others : ∀ j, j ≠ i → (t.phase j).holds = (s.phase j).holds ∧
      (t.phase j).dozes = (s.phase j).dozes)
    (outer : Passed i s.lock t.lock (s.phase i).holds (t.phase i).holds)
    (inner : Passed i s.inner t.inner (s.phase i).dozes (t.phase i).dozes) : Locks t where
  outer j := by
    have before := locks.outer j
    grind [Passed]
  inner j := by
    have before := locks.inner j
    grind [Passed]

theorem put_others {j : Nat} (ne : j ≠ i) : (s.put i ph).phase j = s.phase j :=
  Function.update_of_ne ne ..

@[simp] theorem put_phase : (s.put i ph).phase i = ph :=
  Function.update_self ..

theorem Locks.put (locks : Locks s) (phase : t.phase = (s.put i ph).phase)
    (outer : Passed i s.lock t.lock (s.phase i).holds ph.holds)
    (inner : Passed i s.inner t.inner (s.phase i).dozes ph.dozes) : Locks t := by
  refine locks.move (i := i) (fun j ne => ?_) ?_ ?_
  · rw [phase, put_others ne]
    exact ⟨rfl, rfl⟩
  · rwa [phase, put_phase]
  · rwa [phase, put_phase]

variable [DecidableEq κ]

theorem Locks.step {e : Event π} (locks : Locks s) (did : Did M s t e) : Locks t := by
  cases did with
  | call out _ eq =>
    subst eq
    exact locks.put rfl (.inl ⟨rfl, by rw [out]; rfl⟩) (.inl ⟨rfl, by rw [out]; rfl⟩)
  | enter entering free eq =>
    subst eq
    exact locks.put rfl (.inr (.inl ⟨free, rfl, rfl⟩)) (.inl ⟨rfl, by rw [entering]; rfl⟩)
  | go inside _ eq =>
    subst eq
    exact locks.put rfl (.inl ⟨rfl, by rw [inside]; rfl⟩) (.inl ⟨rfl, by rw [inside]; rfl⟩)
  | @wakeup i p k q inside _ _ eq =>
    subst eq
    refine locks.move (i := i) (fun j ne => by simp [put_others ne]) (.inl ⟨rfl, ?_⟩) (.inl ⟨rfl, ?_⟩)
    · rw [put_phase, inside]
      rfl
    · rw [put_phase, inside]
      rfl
  | sleep inside _ free eq =>
    subst eq
    exact locks.put rfl (.inr (.inr ⟨locks.inside inside, rfl, rfl⟩)) (.inr (.inl ⟨free, rfl, rfl⟩))
  | leave inside _ eq =>
    subst eq
    exact locks.put rfl (.inr (.inr ⟨locks.inside inside, rfl, rfl⟩)) (.inl ⟨rfl, by rw [inside]; rfl⟩)
  | doze dozing eq =>
    subst eq
    exact locks.put rfl (.inl ⟨rfl, by rw [dozing]; rfl⟩) (.inr (.inr ⟨locks.dozing dozing, rfl, rfl⟩))
  | kill _ eq =>
    subst eq
    exact locks.put rfl (.inl ⟨rfl, Phase.rouse_holds _⟩) (.inl ⟨rfl, Phase.rouse_dozes _⟩)
  | setkilled eq =>
    subst eq
    exact ⟨locks.outer, locks.inner⟩
  | tick eq =>
    subst eq
    exact ⟨locks.outer, locks.inner⟩

end Locks

/-- A proof outline. `free d A` holds while nobody has the lock, `held d A i x p` while task
`i` has it and is at `p`, and `rest d i x p` while task `i` waits to go on at `p`; `d` are the
data, `A` tells who sleeps on which channel, and `x` is the flag of the task. -/
structure Outline (M : Code σ π κ) (calm : State σ π κ → Event π → Prop) where
  free : σ → (κ → Nat → Prop) → Prop
  held : σ → (κ → Nat → Prop) → Nat → Bool → π → Prop
  rest : σ → Nat → Bool → π → Prop
  call : ∀ {s i p}, calm s (.call i p) → M.start s.data p = true → rest s.data i (s.killed i) p
  enter : ∀ {d A i x p}, free d A → (∀ k, ¬ A k i) → rest d i x p → held d A i x p
  go : ∀ {s i p d q}, calm s (.go i) → s.phase i = .inside p →
    held s.data (Sleeps s) i (s.killed i) p → M.act s.data i (s.killed i) p = .go d q →
    held d (Sleeps s) i (s.killed i) q ∧
      ∀ j r, j ≠ i → Waits s j r → rest s.data j (s.killed j) r → rest d j (s.killed j) r
  wakeup : ∀ {s i p k q}, calm s (.go i) → s.phase i = .inside p →
    held s.data (Sleeps s) i (s.killed i) p → M.act s.data i (s.killed i) p = .wakeup k q →
    held s.data (fun l j => Sleeps s l j ∧ l ≠ k) i (s.killed i) q
  sleep : ∀ {s i p k q}, calm s (.go i) → s.phase i = .inside p →
    held s.data (Sleeps s) i (s.killed i) p → M.act s.data i (s.killed i) p = .sleep k q →
    free s.data (fun l j => Sleeps s l j ∨ l = k ∧ j = i) ∧ rest s.data i (s.killed i) q
  leave : ∀ {s i p d r}, calm s (.go i) → s.phase i = .inside p →
    held s.data (Sleeps s) i (s.killed i) p → M.act s.data i (s.killed i) p = .leave d r →
    free d (Sleeps s) ∧
      ∀ j r, j ≠ i → Waits s j r → rest s.data j (s.killed j) r → rest d j (s.killed j) r
  mark : ∀ {s i p}, calm s (.kill i) ∨ calm s (.setkilled i) →
    (∀ A, s.phase i = .inside p → held s.data A i (s.killed i) p → held s.data A i true p) ∧
      (Waits s i p → rest s.data i (s.killed i) p → rest s.data i true p)
  rouse : ∀ {s i}, calm s (.kill i) →
    (free s.data (Sleeps s) → free s.data (fun l j => Sleeps s l j ∧ j ≠ i)) ∧
      ∀ {j p x}, s.phase j = .inside p → held s.data (Sleeps s) j x p →
        held s.data (fun l j => Sleeps s l j ∧ j ≠ i) j x p
  tick : ∀ {s n}, calm s (.tick n) →
    (free s.data (Sleeps s) → free (M.tick s.data n) (Sleeps s)) ∧
      (∀ {i p x}, held s.data (Sleeps s) i x p → held (M.tick s.data n) (Sleeps s) i x p) ∧
      ∀ {i p x}, rest s.data i x p → rest (M.tick s.data n) i x p

section Sleepers

variable {s t : State σ π κ}

variable {i : Nat} {ph : Phase π κ} {k : κ} {p q : π}

theorem sleeps_put (phase : t.phase = (s.put i ph).phase)
    (same : ∀ k, ph.SleepsOn k ↔ (s.phase i).SleepsOn k) : Sleeps t = Sleeps s := by
  funext k j
  unfold Sleeps
  rw [phase]
  by_cases e : j = i
  · rw [e, put_phase]
    exact propext (same k)
  · rw [put_others e]

theorem sleeps_dozing (phase : t.phase = (s.put i (.dozing k q)).phase)
    (awake : ∀ l, ¬ (s.phase i).SleepsOn l) :
    Sleeps t = fun l j => Sleeps s l j ∨ l = k ∧ j = i := by
  funext l j
  unfold Sleeps
  rw [phase]
  by_cases e : j = i
  · subst e
    simp only [put_phase, awake, false_or, and_true]
    exact propext eq_comm
  · simp [put_others e, e]

theorem sleeps_wake [DecidableEq κ] (locks : Locks s)
    (free : s.inner = none) (awake : ∀ l, ¬ (s.phase i).SleepsOn l) :
    Sleeps ({ s with phase := fun j => (s.phase j).wake k }.put i (.inside q)) =
      fun l j => Sleeps s l j ∧ l ≠ k := by
  funext l j
  by_cases e : j = i
  · subst e
    simp only [Sleeps, awake, false_and, put_phase]
    rfl
  · simp only [Sleeps, put_others e]
    cases ph : s.phase j with
    | asleep l' r =>
      by_cases woken : l' = k
      · simp [Phase.wake, Phase.SleepsOn, woken, eq_comm]
      · simp only [Phase.wake, if_neg woken, Phase.SleepsOn, eq_iff_iff]
        exact ⟨fun eq => ⟨eq, eq ▸ woken⟩, And.left⟩
    | dozing l' r =>
      rw [locks.dozing ph] at free
      cases free
    | _ => simp [Phase.wake, Phase.SleepsOn]

theorem sleeps_rouse (locks : Locks s) (free : s.inner = none) :
    Sleeps ((s.mark i).put i (s.phase i).rouse) = fun l j => Sleeps s l j ∧ j ≠ i := by
  funext l j
  by_cases e : j = i
  · subst e
    simp only [Sleeps, put_phase, ne_eq, not_true_eq_false, and_false, eq_iff_iff, iff_false]
    cases ph : s.phase j with
    | dozing l' r =>
      rw [locks.dozing ph] at free
      cases free
    | _ => exact id
  · simp [Sleeps, put_others e, State.mark, e]

theorem rouse_inside (inside : ph.rouse = .inside p) : ph = .inside p := by
  cases ph with
  | asleep l q => cases inside
  | _ => exact inside

theorem rouse_waits (waits : ph.rouse.WaitsAt p) : ph.WaitsAt p := by
  cases ph <;> exact waits

theorem wake_inside [DecidableEq κ] (inside : ph.wake k = .inside p) : ph = .inside p := by
  cases ph with
  | asleep l q =>
    simp only [Phase.wake] at inside
    split at inside <;> cases inside
  | _ => exact inside

theorem wake_waits [DecidableEq κ] (waits : (ph.wake k).WaitsAt p) : ph.WaitsAt p := by
  cases ph with
  | asleep l q =>
    simp only [Phase.wake] at waits
    split at waits <;> exact waits
  | _ => exact waits

end Sleepers

namespace Outline

variable {M : Code σ π κ} {calm : State σ π κ → Event π → Prop} (O : Outline M calm)

structure Inv (s : State σ π κ) : Prop where
  locks : Locks s
  free : s.lock = none → O.free s.data (Sleeps s)
  held : ∀ {i p}, s.phase i = .inside p → O.held s.data (Sleeps s) i (s.killed i) p
  rest : ∀ {i p}, Waits s i p → O.rest s.data i (s.killed i) p

theorem Inv.start {s : State σ π κ} (idle : Idle s) (start : O.free s.data (fun _ _ => False)) :
    O.Inv s where
  locks := idle.locks
  free _ := by
    have nobody : Sleeps s = fun _ _ => False := by
      funext k i
      simp [Sleeps, idle.phase, Phase.SleepsOn]
    rw [nobody]
    exact start
  held inside := by simp [idle.phase] at inside
  rest waits := by simp [Waits, idle.phase, Phase.WaitsAt] at waits

section Step

variable {O} {s t : State σ π κ}

theorem Inv.always {P : σ → Prop} (inv : O.Inv s) (free : ∀ {A}, O.free s.data A → P s.data)
    (held : ∀ {A i x p}, O.held s.data A i x p → P s.data) : P s.data := by
  cases holder : s.lock with
  | none => exact free (inv.free holder)
  | some i =>
    have holds := (inv.locks.outer i).mp holder
    cases at_ : s.phase i with
    | inside p => exact held (inv.held at_)
    | _ => rw [at_] at holds; cases holds

theorem Inv.only {i j : Nat} {p : π} (inv : O.Inv s) (has : s.lock = some i)
    (inside : s.phase j = .inside p) : j = i :=
  (Option.some.inj (has.symm.trans (inv.locks.inside inside))).symm

theorem Inv.moved {i : Nat} {ph : Phase π κ} (inv : O.Inv s) (locks : Locks t)
    (phase : t.phase = (s.put i ph).phase) (flags : t.killed = s.killed)
    (free : t.lock = none → O.free t.data (Sleeps t))
    (mine : ∀ {p}, ph = .inside p → O.held t.data (Sleeps t) i (s.killed i) p)
    (theirs : ∀ {j p}, j ≠ i → s.phase j = .inside p →
      O.held s.data (Sleeps s) j (s.killed j) p → O.held t.data (Sleeps t) j (s.killed j) p)
    (waits : ∀ {p}, ph.WaitsAt p → O.rest t.data i (s.killed i) p)
    (frame : ∀ j r, j ≠ i → Waits s j r → O.rest s.data j (s.killed j) r →
      O.rest t.data j (s.killed j) r) : O.Inv t where
  locks := locks
  free := free
  held := by
    intro j p inside
    rw [flags]
    rw [phase] at inside
    by_cases e : j = i
    · subst e
      exact mine (put_phase.symm.trans inside)
    · rw [put_others e] at inside
      exact theirs e inside (inv.held inside)
  rest := by
    intro j p waiting
    rw [flags]
    rw [Waits, phase] at waiting
    by_cases e : j = i
    · subst e
      exact waits (by rwa [put_phase] at waiting)
    · rw [put_others e] at waiting
      exact frame j p e waiting (inv.rest waiting)

theorem Inv.mark {i : Nat} (inv : O.Inv s) (allowed : calm s (.kill i) ∨ calm s (.setkilled i)) :
    O.Inv (s.mark i) := by
  have mine : (s.mark i).killed i = true := Function.update_self ..
  have flags : ∀ j, j ≠ i → (s.mark i).killed j = s.killed j := fun _ ne => Function.update_of_ne ne ..
  refine ⟨⟨inv.locks.outer, inv.locks.inner⟩, inv.free, ?_, ?_⟩
  · intro j p inside
    by_cases e : j = i
    · subst e
      rw [mine]
      exact (O.mark allowed).1 _ inside (inv.held inside)
    · rw [flags j e]
      exact inv.held inside
  · intro j p waits
    by_cases e : j = i
    · subst e
      rw [mine]
      exact (O.mark allowed).2 waits (inv.rest waits)
    · rw [flags j e]
      exact inv.rest waits

variable [DecidableEq κ]

theorem Inv.step {e : Event π} (inv : O.Inv s) (allowed : calm s e) (did : Did M s t e) :
    O.Inv t := by
  have locks : Locks t := inv.locks.step did
  cases did with
  | @call i p out may eq =>
    subst eq
    have same : Sleeps (s.put i (.entering p)) = Sleeps s := sleeps_put rfl (by simp [out, Phase.SleepsOn])
    refine inv.moved locks rfl rfl (by rw [same]; exact inv.free) nofun ?_ ?_ (fun _ _ _ _ rest => rest)
    · rw [same]
      exact fun _ _ held => held
    · rintro q ⟨⟩
      exact O.call (s := s) allowed may
  | @enter i p entering free eq =>
    subst eq
    have same : Sleeps { s.put i (.inside p) with lock := some i } = Sleeps s :=
      sleeps_put rfl (by simp [entering, Phase.SleepsOn])
    refine inv.moved locks rfl rfl nofun ?_ ?_ nofun (fun _ _ _ _ rest => rest)
    · rintro q ⟨⟩
      rw [same]
      refine O.enter (inv.free free) (fun k sleeps => ?_) (inv.rest (by rw [Waits, entering]; rfl))
      rw [Sleeps, entering] at sleeps
      exact sleeps
    · intro j q ne inside
      rw [inv.locks.inside inside] at free
      cases free
  | @go i p d q inside act eq =>
    subst eq
    have has := inv.locks.inside inside
    have same : Sleeps { s.put i (.inside q) with data := d } = Sleeps s :=
      sleeps_put rfl (by simp [inside, Phase.SleepsOn])
    obtain ⟨held, frame⟩ := O.go allowed inside (inv.held inside) act
    refine inv.moved locks rfl rfl ?_ ?_ ?_ nofun frame
    · intro free
      rw [show s.lock = none from free] at has
      cases has
    · rintro r ⟨⟩
      rw [same]
      exact held
    · exact fun ne other => absurd (inv.only has other) ne
  | @wakeup i p k q inside act free eq =>
    subst eq
    have has := inv.locks.inside inside
    have held := O.wakeup allowed inside (inv.held inside) act
    have woken := sleeps_wake (k := k) (q := q) inv.locks free
      (fun l => show ¬ (s.phase i).SleepsOn l by rw [inside]; exact id)
    refine ⟨locks, ?_, ?_, ?_⟩
    · intro unlocked
      rw [show s.lock = none from unlocked] at has
      cases has
    · intro j r at_
      have me : j = i := by
        by_contra ne
        rw [put_others ne] at at_
        exact ne (inv.only has (wake_inside at_))
      subst me
      have same : r = q := by simpa [eq_comm] using at_
      rw [woken, same]
      exact held
    · intro j r waits
      have ne : j ≠ i := by
        rintro rfl
        simp [Waits, Phase.WaitsAt] at waits
      rw [Waits, put_others ne] at waits
      exact inv.rest (wake_waits waits)
  | @sleep i p k q inside act free eq =>
    subst eq
    have has := inv.locks.inside inside
    have added : Sleeps { s.put i (.dozing k q) with inner := some i, lock := none } = _ :=
      sleeps_dozing (s := s) rfl (by simp [inside, Phase.SleepsOn])
    obtain ⟨free', rest⟩ := O.sleep allowed inside (inv.held inside) act
    refine inv.moved locks rfl rfl (by rw [added]; exact fun _ => free') nofun ?_ ?_
      (fun _ _ _ _ rest => rest)
    · exact fun ne other => absurd (inv.only has other) ne
    · rintro r ⟨⟩
      exact rest
  | @leave i p d r inside act eq =>
    subst eq
    have has := inv.locks.inside inside
    have same : Sleeps { s.put i .out with data := d, lock := none } = Sleeps s :=
      sleeps_put rfl (by simp [inside, Phase.SleepsOn])
    obtain ⟨free, frame⟩ := O.leave allowed inside (inv.held inside) act
    refine inv.moved locks rfl rfl (by rw [same]; exact fun _ => free) nofun ?_ nofun frame
    exact fun ne other => absurd (inv.only has other) ne
  | @doze i k p dozing eq =>
    subst eq
    have same : Sleeps { s.put i (.asleep k p) with inner := none } = Sleeps s :=
      sleeps_put rfl (by simp [dozing, Phase.SleepsOn])
    refine inv.moved locks rfl rfl (by rw [same]; exact inv.free) nofun ?_ ?_ (fun _ _ _ _ rest => rest)
    · rw [same]
      exact fun _ _ held => held
    · intro r waits
      exact inv.rest (by rw [Waits, dozing]; exact waits)
  | @kill i free eq =>
    subst eq
    have fewer := sleeps_rouse (i := i) inv.locks free
    have marked := inv.mark (.inl allowed)
    obtain ⟨roused, theirs⟩ := O.rouse allowed
    refine ⟨locks, ?_, ?_, ?_⟩
    · rw [fewer]
      exact fun unlocked => roused (inv.free unlocked)
    · intro j p inside
      have before : s.phase j = .inside p := by
        by_cases e : j = i
        · subst e
          exact rouse_inside (put_phase.symm.trans inside)
        · rwa [put_others e] at inside
      rw [fewer]
      exact theirs before (marked.held before)
    · intro j p waits
      refine marked.rest ?_
      by_cases e : j = i
      · subst e
        rw [Waits, put_phase] at waits
        exact rouse_waits waits
      · rwa [Waits, put_others e] at waits
  | @setkilled i eq =>
    subst eq
    exact inv.mark (.inr allowed)
  | @tick n eq =>
    subst eq
    obtain ⟨free, held, rest⟩ := O.tick allowed
    exact ⟨locks, fun unlocked => free (inv.free unlocked), fun inside => held (inv.held inside),
      fun waits => rest (inv.rest waits)⟩

theorem Inv.run {init : State σ π κ → Prop}
    (start : ∀ s, init s → Idle s ∧ O.free s.data (fun _ _ => False)) (run : Run M calm init s) :
    O.Inv s :=
  Reach.invariant O.Inv (fun s boot => Inv.start O (start s boot).1 (start s boot).2)
    (fun _ _ inv ⟨_, allowed, ok⟩ => inv.step allowed (did_of_step ok)) run

end Step
end Outline

section Sleepers

variable [DecidableEq κ] {M : Code σ π κ} {s t : State σ π κ}

theorem sleeper_before {e : Event π} {i : Nat} {k : κ} {p : π} (did : Did M s t e)
    (sleeps : (t.phase i).SleepsOn k) (waits : (t.phase i).WaitsAt p) :
    ((s.phase i).SleepsOn k ∧ (s.phase i).WaitsAt p) ∨
      ∃ q, s.phase i = .inside q ∧ M.act s.data i (s.killed i) q = .sleep k p := by
  have kept : ∀ (j : Nat) (ph : Phase π κ), (s.put j ph).phase i = t.phase i →
      (∀ k, ¬ ph.SleepsOn k) → (s.phase i).SleepsOn k ∧ (s.phase i).WaitsAt p := by
    grind [put_phase, put_others]
  cases did with
  | @call j q _ _ eq => exact .inl (kept j (.entering q) (by rw [eq]) (fun _ => id))
  | @enter j q _ _ eq => exact .inl (kept j (.inside q) (by rw [eq]) (fun _ => id))
  | @go j _ _ q _ _ eq => exact .inl (kept j (.inside q) (by rw [eq]) (fun _ => id))
  | @leave j _ _ _ _ _ eq => exact .inl (kept j .out (by rw [eq]) (fun _ => id))
  | @wakeup j _ l q _ _ _ eq =>
    subst eq
    by_cases e : i = j
    · subst e
      rw [put_phase] at sleeps
      exact sleeps.elim
    · rw [put_others e] at sleeps waits
      refine .inl ⟨?_, wake_waits waits⟩
      cases ph : s.phase i with
      | asleep l' r =>
        dsimp only at sleeps
        rw [ph, Phase.wake] at sleeps
        split at sleeps
        · exact sleeps.elim
        · exact sleeps
      | _ =>
        dsimp only at sleeps
        rw [ph] at sleeps
        exact sleeps
  | @sleep j q l r inside acts _ eq =>
    subst eq
    by_cases e : i = j
    · subst e
      have chan : l = k := by simpa [Phase.SleepsOn] using sleeps
      have point : r = p := by simpa [Phase.WaitsAt] using waits
      exact .inr ⟨q, inside, by rw [acts, chan, point]⟩
    · exact .inl (by simpa [put_others e] using And.intro sleeps waits)
  | @doze j l q dozing eq =>
    subst eq
    by_cases e : i = j
    · subst e
      rw [dozing]
      exact .inl (by simpa [Phase.SleepsOn, Phase.WaitsAt] using And.intro sleeps waits)
    · exact .inl (by simpa [put_others e] using And.intro sleeps waits)
  | @kill j _ eq =>
    subst eq
    by_cases e : i = j
    · subst e
      rw [put_phase] at sleeps waits
      refine .inl ⟨?_, rouse_waits waits⟩
      cases ph : s.phase i with
      | asleep l' r =>
        rw [ph] at sleeps
        exact sleeps.elim
      | _ =>
        rw [ph] at sleeps
        exact sleeps
    · rw [put_others e] at sleeps waits
      exact .inl ⟨sleeps, waits⟩
  | setkilled eq => subst eq; exact .inl ⟨sleeps, waits⟩
  | tick eq => subst eq; exact .inl ⟨sleeps, waits⟩

theorem sleepers {S : κ → π → Prop} {calm : State σ π κ → Event π → Prop}
    {init : State σ π κ → Prop} (starts : ∀ s, init s → Idle s)
    (sleeps : ∀ {d i x p k q}, M.act d i x p = .sleep k q → S k q) (run : Run M calm init s) :
    ∀ i k p, (s.phase i).SleepsOn k → (s.phase i).WaitsAt p → S k p := by
  refine Reach.invariant
    (fun s => ∀ i k p, (s.phase i).SleepsOn k → (s.phase i).WaitsAt p → S k p) ?_ ?_ run
  · intro s boot i k p asleep
    simp [(starts s boot).phase, Phase.SleepsOn] at asleep
  · rintro s t all ⟨e, _, ok⟩ i k p asleep waits
    rcases sleeper_before (did_of_step ok) asleep waits with before | ⟨q, _, acts⟩
    · exact all i k p before.1 before.2
    · exact sleeps acts

end Sleepers

structure Passes (M : Code σ π κ) (P : π → Prop) : Prop where
  start : ∀ {d p}, M.start d p = true → P p
  go : ∀ {d i x p e q}, P p → M.act d i x p = .go e q → P q
  wakeup : ∀ {d i x p k q}, P p → M.act d i x p = .wakeup k q → P q
  sleep : ∀ {d i x p k q}, P p → M.act d i x p = .sleep k q → P q

def Passes.outline {M : Code σ π κ} {P : π → Prop} (passes : Passes M P) :
    Outline M (fun _ _ => True) where
  free _ _ := True
  held _ _ _ _ p := P p
  rest _ _ _ p := P p
  call _ may := passes.start may
  enter _ _ rest := rest
  go _ _ held acts := ⟨passes.go held acts, fun _ _ _ _ => id⟩
  wakeup _ _ held acts := passes.wakeup held acts
  sleep _ _ held acts := ⟨trivial, passes.sleep held acts⟩
  leave _ _ _ _ := ⟨trivial, fun _ _ _ _ => id⟩
  mark _ := ⟨fun _ _ => id, fun _ => id⟩
  rouse _ := ⟨fun _ => trivial, fun _ => id⟩
  tick _ := ⟨fun _ => trivial, id, id⟩

theorem Passes.inside [DecidableEq κ] {M : Code σ π κ} {P : π → Prop} (passes : Passes M P)
    {init : State σ π κ → Prop} (starts : ∀ s, init s → Idle s) {s : State σ π κ}
    (run : Run M (fun _ _ => True) init s) {i : Nat} {p : π} (inside : s.phase i = .inside p) : P p :=
  have inv : passes.outline.Inv s := .run (fun s boot => ⟨starts s boot, trivial⟩) run
  inv.held inside

end Monitor
