import UvaOs.Lib.Monitor

/-! Tasks that heed `kill`: code that tests the flag of a task before each `sleep` of it.

Between the test and the `sleep` there is a gap in which a `kill` goes unnoticed. A task that
is killed elsewhere never sleeps again, and each of its own steps brings it closer to the end
of its call. -/
namespace Monitor

open Prog (Reach)

variable {σ π κ : Type}

/-- `gap` are the points behind a test of the flag from which a task may go to sleep; at the
others a task that has been killed only goes on to points of a smaller `size`. -/
structure Attentive (M : Code σ π κ) where
  gap : π → Bool
  size : π → Nat
  start : ∀ {d p}, M.start d p = true → gap p = false
  wakes : ∀ {d i x p k q}, M.act d i x p = .sleep k q → gap q = false
  awake : ∀ {d i p k q}, gap p = false → M.act d i true p ≠ .sleep k q
  go : ∀ {d i p e q}, gap p = false → M.act d i true p = .go e q → gap q = false ∧ size q < size p
  wakeup : ∀ {d i p k q}, gap p = false → M.act d i true p = .wakeup k q →
    gap q = false ∧ size q < size p

/-- States reached from `s` in any number of steps. -/
def Later [DecidableEq κ] (M : Code σ π κ) (s : State σ π κ) : State σ π κ → Prop :=
  Reach (· = s) (fun a b => ∃ e, step M a e = .ok b)

theorem Later.play [DecidableEq κ] {M : Code σ π κ} {s t : State σ π κ} (es : List (Event π))
    (run : Prog.play (step M) s es = .ok t) : Later M s t :=
  Reach.play (fun _ e _ (_ : True) ok => ⟨e, ok⟩) es (.start rfl) (fun _ _ => trivial) run

/-- The steps from `s` on, `n` of them by task `i` itself, while the call it is in goes on. -/
inductive During [DecidableEq κ] (M : Code σ π κ) (i : Nat) (s : State σ π κ) :
    Nat → State σ π κ → Prop
  | start : During M i s 0 s
  | own {n t u} : During M i s n t → t.phase i ≠ .out → step M t (.go i) = .ok u →
      During M i s (n + 1) u
  | other {n t u e} : During M i s n t → t.phase i ≠ .out → e ≠ .go i → step M t e = .ok u →
      During M i s n u

/-- From `s` on task `i` never sleeps, and the call it is in returns: the task is never stuck
while the locks are free, and its own steps in the call have a bound. -/
structure Heeds [DecidableEq κ] (M : Code σ π κ) (i : Nat) (s : State σ π κ) : Prop where
  awake : ∀ {t}, Later M s t → ∀ k, ¬ Sleeps t k i
  moves : ∀ {t}, Later M s t → t.phase i ≠ .out → t.lock = none ∨ t.lock = some i → t.inner = none →
    step M t (.go i) ≠ .error .blocked
  returns : ∃ bound, ∀ {n t}, During M i s n t → n ≤ bound ∧ (n = bound → t.phase i = .out)

namespace Attentive

variable {M : Code σ π κ} (A : Attentive M)

def Safe : Phase π κ → Prop
  | .out => True
  | .entering p | .inside p => A.gap p = false
  | .dozing .. | .asleep .. => False

structure Doomed (s : State σ π κ) (i : Nat) : Prop where
  killed : s.killed i = true
  safe : A.Safe (s.phase i)

/-- A bound for the steps of its own that a task needs then. -/
def left : Phase π κ → Nat
  | .entering p => A.size p + 2
  | .inside p => A.size p + 1
  | _ => 0

variable {A} {s t : State σ π κ} {i : Nat}

theorem Safe.awake {ph : Phase π κ} (safe : A.Safe ph) (k : κ) : ¬ ph.SleepsOn k := by
  cases ph with
  | dozing => exact safe.elim
  | asleep => exact safe.elim
  | _ => exact id

theorem Safe.rouse {ph : Phase π κ} (safe : A.Safe ph) : ph.rouse = ph := by
  cases ph with
  | asleep => exact safe.elim
  | _ => rfl

theorem Safe.left_zero {ph : Phase π κ} (safe : A.Safe ph) (none : A.left ph = 0) : ph = .out := by
  cases ph with
  | out => rfl
  | entering p => simp [left] at none
  | inside p => simp [left] at none
  | dozing => exact safe.elim
  | asleep => exact safe.elim

variable [DecidableEq κ]

theorem Safe.wake {ph : Phase π κ} (safe : A.Safe ph) (k : κ) : ph.wake k = ph := by
  cases ph with
  | asleep => exact safe.elim
  | _ => rfl

theorem Safe.stays {e : Event π} (safe : A.Safe (s.phase i)) (did : Did M s t e) (go : e ≠ .go i)
    (call : ∀ p, e ≠ .call i p) : t.phase i = s.phase i := by
  cases did with
  | @call j p _ _ eq => grind [put_others]
  | @kill j _ eq =>
    subst eq
    by_cases same : i = j
    · subst same
      rw [put_phase, safe.rouse]
    · rw [put_others same]
      rfl
  | setkilled eq => rw [eq]; rfl
  | tick eq => rw [eq]
  | @wakeup j p k q _ _ _ eq => grind [safe.wake, put_others]
  | @enter j _ _ _ eq | @go j _ _ _ _ _ eq | @sleep j _ _ _ _ _ _ eq | @leave j _ _ _ _ _ eq
  | @doze j _ _ _ eq =>
    have ne : i ≠ j := fun same => go (by rw [same])
    rw [eq]
    exact put_others ne

theorem Doomed.own (doomed : A.Doomed s i) (did : Did M s t (.go i)) :
    A.Safe (t.phase i) ∧ A.left (t.phase i) < A.left (s.phase i) := by
  obtain ⟨dead, safe⟩ := doomed
  cases did with
  | @enter _ p entering _ eq =>
    rw [entering] at safe ⊢
    subst eq
    simp only [put_phase]
    exact ⟨safe, Nat.lt_succ_self _⟩
  | @go _ p d q inside acts eq =>
    rw [inside] at safe ⊢
    rw [dead] at acts
    obtain ⟨safe', smaller⟩ := A.go safe acts
    subst eq
    simp only [put_phase]
    exact ⟨safe', Nat.succ_lt_succ smaller⟩
  | @wakeup _ p k q inside acts _ eq =>
    rw [inside] at safe ⊢
    rw [dead] at acts
    obtain ⟨safe', smaller⟩ := A.wakeup safe acts
    subst eq
    simp only [put_phase]
    exact ⟨safe', Nat.succ_lt_succ smaller⟩
  | @sleep _ p k q inside acts _ eq =>
    rw [inside] at safe
    rw [dead] at acts
    exact absurd acts (A.awake safe)
  | @leave _ p d r inside acts eq =>
    rw [inside]
    subst eq
    simp only [put_phase]
    exact ⟨trivial, Nat.succ_pos _⟩
  | doze dozing eq =>
    rw [dozing] at safe
    exact safe.elim

theorem killed_stays {e : Event π} (did : Did M s t e) (dead : s.killed i = true) :
    t.killed i = true := by
  have marked : ∀ j, (s.mark j).killed i = true := by
    intro j
    rw [State.mark]
    by_cases same : i = j
    · rw [same]
      exact Function.update_self ..
    · exact (Function.update_of_ne same ..).trans dead
  cases did with
  | kill _ eq => rw [eq]; exact marked _
  | setkilled eq => rw [eq]; exact marked _
  | call _ _ eq | enter _ _ eq | go _ _ eq | wakeup _ _ _ eq | sleep _ _ _ eq | leave _ _ eq
  | doze _ eq | tick eq => rw [eq]; exact dead

section

variable (doomed : A.Doomed s i)
include doomed

theorem Doomed.step {e : Event π} (did : Did M s t e) : A.Doomed t i := by
  refine ⟨killed_stays did doomed.killed, ?_⟩
  by_cases go : e = .go i
  · subst go
    exact (doomed.own did).1
  · by_cases call : ∃ p, e = .call i p
    · obtain ⟨p, rfl⟩ := call
      cases did with
      | call _ may eq =>
        rw [eq, put_phase]
        exact A.start may
    · grind [doomed.safe.stays, doomed.safe]

theorem Doomed.later (locks : Locks s) (later : Later M s t) : A.Doomed t i ∧ Locks t := by
  refine Reach.invariant (fun u => A.Doomed u i ∧ Locks u) ?_ ?_ later
  · rintro _ rfl
    exact ⟨doomed, locks⟩
  · rintro t u ⟨doomed, locks⟩ ⟨e, ok⟩
    exact ⟨doomed.step (did_of_step ok), locks.step (did_of_step ok)⟩

theorem Doomed.during {n : Nat} (during : During M i s n t) :
    A.Doomed t i ∧ n + A.left (t.phase i) ≤ A.left (s.phase i) := by
  induction during with
  | start => exact ⟨doomed, Nat.le_of_eq (Nat.zero_add _)⟩
  | own _ _ ok ih =>
    have less := (ih.1.own (did_of_step ok)).2
    exact ⟨ih.1.step (did_of_step ok), by omega⟩
  | @other n t u e _ busy ne ok ih =>
    refine ⟨ih.1.step (did_of_step ok), ?_⟩
    have did := did_of_step ok
    rw [ih.1.safe.stays did ne ?_]
    · exact ih.2
    · rintro p rfl
      cases did with
      | call out => exact busy out

theorem Doomed.moves (busy : s.phase i ≠ .out)
    (lock : s.lock = none ∨ s.lock = some i) (locks : Locks s) (inner : s.inner = none) :
    Monitor.step M s (.go i) ≠ .error .blocked := by
  have safe := doomed.safe
  unfold Monitor.step Monitor.go
  dsimp only
  cases ph : s.phase i with
  | out => exact absurd ph busy
  | dozing => rw [ph] at safe; exact safe.elim
  | asleep => rw [ph] at safe; exact safe.elim
  | entering p =>
    have free : s.lock = none := by
      refine lock.resolve_right (locks.not_lock ?_)
      rw [ph]
      rfl
    dsimp only
    rw [if_pos free]
    exact nofun
  | inside p =>
    dsimp only
    unfold perform
    split
    · exact nofun
    · rw [if_pos inner]
      exact nofun
    · rw [if_pos inner]
      exact nofun
    · exact nofun
    · exact nofun

theorem Doomed.heeds (locks : Locks s) : Heeds M i s where
  awake later := (doomed.later locks later).1.safe.awake
  moves later busy lock inner :=
    have ⟨still, locks⟩ := doomed.later locks later
    still.moves busy lock locks inner
  returns := by
    refine ⟨A.left (s.phase i), fun during => ?_⟩
    obtain ⟨still, bound⟩ := doomed.during during
    refine ⟨by omega, fun all => still.safe.left_zero (by omega)⟩

end

variable (A) in
def clear : Outline M (fun _ _ => True) where
  free _ _ := True
  held _ _ _ _ _ := True
  rest _ _ _ p := A.gap p = false
  call _ may := A.start may
  enter _ _ _ := trivial
  go _ _ _ _ := ⟨trivial, fun _ _ _ _ => id⟩
  wakeup _ _ _ _ := trivial
  sleep _ _ _ acts := ⟨trivial, A.wakes acts⟩
  leave _ _ _ _ := ⟨trivial, fun _ _ _ _ => id⟩
  mark _ := ⟨fun _ _ _ => trivial, fun _ => id⟩
  rouse _ := ⟨fun _ => trivial, fun _ _ => trivial⟩
  tick _ := ⟨fun _ => trivial, fun _ => trivial, id⟩

theorem heeds {init : State σ π κ → Prop} (starts : ∀ s, init s → Idle s)
    (reached : Run M (fun _ _ => True) init s) (kill : Monitor.step M s (.kill i) = .ok t)
    (outside : ∀ p, s.phase i = .inside p → A.gap p = false) : Heeds M i t := by
  have inv : A.clear.Inv s :=
    Outline.Inv.run (fun s boot => ⟨starts s boot, trivial⟩) reached
  have did := did_of_step kill
  refine Doomed.heeds (A := A) ?_ (inv.locks.step did)
  cases did with
  | kill free eq =>
    subst eq
    refine ⟨Function.update_self .., ?_⟩
    rw [put_phase]
    cases ph : s.phase i with
    | out => trivial
    | entering p => exact inv.rest (i := i) (by rw [Waits, ph]; rfl)
    | inside p => exact outside p ph
    | dozing k p =>
      rw [inv.locks.dozing ph] at free
      cases free
    | asleep k p => exact inv.rest (i := i) (by rw [Waits, ph]; rfl)

end Attentive

end Monitor
