import UvaOs.Lib.Monitor

/-! The semaphores of kernel/spinlock.c: any number of tasks that create, free, lower and
raise the semaphores of one table, which has one lock.

A call with an index outside of the table returns -1 and does nothing, so it is not a call
here. -/
namespace UvaOs.Sems

open Monitor

def NSEM : Nat := 32

/-- `struct sem`. The other fields are a record: which `semcreate` has made the semaphore and
with which count, and how many `semv` and `semp` have gone through since. -/
structure Sem where
  used : Bool
  count : BitVec 32
  birth : Nat
  init : BitVec 32
  vs : Nat
  ps : Nat

structure Table where
  sem : Nat → Sem
  births : Nat

def seminit : Table := ⟨fun _ => ⟨false, 0, 0, 0, 0, 0⟩, 0⟩

namespace Table

def put (d : Table) (k : Nat) (x : Sem) : Table := { d with sem := Function.update d.sem k x }

def free (d : Table) : Option Nat := (List.range NSEM).find? (fun k => !(d.sem k).used)

def create (d : Table) (k : Nat) (count : BitVec 32) : Table :=
  { d.put k ⟨true, count, d.births, count, 0, 0⟩ with births := d.births + 1 }

def drop (d : Table) (k : Nat) : Table :=
  d.put k { d.sem k with used := false, count := 0 }

def lower (d : Table) (k : Nat) : Table :=
  d.put k { d.sem k with count := (d.sem k).count - 1, ps := (d.sem k).ps + 1 }

def raise (d : Table) (k : Nat) : Table :=
  d.put k { d.sem k with count := (d.sem k).count + 1, vs := (d.sem k).vs + 1 }

/-- The semaphore that lives in a slot, named by the `semcreate` that made it. -/
def live (d : Table) (k : Nat) : Option Nat :=
  if (d.sem k).used then some (d.sem k).birth else none

end Table

/-- A call of `semp` or `semv` on slot `k`; `made` is what lived there when it was made. -/
structure Call where
  k : Nat
  made : Option Nat

/-- The points between the shared accesses. In `pdone`, `got` is the semaphore that lived in
the slot when its count was lowered. -/
inductive Point where
  | semcreate (count : BitVec 32)
  | semfree (k : Nat)
  | semp (c : Call)
  | ploop (c : Call)
  | pdone (c : Call) (got : Option Nat)
  | semv (c : Call)
  | vwake (c : Call)
  | vdone (c : Call)

def act (d : Table) : Point → Act Table Point Nat
  | .semcreate count =>
    match d.free with
    | some k => .leave (d.create k count) k
    | none => .leave d (-1)
  | .semfree k => .leave (d.drop k) 0
  | .semp c => if (d.sem c.k).used then .go d (.ploop c) else .leave d (-2)
  | .ploop c =>
    if (d.sem c.k).count = 0 then .sleep c.k (.ploop c)
    else if ((d.sem c.k).count - 1).toInt < 0 then .halt
    else .go (d.lower c.k) (.pdone c (d.live c.k))
  | .pdone _ _ => .leave d 0
  | .semv c =>
    if (d.sem c.k).used then
      if (d.sem c.k).count.toInt < 0 then .halt else .go (d.raise c.k) (.vwake c)
    else .leave d (-2)
  | .vwake c => .wakeup c.k (.vdone c)
  | .vdone _ => .leave d 0

def start (d : Table) : Point → Bool
  | .semcreate _ => true
  | .semfree k => k < NSEM
  | .semp c | .semv c => c.k < NSEM && c.made == d.live c.k
  | _ => false

def code : Code Table Point Nat := ⟨start, fun d _ _ => act d, fun d _ => d⟩

abbrev State : Type := Monitor.State Table Point Nat

structure Boot (s : State) : Prop where
  idle : Idle s
  data : s.data = seminit

inductive Does (d : Table) : Point → Act Table Point Nat → Prop
  | semcreate {count k} : d.free = some k →
      Does d (.semcreate count) (.leave (d.create k count) k)
  | noslot {count} : Does d (.semcreate count) (.leave d (-1))
  | semfree {k} : Does d (.semfree k) (.leave (d.drop k) 0)
  | semp {c : Call} : (d.sem c.k).used = true → Does d (.semp c) (.go d (.ploop c))
  | unused {c : Call} : (d.sem c.k).used = false → Does d (.semp c) (.leave d (-2))
  | sleep {c : Call} : (d.sem c.k).count = 0 → Does d (.ploop c) (.sleep c.k (.ploop c))
  | negative {c : Call} : ((d.sem c.k).count - 1).toInt < 0 → Does d (.ploop c) .halt
  | lower {c : Call} : (d.sem c.k).count ≠ 0 → 0 ≤ ((d.sem c.k).count - 1).toInt →
      Does d (.ploop c) (.go (d.lower c.k) (.pdone c (d.live c.k)))
  | pdone {c got} : Does d (.pdone c got) (.leave d 0)
  | novalue {c : Call} : (d.sem c.k).used = false → Does d (.semv c) (.leave d (-2))
  | below {c : Call} : (d.sem c.k).count.toInt < 0 → Does d (.semv c) .halt
  | raise {c : Call} : (d.sem c.k).used = true → 0 ≤ (d.sem c.k).count.toInt →
      Does d (.semv c) (.go (d.raise c.k) (.vwake c))
  | vwake {c : Call} : Does d (.vwake c) (.wakeup c.k (.vdone c))
  | vdone {c} : Does d (.vdone c) (.leave d 0)

theorem does (d : Table) (p : Point) : Does d p (act d p) := by
  cases p with
  | semcreate count =>
    simp only [act]
    split
    · rename_i found
      exact .semcreate found
    · exact .noslot
  | semfree k => exact .semfree
  | semp c =>
    simp only [act]
    split
    · rename_i used
      exact .semp used
    · rename_i unused
      exact .unused (Bool.not_eq_true _ ▸ unused)
  | ploop c =>
    simp only [act]
    split
    · rename_i zero
      exact .sleep zero
    · rename_i some_
      split
      · rename_i negative
        exact .negative negative
      · rename_i enough
        exact .lower some_ (Int.not_lt.mp enough)
  | pdone c got => exact .pdone
  | semv c =>
    simp only [act]
    split
    · rename_i used
      split
      · rename_i below
        exact .below below
      · rename_i enough
        exact .raise used (Int.not_lt.mp enough)
    · rename_i unused
      exact .novalue (Bool.not_eq_true _ ▸ unused)
  | vwake c => exact .vwake
  | vdone c => exact .vdone

theorem did {d : Table} {task : Nat} {killed : Bool} {p : Point} {a : Act Table Point Nat}
    (acts : code.act d task killed p = a) : Does d p a := acts ▸ does ..

section

variable (d : Table) (k : Nat)

@[simp] theorem put_same (x : Sem) : (d.put k x).sem k = x := Function.update_self ..

theorem put_other {l : Nat} (ne : l ≠ k) (x : Sem) : (d.put k x).sem l = d.sem l :=
  Function.update_of_ne ne ..

end

/-! The count is what it was created with, raised and lowered -/

variable {k : Nat} {A B : Nat → Nat → Prop} {x : Sem} {d : Table}

/-- A semaphore that was created with a count of at least 0. -/
def Conserved (x : Sem) : Prop :=
  x.used = true → 0 ≤ x.init.toInt → x.count.toInt = x.init.toInt + x.vs - x.ps ∧ 0 ≤ x.count.toInt

/-- Who sleeps finds nothing to take. -/
def Wanting (d : Table) (A : Nat → Nat → Prop) : Prop := ∀ k i, A k i → (d.sem k).count = 0

/-- A `semv` never raises the largest count, and `semcreate` takes no slot that somebody
still sleeps on. -/
def Tame (s : State) : Event Point → Prop
  | .go i => ∀ p, s.phase i = .inside p →
    match p with
    | .semv c => (s.data.sem c.k).count ≠ BitVec.intMax 32
    | .semcreate _ => ∀ k, s.data.free = some k → ∀ j, ¬ Sleeps s k j
    | _ => True
  | _ => True

/-- What the holder of the table knows: after a `count++` it owes a `wakeup`. -/
def counting (d : Table) (A : Nat → Nat → Prop) : Point → Prop
  | .vwake c => Wanting d (fun k i => A k i ∧ k ≠ c.k)
  | _ => Wanting d A

theorem conserved_put (all : ∀ l, Conserved (d.sem l))
    (new : Conserved x) (l : Nat) : Conserved ((d.put k x).sem l) := by
  by_cases e : l = k
  · rw [e, put_same]
    exact new
  · rw [put_other d k e]
    exact all l

theorem wanting_put (all : Wanting d A)
    (new : ∀ i, A k i → x.count = 0) : Wanting (d.put k x) A := by
  intro l i asleep
  by_cases e : l = k
  · subst e
    rw [put_same]
    exact new i asleep
  · rw [put_other d k e]
    exact all l i asleep

theorem Wanting.mono (h : Wanting d A)
    (fewer : ∀ k i, B k i → A k i) : Wanting d B := fun k i asleep => h k i (fewer k i asleep)

theorem counting_mono {p : Point} (h : counting d A p)
    (fewer : ∀ k i, B k i → A k i) : counting d B p := by
  cases p with
  | vwake c => exact h.mono (fun k i asleep => ⟨fewer k i asleep.1, asleep.2⟩)
  | _ => exact h.mono fewer

theorem toInt_lower {x : BitVec 32} (positive : 0 ≤ x.toInt) (some_ : x ≠ 0) :
    (x - 1).toInt = x.toInt - 1 ∧ 0 ≤ (x - 1).toInt := by
  have nonzero : x.toNat ≠ 0 := fun zero => some_ (BitVec.eq_of_toNat_eq zero)
  have one : (1 : BitVec 32).toNat = 1 := rfl
  have range := x.isLt
  rw [BitVec.toInt_eq_toNat_cond] at positive ⊢
  rw [BitVec.toInt_eq_toNat_cond, BitVec.toNat_sub, one]
  omega

theorem toInt_raise {x : BitVec 32} (positive : 0 ≤ x.toInt) (most : x ≠ BitVec.intMax 32) :
    (x + 1).toInt = x.toInt + 1 := by
  have smaller : x.toNat ≠ 2 ^ 31 - 1 := fun max => most (BitVec.eq_of_toNat_eq max)
  have one : (1 : BitVec 32).toNat = 1 := rfl
  have range := x.isLt
  rw [BitVec.toInt_eq_toNat_cond] at positive ⊢
  rw [BitVec.toInt_eq_toNat_cond, BitVec.toNat_add, one]
  omega

theorem Conserved.lower {x : Sem} (h : Conserved x) (some_ : x.count ≠ 0) :
    Conserved { x with count := x.count - 1, ps := x.ps + 1 } := by
  intro used init
  obtain ⟨count, positive⟩ := h used init
  obtain ⟨less, still⟩ := toInt_lower positive some_
  refine ⟨?_, still⟩
  dsimp only
  rw [less, count]
  omega

theorem Conserved.raise {x : Sem} (h : Conserved x) (most : x.count ≠ BitVec.intMax 32) :
    Conserved { x with count := x.count + 1, vs := x.vs + 1 } := by
  intro used init
  obtain ⟨count, positive⟩ := h used init
  have more := toInt_raise positive most
  dsimp only
  rw [more, count]
  omega

def Point.resumes : Point → Bool
  | .semcreate _ | .semfree _ | .semp _ | .ploop _ | .semv _ => true
  | _ => false

def conserves : Outline code Tame where
  free d A := (∀ k, Conserved (d.sem k)) ∧ Wanting d A
  held d A _ _ p := (∀ k, Conserved (d.sem k)) ∧ counting d A p
  rest _ _ _ p := p.resumes = true
  call := by
    intro s i p _ begins
    cases p <;> first | rfl | cases begins
  enter := by
    intro d A i x p free _ resumes
    refine ⟨free.1, ?_⟩
    cases p <;> first | exact free.2 | cases resumes
  go := by
    intro s i p d q tame inside ⟨all, h⟩ acts
    refine ⟨?_, fun _ _ _ _ rest => rest⟩
    cases did acts with
    | semp used => exact ⟨all, h⟩
    | lower some_ enough =>
      refine ⟨conserved_put all ((all _).lower some_), wanting_put h ?_⟩
      exact fun j asleep => absurd (h _ j asleep) some_
    | raise used enough =>
      refine ⟨conserved_put all ((all _).raise (tame _ inside)), wanting_put ?_ ?_⟩
      · exact h.mono (fun _ _ asleep => asleep.1)
      · exact fun _ asleep => absurd rfl asleep.2
  wakeup := by
    intro s i p k q _ inside ⟨all, h⟩ acts
    cases did acts with
    | vwake => exact ⟨all, h⟩
  sleep := by
    intro s i p k q _ inside ⟨all, h⟩ acts
    cases did acts with
    | sleep zero =>
      refine ⟨⟨all, ?_⟩, rfl⟩
      rintro l j (asleep | ⟨rfl, _⟩)
      · exact h l j asleep
      · exact zero
  leave := by
    intro s i p d r tame inside ⟨all, h⟩ acts
    refine ⟨?_, fun _ _ _ _ rest => rest⟩
    cases did acts with
    | @semcreate count k found =>
      refine ⟨conserved_put (d := s.data) all ?_, wanting_put (d := s.data) h ?_⟩
      · exact fun _ init => ⟨by simp, init⟩
      · exact fun j asleep => absurd asleep (tame _ inside k found j)
    | noslot => exact ⟨all, h⟩
    | semfree => exact ⟨conserved_put all nofun, wanting_put h (fun _ _ => rfl)⟩
    | unused _ => exact ⟨all, h⟩
    | pdone => exact ⟨all, h⟩
    | novalue _ => exact ⟨all, h⟩
    | vdone => exact ⟨all, h⟩
  mark _ := ⟨fun _ _ h => h, fun _ rest => rest⟩
  rouse _ :=
    ⟨fun h => ⟨h.1, h.2.mono (fun _ _ asleep => asleep.1)⟩,
      fun _ h => ⟨h.1, counting_mono h.2 (fun _ _ asleep => asleep.1)⟩⟩
  tick _ := ⟨id, id, id⟩

/- In every tame run: the count of a semaphore, the bound it gives for `semp`, and what
sleepers wait for. -/
theorem semaphore_conserved {s : State} (run : Run code Tame Boot s) (k : Nat) :
    ((s.data.sem k).used = true → 0 ≤ (s.data.sem k).init.toInt →
      (s.data.sem k).count.toInt = (s.data.sem k).init.toInt + (s.data.sem k).vs - (s.data.sem k).ps ∧
      0 ≤ (s.data.sem k).count.toInt ∧
      (s.data.sem k).ps ≤ (s.data.sem k).init.toInt + (s.data.sem k).vs) ∧
    (s.lock = none → ∀ i p, s.phase i = .asleep k p → (s.data.sem k).count = 0) := by
  have inv : conserves.Inv s := by
    refine Outline.Inv.run (fun s boot => ⟨boot.idle, ?_, fun _ _ => nofun⟩) run
    rw [boot.data]
    exact fun _ => nofun
  refine ⟨fun used init => ?_, fun unlocked i p asleep => ?_⟩
  · have all : ∀ k, Conserved (s.data.sem k) :=
      inv.always (P := fun d => ∀ k, Conserved (d.sem k)) And.left And.left
    obtain ⟨count, positive⟩ := all k used init
    exact ⟨count, positive, by omega⟩
  · refine (inv.free unlocked).2 k i ?_
    rw [Sleeps, asleep]
    rfl

def bootState : State := ⟨seminit, none, none, fun _ => .out, fun _ => false⟩

theorem bootState_boot : Boot bootState := ⟨⟨rfl, rfl, fun _ => rfl⟩, rfl⟩

def creates (count : BitVec 32) : List (Event Point) := [.call 0 (.semcreate count), .go 0, .go 0]

def takes : List (Event Point) :=
  creates 1 ++ [.call 1 (.semp ⟨0, some 0⟩), .go 1, .go 1, .go 1]

theorem takes_tame : Fine code Tame bootState takes := by
  refine And.intro trivial (And.intro ?_ (And.intro ?_ (And.intro trivial (And.intro ?_
    (And.intro ?_ (And.intro ?_ trivial))))))
  · rintro p ⟨⟩
  · rintro p ⟨⟩ k _ j asleep
    by_cases e : j = 0
    · subst e
      exact asleep
    · simp only [Sleeps, State.put, Function.update_of_ne e] at asleep
      exact asleep
  · rintro p ⟨⟩
  · rintro p ⟨⟩
    trivial
  · rintro p ⟨⟩
    trivial

theorem takes_lowers :
    ∃ s, Run code Tame Boot s ∧ (s.data.sem 0).used = true ∧ 0 ≤ (s.data.sem 0).init.toInt ∧
      (s.data.sem 0).ps = 1 ∧
      (s.data.sem 0).count.toInt = (s.data.sem 0).init.toInt + (s.data.sem 0).vs - (s.data.sem 0).ps := by
  have run : Run code Tame Boot (Prog.played (step code) bootState takes) :=
    Run.replay takes (.start bootState_boot) takes_tame rfl
  exact ⟨_, run, rfl, by decide, rfl, ((semaphore_conserved run 0).1 rfl (by decide)).1⟩

/-- Task 1 raises a semaphore that was made with the largest count. -/
def overflows : List (Event Point) :=
  creates (BitVec.intMax 32) ++ [.call 1 (.semv ⟨0, some 0⟩), .go 1, .go 1, .go 1, .go 1]

/-- Task 1 sleeps on an empty semaphore, which is freed and made again with one unit. -/
def remade : List (Event Point) :=
  creates 0 ++ [.call 1 (.semp ⟨0, some 0⟩), .go 1, .go 1, .go 1, .go 1] ++
    [.call 0 (.semfree 0), .go 0, .go 0] ++ creates 1

theorem overflows_negative :
    (∃ s, Run code (fun _ _ => True) Boot s ∧ s.lock = none ∧ s.inner = none ∧
      (s.data.sem 0).used = true ∧ 0 ≤ (s.data.sem 0).init.toInt ∧ (s.data.sem 0).vs = 1 ∧
      (s.data.sem 0).count.toInt < 0) ∧
    ∃ s p, Run code (fun _ _ => True) Boot s ∧ s.lock = none ∧ s.inner = none ∧
      s.phase 1 = .asleep 0 p ∧ (s.data.sem 0).count = 1 := by
  have first : Run code (fun _ _ => True) Boot (Prog.played (step code) bootState overflows) :=
    Run.play overflows bootState_boot (fun _ _ _ => trivial) rfl
  have second : Run code (fun _ _ => True) Boot (Prog.played (step code) bootState remade) :=
    Run.play remade bootState_boot (fun _ _ _ => trivial) rfl
  exact ⟨⟨_, first, rfl, rfl, rfl, by decide, rfl, by decide⟩, _, _, second, rfl, rfl, rfl, rfl⟩

end UvaOs.Sems
