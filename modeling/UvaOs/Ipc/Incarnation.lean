import UvaOs.Ipc.Semaphore

/-! The index of a semaphore is its only name. When a slot is freed and taken again only
while nobody is in a call on it, a call works on the semaphore that it was made for. -/
namespace UvaOs.Sems

open Monitor

def Point.call : Point → Option Call
  | .semp c | .ploop c | .pdone c _ | .semv c | .vwake c | .vdone c => some c
  | .semcreate _ | .semfree _ => none

/-- The slot whose semaphore is made or freed at a point. -/
def Point.renews (d : Table) : Point → Option Nat
  | .semcreate _ => d.free
  | .semfree k => some k
  | _ => none

/-- No semaphore is made or freed in a slot while another task is in a call on the slot. -/
def Alone (s : State) : Event Point → Prop
  | .go i => ∀ p k, s.phase i = .inside p → p.renews s.data = some k →
    ∀ j q c, j ≠ i → Waits s j q → q.call = some c → c.k ≠ k
  | _ => True

/-- The call was made for the semaphore that lives in the slot. -/
def Call.Current (c : Call) (d : Table) : Prop := c.made = d.live c.k

def aware (d : Table) : Point → Prop
  | .semcreate _ | .semfree _ => True
  | .semp c | .semv c | .vwake c | .vdone c => c.Current d
  | .ploop c => c.Current d ∧ c.made.isSome
  | .pdone c got => c.Current d ∧ c.made.isSome ∧ got = c.made

theorem aware_congr {d e : Table} {p : Point} (h : aware d p)
    (same : ∀ c, p.call = some c → e.live c.k = d.live c.k) : aware e p := by
  cases p with
  | semcreate | semfree => trivial
  | semp c | semv c | vwake c | vdone c => exact Eq.trans h (same c rfl).symm
  | ploop c => exact ⟨Eq.trans h.1 (same c rfl).symm, h.2⟩
  | pdone c got => exact ⟨Eq.trans h.1 (same c rfl).symm, h.2⟩

theorem aware_call {d : Table} {p : Point} {c : Call} (h : aware d p) (call : p.call = some c) :
    c.made = d.live c.k := by
  cases p with
  | semcreate | semfree => cases call
  | semp | semv | vwake | vdone => cases call; exact h
  | ploop | pdone => cases call; exact h.1

section

variable (d : Table) (k l : Nat)

theorem live_create {count : BitVec 32} (ne : l ≠ k) : (d.create k count).live l = d.live l := by
  simp only [Table.live, Table.create, put_other d k ne]

theorem live_drop (ne : l ≠ k) : (d.drop k).live l = d.live l := by
  simp only [Table.live, Table.drop, put_other d k ne]

theorem live_lower : (d.lower k).live l = d.live l := by
  by_cases e : l = k
  · simp only [e, Table.live, Table.lower, put_same]
  · simp only [Table.live, Table.lower, put_other d k e]

theorem live_raise : (d.raise k).live l = d.live l := by
  by_cases e : l = k
  · simp only [e, Table.live, Table.raise, put_same]
  · simp only [Table.live, Table.raise, put_other d k e]

end

theorem live_used {d : Table} {k : Nat} (used : (d.sem k).used = true) : (d.live k).isSome := by
  rw [Table.live, if_pos used]
  rfl

def names : Outline code Alone where
  free _ _ := True
  held d _ _ _ p := aware d p
  rest d _ _ p := aware d p
  call := by
    intro s i p _ begins
    cases p with
    | semcreate | semfree => trivial
    | semp c | semv c =>
      have both := Bool.and_eq_true_iff.mp begins
      exact eq_of_beq both.2
    | _ => cases begins
  enter _ _ h := h
  go := by
    intro s i p d q _ inside h acts
    cases did acts with
    | @semp c used => exact ⟨⟨h, (show c.made = _ from h) ▸ live_used used⟩, fun _ _ _ _ rest => rest⟩
    | @lower c some_ enough =>
      refine ⟨⟨h.1.trans (live_lower ..).symm, h.2, h.1.symm⟩, ?_⟩
      exact fun _ _ _ _ rest => aware_congr rest (fun _ _ => live_lower ..)
    | @raise c used enough =>
      refine ⟨Eq.trans h (live_raise ..).symm, ?_⟩
      exact fun _ _ _ _ rest => aware_congr rest (fun _ _ => live_raise ..)
  wakeup := by
    intro s i p k q _ inside h acts
    cases did acts with
    | vwake => exact h
  sleep := by
    intro s i p k q _ inside h acts
    cases did acts with
    | sleep zero => exact ⟨trivial, h⟩
  leave := by
    intro s i p d r alone inside h acts
    refine ⟨trivial, fun j q ne waits rest => ?_⟩
    cases did acts with
    | @semcreate count k found =>
      exact aware_congr rest fun c call =>
        live_create s.data k _ (alone _ _ inside found j q c ne waits call)
    | @semfree k =>
      exact aware_congr rest fun c call =>
        live_drop s.data k _ (alone _ _ inside rfl j q c ne waits call)
    | noslot | unused _ | pdone | novalue _ | vdone => exact rest
  mark _ := ⟨fun _ _ h => h, fun _ rest => rest⟩
  rouse _ := ⟨fun _ => trivial, fun _ h => h⟩
  tick _ := ⟨id, id, id⟩

theorem count_changed {d e : Table} {p : Point} {a : Act Table Point Nat} {k q : Nat}
    (does : Does d p a) (after : (∃ r, a = .go e r) ∨ ∃ r, a = .leave e r)
    (before : d.live k = some q) (still : e.live k = some q)
    (changed : (e.sem k).count ≠ (d.sem k).count) : ∃ c, p.call = some c ∧ c.k = k := by
  have used : (d.sem k).used = true := by
    by_contra unused
    simp [Table.live, unused] at before
  rcases after with ⟨r, rfl⟩ | ⟨r, rfl⟩
  · cases does with
    | semp => exact absurd rfl changed
    | @lower c =>
      refine ⟨c, rfl, ?_⟩
      by_contra other
      exact changed (congrArg Sem.count (put_other d c.k (Ne.symm other) _))
    | @raise c =>
      refine ⟨c, rfl, ?_⟩
      by_contra other
      exact changed (congrArg Sem.count (put_other d c.k (Ne.symm other) _))
  · cases does with
    | @semcreate count l found =>
      have other : k ≠ l := by
        rintro rfl
        have unused := List.find?_some found
        rw [used] at unused
        cases unused
      exact absurd (congrArg Sem.count (put_other d l other _)) changed
    | @semfree l =>
      have other : k ≠ l := by
        rintro rfl
        simp [Table.live, Table.drop] at still
      exact absurd (congrArg Sem.count (put_other d l other _)) changed
    | noslot | unused _ | pdone | novalue _ | vdone => exact absurd rfl changed

/- In every run where slots are renewed alone: a `semp` that returns 0 has taken from the
semaphore it was made for, nobody sleeps on a semaphore that is gone, and who changes a count
was called for that semaphore. -/
theorem semaphore_not_confused {s : State} (run : Run code Alone Boot s) :
    (∀ i c got, Returns code s i (.pdone c got) 0 → c.made.isSome ∧ got = c.made) ∧
    (∀ i k p, s.phase i = .asleep k p →
      ∃ c, p.call = some c ∧ c.made.isSome ∧ c.made = s.data.live c.k) ∧
    (∀ e t k q, step code s e = .ok t → s.data.live k = some q → t.data.live k = some q →
      (t.data.sem k).count ≠ (s.data.sem k).count →
      ∃ i p c, e = .go i ∧ s.phase i = .inside p ∧ p.call = some c ∧ c.k = k ∧ c.made = some q) := by
  have inv : names.Inv s := Outline.Inv.run (fun s boot => ⟨boot.idle, trivial⟩) run
  refine ⟨?_, ?_, ?_⟩
  · rintro i c got ⟨inside, -⟩
    exact (inv.held inside).2
  · intro i k p asleep
    have loops : ∃ c, p = .ploop c := by
      refine sleepers (S := fun _ q => ∃ c, q = .ploop c) (fun s boot => boot.idle) ?_ run i k p
        (by rw [asleep]; rfl) (by rw [asleep]; rfl)
      intro d i x p k q acts
      cases did acts with
      | sleep zero => exact ⟨_, rfl⟩
    obtain ⟨c, rfl⟩ := loops
    have waits : Waits s i (.ploop c) := by
      rw [Waits, asleep]
      rfl
    have known : aware s.data (.ploop c) := inv.rest waits
    exact ⟨c, rfl, known.2, known.1⟩
  · intro e t k q ok before still changed
    have mine : ∀ {i p a}, s.phase i = .inside p → code.act s.data i (s.killed i) p = a →
        (∃ r, a = .go t.data r) ∨ (∃ r, a = .leave t.data r) →
        ∃ c, p.call = some c ∧ c.k = k ∧ c.made = some q := by
      intro i p a inside acts after
      obtain ⟨c, call, rfl⟩ := count_changed (did acts) after before still changed
      exact ⟨c, call, rfl, (aware_call (inv.held inside) call).trans before⟩
    cases did_of_step ok with
    | @go i p d r inside acts eq =>
      subst eq
      obtain ⟨c, call⟩ := mine inside acts (.inl ⟨r, rfl⟩)
      exact ⟨i, p, c, rfl, inside, call⟩
    | @leave i p d r inside acts eq =>
      subst eq
      obtain ⟨c, call⟩ := mine inside acts (.inr ⟨r, rfl⟩)
      exact ⟨i, p, c, rfl, inside, call⟩
    | call _ _ eq => subst eq; exact absurd rfl changed
    | enter _ _ eq => subst eq; exact absurd rfl changed
    | wakeup _ _ _ eq => subst eq; exact absurd rfl changed
    | sleep _ _ _ eq => subst eq; exact absurd rfl changed
    | doze _ eq => subst eq; exact absurd rfl changed
    | kill _ eq => subst eq; exact absurd rfl changed
    | setkilled eq => subst eq; exact absurd rfl changed
    | tick eq => subst eq; exact absurd rfl changed

theorem takes_alone : Fine code Alone bootState takes := by
  refine And.intro trivial (And.intro ?_ (And.intro ?_ (And.intro trivial (And.intro ?_
    (And.intro ?_ (And.intro ?_ trivial))))))
  · rintro p k ⟨⟩
  · rintro p k ⟨⟩ _ j q c ne waits
    simp only [Waits, State.put, Function.update_of_ne ne] at waits
    exact waits.elim
  · rintro p k ⟨⟩
  · rintro p k ⟨⟩ ⟨⟩
  · rintro p k ⟨⟩ ⟨⟩

theorem takes_its_own :
    ∃ s c got, Run code Alone Boot s ∧ Returns code s 1 (.pdone c got) 0 ∧ got = c.made := by
  have run : Run code Alone Boot (Prog.played (step code) bootState takes) :=
    Run.replay takes (.start bootState_boot) takes_alone rfl
  have returns : Returns code (Prog.played (step code) bootState takes) 1
      (.pdone ⟨0, some 0⟩ (some 0)) 0 := ⟨rfl, _, rfl⟩
  exact ⟨_, _, _, run, returns, ((semaphore_not_confused run).1 _ _ _ returns).2⟩

/-- After `remade`, task 0 raises the new semaphore and task 1 goes on. -/
def stolen : List (Event Point) :=
  remade ++ .call 0 (.semv ⟨0, some 1⟩) :: List.replicate 4 (.go 0) ++ [.go 1, .go 1]

theorem stolen_unit :
    (∃ s c got, Run code (fun _ _ => True) Boot s ∧ Returns code s 1 (.pdone c got) 0 ∧
      c.made = some 0 ∧ got = some 1) ∧
    ∃ s c, Run code (fun _ _ => True) Boot s ∧ s.phase 1 = .asleep 0 (.ploop c) ∧
      c.made = some 0 ∧ s.data.live 0 = some 1 := by
  have first : Run code (fun _ _ => True) Boot (Prog.played (step code) bootState stolen) :=
    Run.play stolen bootState_boot (fun _ _ _ => trivial) rfl
  have second : Run code (fun _ _ => True) Boot (Prog.played (step code) bootState remade) :=
    Run.play remade bootState_boot (fun _ _ _ => trivial) rfl
  exact ⟨⟨_, ⟨0, some 0⟩, some 1, first, ⟨rfl, _, rfl⟩, rfl, rfl⟩, _, _, second, rfl, rfl, rfl⟩

end UvaOs.Sems
