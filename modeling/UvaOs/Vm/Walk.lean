import UvaOs.Vm.Model

/-! Looking up a virtual address. The walk of `map_page` that may not allocate changes
nothing, and reads only the tables on its way. -/
namespace UvaOs.Vm

open Prog VmState

/-! Page boundaries -/

theorem PGROUNDDOWN_le (a : Nat) : PGROUNDDOWN a ≤ a := Nat.div_mul_le_self a PAGE_SIZE

theorem lt_PGROUNDDOWN (a : Nat) : a < PGROUNDDOWN a + PAGE_SIZE := by
  unfold PGROUNDDOWN
  simp only [PAGE_SIZE]
  omega

theorem PGROUNDDOWN_same {a b : Nat} (lo : PGROUNDDOWN a ≤ b) (hi : b < PGROUNDDOWN a + PAGE_SIZE) :
    PGROUNDDOWN b = PGROUNDDOWN a := by
  unfold PGROUNDDOWN at *
  simp only [PAGE_SIZE] at *
  omega

theorem PGROUNDUP_mod (a : Nat) : PGROUNDUP a % PAGE_SIZE = 0 := Nat.mul_mod_left _ _

theorem le_PGROUNDUP (a : Nat) : a ≤ PGROUNDUP a := by
  unfold PGROUNDUP
  simp only [PAGE_SIZE]
  omega

theorem PGROUNDUP_lt (a : Nat) : PGROUNDUP a < a + PAGE_SIZE := by
  unfold PGROUNDUP
  simp only [PAGE_SIZE]
  omega

/-! The walk -/

def walk (s : VmState) (va : Nat) : List (Nat × Nat) → Nat → Option Nat
  | [], table => some table
  | (_, shift) :: rest, table =>
    let desc := s.mem (table / PAGE_SIZE) (tableIndex va shift)
    if desc = 0 ∨ PTE_TO_PA desc = 0 then none else walk s va rest (PTE_TO_PA desc)

def pteOf (s : VmState) (m va : Nat) : Option (Nat × Nat) :=
  if (s.mm m).pgd = 0 then none
  else (walk s va levels (s.mm m).pgd).map
    (fun table => (table / PAGE_SIZE, tableIndex va PAGE_SHIFT))

def pte (s : VmState) (m va : Nat) : BitVec 64 :=
  match pteOf s m va with
  | none => 0
  | some (frame, index) => s.mem frame index

theorem mapTable_locate (table shift va : Nat) (s : VmState) : mapTable table shift va false s =
      .ok ((if s.mem (table / PAGE_SIZE) (tableIndex va shift) = 0 then 0
        else PTE_TO_PA (s.mem (table / PAGE_SIZE) (tableIndex va shift)), false), s) := by
  change (if s.mem (table / PAGE_SIZE) (tableIndex va shift) = 0 then _ else _ : VmM (Nat × Bool)) s = _
  split
  · rfl
  · rfl

theorem walkTables_locate (s : VmState) (nk va : Nat) (ls : List (Nat × Nat)) (table : Nat)
    (kerPages : List Nat) :
    walkTables nk va false ls table kerPages s = .ok ((walk s va ls table, kerPages), s) := by
  induction ls generalizing table with
  | nil => rfl
  | cons l rest ih =>
    obtain ⟨i, shift⟩ := l
    simp only [walkTables, walk, bind, mapTable_locate]
    by_cases absent : s.mem (table / PAGE_SIZE) (tableIndex va shift) = 0
    · simp only [absent, true_or, if_true]
      rfl
    · simp only [absent, false_or, if_false]
      by_cases null : PTE_TO_PA (s.mem (table / PAGE_SIZE) (tableIndex va shift)) = 0
      · simp only [null, if_true]
        rfl
      · simp only [null, if_false, Bool.false_eq_true]
        exact ih _

theorem mapPage_locate (s : VmState) (m va : Nat) (perm : BitVec 64) :
    mapPage m va 0 false perm s = .ok (pteOf s m va, s) := by
  have same : s.putMm m (recordPages (s.mm m) []) = s := by
    simp only [recordPages, putMm, Function.update_eq_self]
  have top : topTable m false s = .ok (if (s.mm m).pgd = 0 then none else some [], s) := by
    change (if (s.mm m).pgd = 0 then _ else _ : VmM (Option (List Nat))) s = _
    split
    · rfl
    · rfl
  unfold mapPage pteOf
  simp only [bind, Prog.get, ne_eq, not_true_eq_false, false_and, reduceIte, top]
  by_cases absent : (s.mm m).pgd = 0
  · simp only [absent, if_true]
    rfl
  · simp only [absent, if_false, pure, walkTables_locate]
    cases walk s va levels (s.mm m).pgd with
    | none => rfl
    | some table => exact congrArg (fun t => Except.ok (_, t)) same

theorem pte_of_some {s : VmState} {m va frame index : Nat}
    (place : pteOf s m va = some (frame, index)) : pte s m va = s.mem frame index := by
  unfold pte
  rw [place]

theorem pte_of_none {s : VmState} {m va : Nat} (place : pteOf s m va = none) : pte s m va = 0 := by
  unfold pte
  rw [place]

def lookup (x : BitVec 64) : Except Halt Nat :=
  if x &&& 0xfff#64 &&& ~~~MM_AP_MASK ≠ MMU_PTE_FLAGS then .ok 0
  else if PTE_TO_PA x ≥ PHYS_SIZE then .error .bug
  else .ok (PTE_TO_PA x)

theorem walkaddr_eq (s : VmState) (m va : Nat) :
    walkaddr m va s = (lookup (pte s m va)).map (fun pa => (pa, s)) := by
  unfold walkaddr
  rw [run_bind (mapPage_locate s m va 0)]
  cases place : pteOf s m va with
  | none =>
    rw [pte_of_none place]
    rfl
  | some p =>
    obtain ⟨frame, index⟩ := p
    rw [pte_of_some place]
    change (if s.mem frame index &&& 0xfff#64 &&& ~~~MM_AP_MASK ≠ MMU_PTE_FLAGS then _
      else if PTE_TO_PA (s.mem frame index) ≥ PHYS_SIZE then _ else _ : VmM Nat) s = _
    unfold lookup
    split
    · rfl
    · split
      · rfl
      · rfl

/- The tables that are read on the way to the pte of `va`. -/
def walkFrames (s : VmState) (va : Nat) : List (Nat × Nat) → Nat → List Nat
  | [], table => [table / PAGE_SIZE]
  | (_, shift) :: rest, table =>
    let desc := s.mem (table / PAGE_SIZE) (tableIndex va shift)
    table / PAGE_SIZE ::
      (if desc = 0 ∨ PTE_TO_PA desc = 0 then [] else walkFrames s va rest (PTE_TO_PA desc))

theorem walk_congr {s t : VmState} (va : Nat) (ls : List (Nat × Nat)) (table : Nat)
    (same : ∀ frame ∈ walkFrames s va ls table, t.mem frame = s.mem frame) :
    walk t va ls table = walk s va ls table ∧ ∀ bottom, walk s va ls table = some bottom →
        t.mem (bottom / PAGE_SIZE) = s.mem (bottom / PAGE_SIZE) := by
  induction ls generalizing table with
  | nil =>
    refine ⟨rfl, ?_⟩
    intro bottom found
    cases found
    exact same _ (List.mem_singleton.mpr rfl)
  | cons l rest ih => grind [PAGE_SIZE, List.mem_cons_self, walk, walkFrames]

theorem pte_congr {s t : VmState} {m va : Nat} (mm : t.mm = s.mm)
    (same : ∀ frame ∈ walkFrames s va levels (s.mm m).pgd, t.mem frame = s.mem frame) :
    pte t m va = pte s m va := by
  obtain ⟨path, bottom⟩ := walk_congr va levels (s.mm m).pgd same
  have place : pteOf t m va = pteOf s m va := by
    unfold pteOf
    rw [mm, path]
  cases found : pteOf s m va with
  | none => rw [pte_of_none found, pte_of_none (place.trans found)]
  | some p =>
    obtain ⟨frame, index⟩ := p
    rw [pte_of_some found, pte_of_some (place.trans found)]
    unfold pteOf at found
    split at found
    · cases found
    · obtain ⟨table, reached, at_⟩ := Option.map_eq_some_iff.mp found
      cases at_
      rw [bottom table reached]

end UvaOs.Vm
