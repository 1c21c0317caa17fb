import UvaOs.Vm.Walk
import UvaOs.Lib.Forest

/-! The page tables of an address space, as a tree of frames.
Depth 0 is the pgd, depth 3 the bottom tables, depth 4 the user pages. -/
namespace UvaOs.Vm

open Prog VmState
open Function (update update_self update_of_ne)

/-! Physical addresses in descriptors -/

variable {js : List Nat} {j m : Nat} {s : VmState}

theorem PTE_TO_PA_frame (x : BitVec 64) :
    PTE_TO_PA x = (x.toNat / PAGE_SIZE &&& 0xfffff) * PAGE_SIZE := by
  have mask : (x &&& 0xfffff000#64).toNat = x.toNat &&& 0xfffff * 2 ^ 12 := by
    rw [BitVec.toNat_and]
    rfl
  unfold PTE_TO_PA
  rw [mask]
  change _ = (x.toNat / 2 ^ 12 &&& 0xfffff) * 2 ^ 12
  apply Nat.eq_of_testBit_eq
  intro i
  rw [Nat.testBit_and, Nat.testBit_mul_two_pow, Nat.testBit_mul_two_pow, Nat.testBit_and,
    Nat.testBit_div_two_pow]
  by_cases low : 12 ≤ i
  · simp only [low, decide_true, Bool.true_and, Nat.sub_add_cancel low]
  · simp only [low, decide_false, Bool.false_and, Bool.and_false]

theorem PTE_TO_PA_aligned (x : BitVec 64) : PTE_TO_PA x / PAGE_SIZE * PAGE_SIZE = PTE_TO_PA x := by
  rw [PTE_TO_PA_frame, Nat.mul_div_cancel _ (by decide)]

theorem PTE_TO_PA_entry {frame : Nat} (small : frame < 2 ^ 20) {flags : BitVec 64}
    (low : flags &&& 0xfffff000#64 = 0) :
    PTE_TO_PA (BitVec.ofNat 64 (frame * PAGE_SIZE) ||| flags) = frame * PAGE_SIZE := by
  have split : (BitVec.ofNat 64 (frame * PAGE_SIZE) ||| flags) &&& 0xfffff000#64 =
      BitVec.ofNat 64 (frame * PAGE_SIZE) &&& 0xfffff000#64 := by
    apply BitVec.eq_of_toNat_eq
    have none := congrArg BitVec.toNat low
    rw [BitVec.toNat_and] at none
    rw [BitVec.toNat_and, BitVec.toNat_or, Nat.and_or_distrib_right, none, BitVec.toNat_and]
    exact Nat.or_zero _
  have whole : (BitVec.ofNat 64 (frame * PAGE_SIZE)).toNat = frame * PAGE_SIZE := by
    apply Nat.mod_eq_of_lt
    simp only [PAGE_SIZE]
    omega
  have same := PTE_TO_PA_frame (BitVec.ofNat 64 (frame * PAGE_SIZE))
  rw [whole, Nat.mul_div_cancel _ (by decide)] at same
  unfold PTE_TO_PA at same ⊢
  rw [split, same]
  have bits : frame &&& 0xfffff = frame := Nat.and_two_pow_sub_one_of_lt_two_pow (n := 20) small
  rw [bits]
/-! The tree -/

def space (s : VmState) (m : Nat) : Forest Unit where
  root _ := (s.mm m).pgd / PAGE_SIZE
  word b j := if j < PTRS_PER_TABLE then PTE_TO_PA (s.mem b j) / PAGE_SIZE else 0
  depth _ := 4

def node (s : VmState) (m : Nat) (js : List Nat) : Nat := (space s m).ptr () js

def indices (va : Nat) (ls : List (Nat × Nat)) : List Nat := ls.map (fun l => tableIndex va l.2)

def tablePath (va : Nat) : List Nat := indices va levels

def pagePath (va : Nat) : List Nat := tablePath va ++ [tableIndex va PAGE_SHIFT]

theorem length_tablePath (va : Nat) : (tablePath va).length = 3 := rfl

theorem length_pagePath (va : Nat) : (pagePath va).length = 4 := rfl

def InPool (s : VmState) (frame : Nat) : Prop := s.low ≤ frame ∧ frame < s.low + s.pages

/- What holds even while freed tables are still hanging in the tree. -/
structure Shape (s : VmState) (m : Nat) : Prop where
  aligned : (s.mm m).pgd % PAGE_SIZE = 0
  exclusive : (space s m).Exclusive
  nonnull : ∀ js j, js.length < 4 → node s m js ≠ 0 → j < PTRS_PER_TABLE →
    s.mem (node s m js) j ≠ 0 → PTE_TO_PA (s.mem (node s m js) j) ≠ 0

/-- Sound page tables: a tree in which no frame occurs twice, all of whose frames are
allocated. -/
structure Tables (s : VmState) (m : Nat) : Prop extends Shape s m where
  first : 0 < s.low
  real : (s.low + s.pages) * PAGE_SIZE ≤ PHYS_SIZE
  held : (space s m).Covered (fun frame => InPool s frame ∧ s.used frame = true)

theorem tableIndex_lt (va shift : Nat) : tableIndex va shift < PTRS_PER_TABLE :=
  Nat.mod_lt _ (by decide)

theorem node_nil (s : VmState) (m : Nat) : node s m [] = (s.mm m).pgd / PAGE_SIZE := rfl

theorem node_snoc (parent : node s m js ≠ 0) (small : j < PTRS_PER_TABLE) :
    node s m (js ++ [j]) = PTE_TO_PA (s.mem (node s m js) j) / PAGE_SIZE := by
  have step := Forest.ptr_snoc (space s m) () js j
  rw [Forest.child_of_ne (b := (space s m).ptr () js) parent] at step
  exact step.trans (if_pos small)

theorem node_append_zero {s : VmState} {m : Nat} {js : List Nat} (absent : node s m js = 0)
    (ks : List Nat) : node s m (js ++ ks) = 0 := Forest.ptr_append_zero _ absent ks

theorem node_wide (js : List Nat) (wide : ¬ j < PTRS_PER_TABLE) : node s m (js ++ [j]) = 0 := by
  have step := Forest.ptr_snoc (space s m) () js j
  unfold Forest.child at step
  change _ = if _ then 0 else (if j < PTRS_PER_TABLE then _ else 0) at step
  rw [if_neg wide, ite_self] at step
  exact step

theorem div_eq_zero_of_aligned {pa : Nat} (aligned : pa % PAGE_SIZE = 0) :
    pa / PAGE_SIZE = 0 ↔ pa = 0 := by
  simp only [PAGE_SIZE] at *
  omega

theorem PTE_TO_PA_eq_zero (x : BitVec 64) : PTE_TO_PA x / PAGE_SIZE = 0 ↔ PTE_TO_PA x = 0 := by
  have := PTE_TO_PA_aligned x
  simp only [PAGE_SIZE] at *
  omega

/-- What a walk relies on: above the bottom tables, a descriptor that is not null leads to a
table. -/
structure Upper (s : VmState) (m : Nat) : Prop where
  aligned : (s.mm m).pgd % PAGE_SIZE = 0
  nonnull : ∀ js j, js.length < 3 → node s m js ≠ 0 → j < PTRS_PER_TABLE →
    s.mem (node s m js) j ≠ 0 → PTE_TO_PA (s.mem (node s m js) j) ≠ 0

theorem desc_zero_iff (parent : node s m js ≠ 0) (small : j < PTRS_PER_TABLE)
    (nonnull : s.mem (node s m js) j ≠ 0 → PTE_TO_PA (s.mem (node s m js) j) ≠ 0) :
    s.mem (node s m js) j = 0 ↔ node s m (js ++ [j]) = 0 := by
  rw [node_snoc parent small, PTE_TO_PA_eq_zero]
  constructor
  · intro zero
    rw [zero]
    rfl
  · intro null
    by_contra present
    exact nonnull present null

namespace Upper

variable {s : VmState} {m : Nat}

theorem pgd (h : Upper s m) : node s m [] * PAGE_SIZE = (s.mm m).pgd := by
  have := h.aligned
  rw [node_nil]
  simp only [PAGE_SIZE] at *
  omega

theorem pgd_eq_zero (h : Upper s m) : (s.mm m).pgd = 0 ↔ node s m [] = 0 :=
  (div_eq_zero_of_aligned h.aligned).symm

theorem desc_eq_zero (h : Upper s m) (index : js.length < 3)
    (parent : node s m js ≠ 0) (small : j < PTRS_PER_TABLE) :
    s.mem (node s m js) j = 0 ↔ node s m (js ++ [j]) = 0 :=
  desc_zero_iff parent small (h.nonnull js j index parent small)

theorem walk_eq (h : Upper s m) (va : Nat) (ls : List (Nat × Nat)) (js : List Nat)
    (short : js.length + ls.length ≤ 3) (parent : node s m js ≠ 0) :
    walk s va ls (node s m js * PAGE_SIZE) =
      if node s m (js ++ indices va ls) = 0 then none
      else some (node s m (js ++ indices va ls) * PAGE_SIZE) := by
  induction ls generalizing js with
  | nil =>
    simp only [indices, List.map_nil, List.append_nil, if_neg parent]
    rfl
  | cons l rest ih =>
    obtain ⟨i, shift⟩ := l
    have small := tableIndex_lt va shift
    have length : ((i, shift) :: rest).length = rest.length + 1 := rfl
    have path : js ++ indices va ((i, shift) :: rest) =
        js ++ [tableIndex va shift] ++ indices va rest := by
      simp only [indices, List.map_cons, List.append_assoc, List.singleton_append]
    have child := node_snoc parent small
    rw [path, walk, Nat.mul_div_cancel _ (by decide)]
    by_cases present : node s m (js ++ [tableIndex va shift]) = 0
    · rw [node_append_zero present, if_pos rfl,
        if_pos (.inl ((h.desc_eq_zero (by omega) parent small).mpr present))]
    · have desc : ¬ (s.mem (node s m js) (tableIndex va shift) = 0 ∨
          PTE_TO_PA (s.mem (node s m js) (tableIndex va shift)) = 0) := by
        rintro (zero | null)
        · exact present ((h.desc_eq_zero (by omega) parent small).mp zero)
        · rw [child, null] at present
          exact present rfl
      have next := ih (js ++ [tableIndex va shift])
        (by rw [List.length_append, List.length_singleton]; omega) present
      rw [if_neg desc, ← next, child, PTE_TO_PA_aligned]

theorem pteOf_eq (h : Upper s m) (va : Nat) :
    pteOf s m va = if node s m (tablePath va) = 0 then none
      else some (node s m (tablePath va), tableIndex va PAGE_SHIFT) := by
  unfold pteOf
  by_cases absent : node s m [] = 0
  · have below : node s m (tablePath va) = 0 := @node_append_zero s m [] absent (tablePath va)
    rw [if_pos (h.pgd_eq_zero.mpr absent), if_pos below]
  · rw [if_neg (fun zero => absent (h.pgd_eq_zero.mp zero)), ← h.pgd,
      h.walk_eq va levels [] (by decide) absent]
    change Option.map _ (if node s m (tablePath va) = 0 then _ else _) = _
    split
    · rfl
    · rw [Option.map_some, Nat.mul_div_cancel _ (by decide)]
      rfl

theorem pte_eq (h : Upper s m) (va : Nat) : pte s m va = if node s m (tablePath va) = 0 then 0
      else s.mem (node s m (tablePath va)) (tableIndex va PAGE_SHIFT) := by
  have place := h.pteOf_eq va
  split at place
  · next absent => rw [pte_of_none place, if_pos absent]
  · next present => rw [pte_of_some place, if_neg present]

end Upper

namespace Shape

variable {s : VmState} {m : Nat}

section

variable (h : Shape s m)
include h

theorem upper : Upper s m :=
  ⟨h.aligned, fun js j short => h.nonnull js j (Nat.lt_succ_of_lt short)⟩

theorem same_node {ks ls : List Nat} (hk : ks.length ≤ 4) (hl : ls.length ≤ 4)
    (there : node s m ks ≠ 0) (same : node s m ls = node s m ks) : ls = ks :=
  (h.exclusive () ks () ls hk hl there same.symm).2.symm

theorem pgd : node s m [] * PAGE_SIZE = (s.mm m).pgd := h.upper.pgd

theorem pgd_eq_zero : (s.mm m).pgd = 0 ↔ node s m [] = 0 := h.upper.pgd_eq_zero

theorem pteOf_eq (va : Nat) : pteOf s m va = if node s m (tablePath va) = 0 then none
      else some (node s m (tablePath va), tableIndex va PAGE_SHIFT) := h.upper.pteOf_eq va

theorem pte_eq (va : Nat) : pte s m va = if node s m (tablePath va) = 0 then 0
      else s.mem (node s m (tablePath va)) (tableIndex va PAGE_SHIFT) := h.upper.pte_eq va

theorem pte_frame (va : Nat) : PTE_TO_PA (pte s m va) = node s m (pagePath va) * PAGE_SIZE := by
  rw [h.pte_eq]
  unfold pagePath
  by_cases absent : node s m (tablePath va) = 0
  · rw [if_pos absent, node_append_zero absent]
    rfl
  · rw [if_neg absent, node_snoc absent (tableIndex_lt va PAGE_SHIFT), PTE_TO_PA_aligned]

theorem pte_eq_zero (va : Nat) : pte s m va = 0 ↔ node s m (pagePath va) = 0 := by
  rw [h.pte_eq]
  unfold pagePath
  by_cases absent : node s m (tablePath va) = 0
  · rw [if_pos absent, node_append_zero absent]
    exact ⟨fun _ => rfl, fun _ => rfl⟩
  · have short : (tablePath va).length < 4 := Nat.lt_succ_self 3
    have small := tableIndex_lt va PAGE_SHIFT
    rw [if_neg absent]
    exact desc_zero_iff absent small (h.nonnull _ _ short absent small)

end

end Shape

theorem walkFrames_sub (va : Nat) (ls : List (Nat × Nat)) (js : List Nat)
    (short : js.length + ls.length ≤ 3) (parent : node s m js ≠ 0) (frame : Nat)
    (member : frame ∈ walkFrames s va ls (node s m js * PAGE_SIZE)) :
    ∃ ks, ks.length ≤ 3 ∧ frame = node s m ks := by
  induction ls generalizing js with
  | nil =>
    have only := List.mem_singleton.mp member
    rw [Nat.mul_div_cancel _ (by decide)] at only
    exact ⟨js, by omega, only⟩
  | cons l rest ih =>
    obtain ⟨i, shift⟩ := l
    have length : ((i, shift) :: rest).length = rest.length + 1 := rfl
    have small := tableIndex_lt va shift
    rw [walkFrames, Nat.mul_div_cancel _ (by decide)] at member
    rcases List.mem_cons.mp member with here | below
    · exact ⟨js, by omega, here⟩
    · split at below
      · exact absurd below List.not_mem_nil
      · next present =>
        have child := node_snoc parent small
        have there : node s m (js ++ [tableIndex va shift]) ≠ 0 := by grind [PTE_TO_PA_eq_zero]
        rw [← PTE_TO_PA_aligned, ← child] at below
        exact ih _ (by rw [List.length_append, List.length_singleton]; omega) there below

/-! Allocating -/

def free (s : VmState) : Nat :=
  ((Finset.Ico s.low (s.low + s.pages)).filter (fun frame => s.used frame = false)).card

def take (s : VmState) (frame : Nat) : VmState :=
  { s with
    used := update s.used frame true
    pagesUsed := s.pagesUsed + 1
    mem := update s.mem frame (fun _ => 0) }

theorem firstFree_cases (used : Nat → Bool) (frame left : Nat) :
    (firstFree used frame left = none ∧ ∀ f, frame ≤ f → f < frame + left → used f = true) ∨
      ∃ f, frame ≤ f ∧ f < frame + left ∧ used f = false ∧ firstFree used frame left = some f := by
  induction left generalizing frame with
  | zero => exact .inl ⟨rfl, fun f lo hi => by omega⟩
  | succ left ih => grind [firstFree, Nat.eq_or_lt_of_le]

theorem free_take {f : Nat} (pool : InPool s f) (unused : s.used f = false) :
    free (take s f) + 1 = free s := by
  have here : f ∈ (Finset.Ico s.low (s.low + s.pages)).filter (fun g => s.used g = false) :=
    Finset.mem_filter.mpr ⟨Finset.mem_Ico.mpr pool, unused⟩
  have rest : (Finset.Ico s.low (s.low + s.pages)).filter (fun g => (take s f).used g = false) =
      ((Finset.Ico s.low (s.low + s.pages)).filter (fun g => s.used g = false)).erase f := by
    ext g
    rw [Finset.mem_filter, Finset.mem_erase, Finset.mem_filter]
    by_cases same : g = f
    · simp [same, take]
    · simp [same, take]
  unfold free
  change (Finset.filter _ (Finset.Ico s.low (s.low + s.pages))).card + 1 = _
  rw [rest, Finset.card_erase_add_one here]

theorem getFreePage_cases (s : VmState) : (free s = 0 ∧ getFreePage s = .ok (0, s)) ∨
      ∃ f, InPool s f ∧ s.used f = false ∧ getFreePage s = .ok (f * PAGE_SIZE, take s f) := by
  rcases firstFree_cases s.used s.low s.pages with ⟨none, all⟩ | ⟨f, lo, hi, unused, found⟩
  · left
    constructor
    · apply Finset.card_eq_zero.mpr
      apply Finset.filter_eq_empty_iff.mpr
      intro g member
      have range := Finset.mem_Ico.mp member
      rw [all g range.1 range.2]
      decide
    · simp only [getFreePage, bind, Prog.get, none]
      rfl
  · right
    refine ⟨f, ⟨lo, hi⟩, unused, ?_⟩
    simp only [getFreePage, bind, Prog.get, found]
    rfl

/-- Tables in the frames `new` came into the tree along a path; everything else that was
in use is as before. -/
structure Opened (s t : VmState) (m : Nat) (way new : List Nat) : Prop where
  low : t.low = s.low
  pages : t.pages = s.pages
  kept : ∀ ks, ks.length ≤ 4 → node s m ks ≠ 0 → node t m ks = node s m ks
  along : ∀ ks, ks.length ≤ 4 → node s m ks = 0 → node t m ks ≠ 0 →
    ks.length ≤ 3 ∧ ks <+: way ∧ node t m ks ∈ new
  used : ∀ f, t.used f = true ↔ s.used f = true ∨ f ∈ new
  fresh : ∀ f ∈ new, s.used f = false
  nodup : new.Nodup
  free : free t + new.length = free s
  pagesUsed : t.pagesUsed = s.pagesUsed + new.length
  bottom : ∀ ks, ks.length = 3 → node s m ks ≠ 0 → t.mem (node s m ks) = s.mem (node s m ks)
  blank : ∀ ks, ks.length = 3 → node s m ks = 0 → node t m ks ≠ 0 → ∀ j, t.mem (node t m ks) j = 0
  data : ∀ f, s.used f = true → (∀ ks, ks.length ≤ 3 → node s m ks ≠ f) → t.mem f = s.mem f

namespace Opened

variable {s t u : VmState} {m : Nat} {way new more : List Nat}

theorem refl (s : VmState) (m : Nat) (way : List Nat) : Opened s s m way [] where
  low := rfl
  pages := rfl
  kept _ _ _ := rfl
  along _ _ absent present := absurd absent present
  used f := by simp
  fresh f none := absurd none List.not_mem_nil
  nodup := List.nodup_nil
  free := rfl
  pagesUsed := by simp
  bottom _ _ _ := rfl
  blank _ _ absent present := absurd absent present
  data _ _ _ := rfl

theorem trans (o : Opened s t m way new) (p : Opened t u m way more) :
    Opened s u m way (new ++ more) where
  low := p.low.trans o.low
  pages := p.pages.trans o.pages
  kept ks node_ there := by
    have mid := o.kept ks node_ there
    rw [← mid]
    exact p.kept ks node_ (mid ▸ there)
  along ks node_ absent present := by
    by_cases mid : node t m ks = 0
    · obtain ⟨short, onWay, member⟩ := p.along ks node_ mid present
      exact ⟨short, onWay, List.mem_append_right _ member⟩
    · obtain ⟨short, onWay, member⟩ := o.along ks node_ absent mid
      rw [p.kept ks node_ mid]
      exact ⟨short, onWay, List.mem_append_left _ member⟩
  used f := by rw [p.used, o.used, List.mem_append, or_assoc]
  fresh f member := by
    rcases List.mem_append.mp member with first | second
    · exact o.fresh f first
    · have unused := p.fresh f second
      rw [Bool.eq_false_iff] at unused ⊢
      exact fun old => unused ((o.used f).mpr (.inl old))
  nodup := by
    rw [List.nodup_append]
    refine ⟨o.nodup, p.nodup, ?_⟩
    rintro f first g second rfl
    have unused := p.fresh f second
    rw [(o.used f).mpr (.inr first)] at unused
    cases unused
  free := by
    have first := o.free
    have second := p.free
    rw [List.length_append]
    omega
  pagesUsed := by
    rw [p.pagesUsed, o.pagesUsed, List.length_append]
    omega
  bottom ks three there := by
    have mid := o.kept ks (by omega) there
    rw [← o.bottom ks three there, ← mid]
    exact p.bottom ks three (mid ▸ there)
  blank ks three absent present := by
    by_cases mid : node t m ks = 0
    · exact p.blank ks three mid present
    · rw [p.kept ks (by omega) mid, p.bottom ks three mid]
      exact o.blank ks three absent mid
  data f old apart := by
    rw [← o.data f old apart]
    apply p.data f ((o.used f).mpr (.inl old))
    intro ks short here
    by_cases there : node s m ks = 0
    · grind [o.along, o.fresh]
    · exact apart ks short ((o.kept ks (by omega) there).symm.trans here)

theorem pte (o : Opened s t m way new) (before : Shape s m) (after : Shape t m) (va : Nat) :
    pte t m va = pte s m va := by
  have three : (tablePath va).length = 3 := rfl
  rw [after.pte_eq, before.pte_eq]
  by_cases absent : node s m (tablePath va) = 0
  · grind [o.blank]
  · grind [o.kept, o.bottom]

end Opened

theorem Tables.node_held (h : Tables s m) {ks : List Nat}
    (short : ks.length ≤ 4) (there : node s m ks ≠ 0) :
    InPool s (node s m ks) ∧ s.used (node s m ks) = true := h.held () ks short there

theorem Tables.not_node {f : Nat} (h : Tables s m) (unused : s.used f = false)
    (ks : List Nat) (short : ks.length ≤ 4) (nz : f ≠ 0) : node s m ks ≠ f := by
  intro here
  have used := (h.node_held short (here ▸ nz)).2
  rw [here, unused] at used
  cases used

section Attach

variable {s t : VmState} {m f : Nat} {at_ way : List Nat}

theorem Opened.of_attached (h : Tables s m)
    (att : Forest.Attached (space s m) (space t m) () at_ f) (short : at_.length ≤ 3)
    (absent : node s m at_ = 0) (onWay : at_ <+: way) (pool : InPool s f)
    (unused : s.used f = false) (low : t.low = s.low) (pages : t.pages = s.pages)
    (used : t.used = update s.used f true) (pagesUsed : t.pagesUsed = s.pagesUsed + 1)
    (aligned : (t.mm m).pgd % PAGE_SIZE = 0) (blank : ∀ j, t.mem f j = 0)
    (desc : ∀ g j, g ≠ f → t.mem g j = s.mem g j ∨ PTE_TO_PA (t.mem g j) ≠ 0)
    (data : ∀ g, s.used g = true → (∀ ks, ks.length ≤ 2 → node s m ks ≠ g) → t.mem g = s.mem g) :
    Tables t m ∧ Opened s t m way [f] ∧ node t m at_ = f := by
  have nz : f ≠ 0 := by
    have := h.first
    have := pool.1
    omega
  have here : node t m at_ = f := (att () at_ (show at_.length ≤ 4 by omega)).1 ⟨rfl, rfl⟩
  have others : ∀ ks, ks.length ≤ 4 → ks ≠ at_ → node t m ks = node s m ks :=
    fun ks node_ differs => (att () ks node_).2 (fun both => differs both.2)
  have set : ∀ g, t.used g = true ↔ s.used g = true ∨ g = f := by
    intro g
    rw [used]
    by_cases same : g = f
    · simp [same]
    · simp [same]
  have inPool : ∀ g, InPool t g ↔ InPool s g := by
    intro g
    unfold InPool
    rw [low, pages]
  have fresh : ∀ ks, ks.length ≤ 4 → node s m ks ≠ f :=
    fun ks node_ => h.not_node unused ks node_ nz
  refine ⟨⟨⟨aligned, ?_, ?_⟩, low ▸ h.first, low ▸ pages ▸ h.real, ?_⟩, ?_, here⟩
  · exact att.exclusive (fun _ => rfl) (fun _ ks node_ _ => fresh ks node_) h.exclusive
  · intro js j index there small present
    by_cases same : js = at_
    · rw [same, here] at present
      exact absurd (blank j) present
    · grind [h.nonnull]
  · refine att.covered (fun _ => rfl) h.held ?_ ?_
    · grind
    · intro _
      exact ⟨(inPool f).mpr pool, (set f).mpr (.inr rfl)⟩
  · have keeps : ∀ ks, ks.length ≤ 4 → node s m ks ≠ 0 → node t m ks = node s m ks := by
      intro ks node_ there
      apply others ks node_
      rintro rfl
      exact there absent
    have only : ∀ ks, ks.length ≤ 4 → node s m ks = 0 → node t m ks ≠ 0 → ks = at_ := by grind
    refine ⟨low, pages, keeps, ?_, ?_, ?_, List.nodup_singleton f, ?_, ?_, ?_, ?_, ?_⟩
    · grind
    · intro g
      rw [set, List.mem_singleton]
    · intro g member
      rw [List.mem_singleton.mp member]
      exact unused
    · have count := free_take pool unused
      have same : Vm.free t = Vm.free (take s f) := by
        unfold Vm.free
        rw [low, pages, used]
        rfl
      rw [same]
      exact count
    · rw [pagesUsed]
      rfl
    · intro ks three there
      apply data _ (h.node_held (by omega) there).2
      intro ls upper same
      have equal := h.same_node (by omega) (by omega) there same
      rw [equal] at upper
      omega
    · grind
    · grind

def openTable (s : VmState) (parent index f : Nat) : VmState :=
  (take s f).putWord parent index (BitVec.ofNat 64 (f * PAGE_SIZE) ||| MM_TYPE_PAGE_TABLE)

theorem Tables.frame_lt (h : Tables s m) (pool : InPool s f) : f < 2 ^ 20 := by
  have := h.real
  have := pool.2
  simp only [PHYS_SIZE, PAGE_SIZE] at *
  omega

theorem pool_pos (first : 0 < s.low) (pool : InPool s f) : f ≠ 0 := by
  have := pool.1
  omega

theorem Tables.frame_pos (h : Tables s m) (pool : InPool s f) : f ≠ 0 := pool_pos h.first pool

theorem openTable_spec {i : Nat} (h : Tables s m) (upper : js.length ≤ 2)
    (parent : node s m js ≠ 0) (small : i < PTRS_PER_TABLE) (absent : node s m (js ++ [i]) = 0)
    (onWay : js ++ [i] <+: way) (pool : InPool s f) (unused : s.used f = false) :
    Tables (openTable s (node s m js) i f) m ∧ Opened s (openTable s (node s m js) i f) m way [f] ∧
      node (openTable s (node s m js) i f) m (js ++ [i]) = f := by
  have nz := h.frame_pos pool
  have apart : node s m js ≠ f := h.not_node unused js (by omega) nz
  have entry : PTE_TO_PA (BitVec.ofNat 64 (f * PAGE_SIZE) ||| MM_TYPE_PAGE_TABLE) = f * PAGE_SIZE :=
    PTE_TO_PA_entry (h.frame_lt pool) (by decide)
  have mem : ∀ g, g ≠ f → g ≠ node s m js → (openTable s (node s m js) i f).mem g = s.mem g := by
    intro g new old
    simp only [openTable, putWord, take, update_of_ne old, update_of_ne new]
  have inParent : ∀ j, j ≠ i → (openTable s (node s m js) i f).mem (node s m js) j =
      s.mem (node s m js) j := by
    intro j differs
    simp only [openTable, putWord, take, update_self, update_of_ne differs,
      update_of_ne apart]
  have here : (openTable s (node s m js) i f).mem (node s m js) i =
      BitVec.ofNat 64 (f * PAGE_SIZE) ||| MM_TYPE_PAGE_TABLE := by
    simp only [openTable, putWord, take, update_self]
  have zero : ∀ j, (openTable s (node s m js) i f).mem f j = 0 := by
    intro j
    simp only [openTable, putWord, take, update_of_ne (Ne.symm apart),
      update_self]
  have att : Forest.Attached (space s m) (space (openTable s (node s m js) i f) m) ()
      (js ++ [i]) f := by
    refine Forest.attached_entry h.exclusive (show js.length < 4 by omega) parent ?_ nz ?_
      (fun _ => rfl) ?_ ?_ ?_
    · rw [node_snoc parent small] at absent
      exact (if_pos small).trans absent
    · intro _ ks node_
      exact h.not_node unused ks node_ nz
    · intro j
      change (if _ then PTE_TO_PA ((openTable s (node s m js) i f).mem f j) / PAGE_SIZE else 0) = 0
      rw [zero]
      exact ite_self 0
    · change (if _ then PTE_TO_PA ((openTable s (node s m js) i f).mem (node s m js) i) / PAGE_SIZE
        else 0) = f
      rw [if_pos small, here, entry, Nat.mul_div_cancel _ (by decide)]
    · intro g j new other
      change (if _ then PTE_TO_PA ((openTable s (node s m js) i f).mem g j) / PAGE_SIZE else 0) =
        if _ then PTE_TO_PA (s.mem g j) / PAGE_SIZE else 0
      by_cases same : g = node s m js
      · rcases other with differs | differs
        · exact absurd same differs
        · rw [same, inParent j differs]
      · rw [mem g new same]
  refine Opened.of_attached h att (by rw [List.length_append, List.length_singleton]; omega) absent
    onWay pool unused rfl rfl rfl rfl h.aligned zero ?_ ?_
  · intro g j new
    by_cases same : g = node s m js
    · by_cases slot : j = i
      · right
        rw [same, slot, here, entry]
        exact Nat.mul_ne_zero nz (by decide)
      · left
        rw [same, inParent j slot]
    · left
      rw [mem g new same]
  · grind

def openTop (s : VmState) (m f : Nat) : VmState :=
  (take s f).putMm m { s.mm m with pgd := f * PAGE_SIZE }

theorem openTop_spec (way : List Nat) (h : Tables s m) (absent : node s m [] = 0) (pool : InPool s f)
    (unused : s.used f = false) :
    Tables (openTop s m f) m ∧ Opened s (openTop s m f) m way [f] ∧ node (openTop s m f) m [] = f := by
  have nz := h.frame_pos pool
  have mem : ∀ g, g ≠ f → (openTop s m f).mem g = s.mem g := by
    intro g new
    simp only [openTop, putMm, take, update_of_ne new]
  have zero : ∀ j, (openTop s m f).mem f j = 0 := by
    intro j
    simp only [openTop, putMm, take, update_self]
  have pgd : ((openTop s m f).mm m).pgd = f * PAGE_SIZE := by
    simp only [openTop, putMm, update_self]
  have att : Forest.Attached (space s m) (space (openTop s m f) m) () [] f := by
    refine Forest.attached_root absent ?_ ?_ (fun r differs => absurd rfl differs) ?_ ?_
    · intro _ ks node_
      exact h.not_node unused ks node_ nz
    · change ((openTop s m f).mm m).pgd / PAGE_SIZE = f
      rw [pgd, Nat.mul_div_cancel _ (by decide)]
    · intro j
      change (if _ then PTE_TO_PA ((openTop s m f).mem f j) / PAGE_SIZE else 0) = 0
      rw [zero]
      exact ite_self 0
    · intro g j new
      change (if _ then PTE_TO_PA ((openTop s m f).mem g j) / PAGE_SIZE else 0) =
        if _ then PTE_TO_PA (s.mem g j) / PAGE_SIZE else 0
      rw [mem g new]
  refine Opened.of_attached h att (Nat.zero_le 3) absent List.nil_prefix pool unused rfl rfl rfl rfl
    ?_ zero ?_ ?_
  · rw [pgd, Nat.mul_mod_left]
  · intro g j new
    left
    rw [mem g new]
  · grind

end Attach

/-! An address space like the one `exec` builds -/

/- The descriptors and ptes, by table and index: the text page at 0, a heap page after it,
the guard page and the first stack page. -/
def execDescs : List (Nat × Nat × BitVec 64) :=
  [(1, 0, 0x2000#64 ||| MM_TYPE_PAGE_TABLE), (2, 0, 0x3000#64 ||| MM_TYPE_PAGE_TABLE),
    (3, 0, 0x4000#64 ||| MM_TYPE_PAGE_TABLE), (3, 63, 0x5000#64 ||| MM_TYPE_PAGE_TABLE),
    (4, 0, 0x6000#64 ||| MMU_PTE_FLAGS ||| MM_AP_EL0_RO),
    (4, 1, 0x7000#64 ||| MMU_PTE_FLAGS ||| (MM_AP_RW ||| MM_XN)),
    (5, 255, 0x8000#64 ||| MMU_PTE_FLAGS ||| MM_AP_EL1_RW),
    (5, 511, 0x9000#64 ||| MMU_PTE_FLAGS ||| MM_AP_RW)]

def execMm : Mm where
  pgd := PAGE_SIZE
  sz := 0x1800
  codesz := 0x1000
  userPagesCount := 4
  kernelPagesCount := 5
  kernelPages i := (i + 1) * PAGE_SIZE

def execSpace : VmState where
  low := 1
  pages := 16
  used frame := decide (frame ≤ 9)
  pagesUsed := 9
  mem frame index :=
    match execDescs.find? (fun d => d.1 = frame ∧ d.2.1 = index) with
    | some d => d.2.2
    | none => 0
  mm _ := execMm

def execNodes : List (List Nat × Nat) :=
  [([], 1), ([0], 2), ([0, 0], 3), ([0, 0, 0], 4), ([0, 0, 63], 5), ([0, 0, 0, 0], 6),
    ([0, 0, 0, 1], 7), ([0, 0, 63, 255], 8), ([0, 0, 63, 511], 9)]

theorem execSpace_mem {frame index : Nat} (present : execSpace.mem frame index ≠ 0) :
    (frame, index, execSpace.mem frame index) ∈ execDescs := by
  unfold execSpace at present ⊢
  dsimp only at present ⊢
  cases found : execDescs.find? (fun d => d.1 = frame ∧ d.2.1 = index) with
  | none =>
    rw [found] at present
    exact absurd rfl present
  | some d => grind

theorem execSpace_node (js : List Nat) (short : js.length ≤ 4) (there : node execSpace 0 js ≠ 0) :
    (js, node execSpace 0 js) ∈ execNodes := by
  induction js using List.reverseRecOn with
  | nil => decide
  | append_singleton js j ih =>
    have length : (js ++ [j]).length = js.length + 1 := by simp
    have parent : node execSpace 0 js ≠ 0 := fun absent => there (node_append_zero absent [j])
    have known := ih (by omega) parent
    have small : j < PTRS_PER_TABLE := by
      by_contra wide
      exact there (node_wide js wide)
    rw [node_snoc parent small] at there ⊢
    have present : execSpace.mem (node execSpace 0 js) j ≠ 0 := by
      intro zero
      rw [zero] at there
      exact there rfl
    have entry := execSpace_mem present
    generalize node execSpace 0 js = b at *
    generalize execSpace.mem b j = x at *
    -- the parent is one of the tables, and its entry one of the descriptors
    have closed : ∀ p ∈ execNodes, p.1.length < 4 → ∀ d ∈ execDescs, d.1 = p.2 →
        (p.1 ++ [d.2.1], PTE_TO_PA d.2.2 / PAGE_SIZE) ∈ execNodes := by decide
    exact closed (js, b) known (show js.length < 4 by omega) (b, j, x) entry rfl

theorem execSpace_tables : Tables execSpace 0 where
  aligned := rfl
  exclusive := by
    intro _ js _ ks hj hk there same
    change node execSpace 0 js = node execSpace 0 ks at same
    have first := execSpace_node js hj there
    have second := execSpace_node ks hk (fun zero => there (same.trans zero))
    have distinct : ∀ p ∈ execNodes, ∀ q ∈ execNodes, p.2 = q.2 → p.1 = q.1 := by decide
    exact ⟨rfl, distinct _ first _ second same⟩
  nonnull := by
    intro js j _ _ _ present
    have real : ∀ d ∈ execDescs, PTE_TO_PA d.2.2 ≠ 0 := by decide
    exact real _ (execSpace_mem present)
  first := Nat.zero_lt_one
  real := by decide
  held := by
    intro _ js short there
    have all : ∀ p ∈ execNodes, (1 ≤ p.2 ∧ p.2 < 1 + 16) ∧ decide (p.2 ≤ 9) = true := by decide
    exact all _ (execSpace_node js short there)

end UvaOs.Vm
