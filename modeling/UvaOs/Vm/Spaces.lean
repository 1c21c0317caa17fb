import UvaOs.Vm.Grow

/-! All address spaces of the kernel together: each has sound tables, and no frame is in
two of them. Mapping a page in one leaves the others as they are. -/
namespace UvaOs.Vm

open Prog VmState

/-- The address spaces in `live`. -/
structure Spaces (s : VmState) (live : Nat → Prop) : Prop where
  tables : ∀ m, live m → Tables s m
  apart : ∀ m k, live m → live k → m ≠ k → ∀ ks ls, ks.length ≤ 4 → ls.length ≤ 4 →
    node s m ks ≠ 0 → node s m ks ≠ node s k ls

theorem pagePath_surj {ks : List Nat} (length : ks.length = 4) (small : ∀ k ∈ ks, k < PTRS_PER_TABLE) :
    ∃ va, pagePath va = ks := by
  obtain ⟨a, b, c, d, rfl⟩ : ∃ a b c d, ks = [a, b, c, d] := by
    match ks, length with
    | [a, b, c, d], _ => exact ⟨a, b, c, d, rfl⟩
  have ha := small a (by simp)
  have hb := small b (by simp)
  have hc := small c (by simp)
  have hd := small d (by simp)
  refine ⟨((a * 512 + b) * 512 + c) * 2 ^ 21 + d * 4096, ?_⟩
  unfold pagePath tablePath indices levels tableIndex
  simp only [PTRS_PER_TABLE, PGD_SHIFT, PUD_SHIFT, PMD_SHIFT, PAGE_SHIFT, List.map_cons, List.map_nil,
    List.cons_append, List.nil_append, List.cons.injEq, and_true] at *
  omega

theorem node_small {s : VmState} {m : Nat} {ks : List Nat} (there : node s m ks ≠ 0) :
    ∀ k ∈ ks, k < PTRS_PER_TABLE := by
  induction ks using List.reverseRecOn with
  | nil => simp
  | append_singleton js j ih =>
    have parent : node s m js ≠ 0 := fun absent => there (node_append_zero absent [j])
    intro k member
    rcases List.mem_append.mp member with upper | last
    · exact ih parent k upper
    · rw [List.mem_singleton.mp last]
      by_contra wide
      exact there (node_wide js wide)

theorem MappedNew.node_cases {s t : VmState} {m va f : Nat} {perm : BitVec 64} (h : Tables s m)
    (pool : InPool s f) (unused : s.used f = false)
    (mapped : MappedNew (take s f) t m va (entry f perm))
    (low : (MMU_PTE_FLAGS ||| perm) &&& 0xfffff000#64 = 0) {ks : List Nat} (short : ks.length ≤ 4)
    (there : node t m ks ≠ 0) : node t m ks = node s m ks ∨ s.used (node t m ks) = false := by
  obtain ⟨tables, nodes, -⟩ := take_tables h pool unused
  rcases Nat.lt_or_ge ks.length 4 with upper | page
  · by_cases absent : node (take s f) m ks = 0
    · right
      have fresh : Function.update s.used f true (node t m ks) = false :=
        mapped.fresh ks (by omega) absent there
      by_cases same : node t m ks = f
      · rwa [same]
      · rwa [Function.update_of_ne same] at fresh
    · left
      rw [mapped.kept ks (by omega) absent, nodes ks short]
  · obtain ⟨va', rfl⟩ := pagePath_surj (Nat.le_antisymm short page) (node_small there)
    have size : 0 < PAGE_SIZE := by decide
    have new := mapped.tables.pte_frame va'
    rw [mapped.pte va'] at new
    split at new
    · grind [h.frame_lt, entry_frame, Nat.eq_of_mul_eq_mul_right]
    · grind [h.pte_frame, take_pte, Nat.eq_of_mul_eq_mul_right]

/- What an address space is made of, seen from outside. -/
structure SameSpace (s t : VmState) (k : Nat) : Prop where
  mm : t.mm k = s.mm k
  nodes : ∀ ks, ks.length ≤ 4 → node t k ks = node s k ks
  pte : ∀ va, pte t k va = Vm.pte s k va
  data : ∀ ks, ks.length ≤ 4 → node s k ks ≠ 0 → t.mem (node s k ks) = s.mem (node s k ks)

theorem SameSpace.of_data {s t : VmState} {k : Nat} (h : Tables s k) (mm : t.mm k = s.mm k)
    (data : ∀ ks, ks.length ≤ 4 → node s k ks ≠ 0 → t.mem (node s k ks) = s.mem (node s k ks))
    (low : t.low = s.low) (pages : t.pages = s.pages)
    (used : ∀ f, s.used f = true → t.used f = true) : SameSpace s t k ∧ Tables t k := by
  have pgd : (t.mm k).pgd = (s.mm k).pgd := by rw [mm]
  have upper : ∀ ks, ks.length ≤ 3 → node s k ks ≠ 0 →
      t.mem (node s k ks) = s.mem (node s k ks) := fun ks short => data ks (by omega)
  have tables := h.congr_mem pgd upper low pages used
  have nodes : ∀ ks, ks.length ≤ 4 → node t k ks = node s k ks :=
    fun ks short => node_congr pgd upper short
  refine ⟨⟨mm, nodes, ?_, data⟩, tables⟩
  intro va
  have short : (tablePath va).length ≤ 4 := Nat.le_succ 3
  rw [tables.pte_eq, h.pte_eq, nodes _ short]
  split
  · rfl
  · next there => rw [data _ short there]

namespace Spaces

variable {s t : VmState} {live : Nat → Prop} {m va f : Nat} {perm : BitVec 64}

theorem others (spaces : Spaces s live) (mine : live m) (pool : InPool s f)
    (unused : s.used f = false) (mapped : MappedNew (take s f) t m va (entry f perm)) {k : Nat}
    (theirs : live k) (other : k ≠ m) : SameSpace s t k ∧ Tables t k := by
  have h := spaces.tables k theirs
  obtain ⟨-, nodes, -⟩ := take_tables (spaces.tables m mine) pool unused
  have kept : ∀ g, s.used g = true → g ≠ f ∧ (take s f).used g = true := by
    intro g old
    have differs : g ≠ f := by
      rintro rfl
      rw [unused] at old
      cases old
    refine ⟨differs, ?_⟩
    change Function.update s.used f true g = true
    rw [Function.update_of_ne differs, old]
  refine SameSpace.of_data h (mapped.others k other) ?_ mapped.low mapped.pages ?_
  · intro ks short there
    obtain ⟨differs, old⟩ := kept _ (h.node_held short there).2
    refine (mapped.data _ old ?_).trans (take_mem_ne s differs)
    intro ls upper
    rw [nodes ls (by omega)]
    exact fun same => spaces.apart k m theirs mine other ks ls short (by omega) there same.symm
  · intro g old
    exact mapped.used g (kept g old).2

theorem mapped (spaces : Spaces s live) (mine : live m) (pool : InPool s f)
    (unused : s.used f = false) (mapped : MappedNew (take s f) t m va (entry f perm))
    (low : (MMU_PTE_FLAGS ||| perm) &&& 0xfffff000#64 = 0) : Spaces t live := by
  have h := spaces.tables m mine
  have rest := fun k theirs other => spaces.others mine pool unused mapped (k := k) theirs other
  -- a frame of another space is neither new nor one that was in `m`
  have clash : ∀ k, live k → k ≠ m → ∀ ks ls, ks.length ≤ 4 → ls.length ≤ 4 →
      node t m ks ≠ 0 → node t m ks ≠ node t k ls := by
    intro k theirs other ks ls hk hl there same
    obtain ⟨same_, -⟩ := rest k theirs other
    rw [same_.nodes ls hl] at same
    rcases mapped.node_cases h pool unused low hk there with old | fresh
    · exact spaces.apart m k mine theirs other.symm ks ls hk hl (old ▸ there) (old ▸ same)
    · have held := (spaces.tables k theirs).node_held hl (same ▸ there)
      rw [same, held.2] at fresh
      cases fresh
  constructor
  · grind [mapped.tables]
  · intro a b ha hb differs ks ls hk hl there
    by_cases first : a = m
    · subst first
      exact clash b hb differs.symm ks ls hk hl there
    · by_cases second : b = m
      · grind
      · rw [(rest a ha first).1.nodes ks hk] at there ⊢
        rw [(rest b hb second).1.nodes ls hl]
        exact spaces.apart a b ha hb differs ks ls hk hl there

end Spaces

end UvaOs.Vm
