import UvaOs.Vm.Heap
import UvaOs.Vm.Spaces

/-! An address space that starts empty and is filled page by page, as `fork` and `exec` do.
What it takes is a matter of counting: each page needs a frame, and the tables on the way to
it that no page before it needed. -/
namespace UvaOs.Vm

open Prog VmState List

/-- Pages and their permissions, the last one first. -/
abbrev Pages : Type := List (Nat × BitVec 64)

/-- The tables that `va` needs when the pages have theirs. -/
def lack (pages : Pages) (va : Nat) : Nat :=
  ((List.range 4).filter (fun n => ∀ p ∈ pages, ¬ (tablePath va).take n <+: tablePath p.1)).length

def tablesOf : Pages → Nat
  | [] => 0
  | p :: pages => lack pages p.1 + tablesOf pages

/-- With `n` frames at the start, and `k` kernel pages that the mm already has, there is room
for one more page. -/
def Room (n k : Nat) (pages : Pages) (va : Nat) : Prop :=
  pages.length < MAX_TASK_USER_PAGES ∧ pages.length + tablesOf pages + lack pages va + 1 ≤ n ∧
    (0 < lack pages va → k + tablesOf pages + 3 ≤ MAX_TASK_KER_PAGES)

instance (n k : Nat) (pages : Pages) (va : Nat) : Decidable (Room n k pages va) :=
  inferInstanceAs (Decidable (_ ∧ _))

/-- The permission that the page at `va` was mapped with last. -/
def permAt : Pages → Nat → Option (BitVec 64)
  | [], _ => none
  | p :: pages, va => if pagePath va = pagePath p.1 then some p.2 else permAt pages va

theorem permAt_mem {ps : Pages} {va : Nat} {perm : BitVec 64} (found : permAt ps va = some perm) :
    ∃ p ∈ ps, p.2 = perm := by
  induction ps with
  | nil => cases found
  | cons p ps ih => grind [permAt, mem_cons_self, mem_cons_of_mem]

theorem frameAt_congr (s : VmState) (m : Nat) {va va' : Nat} (same : pagePath va = pagePath va') :
    frameAt s m va = frameAt s m va' := by
  unfold frameAt
  rw [same]

theorem Tables.pte_congr {s : VmState} {m va va' : Nat} (h : Tables s m)
    (same : pagePath va = pagePath va') : pte s m va = pte s m va' := by
  obtain ⟨path, index⟩ := append_inj' same rfl
  rw [h.pte_eq, h.pte_eq, path, singleton_inj.mp index]

theorem address_mask {f : Nat} (small : f < 2 ^ 20) :
    BitVec.ofNat 64 (f * PAGE_SIZE) &&& 0xfffff000#64 = BitVec.ofNat 64 (f * PAGE_SIZE) := by
  have none : 0#64 &&& 0xfffff000#64 = 0 := by decide
  have pa := PTE_TO_PA_entry small none
  rw [BitVec.or_zero] at pa
  apply BitVec.eq_of_toNat_eq
  have fits : f * PAGE_SIZE < 2 ^ 64 := by
    simp only [PAGE_SIZE]
    omega
  rw [BitVec.toNat_ofNat, Nat.mod_eq_of_lt fits]
  exact pa

structure SamePages (t u : VmState) (m : Nat) : Prop where
  pte : ∀ va, pte u m va = Vm.pte t m va
  used : u.used = t.used
  low : u.low = t.low
  pages : u.pages = t.pages
  others : ∀ k, k ≠ m → u.mm k = t.mm k
  data : ∀ f, t.used f = true → (∀ ks, ks.length ≤ 3 → node t m ks ≠ f) → u.mem f = t.mem f

structure Refused (t u : VmState) (m : Nat) : Prop extends SamePages t u m where
  sz : (u.mm m).sz = (t.mm m).sz
  codesz : (u.mm m).codesz = (t.mm m).codesz

theorem AsBefore.refused {t u : VmState} {m : Nat} (same : AsBefore t u) (h : Tables t m) :
    Refused t u m :=
  ⟨⟨same.pte h, same.used, same.low, same.pages, fun k _ => by rw [same.mm],
    fun f old _ => same.mem f old⟩, by rw [same.mm], by rw [same.mm]⟩

theorem Dirty.refused {t u : VmState} {m : Nat} (dirty : Dirty t u m) : Refused t u m :=
  ⟨{ dirty with }, dirty.sz, dirty.codesz⟩

structure Added (t u : VmState) (m va f : Nat) : Prop where
  unused : t.used f = false
  frame : frameAt u m va = f
  zero : ∀ j, u.mem f j = 0
  others : ∀ va', pagePath va' ≠ pagePath va → frameAt t m va' ≠ 0 →
    frameAt u m va' = frameAt t m va' ∧ u.mem (frameAt t m va') = t.mem (frameAt t m va')

structure Filled (s t : VmState) (m : Nat) (ps : Pages) : Prop where
  tables : Tables t m
  low : t.low = s.low
  pages : t.pages = s.pages
  absent : ∀ ks, ks.length ≤ 3 → (node t m ks = 0 ↔ ∀ p ∈ ps, ¬ ks <+: tablePath p.1)
  unmapped : ∀ va, permAt ps va = none → pte t m va = 0
  mapped : ∀ va perm, permAt ps va = some perm →
    ∃ f, InPool s f ∧ s.used f = false ∧ pte t m va = entry f perm ∧ frameAt t m va = f
  user : (t.mm m).userPagesCount = ps.length
  kernel : (t.mm m).kernelPagesCount = (s.mm m).kernelPagesCount + tablesOf ps
  free : free t + ps.length + tablesOf ps = Vm.free s
  sz : (t.mm m).sz = (s.mm m).sz
  codesz : (t.mm m).codesz = (s.mm m).codesz
  others : ∀ k, k ≠ m → t.mm k = s.mm k
  used : ∀ f, s.used f = true → t.used f = true
  data : ∀ f, f ≠ 0 → s.used f = true → t.mem f = s.mem f
  fresh : ∀ ks, ks.length ≤ 4 → node t m ks ≠ 0 → s.used (node t m ks) = false

namespace Filled

variable {s t u : VmState} {m va f : Nat} {perm : BitVec 64} {ps : Pages}

section

variable (filled : Filled s t m ps)
include filled

theorem need_eq (va : Nat) : need t m va = lack ps va := by
  rw [need_eq_length, lack]
  congr 1
  apply filter_congr
  intro n small
  have short : ((tablePath va).take n).length ≤ 3 := by
    rw [length_take, length_tablePath]
    omega
  rw [decide_eq_decide]
  exact filled.absent _ short

theorem hasPage_iff (va : Nat) :
    HasPage t m va ↔ Room (Vm.free s) (s.mm m).kernelPagesCount ps va := by
  have count := filled.free
  unfold HasPage Room
  rw [filled.need_eq, filled.user, filled.kernel]
  omega

theorem unused_of (unused : t.used f = false) : s.used f = false := by
  by_contra old
  rw [filled.used f (eq_true_of_ne_false old)] at unused
  cases unused

theorem pool_of (pool : InPool t f) : InPool s f := by
  unfold InPool at *
  rwa [filled.low, filled.pages] at pool

end

theorem start (first : 0 < s.low) (real : (s.low + s.pages) * PAGE_SIZE ≤ PHYS_SIZE)
    (pgd : (s.mm m).pgd = 0) (user : (s.mm m).userPagesCount = 0) : Filled s s m [] := by
  have top : node s m [] = 0 := by
    rw [node_nil, pgd]
    rfl
  have empty : ∀ ks, node s m ks = 0 := fun ks => node_append_zero top ks
  have tables : Tables s m := by
    refine ⟨⟨by rw [pgd]; rfl, ?_, ?_⟩, first, real, ?_⟩
    · intro _ js _ ks _ _ there
      exact absurd (empty js) there
    · intro js j _ there
      exact absurd (empty js) there
    · intro _ js _ there
      exact absurd (empty js) there
  refine ⟨tables, rfl, rfl, ?_, ?_, ?_, user, rfl, rfl, rfl, rfl, fun _ _ => rfl, fun _ => id,
    fun _ _ _ => rfl, fun ks _ there => absurd (empty ks) there⟩
  · intro ks _
    simp [empty ks]
  · intro va _
    exact (tables.pte_eq_zero va).mpr (empty _)
  · intro va perm none
    cases none

section

variable (filled : Filled s t m ps)
include filled

theorem step (pool : InPool t f) (unused : t.used f = false)
    (low : (MMU_PTE_FLAGS ||| perm) &&& 0xfffff000#64 = 0)
    (new : MappedNew (take t f) u m va (entry f perm)) : Filled s u m ((va, perm) :: ps) := by
  obtain ⟨-, nodes, -⟩ := take_tables filled.tables pool unused
  have fewer := free_take pool unused
  have needs : need (take t f) m va = lack ps va := by
    rw [need_congr nodes va, filled.need_eq]
  have count := new.free
  have total := filled.free
  have other : ∀ g, s.used g = true → g ≠ f ∧ (take t f).used g = true := by
    intro g old
    have differs : g ≠ f := by grind [filled.unused_of]
    refine ⟨differs, ?_⟩
    change Function.update t.used f true g = true
    rw [Function.update_of_ne differs, filled.used g old]
  refine ⟨new.tables, new.low.trans filled.low, new.pages.trans filled.pages, ?_, ?_, ?_, ?_, ?_, ?_,
    new.sz.trans filled.sz, new.codesz.trans filled.codesz, ?_, ?_, ?_, ?_⟩
  · intro ks short
    rw [new.absent ks short, nodes ks (by omega), filled.absent ks short, forall_mem_cons,
      and_comm]
  · intro va' none
    rw [permAt] at none
    split at none
    · cases none
    · next differs =>
      rw [new.pte, if_neg differs, take_pte filled.tables pool unused]
      exact filled.unmapped va' none
  · intro va' perm' found
    rw [permAt] at found
    split at found
    · next same =>
      cases found
      have here : pte u m va' = entry f perm := by rw [new.pte, if_pos same]
      refine ⟨f, filled.pool_of pool, filled.unused_of unused, here, ?_⟩
      have frame := new.tables.pte_frame va'
      rw [here, entry_frame (filled.tables.frame_lt pool) low] at frame
      exact (Nat.eq_of_mul_eq_mul_right (by decide) frame).symm
    · next differs =>
      have kept : pte u m va' = pte t m va' := by
        rw [new.pte, if_neg differs, take_pte filled.tables pool unused]
      obtain ⟨g, inPool, free_, here, frame⟩ := filled.mapped va' perm' found
      exact ⟨g, inPool, free_, kept.trans here,
        (frameAt_of_pte filled.tables.toShape new.tables.toShape kept).trans frame⟩
  · rw [new.userPagesCount, length_cons]
    change (t.mm m).userPagesCount + 1 = _
    rw [filled.user]
    rfl
  · rw [new.kernelPagesCount, needs]
    change (t.mm m).kernelPagesCount + _ = _ + (lack ps va + tablesOf ps)
    rw [filled.kernel]
    omega
  · rw [needs] at count
    simp only [tablesOf, length_cons]
    omega
  · intro k differs
    exact (new.others k differs).trans (filled.others k differs)
  · intro g old
    exact new.used g (other g old).2
  · grind [new.data, filled.data, filled.fresh, take_mem_ne, node]
  · grind [new.node_cases, filled.tables, filled.fresh, filled.unused_of]

theorem page_apart (there : frameAt t m va ≠ 0) {ks : List Nat}
    (short : ks.length ≤ 3) : node t m ks ≠ frameAt t m va := by
  intro same
  have equal := filled.tables.same_node (Nat.le_of_eq (length_pagePath va)) (by omega) there same
  have length := congrArg List.length equal
  rw [length_pagePath] at length
  omega

theorem added (pool : InPool t f) (unused : t.used f = false)
    (low : (MMU_PTE_FLAGS ||| perm) &&& 0xfffff000#64 = 0)
    (new : MappedNew (take t f) u m va (entry f perm)) : Added t u m va f := by
  obtain ⟨-, nodes, loose⟩ := take_tables filled.tables pool unused
  refine ⟨unused, ?_, ?_, ?_⟩
  · have frame := new.tables.pte_frame va
    rw [new.pte, if_pos rfl, entry_frame (filled.tables.frame_lt pool) low] at frame
    exact (Nat.eq_of_mul_eq_mul_right (by decide) frame).symm
  · intro j
    rw [new.data f loose.used (fun ks short => loose.apart ks (by omega))]
    simp [take]
  · intro va' differs there
    have kept : pte u m va' = pte t m va' := by
      rw [new.pte, if_neg differs, take_pte filled.tables pool unused]
    have held := (filled.tables.node_held (Nat.le_of_eq (length_pagePath va')) there).2
    have other : frameAt t m va' ≠ f := by grind [frameAt]
    refine ⟨frameAt_of_pte filled.tables.toShape new.tables.toShape kept, ?_⟩
    refine (new.data _ ?_ ?_).trans (take_mem_ne t other)
    · change Function.update t.used f true (frameAt t m va') = true
      rw [Function.update_of_ne other]
      exact held
    · grind [filled.page_apart]

theorem allocate (va : Nat) (low : (MMU_PTE_FLAGS ||| perm) &&& 0xfffff000#64 = 0) :
    (Room (Vm.free s) (s.mm m).kernelPagesCount ps va ∧ ∃ f u, allocateUserPageMm m va perm t = .ok (f * PAGE_SIZE, u) ∧
      f * PAGE_SIZE ≠ 0 ∧ Filled s u m ((va, perm) :: ps) ∧ Added t u m va f) ∨
    (¬ Room (Vm.free s) (s.mm m).kernelPagesCount ps va ∧ ∃ u, allocateUserPageMm m va perm t = .ok (0, u) ∧
      Refused t u m) := by
  rw [← filled.hasPage_iff]
  obtain ⟨r, u, ran, outcome⟩ := allocateUserPageMm_full va filled.tables low
  rcases outcome with ⟨nz, has, f, pool, unused, rfl, new, -⟩ | ⟨rfl, none, same⟩ |
    ⟨rfl, none, -, dirty⟩
  · exact .inl ⟨has, f, u, ran, nz, filled.step pool unused low new,
      filled.added pool unused low new⟩
  · refine .inr ⟨?_, u, ran, same.refused filled.tables⟩
    unfold HasPage
    unfold NoPage at none
    omega
  · exact .inr ⟨none, u, ran, dirty.refused⟩

theorem write (there : frameAt t m va ≠ 0)
    (mem : ∀ g, g ≠ frameAt t m va → u.mem g = t.mem g) (low : u.low = t.low)
    (pages : u.pages = t.pages) (used : u.used = t.used) (mm : u.mm = t.mm) :
    Filled s u m ps ∧ (∀ va', pte u m va' = pte t m va') ∧
      ∀ va', frameAt u m va' = frameAt t m va' := by
  have pgd : (u.mm m).pgd = (t.mm m).pgd := by rw [mm]
  have upper : ∀ ks, ks.length ≤ 3 → node t m ks ≠ 0 → u.mem (node t m ks) = t.mem (node t m ks) :=
    fun ks short _ => mem _ (filled.page_apart there short)
  have nodes : ∀ ks, ks.length ≤ 4 → node u m ks = node t m ks :=
    fun ks short => node_congr pgd upper short
  have tables := filled.tables.congr_mem pgd upper low pages (fun f old => by rw [used]; exact old)
  have same : ∀ va', pte u m va' = pte t m va' := by
    intro va'
    have short : (tablePath va').length ≤ 4 := Nat.le_succ 3
    rw [tables.pte_eq, filled.tables.pte_eq, nodes _ short]
    split
    · rfl
    · next present => rw [upper _ (Nat.le_of_eq (length_tablePath va')) present]
  have frames : ∀ va', frameAt u m va' = frameAt t m va' :=
    fun va' => nodes _ (Nat.le_of_eq (length_pagePath va'))
  have number : Vm.free u = Vm.free t := by
    unfold Vm.free
    rw [low, pages, used]
  refine ⟨⟨tables, low.trans filled.low, pages.trans filled.pages, ?_, ?_, ?_, ?_, ?_, ?_, ?_, ?_, ?_,
    ?_, ?_, ?_⟩, same, frames⟩
  · grind [filled.absent]
  · intro va' none
    rw [same]
    exact filled.unmapped va' none
  · grind [filled.mapped]
  · rw [mm]
    exact filled.user
  · rw [mm]
    exact filled.kernel
  · rw [number]
    exact filled.free
  · rw [mm]
    exact filled.sz
  · rw [mm]
    exact filled.codesz
  · rw [mm]
    exact filled.others
  · rw [used]
    exact filled.used
  · intro g nz old
    rw [mem g, filled.data g nz old]
    rintro rfl
    have unused := filled.fresh (pagePath va) (Nat.le_of_eq (length_pagePath va)) there
    change s.used (frameAt t m va) = false at unused
    rw [old] at unused
    cases unused
  · intro ks short
    rw [nodes ks short]
    exact filled.fresh ks short

theorem others_same {k : Nat} (other : k ≠ m) (h : Tables s k) : SameSpace s t k ∧ Tables t k :=
  SameSpace.of_data h (filled.others k other)
    (fun _ short there => filled.data _ there (h.node_held short there).2) filled.low filled.pages
    filled.used

theorem others_of_same (shows : SamePages t u m) {k : Nat} (other : k ≠ m)
    (h : Tables s k) : SameSpace s u k ∧ Tables u k := by
  refine SameSpace.of_data h ((shows.others k other).trans (filled.others k other)) ?_
    (shows.low.trans filled.low) (shows.pages.trans filled.pages) ?_
  · intro ks short there
    have held := (h.node_held short there).2
    rw [shows.data _ (filled.used _ held), filled.data _ there held]
    intro js upper same
    have new := filled.fresh js (by omega) (by rw [same]; exact there)
    rw [same, held] at new
    cases new
  · intro f old
    rw [shows.used]
    exact filled.used f old

end

end Filled

end UvaOs.Vm
