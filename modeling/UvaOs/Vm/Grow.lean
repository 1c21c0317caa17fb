import UvaOs.Vm.Map

/-! The heap of an address space: `growproc` and `sys_sbrk`. -/
namespace UvaOs.Vm

open Prog VmState
open Function (update update_self update_of_ne update_idem update_eq_self)

/-! Model -/

def sub64 (a b : Nat) : Nat := (a + 2 ^ 64 - b) % 2 ^ 64

def pageSteps (lo hi : Nat) : Nat := (hi - lo + (PAGE_SIZE - 1)) / PAGE_SIZE

def freeUserPages (m : Nat) : Nat → Nat → VmM Unit
  | 0, _ => pure ()
  | n + 1, va => do
    let place ← mapPage m va 0 false 0
    match place with
    | none => stop .bug
    | some (frame, index) => do
      let s ← get
      freePage (PTE_TO_PA (s.mem frame index))
      modify (fun s => s.putMm m { s.mm m with
        userPagesCount := (s.mm m).userPagesCount - 1 })
      modify (·.putWord frame index 0)
      freeUserPages m n (va + PAGE_SIZE)

/-- Unmap and free user pages; the number of pages. -/
def freeUserPageRange (m start size : Nat) : VmM Nat :=
  if start % PAGE_SIZE ≠ 0 ∨ size % PAGE_SIZE ≠ 0 then stop .bug
  else do
    let steps := pageSteps start ((start + size) % 2 ^ 64)
    freeUserPages m steps start
    pure steps

def growPages (m : Nat) : Nat → Nat → VmM (Option Nat)
  | 0, _ => pure none
  | n + 1, va => do
    let kva ← allocateUserPageMm m va (MM_AP_RW ||| MM_XN)
    if kva = 0 then pure (some va) else growPages m n (va + PAGE_SIZE)

/-- Grow or shrink the heap; the old break, or `none` for -1. -/
def growproc (m : Nat) (incr : Int) : VmM (Option Nat) := do
  let s ← get
  let sz := (s.mm m).sz
  if incr < 0 ∧ (sz : Int) < -incr then pure none
  else if incr > 0 ∧ (sz : Int) + incr ≥ USER_VA_END then pure none
  else if incr ≥ 0 then do
    let failed ← growPages m (pageSteps (PGROUNDUP sz) (sz + incr).toNat) (PGROUNDUP sz)
    match failed with
    | some va => do
      let _ ← freeUserPageRange m (PGROUNDUP sz) (sub64 va (PGROUNDUP sz))
      pure none
    | none => do
      modify (fun s => s.putMm m { s.mm m with sz := (sz + incr).toNat })
      pure (some sz)
  else do
    let _ ← freeUserPageRange m (PGROUNDUP (sz + incr).toNat)
      (sub64 (PGROUNDDOWN sz) (PGROUNDUP (sz + incr).toNat))
    modify (fun s => s.putMm m { s.mm m with sz := (sz + incr).toNat })
    pure (some sz)

/-- `sp` is the user stack pointer in the trap frame. -/
def sysSbrk (m sp : Nat) (incr : Int) : VmM (Option Nat) := do
  let s ← get
  let sz := (s.mm m).sz
  if incr < 0 ∧ ((sz : Int) + incr) % 2 ^ 64 < (s.mm m).codesz then pure none
  else if incr > 0 ∧ sz < sp ∧ (sz : Int) + incr > sub64 sp PAGE_SIZE then pure none
  else if incr = 0 then pure (some sz)
  else growproc m incr

/-! One page -/

structure AsBefore (s t : VmState) : Prop where
  low : t.low = s.low
  pages : t.pages = s.pages
  used : t.used = s.used
  pagesUsed : t.pagesUsed = s.pagesUsed
  mm : t.mm = s.mm
  mem : ∀ f, s.used f = true → t.mem f = s.mem f

theorem AsBefore.refl (s : VmState) : AsBefore s s := ⟨rfl, rfl, rfl, rfl, rfl, fun _ _ => rfl⟩

section NodeCongr

variable {s t : VmState} {m : Nat}

theorem node_congr (pgd : (t.mm m).pgd = (s.mm m).pgd)
    (mem : ∀ ks, ks.length ≤ 3 → node s m ks ≠ 0 → t.mem (node s m ks) = s.mem (node s m ks))
    {ks : List Nat} (short : ks.length ≤ 4) : node t m ks = node s m ks := by
  have same : Forest.Pruned (space s m) (space t m) (fun _ => False) := by
    refine Forest.pruned_of_roots (fun _ no => no.elim) ?_ ?_
    · intro _ _
      change (t.mm m).pgd / PAGE_SIZE = (s.mm m).pgd / PAGE_SIZE
      rw [pgd]
    · intro _ js index there j
      have shorter : js.length < 4 := index
      change (if _ then PTE_TO_PA (t.mem (node s m js) j) / PAGE_SIZE else 0) =
        if _ then PTE_TO_PA (s.mem (node s m js) j) / PAGE_SIZE else 0
      rw [mem js (by omega) there]
  exact (same () ks short).2 id

theorem Tables.congr_mem (h : Tables s m) (pgd : (t.mm m).pgd = (s.mm m).pgd)
    (mem : ∀ ks, ks.length ≤ 3 → node s m ks ≠ 0 → t.mem (node s m ks) = s.mem (node s m ks))
    (low : t.low = s.low) (pages : t.pages = s.pages)
    (used : ∀ f, s.used f = true → t.used f = true) : Tables t m := by
  have nodes : ∀ {ks : List Nat}, ks.length ≤ 4 → node t m ks = node s m ks :=
    fun short => node_congr pgd mem short
  refine ⟨⟨pgd ▸ h.aligned, ?_, ?_⟩, low ▸ h.first, low ▸ pages ▸ h.real, ?_⟩
  · intro _ ks _ ls hk hl there same
    change node t m ks = node t m ls at same
    change node t m ks ≠ 0 at there
    rw [nodes hk] at same there
    rw [nodes hl] at same
    exact ⟨rfl, h.same_node hl hk (same ▸ there) same⟩
  · intro js j index there small present
    rw [nodes (by omega)] at there present ⊢
    rw [mem js (by omega) there] at present ⊢
    exact h.nonnull js j index there small present
  · intro _ ks short there
    change node t m ks ≠ 0 at there
    change InPool t (node t m ks) ∧ t.used (node t m ks) = true
    rw [nodes short] at there ⊢
    obtain ⟨pool, held⟩ := h.node_held short there
    refine ⟨?_, used _ held⟩
    unfold InPool at *
    rwa [low, pages]

section

variable (same : AsBefore s t) (h : Tables s m)
include same h

theorem AsBefore.nodes {ks : List Nat} (short : ks.length ≤ 4) : node t m ks = node s m ks := by
  apply node_congr (by rw [same.mm]) _ short
  intro ks upper there
  exact same.mem _ (h.node_held (by omega) there).2

theorem AsBefore.tables : Tables t m := by
  apply h.congr_mem (by rw [same.mm]) _ same.low same.pages (fun f old => by rw [same.used]; exact old)
  intro ks upper there
  exact same.mem _ (h.node_held (by omega) there).2

theorem AsBefore.pte (va : Nat) : pte t m va = pte s m va := by
  have short : (tablePath va).length ≤ 4 := Nat.le_succ 3
  rw [(same.tables h).pte_eq, h.pte_eq, same.nodes h short]
  split
  · rfl
  · next there => rw [same.mem _ (h.node_held short there).2]

theorem AsBefore.no_trace : ¬ Trace s t m := by
  rintro ⟨ks, short, absent, present⟩
  exact present ((same.nodes h (by omega)).trans absent)

end

end NodeCongr

section Allocate

variable {s t : VmState} {m f : Nat}

theorem take_mem_ne (s : VmState) {f g : Nat} (other : g ≠ f) : (take s f).mem g = s.mem g :=
  update_of_ne other _ _

theorem take_tables (h : Tables s m) (pool : InPool s f) (unused : s.used f = false) :
    Tables (take s f) m ∧ (∀ ks, ks.length ≤ 4 → node (take s f) m ks = node s m ks) ∧
      Loose (take s f) m f := by
  have nz := h.frame_pos pool
  have mem : ∀ ks, ks.length ≤ 3 → node s m ks ≠ 0 →
      (take s f).mem (node s m ks) = s.mem (node s m ks) := by grind [h.not_node, take_mem_ne]
  have used : ∀ g, s.used g = true → (take s f).used g = true := by
    intro g old
    change update s.used f true g = true
    by_cases same : g = f
    · rw [same, update_self]
    · rw [update_of_ne same, old]
  refine ⟨h.congr_mem rfl mem rfl rfl used, fun ks short => node_congr (s := s) (t := take s f) rfl mem short,
    pool, update_self _ _ _, ?_⟩
  intro ks short
  rw [node_congr (s := s) (t := take s f) rfl mem short]
  exact h.not_node unused ks short nz

theorem take_pte {s : VmState} {m f : Nat} (h : Tables s m) (pool : InPool s f)
    (unused : s.used f = false) (va : Nat) : pte (take s f) m va = pte s m va := by
  obtain ⟨tables, nodes, -⟩ := take_tables h pool unused
  have short : (tablePath va).length ≤ 4 := Nat.le_succ 3
  rw [tables.pte_eq, h.pte_eq, nodes _ short]
  split
  · rfl
  · rw [take_mem_ne s (h.not_node unused _ short (h.frame_pos pool))]

theorem missing_congr (nodes : ∀ ks, ks.length ≤ 4 → node t m ks = node s m ks) (js is : List Nat)
    (short : js.length + is.length ≤ 4) : missing t m js is = missing s m js is := by
  induction is generalizing js with
  | nil => rfl
  | cons i rest ih => grind [List.length_cons, missing]

theorem need_congr (nodes : ∀ ks, ks.length ≤ 4 → node t m ks = node s m ks) (va : Nat) :
    need t m va = need s m va := by
  unfold need
  rw [nodes [] (Nat.zero_le 4), missing_congr nodes [] (tablePath va) (Nat.le_succ 3)]

def NoPage (s : VmState) (m va : Nat) : Prop :=
  (s.mm m).userPagesCount ≥ MAX_TASK_USER_PAGES ∨ free s = 0 ∨
    0 < need s m va ∧
      (free s = 1 ∨ need s m va = 4 ∧ (s.mm m).kernelPagesCount = MAX_TASK_KER_PAGES)

def HasPage (s : VmState) (m va : Nat) : Prop :=
  (s.mm m).userPagesCount < MAX_TASK_USER_PAGES ∧ need s m va + 1 ≤ free s ∧
    (0 < need s m va → (s.mm m).kernelPagesCount + 3 ≤ MAX_TASK_KER_PAGES)

theorem allocateUserPageMm_full (va : Nat) {perm : BitVec 64} (h : Tables s m)
    (low : (MMU_PTE_FLAGS ||| perm) &&& 0xfffff000#64 = 0) :
    ∃ r t, allocateUserPageMm m va perm s = .ok (r, t) ∧
      ((r ≠ 0 ∧ HasPage s m va ∧ ∃ f, InPool s f ∧ s.used f = false ∧
        r = f * PAGE_SIZE ∧ MappedNew (take s f) t m va (entry f perm) ∧
        (need s m va = 0 → t = commit (setPte (take s f) m va (entry f perm)) m [])) ∨
      (r = 0 ∧ NoPage s m va ∧ AsBefore s t) ∨
      (r = 0 ∧ ¬ HasPage s m va ∧ ¬ NoPage s m va ∧ Dirty s t m)) := by
  rw [allocateUserPageMm, run_bind (rfl : get s = .ok (s, s))]
  by_cases full : (s.mm m).userPagesCount = MAX_TASK_USER_PAGES
  · rw [if_pos full]
    exact ⟨0, s, rfl, .inr (.inl ⟨rfl, .inl (by omega), AsBefore.refl s⟩)⟩
  rw [if_neg full]
  rcases getFreePage_cases s with ⟨none, result⟩ | ⟨f, pool, unused, result⟩
  · rw [run_bind result, if_pos rfl]
    exact ⟨0, s, rfl, .inr (.inl ⟨rfl, .inr (.inl none), AsBefore.refl s⟩)⟩
  obtain ⟨tables, nodes, loose⟩ := take_tables h pool unused
  have fewer := free_take pool unused
  have needs : need (take s f) m va = need s m va := need_congr nodes va
  have nz : f * PAGE_SIZE ≠ 0 := Nat.mul_ne_zero (h.frame_pos pool) (by decide)
  rw [run_bind result, if_neg nz]
  obtain ⟨r, t, ran, outcome⟩ := mapPage_full va tables loose low
  rw [run_bind ran]
  have count : ((take s f).mm m).userPagesCount = (s.mm m).userPagesCount := rfl
  have kernel : ((take s f).mm m).kernelPagesCount = (s.mm m).kernelPagesCount := rfl
  unfold Roomy Stuck at outcome
  rw [needs, count, kernel] at outcome
  unfold HasPage NoPage
  rcases outcome with ⟨found, room, mapped, plain⟩ | ⟨rfl, rfl, stuck⟩ | ⟨rfl, cramped, free_, dirty⟩
  · obtain ⟨place, rfl⟩ := Option.isSome_iff_exists.mp found
    exact ⟨_, t, rfl, .inl ⟨nz, by omega, f, pool, unused, rfl, mapped, plain⟩⟩
  · refine ⟨0, _, rfl, .inr (.inl ⟨rfl, by omega, rfl, rfl, ?_, ?_, rfl, ?_⟩)⟩
    · change update (update s.used f true) (f * PAGE_SIZE / PAGE_SIZE) false = _
      rw [Nat.mul_div_cancel _ (by decide), update_idem, ← unused,
        update_eq_self]
    · change s.pagesUsed + 1 - 1 = s.pagesUsed
      omega
    · grind [take_mem_ne]
  · refine ⟨0, _, rfl, .inr (.inr ⟨rfl, by omega, by omega, ?_⟩)⟩
    have other : ∀ g, s.used g = true → g ≠ f := by
      rintro g old rfl
      rw [unused] at old
      cases old
    have kept : ∀ g, s.used g = true → (take s f).used g = true := by
      intro g old
      change update s.used f true g = true
      rw [update_of_ne (other g old), old]
    obtain ⟨ks, short, absent, present⟩ := dirty.trace
    rw [nodes ks (by omega)] at absent
    obtain ⟨after, same⟩ := dirty.shape.congr (t := { t with
      used := update t.used (f * PAGE_SIZE / PAGE_SIZE) false
      pagesUsed := t.pagesUsed - 1 }) rfl rfl
    refine { dirty with
        shape := after, trace := ⟨ks, short, absent, by rw [same]; exact present⟩, pte := ?_, used := ?_, data := ?_ }
    · intro va'
      rw [after.pte_eq, same, ← take_pte h pool unused va', ← dirty.pte va', dirty.shape.pte_eq]
    · change update t.used (f * PAGE_SIZE / PAGE_SIZE) false = s.used
      rw [dirty.used, Nat.mul_div_cancel _ (by decide)]
      change update (update s.used f true) f false = s.used
      rw [update_idem, ← unused, update_eq_self]
    · intro g old apart
      have away : ∀ ks, ks.length ≤ 3 → node (take s f) m ks ≠ g := by grind
      exact (dirty.data g (kept g old) away).trans (take_mem_ne s (other g old))

theorem allocateUserPageMm_spec (va : Nat) {perm : BitVec 64} (h : Tables s m)
    (low : (MMU_PTE_FLAGS ||| perm) &&& 0xfffff000#64 = 0) :
    ∃ r t, allocateUserPageMm m va perm s = .ok (r, t) ∧
      ((r ≠ 0 ∧ HasPage s m va ∧ ∃ f, InPool s f ∧ s.used f = false ∧
        Mapped (take s f) t m va (entry f perm) ∧
        (need s m va = 0 → t = commit (setPte (take s f) m va (entry f perm)) m [])) ∨
      (r = 0 ∧ NoPage s m va ∧ AsBefore s t) ∨
      (r = 0 ∧ ¬ HasPage s m va ∧ ¬ NoPage s m va ∧ Shape t m ∧ Trace s t m)) := by
  obtain ⟨r, t, ran, outcome⟩ := allocateUserPageMm_full va h low
  refine ⟨r, t, ran, ?_⟩
  rcases outcome with ⟨found, has, f, pool, unused, -, mapped, plain⟩ | none |
    ⟨failed, cramped, free_, dirty⟩
  · exact .inl ⟨found, has, f, pool, unused, mapped.toMapped, plain⟩
  · exact .inr (.inl none)
  · exact .inr (.inr ⟨failed, cramped, free_, dirty.shape, dirty.trace⟩)

end Allocate

end UvaOs.Vm
