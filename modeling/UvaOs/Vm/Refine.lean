import UvaOs.Vm.Atomic
import UvaOs.Vm.Contents
import UvaOs.Vm.Dup

/-! The page tables as a finite map. Any page may be mapped any number of times, so here a tree
ends with its bottom tables: all trees of the kernel together are one forest whose nodes are
the page tables, and a lookup is a function of the pte. -/
namespace UvaOs.Vm

open Prog VmState

/-! The tables of all address spaces -/

def trees (s : VmState) : Forest Nat where
  root m := (s.mm m).pgd / PAGE_SIZE
  word b j := if j < PTRS_PER_TABLE then PTE_TO_PA (s.mem b j) / PAGE_SIZE else 0
  depth _ := 3

theorem trees_ptr (s : VmState) (m : Nat) (js : List Nat) : (trees s).ptr m js = node s m js := rfl

/-- The page tables are pairwise distinct, within one address space and between two, and their
frames are allocated. -/
structure Trees (s : VmState) : Prop where
  first : 0 < s.low
  real : (s.low + s.pages) * PAGE_SIZE ≤ PHYS_SIZE
  upper : ∀ m, Upper s m
  exclusive : (trees s).Exclusive
  held : (trees s).Covered (fun frame => InPool s frame ∧ s.used frame = true)

section Trees

variable {s t : VmState} {m k f : Nat}

theorem Trees.same_node (h : Trees s) {ks ls : List Nat} (hk : ks.length ≤ 3) (hl : ls.length ≤ 3)
    (there : node s m ks ≠ 0) (same : node s m ks = node s k ls) : m = k ∧ ks = ls :=
  h.exclusive m ks k ls hk hl there same

theorem Trees.node_held (h : Trees s) {ks : List Nat} (short : ks.length ≤ 3)
    (there : node s m ks ≠ 0) : InPool s (node s m ks) ∧ s.used (node s m ks) = true :=
  h.held m ks short there

theorem Trees.fresh (h : Trees s) (pool : InPool s f) (unused : s.used f = false) (ks : List Nat)
    (short : ks.length ≤ 3) : node s m ks ≠ f := by
  intro here
  have used := (h.node_held short (here ▸ pool_pos h.first pool)).2
  rw [here, unused] at used
  cases used

theorem trees_congr (pgd : ∀ k, (t.mm k).pgd = (s.mm k).pgd)
    (mem : ∀ k ks, ks.length < 3 → node s k ks ≠ 0 → t.mem (node s k ks) = s.mem (node s k ks))
    {ks : List Nat} (short : ks.length ≤ 3) : node t k ks = node s k ks := by
  have same : Forest.Pruned (trees s) (trees t) (fun _ => False) := by
    refine Forest.pruned_of_roots (fun _ no => no.elim) ?_ ?_
    · intro k _
      change (t.mm k).pgd / PAGE_SIZE = (s.mm k).pgd / PAGE_SIZE
      rw [pgd]
    · intro k js index there j
      change (if _ then PTE_TO_PA (t.mem (node s k js) j) / PAGE_SIZE else 0) =
        if _ then PTE_TO_PA (s.mem (node s k js) j) / PAGE_SIZE else 0
      rw [mem k js index there]
  exact (same k ks short).2 id

theorem Trees.congr (h : Trees s) (pgd : ∀ k, (t.mm k).pgd = (s.mm k).pgd)
    (mem : ∀ k ks, ks.length < 3 → node s k ks ≠ 0 → t.mem (node s k ks) = s.mem (node s k ks))
    (low : t.low = s.low) (pages : t.pages = s.pages)
    (used : ∀ k ks, ks.length ≤ 3 → node s k ks ≠ 0 → t.used (node s k ks) = true) : Trees t := by
  have nodes : ∀ {k ks}, ks.length ≤ 3 → node t k ks = node s k ks :=
    fun short => trees_congr pgd mem short
  refine ⟨low ▸ h.first, low ▸ pages ▸ h.real, ?_, ?_, ?_⟩
  · intro k
    refine ⟨pgd k ▸ (h.upper k).aligned, ?_⟩
    intro js j index there small present
    rw [nodes (by omega)] at there present ⊢
    rw [mem k js index there] at present ⊢
    exact (h.upper k).nonnull js j index there small present
  · intro m ks k ls hk hl there same
    rw [trees_ptr, nodes hk] at there same
    rw [trees_ptr, nodes hl] at same
    exact h.same_node hk hl there same
  · intro k ks short there
    rw [trees_ptr, nodes short] at there ⊢
    refine ⟨?_, used k ks short there⟩
    have pool := (h.node_held short there).1
    unfold InPool at *
    rwa [low, pages]

theorem Trees.congr_pte (h : Trees s) (after : Trees t)
    (nodes : ∀ ks, ks.length ≤ 3 → node s k ks ≠ 0 → node t k ks = node s k ks)
    (bottom : ∀ ks, ks.length = 3 → node s k ks ≠ 0 → t.mem (node s k ks) = s.mem (node s k ks))
    (blank : ∀ ks, ks.length = 3 → node s k ks = 0 → ∀ j, node t k ks ≠ 0 → t.mem (node t k ks) j = 0)
    (va : Nat) : pte t k va = pte s k va := by
  have three := length_tablePath va
  rw [(after.upper k).pte_eq, (h.upper k).pte_eq]
  by_cases absent : node s k (tablePath va) = 0
  · grind
  · rw [nodes _ (Nat.le_of_eq three) absent, if_neg absent, if_neg absent, bottom _ three absent]

end Trees

/-! Hanging in a table -/

structure Grown (s t : VmState) : Prop where
  trees : Trees t
  pte : ∀ k va, pte t k va = pte s k va

theorem Grown.refl {s : VmState} (h : Trees s) : Grown s s := ⟨h, fun _ _ => rfl⟩

theorem Grown.trans {s t u : VmState} (first : Grown s t) (second : Grown t u) : Grown s u :=
  ⟨second.trees, fun k va => (second.pte k va).trans (first.pte k va)⟩

section Hang

variable {s t : VmState} {m f : Nat} {at_ : List Nat}

theorem grown_of_attached (h : Trees s) (att : Forest.Attached (trees s) (trees t) m at_ f)
    (short : at_.length ≤ 3) (absent : node s m at_ = 0) (pool : InPool s f)
    (unused : s.used f = false) (low : t.low = s.low) (pages : t.pages = s.pages)
    (used : t.used = Function.update s.used f true) (aligned : ∀ k, (t.mm k).pgd % PAGE_SIZE = 0)
    (blank : ∀ j, t.mem f j = 0)
    (desc : ∀ g j, g ≠ f → t.mem g j = s.mem g j ∨ PTE_TO_PA (t.mem g j) ≠ 0)
    (bottom : ∀ k ks, ks.length = 3 → node s k ks ≠ 0 → t.mem (node s k ks) = s.mem (node s k ks)) :
    Grown s t ∧ node t m at_ = f := by
  have here : node t m at_ = f := (att m at_ short).1 ⟨rfl, rfl⟩
  have others : ∀ k ks, ks.length ≤ 3 → ¬ (k = m ∧ ks = at_) → node t k ks = node s k ks :=
    fun k ks node_ differs => (att k ks node_).2 differs
  have fresh : ∀ k ks, ks.length ≤ 3 → node s k ks ≠ f := fun k ks => h.fresh pool unused ks
  have inPool : ∀ g, InPool s g → InPool t g := by
    intro g
    unfold InPool
    rw [low, pages]
    exact id
  have after : Trees t := by
    refine ⟨low ▸ h.first, low ▸ pages ▸ h.real, fun k => ⟨aligned k, ?_⟩, ?_, ?_⟩
    · intro js j index there small present
      by_cases same : k = m ∧ js = at_
      · grind
      · rw [others k js (by omega) same] at there present ⊢
        rcases desc (node s k js) j (fresh k js (by omega)) with kept | nonnull
        · rw [kept] at present ⊢
          exact (h.upper k).nonnull js j index there small present
        · exact nonnull
    · exact att.exclusive (fun _ => rfl) (fun k ks node_ _ => fresh k ks node_) h.exclusive
    · refine att.covered (fun _ => rfl) h.held ?_ ?_
      · intro g old
        refine ⟨inPool g old.1, ?_⟩
        rw [used]
        by_cases same : g = f
        · rw [same, Function.update_self]
        · rw [Function.update_of_ne same, old.2]
      · intro _
        rw [used, Function.update_self]
        exact ⟨inPool f pool, rfl⟩
  refine ⟨⟨after, fun k => h.congr_pte after ?_ (bottom k) ?_⟩, here⟩
  · grind
  · grind

theorem grown_openTop (h : Trees s) (absent : node s m [] = 0) (pool : InPool s f)
    (unused : s.used f = false) : Grown s (openTop s m f) ∧ node (openTop s m f) m [] = f := by
  have mem : ∀ g, g ≠ f → (openTop s m f).mem g = s.mem g := by
    intro g new
    simp only [openTop, putMm, take, Function.update_of_ne new]
  have zero : ∀ j, (openTop s m f).mem f j = 0 := by
    intro j
    simp only [openTop, putMm, take, Function.update_self]
  have pgd : ((openTop s m f).mm m).pgd = f * PAGE_SIZE := by
    simp only [openTop, putMm, Function.update_self]
  have pgds : ∀ k, k ≠ m → (openTop s m f).mm k = s.mm k := fun k other => putMm_ne _ _ other
  have att : Forest.Attached (trees s) (trees (openTop s m f)) m [] f := by
    refine Forest.attached_root absent (fun k ks short => h.fresh pool unused ks short) ?_ ?_ ?_ ?_
    · change ((openTop s m f).mm m).pgd / PAGE_SIZE = f
      rw [pgd, Nat.mul_div_cancel _ (by decide)]
    · intro k other
      change ((openTop s m f).mm k).pgd / PAGE_SIZE = (s.mm k).pgd / PAGE_SIZE
      rw [pgds k other]
    · intro j
      change (if _ then PTE_TO_PA ((openTop s m f).mem f j) / PAGE_SIZE else 0) = 0
      rw [zero]
      exact ite_self 0
    · intro g j new
      change (if _ then PTE_TO_PA ((openTop s m f).mem g j) / PAGE_SIZE else 0) =
        if _ then PTE_TO_PA (s.mem g j) / PAGE_SIZE else 0
      rw [mem g new]
  refine grown_of_attached h att (Nat.zero_le 3) absent pool unused rfl rfl rfl ?_ zero ?_ ?_
  · intro k
    by_cases same : k = m
    · rw [same, pgd, Nat.mul_mod_left]
    · rw [pgds k same]
      exact (h.upper k).aligned
  · intro g j new
    rw [mem g new]
    exact .inl rfl
  · grind [h.fresh]

theorem grown_openTable {js : List Nat} {i : Nat} (h : Trees s) (upper : js.length < 3)
    (parent : node s m js ≠ 0) (small : i < PTRS_PER_TABLE) (absent : node s m (js ++ [i]) = 0)
    (pool : InPool s f) (unused : s.used f = false) : Grown s (openTable s (node s m js) i f) ∧
      node (openTable s (node s m js) i f) m (js ++ [i]) = f := by
  have nz := pool_pos h.first pool
  have apart : node s m js ≠ f := h.fresh pool unused js (by omega)
  have tiny : f < 2 ^ 20 := by
    have := h.real
    have := pool.2
    simp only [PHYS_SIZE, PAGE_SIZE] at *
    omega
  have entry : PTE_TO_PA (BitVec.ofNat 64 (f * PAGE_SIZE) ||| MM_TYPE_PAGE_TABLE) = f * PAGE_SIZE :=
    PTE_TO_PA_entry tiny (by decide)
  have mem : ∀ g j, g ≠ f → g ≠ node s m js ∨ j ≠ i →
      (openTable s (node s m js) i f).mem g j = s.mem g j := by
    intro g j new other
    rw [openTable, putWord_ne _ _ other]
    simp only [take, Function.update_of_ne new]
  have here : (openTable s (node s m js) i f).mem (node s m js) i =
      BitVec.ofNat 64 (f * PAGE_SIZE) ||| MM_TYPE_PAGE_TABLE := putWord_self ..
  have zero : ∀ j, (openTable s (node s m js) i f).mem f j = 0 := by
    intro j
    rw [openTable, putWord_ne _ _ (.inl (Ne.symm apart))]
    simp only [take, Function.update_self]
  have att : Forest.Attached (trees s) (trees (openTable s (node s m js) i f)) m (js ++ [i]) f := by
    refine Forest.attached_entry h.exclusive upper parent ?_ nz
      (fun k ks short => h.fresh pool unused ks short) (fun _ => rfl) ?_ ?_ ?_
    · rw [node_snoc parent small] at absent
      exact (if_pos small).trans absent
    · intro j
      change (if _ then PTE_TO_PA ((openTable s (node s m js) i f).mem f j) / PAGE_SIZE else 0) = 0
      rw [zero]
      exact ite_self 0
    · change (if _ then PTE_TO_PA ((openTable s (node s m js) i f).mem (node s m js) i) / PAGE_SIZE
        else 0) = f
      rw [if_pos small, here, entry, Nat.mul_div_cancel _ (by decide)]
    · intro g j new other
      change (if _ then PTE_TO_PA ((openTable s (node s m js) i f).mem g j) / PAGE_SIZE else 0) =
        if _ then PTE_TO_PA (s.mem g j) / PAGE_SIZE else 0
      rw [mem g j new other]
  refine grown_of_attached h att ?_ absent pool unused rfl rfl rfl (fun k => (h.upper k).aligned) zero ?_ ?_
  · rw [List.length_append, List.length_singleton]
    omega
  · intro g j new
    by_cases slot : g = node s m js ∧ j = i
    · right
      rw [slot.1, slot.2, here, entry]
      exact Nat.mul_ne_zero nz (by decide)
    · grind
  · grind [h.fresh, h.same_node]

end Hang

/-! What a successful call of `map_page` does -/

section Success

variable {s t : VmState} {m va : Nat}

variable {perm : BitVec 64} {alloc : Bool} {kerPages kerPages' : List Nat} {bottom nk page : Nat}

theorem grown_topTable (h : Trees s)
    (ran : topTable m alloc s = .ok (some kerPages, t)) : Grown s t ∧ node t m [] ≠ 0 := by
  cases alloc with
  | false =>
    change (if (s.mm m).pgd = 0 then _ else _ : VmM (Option (List Nat))) s = _ at ran
    split at ran
    · cases ran
    · next present =>
      cases ran
      exact ⟨.refl h, fun absent => present ((h.upper m).pgd_eq_zero.mpr absent)⟩
  | true =>
    rcases topTable_cases (h.upper m) h.first with ⟨there, result⟩ | ⟨_, _, result⟩ |
      ⟨absent, _, f, pool, unused, result⟩
    · rw [result] at ran
      cases ran
      exact ⟨.refl h, there⟩
    · rw [result] at ran
      cases ran
    · grind [h.first, grown_openTop, pool_pos]

structure AtBottom (s t : VmState) (m va bottom : Nat) : Prop extends Grown s t where
  mm : t.mm = s.mm
  bottom : bottom = node t m (tablePath va) * PAGE_SIZE
  there : node t m (tablePath va) ≠ 0

theorem walkTables_allocs (ls : List (Nat × Nat))
    (js : List Nat) (path : js ++ indices va ls = tablePath va) (h : Trees s)
    (parent : node s m js ≠ 0)
    (ran : walkTables nk va true ls (node s m js * PAGE_SIZE) kerPages s =
      .ok ((some bottom, kerPages'), t)) : AtBottom s t m va bottom := by
  induction ls generalizing s js kerPages with
  | nil =>
    cases ran
    have done : js = tablePath va := (List.append_nil js).symm.trans path
    rw [done] at parent ⊢
    exact ⟨.refl h, rfl, rfl, parent⟩
  | cons l rest ih =>
    obtain ⟨i, shift⟩ := l
    have child : js ++ [tableIndex va shift] ++ indices va rest = tablePath va :=
      (List.append_assoc ..).trans path
    have short : js.length < 3 := by
      have length := congrArg List.length path
      rw [List.length_append, length_tablePath] at length
      change js.length + ((indices va rest).length + 1) = 3 at length
      omega
    unfold walkTables at ran
    by_cases present : node s m (js ++ [tableIndex va shift]) = 0
    · rcases mapTable_absent (h.upper m) h.first short parent va shift present with
        ⟨_, result⟩ | ⟨f, pool, unused, result⟩
      · rw [run_bind result] at ran
        cases ran
      · have nz := pool_pos h.first pool
        obtain ⟨grown, here⟩ := grown_openTable h short parent (tableIndex_lt va shift) present pool
          unused
        rw [run_bind result, if_neg (Nat.mul_ne_zero nz (by decide)), if_pos rfl] at ran
        split at ran
        · cases ran
        · have next := ih _ child grown.trees (by rw [here]; exact nz) (by rw [here]; exact ran)
          exact ⟨grown.trans next.toGrown, next.mm, next.bottom, next.there⟩
    · rw [run_bind (mapTable_present (h.upper m) short parent va shift present),
        if_neg (Nat.mul_ne_zero present (by decide))] at ran
      exact ih _ child h present ran

theorem walkTables_bottom (h : Trees s) (top : node s m [] ≠ 0)
    (ran : walkTables nk va alloc levels (s.mm m).pgd kerPages s =
      .ok ((some bottom, kerPages'), t)) : AtBottom s t m va bottom := by
  rw [← (h.upper m).pgd] at ran
  cases alloc with
  | true =>
    have path : [] ++ indices va levels = tablePath va := List.nil_append _
    exact walkTables_allocs levels [] path h top ran
  | false =>
    rw [walkTables_locate, (h.upper m).walk_eq va levels [] (by decide) top] at ran
    change Except.ok ((if node s m (tablePath va) = 0 then _ else _, _), _) = _ at ran
    split at ran
    · cases ran
    · next there =>
      cases ran
      exact ⟨.refl h, rfl, rfl, there⟩

def newPte (page : Nat) (perm : BitVec 64) : BitVec 64 :=
  BitVec.ofNat 64 page ||| MMU_PTE_FLAGS ||| perm

def stored (s : VmState) (m va page : Nat) (perm : BitVec 64) : VmState :=
  if page = 0 then s else setPte s m va (newPte page perm)

structure SameMem (s t : VmState) : Prop where
  low : t.low = s.low
  pages : t.pages = s.pages
  used : t.used = s.used
  mem : t.mem = s.mem
  pgd : ∀ k, (t.mm k).pgd = (s.mm k).pgd

theorem sameMem_putMm (s : VmState) (m : Nat) {x : Mm} (pgd : x.pgd = (s.mm m).pgd) :
    SameMem s (s.putMm m x) := by
  refine ⟨rfl, rfl, rfl, rfl, fun k => ?_⟩
  by_cases same : k = m
  · rw [same, putMm_self, pgd]
  · rw [putMm_ne _ _ same]

theorem SameMem.trans {u : VmState} (first : SameMem s t) (second : SameMem t u) : SameMem s u :=
  ⟨second.low.trans first.low, second.pages.trans first.pages, second.used.trans first.used,
    second.mem.trans first.mem, fun k => (second.pgd k).trans (first.pgd k)⟩

theorem mapFound_stores {place : Option (Nat × Nat)}
    (ran : mapFound m va page perm (node s m (tablePath va)) kerPages s = .ok (place, t)) :
    SameMem (stored s m va page perm) t := by
  have store : mapTableEntry (node s m (tablePath va) * PAGE_SIZE) va page perm s =
      .ok ((), stored s m va page perm) := by
    unfold mapTableEntry stored
    rw [Nat.mul_div_cancel _ (by decide)]
    split
    · rfl
    · rfl
  have last : ∀ w : VmState, SameMem w (w.putMm m (recordPages (w.mm m) kerPages)) :=
    fun w => sameMem_putMm w m (recordPages_fields ..).1
  unfold mapFound at ran
  rw [run_bind store] at ran
  generalize stored s m va page perm = u at ran
  obtain ⟨_, _, state, ran⟩ := bind_ok ran
  cases state
  dsimp only at ran
  split at ran
  · split at ran
    · cases ran
    · cases ran
      have counted := sameMem_putMm u m (x := { u.mm m with
        userPagesCount := (u.mm m).userPagesCount + 1 }) rfl
      exact counted.trans (last _)
  · cases ran
    exact last u

theorem mapPage_stores {place : Nat × Nat}
    (h : Trees s) (ran : mapPage m va page alloc perm s = .ok (some place, t)) :
    ∃ u, Grown s u ∧ node u m (tablePath va) ≠ 0 ∧ SameMem (stored u m va page perm) t := by
  unfold mapPage at ran
  obtain ⟨_, _, state, ran⟩ := bind_ok ran
  cases state
  split at ran
  · cases ran
  obtain ⟨top, u, first, ran⟩ := bind_ok ran
  cases top with
  | none => cases ran
  | some kerPages =>
    obtain ⟨grown, there⟩ := grown_topTable h first
    obtain ⟨_, _, state, ran⟩ := bind_ok ran
    cases state
    obtain ⟨r, w, walked, ran⟩ := bind_ok ran
    obtain ⟨_ | bottom, kerPages'⟩ := r
    · obtain ⟨_, _, _, ran⟩ := bind_ok ran
      cases ran
    · obtain ⟨more, _, rfl, found⟩ := walkTables_bottom grown.trees there walked
      exact ⟨w, grown.trans more, found, mapFound_stores ran⟩

end Success

/-! Writing a pte -/

section Write

variable {s t : VmState} {m va : Nat}

theorem Trees.set (h : Trees s) (bottom : node s m (tablePath va) ≠ 0) (x : BitVec 64) :
    Trees (setPte s m va x) ∧ (∀ k ks, ks.length ≤ 3 → node (setPte s m va x) k ks = node s k ks) ∧
      ∀ k va', pte (setPte s m va x) k va' =
        if k = m ∧ pagePath va' = pagePath va then x else pte s k va' := by
  have three := length_tablePath va
  have mem : ∀ k ks, ks.length < 3 → node s k ks ≠ 0 →
      (setPte s m va x).mem (node s k ks) = s.mem (node s k ks) := by
    intro k ks index there
    funext j
    apply setPte_mem_ne
    left
    intro same
    have equal := (h.same_node (Nat.le_of_lt index) (Nat.le_of_eq three) there same).2
    rw [equal] at index
    omega
  have nodes : ∀ k ks, ks.length ≤ 3 → node (setPte s m va x) k ks = node s k ks :=
    fun k ks short => trees_congr (s := s) (t := setPte s m va x) (fun _ => rfl) mem short
  have after : Trees (setPte s m va x) :=
    h.congr (fun _ => rfl) mem rfl rfl (fun k ks short there => (h.node_held short there).2)
  refine ⟨after, nodes, fun k va' => ?_⟩
  have short := Nat.le_of_eq (length_tablePath va')
  rw [(after.upper k).pte_eq, nodes k _ short]
  by_cases same : k = m ∧ pagePath va' = pagePath va
  · obtain ⟨path, index⟩ := List.append_inj' same.2 rfl
    rw [if_pos same, same.1, path, if_neg bottom, List.singleton_inj.mp index, setPte_mem_self]
  · rw [if_neg same, (h.upper k).pte_eq]
    split
    · rfl
    · next there =>
      apply setPte_mem_ne
      by_contra both
      push Not at both
      obtain ⟨rfl, path⟩ := h.same_node short (Nat.le_of_eq three) there both.1
      apply same
      unfold pagePath
      rw [path, both.2]
      exact ⟨rfl, rfl⟩

theorem SameMem.trees (same : SameMem s t) (h : Trees s) : Trees t := by
  apply h.congr same.pgd (fun _ _ _ _ => by rw [same.mem]) same.low same.pages
  intro k ks short there
  rw [same.used]
  exact (h.node_held short there).2

theorem pte_of_mem (mem : t.mem = s.mem) {k : Nat} (pgd : (t.mm k).pgd = (s.mm k).pgd) (va : Nat) :
    pte t k va = pte s k va := by
  have path := (walk_congr va levels (s.mm k).pgd (fun _ _ => congrFun mem _)).1
  unfold pte pteOf
  rw [pgd, path, mem]

theorem SameMem.pte (same : SameMem s t) (k va : Nat) : pte t k va = pte s k va :=
  pte_of_mem same.mem (same.pgd k) va

theorem Trees.map {page : Nat} {alloc : Bool} {perm : BitVec 64} {place : Nat × Nat}
    (h : Trees s) (ran : mapPage m va page alloc perm s = .ok (some place, t)) :
    Trees t ∧ ∀ k va', pte t k va' =
      if page ≠ 0 ∧ k = m ∧ pagePath va' = pagePath va then newPte page perm else pte s k va' := by
  obtain ⟨u, grown, bottom, same⟩ := mapPage_stores h ran
  unfold stored at same
  by_cases locate : page = 0
  · rw [if_pos locate] at same
    refine ⟨same.trees grown.trees, fun k va' => ?_⟩
    rw [if_neg (fun both => both.1 locate), same.pte, grown.pte]
  · rw [if_neg locate] at same
    obtain ⟨trees, -, ptes⟩ := grown.trees.set bottom (newPte page perm)
    refine ⟨same.trees trees, fun k va' => ?_⟩
    rw [same.pte, ptes, grown.pte]
    simp only [ne_eq, locate, not_false_eq_true, true_and]

end Write

/-! Clearing ptes -/

def NotTables (s : VmState) (m va n : Nat) : Prop :=
  ∀ j < n, ∀ k ks, ks.length ≤ 3 → node s k ks ≠ 0 → frameAt s m (nth va j) ≠ node s k ks

section Clear

variable {s t : VmState} {m va n : Nat}

theorem frameAt_pte (h : Trees s) (m va : Nat) : frameAt s m va = PTE_TO_PA (pte s m va) / PAGE_SIZE := by
  unfold frameAt pagePath
  rw [(h.upper m).pte_eq]
  split
  · next absent => rw [node_append_zero absent]; rfl
  · next there => exact node_snoc there (tableIndex_lt va PAGE_SHIFT)

theorem Trees.drop (h : Trees s) (bottom : node s m (tablePath va) ≠ 0)
    (spared : NotTables s m va (n + 1)) :
    Trees (dropPage s m va) ∧ NotTables (dropPage s m va) m (va + PAGE_SIZE) n ∧
      ∀ k va', pte (dropPage s m va) k va' =
        if k = m ∧ pagePath va' = pagePath va then 0 else pte s k va' := by
  obtain ⟨trees, old, ptes⟩ := h.set bottom 0
  have pgd : ∀ k, ((dropPage s m va).mm k).pgd = ((setPte s m va 0).mm k).pgd :=
    (sameMem_putMm (setPte s m va 0) m (x := { s.mm m with
      userPagesCount := (s.mm m).userPagesCount - 1 }) rfl).pgd
  have after : Trees (dropPage s m va) := by
    apply trees.congr pgd (fun _ _ _ _ => rfl) rfl rfl
    intro k ks short there
    rw [old k ks short] at there ⊢
    have apart := spared 0 (Nat.succ_pos n) k ks short there
    rw [nth_zero] at apart
    change Function.update s.used _ false _ = true
    rw [Function.update_of_ne (Ne.symm apart)]
    exact (h.node_held short there).2
  have now : ∀ k va', pte (dropPage s m va) k va' =
      if k = m ∧ pagePath va' = pagePath va then 0 else pte s k va' := by
    intro k va'
    rw [pte_of_mem (s := setPte s m va 0) (t := dropPage s m va) rfl (pgd k), ptes]
  refine ⟨after, ?_, now⟩
  intro j lt k ks short there
  have same : node (dropPage s m va) k ks = node s k ks :=
    (trees_congr pgd (fun _ _ _ _ => rfl) short).trans (old k ks short)
  rw [same] at there ⊢
  have before := spared (j + 1) (Nat.succ_lt_succ lt) k ks short there
  rw [frameAt_pte h] at before
  rw [frameAt_pte after, now, nth_succ]
  split
  · exact fun gone => there gone.symm
  · exact before

theorem Trees.clear (h : Trees s) (spared : NotTables s m va n)
    (ran : freeUserPages m n va s = .ok ((), t)) : Trees t := by
  induction n generalizing s va with
  | zero =>
    cases ran
    exact h
  | succ n ih =>
    by_cases bottom : node s m (tablePath va) = 0
    · rw [freeUserPages_missing (h.upper m) bottom] at ran
      cases ran
    · obtain ⟨after, rest, -⟩ := h.drop bottom spared
      rw [freeUserPages_succ (h.upper m) bottom] at ran
      exact ih after rest ran

end Clear

/-! Runs -/

variable {perm : BitVec 64} {s : VmState}

inductive TableCall where
  | map (m va page : Nat) (alloc : Bool) (perm : BitVec 64)
  | clear (m start size : Nat)

def TableCall.run (s : VmState) : TableCall → Except Unit VmState
  | .map m va page alloc perm =>
    match mapPage m va page alloc perm s with
    | .ok (some _, t) => .ok t
    | _ => .error ()
  | .clear m start size =>
    match freeUserPageRange m start size s with
    | .ok (_, t) => .ok t
    | _ => .error ()

/-- `free_user_page_range` does not free a page that is a page table. -/
def TableCall.Spares (s : VmState) : TableCall → Prop
  | .map .. => True
  | .clear m start size => NotTables s m start (pageSteps start ((start + size) % 2 ^ 64))

structure Bare (s : VmState) : Prop where
  first : 0 < s.low
  real : (s.low + s.pages) * PAGE_SIZE ≤ PHYS_SIZE
  pgd : ∀ m, (s.mm m).pgd = 0

/-- States that successful calls lead to, for any mms, in any order. -/
def BuiltTables (s : VmState) : Prop :=
  Reach Bare (fun s t => ∃ c : TableCall, c.run s = .ok t ∧ c.Spares s) s

theorem Bare.trees (h : Bare s) : Trees s := by
  refine ⟨h.first, h.real, fun m => (Tables.of_pgd (h.pgd m) h.first h.real).upper, ?_, ?_⟩
  · intro m ks _ _ _ _ there
    exact absurd (node_of_pgd (h.pgd m) ks) there
  · intro m ks _ there
    exact absurd (node_of_pgd (h.pgd m) ks) there

theorem Trees.step {t : VmState} {c : TableCall} (h : Trees s) (ran : c.run s = .ok t)
    (spares : c.Spares s) : Trees t := by
  cases c with
  | map m va page alloc perm => grind [h.map, TableCall.run]
  | clear m start size =>
    simp only [TableCall.run] at ran
    split at ran
    · next freed =>
      cases ran
      unfold freeUserPageRange at freed
      split at freed
      · cases freed
      · obtain ⟨_, _, loop, last⟩ := bind_ok freed
        cases last
        exact h.clear spares loop
    · cases ran

theorem BuiltTables.trees (built : BuiltTables s) : Trees s :=
  Reach.invariant Trees (fun _ bare => bare.trees) (fun _ _ h ⟨_, ran, spares⟩ => h.step ran spares)
    built

/-! Lookups -/

/-- The physical address that `walkaddr` finds, if it does not stop the kernel. -/
def translate (s : VmState) (m va : Nat) : Except Halt Nat := (walkaddr m va s).map Prod.fst

theorem translate_eq (s : VmState) (m va : Nat) : translate s m va = lookup (pte s m va) := by
  unfold translate
  rw [walkaddr_eq]
  cases lookup (pte s m va) with
  | ok pa => rfl
  | error h => rfl

theorem usable_of_perm (bits : PTE_TO_PERM perm = perm) : Usable perm := by
  have none : ∀ {x}, (MM_AP_MASK ||| MM_XN_MASK) &&& x = 0#64 → perm &&& x = 0#64 := by
    intro x apart
    rw [← bits, PTE_TO_PERM, BitVec.and_assoc, apart, BitVec.and_zero]
  have split : ∀ x, (MMU_PTE_FLAGS ||| perm) &&& x = (MMU_PTE_FLAGS &&& x) ||| (perm &&& x) := by
    grind
  constructor
  · rw [split, none (by decide)]
    decide
  · rw [BitVec.and_assoc, split, none (by decide)]
    decide

theorem lookup_newPte {f : Nat} (real : f * PAGE_SIZE < PHYS_SIZE)
    (bits : PTE_TO_PERM perm = perm) : lookup (newPte (f * PAGE_SIZE) perm) = .ok (f * PAGE_SIZE) := by
  have usable := usable_of_perm bits
  have small : f < 2 ^ 20 := by
    simp only [PAGE_SIZE, PHYS_SIZE] at real
    omega
  change lookup (entry f perm) = _
  unfold lookup
  rw [if_neg (not_not.mpr (entry_usable small usable)), entry_frame small usable.1,
    if_neg (Nat.not_le.mpr real)]

theorem smallPool_bare {pages : Nat} (few : pages ≤ 8) : Bare (smallPool pages) := by
  refine ⟨Nat.one_pos, ?_, fun _ => rfl⟩
  simp only [smallPool, PAGE_SIZE, PHYS_SIZE]
  omega

def afterCalls (calls : List TableCall) : VmState :=
  played (fun s (c : TableCall) => c.run s) (smallPool 8) calls

def mapOne : TableCall := .map 0 0 0x6000 true MM_AP_RW

theorem mapOne_tables : BuiltTables (afterCalls [mapOne]) :=
  .next (.start (smallPool_bare (Nat.le_refl 8))) ⟨mapOne, rfl, trivial⟩

def misuse : List TableCall :=
  [.map 0 0 0x5000 true MM_AP_RW, .map 0 0x200000 0x8000 true MM_AP_RW, .clear 0 0 0x1000]

def remap : TableCall := .map 0 0x400000 0x7000 true MM_AP_RW

end UvaOs.Vm
