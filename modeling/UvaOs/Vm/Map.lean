import UvaOs.Vm.Space

/-! What `map_page` does when it may allocate: it succeeds and leaves sound tables, or
fails and changes nothing, or fails with the descriptor of a freed table left behind. -/
namespace UvaOs.Vm

open Prog VmState List

def missing (s : VmState) (m : Nat) : List Nat → List Nat → Nat
  | _, [] => 0
  | js, i :: rest =>
    if node s m (js ++ [i]) = 0 then rest.length + 1 else missing s m (js ++ [i]) rest

/-- The tables `va` needs and does not have. -/
def need (s : VmState) (m va : Nat) : Nat :=
  if node s m [] = 0 then 4 else missing s m [] (tablePath va)

theorem missing_le (s : VmState) (m : Nat) (js is : List Nat) : missing s m js is ≤ is.length := by
  induction is generalizing js with
  | nil => exact Nat.le_refl 0
  | cons i rest ih =>
    unfold missing
    have tail := ih (js ++ [i])
    rw [length_cons]
    split
    · exact Nat.le_refl _
    · omega

def Trace (s t : VmState) (m : Nat) : Prop :=
  ∃ ks, ks.length ≤ 3 ∧ node s m ks = 0 ∧ node t m ks ≠ 0

section MapTable

variable {s : VmState} {m : Nat} {js : List Nat}

theorem mapTable_present (h : Upper s m) (index : js.length < 3) (parent : node s m js ≠ 0)
    (va shift : Nat) (present : node s m (js ++ [tableIndex va shift]) ≠ 0) :
    mapTable (node s m js * PAGE_SIZE) shift va true s =
      .ok ((node s m (js ++ [tableIndex va shift]) * PAGE_SIZE, false), s) := by
  have small := tableIndex_lt va shift
  have desc : s.mem (node s m js * PAGE_SIZE / PAGE_SIZE) (tableIndex va shift) ≠ 0 := by
    rw [Nat.mul_div_cancel _ (by decide)]
    exact fun zero => present ((h.desc_eq_zero index parent small).mp zero)
  change (if s.mem (node s m js * PAGE_SIZE / PAGE_SIZE) (tableIndex va shift) = 0 then _
    else _ : VmM (Nat × Bool)) s = _
  rw [if_neg desc, node_snoc parent small, Nat.mul_div_cancel _ (by decide), PTE_TO_PA_aligned]
  rfl

theorem mapTable_absent (h : Upper s m) (first : 0 < s.low) (index : js.length < 3)
    (parent : node s m js ≠ 0) (va shift : Nat) (absent : node s m (js ++ [tableIndex va shift]) = 0) :
    (free s = 0 ∧ mapTable (node s m js * PAGE_SIZE) shift va true s = .ok ((0, false), s)) ∨
    ∃ f, InPool s f ∧ s.used f = false ∧ mapTable (node s m js * PAGE_SIZE) shift va true s =
        .ok ((f * PAGE_SIZE, true), openTable s (node s m js) (tableIndex va shift) f) := by
  have small := tableIndex_lt va shift
  have desc : s.mem (node s m js * PAGE_SIZE / PAGE_SIZE) (tableIndex va shift) = 0 := by
    rw [Nat.mul_div_cancel _ (by decide)]
    exact (h.desc_eq_zero index parent small).mpr absent
  have enter : mapTable (node s m js * PAGE_SIZE) shift va true s =
      (getFreePage >>= fun next => if next = 0 then pure (0, false)
        else modify (·.putWord (node s m js * PAGE_SIZE / PAGE_SIZE) (tableIndex va shift)
          (BitVec.ofNat 64 next ||| MM_TYPE_PAGE_TABLE)) >>= fun _ => pure (next, true)) s := by
    change (if s.mem (node s m js * PAGE_SIZE / PAGE_SIZE) (tableIndex va shift) = 0 then _
      else _ : VmM (Nat × Bool)) s = _
    rw [if_pos desc]
    rfl
  rw [enter]
  rcases getFreePage_cases s with ⟨none, result⟩ | ⟨f, pool, unused, result⟩
  · refine .inl ⟨none, ?_⟩
    rw [run_bind result, if_pos rfl]
    rfl
  · refine .inr ⟨f, pool, unused, ?_⟩
    have nz : f * PAGE_SIZE ≠ 0 := Nat.mul_ne_zero (pool_pos first pool) (by decide)
    rw [run_bind result, if_neg nz, Nat.mul_div_cancel _ (by decide)]
    rfl

end MapTable

structure Walked (s t : VmState) (m nk : Nat) (js is : List Nat) (new : List Nat)
    (r : Option Nat) : Prop where
  tables : Tables t m
  opened : Opened s t m (js ++ is) new
  mm : t.mm = s.mm
  success : ∀ bottom, r = some bottom → bottom = node t m (js ++ is) * PAGE_SIZE ∧
    node t m (js ++ is) ≠ 0 ∧ new.length = missing s m js is ∧
    (0 < missing s m js is → nk + 3 ≤ MAX_TASK_KER_PAGES) ∧ (missing s m js is = 0 → t = s)
  failure : r = none → (t = s ∧ new = [] ∧ 0 < missing s m js is ∧ free s = 0) ∨
    (Trace s t m ∧ 0 < free s ∧ 0 < missing s m js is ∧
      (free s < missing s m js is ∨ nk + 3 > MAX_TASK_KER_PAGES))

theorem missing_new {s t : VmState} {m f : Nat} {at_ way : List Nat} (h : Tables t m)
    (opened : Opened s t m way [f]) (short : at_.length ≤ 3) (here : node t m at_ = f)
    (absent : node s m at_ = 0) (nz : f ≠ 0) (rest : List Nat) :
    missing t m at_ rest = rest.length := by
  cases rest with
  | nil => rfl
  | cons j rest =>
    have length : (at_ ++ [j]).length = at_.length + 1 := by simp
    have below : node t m (at_ ++ [j]) = 0 := by
      by_contra present
      have member := (opened.along _ (by omega) (node_append_zero absent [j]) present).2.2
      have same : node t m (at_ ++ [j]) = node t m at_ :=
        (mem_singleton.mp member).trans here.symm
      have equal := h.same_node (by omega) (by omega) (by rw [here]; exact nz) same
      have := congrArg List.length equal
      omega
    rw [missing, if_pos below]
    rfl

section Walked

variable {s t u : VmState} {m nk i : Nat} {js is new : List Nat} {r : Option Nat}

theorem Walked.present (there : node s m (js ++ [i]) ≠ 0)
    (w : Walked s t m nk (js ++ [i]) is new r) : Walked s t m nk js (i :: is) new r := by
  have path : js ++ [i] ++ is = js ++ i :: is := append_assoc js [i] is
  have count : missing s m js (i :: is) = missing s m (js ++ [i]) is := if_neg there
  refine ⟨w.tables, path ▸ w.opened, w.mm, ?_, ?_⟩
  · rw [count, ← path]
    exact w.success
  · rw [count]
    exact w.failure

theorem Walked.absent {f : Nat} (short : js.length ≤ 2) (none : node s m (js ++ [i]) = 0)
    (tables : Tables t m) (opened : Opened s t m (js ++ i :: is) [f])
    (here : node t m (js ++ [i]) = f) (nz : f ≠ 0) (mm : t.mm = s.mm)
    (w : Walked t u m nk (js ++ [i]) is new r) (limit : is = [] → nk + 3 ≤ MAX_TASK_KER_PAGES) :
    Walked s u m nk js (i :: is) (f :: new) r := by
  have path : js ++ [i] ++ is = js ++ i :: is := append_assoc js [i] is
  have count : missing s m js (i :: is) = is.length + 1 := if_pos none
  have length : (js ++ [i]).length ≤ 3 := by
    rw [length_append, length_singleton]
    omega
  have rest := missing_new tables opened length here none nz is
  have opened' : Opened t u m (js ++ i :: is) new := path ▸ w.opened
  have fewer := opened.free
  refine ⟨w.tables, opened.trans opened', w.mm.trans mm, ?_, ?_⟩
  · grind [w.success]
  · intro failed
    right
    rw [count]
    have trace : Trace s u m := by
      refine ⟨js ++ [i], length, none, ?_⟩
      rw [opened'.kept _ (by omega) (by rw [here]; exact nz), here]
      exact nz
    rw [length_singleton] at fewer
    rcases w.failure failed with ⟨-, -, more, exhausted⟩ | ⟨-, -, more, short⟩
    · exact ⟨trace, by omega, by omega, .inl (by omega)⟩
    · exact ⟨trace, by omega, by omega, by omega⟩

end Walked

variable {m : Nat} {s t : VmState}

theorem walkTables_spec (nk va : Nat) (ls : List (Nat × Nat))
    (js kerPages : List Nat) (h : Tables s m) (parent : node s m js ≠ 0)
    (depth : js.length + ls.length = 3)
    (numbers : ls.map Prod.fst = List.range' (js.length + 1) ls.length) :
    ∃ r new t, walkTables nk va true ls (node s m js * PAGE_SIZE) kerPages s =
        .ok ((r, kerPages ++ new.map (· * PAGE_SIZE)), t) ∧
      Walked s t m nk js (indices va ls) new r := by
  induction ls generalizing s js kerPages with
  | nil =>
    refine ⟨some (node s m js * PAGE_SIZE), [], s, by simp [walkTables]; rfl, ?_⟩
    have path : js ++ indices va [] = js := append_nil js
    refine ⟨h, Opened.refl s m _, rfl, ?_, by simp⟩
    intro bottom found
    cases found
    rw [path]
    exact ⟨rfl, parent, rfl, fun none => absurd none (Nat.lt_irrefl 0), fun _ => rfl⟩
  | cons l rest ih =>
    obtain ⟨i, shift⟩ := l
    have length : ((i, shift) :: rest).length = rest.length + 1 := rfl
    rw [length] at depth numbers
    rw [map_cons, range'_succ, List.cons.injEq] at numbers
    obtain ⟨number, numbers⟩ := numbers
    have child : (js ++ [tableIndex va shift]).length = js.length + 1 := by simp
    have below : rest.map Prod.fst =
        List.range' ((js ++ [tableIndex va shift]).length + 1) rest.length := by
      rw [numbers, child]
    have path : js ++ [tableIndex va shift] <+: js ++ indices va ((i, shift) :: rest) :=
      ⟨indices va rest, append_assoc _ _ _⟩
    unfold walkTables
    by_cases present : node s m (js ++ [tableIndex va shift]) = 0
    · rcases mapTable_absent h.upper h.first (by omega) parent va shift present with
        ⟨exhausted, result⟩ | ⟨f, pool, unused, result⟩
      · have count : missing s m js (indices va ((i, shift) :: rest)) =
          (indices va rest).length + 1 := if_pos present
        refine ⟨none, [], s, ?_, h, Opened.refl s m _, rfl, by simp, ?_⟩
        · rw [run_bind result, map_nil, append_nil]
          rfl
        · intro _
          exact .inl ⟨rfl, rfl, by omega, exhausted⟩
      · have nz := h.frame_pos pool
        have nz' : f * PAGE_SIZE ≠ 0 := Nat.mul_ne_zero nz (by decide)
        obtain ⟨tables, opened, here⟩ := openTable_spec h (by omega) parent
          (tableIndex_lt va shift) present path pool unused
        rw [run_bind result, if_neg nz', if_pos rfl]
        by_cases limit : nk + i > MAX_TASK_KER_PAGES
        · -- the table is in place when the limit is found to be exceeded
          have fewer := opened.free
          have trace : Trace s (openTable s (node s m js) (tableIndex va shift) f) m :=
            ⟨_, by omega, present, by rw [here]; exact nz⟩
          have count : missing s m js (indices va ((i, shift) :: rest)) =
            (indices va rest).length + 1 := if_pos present
          rw [length_singleton] at fewer
          refine ⟨none, [f], _, by rw [if_pos limit]; rfl, tables, opened, rfl,
            by simp, ?_⟩
          intro _
          have third : i ≤ 3 := by omega
          exact .inr ⟨trace, by omega, by omega, .inr (by omega)⟩
        · have next := ih (js ++ [tableIndex va shift]) (kerPages ++ [f * PAGE_SIZE]) tables
            (by rw [here]; exact nz) (by omega) below
          obtain ⟨r, new, t, ran, walked⟩ := next
          rw [here] at ran
          refine ⟨r, f :: new, t, ?_, walked.absent (by omega) present tables opened here nz rfl ?_⟩
          · rw [if_neg limit, ran, map_cons, append_assoc]
            rfl
          · grind
    · have next := ih (js ++ [tableIndex va shift]) kerPages h present (by omega) below
      obtain ⟨r, new, t, result, walked⟩ := next
      refine ⟨r, new, t, ?_, walked.present present⟩
      rw [run_bind (mapTable_present h.upper (by omega) parent va shift present)]
      have nz : node s m (js ++ [tableIndex va shift]) * PAGE_SIZE ≠ 0 :=
        Nat.mul_ne_zero present (by decide)
      rw [if_neg nz]
      exact result

/-! Writing a pte -/

theorem Shape.congr (h : Shape s m) (mem : t.mem = s.mem)
    (mm : (t.mm m).pgd = (s.mm m).pgd) : Shape t m ∧ ∀ ks, node t m ks = node s m ks := by
  have same : space t m = space s m := by
    unfold space
    rw [mem, mm]
  have nodes : ∀ ks, node t m ks = node s m ks := by
    intro ks
    unfold node
    rw [same]
  refine ⟨⟨mm ▸ h.aligned, same ▸ h.exclusive, ?_⟩, nodes⟩
  intro js j
  rw [nodes, mem]
  exact h.nonnull js j

theorem Tables.congr (h : Tables s m) (mem : t.mem = s.mem)
    (mm : (t.mm m).pgd = (s.mm m).pgd) (low : t.low = s.low) (pages : t.pages = s.pages)
    (used : t.used = s.used) : Tables t m := by
  obtain ⟨shape, nodes⟩ := h.toShape.congr mem mm
  refine ⟨shape, low ▸ h.first, low ▸ pages ▸ h.real, ?_⟩
  intro _ ks short there
  change node t m ks ≠ 0 at there
  change InPool t (node t m ks) ∧ t.used (node t m ks) = true
  rw [nodes] at there ⊢
  unfold InPool
  rw [low, pages, used]
  exact h.node_held short there

def setPte (s : VmState) (m va : Nat) (x : BitVec 64) : VmState :=
  s.putWord (node s m (tablePath va)) (tableIndex va PAGE_SHIFT) x

section SetPte

variable {s : VmState} {m va : Nat} {x : BitVec 64}

theorem setPte_mem_ne (s : VmState) (m va : Nat) (x : BitVec 64) {g j : Nat}
    (other : g ≠ node s m (tablePath va) ∨ j ≠ tableIndex va PAGE_SHIFT) :
    (setPte s m va x).mem g j = s.mem g j := putWord_ne s x other

theorem setPte_mem_self (s : VmState) (m va : Nat) (x : BitVec 64) :
    (setPte s m va x).mem (node s m (tablePath va)) (tableIndex va PAGE_SHIFT) = x :=
  putWord_self s _ _ x

section

variable (h : Shape s m) (bottom : node s m (tablePath va) ≠ 0)
include h bottom

theorem setPte_attached : Forest.Attached (space s m) (space (setPte s m va x) m) () (pagePath va)
      (PTE_TO_PA x / PAGE_SIZE) := by
  refine Forest.attached_leaf h.exclusive rfl bottom (fun _ => rfl) ?_ ?_
  · change (if _ then PTE_TO_PA ((setPte s m va x).mem (node s m (tablePath va)) _) / PAGE_SIZE
      else 0) = _
    rw [if_pos (tableIndex_lt va PAGE_SHIFT), setPte_mem_self]
  · intro _ ks j _ other
    change (if _ then PTE_TO_PA ((setPte s m va x).mem (node s m ks) j) / PAGE_SIZE else 0) =
      if _ then PTE_TO_PA (s.mem (node s m ks) j) / PAGE_SIZE else 0
    rw [setPte_mem_ne s m va x (g := node s m ks) other]

theorem setPte_nodes {ks : List Nat} (short : ks.length ≤ 4) (other : ks ≠ pagePath va) :
    node (setPte s m va x) m ks = node s m ks :=
  (setPte_attached h bottom () ks short).2 (fun both => other both.2)

theorem setPte_upper {ks : List Nat}
    (short : ks.length ≤ 3) : node (setPte s m va x) m ks = node s m ks := by
  apply setPte_nodes h bottom (by omega)
  intro same
  rw [same, length_pagePath] at short
  omega

theorem setPte_shape (nonnull : x ≠ 0 → PTE_TO_PA x ≠ 0)
    (fresh : ∀ ks, ks.length ≤ 4 → PTE_TO_PA x ≠ 0 → node s m ks ≠ PTE_TO_PA x / PAGE_SIZE) :
    Shape (setPte s m va x) m := by
  refine ⟨h.aligned, ?_, ?_⟩
  · refine (setPte_attached h bottom).exclusive (fun _ => rfl) ?_ h.exclusive
    intro _ ks short nz
    exact fresh ks short (fun null => nz ((PTE_TO_PA_eq_zero x).mpr null))
  · intro js j index there small present
    rw [setPte_upper h bottom (by omega)] at there present ⊢
    by_cases slot : node s m js = node s m (tablePath va) ∧ j = tableIndex va PAGE_SHIFT
    · grind [setPte_mem_self]
    · have other : node s m js ≠ node s m (tablePath va) ∨ j ≠ tableIndex va PAGE_SHIFT := by
        by_contra both
        push Not at both
        exact slot both
      rw [setPte_mem_ne s m va x other] at present ⊢
      exact h.nonnull js j index there small present

end

theorem setPte_tables (h : Tables s m) (bottom : node s m (tablePath va) ≠ 0)
    (after : Shape (setPte s m va x) m)
    (held : PTE_TO_PA x ≠ 0 → InPool s (PTE_TO_PA x / PAGE_SIZE) ∧
      s.used (PTE_TO_PA x / PAGE_SIZE) = true) : Tables (setPte s m va x) m := by
  refine ⟨after, h.first, h.real, ?_⟩
  refine (setPte_attached h.toShape bottom).covered (fun _ => rfl) h.held (fun _ old => old) ?_
  intro nz
  exact held (fun null => nz ((PTE_TO_PA_eq_zero x).mpr null))

theorem setPte_pte (h : Shape s m) (bottom : node s m (tablePath va) ≠ 0)
    (after : Shape (setPte s m va x) m) (va' : Nat) :
    pte (setPte s m va x) m va' = if pagePath va' = pagePath va then x else pte s m va' := by
  have upper : node (setPte s m va x) m (tablePath va') = node s m (tablePath va') :=
    setPte_upper h bottom (Nat.le_refl 3)
  rw [after.pte_eq, upper]
  by_cases same : pagePath va' = pagePath va
  · obtain ⟨path, index⟩ := append_inj' same rfl
    rw [if_pos same, path, if_neg bottom, singleton_inj.mp index, setPte_mem_self]
  · rw [if_neg same, h.pte_eq]
    by_cases absent : node s m (tablePath va') = 0
    · rw [if_pos absent, if_pos absent]
    · rw [if_neg absent, if_neg absent]
      apply setPte_mem_ne
      by_contra both
      push Not at both
      have path : tablePath va' = tablePath va := by
        apply h.same_node _ _ bottom both.1
        · exact Nat.le_succ 3
        · exact Nat.le_succ 3
      apply same
      unfold pagePath
      rw [path, both.2]

end SetPte

/-! `map_page` -/

variable {perm : BitVec 64} {kerPages kerPages' : List Nat} {bottom nk va : Nat}

def mapBelow (nk m va page : Nat) (perm : BitVec 64) (kerPages : List Nat) :
    VmM (Option (Nat × Nat)) := do
  let s ← get
  let r ← walkTables nk va true levels (s.mm m).pgd kerPages
  match r with
  | (none, kerPages) => do
    freePages kerPages
    pure none
  | (some table, kerPages) => do
    mapTableEntry table va page perm
    let s ← get
    if page ≠ 0 then
      if (s.mm m).userPagesCount ≥ MAX_TASK_USER_PAGES then stop .bug
      else modify (fun s => s.putMm m { s.mm m with
        userPagesCount := (s.mm m).userPagesCount + 1 })
    else pure ()
    modify (fun s => s.putMm m (recordPages (s.mm m) kerPages))
    pure (some (table / PAGE_SIZE, tableIndex va PAGE_SHIFT))

theorem mapPage_eq (m va page : Nat) (perm : BitVec 64) (s : VmState) :
    mapPage m va page true perm s =
      (if page ≠ 0 ∧ true = true ∧ (s.mm m).userPagesCount ≥ MAX_TASK_USER_PAGES then pure none
      else topTable m true >>= fun top =>
        match top with
        | none => pure none
        | some kerPages => mapBelow (s.mm m).kernelPagesCount m va page perm kerPages) s := rfl

theorem topTable_cases (h : Upper s m) (first : 0 < s.low) :
    (node s m [] ≠ 0 ∧ topTable m true s = .ok (some [], s)) ∨
    (node s m [] = 0 ∧ ((s.mm m).kernelPagesCount = MAX_TASK_KER_PAGES ∨ free s = 0) ∧
      topTable m true s = .ok (none, s)) ∨
    (node s m [] = 0 ∧ (s.mm m).kernelPagesCount ≠ MAX_TASK_KER_PAGES ∧
      ∃ f, InPool s f ∧ s.used f = false ∧
        topTable m true s = .ok (some [f * PAGE_SIZE], openTop s m f)) := by
  have enter : topTable m true s =
      (if (s.mm m).pgd = 0 then
        if (s.mm m).kernelPagesCount = MAX_TASK_KER_PAGES then pure none
        else getFreePage >>= fun page => if page = 0 then pure none
          else modify (fun s => s.putMm m { s.mm m with pgd := page }) >>= fun _ =>
            pure (some [page])
      else pure (some []) : VmM (Option (List Nat))) s := rfl
  rw [enter]
  by_cases absent : node s m [] = 0
  · right
    rw [if_pos (h.pgd_eq_zero.mpr absent)]
    by_cases limit : (s.mm m).kernelPagesCount = MAX_TASK_KER_PAGES
    · rw [if_pos limit]
      exact .inl ⟨absent, .inl limit, rfl⟩
    · rw [if_neg limit]
      rcases getFreePage_cases s with ⟨none, result⟩ | ⟨f, pool, unused, result⟩
      · rw [run_bind result, if_pos rfl]
        exact .inl ⟨absent, .inr none, rfl⟩
      · have nz : f * PAGE_SIZE ≠ 0 := Nat.mul_ne_zero (pool_pos first pool) (by decide)
        rw [run_bind result, if_neg nz]
        exact .inr ⟨absent, limit, f, pool, unused, rfl⟩
  · left
    rw [if_neg (fun zero => absent (h.pgd_eq_zero.mp zero))]
    exact ⟨absent, rfl⟩

theorem freePages_frame (frames : List Nat) (s : VmState) :
    ∃ t, freePages (frames.map (· * PAGE_SIZE)) s = .ok ((), t) ∧ t.mem = s.mem ∧ t.mm = s.mm ∧
      t.low = s.low ∧ t.pages = s.pages ∧ ∀ g, t.used g = if g ∈ frames then false else s.used g := by
  induction frames generalizing s with
  | nil => exact ⟨s, rfl, rfl, rfl, rfl, rfl, fun _ => rfl⟩
  | cons f rest ih =>
    obtain ⟨t, result, mem, mm, low, pages, used⟩ := ih { s with
      used := Function.update s.used (f * PAGE_SIZE / PAGE_SIZE) false
      pagesUsed := s.pagesUsed - 1 }
    refine ⟨t, result, mem, mm, low, pages, fun g => ?_⟩
    rw [used, Nat.mul_div_cancel _ (by decide)]
    by_cases same : g = f
    · simp [same]
    · simp [same]

theorem recordPages_fields (mm : Mm) (pages : List Nat) :
    (recordPages mm pages).pgd = mm.pgd ∧ (recordPages mm pages).sz = mm.sz ∧
      (recordPages mm pages).codesz = mm.codesz ∧
      (recordPages mm pages).userPagesCount = mm.userPagesCount ∧
      (recordPages mm pages).kernelPagesCount = mm.kernelPagesCount + pages.length := by
  induction pages generalizing mm with
  | nil => exact ⟨rfl, rfl, rfl, rfl, rfl⟩
  | cons page rest ih =>
    obtain ⟨pgd, sz, codesz, user, kernel⟩ := ih { mm with
      kernelPages := Function.update mm.kernelPages mm.kernelPagesCount page
      kernelPagesCount := mm.kernelPagesCount + 1 }
    refine ⟨pgd, sz, codesz, user, kernel.trans ?_⟩
    dsimp only
    rw [length_cons]
    omega

def records (mm : Mm) : List Nat := (List.range mm.kernelPagesCount).map mm.kernelPages

theorem records_recordPages (mm : Mm) (pages : List Nat) :
    records (recordPages mm pages) = records mm ++ pages := by
  induction pages generalizing mm with
  | nil => exact (append_nil _).symm
  | cons page rest ih =>
    have one : records { mm with
        kernelPages := Function.update mm.kernelPages mm.kernelPagesCount page
        kernelPagesCount := mm.kernelPagesCount + 1 } = records mm ++ [page] := by
      unfold records
      dsimp only
      rw [range_succ, map_append, map_singleton, Function.update_self]
      congr 1
      apply map_congr_left
      intro i lt
      exact Function.update_of_ne (Nat.ne_of_lt (mem_range.mp lt)) ..
    rw [recordPages, ih, one, append_assoc]
    rfl

def entry (frame : Nat) (perm : BitVec 64) : BitVec 64 :=
  BitVec.ofNat 64 (frame * PAGE_SIZE) ||| MMU_PTE_FLAGS ||| perm

def commit (s : VmState) (m : Nat) (kerPages : List Nat) : VmState :=
  s.putMm m (recordPages
    { s.mm m with userPagesCount := (s.mm m).userPagesCount + 1 } kerPages)

theorem mapBelow_failed
    (page : Nat) (perm : BitVec 64) (walked : walkTables nk va true levels (s.mm m).pgd kerPages s =
      .ok ((none, kerPages'), t)) :
    mapBelow nk m va page perm kerPages s = (freePages kerPages' >>= fun _ => pure none) t := by
  change (walkTables nk va true levels (s.mm m).pgd kerPages >>= _) s = _
  rw [run_bind walked]

def mapFound (m va page : Nat) (perm : BitVec 64) (bottom : Nat) (kerPages : List Nat) :
    VmM (Option (Nat × Nat)) := do
  mapTableEntry (bottom * PAGE_SIZE) va page perm
  let s ← get
  if page ≠ 0 then
    if (s.mm m).userPagesCount ≥ MAX_TASK_USER_PAGES then stop .bug
    else modify (fun s => s.putMm m { s.mm m with
      userPagesCount := (s.mm m).userPagesCount + 1 })
  else pure ()
  modify (fun s => s.putMm m (recordPages (s.mm m) kerPages))
  pure (some (bottom * PAGE_SIZE / PAGE_SIZE, tableIndex va PAGE_SHIFT))

theorem mapBelow_found
    (page : Nat) (perm : BitVec 64) (walked : walkTables nk va true levels (s.mm m).pgd kerPages s =
      .ok ((some (bottom * PAGE_SIZE), kerPages'), t)) :
    mapBelow nk m va page perm kerPages s = mapFound m va page perm bottom kerPages' t := by
  change (walkTables nk va true levels (s.mm m).pgd kerPages >>= _) s = _
  rw [run_bind walked]
  rfl

theorem mapTableEntry_ok (va page : Nat) (perm : BitVec 64) (bottom : Nat) (t : VmState) :
    ∃ u, mapTableEntry (bottom * PAGE_SIZE) va page perm t = .ok ((), u) := by
  unfold mapTableEntry
  split
  · exact ⟨t, rfl⟩
  · exact ⟨_, rfl⟩

theorem mapFound_some {page : Nat}
    {w : VmState} : mapFound m va page perm bottom kerPages t ≠ .ok (none, w) := by
  obtain ⟨u, stored⟩ := mapTableEntry_ok va page perm bottom t
  intro run
  unfold mapFound at run
  rw [run_bind stored] at run
  change (if page ≠ 0 then if (u.mm m).userPagesCount ≥ MAX_TASK_USER_PAGES then _ else _
    else _ : VmM _) u = _ at run
  split at run
  · split at run
    · cases run
    · cases run
  · cases run

theorem mapFound_page {f : Nat}
    (nz : f ≠ 0) (count : (t.mm m).userPagesCount < MAX_TASK_USER_PAGES) :
    mapFound m va (f * PAGE_SIZE) perm bottom kerPages t =
      .ok (some (bottom, tableIndex va PAGE_SHIFT),
        commit (t.putWord bottom (tableIndex va PAGE_SHIFT) (entry f perm)) m kerPages) := by
  have page : f * PAGE_SIZE ≠ 0 := Nat.mul_ne_zero nz (by decide)
  have below : ¬ (t.mm m).userPagesCount ≥ MAX_TASK_USER_PAGES := by omega
  have set : mapTableEntry (bottom * PAGE_SIZE) va (f * PAGE_SIZE) perm t =
      .ok ((), t.putWord bottom (tableIndex va PAGE_SHIFT) (entry f perm)) := by
    unfold mapTableEntry
    rw [if_neg page, Nat.mul_div_cancel _ (by decide)]
    rfl
  unfold mapFound
  rw [run_bind set]
  change (if f * PAGE_SIZE ≠ 0 then
    if (t.mm m).userPagesCount ≥ MAX_TASK_USER_PAGES then _ else _ else _ : VmM _) _ = _
  rw [if_pos page, if_neg below]
  -- the two updates of the mm are one
  have once : ∀ (w : VmState) (x : Mm), (w.putMm m x).putMm m
      (recordPages ((w.putMm m x).mm m) kerPages) = w.putMm m (recordPages x kerPages) := by
    intro w x
    rw [putMm_self, putMm_putMm]
  change Except.ok (some (bottom * PAGE_SIZE / PAGE_SIZE, _), _) = _
  rw [Nat.mul_div_cancel _ (by decide)]
  exact congrArg (fun u => Except.ok (some (bottom, tableIndex va PAGE_SHIFT), u)) (once _ _)

/-- A page is mapped at `va` by the pte `x`, and the tables it needed were allocated. -/
structure Mapped (s t : VmState) (m va : Nat) (x : BitVec 64) : Prop where
  tables : Tables t m
  low : t.low = s.low
  pages : t.pages = s.pages
  pte : ∀ va', pte t m va' = if pagePath va' = pagePath va then x else pte s m va'
  absent : ∀ ks, ks.length ≤ 3 → (node t m ks = 0 ↔ node s m ks = 0 ∧ ¬ ks <+: tablePath va)
  kept : ∀ ks, ks.length ≤ 3 → node s m ks ≠ 0 → node t m ks = node s m ks
  others : ∀ k, k ≠ m → t.mm k = s.mm k
  sz : (t.mm m).sz = (s.mm m).sz
  codesz : (t.mm m).codesz = (s.mm m).codesz
  userPagesCount : (t.mm m).userPagesCount = (s.mm m).userPagesCount + 1
  kernelPagesCount : (t.mm m).kernelPagesCount = (s.mm m).kernelPagesCount + need s m va
  used : ∀ f, s.used f = true → t.used f = true
  free : free t + need s m va = free s
  pagesUsed : t.pagesUsed = s.pagesUsed + need s m va
  data : ∀ f, s.used f = true → (∀ ks, ks.length ≤ 3 → node s m ks ≠ f) → t.mem f = s.mem f

structure Recording (s t : VmState) (m : Nat) (new : List Nat) : Prop where
  nodup : new.Nodup
  fresh : ∀ f ∈ new, s.used f = false ∧ t.used f = true
  along : ∀ ks, ks.length ≤ 3 → node s m ks = 0 → node t m ks ≠ 0 → node t m ks ∈ new
  records : records (t.mm m) = Vm.records (s.mm m) ++ new.map (· * PAGE_SIZE)

structure MappedNew (s t : VmState) (m va : Nat) (x : BitVec 64) : Prop extends
    Mapped s t m va x where
  recorded : ∃ new, Recording s t m new
  fresh : ∀ ks, ks.length ≤ 3 → node s m ks = 0 → node t m ks ≠ 0 → s.used (node t m ks) = false

/-- A failure that leaves a freed table in the tree. No pte shows it. -/
structure Dirty (s t : VmState) (m : Nat) : Prop where
  shape : Shape t m
  trace : Trace s t m
  pte : ∀ va, pte t m va = Vm.pte s m va
  used : t.used = s.used
  low : t.low = s.low
  pages : t.pages = s.pages
  others : ∀ k, k ≠ m → t.mm k = s.mm k
  sz : (t.mm m).sz = (s.mm m).sz
  codesz : (t.mm m).codesz = (s.mm m).codesz
  data : ∀ f, s.used f = true → (∀ ks, ks.length ≤ 3 → node s m ks ≠ f) → t.mem f = s.mem f

def Dangling (s : VmState) (m : Nat) : Prop :=
  ∃ ks, ks.length ≤ 3 ∧ node s m ks ≠ 0 ∧ s.used (node s m ks) = false

structure Loose (s : VmState) (m f : Nat) : Prop where
  pool : InPool s f
  used : s.used f = true
  apart : ∀ ks, ks.length ≤ 4 → node s m ks ≠ f

section MapPage

variable {s u : VmState} {m va f : Nat} {new : List Nat} {perm : BitVec 64}

variable {way : List Nat}

theorem entry_frame (small : f < 2 ^ 20) (low : (MMU_PTE_FLAGS ||| perm) &&& 0xfffff000#64 = 0) :
    PTE_TO_PA (entry f perm) = f * PAGE_SIZE := by
  unfold entry
  rw [BitVec.or_assoc]
  exact PTE_TO_PA_entry small low

theorem Loose.opened (loose : Loose s m f) (opened : Opened s u m way new)
    (nz : f ≠ 0) : Loose u m f where
  pool := by
    have pool := loose.pool
    unfold InPool at *
    rwa [opened.low, opened.pages]
  used := (opened.used f).mpr (.inl loose.used)
  apart ks short here := by
    by_cases absent : node s m ks = 0
    · have member := (opened.along ks short absent (by rw [here]; exact nz)).2.2
      rw [here] at member
      have unused := opened.fresh f member
      rw [loose.used] at unused
      cases unused
    · exact loose.apart ks short ((opened.kept ks short absent).symm.trans here)

def Supplied (s : VmState) (m va : Nat) : Prop :=
  need s m va ≤ free s ∧ (0 < need s m va → (s.mm m).kernelPagesCount + 3 ≤ MAX_TASK_KER_PAGES)

/-- The walk of a call that may allocate has found the bottom table of `va`, and these frames
went into the tree on the way. -/
structure Found (s u : VmState) (m va : Nat) (new : List Nat) : Prop where
  supplied : Supplied s m va
  tables : Tables u m
  opened : Opened s u m (tablePath va) new
  bottom : node u m (tablePath va) ≠ 0
  count : new.length = need s m va
  others : ∀ k, k ≠ m → u.mm k = s.mm k
  mm : ∃ pgd, u.mm m = { s.mm m with pgd := pgd }
  plain : need s m va = 0 → u = s

theorem Found.mapped (found : Found s u m va new) (before : Shape s m) (loose : Loose s m f)
    (low : (MMU_PTE_FLAGS ||| perm) &&& 0xfffff000#64 = 0) :
    MappedNew s (commit (setPte u m va (entry f perm)) m (new.map (· * PAGE_SIZE))) m va
      (entry f perm) := by
  obtain ⟨-, h, opened, bottom, count, others, ⟨top, mm⟩, -⟩ := found
  have pool : InPool u f := by
    have pool := loose.pool
    unfold InPool at *
    rwa [opened.low, opened.pages]
  have nz := h.frame_pos pool
  have there := loose.opened opened nz
  have frame : PTE_TO_PA (entry f perm) = f * PAGE_SIZE := entry_frame (h.frame_lt pool) low
  have number : PTE_TO_PA (entry f perm) / PAGE_SIZE = f := by
    rw [frame, Nat.mul_div_cancel _ (by decide)]
  have shape : Shape (setPte u m va (entry f perm)) m := by
    apply setPte_shape h.toShape bottom
    · intro _
      rw [frame]
      exact Nat.mul_ne_zero nz (by decide)
    · intro ks short _
      rw [number]
      exact there.apart ks short
  have set : Tables (setPte u m va (entry f perm)) m := by
    apply setPte_tables h bottom shape
    intro _
    rw [number]
    exact ⟨pool, there.used⟩
  obtain ⟨pgd', sz', codesz', user', kernel'⟩ := recordPages_fields
    { u.mm m with userPagesCount := (u.mm m).userPagesCount + 1 } (new.map (· * PAGE_SIZE))
  have record : ((commit (setPte u m va (entry f perm)) m (new.map (· * PAGE_SIZE))).mm m) =
      recordPages { u.mm m with userPagesCount := (u.mm m).userPagesCount + 1 }
        (new.map (· * PAGE_SIZE)) := putMm_self _ _ _
  have pgd : ((commit (setPte u m va (entry f perm)) m (new.map (· * PAGE_SIZE))).mm m).pgd =
      ((setPte u m va (entry f perm)).mm m).pgd := by
    rw [record, pgd']
    rfl
  obtain ⟨shape', nodes⟩ := shape.congr (t :=
    commit (setPte u m va (entry f perm)) m (new.map (· * PAGE_SIZE))) rfl pgd
  have tables := set.congr (t := commit (setPte u m va (entry f perm)) m
    (new.map (· * PAGE_SIZE))) rfl pgd rfl rfl rfl
  have upper : ∀ ks, ks.length ≤ 3 → node (commit (setPte u m va (entry f perm)) m
      (new.map (· * PAGE_SIZE))) m ks = node u m ks := by
    intro ks short
    rw [nodes, setPte_upper h.toShape bottom short]
  refine ⟨⟨tables, opened.low, opened.pages, ?_, ?_, ?_, ?_, ?_, ?_, ?_, ?_, ?_, ?_, ?_, ?_⟩,
    ⟨new, opened.nodup, ?_, ?_, ?_⟩, ?_⟩
  · intro va'
    rw [shape'.pte_eq, ← opened.pte before h.toShape, ← setPte_pte h.toShape bottom shape,
      shape.pte_eq, nodes]
    rfl
  · intro ks short
    rw [upper ks short]
    constructor
    · intro zero
      constructor
      · grind [opened.kept]
      · rintro ⟨rest, path⟩
        rw [← path, node_append_zero zero] at bottom
        exact bottom rfl
    · grind [opened.along]
  · intro ks short old
    rw [upper ks short, opened.kept ks (by omega) old]
  · intro k differs
    exact (putMm_ne _ _ differs).trans (others k differs)
  · rw [record, sz', mm]
  · rw [record, codesz', mm]
  · rw [record, user', mm]
  · rw [record, kernel', length_map, count, mm]
  · intro g old
    exact (opened.used g).mpr (.inl old)
  · rw [← count]
    exact opened.free
  · rw [← count]
    exact opened.pagesUsed
  · intro g old apart
    rw [← opened.data g old apart]
    funext j
    apply setPte_mem_ne u m va (entry f perm)
    left
    intro same
    by_cases absent : node s m (tablePath va) = 0
    · have member := (opened.along (tablePath va) (Nat.le_succ 3) absent bottom).2.2
      rw [← same] at member
      rw [opened.fresh g member] at old
      cases old
    · exact apart (tablePath va) (Nat.le_refl 3)
        ((opened.kept (tablePath va) (Nat.le_succ 3) absent).symm.trans same.symm)
  · intro g member
    exact ⟨opened.fresh g member, (opened.used g).mpr (.inr member)⟩
  · grind [opened.along]
  · grind [records_recordPages, records]
  · grind [opened.fresh, opened.along]

def Roomy (s : VmState) (m va : Nat) : Prop :=
  (s.mm m).userPagesCount < MAX_TASK_USER_PAGES ∧ need s m va ≤ free s ∧
    (0 < need s m va → (s.mm m).kernelPagesCount + 3 ≤ MAX_TASK_KER_PAGES)

def Stuck (s : VmState) (m va : Nat) : Prop :=
  (s.mm m).userPagesCount ≥ MAX_TASK_USER_PAGES ∨
    0 < need s m va ∧
      (free s = 0 ∨ need s m va = 4 ∧ (s.mm m).kernelPagesCount = MAX_TASK_KER_PAGES)

def Barred (s : VmState) (m va : Nat) : Prop :=
  0 < need s m va ∧
    (free s = 0 ∨ need s m va = 4 ∧ (s.mm m).kernelPagesCount = MAX_TASK_KER_PAGES)

theorem mapBelow_dirty (ran : walkTables nk va true levels (u.mm m).pgd kerPages u =
      .ok ((none, new.map (· * PAGE_SIZE)), t))
    (before : Shape s m) (after : Shape t m) (opened : Opened s t m way new)
    (others : ∀ k, k ≠ m → t.mm k = s.mm k) (sz : (t.mm m).sz = (s.mm m).sz)
    (codesz : (t.mm m).codesz = (s.mm m).codesz) (trace : Trace s t m) :
    ∃ w, (∀ page perm, mapBelow nk m va page perm kerPages u = .ok (none, w)) ∧ Dirty s w m ∧
      Dangling w m := by
  obtain ⟨w, freed, mem, mm, low, pages, given⟩ := freePages_frame new t
  obtain ⟨shape, nodes⟩ := after.congr mem (by rw [mm])
  obtain ⟨ks, short, absent, present⟩ := trace
  have used : w.used = s.used := by
    funext g
    rw [given]
    split
    · next member => exact (opened.fresh g member).symm
    · grind [opened.used]
  refine ⟨w, ?_, ⟨shape, ⟨ks, short, absent, by rw [nodes]; exact present⟩, ?_, used,
    low.trans opened.low, pages.trans opened.pages, ?_, by rw [mm]; exact sz,
    by rw [mm]; exact codesz, ?_⟩, ks, short, by rw [nodes]; exact present, ?_⟩
  · intro page perm
    rw [mapBelow_failed page perm ran, run_bind freed]
    rfl
  · intro va'
    rw [← opened.pte before after va', shape.pte_eq, after.pte_eq, nodes, mem]
  · intro k differs
    rw [mm]
    exact others k differs
  · intro g old apart
    rw [mem]
    exact opened.data g old apart
  · rw [used, nodes]
    exact opened.fresh _ (opened.along ks (by omega) absent present).2.2

/-- What the page and its permissions have no influence on, below the limit of user pages: the
bottom table is found, or nothing happens, or freed tables are left behind. -/
theorem mapPage_walks (va : Nat) (h : Tables s m) : (∃ u new, Found s u m va new ∧ ∀ page perm,
      (page ≠ 0 → (s.mm m).userPagesCount < MAX_TASK_USER_PAGES) →
      mapPage m va page true perm s = mapFound m va page perm (node u m (tablePath va))
        (new.map (· * PAGE_SIZE)) u) ∨
    (Barred s m va ∧ ∀ page perm, mapPage m va page true perm s = .ok (none, s)) ∨
    (¬ Supplied s m va ∧ ¬ Barred s m va ∧ ∃ t, Dirty s t m ∧ Dangling t m ∧ ∀ page perm,
      (page ≠ 0 → (s.mm m).userPagesCount < MAX_TASK_USER_PAGES) →
      mapPage m va page true perm s = .ok (none, t)) := by
  have within : ∀ page perm, (page ≠ 0 → (s.mm m).userPagesCount < MAX_TASK_USER_PAGES) →
      mapPage m va page true perm s = (topTable m true >>= fun top =>
        match top with
        | none => pure none
        | some kerPages => mapBelow (s.mm m).kernelPagesCount m va page perm kerPages) s := by
    intro page perm below
    rw [mapPage_eq, if_neg]
    rintro ⟨nz, -, full⟩
    have lt := below nz
    omega
  rcases topTable_cases h.upper h.first with ⟨there, top⟩ | ⟨absent, why, top⟩ | ⟨absent, room, g, pool, unused, top⟩
  · have count : need s m va = missing s m [] (tablePath va) := if_neg there
    have three : need s m va ≤ 3 := by
      rw [count]
      exact missing_le s m [] (tablePath va)
    obtain ⟨r, new, t, ran, walked⟩ :=
      walkTables_spec (s.mm m).kernelPagesCount va levels [] [] h there rfl rfl
    rw [h.pgd] at ran
    cases r with
    | none =>
      rcases walked.failure rfl with ⟨rfl, rfl, some_, exhausted⟩ | ⟨trace, some_, more, short⟩
      · refine .inr (.inl ⟨⟨by rw [count]; exact some_, .inl exhausted⟩, ?_⟩)
        intro page perm
        rw [mapPage_eq]
        split
        · rfl
        · rw [run_bind top]
          exact mapBelow_failed page perm ran
      · obtain ⟨w, result, dirty, dangling⟩ := mapBelow_dirty ran h.toShape
          walked.tables.toShape walked.opened (fun k _ => by rw [walked.mm]) (by rw [walked.mm])
          (by rw [walked.mm]) trace
        refine .inr (.inr ⟨?_, ?_, w, dirty, dangling, fun page perm below => ?_⟩)
        · rintro ⟨enough, limit⟩
          have limit := limit (by rw [count]; exact more)
          rw [count] at enough
          change _ < missing s m [] (tablePath va) ∨ _ at short
          omega
        · rintro ⟨-, none | ⟨four, -⟩⟩
          · omega
          · omega
        · grind [run_bind]
    | some bottom =>
      obtain ⟨value, present, length, limit, plain⟩ := walked.success bottom rfl
      change bottom = node t m (tablePath va) * PAGE_SIZE at value
      change new.length = missing s m [] (tablePath va) at length
      rw [value] at ran
      have fewer := walked.opened.free
      refine .inl ⟨t, new, ⟨⟨by omega, ?_⟩, walked.tables, walked.opened, present, by omega,
        fun k _ => by rw [walked.mm], ⟨(s.mm m).pgd, by rw [walked.mm]⟩, ?_⟩,
        fun page perm below => ?_⟩
      · rw [count]
        exact limit
      · rw [count]
        exact plain
      · grind [run_bind, mapBelow_found]
  · have count : need s m va = 4 := if_pos absent
    refine .inr (.inl ⟨⟨by omega, ?_⟩, fun page perm => ?_⟩)
    · omega
    · rw [mapPage_eq]
      split
      · rfl
      · rw [run_bind top]
        rfl
  · have count : need s m va = 4 := if_pos absent
    have nzg := h.frame_pos pool
    obtain ⟨tables, opened, here⟩ := openTop_spec (tablePath va) h absent pool unused
    have rest : missing (openTop s m g) m [] (tablePath va) = 3 :=
      missing_new tables opened (show ([] : List Nat).length ≤ 3 by decide) here absent nzg _
    have fewer := opened.free
    rw [length_singleton] at fewer
    obtain ⟨r, new, t, ran, walked⟩ := walkTables_spec (s.mm m).kernelPagesCount va levels []
      [g * PAGE_SIZE] tables (by rw [here]; exact nzg) rfl rfl
    rw [tables.pgd, ← map_singleton (f := (· * PAGE_SIZE)), ← map_append] at ran
    have all := opened.trans walked.opened
    have mm : t.mm m = { s.mm m with pgd := g * PAGE_SIZE } := by
      rw [walked.mm]
      exact putMm_self _ _ _
    have others : ∀ k, k ≠ m → t.mm k = s.mm k := by
      intro k differs
      rw [walked.mm]
      exact putMm_ne _ _ differs
    cases r with
    | none =>
      have trace : Trace s t m := by
        refine ⟨[], Nat.zero_le 3, absent, ?_⟩
        rw [walked.opened.kept [] (Nat.zero_le 4) (by rw [here]; exact nzg), here]
        exact nzg
      obtain ⟨w, result, dirty, dangling⟩ := mapBelow_dirty ran h.toShape
        walked.tables.toShape all others (by rw [mm]) (by rw [mm]) trace
      refine .inr (.inr ⟨?_, ?_, w, dirty, dangling, fun page perm below => ?_⟩)
      · rintro ⟨enough, limit⟩
        have limit := limit (by omega)
        have short := walked.failure rfl
        change (_ ∧ _ ∧ _ ∧ _) ∨ (_ ∧ _ ∧ _ ∧
          (_ < missing (openTop s m g) m [] (tablePath va) ∨ _)) at short
        rw [rest] at short
        omega
      · rintro ⟨-, none | ⟨-, limit⟩⟩
        · omega
        · exact room limit
      · rw [within page perm below, run_bind top]
        exact result page perm
    | some bottom =>
      obtain ⟨value, present, length, limit, -⟩ := walked.success bottom rfl
      change bottom = node t m (tablePath va) * PAGE_SIZE at value
      change new.length = missing (openTop s m g) m [] (tablePath va) at length
      change 0 < missing (openTop s m g) m [] (tablePath va) → _ at limit
      rw [value] at ran
      have more := walked.opened.free
      refine .inl ⟨t, [g] ++ new, ⟨⟨by omega, fun _ => limit (by omega)⟩, walked.tables, all,
        present, by rw [count, length_append, length, rest]; rfl, others, ⟨_, mm⟩, by omega⟩,
        fun page perm below => ?_⟩
      rw [within page perm below, run_bind top]
      exact mapBelow_found page perm ran

theorem mapPage_full (va : Nat) (h : Tables s m) (loose : Loose s m f)
    (low : (MMU_PTE_FLAGS ||| perm) &&& 0xfffff000#64 = 0) :
    ∃ r t, mapPage m va (f * PAGE_SIZE) true perm s = .ok (r, t) ∧
      ((r.isSome = true ∧ Roomy s m va ∧ MappedNew s t m va (entry f perm) ∧
        (need s m va = 0 → t = commit (setPte s m va (entry f perm)) m [])) ∨
      (r = none ∧ t = s ∧ Stuck s m va) ∨
      (r = none ∧ ¬ Roomy s m va ∧ ¬ Stuck s m va ∧ Dirty s t m)) := by
  have nz := h.frame_pos loose.pool
  have page : f * PAGE_SIZE ≠ 0 := Nat.mul_ne_zero nz (by decide)
  by_cases full : (s.mm m).userPagesCount ≥ MAX_TASK_USER_PAGES
  · rw [mapPage_eq, if_pos ⟨page, rfl, full⟩]
    exact ⟨none, s, rfl, .inr (.inl ⟨rfl, rfl, .inl full⟩)⟩
  have below : (s.mm m).userPagesCount < MAX_TASK_USER_PAGES := by omega
  rcases mapPage_walks va h with ⟨u, new, found, run⟩ | ⟨barred, run⟩ | ⟨short, fed, t, dirty, _, run⟩
  · obtain ⟨pgd, mm⟩ := found.mm
    have count : (u.mm m).userPagesCount < MAX_TASK_USER_PAGES := by
      rw [mm]
      exact below
    refine ⟨_, _, (run _ perm (fun _ => below)).trans (mapFound_page nz count), .inl ⟨rfl, ?_, ?_, ?_⟩⟩
    · exact ⟨below, found.supplied⟩
    · exact found.mapped h.toShape loose low
    · intro none
      obtain rfl := found.plain none
      obtain rfl : new = [] := length_eq_zero_iff.mp (found.count.trans none)
      rfl
  · exact ⟨none, s, run _ perm, .inr (.inl ⟨rfl, rfl, .inr barred⟩)⟩
  · refine ⟨none, t, run _ perm (fun _ => below), .inr (.inr ⟨rfl, fun roomy => short roomy.2, ?_, dirty⟩)⟩
    exact fun stuck => stuck.elim full fed

end MapPage

end UvaOs.Vm
