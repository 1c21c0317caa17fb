import UvaOs.Vm.Grow

/-! What the loops of `growproc` do to a whole range of pages. -/
namespace UvaOs.Vm

open Prog VmState List
open Function (update update_self update_of_ne update_idem)

/-! Paths of different pages -/

theorem tableIndex_page (va shift : Nat) (above : 12 ≤ shift) :
    tableIndex va shift = va / PAGE_SIZE / 2 ^ (shift - 12) % PTRS_PER_TABLE := by
  have power : 2 ^ shift = PAGE_SIZE * 2 ^ (shift - 12) := by
    change 2 ^ shift = 2 ^ 12 * 2 ^ (shift - 12)
    rw [← Nat.pow_add, Nat.add_sub_cancel' above]
  unfold tableIndex
  rw [power, Nat.div_div_eq_div_mul]

theorem pagePath_injective {a b : Nat} (ha : a < 2 ^ 48) (hb : b < 2 ^ 48)
    (same : pagePath a = pagePath b) : a / PAGE_SIZE = b / PAGE_SIZE := by
  have path : ∀ va, pagePath va = [tableIndex va PGD_SHIFT, tableIndex va PUD_SHIFT,
    tableIndex va PMD_SHIFT, tableIndex va PAGE_SHIFT] := fun _ => rfl
  rw [path, path] at same
  simp only [List.cons.injEq, and_true] at same
  obtain ⟨top, second, third, last⟩ := same
  rw [tableIndex_page a _ (by decide), tableIndex_page b _ (by decide)] at top second third last
  have boundA : a / PAGE_SIZE < 2 ^ 36 := by
    simp only [PAGE_SIZE]
    omega
  have boundB : b / PAGE_SIZE < 2 ^ 36 := by
    simp only [PAGE_SIZE]
    omega
  generalize a / PAGE_SIZE = p at *
  generalize b / PAGE_SIZE = q at *
  simp only [PGD_SHIFT, PUD_SHIFT, PMD_SHIFT, PAGE_SHIFT, PTRS_PER_TABLE, Nat.reduceSub,
    Nat.reducePow] at *
  omega

theorem pagePath_of_div {a b : Nat} (same : a / PAGE_SIZE = b / PAGE_SIZE) :
    pagePath a = pagePath b := by
  have index : ∀ shift, 12 ≤ shift → tableIndex a shift = tableIndex b shift := by
    grind [tableIndex_page]
  change [tableIndex a PGD_SHIFT, tableIndex a PUD_SHIFT, tableIndex a PMD_SHIFT,
    tableIndex a PAGE_SHIFT] = [tableIndex b PGD_SHIFT, tableIndex b PUD_SHIFT,
    tableIndex b PMD_SHIFT, tableIndex b PAGE_SHIFT]
  rw [index PGD_SHIFT (by decide), index PUD_SHIFT (by decide), index PMD_SHIFT (by decide),
    index PAGE_SHIFT (by decide)]

def nth (va j : Nat) : Nat := va + j * PAGE_SIZE

theorem nth_zero (va : Nat) : nth va 0 = va := by simp [nth]

theorem nth_succ (va j : Nat) : nth (va + PAGE_SIZE) j = nth va (j + 1) := by
  unfold nth
  rw [Nat.succ_mul]
  omega

theorem nth_lt {va n j : Nat} (bound : va + n * PAGE_SIZE ≤ 2 ^ 48) (lt : j < n) :
    nth va j < 2 ^ 48 := by
  unfold nth
  simp only [PAGE_SIZE] at *
  omega

theorem nth_div (va j : Nat) : nth va j / PAGE_SIZE = va / PAGE_SIZE + j := by
  unfold nth
  exact Nat.add_mul_div_right va j (by decide)

theorem pagePath_nth_ne {va n i j : Nat} (bound : va + n * PAGE_SIZE ≤ 2 ^ 48) (hi : i < n)
    (hj : j < n) (differ : i ≠ j) : pagePath (nth va i) ≠ pagePath (nth va j) := by
  intro same
  have equal := pagePath_injective (nth_lt bound hi) (nth_lt bound hj) same
  rw [nth_div, nth_div] at equal
  omega

/-! Freeing a range -/

def frameAt (s : VmState) (m va : Nat) : Nat := node s m (pagePath va)

structure Freed (s t : VmState) (m va n : Nat) : Prop where
  shape : Shape t m
  low : t.low = s.low
  pages : t.pages = s.pages
  pagesUsed : t.pagesUsed = s.pagesUsed - n
  mm : t.mm = update s.mm m
    { s.mm m with userPagesCount := (s.mm m).userPagesCount - n }
  used : ∀ f, t.used f = true ↔ s.used f = true ∧ ∀ j < n, f ≠ frameAt s m (nth va j)
  nodes : ∀ ks, ks.length ≤ 4 → (∀ j < n, ks ≠ pagePath (nth va j)) → node t m ks = node s m ks
  gone : ∀ j < n, pte t m (nth va j) = 0
  pte : ∀ va', (∀ j < n, pagePath va' ≠ pagePath (nth va j)) → pte t m va' = pte s m va'
  mem : ∀ f k, (∀ j < n, f = node s m (tablePath (nth va j)) →
    k ≠ tableIndex (nth va j) PAGE_SHIFT) → t.mem f k = s.mem f k

theorem Freed.upper {s t : VmState} {m va n : Nat} (freed : Freed s t m va n) {ks : List Nat}
    (short : ks.length ≤ 3) : node t m ks = node s m ks := by
  apply freed.nodes ks (by omega)
  rintro j - rfl
  rw [length_pagePath] at short
  omega

theorem Freed.nothing {s : VmState} {m : Nat} (h : Shape s m) (va : Nat) : Freed s s m va 0 where
  shape := h
  low := rfl
  pages := rfl
  pagesUsed := by simp
  mm := by simp
  used f := by simp
  nodes _ _ _ := rfl
  gone j none := absurd none (Nat.not_lt_zero j)
  pte _ _ := rfl
  mem _ _ _ := rfl

def dropPage (s : VmState) (m va : Nat) : VmState :=
  { setPte s m va 0 with
    used := update s.used (frameAt s m va) false
    pagesUsed := s.pagesUsed - 1
    mm := update s.mm m
      { s.mm m with userPagesCount := (s.mm m).userPagesCount - 1 } }

section DropPage

variable {s t u : VmState} {m va n : Nat}

theorem freeUserPages_succ (h : Upper s m) (bottom : node s m (tablePath va) ≠ 0) :
    freeUserPages m (n + 1) va s = freeUserPages m n (va + PAGE_SIZE) (dropPage s m va) := by
  have place : mapPage m va 0 false 0 s =
      .ok (some (node s m (tablePath va), tableIndex va PAGE_SHIFT), s) := by
    rw [mapPage_locate, h.pteOf_eq, if_neg bottom]
  have frame : PTE_TO_PA (s.mem (node s m (tablePath va)) (tableIndex va PAGE_SHIFT)) / PAGE_SIZE =
      frameAt s m va := (node_snoc bottom (tableIndex_lt va PAGE_SHIFT)).symm
  change (mapPage m va 0 false 0 >>= _) s = _
  rw [run_bind place]
  change freeUserPages m n (va + PAGE_SIZE) _ = _
  rw [frame]
  rfl

theorem freeUserPages_missing (h : Upper s m) (absent : node s m (tablePath va) = 0) :
    freeUserPages m (n + 1) va s = .error .bug := by
  have place : mapPage m va 0 false 0 s = .ok (none, s) := by
    rw [mapPage_locate, h.pteOf_eq, if_pos absent]
  unfold freeUserPages
  rw [run_bind place]
  rfl

theorem dropPage_freed (h : Shape s m) (bottom : node s m (tablePath va) ≠ 0) :
    Freed s (dropPage s m va) m va 1 := by
  have cleared : Shape (setPte s m va 0) m := by
    apply setPte_shape h bottom (fun nz => absurd rfl nz)
    intro ks _ nz
    exact absurd rfl nz
  have pgd : ((dropPage s m va).mm m).pgd = ((setPte s m va 0).mm m).pgd := by
    simp only [dropPage, update_self]
    rfl
  obtain ⟨shape, nodes⟩ := cleared.congr (t := dropPage s m va) rfl pgd
  have ptes : ∀ va', pte (dropPage s m va) m va' =
      if pagePath va' = pagePath va then 0 else pte s m va' := by
    intro va'
    rw [← setPte_pte h bottom cleared, shape.pte_eq, cleared.pte_eq, nodes]
    rfl
  have only : ∀ P : Nat → Prop, (∀ j < 1, P (nth va j)) ↔ P va := by
    intro P
    constructor
    · intro all
      have first := all 0 Nat.zero_lt_one
      rwa [nth_zero] at first
    · grind [nth_zero]
  refine ⟨shape, rfl, rfl, rfl, rfl, ?_, ?_, ?_, ?_, ?_⟩
  · intro f
    rw [only (fun va => f ≠ frameAt s m va)]
    change update s.used (frameAt s m va) false f = true ↔ _
    by_cases same : f = frameAt s m va
    · simp [same]
    · simp [same]
  · intro ks short other
    rw [nodes, setPte_nodes h bottom short ((only (fun va => ks ≠ pagePath va)).mp other)]
  · rw [only (fun va' => pte (dropPage s m va) m va' = 0), ptes, if_pos rfl]
  · intro va' other
    rw [ptes, if_neg ((only (fun va => pagePath va' ≠ pagePath va)).mp other)]
  · intro f k other
    have apart := (only (fun va => f = node s m (tablePath va) →
      k ≠ tableIndex va PAGE_SHIFT)).mp other
    apply setPte_mem_ne s m va 0
    by_cases same : f = node s m (tablePath va)
    · exact .inr (apart same)
    · exact .inl same

theorem forall_lt_succ (P : Nat → Prop) (va n : Nat) :
    (∀ j < n + 1, P (nth va j)) ↔ P va ∧ ∀ j < n, P (nth (va + PAGE_SIZE) j) := by
  constructor
  · intro all
    refine ⟨nth_zero va ▸ all 0 (Nat.succ_pos n), ?_⟩
    intro j small
    rw [nth_succ]
    exact all (j + 1) (by omega)
  · rintro ⟨first, rest⟩ j small
    cases j with
    | zero => rwa [nth_zero]
    | succ j =>
      rw [← nth_succ]
      exact rest j (by omega)

theorem Freed.cons (bound : va + (n + 1) * PAGE_SIZE ≤ 2 ^ 48) (first : Freed s t m va 1)
    (rest : Freed t u m (va + PAGE_SIZE) n) : Freed s u m va (n + 1) := by
  have one : ∀ P : Nat → Prop, (∀ j < 1, P (nth va j)) ↔ P va := by
    intro P
    rw [forall_lt_succ P va 0]
    exact ⟨fun both => both.1, fun here => ⟨here, fun j none => absurd none (Nat.not_lt_zero j)⟩⟩
  have later : ∀ j < n, pagePath (nth (va + PAGE_SIZE) j) ≠ pagePath va := by
    intro j small
    rw [nth_succ, ← nth_zero va]
    have apart := pagePath_nth_ne bound (i := j + 1) (j := 0) (by omega) (by omega) (by omega)
    rwa [nth_zero] at apart ⊢
  have frames : ∀ j < n, frameAt t m (nth (va + PAGE_SIZE) j) =
      frameAt s m (nth (va + PAGE_SIZE) j) := by
    intro j small
    exact first.nodes _ (Nat.le_refl 4)
      ((one (fun va' => pagePath (nth (va + PAGE_SIZE) j) ≠ pagePath va')).mpr (later j small))
  refine ⟨rest.shape, rest.low.trans first.low, rest.pages.trans first.pages, ?_, ?_, ?_, ?_, ?_,
    ?_, ?_⟩
  · rw [rest.pagesUsed, first.pagesUsed]
    push_cast
    omega
  · rw [rest.mm, first.mm, update_idem, update_self]
    congr 1
    dsimp only
    rw [Int.sub_sub]
    congr 1
    push_cast
    omega
  · intro f
    rw [rest.used, first.used, forall_lt_succ (fun va' => f ≠ frameAt s m va') va n,
      one (fun va' => f ≠ frameAt s m va'), and_assoc]
    apply and_congr_right
    intro _
    apply and_congr_right
    intro _
    constructor
    · grind
    · intro apart j small
      rw [frames j small]
      exact apart j small
  · intro ks short other
    obtain ⟨here, there⟩ := (forall_lt_succ (fun va' => ks ≠ pagePath va') va n).mp other
    rw [rest.nodes ks short there,
      first.nodes ks short ((one (fun va' => ks ≠ pagePath va')).mpr here)]
  · apply (forall_lt_succ (fun va' => Vm.pte u m va' = 0) va n).mpr
    refine ⟨?_, rest.gone⟩
    rw [rest.pte va (fun j small => (later j small).symm)]
    exact (one (fun va' => Vm.pte t m va' = 0)).mp first.gone
  · intro va' other
    obtain ⟨here, there⟩ := (forall_lt_succ (fun x => pagePath va' ≠ pagePath x) va n).mp other
    rw [rest.pte va' there, first.pte va' ((one (fun x => pagePath va' ≠ pagePath x)).mpr here)]
  · intro f k other
    obtain ⟨here, there⟩ := (forall_lt_succ (fun va' => f = node s m (tablePath va') →
      k ≠ tableIndex va' PAGE_SHIFT) va n).mp other
    rw [rest.mem f k, first.mem f k ((one (fun va' => f = node s m (tablePath va') →
      k ≠ tableIndex va' PAGE_SHIFT)).mpr here)]
    intro j small at_
    rw [first.upper (Nat.le_of_eq (length_tablePath _))] at at_
    exact there j small at_

theorem freeUserPages_cases (h : Shape s m) (bound : va + n * PAGE_SIZE ≤ 2 ^ 48) :
    (∃ t, freeUserPages m n va s = .ok ((), t) ∧ Freed s t m va n) ∨
      (freeUserPages m n va s = .error .bug ∧ ∃ j < n, node s m (tablePath (nth va j)) = 0) := by
  induction n generalizing s va with
  | zero => exact .inl ⟨s, rfl, .nothing h va⟩
  | succ n ih =>
    by_cases absent : node s m (tablePath va) = 0
    · exact .inr ⟨freeUserPages_missing h.upper absent, 0, Nat.succ_pos n, by rwa [nth_zero]⟩
    · have first := dropPage_freed h absent
      have next : va + PAGE_SIZE + n * PAGE_SIZE ≤ 2 ^ 48 := by
        rw [Nat.succ_mul] at bound
        omega
      rw [freeUserPages_succ h.upper absent]
      rcases ih first.shape next with ⟨t, ran, rest⟩ | ⟨ran, j, small, missing⟩
      · exact .inl ⟨t, ran, first.cons bound rest⟩
      · refine .inr ⟨ran, j + 1, by omega, ?_⟩
        rw [nth_succ, first.upper (Nat.le_of_eq (length_tablePath _))] at missing
        exact missing

end DropPage

/-! Growing by a range -/

theorem need_eq_length (s : VmState) (m va : Nat) :
    need s m va = ((List.range 4).filter (fun n => node s m ((tablePath va).take n) = 0)).length := by
  have below : ∀ js j, node s m js = 0 → node s m (js ++ [j]) = 0 :=
    fun js j absent => node_append_zero absent [j]
  have path : tablePath va = [tableIndex va PGD_SHIFT, tableIndex va PUD_SHIFT,
    tableIndex va PMD_SHIFT] := rfl
  have range : List.range 4 = [0, 1, 2, 3] := rfl
  unfold need
  rw [path, range]
  generalize tableIndex va PGD_SHIFT = a
  generalize tableIndex va PUD_SHIFT = b
  generalize tableIndex va PMD_SHIFT = c
  have one := below [] a
  have two := below [a] b
  have three := below [a, b] c
  simp only [nil_append, cons_append] at one two three
  simp only [missing, nil_append, cons_append, filter_cons, take_zero,
    take_succ_cons, filter_nil]
  by_cases h0 : node s m [] = 0
  · simp [h0, one h0, two (one h0), three (two (one h0))]
  · by_cases h1 : node s m [a] = 0
    · simp [h0, h1, two h1, three (two h1)]
    · by_cases h2 : node s m [a, b] = 0
      · simp [h0, h1, h2, three h2]
      · by_cases h3 : node s m [a, b, c] = 0
        · simp [h0, h1, h2, h3]
        · simp [h0, h1, h2, h3]

/- The tables that the `i`-th page from `va` on needs, once the pages before it have
theirs. -/
def needed (s : VmState) (m va i : Nat) : Nat :=
  ((List.range 4).filter (fun n => node s m ((tablePath (nth va i)).take n) = 0 ∧
    ∀ j < i, (tablePath (nth va j)).take n ≠ (tablePath (nth va i)).take n)).length

/- The tables that the first `i` pages from `va` on need. -/
def taken (s : VmState) (m va : Nat) : Nat → Nat
  | 0 => 0
  | i + 1 => taken s m va i + needed s m va i

/- After the first `i` pages there is everything the next page takes: a free count, a
frame for it and for each table it needs, and room in the list of tables. -/
def Affords (s : VmState) (m va i : Nat) : Prop :=
  (s.mm m).userPagesCount + i < MAX_TASK_USER_PAGES ∧
    i + taken s m va i + needed s m va i + 1 ≤ free s ∧
    (0 < needed s m va i →
      (s.mm m).kernelPagesCount + taken s m va i + 3 ≤ MAX_TASK_KER_PAGES)

/- After the first `i` pages the next page fails at its first allocation, or at the
first allocation of a table for it. -/
def RunsOut (s : VmState) (m va i : Nat) : Prop :=
  (s.mm m).userPagesCount + i ≥ MAX_TASK_USER_PAGES ∨ free s = i + taken s m va i ∨
    0 < needed s m va i ∧ (free s = i + taken s m va i + 1 ∨ needed s m va i = 4 ∧
      (s.mm m).kernelPagesCount + taken s m va i = MAX_TASK_KER_PAGES)

structure FreshPage (s t : VmState) (m va : Nat) : Prop where
  mapped : pte t m va ≠ 0
  unused : s.used (frameAt t m va) = false
  held : t.used (frameAt t m va) = true
  zero : ∀ k, t.mem (frameAt t m va) k = 0

/- The change is confined to the new ptes and the frames they name. -/
structure Lent (s t : VmState) (m va i : Nat) : Prop where
  mm : t.mm = update s.mm m
    { s.mm m with userPagesCount := (s.mm m).userPagesCount + i }
  used : ∀ f, t.used f = true ↔ s.used f = true ∨ ∃ j < i, f = frameAt t m (nth va j)
  upper : ∀ ks, ks.length ≤ 3 → node t m ks = node s m ks
  mem : ∀ f k, s.used f = true → (∀ j < i, f = node s m (tablePath (nth va j)) →
    k ≠ tableIndex (nth va j) PAGE_SHIFT) → t.mem f k = s.mem f k

structure Stage (s t : VmState) (m va i : Nat) : Prop where
  tables : Tables t m
  low : t.low = s.low
  pages : t.pages = s.pages
  old : ∀ va', (∀ j < i, pagePath va' ≠ pagePath (nth va j)) → pte t m va' = pte s m va'
  new : ∀ j < i, FreshPage s t m (nth va j)
  absent : ∀ ks, ks.length ≤ 3 →
    (node t m ks = 0 ↔ node s m ks = 0 ∧ ∀ j < i, ¬ ks <+: tablePath (nth va j))
  kept : ∀ ks, ks.length ≤ 3 → node s m ks ≠ 0 → node t m ks = node s m ks
  others : ∀ k, k ≠ m → t.mm k = s.mm k
  sz : (t.mm m).sz = (s.mm m).sz
  codesz : (t.mm m).codesz = (s.mm m).codesz
  userPagesCount : (t.mm m).userPagesCount = (s.mm m).userPagesCount + i
  kernelPagesCount : (t.mm m).kernelPagesCount = (s.mm m).kernelPagesCount + taken s m va i
  used : ∀ f, s.used f = true → t.used f = true
  free : free t + i + taken s m va i = free s
  pagesUsed : t.pagesUsed = s.pagesUsed + i + taken s m va i
  lent : taken s m va i = 0 → Lent s t m va i

namespace Stage

variable {s t u : VmState} {m va i : Nat}

theorem start (h : Tables s m) (va : Nat) : Stage s s m va 0 where
  tables := h
  low := rfl
  pages := rfl
  old _ _ := rfl
  new j none := absurd none (Nat.not_lt_zero j)
  absent ks _ := by simp
  kept _ _ _ := rfl
  others _ _ := rfl
  sz := rfl
  codesz := rfl
  userPagesCount := by simp
  kernelPagesCount := rfl
  used _ old := old
  free := rfl
  pagesUsed := by simp [taken]
  lent _ := ⟨by simp, by simp, fun _ _ => rfl, fun _ _ _ _ => rfl⟩

theorem need_eq (g : Stage s t m va i) : need t m (nth va i) = needed s m va i := by
  rw [need_eq_length]
  unfold needed
  congr 1
  apply filter_congr
  intro n small
  have short : n ≤ 3 := by
    have := mem_range.mp small
    omega
  have length : ((tablePath (nth va i)).take n).length ≤ 3 := by
    rw [length_take, length_tablePath]
    omega
  rw [decide_eq_decide, g.absent _ length]
  apply and_congr_right
  intro _
  apply forall₂_congr
  intro j _
  apply not_congr
  rw [prefix_iff_eq_take, length_take, length_tablePath, Nat.min_eq_left short]
  exact eq_comm

theorem hasPage_iff (g : Stage s t m va i) : HasPage t m (nth va i) ↔ Affords s m va i := by
  have left := g.free
  unfold HasPage Affords
  rw [g.need_eq, g.userPagesCount, g.kernelPagesCount]
  omega

theorem noPage_iff (g : Stage s t m va i) : NoPage t m (nth va i) ↔ RunsOut s m va i := by
  have left := g.free
  unfold NoPage RunsOut
  rw [g.need_eq, g.userPagesCount, g.kernelPagesCount]
  omega

end Stage

def heapPerm : BitVec 64 := MM_AP_RW ||| MM_XN

theorem heapPerm_low : (MMU_PTE_FLAGS ||| heapPerm) &&& 0xfffff000#64 = 0 := by decide

theorem frameAt_of_pte {s t : VmState} {m va va' : Nat} (hs : Shape s m) (ht : Shape t m)
    (same : pte t m va = pte s m va') : frameAt t m va = frameAt s m va' := by
  have new := ht.pte_frame va
  rw [same, hs.pte_frame va'] at new
  exact (Nat.eq_of_mul_eq_mul_right (by decide) new).symm

section Step

variable {s t u : VmState} {m va i f : Nat}

structure Next (t u : VmState) (m va f : Nat) : Prop where
  before : Tables t m
  pool : InPool t f
  unused : t.used f = false
  mapped : Mapped (take t f) u m va (entry f heapPerm)
  plain : need t m va = 0 → u = commit (setPte (take t f) m va (entry f heapPerm)) m []

namespace Next

section

variable (x : Next t u m va f)
include x

theorem pte_other {va' : Nat} (other : pagePath va' ≠ pagePath va) : pte u m va' = pte t m va' := by
  rw [x.mapped.pte, if_neg other, take_pte x.before x.pool x.unused]

theorem pte_self : pte u m va = entry f heapPerm := by
  rw [x.mapped.pte, if_pos rfl]

theorem frame_self : frameAt u m va = f := by
  have frame := x.mapped.tables.pte_frame va
  rw [x.pte_self, entry_frame (x.before.frame_lt x.pool) heapPerm_low] at frame
  exact (Nat.eq_of_mul_eq_mul_right (by decide) frame).symm

theorem frame_other {va' : Nat} (other : pagePath va' ≠ pagePath va) :
    frameAt u m va' = frameAt t m va' :=
  frameAt_of_pte x.before.toShape x.mapped.tables.toShape (x.pte_other other)

theorem used_of {g : Nat} (old : t.used g = true) : u.used g = true := by
  apply x.mapped.used
  change update t.used f true g = true
  by_cases same : g = f
  · rw [same, update_self]
  · rw [update_of_ne same, old]

theorem fresh_self : FreshPage t u m va := by
  obtain ⟨tables, nodes, loose⟩ := take_tables x.before x.pool x.unused
  refine ⟨?_, ?_, ?_, ?_⟩
  · intro none
    have absent := (x.mapped.tables.pte_eq_zero va).mp none
    exact x.before.frame_pos x.pool (x.frame_self.symm.trans absent)
  · rw [x.frame_self]
    exact x.unused
  · rw [x.frame_self]
    exact x.mapped.used f loose.used
  · intro k
    rw [x.frame_self, x.mapped.data f loose.used (fun ks short => loose.apart ks (by omega))]
    change update t.mem f (fun _ => 0) f k = 0
    rw [update_self]

theorem fresh_other {va' : Nat} (other : pagePath va' ≠ pagePath va)
    (fresh : FreshPage s t m va') : FreshPage s u m va' := by
  obtain ⟨tables, nodes, -⟩ := take_tables x.before x.pool x.unused
  have there : frameAt t m va' ≠ 0 := fun none => fresh.mapped ((x.before.pte_eq_zero va').mpr none)
  have differs : frameAt t m va' ≠ f := by grind [fresh.held, x.unused]
  have same := x.frame_other other
  refine ⟨?_, ?_, ?_, ?_⟩
  · rw [x.pte_other other]
    exact fresh.mapped
  · rw [same]
    exact fresh.unused
  · rw [same]
    exact x.used_of fresh.held
  · intro k
    rw [same, x.mapped.data _ _ _, take_mem_ne t differs]
    · exact fresh.zero k
    · change update t.used f true _ = true
      rw [update_of_ne differs]
      exact fresh.held
    · intro ks short at_
      rw [nodes ks (by omega)] at at_
      have path := x.before.same_node (Nat.le_of_eq (length_pagePath va')) (by omega) there at_
      rw [path, length_pagePath] at short
      omega

end

end Next

theorem forall_lt_snoc (P : Nat → Prop) (va i : Nat) :
    (∀ j < i + 1, P (nth va j)) ↔ (∀ j < i, P (nth va j)) ∧ P (nth va i) := by
  constructor
  · grind
  · grind

theorem Lent.step (g : Stage s t m va i) (bound : va + (i + 1) * PAGE_SIZE ≤ 2 ^ 48)
    (x : Next t u m (nth va i) f) (lent : Lent s t m va i) (none : needed s m va i = 0) :
    Lent s u m va (i + 1) := by
  obtain ⟨tables, nodes, loose⟩ := take_tables x.before x.pool x.unused
  have three : (tablePath (nth va i)).length ≤ 3 := Nat.le_of_eq (length_tablePath _)
  have need_ := g.need_eq.trans none
  have explicit := x.plain need_
  have bottom : node (take t f) m (tablePath (nth va i)) ≠ 0 := by
    rw [nodes _ (by omega)]
    intro absent
    have last : 3 ∈ (List.range 4).filter
        (fun n => node t m ((tablePath (nth va i)).take n) = 0) :=
      mem_filter.mpr ⟨mem_range.mpr (by decide), decide_eq_true absent⟩
    rw [need_eq_length, length_eq_zero_iff] at need_
    rw [need_] at last
    exact absurd last not_mem_nil
  have apart : ∀ j < i, pagePath (nth va j) ≠ pagePath (nth va i) := by grind [pagePath_nth_ne]
  have upper : ∀ ks, ks.length ≤ 3 → node u m ks = node s m ks := by
    intro ks short
    by_cases absent : node t m ks = 0
    · rw [← lent.upper ks short, absent]
      apply (x.mapped.absent ks short).mpr
      refine ⟨(nodes ks (by omega)).trans absent, ?_⟩
      rintro ⟨rest, path⟩
      rw [← path, nodes _ (by rw [path]; omega), node_append_zero absent] at bottom
      exact bottom rfl
    · grind [x.mapped.kept, lent.upper]
  refine ⟨?_, ?_, upper, ?_⟩
  · rw [explicit]
    change update t.mm m { t.mm m with
      userPagesCount := (t.mm m).userPagesCount + 1 } = _
    rw [lent.mm, update_idem, update_self]
    congr 1
    dsimp only
    congr 1
    push_cast
    omega
  · intro h
    have here : u.used h = true ↔ t.used h = true ∨ h = f := by
      rw [explicit]
      change update t.used f true h = true ↔ _
      by_cases same : h = f
      · simp [same]
      · simp [same]
    rw [here, lent.used]
    constructor
    · grind [x.frame_other, x.frame_self.symm]
    · grind [x.frame_other, x.frame_self]
  · intro h k old other
    obtain ⟨before, last⟩ := (forall_lt_snoc (fun va' => h = node s m (tablePath va') →
      k ≠ tableIndex va' PAGE_SHIFT) va i).mp other
    have differs : h ≠ f := by grind [g.used, x.unused]
    rw [explicit, ← lent.mem h k old before, ← take_mem_ne t differs]
    apply setPte_mem_ne (take t f) m (nth va i) (entry f heapPerm)
    by_cases same : h = node (take t f) m (tablePath (nth va i))
    · grind [lent.upper]
    · exact .inl same

theorem Stage.step (g : Stage s t m va i) (bound : va + (i + 1) * PAGE_SIZE ≤ 2 ^ 48)
    (x : Next t u m (nth va i) f) : Stage s u m va (i + 1) := by
  obtain ⟨tables, nodes, loose⟩ := take_tables x.before x.pool x.unused
  have apart : ∀ j < i, pagePath (nth va j) ≠ pagePath (nth va i) := by grind [pagePath_nth_ne]
  have need_ : need (take t f) m (nth va i) = needed s m va i :=
    (need_congr nodes (nth va i)).trans g.need_eq
  have fewer := free_take x.pool x.unused
  have left := x.mapped.free
  have first := g.free
  have count : taken s m va (i + 1) = taken s m va i + needed s m va i := rfl
  rw [need_] at left
  refine ⟨x.mapped.tables, x.mapped.low.trans g.low, x.mapped.pages.trans g.pages, ?_, ?_, ?_, ?_,
    ?_, ?_, ?_, ?_, ?_, ?_, ?_, ?_, ?_⟩
  · grind [x.pte_other, g.old]
  · apply (forall_lt_snoc (fun y => FreshPage s u m y) va i).mpr
    refine ⟨fun j small => x.fresh_other (apart j small) (g.new j small), ?_⟩
    have here := x.fresh_self
    refine { here with unused := ?_ }
    rw [Bool.eq_false_iff]
    intro old
    have still := g.used _ old
    rw [here.unused] at still
    cases still
  · grind [x.mapped.absent, g.absent]
  · grind [g.kept, x.mapped.kept]
  · intro k differs
    exact (x.mapped.others k differs).trans (g.others k differs)
  · exact x.mapped.sz.trans g.sz
  · exact x.mapped.codesz.trans g.codesz
  · rw [x.mapped.userPagesCount]
    change (t.mm m).userPagesCount + 1 = _
    rw [g.userPagesCount]
    push_cast
    omega
  · rw [x.mapped.kernelPagesCount, need_]
    change (t.mm m).kernelPagesCount + _ = _
    rw [g.kernelPagesCount, count]
    omega
  · intro h old
    exact x.used_of (g.used h old)
  · rw [count]
    omega
  · rw [x.mapped.pagesUsed, need_]
    change t.pagesUsed + 1 + _ = _
    rw [g.pagesUsed, count]
    push_cast
    omega
  · intro none
    exact Lent.step g bound x (g.lent (by omega)) (by omega)

end Step

structure Failed (s u : VmState) (m va k : Nat) : Prop where
  first : ∀ j < k, Affords s m va j
  short : ¬ Affords s m va k
  cases : ∃ w, Stage s w m va k ∧
    ((RunsOut s m va k ∧ AsBefore w u) ∨ (¬ RunsOut s m va k ∧ Shape u m ∧ Trace w u m))

theorem growPages_cases {s t : VmState} {m va i n : Nat} (g : Stage s t m va i)
    (bound : va + (i + n) * PAGE_SIZE ≤ 2 ^ 48) (first : ∀ j < i, Affords s m va j) :
    (∃ u, growPages m n (nth va i) t = .ok (none, u) ∧ Stage s u m va (i + n) ∧
      ∀ j < i + n, Affords s m va j) ∨
    ∃ k u, k < i + n ∧ growPages m n (nth va i) t = .ok (some (nth va k), u) ∧
      Failed s u m va k := by
  induction n generalizing t i with
  | zero => exact .inl ⟨t, rfl, g, first⟩
  | succ n ih =>
    have shift : i + (n + 1) = i + 1 + n := by omega
    have follow : nth va i + PAGE_SIZE = nth va (i + 1) := by
      unfold nth
      rw [Nat.succ_mul]
      omega
    obtain ⟨r, u, ran, outcome⟩ := allocateUserPageMm_spec (nth va i) g.tables heapPerm_low
    rw [g.hasPage_iff, g.noPage_iff] at outcome
    have enter : growPages m (n + 1) (nth va i) t =
        (if r = 0 then pure (some (nth va i)) else growPages m n (nth va (i + 1))) u := by
      change (allocateUserPageMm m (nth va i) heapPerm >>= _) t = _
      rw [run_bind ran, follow]
    rw [enter]
    rcases outcome with ⟨nz, room, f, pool, unused, mapped, plain⟩ | ⟨rfl, out, same⟩ |
      ⟨rfl, short, more, shape, trace⟩
    · have within := Nat.mul_le_mul_right PAGE_SIZE (show i + 1 ≤ i + (n + 1) by omega)
      have next : Stage s u m va (i + 1) :=
        g.step (by omega) ⟨g.tables, pool, unused, mapped, plain⟩
      have first' : ∀ j < i + 1, Affords s m va j := by grind
      rw [if_neg nz, shift]
      exact ih next (shift ▸ bound) first'
    · refine .inr ⟨i, u, by omega, rfl, first, ?_, t, g, .inl ⟨out, same⟩⟩
      unfold Affords RunsOut at *
      omega
    · exact .inr ⟨i, u, by omega, rfl, first, short, t, g, .inr ⟨more, shape, trace⟩⟩

end UvaOs.Vm
