import UvaOs.Vm.Heap

/-! The heap invariant of `growproc`, and the calls that keep it. -/
namespace UvaOs.Vm

open Prog VmState

/- The lowest address of the stack area, the guard page. -/
def STACK_BASE : Nat := USER_VA_END - USER_MAX_STACK - PAGE_SIZE

def mappedPages (s : VmState) (m : Nat) : Set Nat :=
  { n | n < PTRS_PER_TABLE ^ 4 ∧ pte s m (n * PAGE_SIZE) ≠ 0 }

/-- A well-formed address space: the pages mapped below the stack area are exactly those
of the heap, each with its own frame, and the count of user pages is right. -/
structure WellFormed (s : VmState) (m : Nat) : Prop extends Tables s m where
  heap : ∀ n, n * PAGE_SIZE < STACK_BASE →
    (pte s m (n * PAGE_SIZE) ≠ 0 ↔ n * PAGE_SIZE < PGROUNDUP (s.mm m).sz)
  below : (s.mm m).sz ≤ STACK_BASE
  count : (s.mm m).userPagesCount = (mappedPages s m).ncard

/-- What a call of `growproc` promises. -/
def Kept (s t : VmState) (m : Nat) (incr : Int) : Option Nat → Prop
  | some old => old = (s.mm m).sz ∧ ((t.mm m).sz : Int) = (s.mm m).sz + incr ∧ WellFormed t m ∧
    (∀ n, PGROUNDUP (s.mm m).sz ≤ n * PAGE_SIZE → n * PAGE_SIZE < PGROUNDUP (t.mm m).sz →
      FreshPage s t m (n * PAGE_SIZE)) ∧
    (∀ n, PGROUNDUP (t.mm m).sz ≤ n * PAGE_SIZE → n * PAGE_SIZE < PGROUNDUP (s.mm m).sz →
      pte t m (n * PAGE_SIZE) = 0 ∧ t.used (frameAt s m (n * PAGE_SIZE)) = false)
  | none => AsBefore s t

/-! Which calls keep the promise -/

section Harmless

variable (s : VmState) (m : Nat) (incr : Int)

def Rejected : Prop :=
  incr < 0 ∧ ((s.mm m).sz : Int) < -incr ∨ incr > 0 ∧ ((s.mm m).sz : Int) + incr ≥ USER_VA_END

def growCount : Nat := pageSteps (PGROUNDUP (s.mm m).sz) ((s.mm m).sz + incr).toNat

/- The new break is below the stack area, and there are frames for all pages and tables. -/
def Fits : Prop :=
  (s.mm m).sz + incr ≤ STACK_BASE ∧
    ∀ i < growCount s m incr, Affords s m (PGROUNDUP (s.mm m).sz) i

/- The frames run out before a table was needed and before a page that is mapped
already, and when nothing has been allocated for the page that fails. -/
def FailsClean : Prop :=
  ∃ i < growCount s m incr, taken s m (PGROUNDUP (s.mm m).sz) i = 0 ∧
    (∀ j < i, pte s m (nth (PGROUNDUP (s.mm m).sz) j) = 0 ∧
      Affords s m (PGROUNDUP (s.mm m).sz) j) ∧
    RunsOut s m (PGROUNDUP (s.mm m).sz) i

/- The old break is at a page boundary, or no page boundary is crossed. -/
def ShrinksWell : Prop :=
  (s.mm m).sz % PAGE_SIZE = 0 ∨ PGROUNDUP ((s.mm m).sz + incr).toNat = PGROUNDUP (s.mm m).sz

def Harmless : Prop :=
  Rejected s m incr ∨ incr < 0 ∧ ShrinksWell s m incr ∨
    0 ≤ incr ∧ (Fits s m incr ∨ FailsClean s m incr)

end Harmless

/-! Arithmetic of breaks -/

theorem stop_eq {a b : Nat} (ha : a < 2 ^ 64) (hb : b < 2 ^ 64) : (a + sub64 b a) % 2 ^ 64 = b := by
  unfold sub64
  omega

theorem lt_pageSteps {a b j : Nat} (ha : a % PAGE_SIZE = 0) (hb : b % PAGE_SIZE = 0) :
    j < pageSteps a b ↔ nth a j < b := by
  unfold pageSteps nth
  simp only [PAGE_SIZE] at *
  omega

theorem STACK_BASE_eq : STACK_BASE = 133165056 := rfl

/-! Freeing keeps sound tables -/

section Freed

variable {s t : VmState} {m va n : Nat}

theorem Freed.gone_node (freed : Freed s t m va n) {j : Nat} (small : j < n) :
    node t m (pagePath (nth va j)) = 0 :=
  (freed.shape.pte_eq_zero _).mp (freed.gone j small)

theorem Freed.tables (freed : Freed s t m va n) (h : Tables s m) : Tables t m := by
  refine ⟨freed.shape, freed.low ▸ h.first, freed.low ▸ freed.pages ▸ h.real, ?_⟩
  intro _ ks short there
  change node t m ks ≠ 0 at there
  change InPool t (node t m ks) ∧ t.used (node t m ks) = true
  have other : ∀ j < n, ks ≠ pagePath (nth va j) := by
    rintro j small rfl
    exact there (freed.gone_node small)
  have same := freed.nodes ks short other
  rw [same] at there ⊢
  obtain ⟨pool, held⟩ := h.node_held short there
  refine ⟨?_, (freed.used _).mpr ⟨held, ?_⟩⟩
  · unfold InPool at *
    rwa [freed.low, freed.pages]
  · intro j small at_
    have path := h.same_node short (Nat.le_of_eq (length_pagePath _)) there at_.symm
    exact other j small path.symm

end Freed

/-! Counting pages -/

theorem mappedPages_finite (s : VmState) (m : Nat) : (mappedPages s m).Finite :=
  (Set.finite_lt_nat (PTRS_PER_TABLE ^ 4)).subset (fun _ mapped => mapped.1)

theorem pagePath_page {k a j : Nat} (hk : k < PTRS_PER_TABLE ^ 4) (ha : a + j < PTRS_PER_TABLE ^ 4) :
    pagePath (k * PAGE_SIZE) = pagePath (nth (a * PAGE_SIZE) j) ↔ k = a + j := by
  have sum : nth (a * PAGE_SIZE) j = (a + j) * PAGE_SIZE := (Nat.add_mul a j PAGE_SIZE).symm
  rw [sum]
  constructor
  · intro same
    have equal := pagePath_injective (by simp only [PTRS_PER_TABLE, PAGE_SIZE] at *; omega)
      (by simp only [PTRS_PER_TABLE, PAGE_SIZE] at *; omega) same
    rwa [Nat.mul_div_cancel _ (by decide), Nat.mul_div_cancel _ (by decide)] at equal
  · rintro rfl
    rfl

theorem apart_of_outside {k a n : Nat} (hk : k < PTRS_PER_TABLE ^ 4) (ha : a + n ≤ PTRS_PER_TABLE ^ 4)
    (outside : k ∉ Set.Ico a (a + n)) :
    ∀ j < n, pagePath (k * PAGE_SIZE) ≠ pagePath (nth (a * PAGE_SIZE) j) := by
  intro j small same
  have equal := (pagePath_page hk (by omega)).mp same
  exact outside ⟨by omega, by omega⟩

theorem ncard_Ico (a n : Nat) : (Set.Ico a (a + n)).ncard = n := by
  rw [Set.ncard_eq_toFinset_card', Set.toFinset_Ico, Nat.card_Ico]
  omega

section Count

variable {s t : VmState} {m a n : Nat}

theorem Freed.count (freed : Freed s t m (a * PAGE_SIZE) n) (top : a + n ≤ PTRS_PER_TABLE ^ 4)
    (mapped : ∀ j < n, Vm.pte s m (nth (a * PAGE_SIZE) j) ≠ 0) :
    ((mappedPages t m).ncard : Int) = (mappedPages s m).ncard - n := by
  have sub : Set.Ico a (a + n) ⊆ mappedPages s m := by
    rintro k ⟨lo, hi⟩
    refine ⟨by omega, ?_⟩
    have here := mapped (k - a) (by omega)
    unfold nth at here
    rwa [← Nat.add_mul, Nat.add_sub_cancel' lo] at here
  have rest : mappedPages t m = mappedPages s m \ Set.Ico a (a + n) := by
    ext k
    by_cases inside : k ∈ Set.Ico a (a + n)
    · have gone := freed.gone (k - a) (by have := inside.1; have := inside.2; omega)
      unfold nth at gone
      rw [← Nat.add_mul, Nat.add_sub_cancel' inside.1] at gone
      exact ⟨fun still => absurd gone still.2, fun out => absurd inside out.2⟩
    · constructor
      · rintro ⟨small, still⟩
        rw [freed.pte _ (apart_of_outside small top inside)] at still
        exact ⟨⟨small, still⟩, inside⟩
      · rintro ⟨⟨small, old⟩, -⟩
        refine ⟨small, ?_⟩
        rw [freed.pte _ (apart_of_outside small top inside)]
        exact old
  have fewer : (Set.Ico a (a + n)).ncard ≤ (mappedPages s m).ncard :=
    Set.ncard_le_ncard sub (mappedPages_finite s m)
  rw [rest, Set.ncard_sdiff sub (Set.finite_Ico _ _), ncard_Ico]
  rw [ncard_Ico] at fewer
  omega

theorem Stage.count (g : Stage s t m (a * PAGE_SIZE) n) (top : a + n ≤ PTRS_PER_TABLE ^ 4)
    (unmapped : ∀ j < n, pte s m (nth (a * PAGE_SIZE) j) = 0) :
    ((mappedPages t m).ncard : Int) = (mappedPages s m).ncard + n := by
  have disjoint : Disjoint (mappedPages s m) (Set.Ico a (a + n)) := by
    rw [Set.disjoint_right]
    rintro k ⟨lo, hi⟩ old
    have none := unmapped (k - a) (by omega)
    unfold nth at none
    rw [← Nat.add_mul, Nat.add_sub_cancel' lo] at none
    exact old.2 none
  have all : mappedPages t m = mappedPages s m ∪ Set.Ico a (a + n) := by
    ext k
    by_cases inside : k ∈ Set.Ico a (a + n)
    · have new := (g.new (k - a) (by have := inside.1; have := inside.2; omega)).mapped
      unfold nth at new
      rw [← Nat.add_mul, Nat.add_sub_cancel' inside.1] at new
      have small : k < PTRS_PER_TABLE ^ 4 := Nat.lt_of_lt_of_le inside.2 top
      exact ⟨fun _ => .inr inside, fun _ => ⟨small, new⟩⟩
    · constructor
      · rintro ⟨small, here⟩
        rw [g.old _ (apart_of_outside small top inside)] at here
        exact .inl ⟨small, here⟩
      · rintro (⟨small, old⟩ | new)
        · refine ⟨small, ?_⟩
          rw [g.old _ (apart_of_outside small top inside)]
          exact old
        · exact absurd new inside
  rw [all, Set.ncard_union_eq disjoint (mappedPages_finite s m) (Set.finite_Ico _ _), ncard_Ico]
  push_cast
  rfl

end Count

/-! Shrinking -/

def putSz (s : VmState) (m sz : Nat) : VmState := s.putMm m { s.mm m with sz := sz }

section PutSz

variable (s : VmState) (m sz : Nat)

theorem putSz_sz : ((putSz s m sz).mm m).sz = sz := by
  unfold putSz
  rw [putMm_self]

theorem putSz_count : ((putSz s m sz).mm m).userPagesCount = (s.mm m).userPagesCount := by
  unfold putSz
  rw [putMm_self]

theorem putSz_pgd : ((putSz s m sz).mm m).pgd = (s.mm m).pgd := by
  unfold putSz
  rw [putMm_self]

variable {s m}

theorem putSz_tables (h : Tables s m) : Tables (putSz s m sz) m :=
  h.congr_mem (putSz_pgd s m sz) (fun _ _ _ => rfl) rfl rfl (fun _ old => old)

theorem putSz_pte (h : Shape s m) (va : Nat) : pte (putSz s m sz) m va = pte s m va := by
  obtain ⟨shape, nodes⟩ := h.congr (t := putSz s m sz) rfl (putSz_pgd s m sz)
  rw [shape.pte_eq, h.pte_eq, nodes]
  rfl

theorem putSz_frameAt (h : Shape s m) (va : Nat) : frameAt (putSz s m sz) m va = frameAt s m va :=
  (h.congr (t := putSz s m sz) rfl (putSz_pgd s m sz)).2 _

theorem putSz_mappedPages (h : Shape s m) : mappedPages (putSz s m sz) m = mappedPages s m := by
  unfold mappedPages
  simp only [putSz_pte sz h]

end PutSz

section Shrink

variable {s : VmState} {m : Nat} {incr : Int}

theorem table_of_mapped (h : Shape s m) {va : Nat} (mapped : pte s m va ≠ 0) :
    node s m (tablePath va) ≠ 0 := by
  intro absent
  rw [h.pte_eq, if_pos absent] at mapped
  exact mapped rfl

def shrinkCount (s : VmState) (m : Nat) (incr : Int) : Nat :=
  pageSteps (PGROUNDUP ((s.mm m).sz + incr).toNat) (PGROUNDDOWN (s.mm m).sz)

theorem WellFormed.heap_nth (h : WellFormed s m) {a j : Nat}
    (inside : nth (a * PAGE_SIZE) j < PGROUNDDOWN (s.mm m).sz) :
    pte s m (nth (a * PAGE_SIZE) j) ≠ 0 := by
  have sum : nth (a * PAGE_SIZE) j = (a + j) * PAGE_SIZE := (Nat.add_mul a j PAGE_SIZE).symm
  have below := h.below
  have up := le_PGROUNDUP (s.mm m).sz
  have down := PGROUNDDOWN_le (s.mm m).sz
  rw [sum] at inside ⊢
  exact (h.heap (a + j) (by omega)).mpr (by omega)

theorem growproc_shrink_cases (h : Shape s m) (below : (s.mm m).sz ≤ STACK_BASE)
    (negative : incr < 0) (fits : -incr ≤ ((s.mm m).sz : Int)) : (∃ t, growproc m incr s =
        .ok (some (s.mm m).sz, putSz t m ((s.mm m).sz + incr).toNat) ∧
      Freed s t m (PGROUNDUP ((s.mm m).sz + incr).toNat) (shrinkCount s m incr)) ∨
    (growproc m incr s = .error .bug ∧ ∃ j < shrinkCount s m incr,
      node s m (tablePath (nth (PGROUNDUP ((s.mm m).sz + incr).toNat) j)) = 0) := by
  rw [STACK_BASE_eq] at below
  have small : PGROUNDUP ((s.mm m).sz + incr).toNat < 2 ^ 47 := by
    have := PGROUNDUP_lt ((s.mm m).sz + incr).toNat
    simp only [PAGE_SIZE] at this
    omega
  have down : PGROUNDDOWN (s.mm m).sz < 2 ^ 46 := by
    have := PGROUNDDOWN_le (s.mm m).sz
    omega
  have target : (PGROUNDUP ((s.mm m).sz + incr).toNat +
      sub64 (PGROUNDDOWN (s.mm m).sz) (PGROUNDUP ((s.mm m).sz + incr).toNat)) % 2 ^ 64 =
      PGROUNDDOWN (s.mm m).sz := stop_eq (by omega) (by omega)
  have aligned : ¬ (PGROUNDUP ((s.mm m).sz + incr).toNat % PAGE_SIZE ≠ 0 ∨
      sub64 (PGROUNDDOWN (s.mm m).sz) (PGROUNDUP ((s.mm m).sz + incr).toNat) % PAGE_SIZE ≠ 0) := by
    grind [PGROUNDUP_mod, PGROUNDDOWN, PAGE_SIZE, Nat.mul_mod_left, sub64]
  have bound : PGROUNDUP ((s.mm m).sz + incr).toNat + shrinkCount s m incr * PAGE_SIZE ≤ 2 ^ 48 := by
    unfold shrinkCount pageSteps
    simp only [PAGE_SIZE]
    omega
  have enter : growproc m incr s =
      (freeUserPageRange m (PGROUNDUP ((s.mm m).sz + incr).toNat)
        (sub64 (PGROUNDDOWN (s.mm m).sz) (PGROUNDUP ((s.mm m).sz + incr).toNat)) >>= fun _ =>
        modify (fun t => putSz t m ((s.mm m).sz + incr).toNat) >>= fun _ =>
          pure (some (s.mm m).sz)) s := by
    change (if incr < 0 ∧ ((s.mm m).sz : Int) < -incr then _
      else if incr > 0 ∧ ((s.mm m).sz : Int) + incr ≥ USER_VA_END then _
      else if incr ≥ 0 then _ else _ : VmM (Option Nat)) s = _
    rw [if_neg (by omega), if_neg (by omega), if_neg (by omega)]
    rfl
  have range : freeUserPageRange m (PGROUNDUP ((s.mm m).sz + incr).toNat)
      (sub64 (PGROUNDDOWN (s.mm m).sz) (PGROUNDUP ((s.mm m).sz + incr).toNat)) =
      (freeUserPages m (shrinkCount s m incr) (PGROUNDUP ((s.mm m).sz + incr).toNat) >>= fun _ =>
        pure (shrinkCount s m incr)) := by
    unfold freeUserPageRange
    rw [if_neg aligned, target]
    rfl
  rw [enter, range]
  rcases freeUserPages_cases h bound with ⟨t, ran, freed⟩ | ⟨bug, absent⟩
  · refine .inl ⟨t, ?_, freed⟩
    have whole : (freeUserPages m (shrinkCount s m incr)
        (PGROUNDUP ((s.mm m).sz + incr).toNat) >>= fun _ => pure (shrinkCount s m incr)) s =
        .ok (shrinkCount s m incr, t) := by
      rw [run_bind ran]
      rfl
    rw [run_bind whole]
    rfl
  · exact .inr ⟨run_bind_error (run_bind_error bug _) _, absent⟩

theorem growproc_shrinks (h : WellFormed s m) (negative : incr < 0)
    (fits : -incr ≤ ((s.mm m).sz : Int)) : ∃ t, growproc m incr s =
        .ok (some (s.mm m).sz, putSz t m ((s.mm m).sz + incr).toNat) ∧
      Freed s t m (PGROUNDUP ((s.mm m).sz + incr).toNat) (shrinkCount s m incr) := by
  refine (growproc_shrink_cases h.toShape h.below negative fits).resolve_right ?_
  rintro ⟨-, j, inside, absent⟩
  refine table_of_mapped h.toShape (h.heap_nth ?_) absent
  exact (lt_pageSteps (PGROUNDUP_mod _) (Nat.mul_mod_left _ _)).mp inside

theorem Freed.heap_iff {t : VmState} {a count k : Nat} (h : WellFormed s m)
    (freed : Freed s t m (a * PAGE_SIZE) count) (top : a + count ≤ PTRS_PER_TABLE ^ 4)
    (heap : k * PAGE_SIZE < STACK_BASE) : Vm.pte t m (k * PAGE_SIZE) ≠ 0 ↔
      k * PAGE_SIZE < PGROUNDUP (s.mm m).sz ∧ ¬ (a ≤ k ∧ k < a + count) := by
  have small : k < PTRS_PER_TABLE ^ 4 := by grind [STACK_BASE_eq, PAGE_SIZE, PTRS_PER_TABLE]
  by_cases inside : a ≤ k ∧ k < a + count
  · have gone := freed.gone (k - a) (by omega)
    unfold nth at gone
    rw [← Nat.add_mul, Nat.add_sub_cancel' inside.1] at gone
    exact ⟨fun still => absurd gone still, fun out => absurd inside out.2⟩
  · grind [freed.pte, h.heap, apart_of_outside]

theorem shrink_kept_iff {t : VmState} (h : WellFormed s m) (negative : incr < 0)
    (fits : -incr ≤ ((s.mm m).sz : Int))
    (freed : Freed s t m (PGROUNDUP ((s.mm m).sz + incr).toNat) (shrinkCount s m incr)) :
    Kept s (putSz t m ((s.mm m).sz + incr).toNat) m incr (some (s.mm m).sz) ↔
      ShrinksWell s m incr := by
  have below := h.below
  have base := STACK_BASE_eq
  have tables := freed.tables h.toTables
  obtain ⟨a, first⟩ : ∃ a, PGROUNDUP ((s.mm m).sz + incr).toNat = a * PAGE_SIZE := ⟨_, rfl⟩
  obtain ⟨b, last⟩ : ∃ b, PGROUNDDOWN (s.mm m).sz = b * PAGE_SIZE := ⟨_, rfl⟩
  obtain ⟨c, whole⟩ : ∃ c, PGROUNDUP (s.mm m).sz = c * PAGE_SIZE := ⟨_, rfl⟩
  have lowA := le_PGROUNDUP ((s.mm m).sz + incr).toNat
  have highA := PGROUNDUP_lt ((s.mm m).sz + incr).toNat
  have lowB := PGROUNDDOWN_le (s.mm m).sz
  have highB := lt_PGROUNDDOWN (s.mm m).sz
  have lowC := le_PGROUNDUP (s.mm m).sz
  have highC := PGROUNDUP_lt (s.mm m).sz
  have count : shrinkCount s m incr = b - a := by grind [shrinkCount, pageSteps, PAGE_SIZE]
  rw [first, count] at freed
  have top : a + (b - a) ≤ PTRS_PER_TABLE ^ 4 := by
    simp only [PAGE_SIZE, PTRS_PER_TABLE] at *
    omega
  have iff : ShrinksWell s m incr ↔ b = c ∨ a = c := by grind [ShrinksWell, PAGE_SIZE]
  have ptes := putSz_pte ((s.mm m).sz + incr).toNat tables.toShape
  have size : PGROUNDUP ((putSz t m ((s.mm m).sz + incr).toNat).mm m).sz = a * PAGE_SIZE := by
    rw [putSz_sz, first]
  rw [iff]
  constructor
  · rintro ⟨-, -, wf, -, -⟩
    by_contra bad
    -- the last page of the old heap is neither freed nor inside the new one
    have inside : b * PAGE_SIZE < STACK_BASE ∧ b < c ∧ a ≤ b := by
      simp only [PAGE_SIZE] at *
      omega
    have mapped := (freed.heap_iff h top inside.1).mpr
      ⟨by rw [whole]; exact Nat.mul_lt_mul_of_pos_right inside.2.1 (by decide), by omega⟩
    rw [← ptes] at mapped
    have within := (wf.heap b inside.1).mp mapped
    rw [size] at within
    simp only [PAGE_SIZE] at within
    omega
  · intro well
    refine ⟨rfl, by rw [putSz_sz]; omega, ⟨putSz_tables _ tables, ?_, ?_, ?_⟩, ?_, ?_⟩
    · grind [freed.heap_iff, PAGE_SIZE]
    · rw [putSz_sz]
      omega
    · have mapped : ∀ j < b - a, pte s m (nth (a * PAGE_SIZE) j) ≠ 0 := by
        intro j small
        apply h.heap_nth
        unfold nth
        rw [last]
        simp only [PAGE_SIZE]
        omega
      rw [putSz_count, putSz_mappedPages _ tables.toShape, freed.count top mapped, freed.mm,
        Function.update_self, ← h.count]
    · grind [PAGE_SIZE]
    · intro k from_ to_
      rw [size] at from_
      rw [whole] at to_
      have place : a ≤ k ∧ k < b := by
        simp only [PAGE_SIZE] at *
        omega
      have page : nth (a * PAGE_SIZE) (k - a) = k * PAGE_SIZE := by
        unfold nth
        rw [← Nat.add_mul, Nat.add_sub_cancel' place.1]
      have gone := freed.gone (k - a) (by omega)
      rw [page] at gone
      refine ⟨(ptes _).trans gone, ?_⟩
      rw [Bool.eq_false_iff]
      intro still
      have apart := ((freed.used _).mp still).2 (k - a) (by omega)
      rw [page] at apart
      exact apart rfl

end Shrink

/-! Growing -/

section Grow

variable {s : VmState} {m : Nat} {incr : Int}

theorem growproc_grows (positive : 0 ≤ incr) (accepted : ¬ Rejected s m incr) : growproc m incr s =
      (growPages m (growCount s m incr) (PGROUNDUP (s.mm m).sz) >>= fun failed =>
        match failed with
        | some va => freeUserPageRange m (PGROUNDUP (s.mm m).sz)
            (sub64 va (PGROUNDUP (s.mm m).sz)) >>= fun _ => pure none
        | none => modify (fun t => putSz t m ((s.mm m).sz + incr).toNat) >>= fun _ =>
            pure (some (s.mm m).sz)) s := by
  unfold Rejected at accepted
  change (if incr < 0 ∧ ((s.mm m).sz : Int) < -incr then _
    else if incr > 0 ∧ ((s.mm m).sz : Int) + incr ≥ USER_VA_END then _
    else if incr ≥ 0 then _ else _ : VmM (Option Nat)) s = _
  rw [if_neg (by omega), if_neg (by omega), if_pos positive]
  rfl

theorem grow_bound (below : (s.mm m).sz ≤ STACK_BASE) (positive : 0 ≤ incr)
    (accepted : ¬ Rejected s m incr) :
    PGROUNDUP (s.mm m).sz + growCount s m incr * PAGE_SIZE ≤ 2 ^ 47 := by
  have base := STACK_BASE_eq
  have high := PGROUNDUP_lt (s.mm m).sz
  have target : (s.mm m).sz + incr < 2 ^ 28 := by grind [Rejected, USER_VA_END]
  unfold growCount pageSteps
  generalize PGROUNDUP (s.mm m).sz = a at *
  simp only [PAGE_SIZE] at *
  omega

theorem WellFormed.unmapped (h : WellFormed s m) {j : Nat}
    (heap : nth (PGROUNDUP (s.mm m).sz) j < STACK_BASE) :
    pte s m (nth (PGROUNDUP (s.mm m).sz) j) = 0 := by
  obtain ⟨c, whole⟩ : ∃ c, PGROUNDUP (s.mm m).sz = c * PAGE_SIZE := ⟨_, rfl⟩
  have page : nth (c * PAGE_SIZE) j = (c + j) * PAGE_SIZE := (Nat.add_mul c j PAGE_SIZE).symm
  rw [whole, page] at heap ⊢
  by_contra mapped
  have inside := (h.heap (c + j) heap).mp mapped
  rw [whole] at inside
  simp only [PAGE_SIZE] at inside
  omega

theorem growCount_pages (positive : 0 ≤ incr) : (growCount s m incr : Int) =
      (PGROUNDUP ((s.mm m).sz + incr).toNat / PAGE_SIZE : Nat) -
        (PGROUNDUP (s.mm m).sz / PAGE_SIZE : Nat) := by
  unfold growCount pageSteps PGROUNDUP
  simp only [PAGE_SIZE]
  omega

theorem grow_kept_iff {t : VmState} (h : WellFormed s m) (positive : 0 ≤ incr)
    (accepted : ¬ Rejected s m incr)
    (g : Stage s t m (PGROUNDUP (s.mm m).sz) (growCount s m incr)) :
    Kept s (putSz t m ((s.mm m).sz + incr).toNat) m incr (some (s.mm m).sz) ↔
      (s.mm m).sz + incr ≤ STACK_BASE := by
  have below := h.below
  have base := STACK_BASE_eq
  have bound := grow_bound h.below positive accepted
  obtain ⟨c, whole⟩ : ∃ c, PGROUNDUP (s.mm m).sz = c * PAGE_SIZE := ⟨_, rfl⟩
  obtain ⟨d, target⟩ : ∃ d, PGROUNDUP ((s.mm m).sz + incr).toNat = d * PAGE_SIZE := ⟨_, rfl⟩
  have lowC := le_PGROUNDUP (s.mm m).sz
  have highC := PGROUNDUP_lt (s.mm m).sz
  have lowD := le_PGROUNDUP ((s.mm m).sz + incr).toNat
  have highD := PGROUNDUP_lt ((s.mm m).sz + incr).toNat
  have count : growCount s m incr = d - c := by grind [growCount, pageSteps, PAGE_SIZE]
  have ptes := putSz_pte ((s.mm m).sz + incr).toNat g.tables.toShape
  have size : PGROUNDUP ((putSz t m ((s.mm m).sz + incr).toNat).mm m).sz = d * PAGE_SIZE := by
    rw [putSz_sz, target]
  constructor
  · rintro ⟨-, -, wf, -, -⟩
    have inside := wf.below
    rw [putSz_sz] at inside
    omega
  · intro fits
    have unmapped : ∀ j < d - c, pte s m (nth (c * PAGE_SIZE) j) = 0 := by
      grind [h.unmapped, nth, PAGE_SIZE]
    have top : c + (d - c) ≤ PTRS_PER_TABLE ^ 4 := by
      simp only [PAGE_SIZE, PTRS_PER_TABLE] at *
      omega
    rw [whole, count] at g
    have new : ∀ k, c ≤ k → k < d → FreshPage s t m (k * PAGE_SIZE) := by
      intro k lo hi
      have fresh := g.new (k - c) (by omega)
      unfold nth at fresh
      rwa [← Nat.add_mul, Nat.add_sub_cancel' lo] at fresh
    refine ⟨rfl, by rw [putSz_sz]; omega, ⟨putSz_tables _ g.tables, ?_, ?_, ?_⟩, ?_, ?_⟩
    · intro k heap
      rw [ptes, size]
      by_cases inside : c ≤ k ∧ k < d
      · refine ⟨fun _ => Nat.mul_lt_mul_of_pos_right inside.2 (by decide), fun _ => ?_⟩
        exact (new k inside.1 inside.2).mapped
      · have small : k < PTRS_PER_TABLE ^ 4 := by
          simp only [PAGE_SIZE, PTRS_PER_TABLE] at *
          omega
        rw [g.old _ (apart_of_outside small top (by rw [Set.mem_Ico]; omega)), h.heap k heap, whole]
        simp only [PAGE_SIZE] at *
        omega
    · rw [putSz_sz]
      omega
    · rw [putSz_count, putSz_mappedPages _ g.tables.toShape, g.count top unmapped,
        g.userPagesCount, ← h.count]
    · intro k from_ to_
      rw [size] at to_
      rw [whole] at from_
      have place : c ≤ k ∧ k < d := by
        simp only [PAGE_SIZE] at *
        omega
      obtain ⟨mapped, unused, held, zero⟩ := new k place.1 place.2
      have frame := putSz_frameAt ((s.mm m).sz + incr).toNat g.tables.toShape (k * PAGE_SIZE)
      refine ⟨by rw [ptes]; exact mapped, ?_, ?_, ?_⟩
      · rw [frame]
        exact unused
      · rw [frame]
        exact held
      · rw [frame]
        exact zero
    · grind [PAGE_SIZE]

end Grow

/-! Failing to grow -/

section Reverse

variable {s t u w : VmState} {m va k : Nat}

theorem freeRange_cases (h : Shape u m) (aligned : va % PAGE_SIZE = 0)
    (bound : va + k * PAGE_SIZE ≤ 2 ^ 47) :
    (∃ t, freeUserPageRange m va (sub64 (nth va k) va) u = .ok (k, t) ∧ Freed u t m va k) ∨
      (freeUserPageRange m va (sub64 (nth va k) va) u = .error .bug ∧
        ∃ j < k, node u m (tablePath (nth va j)) = 0) := by
  have top : nth va k < 2 ^ 64 := by
    unfold nth
    omega
  have end_ : (va + sub64 (nth va k) va) % 2 ^ 64 = nth va k := stop_eq (by omega) top
  have size : ¬ (va % PAGE_SIZE ≠ 0 ∨ sub64 (nth va k) va % PAGE_SIZE ≠ 0) := by
    unfold sub64 nth
    simp only [PAGE_SIZE] at *
    omega
  have steps : pageSteps va (nth va k) = k := by
    unfold pageSteps nth
    simp only [PAGE_SIZE] at *
    omega
  unfold freeUserPageRange
  rw [if_neg size, end_, steps]
  rcases freeUserPages_cases h (Nat.le_trans bound (by decide)) with ⟨t, ran, freed⟩ | ⟨ran, absent⟩
  · left
    refine ⟨t, ?_, freed⟩
    rw [run_bind ran]
    rfl
  · right
    refine ⟨?_, absent⟩
    simp only [bind, ran]

theorem taken_pos {i : Nat} (some_ : 0 < taken s m va i) : ∃ j < i, 0 < needed s m va j := by
  induction i with
  | zero => exact absurd some_ (Nat.lt_irrefl 0)
  | succ i ih =>
    have sum : taken s m va (i + 1) = taken s m va i + needed s m va i := rfl
    by_cases earlier : 0 < taken s m va i
    · grind
    · exact ⟨i, Nat.lt_succ_self i, by omega⟩

theorem Stage.trace (g : Stage s w m va k) (some_ : 0 < taken s m va k) : Trace s w m := by
  obtain ⟨j, small, found⟩ := taken_pos some_
  unfold needed at found
  obtain ⟨n, member⟩ := List.exists_mem_of_length_pos found
  obtain ⟨range, absent⟩ := List.mem_filter.mp member
  have short : ((tablePath (nth va j)).take n).length ≤ 3 := by
    rw [List.length_take, length_tablePath]
    omega
  refine ⟨(tablePath (nth va j)).take n, short, (of_decide_eq_true absent).1, ?_⟩
  intro none
  exact ((g.absent _ short).mp none).2 j small (List.take_prefix n _)

theorem Stage.trace_of (g : Stage s w m va k) (trace : Trace w u m) : Trace s u m := by
  obtain ⟨ks, short, absent, present⟩ := trace
  exact ⟨ks, short, ((g.absent ks short).mp absent).1, present⟩

theorem Freed.trace (freed : Freed u t m va k) (trace : Trace s u m) : Trace s t m := by
  obtain ⟨ks, short, absent, present⟩ := trace
  exact ⟨ks, short, absent, by rw [freed.upper short]; exact present⟩

/-- Mapping pages without new tables and freeing them again changes nothing, if the
pages were not mapped before. -/
theorem Stage.undone (g : Stage s w m va k) (same : AsBefore w u) (freed : Freed u t m va k)
    (h : Tables s m) (none : taken s m va k = 0)
    (unmapped : ∀ j < k, pte s m (nth va j) = 0) : AsBefore s t := by
  have lent := g.lent none
  have upper : ∀ ks, ks.length ≤ 3 → node u m ks = node s m ks := by
    intro ks short
    rw [same.nodes g.tables (by omega), lent.upper ks short]
  have frames : ∀ j, frameAt u m (nth va j) = frameAt w m (nth va j) :=
    fun j => same.nodes g.tables (Nat.le_of_eq (length_pagePath _))
  refine ⟨freed.low.trans (same.low.trans g.low), freed.pages.trans (same.pages.trans g.pages),
    ?_, ?_, ?_, ?_⟩
  · funext f
    rw [Bool.eq_iff_iff, freed.used, same.used, lent.used]
    constructor
    · grind
    · intro old
      refine ⟨.inl old, ?_⟩
      rintro j small rfl
      rw [frames j, (g.new j small).unused] at old
      cases old
  · rw [freed.pagesUsed, same.pagesUsed, g.pagesUsed, none]
    simp
  · rw [freed.mm, same.mm, lent.mm, Function.update_idem, Function.update_self]
    simp
  · intro f old
    funext i
    by_cases slot : ∃ j < k, f = node s m (tablePath (nth va j)) ∧
        i = tableIndex (nth va j) PAGE_SHIFT
    · obtain ⟨j, small, rfl, rfl⟩ := slot
      have three := Nat.le_of_eq (length_tablePath (nth va j))
      have there : node s m (tablePath (nth va j)) ≠ 0 := by
        rw [← lent.upper _ three]
        exact table_of_mapped g.tables.toShape (g.new j small).mapped
      have after := freed.gone j small
      have before := unmapped j small
      rw [freed.shape.pte_eq, freed.upper three, upper _ three, if_neg there] at after
      rw [h.pte_eq, if_neg there] at before
      rw [after, before]
    · push Not at slot
      rw [freed.mem f i, same.mem f (g.used f old), lent.mem f i old slot]
      intro j small at_
      rw [upper _ (Nat.le_of_eq (length_tablePath _))] at at_
      exact slot j small at_

end Reverse

end UvaOs.Vm
