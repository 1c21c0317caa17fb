import UvaOs.Vm.Sbrk

/-! Every call of `growproc`, and runs of `sbrk` calls. -/
namespace UvaOs.Vm

open Prog VmState Finset

/-! All calls -/

section Calls

variable {s : VmState} {m : Nat} {incr : Int}

inductive Outcomes (s : VmState) (m : Nat) (incr : Int) : Except Halt (Option Nat × VmState) → Prop
  | rejected : Rejected s m incr → Outcomes s m incr (.ok (none, s))
  | shrunk {t : VmState} : ¬ Rejected s m incr → incr < 0 → -incr ≤ ((s.mm m).sz : Int) →
      Freed s t m (PGROUNDUP ((s.mm m).sz + incr).toNat) (shrinkCount s m incr) →
      Outcomes s m incr (.ok (some (s.mm m).sz, putSz t m ((s.mm m).sz + incr).toNat))
  | hole : ¬ Rejected s m incr → incr < 0 → -incr ≤ ((s.mm m).sz : Int) →
      (∃ j < shrinkCount s m incr,
        node s m (tablePath (nth (PGROUNDUP ((s.mm m).sz + incr).toNat) j)) = 0) →
      Outcomes s m incr (.error .bug)
  | grown {t : VmState} : ¬ Rejected s m incr → 0 ≤ incr →
      Stage s t m (PGROUNDUP (s.mm m).sz) (growCount s m incr) →
      (∀ i < growCount s m incr, Affords s m (PGROUNDUP (s.mm m).sz) i) →
      Outcomes s m incr (.ok (some (s.mm m).sz, putSz t m ((s.mm m).sz + incr).toNat))
  | failed {t u : VmState} {k : Nat} : ¬ Rejected s m incr → 0 ≤ incr → k < growCount s m incr →
      Failed s u m (PGROUNDUP (s.mm m).sz) k → Freed u t m (PGROUNDUP (s.mm m).sz) k →
      Outcomes s m incr (.ok (none, t))
  | halted {u : VmState} {k : Nat} : ¬ Rejected s m incr → 0 ≤ incr → k < growCount s m incr →
      Failed s u m (PGROUNDUP (s.mm m).sz) k →
      (∃ j < k, node u m (tablePath (nth (PGROUNDUP (s.mm m).sz) j)) = 0) →
      Outcomes s m incr (.error .bug)

theorem Failed.shape {u : VmState} {va k : Nat} (failed : Failed s u m va k) : Shape u m := by
  obtain ⟨w, g, ⟨-, same⟩ | ⟨-, shape, -⟩⟩ := failed.cases
  · exact (same.tables g.tables).toShape
  · exact shape

theorem growproc_outcomes (h : Tables s m) (below : (s.mm m).sz ≤ STACK_BASE) (incr : Int) :
    Outcomes s m incr (growproc m incr s) := by
  by_cases rejected : Rejected s m incr
  · have result : growproc m incr s = .ok (none, s) := by
      change (if incr < 0 ∧ ((s.mm m).sz : Int) < -incr then _
        else if incr > 0 ∧ ((s.mm m).sz : Int) + incr ≥ USER_VA_END then _
        else if incr ≥ 0 then _ else _ : VmM (Option Nat)) s = _
      by_cases low : incr < 0 ∧ ((s.mm m).sz : Int) < -incr
      · rw [if_pos low]
        rfl
      · rw [if_neg low, if_pos (rejected.resolve_left low)]
        rfl
    rw [result]
    exact .rejected rejected
  · by_cases negative : incr < 0
    · have fits : -incr ≤ ((s.mm m).sz : Int) := by
        unfold Rejected at rejected
        omega
      rcases growproc_shrink_cases h.toShape below negative fits with ⟨t, result, freed⟩ |
        ⟨result, absent⟩
      · rw [result]
        exact .shrunk rejected negative fits freed
      · rw [result]
        exact .hole rejected negative fits absent
    · have positive : 0 ≤ incr := by omega
      have bound := grow_bound below positive rejected
      have start := Stage.start h (PGROUNDUP (s.mm m).sz)
      have loop := growPages_cases (n := growCount s m incr) start
        (by rw [Nat.zero_add]; exact Nat.le_trans bound (by decide))
        (fun j none => absurd none (Nat.not_lt_zero j))
      rw [nth_zero, Nat.zero_add] at loop
      rw [growproc_grows positive rejected]
      rcases loop with ⟨t, ran, g, room⟩ | ⟨k, u, small, ran, failed⟩
      · rw [run_bind ran]
        exact .grown rejected positive g room
      · have within := Nat.mul_le_mul_right PAGE_SIZE (Nat.le_of_lt small)
        rw [run_bind ran]
        dsimp only
        rcases freeRange_cases (k := k) failed.shape (PGROUNDUP_mod (s.mm m).sz)
          (Nat.le_trans (Nat.add_le_add_left within _) bound) with ⟨t, back, freed⟩ | ⟨bug, absent⟩
        · rw [run_bind back]
          exact .failed rejected positive small failed freed
        · have result : (freeUserPageRange m (PGROUNDUP (s.mm m).sz)
              (sub64 (nth (PGROUNDUP (s.mm m).sz) k) (PGROUNDUP (s.mm m).sz)) >>= fun _ =>
              (pure none : VmM (Option Nat))) u = .error .bug := by
            simp only [bind, bug]
          rw [result]
          exact .halted rejected positive small failed absent

theorem affords_not_runsOut {va i : Nat} (room : Affords s m va i) : ¬ RunsOut s m va i := by
  unfold Affords RunsOut at *
  omega

theorem Failed.clean_iff {u : VmState} {k : Nat} (small : k < growCount s m incr)
    (failed : Failed s u m (PGROUNDUP (s.mm m).sz) k) : Fits s m incr ∨ FailsClean s m incr ↔
      taken s m (PGROUNDUP (s.mm m).sz) k = 0 ∧
        (∀ j < k, pte s m (nth (PGROUNDUP (s.mm m).sz) j) = 0) ∧
        RunsOut s m (PGROUNDUP (s.mm m).sz) k := by
  constructor
  · rintro (fits | ⟨i, inside, none, before, out⟩)
    · exact absurd (fits.2 k small) failed.short
    · grind [failed.first, failed.short, Nat.lt_trichotomy, affords_not_runsOut]
  · rintro ⟨none, unmapped, out⟩
    exact .inr ⟨k, small, none, fun j lt => ⟨unmapped j lt, failed.first j lt⟩, out⟩

theorem Stage.no_missing {u w : VmState} {va k : Nat} (g : Stage s w m va k) (same : AsBefore w u) :
    ∀ j < k, node u m (tablePath (nth va j)) ≠ 0 := by
  intro j small
  have short : (tablePath (nth va j)).length ≤ 4 := Nat.le_succ 3
  rw [same.nodes g.tables short]
  exact table_of_mapped g.tables.toShape (g.new j small).mapped

theorem failed_asBefore_iff {t u : VmState} {va k : Nat} (h : Tables s m)
    (failed : Failed s u m va k) (freed : Freed u t m va k) :
    AsBefore s t ↔ taken s m va k = 0 ∧ (∀ j < k, pte s m (nth va j) = 0) ∧ RunsOut s m va k := by
  obtain ⟨w, g, clean | ⟨more, -, trace⟩⟩ := failed.cases
  · obtain ⟨out, same⟩ := clean
    constructor
    · intro before
      have none : taken s m va k = 0 := by
        by_contra some_
        have trace := g.trace (Nat.pos_of_ne_zero some_)
        obtain ⟨ks, short, absent, present⟩ := trace
        apply before.no_trace h (freed.trace ⟨ks, short, absent, ?_⟩)
        rw [same.nodes g.tables (by omega)]
        exact present
      refine ⟨none, ?_, out⟩
      intro j small
      rw [← before.pte h, freed.gone j small]
    · rintro ⟨none, unmapped, -⟩
      exact g.undone same freed h none unmapped
  · constructor
    · intro before
      exact absurd (freed.trace (g.trace_of trace)) (before.no_trace h)
    · rintro ⟨-, -, out⟩
      exact absurd out more

theorem growproc_kept_iff (h : WellFormed s m) (incr : Int) :
    (∃ r t, growproc m incr s = .ok (r, t) ∧ Kept s t m incr r) ↔ Harmless s m incr := by
  have outcome := growproc_outcomes h.toTables h.below incr
  cases result : growproc m incr s with
  | error e =>
    rw [result] at outcome
    cases outcome with
    | hole accepted negative fits absent => grind [growproc_shrinks]
    | halted accepted positive small failed absent =>
      refine ⟨fun ⟨r, t, impossible, _⟩ => (nomatch impossible), ?_⟩
      rintro (rejected | ⟨negative, -⟩ | ⟨-, well⟩)
      · exact absurd rejected accepted
      · omega
      · obtain ⟨-, -, out⟩ := (failed.clean_iff small).mp well
        obtain ⟨w, g, clean | ⟨more, -, -⟩⟩ := failed.cases
        · obtain ⟨j, inside, none⟩ := absent
          exact absurd none (g.no_missing clean.2 j inside)
        · exact absurd out more
  | ok p =>
    obtain ⟨r, t⟩ := p
    rw [result] at outcome
    have once : (∃ r' t', (Except.ok (r, t) : Except Halt (Option Nat × VmState)) = .ok (r', t') ∧
        Kept s t' m incr r') ↔ Kept s t m incr r := by grind
    rw [once]
    unfold Harmless
    cases outcome with
    | rejected rejected => exact ⟨fun _ => .inl rejected, fun _ => AsBefore.refl s⟩
    | shrunk accepted negative fits freed =>
      rw [shrink_kept_iff h negative fits freed, or_iff_right accepted]
      constructor
      · exact fun well => .inl ⟨negative, well⟩
      · grind
    | grown accepted positive g room =>
      rw [grow_kept_iff h positive accepted g, or_iff_right accepted]
      constructor
      · exact fun fits => .inr ⟨positive, .inl ⟨fits, room⟩⟩
      · rintro (⟨negative, -⟩ | ⟨-, fits | ⟨i, small, -, -, out⟩⟩)
        · omega
        · exact fits.1
        · exact absurd out (affords_not_runsOut (room i small))
    | failed accepted positive small failed freed =>
      change AsBefore s t ↔ _
      rw [failed_asBefore_iff h.toTables failed freed, ← failed.clean_iff small,
        or_iff_right accepted]
      constructor
      · exact fun well => .inr ⟨positive, well⟩
      · grind

end Calls

/-! Runs -/

section Runs

variable {s t : VmState} {m : Nat} {incr : Int}

/- The frames of an address space: free frames, user pages and tables add up, and user
pages come and go with the heap. -/
structure Balanced (s t : VmState) (m : Nat) : Prop where
  total : (free t : Int) + (t.mm m).userPagesCount + (t.mm m).kernelPagesCount =
    free s + (s.mm m).userPagesCount + (s.mm m).kernelPagesCount
  heap : (t.mm m).userPagesCount - (PGROUNDUP (t.mm m).sz / PAGE_SIZE : Nat) =
    (s.mm m).userPagesCount - (PGROUNDUP (s.mm m).sz / PAGE_SIZE : Nat)

theorem Balanced.refl (s : VmState) (m : Nat) : Balanced s s m := ⟨rfl, rfl⟩

theorem Balanced.trans {u : VmState} (b : Balanced s t m) (c : Balanced t u m) : Balanced s u m :=
  ⟨c.total.trans b.total, c.heap.trans b.heap⟩

theorem AsBefore.balanced (same : AsBefore s t) : Balanced s t m := by
  have frames : Vm.free t = Vm.free s := by
    unfold Vm.free
    rw [same.low, same.pages, same.used]
  exact ⟨by rw [frames, same.mm], by rw [same.mm]⟩

theorem AsBefore.wellFormed (same : AsBefore s t) (h : WellFormed s m) : WellFormed t m := by
  have ptes := same.pte h.toTables
  refine ⟨same.tables h.toTables, ?_, ?_, ?_⟩
  · intro n below
    rw [ptes, same.mm]
    exact h.heap n below
  · rw [same.mm]
    exact h.below
  · grind [same.mm, h.count, pages, mappedPages]

theorem Freed.free {va n : Nat} (freed : Freed s t m va n) (h : Tables s m)
    (bound : va + n * PAGE_SIZE ≤ 2 ^ 48) (mapped : ∀ j < n, Vm.pte s m (nth va j) ≠ 0) :
    Vm.free t = Vm.free s + n := by
  have four : ∀ j, (pagePath (nth va j)).length ≤ 4 := fun j => Nat.le_of_eq (length_pagePath _)
  have there : ∀ j < n, frameAt s m (nth va j) ≠ 0 := by
    intro j small none
    exact mapped j small ((h.pte_eq_zero _).mpr none)
  have injective : Set.InjOn (fun j => frameAt s m (nth va j)) (Finset.range n : Set Nat) := by
    intro i hi j hj same
    have hi := mem_range.mp hi
    have hj := mem_range.mp hj
    by_contra differ
    exact pagePath_nth_ne bound hi hj differ (h.same_node (four j) (four i) (there j hj) same)
  have all : (Finset.Ico s.low (s.low + s.pages)).filter (fun f => t.used f = false) =
      (Finset.Ico s.low (s.low + s.pages)).filter (fun f => s.used f = false) ∪
        (Finset.range n).image (fun j => frameAt s m (nth va j)) := by
    ext f
    rw [mem_union, mem_filter, mem_filter, mem_image,
      ← Bool.not_eq_true, freed.used, ← Bool.not_eq_true]
    constructor
    · grind
    · rintro (⟨range, unused⟩ | ⟨j, member, rfl⟩)
      · exact ⟨range, fun both => unused both.1⟩
      · have small := mem_range.mp member
        refine ⟨mem_Ico.mpr (h.node_held (four j) (there j small)).1, ?_⟩
        exact fun both => both.2 j small rfl
  have disjoint : Disjoint
      ((Finset.Ico s.low (s.low + s.pages)).filter (fun f => s.used f = false))
      ((Finset.range n).image (fun j => frameAt s m (nth va j))) := by
    rw [disjoint_right]
    intro f member old
    obtain ⟨j, range, rfl⟩ := mem_image.mp member
    have unused := (mem_filter.mp old).2
    have used := (h.node_held (four j) (there j (mem_range.mp range))).2
    change s.used (frameAt s m (nth va j)) = true at used
    rw [unused] at used
    cases used
  unfold Vm.free
  rw [freed.low, freed.pages, all, card_union_of_disjoint disjoint,
    card_image_of_injOn injective, card_range]

theorem free_putSz (s : VmState) (m sz : Nat) : free (putSz s m sz) = free s := rfl

theorem putSz_kernel (s : VmState) (m sz : Nat) :
    ((putSz s m sz).mm m).kernelPagesCount = (s.mm m).kernelPagesCount := by
  unfold putSz
  rw [putMm_self]

theorem shrink_balanced (h : WellFormed s m) (negative : incr < 0)
    (fits : -incr ≤ ((s.mm m).sz : Int)) (well : ShrinksWell s m incr)
    (freed : Freed s t m (PGROUNDUP ((s.mm m).sz + incr).toNat) (shrinkCount s m incr)) :
    Balanced s (putSz t m ((s.mm m).sz + incr).toNat) m := by
  have below := h.below
  rw [STACK_BASE_eq] at below
  have pages : (shrinkCount s m incr : Int) = (PGROUNDUP (s.mm m).sz / PAGE_SIZE : Nat) -
      (PGROUNDUP ((s.mm m).sz + incr).toNat / PAGE_SIZE : Nat) := by
    grind [ShrinksWell, shrinkCount, pageSteps, PGROUNDUP, PGROUNDDOWN, PAGE_SIZE]
  have mapped : ∀ j < shrinkCount s m incr,
      pte s m (nth (PGROUNDUP ((s.mm m).sz + incr).toNat) j) ≠ 0 := by
    intro j inside
    apply h.heap_nth
    exact (lt_pageSteps (PGROUNDUP_mod _) (Nat.mul_mod_left _ _)).mp inside
  have bound : PGROUNDUP ((s.mm m).sz + incr).toNat + shrinkCount s m incr * PAGE_SIZE ≤ 2 ^ 48 := by
    have high := PGROUNDUP_lt ((s.mm m).sz + incr).toNat
    have down := PGROUNDDOWN_le (s.mm m).sz
    unfold shrinkCount pageSteps
    simp only [PAGE_SIZE] at *
    omega
  have frames := freed.free h.toTables bound mapped
  constructor
  · rw [free_putSz, putSz_count, putSz_kernel, frames, freed.mm, Function.update_self]
    push_cast
    omega
  · rw [putSz_count, putSz_sz, freed.mm, Function.update_self]
    dsimp only
    omega

theorem grow_balanced (positive : 0 ≤ incr)
    (g : Stage s t m (PGROUNDUP (s.mm m).sz) (growCount s m incr)) :
    Balanced s (putSz t m ((s.mm m).sz + incr).toNat) m := by
  have pages := growCount_pages (s := s) (m := m) positive
  have frames := g.free
  constructor
  · rw [free_putSz, putSz_count, putSz_kernel, g.userPagesCount, g.kernelPagesCount]
    push_cast
    omega
  · rw [putSz_count, putSz_sz, g.userPagesCount]
    omega

theorem growproc_step (h : WellFormed s m) (harmless : Harmless s m incr) {r : Option Nat}
    (ran : growproc m incr s = .ok (r, t)) : WellFormed t m ∧ Balanced s t m := by
  obtain ⟨r', t', ran', kept⟩ := (growproc_kept_iff h incr).mpr harmless
  rw [ran] at ran'
  cases ran'
  have outcome := growproc_outcomes h.toTables h.below incr
  rw [ran] at outcome
  cases outcome with
  | rejected _ => exact ⟨h, Balanced.refl s m⟩
  | shrunk accepted negative fits freed =>
    have well := (shrink_kept_iff h negative fits freed).mp kept
    exact ⟨kept.2.2.1, shrink_balanced h negative fits well freed⟩
  | grown accepted positive g room => exact ⟨kept.2.2.1, grow_balanced positive g⟩
  | failed accepted positive small failed freed =>
    have same : AsBefore s t := kept
    exact ⟨same.wellFormed h, same.balanced⟩

/-- A call of `sbrk` that `growproc` carries out without harm. -/
def SbrkStep (m : Nat) (s t : VmState) : Prop :=
  ∃ sp incr r, Harmless s m incr ∧ sysSbrk m sp incr s = .ok (r, t)

theorem SbrkStep.keeps (h : WellFormed s m) (step : SbrkStep m s t) :
    WellFormed t m ∧ Balanced s t m := by
  obtain ⟨sp, incr, r, harmless, ran⟩ := step
  change (if incr < 0 ∧ (((s.mm m).sz : Int) + incr) % 2 ^ 64 < (s.mm m).codesz then pure none
    else if incr > 0 ∧ (s.mm m).sz < sp ∧ ((s.mm m).sz : Int) + incr > sub64 sp PAGE_SIZE then
      pure none
    else if incr = 0 then pure (some (s.mm m).sz) else growproc m incr : VmM _) s = _ at ran
  have same : ∀ {r'}, (pure r' : VmM (Option Nat)) s = .ok (r, t) → WellFormed t m ∧ Balanced s t m := by
    intro r' returned
    cases returned
    exact ⟨h, Balanced.refl s m⟩
  split at ran
  · exact same ran
  · grind [growproc_step]

end Runs

theorem execSpace_mapped {n : Nat} (small : n < PTRS_PER_TABLE ^ 4) :
    pte execSpace 0 (n * PAGE_SIZE) ≠ 0 ↔ n ∈ [0, 1, 0x7eff, 0x7fff] := by
  have four : (pagePath (n * PAGE_SIZE)).length ≤ 4 := Nat.le_of_eq (length_pagePath _)
  constructor
  · intro mapped
    have there : node execSpace 0 (pagePath (n * PAGE_SIZE)) ≠ 0 :=
      fun none => mapped ((execSpace_tables.pte_eq_zero _).mpr none)
    have known := execSpace_node _ four there
    have pages : ∀ p ∈ execNodes, p.1.length = 4 →
        ∃ k ∈ [0, 1, 0x7eff, 0x7fff], p.1 = pagePath (k * PAGE_SIZE) := by decide
    obtain ⟨k, member, same⟩ := pages _ known (length_pagePath _)
    have bound : ∀ k ∈ [0, 1, 0x7eff, 0x7fff], k * PAGE_SIZE < 2 ^ 48 := by decide
    have equal := pagePath_injective (by simp only [PAGE_SIZE, PTRS_PER_TABLE] at *; omega)
      (bound k member) same
    rw [Nat.mul_div_cancel _ (by decide), Nat.mul_div_cancel _ (by decide)] at equal
    rwa [equal]
  · intro member
    have all : ∀ k ∈ [0, 1, 0x7eff, 0x7fff], pte execSpace 0 (k * PAGE_SIZE) ≠ 0 := by decide
    exact all n member

theorem execSpace_wellFormed : WellFormed execSpace 0 where
  toTables := execSpace_tables
  heap n below := by
    rw [STACK_BASE_eq] at below
    have small : n < PTRS_PER_TABLE ^ 4 := by
      simp only [PAGE_SIZE, PTRS_PER_TABLE] at *
      omega
    have size : PGROUNDUP (execSpace.mm 0).sz = 0x2000 := rfl
    rw [execSpace_mapped small, size]
    simp only [List.mem_cons, List.not_mem_nil, or_false, PAGE_SIZE] at *
    omega
  below := by decide
  count := by
    have pages : mappedPages execSpace 0 = ({0, 1, 0x7eff, 0x7fff} : Finset Nat) := by
      ext n
      constructor
      · rintro ⟨small, mapped⟩
        have member := (execSpace_mapped small).mp mapped
        simpa using member
      · intro member
        have listed : n ∈ [0, 1, 0x7eff, 0x7fff] := by simpa using member
        have small : ∀ k ∈ [0, 1, 0x7eff, 0x7fff], k < PTRS_PER_TABLE ^ 4 := by decide
        exact ⟨small n listed, (execSpace_mapped (small n listed)).mpr listed⟩
    rw [pages, Set.ncard_coe_finset]
    rfl

theorem not_wellFormed_of_mapped {t : VmState} {m : Nat} (sz : (t.mm m).sz = 0x1000)
    (mapped : pte t m 0x1000 ≠ 0) : ¬ WellFormed t m := by
  intro wf
  have inside := (wf.heap 1 (by rw [STACK_BASE_eq]; decide)).mp mapped
  rw [sz] at inside
  exact absurd inside (by decide)

end UvaOs.Vm
