import UvaOs.Vm.Growproc
import UvaOs.Vm.Fault
import UvaOs.Vm.Fill

/-! The heap and the mappings above it. `sys_sbrk` compares the new break with the stack
pointer of the caller only, and `map_page` stores a pte over one that is there. -/
namespace UvaOs.Vm

open Prog VmState

/-- No page is mapped between the break and the guard page, which is there. -/
structure Built (s : VmState) (m : Nat) : Prop extends Tables s m where
  below : (s.mm m).sz ≤ STACK_BASE
  guard : pte s m STACK_BASE ≠ 0
  gap : ∀ n, n * PAGE_SIZE < STACK_BASE → pte s m (n * PAGE_SIZE) ≠ 0 →
    n * PAGE_SIZE < PGROUNDUP (s.mm m).sz

/-- What `exec` leaves: its break is at a page boundary. There may be holes below it. -/
structure ExecBuilt (m : Nat) (s : VmState) : Prop extends Built s m where
  boundary : (s.mm m).sz % PAGE_SIZE = 0

def KeepsMappings (s t : VmState) (m : Nat) : Prop :=
  ∀ va, pte s m va ≠ 0 → pte t m va = pte s m va

/-- What the tasks of an address space do to it: `sbrk`, with the stack pointer anywhere, and
faults on the stack. `P` and `Q` say which calls and which faults are considered. -/
inductive HeapStep (m : Nat) (P : VmState → Int → Prop) (Q : VmState → Nat → Prop) :
    VmState → VmState → Prop
  | sbrk {s t : VmState} {sp : Nat} {incr : Int} {r : Option Nat} : P s incr →
      sysSbrk m sp incr s = .ok (r, t) → HeapStep m P Q s t
  | fault {s t : Fault.AbortState} {i addr : Nat} {esr : BitVec 64} : s.mm i = m →
      Fault.InStack addr → Q s.vm addr → Fault.doMemAbort s i addr esr = .ok t →
      HeapStep m P Q s.vm t.vm

/-- There is memory for the page and its tables, or none at all. -/
def Served (m : Nat) (s : VmState) (addr : Nat) : Prop :=
  HasPage s m (PGROUNDDOWN addr) ∨ free s = 0

/-! One call -/

section Call

variable {s t u : VmState} {m sp : Nat} {incr : Int} {old : Nat}

theorem sysSbrk_cases {r : Option Nat} (ran : sysSbrk m sp incr s = .ok (r, t)) :
    (t = s ∧ (r = none ∨ incr = 0)) ∨ growproc m incr s = .ok (r, t) := by
  change (if incr < 0 ∧ (((s.mm m).sz : Int) + incr) % 2 ^ 64 < (s.mm m).codesz then pure none
    else if incr > 0 ∧ (s.mm m).sz < sp ∧ ((s.mm m).sz : Int) + incr > sub64 sp PAGE_SIZE then
      pure none
    else if incr = 0 then pure (some (s.mm m).sz) else growproc m incr : VmM _) s = _ at ran
  split at ran
  · cases ran
    exact .inl ⟨rfl, .inl rfl⟩
  · split at ran
    · cases ran
      exact .inl ⟨rfl, .inl rfl⟩
    · split at ran
      · next zero =>
        cases ran
        exact .inl ⟨rfl, .inr zero⟩
      · exact .inr ran

theorem sysSbrk_grown (h : Tables s m) (below : (s.mm m).sz ≤ STACK_BASE) (positive : 0 < incr)
    (ran : sysSbrk m sp incr s = .ok (some old, t)) :
    ∃ u, t = putSz u m ((s.mm m).sz + incr).toNat ∧
      Stage s u m (PGROUNDUP (s.mm m).sz) (growCount s m incr) := by
  rcases sysSbrk_cases ran with ⟨-, none | zero⟩ | ran
  · cases none
  · omega
  · have outcome := growproc_outcomes h below incr
    rw [ran] at outcome
    cases outcome with
    | shrunk _ negative _ _ => omega
    | grown _ _ g _ => exact ⟨_, rfl, g⟩

theorem lt_growCount (positive : 0 ≤ incr) {j : Nat} : j < growCount s m incr ↔
      (nth (PGROUNDUP (s.mm m).sz) j : Int) < (s.mm m).sz + incr := by
  have aligned := PGROUNDUP_mod (s.mm m).sz
  unfold growCount pageSteps nth
  generalize PGROUNDUP (s.mm m).sz = a at *
  simp only [PAGE_SIZE] at *
  omega

theorem Built.apart (h : Built s m) (positive : 0 ≤ incr)
    (fits : ((s.mm m).sz : Int) + incr ≤ STACK_BASE) {va : Nat} (mapped : pte s m va ≠ 0) :
    ∀ j < growCount s m incr, pagePath va ≠ pagePath (nth (PGROUNDUP (s.mm m).sz) j) := by
  intro j small same
  have inside := (lt_growCount positive).mp small
  obtain ⟨c, whole⟩ : ∃ c, PGROUNDUP (s.mm m).sz = c * PAGE_SIZE := ⟨_, rfl⟩
  have page : nth (c * PAGE_SIZE) j = (c + j) * PAGE_SIZE := (Nat.add_mul c j PAGE_SIZE).symm
  rw [whole, page] at same inside
  rw [h.toTables.pte_congr same] at mapped
  have under := h.gap (c + j) (by omega) mapped
  rw [whole] at under
  simp only [PAGE_SIZE] at under
  omega

theorem Stage.overwrites {va i j : Nat} (g : Stage s u m va i) (h : Tables s m) (small : j < i)
    (mapped : pte s m (nth va j) ≠ 0) : pte u m (nth va j) ≠ pte s m (nth va j) := by
  intro same
  have frame := frameAt_of_pte h.toShape g.tables.toShape same
  have there : node s m (pagePath (nth va j)) ≠ 0 :=
    fun none => mapped ((h.pte_eq_zero _).mpr none)
  have held := (h.node_held (Nat.le_of_eq (length_pagePath _)) there).2
  have unused := (g.new j small).unused
  rw [frame] at unused
  change s.used (node s m (pagePath (nth va j))) = false at unused
  rw [held] at unused
  cases unused

/-- A growing call leaves every mapping alone exactly when the new break is not above the
guard page. -/
theorem keepsMappings_iff (h : Built s m) (positive : 0 < incr)
    (ran : sysSbrk m sp incr s = .ok (some old, t)) :
    KeepsMappings s t m ↔ ((s.mm m).sz : Int) + incr ≤ STACK_BASE := by
  obtain ⟨u, rfl, g⟩ := sysSbrk_grown h.toTables h.below positive ran
  constructor
  · intro keeps
    by_contra past
    have up := PGROUNDUP_lt (s.mm m).sz
    have aligned := PGROUNDUP_mod (s.mm m).sz
    have below := h.below
    have base := STACK_BASE_eq
    -- the guard page is one of the pages that are mapped
    obtain ⟨j, at_⟩ : ∃ j, nth (PGROUNDUP (s.mm m).sz) j = STACK_BASE := by
      refine ⟨(STACK_BASE - PGROUNDUP (s.mm m).sz) / PAGE_SIZE, ?_⟩
      unfold nth
      generalize PGROUNDUP (s.mm m).sz = a at *
      simp only [PAGE_SIZE] at *
      omega
    have small : j < growCount s m incr := by
      rw [lt_growCount (by omega), at_]
      omega
    have guard := h.guard
    rw [← at_] at guard
    have kept := keeps _ guard
    rw [putSz_pte _ g.tables.toShape] at kept
    exact g.overwrites h.toTables small guard kept
  · intro fits va mapped
    rw [putSz_pte _ g.tables.toShape]
    exact g.old va (h.apart (by omega) fits mapped)

end Call

/-! Runs -/

section Runs

variable {s t : VmState} {m : Nat} {incr : Int}

theorem Built.asBefore (h : Built s m) (same : AsBefore s t) : Built t m where
  toTables := same.tables h.toTables
  below := by
    rw [same.mm]
    exact h.below
  guard := by
    rw [same.pte h.toTables]
    exact h.guard
  gap n low mapped := by
    rw [same.pte h.toTables] at mapped
    rw [same.mm]
    exact h.gap n low mapped

theorem Built.grown {u : VmState} (h : Built s m) (positive : 0 ≤ incr)
    (fits : ((s.mm m).sz : Int) + incr ≤ STACK_BASE)
    (g : Stage s u m (PGROUNDUP (s.mm m).sz) (growCount s m incr)) :
    Built (putSz u m ((s.mm m).sz + incr).toNat) m where
  toTables := putSz_tables _ g.tables
  below := by
    rw [putSz_sz]
    omega
  guard := by
    rw [putSz_pte _ g.tables.toShape, g.old _ (h.apart positive fits h.guard)]
    exact h.guard
  gap n low mapped := by
    rw [putSz_pte _ g.tables.toShape] at mapped
    rw [putSz_sz]
    have up := le_PGROUNDUP ((s.mm m).sz + incr).toNat
    by_cases new : ∃ j < growCount s m incr,
        pagePath (n * PAGE_SIZE) = pagePath (nth (PGROUNDUP (s.mm m).sz) j)
    · obtain ⟨j, small, same⟩ := new
      have inside := (lt_growCount positive).mp small
      have base := STACK_BASE_eq
      have page := pagePath_injective (show n * PAGE_SIZE < 2 ^ 48 by omega)
        (show nth (PGROUNDUP (s.mm m).sz) j < 2 ^ 48 by omega) same
      have aligned := PGROUNDUP_mod (s.mm m).sz
      unfold nth at page inside
      generalize PGROUNDUP (s.mm m).sz = a at *
      simp only [PAGE_SIZE] at *
      omega
    · push Not at new
      rw [g.old _ new] at mapped
      have before := h.gap n low mapped
      have mono : PGROUNDUP (s.mm m).sz ≤ PGROUNDUP ((s.mm m).sz + incr).toNat := by
        unfold PGROUNDUP
        simp only [PAGE_SIZE]
        omega
      omega

theorem Built.shrunk {u : VmState} (h : Built s m) (negative : incr < 0)
    (well : ShrinksWell s m incr)
    (freed : Freed s u m (PGROUNDUP ((s.mm m).sz + incr).toNat) (shrinkCount s m incr)) :
    Built (putSz u m ((s.mm m).sz + incr).toNat) m := by
  have below := h.below
  have base := STACK_BASE_eq
  have range : ∀ j, j < shrinkCount s m incr ↔
      nth (PGROUNDUP ((s.mm m).sz + incr).toNat) j < PGROUNDDOWN (s.mm m).sz :=
    fun j => lt_pageSteps (PGROUNDUP_mod _) (Nat.mul_mod_left _ _)
  have down := PGROUNDDOWN_le (s.mm m).sz
  -- a page keeps its pte unless it is one of those in the range
  have outside : ∀ n, n * PAGE_SIZE ≤ STACK_BASE →
      (n * PAGE_SIZE < PGROUNDUP ((s.mm m).sz + incr).toNat ∨
        PGROUNDDOWN (s.mm m).sz ≤ n * PAGE_SIZE) →
      pte u m (n * PAGE_SIZE) = pte s m (n * PAGE_SIZE) := by
    intro n low away
    apply freed.pte
    intro j small same
    have inside := (range j).mp small
    have page := pagePath_injective (show n * PAGE_SIZE < 2 ^ 48 by omega)
      (show nth _ j < 2 ^ 48 by omega) same
    have aligned := PGROUNDUP_mod ((s.mm m).sz + incr).toNat
    unfold nth at page inside
    generalize PGROUNDUP ((s.mm m).sz + incr).toNat = a at *
    generalize PGROUNDDOWN (s.mm m).sz = b at *
    simp only [PAGE_SIZE] at *
    omega
  refine ⟨putSz_tables _ (freed.tables h.toTables), ?_, ?_, ?_⟩
  · rw [putSz_sz]
    omega
  · have guard := outside 0x7eff (by decide) (.inr (Nat.le_trans down below))
    rw [putSz_pte _ freed.shape]
    change pte u m (0x7eff * PAGE_SIZE) ≠ 0
    rw [guard]
    exact h.guard
  · intro n low mapped
    rw [putSz_pte _ freed.shape] at mapped
    rw [putSz_sz]
    by_contra high
    have gone : ¬ (PGROUNDUP ((s.mm m).sz + incr).toNat ≤ n * PAGE_SIZE ∧
        n * PAGE_SIZE < PGROUNDDOWN (s.mm m).sz) := by
      rintro ⟨lo, hi⟩
      obtain ⟨c, whole⟩ : ∃ c, PGROUNDUP ((s.mm m).sz + incr).toNat = c * PAGE_SIZE := ⟨_, rfl⟩
      have page : nth (PGROUNDUP ((s.mm m).sz + incr).toNat) (n - c) = n * PAGE_SIZE := by
        grind [nth, PAGE_SIZE]
      have zero := freed.gone (n - c) ((range _).mpr (page.symm ▸ hi))
      rw [page] at zero
      exact mapped zero
    rw [outside n (by omega) (by omega)] at mapped
    have before := h.gap n low mapped
    unfold ShrinksWell at well
    unfold PGROUNDUP PGROUNDDOWN at *
    simp only [PAGE_SIZE] at *
    omega

theorem Built.sbrk {sp : Nat} {r : Option Nat} (h : Built s m) (harmless : Harmless s m incr)
    (ran : sysSbrk m sp incr s = .ok (r, t)) : Built t m := by
  rcases sysSbrk_cases ran with ⟨rfl, -⟩ | ran
  · exact h
  have outcome := growproc_outcomes h.toTables h.below incr
  rw [ran] at outcome
  cases outcome with
  | rejected _ => exact h
  | shrunk accepted negative _ freed =>
    rcases harmless with rejected | ⟨-, well⟩ | ⟨positive, -⟩
    · exact absurd rejected accepted
    · exact h.shrunk negative well freed
    · omega
  | grown accepted positive g room =>
    rcases harmless with rejected | ⟨negative, -⟩ | ⟨-, fits | ⟨i, small, -, -, out⟩⟩
    · exact absurd rejected accepted
    · omega
    · exact h.grown positive fits.1 g
    · exact absurd out (affords_not_runsOut (room i small))
  | failed accepted positive small failed freed =>
    rcases harmless with rejected | ⟨negative, -⟩ | ⟨-, well⟩
    · exact absurd rejected accepted
    · omega
    · exact h.asBefore ((failed_asBefore_iff h.toTables failed freed).mpr
        ((failed.clean_iff small).mp well))

theorem Built.stack {f addr : Nat} (h : Built s m) (pool : InPool s f) (unused : s.used f = false)
    (stack : Fault.InStack addr)
    (mapped : MappedNew (take s f) t m (PGROUNDDOWN addr) (entry f Fault.demandPerm)) :
    Built t m := by
  have base := STACK_BASE_eq
  have above : ∀ n, n * PAGE_SIZE ≤ STACK_BASE →
      pte t m (n * PAGE_SIZE) = pte s m (n * PAGE_SIZE) := by
    intro n low
    rw [mapped.pte, if_neg, take_pte h.toTables pool unused]
    intro same
    obtain ⟨lo, hi⟩ := stack
    have down := PGROUNDDOWN_le addr
    have page := pagePath_injective (show n * PAGE_SIZE < 2 ^ 48 by omega)
      (show PGROUNDDOWN addr < 2 ^ 48 by simp only [USER_VA_END] at hi; omega) same
    unfold PGROUNDDOWN at page
    simp only [PAGE_SIZE, USER_VA_END, USER_MAX_STACK] at *
    omega
  have sz : (t.mm m).sz = (s.mm m).sz := mapped.sz
  refine ⟨mapped.tables, by rw [sz]; exact h.below, ?_, ?_⟩
  · have guard := above 0x7eff (by decide)
    change pte t m (0x7eff * PAGE_SIZE) ≠ 0
    rw [guard]
    exact h.guard
  · intro n low there
    rw [above n (Nat.le_of_lt low)] at there
    rw [sz]
    exact h.gap n low there

theorem Built.fault {s t : Fault.AbortState} {i addr : Nat} {esr : BitVec 64}
    (h : Built s.vm (s.mm i)) (stack : Fault.InStack addr) (served : Served (s.mm i) s.vm addr)
    (ran : Fault.doMemAbort s i addr esr = .ok t) : Built t.vm (s.mm i) := by
  by_cases quiet : addr > USER_VA_END ∨ ¬ Fault.Translation esr ∨ free s.vm = 0
  · rw [Fault.doMemAbort_quiet quiet] at ran
    cases ran
    exact h
  · push Not at quiet
    obtain ⟨f, vm, pool, unused, demand, ran'⟩ :=
      Fault.doMemAbort_demand h.toTables quiet.1 quiet.2.1 quiet.2.2
    rw [ran'] at ran
    cases ran
    cases demand with
    | mapped room mapped =>
      have kept := h.stack pool unused stack mapped
      split <;> exact kept
    | lost none same held => exact absurd (served.resolve_right quiet.2.2) none

theorem Built.step (h : Built s m) (step : HeapStep m (Harmless · m) (Served m) s t) :
    Built t m := by
  cases step with
  | sbrk harmless ran => exact h.sbrk harmless ran
  | fault own stack served ran =>
    subst own
    exact h.fault stack served ran

end Runs

/-- In every run of harmless `sbrk` calls and faults on the stack, the next call that makes the
heap grow leaves all mappings alone and its break at or below the guard page exactly when it
asks for no more than that. -/
theorem sbrk_maps_unmapped {s t : VmState} {m sp old : Nat} {incr : Int}
    (reached : Reach (ExecBuilt m) (HeapStep m (Harmless · m) (Served m)) s) (positive : 0 < incr)
    (ran : sysSbrk m sp incr s = .ok (some old, t)) :
    (KeepsMappings s t m ↔ ((s.mm m).sz : Int) + incr ≤ STACK_BASE) ∧
      ((t.mm m).sz ≤ STACK_BASE ↔ ((s.mm m).sz : Int) + incr ≤ STACK_BASE) := by
  have h : Built s m := Reach.invariant (Built · m) (fun _ start => start.toBuilt)
    (fun _ _ built step => built.step step) reached
  refine ⟨keepsMappings_iff h positive ran, ?_⟩
  obtain ⟨u, rfl, -⟩ := sysSbrk_grown h.toTables h.below positive ran
  rw [putSz_sz]
  omega

theorem execSpace_built {sz : Nat} (low : 0x2000 ≤ sz) (high : sz ≤ STACK_BASE)
    (boundary : sz % PAGE_SIZE = 0) : ExecBuilt 0 (putSz execSpace 0 sz) := by
  refine ⟨⟨putSz_tables _ execSpace_tables, ?_, ?_, ?_⟩, ?_⟩
  · rwa [putSz_sz]
  · rw [putSz_pte _ execSpace_tables.toShape]
    decide
  · intro n below mapped
    rw [putSz_pte _ execSpace_tables.toShape] at mapped
    rw [STACK_BASE_eq] at below
    have listed := (execSpace_mapped (by
      simp only [PAGE_SIZE, PTRS_PER_TABLE] at *
      omega)).mp mapped
    have up := le_PGROUNDUP sz
    rw [putSz_sz]
    simp only [List.mem_cons, List.not_mem_nil, or_false, PAGE_SIZE] at *
    omega
  · rwa [putSz_sz]

/- The call returns the old break `old` and comes to a state with `p`. -/
def yields (r : Except Halt (Option Nat × VmState)) (old : Nat) (p : VmState → Bool) : Bool :=
  match r with
  | .ok (some o, t) => decide (o = old) && p t
  | _ => false

theorem yields_ok {r : Except Halt (Option Nat × VmState)} {o : Nat} {p : VmState → Bool}
    (h : yields r o p = true) : ∃ t, r = .ok (some o, t) ∧ p t = true := by
  unfold yields at h
  split at h
  · grind
  · cases h

theorem execSpace_apart :
    ∃ t, sysSbrk 0 (USER_VA_END - 16) 0x1000 (putSz execSpace 0 0x2000) = .ok (some 0x2000, t) ∧
      KeepsMappings (putSz execSpace 0 0x2000) t 0 ∧ (t.mm 0).sz ≤ STACK_BASE := by
  have built := execSpace_built (Nat.le_refl 0x2000) (by decide) (by decide)
  obtain ⟨t, ran, -⟩ := yields_ok (p := fun _ => true) (o := 0x2000)
    (r := sysSbrk 0 (USER_VA_END - 16) 0x1000 (putSz execSpace 0 0x2000)) (by decide +kernel)
  obtain ⟨keeps, below⟩ := sbrk_maps_unmapped (.start built) (by decide) ran
  have room : (((putSz execSpace 0 0x2000).mm 0).sz : Int) + 0x1000 ≤ STACK_BASE := by decide
  exact ⟨t, ran, keeps.mpr room, below.mpr room⟩

/- With its stack pointer at the top of the stack, a task has its heap grow over the guard page.
After two calls that take back half a page each, the page that was left mapped is overwritten. -/
theorem sbrk_overwrites : (∃ s t, ExecBuilt 0 s ∧
      sysSbrk 0 (USER_VA_END - 16) 0x2000 s = .ok (some (STACK_BASE - PAGE_SIZE), t) ∧
      pte s 0 STACK_BASE ≠ 0 ∧ pte t 0 STACK_BASE ≠ pte s 0 STACK_BASE ∧ STACK_BASE < (t.mm 0).sz) ∧
    ∃ s t, Reach (ExecBuilt 0) (HeapStep 0 (fun _ _ => True) (fun _ _ => True)) s ∧
      sysSbrk 0 (USER_VA_END - 16) 0x800 s = .ok (some 0x1000, t) ∧
      pte s 0 0x1000 ≠ 0 ∧ pte t 0 0x1000 ≠ pte s 0 0x1000 := by
  constructor
  · obtain ⟨t, ran, holds⟩ := yields_ok (o := STACK_BASE - PAGE_SIZE)
      (p := fun t => decide (pte t 0 STACK_BASE ≠ pte execSpace 0 STACK_BASE ∧
        STACK_BASE < (t.mm 0).sz))
      (r := sysSbrk 0 (USER_VA_END - 16) 0x2000 (putSz execSpace 0 (STACK_BASE - PAGE_SIZE)))
      (by decide +kernel)
    obtain ⟨changed, past⟩ := of_decide_eq_true holds
    have same : pte (putSz execSpace 0 (STACK_BASE - PAGE_SIZE)) 0 STACK_BASE =
        pte execSpace 0 STACK_BASE := putSz_pte _ execSpace_tables.toShape _
    refine ⟨_, t, execSpace_built (by decide) (by decide) (by decide), ran, ?_, ?_, past⟩
    · rw [same]
      decide
    · rwa [same]
  · have built := execSpace_built (Nat.le_refl 0x2000) (by decide) (by decide)
    obtain ⟨s₁, first, more⟩ := yields_ok (o := 0x2000)
      (p := fun s => yields (sysSbrk 0 (USER_VA_END - 16) (-0x800) s) 0x1800 fun s =>
        yields (sysSbrk 0 (USER_VA_END - 16) 0x800 s) 0x1000 fun t =>
          decide (pte s 0 0x1000 ≠ 0 ∧ pte t 0 0x1000 ≠ pte s 0 0x1000))
      (r := sysSbrk 0 (USER_VA_END - 16) (-0x800) (putSz execSpace 0 0x2000)) (by decide +kernel)
    obtain ⟨s, second, last⟩ := yields_ok more
    obtain ⟨t, ran, holds⟩ := yields_ok last
    have reached : Reach (ExecBuilt 0) (HeapStep 0 (fun _ _ => True) (fun _ _ => True)) s :=
      .next (.next (.start built) (.sbrk trivial first)) (.sbrk trivial second)
    exact ⟨s, t, reached, ran, of_decide_eq_true holds⟩

end UvaOs.Vm
