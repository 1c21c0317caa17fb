import UvaOs.Vm.Spaces

/-! Data aborts of user tasks: `do_mem_abort` of kernel/vm.c, which maps a page on demand.
The number of tries is one counter for all tasks and all addresses. -/
namespace UvaOs.Fault

open Prog Vm VmState

structure AbortState where
  vm : VmState
  ind : BitVec 32
  live : Nat → Bool
  mm : Nat → Nat
  killed : Nat → Bool

/-- Whether the syndrome says that a table or a page was missing. -/
def Translation (esr : BitVec 64) : Prop := esr &&& 0b111111#64 &&& 0b111100#64 = 0b100#64

instance (esr : BitVec 64) : Decidable (Translation esr) := inferInstanceAs (Decidable (_ = _))

def demandPerm : BitVec 64 := MMU_PTE_FLAGS ||| MM_AP_RW

namespace AbortState

def setkilled (s : AbortState) (i : Nat) : AbortState :=
  { s with killed := Function.update s.killed i true }

end AbortState

/-- The answer to a fault of task `i` at `addr`. What `map_page` returns is not looked at. -/
def doMemAbort (s : AbortState) (i addr : Nat) (esr : BitVec 64) : Except Halt AbortState :=
  if addr > USER_VA_END then .ok (s.setkilled i)
  else if Translation esr then
    match getFreePage s.vm with
    | .error h => .error h
    | .ok (page, vm) =>
      if page = 0 then .ok ({ s with vm := vm }.setkilled i)
      else
        match mapPage (s.mm i) (PGROUNDDOWN addr) page true demandPerm vm with
        | .error h => .error h
        | .ok (_, vm) =>
          let s := { s with vm := vm, ind := s.ind + 1 }
          if s.ind.toInt > 5 then .ok (s.setkilled i) else .ok s
  else .ok (s.setkilled i)

/-! What a fault should lead to -/

def InStack (addr : Nat) : Prop := USER_VA_END - USER_MAX_STACK ≤ addr ∧ addr < USER_VA_END

/-- A zero page that nobody used is at `va`, and the rest is mapped as before. -/
def FreshAt (s t : VmState) (m va : Nat) : Prop :=
  (∃ f, InPool s f ∧ s.used f = false ∧ pte t m va = entry f demandPerm ∧ ∀ j, t.mem f j = 0) ∧
    ∀ va', pagePath va' ≠ pagePath va → pte t m va' = pte s m va'

structure Answered (s t : AbortState) (i addr : Nat) (esr : BitVec 64) : Prop where
  /-- The stack grows as long as there is memory for the page and its tables. -/
  stack : Translation esr → InStack addr → need s.vm (s.mm i) (PGROUNDDOWN addr) + 1 ≤ free s.vm →
    FreshAt s.vm t.vm (s.mm i) (PGROUNDDOWN addr) ∧ t.killed i = s.killed i
  elsewhere : ¬ InStack addr →
    (∀ va, pte t.vm (s.mm i) va = pte s.vm (s.mm i) va) ∧ t.killed i = true
  /-- A page that is not mapped is not lost. -/
  kept : pte t.vm (s.mm i) (PGROUNDDOWN addr) = pte s.vm (s.mm i) (PGROUNDDOWN addr) →
    ∀ f, t.vm.used f = s.vm.used f

def Fits (s : AbortState) (i addr : Nat) (esr : BitVec 64) : Prop :=
  addr > USER_VA_END ∨ ¬ Translation esr ∨ free s.vm = 0 ∨
    (InStack addr ∧ HasPage s.vm (s.mm i) (PGROUNDDOWN addr) ∧
      ((s.ind + 1).toInt ≤ 5 ∨ s.killed i = true))

/-! One fault -/

theorem demandPerm_low : (MMU_PTE_FLAGS ||| demandPerm) &&& 0xfffff000#64 = 0 := by decide

section Abort

variable {s : AbortState} {i addr : Nat} {esr : BitVec 64}

theorem Answered.killed (why : Translation esr → InStack addr → free s.vm = 0) :
    Answered s (s.setkilled i) i addr esr where
  stack translation stack room := by
    have := why translation stack
    omega
  elsewhere _ := ⟨fun _ => rfl, Function.update_self ..⟩
  kept _ _ := rfl

theorem doMemAbort_quiet (quiet : addr > USER_VA_END ∨ ¬ Translation esr ∨ free s.vm = 0) :
    doMemAbort s i addr esr = .ok (s.setkilled i) := by
  unfold doMemAbort
  by_cases user : addr > USER_VA_END
  · rw [if_pos user]
  · rw [if_neg user]
    by_cases translation : Translation esr
    · rw [if_pos translation]
      have exhausted := (quiet.resolve_left user).resolve_left (not_not_intro translation)
      rcases getFreePage_cases s.vm with ⟨-, none⟩ | ⟨f, pool, unused, -⟩
      · simp only [none]
        rfl
      · have := free_take pool unused
        omega
    · rw [if_neg translation]

theorem roomy_take {f : Nat} (h : Tables s.vm (s.mm i)) (pool : InPool s.vm f)
    (unused : s.vm.used f = false) (va : Nat) :
    Roomy (take s.vm f) (s.mm i) va ↔ HasPage s.vm (s.mm i) va := by
  obtain ⟨-, nodes, -⟩ := take_tables h pool unused
  have fewer := free_take pool unused
  have needs : need (take s.vm f) (s.mm i) va = need s.vm (s.mm i) va := need_congr nodes va
  have mm : (take s.vm f).mm = s.vm.mm := rfl
  unfold Roomy HasPage
  rw [needs, mm]
  omega

theorem entry_ne_zero {s : VmState} {m f : Nat} {perm : BitVec 64} (h : Tables s m)
    (pool : InPool s f) (low : (MMU_PTE_FLAGS ||| perm) &&& 0xfffff000#64 = 0) :
    entry f perm ≠ 0 := by
  intro zero
  have frame := entry_frame (h.frame_lt pool) low
  rw [zero] at frame
  exact Nat.mul_ne_zero (h.frame_pos pool) (by decide) frame.symm

/-- The three ways in which a page that was taken ends up. -/
inductive Demand (s : AbortState) (i addr f : Nat) (vm : VmState) : Prop
  | mapped (room : HasPage s.vm (s.mm i) (PGROUNDDOWN addr))
      (mapped : MappedNew (take s.vm f) vm (s.mm i) (PGROUNDDOWN addr) (entry f demandPerm))
  | lost (none : ¬ HasPage s.vm (s.mm i) (PGROUNDDOWN addr))
      (same : ∀ va, pte vm (s.mm i) va = pte s.vm (s.mm i) va) (held : vm.used f = true)

theorem doMemAbort_demand (h : Tables s.vm (s.mm i)) (user : addr ≤ USER_VA_END)
    (translation : Translation esr) (some_ : free s.vm ≠ 0) :
    ∃ f vm, InPool s.vm f ∧ s.vm.used f = false ∧ Demand s i addr f vm ∧
      doMemAbort s i addr esr = .ok (if (s.ind + 1).toInt > 5 then
        { s with vm := vm, ind := s.ind + 1 }.setkilled i
        else { s with vm := vm, ind := s.ind + 1 }) := by
  rcases getFreePage_cases s.vm with ⟨none, -⟩ | ⟨f, pool, unused, taken⟩
  · exact absurd none some_
  obtain ⟨tables, nodes, loose⟩ := take_tables h pool unused
  obtain ⟨r, vm, ran, outcome⟩ := mapPage_full (PGROUNDDOWN addr) tables loose demandPerm_low
  have room := roomy_take h pool unused (PGROUNDDOWN addr)
  have page : f * PAGE_SIZE ≠ 0 := Nat.mul_ne_zero (h.frame_pos pool) (by decide)
  refine ⟨f, vm, pool, unused, ?_, ?_⟩
  · rcases outcome with ⟨-, roomy, mapped, -⟩ | ⟨-, rfl, stuck⟩ | ⟨-, cramped, -, dirty⟩
    · exact .mapped (room.mp roomy) mapped
    · refine .lost ?_ (take_pte h pool unused) loose.used
      rw [← room]
      unfold Roomy
      unfold Stuck at stuck
      omega
    · refine .lost (fun has => cramped (room.mpr has)) ?_ (by rw [dirty.used]; exact loose.used)
      intro va
      rw [dirty.pte va, take_pte h pool unused va]
  · unfold doMemAbort
    rw [if_neg (Nat.not_lt.mpr user), if_pos translation]
    simp only [taken, if_neg page, ran]
    split <;> rfl

theorem Answered.of_mapped {f : Nat} {vm : VmState} {t : AbortState} (h : Tables s.vm (s.mm i))
    (pool : InPool s.vm f) (unused : s.vm.used f = false)
    (mapped : MappedNew (take s.vm f) vm (s.mm i) (PGROUNDDOWN addr) (entry f demandPerm))
    (absent : pte s.vm (s.mm i) (PGROUNDDOWN addr) = 0) (now : t.vm = vm) (stack : InStack addr)
    (alive : t.killed i = s.killed i) : Answered s t i addr esr where
  stack _ _ _ := by
    obtain ⟨-, -, loose⟩ := take_tables h pool unused
    rw [now]
    refine ⟨⟨⟨f, pool, unused, ?_, ?_⟩, ?_⟩, alive⟩
    · rw [mapped.pte, if_pos rfl]
    · intro j
      rw [mapped.data f loose.used (fun ks short => loose.apart ks (by omega))]
      simp [take]
    · intro va' other
      rw [mapped.pte, if_neg other, take_pte h pool unused]
  elsewhere off := absurd stack off
  kept same := by
    rw [now, mapped.pte, if_pos rfl, absent] at same
    exact absurd same (entry_ne_zero h pool demandPerm_low)

theorem answered_iff (h : Tables s.vm (s.mm i))
    (absent : Translation esr → pte s.vm (s.mm i) (PGROUNDDOWN addr) = 0) :
    (∃ t, doMemAbort s i addr esr = .ok t ∧ Answered s t i addr esr) ↔ Fits s i addr esr := by
  by_cases quiet : addr > USER_VA_END ∨ ¬ Translation esr ∨ free s.vm = 0
  · refine iff_of_true ⟨s.setkilled i, doMemAbort_quiet quiet, .killed ?_⟩ ?_
    · intro translation stack
      have := stack.2
      rcases quiet with high | no | exhausted
      · omega
      · exact absurd translation no
      · exact exhausted
    · rcases quiet with high | no | exhausted
      · exact .inl high
      · exact .inr (.inl no)
      · exact .inr (.inr (.inl exhausted))
  push Not at quiet
  obtain ⟨user, translation, exhausted⟩ := quiet
  obtain ⟨f, vm, pool, unused, demand, ran⟩ := doMemAbort_demand h user translation exhausted
  have absent := absent translation
  cases demand with
  | mapped room mapped =>
    constructor
    · rintro ⟨t, run, answered⟩
      rw [ran] at run
      cases run
      have there : pte vm (s.mm i) (PGROUNDDOWN addr) = entry f demandPerm := by
        rw [mapped.pte, if_pos rfl]
      have stack : InStack addr := by
        by_contra off
        -- outside the stack the page shows
        have same := (answered.elsewhere off).1 (PGROUNDDOWN addr)
        have zero : pte vm (s.mm i) (PGROUNDDOWN addr) = 0 := by
          rw [absent] at same
          split at same <;> exact same
        exact entry_ne_zero h pool demandPerm_low (there.symm.trans zero)
      refine .inr (.inr (.inr ⟨stack, room, ?_⟩))
      by_contra late
      push Not at late
      have alive := (answered.stack translation stack room.2.1).2
      rw [if_pos late.1] at alive
      exact late.2 (alive.symm.trans (Function.update_self ..))
    · rintro (high | no | none | ⟨stack, -, mercy⟩)
      · exact absurd user (Nat.not_le.mpr high)
      · exact absurd translation no
      · exact absurd none exhausted
      · refine ⟨_, ran, .of_mapped h pool unused mapped absent ?_ stack ?_⟩
        · split <;> rfl
        · split
          · next late =>
            have already := mercy.resolve_left (by omega)
            exact (Function.update_self ..).trans already.symm
          · rfl
  | lost none same held =>
    refine iff_of_false ?_ ?_
    · rintro ⟨t, run, answered⟩
      rw [ran] at run
      cases run
      have used := answered.kept (by split <;> exact same _) f
      have kept : vm.used f = s.vm.used f := by
        split at used <;> exact used
      rw [held, unused] at kept
      cases kept
    · rintro (high | no | empty | ⟨-, room, -⟩)
      · exact absurd user (Nat.not_le.mpr high)
      · exact no translation
      · exact exhausted empty
      · exact none room

end Abort

/-! All histories -/

def Sound (s : AbortState) : Prop := Spaces s.vm (fun m => s.live m = true)

/-- A fault that the hardware can report for a user task. -/
structure Real (s : AbortState) (i addr : Nat) (esr : BitVec 64) : Prop where
  live : s.live (s.mm i) = true
  absent : Translation esr → pte s.vm (s.mm i) (PGROUNDDOWN addr) = 0

structure Start (s : AbortState) : Prop where
  ind : s.ind = 1
  sound : Sound s

/-- A fault of any task that is answered as it should be, or whatever else the kernel
does to the tasks and their address spaces. -/
inductive Step : AbortState → AbortState → Prop
  | fault {s t : AbortState} {i addr : Nat} {esr : BitVec 64} : Real s i addr esr →
      Fits s i addr esr → doMemAbort s i addr esr = .ok t → Step s t
  | other {s t : AbortState} : t.ind = s.ind → Sound t → Step s t

theorem Sound.fault {s t : AbortState} {i addr : Nat} {esr : BitVec 64} (sound : Sound s)
    (real : Real s i addr esr) (fits : Fits s i addr esr)
    (run : doMemAbort s i addr esr = .ok t) : Sound t := by
  have h := sound.tables (s.mm i) real.live
  by_cases quiet : addr > USER_VA_END ∨ ¬ Translation esr ∨ free s.vm = 0
  · rw [doMemAbort_quiet quiet] at run
    cases run
    exact sound
  · push Not at quiet
    obtain ⟨f, vm, pool, unused, demand, ran⟩ :=
      doMemAbort_demand h quiet.1 quiet.2.1 quiet.2.2
    rw [ran] at run
    cases run
    cases demand with
    | mapped room mapped =>
      have kept := Spaces.mapped sound real.live pool unused mapped demandPerm_low
      split <;> exact kept
    | lost none same held =>
      rcases fits with high | no | empty | ⟨-, room, -⟩
      · exact absurd quiet.1 (Nat.not_le.mpr high)
      · exact absurd quiet.2.1 no
      · exact absurd empty quiet.2.2
      · exact absurd room none

theorem Sound.step {s t : AbortState} (sound : Sound s) (next : Step s t) : Sound t := by
  cases next with
  | fault real fits run => exact sound.fault real fits run
  | other _ kept => exact kept

/-- After every history of faults, a fault is answered as it should be exactly if it is
above the user's addresses, or not for a missing page, or there is no free page at all; or
if it is on the stack, the page can be mapped, and the counter is not used up. -/
theorem faults_answered {s : AbortState} (reached : Reach Start Step s) {i addr : Nat}
    {esr : BitVec 64} (real : Real s i addr esr) :
    (∃ t, doMemAbort s i addr esr = .ok t ∧ Answered s t i addr esr) ↔ Fits s i addr esr := by
  have sound : Sound s := Reach.invariant Sound (fun _ start => start.sound)
    (fun _ _ sound next => sound.step next) reached
  exact answered_iff (sound.tables (s.mm i) real.live) real.absent

def threads : AbortState where
  vm := execSpace
  ind := 1
  live m := decide (m = 0)
  mm _ := 0
  killed _ := false

theorem threads_start : Start threads := by
  refine ⟨rfl, ?_, ?_⟩
  · intro m is
    rw [of_decide_eq_true is]
    exact execSpace_tables
  · intro m k hm hk differs
    exact absurd ((of_decide_eq_true hm).trans (of_decide_eq_true hk).symm) differs

theorem threads_stack_grows :
    ∃ t, doMemAbort threads 0 (USER_VA_END - 2 * PAGE_SIZE) 0b100 = .ok t ∧
      Answered threads t 0 (USER_VA_END - 2 * PAGE_SIZE) 0b100 := by
  have real : Real threads 0 (USER_VA_END - 2 * PAGE_SIZE) 0b100 := ⟨rfl, fun _ => rfl⟩
  refine (faults_answered (.start threads_start) real).mpr (.inr (.inr (.inr ⟨?_, ?_, ?_⟩)))
  · exact ⟨by decide, by decide⟩
  · exact ⟨by decide, by decide, by decide⟩
  · exact .inl (by decide)

def stackFaults : Nat → AbortState → Except Halt AbortState
  | 0, s => .ok s
  | n + 1, s =>
    match stackFaults n s with
    | .ok t => doMemAbort t n (USER_VA_END - (n + 2) * PAGE_SIZE) 0b100
    | .error h => .error h

def comesTo (r : Except Halt AbortState) (p : AbortState → Bool) : Bool :=
  match r with
  | .ok t => p t
  | .error _ => false

theorem comesTo_ok {r : Except Halt AbortState} {p : AbortState → Bool} (h : comesTo r p = true) :
    ∃ t, r = .ok t ∧ p t = true := by
  cases r with
  | ok t => exact ⟨t, rfl, h⟩
  | error e => cases h

/- The fifth thread is killed at its first fault, while there is memory. A fault in the gap
behind the break and one at the end of the user's addresses are answered by a page. -/
theorem threads_fifth_killed : (∃ t, stackFaults 5 threads = .ok t ∧
      decide (t.killed 4 = true ∧ t.killed 3 = false ∧ free t.vm = 2) = true) ∧
    (∃ t, doMemAbort threads 0 0x5000 0b100 = .ok t ∧
      decide (t.killed 0 = false ∧ pte t.vm 0 0x5000 ≠ 0) = true) ∧
    ∃ t, doMemAbort threads 0 USER_VA_END 0b100 = .ok t ∧
      decide (t.killed 0 = false ∧ pte t.vm 0 USER_VA_END ≠ 0) = true :=
  ⟨comesTo_ok (by decide +kernel), comesTo_ok (by decide +kernel), comesTo_ok (by decide +kernel)⟩

end UvaOs.Fault
