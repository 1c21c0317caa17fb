import UvaOs.Proc.Clone
import UvaOs.Vm.Duplicate

/-! When `fork` gives the child a copy of the parent. -/
namespace UvaOs.Proc

open UvaOs.Files (NOFILE NR_TASKS)
open UvaOs.Vm List
open Function (update update_self update_of_ne)

/-- A task that can call `fork`, in a kernel whose address spaces are sound. -/
structure Parent (s : State) (cur : Nat) : Prop extends UserTask s cur where
  spaces : Spaces s.vm (fun m => s.mmref m ≠ 0)
  live : ∀ m, s.mm cur = some m → s.mmref m ≠ 0

/-! The promise -/

/-- The pages of the parent that the child should have. -/
def Required (s : VmState) (src va : Nat) : Prop :=
  va < (s.mm src).sz ∨
    USER_VA_END - USER_MAX_STACK ≤ va ∧ va < USER_VA_END ∧ pte s src va ≠ 0

def frameOf (x : BitVec 64) : Nat := PTE_TO_PA x / PAGE_SIZE

/-- The page at `va` is in a frame of its own, with the contents and the permission of the
parent's. -/
structure SamePage (s t : VmState) (src m va : Nat) : Prop where
  mapped : pte t m va ≠ 0
  fresh : s.used (frameOf (pte t m va)) = false
  contents : t.mem (frameOf (pte t m va)) = s.mem (frameOf (pte s src va))
  perm : PTE_TO_PERM (pte t m va) = PTE_TO_PERM (pte s src va)

structure Forked (s t : State) (src m : Nat) : Prop where
  slot : s.mmref m = 0 ∧ t.mmref m = 1
  copied : ∀ va, Required s.vm src va → SamePage s.vm t.vm src m va
  sz : (t.vm.mm m).sz = (s.vm.mm src).sz
  codesz : (t.vm.mm m).codesz = (s.vm.mm src).codesz
  apart : ∀ k, s.mmref k ≠ 0 → ∀ va va', pte t.vm m va ≠ 0 → pte t.vm k va' ≠ 0 →
    PTE_TO_PA (pte t.vm m va) ≠ PTE_TO_PA (pte t.vm k va')

/-- `fork` returns: with a negative value and nothing changed, or with a copy. -/
def ForkOk (s : State) (cur : Nat) : Prop :=
  ∃ r t, sysFork s cur = .ok (r, t) ∧ (r < 0 ∧ t = s ∨
    ∃ pid src m : Nat, r = pid ∧ s.mm cur = some src ∧ t.mm pid = some m ∧ Forked s t src m)

/-! When it is kept -/

def stackOf (s : State) (cur : Nat) : Nat := (s.regs cur).sp.toNat

/-- There is a mm. Of the pages below the break and from `sp` to the end of the stack, those
in `done` are mapped in the parent and there is memory for them; they are all, or memory ends
at a page that need not be copied and the new mm has the right sizes by chance. The pages in
`done` are those the child should have, with the permissions it should have. -/
def CanFork (s : State) (cur : Nat) : Prop :=
  ∃ src m, s.mm cur = some src ∧ unusedMm s = some m ∧
    ∃ done rest, dupAll (pte s.vm src) (s.vm.mm src).sz (stackOf s cur) = done ++ rest ∧
      Good (pte s.vm src) (free s.vm) [] done ∧
      (rest = [] ∨ ∃ p more, rest = p :: more ∧
        Starved (HasTable s.vm src) (free s.vm) done.reverse p ∧
        (s.vm.mm m).sz = (s.vm.mm src).sz ∧ (s.vm.mm m).codesz = (s.vm.mm src).codesz) ∧
      ∀ va, Required s.vm src va →
        permAt done.reverse va = some (PTE_TO_PERM (pte s.vm src va))

/-! The state after `fork` -/

/-- The mm that `alloc_mm` returns. -/
def emptied (s : VmState) (m : Nat) : VmState :=
  s.putMm m { s.mm m with pgd := 0, kernelPagesCount := 0, userPagesCount := 0 }

def withChild (s : State) (cur pid m ip : Nat) (vm : VmState) : State where
  sched := Sched.copyProcess s.sched cur
  regs := update s.regs pid { s.regs cur with regs := update (s.regs cur).regs 0 0 }
  mm := update s.mm pid (some m)
  ofile := update s.ofile pid (fun fd => if fd < NOFILE then s.ofile cur fd else none)
  cwd := update s.cwd pid (some ip)
  name := update s.name pid (s.name cur)
  flags := update s.flags pid 0
  start := update s.start pid (0, 0)
  ftable := addRefs s.ftable (s.ofile cur) (List.range NOFILE)
  iref := update s.iref ip (s.iref ip + 1)
  vm := vm
  mmref := update s.mmref m 1

section Call

variable {s : State} {cur pid m src ip : Nat}

theorem forkMm_eq (mm : s.mm cur = some src) (slot : unusedMm s = some m) :
    forkMm s cur pid = match dupCurrentVirtMemory src (stackOf s cur) m (emptied s.vm m) with
      | .ok (_, vm) => .ok { s with
          mm := update s.mm pid (some m), mmref := update s.mmref m 1, vm := vm }
      | .error trap => .error (.trap trap) := by
  have new : allocMm s = .ok (m, { s with
      mmref := update s.mmref m 1
      vm := emptied s.vm m }) := by
    unfold allocMm
    rw [slot]
    rfl
  unfold forkMm
  rw [new, mm]
  rfl

theorem sysFork_eq (ne : cur ≠ pid) (mm : s.mm cur = some src) (cwd : s.cwd cur = some ip)
    (files : ∀ fd < NOFILE, ∀ f, s.ofile cur fd = some f → 1 ≤ (s.ftable f).ref)
    (found : Sched.unusedTask s.sched = some pid) (slot : unusedMm s = some m) :
    sysFork s cur = match dupCurrentVirtMemory src (stackOf s cur) m (emptied s.vm m) with
      | .ok (_, vm) => .ok ((pid : Int), withChild s cur pid m ip vm)
      | .error trap => .error (.trap trap) := by
  have dup : dupFiles (s.ofile cur) (List.range NOFILE) s.ftable =
      .ok (addRefs s.ftable (s.ofile cur) (List.range NOFILE)) :=
    dupFiles_spec _ _ _ (fun fd h => files fd (mem_range.mp h))
  have kernel : ¬ (0 : BitVec 64) &&& PF_KTHREAD ≠ 0 := by decide
  have thread : ¬ (0 : BitVec 64) &&& PF_UTHREAD ≠ 0 := by decide
  have mm' : (clear s pid).mm cur = some src := (update_of_ne ne _ _).trans mm
  have sp : stackOf ((clear s pid).putRegs pid { (clear s pid).regs cur with
      regs := update ((clear s pid).regs cur).regs 0 0 }) cur = stackOf s cur := by
    unfold stackOf
    exact congrArg (fun r : Trapframe => r.sp.toNat) (update_of_ne ne _ _)
  have made : forkMm ((clear s pid).putRegs pid { (clear s pid).regs cur with
      regs := update ((clear s pid).regs cur).regs 0 0 }) cur pid = _ := forkMm_eq mm' slot
  rw [sp] at made
  change _ = match dupCurrentVirtMemory src (stackOf s cur) m (emptied s.vm m) with
    | .ok (_, vm) => _
    | .error trap => _ at made
  simp only [sysFork, copyProcess, found, if_neg kernel, userTask, if_neg thread, made]
  cases dupCurrentVirtMemory src (stackOf s cur) m (emptied s.vm m) with
  | error trap => rfl
  | ok r =>
    simp only [inherit, clear, State.putRegs, dup, cwd, update_of_ne ne, Function.update_idem,
      Option.getD_none, withChild]

theorem sysFork_no_mm (found : Sched.unusedTask s.sched = some pid) (slot : unusedMm s = none) :
    sysFork s cur = .error (.trap .bug) := by
  have kernel : ¬ (0 : BitVec 64) &&& PF_KTHREAD ≠ 0 := by decide
  have thread : ¬ (0 : BitVec 64) &&& PF_UTHREAD ≠ 0 := by decide
  have none : allocMm ((clear s pid).putRegs pid { (clear s pid).regs cur with
      regs := update ((clear s pid).regs cur).regs 0 0 }) = .error (.trap .bug) := by
    unfold allocMm
    rw [show unusedMm ((clear s pid).putRegs pid _) = none from slot]
  simp only [sysFork, copyProcess, found, if_neg kernel, userTask, if_neg thread, forkMm, none]

end Call

section Child

variable {s v w : VmState} {src m va : Nat} {ps : Pages}

theorem emptied_same {k : Nat} (h : Tables s k) (other : k ≠ m) :
    SameSpace s (emptied s m) k ∧ Tables (emptied s m) k :=
  SameSpace.of_data h (VmState.putMm_ne s _ other) (fun _ _ _ => rfl) rfl rfl (fun _ => id)

theorem emptied_mm (s : VmState) (m : Nat) : (emptied s m).mm m =
    { s.mm m with pgd := 0, kernelPagesCount := 0, userPagesCount := 0 } :=
  VmState.putMm_self ..

theorem emptied_filled (h : Tables s src) : Filled (emptied s m) (emptied s m) m [] :=
  Filled.start h.first h.real (by rw [emptied_mm]) (by rw [emptied_mm])

theorem samePage_iff (h : Tables s src) (other : src ≠ m)
    (copying : Copying (emptied s m) w src m ps) (shows : SamePages w v m)
    (perms : ∀ p ∈ ps, PTE_TO_PERM p.2 = p.2) :
    SamePage s v src m va ↔ permAt ps va = some (PTE_TO_PERM (pte s src va)) := by
  obtain ⟨same, -⟩ := emptied_same h other
  cases found : permAt ps va with
  | none =>
    refine iff_of_false ?_ (fun no => nomatch no)
    intro page
    exact page.mapped ((shows.pte va).trans (copying.unmapped va found))
  | some perm =>
    obtain ⟨f, pool, unused, here, frame⟩ := copying.mapped va perm found
    have pool' : InPool s f := pool
    have small := h.frame_lt pool'
    have nz := h.frame_pos pool'
    have now : pte v m va = entry f perm := (shows.pte va).trans here
    have number : frameOf (pte v m va) = f := by
      unfold frameOf
      rw [shows.pte va, copying.tables.pte_frame, Nat.mul_div_cancel _ (by decide)]
      exact frame
    have held := (copying.tables.node_held (Nat.le_of_eq (length_pagePath va))
      (show frameAt w m va ≠ 0 by rw [frame]; exact nz)).2
    have data : v.mem f = s.mem (frameOf (pte s src va)) := by
      unfold frameOf
      rw [h.pte_frame, Nat.mul_div_cancel _ (by decide)]
      have copied := copying.contents va perm found
      rw [frame] at copied
      have there : frameAt (emptied s m) src va = node s src (pagePath va) :=
        same.nodes _ (Nat.le_of_eq (length_pagePath va))
      rw [shows.data f, copied, there]
      · rfl
      · rw [← frame]
        exact held
      · grind [copying.toFilled.page_apart]
    have bits : PTE_TO_PERM (pte v m va) = perm := by grind [permAt_mem, PTE_TO_PERM_entry]
    rw [Option.some.injEq]
    constructor
    · intro page
      exact bits.symm.trans page.perm
    · intro right
      refine ⟨?_, ?_, ?_, bits.trans right⟩
      · intro zero
        rw [zero] at number
        exact nz number.symm
      · rw [number]
        exact unused
      · rw [number]
        exact data

theorem child_apart {k : Nat} (h : Tables s k) (other : k ≠ m)
    (copying : Copying (emptied s m) w src m ps) (shows : SamePages w v m) {va va' : Nat}
    (mine : pte v m va ≠ 0) (theirs : pte v k va' ≠ 0) :
    PTE_TO_PA (pte v m va) ≠ PTE_TO_PA (pte v k va') := by
  obtain ⟨same, tables⟩ := emptied_same h other
  obtain ⟨same', -⟩ := copying.toFilled.others_of_same shows other tables
  rw [same'.pte, same.pte] at theirs ⊢
  rw [shows.pte] at mine ⊢
  intro clash
  rw [copying.tables.pte_frame, h.pte_frame] at clash
  have frame : node w m (pagePath va) = node s k (pagePath va') :=
    Nat.eq_of_mul_eq_mul_right (by decide) clash
  have there : node w m (pagePath va) ≠ 0 := fun none => mine ((copying.tables.pte_eq_zero va).mpr none)
  have fresh := copying.fresh (pagePath va) (Nat.le_of_eq (length_pagePath va)) there
  have held := (h.node_held (Nat.le_of_eq (length_pagePath va'))
    (fun none => theirs ((h.pte_eq_zero va').mpr none))).2
  rw [frame] at fresh
  change s.used _ = false at fresh
  rw [held] at fresh
  cases fresh

theorem agree_same (h : Tables w m) (src : Nat) : SamePages w (agree w src m) m ∧
    ((agree w src m).mm m).sz = (w.mm src).sz ∧ ((agree w src m).mm m).codesz = (w.mm src).codesz := by
  have mm : (agree w src m).mm m =
      { w.mm m with sz := (w.mm src).sz, codesz := (w.mm src).codesz } := VmState.putMm_self ..
  obtain ⟨shape, nodes⟩ := h.toShape.congr (t := agree w src m) rfl (by rw [mm])
  refine ⟨⟨?_, rfl, rfl, rfl, fun k differs => VmState.putMm_ne w _ differs, fun _ _ _ => rfl⟩,
    by rw [mm], by rw [mm]⟩
  intro va
  rw [shape.pte_eq, h.pte_eq, nodes]
  rfl

end Child

section Cut

variable {s : State} {cur src m : Nat} {done rest : Pages}

theorem canFork_iff (mm : s.mm cur = some src) (slot : unusedMm s = some m)
    (cut : dupAll (pte s.vm src) (s.vm.mm src).sz (stackOf s cur) = done ++ rest)
    (good : Good (pte s.vm src) (free s.vm) [] done)
    (ends : ∀ p ∈ rest.head?, ¬ (Valid (pte s.vm src p.1) ∧ Room (free s.vm) 0 done.reverse p.1)) :
    CanFork s cur ↔ (rest = [] ∨ ∃ p more, rest = p :: more ∧
        Starved (HasTable s.vm src) (free s.vm) done.reverse p ∧
        (s.vm.mm m).sz = (s.vm.mm src).sz ∧ (s.vm.mm m).codesz = (s.vm.mm src).codesz) ∧
      ∀ va, Required s.vm src va →
        permAt done.reverse va = some (PTE_TO_PERM (pte s.vm src va)) := by
  constructor
  · rintro ⟨src', m', mm', slot', done', rest', cut', good', why, cover⟩
    obtain rfl : src = src' := Option.some.inj (mm.symm.trans mm')
    obtain rfl : m = m' := Option.some.inj (slot.symm.trans slot')
    have stops : ∀ p ∈ rest'.head?,
        ¬ (Valid (pte s.vm src p.1) ∧ Room (free s.vm) 0 (done'.reverse ++ []) p.1) := by
      rintro p first ⟨-, room⟩
      rw [append_nil] at room
      rcases why with rfl | ⟨q, more, rfl, starved, -⟩
      · cases first
      · cases first
        exact starved.2 room
    have same := Good.unique good good' (cut.symm.trans cut') (by rwa [append_nil]) stops
    rw [same.1, same.2]
    exact ⟨why, cover⟩
  · rintro ⟨why, cover⟩
    exact ⟨src, m, mm, slot, done, rest, cut, good, why, cover⟩

theorem forkOk_iff {pid ip : Nat} {v w : VmState} {ps : Pages} (parent : Parent s cur)
    (mm : s.mm cur = some src) (free_ : s.mmref m = 0)
    (run : sysFork s cur = .ok ((pid : Int), withChild s cur pid m ip v))
    (copying : Copying (emptied s.vm m) w src m ps) (shows : SamePages w v m)
    (perms : ∀ p ∈ ps, PTE_TO_PERM p.2 = p.2) :
    ForkOk s cur ↔ ((v.mm m).sz = (s.vm.mm src).sz ∧ (v.mm m).codesz = (s.vm.mm src).codesz) ∧
      ∀ va, Required s.vm src va → permAt ps va = some (PTE_TO_PERM (pte s.vm src va)) := by
  have apart : ∀ k, s.mmref k ≠ 0 → k ≠ m := by
    rintro k used rfl
    exact used free_
  have live := parent.live src mm
  have h := parent.spaces.tables src live
  have page : ∀ va, SamePage s.vm v src m va ↔
      permAt ps va = some (PTE_TO_PERM (pte s.vm src va)) :=
    fun va => samePage_iff h (apart src live) copying shows perms
  constructor
  · rintro ⟨r, t, run', failed | ⟨pid', src', m', pid_, mm', new, forked⟩⟩
    · rw [run] at run'
      cases run'
      omega
    · rw [run] at run'
      cases run'
      obtain rfl : pid = pid' := Int.ofNat_inj.mp pid_
      obtain rfl : src = src' := Option.some.inj (mm.symm.trans mm')
      have made : (withChild s cur pid m ip v).mm pid = some m := update_self ..
      obtain rfl : m = m' := Option.some.inj (made.symm.trans new)
      exact ⟨⟨forked.sz, forked.codesz⟩, fun va needed => (page va).mp (forked.copied va needed)⟩
  · rintro ⟨⟨sz, codesz⟩, cover⟩
    refine ⟨pid, _, run, .inr ⟨pid, src, m, rfl, mm, update_self .., ?_⟩⟩
    refine ⟨⟨free_, update_self ..⟩, fun va needed => (page va).mpr (cover va needed), sz,
      codesz, ?_⟩
    intro k used va va' mine theirs
    exact child_apart (parent.spaces.tables k used) (apart k used) copying shows mine theirs

end Cut

/-- `fork` keeps its promise exactly when there is no slot for a task, or `CanFork`. -/
theorem fork_copies {s : State} {cur : Nat} (parent : Parent s cur) :
    ForkOk s cur ↔ (∀ i < NR_TASKS, (s.sched.task i).state ≠ .unused) ∨ CanFork s cur := by
  obtain ⟨src, mm⟩ := parent.mm
  obtain ⟨ip, cwd⟩ := parent.cwd
  have live := parent.live src mm
  have h := parent.spaces.tables src live
  cases found : Sched.unusedTask s.sched with
  | none =>
    refine iff_of_true ⟨-1, s, ?_, .inl ⟨by decide, rfl⟩⟩ (.inl (Sched.unusedTask_none found))
    simp only [sysFork, copyProcess, found]
  | some pid =>
    have slot := Sched.unusedTask_some found
    have ne : cur ≠ pid := by
      rintro rfl
      exact parent.used slot.2
    rw [or_iff_right (fun full => full pid slot.1 slot.2)]
    cases free_ : unusedMm s with
    | none =>
      refine iff_of_false ?_ ?_
      · rintro ⟨r, t, run, -⟩
        rw [sysFork_no_mm found free_] at run
        cases run
      · rintro ⟨src', m, -, some_, -⟩
        rw [free_] at some_
        cases some_
    | some m =>
      have unused := find?_some free_
      have ref : s.mmref m = 0 := of_decide_eq_true unused
      have other : src ≠ m := by
        rintro rfl
        exact live ref
      obtain ⟨same, tables⟩ := emptied_same (m := m) h other
      have ptes : pte (emptied s.vm m) src = pte s.vm src := funext same.pte
      have table : HasTable (emptied s.vm m) src = HasTable s.vm src := by
        funext va
        unfold HasTable
        rw [same.nodes (tablePath va) (Nat.le_succ 3)]
      have number : free (emptied s.vm m) = free s.vm := rfl
      have call := sysFork_eq ne mm cwd parent.files found free_
      have perms := dupAll_perm (pte s.vm src) (s.vm.mm src).sz (stackOf s cur)
      have ends : Ends (emptied s.vm m) src m [] (dupAll (pte (emptied s.vm m) src) (s.vm.mm src).sz
        (stackOf s cur)) (dupBoth src (stackOf s cur) m (s.vm.mm src).sz (emptied s.vm m)) :=
        dupBoth_ends tables other (by rw [emptied_mm]) (emptied_filled h)
      rw [dupCurrentVirtMemory_eq, same.mm] at call
      generalize run : dupBoth src (stackOf s cur) m (s.vm.mm src).sz (emptied s.vm m) = r at *
      cases ends with
      | all u good copying done_ =>
        subst done_
        rw [ptes, number] at good
        rw [ptes, append_nil] at copying
        obtain ⟨shows, sz, codesz⟩ := agree_same copying.tables src
        have size : u.mm src = s.vm.mm src := (copying.others src other).trans same.mm
        rw [size] at sz codesz
        rw [canFork_iff mm free_ (append_nil _).symm good (by simp),
          forkOk_iff parent mm ref call copying shows (fun p hp => perms p (mem_reverse.mp hp))]
        exact ⟨fun ok => ⟨.inl rfl, ok.2⟩, fun can => ⟨⟨sz, codesz⟩, can.2⟩⟩
      | starved done p rest w u cut good short copying refused done_ =>
        subst done_
        rw [ptes, number] at good
        rw [ptes] at cut
        rw [table, number, append_nil] at short
        rw [append_nil] at copying
        have sz : (u.mm m).sz = (s.vm.mm m).sz := by
          rw [refused.sz, copying.sz, emptied, VmState.putMm_self]
        have codesz : (u.mm m).codesz = (s.vm.mm m).codesz := by
          rw [refused.codesz, copying.codesz, emptied, VmState.putMm_self]
        have part : ∀ q ∈ done.reverse, PTE_TO_PERM q.2 = q.2 := by
          intro q hq
          refine perms q ?_
          rw [cut]
          exact mem_append_left _ (mem_reverse.mp hq)
        have stops : ∀ q ∈ (p :: rest).head?,
            ¬ (Valid (pte s.vm src q.1) ∧ Room (free s.vm) 0 done.reverse q.1) := by
          rintro q first ⟨-, room⟩
          cases first
          exact short.2 room
        rw [canFork_iff mm free_ cut good stops,
          forkOk_iff parent mm ref call copying refused.toSamePages part, sz, codesz]
        constructor
        · grind
        · grind
      | breaks done p rest trap cut good broken done_ =>
        subst done_
        rw [ptes, number] at good
        rw [ptes] at cut
        rw [ptes, table, number, append_nil] at broken
        have stops : ∀ q ∈ (p :: rest).head?,
            ¬ (Valid (pte s.vm src q.1) ∧ Room (free s.vm) 0 done.reverse q.1) := by
          rintro q first ⟨valid, -⟩
          cases first
          rcases broken with none | ⟨-, invalid⟩
          · exact not_table h none rfl valid
          · exact invalid valid
        rw [canFork_iff mm free_ cut good stops]
        refine iff_of_false ?_ ?_
        · rintro ⟨r, t, run', -⟩
          rw [call] at run'
          cases run'
        · rintro ⟨none | ⟨q, more, first, starved, -⟩, -⟩
          · cases none
          · cases first
            rcases broken with none | ⟨room, -⟩
            · exact none starved.1
            · exact starved.2 room

/-! A task with one stack page -/

def blank : VmState where
  low := 1
  pages := 12
  used _ := false
  pagesUsed := 0
  mem _ _ := 0
  mm _ := ⟨0, 0, 0, 0, 0, fun _ => 0⟩

def stackTop : Nat := USER_VA_END - PAGE_SIZE

def stackOnly : VmState :=
  match allocateUserPageMm 0 stackTop stackPerm blank with
  | .ok (_, t) => t
  | .error _ => blank

theorem stackOnly_filled : Filled blank stackOnly 0 [(stackTop, stackPerm)] := by
  have start : Filled blank blank 0 [] := Filled.start (by decide) (by decide) rfl rfl
  have low : (MMU_PTE_FLAGS ||| stackPerm) &&& 0xfffff000#64 = 0 := by decide
  rcases start.allocate stackTop low with ⟨-, f, u, ran, -, filled, -⟩ | ⟨none, -⟩
  · grind [stackOnly]
  · exact absurd (by decide +kernel) none

def parentState (vm : VmState) (sp : BitVec 64) : State :=
  { soloState with vm := vm, regs := fun _ => ⟨fun _ => 0, sp, 0x1000, 0⟩ }

theorem parentState_parent {vm : VmState} (h : Tables vm 0) (sp : BitVec 64) :
    Parent (parentState vm sp) 0 where
  toUserTask := { soloState_task with }
  spaces := by
    have only : ∀ m, (parentState vm sp).mmref m ≠ 0 → m = 0 := by
      intro m used
      by_contra other
      exact used (if_neg other)
    constructor
    · intro m used
      rw [only m used]
      exact h
    · grind
  live m mm := by
    cases mm
    exact Int.one_ne_zero

theorem stackOnly_list (sp : BitVec 64) (at_ : PGROUNDDOWN sp.toNat = stackTop) :
    dupAll (pte stackOnly 0) (stackOnly.mm 0).sz (stackOf (parentState stackOnly sp) 0) =
      [(stackTop, stackPerm)] := by
  have heap : pageSteps 0 0 = 0 := by decide
  have one : pageSteps stackTop USER_VA_END = 1 := by decide
  have sz : (stackOnly.mm 0).sz = 0 := stackOnly_filled.sz
  have sp' : stackOf (parentState stackOnly sp) 0 = sp.toNat := rfl
  unfold dupAll
  rw [sz, sp', at_, heap, one]
  rfl

theorem stackOnly_pte :
    Valid (pte stackOnly 0 stackTop) ∧ PTE_TO_PERM (pte stackOnly 0 stackTop) = stackPerm := by
  decide +kernel

theorem stackOnly_room : Room (free stackOnly) 0 [] stackTop := by
  decide +kernel

theorem stackOnly_forks : ForkOk (parentState stackOnly 0x7ffff00) 0 := by
  have filled := stackOnly_filled
  have slot : unusedMm (parentState stackOnly 0x7ffff00) = some 1 := by decide
  refine (fork_copies (parentState_parent filled.tables 0x7ffff00)).mpr (.inr ?_)
  refine ⟨0, 1, rfl, slot, [(stackTop, stackPerm)], [], stackOnly_list _ (by decide),
    ⟨stackOnly_pte.1, stackOnly_room, trivial⟩, .inl rfl, ?_⟩
  rintro va (heap | ⟨-, -, mapped⟩)
  · change va < (stackOnly.mm 0).sz at heap
    rw [filled.sz] at heap
    exact absurd heap (Nat.not_lt_zero va)
  · change pte stackOnly 0 va ≠ 0 at mapped
    change permAt [(stackTop, stackPerm)] va = some (PTE_TO_PERM (pte stackOnly 0 va))
    by_cases here : pagePath va = pagePath stackTop
    · have same : pte stackOnly 0 va = pte stackOnly 0 stackTop := by
        exact filled.tables.pte_congr here
      rw [permAt, if_pos here, same, stackOnly_pte.2]
    · exact absurd (filled.unmapped va (by rw [permAt, if_neg here]; rfl)) mapped

def ended (r : Except Halt (Int × State)) (p : Int → State → Bool) : Except Halt Bool :=
  match r with
  | .ok (r, t) => .ok (p r t)
  | .error h => .error h

/- Memory runs out while the pages of `execSpace` are copied: the child is made without a
stack. A stack pointer one page below the stack that is mapped makes the kernel fault, and one
on the heap is a `BUG`. -/
theorem fork_goes_wrong : ended (sysFork (parentState execSpace 0x7ffff00) 0) (fun r t =>
      decide (r = 1 ∧ t.mm 1 = some 1 ∧ pte execSpace 0 stackTop ≠ 0 ∧ pte t.vm 1 stackTop = 0)) =
      .ok true ∧
    ended (sysFork (parentState stackOnly 0x7ffe000) 0) (fun _ _ => true) = .error (.trap .fault) ∧
    ended (sysFork (parentState stackOnly 0x1000) 0) (fun _ _ => true) = .error (.trap .bug) := by
  refine ⟨?_, ?_, ?_⟩
  · decide +kernel
  · decide +kernel
  · decide +kernel

end UvaOs.Proc
