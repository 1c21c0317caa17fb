import UvaOs.Proc.Model
import UvaOs.Sched.Steps

/-! What `clone(CLONE_VM)` makes. -/
namespace UvaOs.Proc

open List

open UvaOs.Files (NOFILE NR_TASKS Ofile Ftable filedup)
open Function (update update_self update_of_ne)

def uses (ofile : Ofile) (fds : List Nat) (f : Nat) : Nat :=
  fds.countP (fun fd => decide (ofile fd = some f))

def addRefs (ftable : Ftable) (ofile : Ofile) (fds : List Nat) : Ftable :=
  fun f => { ftable f with ref := (ftable f).ref + uses ofile fds f }

/-- A task that can call `clone`: it has a mm and a current directory, and its open files
are referenced. -/
structure UserTask (s : State) (cur : Nat) : Prop where
  mm : ∃ m, s.mm cur = some m
  cwd : ∃ ip, s.cwd cur = some ip
  files : ∀ fd < NOFILE, ∀ f, s.ofile cur fd = some f → 1 ≤ (s.ftable f).ref
  used : (s.sched.task cur).state ≠ .unused

/-- In the state after, `pid` is a new task like `cur` on the stack `sp`, and nothing else
has changed but the reference counts. -/
structure Thread (s t : State) (cur pid : Nat) (sp : BitVec 64) : Prop where
  slot : pid < NR_TASKS ∧ (s.sched.task pid).state = .unused
  regs : t.regs pid = { s.regs cur with regs := update (s.regs cur).regs 0 0, sp := sp }
  mm : t.mm pid = s.mm cur
  mmref : ∃ m, s.mm cur = some m ∧ t.mmref = update s.mmref m (s.mmref m + 1)
  ofile : ∀ fd < NOFILE, t.ofile pid fd = s.ofile cur fd
  ftable : t.ftable = addRefs s.ftable (s.ofile cur) (List.range NOFILE)
  cwd : t.cwd pid = s.cwd cur
  iref : ∃ ip, s.cwd cur = some ip ∧ t.iref = update s.iref ip (s.iref ip + 1)
  vm : t.vm = s.vm
  cores : t.sched.core = s.sched.core ∧ t.sched.lock = s.sched.lock
  others : ∀ j, j ≠ pid → t.sched.task j = s.sched.task j ∧ t.regs j = s.regs j ∧
    t.mm j = s.mm j ∧ t.ofile j = s.ofile j ∧ t.cwd j = s.cwd j ∧ t.name j = s.name j ∧
    t.flags j = s.flags j ∧ t.start j = s.start j

/-- The stub's child finds the function and its argument. -/
def FindsArgs (t : State) (pid : Nat) (userstack : BitVec 64) : Prop :=
  ∀ mem func stack arg, (cloneStub mem func stack arg).2 = userstack →
    childStub (cloneStub mem func stack arg).1 (t.regs pid).sp = (func, arg)

theorem dupFiles_spec (ofile : Ofile) (fds : List Nat) (ftable : Ftable)
    (open_ : ∀ fd ∈ fds, ∀ f, ofile fd = some f → 1 ≤ (ftable f).ref) :
    dupFiles ofile fds ftable = .ok (addRefs ftable ofile fds) := by
  induction fds generalizing ftable with
  | nil =>
    rw [dupFiles]
    congr 1
    funext f
    simp [addRefs, uses]
  | cons fd rest ih =>
    rw [dupFiles]
    have later : ∀ fd' ∈ rest, ∀ f, ofile fd' = some f → 1 ≤ (ftable f).ref :=
      fun fd' h => open_ fd' (mem_cons_of_mem fd h)
    cases slot : ofile fd with
    | none =>
      simp only []
      rw [ih ftable later]
      congr 1
      funext f
      simp [addRefs, uses, slot]
    | some f =>
      have positive := open_ fd (mem_cons_self ..) f slot
      simp only [filedup, if_neg (not_lt.mpr positive)]
      rw [ih]
      · congr 1
        funext g
        by_cases e : g = f
        · subst e
          simp only [addRefs, update_self, uses, countP_cons, slot, decide_true, if_true,
            Files.File.mk.injEq, true_and, and_true]
          push_cast
          omega
        · grind [addRefs, update_of_ne, uses]
      · grind

section

variable {s : State} {cur : Nat}

def withThread (s : State) (cur pid m ip : Nat) (sp : BitVec 64) : State where
  sched := Sched.copyProcess s.sched cur
  regs := update s.regs pid
    { s.regs cur with regs := update (s.regs cur).regs 0 0, sp := sp }
  mm := update s.mm pid (some m)
  ofile := update s.ofile pid (fun fd => if fd < NOFILE then s.ofile cur fd else none)
  cwd := update s.cwd pid (some ip)
  name := update s.name pid (s.name cur)
  flags := update s.flags pid PF_UTHREAD
  start := update s.start pid (0, 0)
  ftable := addRefs s.ftable (s.ofile cur) (List.range NOFILE)
  iref := update s.iref ip (s.iref ip + 1)
  vm := s.vm
  mmref := update s.mmref m (s.mmref m + 1)

theorem copyProcess_thread {pid m ip : Nat} (ne : cur ≠ pid) (mm : s.mm cur = some m)
    (cwd : s.cwd cur = some ip)
    (files : ∀ fd < NOFILE, ∀ f, s.ofile cur fd = some f → 1 ≤ (s.ftable f).ref)
    (found : Sched.unusedTask s.sched = some pid) (fn arg : BitVec 64) :
    copyProcess s cur PF_UTHREAD fn arg none = .ok (pid, withThread s cur pid m ip arg) := by
  have dup : dupFiles (s.ofile cur) (List.range NOFILE) s.ftable =
      .ok (addRefs s.ftable (s.ofile cur) (List.range NOFILE)) :=
    dupFiles_spec _ _ _ (fun fd h => files fd (mem_range.mp h))
  have kernel : ¬ PF_UTHREAD &&& PF_KTHREAD ≠ 0 := by decide
  have thread : PF_UTHREAD &&& PF_UTHREAD ≠ 0 := by decide
  simp only [copyProcess, found, if_neg kernel, userTask, if_pos thread, shareMm, clear, State.putRegs,
    update_of_ne ne, mm, inherit, dup, cwd, Function.update_idem, update_self,
    Option.getD_none, withThread]

theorem withThread_thread {pid m ip : Nat} (slot : pid < NR_TASKS ∧ (s.sched.task pid).state = .unused)
    (found : Sched.unusedTask s.sched = some pid) (mm : s.mm cur = some m) (cwd : s.cwd cur = some ip)
    (sp : BitVec 64) : Thread s (withThread s cur pid m ip sp) cur pid sp where
  slot := slot
  regs := update_self ..
  mm := (update_self ..).trans mm.symm
  mmref := ⟨m, mm, rfl⟩
  ofile fd hfd := by simp only [withThread, update_self, if_pos hfd]
  ftable := rfl
  cwd := (update_self ..).trans cwd.symm
  iref := ⟨ip, cwd, rfl⟩
  vm := rfl
  cores := by simp only [withThread, Sched.copyProcess, found, and_self]
  others j ne := by
    simp only [withThread, Sched.copyProcess, found, update_of_ne ne, and_self]

theorem cloneStub_child (mem : Words) (func stack arg : BitVec 64) :
    childStub (cloneStub mem func stack arg).1 (cloneStub mem func stack arg).2 = (func, arg) := by
  have apart : ∀ x : BitVec 64, x ≠ x + 8 := by
    intro x h
    bv_omega
  simp only [childStub, cloneStub, update_self, update_of_ne (apart _)]

end

/-- For every task that can call it and every stack that is not 0 and is aligned: `clone`
keeps its promise just if there is no slot for another task, and fails then. Otherwise
the new thread is what it should be, except that its stack pointer is 0; the function and
its argument are where the stub put them, below the stack it passed. -/
theorem clone_makes_thread {s : State} {cur : Nat} (task : UserTask s cur) {userstack : BitVec 64}
    (nonzero : userstack ≠ 0) (aligned : userstack % 16 = 0) :
    ((∀ (pid : Nat) (t : State), sysClone s cur CLONE_VM userstack = .ok (pid, t) →
        Thread s t cur pid userstack ∧ FindsArgs t pid userstack) ↔
      ∀ i < NR_TASKS, (s.sched.task i).state ≠ .unused) ∧
    (∀ (pid : Nat) (t : State), sysClone s cur CLONE_VM userstack = .ok (pid, t) →
      Thread s t cur pid 0) ∧
    ∀ mem func stack arg,
      childStub (cloneStub mem func stack arg).1 (cloneStub mem func stack arg).2 = (func, arg) := by
  obtain ⟨m, mm⟩ := task.mm
  obtain ⟨ip, cwd⟩ := task.cwd
  have call : sysClone s cur CLONE_VM userstack = copyProcess s cur PF_UTHREAD userstack 0 none := by
    rw [sysClone, if_neg (not_not.mpr rfl), if_neg]
    exact fun h => h.elim nonzero (fun h => h aligned)
  rw [call]
  cases found : Sched.unusedTask s.sched with
  | none =>
    have full := Sched.unusedTask_none found
    have fails : ∀ (pid : Nat) (t : State),
        copyProcess s cur PF_UTHREAD userstack 0 none ≠ .ok ((pid : Int), t) := by
      grind [copyProcess, Except.ok.injEq, Prod.mk.injEq]
    exact ⟨⟨fun _ => full, fun _ pid t run => absurd run (fails pid t)⟩,
      fun pid t run => absurd run (fails pid t), cloneStub_child⟩
  | some pid =>
    have slot := Sched.unusedTask_some found
    have ne : cur ≠ pid := by
      rintro rfl
      exact task.used slot.2
    have made := copyProcess_thread ne mm cwd task.files found userstack 0
    have thread := withThread_thread slot found mm cwd 0
    rw [made]
    refine ⟨⟨fun promise => ?_, fun full => absurd slot.2 (full pid slot.1)⟩, ?_, cloneStub_child⟩
    · -- the stack pointer of the thread is that of the promise and 0
      have regs := (promise pid _ rfl).1.regs.symm.trans thread.regs
      exact absurd (congrArg Trapframe.sp regs) nonzero
    · grind

/-! One task calls `clone` -/

def soloState : State where
  sched := { task := fun i => if i = 0 then { Sched.Task.zero with state := .running } else Sched.Task.zero
             core := fun c => ⟨.idle c, .idle c, .out, none⟩
             lock := none
             lastpid := 0 }
  regs _ := ⟨fun _ => 0, 0x7fff000, 0x1000, 0⟩
  mm i := if i = 0 then some 0 else none
  ofile _ _ := none
  cwd i := if i = 0 then some 0 else none
  name _ := []
  flags _ := 0
  start _ := (0, 0)
  ftable _ := Files.File.zero
  iref _ := 1
  vm := ⟨0, 0, fun _ => false, 0, fun _ _ => 0, fun _ => ⟨0, 0, 0, 0, 0, fun _ => 0⟩⟩
  mmref m := if m = 0 then 1 else 0

theorem soloState_task : UserTask soloState 0 where
  mm := ⟨0, rfl⟩
  cwd := ⟨0, rfl⟩
  files _ _ _ h := nomatch h
  used := Sched.TaskState.noConfusion

theorem soloState_call : sysClone soloState 0 CLONE_VM 0x5000 =
    .ok ((1 : Nat), withThread soloState 0 1 0 0 0) := by
  have made : copyProcess soloState 0 PF_UTHREAD 0x5000 0 none =
      .ok ((1 : Nat), withThread soloState 0 1 0 0 0) :=
    copyProcess_thread (by decide) rfl rfl soloState_task.files rfl 0x5000 0
  exact made

theorem soloState_clones : ∃ t, sysClone soloState 0 CLONE_VM 0x5000 = .ok (1, t) ∧
    Thread soloState t 0 1 0 := by
  have ok := soloState_call
  exact ⟨_, ok, (clone_makes_thread soloState_task (by decide) (by decide)).2.1 1 _ ok⟩

theorem soloState_wrong_stack : ∃ t, sysClone soloState 0 CLONE_VM 0x5000 = .ok (1, t) ∧
    (t.regs 1).sp = 0 ∧ ¬ Thread soloState t 0 1 0x5000 := by
  have ok := soloState_call
  refine ⟨_, ok, rfl, fun thread => ?_⟩
  have sp := congrArg Trapframe.sp thread.regs
  exact absurd sp (by decide)

end UvaOs.Proc
