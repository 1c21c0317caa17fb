import UvaOs.Vm.Dup
import UvaOs.Sched.Model

/-! `copy_process` in kernel/sched.c with `sys_fork` and `sys_clone`, and the `clone` stub
of usr/libc-simple/usys.S.

The state joins the tasks of the scheduler with what `copy_process` gives to a new one:
registers, address space, open files and current directory. `copy_process` holds
`sched_lock` from the search for a slot to the end. -/
namespace UvaOs.Proc

open UvaOs.Files (NOFILE NR_TASKS Ofile Ftable filedup)
open UvaOs.Vm (VmState Trap)
open Function (update)

@[simp] def PF_KTHREAD : BitVec 64 := 0x2
@[simp] def PF_UTHREAD : BitVec 64 := 0x4
@[simp] def CLONE_VM : BitVec 64 := 0x100
@[simp] def NR_MMS : Nat := NR_TASKS

/-- `struct trapframe`, without the frame record for the unwinder. -/
structure Trapframe where
  regs : Nat → BitVec 64
  sp : BitVec 64
  pc : BitVec 64
  pstate : BitVec 64

structure State where
  sched : Sched.State
  regs : Nat → Trapframe
  mm : Nat → Option Nat
  ofile : Nat → Ofile
  cwd : Nat → Option Nat
  name : Nat → List UInt8
  flags : Nat → BitVec 64
  /-- `cpu_context.x19` and `x20`, with which a new task starts. -/
  start : Nat → BitVec 64 × BitVec 64
  ftable : Ftable
  /-- The references to the inodes in memory. -/
  iref : Nat → Int
  vm : VmState
  mmref : Nat → Int

def State.putRegs (s : State) (pid : Nat) (regs : Trapframe) : State :=
  { s with regs := update s.regs pid regs }

inductive Halt where
  | trap (trap : Trap)
  | panic (panic : Fs.Panic)
  /-- A null pointer. -/
  | null
  deriving DecidableEq, Repr

def unusedMm (s : State) : Option Nat :=
  (List.range NR_MMS).find? (fun m => decide (s.mmref m = 0))

/-- `alloc_mm`. The break stays what it was. -/
def allocMm (s : State) : Except Halt (Nat × State) :=
  match unusedMm s with
  | none => .error (.trap .bug)
  | some m => .ok (m, { s with
      mmref := update s.mmref m 1
      vm := s.vm.putMm m { s.vm.mm m with pgd := 0, kernelPagesCount := 0, userPagesCount := 0 } })

/-- `memset(p, 0, ...)`; the scheduler's part of the slot is filled at the end. -/
def clear (s : State) (pid : Nat) : State :=
  { s with
    mm := update s.mm pid none
    ofile := update s.ofile pid (fun _ => none)
    cwd := update s.cwd pid none
    name := update s.name pid []
    flags := update s.flags pid 0
    start := update s.start pid (0, 0) }

def shareMm (s : State) (cur pid : Nat) (arg : BitVec 64) : Except Halt State :=
  match s.mm cur with
  | none => .error .null
  | some m => .ok { s with
      mm := update s.mm pid (some m)
      mmref := update s.mmref m (s.mmref m + 1)
      regs := update s.regs pid { s.regs pid with sp := arg } }

/-- A mm of its own. What `dup_current_virt_memory` returns is ignored. -/
def forkMm (s : State) (cur pid : Nat) : Except Halt State :=
  match allocMm s, s.mm cur with
  | .error h, _ => .error h
  -- `BUG_ON(!srcmm)`
  | .ok _, none => .error (.trap .bug)
  | .ok (m, s), some src =>
    match Vm.dupCurrentVirtMemory src (s.regs cur).sp.toNat m s.vm with
    | .ok (_, vm) => .ok { s with mm := update s.mm pid (some m), vm := vm }
    | .error t => .error (.trap t)

/-- `filedup` for each descriptor in the list. -/
def dupFiles (ofile : Ofile) : List Nat → Ftable → Except Fs.Panic Ftable
  | [], ftable => .ok ftable
  | fd :: rest, ftable =>
    match ofile fd with
    | none => dupFiles ofile rest ftable
    | some f =>
      match filedup ftable f with
      | .ok ftable => dupFiles ofile rest ftable
      | .error p => .error p

/-- The descriptors and the current directory of a user task. -/
def inherit (s : State) (cur pid : Nat) : Except Halt State :=
  match dupFiles (s.ofile cur) (List.range NOFILE) s.ftable, s.cwd cur with
  | .error p, _ => .error (.panic p)
  | .ok _, none => .error .null
  | .ok ftable, some ip => .ok { s with
      ftable := ftable
      ofile := update s.ofile pid (fun fd => if fd < NOFILE then s.ofile cur fd else none)
      iref := update s.iref ip (s.iref ip + 1)
      cwd := update s.cwd pid (some ip) }

def userTask (s : State) (cur pid : Nat) (cloneFlags arg : BitVec 64) : Except Halt State :=
  let s := s.putRegs pid { s.regs cur with regs := update (s.regs cur).regs 0 0 }
  match (if cloneFlags &&& PF_UTHREAD ≠ 0 then shareMm s cur pid arg else forkMm s cur pid) with
  | .error h => .error h
  | .ok s => inherit s cur pid

def copyProcess (s : State) (cur : Nat) (cloneFlags fn arg : BitVec 64) (name : Option (List UInt8)) :
    Except Halt (Int × State) :=
  match Sched.unusedTask s.sched with
  | none => .ok (-1, s)
  | some pid =>
    let s := clear s pid
    let made :=
      if cloneFlags &&& PF_KTHREAD ≠ 0 then
        .ok { s with start := update s.start pid (fn, arg) }
      else userTask s cur pid cloneFlags arg
    match made with
    | .error h => .error h
    | .ok s => .ok (pid, { s with
        name := update s.name pid (name.getD (s.name cur))
        flags := update s.flags pid cloneFlags
        sched := Sched.copyProcess s.sched cur })

def sysFork (s : State) (cur : Nat) : Except Halt (Int × State) := copyProcess s cur 0 0 0 none

/-- `sys_clone`; the last three parameters are ignored. -/
def sysClone (s : State) (cur : Nat) (flags userstack : BitVec 64) : Except Halt (Int × State) :=
  if flags ≠ CLONE_VM then .ok (-1, s)
  else if userstack = 0 ∨ userstack % 16 ≠ 0 then .ok (-1, s)
  else copyProcess s cur PF_UTHREAD userstack 0 none

/-! The stub in user space. Its stores and loads are of aligned double words. -/

abbrev Words : Type := BitVec 64 → BitVec 64

/-- What the stub stores before the system call, and the stack it passes. -/
def cloneStub (mem : Words) (func stack arg : BitVec 64) : Words × BitVec 64 :=
  let x1 := (stack &&& ~~~15#64) - 16
  (update (update mem x1 func) (x1 + 8) arg, x1)

/-- What the child loads at label 1: the function and its argument. -/
def childStub (mem : Words) (sp : BitVec 64) : BitVec 64 × BitVec 64 := (mem sp, mem (sp + 8))

end UvaOs.Proc
