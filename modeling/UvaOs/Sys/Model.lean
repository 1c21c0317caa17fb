import UvaOs.Sched.Model
import UvaOs.Vm.Copy

/-! The system calls kill (kernel/sched.c), the semaphores (kernel/spinlock.c), sleep
(kernel/timer.c) and read and write on procfs files (kernel/file.c), made by any number of
tasks.

A step is the code under one hold of `semtable.lock`, `timerlock` or `sched_lock`, up to
the point where `sleep` gives the lock back; `procfs_read` and `procfs_write` take no lock,
and the update of the offset is a step of its own. Every reading of the system counter is
given by the event. -/
namespace UvaOs.Sys

open UvaOs.Files (NR_TASKS)
open UvaOs.Sched (Chan)
open UvaOs.Vm (VmState)

@[simp] def NSEM : Nat := 32
@[simp] def N_TIMERS : Nat := 20
@[simp] def TICKPERMS : Nat := 1000
@[simp] def MAX_PROCFS_SIZE : Nat := 256

structure Sem where
  used : Bool
  count : Int
  deriving DecidableEq

structure Timer where
  handler : Bool
  elapseat : Nat
  deriving DecidableEq

/-- A procfs file: `struct procfs_state` and the modes of `struct file`. -/
structure Procfs where
  readable : Bool
  writable : Bool
  kbuf : List UInt8
  ksize : Nat
  koff : Nat
  ubuf : List UInt8
  usize : Nat
  uoff : Nat

/-- Where a task is in a call that did not return in its first step. -/
inductive Job where
  | none
  | semp (k : Nat)
  | sleep (t c0 : Nat) (ms : Int)
  | reading (f len : Nat)
  | writing (f off len : Nat)
  deriving DecidableEq

structure State where
  sched : Sched.State
  sem : Nat → Sem
  timer : Nat → Timer
  /-- The last reading of the system counter. -/
  clock : Nat
  file : Nat → Procfs
  vm : VmState
  mm : Nat → Nat
  job : Nat → Job
  ret : Nat → Option Int

inductive Halt where
  /-- `BUG`, or a failed `BUG_ON` or `assert`. -/
  | bug
  /-- A store behind the end of a buffer. -/
  | overrun
  | sched (halt : Sched.Halt)
  deriving DecidableEq

def wrap32 (x : Int) : Int := (x + 2 ^ 31) % 2 ^ 32 - 2 ^ 31

def toU64 (x : Int) : Nat := (x % 2 ^ 64).toNat

def semChan (k : Nat) : Chan := .other k

def timerChan (t : Nat) : Chan := .other (NSEM + t)

namespace State

def goTo (s : State) (i : Nat) (j : Job) : State := { s with job := Function.update s.job i j }

def done (s : State) (i : Nat) (r : Int) : State :=
  { s.goTo i .none with ret := Function.update s.ret i (some r) }

def putSem (s : State) (k : Nat) (x : Sem) : State := { s with sem := Function.update s.sem k x }

def putFile (s : State) (f : Nat) (x : Procfs) : State := { s with file := Function.update s.file f x }

def block (s : State) (c i : Nat) (chan : Chan) (j : Job) : State :=
  { s.goTo i j with sched := s.sched.acquire c (.sleep chan) }

@[simp] theorem goTo_self (s : State) (i : Nat) (j : Job) : (s.goTo i j).job i = j := by
  simp [goTo]

@[simp] theorem goTo_of_ne (s : State) {i k : Nat} (j : Job) (other : k ≠ i) :
    (s.goTo i j).job k = s.job k := by
  simp [goTo, other]

@[simp] theorem putSem_self (s : State) (k : Nat) (x : Sem) : (s.putSem k x).sem k = x := by
  simp [putSem]

@[simp] theorem putSem_of_ne (s : State) {k l : Nat} (x : Sem) (other : l ≠ k) :
    (s.putSem k x).sem l = s.sem l := by
  simp [putSem, other]

@[simp] theorem putFile_self (s : State) (f : Nat) (x : Procfs) : (s.putFile f x).file f = x := by
  simp [putFile]

@[simp] theorem putFile_of_ne (s : State) {f g : Nat} (x : Procfs) (other : g ≠ f) :
    (s.putFile f x).file g = s.file g := by
  simp [putFile, other]

@[simp] theorem done_ret (s : State) (i : Nat) (r : Int) : (s.done i r).ret i = some r := by
  simp [done]

end State

/-! Semaphores -/

def unusedSem (s : State) : Option Nat := (List.range NSEM).find? (fun k => !(s.sem k).used)

def sysSemcreate (s : State) (i : Nat) (count : Int) : State :=
  match unusedSem s with
  | some k => (s.putSem k ⟨true, count⟩).done i k
  | none => s.done i (-1)

def sysSemfree (s : State) (i : Nat) (sem : Int) : State :=
  if sem < 0 ∨ sem ≥ NSEM then s.done i (-1)
  else (s.putSem sem.toNat ⟨false, 0⟩).done i 0

def sempTurn (s : State) (c i k : Nat) : Except Halt State :=
  if (s.sem k).count = 0 then .ok (s.block c i (semChan k) (.semp k))
  else if wrap32 ((s.sem k).count - 1) < 0 then .error .bug
  else .ok ((s.putSem k { s.sem k with count := wrap32 ((s.sem k).count - 1) }).done i 0)

def sysSemp (s : State) (c i : Nat) (sem : Int) : Except Halt State :=
  if sem < 0 ∨ sem ≥ NSEM then .ok (s.done i (-1))
  else if (s.sem sem.toNat).used = false then .ok (s.done i (-2))
  else sempTurn s c i sem.toNat

def sysSemv (s : State) (i : Nat) (sem : Int) : Except Halt State :=
  if sem < 0 ∨ sem ≥ NSEM then .ok (s.done i (-1))
  else if (s.sem sem.toNat).used = false then .ok (s.done i (-2))
  else if (s.sem sem.toNat).count < 0 then .error .bug
  else
    let s := s.putSem sem.toNat { s.sem sem.toNat with count := wrap32 ((s.sem sem.toNat).count + 1) }
    .ok ({ s with sched := Sched.wakeupNolock s.sched (semChan sem.toNat) }.done i 0)

/-! Timers -/

structure Adjust where
  timer : Nat → Timer
  sched : Sched.State
  /-- The upcoming firing time. -/
  next : Nat

/-- One turn of the loop in `adjust_sys_timer`, with its reading of the counter. -/
def adjustOne (now : Nat) (a : Adjust) (t : Nat) : Adjust :=
  if (a.timer t).handler = true ∧ (a.timer t).elapseat < a.next then
    if (a.timer t).elapseat < now then
      { a with
        timer := Function.update a.timer t { a.timer t with handler := false }
        sched := Sched.wakeupNolock a.sched (timerChan t) }
    else { a with next := ((a.timer t).elapseat + 10 * 1000) % 2 ^ 64 }
  else a

/-- `adjust_sys_timer`; its readings start at number `r`. -/
def adjustSysTimer (s : State) (reads : Nat → Nat) (r : Nat) : Except Halt State :=
  let a := (List.range N_TIMERS).foldl (fun a t => adjustOne (reads (r + t)) a t)
    ⟨s.timer, s.sched, 2 ^ 64 - 1⟩
  if reads (r + N_TIMERS) > a.next then .error .bug
  else .ok { s with timer := a.timer, sched := a.sched, clock := reads (r + N_TIMERS) }

def freeTimer (s : State) : Option Nat := (List.range N_TIMERS).find? (fun t => !(s.timer t).handler)

/-- `ktimer_start_nolock`; the slot, if there is one. -/
def ktimerStart (s : State) (delayms : Nat) (reads : Nat → Nat) (r : Nat) :
    Except Halt (Option Nat × State) :=
  match freeTimer s with
  | none => .ok (none, s)
  | some t =>
    let at_ := (reads r + TICKPERMS * delayms % 2 ^ 32) % 2 ^ 64
    if at_ < reads r then .error .bug
    else
      match adjustSysTimer { s with timer := Function.update s.timer t ⟨true, at_⟩ } reads (r + 1) with
      | .ok s => .ok (some t, s)
      | .error h => .error h

def sleepTurn (s : State) (c i t c0 : Nat) (ms : Int) (now : Nat) : State :=
  let s := { s with clock := now }
  if (now + 2 ^ 64 - c0) % 2 ^ 64 < toU64 (wrap32 (ms * TICKPERMS)) then
    if (s.sched.task i).killed = true then s.done i (-1)
    else s.block c i (timerChan t) (.sleep t c0 ms)
  else s.done i 0

def sysSleep (s : State) (c i : Nat) (ms : Int) (reads : Nat → Nat) : Except Halt State :=
  match ktimerStart s (ms % 2 ^ 32).toNat reads 1 with
  | .error h => .error h
  | .ok (none, _) => .error .bug
  | .ok (some t, s) => .ok (sleepTurn s c i t (reads 0) ms (reads (N_TIMERS + 3)))

def fireOne (cur : Nat) (s : State) (t : Nat) : State :=
  if (s.timer t).handler = true ∧ (s.timer t).elapseat ≤ cur then
    { s with
      timer := Function.update s.timer t { s.timer t with handler := false }
      sched := Sched.wakeupNolock s.sched (timerChan t) }
  else s

def sysTimerIrq (s : State) (reads : Nat → Nat) : Except Halt State :=
  adjustSysTimer ((List.range N_TIMERS).foldl (fireOne (reads 0)) s) reads 1

/-! procfs -/

/-- `procfs_read`, up to the update of the offset. -/
def procfsRead (s : State) (i f dst n : Nat) : Except Halt State :=
  let st := s.file f
  if st.koff > st.ksize then .error .bug
  else
    let len := min n (st.ksize - st.koff)
    match Vm.copyout (s.mm i) dst ((st.kbuf.drop st.koff).take len) s.vm with
    | .error _ => .error .bug
    | .ok ((r, _), vm) =>
      if r = -1 then .error .bug else .ok { s.goTo i (.reading f len) with vm := vm }

/-- `procfs_write`, up to the update of the offset. -/
def procfsWrite (s : State) (i f src n : Nat) : Except Halt State :=
  let st := s.file f
  let len := min n ((MAX_PROCFS_SIZE + 2 ^ 32 - st.uoff) % 2 ^ 32)
  match Vm.copyin (s.mm i) src len s.vm with
  | .error _ => .error .bug
  | .ok ((r, bytes, _), vm) =>
    if r = -1 then .error .bug
    else if st.uoff + len > MAX_PROCFS_SIZE then .error .overrun
    else
      let ubuf := st.ubuf.take st.uoff ++ bytes ++ st.ubuf.drop (st.uoff + len)
      .ok { (s.goTo i (.writing f st.uoff len)).putFile f { st with ubuf := ubuf } with vm := vm }

def readEnd (s : State) (i f len : Nat) : State :=
  (s.putFile f { s.file f with koff := ((s.file f).koff + len) % 2 ^ 32 }).done i len

def writeEnd (s : State) (i f off len : Nat) : State :=
  (s.putFile f { s.file f with
    uoff := ((s.file f).uoff + len) % 2 ^ 32
    usize := if off + len > (s.file f).usize then off + len else (s.file f).usize }).done i len

/-! The machine -/

inductive Call where
  | kill (pid : Int)
  | semcreate (count : Int)
  | semfree (sem : Int)
  | semp (sem : Int)
  | semv (sem : Int)
  | sleep (ms : Int)
  /-- `read` and `write` on a procfs file; the `int` is passed on as an `uint`. -/
  | read (f dst : Nat) (n : Int)
  | write (f src : Nat) (n : Int)

def call (s : State) (c i : Nat) (reads : Nat → Nat) : Call → Except Halt State
  | .kill pid =>
    match Sched.kill s.sched pid with
    | .error _ => .error .bug
    | .ok sched => .ok ({ s with sched := sched }.done i (if 0 ≤ pid ∧ pid < NR_TASKS then 0 else -1))
  | .semcreate count => .ok (sysSemcreate s i count)
  | .semfree sem => .ok (sysSemfree s i sem)
  | .semp sem => sysSemp s c i sem
  | .semv sem => sysSemv s i sem
  | .sleep ms => sysSleep s c i ms reads
  | .read f dst n =>
    if (s.file f).readable = false then .ok (s.done i (-1))
    else procfsRead s i f dst (n % 2 ^ 32).toNat
  | .write f src n =>
    if (s.file f).writable = false then .ok (s.done i (-1))
    else procfsWrite s i f src (n % 2 ^ 32).toNat

def turn (s : State) (c i : Nat) (reads : Nat → Nat) : Except Halt State :=
  match s.job i with
  | .none => .ok s
  | .semp k => sempTurn s c i k
  | .sleep t c0 ms => .ok (sleepTurn s c i t c0 ms (reads 0))
  | .reading f len => .ok (readEnd s i f len)
  | .writing f off len => .ok (writeEnd s i f off len)

/-- The rest of the kernel: a task waits, forks, exits or sleeps elsewhere outside these
calls. -/
def allowed (s : State) : Sched.Event → Bool
  | .run _ _ => true
  | .call c k =>
    match (s.sched.core c).proc, k with
    | _, .kill _ => false
    | .task i, .sleep _ => decide (s.job i = .none)
    | .task i, .wait _ => decide (s.job i = .none)
    | .task i, .copyProcess => decide (s.job i = .none)
    | .task i, .exitProcess _ => decide (s.job i = .none)
    | _, _ => true

inductive Event where
  | call (c : Nat) (call : Call) (reads : Nat → Nat)
  | turn (c : Nat) (reads : Nat → Nat)
  | irq (reads : Nat → Nat)
  /-- A procfs file is opened anew. -/
  | openFile (f : Nat) (st : Procfs)
  /-- Address spaces change. -/
  | remap (vm : VmState) (mm : Nat → Nat)
  | sched (e : Sched.Event)

/-- The core that takes the step; the interrupt of the timer goes to core 0. -/
def Event.core : Event → Nat
  | .call c _ _ | .turn c _ => c
  | .sched e => e.core
  | _ => 0

/-- Whether the call needs `sched_lock`, for `kill`, `wakeup` or `sleep`. -/
def Call.locks : Call → Bool
  | .kill _ | .semp _ | .semv _ | .sleep _ => true
  | _ => false

def Job.locks : Job → Bool
  | .semp _ | .sleep _ _ _ => true
  | _ => false

def current (s : State) (c : Nat) : Option Nat :=
  match (s.sched.core c).proc with
  | .task i => if (s.sched.core c).pc = .out then some i else none
  | .idle _ => none

/-- A task that needs `sched_lock` and finds it taken spins. -/
def step (ncpu : Nat) (s : State) : Event → Except Halt State
  | .call c k reads =>
    match current s c with
    | some i =>
      if s.job i = .none ∧ (k.locks = false ∨ s.sched.lock = none) then call s c i reads k else .ok s
    | none => .ok s
  | .turn c reads =>
    match current s c with
    | some i =>
      if (s.job i).locks = false ∨ s.sched.lock = none then turn s c i reads else .ok s
    | none => .ok s
  | .irq reads => if s.sched.lock = none then sysTimerIrq s reads else .ok s
  | .openFile f st => .ok (s.putFile f st)
  | .remap vm mm => .ok { s with vm := vm, mm := mm }
  | .sched e =>
    if allowed s e = true then
      match Sched.step ncpu s.sched e with
      | .ok t => .ok { s with sched := t }
      | .error h => .error (.sched h)
    else .ok s

end UvaOs.Sys
