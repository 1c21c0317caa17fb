import UvaOs.Lib.Prog
import UvaOs.Files.Model

/-! kernel/sched.c: the task table, the scheduler, sleep and wakeup, exit and wait,
on any number of cores.

A core holds `sched_lock` from `acquire` in one task to `release` in another, so a
hold is cut here into the steps between which the source changes `cpus[].proc`, the
task states and the stack it runs on. A core that finds the lock taken spins,
which is a step that changes nothing. The address spaces, the descriptors and the
spin locks of single tasks are left to other modules. -/
namespace UvaOs.Sched

open UvaOs.Files (NR_TASKS)

inductive TaskState where
  | unused | running | sleeping | zombie | runnable
  deriving DecidableEq, Repr

/-- A `struct task_struct *`, which is also a kernel stack: a slot of `task[]` or the
idle task of a core. -/
inductive Who where
  | task (i : Nat)
  | idle (c : Nat)
  deriving DecidableEq, Repr

/-- The address that a task sleeps on. `wait` uses the task's own structure. -/
inductive Chan where
  | task (i : Nat)
  | sleeplock (l : Nat)
  | other (n : Nat)
  deriving DecidableEq, Repr

/-- Where a task goes on when it is switched to: the saved `pc`. -/
inductive Point where
  | schedule
  | sleep
  | wait (addr : Nat)
  | exit
  | fork
  deriving DecidableEq, Repr

/-- The fields of `struct task_struct` that `sched_lock` protects, with `killed` and
`pid`. `context` is `none` while the registers of the task are those of a core; the
last two fields are what `wait` gave back to the task. -/
structure Task where
  state : TaskState
  parent : Option Nat
  chan : Option Chan
  killed : Bool
  pid : Int
  credits : Int
  priority : Int
  xstate : Int
  context : Option Point
  ret : Int
  status : Option Int

def Task.zero : Task := ⟨.unused, none, none, false, 0, 0, 0, 0, none, 0, none⟩

/-- Where a core is with `sched_lock`. -/
inductive Pc where
  | out
  | schedule
  /-- `switch_to` is at `cpu_switch_to`; the task it leaves will go on at `point`. -/
  | switching (next : Who) (point : Point)
  /-- It runs on another stack now, behind the `cpu_switch_to` at `point`. -/
  | resumed (point : Point)
  /-- `sleep` has the lock and gives the other one back. -/
  | sleep (chan : Chan)
  | wait (addr : Nat)
  deriving DecidableEq, Repr

/-- A core: `cpus[].proc`, and the stack it really runs on. -/
structure Core where
  proc : Who
  stack : Who
  pc : Pc
  idle : Option Point
  deriving DecidableEq, Repr

structure State where
  task : Nat → Task
  core : Nat → Core
  lock : Option Nat
  lastpid : Nat

inductive Halt where
  | killUnused | initExiting | zombieExit
  /-- A switch to a task whose registers are not saved. -/
  | noContext
  deriving DecidableEq, Repr

namespace State

def onTask (s : State) (i : Nat) (f : Task → Task) : State :=
  { s with task := Function.update s.task i (f (s.task i)) }

def onCore (s : State) (c : Nat) (f : Core → Core) : State :=
  { s with core := Function.update s.core c (f (s.core c)) }

def goTo (s : State) (c : Nat) (pc : Pc) : State := s.onCore c ({ · with pc := pc })

/-- `acquire(&sched_lock)`, by a core that found it free. -/
def acquire (s : State) (c : Nat) (pc : Pc) : State := { s.goTo c pc with lock := some c }

def release (s : State) (c : Nat) : State := { s.goTo c .out with lock := none }

def context (s : State) : Who → Option Point
  | .task i => (s.task i).context
  | .idle c => (s.core c).idle

def putContext (s : State) (w : Who) (point : Option Point) : State :=
  match w with
  | .task i => s.onTask i ({ · with context := point })
  | .idle c => s.onCore c ({ · with idle := point })

def setState (s : State) (w : Who) (state : TaskState) : State :=
  match w with
  | .task i => s.onTask i ({ · with state := state })
  -- the scheduler never looks at the state of an idle task
  | .idle _ => s

end State

/-- Whether the scheduler of core `c` may pick slot `i`. -/
def Eligible (ncpu : Nat) (s : State) (c i : Nat) : Prop :=
  (∀ d < ncpu, (s.core d).proc = .task i → d = c) ∧
    ((s.core c).proc = .task i ∧ (s.task i).state = .running ∨ (s.task i).state = .runnable)

instance (ncpu : Nat) (s : State) (c i : Nat) : Decidable (Eligible ncpu s c i) :=
  inferInstanceAs (Decidable (_ ∧ _))

def better (ncpu : Nat) (s : State) (c : Nat) (b : Int × Nat) (i : Nat) : Int × Nat :=
  if Eligible ncpu s c i ∧ (s.task i).credits > b.1 then ((s.task i).credits, i) else b

/-- The scan for the task with the most credits: the credits, which start at -1, and
the slot. -/
def best (ncpu : Nat) (s : State) (c : Nat) : Int × Nat :=
  (List.range NR_TASKS).foldl (better ncpu s c) (-1, 0)

def recharge (s : State) : State :=
  { s with task := fun i =>
      if i < NR_TASKS ∧ (s.task i).state ≠ .unused then
        { s.task i with credits := (s.task i).credits / 2 + (s.task i).priority }
      else s.task i }

/-- A task that is switched away from while it runs can run again. -/
def preempt (s : State) : Who → State
  | .task i => if (s.task i).state = .running then s.setState (.task i) .runnable else s
  | .idle _ => s

/-- The core names its next task, and is at `cpu_switch_to` then. -/
def State.name (s : State) (c : Nat) (next : Who) (point : Point) : State :=
  s.onCore c ({ · with proc := next, pc := .switching next point })

def switchTo (s : State) (c : Nat) (next : Who) (point : Point) : State :=
  if (s.core c).proc = next then s.goTo c (.resumed point)
  else (preempt (s.name c next point) (s.core c).proc).setState next .running

def schedule (ncpu : Nat) (s : State) (c : Nat) : State :=
  if (best ncpu s c).1 > 0 then switchTo s c (.task (best ncpu s c).2) .schedule
  else if ∃ i < NR_TASKS, Eligible ncpu s c i then recharge s
  else switchTo s c (.idle c) .schedule

def cpuSwitchTo (s : State) (c : Nat) (next : Who) (point : Point) : Except Halt State :=
  match s.context next with
  | none => .error .noContext
  | some resume =>
    let s := s.putContext (s.core c).stack (some point)
    let s := s.putContext next none
    .ok (s.onCore c ({ · with stack := next, pc := .resumed resume }))

/-- Make every task that sleeps on `chan` runnable. -/
def wakeupNolock (s : State) (chan : Chan) : State :=
  { s with task := fun i =>
      if i < NR_TASKS ∧ (s.task i).state = .sleeping ∧ (s.task i).chan = some chan then
        { s.task i with state := .runnable }
      else s.task i }

/-- The end of `sleep`, `wait` and `exit_process` on the stack of the task: the core
goes to its idle task. -/
def leave (s : State) (c : Nat) (point : Point) : State := s.name c (.idle c) point

def sleep (s : State) (c i : Nat) (chan : Chan) (point : Point) : State :=
  leave (s.onTask i (fun t =>
    { t with chan := some chan, state := .sleeping, credits := t.credits - 1 })) c point

def Child (s : State) (p i : Nat) : Prop :=
  i < NR_TASKS ∧ (s.task i).state ≠ .unused ∧ (s.task i).parent = some p

instance (s : State) (p i : Nat) : Decidable (Child s p i) := inferInstanceAs (Decidable (_ ∧ _))

/-- Pass the children of `p` to init. -/
def reparent (s : State) (p : Nat) : State :=
  { s with task := fun i =>
      if Child s p i then { s.task i with parent := some 0 } else s.task i }

/-- The children of an exiting task go to init, which is woken up if there are any. -/
def handOver (s : State) (i : Nat) : State :=
  if ∃ j < NR_TASKS, Child s i j then wakeupNolock (reparent s i) (.task 0) else reparent s i

def announce (s : State) (i : Nat) : State :=
  match ((handOver s i).task i).parent with
  | some p => wakeupNolock (handOver s i) (.task p)
  | none => handOver s i

def exitProcess (s : State) (c i : Nat) (status : Int) : State :=
  leave ((announce s i).onTask i ({ · with xstate := status, state := .zombie })) c .exit

def freeproc (s : State) (i : Nat) : State :=
  s.onTask i ({ · with state := .unused, killed := false, credits := 0, chan := none, pid := 0,
                       xstate := 0 })

/-- What `wait` returns and writes to the user. -/
def returns (s : State) (i : Nat) (ret : Int) (status : Option Int) : State :=
  s.onTask i ({ · with ret := ret, status := status })

def zombieChild (s : State) (p : Nat) : Option Nat :=
  (List.range NR_TASKS).find? (fun i => decide (Child s p i ∧ (s.task i).state = .zombie))

/-- One turn of the loop in `wait`. The flag tells whether the status can be copied
out. -/
def wait (s : State) (c p addr : Nat) (copied : Bool) : State :=
  match zombieChild s p with
  | some i =>
    if addr ≠ 0 ∧ copied = false then (returns s p (-1) none).release c
    else
      let status := if addr = 0 then none else some (s.task i).xstate
      (freeproc (returns s p (s.task i).pid status) i).release c
  | none =>
    if (∀ i < NR_TASKS, ¬ Child s p i) ∨ (s.task p).killed = true then
      (returns s p (-1) none).release c
    else sleep s c p (.task p) (.wait addr)

def unusedTask (s : State) : Option Nat :=
  ((List.range NR_TASKS).map (fun i => (s.lastpid + 1 + i) % NR_TASKS)).find?
    (fun pid => decide ((s.task pid).state = .unused))

/-- `copy_process`, which keeps the lock until the child can be picked. -/
def copyProcess (s : State) (p : Nat) : State :=
  match unusedTask s with
  | some child =>
    { s with
      task := Function.update s.task child
        { Task.zero with
          state := .runnable, parent := some p, pid := child, credits := (s.task p).priority
          priority := (s.task p).priority, context := some .fork }
      lastpid := child }
  | none => s

/-- `kill`; the scan comes past the slot with the number `pid` at most once. -/
def kill (s : State) (pid : Int) : Except Halt State :=
  if 0 ≤ pid ∧ pid < NR_TASKS then
    if (s.task pid.toNat).state = .unused then .error .killUnused
    else .ok (s.onTask pid.toNat (fun t =>
      { t with killed := true, state := if t.state = .sleeping then .runnable else t.state }))
  else .ok s

/-- The code behind a `cpu_switch_to`, on the stack of `w`. -/
def resume (s : State) (c : Nat) (w : Who) : Point → Except Halt State
  | .schedule | .fork => .ok (s.release c)
  | .sleep =>
    match w with
    | .task i => .ok ((s.onTask i ({ · with chan := none })).release c)
    | .idle _ => .ok (s.release c)
  | .wait addr =>
    match w with
    | .task i => .ok ((s.onTask i ({ · with chan := none })).goTo c (.wait addr))
    | .idle _ => .ok (s.release c)
  | .exit => .error .zombieExit

/-- What a core that does not hold the lock may call. -/
inductive Call where
  | schedule
  | timerTick
  | yield
  | sleep (chan : Chan)
  | wakeup (chan : Chan)
  | kill (pid : Int)
  | wait (addr : Nat)
  | exitProcess (status : Int)
  | copyProcess

/-- A call by the task or the interrupt handler on the stack of core `c`, which found
the lock free. The idle task only schedules, wakes up and handles interrupts. -/
def call (s : State) (c : Nat) : Call → Except Halt State
  | .schedule => .ok (s.acquire c .schedule)
  | .timerTick =>
    match (s.core c).proc with
    | .task i => .ok (s.onTask i (fun t =>
        { t with credits := if t.credits - 1 > 0 then t.credits - 1 else 0 }))
    | .idle _ => .ok s
  | .wakeup chan => .ok (wakeupNolock s chan)
  | .kill pid => kill s pid
  | .yield =>
    match (s.core c).proc with
    | .task i => .ok (s.onTask i ({ · with credits := 0 }))
    | .idle _ => .ok s
  | .sleep chan =>
    match (s.core c).proc with
    | .task _ => .ok (s.acquire c (.sleep chan))
    | .idle _ => .ok s
  | .wait addr =>
    match (s.core c).proc with
    | .task _ => .ok (s.acquire c (.wait addr))
    | .idle _ => .ok s
  | .exitProcess status =>
    match (s.core c).proc with
    -- `init_task` is `task[0]`
    | .task i => if i = 0 then .error .initExiting else .ok (exitProcess (s.acquire c .out) c i status)
    | .idle _ => .ok s
  | .copyProcess =>
    match (s.core c).proc with
    | .task i => .ok (copyProcess s i)
    | .idle _ => .ok s

inductive Event where
  | call (c : Nat) (call : Call)
  /-- The holder of the lock goes on. -/
  | run (c : Nat) (copied : Bool)

def Event.core : Event → Nat
  | .call c _ => c
  | .run c _ => c

def step (ncpu : Nat) (s : State) : Event → Except Halt State
  | .call c k => if s.lock = none then call s c k else .ok s
  | .run c copied =>
    match (s.core c).pc with
    | .out => .ok s
    | .schedule => .ok (schedule ncpu s c)
    | .switching next point => cpuSwitchTo s c next point
    | .resumed point => resume s c (s.core c).stack point
    | .sleep chan =>
      match (s.core c).proc with
      | .task i => .ok (sleep s c i chan .sleep)
      | .idle _ => .ok s
    | .wait addr =>
      match (s.core c).proc with
      | .task p => .ok (wait s c p addr copied)
      | .idle _ => .ok s

structure Boot (s : State) : Prop where
  init : s.task 0 = { Task.zero with state := .runnable, priority := 2, context := some .fork }
  others : ∀ i, i ≠ 0 → s.task i = Task.zero
  cores : ∀ c, s.core c = ⟨.idle c, .idle c, .out, none⟩
  free : s.lock = none

def Step (ncpu : Nat) (s t : State) : Prop :=
  ∃ e : Event, e.core < ncpu ∧ step ncpu s e = .ok t

end UvaOs.Sched
