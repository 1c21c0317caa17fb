import UvaOs.Files.Model

/-! The calls that use the table of open files, as tasks that take turns.
A step of a task runs up to the next point where another task can see what it
did: one hold of `ftable.lock`, one hold of `sched_lock`, or work on the task's own
descriptors and on entries nobody else has yet. A task that finds `sched_lock`
taken spins, which is a step that changes nothing. -/
namespace UvaOs.Files

open UvaOs.Fs (IType Panic)
open Function (update)

inductive TaskState where
  | unused | active | zombie
  deriving DecidableEq, Repr

/-- What a task does before it goes on with its call. -/
inductive Closing where
  | fileclose (f : Nat)
  /-- The rest of `fileclose`, with the copy of the entry and the life it had. -/
  | act (f life : Nat) (ff : File)
  /-- `copy_process(PF_KTHREAD, …)`, which procfs files may call when they close. -/
  | kthread

inductive Pc where
  | idle
  | openFd (f : Nat) (type : IType) (ip omode : Nat)
  | openFill (f : Nat) (type : IType) (ip omode : Nat)
  | dup (f : Nat)
  | pipeSecond (rf : Nat)
  | pipeAlloc (rf wf : Nat)
  | pipeFds (rf wf : Nat)
  | pipeCopyout (rf wf fd0 fd1 : Nat)
  | fork
  | forkFds (child fd : Nat)
  | exitFds (fd : Nat)
  | exitClear (fd : Nat)
  | exitZombie

structure Task where
  state : TaskState
  ofile : Ofile
  todo : List Closing
  pc : Pc

def Task.Idle (t : Task) : Prop := t.todo = [] ∧ t.pc = .idle

/-- The machine. `life` counts how often an entry was allocated and `log` holds the
close actions that ran; both are there for the statements only. -/
structure State where
  ftable : Ftable
  sched : Option Nat
  lastpid : Nat
  task : Nat → Task
  life : Nat → Nat
  log : List (Nat × Nat × CloseAction)

namespace State

def putTask (s : State) (p : Nat) (t : Task) : State :=
  { s with task := update s.task p t }

def allocated (s : State) (p : Nat) (f : Nat) (ftable : Ftable) (pc : Pc) : State :=
  { s.putTask p { s.task p with pc := pc } with
    ftable := ftable, life := update s.life f (s.life f + 1) }

end State

def unusedTask (s : State) : Option Nat :=
  ((List.range NR_TASKS).map (fun i => (s.lastpid + 1 + i) % NR_TASKS)).find?
    (fun pid => decide ((s.task pid).state = .unused))

/-- `memset(p, 0, sizeof(struct task_struct))`. -/
def Task.zero : Task := ⟨.unused, fun _ => none, [], .idle⟩

/-- `copy_process` for a kernel task, under one hold of `sched_lock`; it has no
descriptors. -/
def copyKthread (s : State) : State :=
  match unusedTask s with
  | some child => { s.putTask child { Task.zero with state := .active } with lastpid := child }
  | none => s

/-- `copy_process` for a user task, up to the loop over the descriptors. The lock is
kept until the child is runnable. -/
def copyBegin (s : State) (p : Nat) : State :=
  match unusedTask s with
  | some child =>
    { (s.putTask child Task.zero).putTask p { s.task p with pc := .forkFds child 0 } with
      lastpid := child, sched := some p }
  | none => s.putTask p { s.task p with pc := .idle }

/-- Results a task gets from outside: the page from `kalloc`, whether `copyout`
succeeds, and how many kernel tasks a procfs file starts. -/
structure Env where
  kalloc : Nat
  copyout : Bool
  kthreads : Nat

def stepClosing (s : State) (p : Nat) (env : Env) (rest : List Closing) :
    Closing → Except Panic State
  | .fileclose f =>
    match filedrop s.ftable f with
    | .error e => .error e
    | .ok (ftable, none) =>
      .ok { s.putTask p { s.task p with todo := rest } with ftable := ftable }
    | .ok (ftable, some ff) =>
      .ok { s.putTask p { s.task p with todo := .act f (s.life f) ff :: rest } with
        ftable := ftable }
  | .act f life ff =>
    let kthreads := if closeAction ff = .procfs then env.kthreads else 0
    .ok { s.putTask p { s.task p with todo := List.replicate kthreads .kthread ++ rest } with
      log := (f, life, closeAction ff) :: s.log }
  | .kthread =>
    if s.sched = none then .ok (copyKthread (s.putTask p { s.task p with todo := rest }))
    else .ok s

def stepPc (s : State) (p : Nat) (env : Env) : Pc → Except Panic State
  | .idle => .ok s
  | .openFd f type ip omode =>
    match fdalloc (s.task p).ofile f with
    | some (_, ofile) =>
      .ok (s.putTask p { s.task p with ofile := ofile, pc := .openFill f type ip omode })
    | none => .ok (s.putTask p { s.task p with todo := [.fileclose f], pc := .idle })
  | .openFill f type ip omode =>
    .ok { s.putTask p { s.task p with pc := .idle } with
      ftable := update s.ftable f (prepfile (s.ftable f) type ip omode) }
  | .dup f =>
    match filedup s.ftable f with
    | .error e => .error e
    | .ok ftable => .ok { s.putTask p { s.task p with pc := .idle } with ftable := ftable }
  | .pipeSecond rf =>
    match filealloc s.ftable with
    | some (wf, ftable) => .ok (s.allocated p wf ftable (.pipeAlloc rf wf))
    | none => .ok (s.putTask p { s.task p with todo := [.fileclose rf], pc := .idle })
  | .pipeAlloc rf wf =>
    if env.kalloc = 0 then
      .ok (s.putTask p { s.task p with todo := [.fileclose rf, .fileclose wf], pc := .idle })
    else
      let ftable := update s.ftable rf (pipeEnd (s.ftable rf) env.kalloc false)
      .ok { s.putTask p { s.task p with pc := .pipeFds rf wf } with
        ftable := update ftable wf (pipeEnd (ftable wf) env.kalloc true) }
  | .pipeFds rf wf =>
    match fdalloc (s.task p).ofile rf with
    | none =>
      .ok (s.putTask p { s.task p with todo := [.fileclose rf, .fileclose wf], pc := .idle })
    | some (fd0, ofile) =>
      match fdalloc ofile wf with
      | none =>
        .ok (s.putTask p { s.task p with
          ofile := update ofile fd0 none
          todo := [.fileclose rf, .fileclose wf], pc := .idle })
      | some (fd1, ofile) =>
        .ok (s.putTask p { s.task p with ofile := ofile, pc := .pipeCopyout rf wf fd0 fd1 })
  | .pipeCopyout rf wf fd0 fd1 =>
    if env.copyout then .ok (s.putTask p { s.task p with pc := .idle })
    else
      .ok (s.putTask p { s.task p with
        ofile := update (update (s.task p).ofile fd0 none) fd1 none
        todo := [.fileclose rf, .fileclose wf], pc := .idle })
  | .fork => if s.sched = none then .ok (copyBegin s p) else .ok s
  | .forkFds child fd =>
    if fd < NOFILE then
      match (s.task p).ofile fd with
      | none => .ok (s.putTask p { s.task p with pc := .forkFds child (fd + 1) })
      | some f =>
        match filedup s.ftable f with
        | .error e => .error e
        | .ok ftable =>
          let c := s.task child
          .ok { (s.putTask child { c with ofile := update c.ofile fd (some f) }).putTask p
              { s.task p with pc := .forkFds child (fd + 1) } with ftable := ftable }
    else
      .ok { (s.putTask child { s.task child with state := .active }).putTask p
          { s.task p with pc := .idle } with sched := none }
  | .exitFds fd =>
    if fd < NOFILE then
      match (s.task p).ofile fd with
      | none => .ok (s.putTask p { s.task p with pc := .exitFds (fd + 1) })
      | some f => .ok (s.putTask p { s.task p with todo := [.fileclose f], pc := .exitClear fd })
    else .ok (s.putTask p { s.task p with pc := .exitZombie })
  | .exitClear fd =>
    .ok (s.putTask p { s.task p with
      ofile := update (s.task p).ofile fd none, pc := .exitFds (fd + 1) })
  | .exitZombie =>
    if s.sched = none then .ok (s.putTask p { s.task p with state := .zombie, pc := .idle })
    else .ok s

/-- The calls; `sys_open` as it is once it holds the inode, since it touches neither
table before that. -/
inductive Call where
  | sysOpen (type : IType) (ip omode : Nat)
  | sysDup (fd : Int)
  | sysClose (fd : Int)
  | sysPipe
  | fork
  | kthread
  | exitProcess
  | wait (child : Nat)

def stepCall (s : State) (p : Nat) : Call → Except Panic State
  | .sysOpen type ip omode =>
    match filealloc s.ftable with
    | some (f, ftable) => .ok (s.allocated p f ftable (.openFd f type ip omode))
    | none => .ok s
  | .sysDup fd =>
    match argfd (s.task p).ofile fd with
    | none => .ok s
    | some f =>
      match fdalloc (s.task p).ofile f with
      | none => .ok s
      | some (_, ofile) => .ok (s.putTask p { s.task p with ofile := ofile, pc := .dup f })
  | .sysClose fd =>
    match argfd (s.task p).ofile fd with
    | none => .ok s
    | some f =>
      .ok (s.putTask p { s.task p with
        ofile := update (s.task p).ofile fd.toNat none, todo := [.fileclose f] })
  | .sysPipe =>
    match filealloc s.ftable with
    | some (f, ftable) => .ok (s.allocated p f ftable (.pipeSecond f))
    | none => .ok s
  | .fork => .ok (s.putTask p { s.task p with pc := .fork })
  | .kthread => .ok (s.putTask p { s.task p with todo := [.kthread] })
  | .exitProcess =>
    -- `init_task` is `task[0]`
    if p = 0 then .error .initExiting else .ok (s.putTask p { s.task p with pc := .exitFds 0 })
  | .wait child =>
    -- any task may find the child here, so that who is its parent does not matter
    if s.sched = none ∧ child < NR_TASKS ∧ (s.task child).state = .zombie then
      .ok (s.putTask child { s.task child with state := .unused })
    else .ok s

inductive Event where
  | call (p : Nat) (c : Call)
  | run (p : Nat) (env : Env)

def Event.task : Event → Nat
  | .call p _ => p
  | .run p _ => p

def step (s : State) : Event → Except Panic State
  | .call p c =>
    match (s.task p).todo, (s.task p).pc with
    | [], .idle => stepCall s p c
    | _, _ => .ok s
  | .run p env =>
    match (s.task p).todo with
    | w :: rest => stepClosing s p env rest w
    | [] => stepPc s p env (s.task p).pc

structure Boot (s : State) : Prop where
  closed : ∀ f, s.ftable f = File.zero
  fresh : ∀ f, s.life f = 0
  quiet : ∀ p, s.task p = { Task.zero with state := (s.task p).state }
  alive : ∀ p, (s.task p).state ≠ .zombie
  unlocked : s.sched = none
  unlogged : s.log = []

def Step (s t : State) : Prop :=
  ∃ e : Event, e.task < NR_TASKS ∧ (s.task e.task).state = .active ∧ step s e = .ok t

def Quiescent (s : State) : Prop := ∀ p < NR_TASKS, (s.task p).Idle

end UvaOs.Files
