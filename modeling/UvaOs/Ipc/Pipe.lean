import UvaOs.Lib.Monitor

/-! kernel/pipe.c: any number of readers and writers of one pipe.

`fileclose` calls `pipeclose` for a side when the last descriptor of that side is gone, and
the page of the pipe is freed when both sides are. Here any task may call any of the three
functions at any time, which only adds runs. -/
namespace UvaOs.Pipes

open Monitor

def PIPESIZE : Nat := 512

/-- `&pi->nread` and `&pi->nwrite`. -/
inductive Chan where
  | nread | nwrite
  deriving DecidableEq

/-- A byte with the call that stored or removed it and its place in the buffer of that
call. -/
structure Entry where
  call : Nat
  index : Nat
  byte : UInt8

/-- `struct pipe`. The last four fields are a record of what has happened: the bytes stored
and removed so far, the number of calls so far and the task that made each. -/
structure Pipe where
  data : Nat → UInt8
  nread : BitVec 32
  nwrite : BitVec 32
  readopen : Bool
  writeopen : Bool
  stored : List Entry
  taken : List Entry
  calls : Nat
  owner : Nat → Nat

def pipealloc (data : Nat → UInt8) : Pipe :=
  ⟨data, 0, 0, true, true, [], [], 0, fun _ => 0⟩

/-- A call of `pipewrite`; `src` is the user's buffer, `none` where `copyin` fails. -/
structure Write where
  call : Nat
  src : Nat → Option UInt8
  n : Int

structure Read where
  call : Nat
  dst : Nat → Bool
  n : Int

/-- The points between the shared accesses. In `wtest` and `wbody` the flag tells whether
the task has stored a byte since it got the lock. -/
inductive Point where
  | pipewrite (src : Nat → Option UInt8) (n : Int)
  | wtest (w : Write) (i : Nat) (fresh : Bool)
  | wbody (w : Write) (i : Nat) (fresh : Bool)
  | wfull (w : Write) (i : Nat)
  | wsleep (w : Write) (i : Nat)
  | wend (w : Write) (i : Nat)
  | wleave (w : Write) (i : Nat)
  | piperead (dst : Nat → Bool) (n : Int)
  | rtest (r : Read)
  | rsleep (r : Read)
  | rcopy (r : Read) (i : Nat)
  | rend (r : Read) (i : Nat)
  | rleave (r : Read) (i : Nat)
  | pipeclose (writable : Bool)
  | cend (writable : Bool)
  | cleave

namespace Pipe

def enroll (d : Pipe) (task : Nat) : Pipe :=
  { d with calls := d.calls + 1, owner := Function.update d.owner d.calls task }

def store (d : Pipe) (w : Write) (i : Nat) (ch : UInt8) : Pipe :=
  { d with data := Function.update d.data (d.nwrite.toNat % PIPESIZE) ch
           nwrite := d.nwrite + 1
           stored := d.stored ++ [⟨w.call, i, ch⟩] }

def remove (d : Pipe) (r : Read) (i : Nat) : Pipe :=
  { d with nread := d.nread + 1
           taken := d.taken ++ [⟨r.call, i, d.data (d.nread.toNat % PIPESIZE)⟩] }

def close (d : Pipe) (writable : Bool) : Pipe :=
  if writable then { d with writeopen := false } else { d with readopen := false }

def Empty (d : Pipe) : Prop := d.nread = d.nwrite

def Full (d : Pipe) : Prop := d.nwrite = d.nread + BitVec.ofNat 32 PIPESIZE

instance (d : Pipe) : Decidable d.Empty := inferInstanceAs (Decidable (_ = _))
instance (d : Pipe) : Decidable d.Full := inferInstanceAs (Decidable (_ = _))

end Pipe

def act (d : Pipe) (task : Nat) (killed : Bool) : Point → Act Pipe Point Chan
  | .pipewrite src n => .go (d.enroll task) (.wtest ⟨d.calls, src, n⟩ 0 false)
  | .wtest w i fresh =>
    if i < w.n then
      if d.readopen = false ∨ killed = true then .leave d (-1) else .go d (.wbody w i fresh)
    else .go d (.wend w i)
  | .wbody w i _ =>
    if d.Full then .go d (.wfull w i)
    else
      match w.src i with
      | none => .go d (.wend w i)
      | some ch => .go (d.store w i ch) (.wtest w (i + 1) true)
  | .wfull w i => .wakeup .nread (.wsleep w i)
  | .wsleep w i => .sleep .nwrite (.wtest w i false)
  | .wend w i => .wakeup .nread (.wleave w i)
  | .wleave _ i => .leave d i
  | .piperead dst n => .go (d.enroll task) (.rtest ⟨d.calls, dst, n⟩)
  | .rtest r =>
    if d.Empty ∧ d.writeopen = true then
      if killed then .leave d (-1) else .go d (.rsleep r)
    else .go d (.rcopy r 0)
  | .rsleep r => .sleep .nread (.rtest r)
  | .rcopy r i =>
    if i < r.n then
      if d.Empty then .go d (.rend r i)
      else .go (d.remove r i) (if r.dst i then .rcopy r (i + 1) else .rend r i)
    else .go d (.rend r i)
  | .rend r i => .wakeup .nwrite (.rleave r i)
  | .rleave _ i => .leave d i
  | .pipeclose writable => .go (d.close writable) (.cend writable)
  | .cend writable => .wakeup (if writable then .nread else .nwrite) .cleave
  | .cleave => .leave d 0

def start : Point → Bool
  | .pipewrite .. | .piperead .. | .pipeclose _ => true
  | _ => false

def code : Code Pipe Point Chan := ⟨fun _ => start, act, fun d _ => d⟩

abbrev State : Type := Monitor.State Pipe Point Chan

structure Boot (s : State) : Prop where
  idle : Idle s
  data : ∃ page, s.data = pipealloc page

inductive Does (d : Pipe) (task : Nat) (killed : Bool) : Point → Act Pipe Point Chan → Prop
  | pipewrite {src n} : Does d task killed (.pipewrite src n)
      (.go (d.enroll task) (.wtest ⟨d.calls, src, n⟩ 0 false))
  | wfails {w : Write} {i : Nat} {fresh} : (i : Int) < w.n → d.readopen = false ∨ killed = true →
      Does d task killed (.wtest w i fresh) (.leave d (-1))
  | wtest {w : Write} {i : Nat} {fresh} : (i : Int) < w.n → d.readopen = true → killed = false →
      Does d task killed (.wtest w i fresh) (.go d (.wbody w i fresh))
  | wdone {w : Write} {i : Nat} {fresh} : w.n ≤ i → Does d task killed (.wtest w i fresh) (.go d (.wend w i))
  | wfull {w : Write} {i : Nat} {fresh} : d.Full → Does d task killed (.wbody w i fresh) (.go d (.wfull w i))
  | wfault {w : Write} {i : Nat} {fresh} : ¬ d.Full → w.src i = none →
      Does d task killed (.wbody w i fresh) (.go d (.wend w i))
  | wstore {w : Write} {i : Nat} {fresh ch} : ¬ d.Full → w.src i = some ch →
      Does d task killed (.wbody w i fresh) (.go (d.store w i ch) (.wtest w (i + 1) true))
  | wrouse {w : Write} {i : Nat} : Does d task killed (.wfull w i) (.wakeup .nread (.wsleep w i))
  | wsleep {w : Write} {i : Nat} : Does d task killed (.wsleep w i) (.sleep .nwrite (.wtest w i false))
  | wend {w : Write} {i : Nat} : Does d task killed (.wend w i) (.wakeup .nread (.wleave w i))
  | wleave {w : Write} {i : Nat} : Does d task killed (.wleave w i) (.leave d i)
  | piperead {dst n} : Does d task killed (.piperead dst n)
      (.go (d.enroll task) (.rtest ⟨d.calls, dst, n⟩))
  | rfails {r} : d.Empty → d.writeopen = true → killed = true →
      Does d task killed (.rtest r) (.leave d (-1))
  | rwait {r} : d.Empty → d.writeopen = true → killed = false →
      Does d task killed (.rtest r) (.go d (.rsleep r))
  | rready {r} : ¬ (d.Empty ∧ d.writeopen = true) →
      Does d task killed (.rtest r) (.go d (.rcopy r 0))
  | rsleep {r} : Does d task killed (.rsleep r) (.sleep .nread (.rtest r))
  | rdone {r : Read} {i : Nat} : r.n ≤ i → Does d task killed (.rcopy r i) (.go d (.rend r i))
  | rempty {r : Read} {i : Nat} : (i : Int) < r.n → d.Empty →
      Does d task killed (.rcopy r i) (.go d (.rend r i))
  | rtake {r : Read} {i : Nat} : (i : Int) < r.n → ¬ d.Empty → r.dst i = true →
      Does d task killed (.rcopy r i) (.go (d.remove r i) (.rcopy r (i + 1)))
  | rfault {r : Read} {i : Nat} : (i : Int) < r.n → ¬ d.Empty → r.dst i = false →
      Does d task killed (.rcopy r i) (.go (d.remove r i) (.rend r i))
  | rend {r : Read} {i : Nat} : Does d task killed (.rend r i) (.wakeup .nwrite (.rleave r i))
  | rleave {r : Read} {i : Nat} : Does d task killed (.rleave r i) (.leave d i)
  | pipeclose {writable} : Does d task killed (.pipeclose writable)
      (.go (d.close writable) (.cend writable))
  | cend {writable} : Does d task killed (.cend writable)
      (.wakeup (if writable then .nread else .nwrite) .cleave)
  | cleave : Does d task killed .cleave (.leave d 0)

theorem does (d : Pipe) (task : Nat) (killed : Bool) (p : Point) :
    Does d task killed p (act d task killed p) := by
  cases p with
  | pipewrite src n => exact .pipewrite
  | wtest w i fresh =>
    simp only [act]
    split
    · rename_i more
      split
      · rename_i fails
        exact .wfails more fails
      · rename_i open_
        rw [not_or, Bool.not_eq_false, Bool.not_eq_true] at open_
        exact .wtest more open_.1 open_.2
    · rename_i done
      exact .wdone (Int.not_lt.mp done)
  | wbody w i fresh =>
    simp only [act]
    split
    · rename_i full
      exact .wfull full
    · rename_i room
      split
      · rename_i fault
        exact .wfault room fault
      · rename_i byte
        exact .wstore room byte
  | wfull w i => exact .wrouse
  | wsleep w i => exact .wsleep
  | wend w i => exact .wend
  | wleave w i => exact .wleave
  | piperead dst n => exact .piperead
  | rtest r =>
    simp only [act]
    split
    · rename_i wait
      split
      · rename_i dead
        exact .rfails wait.1 wait.2 dead
      · rename_i alive
        exact .rwait wait.1 wait.2 (Bool.not_eq_true _ ▸ alive)
    · rename_i ready
      exact .rready ready
  | rsleep r => exact .rsleep
  | rcopy r i =>
    simp only [act]
    split
    · rename_i more
      split
      · rename_i empty
        exact .rempty more empty
      · rename_i some_
        split
        · rename_i works
          exact .rtake more some_ works
        · rename_i fails
          exact .rfault more some_ (Bool.not_eq_true _ ▸ fails)
    · rename_i done
      exact .rdone (Int.not_lt.mp done)
  | rend r i => exact .rend
  | rleave r i => exact .rleave
  | pipeclose writable => exact .pipeclose
  | cend writable => exact .cend
  | cleave => exact .cleave

theorem did {d : Pipe} {task : Nat} {killed : Bool} {p : Point} {a : Act Pipe Point Chan}
    (acts : code.act d task killed p = a) : Does d task killed p a := acts ▸ does ..

/-! Nobody sleeps past its condition -/

def Pipe.ReadWaits (d : Pipe) : Prop := d.Empty ∧ d.writeopen = true

def Pipe.WriteWaits (d : Pipe) : Prop := d.Full ∧ d.readopen = true

def readers (d : Pipe) (A : Chan → Nat → Prop) : Prop := ∀ i, A .nread i → d.ReadWaits

def writers (d : Pipe) (A : Chan → Nat → Prop) : Prop := ∀ i, A .nwrite i → d.WriteWaits

/-- Between a test of `killed` that lets a writer store a byte and its next `wakeup`. -/
def Point.storing : Point → Bool
  | .wtest _ _ fresh => fresh
  | .wbody .. => true
  | _ => false

/-- Nobody is killed while it is in the middle of storing. -/
def Spares (s : State) : Event Point → Prop
  | .kill i | .setkilled i => ∀ p, s.phase i = .inside p → p.storing = false
  | _ => True

def Point.resumes : Point → Bool
  | .pipewrite .. | .piperead .. | .pipeclose _ | .rtest _ => true
  | .wtest _ _ fresh => !fresh
  | _ => false

/-- What the holder of the lock knows about the sleepers: it owes a `wakeup` to the side
that is missing. -/
def waking (d : Pipe) (A : Chan → Nat → Prop) (killed : Bool) : Point → Prop
  | .wtest _ _ true => writers d A ∧ killed = false ∧ d.readopen = true
  | .wbody _ _ fresh =>
    writers d A ∧ killed = false ∧ d.readopen = true ∧ (fresh = false → readers d A)
  | .wfull .. => d.WriteWaits
  | .wsleep .. => readers d A ∧ d.WriteWaits
  | .wend .. => writers d A
  | .rsleep _ => writers d A ∧ d.ReadWaits
  | .rcopy .. | .rend .. => readers d A
  | .cend writable => if writable then writers d A else readers d A
  | _ => readers d A ∧ writers d A

section

variable {d e : Pipe} {A B : Chan → Nat → Prop} {killed : Bool} {p q : Point} {task : Nat}

theorem readers_mono (fewer : ∀ k i, B k i → A k i) (h : readers d A) : readers d B :=
  fun i asleep => h i (fewer _ i asleep)

theorem writers_mono (fewer : ∀ k i, B k i → A k i) (h : writers d A) : writers d B :=
  fun i asleep => h i (fewer _ i asleep)

theorem waking_mono (fewer : ∀ k i, B k i → A k i) (h : waking d A killed p) :
    waking d B killed p := by
  have r := readers_mono (d := d) fewer
  have w := writers_mono (d := d) fewer
  unfold waking at h ⊢
  split at h <;> grind

theorem waking_enter (free : readers d A ∧ writers d A) (resumes : p.resumes = true) :
    waking d A killed p := by
  unfold waking
  split <;> simp_all [Point.resumes]

theorem waking_killed (spared : p.storing = false) (h : waking d A killed p) :
    waking d A true p := by
  unfold waking at h ⊢
  split at h <;> simp_all [Point.storing]

theorem waking_go (h : waking d A killed p) (did : Does d task killed p (.go e q)) :
    waking e A killed q := by
  cases did with
  | pipewrite => exact h
  | @wtest w i fresh more open_ alive =>
    cases fresh with
    | true => exact ⟨h.1, alive, open_, nofun⟩
    | false => exact ⟨h.2, alive, open_, fun _ => h.1⟩
  | @wdone w i fresh done =>
    cases fresh with
    | true => exact h.1
    | false => exact h.2
  | wfull full => exact ⟨full, h.2.2.1⟩
  | wfault room fault => exact h.1
  | wstore room byte =>
    -- the pipe was not full, so no writer sleeps
    exact ⟨fun i asleep => absurd (h.1 i asleep).1 room, h.2.1, h.2.2.1⟩
  | piperead => exact h
  | rwait empty open_ alive => exact ⟨h.2, empty, open_⟩
  | rready ready => exact h.1
  | rdone done => exact h
  | rempty more empty => exact h
  -- the pipe was not empty, so no reader sleeps
  | rtake more some_ works => exact fun i asleep => absurd (h i asleep).1 some_
  | rfault more some_ fails => exact fun i asleep => absurd (h i asleep).1 some_
  | @pipeclose writable =>
    cases writable with
    | true => exact h.2
    | false => exact h.1

theorem waking_wakeup {k : Chan} (h : waking d A killed p)
    (did : Does d task killed p (.wakeup k q)) : waking d (fun l i => A l i ∧ l ≠ k) killed q := by
  have fewer : ∀ l i, A l i ∧ l ≠ k → A l i := fun _ _ asleep => asleep.1
  cases did with
  | wrouse => exact ⟨fun _ asleep => absurd rfl asleep.2, h⟩
  | wend => exact ⟨fun _ asleep => absurd rfl asleep.2, writers_mono fewer h⟩
  | rend => exact ⟨readers_mono fewer h, fun _ asleep => absurd rfl asleep.2⟩
  | @cend writable =>
    cases writable with
    | true => exact ⟨fun _ asleep => absurd rfl asleep.2, writers_mono fewer h⟩
    | false => exact ⟨readers_mono fewer h, fun _ asleep => absurd rfl asleep.2⟩

theorem waking_sleep {k : Chan} (h : waking d A killed p)
    (did : Does d task killed p (.sleep k q)) : (readers d (fun l i => A l i ∨ l = k ∧ i = task) ∧
      writers d (fun l i => A l i ∨ l = k ∧ i = task)) ∧ q.resumes = true := by
  cases did with
  | wsleep => exact ⟨⟨fun i asleep => h.1 i (asleep.resolve_right nofun), fun _ _ => h.2⟩, rfl⟩
  | rsleep => exact ⟨⟨fun _ _ => h.2, fun i asleep => h.1 i (asleep.resolve_right nofun)⟩, rfl⟩

theorem waking_leave {r : Int} (h : waking d A killed p)
    (did : Does d task killed p (.leave e r)) : readers e A ∧ writers e A := by
  cases did with
  | @wfails w i fresh more fails =>
    cases fresh with
    | true =>
      obtain ⟨-, alive, open_⟩ := h
      simp [alive, open_] at fails
    | false => exact h
  | wleave => exact h
  | rfails empty open_ dead => exact h
  | rleave => exact h
  | cleave => exact h

end

def wakes : Outline code Spares where
  free d A := readers d A ∧ writers d A
  held d A _ killed p := waking d A killed p
  rest _ _ _ p := p.resumes = true
  call := by
    intro s i p _ begins
    cases p <;> first | rfl | cases begins
  enter free _ resumes := waking_enter free resumes
  go _ _ h acts := ⟨waking_go h (did acts), fun _ _ _ _ rest => rest⟩
  wakeup _ _ h acts := waking_wakeup h (did acts)
  sleep _ _ h acts := waking_sleep h (did acts)
  leave _ _ h acts := ⟨waking_leave h (did acts), fun _ _ _ _ rest => rest⟩
  mark spared :=
    ⟨fun _ inside h => waking_killed (spared.elim (· _ inside) (· _ inside)) h, fun _ rest => rest⟩
  rouse _ :=
    ⟨fun h => ⟨readers_mono (fun _ _ asleep => asleep.1) h.1,
      writers_mono (fun _ _ asleep => asleep.1) h.2⟩,
      fun _ h => waking_mono (fun _ _ asleep => asleep.1) h⟩
  tick _ := ⟨id, id, id⟩

/- While the locks are free, who sleeps has a reason to. -/
theorem pipe_sleepers_wait {s : State} (run : Run code Spares Boot s) (unlocked : s.lock = none) (i : Nat) (p : Point) :
    (s.phase i = .asleep .nread p → s.data.nread = s.data.nwrite ∧ s.data.writeopen = true) ∧
    (s.phase i = .asleep .nwrite p →
      s.data.nwrite = s.data.nread + BitVec.ofNat 32 PIPESIZE ∧ s.data.readopen = true) := by
  have inv : wakes.Inv s := Outline.Inv.run
    (fun s boot => ⟨boot.idle, fun _ => nofun, fun _ => nofun⟩) run
  obtain ⟨reads, writes⟩ := inv.free unlocked
  refine ⟨fun asleep => reads i ?_, fun asleep => writes i ?_⟩
  · rw [Sleeps, asleep]
    rfl
  · rw [Sleeps, asleep]
    rfl

def newPipe : State := ⟨pipealloc (fun _ => 0), none, none, fun _ => .out, fun _ => false⟩

theorem newPipe_boot : Boot newPipe where
  idle := ⟨rfl, rfl, fun _ => rfl⟩
  data := ⟨_, rfl⟩

/-- Task 0 goes to sleep in `piperead`. -/
def readerSleeps : List (Event Point) :=
  .call 0 (.piperead (fun _ => true) 1) :: List.replicate 5 (.go 0)

/-- Then task 1 stores the first of two bytes and is killed. -/
def writerDies : List (Event Point) :=
  readerSleeps ++ .call 1 (.pipewrite (fun _ => some 65) 2) :: List.replicate 4 (.go 1) ++
    [.kill 1, .go 1]

theorem readerSleeps_spares (s : State) : ∀ e ∈ readerSleeps, Spares s e := by
  intro e mem
  rcases List.mem_cons.mp mem with rfl | mem
  · trivial
  · rw [List.eq_of_mem_replicate mem]
    trivial

theorem readerSleeps_waits :
    ∃ s p, Run code Spares Boot s ∧ s.lock = none ∧ s.phase 0 = .asleep .nread p ∧
      s.data.nread = s.data.nwrite ∧ s.data.writeopen = true := by
  have run : Run code Spares Boot (Prog.played (step code) newPipe readerSleeps) :=
    Run.play readerSleeps newPipe_boot readerSleeps_spares rfl
  exact ⟨_, _, run, rfl, rfl, (pipe_sleepers_wait run rfl 0 _).1 rfl⟩

theorem writerDies_reader_sleeps :
    ∃ s p, Run code (fun _ _ => True) Boot s ∧ s.lock = none ∧ s.inner = none ∧
      s.phase 0 = .asleep .nread p ∧ s.data.nread ≠ s.data.nwrite := by
  have run : Run code (fun _ _ => True) Boot (Prog.played (step code) newPipe writerDies) :=
    Run.play writerDies newPipe_boot (fun _ _ _ => trivial) rfl
  exact ⟨_, _, run, rfl, rfl, rfl, by decide⟩

end UvaOs.Pipes
