import UvaOs.Lib.Monitor

/-! The devices that a read or write may have to wait for: the console (kernel/console.c), the
keyboard (kernel/kb.c) and the sound queue (kernel/sound.c), each with its interrupt handler.

A user's buffer is given by the places where `either_copyout` works. What is printed on the
terminal and the sound samples are left out. -/
namespace UvaOs

open Monitor

namespace Console

def INPUT_BUF_SIZE : Nat := 128

structure Cons where
  buf : Nat → UInt8
  r : BitVec 32
  w : BitVec 32
  e : BitVec 32

structure Read where
  dst : Nat → Bool
  n : Int

inductive Point where
  | consoleread (c : Read)
  | loop (c : Read) (k : Nat)
  | wait (c : Read) (k : Nat)
  | doze (c : Read) (k : Nat)
  | take (c : Read) (k : Nat)
  | consoleintr (ch : UInt8)
  | wake
  | done

namespace Cons

def get (d : Cons) (i : BitVec 32) : UInt8 := d.buf (i.toNat % INPUT_BUF_SIZE)

def killLine : Nat → Cons → Cons
  | 0, d => d
  | fuel + 1, d =>
    if d.e ≠ d.w ∧ d.get (d.e - 1) ≠ 10 then killLine fuel { d with e := d.e - 1 } else d

def edit (d : Cons) (ch : UInt8) : Cons :=
  { d with buf := Function.update d.buf (d.e.toNat % INPUT_BUF_SIZE) ch, e := d.e + 1 }

end Cons

/-- The default case of `consoleintr`: store the character, and show the line to the readers
when it is complete. -/
def store (d : Cons) (ch : UInt8) : Act Cons Point Unit :=
  if ch ≠ 0 ∧ (d.e - d.r).toNat < INPUT_BUF_SIZE then
    let ch := if ch = 13 then 10 else ch
    let d := d.edit ch
    if ch = 10 ∨ ch = 4 ∨ (d.e - d.r).toNat = INPUT_BUF_SIZE then .go { d with w := d.e } .wake
    else .leave d 0
  else .leave d 0

def act (d : Cons) (killed : Bool) : Point → Act Cons Point Unit
  | .consoleread c => .go d (.loop c 0)
  | .loop c k => if k < c.n then .go d (.wait c k) else .leave d k
  | .wait c k =>
    if d.r = d.w then
      if killed then .leave d (-1) else .go d (.doze c k)
    else .go d (.take c k)
  | .doze c k => .sleep () (.wait c k)
  | .take c k =>
    if d.get d.r = 4 then
      -- control-D stays for the next read if this one has got something
      .leave (if 0 < k then d else { d with r := d.r + 1 }) k
    else if c.dst k = false then .leave { d with r := d.r + 1 } k
    else if d.get d.r = 10 then .leave { d with r := d.r + 1 } (k + 1)
    else .go { d with r := d.r + 1 } (.loop c (k + 1))
  | .consoleintr ch =>
    if ch = 16 then .leave d 0
    else if ch = 21 then .leave (d.killLine (d.e - d.w).toNat) 0
    else if ch = 8 ∨ ch = 127 then .leave (if d.e ≠ d.w then { d with e := d.e - 1 } else d) 0
    else store d ch
  | .wake => .wakeup () .done
  | .done => .leave d 0

def start : Point → Bool
  | .consoleread _ | .consoleintr _ => true
  | _ => false

def code : Code Cons Point Unit := ⟨fun _ => start, fun d _ => act d, fun d _ => d⟩

abbrev State : Type := Monitor.State Cons Point Unit

inductive Does (d : Cons) (killed : Bool) : Point → Act Cons Point Unit → Prop
  | consoleread {c} : Does d killed (.consoleread c) (.go d (.loop c 0))
  | loop {c : Read} {k : Nat} : (k : Int) < c.n → Does d killed (.loop c k) (.go d (.wait c k))
  | full {c : Read} {k : Nat} : c.n ≤ k → Does d killed (.loop c k) (.leave d k)
  | killed {c k} : d.r = d.w → killed = true → Does d killed (.wait c k) (.leave d (-1))
  | wait {c k} : d.r = d.w → killed = false → Does d killed (.wait c k) (.go d (.doze c k))
  | ready {c k} : d.r ≠ d.w → Does d killed (.wait c k) (.go d (.take c k))
  | doze {c k} : Does d killed (.doze c k) (.sleep () (.wait c k))
  | eof {c k} : d.get d.r = 4 →
      Does d killed (.take c k) (.leave (if 0 < k then d else { d with r := d.r + 1 }) k)
  | fault {c : Read} {k : Nat} : c.dst k = false →
      Does d killed (.take c k) (.leave { d with r := d.r + 1 } k)
  | line {c : Read} {k : Nat} : c.dst k = true → d.get d.r = 10 →
      Does d killed (.take c k) (.leave { d with r := d.r + 1 } (k + 1))
  | take {c : Read} {k : Nat} : c.dst k = true →
      Does d killed (.take c k) (.go { d with r := d.r + 1 } (.loop c (k + 1)))
  | edited {ch e} : Does d killed (.consoleintr ch) (.leave e 0)
  | stored {ch e} : Does d killed (.consoleintr ch) (.go e .wake)
  | wake : Does d killed .wake (.wakeup () .done)
  | done : Does d killed .done (.leave d 0)

theorem does (d : Cons) (killed : Bool) (p : Point) : Does d killed p (act d killed p) := by
  cases p with
  | consoleread c => exact .consoleread
  | loop c k =>
    simp only [act]
    split
    · rename_i more
      exact .loop more
    · rename_i full
      exact .full (Int.not_lt.mp full)
  | wait c k =>
    simp only [act]
    split
    · rename_i empty
      split
      · rename_i dead
        exact .killed empty dead
      · rename_i alive
        exact .wait empty (Bool.not_eq_true _ ▸ alive)
    · rename_i ready
      exact .ready ready
  | doze c k => exact .doze
  | take c k =>
    simp only [act]
    split
    · rename_i eof
      exact .eof eof
    · split
      · rename_i fault
        exact .fault fault
      · rename_i works
        rw [Bool.not_eq_false] at works
        split
        · rename_i line
          exact .line works line
        · exact .take works
  | consoleintr ch =>
    simp only [act, store]
    split
    · exact .edited
    · split
      · exact .edited
      · split
        · exact .edited
        · split
          · generalize (if ch = 13 then (10 : UInt8) else ch) = stored
            split
            · exact .stored
            · exact .edited
          · exact .edited
  | wake => exact .wake
  | done => exact .done

theorem did {d : Cons} {task : Nat} {killed : Bool} {p : Point} {a : Act Cons Point Unit}
    (acts : code.act d task killed p = a) : Does d killed p a := acts ▸ does ..

end Console

namespace Kb

def INPUT_BUF_SIZE : Nat := 8
def NUM_SCANCODES : Nat := 100
def TXTSIZE : Nat := 20

/-- `struct kbevent`; `up` is its type. -/
structure KbEvent where
  up : Bool
  mod : UInt8
  scancode : Nat

inductive KeyState where
  | released | contPressed | justPressed
  deriving DecidableEq

structure Keyboard where
  buf : Nat → KbEvent
  r : BitVec 32
  w : BitVec 32
  keys : Nat → KeyState

structure Read where
  dst : Nat → Bool
  n : Int
  blocking : Bool

inductive Point where
  | kbRead (c : Read)
  | wait (c : Read)
  | doze (c : Read)
  | take (c : Read)
  | kbIntr (mod : UInt8) (keys : List Nat)
  | wake
  | done

namespace Keyboard

def press (d : Keyboard) (c : Nat) (s : KeyState) : Keyboard :=
  { d with keys := Function.update d.keys c s }

def put (d : Keyboard) (ev : KbEvent) : Keyboard :=
  if (d.w - d.r).toNat < INPUT_BUF_SIZE then
    { d with buf := Function.update d.buf (d.w.toNat % INPUT_BUF_SIZE) ev, w := d.w + 1 }
  else d

def downs (mod : UInt8) : List Nat → Keyboard → Keyboard
  | [], d => d
  | c :: keys, d =>
    if NUM_SCANCODES < c then downs mod keys d
    else if c = 0 then d
    else
      match d.keys c with
      | .released => downs mod keys ((d.put ⟨false, mod, c⟩).press c .justPressed)
      | .contPressed => downs mod keys (d.press c .justPressed)
      | .justPressed => downs mod keys d

def ups (mod : UInt8) : List Nat → Keyboard → Keyboard
  | [], d => d
  | c :: codes, d =>
    match d.keys c with
    | .contPressed => ups mod codes ((d.put ⟨true, mod, c⟩).press c .released)
    | .justPressed => ups mod codes (d.press c .contPressed)
    | .released => ups mod codes d

end Keyboard

def hexDigit (d : Nat) : UInt8 := UInt8.ofNat (if d < 10 then 48 + d else 87 + d)

/-- The text of an event, `"kd 0x%02x\n"` or `"ku 0x%02x\n"`; the scancode is a byte. -/
def KbEvent.text (ev : KbEvent) : List UInt8 :=
  [107, if ev.up then 117 else 100, 32, 48, 120, hexDigit (ev.scancode / 16 % 16),
    hexDigit (ev.scancode % 16), 10]

def textLength : Nat := 8

def act (d : Keyboard) (killed : Bool) : Point → Act Keyboard Point Unit
  | .kbRead c => if 0 < c.n then .go d (.wait c) else .leave d 0
  | .wait c =>
    if d.r = d.w then
      if c.blocking = false then .leave d (-1)
      else if killed then .leave d (-1)
      else .go d (.doze c)
    else .go d (.take c)
  | .doze c => .sleep () (.wait c)
  | .take c =>
    if c.n < TXTSIZE then .leave d 0
    else if (List.range textLength).all c.dst then .leave { d with r := d.r + 1 } textLength
    else .leave { d with r := d.r + 1 } 0
  | .kbIntr mod keys =>
    .go ((d.downs mod (keys.take 6)).ups mod ((List.range NUM_SCANCODES).drop 2)) .wake
  | .wake => .wakeup () .done
  | .done => .leave d 0

def start : Point → Bool
  | .kbRead _ => true
  -- with too many keys the handler does nothing
  | .kbIntr _ keys => keys.head? != some 1
  | _ => false

def code : Code Keyboard Point Unit := ⟨fun _ => start, fun d _ => act d, fun d _ => d⟩

abbrev State : Type := Monitor.State Keyboard Point Unit

inductive Does (d : Keyboard) (killed : Bool) : Point → Act Keyboard Point Unit → Prop
  | kbRead {c : Read} : 0 < c.n → Does d killed (.kbRead c) (.go d (.wait c))
  | nothing {c : Read} : c.n ≤ 0 → Does d killed (.kbRead c) (.leave d 0)
  | fails {c : Read} : d.r = d.w → c.blocking = false ∨ killed = true →
      Does d killed (.wait c) (.leave d (-1))
  | wait {c} : d.r = d.w → killed = false → Does d killed (.wait c) (.go d (.doze c))
  | ready {c} : d.r ≠ d.w → Does d killed (.wait c) (.go d (.take c))
  | doze {c} : Does d killed (.doze c) (.sleep () (.wait c))
  | small {c : Read} : c.n < TXTSIZE → Does d killed (.take c) (.leave d 0)
  | take {c : Read} : TXTSIZE ≤ c.n →
      Does d killed (.take c) (.leave { d with r := d.r + 1 } textLength)
  | fault {c} : Does d killed (.take c) (.leave { d with r := d.r + 1 } 0)
  | kbIntr {mod keys e} : Does d killed (.kbIntr mod keys) (.go e .wake)
  | wake : Does d killed .wake (.wakeup () .done)
  | done : Does d killed .done (.leave d 0)

theorem does (d : Keyboard) (killed : Bool) (p : Point) : Does d killed p (act d killed p) := by
  cases p with
  | kbRead c =>
    simp only [act]
    split
    · rename_i some_
      exact .kbRead some_
    · rename_i none_
      exact .nothing (Int.not_lt.mp none_)
  | wait c =>
    simp only [act]
    split
    · rename_i empty
      split
      · rename_i quick
        exact .fails empty (.inl quick)
      · split
        · rename_i dead
          exact .fails empty (.inr dead)
        · rename_i alive
          exact .wait empty (Bool.not_eq_true _ ▸ alive)
    · rename_i ready
      exact .ready ready
  | doze c => exact .doze
  | take c =>
    simp only [act]
    split
    · rename_i small
      exact .small small
    · rename_i room
      split
      · exact .take (Int.not_lt.mp room)
      · exact .fault
  | kbIntr mod keys => exact .kbIntr
  | wake => exact .wake
  | done => exact .done

theorem did {d : Keyboard} {task : Nat} {killed : Bool} {p : Point} {a : Act Keyboard Point Unit}
    (acts : code.act d task killed p = a) : Does d killed p a := acts ▸ does ..

end Kb

namespace Sound

structure Queue where
  inPtr : Nat
  outPtr : Nat
  size : Nat
  needDataThreshold : Nat
  hwFrame : Nat
  writeFrame : Nat
  /-- The samples have to be converted. -/
  convert : Bool

namespace Queue

def bytesFree (d : Queue) : Nat :=
  if d.outPtr ≤ d.inPtr then d.size + d.outPtr - d.inPtr - 1 else d.outPtr - d.inPtr - 1

def bytesAvail (d : Queue) : Nat :=
  if d.inPtr < d.outPtr then d.size + d.inPtr - d.outPtr else d.inPtr - d.outPtr

def enqueue (d : Queue) (n : Nat) : Queue := { d with inPtr := (d.inPtr + n) % d.size }

/-- `EnqueueFromUser`; its second part copies as much as the first. -/
def enqueueFromUser (d : Queue) (n : Nat) : Queue :=
  let len := min n (d.size - d.inPtr)
  if n = len then { d with inPtr := (d.inPtr + len) % d.size }
  else { d with inPtr := (d.inPtr + len) % d.size + len }

def dequeue (d : Queue) (n : Nat) : Queue := { d with outPtr := (d.outPtr + n) % d.size }

/-- The loop that converts one frame at a time; it has stored `done` bytes. -/
def convertFrames : Nat → Nat → Nat → Queue → Queue × Nat
  | 0, _, done, d => (d, done)
  | fuel + 1, count, done, d =>
    if d.writeFrame ≤ count ∧ d.hwFrame ≤ d.bytesFree then
      convertFrames fuel (count - d.writeFrame) (done + d.writeFrame) (d.enqueue d.hwFrame)
    else (d, done)

end Queue

inductive Point where
  /-- `readable` tells whether `either_copyin` works. -/
  | soundWrite (count : Nat) (readable : Bool)
  | getChunk (bytes : Nat)
  | wake
  | done

def act (d : Queue) : Point → Act Queue Point Unit
  | .soundWrite count readable =>
    if d.bytesFree = 0 then .sleep () (.soundWrite count readable)
    else if d.convert then
      if readable then
        let (d, done) := d.convertFrames count count 0
        .leave d done
      else .leave d 0
    else
      -- a multiple of the frame size, which is a power of two
      let bytes := min d.bytesFree count / d.writeFrame * d.writeFrame
      if bytes = 0 then .leave d 0
      else if readable then .leave (d.enqueueFromUser bytes) bytes
      else .halt
  | .getChunk bytes =>
    let taken := min d.bytesAvail bytes
    if d.bytesAvail - taken < d.needDataThreshold then .go (d.dequeue taken) .wake
    else .leave (d.dequeue taken) 0
  | .wake => .wakeup () .done
  | .done => .leave d 0

def start : Point → Bool
  | .soundWrite .. | .getChunk _ => true
  | _ => false

def code : Code Queue Point Unit := ⟨fun _ => start, fun d _ _ => act d, fun d _ => d⟩

abbrev State : Type := Monitor.State Queue Point Unit

end Sound

end UvaOs
