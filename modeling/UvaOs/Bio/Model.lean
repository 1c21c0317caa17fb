import UvaOs.Lib.Prog
import UvaOs.Lib.Bytes

/-! The buffer cache of kernel/bio.c. Any number of calls are in progress, each between the
`bget` of a buffer and its `brelse`; a task may have several of them. The drivers read and
write the block that is asked for. -/
namespace UvaOs.Bio

open Prog Bytes

def NBUF : Nat := 30

def DEV_RAMDISK : Nat := 1
def DEV_VIRTDISK : Nat := 2
def DEV_SD0 : Nat := 3
def DEV_SD3 : Nat := 6

/-- The devices that `bread` and `bwrite` have a driver for; `virt` is `PLAT_VIRT`. -/
def Driven (virt : Bool) (dev : Nat) : Prop :=
  dev = DEV_RAMDISK ∨ (virt = true ∧ dev = DEV_VIRTDISK) ∨ (DEV_SD0 ≤ dev ∧ dev ≤ DEV_SD3)

instance (virt : Bool) (dev : Nat) : Decidable (Driven virt dev) :=
  inferInstanceAs (Decidable (_ ∨ _ ∨ _))

/-- `struct buf`; its lock and its place in the list are in the state. -/
structure Buf where
  valid : Bool
  dev : Nat
  blockno : Nat
  refcnt : Nat
  data : Buffer

/-- Where a call is, with the buffer that it has and the block that it asked for. `waiting` is
before `acquiresleep`, `locked` in `bread` and `owned` in `disk_write` after it; the bytes are
those of the disk in `held` and not yet written in `changed`. -/
inductive Phase where
  | out
  | waiting (b dev blockno : Nat) (fill : Bool)
  | locked (b dev blockno : Nat)
  | owned (b dev blockno : Nat)
  | held (b dev blockno : Nat)
  | changed (b dev blockno : Nat)

namespace Phase

def on : Phase → Option (Nat × Nat × Nat)
  | out => none
  | waiting b dev blockno _ => some (b, dev, blockno)
  | locked b dev blockno => some (b, dev, blockno)
  | owned b dev blockno => some (b, dev, blockno)
  | held b dev blockno => some (b, dev, blockno)
  | changed b dev blockno => some (b, dev, blockno)

def locks : Phase → Bool
  | out => false
  | waiting .. => false
  | _ => true

end Phase

abbrev Disk : Type := Nat → Nat → Buffer

def Disk.put (d : Disk) (dev blockno : Nat) (x : Buffer) : Disk :=
  Function.update d dev (Function.update (d dev) blockno x)

/-- What a client sees: the bytes that a `bread` returned, and those that a `bwrite` wrote. -/
inductive Access where
  | read (dev blockno : Nat) (x : Buffer)
  | write (dev blockno : Nat) (x : Buffer)

structure State where
  buf : Nat → Buf
  /-- The list from `head.next` on. -/
  order : List Nat
  lock : Nat → Option Nat
  phase : Nat → Phase
  disk : Disk
  /-- All accesses, the last one first. -/
  past : List Access

inductive Stop where
  | panic
  | bug
  | blocked
  deriving DecidableEq, Repr

namespace State

def putBuf (s : State) (b : Nat) (x : Buf) : State := { s with buf := Function.update s.buf b x }

def goTo (s : State) (c : Nat) (p : Phase) : State := { s with phase := Function.update s.phase c p }

def saw (s : State) (a : Access) : State := { s with past := a :: s.past }

def isBlock (s : State) (dev blockno b : Nat) : Bool :=
  decide ((s.buf b).dev = dev ∧ (s.buf b).blockno = blockno)

/-- `bget` up to `acquiresleep`. -/
def bget (s : State) (dev blockno : Nat) : Except Stop (Nat × State) :=
  match s.order.find? (s.isBlock dev blockno) with
  | some b => .ok (b, s.putBuf b { s.buf b with refcnt := (s.buf b).refcnt + 1 })
  | none =>
    match s.order.reverse.find? (fun b => decide ((s.buf b).refcnt = 0)) with
    | some b => .ok (b, s.putBuf b ⟨false, dev, blockno, 1, (s.buf b).data⟩)
    | none => .error .panic

def fill (virt : Bool) (s : State) (b dev : Nat) : Except Stop State :=
  if (s.buf b).valid then .ok s
  else if Driven virt dev then
    .ok (s.putBuf b { s.buf b with valid := true, data := s.disk dev (s.buf b).blockno })
  else .error .bug

def bwrite (virt : Bool) (s : State) (c b : Nat) : Except Stop State :=
  if s.lock b ≠ some c then .error .panic
  else if Driven virt (s.buf b).dev then
    .ok ({ s with disk := s.disk.put (s.buf b).dev (s.buf b).blockno (s.buf b).data }.saw
      (.write (s.buf b).dev (s.buf b).blockno (s.buf b).data))
  else .error .bug

def brelse (s : State) (c b : Nat) : Except Stop State :=
  if s.lock b ≠ some c then .error .panic
  else
    let s := { s with lock := Function.update s.lock b none }
    let s := s.putBuf b { s.buf b with refcnt := (s.buf b).refcnt - 1 }
    if (s.buf b).refcnt = 0 then .ok { s with order := b :: s.order.erase b } else .ok s

end State

open State

inductive Event where
  | bget (c dev blockno : Nat) (fill : Bool)
  | acquiresleep (c : Nat)
  | fill (c : Nat)
  | modify (c : Nat) (f : Buffer → Buffer)
  | overwrite (c : Nat) (x : Buffer)
  | bwrite (c : Nat)
  | brelse (c : Nat)

/-- One step of a call. What has been changed is written before the buffer is released. -/
def step (virt : Bool) (s : State) : Event → Except Stop State
  | .bget c dev blockno fill =>
    match s.phase c with
    | .out =>
      match s.bget dev blockno with
      | .ok (b, t) => .ok (t.goTo c (.waiting b dev blockno fill))
      | .error e => .error e
    | _ => .error .blocked
  | .acquiresleep c =>
    match s.phase c with
    | .waiting b dev blockno fill =>
      if s.lock b = none then
        .ok ({ s with lock := Function.update s.lock b (some c) }.goTo c
          (if fill then .locked b dev blockno else .owned b dev blockno))
      else .error .blocked
    | _ => .error .blocked
  | .fill c =>
    match s.phase c with
    | .locked b dev blockno =>
      match s.fill virt b dev with
      | .ok t => .ok ((t.saw (.read dev blockno (t.buf b).data)).goTo c (.held b dev blockno))
      | .error e => .error e
    | _ => .error .blocked
  | .modify c f =>
    match s.phase c with
    | .held b dev blockno =>
      .ok ((s.putBuf b { s.buf b with data := f (s.buf b).data }).goTo c (.changed b dev blockno))
    | _ => .error .blocked
  | .overwrite c x =>
    match s.phase c with
    | .owned b dev blockno =>
      .ok ((s.putBuf b { s.buf b with data := x }).goTo c (.changed b dev blockno))
    | _ => .error .blocked
  | .bwrite c =>
    match s.phase c with
    | .changed b dev blockno =>
      match s.bwrite virt c b with
      | .ok t => .ok (t.goTo c (.held b dev blockno))
      | .error e => .error e
    | _ => .error .blocked
  | .brelse c =>
    match s.phase c with
    | .held b _ _ =>
      match s.brelse c b with
      | .ok t => .ok (t.goTo c .out)
      | .error e => .error e
    | _ => .error .blocked

/-- `binit`, on zeroed memory. -/
structure Boot (disk : Disk) (s : State) : Prop where
  buf : ∀ b, (s.buf b).valid = false ∧ (s.buf b).refcnt = 0
  order : s.order = (List.range NBUF).reverse
  lock : ∀ b, s.lock b = none
  phase : ∀ c, s.phase c = .out
  disk : s.disk = disk
  past : s.past = []

def Next (virt : Bool) (s t : State) : Prop := ∃ e, step virt s e = .ok t

/-! Whole operations -/

/-- What the clients of the cache do: `bread` and `brelse`; `bread`, a change, `bwrite` and
`brelse`; `disk_read` and `disk_write` of FatFs for a number of sectors. -/
inductive Op where
  | look (dev blockno : Nat)
  | edit (dev blockno : Nat) (f : Buffer → Buffer)
  | diskRead (dev sector count : Nat)
  | diskWrite (dev sector : Nat) (data : List Buffer)

def look (c dev blockno : Nat) : List Event :=
  [.bget c dev blockno true, .acquiresleep c, .fill c, .brelse c]

def edit (c dev blockno : Nat) (f : Buffer → Buffer) : List Event :=
  [.bget c dev blockno true, .acquiresleep c, .fill c, .modify c f, .bwrite c, .brelse c]

def replace (c dev blockno : Nat) (x : Buffer) : List Event :=
  [.bget c dev blockno false, .acquiresleep c, .overwrite c x, .bwrite c, .brelse c]

def diskRead (c dev sector : Nat) : Nat → List Event
  | 0 => []
  | count + 1 => look c dev sector ++ diskRead c dev (sector + 1) count

def diskWrite (c dev sector : Nat) : List Buffer → List Event
  | [] => []
  | x :: rest => replace c dev sector x ++ diskWrite c dev (sector + 1) rest

def Op.events (c : Nat) : Op → List Event
  | look dev blockno => Bio.look c dev blockno
  | edit dev blockno f => Bio.edit c dev blockno f
  | diskRead dev sector count => Bio.diskRead c dev sector count
  | diskWrite dev sector data => Bio.diskWrite c dev sector data

def Op.dev : Op → Nat
  | look dev _ => dev
  | edit dev _ _ => dev
  | diskRead dev _ _ => dev
  | diskWrite dev _ _ => dev

/-! A disk without a cache -/

/-- The bytes last written to a block, or those of `init`. -/
def latest (init : Disk) : List Access → Disk
  | [] => init
  | .read .. :: past => latest init past
  | .write dev blockno x :: past => (latest init past).put dev blockno x

def Faithful (init : Disk) : List Access → Prop
  | [] => True
  | .read dev blockno x :: past => x = latest init past dev blockno ∧ Faithful init past
  | .write .. :: past => Faithful init past

/-- The accesses that an operation makes on a disk without a cache, the last one first. -/
def plainRead (d : Disk) (dev sector : Nat) : Nat → List Access
  | 0 => []
  | count + 1 => plainRead d dev (sector + 1) count ++ [.read dev sector (d dev sector)]

def plainWrite (dev sector : Nat) : List Buffer → List Access
  | [] => []
  | x :: rest => plainWrite dev (sector + 1) rest ++ [.write dev sector x]

def Op.plain (d : Disk) : Op → List Access
  | look dev blockno => [.read dev blockno (d dev blockno)]
  | edit dev blockno f =>
    [.write dev blockno (f (d dev blockno)), .read dev blockno (d dev blockno)]
  | diskRead dev sector count => plainRead d dev sector count
  | diskWrite dev sector data => plainWrite dev sector data

def plainRun (d : Disk) : List Op → List Access
  | [] => []
  | op :: rest => plainRun (latest d (op.plain d)) rest ++ op.plain d

end UvaOs.Bio
