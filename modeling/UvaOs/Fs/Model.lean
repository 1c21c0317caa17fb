import UvaOs.Lib.Prog
import UvaOs.Lib.Bytes

/-! The inode layer of kernel/fs.c: block bitmap, inode table, block map, and
reading and writing of file contents.

A block is what `bread` returns for it, so the buffer cache is not part of the
state. The bitmap blocks and the inode blocks are kept decoded, as a bit for
each block and a `struct dinode` for each inode number; the data area, with the
index blocks in it, is kept as bytes. System calls run one at a time here, so the
sleep locks of inodes and buffers never block and are left out. -/
namespace UvaOs.Fs

open Bytes

/-! fs.h and param.h -/

@[simp] def BSIZE : Nat := 512
@[simp] def NDIRECT : Nat := 12
@[simp] def NINDIRECT : Nat := 128
@[simp] def MAXFILE : Nat := NDIRECT + NINDIRECT + NINDIRECT * NINDIRECT
theorem maxBytes : MAXFILE * BSIZE = 8460288 := by decide

@[simp] def NINODE : Nat := 50
@[simp] def ROOTDEV : Nat := 1
@[simp] def ROOTINO : Nat := 1
/-- One more than the largest `uint`. -/
@[simp] def UINT : Nat := 2 ^ 32

/-- `inode::type` in stat.h; zero on disk means a free inode. -/
inductive IType where
  | free | dir | file | device | procfs | fileFat | dirFat
  deriving DecidableEq, Repr

def isFattype : IType → Bool
  | .fileFat | .dirFat => true
  | _ => false

/-- Why the machine stopped: a `panic` or a failed `assert`/`BUG_ON`. -/
inductive Panic where
  | freeingFreeBlock | igetNoInodes | ilock | ilockNoType | bmapOutOfRange
  | dirlookupNotDir | dirlookupRead | dirlinkRead | isdiremptyReadi
  | unlinkNlink | unlinkWritei | filedup | fileclose | initExiting | bug
  deriving DecidableEq, Repr

/-- The fields of `struct superblock` that the kernel reads after mounting,
apart from the block numbers of the regions that are kept decoded. -/
structure Superblock where
  size : Nat
  nblocks : Nat
  ninodes : Nat

/-- On-disk inode; `addrs` is read at indices below `NDIRECT + 2` only. -/
structure Dinode where
  type : IType
  major : Int
  minor : Int
  nlink : Int
  size : Nat
  addrs : Nat → Nat

/-- `memset(dip, 0, sizeof(*dip))`. -/
def Dinode.zero : Dinode := ⟨.free, 0, 0, 0, 0, fun _ => 0⟩

/-- In-memory inode; `copy` holds the fields that the disk inode has too. -/
structure Inode where
  dev : Nat
  inum : Nat
  ref : Int
  valid : Bool
  copy : Dinode

structure FsState where
  sb : Superblock
  bitmap : Nat → Bool
  dinode : Nat → Dinode
  block : Nat → Buffer
  itable : Nat → Inode

abbrev FsM (α : Type) : Type := Prog FsState Panic α

namespace FsState

@[simps -fullyApplied sb bitmap dinode block itable] def mark (s : FsState) (b : Nat) (used : Bool) : FsState :=
  { s with bitmap := Function.update s.bitmap b used }

@[simps -fullyApplied sb bitmap dinode block itable] def putBlock (s : FsState) (b : Nat) (data : Buffer) : FsState :=
  { s with block := Function.update s.block b data }

@[simps -fullyApplied sb bitmap dinode block itable] def putDinode (s : FsState) (inum : Nat) (d : Dinode) : FsState :=
  { s with dinode := Function.update s.dinode inum d }

@[simps -fullyApplied sb bitmap dinode block itable] def putInode (s : FsState) (ip : Nat) (i : Inode) : FsState :=
  { s with itable := Function.update s.itable ip i }

/-- Change the fields of an in-memory inode that live on disk. -/
def onCopy (s : FsState) (ip : Nat) (f : Dinode → Dinode) : FsState :=
  s.putInode ip { s.itable ip with copy := f (s.itable ip).copy }

end FsState

open FsState Prog

/-! Blocks -/

def bread (b : Nat) : FsM Buffer := do
  let s ← get
  pure (s.block b)

def logWrite (b : Nat) (data : Buffer) : FsM Unit := modify (·.putBlock b data)

def bzero (b : Nat) : FsM Unit := logWrite b zeros

/-- The first clear bit at or after `b`, among the next `left` bits. The scan of
`balloc`, bitmap block by bitmap block and bit by bit, visits them in this order. -/
def firstFree (bitmap : Nat → Bool) : Nat → Nat → Option Nat
  | _, 0 => none
  | b, left + 1 => if bitmap b then firstFree bitmap (b + 1) left else some b

def balloc : FsM Nat := do
  let s ← get
  match firstFree s.bitmap 0 s.sb.size with
  | some b => do
    modify (·.mark b true)
    bzero b
    pure b
  | none => pure 0

def bfree (b : Nat) : FsM Unit := do
  let s ← get
  if s.bitmap b = false then stop .freeingFreeBlock else modify (·.mark b false)

/-! Inodes -/

def inode (ip : Nat) : FsM Inode := do
  let s ← get
  pure (s.itable ip)

theorem run_inode {α : Type} (ip : Nat) (f : Inode → FsM α) (s : FsState) :
    (inode ip >>= f) s = f (s.itable ip) s := rfl

def iupdate (ip : Nat) : FsM Unit := do
  let i ← inode ip
  if isFattype i.copy.type then stop .bug
  else modify (·.putDinode i.inum i.copy)

def iget (dev inum : Nat) : FsM Nat := do
  let s ← get
  match (List.range NINODE).find? (fun i => decide (0 < (s.itable i).ref ∧
      (s.itable i).dev = dev ∧ (s.itable i).inum = inum)) with
  | some i => do
    modify (·.putInode i { s.itable i with ref := (s.itable i).ref + 1 })
    pure i
  | none =>
    match (List.range NINODE).find? (fun i => decide ((s.itable i).ref = 0)) with
    | some i => do
      modify (·.putInode i { s.itable i with dev := dev, inum := inum, ref := 1, valid := false })
      pure i
    | none => stop .igetNoInodes

def idup (ip : Nat) : FsM Nat := do
  modify (fun s => s.putInode ip { s.itable ip with ref := (s.itable ip).ref + 1 })
  pure ip

def firstFreeInode (dinode : Nat → Dinode) : Nat → Nat → Option Nat
  | _, 0 => none
  | inum, left + 1 =>
    if (dinode inum).type = .free then some inum else firstFreeInode dinode (inum + 1) left

def ialloc (type : IType) : FsM (Option Nat) := do
  if isFattype type then stop .bug
  else do
    let s ← get
    match firstFreeInode s.dinode 1 (s.sb.ninodes - 1) with
    | some inum => do
      modify (·.putDinode inum { Dinode.zero with type := type })
      let ip ← iget ROOTDEV inum
      pure (some ip)
    | none => pure none

def ilock (ip : Nat) : FsM Unit := do
  let i ← inode ip
  if i.ref < 1 then stop .ilock
  else if i.valid then pure ()
  else do
    let s ← get
    modify (·.putInode ip { i with copy := s.dinode i.inum, valid := true })
    if (s.dinode i.inum).type = .free then stop .ilockNoType else pure ()

/-- `ip->addrs[k]`, allocated if it is absent. -/
def rootBlock (ip k : Nat) : FsM Nat := do
  let i ← inode ip
  if i.copy.addrs k = 0 then do
    let addr ← balloc
    if addr = 0 then pure 0
    else do
      modify (·.onCopy ip (fun d => { d with addrs := Function.update d.addrs k addr }))
      pure addr
  else pure (i.copy.addrs k)

/-- Entry `j` of the single-indirect block, allocated if it is absent. The index
block is written back only when the allocation succeeded. -/
def indirectEntry (addr j : Nat) : FsM Nat := do
  let a ← bread addr
  if word a j = 0 then do
    let b ← balloc
    if b = 0 then pure 0
    else do
      modify (fun s => s.putBlock addr (setWord (s.block addr) j b))
      pure b
  else pure (word a j)

/-- Entry `j` of a block of the doubly-indirect tree, allocated if it is absent.
The result of `balloc` is stored whether or not it is zero. -/
def doublyEntry (addr j : Nat) : FsM Nat := do
  let a ← bread addr
  if word a j = 0 then do
    let b ← balloc
    modify (fun s => s.putBlock addr (setWord (s.block addr) j b))
    pure b
  else pure (word a j)

/-- The disk block address of the `bn`th block of inode `ip`, allocated on the
way if there is no such block; zero if out of disk space. -/
def bmap (ip bn : Nat) : FsM Nat :=
  if bn < NDIRECT then rootBlock ip bn
  else if bn - NDIRECT < NINDIRECT then do
    let addr ← rootBlock ip NDIRECT
    if addr = 0 then pure 0 else indirectEntry addr (bn - NDIRECT)
  else
    let bn := bn - NDIRECT - NINDIRECT
    if bn < NINDIRECT * NINDIRECT then do
      -- unlike the other levels, a failed allocation here goes on with block 0
      let addr ← rootBlock ip (NDIRECT + 1)
      let addr ← doublyEntry addr (bn / NINDIRECT)
      if addr = 0 then stop .bug else doublyEntry addr (bn % NINDIRECT)
    else stop .bmapOutOfRange

def truncDirect (ip k : Nat) : FsM Unit := do
  let i ← inode ip
  if i.copy.addrs k = 0 then pure ()
  else do
    bfree (i.copy.addrs k)
    modify (·.onCopy ip (fun d => { d with addrs := Function.update d.addrs k 0 }))

/-- Truncate inode. The doubly-indirect block stays where it is. -/
def itrunc (ip : Nat) : FsM Unit := do
  forRange (truncDirect ip) 0 NDIRECT
  let i ← inode ip
  if i.copy.addrs NDIRECT = 0 then pure ()
  else do
    let a ← bread (i.copy.addrs NDIRECT)
    forRange (fun j => if word a j = 0 then pure () else bfree (word a j)) 0 NINDIRECT
    bfree (i.copy.addrs NDIRECT)
    modify (·.onCopy ip (fun d => { d with addrs := Function.update d.addrs NDIRECT 0 }))
  modify (·.onCopy ip (fun d => { d with size := 0 }))
  iupdate ip

/-- Drop a reference; the last one of an inode without links frees it on disk. -/
def iput (ip : Nat) : FsM Unit := do
  let i ← inode ip
  if i.ref = 1 ∧ i.valid = true ∧ i.copy.nlink = 0 then
    if isFattype i.copy.type then stop .bug
    else do
      itrunc ip
      modify (·.onCopy ip (fun d => { d with type := .free }))
      iupdate ip
      modify (fun s => s.putInode ip { s.itable ip with valid := false })
  else pure ()
  modify (fun s => s.putInode ip { s.itable ip with ref := (s.itable ip).ref - 1 })

/-! File contents -/

/-- The loop of `readi`. The first argument bounds the number of turns; `room` is
how many bytes the destination can take before a copy out faults. -/
def readLoop (ip room : Nat) : Nat → Nat → Nat → Nat → List UInt8 → FsM (Int × List UInt8)
  | 0, tot, _, _, out => pure (tot, out)
  | fuel + 1, tot, off, n, out =>
    if tot < n then do
      let addr ← bmap ip (off / BSIZE)
      if addr = 0 then pure (tot, out)
      else do
        let bp ← bread addr
        let m := min (n - tot) (BSIZE - off % BSIZE)
        let chunk := slice bp (off % BSIZE) m
        if tot + m ≤ room then readLoop ip room fuel (tot + m) (off + m) n (out ++ chunk)
        else pure (-1, out ++ chunk.take (room - tot))
    else pure (tot, out)

def readi (ip room off n : Nat) : FsM (Int × List UInt8) := do
  let i ← inode ip
  if off > i.copy.size ∨ (off + n) % UINT < off then pure (0, [])
  else
    let n := if (off + n) % UINT > i.copy.size then i.copy.size - off else n
    readLoop ip room n 0 off n []

/-- The loop of `writei`; returns the final `tot` and `off`. The list `src` holds
the bytes of the source that can be read before a copy in faults; a copy that
faults has already changed the buffer by the bytes before the fault. -/
def writeLoop (ip : Nat) (src : List UInt8) : Nat → Nat → Nat → Nat → FsM (Nat × Nat)
  | 0, tot, off, _ => pure (tot, off)
  | fuel + 1, tot, off, n =>
    if tot < n then do
      let addr ← bmap ip (off / BSIZE)
      if addr = 0 then pure (tot, off)
      else do
        let bp ← bread addr
        let m := min (n - tot) (BSIZE - off % BSIZE)
        logWrite addr (blit bp (off % BSIZE) ((src.drop tot).take m))
        if tot + m ≤ src.length then writeLoop ip src fuel (tot + m) (off + m) n
        else pure (tot, off)
    else pure (tot, off)

def writei (ip : Nat) (src : List UInt8) (off n : Nat) : FsM Int := do
  let i ← inode ip
  if off > i.copy.size ∨ (off + n) % UINT < off then pure (-1)
  else if (off + n) % UINT > MAXFILE * BSIZE then pure (-1)
  else do
    let r ← writeLoop ip src n 0 off n
    if r.2 > i.copy.size then modify (·.onCopy ip (fun d => { d with size := r.2 })) else pure ()
    iupdate ip
    pure (r.1 : Int)

end UvaOs.Fs
