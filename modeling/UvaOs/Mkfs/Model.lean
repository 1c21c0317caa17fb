import UvaOs.Fs.Dir

/-! usr/mkfs.c: makes an image with the root directory and one file for each host file.

The image is kept as sectors of bytes. Numbers are little-endian on it, which is what `xint` and
`xshort` make of them; a `struct dinode` is the buffer of its 128 bytes. The calls of the host do
what is documented: `lseek` and `write` succeed, `read` of the image fails past its end, and what
`read` gives for a host file is part of that file. -/
namespace UvaOs.Mkfs

open Bytes Prog
open UvaOs.Fs (BSIZE NDIRECT NINDIRECT MAXFILE ROOTINO DIRSIZ)

/-! param.h, fs.h and the constants of mkfs -/

@[simp] def FSSIZE : Nat := 15000
@[simp] def LOGSIZE : Nat := 30
@[simp] def NINODES : Nat := 200
@[simp] def IPB : Nat := BSIZE / 128
@[simp] def BPB : Nat := BSIZE * 8
def FSMAGIC : Nat := 0x10203040

@[simp] def nbitmap : Nat := FSSIZE / (BSIZE * 8) + 1
@[simp] def ninodeblocks : Nat := NINODES / IPB + 1
@[simp] def nlog : Nat := LOGSIZE
@[simp] def nmeta : Nat := 2 + nlog + ninodeblocks + nbitmap
@[simp] def nblocks : Nat := FSSIZE - nmeta
@[simp] def inodestart : Nat := 2 + nlog
@[simp] def bmapstart : Nat := 2 + nlog + ninodeblocks

def T_DIR : Nat := 1
def T_FILE : Nat := 2

structure State where
  sect : Nat → Buffer
  length : Nat
  freeinode : Nat
  freeblock : Nat

/-- Why mkfs ends with another status than zero. -/
inductive Exit where
  | die | assert
  deriving DecidableEq

abbrev MkM (α : Type) : Type := Prog State Exit α

structure Host where
  path : List UInt8
  bytes : List UInt8
  opens : Bool
  /-- What `read` gives, call by call, before it returns zero or fails. -/
  reads : List (List UInt8)
  string : 0 ∉ path
  documented : ∀ r ∈ reads, r ≠ [] ∧ r.length ≤ BSIZE
  partly : reads.flatten <+: bytes

def wsect (sec : Nat) (buf : Buffer) : MkM Unit :=
  modify (fun m => { m with
    sect := Function.update m.sect sec buf
    length := max m.length (sec + 1) })

def rsect (sec : Nat) : MkM Buffer := do
  let m ← get
  if sec < m.length then pure (m.sect sec) else stop .die

def IBLOCK (inum : Nat) : Nat := inum / IPB + inodestart

def slot (buf : Buffer) (k : Nat) : Buffer := fun i => if i < 128 then buf (128 * k + i) else 0

def putSlot (buf : Buffer) (k : Nat) (din : Buffer) : Buffer := fun i =>
  if i / 128 = k then din (i % 128) else buf i

def winode (inum : Nat) (din : Buffer) : MkM Unit := do
  let buf ← rsect (IBLOCK inum)
  wsect (IBLOCK inum) (putSlot buf (inum % IPB) din)

def rinode (inum : Nat) : MkM Buffer := do
  let buf ← rsect (IBLOCK inum)
  pure (slot buf (inum % IPB))

/-! The fields of `struct dinode` -/

def dinSize (din : Buffer) : Nat := word din 2

def addr (din : Buffer) (k : Nat) : Nat := word din (3 + k)

def setAddr (din : Buffer) (k b : Nat) : Buffer := setWord din (3 + k) b

def ialloc (type : Nat) : MkM Nat := do
  let m ← get
  let inum := m.freeinode
  modify (fun m => { m with freeinode := inum + 1 })
  winode inum (setShort (setShort zeros 0 type) 3 1)
  pure inum

def takeBlock : MkM Nat := do
  let m ← get
  modify (fun m => { m with freeblock := m.freeblock + 1 })
  pure m.freeblock

def rootBlock (din : Buffer) (k : Nat) : MkM Buffer :=
  if addr din k = 0 then do
    let b ← takeBlock
    pure (setAddr din k b)
  else pure din

/-- Entry `j` of an index block, allocated if it is zero. -/
def entry (x j : Nat) : MkM Nat := do
  let indirect ← rsect x
  if word indirect j = 0 then do
    let b ← takeBlock
    wsect x (setWord indirect j b)
    pure b
  else pure (word indirect j)

/-- The block with file block `fbn`, in `iappend`. -/
def locate (din : Buffer) (fbn : Nat) : MkM (Nat × Buffer) :=
  if fbn < NDIRECT then do
    let din ← rootBlock din fbn
    pure (addr din fbn, din)
  else if fbn < NDIRECT + NINDIRECT then do
    let din ← rootBlock din NDIRECT
    let x ← entry (addr din NDIRECT) (fbn - NDIRECT)
    pure (x, din)
  else do
    let din ← rootBlock din (NDIRECT + 1)
    let y ← entry (addr din (NDIRECT + 1)) ((fbn - NDIRECT - NINDIRECT) / NINDIRECT)
    let x ← entry y ((fbn - NDIRECT - NINDIRECT) % NINDIRECT)
    pure (x, din)

/-- The loop of `iappend`; returns the offset and the inode. -/
def iappendLoop : Nat → List UInt8 → Nat → Buffer → MkM (Nat × Buffer)
  | 0, _, off, din => pure (off, din)
  | fuel + 1, p, off, din =>
    if 0 < p.length then
      let fbn := off / BSIZE
      if fbn < MAXFILE then do
        let (x, din) ← locate din fbn
        let n1 := min p.length ((fbn + 1) * BSIZE - off)
        let buf ← rsect x
        wsect x (blit buf (off - fbn * BSIZE) (p.take n1))
        iappendLoop fuel (p.drop n1) (off + n1) din
      else stop .assert
    else pure (off, din)

def iappend (inum : Nat) (p : List UInt8) : MkM Unit := do
  let din ← rinode inum
  let (off, din) ← iappendLoop p.length p (dinSize din) din
  winode inum (setWord din 2 off)

def bits (len : Nat) : Buffer := (List.range len).foldl setBit zeros

/-- Mark the first `used` blocks in the bitmap; the loop of `balloc`. -/
def ballocLoop : Nat → Nat → Nat → MkM Unit
  | 0, _, _ => pure ()
  | fuel + 1, left, k =>
    if 0 < left then do
      wsect (bmapstart + k) (bits (min left (BSIZE * 8)))
      ballocLoop fuel (left - min left (BSIZE * 8)) (k + 1)
    else pure ()

def balloc (used : Nat) : MkM Unit := ballocLoop used used 0

/-! Directory entries -/

/-- `struct dirent` with its name as `strncpy` leaves it. -/
def dirent (inum : Nat) (name : List UInt8) : List UInt8 :=
  [UInt8.ofNat inum, UInt8.ofNat (inum / 256)] ++ name.take DIRSIZ ++
    List.replicate (DIRSIZ - name.length) 0

def slash : UInt8 := 47
def underscore : UInt8 := 95
def dot : UInt8 := 46

def userDir : List UInt8 := [117, 115, 101, 114, 47]

def shortname (path : List UInt8) : List UInt8 :=
  if userDir.isPrefixOf path then path.drop 5 else path

/-- The name in the image, without a leading `_`. -/
def entryName (path : List UInt8) : List UInt8 :=
  if (shortname path).head? = some underscore then (shortname path).tail else shortname path

def appendAll (inum : Nat) : List (List UInt8) → MkM Unit
  | [] => pure ()
  | r :: rs => do
    iappend inum r
    appendAll inum rs

def addFile (host : Host) : MkM Unit :=
  if slash ∈ shortname host.path then stop .assert
  else if host.opens = false then stop .die
  else do
    let inum ← ialloc T_FILE
    iappend ROOTINO (dirent inum (entryName host.path))
    appendAll inum host.reads

def addFiles : List Host → MkM Unit
  | [] => pure ()
  | host :: hosts => do
    addFile host
    addFiles hosts

def super : Buffer :=
  ofWords (fun j => [FSMAGIC, FSSIZE, nblocks, NINODES, nlog, 2, inodestart, bmapstart].getD j 0)

def makeRoot : MkM Unit := do
  let rootino ← ialloc T_DIR
  if rootino ≠ ROOTINO then stop .assert
  else do
    iappend rootino (dirent rootino [dot])
    iappend rootino (dirent rootino [dot, dot])

/-- The size of the root directory is rounded up to the next block. -/
def fixRoot : MkM Unit := do
  let din ← rinode ROOTINO
  winode ROOTINO (setWord din 2 ((dinSize din / BSIZE + 1) * BSIZE))

def main (hosts : List Host) : MkM Unit := do
  modify (fun m => { m with freeblock := nmeta })
  forRange (fun i => wsect i zeros) 0 FSSIZE
  wsect 1 super
  makeRoot
  addFiles hosts
  fixRoot
  let m ← get
  balloc m.freeblock

def initial : State := ⟨fun _ => zeros, 0, 1, 0⟩

end UvaOs.Mkfs
