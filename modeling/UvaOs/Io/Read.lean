import UvaOs.Fs.Runs
import UvaOs.Files.Model
import UvaOs.Ipc.Devices

/-! `fileread` (kernel/file.c) on a regular file or directory of the root disk, on FAT, procfs
and the devices that answer at once; pipes, the console and the keyboard are only dispatched
here and go on in their own modules.

A user's buffer is given by the number of bytes that `copyout` can store before it faults, and
a read by what it returns and the bytes that it has stored from the start of the buffer on. -/
namespace UvaOs.Io

open List

open UvaOs.Fs (FsState Panic UINT)
open UvaOs.Files (FdType)

/-- An `int` where an `uint` is wanted. -/
def toUint (n : Int) : Nat := (n % UINT).toNat

/-- The largest block of `malloc`. -/
def MAX_ALLOC_SIZE : Nat := 0x100000

/-- `sizeof (FILINFO)`: a size, two words, a byte and two names, aligned to four bytes. -/
def FILINFO_SIZE : Nat := 280

def SS : Nat := 512

/-- Numbers of devices; `enum` in fcntl.h. -/
inductive Major where
  | console | keyboard | keyboard0 | framebuffer | framebuffer0 | devnull | devzero | devsb
  deriving DecidableEq

/-- The fields of `struct file` that `fileread` and `filewrite` use; `major` is `none` where the
number is not one of a device. -/
structure File where
  type : FdType
  readable : Bool
  writable : Bool
  nonblocking : Bool
  ip : Nat
  off : Nat
  major : Option Major

/-- The reading side of `struct procfs_state`. -/
structure Procfs where
  kbuf : List UInt8
  ksize : Nat
  koff : Nat

/-- `FIL`: an open FAT file with its contents, position and cluster size. -/
structure Fil where
  data : List UInt8
  fptr : Nat
  csize : Nat

/-- `ip->fatfp` or `ip->fatdir`. -/
inductive Fat where
  | file (fp : Fil)
  | dir

structure State where
  file : File
  fs : FsState
  procfs : Procfs
  fat : Fat

/-- What `f_readdir` gives. -/
inductive Entry where
  | fails
  | last
  | info (bytes : List UInt8)

/-- What a read depends on besides: the user's buffer, whether the pool of `malloc` lasts, the
positions where FatFs can read the disk, the next entry of a FAT directory, and the keyboard
queue of the caller's surface, if it has one, as empty or not. -/
structure Env where
  room : Nat
  malloc : Bool
  disk : Nat → Bool
  entry : Entry
  surface : Option (Bool × Kb.KbEvent)

/-- Where the read goes on, or what it returns. -/
inductive Outcome where
  | returns (r : Int) (out : List UInt8)
  | piperead (n : Int)
  | consoleread (n : Int)
  | kbRead (n : Int) (blocking : Bool)
  /-- It waits in a loop without end. -/
  | spins

inductive Halt where
  /-- `BUG` or a failed `BUG_ON`. -/
  | bug
  /-- The panics `fileread` and `filewrite`. -/
  | fileread
  | filewrite
  | fs (panic : Panic)

/-- How much one turn of the loop in `f_read` transfers. -/
def rcnt (fp : Fil) (btr : Nat) : Nat :=
  let rest := min (SS - fp.fptr % SS) btr
  if fp.fptr % SS = 0 then
    -- the cluster size is a power of two
    let csect := fp.fptr / SS % fp.csize
    let cc := btr / SS
    if 0 < cc then SS * (if fp.csize < csect + cc then fp.csize - csect else cc) else rest
  else rest

/-- The loop of `f_read`; the flag tells whether it ends without an error. -/
def fReadLoop (disk : Nat → Bool) : Nat → Nat → Nat → Fil → Bool × Nat × Fil
  | 0, _, br, fp => (true, br, fp)
  | fuel + 1, btr, br, fp =>
    if 0 < btr then
      if disk fp.fptr then
        fReadLoop disk fuel (btr - rcnt fp btr) (br + rcnt fp btr)
          { fp with fptr := fp.fptr + rcnt fp btr }
      else (false, br, fp)
    else (true, br, fp)

def fRead (disk : Nat → Bool) (btr : Nat) (fp : Fil) : Bool × Nat × Fil :=
  let btr := min btr (fp.data.length - fp.fptr)
  fReadLoop disk btr btr 0 fp

def State.advance (s : State) (r : Nat) : State :=
  { s with file := { s.file with off := (s.file.off + r) % UINT } }

def readFat (env : Env) (n : Int) (s : State) : Except Halt (Outcome × State) :=
  match s.fat with
  | .file fp =>
    if toUint n > MAX_ALLOC_SIZE then .ok (.returns (-2) [], s)
    else if env.malloc = false then .error .bug
    else
      let (ok, n1, fp') := fRead env.disk (toUint n) fp
      let s := { s with fat := .file fp' }
      let buf := (fp.data.drop fp.fptr).take n1
      if ok = true ∧ n1 ≤ env.room then .ok (.returns n1 buf, s.advance n1)
      else .ok (.returns (-1) (if ok then buf.take env.room else []), s)
  | .dir =>
    if n < FILINFO_SIZE then .ok (.returns (-1) [], s)
    else
      match env.entry with
      | .fails => .ok (.returns (-1) [], s)
      | .last => .ok (.returns 0 [], s)
      | .info bytes =>
        if FILINFO_SIZE ≤ env.room then .ok (.returns FILINFO_SIZE (bytes.take FILINFO_SIZE), s)
        else .error .bug

def procfsRead (env : Env) (n : Nat) (s : State) : Except Halt (Outcome × State) :=
  if s.procfs.koff > s.procfs.ksize then .error .bug
  else
    let len := min n (s.procfs.ksize - s.procfs.koff)
    if len ≤ env.room then
      .ok (.returns len ((s.procfs.kbuf.drop s.procfs.koff).take len),
        { s with procfs := { s.procfs with koff := (s.procfs.koff + len) % UINT } })
    else .error .bug

/-- The loop of `devzero_read`, which stores 64 bytes at a time: how much it has stored when it
comes to its end or to a fault. -/
def zeros (room : Nat) : Nat → Nat → Nat → Nat
  | 0, _, stored => stored
  | fuel + 1, n, stored =>
    if 0 < n then
      if stored + min 64 n ≤ room then zeros room fuel (n - min 64 n) (stored + min 64 n)
      else room
    else stored

/-- `kb0_read`. The loop that waits for an event has no body in the source, and the event is
always the first of the buffer. -/
def kb0Read (env : Env) (n : Int) (blocking : Bool) : Outcome :=
  match env.surface with
  | none => .returns (-1) []
  | some (empty, ev) =>
    if n ≤ 0 then .returns 0 []
    else if empty then (if blocking then .spins else .returns 0 [])
    else if n < Kb.TXTSIZE then .returns 0 []
    else if Kb.textLength ≤ env.room then .returns Kb.textLength ev.text
    else .returns 0 (ev.text.take env.room)

def readInode (env : Env) (n : Int) (s : State) : Except Halt (Outcome × State) :=
  let read : Fs.FsM (Int × List UInt8) := do
    Fs.ilock s.file.ip
    Fs.readi s.file.ip env.room s.file.off (toUint n)
  match read s.fs with
  | .error e => .error (.fs e)
  | .ok ((r, out), fs) =>
    let s := { s with fs := fs }
    .ok (.returns r out, if 0 < r then s.advance r.toNat else s)

def readDevice (env : Env) (n : Int) (s : State) : Except Halt (Outcome × State) :=
  match s.file.major with
  | some .console => if s.file.nonblocking then .error .bug else .ok (.consoleread n, s)
  | some .keyboard => .ok (.kbRead n (!s.file.nonblocking), s)
  | some .keyboard0 => .ok (kb0Read env n (!s.file.nonblocking), s)
  | some .devnull => .ok (.returns 0 [], s)
  | some .devzero => .ok (.returns n (List.replicate (zeros env.room n.toNat n.toNat 0) 0), s)
  | _ => .ok (.returns (-1) [], s)

def fileread (env : Env) (n : Int) (s : State) : Except Halt (Outcome × State) :=
  if s.file.readable = false then .ok (.returns (-1) [], s)
  else
    match s.file.type with
    | .pipe => .ok (.piperead n, s)
    | .device => readDevice env n s
    | .inode => readInode env n s
    | .inodeFat => readFat env n s
    | .procfs => procfsRead env (toUint n) s
    | .none => .error .fileread

/-! A read stays inside of the buffer -/

/-- The position of an open file: `f->off` on the root disk and on FAT, `koff` in procfs. Pipes
and devices have none. -/
def State.offset (s : State) : Option Nat :=
  match s.file.type with
  | .inode | .inodeFat => some s.file.off
  | .procfs => some s.procfs.koff
  | _ => none

/-- What a read of `n` bytes may do. -/
structure Within (n r : Int) (out : List UInt8) (before after : Option Nat) : Prop where
  bytes : out.length ≤ max n 0
  result : r ≤ max n 0
  offset : after = before.map (fun off => (off + (max r 0).toNat) % UINT)

theorem Within.fails {n r : Int} {out : List UInt8} {pos : Option Nat} (none : r ≤ 0)
    (few : out.length ≤ max n 0) (range : ∀ off, pos = some off → off < UINT) :
    Within n r out pos pos := by
  refine ⟨few, by omega, ?_⟩
  have zero : (max r 0).toNat = 0 := by omega
  cases pos with
  | none => rfl
  | some off =>
    rw [Option.map_some, zero, Nat.add_zero, Nat.mod_eq_of_lt (range off rfl)]

section Bounds

open Prog

/-- No more than `n` bytes have been stored or are reported. -/
def AtMost (n : Nat) (r : Int × List UInt8) : Prop := r.1 ≤ n ∧ r.2.length ≤ n

theorem readLoop_atMost (ip room n : Nat) (fuel : Nat) :
    ∀ (s : FsState) (tot off : Nat) (out : List UInt8), tot ≤ n → out.length ≤ tot →
      wp (Fs.readLoop ip room fuel tot off n out) (fun r _ => AtMost n r) (fun _ => True) s := by
  have stops : ∀ (tot : Nat) (out : List UInt8), tot ≤ n → out.length ≤ tot →
      AtMost n ((tot : Int), out) :=
    fun tot out le few => ⟨Int.ofNat_le.mpr le, Nat.le_trans few le⟩
  induction fuel with
  | zero =>
    intro s tot off out le few
    exact stops tot out le few
  | succ fuel ih =>
    intro s tot off out le few
    unfold Fs.readLoop
    split
    · rename_i more
      refine wp_call (P := fun _ _ => True) ?_ ?_
      · unfold wp
        split <;> trivial
      · intro addr t _
        split
        · exact stops tot out le few
        · unfold Fs.bread
          simp only [wp_bind, wp_get, wp_pure]
          split
          · grind [length_append, Bytes.length_slice]
          · refine ⟨by dsimp only; omega, ?_⟩
            dsimp only
            rw [length_append, length_take, Bytes.length_slice]
            omega
    · exact stops tot out le few

theorem readi_atMost {off n : Nat} (ip room : Nat) (s : FsState) (hoff : off < UINT)
    (hn : n < UINT) : wp (Fs.readi ip room off n) (fun r _ => AtMost n r) (fun _ => True) s := by
  unfold Fs.readi Fs.inode
  simp only [wp_bind, wp_get, wp_pure]
  split
  · exact ⟨Int.natCast_nonneg n, Nat.zero_le _⟩
  · rename_i go
    have loop := fun m => readLoop_atMost ip room m m s 0 off [] (Nat.zero_le _) (Nat.le_refl 0)
    split
    · rename_i past
      have less : (s.itable ip).copy.size - off ≤ n := by
        simp only [UINT] at hoff hn go past
        omega
      refine wp_mono (loop _) ?_ (fun _ e => e)
      rintro r t ⟨result, few⟩
      exact ⟨by omega, by omega⟩
    · exact loop n

theorem rcnt_le (fp : Fil) (btr : Nat) : rcnt fp btr ≤ btr := by
  have rest : min (SS - fp.fptr % SS) btr ≤ btr := Nat.min_le_right ..
  have whole : SS * (btr / SS) ≤ btr := Nat.mul_div_le ..
  unfold rcnt
  dsimp only
  split
  · split
    · refine Nat.le_trans (Nat.mul_le_mul_left SS ?_) whole
      split <;> omega
    · exact rest
  · exact rest

theorem fReadLoop_le (disk : Nat → Bool) (fuel : Nat) :
    ∀ (btr br : Nat) (fp : Fil), (fReadLoop disk fuel btr br fp).2.1 ≤ br + btr := by
  induction fuel with
  | zero =>
    intro btr br fp
    exact Nat.le_add_right ..
  | succ fuel ih =>
    intro btr br fp
    unfold fReadLoop
    have less := rcnt_le fp btr
    split
    · grind
    · exact Nat.le_add_right ..

theorem fRead_le (disk : Nat → Bool) (btr : Nat) (fp : Fil) : (fRead disk btr fp).2.1 ≤ btr := by
  have bound := fReadLoop_le disk (min btr (fp.data.length - fp.fptr))
    (min btr (fp.data.length - fp.fptr)) 0 fp
  unfold fRead
  dsimp only
  omega

theorem zeros_le (room : Nat) (fuel : Nat) :
    ∀ n stored, stored ≤ room → zeros room fuel n stored ≤ stored + n := by
  induction fuel with
  | zero =>
    intro n stored _
    exact Nat.le_add_right ..
  | succ fuel ih =>
    intro n stored fits
    unfold zeros
    split
    · grind
    · exact Nat.le_add_right ..

end Bounds

section Int32

variable {n : Int}

theorem toUint_lt (n : Int) : toUint n < UINT := by
  unfold toUint
  simp only [UINT]
  omega

theorem toUint_nonneg (pos : 0 ≤ n) (small : n < 2 ^ 31) : (toUint n : Int) = n := by
  unfold toUint
  simp only [UINT]
  omega

theorem toUint_neg (neg : n < 0) (small : -2 ^ 31 ≤ n) : (toUint n : Int) = n + 2 ^ 32 := by
  unfold toUint
  simp only [UINT]
  omega

end Int32

def State.size (s : State) : Nat := (s.fs.itable s.file.ip).copy.size

/-- An open file as the rest of the kernel leaves it: the offsets are of type `uint`, and on
the root disk the inode has been read and the disk has come from a well-formed image. -/
structure Opened (s : State) : Prop where
  off : s.file.off < UINT
  koff : s.procfs.koff < UINT
  inode : s.file.type = .inode → (∃ inum, Fs.Cached s.fs s.file.ip inum) ∧
    Prog.Reach (fun s => Fs.Image s ∧ Fs.Full s) Fs.Step s.fs

/-- The requests that are answered as they should be: on the root disk a negative length must
find the end of the file or make `off + n` wrap around, in procfs it must find the end of the
text, and no entry of a FAT directory is read. -/
def Answered (s : State) (n : Int) : Prop :=
  s.file.readable = true →
    match s.file.type with
    | .inode => 0 ≤ n ∨ s.size ≤ s.file.off ∨ -n ≤ s.file.off
    | .procfs => 0 ≤ n ∨ s.procfs.ksize ≤ s.procfs.koff
    | .inodeFat =>
      match s.fat with
      | .dir => n < FILINFO_SIZE
      | .file _ => True
    | _ => True

/-- A read of `n` bytes with any buffer, if it returns. -/
def Keeps (s : State) (n : Int) : Prop :=
  ∀ env r out t, fileread env n s = .ok (.returns r out, t) → Within n r out s.offset t.offset

section Branches

variable {s t : State} {n r : Int} {env : Env} {out : List UInt8}

theorem Opened.range (opened : Opened s) : ∀ off, s.offset = some off → off < UINT := by
  intro off
  unfold State.offset
  split
  · rintro ⟨⟩
    exact opened.off
  · rintro ⟨⟩
    exact opened.off
  · rintro ⟨⟩
    exact opened.koff
  · nofun

theorem Opened.fails (opened : Opened s) (none : r ≤ 0) (few : out.length ≤ max n 0) :
    Within n r out s.offset s.offset := .fails none few opened.range

theorem ilock_cached {s : FsState} {ip inum : Nat} (c : Fs.Cached s ip inum) :
    Fs.ilock ip s = .ok ((), s) := by
  obtain ⟨_, ref, _, _, valid⟩ := c
  have held : ¬ (s.itable ip).ref < 1 := by omega
  simp [Fs.ilock, Fs.inode, Prog.get, held, valid, bind, pure]

theorem readi_negative (s : FsState) (ip room off : Nat) (neg : n < 0) (small : -2 ^ 31 ≤ n)
    (hoff : off < UINT) (cond : (s.itable ip).copy.size ≤ off ∨ -n ≤ off) :
    Fs.readi ip room off (toUint n) s = .ok ((0, []), s) := by
  have value := toUint_neg neg small
  unfold Fs.readi
  rw [Fs.run_inode]
  split
  · rfl
  · rename_i go
    simp only [UINT] at go hoff
    have past : (off + toUint n) % UINT > (s.itable ip).copy.size := by
      simp only [UINT]
      omega
    have none : (s.itable ip).copy.size - off = 0 := by
      simp only [UINT] at past
      omega
    rw [if_pos past, none]
    rfl

theorem readInode_eq (c : ∃ inum, Fs.Cached s.fs s.file.ip inum) : readInode env n s =
      match Fs.readi s.file.ip env.room s.file.off (toUint n) s.fs with
      | .error e => .error (.fs e)
      | .ok ((r, out), fs) => .ok (.returns r out,
          if 0 < r then { s with fs := fs }.advance r.toNat else { s with fs := fs }) := by
  obtain ⟨inum, cached⟩ := c
  unfold readInode
  dsimp only
  rw [Prog.run_bind (ilock_cached cached)]

theorem readInode_within (opened : Opened s) (type : s.file.type = .inode) (lo : -2 ^ 31 ≤ n)
    (hi : n < 2 ^ 31) (cond : 0 ≤ n ∨ s.size ≤ s.file.off ∨ -n ≤ s.file.off)
    (run : readInode env n s = .ok (.returns r out, t)) : Within n r out s.offset t.offset := by
  have atMost : ∀ r out fs, Fs.readi s.file.ip env.room s.file.off (toUint n) s.fs =
      .ok ((r, out), fs) → r ≤ max n 0 ∧ out.length ≤ max n 0 := by
    intro r out fs ok
    by_cases pos : 0 ≤ n
    · have bound := Prog.wp_ok (readi_atMost s.file.ip env.room s.fs opened.off (toUint_lt n)) ok
      have value := toUint_nonneg pos hi
      exact ⟨by have := bound.1; dsimp only at this; omega,
        by have := bound.2; dsimp only at this; omega⟩
    · rw [readi_negative s.fs s.file.ip env.room s.file.off (by omega) lo opened.off
        (cond.resolve_left pos)] at ok
      cases ok
      exact ⟨by omega, by simp⟩
  rw [readInode_eq (opened.inode type).1] at run
  split at run
  · cases run
  · rename_i r' out' fs ok
    cases run
    obtain ⟨result, few⟩ := atMost _ _ _ ok
    split
    · rename_i some_
      refine ⟨few, result, ?_⟩
      have whole : max r 0 = r := by omega
      simp only [State.offset, State.advance, type, Option.map_some, whole]
    · rename_i none_
      have same : ({ s with fs := fs } : State).offset = s.offset := rfl
      rw [same]
      exact opened.fails (by omega) few

theorem fileread_inode (env : Env) (opened : Opened s) (readable : s.file.readable = true)
    (type : s.file.type = .inode) (room : toUint n ≤ env.room) (inside : s.file.off ≤ s.size)
    (sum : s.file.off + toUint n < UINT) : ∃ out t, fileread env n s =
      .ok (.returns ((min (toUint n) (s.size - s.file.off) : Nat) : Int) out, t) := by
  obtain ⟨⟨inum, cached⟩, reached⟩ := opened.inode type
  obtain ⟨sound, full⟩ := Fs.full_run reached
  have size : (Fs.file s.fs inum).data.length = s.size := by
    unfold Fs.file
    rw [if_pos (cached.allocated sound.table)]
    dsimp only
    rw [Fs.length_bytes, Fs.current_cached sound.table.unique cached]
    rfl
  have result := Fs.readi_result sound full cached opened.off (toUint_lt n) room
  rw [Fs.readResult, size, if_pos ⟨inside, sum⟩] at result
  have run : fileread env n s = readInode env n s := by
    rw [fileread, if_neg (by simp [readable]), type]
  rw [readInode_eq ⟨inum, cached⟩, result] at run
  exact ⟨_, _, run⟩

theorem readInode_exceeds (opened : Opened s) (readable : s.file.readable = true)
    (type : s.file.type = .inode) (lo : -2 ^ 31 ≤ n)
    (bad : ¬ (0 ≤ n ∨ s.size ≤ s.file.off ∨ -n ≤ s.file.off)) : ¬ Keeps s n := by
  intro keeps
  have value := toUint_neg (n := n) (by omega) lo
  obtain ⟨out, t, run⟩ := fileread_inode ⟨toUint n, true, fun _ => true, .last, none⟩ opened
    readable type (Nat.le_refl _) (by omega) (by simp only [UINT]; omega)
  have exceeded := (keeps _ _ _ _ run).result
  omega

theorem procfsRead_within (type : s.file.type = .procfs) (hi : n < 2 ^ 31)
    (cond : 0 ≤ n ∨ s.procfs.ksize ≤ s.procfs.koff)
    (run : procfsRead env (toUint n) s = .ok (.returns r out, t)) :
    Within n r out s.offset t.offset := by
  have len : ((min (toUint n) (s.procfs.ksize - s.procfs.koff) : Nat) : Int) ≤ max n 0 := by
    grind [toUint_nonneg]
  unfold procfsRead at run
  split at run
  · cases run
  · dsimp only at run
    split at run
    · cases run
      refine ⟨?_, len, ?_⟩
      · rw [length_take]
        omega
      · have whole : (max ((min (toUint n) (s.procfs.ksize - s.procfs.koff) : Nat) : Int) 0).toNat =
            min (toUint n) (s.procfs.ksize - s.procfs.koff) := by omega
        simp only [State.offset, type, Option.map_some, whole]
    · cases run

theorem procfsRead_exceeds (readable : s.file.readable = true) (type : s.file.type = .procfs)
    (lo : -2 ^ 31 ≤ n) (bad : ¬ (0 ≤ n ∨ s.procfs.ksize ≤ s.procfs.koff)) : ¬ Keeps s n := by
  intro keeps
  let env : Env := ⟨toUint n, true, fun _ => true, .last, none⟩
  have run : fileread env n s = procfsRead env (toUint n) s := by
    rw [fileread, if_neg (by simp [readable]), type]
  unfold procfsRead at run
  rw [if_neg (by omega)] at run
  dsimp only at run
  rw [if_pos (Nat.min_le_left ..)] at run
  have exceeded := (keeps _ _ _ _ run).result
  have value := toUint_neg (n := n) (by omega) lo
  omega

section

variable (opened : Opened s)
include opened

theorem readFat_within (type : s.file.type = .inodeFat) (lo : -2 ^ 31 ≤ n)
    (hi : n < 2 ^ 31) (cond : s.fat = .dir → n < FILINFO_SIZE)
    (run : readFat env n s = .ok (.returns r out, t)) : Within n r out s.offset t.offset := by
  unfold readFat at run
  split at run
  · rename_i fp _
    split at run
    · cases run
      exact opened.fails (by omega) (by simp)
    · rename_i fits
      have pos : 0 ≤ n := by
        by_contra neg
        have value := toUint_neg (n := n) (by omega) lo
        have limit : MAX_ALLOC_SIZE = 0x100000 := rfl
        omega
      have value := toUint_nonneg pos hi
      have bound := fRead_le env.disk (toUint n) fp
      generalize fRead env.disk (toUint n) fp = result at bound run
      obtain ⟨ok, n1, fp'⟩ := result
      dsimp only at bound run
      split at run
      · cases run
      · split at run
        · cases run
          refine ⟨?_, by omega, ?_⟩
          · rw [length_take]
            omega
          · grind [max, State.offset, State.advance]
        · cases run
          refine opened.fails (by omega) ?_
          split
          · rw [length_take, length_take]
            omega
          · simp
  · grind [opened.fails]

theorem readFat_stays (readable : s.file.readable = true)
    (type : s.file.type = .inodeFat) (dir : s.fat = .dir) (bad : ¬ n < FILINFO_SIZE) :
    ¬ Keeps s n := by
  intro keeps
  let env : Env := ⟨FILINFO_SIZE, true, fun _ => true, .info [], none⟩
  have run : fileread env n s = readFat env n s := by
    rw [fileread, if_neg (by simp [readable]), type]
  unfold readFat at run
  rw [dir] at run
  dsimp only at run
  rw [if_neg bad] at run
  change fileread env n s = (if FILINFO_SIZE ≤ FILINFO_SIZE then _ else _) at run
  rw [if_pos (Nat.le_refl _)] at run
  have moved := (keeps _ _ _ _ run).offset
  have off := opened.off
  have size : FILINFO_SIZE = 280 := rfl
  simp only [State.offset, type, Option.map_some, Option.some.injEq, size, UINT] at moved off
  omega

theorem kb0Read_within (blocking : Bool) (device : s.offset = none)
    (run : kb0Read env n blocking = .returns r out) : Within n r out s.offset s.offset := by
  have length : ∀ ev : Kb.KbEvent, ev.text.length = 8 := fun _ => rfl
  have text : Kb.textLength = 8 := rfl
  have size : Kb.TXTSIZE = 20 := rfl
  unfold kb0Read at run
  split at run
  · cases run
    exact opened.fails (by omega) (by simp)
  · split at run
    · cases run
      exact opened.fails (by omega) (by simp)
    · split at run
      · grind [opened.fails]
      · split at run
        · cases run
          exact opened.fails (by omega) (by simp)
        · rename_i ev _ _ _ _
          have whole := length ev
          split at run
          · cases run
            refine ⟨by omega, by omega, by rw [device]; rfl⟩
          · grind [opened.fails]

theorem readDevice_within (type : s.file.type = .device)
    (run : readDevice env n s = .ok (.returns r out, t)) : Within n r out s.offset t.offset := by
  have device : s.offset = none := by rw [State.offset, type]
  unfold readDevice at run
  split at run
  · split at run <;> cases run
  · cases run
  · grind [Prod.mk.inj, Except.ok.inj, kb0Read_within]
  · cases run
    exact opened.fails (Int.le_refl 0) (by simp)
  · cases run
    have few := zeros_le env.room n.toNat n.toNat 0 (Nat.zero_le _)
    refine ⟨?_, by omega, by rw [device]; rfl⟩
    rw [length_replicate]
    omega
  · cases run
    exact opened.fails (by omega) (by simp)

theorem keeps_iff (lo : -2 ^ 31 ≤ n) (hi : n < 2 ^ 31) : Keeps s n ↔ Answered s n := by
  constructor
  · intro keeps readable
    split
    · rename_i type
      by_contra bad
      exact readInode_exceeds opened readable type lo bad keeps
    · rename_i type
      by_contra bad
      exact procfsRead_exceeds readable type lo bad keeps
    · rename_i type
      split
      · rename_i dir
        by_contra bad
        exact readFat_stays opened readable type dir bad keeps
      · trivial
    · trivial
  · intro answered env r out t run
    unfold fileread at run
    split at run
    · cases run
      exact opened.fails (by omega) (by simp)
    · rename_i readable
      have cond := answered (by simpa using readable)
      split at run
      · cases run
      · rename_i type
        exact readDevice_within opened type run
      · rename_i type
        rw [type] at cond
        exact readInode_within opened type lo hi cond run
      · rename_i type
        rw [type] at cond
        refine readFat_within opened type lo hi (fun dir => ?_) run
        rw [dir] at cond
        exact cond
      · rename_i type
        rw [type] at cond
        exact procfsRead_within type hi cond run
      · cases run

end

end Branches

/-- The file of the image that mkfs has made, just opened. -/
def openFile : State :=
  ⟨⟨.inode, true, true, false, 0, 0, none⟩, Fs.mkfsOpen, ⟨[], 0, 0⟩, .dir⟩

theorem openFile_opened : Opened openFile where
  off := by decide
  koff := by decide
  inode _ := ⟨⟨2, Fs.mkfsOpen_cached⟩, Fs.mkfsOpen_reach ⟨Fs.mkfsBig_image, Fs.mkfsBig_full⟩⟩

end UvaOs.Io
