import UvaOs.Io.Shared

/-! Open modes (kernel/sysfile.c, fs.c, file.c): a file opened under `/d/`, where `fat_open` makes
flags of FatFs from the mode, against the same file of the root disk, where `sys_open` creates and
truncates by itself. Both are modelled by the contents of the file and by one descriptor for it;
the buffers of the user are valid, and there is room in the pool of `malloc` and on the disks.

FatFs does what its documentation says; where flags come together that it does not speak of,
`f_open` does what ff.c does. -/
namespace UvaOs.Fat

open Bytes List
open UvaOs.Fs (UINT MAXFILE BSIZE readResult)
open UvaOs.Io (toUint MAX_ALLOC_SIZE MAXOPBLOCKS)

/-! Modes -/

def O_RDONLY : BitVec 32 := 0x000
def O_WRONLY : BitVec 32 := 0x001
def O_RDWR : BitVec 32 := 0x002
def O_CREATE : BitVec 32 := 0x200
def O_TRUNC : BitVec 32 := 0x400

inductive Access where
  | rdonly | wronly | rdwr
deriving DecidableEq

/-- The modes of `open`. -/
structure Mode where
  access : Access
  create : Bool
  trunc : Bool
deriving DecidableEq

def Access.bits : Access → BitVec 32
  | .rdonly => O_RDONLY
  | .wronly => O_WRONLY
  | .rdwr => O_RDWR

def Mode.omode (m : Mode) : BitVec 32 :=
  m.access.bits ||| (if m.create then O_CREATE else 0) ||| (if m.trunc then O_TRUNC else 0)

def Mode.readOnly : Mode := ⟨.rdonly, false, false⟩

/-- `f->readable` and `f->writable`. -/
def readable (omode : BitVec 32) : Bool := omode &&& O_WRONLY == 0

def writable (omode : BitVec 32) : Bool := omode &&& O_WRONLY != 0 || omode &&& O_RDWR != 0

inductive Whence where
  | seekSet | seekCur | seekEnd | unknown
deriving DecidableEq

inductive Op where
  | write (src : List UInt8)
  | lseek (offset : Int) (whence : Whence)
  | read (n : Int)

/-- What a call returns and the bytes that it has stored, or that the kernel halts in it. -/
inductive Result where
  | returned (r : Int) (out : List UInt8)
  | halted
deriving DecidableEq

/-- A sum of an `uint` and an `int` where an `int` is wanted. -/
def toInt (n : Int) : Int := Int.bmod n UINT

/-! FatFs -/

def FA_READ : BitVec 8 := 0x01
def FA_WRITE : BitVec 8 := 0x02
def FA_CREATE_NEW : BitVec 8 := 0x04
def FA_CREATE_ALWAYS : BitVec 8 := 0x08

/-- A file of the volume, with the attribute `AM_RDO`. -/
structure Entry where
  data : List UInt8
  rdo : Bool
deriving DecidableEq

structure Fil where
  flag : BitVec 8
  data : List UInt8
  fptr : Nat
deriving DecidableEq

def fOpen (mode : BitVec 8) (file : Option Entry) : Option Fil :=
  if mode &&& (FA_CREATE_ALWAYS ||| FA_CREATE_NEW) ≠ 0 then
    match file with
    | none => some ⟨mode ||| FA_CREATE_ALWAYS, [], 0⟩
    | some e =>
      if e.rdo then none
      else if mode &&& FA_CREATE_NEW ≠ 0 then none
      else some ⟨mode, [], 0⟩
  else
    match file with
    | none => none
    | some e => if mode &&& FA_WRITE ≠ 0 ∧ e.rdo then none else some ⟨mode, e.data, 0⟩

def fRead (btr : Nat) (fp : Fil) : Option (List UInt8 × Fil) :=
  if fp.flag &&& FA_READ = 0 then none
  else
    let buff := (fp.data.drop fp.fptr).take btr
    some (buff, { fp with fptr := fp.fptr + buff.length })

def fWrite (buff : List UInt8) (fp : Fil) : Option (Nat × Fil) :=
  if fp.flag &&& FA_WRITE = 0 then none
  else
    -- a file does not reach 4 GiB
    let buff := if UINT ≤ fp.fptr + buff.length then buff.take (UINT - 1 - fp.fptr) else buff
    some (buff.length, { fp with data := splice fp.data fp.fptr buff, fptr := fp.fptr + buff.length })

/-- A file that is expanded gets the bytes that its new clusters hold, `waste`. -/
def fLseek (waste : Nat → UInt8) (ofs : Nat) (fp : Fil) : Fil :=
  if ofs ≤ fp.data.length then { fp with fptr := ofs }
  else if fp.flag &&& FA_WRITE = 0 then { fp with fptr := fp.data.length }
  else { fp with
    data := fp.data ++ (List.range (ofs - fp.data.length)).map (fun i => waste (fp.data.length + i))
    fptr := ofs }

/-! A file under `/d/` -/

/-- The open file, and `size` of its inode. -/
structure FatFile where
  fp : Fil
  size : Nat
  off : Nat
  readable : Bool
  writable : Bool
deriving DecidableEq

def fatFlag (omode : BitVec 32) : BitVec 8 :=
  (if omode &&& 0xfff = O_RDONLY then FA_READ
    else if omode &&& O_WRONLY ≠ 0 ∨ omode &&& O_RDWR ≠ 0 then FA_WRITE else 0) |||
  (if omode &&& O_CREATE ≠ 0 then FA_CREATE_NEW else 0) |||
  (if omode &&& O_TRUNC ≠ 0 then FA_CREATE_ALWAYS else 0)

/-- The `FIL` and the size that `fat_open` puts in the inode. -/
def fatOpen (omode : BitVec 32) (file : Option Entry) : Option (Fil × Nat) :=
  if file.any (·.rdo) ∧ omode &&& 0xfff ≠ O_RDONLY then none
  else
    let fsize := file.elim 0 (·.data.length)
    let flag := fatFlag omode
    (fOpen flag file).map fun fp => (fp, if flag &&& FA_CREATE_ALWAYS ≠ 0 then 0 else fsize)

def FatFile.sysOpen (omode : BitVec 32) (file : Option Entry) : Option FatFile :=
  (fatOpen omode file).map fun (fp, size) => ⟨fp, size, 0, Fat.readable omode, Fat.writable omode⟩

def FatFile.read (n : Int) (f : FatFile) : Result × FatFile :=
  if f.readable = false then (.returned (-1) [], f)
  else if MAX_ALLOC_SIZE < toUint n then (.returned (-2) [], f)
  else
    match fRead (toUint n) f.fp with
    | none => (.returned (-1) [], f)
    | some (buf, fp) => (.returned buf.length buf, { f with fp := fp, off := f.off + buf.length })

def FatFile.write (src : List UInt8) (f : FatFile) : Result × FatFile :=
  if f.writable = false then (.returned (-1) [], f)
  else if MAX_ALLOC_SIZE < src.length then (.returned (-2) [], f)
  else
    match fWrite src f.fp with
    | none => (.halted, f)
    | some (n1, fp) => (.returned n1 [], { f with fp := fp, off := f.off + n1 })

/-- Where a seek goes; `size` is the one at the time of the open. -/
def FatFile.target (offset : Int) (f : FatFile) : Whence → Option Int
  | .seekSet => if offset < 0 then none else some offset
  | .seekCur => if offset < 0 ∧ f.off < -offset then none else some (toInt (f.off + offset))
  | .seekEnd => if offset < 0 ∧ f.size < -offset then none else some (toInt (f.size + offset))
  | .unknown => none

def FatFile.lseek (waste : Nat → UInt8) (offset : Int) (whence : Whence) (f : FatFile) : Result × FatFile :=
  match f.target offset whence with
  | none => (.returned (-1) [], f)
  | some offset =>
    (.returned offset [], { f with fp := fLseek waste (toUint offset) f.fp, off := toUint offset })

def FatFile.step (waste : Nat → UInt8) : Op → FatFile → Result × FatFile
  | .write src => FatFile.write src
  | .lseek offset whence => FatFile.lseek waste offset whence
  | .read n => FatFile.read n

/-! A file of the root disk -/

structure RootFile where
  data : List UInt8
  off : Nat
  readable : Bool
  writable : Bool
deriving DecidableEq

def RootFile.sysOpen (omode : BitVec 32) (file : Option (List UInt8)) : Option RootFile :=
  let ip := if omode &&& O_CREATE ≠ 0 then some (file.getD []) else file
  ip.map fun data => ⟨if omode &&& O_TRUNC ≠ 0 then [] else data, 0, Fat.readable omode, Fat.writable omode⟩

def RootFile.read (n : Int) (f : RootFile) : Result × RootFile :=
  if f.readable = false then (.returned (-1) [], f)
  else
    let (r, out) := readResult f.data f.off (toUint n)
    (.returned r out, { f with off := f.off + r.toNat })

/-- `writei` with a source that can be read, on a disk that is not full. -/
def writei (src : List UInt8) (f : RootFile) : Int × RootFile :=
  if f.off > f.data.length ∨ (f.off + src.length) % UINT < f.off then (-1, f)
  else if (f.off + src.length) % UINT > MAXFILE * BSIZE then (-1, f)
  else (src.length, { f with data := splice f.data f.off src, off := f.off + src.length })

def writeParts (src : List UInt8) : Nat → Nat → RootFile → Nat × RootFile
  | 0, i, f => (i, f)
  | fuel + 1, i, f =>
    if i < src.length then
      let max := ((MAXOPBLOCKS - 1 - 1 - 2) / 2) * BSIZE
      let n1 := min (src.length - i) max
      let (r, f) := writei ((src.drop i).take n1) f
      if r ≠ n1 then (i, f) else writeParts src fuel (i + n1) f
    else (i, f)

def RootFile.write (src : List UInt8) (f : RootFile) : Result × RootFile :=
  if f.writable = false then (.returned (-1) [], f)
  else
    let (i, f) := writeParts src src.length 0 f
    (.returned (if i = src.length then src.length else -1) [], f)

def RootFile.newoff (offset : Int) (f : RootFile) : Whence → Option Int
  | .seekSet => some offset
  | .seekCur => some (toInt (f.off + offset))
  | .seekEnd => if 0 < offset then none else some (toInt (f.data.length + offset))
  | .unknown => none

def RootFile.lseek (offset : Int) (whence : Whence) (f : RootFile) : Result × RootFile :=
  match f.newoff offset whence with
  | none => (.returned (-1) [], f)
  | some newoff =>
    if newoff < 0 ∨ f.data.length < newoff then (.returned (-1) [], f)
    else (.returned newoff [], { f with off := newoff.toNat })

def RootFile.step : Op → RootFile → Result × RootFile
  | .write src => RootFile.write src
  | .lseek offset whence => RootFile.lseek offset whence
  | .read n => RootFile.read n

/-! Sequences of calls -/

def FatFile.play (waste : Nat → UInt8) : List Op → FatFile → List Result
  | [], _ => []
  | op :: ops, f =>
    match f.step waste op with
    | (.halted, _) => [.halted]
    | (r, f) => r :: f.play waste ops

def RootFile.play : List Op → RootFile → List Result
  | [], _ => []
  | op :: ops, f => (f.step op).1 :: (f.step op).2.play ops

/-- The open succeeds on both file systems or on none, and after it the calls give the same
results. -/
def Agree (waste : Nat → UInt8) (m : Mode) (file : Option Entry) (ops : List Op) : Prop :=
  ((FatFile.sysOpen m.omode file).isSome ↔ (RootFile.sysOpen m.omode (file.map Entry.data)).isSome) ∧
  ∀ f x, FatFile.sysOpen m.omode file = some f → RootFile.sysOpen m.omode (file.map Entry.data) = some x →
    f.play waste ops = x.play ops

/-- The arguments are of type `int`, and seeks are within the file. -/
def Op.Within (x : RootFile) : Op → Prop
  | .write src => src.length < 2 ^ 31
  | .lseek offset .seekSet => 0 ≤ offset ∧ offset ≤ x.data.length
  | .lseek offset .seekCur => 0 ≤ x.off + offset ∧ x.off + offset ≤ x.data.length
  | .lseek offset .seekEnd => 0 ≤ x.data.length + offset ∧ offset ≤ 0
  | .lseek _ .unknown => True
  | .read n => -2 ^ 31 ≤ n ∧ n < 2 ^ 31

def Within : List Op → RootFile → Prop
  | [], _ => True
  | op :: ops, x => op.Within x ∧ Within ops (x.step op).2

/-- What a call has to meet: `start` is the size of the file when it was opened. -/
def Op.Meets (m : Mode) (start : Nat) (x : RootFile) : Op → Prop
  | .read n => m.access ≠ .wronly → m = .readOnly ∧ 0 ≤ n ∧ n ≤ MAX_ALLOC_SIZE
  | .write src => m.access ≠ .rdonly → src.length ≤ MAX_ALLOC_SIZE ∧ x.off + src.length ≤ MAXFILE * BSIZE
  | .lseek _ .seekEnd => x.data.length = start
  | .lseek _ _ => True

def Meets (m : Mode) (start : Nat) : List Op → RootFile → Prop
  | [], _ => True
  | op :: ops, x => op.Meets m start x ∧ Meets m start ops (x.step op).2

def Opens (m : Mode) : Option Entry → Prop
  | none => m.trunc = true → m.create = true
  | some e => m.create = false ∧ (e.rdo = true → m = .readOnly)

/-! The modes in bits -/

section Bits

variable (m : Mode)

theorem create_iff : m.omode &&& O_CREATE ≠ 0 ↔ m.create = true := by
  obtain ⟨access, create, trunc⟩ := m
  cases access <;> cases create <;> cases trunc <;> decide

theorem trunc_iff : m.omode &&& O_TRUNC ≠ 0 ↔ m.trunc = true := by
  obtain ⟨access, create, trunc⟩ := m
  cases access <;> cases create <;> cases trunc <;> decide

theorem rdonly_iff : m.omode &&& 0xfff = O_RDONLY ↔ m = .readOnly := by
  obtain ⟨access, create, trunc⟩ := m
  cases access <;> cases create <;> cases trunc <;> decide

theorem readable_iff : readable m.omode = true ↔ m.access ≠ .wronly := by
  obtain ⟨access, create, trunc⟩ := m
  cases access <;> cases create <;> cases trunc <;> decide

theorem writable_iff : writable m.omode = true ↔ m.access ≠ .rdonly := by
  obtain ⟨access, create, trunc⟩ := m
  cases access <;> cases create <;> cases trunc <;> decide

theorem flag_bits (created : Bool) :
    let flag := if created then fatFlag m.omode ||| FA_CREATE_ALWAYS else fatFlag m.omode
    (flag &&& FA_READ ≠ 0 ↔ m = .readOnly) ∧ (flag &&& FA_WRITE ≠ 0 ↔ m.access ≠ .rdonly) := by
  obtain ⟨access, create, trunc⟩ := m
  cases access <;> cases create <;> cases trunc <;> cases created <;> decide

theorem flag_creates : fatFlag m.omode &&& (FA_CREATE_ALWAYS ||| FA_CREATE_NEW) ≠ 0 ↔
    m.create = true ∨ m.trunc = true := by
  obtain ⟨access, create, trunc⟩ := m
  cases access <;> cases create <;> cases trunc <;> decide

theorem flag_new : fatFlag m.omode &&& FA_CREATE_NEW ≠ 0 ↔ m.create = true := by
  obtain ⟨access, create, trunc⟩ := m
  cases access <;> cases create <;> cases trunc <;> decide

theorem flag_always : fatFlag m.omode &&& FA_CREATE_ALWAYS ≠ 0 ↔ m.trunc = true := by
  obtain ⟨access, create, trunc⟩ := m
  cases access <;> cases create <;> cases trunc <;> decide

end Bits

/-! Writes to the root disk -/

section Writes

variable {src : List UInt8} {f : RootFile}

theorem writei_fits (inside : f.off ≤ f.data.length) (room : f.off + src.length ≤ MAXFILE * BSIZE) :
    writei src f = ((src.length : Int),
      { f with data := splice f.data f.off src, off := f.off + src.length }) := by
  have limit := Fs.maxBytes
  have whole : (f.off + src.length) % UINT = f.off + src.length := by
    simp only [UINT]
    omega
  unfold writei
  rw [whole, if_neg (by omega), if_neg (by omega)]

section

variable (small : src.length < 2 ^ 31)
include small

theorem writei_refused (off : f.off ≤ MAXFILE * BSIZE)
    (room : MAXFILE * BSIZE < f.off + src.length) : writei src f = (-1, f) := by
  have limit := Fs.maxBytes
  have whole : (f.off + src.length) % UINT = f.off + src.length := by
    simp only [UINT]
    omega
  unfold writei
  rw [whole, if_pos room, ite_self]

theorem writeParts_spec (fuel : Nat) : ∀ (i : Nat) (f : RootFile),
    i ≤ src.length → src.length - i ≤ fuel → f.off ≤ f.data.length → f.off ≤ MAXFILE * BSIZE →
    (f.off + (src.length - i) ≤ MAXFILE * BSIZE → writeParts src fuel i f = (src.length,
      { f with data := splice f.data f.off (src.drop i), off := f.off + (src.length - i) })) ∧
    (MAXFILE * BSIZE < f.off + (src.length - i) → (writeParts src fuel i f).1 ≠ src.length) := by
  induction fuel with
  | zero =>
    intro i f le fits _ _
    have last : i = src.length := by omega
    rw [last, Nat.sub_self, drop_length, splice_nil]
    exact ⟨fun _ => rfl, fun _ => by omega⟩
  | succ fuel ih =>
    intro i f le fits inside off
    unfold writeParts
    by_cases more : i < src.length
    · rw [if_pos more]
      dsimp only
      have pos : 0 < min (src.length - i) (((MAXOPBLOCKS - 1 - 1 - 2) / 2) * BSIZE) := by
        simp only [MAXOPBLOCKS, BSIZE]
        omega
      have less : min (src.length - i) (((MAXOPBLOCKS - 1 - 1 - 2) / 2) * BSIZE) ≤ src.length - i :=
        Nat.min_le_left ..
      generalize min (src.length - i) (((MAXOPBLOCKS - 1 - 1 - 2) / 2) * BSIZE) = n1 at pos less
      have part : ((src.drop i).take n1).length = n1 := by
        rw [length_take, length_drop]
        omega
      by_cases room : f.off + n1 ≤ MAXFILE * BSIZE
      · rw [writei_fits inside (by rw [part]; exact room), part, if_neg (by simp)]
        have grown : f.off + n1 ≤ (splice f.data f.off ((src.drop i).take n1)).length := by
          rw [length_splice _ _ inside, part]
          omega
        obtain ⟨complete, short⟩ := ih (i + n1) { f with
            data := splice f.data f.off ((src.drop i).take n1), off := f.off + n1 } (by omega) (by omega) grown room
        have both := splice_splice f.data ((src.drop i).take n1) (src.drop (i + n1)) inside
        rw [part, ← drop_drop, take_append_drop] at both
        refine ⟨fun all => ?_, fun beyond => short (by dsimp only; omega)⟩
        rw [complete (by dsimp only; omega)]
        dsimp only
        rw [← drop_drop, both]
        congr 2
        omega
      · rw [writei_refused (by rw [part]; omega) off (by rw [part]; omega), if_pos (by omega)]
        exact ⟨fun all => by omega, fun _ => by dsimp only; omega⟩
    · have last : i = src.length := by omega
      rw [if_neg more, last, Nat.sub_self, drop_length, splice_nil]
      exact ⟨fun _ => rfl, fun _ => by omega⟩

theorem RootFile.write_fits (writable : f.writable = true)
    (inside : f.off ≤ f.data.length) (room : f.off + src.length ≤ MAXFILE * BSIZE) :
    f.write src = (.returned src.length [],
      { f with data := splice f.data f.off src, off := f.off + src.length }) := by
  unfold RootFile.write
  rw [if_neg (by simp [writable])]
  obtain ⟨complete, -⟩ := writeParts_spec small src.length 0 f (Nat.zero_le _) (by omega) inside (by omega)
  rw [complete room]
  dsimp only
  rw [if_pos rfl]
  rfl

theorem RootFile.write_refused (writable : f.writable = true)
    (inside : f.off ≤ f.data.length) (off : f.off ≤ MAXFILE * BSIZE)
    (beyond : MAXFILE * BSIZE < f.off + src.length) : (f.write src).1 = .returned (-1) [] := by
  unfold RootFile.write
  rw [if_neg (by simp [writable])]
  obtain ⟨-, short⟩ := writeParts_spec small src.length 0 f (Nat.zero_le _) (by omega) inside off
  dsimp only
  rw [if_neg (short beyond)]

end

end Writes

/-! The calls on the disk -/

section Disk

variable {s t : Io.State} {inum : Nat} {n r : Int} {src : List UInt8} {env : Io.Env}

/-- An open file of the root disk, by its contents. -/
def view (s : Io.State) : RootFile := ⟨s.contents, s.file.off, s.file.readable, s.file.writable⟩

theorem fileread_refines (ready : Io.Ready s inum) (type : s.file.type = .inode) (below : s.file.off < UINT)
    (valid : toUint n ≤ env.room) :
    ∃ r out t, Io.fileread env n s = .ok (.returns r out, t) ∧ (view s).read n = (.returned r out, view t) := by
  by_cases closed : s.file.readable = false
  · refine ⟨-1, [], s, ?_, ?_⟩
    · unfold Io.fileread
      rw [if_pos closed]
    · unfold RootFile.read view
      rw [if_pos closed]
  · have opened : s.file.readable = true := Bool.eq_true_of_not_eq_false closed
    obtain ⟨r, out, t, run⟩ := Io.Ready.reads (n := n) ready type opened below valid
    obtain ⟨fs, file, -⟩ := Io.fileread_moves ready type below valid run
    refine ⟨r, out, t, run, ?_⟩
    have result : readResult s.contents s.file.off (toUint n) = (r, out) := by
      unfold Io.fileread at run
      rw [if_neg closed, type] at run
      dsimp only at run
      rw [Io.readInode_eq ⟨inum, ready.cached⟩, Fs.readi_result ready.sound ready.full ready.cached below
        (Io.toUint_lt n) valid, ← ready.contents] at run
      cases run
      rfl
    have same : t.contents = s.contents := by
      unfold Io.State.contents Io.State.inum
      rw [fs, file]
    unfold RootFile.read view
    dsimp only
    rw [if_neg closed, result, same, file]

theorem openFile_reads_as : ∃ env r out t, Io.fileread env 2 Io.openFile = .ok (.returns r out, t) ∧
    (view Io.openFile).read 2 = (.returned r out, view t) :=
  ⟨⟨2, true, fun _ => true, .last, none⟩,
    fileread_refines (Io.openFile_opened.ready rfl) rfl (by decide) (by decide)⟩

theorem writeParts_file {m j fuel : Nat} : ∀ (i : Nat) (s : Io.State), Io.writeParts src m fuel i s = .ok (j, t) →
    t.file = { s.file with off := t.file.off } := by
  induction fuel with
  | zero =>
    intro i s run
    cases run
    rfl
  | succ fuel ih =>
    intro i s run
    unfold Io.writeParts at run
    split at run
    · grind [Io.writePart_file]
    · cases run
      rfl

theorem filewrite_refines (ready : Io.Ready s inum) (type : s.file.type = .inode)
    (inside : s.file.off ≤ s.contents.length) (small : src.length < 2 ^ 31)
    (room : Fs.needs s.fs inum s.file.off src.length ≤ Fs.spare s.fs)
    (run : Io.filewrite src src.length s = .ok (.returns r, t)) :
    ((view s).write src).1 = .returned r [] ∧ (0 ≤ r → ((view s).write src).2 = view t) := by
  have bound : s.contents.length ≤ MAXFILE * BSIZE := by
    have most := ready.full.bound inum (ready.cached.allocated ready.sound.table)
    rwa [ready.contents, Fs.length_data ready.cached ready.sound.table, Fs.length_bytes]
  by_cases closed : s.file.writable = false
  · unfold Io.filewrite at run
    rw [if_pos closed] at run
    cases run
    unfold RootFile.write view
    rw [if_pos closed]
    exact ⟨rfl, fun _ => rfl⟩
  · have opened : (view s).writable = true := Bool.eq_true_of_not_eq_false closed
    obtain ⟨j, parts, rfl⟩ := Io.filewrite_inode opened type run
    have counted := Io.writeParts_counted small src.length s 0 ready (Nat.zero_le _) (Nat.le_refl _) parts
    have file := writeParts_file 0 s parts
    rw [drop_zero, Nat.sub_zero] at counted
    by_cases fits : s.file.off + src.length ≤ MAXFILE * BSIZE
    · have accepted : Fs.Accepted s.fs inum s.file.off src.length := ⟨by rwa [← ready.contents], fits⟩
      have done : j = src.length := counted.complete.mpr (.inr ⟨accepted, Nat.le_refl _, room⟩)
      obtain ⟨-, data, off⟩ := counted.stores done
      rw [take_length] at data
      rw [RootFile.write_fits small opened inside fits, done, if_pos rfl]
      refine ⟨rfl, fun _ => ?_⟩
      unfold view
      rw [data, off, file]
    · have short : j ≠ src.length := by
        intro done
        rcases counted.complete.mp done with zero | ⟨accepted, -⟩
        · omega
        · exact fits accepted.2
      have beyond : MAXFILE * BSIZE < s.file.off + src.length := by omega
      rw [if_neg short]
      exact ⟨RootFile.write_refused small opened inside (Nat.le_trans inside bound) beyond, fun pos => by omega⟩

theorem openFile_writes_as : ∃ r t, Io.filewrite [1, 2] 2 Io.openFile = .ok (.returns r, t) ∧
    ((view Io.openFile).write [1, 2]).1 = .returned r [] := by
  obtain ⟨need, _, r, t, run⟩ := Io.openFile_writes (n := 2) [1, 2] (by decide) (by decide)
  exact ⟨r, t, run, And.left (filewrite_refines (Io.openFile_opened.ready rfl) rfl (Nat.zero_le _)
    (by decide) (need.le.trans (Nat.zero_le _)) run)⟩

end Disk

/-! One call -/

structure Flagged (m : Mode) (flag : BitVec 8) : Prop where
  read : flag &&& FA_READ ≠ 0 ↔ m = .readOnly
  write : flag &&& FA_WRITE ≠ 0 ↔ m.access ≠ .rdonly

def fatAt (m : Mode) (flag : BitVec 8) (start : Nat) (data : List UInt8) (off : Nat) : FatFile :=
  ⟨⟨flag, data, off⟩, start, off, readable m.omode, writable m.omode⟩

def rootAt (m : Mode) (data : List UInt8) (off : Nat) : RootFile :=
  ⟨data, off, readable m.omode, writable m.omode⟩

structure Bounds (start : Nat) (data : List UInt8) (off : Nat) : Prop where
  grown : start ≤ data.length
  inside : off ≤ data.length
  most : data.length ≤ MAXFILE * BSIZE

/- The results are the same if and only if the call meets the condition, and then so is what
follows. -/
structure Alike (m : Mode) (flag : BitVec 8) (start : Nat) (meets : Prop) (a : Result × FatFile)
    (b : Result × RootFile) : Prop where
  iff : a.1 = b.1 ↔ meets
  next : meets → ∃ data off, Bounds start data off ∧ a.2 = fatAt m flag start data off ∧ b.2 = rootAt m data off
  returns : b.1 ≠ .halted

section Calls

variable {m : Mode} {flag : BitVec 8} {start off : Nat} {data src : List UInt8} {n offset : Int}
  {waste : Nat → UInt8} {whence : Whence}

theorem readResult_nonneg (data : List UInt8) (off n : Nat) : 0 ≤ (readResult data off n).1 := by
  unfold readResult
  split
  · exact Int.natCast_nonneg _
  · exact Int.le_refl 0

theorem returned_ne {r s : Int} {a b : List UInt8} (ne : r ≠ s) : Result.returned r a ≠ .returned s b := by
  intro same
  exact ne (Result.returned.inj same).1

theorem read_alike (flagged : Flagged m flag) (bounds : Bounds start data off) (lo : -2 ^ 31 ≤ n) (hi : n < 2 ^ 31) :
    Alike m flag start (m.access ≠ .wronly → m = .readOnly ∧ 0 ≤ n ∧ n ≤ MAX_ALLOC_SIZE)
      ((fatAt m flag start data off).read n) ((rootAt m data off).read n) := by
  have small : MAX_ALLOC_SIZE = 1048576 := rfl
  have limit := Fs.maxBytes
  have most := bounds.most
  have inside := bounds.inside
  unfold FatFile.read RootFile.read fatAt rootAt
  dsimp only
  by_cases closed : readable m.omode = false
  · have unread : ¬ m.access ≠ .wronly := by
      rw [← readable_iff, closed]
      exact Bool.false_ne_true
    rw [if_pos closed, if_pos closed]
    exact ⟨⟨fun _ reads => absurd reads unread, fun _ => rfl⟩, fun _ => ⟨data, off, bounds, rfl, rfl⟩, nofun⟩
  · have reads : m.access ≠ .wronly := (readable_iff m).mp (Bool.eq_true_of_not_eq_false closed)
    rw [if_neg closed, if_neg closed]
    have result := readResult_nonneg data off (toUint n)
    -- FatFs refuses, or there is no buffer
    have differs : ∀ r : Int, r < 0 → ∀ f : FatFile, ¬ (m = .readOnly ∧ 0 ≤ n ∧ n ≤ MAX_ALLOC_SIZE) →
        Alike m flag start (m.access ≠ .wronly → m = .readOnly ∧ 0 ≤ n ∧ n ≤ MAX_ALLOC_SIZE) (.returned r [], f)
          (.returned (readResult data off (toUint n)).1 (readResult data off (toUint n)).2,
            { rootAt m data off with off := off + (readResult data off (toUint n)).1.toNat }) := by
      intro r negative f unmet
      exact ⟨⟨fun same => absurd same (returned_ne (by omega)), fun met => absurd (met reads) unmet⟩,
        fun met => absurd (met reads) unmet, nofun⟩
    by_cases large : MAX_ALLOC_SIZE < toUint n
    · rw [if_pos large]
      refine differs (-2) (by decide) _ fun met => ?_
      have same := Io.toUint_nonneg met.2.1 hi
      omega
    · rw [if_neg large]
      have nonneg : 0 ≤ n ∧ n ≤ MAX_ALLOC_SIZE := by grind [Io.toUint_neg, Io.toUint_nonneg]
      unfold fRead
      by_cases denied : flag &&& FA_READ = 0
      · rw [if_pos denied]
        exact differs (-1) (by decide) _ fun met => flagged.read.mpr met.1 denied
      · rw [if_neg denied]
        have whole : off ≤ data.length ∧ off + toUint n < UINT := by
          simp only [UINT]
          omega
        have length : ((data.drop off).take (toUint n)).length = min (toUint n) (data.length - off) := by
          rw [length_take, length_drop]
        unfold readResult
        rw [if_pos whole]
        dsimp only
        rw [length, Int.toNat_natCast]
        refine ⟨⟨fun _ _ => ⟨flagged.read.mp denied, nonneg⟩, fun _ => rfl⟩, fun _ => ⟨data, _, ⟨bounds.grown, ?_, most⟩,
          rfl, rfl⟩, nofun⟩
        omega

theorem write_alike (flagged : Flagged m flag) (bounds : Bounds start data off) (small : src.length < 2 ^ 31) :
    Alike m flag start
      (m.access ≠ .rdonly → src.length ≤ MAX_ALLOC_SIZE ∧ off + src.length ≤ MAXFILE * BSIZE)
      ((fatAt m flag start data off).write src) ((rootAt m data off).write src) := by
  have buffer : MAX_ALLOC_SIZE = 1048576 := rfl
  have limit := Fs.maxBytes
  have most := bounds.most
  have inside := bounds.inside
  have grown := bounds.grown
  by_cases closed : writable m.omode = false
  · have unwritten : ¬ m.access ≠ .rdonly := by
      rw [← writable_iff, closed]
      exact Bool.false_ne_true
    unfold FatFile.write RootFile.write fatAt rootAt
    dsimp only
    rw [if_pos closed, if_pos closed]
    exact ⟨⟨fun _ writes => absurd writes unwritten, fun _ => rfl⟩, fun _ => ⟨data, off, bounds, rfl, rfl⟩, nofun⟩
  · have writes : m.access ≠ .rdonly := (writable_iff m).mp (Bool.eq_true_of_not_eq_false closed)
    have opened : (rootAt m data off).writable = true := Bool.eq_true_of_not_eq_false closed
    have allowed : ¬ flag &&& FA_WRITE = 0 := flagged.write.mpr writes
    have root : (∃ x, (rootAt m data off).write src = (.returned src.length [], x) ∧
          off + src.length ≤ MAXFILE * BSIZE ∧ x = rootAt m (splice data off src) (off + src.length)) ∨
        ((rootAt m data off).write src).1 = .returned (-1) [] ∧ MAXFILE * BSIZE < off + src.length := by
      by_cases room : off + src.length ≤ MAXFILE * BSIZE
      · exact .inl ⟨_, RootFile.write_fits small opened inside room, room, rfl⟩
      · have beyond : MAXFILE * BSIZE < off + src.length := by omega
        exact .inr ⟨RootFile.write_refused small opened inside (Nat.le_trans inside most) beyond, beyond⟩
    unfold FatFile.write fatAt
    dsimp only
    rw [if_neg closed]
    by_cases large : MAX_ALLOC_SIZE < src.length
    · rw [if_pos large]
      have other : Result.returned (-2) [] ≠ ((rootAt m data off).write src).1 := by
        rcases root with ⟨x, ran, -⟩ | ⟨ran, -⟩ <;> rw [ran] <;> exact returned_ne (by omega)
      refine ⟨⟨fun same => absurd same other, fun met => ?_⟩, fun met => ?_, ?_⟩
      · have fits := (met writes).1
        omega
      · have fits := (met writes).1
        omega
      · rcases root with ⟨x, ran, -⟩ | ⟨ran, -⟩ <;> rw [ran] <;> nofun
    · rw [if_neg large]
      unfold fWrite
      rw [if_neg allowed, if_neg (by simp only [UINT]; omega)]
      dsimp only
      rcases root with ⟨x, ran, room, rfl⟩ | ⟨ran, beyond⟩
      · rw [ran]
        refine ⟨⟨fun _ _ => ⟨by omega, room⟩, fun _ => rfl⟩, fun _ => ⟨_, _, ⟨?_, ?_, ?_⟩, rfl, rfl⟩, nofun⟩
        all_goals
          rw [length_splice data src inside]
          omega
      · refine ⟨⟨fun same => absurd (same.trans ran) (returned_ne (by omega)), fun met => ?_⟩, fun met => ?_,
          by rw [ran]; nofun⟩
        · have fits := (met writes).2
          omega
        · have fits := (met writes).2
          omega

theorem toInt_small {x : Int} (lo : 0 ≤ x) (hi : x ≤ MAXFILE * BSIZE) : toInt x = x := by
  have limit := Fs.maxBytes
  unfold toInt
  refine Int.bmod_eq_of_le (by simp only [UINT]; omega) (by simp only [UINT]; omega)

theorem RootFile.lseek_within {x : Int} (to_ : (rootAt m data off).newoff offset whence = some x) (lo : 0 ≤ x)
    (hi : x ≤ data.length) :
    (rootAt m data off).lseek offset whence = (.returned x [], rootAt m data x.toNat) := by
  have inside : ¬ (x < 0 ∨ ((rootAt m data off).data.length : Int) < x) := by
    change ¬ (x < 0 ∨ (data.length : Int) < x)
    omega
  unfold RootFile.lseek
  rw [to_]
  dsimp only
  rw [if_neg inside]
  rfl

theorem seek_alike {x : Int} {meets : Prop} (bounds : Bounds start data off) (lo : 0 ≤ x) (hi : x ≤ data.length)
    (met : meets) (fat : (fatAt m flag start data off).target offset whence = some x)
    (root : (rootAt m data off).newoff offset whence = some x) :
    Alike m flag start meets ((fatAt m flag start data off).lseek waste offset whence)
      ((rootAt m data off).lseek offset whence) := by
  have limit := Fs.maxBytes
  have most := bounds.most
  have place : toUint x = x.toNat := by
    have same := Io.toUint_nonneg lo (by omega)
    omega
  rw [RootFile.lseek_within root lo hi]
  unfold FatFile.lseek
  rw [fat]
  refine ⟨⟨fun _ => met, fun _ => rfl⟩, fun _ => ⟨data, x.toNat, ⟨bounds.grown, by omega, most⟩, ?_, rfl⟩, nofun⟩
  unfold fLseek fatAt
  dsimp only
  rw [place, if_pos (show x.toNat ≤ data.length by omega)]

theorem seekEnd_differs (bounds : Bounds start data off) (lo : 0 ≤ data.length + offset) (hi : offset ≤ 0)
    (moved : data.length ≠ start) :
    ((fatAt m flag start data off).lseek waste offset .seekEnd).1 ≠ .returned (data.length + offset) [] := by
  have grown := bounds.grown
  have most := bounds.most
  unfold FatFile.lseek FatFile.target
  change (match (if offset < 0 ∧ (start : Int) < -offset then none else some (toInt (start + offset)) : Option Int) with
    | none => _
    | some x => _ : Result × FatFile).1 ≠ _
  by_cases before : offset < 0 ∧ (start : Int) < -offset
  · rw [if_pos before]
    exact returned_ne (by omega)
  · rw [if_neg before, toInt_small (by omega) (by omega)]
    exact returned_ne (by omega)

theorem lseek_alike (bounds : Bounds start data off) (within : (Op.lseek offset whence).Within (rootAt m data off)) :
    Alike m flag start ((Op.lseek offset whence).Meets m start (rootAt m data off))
      ((fatAt m flag start data off).lseek waste offset whence) ((rootAt m data off).lseek offset whence) := by
  have most := bounds.most
  cases whence with
  | seekSet =>
    obtain ⟨lo, hi⟩ : 0 ≤ offset ∧ offset ≤ data.length := within
    exact seek_alike bounds lo hi trivial (if_neg (by omega)) rfl
  | seekCur =>
    obtain ⟨lo, hi⟩ : 0 ≤ (off : Int) + offset ∧ (off : Int) + offset ≤ data.length := within
    have sum : toInt ((off : Int) + offset) = off + offset := toInt_small lo (by omega)
    refine seek_alike bounds lo hi trivial ((if_neg ?_).trans (congrArg some sum)) (congrArg some sum)
    change ¬ (offset < 0 ∧ (off : Int) < -offset)
    omega
  | seekEnd =>
    obtain ⟨lo, hi⟩ : 0 ≤ (data.length : Int) + offset ∧ offset ≤ 0 := within
    have sum : toInt ((data.length : Int) + offset) = data.length + offset := toInt_small lo (by omega)
    have root : (rootAt m data off).newoff offset .seekEnd = some (data.length + offset) :=
      (if_neg (by omega)).trans (congrArg some sum)
    change Alike m flag start (data.length = start) _ _
    by_cases same : data.length = start
    · subst same
      refine seek_alike bounds lo (by omega) rfl ((if_neg ?_).trans (congrArg some sum)) root
      change ¬ (offset < 0 ∧ (data.length : Int) < -offset)
      omega
    · have differs : ((fatAt m flag start data off).lseek waste offset .seekEnd).1 ≠ _ :=
        seekEnd_differs bounds lo hi same
      rw [RootFile.lseek_within root lo (by omega)]
      exact ⟨⟨fun eq => absurd eq differs, fun met => absurd met same⟩, fun met => absurd met same, nofun⟩
  | unknown => exact ⟨⟨fun _ => trivial, fun _ => rfl⟩, fun _ => ⟨data, off, bounds, rfl, rfl⟩, nofun⟩

theorem step_alike (waste : Nat → UInt8) (flagged : Flagged m flag) (bounds : Bounds start data off) (op : Op)
    (within : op.Within (rootAt m data off)) :
    Alike m flag start (op.Meets m start (rootAt m data off)) ((fatAt m flag start data off).step waste op)
      ((rootAt m data off).step op) := by
  cases op with
  | write src => exact write_alike flagged bounds within
  | lseek offset whence => exact lseek_alike bounds within
  | read n => exact read_alike flagged bounds within.1 within.2

theorem play_alike (waste : Nat → UInt8) (flagged : Flagged m flag) (ops : List Op) : ∀ (data : List UInt8) (off : Nat),
    Bounds start data off → Within ops (rootAt m data off) →
    ((fatAt m flag start data off).play waste ops = (rootAt m data off).play ops ↔
      Meets m start ops (rootAt m data off)) := by
  induction ops with
  | nil => exact fun _ _ _ _ => ⟨fun _ => trivial, fun _ => rfl⟩
  | cons op ops ih =>
    rintro data off bounds ⟨within, later⟩
    have step := step_alike waste flagged bounds op within
    have plays : (fatAt m flag start data off).play waste (op :: ops) =
        match (fatAt m flag start data off).step waste op with
        | (.halted, _) => [.halted]
        | (r, f) => r :: f.play waste ops := rfl
    change _ = ((rootAt m data off).step op).1 :: ((rootAt m data off).step op).2.play ops ↔
      op.Meets m start (rootAt m data off) ∧ Meets m start ops ((rootAt m data off).step op).2
    rw [plays]
    generalize (fatAt m flag start data off).step waste op = a at step
    generalize (rootAt m data off).step op = b at step later
    obtain ⟨result, f⟩ := a
    obtain ⟨expected, x⟩ := b
    constructor
    · intro same
      have first : result = expected := by grind
      have met := step.iff.mp first
      obtain ⟨data', off', bounds', rfl, rfl⟩ := step.next met
      refine ⟨met, (ih data' off' bounds' later).mp ?_⟩
      cases result with
      | halted => exact absurd first.symm step.returns
      | returned r out => exact (List.cons.inj same).2
    · rintro ⟨met, rest⟩
      obtain rfl := step.iff.mpr met
      obtain ⟨data', off', bounds', rfl, rfl⟩ := step.next met
      have tail := (ih data' off' bounds' later).mpr rest
      cases result with
      | halted => exact absurd rfl step.returns
      | returned r out => exact congrArg (Result.returned r out :: ·) tail

end Calls

/-! Opens -/

section Opens

variable (m : Mode)

theorem flagged_plain : Flagged m (fatFlag m.omode) := ⟨(flag_bits m false).1, (flag_bits m false).2⟩

theorem flagged_created : Flagged m (fatFlag m.omode ||| FA_CREATE_ALWAYS) :=
  ⟨(flag_bits m true).1, (flag_bits m true).2⟩

theorem RootFile.sysOpen_absent :
    RootFile.sysOpen m.omode none = if m.create then some (rootAt m [] 0) else none := by
  unfold RootFile.sysOpen
  simp only [create_iff]
  cases m.create with
  | false => rfl
  | true => simp [rootAt]

theorem RootFile.sysOpen_present (data : List UInt8) :
    RootFile.sysOpen m.omode (some data) = some (rootAt m (if m.trunc then [] else data) 0) := by
  unfold RootFile.sysOpen
  simp only [create_iff, trunc_iff, Option.getD_some, ite_self, Option.map_some]
  rfl

theorem FatFile.sysOpen_absent : FatFile.sysOpen m.omode none =
    if m.create = true ∨ m.trunc = true then some (fatAt m (fatFlag m.omode ||| FA_CREATE_ALWAYS) 0 [] 0) else none := by
  unfold FatFile.sysOpen fatOpen fOpen
  simp only [flag_creates, Option.any_none, Bool.false_eq_true, false_and, if_false, Option.elim_none, ite_self]
  split <;> rfl

theorem FatFile.sysOpen_present (e : Entry) : FatFile.sysOpen m.omode (some e) =
    if m.create = false ∧ (e.rdo = true → m = .readOnly) then
      some (fatAt m (fatFlag m.omode) (if m.trunc then [] else e.data).length (if m.trunc then [] else e.data) 0)
    else none := by
  unfold FatFile.sysOpen fatOpen fOpen
  simp only [flag_creates, flag_new, flag_always, rdonly_iff, ne_eq, Option.any_some, Option.elim_some]
  by_cases denied : e.rdo = true ∧ ¬ m = .readOnly
  · rw [if_pos denied, if_neg (fun met => denied.2 (met.2 denied.1))]
    rfl
  · have allowed : e.rdo = true → m = .readOnly := fun rdo => not_not.mp fun other => denied ⟨rdo, other⟩
    rw [if_neg denied]
    cases created : m.create with
    | true => grind
    | false =>
      rw [if_pos (show false = false ∧ (e.rdo = true → m = .readOnly) from ⟨rfl, allowed⟩)]
      cases truncated : m.trunc with
      | true =>
        have writes : e.rdo = false := by
          cases rdo : e.rdo with
          | false => rfl
          | true =>
            rw [allowed rdo] at truncated
            cases truncated
        rw [if_pos (show false = true ∨ true = true from .inr rfl), writes]
        rfl
      | false =>
        have reads : ¬ (¬ fatFlag m.omode &&& FA_WRITE = 0 ∧ e.rdo = true) := by
          rintro ⟨write, rdo⟩
          have access := (flagged_plain m).write.mp write
          rw [allowed rdo] at access
          exact access rfl
        rw [if_neg (by decide), if_neg reads]
        rfl

end Opens

theorem opened_agree {waste : Nat → UInt8} {m : Mode} {ops : List Op} {a : Option FatFile} {b : Option RootFile}
    {f : FatFile} {x : RootFile} (fat : a = some f) (root : b = some x)
    (plays : f.play waste ops = x.play ops ↔ Meets m x.data.length ops x) :
    ((a.isSome ↔ b.isSome) ∧ ∀ f x, a = some f → b = some x → f.play waste ops = x.play ops) ↔
      ∀ x, b = some x → Meets m x.data.length ops x := by
  subst fat root
  constructor
  · grind
  · grind

/-- For every mode, file and sequence of calls: the file under `/d/` behaves like the one of the
root disk if and only if the open and each call meet their condition. -/
theorem modes_agree (waste : Nat → UInt8) (m : Mode) (file : Option Entry) (ops : List Op)
    (small : ∀ e, file = some e → e.data.length ≤ MAXFILE * BSIZE)
    (within : ∀ x, RootFile.sysOpen m.omode (file.map Entry.data) = some x → Within ops x) :
    Agree waste m file ops ↔ Opens m file ∧
      ∀ x, RootFile.sysOpen m.omode (file.map Entry.data) = some x → Meets m x.data.length ops x := by
  unfold Agree
  cases file with
  | none =>
    have root := RootFile.sysOpen_absent m
    have fat := FatFile.sysOpen_absent m
    cases created : m.create with
    | true =>
      rw [created, if_pos rfl] at root
      rw [created, if_pos (.inl rfl)] at fat
      have plays := play_alike waste (flagged_created m) ops [] 0
        ⟨Nat.le_refl _, Nat.le_refl _, by decide⟩ (within _ root)
      exact (opened_agree fat root plays).trans ⟨fun meets => ⟨fun _ => created, meets⟩, fun met => met.2⟩
    | false =>
      rw [created, if_neg Bool.false_ne_true] at root
      rw [created] at fat
      rw [Option.map_none, root, fat]
      cases truncated : m.trunc with
      | true =>
        -- FatFs creates the file
        constructor
        · rintro ⟨opens, -⟩
          exact absurd (opens.mp rfl) (by decide)
        · rintro ⟨opens, -⟩
          exact absurd (created.symm.trans (opens truncated)) (by decide)
      | false =>
        rw [if_neg (by decide)]
        exact ⟨fun _ => ⟨fun truncates => absurd (truncated.symm.trans truncates) (by decide), nofun⟩,
          fun _ => ⟨Iff.rfl, nofun⟩⟩
  | some e =>
    have root := RootFile.sysOpen_present m e.data
    have fat := FatFile.sysOpen_present m e
    have start : Bounds (if m.trunc then [] else e.data).length (if m.trunc then [] else e.data) 0 := by
      refine ⟨Nat.le_refl _, Nat.zero_le _, ?_⟩
      split
      · exact Nat.zero_le _
      · exact small e rfl
    have plays := play_alike waste (flagged_plain m) ops _ 0 start (within _ root)
    by_cases opens : m.create = false ∧ (e.rdo = true → m = .readOnly)
    · rw [if_pos opens] at fat
      exact (opened_agree fat root plays).trans ⟨fun meets => ⟨opens, meets⟩, fun met => met.2⟩
    · rw [if_neg opens] at fat
      rw [fat, Option.map_some, root]
      constructor
      · rintro ⟨both, -⟩
        exact absurd (both.mpr rfl) (by decide)
      · rintro ⟨met, -⟩
        exact absurd met opens

theorem modes_agree_rewrite :
    Agree (fun _ => 0) ⟨.wronly, false, true⟩ (some ⟨[1, 2, 3], false⟩) [.write [7, 8], .lseek 1 .seekSet, .write [9]] := by
  refine (modes_agree _ ⟨.wronly, false, true⟩ (some ⟨[1, 2, 3], false⟩) _ ?_ ?_).mpr ⟨⟨rfl, nofun⟩, ?_⟩
  · rintro e ⟨⟩
    decide
  · rintro x opened
    cases (show some _ = some x from opened)
    refine ⟨?_, ⟨by decide, by decide⟩, ?_, trivial⟩
    · exact show 2 < 2 ^ 31 by decide
    · exact show 1 < 2 ^ 31 by decide
  · rintro x opened
    cases (show some _ = some x from opened)
    exact ⟨fun _ => by decide, trivial, fun _ => by decide, trivial⟩

/- With `O_RDWR` what was written cannot be read back, and `O_CREATE` does not open a file that there
is. -/
theorem modes_differ :
    ¬ Agree (fun _ => 0) ⟨.rdwr, true, false⟩ none [.write [7], .lseek 0 .seekSet, .read 1] ∧
    ¬ Agree (fun _ => 0) ⟨.rdwr, true, false⟩ (some ⟨[7], false⟩) [] := by
  constructor
  · rintro ⟨-, same⟩
    exact absurd (same _ _ rfl rfl) (by decide)
  · rintro ⟨both, -⟩
    exact absurd (both.mpr rfl) (by decide)

end UvaOs.Fat
