import UvaOs.Fat.Modes

/-! The offset of a FAT descriptor is kept twice: in `f->off` and, as the read/write pointer of
the file, by FatFs. Here the buffer of a read may be one that cannot be written, and the disk may
have no room for what a write or a seek adds to the file. -/
namespace UvaOs.Fat

open UvaOs.Fs (UINT)
open UvaOs.Io (toUint MAX_ALLOC_SIZE toUint_nonneg)

/-- A call with what the rest of the system does in it: whether `either_copyout` succeeds, and
the number of bytes that FatFs has room for. -/
inductive Call where
  | fileread (n : Int) (copies : Bool)
  | filewrite (src : List UInt8) (fit : Nat)
  | filelseek (offset : Int) (whence : Whence) (fit : Nat)

namespace FatFile

variable (f : FatFile)

def fileread (n : Int) (copies : Bool) : Int × FatFile :=
  if f.readable = false then (-1, f)
  else if MAX_ALLOC_SIZE < toUint n then (-2, f)
  else
    match fRead (toUint n) f.fp with
    | none => (-1, f)
    | some (buf, fp) =>
      if copies ∨ buf = [] then (buf.length, { f with fp := fp, off := f.off + buf.length })
      else (-1, { f with fp := fp })

/-- `none` is the BUG after a failed `f_write`. -/
def filewrite (src : List UInt8) (fit : Nat) : Option (Int × FatFile) :=
  if f.writable = false then some (-1, f)
  else if MAX_ALLOC_SIZE < src.length then some (-2, f)
  else (fWrite (src.take fit) f.fp).map fun (n1, fp) => (n1, { f with fp := fp, off := f.off + n1 })

/-- FatFs goes as far as it has room. -/
def filelseek (waste : Nat → UInt8) (offset : Int) (whence : Whence) (fit : Nat) : Int × FatFile :=
  match f.target offset whence with
  | none => (-1, f)
  | some offset => (offset, { f with
      fp := fLseek waste (min (toUint offset) (f.fp.data.length + fit)) f.fp, off := toUint offset })

def call (waste : Nat → UInt8) : Call → Option (Int × FatFile)
  | .fileread n copies => some (f.fileread n copies)
  | .filewrite src fit => f.filewrite src fit
  | .filelseek offset whence fit => some (f.filelseek waste offset whence fit)

def sought (offset : Int) : Whence → Int
  | .seekCur => f.off + offset
  | .seekEnd => f.size + offset
  | _ => offset

/-- A read into a buffer that can be written, and a seek to a position that is an `int` and that
FatFs can go to. -/
def Exact : Call → Prop
  | .fileread _ copies => copies = true
  | .filewrite .. => True
  | .filelseek offset whence fit => f.sought offset whence < 2 ^ 31 ∧
      (f.sought offset whence ≤ f.fp.data.length ∨
        f.fp.flag &&& FA_WRITE ≠ 0 ∧ f.sought offset whence ≤ f.fp.data.length + fit)

/-- Both offsets are the same after the call, and a seek returns them; from the end it goes by
the size `start`. -/
def Recorded (waste : Nat → UInt8) (start : Nat) (c : Call) : Prop :=
  ∀ r g, f.call waste c = some (r, g) → g.off = g.fp.fptr ∧
    ∀ offset whence fit, c = .filelseek offset whence fit → r ≠ -1 →
      r = g.fp.fptr ∧ (whence = .seekEnd → r = start + offset)

end FatFile

def Along (P : FatFile → Call → Prop) (waste : Nat → UInt8) : List Call → FatFile → Prop
  | [], _ => True
  | c :: cs, f => P f c ∧ ∀ r g, f.call waste c = some (r, g) → Along P waste cs g

section

variable {waste : Nat → UInt8} {f : FatFile} {start : Nat} {offset : Int} {whence : Whence} {x : Int}

theorem toInt_of_lt (lo : 0 ≤ x) (hi : x < 2 ^ 31) : toInt x = x := by
  simp only [toInt, UINT, Int.bmod]
  omega

theorem target_sought (below : f.sought offset whence < 2 ^ 31) (at_ : f.target offset whence = some x) :
    x = f.sought offset whence ∧ 0 ≤ x := by
  cases whence <;> simp only [FatFile.target, FatFile.sought] at *
  case unknown => cases at_
  case seekSet => grind
  case seekCur | seekEnd =>
    split at at_
    · cases at_
    · grind [Option.some.inj, toInt_of_lt]

theorem fLseek_fptr {fp : Fil} {ofs fit : Nat}
    (reach : ofs ≤ fp.data.length ∨ fp.flag &&& FA_WRITE ≠ 0 ∧ ofs ≤ fp.data.length + fit) :
    (fLseek waste (min ofs (fp.data.length + fit)) fp).fptr = ofs := by
  rw [Nat.min_eq_left (by omega), fLseek]
  split
  · rfl
  · rw [if_neg (reach.resolve_left ‹_›).1]

theorem Exact.recorded {c : Call} (same : f.off = f.fp.fptr) (size : f.size = start)
    (exact : f.Exact c) : f.Recorded waste start c := by
  intro r g ran
  cases c with
  | fileread n copies =>
    refine ⟨?_, nofun⟩
    obtain rfl : copies = true := exact
    simp only [FatFile.call, FatFile.fileread, fRead, true_or, if_true] at ran
    grind
  | filewrite src fit => grind [FatFile.call, FatFile.filewrite, fWrite]
  | filelseek offset whence fit =>
    simp only [FatFile.call, FatFile.filelseek] at ran
    cases at_ : f.target offset whence with
    | none => grind
    | some x =>
      simp only [at_, Option.some.injEq, Prod.mk.injEq] at ran
      obtain ⟨rfl, rfl⟩ := ran
      obtain ⟨below, reach⟩ := exact
      obtain ⟨rfl, lo⟩ := target_sought below at_
      have value := toUint_nonneg lo below
      have reach' : toUint (f.sought offset whence) ≤ f.fp.data.length ∨ f.fp.flag &&& FA_WRITE ≠ 0 ∧
          toUint (f.sought offset whence) ≤ f.fp.data.length + fit :=
        reach.imp (by omega) (And.imp_right (by omega))
      refine ⟨(fLseek_fptr reach').symm, ?_⟩
      rintro _ _ _ ⟨⟩ -
      refine ⟨by dsimp only; rw [fLseek_fptr reach', value], ?_⟩
      rintro rfl
      simp only [FatFile.sought, size]

theorem call_size {c : Call} {r : Int} {g : FatFile} (ran : f.call waste c = some (r, g)) :
    g.size = f.size := by
  cases c <;> simp only [FatFile.call, FatFile.fileread, FatFile.filewrite, FatFile.filelseek,
    fRead, fWrite] at ran <;> grind

theorem sysOpen_start {omode : BitVec 32} {file : Option Entry} (opened : FatFile.sysOpen omode file = some f) :
    f.off = f.fp.fptr ∧ f.size = f.fp.data.length := by
  simp only [FatFile.sysOpen, fatOpen, fOpen] at opened
  cases file <;> grind

theorem offset_recorded {omode : BitVec 32} {file : Option Entry} (waste : Nat → UInt8) (cs : List Call)
    (opened : FatFile.sysOpen omode file = some f) (exact : Along FatFile.Exact waste cs f) :
    Along (FatFile.Recorded · waste f.fp.data.length) waste cs f := by
  obtain ⟨same, size⟩ := sysOpen_start opened
  generalize f.fp.data.length = start at size ⊢
  clear opened
  induction cs generalizing f with
  | nil => trivial
  | cons c cs ih =>
    have recorded : f.Recorded waste start c := Exact.recorded same size exact.1
    refine ⟨recorded, fun r g ran => ?_⟩
    exact ih (exact.2 r g ran) (recorded r g ran).1 ((call_size ran).trans size)

end

def opened (data : List UInt8) (start off : Nat) : FatFile := ⟨⟨FA_WRITE, data, off⟩, start, off, false, true⟩

theorem offset_recorded_append : Along (FatFile.Recorded · (fun _ => 0) 1) (fun _ => 0)
      [.filewrite [9] 1, .filelseek 0 .seekEnd 0] (opened [5] 1 0) := by
  refine offset_recorded (fun _ => 0) _ (by decide : FatFile.sysOpen O_WRONLY (some ⟨[5], false⟩) =
    some (opened [5] 1 0)) ⟨trivial, ?_⟩
  rintro r g ⟨⟩
  exact ⟨⟨by decide, .inl (by decide)⟩, fun _ _ _ => trivial⟩

theorem offset_differs : (∃ f, FatFile.sysOpen O_RDONLY (some ⟨[7], false⟩) = some f ∧
      f.call (fun _ => 0) (.filelseek 5 .seekSet 0) =
        some (5, { f with fp := { f.fp with fptr := 1 }, off := 5 })) ∧
    FatFile.sysOpen O_WRONLY (some ⟨[], false⟩) = some (opened [] 0 0) ∧
    (opened [] 0 0).call (fun _ => 0) (.filewrite [1, 2, 3] 3) = some (3, opened [1, 2, 3] 0 3) ∧
    (opened [1, 2, 3] 0 3).call (fun _ => 0) (.filelseek 0 .seekEnd 0) = some (0, opened [1, 2, 3] 0 0) := by
  exact ⟨⟨_, rfl, by decide⟩, by decide, by decide, by decide +kernel⟩

end UvaOs.Fat
