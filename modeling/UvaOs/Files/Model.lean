import UvaOs.Fs.Model

/-! kernel/file.c: the system-wide table of open files, and the table of
descriptors of a task (`fdalloc` and `argfd` in sysfile.c). Each function below is
the part of the source that runs under one hold of `ftable.lock`, or that touches
only what belongs to the running task. -/
namespace UvaOs.Files

open UvaOs.Fs (IType Panic)

@[simp] def NFILE : Nat := 100
@[simp] def NOFILE : Nat := 16
@[simp] def NR_TASKS : Nat := 32

inductive FdType where
  | none | pipe | inode | device | procfs | inodeFat
  deriving DecidableEq, Repr

/-- `struct file`, without the offset, the device number and the non-blocking
flag; `content` says whether the pointer is set. -/
structure File where
  type : FdType
  ref : Int
  readable : Bool
  writable : Bool
  pipe : Nat
  ip : Nat
  content : Bool
  deriving DecidableEq, Repr

def File.zero : File := ⟨.none, 0, false, false, 0, 0, false⟩

abbrev Ftable : Type := Nat → File

def unusedFile (ftable : Ftable) : Option Nat :=
  (List.range NFILE).find? (fun f => decide ((ftable f).ref = 0))

def filealloc (ftable : Ftable) : Option (Nat × Ftable) :=
  match unusedFile ftable with
  | some f => some (f, Function.update ftable f { ftable f with ref := 1 })
  | none => none

def filedup (ftable : Ftable) (f : Nat) : Except Panic Ftable :=
  if (ftable f).ref < 1 then .error .filedup
  else .ok (Function.update ftable f { ftable f with ref := (ftable f).ref + 1 })

/-- The part of `fileclose` under the lock: the new table and, when the last
reference went, the copy of the entry that the rest of the function works on. -/
def filedrop (ftable : Ftable) (f : Nat) : Except Panic (Ftable × Option File) :=
  if (ftable f).ref < 1 then .error .fileclose
  else if (ftable f).ref - 1 > 0 then
    .ok (Function.update ftable f { ftable f with ref := (ftable f).ref - 1 }, none)
  else
    -- the copy is made after the decrement
    .ok (Function.update ftable f { ftable f with ref := 0, type := .none },
      some { ftable f with ref := (ftable f).ref - 1 })

/-- What `fileclose` does once the last reference is gone. -/
inductive CloseAction where
  | nothing
  | procfs
  | pipeclose (pipe : Nat) (writable : Bool)
  | iput (ip : Nat)
  | fatClose (ip : Nat)
  deriving DecidableEq, Repr

/-- The else-if chain at the end of `fileclose`. A procfs file with content takes
the first branch and so never comes to the one with `iput`. -/
def closeAction (ff : File) : CloseAction :=
  if ff.type = .procfs ∧ ff.content = true then .procfs
  else if ff.type = .pipe then .pipeclose ff.pipe ff.writable
  else if ff.type = .inode ∨ ff.type = .device ∨ ff.type = .procfs then .iput ff.ip
  else if ff.type = .inodeFat then .fatClose ff.ip
  else .nothing

@[simp] def O_RDONLY : Nat := 0
@[simp] def O_WRONLY : Nat := 0x001
@[simp] def O_RDWR : Nat := 0x002
@[simp] def O_CREATE : Nat := 0x200
@[simp] def O_TRUNC : Nat := 0x400

/-- How `sys_open` fills an entry for the inode in slot `ip`, after `prepfile`.
The content of a device that is no procfs file stays as it was, since no close
action reads it. -/
def prepfile (f : File) (type : IType) (ip omode : Nat) : File :=
  { f with
    type := match type with
      | .device => .device
      | .procfs => .procfs
      | .fileFat | .dirFat => .inodeFat
      | _ => .inode
    content := if type = .procfs then true else f.content
    ip := ip
    readable := omode &&& O_WRONLY = 0
    writable := omode &&& O_WRONLY ≠ 0 ∨ omode &&& O_RDWR ≠ 0 }

def pipeEnd (f : File) (pi : Nat) (writable : Bool) : File :=
  { f with type := .pipe, readable := !writable, writable := writable, pipe := pi }

abbrev Ofile : Type := Nat → Option Nat

def argfd (ofile : Ofile) (fd : Int) : Option Nat :=
  if fd < 0 ∨ (NOFILE : Int) ≤ fd then none else ofile fd.toNat

def unusedFd (ofile : Ofile) : Option Nat :=
  (List.range NOFILE).find? (fun fd => decide (ofile fd = none))

def fdalloc (ofile : Ofile) (f : Nat) : Option (Nat × Ofile) :=
  match unusedFd ofile with
  | some fd => some (fd, Function.update ofile fd (some f))
  | none => none

end UvaOs.Files
