import UvaOs.Vm.Grow

/-! `dup_current_virt_memory` in kernel/vm.c: the copy of an address space that `fork`
makes. -/
namespace UvaOs.Vm

open Prog

/-- How the kernel stops in code that also reads user addresses through the MMU. -/
inductive Trap where
  | bug
  | fault
  deriving DecidableEq, Repr

def lift {α : Type} (m : VmM α) : Prog VmState Trap α := fun s =>
  match m s with
  | .ok r => .ok r
  | .error _ => .error .bug

def MM_XN_MASK : BitVec 64 := 3#64 <<< 53

def PTE_TO_PERM (x : BitVec 64) : BitVec 64 := x &&& (MM_AP_MASK ||| MM_XN_MASK)

/-- Whether the MMU translates an address with this pte. -/
def Valid (x : BitVec 64) : Prop := x &&& 3#64 = 3#64

instance (x : BitVec 64) : Decidable (Valid x) := inferInstanceAs (Decidable (_ = _))

def VmState.putFrame (s : VmState) (frame : Nat) (words : Nat → BitVec 64) : VmState :=
  { s with mem := Function.update s.mem frame words }

/-- `memmove` of a page from the user address `va` of the current mm. -/
def copyUserPage (src va page : Nat) : Prog VmState Trap Unit := do
  let s ← get
  if Valid (pte s src va) then
    modify (fun s => s.putFrame (page / PAGE_SIZE) (s.mem (PTE_TO_PA (pte s src va) / PAGE_SIZE)))
  else stop .fault

/-- One of the two loops: `n` pages from `va` on. The permission of a new page may depend
on the pte of the old one. The result tells whether there was memory. -/
def dupPages (src dst : Nat) (perm : BitVec 64 → BitVec 64) : Nat → Nat → Prog VmState Trap Bool
  | 0, _ => pure true
  | n + 1, va => do
    let pte ← lift (mapPage src va 0 false 0)
    match pte with
    | none => stop .bug
    | some (frame, index) => do
      let s ← get
      let page ← lift (allocateUserPageMm dst va (perm (s.mem frame index)))
      if page = 0 then pure false
      else do
        copyUserPage src va page
        dupPages src dst perm n (va + PAGE_SIZE)

/-- `dup_current_virt_memory`, with the mm and the stack pointer of the current task;
0 or -1. -/
def dupCurrentVirtMemory (src sp dst : Nat) : Prog VmState Trap Int := do
  let s ← get
  let heap ← dupPages src dst PTE_TO_PERM (pageSteps 0 (s.mm src).sz) 0
  if heap then do
    let stack ← dupPages src dst (fun _ => MM_AP_RW ||| MM_XN)
      (pageSteps (PGROUNDDOWN sp) USER_VA_END) (PGROUNDDOWN sp)
    if stack then do
      modify (fun s => s.putMm dst { s.mm dst with sz := (s.mm src).sz, codesz := (s.mm src).codesz })
      pure 0
    else pure (-1)
  else pure (-1)

end UvaOs.Vm
