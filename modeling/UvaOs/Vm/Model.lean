import UvaOs.Lib.Prog

/-! User virtual memory: the page allocator of kernel/alloc.c and the page tables
of kernel/vm.c.

Physical memory is an array of frames of 512 words. Addresses, physical and
virtual, are numbers; a frame number is a physical address divided by the page
size. `struct mm_struct` is kept per slot. A caller holds the lock of the mm, and
the TLB follows the tables, so neither is part of the state. -/
namespace UvaOs.Vm

open Prog

/-! mmu.h and param.h -/

@[simp] def PAGE_SIZE : Nat := 4096
@[simp] def PTRS_PER_TABLE : Nat := 512
@[simp] def PGD_SHIFT : Nat := 39
@[simp] def PUD_SHIFT : Nat := 30
@[simp] def PMD_SHIFT : Nat := 21
@[simp] def PAGE_SHIFT : Nat := 12
@[simp] def USER_VA_END : Nat := 128 * 1024 * 1024
@[simp] def USER_MAX_STACK : Nat := 1024 * 1024
@[simp] def MAX_TASK_USER_PAGES : Nat := USER_VA_END / PAGE_SIZE
@[simp] def MAX_TASK_KER_PAGES : Nat := 96
@[simp] def PHYS_SIZE : Nat := 0x3f000000

def MM_TYPE_PAGE_TABLE : BitVec 64 := 0x3#64
def MMU_PTE_FLAGS : BitVec 64 := 0x70b#64
def MM_AP_MASK : BitVec 64 := 0xc0#64
def MM_AP_EL1_RW : BitVec 64 := 0x00#64
def MM_AP_RW : BitVec 64 := 0x40#64
def MM_AP_EL0_RO : BitVec 64 := 0x80#64
def MM_AP_RO : BitVec 64 := 0xc0#64
def MM_XN : BitVec 64 := 1#64 <<< 54

def PGROUNDUP (sz : Nat) : Nat := (sz + PAGE_SIZE - 1) / PAGE_SIZE * PAGE_SIZE
def PGROUNDDOWN (a : Nat) : Nat := a / PAGE_SIZE * PAGE_SIZE

/- The physical address in a descriptor or a pte; 32 bits are enough for it. -/
def PTE_TO_PA (x : BitVec 64) : Nat := (x &&& 0xfffff000#64).toNat

structure Mm where
  pgd : Nat
  sz : Nat
  codesz : Nat
  userPagesCount : Int
  kernelPagesCount : Nat
  kernelPages : Nat → Nat

structure VmState where
  /-- `LOW_MEMORY` as a frame number. -/
  low : Nat
  /-- The frames of the page allocator, `PAGING_PAGES - MALLOC_PAGES`. -/
  pages : Nat
  /-- `mem_map`, by frame number. -/
  used : Nat → Bool
  pagesUsed : Int
  mem : Nat → Nat → BitVec 64
  mm : Nat → Mm

/-- A `BUG`, a failed `BUG_ON` or `assert`. -/
inductive Halt where
  | bug
  deriving DecidableEq, Repr

abbrev VmM (α : Type) : Type := Prog VmState Halt α

namespace VmState

def putUsed (s : VmState) (frame : Nat) (b : Bool) : VmState :=
  { s with used := Function.update s.used frame b }

def putWord (s : VmState) (frame index : Nat) (w : BitVec 64) : VmState :=
  { s with mem := Function.update s.mem frame (Function.update (s.mem frame) index w) }

def putMm (s : VmState) (m : Nat) (x : Mm) : VmState :=
  { s with mm := Function.update s.mm m x }

theorem putWord_self (s : VmState) (frame index : Nat) (w : BitVec 64) :
    (s.putWord frame index w).mem frame index = w := by
  simp [putWord]

theorem putWord_ne (s : VmState) {frame index g j : Nat} (w : BitVec 64)
    (other : g ≠ frame ∨ j ≠ index) : (s.putWord frame index w).mem g j = s.mem g j := by
  by_cases same : g = frame
  · have differs : j ≠ index := other.resolve_left (fun apart => apart same)
    simp [putWord, same, differs]
  · simp [putWord, same]

theorem putMm_self (s : VmState) (m : Nat) (x : Mm) : (s.putMm m x).mm m = x := by
  simp [putMm]

theorem putMm_putMm (s : VmState) (m : Nat) (x y : Mm) : (s.putMm m x).putMm m y = s.putMm m y := by
  simp [putMm]

theorem putMm_ne (s : VmState) {m k : Nat} (x : Mm) (other : k ≠ m) :
    (s.putMm m x).mm k = s.mm k := by
  simp [putMm, other]

end VmState

open VmState

/-! Page allocator -/

/- The first free frame at or after `frame`, among the next `left`. -/
def firstFree (used : Nat → Bool) : Nat → Nat → Option Nat
  | _, 0 => none
  | frame, left + 1 => if used frame then firstFree used (frame + 1) left else some frame

/-- A zeroed page, by its physical address; 0 if there is none. -/
def getFreePage : VmM Nat := do
  let s ← get
  match firstFree s.used s.low s.pages with
  | some frame => do
    modify (fun s => { s with
      used := Function.update s.used frame true
      pagesUsed := s.pagesUsed + 1
      mem := Function.update s.mem frame (fun _ => 0) })
    pure (frame * PAGE_SIZE)
  | none => pure 0

def freePage (pa : Nat) : VmM Unit :=
  modify (fun s => { s with
    used := Function.update s.used (pa / PAGE_SIZE) false
    pagesUsed := s.pagesUsed - 1 })

/-! Page tables -/

def tableIndex (va shift : Nat) : Nat := va / 2 ^ shift % PTRS_PER_TABLE

/-- The table below `table` on the way to `va`, by its physical address, and
whether it was allocated here. The address is 0 if there is no such table. -/
def mapTable (table shift va : Nat) (alloc : Bool) : VmM (Nat × Bool) := do
  let s ← get
  let desc := s.mem (table / PAGE_SIZE) (tableIndex va shift)
  if desc = 0 then
    if alloc then do
      let next ← getFreePage
      if next = 0 then pure (0, false)
      else do
        modify (·.putWord (table / PAGE_SIZE) (tableIndex va shift)
          (BitVec.ofNat 64 next ||| MM_TYPE_PAGE_TABLE))
        pure (next, true)
    else pure (0, false)
  else pure (PTE_TO_PA desc, false)

/-- The loop of `map_page` over the levels below the pgd, with the number of each
level. Next to the bottom table it returns the tables allocated so far. -/
def walkTables (nk va : Nat) (alloc : Bool) :
    List (Nat × Nat) → Nat → List Nat → VmM (Option Nat × List Nat)
  | [], table, kerPages => pure (some table, kerPages)
  | (i, shift) :: rest, table, kerPages => do
    let r ← mapTable table shift va alloc
    if r.1 = 0 then pure (none, kerPages)
    else if r.2 then
      -- the limit is checked after the table is in place
      if nk + i > MAX_TASK_KER_PAGES then pure (none, kerPages ++ [r.1])
      else walkTables nk va alloc rest r.1 (kerPages ++ [r.1])
    else walkTables nk va alloc rest r.1 kerPages

def levels : List (Nat × Nat) := [(1, PGD_SHIFT), (2, PUD_SHIFT), (3, PMD_SHIFT)]

/- `mm->pgd`, allocated if it is absent; the pages allocated for it. -/
def topTable (m : Nat) (alloc : Bool) : VmM (Option (List Nat)) := do
  let s ← get
  if (s.mm m).pgd = 0 then
    if alloc then
      if (s.mm m).kernelPagesCount = MAX_TASK_KER_PAGES then pure none
      else do
        let page ← getFreePage
        if page = 0 then pure none
        else do
          modify (fun s => s.putMm m { s.mm m with pgd := page })
          pure (some [page])
    else pure none
  else pure (some [])

def freePages : List Nat → VmM Unit
  | [] => pure ()
  | page :: rest => do
    freePage page
    freePages rest

/- `mm->kernel_pages[mm->kernel_pages_count++] = page` for each page. -/
def recordPages (mm : Mm) : List Nat → Mm
  | [] => mm
  | page :: rest => recordPages { mm with
      kernelPages := Function.update mm.kernelPages mm.kernelPagesCount page
      kernelPagesCount := mm.kernelPagesCount + 1 } rest

/-- Set `pte[index]`, or leave it alone if `pa` is 0. -/
def mapTableEntry (table va pa : Nat) (perm : BitVec 64) : VmM Unit :=
  if pa = 0 then pure ()
  else modify (·.putWord (table / PAGE_SIZE) (tableIndex va PAGE_SHIFT)
    (BitVec.ofNat 64 pa ||| MMU_PTE_FLAGS ||| perm))

/-- Find the pte of `va`, and set it if `page` is not 0; `none` is the null pointer.
A pte is given by its frame and index. The failure path frees the new tables, but
the store meant to clear their descriptors goes to a local array. -/
def mapPage (m va page : Nat) (alloc : Bool) (perm : BitVec 64) : VmM (Option (Nat × Nat)) := do
  let s ← get
  if page ≠ 0 ∧ alloc = true ∧ (s.mm m).userPagesCount ≥ MAX_TASK_USER_PAGES then pure none
  else do
    let top ← topTable m alloc
    match top with
    | none => pure none
    | some kerPages => do
      let s' ← get
      let r ← walkTables (s.mm m).kernelPagesCount va alloc levels (s'.mm m).pgd kerPages
      match r with
      | (none, kerPages) => do
        freePages kerPages
        pure none
      | (some table, kerPages) => do
        mapTableEntry table va page perm
        let s'' ← get
        if page ≠ 0 then
          if (s''.mm m).userPagesCount ≥ MAX_TASK_USER_PAGES then stop .bug
          else modify (fun s => s.putMm m { s.mm m with
            userPagesCount := (s.mm m).userPagesCount + 1 })
        else pure ()
        modify (fun s => s.putMm m (recordPages (s.mm m) kerPages))
        pure (some (table / PAGE_SIZE, tableIndex va PAGE_SHIFT))

/-- Allocate and map a page; its physical address, or 0. -/
def allocateUserPageMm (m va : Nat) (perm : BitVec 64) : VmM Nat := do
  let s ← get
  if (s.mm m).userPagesCount = MAX_TASK_USER_PAGES then pure 0
  else do
    let page ← getFreePage
    if page = 0 then pure 0
    else do
      let pte ← mapPage m va page true perm
      match pte with
      | some _ => pure page
      | none => do
        freePage page
        pure 0

/-- The physical address of the page at `va`, or 0. Of the low bits of the pte
only the access permission is left out of the comparison. -/
def walkaddr (m va : Nat) : VmM Nat := do
  let pte ← mapPage m va 0 false 0
  match pte with
  | none => pure 0
  | some (frame, index) => do
    let s ← get
    let x := s.mem frame index
    if x &&& 0xfff#64 &&& ~~~MM_AP_MASK ≠ MMU_PTE_FLAGS then pure 0
    else if PTE_TO_PA x ≥ PHYS_SIZE then stop .bug
    else pure (PTE_TO_PA x)

end UvaOs.Vm
