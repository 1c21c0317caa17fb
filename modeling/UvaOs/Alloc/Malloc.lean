import UvaOs.Lib.Bytes
import UvaOs.Lib.Chain
import UvaOs.Lib.Prog

/-! `malloc` and `free` of the kernel (kernel/alloc.c). Blocks are chopped off from a pool, each
behind a header, and go to the free list for their size when they are freed; the lists are
threaded through the headers. The counters of `MEM_DEBUG` are left out. -/
namespace UvaOs.Alloc

open Bytes Prog List

def BLOCK_ALIGN : Nat := 16

/-- `sizeof (TBlockHeader)`. -/
@[simp] def HEADER : Nat := 16

def BLOCK_MAGIC : Nat := 0x424C4D43

def MAX_ALLOC_SIZE : Nat := 0x100000

/-- The block sizes of `s_BlockBucket`, in its order. -/
def buckets : List Nat := [0x40, 0x400, 0x1000, 0x4000, 0x40000, 0x80000, 0x100000]

/-- A failed `assert` or `BUG_ON`, all of which hang the kernel. -/
inductive Fault where
  | noPool | magic | noBucket | exhausted | misaligned | null | listed
  deriving DecidableEq

/-- `s_pNextBlock`, `s_pBlockLimit`, the `pFreeList` of each bucket, and the memory. -/
structure Pool where
  mem : Buffer
  nextBlock : Nat
  blockLimit : Nat
  freeList : Nat → Nat

def nMagic (mem : Buffer) (header : Nat) : Nat := peek mem header 4

def nSize (mem : Buffer) (header : Nat) : Nat := peek mem (header + 4) 4

def pNext (mem : Buffer) (header : Nat) : Nat := peek mem (header + 8) 8

def Pool.setNext (s : Pool) (header p : Nat) : Pool := { s with mem := poke s.mem (header + 8) 8 p }

def Pool.setList (s : Pool) (i p : Nat) : Pool :=
  { s with freeList := Function.update s.freeList i p }

def Pool.label (s : Pool) (header size : Nat) : Pool :=
  { s with mem := poke (poke s.mem header 4 BLOCK_MAGIC) (header + 4) 4 size }

/-- How far a block of some size moves `s_pNextBlock`. -/
def chunk (size : Nat) : Nat := (HEADER + size + BLOCK_ALIGN - 1) / BLOCK_ALIGN * BLOCK_ALIGN

def chop (size : Nat) : Prog Pool Fault Nat := do
  let s ← get
  modify (fun s => { s with nextBlock := s.nextBlock + chunk size })
  if s.blockLimit < s.nextBlock + chunk size then stop .exhausted
  else do
    modify (·.label s.nextBlock size)
    pure s.nextBlock

def takeBlock (i size : Nat) : Prog Pool Fault Nat := do
  let s ← get
  if s.freeList i ≠ 0 then
    if nMagic s.mem (s.freeList i) ≠ BLOCK_MAGIC then stop .magic
    else do
      modify (·.setList i (pNext s.mem (s.freeList i)))
      pure (s.freeList i)
  else chop size

def malloc (ulSize : Nat) : Prog Pool Fault Nat := do
  let s ← get
  if s.nextBlock = 0 then stop .noPool
  else if MAX_ALLOC_SIZE < ulSize then pure 0
  else
    match buckets.findIdx? (fun size => decide (ulSize ≤ size)) with
    | none => stop .noBucket
    | some i => do
      let header ← takeBlock i (buckets.getD i 0)
      modify (·.setNext header 0)
      if (header + HEADER) % BLOCK_ALIGN ≠ 0 then stop .misaligned else pure (header + HEADER)

def free (pBlock : Nat) : Prog Pool Fault Unit := do
  let s ← get
  if pBlock = 0 then stop .null
  else if nMagic s.mem (pBlock - HEADER) ≠ BLOCK_MAGIC then stop .magic
  else if pNext s.mem (pBlock - HEADER) ≠ 0 then stop .listed
  else
    match buckets.findIdx? (fun size => decide (nSize s.mem (pBlock - HEADER) = size)) with
    | none => stop .noBucket
    | some i => do
      modify (·.setNext (pBlock - HEADER) (s.freeList i))
      modify (·.setList i (pBlock - HEADER))

/-- `PA2VA (HIGH_MEMORY0 - MALLOC_PAGES * PAGE_SIZE)`. -/
def poolBase : Nat := 0xffff000000000000 + (0x3c100000 - 8 * 1024 * 1024)

def poolLimit : Nat := poolBase + 8 * 1024 * 1024

/-- The pool after `alloc_init`, over memory that holds anything. -/
def allocInit (mem : Buffer) : Pool := ⟨mem, poolBase, poolLimit, fun _ => 0⟩

section Buckets

theorem chunk_bucket {size : Nat} (mem : size ∈ buckets) : chunk size = HEADER + size := by
  simp only [buckets, mem_cons, not_mem_nil, or_false] at mem
  rcases mem with rfl | rfl | rfl | rfl | rfl | rfl | rfl <;> rfl

theorem bucket_aligned {size : Nat} (mem : size ∈ buckets) : size % BLOCK_ALIGN = 0 := by
  simp only [buckets, mem_cons, not_mem_nil, or_false] at mem
  rcases mem with rfl | rfl | rfl | rfl | rfl | rfl | rfl <;> rfl

theorem bucket_small {size : Nat} (mem : size ∈ buckets) : 0 < size ∧ size < 256 ^ 4 := by
  simp only [buckets, mem_cons, not_mem_nil, or_false] at mem
  rcases mem with rfl | rfl | rfl | rfl | rfl | rfl | rfl <;> decide

theorem buckets_nodup : buckets.Nodup := by decide

theorem getD_mem {i : Nat} (lt : i < buckets.length) : buckets.getD i 0 ∈ buckets := by
  rw [getD_eq_getElem _ _ lt]
  exact getElem_mem lt

theorem getD_inj {i j : Nat} (li : i < buckets.length) (lj : j < buckets.length)
    (same : buckets.getD i 0 = buckets.getD j 0) : i = j := by
  rw [getD_eq_getElem _ _ li, getD_eq_getElem _ _ lj] at same
  exact (List.Nodup.getElem_inj_iff buckets_nodup).mp same

theorem findIdx_some {p : Nat → Bool} {i : Nat} (found : buckets.findIdx? p = some i) :
    i < buckets.length ∧ p (buckets.getD i 0) = true := by
  obtain ⟨lt, here, _⟩ := findIdx?_eq_some_iff_getElem.mp found
  rw [getD_eq_getElem _ _ lt]
  exact ⟨lt, here⟩

theorem findIdx_request {n : Nat} (fits : n ≤ MAX_ALLOC_SIZE) :
    ∃ i, buckets.findIdx? (fun size => decide (n ≤ size)) = some i := by
  rw [← Option.isSome_iff_exists, findIdx?_isSome, any_eq_true]
  exact ⟨0x100000, by decide, decide_eq_true fits⟩

theorem findIdx_size {i : Nat} (lt : i < buckets.length) :
    buckets.findIdx? (fun size => decide (buckets.getD i 0 = size)) = some i := by
  obtain ⟨j, found⟩ : ∃ j, buckets.findIdx? (fun size => decide (buckets.getD i 0 = size)) = some j := by
    rw [← Option.isSome_iff_exists, findIdx?_isSome, any_eq_true]
    exact ⟨_, getD_mem lt, decide_eq_true rfl⟩
  obtain ⟨lj, same⟩ := findIdx_some found
  rw [found, getD_inj lt lj (of_decide_eq_true same)]

end Buckets

section Fields

variable {mem mem' : Buffer} {header a : Nat}

theorem header_congr (same : ∀ i, header ≤ i → i < header + HEADER → mem' i = mem i) :
    nMagic mem' header = nMagic mem header ∧ nSize mem' header = nSize mem header ∧
      pNext mem' header = pNext mem header := by
  simp only [HEADER] at same
  exact ⟨peek_congr 4 _ (fun i lo hi => same i lo (by omega)),
    peek_congr 4 _ (fun i lo hi => same i (by omega) (by omega)),
    peek_congr 8 _ (fun i lo hi => same i (by omega) (by omega))⟩

theorem pNext_setNext (s : Pool) {p : Nat} (small : p < 256 ^ 8) :
    pNext (s.setNext header p).mem header = p := peek_poke 8 _ _ _ small

theorem setNext_fields (s : Pool) (header p : Nat) :
    nMagic (s.setNext header p).mem header = nMagic s.mem header ∧
      nSize (s.setNext header p).mem header = nSize s.mem header :=
  ⟨peek_congr 4 _ (fun i _ hi => poke_outside 8 _ _ _ _ (.inl (by omega))),
    peek_congr 4 _ (fun i _ hi => poke_outside 8 _ _ _ _ (.inl (by omega)))⟩

theorem setNext_outside (s : Pool) (p : Nat) {i : Nat} (out : i < header ∨ header + HEADER ≤ i) :
    (s.setNext header p).mem i = s.mem i := by
  simp only [HEADER] at out
  exact poke_outside 8 _ _ _ _ (by omega)

theorem label_fields (s : Pool) {size : Nat} (small : size < 256 ^ 4) :
    nMagic (s.label header size).mem header = BLOCK_MAGIC ∧
      nSize (s.label header size).mem header = size := by
  refine ⟨?_, peek_poke 4 _ _ _ small⟩
  have first : nMagic (s.label header size).mem header =
      nMagic (poke s.mem header 4 BLOCK_MAGIC) header :=
    peek_congr 4 _ (fun i _ hi => poke_outside 4 _ _ _ _ (.inl hi))
  exact first.trans (peek_poke 4 _ _ _ (by decide))

theorem label_outside (s : Pool) (size : Nat) {i : Nat} (out : i < header ∨ header + HEADER ≤ i) :
    (s.label header size).mem i = s.mem i := by
  simp only [HEADER] at out
  exact (poke_outside 4 _ _ _ _ (by omega)).trans (poke_outside 4 _ _ _ _ (by omega))

end Fields

end UvaOs.Alloc
