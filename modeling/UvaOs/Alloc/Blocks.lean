import UvaOs.Alloc.Malloc

/-! The blocks of `malloc` over whole runs. The pool is laid out in blocks one behind the other;
each of them is held by a client or on the free list for its size, and nobody who keeps to what
it asked for can touch a header. -/
namespace UvaOs.Alloc

open Bytes Prog List
open Function (update update_self update_of_ne)

/-- The allocator with what its clients hold, as pointers and the sizes they asked for, and the
blocks that were ever chopped off, as headers and sizes, the latest first. -/
structure Heap where
  pool : Pool
  live : List (Nat × Nat)
  carved : List (Nat × Nat)

def chopped (s t : Pool) (size : Nat) : List (Nat × Nat) :=
  if t.nextBlock = s.nextBlock then [] else [(s.nextBlock, size)]

def rounded (n : Nat) : Nat :=
  match buckets.findIdx? (fun size => decide (n ≤ size)) with
  | some i => buckets.getD i 0
  | none => 0

inductive HeapStep : Heap → Heap → Prop
  | malloc {h : Heap} (n p : Nat) (t : Pool) (unsigned : n < 2 ^ 32) (some : p ≠ 0)
      (run : malloc n h.pool = .ok (p, t)) :
      HeapStep h ⟨t, (p, n) :: h.live, chopped h.pool t (rounded n) ++ h.carved⟩
  | refused {h : Heap} (n : Nat) (t : Pool) (unsigned : n < 2 ^ 32)
      (run : malloc n h.pool = .ok (0, t)) : HeapStep h ⟨t, h.live, h.carved⟩
  | free {h : Heap} (p n : Nat) (t : Pool) (holds : (p, n) ∈ h.live)
      (run : free p h.pool = .ok ((), t)) :
      HeapStep h ⟨t, h.live.filter (fun x => decide (x.1 ≠ p)), h.carved⟩
  /-- A client writes one of its bytes. -/
  | write {h : Heap} (p n a : Nat) (v : UInt8) (holds : (p, n) ∈ h.live) (lo : p ≤ a)
      (hi : a < p + n) :
      HeapStep h ⟨{ h.pool with mem := update h.pool.mem a v }, h.live, h.carved⟩
  /-- Something else in the kernel writes a byte outside of the pool. -/
  | outside {h : Heap} (a : Nat) (v : UInt8) (out : a < poolBase ∨ poolLimit ≤ a) :
      HeapStep h ⟨{ h.pool with mem := update h.pool.mem a v }, h.live, h.carved⟩

/-- The blocks lie one behind the other from the base of the pool on and end at `e`. -/
def Laid : List (Nat × Nat) → Nat → Prop
  | [], e => e = poolBase
  | (a, size) :: rest, e => e = a + HEADER + size ∧ Laid rest a

section Laid

variable {carved : List (Nat × Nat)} {e : Nat}

variable {a b m n : Nat}

section

variable (h : Laid carved e)
include h

theorem Laid.inside : poolBase ≤ e ∧ ∀ x ∈ carved, poolBase ≤ x.1 ∧ x.1 + HEADER + x.2 ≤ e := by
  induction carved generalizing e with
  | nil => exact ⟨Nat.le_of_eq h.symm, fun _ no => absurd no not_mem_nil⟩
  | cons y rest ih =>
    obtain ⟨a, size⟩ := y
    obtain ⟨low, below⟩ := ih h.2
    have last := h.1
    refine ⟨by omega, ?_⟩
    intro x hx
    rcases mem_cons.mp hx with rfl | mem
    · exact ⟨low, Nat.le_of_eq last.symm⟩
    · have inside := below x mem
      exact ⟨inside.1, by omega⟩

theorem Laid.apart : ∀ x ∈ carved, ∀ y ∈ carved,
    x = y ∨ x.1 + HEADER + x.2 ≤ y.1 ∨ y.1 + HEADER + y.2 ≤ x.1 := by
  induction carved generalizing e with
  | nil => exact fun _ no => absurd no not_mem_nil
  | cons z rest ih =>
    obtain ⟨a, size⟩ := z
    have below := h.2.inside.2
    intro x hx y hy
    rcases mem_cons.mp hx with rfl | mx <;> rcases mem_cons.mp hy with rfl | my
    · exact .inl rfl
    · exact .inr (.inr (below y my).2)
    · exact .inr (.inl (below x mx).2)
    · exact ih h.2 x mx y my

theorem Laid.eq_of_header (hm : (a, m) ∈ carved) (hn : (a, n) ∈ carved) : m = n := by
  rcases h.apart _ hm _ hn with same | out | out
  · exact (Prod.mk.inj same).2
  · simp only [HEADER] at out
    omega
  · simp only [HEADER] at out
    omega

theorem Laid.aligned (sizes : ∀ x ∈ carved, x.2 ∈ buckets) :
    e % BLOCK_ALIGN = 0 ∧ ∀ x ∈ carved, x.1 % BLOCK_ALIGN = 0 := by
  induction carved generalizing e with
  | nil =>
    rw [show e = poolBase from h]
    exact ⟨rfl, fun _ no => absurd no not_mem_nil⟩
  | cons y rest ih =>
    obtain ⟨a, size⟩ := y
    obtain ⟨here, rest⟩ := ih h.2 (fun x mem => sizes x (mem_cons_of_mem _ mem))
    have whole := bucket_aligned (sizes _ mem_cons_self)
    have last := h.1
    refine ⟨?_, ?_⟩
    · simp only [BLOCK_ALIGN, HEADER] at *
      omega
    · grind

theorem Laid.setNext_other (s : Pool) (p : Nat)
    (ha : (a, m) ∈ carved) (hb : (b, n) ∈ carved) (ne : a ≠ b) :
    nMagic (s.setNext b p).mem a = nMagic s.mem a ∧ nSize (s.setNext b p).mem a = nSize s.mem a ∧
      pNext (s.setNext b p).mem a = pNext s.mem a := by
  refine header_congr (fun i lo hi => setNext_outside s p ?_)
  simp only [HEADER] at hi ⊢
  rcases h.apart _ ha _ hb with same | out | out
  · exact absurd (Prod.mk.inj same).1 ne
  · simp only [HEADER] at out
    omega
  · simp only [HEADER] at out
    omega

theorem Laid.setNext_labels (s : Pool) (p : Nat)
    (hb : (b, n) ∈ carved) {x : Nat × Nat} (hx : x ∈ carved) :
    nMagic (s.setNext b p).mem x.1 = nMagic s.mem x.1 ∧
      nSize (s.setNext b p).mem x.1 = nSize s.mem x.1 := by
  by_cases e : x.1 = b
  · rw [e]
    exact setNext_fields s b p
  · grind [h.setNext_other]

end

end Laid

structure HeapInv (h : Heap) (free : Nat → List Nat) : Prop where
  limit : h.pool.blockLimit = poolLimit
  laid : Laid h.carved h.pool.nextBlock
  within : h.pool.nextBlock ≤ poolLimit
  block : ∀ x ∈ h.carved, x.2 ∈ buckets ∧ nMagic h.pool.mem x.1 = BLOCK_MAGIC ∧
    nSize h.pool.mem x.1 = x.2
  chain : ∀ i, i < buckets.length → Chain (pNext h.pool.mem) (h.pool.freeList i) (free i)
  listed : ∀ i, i < buckets.length → ∀ a ∈ free i, (a, buckets.getD i 0) ∈ h.carved
  held : ∀ x ∈ h.live, ∃ a size, x.1 = a + HEADER ∧ (a, size) ∈ h.carved ∧ x.2 ≤ size ∧
    pNext h.pool.mem a = 0 ∧ ∀ i, i < buckets.length → a ∉ free i
  owner : ∀ x ∈ h.carved, (∃ n, (x.1 + HEADER, n) ∈ h.live) ∨
    ∃ i, i < buckets.length ∧ x.1 ∈ free i
  once : (h.live.map (·.1)).Nodup

section Memory

variable {h : Heap} {free : Nat → List Nat}

variable {mem : Buffer} {a n p : Nat}

theorem HeapInv.frame (inv : HeapInv h free)
    (same : ∀ x ∈ h.carved, ∀ i, x.1 ≤ i → i < x.1 + HEADER → mem i = h.pool.mem i) :
    HeapInv ⟨{ h.pool with mem := mem }, h.live, h.carved⟩ free where
  limit := inv.limit
  laid := inv.laid
  within := inv.within
  block x hx := by
    obtain ⟨size, magic, named⟩ := inv.block x hx
    obtain ⟨m, n, _⟩ := header_congr (same x hx)
    exact ⟨size, m.trans magic, n.trans named⟩
  chain i lt := by
    refine (inv.chain i lt).congr ?_
    intro a ha
    exact (header_congr (same _ (inv.listed i lt a ha))).2.2
  listed := inv.listed
  held x hx := by
    obtain ⟨a, size, ptr, mem', fits, zero, off⟩ := inv.held x hx
    exact ⟨a, size, ptr, mem', fits, (header_congr (same _ mem')).2.2.trans zero, off⟩
  owner := inv.owner
  once := inv.once

theorem HeapInv.inside (inv : HeapInv h free) (holds : (p, n) ∈ h.live)
    (same : ∀ i, i < p ∨ p + n ≤ i → mem i = h.pool.mem i) :
    HeapInv ⟨{ h.pool with mem := mem }, h.live, h.carved⟩ free := by
  refine inv.frame ?_
  intro x hx i low high
  refine same i ?_
  obtain ⟨b, size, ptr, mem, fits, _⟩ := inv.held _ holds
  dsimp only at ptr fits
  simp only [HEADER] at *
  rcases inv.laid.apart _ hx _ mem with rfl | out | out
  · dsimp only at high
    omega
  · simp only [HEADER] at out
    omega
  · simp only [HEADER] at out
    omega

theorem HeapInv.write (inv : HeapInv h free) (v : UInt8) (holds : (p, n) ∈ h.live)
    (lo : p ≤ a) (hi : a < p + n) :
    HeapInv ⟨{ h.pool with mem := update h.pool.mem a v }, h.live, h.carved⟩ free := by
  refine inv.inside holds fun i out => update_of_ne ?_ ..
  rintro rfl
  omega

theorem HeapInv.outside (inv : HeapInv h free) (v : UInt8) (out : a < poolBase ∨ poolLimit ≤ a) :
    HeapInv ⟨{ h.pool with mem := update h.pool.mem a v }, h.live, h.carved⟩ free := by
  refine inv.frame ?_
  intro x hx i low high
  have inside := inv.laid.inside.2 x hx
  have within := inv.within
  refine update_of_ne ?_ ..
  rintro rfl
  omega

end Memory

section Calls

variable {h : Heap} {free : Nat → List Nat} {i a n : Nat} {rest : List Nat}

variable {size : Nat} {s : Pool}

theorem HeapInv.list_unique (inv : HeapInv h free) {j : Nat} (li : i < buckets.length)
    (lj : j < buckets.length) (hi : a ∈ free i) (hj : a ∈ free j) : i = j :=
  getD_inj li lj (inv.laid.eq_of_header (inv.listed i li a hi) (inv.listed j lj a hj))

theorem HeapInv.nextBlock_pos (inv : HeapInv h free) : h.pool.nextBlock ≠ 0 := by
  have low := inv.laid.inside.1
  have base : poolBase = 0xffff00003b900000 := by decide
  omega

theorem HeapInv.freeList_small (inv : HeapInv h free) (lt : i < buckets.length) :
    h.pool.freeList i < 256 ^ 8 := by
  have chain := inv.chain i lt
  cases list : free i with
  | nil =>
    rw [list] at chain
    rw [show h.pool.freeList i = 0 from chain]
    decide
  | cons b rest =>
    have first : h.pool.freeList i = b := by
      rw [list] at chain
      exact chain.1
    have inside := inv.laid.inside.2 _ (inv.listed i lt b (by rw [list]; exact mem_cons_self))
    have within := inv.within
    have top : poolLimit = 0xffff00003c100000 := by decide
    dsimp only at inside
    rw [first]
    omega

def Pool.reuse (s : Pool) (i : Nat) : Pool :=
  (s.setList i (pNext s.mem (s.freeList i))).setNext (s.freeList i) 0

def Pool.advance (s : Pool) (size : Nat) : Pool :=
  ({ s with nextBlock := s.nextBlock + chunk size }.label s.nextBlock size).setNext s.nextBlock 0

theorem advance_fields (s : Pool) (small : size < 256 ^ 4) :
    nMagic (s.advance size).mem s.nextBlock = BLOCK_MAGIC ∧
      nSize (s.advance size).mem s.nextBlock = size := by
  obtain ⟨m, k⟩ := setNext_fields
    ({ s with nextBlock := s.nextBlock + chunk size }.label s.nextBlock size) s.nextBlock 0
  exact (label_fields _ small).imp m.trans k.trans

theorem takeBlock_list (some : s.freeList i ≠ 0)
    (magic : nMagic s.mem (s.freeList i) = BLOCK_MAGIC) : takeBlock i size s =
      .ok (s.freeList i, s.setList i (pNext s.mem (s.freeList i))) := by
  unfold takeBlock
  rw [run_get, if_pos some, if_neg (fun k => k magic)]
  rfl

theorem takeBlock_chop (none : s.freeList i = 0)
    (room : s.nextBlock + chunk size ≤ s.blockLimit) : takeBlock i size s =
      .ok (s.nextBlock, { s with nextBlock := s.nextBlock + chunk size }.label s.nextBlock size) := by
  unfold takeBlock chop
  rw [run_get, if_neg (fun k => k none), run_get,
    run_modify,
    if_neg (Nat.not_lt.mpr room)]
  rfl

theorem takeBlock_exhausted (none : s.freeList i = 0)
    (full : s.blockLimit < s.nextBlock + chunk size) : takeBlock i size s = .error .exhausted := by
  unfold takeBlock chop
  rw [run_get, if_neg (fun k => k none), run_get,
    run_modify, if_pos full]
  rfl

theorem malloc_large (pos : s.nextBlock ≠ 0) (large : MAX_ALLOC_SIZE < n) :
    malloc n s = .ok (0, s) := by
  unfold malloc
  rw [run_get, if_neg pos, if_pos large]
  rfl

theorem malloc_block {t : Pool} {header : Nat} (pos : s.nextBlock ≠ 0) (fits : n ≤ MAX_ALLOC_SIZE)
    (found : buckets.findIdx? (fun size => decide (n ≤ size)) = some i)
    (taken : takeBlock i (buckets.getD i 0) s = .ok (header, t))
    (aligned : header % BLOCK_ALIGN = 0) :
    malloc n s = .ok (header + HEADER, t.setNext header 0) := by
  have whole : (header + HEADER) % BLOCK_ALIGN = 0 := by
    simp only [BLOCK_ALIGN, HEADER] at *
    omega
  unfold malloc
  rw [run_get, if_neg pos, if_neg (Nat.not_lt.mpr fits), found]
  dsimp only
  rw [run_bind taken, run_modify, if_neg (fun k => k whole)]
  rfl

theorem malloc_exhausted (pos : s.nextBlock ≠ 0) (fits : n ≤ MAX_ALLOC_SIZE)
    (found : buckets.findIdx? (fun size => decide (n ≤ size)) = some i)
    (full : takeBlock i (buckets.getD i 0) s = .error .exhausted) :
    malloc n s = .error .exhausted := by
  unfold malloc
  rw [run_get, if_neg pos, if_neg (Nat.not_lt.mpr fits), found]
  exact run_bind_error full _

inductive Served (h : Heap) (n i : Nat) : Prop
  | list (some : h.pool.freeList i ≠ 0)
      (run : malloc n h.pool = .ok (h.pool.freeList i + HEADER, h.pool.reuse i))
  | pool (none : h.pool.freeList i = 0)
      (room : h.pool.nextBlock + HEADER + buckets.getD i 0 ≤ poolLimit)
      (run : malloc n h.pool =
        .ok (h.pool.nextBlock + HEADER, h.pool.advance (buckets.getD i 0)))
  | exhausted (none : h.pool.freeList i = 0)
      (full : poolLimit < h.pool.nextBlock + HEADER + buckets.getD i 0)
      (run : malloc n h.pool = .error .exhausted)

section

variable (inv : HeapInv h free)
include inv

theorem HeapInv.served (fits : n ≤ MAX_ALLOC_SIZE)
    (found : buckets.findIdx? (fun size => decide (n ≤ size)) = some i) : Served h n i := by
  have lt := (findIdx_some found).1
  have size := getD_mem lt
  have step := chunk_bucket size
  have pos := inv.nextBlock_pos
  obtain ⟨top, each⟩ := inv.laid.aligned (fun x hx => (inv.block x hx).1)
  by_cases none : h.pool.freeList i = 0
  · by_cases room : h.pool.nextBlock + HEADER + buckets.getD i 0 ≤ poolLimit
    · refine .pool none room (malloc_block pos fits found (takeBlock_chop none ?_) top)
      rw [step, inv.limit]
      omega
    · refine .exhausted none (Nat.lt_of_not_le room)
        (malloc_exhausted pos fits found (takeBlock_exhausted none ?_))
      rw [step, inv.limit]
      omega
  · obtain ⟨rest, list, _⟩ := (inv.chain i lt).pop none
    have here := inv.listed i lt (h.pool.freeList i) (by rw [list]; exact mem_cons_self)
    exact .list none (malloc_block pos fits found (takeBlock_list none (inv.block _ here).2.1)
      (each _ here))

theorem HeapInv.reuse (lt : i < buckets.length)
    (some : h.pool.freeList i ≠ 0) (fits : n ≤ buckets.getD i 0) :
    ∃ free', HeapInv ⟨h.pool.reuse i, (h.pool.freeList i + HEADER, n) :: h.live, h.carved⟩ free' := by
  obtain ⟨rest, list, tail⟩ := (inv.chain i lt).pop some
  have nodup := (inv.chain i lt).nodup
  rw [list] at nodup
  have here := inv.listed i lt (h.pool.freeList i) (by rw [list]; exact mem_cons_self)
  have less : ∀ j a, a ∈ update free i rest j → a ∈ free j := by grind
  have gone : ∀ j, j < buckets.length → h.pool.freeList i ∉ update free i rest j := by
    grind [inv.list_unique]
  refine ⟨update free i rest, inv.limit, inv.laid, inv.within, ?_, ?_, ?_, ?_, ?_, ?_⟩
  · intro x hx
    obtain ⟨size, magic, named⟩ := inv.block x hx
    obtain ⟨m, k⟩ := inv.laid.setNext_labels (h.pool.setList i _) 0 here hx
    exact ⟨size, m.trans magic, k.trans named⟩
  · intro j lj
    have links : ∀ a ∈ update free i rest j,
        pNext (h.pool.reuse i).mem a = pNext h.pool.mem a := by
      intro a mem
      refine (inv.laid.setNext_other (h.pool.setList i _) 0
        (inv.listed j lj a (less j a mem)) here ?_).2.2
      rintro rfl
      exact gone j lj mem
    refine Chain.congr ?_ links
    by_cases e : j = i
    · subst e
      rw [update_self]
      simpa only [Pool.reuse, Pool.setNext, Pool.setList, update_self] using tail
    · rw [update_of_ne e]
      simpa only [Pool.reuse, Pool.setNext, Pool.setList, update_of_ne e] using inv.chain j lj
  · exact fun j lj a mem => inv.listed j lj a (less j a mem)
  · intro x hx
    rcases mem_cons.mp hx with rfl | old
    · exact ⟨_, _, rfl, here, fits, pNext_setNext _ (by decide), gone⟩
    · obtain ⟨a, size, ptr, mem, enough, zero, off⟩ := inv.held x old
      refine ⟨a, size, ptr, mem, enough, ?_, fun j lj on => off j lj (less j a on)⟩
      refine ((inv.laid.setNext_other (h.pool.setList i _) 0 mem here ?_).2.2).trans zero
      rintro rfl
      exact off i lt (by rw [list]; exact mem_cons_self)
  · intro x hx
    by_cases e : x.1 = h.pool.freeList i
    · exact .inl ⟨n, by rw [e]; exact mem_cons_self⟩
    · grind [inv.owner]
  · rw [map_cons, nodup_cons]
    refine ⟨?_, inv.once⟩
    intro again
    obtain ⟨x, mem, ptr⟩ := mem_map.mp again
    obtain ⟨a, size, at_, _, _, _, off⟩ := inv.held x mem
    have same : a = h.pool.freeList i := Nat.add_right_cancel (at_.symm.trans ptr)
    exact off i lt (by rw [list, same]; exact mem_cons_self)

theorem HeapInv.advance (lt : i < buckets.length)
    (room : h.pool.nextBlock + HEADER + buckets.getD i 0 ≤ poolLimit) (fits : n ≤ buckets.getD i 0) :
    HeapInv ⟨h.pool.advance (buckets.getD i 0), (h.pool.nextBlock + HEADER, n) :: h.live,
      (h.pool.nextBlock, buckets.getD i 0) :: h.carved⟩ free := by
  have size := getD_mem lt
  have step := chunk_bucket size
  have below := inv.laid.inside.2
  have same : ∀ x ∈ h.carved,
      nMagic (h.pool.advance (buckets.getD i 0)).mem x.1 = nMagic h.pool.mem x.1 ∧
      nSize (h.pool.advance (buckets.getD i 0)).mem x.1 = nSize h.pool.mem x.1 ∧
      pNext (h.pool.advance (buckets.getD i 0)).mem x.1 = pNext h.pool.mem x.1 := by
    intro x hx
    have under := (below x hx).2
    refine header_congr (fun j _ hi => ?_)
    exact (setNext_outside _ _ (.inl (by omega))).trans (label_outside _ _ (.inl (by omega)))
  have fresh : ∀ x ∈ h.carved, x.1 ≠ h.pool.nextBlock := by grind [HEADER]
  have laid : Laid ((h.pool.nextBlock, buckets.getD i 0) :: h.carved)
      (h.pool.advance (buckets.getD i 0)).nextBlock := by
    refine ⟨?_, inv.laid⟩
    change h.pool.nextBlock + chunk (buckets.getD i 0) = _
    rw [step]
    omega
  have off : ∀ j, j < buckets.length → h.pool.nextBlock ∉ free j :=
    fun j lj mem => fresh _ (inv.listed j lj _ mem) rfl
  refine ⟨inv.limit, laid, ?_, ?_, ?_, ?_, ?_, ?_, ?_⟩
  · rw [laid.1]
    exact room
  · intro x hx
    rcases mem_cons.mp hx with rfl | old
    · exact ⟨size, advance_fields h.pool (bucket_small size).2⟩
    · grind [inv.block]
  · intro j lj
    exact (inv.chain j lj).congr (fun a mem => (same _ (inv.listed j lj a mem)).2.2)
  · exact fun j lj a mem => mem_cons_of_mem _ (inv.listed j lj a mem)
  · intro x hx
    rcases mem_cons.mp hx with rfl | old
    · exact ⟨_, _, rfl, mem_cons_self, fits, pNext_setNext _ (by decide), off⟩
    · grind [inv.held]
  · intro x hx
    rcases mem_cons.mp hx with rfl | old
    · exact .inl ⟨n, mem_cons_self⟩
    · exact (inv.owner x old).imp (fun ⟨m, mem⟩ => ⟨m, mem_cons_of_mem _ mem⟩) id
  · grind [inv.once, inv.held]

def Pool.giveBack (s : Pool) (header i : Nat) : Pool :=
  (s.setNext header (s.freeList i)).setList i header

theorem HeapInv.free_runs {p : Nat} (holds : (p, n) ∈ h.live) :
    ∃ a i, p = a + HEADER ∧ i < buckets.length ∧ (a, buckets.getD i 0) ∈ h.carved ∧
      Alloc.free p h.pool = .ok ((), h.pool.giveBack a i) := by
  obtain ⟨a, size, ptr, mem, _, zero, _⟩ := inv.held _ holds
  obtain ⟨known, magic, named⟩ := inv.block _ mem
  obtain ⟨i, lt, rfl⟩ := getElem_of_mem known
  dsimp only at ptr named magic
  have index : buckets.getD i 0 = buckets[i] := getD_eq_getElem _ _ lt
  refine ⟨a, i, ptr, lt, by rw [index]; exact mem, ?_⟩
  have back : p - HEADER = a := by
    rw [ptr]
    exact Nat.add_sub_cancel ..
  unfold Alloc.free
  rw [run_get, if_neg (by simp only [HEADER] at ptr; omega), back,
    if_neg (fun k => k magic), if_neg (fun k => k zero), named, ← index, findIdx_size lt]
  rfl

theorem HeapInv.giveBack (lt : i < buckets.length)
    (here : (a, buckets.getD i 0) ∈ h.carved) (holds : (a + HEADER, n) ∈ h.live) :
    HeapInv ⟨h.pool.giveBack a i, h.live.filter (fun x => decide (x.1 ≠ a + HEADER)), h.carved⟩
      (update free i (a :: free i)) := by
  obtain ⟨b, _, ptr, _, _, _, off⟩ := inv.held _ holds
  obtain rfl : a = b := Nat.add_right_cancel ptr
  have pos : a ≠ 0 := by grind [inv.laid.inside, poolBase]
  have others : ∀ x ∈ h.carved, x.1 ≠ a →
      pNext (h.pool.giveBack a i).mem x.1 = pNext h.pool.mem x.1 :=
    fun x hx ne => (inv.laid.setNext_other h.pool _ hx here ne).2.2
  refine ⟨inv.limit, inv.laid, inv.within, ?_, ?_, ?_, ?_, ?_, ?_⟩
  · intro x hx
    obtain ⟨size, magic, named⟩ := inv.block x hx
    obtain ⟨m, k⟩ := inv.laid.setNext_labels h.pool (h.pool.freeList i) here hx
    exact ⟨size, m.trans magic, k.trans named⟩
  · intro j lj
    have links : ∀ x ∈ free j, pNext (h.pool.giveBack a i).mem x = pNext h.pool.mem x := by
      intro x mem
      have ne : x ≠ a := by
        rintro rfl
        exact off j lj mem
      exact others (x, buckets.getD j 0) (inv.listed j lj x mem) ne
    by_cases e : j = i
    · subst e
      have link : pNext (h.pool.giveBack a j).mem a = h.pool.freeList j :=
        pNext_setNext h.pool (inv.freeList_small lj)
      have chain := (inv.chain j lj).push pos link links
      simpa only [Pool.giveBack, Pool.setList, update_self] using chain
    · have chain := (inv.chain j lj).congr links
      simpa only [Pool.giveBack, Pool.setList, Pool.setNext, update_of_ne e] using chain
  · grind [inv.listed]
  · grind [inv.held]
  · intro x hx
    by_cases e : x.1 = a
    · exact .inr ⟨i, lt, by rw [update_self, e]; exact mem_cons_self⟩
    · rcases inv.owner x hx with ⟨m, mem⟩ | ⟨j, lj, mem⟩
      · grind
      · refine .inr ⟨j, lj, ?_⟩
        by_cases same : j = i
        · grind
        · rwa [update_of_ne same]
  · exact inv.once.sublist (filter_sublist.map _)

theorem HeapInv.step {h' : Heap} (step : HeapStep h h') : ∃ free', HeapInv h' free' := by
  cases step with
  | malloc n p t unsigned some run =>
    by_cases large : MAX_ALLOC_SIZE < n
    · grind [inv.nextBlock_pos, malloc_large]
    · obtain ⟨i, found⟩ := findIdx_request (Nat.le_of_not_lt large)
      obtain ⟨lt, fits⟩ := findIdx_some found
      have size : rounded n = buckets.getD i 0 := by
        unfold rounded
        rw [found]
      cases inv.served (Nat.le_of_not_lt large) found with
      | list list ok =>
        rw [ok] at run
        cases run
        have same : chopped h.pool (h.pool.reuse i) (rounded n) = [] := if_pos rfl
        rw [same]
        exact inv.reuse lt list (of_decide_eq_true fits)
      | pool none room ok =>
        rw [ok] at run
        cases run
        have moved : chopped h.pool (h.pool.advance (buckets.getD i 0)) (rounded n) =
            [(h.pool.nextBlock, buckets.getD i 0)] := by
          rw [size]
          refine if_neg ?_
          change h.pool.nextBlock + chunk (buckets.getD i 0) ≠ _
          rw [chunk_bucket (getD_mem lt)]
          simp only [HEADER]
          omega
        rw [moved]
        exact ⟨free, inv.advance lt room (of_decide_eq_true fits)⟩
      | exhausted _ _ ok =>
        rw [ok] at run
        cases run
  | refused n t unsigned run =>
    by_cases large : MAX_ALLOC_SIZE < n
    · rw [malloc_large inv.nextBlock_pos large] at run
      cases run
      exact ⟨free, inv⟩
    · obtain ⟨i, found⟩ := findIdx_request (Nat.le_of_not_lt large)
      cases inv.served (Nat.le_of_not_lt large) found with
      | list list ok =>
        rw [ok] at run
        cases run
      | pool none room ok =>
        rw [ok] at run
        cases run
      | exhausted _ _ ok =>
        rw [ok] at run
        cases run
  | free p n t holds run =>
    obtain ⟨a, i, rfl, lt, here, ok⟩ := inv.free_runs holds
    rw [ok] at run
    cases run
    exact ⟨_, inv.giveBack lt here holds⟩
  | write p n a v holds lo hi => exact ⟨free, inv.write v holds lo hi⟩
  | outside a v out => exact ⟨free, inv.outside v out⟩

end

end Calls

/-- Boot: the pool over memory that holds anything, and no block yet. -/
def Boot (h : Heap) : Prop := ∃ mem, h = ⟨allocInit mem, [], []⟩

theorem Boot.inv {h : Heap} (boot : Boot h) : HeapInv h (fun _ => []) := by
  obtain ⟨mem, rfl⟩ := boot
  have within : poolBase ≤ poolLimit := by decide
  exact ⟨rfl, rfl, within, nofun, fun _ _ => rfl, nofun, nofun, nofun, .nil⟩

/-- What clients of `malloc` and `free` may rely on. -/
structure WellKept (h : Heap) : Prop where
  /-- The lists end; each block is held, or on the list for its size and on no other. -/
  lists : ∃ free : Nat → List Nat,
    (∀ i, i < buckets.length → Chain (pNext h.pool.mem) (h.pool.freeList i) (free i) ∧
      (free i).Nodup ∧ ∀ a ∈ free i, (a, buckets.getD i 0) ∈ h.carved) ∧
    ∀ x ∈ h.carved,
      ((∃ n, (x.1 + HEADER, n) ∈ h.live) ∧ ∀ i, i < buckets.length → x.1 ∉ free i) ∨
      ((∀ n, (x.1 + HEADER, n) ∉ h.live) ∧ ∃ i, i < buckets.length ∧ x.1 ∈ free i ∧
        buckets.getD i 0 = x.2 ∧ ∀ j, j < buckets.length → x.1 ∈ free j → j = i)
  laid : Laid h.carved h.pool.nextBlock
  inside : ∀ x ∈ h.carved, x.2 ∈ buckets ∧ poolBase ≤ x.1 ∧ x.1 + HEADER + x.2 ≤ poolLimit
  apart : ∀ x ∈ h.carved, ∀ y ∈ h.carved,
    x = y ∨ x.1 + HEADER + x.2 ≤ y.1 ∨ y.1 + HEADER + y.2 ≤ x.1
  returned : ∀ x ∈ h.live, x.1 % BLOCK_ALIGN = 0 ∧
    ∃ a size, x.1 = a + HEADER ∧ (a, size) ∈ h.carved ∧ x.2 ≤ size
  once : (h.live.map (·.1)).Nodup
  /-- The calls return, unless a request finds its list empty and the pool at its end. -/
  frees : ∀ x ∈ h.live, ∃ t, free x.1 h.pool = .ok ((), t)
  large : ∀ n, MAX_ALLOC_SIZE < n → malloc n h.pool = .ok (0, h.pool)
  requests : ∀ n, n ≤ MAX_ALLOC_SIZE → ∃ i, rounded n = buckets.getD i 0 ∧ Served h n i
  /-- A block that came back serves a request of its size before the pool is advanced. -/
  reuses : ∀ x ∈ h.carved, (∀ m, (x.1 + HEADER, m) ∉ h.live) → ∀ n, n ≤ MAX_ALLOC_SIZE →
    rounded n = x.2 → ∃ p t, malloc n h.pool = .ok (p, t) ∧ p ≠ 0 ∧ t.nextBlock = h.pool.nextBlock

theorem HeapInv.request {h : Heap} {free : Nat → List Nat} (inv : HeapInv h free) {n : Nat}
    (fits : n ≤ MAX_ALLOC_SIZE) :
    ∃ i, i < buckets.length ∧ rounded n = buckets.getD i 0 ∧ Served h n i := by
  obtain ⟨i, found⟩ := findIdx_request fits
  refine ⟨i, (findIdx_some found).1, ?_, inv.served fits found⟩
  unfold rounded
  rw [found]

theorem HeapInv.wellKept {h : Heap} {free : Nat → List Nat} (inv : HeapInv h free) : WellKept h where
  lists := by
    refine ⟨free, fun i lt => ⟨inv.chain i lt, (inv.chain i lt).nodup, inv.listed i lt⟩, ?_⟩
    intro x hx
    rcases inv.owner x hx with ⟨n, mem⟩ | ⟨i, lt, mem⟩
    · grind [inv.held]
    · refine .inr ⟨?_, i, lt, mem, ?_, fun j lj other => inv.list_unique lj lt other mem⟩
      · grind [inv.held]
      · exact inv.laid.eq_of_header (inv.listed i lt x.1 mem) hx
  laid := inv.laid
  inside x hx := by
    have inside := inv.laid.inside.2 x hx
    exact ⟨(inv.block x hx).1, inside.1, Nat.le_trans inside.2 inv.within⟩
  apart := inv.laid.apart
  returned x hx := by
    obtain ⟨a, size, ptr, mem, fits, _⟩ := inv.held x hx
    have aligned := (inv.laid.aligned (fun y hy => (inv.block y hy).1)).2 _ mem
    refine ⟨?_, a, size, ptr, mem, fits⟩
    rw [ptr]
    simp only [BLOCK_ALIGN, HEADER] at *
    omega
  once := inv.once
  frees x hx := by
    obtain ⟨a, i, _, _, _, run⟩ := inv.free_runs (n := x.2) hx
    exact ⟨_, run⟩
  large n large := malloc_large inv.nextBlock_pos large
  requests n fits := by
    obtain ⟨i, _, size, served⟩ := inv.request fits
    exact ⟨i, size, served⟩
  reuses x hx idle n fits class_ := by
    obtain ⟨i, lt, size, served⟩ := inv.request fits
    have nonempty : h.pool.freeList i ≠ 0 := by
      rcases inv.owner x hx with ⟨m, mem⟩ | ⟨j, lj, mem⟩
      · exact absurd mem (idle m)
      · have same : buckets.getD j 0 = x.2 := inv.laid.eq_of_header (inv.listed j lj x.1 mem) hx
        obtain rfl : i = j := getD_inj lt lj (size.symm.trans (class_.trans same.symm))
        intro zero
        have chain := inv.chain i lt
        rw [zero] at chain
        cases list : free i with
        | nil =>
          rw [list] at mem
          cases mem
        | cons b rest =>
          rw [list] at chain
          exact chain.2.1 chain.1.symm
    cases served with
    | list _ run => exact ⟨_, _, run, by simp only [HEADER]; omega, rfl⟩
    | pool none => exact absurd none nonempty
    | exhausted none => exact absurd none nonempty

/-- Whatever is requested and given back, the blocks of `malloc` stay apart. -/
theorem malloc_well_kept {h : Heap} (run : Reach Boot HeapStep h) : WellKept h := by
  have inv : ∃ free, HeapInv h free := by
    refine run.invariant (fun h => ∃ free, HeapInv h free) (fun _ boot => ⟨_, boot.inv⟩) ?_
    rintro s t ⟨free, inv⟩ step
    exact inv.step step
  obtain ⟨free, inv⟩ := inv
  exact inv.wellKept

theorem malloc_well_kept_hundred : ∃ h, Reach Boot HeapStep h ∧ h.live = [] ∧ h.carved.length = 1 ∧
    WellKept h := by
  have boot : Boot ⟨allocInit zeros, [], []⟩ := ⟨zeros, rfl⟩
  have found : buckets.findIdx? (fun size => decide (100 ≤ size)) = some 1 := by decide
  cases boot.inv.served (by decide) found with
  | list some => exact absurd rfl some
  | exhausted _ full => exact absurd full (by decide)
  | pool _ room run =>
    have start : Reach Boot HeapStep ⟨allocInit zeros, [], []⟩ := .start boot
    have first := start.next (.malloc 100 _ _ (by decide) (by decide) run)
    obtain ⟨a, i, _, _, _, back⟩ := (boot.inv.advance (i := 1) (n := 100) (by decide) room
      (by decide)).free_runs (n := 100) mem_cons_self
    have second := first.next (.free _ 100 _ mem_cons_self back)
    exact ⟨_, second, by simp, rfl, malloc_well_kept second⟩

end UvaOs.Alloc
