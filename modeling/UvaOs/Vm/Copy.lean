import UvaOs.Vm.Space

/-! Copies between the kernel and user memory. The three routines walk the pages of
a user range in order; which pages they touch is decided by `walkaddr`, and the
rights of EL0 are in the access permission bits that it leaves out. -/
namespace UvaOs.Vm

open Prog VmState List

/-! Bytes of a frame -/

def getByte (w : BitVec 64) (k : Nat) : UInt8 := UInt8.ofBitVec (w.extractLsb' (8 * k) 8)

def setByte (w : BitVec 64) (k : Nat) (b : UInt8) : BitVec 64 :=
  (w &&& ~~~(0xff#64 <<< (8 * k))) ||| (b.toBitVec.setWidth 64 <<< (8 * k))

def peek (s : VmState) (frame off n : Nat) : List UInt8 :=
  (List.range n).map (fun i => getByte (s.mem frame ((off + i) / 8)) ((off + i) % 8))

def poke (s : VmState) (frame off : Nat) : List UInt8 → VmState
  | [] => s
  | b :: rest =>
    poke (s.putWord frame (off / 8) (setByte (s.mem frame (off / 8)) (off % 8) b)) frame (off + 1) rest

/-! The routines of vm.c -/

section CopyLoop

variable {β : Type}

/-- The loop over the pages of `[va, va + len)`. The body gets the frame, the offset
in it and the number of bytes on the page; the loop ends early when `go` fails. It
returns no value if a page is missing; next to that, the pages whose memory was
accessed, which the source does not record. -/
def copyLoop (m : Nat) (body : Nat → Nat → Nat → β → VmM β) (go : β → Bool) :
    Nat → Nat → Nat → β → List Nat → VmM (Option β × List Nat)
  | 0, _, _, acc, touched => pure (some acc, touched)
  | fuel + 1, va, len, acc, touched =>
    if go acc = true ∧ 0 < len then do
      let va0 := PGROUNDDOWN va
      let pa0 ← walkaddr m va0
      if pa0 = 0 then pure (none, touched)
      else do
        let n := min (PAGE_SIZE - (va - va0)) len
        let acc ← body (pa0 / PAGE_SIZE) (va - va0) n acc
        copyLoop m body go fuel (va0 + PAGE_SIZE) (len - n) acc (touched ++ [va0])
    else pure (some acc, touched)

end CopyLoop

/-- Copy from kernel to user. -/
def copyout (m dstva : Nat) (src : List UInt8) : VmM (Int × List Nat) :=
  if dstva > USER_VA_END then pure (-1, [])
  else do
    let r ← copyLoop m (fun frame off n (src : List UInt8) => do
      modify (fun s => poke s frame off (src.take n))
      pure (src.drop n)) (fun _ => true) src.length dstva src.length src []
    pure (if r.1.isSome then 0 else -1, r.2)

/-- Copy from user to kernel; the bytes that were read come with the result. -/
def copyin (m srcva len : Nat) : VmM (Int × List UInt8 × List Nat) :=
  if srcva > USER_VA_END then pure (-1, [], [])
  else do
    let r ← copyLoop m (fun frame off n (dst : List UInt8) => do
      let s ← get
      pure (dst ++ peek s frame off n)) (fun _ => true) len srcva len [] []
    pure (if r.1.isSome then 0 else -1, r.1.getD [], r.2)

/- The inner loop of `copyinstr`: the bytes up to the first zero, and whether there
was one. -/
def takeString : List UInt8 → List UInt8 × Bool
  | [] => ([], false)
  | b :: rest => if b = 0 then ([], true) else (b :: (takeString rest).1, (takeString rest).2)

/-- Copy a null-terminated string from user to kernel. -/
def copyinstr (m srcva max : Nat) : VmM (Int × List UInt8 × List Nat) :=
  if srcva > USER_VA_END then pure (-1, [], [])
  else do
    let r ← copyLoop m (fun frame off n (dst : List UInt8 × Bool) => do
      let s ← get
      let found := takeString (peek s frame off n)
      pure (dst.1 ++ found.1, found.2)) (fun dst => !dst.2) max srcva max ([], false) []
    match r.1 with
    | some (dst, true) => pure (0, dst, r.2)
    | some (dst, false) => pure (-1, dst, r.2)
    | none => pure (-1, [], r.2)

/-! What `walkaddr` accepts -/

/-- The test of `walkaddr`. -/
def Accepts (s : VmState) (m va : Nat) : Prop :=
  pte s m va &&& 0xfff#64 &&& ~~~MM_AP_MASK = MMU_PTE_FLAGS ∧ PTE_TO_PA (pte s m va) ≠ 0

instance (s : VmState) (m va : Nat) : Decidable (Accepts s m va) :=
  inferInstanceAs (Decidable (_ ∧ _))

theorem walkaddr_spec (s : VmState) (m va : Nat) (real : PTE_TO_PA (pte s m va) < PHYS_SIZE) :
    walkaddr m va s = .ok (if Accepts s m va then PTE_TO_PA (pte s m va) else 0, s) := by
  rw [walkaddr_eq]
  unfold lookup
  rw [if_neg (Nat.not_le.mpr real)]
  by_cases flags : pte s m va &&& 0xfff#64 &&& ~~~MM_AP_MASK = MMU_PTE_FLAGS
  · rw [if_neg (not_not.mpr flags)]
    by_cases null : PTE_TO_PA (pte s m va) = 0
    · rw [if_neg (fun both => both.2 null), null]
      rfl
    · rw [if_pos ⟨flags, null⟩]
      rfl
  · rw [if_pos flags, if_neg (fun both => flags both.1)]
    rfl

/-! Which pages a copy touches -/

/-- What the kernel keeps true of the tables of an address space: every user page is
real memory, and none is itself one of the tables. -/
structure Apart (s : VmState) (m : Nat) : Prop where
  real : ∀ va, PTE_TO_PA (pte s m va) < PHYS_SIZE
  apart : ∀ va va', Accepts s m va →
    PTE_TO_PA (pte s m va) / PAGE_SIZE ∉ walkFrames s va' levels (s.mm m).pgd

theorem Tables.apart {s : VmState} {m : Nat} (h : Tables s m) : Apart s m where
  real va := by
    have room := h.real
    rw [h.pte_frame]
    by_cases none : node s m (pagePath va) = 0
    · rw [none]
      decide
    · have pool := (h.node_held (Nat.le_of_eq (length_pagePath va)) none).1.2
      simp only [PAGE_SIZE, PHYS_SIZE] at *
      omega
  apart va va' accepted onWalk := by
    have frame := h.pte_frame va
    have there : node s m (pagePath va) ≠ 0 := by
      intro none
      rw [none, Nat.zero_mul] at frame
      exact accepted.2 frame
    have number : PTE_TO_PA (pte s m va) / PAGE_SIZE = node s m (pagePath va) := by
      rw [frame, Nat.mul_div_cancel _ (by decide)]
    have top : node s m [] ≠ 0 := by
      intro absent
      exact there (node_append_zero absent (pagePath va))
    rw [number, ← h.pgd] at onWalk
    obtain ⟨ks, short, same⟩ := walkFrames_sub va' levels [] (Nat.le_refl 3) top _ onWalk
    have path := h.same_node (Nat.le_of_eq (length_pagePath va)) (by omega) there same.symm
    rw [path, length_pagePath] at short
    omega

def SameTables (s t : VmState) (m : Nat) : Prop :=
  t.mm = s.mm ∧ ∀ va, ∀ frame ∈ walkFrames s va levels (s.mm m).pgd, t.mem frame = s.mem frame

theorem poke_frame (s : VmState) (frame off : Nat) (src : List UInt8) :
    (poke s frame off src).mm = s.mm ∧
      ∀ other, other ≠ frame → (poke s frame off src).mem other = s.mem other := by
  induction src generalizing s off with
  | nil => exact ⟨rfl, fun _ _ => rfl⟩
  | cons b rest ih =>
    obtain ⟨mm, mem⟩ := ih (s.putWord frame (off / 8) (setByte (s.mem frame (off / 8)) (off % 8) b))
      (off + 1)
    refine ⟨mm, ?_⟩
    intro other differs
    exact (mem other differs).trans (Function.update_of_ne differs _ _)

/- A copy that starts at `va` gets to the byte at `a`: it finds every page up to it and
meets no byte before it that ends the copy. -/
structure Reached (s : VmState) (m : Nat) (last : Nat → Prop) (va a : Nat) : Prop where
  from_ : va ≤ a
  found : ∀ b, va ≤ b → b ≤ a → Accepts s m (PGROUNDDOWN b)
  open_ : ∀ b, va ≤ b → b < a → ¬ last b

section Loop

variable {β : Type} {s : VmState} {m : Nat} {body : Nat → Nat → Nat → β → VmM β} {go : β → Bool}

theorem copyLoop_ended (fuel va len : Nat) (acc : β) (touched : List Nat)
    (ended : go acc = true → len = 0) :
    copyLoop m body go fuel va len acc touched = pure (some acc, touched) := by
  cases fuel with
  | zero => rfl
  | succ fuel =>
    unfold copyLoop
    rw [if_neg]
    rintro ⟨going, left⟩
    have := ended going
    omega

/-- Where a loop over addresses below `stop` ends. -/
def EndsAt (s : VmState) (m : Nat) (go : β → Bool) (I : Nat → β → List Nat → VmState → Prop)
    (stop : Nat) (r : Option β × List Nat) (u : VmState) : Prop :=
  ∃ a acc, a ≤ stop ∧ I a acc r.2 u ∧
    ((r.1 = some acc ∧ (go acc = true → a = stop)) ∨
      (r.1 = none ∧ a < stop ∧ go acc = true ∧ ¬ Accepts s m (PGROUNDDOWN a)))

/-- What a body keeps true from one page to the next holds where the loop ends: at the end of
the range, at a page that is missing, or where the body has had enough. `I a acc touched t` is
for a copy that has come to the address `a`. -/
theorem copyLoop_rule (I : Nat → β → List Nat → VmState → Prop) (stop : Nat)
    (lookup : ∀ a acc touched t, I a acc touched t → ∀ va, pte t m va = pte s m va)
    (real : ∀ va, PTE_TO_PA (pte s m va) < PHYS_SIZE)
    (onPage : ∀ t va n acc touched, I va acc touched t → go acc = true →
      Accepts s m (PGROUNDDOWN va) → 0 < n → va + n ≤ stop → va + n ≤ PGROUNDDOWN va + PAGE_SIZE →
      wp (body (PTE_TO_PA (pte s m (PGROUNDDOWN va)) / PAGE_SIZE) (va - PGROUNDDOWN va) n acc)
        (fun acc' u => I (va + n) acc' (touched ++ [PGROUNDDOWN va]) u) (fun _ => False) t)
    (fuel va len : Nat) (acc : β) (touched : List Nat) (t : VmState) (enough : len ≤ fuel)
    (ends : va + len = stop) (now : I va acc touched t) :
    wp (copyLoop m body go fuel va len acc touched) (EndsAt s m go I stop) (fun _ => False) t := by
  induction fuel generalizing va len acc touched t with
  | zero => exact ⟨va, acc, by omega, now, .inl ⟨rfl, fun _ => by omega⟩⟩
  | succ fuel ih =>
    by_cases more : go acc = true ∧ 0 < len
    · have down := PGROUNDDOWN_le va
      have within := lt_PGROUNDDOWN va
      have same := lookup va acc touched t now (PGROUNDDOWN va)
      have found : wp (walkaddr m (PGROUNDDOWN va))
          (fun pa u => u = t ∧ pa = if Accepts s m (PGROUNDDOWN va) then
            PTE_TO_PA (pte s m (PGROUNDDOWN va)) else 0) (fun _ => False) t := by
        have accepts : Accepts t m (PGROUNDDOWN va) ↔ Accepts s m (PGROUNDDOWN va) := by
          unfold Accepts
          rw [same]
        unfold wp
        rw [walkaddr_spec t m (PGROUNDDOWN va) (by rw [same]; exact real _)]
        simp only [accepts, same, and_self]
      unfold copyLoop
      rw [if_pos more]
      refine wp_call found ?_
      rintro pa u ⟨rfl, rfl⟩
      by_cases here : Accepts s m (PGROUNDDOWN va)
      · rw [if_pos here, if_neg here.2]
        refine wp_call (onPage u va (min (PAGE_SIZE - (va - PGROUNDDOWN va)) len) acc touched now
          more.1 here (by omega) (by omega) (by omega)) ?_
        intro acc' w next
        rcases Nat.lt_or_ge (PAGE_SIZE - (va - PGROUNDDOWN va)) len with longer | last
        · -- the rest of the range starts on the next page
          have edge : va + min (PAGE_SIZE - (va - PGROUNDDOWN va)) len =
              PGROUNDDOWN va + PAGE_SIZE := by
            omega
          exact ih _ _ acc' _ w (by omega) (by omega) (edge ▸ next)
        · rw [Nat.min_eq_right last] at next
          rw [Nat.min_eq_right last, Nat.sub_self, copyLoop_ended _ _ _ _ _ (fun _ => rfl)]
          exact ⟨va + len, acc', by omega, next, .inl ⟨rfl, fun _ => ends⟩⟩
      · rw [if_neg here, if_pos rfl]
        exact ⟨va, acc, by omega, now, .inr ⟨rfl, by omega, more.1, here⟩⟩
    · have ended : go acc = true → len = 0 := fun going => by
        by_contra left
        exact more ⟨going, by omega⟩
      rw [copyLoop_ended _ _ _ _ _ ended]
      exact ⟨va, acc, by omega, now, .inl ⟨rfl, fun going => by have := ended going; omega⟩⟩

/-- What a copy from `va` has done when it has come to `a`. -/
structure Trail (s : VmState) (m : Nat) (last : Nat → Prop) (going : Bool) (va a : Nat)
    (touched : List Nat) : Prop where
  le : va ≤ a
  found : ∀ b, va ≤ b → b < a → Accepts s m (PGROUNDDOWN b)
  open_ : going = true ↔ ∀ b, va ≤ b → b < a → ¬ last b
  pages : ∀ page, page ∈ touched ↔ ∃ b < a, Reached s m last va b ∧ page = PGROUNDDOWN b

section Trail

variable {last : Nat → Prop} {going : Bool} {va a n : Nat} {touched : List Nat}

theorem Trail.start (s : VmState) (m : Nat) (last : Nat → Prop) (va : Nat) :
    Trail s m last true va va [] where
  le := Nat.le_refl va
  found b lo hi := by omega
  open_ := iff_of_true rfl (fun b lo hi => by omega)
  pages page := by
    refine iff_of_false not_mem_nil ?_
    rintro ⟨b, before, reached, -⟩
    have := reached.from_
    omega

theorem Trail.next (trail : Trail s m last true va a touched)
    (here : Accepts s m (PGROUNDDOWN a)) (pos : 0 < n) (fits : a + n ≤ PGROUNDDOWN a + PAGE_SIZE)
    (ends : going = true ↔ ∀ b, a ≤ b → b < a + n → ¬ last b) :
    Trail s m last going va (a + n) (touched ++ [PGROUNDDOWN a]) := by
  have le := trail.le
  have down := PGROUNDDOWN_le a
  have before := trail.open_.mp rfl
  have page : ∀ b, a ≤ b → b < a + n → PGROUNDDOWN b = PGROUNDDOWN a :=
    fun b lo hi => PGROUNDDOWN_same (by omega) (by omega)
  have found : ∀ b, va ≤ b → b < a + n → Accepts s m (PGROUNDDOWN b) := by
    intro b lo hi
    rcases Nat.lt_or_ge b a with old | new
    · exact trail.found b lo old
    · rwa [page b new hi]
  refine ⟨by omega, found, ?_, ?_⟩
  · grind
  · intro page'
    rw [mem_append, mem_singleton, trail.pages]
    constructor
    · rintro (⟨b, lt, reached, same⟩ | same)
      · exact ⟨b, by omega, reached, same⟩
      · exact ⟨a, by omega, ⟨le, fun b lo hi => found b lo (by omega), before⟩, same⟩
    · rintro ⟨b, lt, reached, same⟩
      rcases Nat.lt_or_ge b a with old | new
      · exact .inl ⟨b, old, reached, same⟩
      · exact .inr (same.trans (page b new lt))

end Trail

end Loop

/-! Rights of EL0 -/

variable {ret : Int} {touched : List Nat} {len m va : Nat} {last : Nat → Prop} {s t : VmState}

def MayWrite (x : BitVec 64) : Prop := x &&& MM_AP_MASK = MM_AP_RW

def MayRead (x : BitVec 64) : Prop :=
  x &&& MM_AP_MASK = MM_AP_RW ∨ x &&& MM_AP_MASK = MM_AP_EL0_RO ∨ x &&& MM_AP_MASK = MM_AP_RO

def userByte (s : VmState) (m a : Nat) : UInt8 :=
  getByte (s.mem (PTE_TO_PA (pte s m (PGROUNDDOWN a)) / PAGE_SIZE) (a % PAGE_SIZE / 8))
    (a % PAGE_SIZE % 8)

/- `-1` or a complete copy, with the pages that were accessed. -/
def Outcome (s : VmState) (m : Nat) (last : Nat → Prop) (va len : Nat) (ret : Int)
    (touched : List Nat) : Prop :=
  (ret = 0 → va ≤ USER_VA_END ∧ ∀ a, va ≤ a → a < va + len →
    (∀ b, va ≤ b → b < a → ¬ last b) → Reached s m last va a) ∧
  ∀ page, page ∈ touched ↔ va ≤ USER_VA_END ∧
    ∃ a, a < va + len ∧ Reached s m last va a ∧ page = PGROUNDDOWN a

/-- A loop that keeps the mappings, and says by `go` whether a page had a byte that ends the
copy, comes to one of the outcomes. -/
theorem copyLoop_outcome {β : Type} {body : Nat → Nat → Nat → β → VmM β} {go : β → Bool} {acc : β}
    (last : Nat → Prop) (ret : Option β → Int) (Keep : VmState → Prop) (user : va ≤ USER_VA_END)
    (lookup : ∀ t, Keep t → ∀ va, pte t m va = pte s m va)
    (real : ∀ va, PTE_TO_PA (pte s m va) < PHYS_SIZE)
    (onPage : ∀ t va n acc, Keep t → Accepts s m (PGROUNDDOWN va) →
      va + n ≤ PGROUNDDOWN va + PAGE_SIZE →
      wp (body (PTE_TO_PA (pte s m (PGROUNDDOWN va)) / PAGE_SIZE) (va - PGROUNDDOWN va) n acc)
        (fun acc' u => Keep u ∧ (go acc' = true ↔ ∀ b, va ≤ b → b < va + n → ¬ last b))
        (fun _ => False) t)
    (kept : Keep s) (going : go acc = true) (fails : ret none ≠ 0) :
    wp (copyLoop m body go len va len acc [])
      (fun r _ => Outcome s m last va len (ret r.1) r.2) (fun _ => False) s := by
  refine wp_mono (copyLoop_rule (fun a acc touched t => Keep t ∧
    Trail s m last (go acc) va a touched) (va + len) (fun _ _ _ t now => lookup t now.1) real ?_ len
    va len acc [] s (Nat.le_refl len) rfl ⟨kept, going ▸ .start s m last va⟩) ?_ (fun _ no => no)
  · rintro t a n acc touched ⟨kept, trail⟩ going here pos _ fits
    refine wp_mono (onPage t a n acc kept here fits) ?_ (fun _ no => no)
    rintro acc' u ⟨kept', ends⟩
    exact ⟨kept', (going ▸ trail).next here pos fits ends⟩
  · rintro ⟨r, touched⟩ u ⟨a, acc', le, ⟨-, trail⟩, ends⟩
    -- the copy goes on until a byte ends it or a page is missing
    have before : ∀ b < va + len, (∀ c, va ≤ c → c < b → ¬ last c) →
        (r = none → a ≤ b → Accepts s m (PGROUNDDOWN a)) → b < a := by
      intro b lt unended missing
      by_contra later
      have on : go acc' = true := trail.open_.mpr (fun c lo hi => unended c lo (by omega))
      rcases ends with ⟨-, stop⟩ | ⟨none, -, -, refused⟩
      · have := stop on
        omega
      · exact refused (missing none (by omega))
    refine ⟨fun zero => ⟨user, ?_⟩, ?_⟩
    · intro b lo hi unended
      have lt := before b hi unended (fun none => absurd (none ▸ zero) fails)
      exact ⟨lo, fun c clo chi => trail.found c clo (by omega), unended⟩
    · intro page
      rw [trail.pages, and_iff_right user]
      constructor
      · rintro ⟨b, lt, reached⟩
        exact ⟨b, by omega, reached⟩
      · rintro ⟨b, lt, reached, same⟩
        exact ⟨b, before b lt reached.open_ (fun _ le => reached.found a trail.le le), reached, same⟩

theorem Outcome.kernel (kernel : va > USER_VA_END) : Outcome s m last va len (-1) [] := by
  refine ⟨fun zero => absurd zero (by decide), ?_⟩
  intro page
  constructor
  · intro none
    exact absurd none not_mem_nil
  · rintro ⟨user, -⟩
    omega

theorem SameTables.pte (same : SameTables s t m) (va : Nat) :
    pte t m va = Vm.pte s m va := pte_congr same.1 (same.2 va)

theorem SameTables.poke (tables : Apart s m)
    (same : SameTables s t m) (accepted : Accepts s m va) (off : Nat) (src : List UInt8) :
    SameTables s (poke t (PTE_TO_PA (Vm.pte s m va) / PAGE_SIZE) off src) m := by
  obtain ⟨mm, mem⟩ := poke_frame t (PTE_TO_PA (Vm.pte s m va) / PAGE_SIZE) off src
  refine ⟨mm.trans same.1, ?_⟩
  intro va' frame onWalk
  have differs : frame ≠ PTE_TO_PA (Vm.pte s m va) / PAGE_SIZE := by
    rintro rfl
    exact tables.apart va va' accepted onWalk
  exact (mem frame differs).trans (same.2 va' frame onWalk)

theorem copyout_spec (tables : Apart s m) (dstva : Nat) (src : List UInt8) :
    wp (copyout m dstva src)
      (fun r _ => Outcome s m (fun _ => False) dstva src.length r.1 r.2) (fun _ => False) s := by
  unfold copyout
  split
  · next kernel => exact Outcome.kernel kernel
  · next user =>
    refine wp_call (copyLoop_outcome _ (fun r => if r.isSome then 0 else -1)
      (fun t => SameTables s t m) (by omega) ?_ tables.real ?_ ⟨rfl, fun _ _ _ => rfl⟩ rfl
      (by decide)) (fun _ _ outcome => outcome)
    · intro t same va
      exact same.pte va
    · intro t va n rest same accepted _
      refine ⟨same.poke tables accepted _ _, ?_⟩
      simp only [not_false_eq_true, implies_true]

theorem copyin_spec (tables : Apart s m) (srcva len : Nat) : wp (copyin m srcva len)
      (fun r _ => Outcome s m (fun _ => False) srcva len r.1 r.2.2) (fun _ => False) s := by
  unfold copyin
  split
  · next kernel => exact Outcome.kernel kernel
  · next user =>
    refine wp_call (copyLoop_outcome _ (fun r => if r.isSome then 0 else -1)
      (fun t => t = s) (by omega) ?_ tables.real ?_ rfl rfl (by decide)) (fun _ _ outcome => outcome)
    · rintro t rfl va
      rfl
    · rintro t va n dst rfl _ _
      refine ⟨rfl, ?_⟩
      simp only [not_false_eq_true, implies_true]

theorem takeString_found (l : List UInt8) : (takeString l).2 = true ↔ 0 ∈ l := by
  induction l with
  | nil => simp [takeString]
  | cons b rest ih =>
    unfold takeString
    by_cases zero : b = 0
    · simp [zero]
    · simp [zero, ih, Ne.symm zero]

theorem mem_peek {n : Nat} (within : va + n ≤ PGROUNDDOWN va + PAGE_SIZE) (x : UInt8) :
    x ∈ peek s (PTE_TO_PA (pte s m (PGROUNDDOWN va)) / PAGE_SIZE) (va - PGROUNDDOWN va) n ↔
      ∃ b, va ≤ b ∧ b < va + n ∧ userByte s m b = x := by
  have down := PGROUNDDOWN_le va
  have byte : ∀ i < n, userByte s m (va + i) =
      getByte (s.mem (PTE_TO_PA (pte s m (PGROUNDDOWN va)) / PAGE_SIZE)
        ((va - PGROUNDDOWN va + i) / 8)) ((va - PGROUNDDOWN va + i) % 8) := by
    intro i small
    have page : PGROUNDDOWN (va + i) = PGROUNDDOWN va := PGROUNDDOWN_same (by omega) (by omega)
    have offset : (va + i) % PAGE_SIZE = va - PGROUNDDOWN va + i := by
      grind [PGROUNDDOWN, PAGE_SIZE]
    unfold userByte
    rw [page, offset]
  unfold peek
  simp only [mem_map, mem_range]
  constructor
  · grind
  · rintro ⟨b, lo, hi, rfl⟩
    refine ⟨b - va, by omega, ?_⟩
    rw [← byte (b - va) (by omega), Nat.add_sub_cancel' lo]

theorem copyinstr_spec (tables : Apart s m) (srcva max : Nat) : wp (copyinstr m srcva max)
      (fun r _ => Outcome s m (fun b => userByte s m b = 0) srcva max r.1 r.2.2)
      (fun _ => False) s := by
  unfold copyinstr
  split
  · next kernel => exact Outcome.kernel kernel
  · next user =>
    refine wp_call (copyLoop_outcome (fun b => userByte s m b = 0)
      (fun r => if r.elim false Prod.snd then 0 else -1) (fun t => t = s) (by omega) ?_
      tables.real ?_ rfl rfl (by decide)) ?_
    · rintro t rfl va
      rfl
    · rintro t va n dst rfl _ within
      refine ⟨rfl, ?_⟩
      rw [Bool.not_eq_true', ← Bool.not_eq_true, takeString_found, mem_peek within]
      push Not
      rfl
    · rintro ⟨r, touched⟩ t outcome
      rcases r with _ | ⟨dst, _ | _⟩ <;> exact outcome

/-- A copy stayed within the rights `May`: it succeeded only if every byte of the range,
up to one that ends it, is on such a page, and it accessed no other page. -/
def Within (May : BitVec 64 → Prop) (s : VmState) (m : Nat) (last : Nat → Prop) (va len : Nat)
    (ret : Int) (touched : List Nat) : Prop :=
  (ret = 0 → ∀ a, va ≤ a → a < va + len → (∀ b, va ≤ b → b < a → ¬ last b) →
    May (pte s m (PGROUNDDOWN a))) ∧
  ∀ page ∈ touched, May (pte s m page)

theorem Outcome.within_iff (outcome : Outcome s m last va len ret touched)
    (May : BitVec 64 → Prop) : Within May s m last va len ret touched ↔
      (va ≤ USER_VA_END → ∀ a < va + len, Reached s m last va a →
        May (pte s m (PGROUNDDOWN a))) := by
  obtain ⟨success, pages⟩ := outcome
  constructor
  · intro within user a before reached
    exact within.2 _ ((pages _).mpr ⟨user, a, before, reached, rfl⟩)
  · intro allowed
    constructor
    · grind
    · grind

theorem within_iff_of_spec {α : Type} {routine : VmM α} {ret : α → Int} {touched : α → List Nat}
    (spec : wp routine (fun r _ => Outcome s m last va len (ret r) (touched r)) (fun _ => False) s)
    (May : BitVec 64 → Prop) :
    (∃ r t, routine s = .ok (r, t) ∧ Within May s m last va len (ret r) (touched r)) ↔
      (va ≤ USER_VA_END → ∀ a < va + len, Reached s m last va a →
        May (pte s m (PGROUNDDOWN a))) := by
  obtain ⟨r, t, returned, outcome⟩ := wp_returns spec (fun _ no => no)
  rw [← outcome.within_iff May]
  constructor
  · grind
  · intro within
    exact ⟨r, t, returned, within⟩

/-- The copy routines stay within the rights of EL0 exactly when every page they come to
grants them: up to the first missing page, every page of the range must be writable for
`copyout` and readable for `copyin` and `copyinstr`. -/
theorem copies_within_rights {s : VmState} {m : Nat} (tables : Apart s m) (va len : Nat)
    (src : List UInt8) : ((∃ r t, copyout m va src s = .ok (r, t) ∧
        Within MayWrite s m (fun _ => False) va src.length r.1 r.2) ↔
      (va ≤ USER_VA_END → ∀ a < va + src.length, Reached s m (fun _ => False) va a →
        MayWrite (pte s m (PGROUNDDOWN a)))) ∧
    ((∃ r t, copyin m va len s = .ok (r, t) ∧
        Within MayRead s m (fun _ => False) va len r.1 r.2.2) ↔
      (va ≤ USER_VA_END → ∀ a < va + len, Reached s m (fun _ => False) va a →
        MayRead (pte s m (PGROUNDDOWN a)))) ∧
    ((∃ r t, copyinstr m va len s = .ok (r, t) ∧
        Within MayRead s m (fun b => userByte s m b = 0) va len r.1 r.2.2) ↔
      (va ≤ USER_VA_END → ∀ a < va + len, Reached s m (fun b => userByte s m b = 0) va a →
        MayRead (pte s m (PGROUNDDOWN a)))) :=
  ⟨within_iff_of_spec (copyout_spec tables va src) MayWrite,
    within_iff_of_spec (copyin_spec tables va len) MayRead,
    within_iff_of_spec (copyinstr_spec tables va len) MayRead⟩

theorem execSpace_copies : ∃ r t, copyout 0 (PAGE_SIZE + 8) [1, 2, 3] execSpace = .ok (r, t) ∧
      Within MayWrite execSpace 0 (fun _ => False) (PAGE_SIZE + 8) 3 r.1 r.2 := by
  refine (copies_within_rights execSpace_tables.apart (PAGE_SIZE + 8) 3 [1, 2, 3]).1.mpr ?_
  intro _ a before reached
  have page : PGROUNDDOWN a = PAGE_SIZE := by
    have from_ := reached.from_
    unfold PGROUNDDOWN
    simp only [PAGE_SIZE, length_cons, length_nil] at *
    omega
  rw [page]
  unfold MayWrite
  decide

/- One byte of the text page is overwritten, and the guard page is read. -/
theorem execSpace_rights_exceeded :
    (∃ r t, copyout 0 0 [0x41] execSpace = .ok (r, t) ∧ r.1 = 0 ∧ userByte t 0 0 = 0x41) ∧
    ¬ MayWrite (pte execSpace 0 0) ∧
    (∃ r t, copyin 0 0x7eff000 8 execSpace = .ok (r, t) ∧ r.1 = 0) ∧
    ¬ MayRead (pte execSpace 0 0x7eff000) := by
  refine ⟨⟨_, _, rfl, rfl, rfl⟩, ?_, ⟨_, _, rfl, rfl⟩, ?_⟩
  · unfold MayWrite
    decide
  · unfold MayRead
    decide

end UvaOs.Vm
