import UvaOs.Vm.Full
import UvaOs.Vm.Contents

/-! The copy routines with the buffer of the kernel in physical memory, where `memmove`
finds it through the linear map. In `Copy` the bytes of the kernel come and go as lists. -/
namespace UvaOs.Vm

open Prog VmState

/-! Physical memory by bytes -/

/-- The byte at a physical address. -/
def physByte (s : VmState) (pa : Nat) : UInt8 := byteIn s (pa / PAGE_SIZE) (pa % PAGE_SIZE)

def putByte (s : VmState) (pa : Nat) (b : UInt8) : VmState :=
  s.putWord (pa / PAGE_SIZE) (pa % PAGE_SIZE / 8)
    (setByte (s.mem (pa / PAGE_SIZE) (pa % PAGE_SIZE / 8)) (pa % PAGE_SIZE % 8) b)

def load (s : VmState) (pa n : Nat) : List UInt8 := (List.range n).map (fun i => physByte s (pa + i))

def store (s : VmState) (pa : Nat) : List UInt8 → VmState
  | [] => s
  | b :: rest => store (putByte s pa b) (pa + 1) rest

theorem physByte_putByte (s : VmState) (pa p : Nat) (b : UInt8) :
    physByte (putByte s pa b) p = if p = pa then b else physByte s p := by
  have small : p % PAGE_SIZE % 8 < 8 := Nat.mod_lt _ (by decide)
  unfold physByte putByte byteIn
  by_cases word : p / PAGE_SIZE = pa / PAGE_SIZE ∧ p % PAGE_SIZE / 8 = pa % PAGE_SIZE / 8
  · rw [word.1, word.2, putWord_self, getByte_setByte _ _ small]
    by_cases here : p = pa
    · subst here
      simp
    · have differs : p % PAGE_SIZE % 8 ≠ pa % PAGE_SIZE % 8 := by
        simp only [PAGE_SIZE] at *
        omega
      rw [if_neg differs, if_neg here]
  · have apart : p / PAGE_SIZE ≠ pa / PAGE_SIZE ∨ p % PAGE_SIZE / 8 ≠ pa % PAGE_SIZE / 8 := by
      tauto
    rw [putWord_ne _ _ apart, if_neg]
    rintro rfl
    exact word ⟨rfl, rfl⟩

theorem physByte_store (s : VmState) (pa p : Nat) (bytes : List UInt8) :
    physByte (store s pa bytes) p =
      if pa ≤ p ∧ p < pa + bytes.length then bytes.getD (p - pa) 0 else physByte s p := by
  induction bytes generalizing s pa with
  | nil =>
    rw [if_neg (by simp only [List.length_nil]; omega)]
    rfl
  | cons b rest ih =>
    rw [store, ih, List.length_cons, physByte_putByte]
    by_cases later : pa + 1 ≤ p ∧ p < pa + 1 + rest.length
    · grind
    · grind

theorem length_load (s : VmState) (pa n : Nat) : (load s pa n).length = n := by
  simp [load]

theorem getD_load (s : VmState) (pa : Nat) {i n : Nat} (lt : i < n) :
    (load s pa n).getD i 0 = physByte s (pa + i) := by
  simp [load, List.getD, lt]

theorem store_rest (s : VmState) (pa : Nat) (bytes : List UInt8) :
    store s pa bytes = { s with mem := (store s pa bytes).mem } ∧
      ∀ frame, (∀ p, pa ≤ p → p < pa + bytes.length → frame ≠ p / PAGE_SIZE) →
        (store s pa bytes).mem frame = s.mem frame := by
  induction bytes generalizing s pa with
  | nil => exact ⟨rfl, fun _ _ => rfl⟩
  | cons b rest ih =>
    obtain ⟨only, others⟩ := ih (putByte s pa b) (pa + 1)
    refine ⟨only, ?_⟩
    intro frame outside
    rw [List.length_cons] at outside
    have first : frame ≠ pa / PAGE_SIZE := outside pa (by omega) (by omega)
    rw [store, others frame (fun p lo hi => outside p (by omega) (by omega))]
    exact Function.update_of_ne first _ _

/-! The routines of vm.c -/

namespace Buffer

def memmove (dst src n : Nat) : VmM Unit := modify (fun s => store s dst (load s src n))

def copyout (m dstva src len : Nat) : VmM Int :=
  if dstva > USER_VA_END then pure (-1)
  else do
    let r ← copyLoop m (fun frame off n src => do
      memmove (frame * PAGE_SIZE + off) src n
      pure (src + n)) (fun _ => true) len dstva len src []
    pure (if r.1.isSome then 0 else -1)

def copyin (m dst srcva len : Nat) : VmM Int :=
  if srcva > USER_VA_END then pure (-1)
  else do
    let r ← copyLoop m (fun frame off n dst => do
      memmove dst (frame * PAGE_SIZE + off) n
      pure (dst + n)) (fun _ => true) len srcva len dst []
    pure (if r.1.isSome then 0 else -1)

/- The inner loop of `copyinstr`, with `dst` and `got_null`. -/
def copyString (p dst : Nat) : Nat → VmM (Nat × Bool)
  | 0 => pure (dst, false)
  | n + 1 => do
    let s ← get
    if physByte s p = 0 then do
      modify (fun s => putByte s dst 0)
      pure (dst, true)
    else do
      modify (fun s => putByte s dst (physByte s p))
      copyString (p + 1) (dst + 1) n

/-- Copy a null-terminated string from user to kernel. -/
def copyinstr (m dst srcva max : Nat) : VmM Int :=
  if srcva > USER_VA_END then pure (-1)
  else do
    let r ← copyLoop m (fun frame off n dst => copyString (frame * PAGE_SIZE + off) dst.1 n)
      (fun dst => !dst.2) max srcva max (dst, false) []
    match r.1 with
    | some (_, true) => pure 0
    | _ => pure (-1)

end Buffer

/-! Bytes moved one after the other -/

structure Moved (s t : VmState) (dst src : Nat → Nat) (lo a : Nat) : Prop where
  rest : t = { s with mem := t.mem }
  wrote : ∀ b, lo ≤ b → b < a → physByte t (dst b) = physByte s (src b)
  kept : ∀ p, (∀ b, lo ≤ b → b < a → p ≠ dst b) → physByte t p = physByte s p

namespace Moved

variable {s t : VmState} {dst src : Nat → Nat} {lo a : Nat}

theorem nothing (s : VmState) (dst src : Nat → Nat) (lo : Nat) : Moved s s dst src lo lo where
  rest := rfl
  wrote b l h := by omega
  kept _ _ := rfl

theorem run (moved : Moved s t dst src lo a) {n : Nat} (le : lo ≤ a)
    (dstRun : ∀ i < n, dst (a + i) = dst a + i) (srcRun : ∀ i < n, src (a + i) = src a + i)
    (injective : ∀ b, lo ≤ b → b < a → ∀ i < n, dst b ≠ dst (a + i))
    (disjoint : ∀ b, lo ≤ b → b < a → ∀ i < n, src (a + i) ≠ dst b) :
    Moved s (store t (dst a) (load t (src a) n)) dst src lo (a + n) := by
  have bytes : ∀ p, physByte (store t (dst a) (load t (src a) n)) p =
      if dst a ≤ p ∧ p < dst a + n then physByte t (src a + (p - dst a)) else physByte t p := by
    grind [physByte_store, length_load, getD_load]
  constructor
  · rw [(store_rest t (dst a) _).1, moved.rest]
  · intro b l h
    rw [bytes]
    rcases Nat.lt_or_ge b a with old | new
    · rw [if_neg, moved.wrote b l old]
      intro inside
      have clash := injective b l old (dst b - dst a) (by omega)
      rw [dstRun _ (by omega)] at clash
      omega
    · obtain ⟨i, rfl⟩ := Nat.exists_eq_add_of_le new
      have small : i < n := by omega
      rw [dstRun i small, if_pos (by omega), Nat.add_sub_cancel_left, ← srcRun i small]
      exact moved.kept _ (fun b l h => disjoint b l h i small)
  · intro p outside
    have apart : ¬ (dst a ≤ p ∧ p < dst a + n) := by
      intro inside
      apply outside (a + (p - dst a)) (by omega) (by omega)
      rw [dstRun _ (by omega)]
      omega
    rw [bytes, if_neg apart]
    exact moved.kept p (fun b l h => outside b l (by omega))

end Moved

/-! User pages and kernel buffers -/

/-- The page of `a` is mapped. -/
def UserMapped (s : VmState) (m a : Nat) : Prop := pte s m (PGROUNDDOWN a) ≠ 0

/-- Where the byte at a user address is. -/
def userPa (s : VmState) (m a : Nat) : Nat := PTE_TO_PA (pte s m (PGROUNDDOWN a)) + a % PAGE_SIZE

/-- The pages of `[va, va + len)`: what is mapped there is mapped as memory, to pages that are
not tables, and no two of them to the same one. -/
structure UserPages (s : VmState) (m va len : Nat) : Prop extends Apart s m where
  valid : ∀ a, UserMapped s m a → Accepts s m (PGROUNDDOWN a)
  distinct : ∀ a b, va ≤ a → a < va + len → va ≤ b → b < va + len → UserMapped s m a → UserMapped s m b →
    PTE_TO_PA (pte s m (PGROUNDDOWN a)) = PTE_TO_PA (pte s m (PGROUNDDOWN b)) →
    PGROUNDDOWN a = PGROUNDDOWN b

/-- Memory of the kernel, which is neither user memory nor part of the tables. -/
structure KernelBuffer (s : VmState) (m pa len : Nat) : Prop where
  user : ∀ p, pa ≤ p → p < pa + len → ∀ a, UserMapped s m a → p ≠ userPa s m a
  tables : ∀ p, pa ≤ p → p < pa + len → ∀ a, p / PAGE_SIZE ∉ walkFrames s a levels (s.mm m).pgd

theorem userPa_div (s : VmState) (m a : Nat) :
    userPa s m a / PAGE_SIZE = PTE_TO_PA (pte s m (PGROUNDDOWN a)) / PAGE_SIZE := by
  have aligned := PTE_TO_PA_aligned (pte s m (PGROUNDDOWN a))
  unfold userPa
  simp only [PAGE_SIZE] at *
  omega

theorem userPa_mod (s : VmState) (m a : Nat) : userPa s m a % PAGE_SIZE = a % PAGE_SIZE := by
  have aligned := PTE_TO_PA_aligned (pte s m (PGROUNDDOWN a))
  unfold userPa
  simp only [PAGE_SIZE] at *
  omega

theorem userByte_eq (s : VmState) (m a : Nat) : userByte s m a = physByte s (userPa s m a) := by
  unfold userByte physByte byteIn
  rw [userPa_div, userPa_mod]

theorem userPa_run {s : VmState} {m a i : Nat} (page : a + i < PGROUNDDOWN a + PAGE_SIZE) :
    userPa s m (a + i) = userPa s m a + i := by
  have down := PGROUNDDOWN_le a
  unfold userPa
  rw [PGROUNDDOWN_same (a := a) (by omega) page]
  unfold PGROUNDDOWN at *
  simp only [PAGE_SIZE] at *
  omega

theorem userPa_frame (s : VmState) (m a : Nat) :
    PTE_TO_PA (pte s m (PGROUNDDOWN a)) / PAGE_SIZE * PAGE_SIZE + (a - PGROUNDDOWN a) =
      userPa s m a := by
  rw [PTE_TO_PA_aligned, userPa]
  unfold PGROUNDDOWN
  simp only [PAGE_SIZE]
  omega

theorem Accepts.mapped {s : VmState} {m a : Nat} (accepted : Accepts s m (PGROUNDDOWN a)) :
    UserMapped s m a := by
  intro zero
  unfold Accepts at accepted
  rw [zero] at accepted
  exact absurd accepted (by decide)

theorem UserPages.userPa_injective {s : VmState} {m va len a b : Nat}
    (pages : UserPages s m va len) (alo : va ≤ a) (ahi : a < va + len) (blo : va ≤ b)
    (bhi : b < va + len) (ma : UserMapped s m a) (mb : UserMapped s m b)
    (same : userPa s m a = userPa s m b) : a = b := by
  have frame := congrArg (· / PAGE_SIZE) same
  have offset := congrArg (· % PAGE_SIZE) same
  simp only [userPa_div, userPa_mod] at frame offset
  have address : PTE_TO_PA (pte s m (PGROUNDDOWN a)) = PTE_TO_PA (pte s m (PGROUNDDOWN b)) := by
    rw [← PTE_TO_PA_aligned, frame, PTE_TO_PA_aligned]
  have page := pages.distinct a b alo ahi blo bhi ma mb address
  unfold PGROUNDDOWN at page
  simp only [PAGE_SIZE] at *
  omega

theorem SameTables.store {s t : VmState} {m : Nat} (same : SameTables s t m) {pa : Nat}
    {bytes : List UInt8} (apart : ∀ p, pa ≤ p → p < pa + bytes.length → ∀ a,
      p / PAGE_SIZE ∉ walkFrames s a levels (s.mm m).pgd) :
    SameTables s (store t pa bytes) m := by
  obtain ⟨rest, others⟩ := store_rest t pa bytes
  constructor
  · rw [rest]
    exact same.1
  · intro a frame onWalk
    rw [others frame ?_, same.2 a frame onWalk]
    rintro p lo hi rfl
    exact apart p lo hi a onWalk

/-! What the loops keep -/

/-- A copy from `src b` to `dst b` has come from `va` to `a`. -/
structure Came (s t : VmState) (m : Nat) (dst src : Nat → Nat) (va a : Nat) : Prop
    extends Moved s t dst src va a where
  le : va ≤ a
  mapped : ∀ b, va ≤ b → b < a → UserMapped s m b
  tables : SameTables s t m

namespace Came

variable {s t : VmState} {m va a n k len : Nat} {dst src : Nat → Nat}

theorem start (s : VmState) (m : Nat) (dst src : Nat → Nat) (va : Nat) :
    Came s s m dst src va va where
  toMoved := .nothing s dst src va
  le := Nat.le_refl va
  mapped b lo hi := by omega
  tables := ⟨rfl, fun _ _ _ => rfl⟩

theorem lookup (came : Came s t m dst src va a) (a' : Nat) : pte t m a' = pte s m a' :=
  came.tables.pte a'

theorem userPa_eq (came : Came s t m dst src va a) (a' : Nat) : userPa t m a' = userPa s m a' := by
  unfold userPa
  rw [came.lookup]

theorem page (came : Came s t m dst src va a) (accepted : Accepts s m (PGROUNDDOWN a))
    (inside : a + n ≤ PGROUNDDOWN a + PAGE_SIZE) (dstRun : ∀ i < n, dst (a + i) = dst a + i)
    (srcRun : ∀ i < n, src (a + i) = src a + i)
    (injective : ∀ b, va ≤ b → b < a → ∀ i < n, dst b ≠ dst (a + i))
    (disjoint : ∀ b, va ≤ b → b < a → ∀ i < n, src (a + i) ≠ dst b)
    (apart : ∀ i < n, ∀ a', dst (a + i) / PAGE_SIZE ∉ walkFrames s a' levels (s.mm m).pgd) :
    Came s (store t (dst a) (load t (src a) n)) m dst src va (a + n) where
  toMoved := came.toMoved.run came.le dstRun srcRun injective disjoint
  le := Nat.le_trans came.le (Nat.le_add_right a n)
  mapped b lo hi := by
    rcases Nat.lt_or_ge b a with old | new
    · exact came.mapped b lo old
    · grind [accepted.mapped, PGROUNDDOWN_le, PGROUNDDOWN, PGROUNDDOWN_same, UserMapped]
  tables := by
    apply came.tables.store
    intro p lo hi a'
    rw [length_load] at hi
    have here := apart (p - dst a) (by omega) a'
    rwa [dstRun _ (by omega), Nat.add_sub_cancel' lo] at here

theorem out (came : Came s t m (userPa s m) (fun b => k + (b - va)) va a)
    (pages : UserPages s m va len) (buffer : KernelBuffer s m k len)
    (accepted : Accepts s m (PGROUNDDOWN a)) (fits : a + n ≤ va + len)
    (inside : a + n ≤ PGROUNDDOWN a + PAGE_SIZE) :
    Came s (store t (userPa s m a) (load t (k + (a - va)) n)) m (userPa s m)
      (fun b => k + (b - va)) va (a + n) := by
  have le := came.le
  have down := PGROUNDDOWN_le a
  have page : ∀ i < n, PGROUNDDOWN (a + i) = PGROUNDDOWN a := by
    intro i small
    exact PGROUNDDOWN_same (by omega) (by omega)
  have there : ∀ i < n, UserMapped s m (a + i) := by grind [accepted.mapped, UserMapped, page]
  refine came.page accepted inside ?_ ?_ ?_ ?_ ?_
  · intro i small
    exact userPa_run (by omega)
  · intro i small
    omega
  · intro b lo hi i small same
    have equal := pages.userPa_injective lo (by omega) (by omega) (by omega) (came.mapped b lo hi)
      (there i small) same
    omega
  · intro b lo hi i small
    exact buffer.user _ (by omega) (by omega) b (came.mapped b lo hi)
  · grind [pages.apart, userPa_div, page, PGROUNDDOWN]

theorem in_ (came : Came s t m (fun b => k + (b - va)) (userPa s m) va a)
    (buffer : KernelBuffer s m k len) (accepted : Accepts s m (PGROUNDDOWN a))
    (fits : a + n ≤ va + len) (inside : a + n ≤ PGROUNDDOWN a + PAGE_SIZE) :
    Came s (store t (k + (a - va)) (load t (userPa s m a) n)) m (fun b => k + (b - va))
      (userPa s m) va (a + n) := by
  have le := came.le
  have down := PGROUNDDOWN_le a
  refine came.page accepted inside ?_ ?_ ?_ ?_ ?_
  · intro i small
    omega
  · intro i small
    exact userPa_run (by omega)
  · intro b lo hi i small
    omega
  · intro b lo hi i small same
    have page : PGROUNDDOWN (a + i) = PGROUNDDOWN a := PGROUNDDOWN_same (by omega) (by omega)
    have there : UserMapped s m (a + i) := by
      unfold UserMapped
      rw [page]
      exact accepted.mapped
    exact buffer.user _ (by omega) (by omega) (a + i) there same.symm
  · intro i small a'
    exact buffer.tables _ (by omega) (by omega) a'

theorem fresh (came : Came s t m (fun b => k + (b - va)) (userPa s m) va a)
    (buffer : KernelBuffer s m k len) (there : UserMapped s m a) (fits : a < va + len) :
    physByte t (userPa s m a) = userByte s m a := by
  rw [userByte_eq]
  apply came.kept
  intro b lo hi same
  exact buffer.user _ (by omega) (by omega) a there same.symm

end Came

/-! The routines -/

structure CopiedOut (s t : VmState) (m va k len : Nat) (ret : Int) : Prop where
  status : ret = 0 ∨ ret = -1
  success : ret = 0 ↔ ∀ a, va ≤ a → a < va + len → UserMapped s m a
  bytes : ret = 0 → ∀ i < len, userByte t m (va + i) = physByte s (k + i)
  others : ∀ p, (∀ a, va ≤ a → a < va + len → UserMapped s m a → p ≠ userPa s m a) →
    physByte t p = physByte s p
  rest : t = { s with mem := t.mem }

structure CopiedIn (s t : VmState) (m va k len : Nat) (ret : Int) : Prop where
  status : ret = 0 ∨ ret = -1
  success : ret = 0 ↔ ∀ a, va ≤ a → a < va + len → UserMapped s m a
  bytes : ret = 0 → ∀ i < len, physByte t (k + i) = userByte s m (va + i)
  others : ∀ p, p < k ∨ k + len ≤ p → physByte t p = physByte s p
  rest : t = { s with mem := t.mem }

structure StringAt (s t : VmState) (m va k n : Nat) : Prop where
  before : ∀ i < n, userByte s m (va + i) ≠ 0
  nul : userByte s m (va + n) = 0
  bytes : ∀ i ≤ n, physByte t (k + i) = userByte s m (va + i)
  others : ∀ p, p < k ∨ k + n < p → physByte t p = physByte s p

structure CopiedString (s t : VmState) (m va k max : Nat) (ret : Int) : Prop where
  status : ret = 0 ∨ ret = -1
  success : ret = 0 ↔ ∃ z, va ≤ z ∧ z < va + max ∧ userByte s m z = 0 ∧
    ∀ b, va ≤ b → b ≤ z → UserMapped s m b
  string : ret = 0 → ∃ n < max, StringAt s t m va k n
  others : ∀ p, p < k ∨ k + max ≤ p → physByte t p = physByte s p
  rest : t = { s with mem := t.mem }

namespace Buffer

variable {s : VmState} {m va k len : Nat}

theorem copyout_copied (user : va ≤ USER_VA_END) (pages : UserPages s m va len)
    (buffer : KernelBuffer s m k len) :
    wp (copyout m va k len) (fun ret t => CopiedOut s t m va k len ret) (fun _ => False) s := by
  unfold copyout
  rw [if_neg (Nat.not_lt.mpr user)]
  refine wp_call (copyLoop_rule (s := s) (fun a acc _ t => acc = k + (a - va) ∧
    Came s t m (userPa s m) (fun b => k + (b - va)) va a) (va + len) ?_ pages.real ?_ len va len k []
    s (Nat.le_refl len) rfl ⟨by omega, .start s m _ _ va⟩) ?_
  · rintro a acc _ t ⟨-, came⟩ a'
    exact came.lookup a'
  · rintro t a n acc _ ⟨rfl, came⟩ - accepted - fits inside
    rw [userPa_frame]
    exact ⟨by have := came.le; omega, came.out pages buffer accepted fits inside⟩
  · rintro ⟨r, touched⟩ t ⟨a, acc, le, ⟨-, came⟩, ends⟩
    have others : ∀ p, (∀ a, va ≤ a → a < va + len → UserMapped s m a → p ≠ userPa s m a) →
        physByte t p = physByte s p := by
      intro p outside
      exact came.kept p (fun b lo hi => outside b lo (by omega) (came.mapped b lo hi))
    rcases ends with ⟨done, last⟩ | ⟨missing, before, -, refused⟩
    · obtain rfl := last rfl
      dsimp only at done
      subst done
      refine ⟨.inl rfl, iff_of_true rfl came.mapped, ?_, others, came.rest⟩
      intro _ i small
      rw [userByte_eq, came.userPa_eq, came.wrote (va + i) (by omega) (by omega)]
      congr 2
      omega
    · dsimp only at missing
      subst missing
      have failed : (-1 : Int) ≠ 0 := by decide
      refine ⟨.inr rfl, iff_of_false failed ?_, fun zero => absurd zero failed, others, came.rest⟩
      intro all
      exact refused (pages.valid a (all a came.le before))

theorem copyin_copied (user : va ≤ USER_VA_END) (pages : UserPages s m va len)
    (buffer : KernelBuffer s m k len) :
    wp (copyin m k va len) (fun ret t => CopiedIn s t m va k len ret) (fun _ => False) s := by
  unfold copyin
  rw [if_neg (Nat.not_lt.mpr user)]
  refine wp_call (copyLoop_rule (s := s) (fun a acc _ t => acc = k + (a - va) ∧
    Came s t m (fun b => k + (b - va)) (userPa s m) va a) (va + len) ?_ pages.real ?_ len va len k []
    s (Nat.le_refl len) rfl ⟨by omega, .start s m _ _ va⟩) ?_
  · rintro a acc _ t ⟨-, came⟩ a'
    exact came.lookup a'
  · rintro t a n acc _ ⟨rfl, came⟩ - accepted - fits inside
    rw [userPa_frame]
    exact ⟨by have := came.le; omega, came.in_ buffer accepted fits inside⟩
  · rintro ⟨r, touched⟩ t ⟨a, acc, le, ⟨-, came⟩, ends⟩
    have others : ∀ p, p < k ∨ k + len ≤ p → physByte t p = physByte s p := by
      intro p outside
      exact came.kept p (fun b lo hi => by omega)
    rcases ends with ⟨done, last⟩ | ⟨missing, before, -, refused⟩
    · obtain rfl := last rfl
      dsimp only at done
      subst done
      refine ⟨.inl rfl, iff_of_true rfl came.mapped, ?_, others, came.rest⟩
      intro _ i small
      have wrote := came.wrote (va + i) (by omega) (by omega)
      rwa [Nat.add_sub_cancel_left, ← userByte_eq] at wrote
    · dsimp only at missing
      subst missing
      have failed : (-1 : Int) ≠ 0 := by decide
      refine ⟨.inr rfl, iff_of_false failed ?_, fun zero => absurd zero failed, others, came.rest⟩
      intro all
      exact refused (pages.valid a (all a came.le before))

/- How far `copyinstr` has come when it is to go on at `a`: no NUL so far, or the first one is
at `z`. -/
def Read (s : VmState) (m va k a : Nat) : Nat × Bool → VmState → Prop
  | (dst, false), t => dst = k + (a - va) ∧
      Came s t m (fun b => k + (b - va)) (userPa s m) va a ∧
      ∀ b, va ≤ b → b < a → userByte s m b ≠ 0
  | (_, true), t => ∃ z, va ≤ z ∧ z < a ∧ userByte s m z = 0 ∧
      (∀ b, va ≤ b → b < z → userByte s m b ≠ 0) ∧
      Came s t m (fun b => k + (b - va)) (userPa s m) va (z + 1)

theorem Read.came {a : Nat} {acc : Nat × Bool} {t : VmState} (read : Read s m va k a acc t) :
    ∃ b, b ≤ a ∧ Came s t m (fun b => k + (b - va)) (userPa s m) va b := by
  obtain ⟨dst, found⟩ := acc
  cases found with
  | false => exact ⟨a, Nat.le_refl a, read.2.1⟩
  | true =>
    obtain ⟨z, -, hi, -, -, came⟩ := read
    exact ⟨z + 1, hi, came⟩

theorem copyString_read (buffer : KernelBuffer s m k len) {a n : Nat} {t : VmState}
    (accepted : Accepts s m (PGROUNDDOWN a)) (fits : a + n ≤ va + len)
    (inside : a + n ≤ PGROUNDDOWN a + PAGE_SIZE) {dst : Nat}
    (read : Read s m va k a (dst, false) t) :
    wp (copyString (userPa s m a) dst n) (fun acc u => Read s m va k (a + n) acc u)
      (fun _ => False) t := by
  induction n generalizing a dst t with
  | zero => exact read
  | succ n ih =>
    obtain ⟨rfl, came, before⟩ := read
    have down := PGROUNDDOWN_le a
    have byte := came.fresh buffer accepted.mapped (by omega)
    have next := came.in_ (n := 1) buffer accepted (by omega) (by omega)
    have one : load t (userPa s m a) 1 = [userByte s m a] := by
      rw [← byte]
      rfl
    rw [one] at next
    unfold copyString
    refine wp_call (P := fun u w => u = t ∧ w = t) ⟨rfl, rfl⟩ ?_
    rintro u w ⟨rfl, rfl⟩
    rw [byte]
    by_cases zero : userByte s m a = 0
    · rw [if_pos zero]
      rw [zero] at next
      exact ⟨a, came.le, by omega, zero, before, next⟩
    · rw [if_neg zero]
      refine wp_call (P := fun _ x => x = putByte w (k + (a - va)) (userByte s m a))
        (by
          rw [wp_modify, byte]) ?_
      rintro _ x rfl
      have read : Read s m va k (a + 1) (k + (a - va) + 1, false)
          (putByte w (k + (a - va)) (userByte s m a)) := by
        refine ⟨by have := came.le; omega, next, ?_⟩
        intro b lo hi
        rcases Nat.lt_or_ge b a with old | new
        · exact before b lo old
        · obtain rfl : b = a := by omega
          exact zero
      rcases Nat.eq_zero_or_pos n with rfl | some_
      · exact read
      · have page : PGROUNDDOWN (a + 1) = PGROUNDDOWN a := PGROUNDDOWN_same (by omega) (by omega)
        have rest := ih (by rwa [page]) (by omega) (by rw [page]; omega) read
        rw [userPa_run (by omega)] at rest
        rwa [show a + (n + 1) = a + 1 + n by omega]

theorem copyinstr_copied (user : va ≤ USER_VA_END) (pages : UserPages s m va len)
    (buffer : KernelBuffer s m k len) :
    wp (copyinstr m k va len) (fun ret t => CopiedString s t m va k len ret) (fun _ => False) s := by
  unfold copyinstr
  rw [if_neg (Nat.not_lt.mpr user)]
  refine wp_call (copyLoop_rule (s := s) (fun a acc _ t => Read s m va k a acc t) (va + len) ?_
    pages.real ?_ len va len (k, false) [] s (Nat.le_refl len) rfl
    ⟨by omega, .start s m _ _ va, by omega⟩) ?_
  · intro a acc _ t read a'
    obtain ⟨b, -, came⟩ := read.came
    exact came.lookup a'
  · grind [read, userPa_frame, copyString_read]
  · rintro ⟨r, touched⟩ t ⟨a, ⟨dst, found⟩, le, read, ends⟩
    have others : ∀ p, p < k ∨ k + len ≤ p → physByte t p = physByte s p := by
      obtain ⟨c, before, came⟩ := read.came
      intro p outside
      exact came.kept p (fun b lo hi => by omega)
    have rest : t = { s with mem := t.mem } := by
      obtain ⟨c, -, came⟩ := read.came
      exact came.rest
    cases found with
    | true =>
      obtain ⟨z, lo, hi, zero, before, came⟩ := read
      rcases ends with ⟨done, -⟩ | ⟨-, -, going, -⟩
      · dsimp only at done
        subst done
        refine ⟨.inl rfl, iff_of_true rfl ⟨z, lo, by omega, zero, ?_⟩, fun _ => ?_, others, rest⟩
        · intro b blo bhi
          exact came.mapped b blo (by omega)
        · refine ⟨z - va, by omega, ?_, ?_, ?_, ?_⟩
          · intro i small
            exact before (va + i) (by omega) (by omega)
          · rwa [Nat.add_sub_cancel' lo]
          · intro i small
            have wrote := came.wrote (va + i) (by omega) (by omega)
            rwa [Nat.add_sub_cancel_left, ← userByte_eq] at wrote
          · intro p outside
            exact came.kept p (fun b lo hi => by omega)
      · exact absurd going Bool.false_ne_true
    | false =>
      obtain ⟨-, came, before⟩ := read
      -- a NUL with all pages before it mapped is neither behind the copy nor where it ends
      have none : ¬ ∃ z, va ≤ z ∧ z < va + len ∧ userByte s m z = 0 ∧
          ∀ b, va ≤ b → b ≤ z → UserMapped s m b := by
        rintro ⟨z, lo, hi, zero, mapped⟩
        have ahead : a ≤ z := by
          by_contra passed
          exact before z lo (by omega) zero
        rcases ends with ⟨-, last⟩ | ⟨-, -, -, refused⟩
        · have := last rfl
          omega
        · exact refused (pages.valid a (mapped a came.le ahead))
      have failed : CopiedString s t m va k len (-1) :=
        ⟨.inr rfl, iff_of_false (by decide) none, fun zero => absurd zero (by decide), others, rest⟩
      rcases ends with ⟨done, -⟩ | ⟨missing, -⟩
      · dsimp only at done
        subst done
        exact failed
      · dsimp only at missing
        subst missing
        exact failed

end Buffer

/-- The three routines, at any user address, for any buffer: they return, copy the whole range
if and only if it is mapped, and change nothing else. -/
theorem user_copies {s : VmState} {m va k len : Nat} (user : va ≤ USER_VA_END)
    (pages : UserPages s m va len) (buffer : KernelBuffer s m k len) :
    (∃ ret t, Buffer.copyout m va k len s = .ok (ret, t) ∧ CopiedOut s t m va k len ret) ∧
    (∃ ret t, Buffer.copyin m k va len s = .ok (ret, t) ∧ CopiedIn s t m va k len ret) ∧
    (∃ ret t, Buffer.copyinstr m k va len s = .ok (ret, t) ∧ CopiedString s t m va k len ret) :=
  ⟨wp_returns (Buffer.copyout_copied user pages buffer) (fun _ no => no),
    wp_returns (Buffer.copyin_copied user pages buffer) (fun _ no => no),
    wp_returns (Buffer.copyinstr_copied user pages buffer) (fun _ no => no)⟩

theorem execSpace_pages {va len : Nat} (small : va + len ≤ 2 ^ 48) :
    UserPages execSpace 0 va len where
  toApart := execSpace_tables.apart
  valid a mapped := by
    have there : node execSpace 0 (tablePath (PGROUNDDOWN a)) ≠ 0 := by
      intro none
      apply mapped
      rw [execSpace_tables.pte_eq, if_pos none]
    have known := execSpace_node (tablePath (PGROUNDDOWN a)) (Nat.le_succ 3) there
    have entry : pte execSpace 0 (PGROUNDDOWN a) = execSpace.mem
        (node execSpace 0 (tablePath (PGROUNDDOWN a))) (tableIndex (PGROUNDDOWN a) PAGE_SHIFT) := by
      rw [execSpace_tables.pte_eq, if_neg there]
    have present := mapped
    unfold UserMapped at present
    rw [entry] at present
    have listed := execSpace_mem present
    rw [← entry] at listed
    have flags : ∀ p ∈ execNodes, p.1.length = 3 → ∀ d ∈ execDescs, d.1 = p.2 →
        d.2.2 &&& 0xfff#64 &&& ~~~MM_AP_MASK = MMU_PTE_FLAGS ∧ PTE_TO_PA d.2.2 ≠ 0 := by decide
    unfold Accepts
    generalize pte execSpace 0 (PGROUNDDOWN a) = x at listed ⊢
    generalize node execSpace 0 (tablePath (PGROUNDDOWN a)) = f at known listed
    exact flags (_, f) known rfl (f, _, x) listed rfl
  distinct a b alo ahi blo bhi ma mb same := by
    rw [execSpace_tables.pte_frame, execSpace_tables.pte_frame] at same
    have there : node execSpace 0 (pagePath (PGROUNDDOWN a)) ≠ 0 :=
      fun none => ma ((execSpace_tables.pte_eq_zero _).mpr none)
    have frame := Nat.eq_of_mul_eq_mul_right (show 0 < PAGE_SIZE by decide) same
    have four : ∀ a, (pagePath (PGROUNDDOWN a)).length ≤ 4 := fun _ => Nat.le_refl 4
    have path := execSpace_tables.same_node (four a) (four b) there frame.symm
    rw [pagePath_down, pagePath_down] at path
    have page := pagePath_injective (show a < 2 ^ 48 by omega) (show b < 2 ^ 48 by omega) path.symm
    unfold PGROUNDDOWN
    rw [page]

/- Four bytes from the frame after all others to the end of the text page and the start of the
heap page, and back. -/
theorem user_copies_across : (∃ ret t, Buffer.copyout 0 4094 0xa000 4 execSpace = .ok (ret, t) ∧
      CopiedOut execSpace t 0 4094 0xa000 4 ret) ∧
    (∃ ret t, Buffer.copyin 0 0xa000 4094 4 execSpace = .ok (ret, t) ∧
      CopiedIn execSpace t 0 4094 0xa000 4 ret) ∧
    (∃ ret t, Buffer.copyinstr 0 0xa000 4094 4 execSpace = .ok (ret, t) ∧
      CopiedString execSpace t 0 4094 0xa000 4 ret) := by
  refine user_copies (by decide) (execSpace_pages (by decide)) ?_
  have frames : ∀ p ∈ execNodes, p.2 ≠ 10 := by decide
  have frame : ∀ p, 0xa000 ≤ p → p < 0xa000 + 4 → p / PAGE_SIZE = 10 := by
    intro p lo hi
    simp only [PAGE_SIZE]
    omega
  constructor
  · intro p lo hi a mapped same
    have there : node execSpace 0 (pagePath (PGROUNDDOWN a)) ≠ 0 :=
      fun none => mapped ((execSpace_tables.pte_eq_zero _).mpr none)
    apply frames _ (execSpace_node _ (Nat.le_of_eq (length_pagePath _)) there)
    rw [← frame p lo hi, same, userPa_div, execSpace_tables.pte_frame,
      Nat.mul_div_cancel _ (by decide)]
  · intro p lo hi a onWalk
    obtain ⟨ks, short, here⟩ := walkFrames_sub (m := 0) a levels [] (Nat.le_refl 3)
      (show node execSpace 0 [] ≠ 0 by decide) _ onWalk
    rw [frame p lo hi] at here
    exact frames _ (execSpace_node ks (by omega) (by omega)) here.symm

end UvaOs.Vm
