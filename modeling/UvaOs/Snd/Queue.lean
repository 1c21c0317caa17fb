import UvaOs.Lib.Bytes

/-! The sound queue, kernel/sound.c: `Enqueue`, which stores byte after byte, and
`EnqueueFromUser`, which copies blocks from the memory of the user. -/
namespace UvaOs.Snd

open Bytes
open Function (update update_apply)

structure Queue where
  bytes : Buffer
  size : Nat
  inPtr : Nat
  outPtr : Nat

variable {q : Queue} {src : Buffer} {i n : Nat}

namespace Queue

def bytesFree (q : Queue) : Nat :=
  if q.outPtr ≤ q.inPtr then q.size + q.outPtr - q.inPtr - 1 else q.outPtr - q.inPtr - 1

def enqueueLoop (src : Buffer) : Nat → Nat → Queue → Queue
  | 0, _, q => q
  | n + 1, i, q => enqueueLoop src n (i + 1) { q with
      bytes := update q.bytes q.inPtr (src i)
      inPtr := if q.inPtr + 1 = q.size then 0 else q.inPtr + 1 }

/-- `none` where an assertion fails. -/
def enqueue (src : Buffer) (n : Nat) (q : Queue) : Option Queue :=
  if n = 0 then none else some (enqueueLoop src n 0 q)

/-- `either_copyin` of readable memory. -/
def copyin (src : Buffer) (len : Nat) (q : Queue) : Buffer :=
  fun j => if q.inPtr ≤ j ∧ j < q.inPtr + len then src (j - q.inPtr) else q.bytes j

def enqueueFromUser (src : Buffer) (n : Nat) (q : Queue) : Option Queue :=
  if n = 0 then none
  else
    let len := min n (q.size - q.inPtr)
    let q := { q with bytes := q.copyin src len, inPtr := (q.inPtr + len) % q.size }
    if n - len = 0 then some q
    else if q.inPtr ≠ 0 then none
    else some { q with bytes := q.copyin src len, inPtr := q.inPtr + len }

/-- How far `j` is from the place where the next byte goes. -/
def ahead (q : Queue) (j : Nat) : Nat := if q.inPtr ≤ j then j - q.inPtr else j + (q.size - q.inPtr)

theorem enqueueLoop_eq (inside : q.inPtr < q.size) (fits : n < q.size) :
    enqueueLoop src n i q = { q with
      bytes := fun j => if j < q.size ∧ q.ahead j < n then src (i + q.ahead j) else q.bytes j
      inPtr := if q.inPtr + n < q.size then q.inPtr + n else q.inPtr + n - q.size } := by
  induction n generalizing i q with
  | zero => simp [enqueueLoop, inside]
  | succ n ih =>
    rw [enqueueLoop, ih (by grind) (by grind)]
    unfold ahead
    congr 1
    · funext j
      grind [update_apply]
    · grind

/-- The bytes behind the end of the queue stay as they are, and the rest is as `Enqueue` leaves it. -/
def Agrees (src : Buffer) (n : Nat) (q : Queue) : Prop :=
  ∃ q', q.enqueueFromUser src n = some q' ∧ q.enqueue src n = some q' ∧
    ∀ j, q.size ≤ j → q'.bytes j = q.bytes j

theorem enqueueFromUser_agrees (src : Buffer) (n : Nat) (q : Queue) (inside : q.inPtr < q.size)
    (outside : q.outPtr < q.size) (some_ : 1 ≤ n) (room : n ≤ q.bytesFree) :
    Agrees src n q ↔ n ≤ q.size - q.inPtr ∨
      n = 2 * (q.size - q.inPtr) ∧ ∀ i < q.size - q.inPtr, src i = src (q.size - q.inPtr + i) := by
  have fits : n < q.size := by grind [bytesFree]
  unfold Agrees enqueue enqueueFromUser
  simp only [if_neg (show n ≠ 0 by omega), enqueueLoop_eq inside fits, Nat.zero_add]
  by_cases short : n ≤ q.size - q.inPtr
  · rw [Nat.min_eq_left short, if_pos (Nat.sub_self n)]
    refine iff_of_true ⟨_, rfl, congrArg some ?_, ?_⟩ (.inl short)
    · unfold copyin ahead
      congr 1
      · funext j
        grind
      · split
        · next lt => rw [Nat.mod_eq_of_lt lt]
        · next last => rw [show q.inPtr + n = q.size by omega, Nat.mod_self, Nat.sub_self]
    · intro j beyond
      grind [copyin]
  · have wrapped : (q.inPtr + (q.size - q.inPtr)) % q.size = 0 := by
      rw [Nat.add_sub_of_le (Nat.le_of_lt inside), Nat.mod_self]
    rw [Nat.min_eq_right (by omega), if_neg (by omega), wrapped, if_neg (not_not.mpr rfl)]
    constructor
    · rintro ⟨_, ⟨⟩, same, -⟩
      have same := Option.some.inj same
      have place := congrArg inPtr same
      have bytes := congrArg Queue.bytes same
      have twice : n = 2 * (q.size - q.inPtr) := by grind
      refine .inr ⟨twice, fun i lt => ?_⟩
      have here := congrFun bytes i
      grind [copyin, ahead]
    · rintro (le | ⟨twice, halves⟩)
      · exact absurd le short
      · refine ⟨_, rfl, congrArg some ?_, ?_⟩
        · unfold copyin ahead
          congr 1
          · funext j
            grind
          · grind
        · intro j beyond
          grind [copyin]

theorem enqueueFromUser_agrees_end : Agrees UInt8.ofNat 2 ⟨zeros, 5, 3, 3⟩ :=
  (enqueueFromUser_agrees UInt8.ofNat 2 ⟨zeros, 5, 3, 3⟩ (by decide) (by decide) (by decide)
    (by decide)).mpr (.inl (by decide))

/- What goes to the start of the queue is the first block again, in its whole length. -/
theorem enqueueFromUser_repeats :
    (enqueueFromUser UInt8.ofNat 3 ⟨zeros, 5, 3, 3⟩).map (fun q => (q.inPtr, q.bytes 0)) = some (2, 0) ∧
    (enqueue UInt8.ofNat 3 ⟨zeros, 5, 3, 3⟩).map (fun q => (q.inPtr, q.bytes 0)) = some (1, 2) := by
  decide

end Queue

end UvaOs.Snd
