import Mathlib

/-! Byte buffers as functions from offsets, with the little-endian four-byte
words a cast to an unsigned array reads from them, and the copy of a list of
bytes into a buffer. -/
namespace Bytes

open List

variable {b : Buffer} {src : List UInt8} {i j off : Nat}

/-- A buffer; only the offsets below its length are ever read. -/
abbrev Buffer : Type := Nat → UInt8

def zeros : Buffer := fun _ => 0

def word (b : Buffer) (j : Nat) : Nat :=
  (b (4 * j)).toNat + 256 * (b (4 * j + 1)).toNat + 65536 * (b (4 * j + 2)).toNat +
    16777216 * (b (4 * j + 3)).toNat

def setWord (b : Buffer) (j v : Nat) : Buffer := fun i =>
  if i / 4 = j then UInt8.ofNat (v / 256 ^ (i % 4)) else b i

def short (b : Buffer) (j : Nat) : Nat := (b (2 * j)).toNat + 256 * (b (2 * j + 1)).toNat

def setShort (b : Buffer) (j v : Nat) : Buffer := fun i =>
  if i / 2 = j then UInt8.ofNat (v / 256 ^ (i % 2)) else b i

/-- Bit `i` of the buffer, and the buffer with that bit set. -/
def bit (b : Buffer) (i : Nat) : Bool := (b (i / 8)).toNat.testBit (i % 8)

def setBit (b : Buffer) (i : Nat) : Buffer :=
  Function.update b (i / 8) (b (i / 8) ||| UInt8.ofNat (2 ^ (i % 8)))

/-- Copy a list of bytes into the buffer at an offset. -/
def blit (b : Buffer) (off : Nat) (src : List UInt8) : Buffer := fun i =>
  if off ≤ i then (src[i - off]?).getD (b i) else b i

def slice (b : Buffer) (off n : Nat) : List UInt8 := (List.range n).map (fun i => b (off + i))

theorem word_zeros (j : Nat) : word zeros j = 0 := rfl

theorem setWord_byte (b : Buffer) (j v k : Nat) (h : k < 4) :
    (setWord b j v (4 * j + k)).toNat = v / 256 ^ k % 256 := by
  have quot : (4 * j + k) / 4 = j := by omega
  have rem : (4 * j + k) % 4 = k := by omega
  simp only [setWord, quot, rem, if_pos]
  exact UInt8.toNat_ofNat

theorem word_setWord_same (b : Buffer) (j v : Nat) (h : v < 2 ^ 32) :
    word (setWord b j v) j = v := by
  have b0 := setWord_byte b j v 0 (by decide)
  have b1 := setWord_byte b j v 1 (by decide)
  have b2 := setWord_byte b j v 2 (by decide)
  have b3 := setWord_byte b j v 3 (by decide)
  simp only [Nat.add_zero] at b0
  simp only [word, b0, b1, b2, b3]
  omega

theorem word_setWord_ne (b : Buffer) (v : Nat) (h : i ≠ j) : word (setWord b j v) i = word b i := by
  have q0 : ¬ 4 * i / 4 = j := by omega
  have q1 : ¬ (4 * i + 1) / 4 = j := by omega
  have q2 : ¬ (4 * i + 2) / 4 = j := by omega
  have q3 : ¬ (4 * i + 3) / 4 = j := by omega
  simp only [word, setWord, if_neg q0, if_neg q1, if_neg q2, if_neg q3]

theorem setWord_zero (h : word b j = 0) : setWord b j 0 = b := by
  unfold word at h
  funext i
  unfold setWord
  split
  · rename_i hi
    have bytes : ∀ k, k < 4 → (b (4 * j + k)).toNat = 0 := by grind
    have pos : i = 4 * j + i % 4 := by omega
    have zero := bytes (i % 4) (Nat.mod_lt _ (by decide))
    rw [← pos] at zero
    apply UInt8.toNat_inj.mp
    simp [zero]
  · rfl

theorem bit_zeros (i : Nat) : bit zeros i = false := by simp [bit, zeros]

theorem bit_setBit (b : Buffer) (i j : Nat) : bit (setBit b j) i = (decide (i = j) || bit b i) := by
  have small : (UInt8.ofNat (2 ^ (j % 8))).toNat = 2 ^ (j % 8) := by
    have lt : 2 ^ (j % 8) < 2 ^ 8 := Nat.pow_lt_pow_right (by decide) (Nat.mod_lt _ (by decide))
    exact (UInt8.toNat_ofNat).trans (Nat.mod_eq_of_lt lt)
  unfold bit setBit
  by_cases same : i / 8 = j / 8
  · rw [same, Function.update_self, UInt8.toNat_or, small, Nat.testBit_or, Nat.testBit_two_pow,
      Bool.or_comm]
    congr 1
    exact decide_eq_decide.mpr (by omega)
  · grind

def ofWords (f : Nat → Nat) : Buffer := fun i => UInt8.ofNat (f (i / 4) / 256 ^ (i % 4))

theorem word_ofWords (f : Nat → Nat) (j : Nat) (h : f j < 2 ^ 32) : word (ofWords f) j = f j := by
  have same : word (ofWords f) j = word (setWord (ofWords f) j (f j)) j := by
    have bytes : setWord (ofWords f) j (f j) = ofWords f := by
      funext i
      unfold setWord ofWords
      split
      · rename_i e
        rw [e]
      · rfl
    rw [bytes]
  rw [same, word_setWord_same _ _ _ h]

/-- The value of the `k` bytes from `a` on, the lowest one first. -/
def peek (b : Buffer) (a : Nat) : Nat → Nat
  | 0 => 0
  | k + 1 => (b a).toNat + 256 * peek b (a + 1) k

/-- The buffer with a value of `k` bytes stored from `a` on. -/
def poke (b : Buffer) (a : Nat) : Nat → Nat → Buffer
  | 0, _ => b
  | k + 1, v => poke (Function.update b a (UInt8.ofNat v)) (a + 1) k (v / 256)

theorem peek_congr {c : Buffer} (k : Nat) : ∀ a, (∀ i, a ≤ i → i < a + k → c i = b i) →
    peek c a k = peek b a k := by
  induction k with
  | zero => exact fun _ _ => rfl
  | succ k ih =>
    intro a same
    rw [peek, peek, same a (Nat.le_refl a) (by omega),
      ih (a + 1) (fun i lo hi => same i (by omega) (by omega))]

theorem poke_outside (k : Nat) : ∀ (b : Buffer) (a v i : Nat), i < a ∨ a + k ≤ i →
    poke b a k v i = b i := by
  induction k with
  | zero => exact fun _ _ _ _ _ => rfl
  | succ k ih =>
    intro b a v i out
    rw [poke, ih _ _ _ _ (by omega), Function.update_of_ne (by omega)]

theorem peek_poke (k : Nat) : ∀ (b : Buffer) (a v : Nat), v < 256 ^ k →
    peek (poke b a k v) a k = v := by
  induction k with
  | zero =>
    intro b a v small
    have zero : v = 0 := by omega
    rw [zero]
    rfl
  | succ k ih =>
    intro b a v small
    rw [Nat.pow_succ] at small
    have first : poke (Function.update b a (UInt8.ofNat v)) (a + 1) k (v / 256) a = UInt8.ofNat v := by
      rw [poke_outside k _ _ _ _ (.inl (Nat.lt_succ_self a)), Function.update_self]
    rw [peek, poke, first, ih _ _ _ (by omega)]
    have low : (UInt8.ofNat v).toNat = v % 256 := UInt8.toNat_ofNat
    omega

theorem blit_inside (lo : off ≤ i)
    (hi : i - off < src.length) : blit b off src i = src[i - off] := by
  simp [blit, lo, hi]

theorem blit_outside (h : i < off ∨ off + src.length ≤ i) : blit b off src i = b i := by
  unfold blit
  split
  · grind
  · rfl

@[simp] theorem length_slice (b : Buffer) (off n : Nat) : (slice b off n).length = n := by
  simp [slice]

/-- Replace the bytes from `off` on by `new`, extending the string if needed. -/
def splice (old : List UInt8) (off : Nat) (new : List UInt8) : List UInt8 :=
  old.take off ++ new ++ old.drop (off + new.length)

theorem getElem?_splice (old new : List UInt8) (h : off ≤ old.length) (i : Nat) :
    (splice old off new)[i]? = if i < off then old[i]? else
      if i < off + new.length then new[i - off]? else old[i]? := by
  unfold splice
  have len : (old.take off).length = off := by
    rw [length_take]
    omega
  rw [append_assoc, getElem?_append, len]
  split
  · rename_i lt
    rw [getElem?_take, if_pos lt]
  · grind

theorem length_splice (old new : List UInt8) (h : off ≤ old.length) :
    (splice old off new).length = max old.length (off + new.length) := by
  unfold splice
  simp only [length_append, length_take, length_drop]
  omega

@[simp] theorem splice_nil (old : List UInt8) (off : Nat) : splice old off [] = old := by
  simp [splice]

theorem splice_end (old new : List UInt8) : splice old old.length new = old ++ new := by
  rw [splice, take_length, drop_of_length_le (Nat.le_add_right ..), append_nil]

theorem splice_splice (old a b : List UInt8) (h : off ≤ old.length) :
    splice (splice old off a) (off + a.length) b = splice old off (a ++ b) := by
  have inside : off + a.length ≤ (splice old off a).length := by
    rw [length_splice old a h]
    omega
  apply ext_getElem?
  intro i
  rw [getElem?_splice _ _ inside, getElem?_splice _ _ h, getElem?_splice _ _ h,
    length_append]
  by_cases first : i < off
  · rw [if_pos (by omega), if_pos first, if_pos first]
  · grind

end Bytes
