import UvaOs.Gfx.Model

/-! The rows of a surface on the screen: the inner loops of `sf_composite`, kernel/sf.c. -/
namespace UvaOs.Sf

open Bytes (Buffer)
open Function (update update_self update_of_ne)

/-! Transparent rows -/

/-- What is stored in `px0[k]`; the products are of type `unsigned int`. -/
def blend (t1 a b : BitVec 32) : BitVec 32 :=
  let t0 := 100 - t1
  (a * t0 + b * t1) / 100

def blendRow (t1 : BitVec 32) (px1 : Nat → BitVec 32) : Nat → (Nat → BitVec 32) → Nat → BitVec 32
  | 0, px0 => px0
  | k + 1, px0 =>
    let px0 := blendRow t1 px1 k px0
    update px0 k (blend t1 (px0 k) (px1 k))

def channel (c : Nat) (p : BitVec 32) : Nat := p.toNat / 256 ^ c % 256

def weighted (t c : Nat) (a b : BitVec 32) : Nat := channel c a * (100 - t) + channel c b * t

theorem blendRow_apply (t1 : BitVec 32) (px1 px0 : Nat → BitVec 32) (ww k : Nat) :
    blendRow t1 px1 ww px0 k = if k < ww then blend t1 (px0 k) (px1 k) else px0 k := by
  induction ww with
  | zero => rfl
  | succ ww ih =>
    rw [blendRow]
    grind

theorem channels (p : BitVec 32) : p.toNat =
    channel 0 p + 256 * channel 1 p + 65536 * channel 2 p + 16777216 * channel 3 p := by
  have := p.isLt
  simp only [channel]
  omega

theorem channels_iff {p : BitVec 32} {q : Nat → Nat} (byte : ∀ c, q c ≤ 255) :
    (∀ c < 4, channel c p = q c) ↔
      p.toNat = q 0 + 256 * q 1 + 65536 * q 2 + 16777216 * q 3 := by
  constructor
  · intro each
    rw [channels p, each 0 (by decide), each 1 (by decide), each 2 (by decide), each 3 (by decide)]
  · intro eq c lt
    have b0 := byte 0
    have b1 := byte 1
    have b2 := byte 2
    have b3 := byte 3
    obtain rfl | rfl | rfl | rfl : c = 0 ∨ c = 1 ∨ c = 2 ∨ c = 3 := by omega
    all_goals
      simp only [channel, eq]
      omega

theorem weighted_le {t : Nat} (small : t < 100) (c : Nat) (a b : BitVec 32) :
    weighted t c a b ≤ 25500 := by
  have byte : ∀ p : BitVec 32, channel c p ≤ 255 := fun p =>
    Nat.le_of_lt_succ (Nat.mod_lt _ (by decide))
  have first := Nat.mul_le_mul_right (100 - t) (byte a)
  have second := Nat.mul_le_mul_right t (byte b)
  unfold weighted
  omega

section

variable {t1 : BitVec 32} (small : t1.toNat < 100) (a b : BitVec 32)

theorem weighted_sum (t : Nat) : a.toNat * (100 - t) + b.toNat * t = weighted t 0 a b +
    256 * weighted t 1 a b + 65536 * weighted t 2 a b + 16777216 * weighted t 3 a b := by
  rw [channels a, channels b]
  unfold weighted
  ring

include small

theorem blend_toNat : (blend t1 a b).toNat =
    (a.toNat * (100 - t1.toNat) + b.toNat * t1.toNat) % 2 ^ 32 / 100 := by
  have rest : (100 - t1).toNat = 100 - t1.toNat := by bv_omega
  unfold blend
  rw [BitVec.toNat_udiv, BitVec.toNat_add, BitVec.toNat_mul, BitVec.toNat_mul, rest, ← Nat.add_mod]
  rfl

theorem blend_channels : (∀ c < 4, channel c (blend t1 a b) = weighted t1.toNat c a b / 100) ↔
    a.toNat * (100 - t1.toNat) + b.toNat * t1.toNat < 2 ^ 32 ∧
      ∀ c < 4, 0 < c → 100 ∣ weighted t1.toNat c a b := by
  have bound := fun c => weighted_le small c a b
  rw [channels_iff fun c => Nat.div_le_div_right (bound c), blend_toNat small a b, weighted_sum]
  have b0 := bound 0
  have b1 := bound 1
  have b2 := bound 2
  have b3 := bound 3
  generalize weighted t1.toNat = s at *
  constructor
  · intro eq
    refine ⟨by omega, fun c lt pos => ?_⟩
    obtain rfl | rfl | rfl : c = 1 ∨ c = 2 ∨ c = 3 := by omega
    all_goals omega
  · rintro ⟨fits, even⟩
    have e1 := even 1 (by decide) (by decide)
    have e2 := even 2 (by decide) (by decide)
    have e3 := even 3 (by decide) (by decide)
    omega

end

/-- A pixel is mixed channel by channel if and only if the whole sum fits in 32 bits and no
channel but the lowest one leaves a remainder. -/
theorem transparent_row (t1 : BitVec 32) (small : t1.toNat < 100) (ww : Nat)
    (px0 px1 : Nat → BitVec 32) :
    (∀ k < ww, ∀ c < 4, channel c (blendRow t1 px1 ww px0 k) =
        weighted t1.toNat c (px0 k) (px1 k) / 100) ↔
      ∀ k < ww, (px0 k).toNat * (100 - t1.toNat) + (px1 k).toNat * t1.toNat < 2 ^ 32 ∧
        ∀ c < 4, 0 < c → 100 ∣ weighted t1.toNat c (px0 k) (px1 k) := by
  refine forall_congr' fun k => forall_congr' fun lt => ?_
  rw [blendRow_apply, if_pos lt]
  exact blend_channels small (px0 k) (px1 k)

theorem transparent_row_half : channel 0 (blendRow 50 (fun _ => 0x040404) 1 (fun _ => 0x020202) 0) = 3 :=
  (transparent_row 50 (by decide) 1 (fun _ => 0x020202) (fun _ => 0x040404)).mpr
    (fun _ _ => ⟨by decide, by decide⟩) 0 (by decide) 0 (by decide)

/- Half of a channel goes into the one below it. What is not to be seen, or is there already, does
not stay as it is. -/
theorem transparent_mixed : blend 50 0x100 0 = 0x80 ∧ blend 0 0xffffffff 0 ≠ 0xffffffff ∧
    blend 50 0xffffffff 0xffffffff ≠ 0xffffffff := by decide

/-! Opaque rows -/

variable {d s n k : Nat} {m : Buffer}

/-- The memory with `n` bytes from `s` on at `d`. -/
def copied (d s n : Nat) (m : Buffer) : Buffer :=
  fun a => if d ≤ a ∧ a < d + n then m (s + (a - d)) else m a

/-- kernel/utils.S: words of 8 bytes, until nothing is left in `x2`. -/
def memcpyAligned (x0 x1 x2 : Nat) (m : Buffer) : Buffer :=
  let m := copied x0 x1 8 m
  if 8 < x2 then memcpyAligned (x0 + 8) (x1 + 8) (x2 - 8) m else m
termination_by x2

/-- The two loops of `memmove`, kernel/string.c. -/
def forward : Nat → Nat → Nat → Buffer → Buffer
  | 0, _, _, m => m
  | n + 1, d, s, m => forward n (d + 1) (s + 1) (update m d (m s))

def backward : Nat → Nat → Nat → Buffer → Buffer
  | 0, _, _, m => m
  | n + 1, d, s, m => backward n (d - 1) (s - 1) (update m (d - 1) (m (s - 1)))

def memcpy (dst src n : Nat) (m : Buffer) : Buffer :=
  if n = 0 then m
  else if src < dst ∧ src + n > dst then backward n (dst + n) (src + n) m
  else forward n dst src m

/-- `ww * PIXELSIZE` after clipping. -/
def rowBytes (screen r : Region) : Nat := (umin r.w (screen.w - r.x) * PIXELSIZE).toNat

def Fast (r : Region) (p0 p1 : Nat) : Prop :=
  p0 % 8 = 0 ∧ p1 % 8 = 0 ∧ (r.w * PIXELSIZE).toInt % 8 = 0

instance (r : Region) (p0 p1 : Nat) : Decidable (Fast r p0 p1) := inferInstanceAs (Decidable (_ ∧ _))

def copyRow (screen r : Region) (p0 p1 : Nat) (m : Buffer) : Buffer :=
  if Fast r p0 p1 then memcpyAligned p0 p1 (rowBytes screen r) m
  else memcpy p0 p1 (rowBytes screen r) m

@[simp] theorem copied_zero : copied d s 0 m = m := funext fun a => if_neg (by omega)

theorem copied_add (apart : d + (k + n) ≤ s ∨ s + (k + n) ≤ d) :
    copied (d + k) (s + k) n (copied d s k m) = copied d s (k + n) m := by
  funext a
  unfold copied
  grind

theorem forward_eq (apart : d + n ≤ s ∨ s + n ≤ d) : forward n d s m = copied d s n m := by
  induction n generalizing d s m with
  | zero => rw [forward, copied_zero]
  | succ n ih =>
    have first : update m d (m s) = copied d s 1 m := by
      funext a
      grind [copied, Function.update_apply]
    rw [forward, first, ih (by omega), copied_add (by omega), Nat.add_comm]

theorem memcpy_eq (apart : d + n ≤ s ∨ s + n ≤ d) : memcpy d s n m = copied d s n m := by
  unfold memcpy
  split
  · next none_ => rw [none_, copied_zero]
  · rw [if_neg (by omega), forward_eq apart]

theorem memcpyAligned_eq (apart : d + (n + 8) ≤ s ∨ s + (n + 8) ≤ d) :
    memcpyAligned d s n m = copied d s (max 8 ((n + 7) / 8 * 8)) m := by
  fun_induction memcpyAligned d s n m with
  | case1 d s n m m' more ih =>
    rw [ih (by omega), copied_add (by omega)]
    congr 1
    omega
  | case2 d s n m m' last =>
    rw [show max 8 ((n + 7) / 8 * 8) = 8 by omega]

end UvaOs.Sf
