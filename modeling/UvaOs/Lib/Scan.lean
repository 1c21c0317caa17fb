import Mathlib

/-! Pointers into a buffer: the elements between two of them, and loops that move one of them
as long as a condition holds. -/
namespace Scan

open List

variable {α : Type} (f : Nat → α) (p : α → Bool)

/-- The elements from `s` up to, but not including, `e`. -/
def segment (s e : Nat) : List α := (List.range' s (e - s)).map f

/-- `while (s < e && p(*s)) s++`, for the `n` elements before `e`. -/
def scan : Nat → Nat → Nat
  | 0, s => s
  | n + 1, s => if p (f s) then scan n (s + 1) else s

/-- `while (s < e && p(*s)) s++`. -/
def skip (e s : Nat) : Nat := scan f p (e - s) s

section

variable {f p} {s e m : Nat}

theorem segment_empty (past : e ≤ s) : segment f s e = [] := by
  unfold segment
  rw [Nat.sub_eq_zero_of_le past]
  rfl

theorem segment_cons (inside : s < e) : segment f s e = f s :: segment f (s + 1) e := by
  unfold segment
  obtain ⟨k, rfl⟩ := Nat.exists_eq_add_of_lt inside
  rw [show s + k + 1 - s = k + 1 by omega, show s + k + 1 - (s + 1) = k by omega, range'_succ]
  rfl

theorem length_segment : (segment f s e).length = e - s := by
  simp [segment]

theorem segment_append (first : s ≤ m) (second : m ≤ e) :
    segment f s m ++ segment f m e = segment f s e := by
  induction first using Nat.decreasingInduction with
  | self => rw [segment_empty (Nat.le_refl m), nil_append]
  | of_succ k below ih =>
    rw [segment_cons below, segment_cons (Nat.lt_of_lt_of_le below second), cons_append, ih]

theorem mem_segment {a : α} (h : a ∈ segment f s e) : ∃ i, s ≤ i ∧ i < e ∧ f i = a := by
  obtain ⟨i, range, same⟩ := mem_map.mp h
  have := mem_range'_1.mp range
  exact ⟨i, by omega, by omega, same⟩

theorem segment_congr {g : Nat → α} (same : ∀ i, s ≤ i → i < e → f i = g i) :
    segment f s e = segment g s e := by
  refine map_congr_left fun i range => ?_
  have := mem_range'_1.mp range
  exact same i (by omega) (by omega)

theorem skip_past (past : e ≤ s) : skip f p e s = s := by
  unfold skip
  rw [Nat.sub_eq_zero_of_le past]
  rfl

theorem skip_step (inside : s < e) : skip f p e s = if p (f s) then skip f p e (s + 1) else s := by
  unfold skip
  obtain ⟨k, rfl⟩ := Nat.exists_eq_add_of_lt inside
  rw [show s + k + 1 - s = k + 1 by omega, show s + k + 1 - (s + 1) = k by omega]
  rfl

theorem skip_spec (inside : s ≤ e) :
    s ≤ skip f p e s ∧ skip f p e s ≤ e ∧ (∀ i, s ≤ i → i < skip f p e s → p (f i) = true) ∧
      (skip f p e s < e → p (f (skip f p e s)) = false) := by
  induction inside using Nat.decreasingInduction with
  | self =>
    rw [skip_past (Nat.le_refl e)]
    exact ⟨Nat.le_refl e, Nat.le_refl e, fun i low high => by omega, fun more => by omega⟩
  | of_succ k below ih =>
    rw [skip_step below]
    split
    · grind
    · grind

theorem segment_skip (inside : s ≤ e) :
    segment f (skip f p e s) e = (segment f s e).dropWhile p := by
  induction inside using Nat.decreasingInduction with
  | self =>
    rw [skip_past (Nat.le_refl e), segment_empty (Nat.le_refl e)]
    rfl
  | of_succ k below ih =>
    grind [skip_step, segment_cons, dropWhile_cons_of_pos, dropWhile_cons_of_neg]

end

end Scan
