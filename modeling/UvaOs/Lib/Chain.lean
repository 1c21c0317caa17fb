import Mathlib

/-! Lists that are threaded through their elements: each element holds the next one, and zero
ends the list. -/
namespace UvaOs

open List

variable {next next' : Nat → Nat} {head a : Nat} {l l' : List Nat}

/-- The elements from `head` on are those of `l`. -/
def Chain (next : Nat → Nat) : Nat → List Nat → Prop
  | head, [] => head = 0
  | head, a :: l => head = a ∧ a ≠ 0 ∧ Chain next (next a) l

theorem Chain.congr (h : Chain next head l) (same : ∀ x ∈ l, next' x = next x) :
    Chain next' head l := by
  induction l generalizing head with
  | nil => exact h
  | cons a l ih =>
    refine ⟨h.1, h.2.1, ?_⟩
    rw [same a mem_cons_self]
    exact ih h.2.2 (fun x mem => same x (mem_cons_of_mem a mem))

theorem Chain.push (h : Chain next head l) (pos : a ≠ 0) (link : next' a = head)
    (same : ∀ x ∈ l, next' x = next x) : Chain next' a (a :: l) :=
  ⟨rfl, pos, link ▸ h.congr same⟩

theorem Chain.pop (h : Chain next head l) (pos : head ≠ 0) :
    ∃ rest, l = head :: rest ∧ Chain next (next head) rest := by
  cases l with
  | nil => exact absurd h pos
  | cons a rest =>
    obtain ⟨rfl, _, tail⟩ := h
    exact ⟨rest, rfl, tail⟩

theorem Chain.unique (h : Chain next head l) (h' : Chain next head l') : l = l' := by
  induction l generalizing head l' with
  | nil =>
    cases l' with
    | nil => rfl
    | cons b l' => exact absurd (h'.1.symm.trans h) h'.2.1
  | cons a l ih =>
    cases l' with
    | nil => exact absurd (h.1.symm.trans h') h.2.1
    | cons b l' =>
      obtain rfl : a = b := h.1.symm.trans h'.1
      rw [ih h.2.2 h'.2.2]

theorem Chain.suffix {u v : List Nat} (h : Chain next head (u ++ a :: v)) :
    Chain next a (a :: v) := by
  induction u generalizing head with
  | nil =>
    obtain ⟨rfl, rest⟩ := h
    exact ⟨rfl, rest⟩
  | cons b u ih => exact ih h.2.2

theorem Chain.nodup (h : Chain next head l) : l.Nodup := by
  induction l generalizing head with
  | nil => exact .nil
  | cons a l ih =>
    refine nodup_cons.mpr ⟨?_, ih h.2.2⟩
    intro again
    obtain ⟨u, v, rfl⟩ := append_of_mem again
    have whole : Chain next a (a :: (u ++ a :: v)) := ⟨rfl, h.2⟩
    have rest := h.2.2.suffix
    have same := congrArg List.length (whole.unique rest)
    simp only [length_cons, length_append] at same
    omega

end UvaOs
