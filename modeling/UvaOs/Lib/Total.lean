import Mathlib

/-! Ledgers over a table.
Each entry of a table of fixed length carries a weight, and a counter kept
elsewhere is meant to equal the sum of the weights. The lemmas say how the sum
moves when entries change, and what it says about a single entry. -/

/-- The sum of the weights `w` of the first `n` entries of a table. -/
def total {α : Type} (n : Nat) (w : α → Int) (table : Nat → α) : Int :=
  ∑ k ∈ Finset.range n, w (table k)

section

variable {α : Type} {n : Nat} {w : α → Int} {table table' : Nat → α}

theorem total_congr {v : α → Int} (same : ∀ k < n, w (table' k) = v (table k)) :
    total n w table' = total n v table :=
  Finset.sum_congr rfl fun k hk => same k (Finset.mem_range.mp hk)

theorem total_update {k : Nat} (hk : k < n) (a : α) :
    total n w (Function.update table k a) = total n w table + (w a - w (table k)) := by
  have mem : k ∈ Finset.range n := Finset.mem_range.mpr hk
  have comp : ∀ j, w (Function.update table k a j) = Function.update (fun j => w (table j)) k (w a) j := by
    grind
  unfold total
  rw [Finset.sum_congr rfl (fun j _ => comp j), Finset.sum_update_of_mem mem,
    ← Finset.add_sum_erase _ _ mem, Finset.sdiff_singleton_eq_erase]
  omega

theorem total_nonneg (nonneg : ∀ k < n, 0 ≤ w (table k)) : 0 ≤ total n w table :=
  Finset.sum_nonneg fun k hk => nonneg k (Finset.mem_range.mp hk)

theorem weight_le_total {k : Nat} (hk : k < n) (nonneg : ∀ j < n, 0 ≤ w (table j)) :
    w (table k) ≤ total n w table :=
  Finset.single_le_sum (f := fun j => w (table j))
    (fun j hj => nonneg j (Finset.mem_range.mp hj)) (Finset.mem_range.mpr hk)

theorem eq_zero_of_total {k : Nat} (hk : k < n) (nonneg : ∀ j < n, 0 ≤ w (table j))
    (zero : total n w table = 0) : w (table k) = 0 := by
  have le := weight_le_total hk nonneg
  have ge := nonneg k hk
  omega

theorem total_zero (zero : ∀ k < n, w (table k) = 0) : total n w table = 0 :=
  Finset.sum_eq_zero fun k hk => zero k (Finset.mem_range.mp hk)

end
