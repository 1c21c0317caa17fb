import Mathlib

/-! A table of slots, each free or holding a key with its value, used as a finite map. What the
table holds is compared with the operations it went through. -/
namespace UvaOs.Slots

variable {K V : Type}

def Distinct (f : Nat → Option (K × V)) : Prop :=
  ∀ i j k v w, f i = some (k, v) → f j = some (k, w) → i = j

inductive Event (K V : Type) where
  | put (k : K) (v : V)
  | clear (k : K)

/-- What the last of the operations, which come latest first, left for a key. -/
def value [DecidableEq K] : List (Event K V) → K → Option V
  | [], _ => none
  | .put k v :: past, q => if q = k then some v else value past q
  | .clear k :: past, q => if q = k then none else value past q

theorem update_other {f : Nat → Option (K × V)} {i : Nat} {x : Option (K × V)} {k q : K} {w : V}
    (old : ∀ p v, f i = some (p, v) → p = k) (new : ∀ p v, x = some (p, v) → p = k) (ne : q ≠ k)
    (j : Nat) : Function.update f i x j = some (q, w) ↔ f j = some (q, w) := by
  by_cases e : j = i
  · grind
  · rw [Function.update_of_ne e]

section Holds

variable [DecidableEq K] {f : Nat → Option (K × V)} {past : List (Event K V)} {i : Nat} {k : K} {v : V}

structure Holds (f : Nat → Option (K × V)) (past : List (Event K V)) : Prop where
  distinct : Distinct f
  agrees : ∀ k v, (∃ i, f i = some (k, v)) ↔ value past k = some v

theorem Holds.empty {f : Nat → Option (K × V)} (none : ∀ i, f i = none) : Holds f [] := by
  constructor
  · intro i j k v w here
    rw [none i] at here
    cases here
  · intro k v
    refine ⟨?_, fun h => by cases h⟩
    rintro ⟨i, here⟩
    rw [none i] at here
    cases here

theorem Holds.absent (h : Holds f past) (none : value past k = none) (i : Nat) (v : V) :
    f i ≠ some (k, v) := by
  intro here
  have held := (h.agrees k v).mp ⟨i, here⟩
  rw [none] at held
  cases held

theorem Holds.update {op : Event K V} {x : Option (K × V)} (h : Holds f past)
    (old : ∀ p v, f i = some (p, v) → p = k) (new : ∀ p v, x = some (p, v) → p = k)
    (others : ∀ q, q ≠ k → value (op :: past) q = value past q)
    (only : ∀ j w, Function.update f i x j = some (k, w) → j = i)
    (own : ∀ w, x = some (k, w) ↔ value (op :: past) k = some w) :
    Holds (Function.update f i x) (op :: past) := by
  constructor
  · intro a b q v w atA atB
    by_cases e : q = k
    · subst e
      exact (only a v atA).trans (only b w atB).symm
    · exact h.distinct a b q v w ((update_other old new e a).mp atA)
        ((update_other old new e b).mp atB)
  · intro q w
    by_cases e : q = k
    · subst e
      rw [← own w]
      constructor
      · grind
      · intro here
        exact ⟨i, by rw [Function.update_self, here]⟩
    · rw [others q e, ← h.agrees q w]
      exact exists_congr (fun j => update_other old new e j)

theorem Holds.put (h : Holds f past) (absent : value past k = none) (free : f i = none) (v : V) :
    Holds (Function.update f i (some (k, v))) (.put k v :: past) := by
  refine h.update (k := k) ?_ ?_ (fun q ne => if_neg ne) ?_ ?_
  · intro p w here
    rw [free] at here
    cases here
  · intro p w e
    cases e
    rfl
  · grind [h.absent]
  · intro w
    rw [value, if_pos rfl, Option.some_inj, Option.some_inj, Prod.mk.injEq]
    exact and_iff_right rfl

theorem Holds.clear (h : Holds f past) (here : f i = some (k, v)) :
    Holds (Function.update f i none) (.clear k :: past) := by
  refine h.update (k := k) ?_ (fun p w e => by cases e) (fun q ne => if_neg ne) ?_ ?_
  · intro p w here'
    rw [here] at here'
    cases here'
    rfl
  · intro j w still
    by_contra ne
    rw [Function.update_of_ne ne] at still
    exact ne (h.distinct j i k w v still here)
  · intro w
    rw [value, if_pos rfl]
    exact ⟨nofun, nofun⟩

end Holds

end UvaOs.Slots
