import Mathlib

/-! Lists that are threaded through their elements and end at a given one; at their first element
they are rings. -/
namespace UvaOs

open List

open Function (update update_self update_of_ne iterate_succ_apply iterate_succ_apply')

variable {α : Type} {next next' : α → α} {a z : α} {l m : List α}

/-- From `a` on come the elements of `l`, and then `z`. -/
def Linked (next : α → α) : α → List α → α → Prop
  | a, [], z => next a = z
  | a, b :: l, z => next a = b ∧ Linked next b l z

/-- A list whose first element is reached from elsewhere. -/
def Rest (next : α → α) : List α → α → Prop
  | [], _ => True
  | b :: l, z => Linked next b l z

theorem Linked.congr (h : Linked next a l z) (same : ∀ x ∈ a :: l, next' x = next x) :
    Linked next' a l z := by
  induction l generalizing a with
  | nil => exact (same a mem_cons_self).trans h
  | cons b l ih =>
    exact ⟨(same a mem_cons_self).trans h.1,
      ih h.2 (fun x member => same x (mem_cons_of_mem a member))⟩

theorem Rest.congr (h : Rest next l z) (same : ∀ x ∈ l, next' x = next x) : Rest next' l z := by
  cases l with
  | nil => exact h
  | cons b l => exact Linked.congr h same

theorem linked_append : Linked next a (l ++ m) z ↔ Linked next a l (m.headD z) ∧ Rest next m z := by
  induction l generalizing a with
  | nil =>
    cases m with
    | nil => exact ⟨fun h => ⟨h, trivial⟩, fun h => h.1⟩
    | cons b m => exact Iff.rfl
  | cons b l ih =>
    change next a = b ∧ Linked next b (l ++ m) z ↔ (next a = b ∧ Linked next b l _) ∧ _
    rw [ih, and_assoc]

theorem linked_head : Linked next a l z ↔ next a = l.headD z ∧ Rest next l z := by
  cases l with
  | nil => exact ⟨fun h => ⟨h, trivial⟩, fun h => h.1⟩
  | cons b l => exact Iff.rfl

theorem Linked.last (h : Linked next a l z) : next (l.getLastD a) = z := by
  induction l generalizing a with
  | nil => exact h
  | cons b l ih =>
    rw [getLastD_cons]
    exact ih h.2

theorem getLastD_mem (a : α) (l : List α) : l.getLastD a ∈ a :: l := by
  induction l generalizing a with
  | nil => exact mem_cons_self
  | cons b l ih =>
    rw [getLastD_cons]
    exact mem_cons_of_mem a (ih b)

theorem Linked.retarget [DecidableEq α] (h : Linked next a l z) (nodup : (a :: l).Nodup) (y : α) :
    Linked (update next (l.getLastD a) y) a l y := by
  induction l generalizing a with
  | nil => exact update_self ..
  | cons b l ih =>
    obtain ⟨notin, rest⟩ := nodup_cons.mp nodup
    rw [getLastD_cons]
    refine ⟨?_, ih h.2 rest⟩
    have other : a ≠ l.getLastD b := fun same => notin (same ▸ getLastD_mem b l)
    rw [update_of_ne other]
    exact h.1

theorem Linked.unlink [DecidableEq α] {b : α} (h : Linked next a (l ++ b :: m) z)
    (nodup : (a :: (l ++ b :: m)).Nodup) :
    Linked (update next (l.getLastD a) (next b)) a (l ++ m) z := by
  obtain ⟨lo, hi⟩ := linked_append.mp h
  obtain ⟨at_, rest⟩ := linked_head.mp hi
  have parts := nodup_append.mp (cons_append ▸ nodup)
  refine linked_append.mpr ⟨at_ ▸ lo.retarget parts.1 (next b), rest.congr (fun x member => ?_)⟩
  have other : l.getLastD a ≠ x :=
    parts.2.2 _ (getLastD_mem a l) x (mem_cons_of_mem b member)
  exact update_of_ne other.symm ..

theorem Linked.push [DecidableEq α] {b : α} (h : Linked next a l z) (nodup : (a :: l).Nodup)
    (new : b ∉ a :: l) : Linked (update (update next b (next a)) a b) a (b :: l) z := by
  obtain ⟨at_, rest⟩ := linked_head.mp h
  refine ⟨update_self .., linked_head.mpr ⟨?_, rest.congr (fun x member => ?_)⟩⟩ <;>
    grind [Function.update_apply]

theorem Linked.concat [DecidableEq α] {b : α} (h : Linked next a l z) (nodup : (a :: l).Nodup)
    (new : b ∉ a :: l) : Linked (update (update next b z) (l.getLastD a) b) a (l ++ [b]) z := by
  have others : ∀ x ∈ a :: l, update next b z x = next x :=
    fun x member => update_of_ne (ne_of_mem_of_not_mem member new) ..
  refine linked_append.mpr ⟨(h.congr others).retarget nodup b, ?_⟩
  have other : b ≠ l.getLastD a := fun same => new (same ▸ getLastD_mem a l)
  change update (update next b z) (l.getLastD a) b b = z
  rw [update_of_ne other, update_self]

theorem Linked.succ (h : Linked next a l z) {x : α} (member : x ∈ a :: l) :
    x = l.getLastD a ∨ ∃ u v, a :: l = u ++ x :: next x :: v := by
  induction l generalizing a with
  | nil => exact .inl (mem_singleton.mp member)
  | cons b l ih =>
    rcases mem_cons.mp member with rfl | later
    · exact .inr ⟨[], l, by rw [h.1]; rfl⟩
    · rcases ih h.2 later with last | ⟨u, v, rest⟩
      · exact .inl (by rw [getLastD_cons]; exact last)
      · exact .inr ⟨a :: u, v, by rw [rest]; rfl⟩

theorem Linked.split (h : Linked next a l z) {x : α} (member : x ∈ a :: l) (inner : next x ≠ z) :
    ∃ lo hi, l = lo ++ next x :: hi ∧ lo.getLastD a = x := by
  induction l generalizing a with
  | nil =>
    rw [mem_singleton.mp member] at inner
    exact absurd h inner
  | cons b l ih =>
    rcases mem_cons.mp member with rfl | later
    · exact ⟨[], l, by rw [h.1]; rfl, rfl⟩
    · obtain ⟨lo, hi, rfl, last⟩ := ih h.2 later
      exact ⟨b :: lo, hi, rfl, by rw [getLastD_cons]; exact last⟩

/-! Rings -/

theorem Linked.closed (h : Linked next a l a) {x : α} (member : x ∈ a :: l) : next x ∈ a :: l := by
  by_cases back : next x = a
  · rw [back]
    exact mem_cons_self
  · grind [h.split]

theorem Linked.reach (h : Linked next a l z) {x : α} (member : x ∈ a :: l) :
    ∃ k ≤ l.length, next^[k] a = x := by
  induction l generalizing a with
  | nil => exact ⟨0, Nat.le_refl 0, (mem_singleton.mp member).symm⟩
  | cons b l ih =>
    rcases mem_cons.mp member with rfl | later
    · exact ⟨0, Nat.zero_le _, rfl⟩
    · obtain ⟨k, bound, there⟩ := ih h.2 later
      refine ⟨k + 1, Nat.succ_le_succ bound, ?_⟩
      rw [iterate_succ_apply, h.1, there]

theorem Linked.leave (h : Linked next a l z) {x : α} (member : x ∈ a :: l) :
    ∃ k ≤ l.length + 1, next^[k] x = z := by
  induction l generalizing a x with
  | nil => exact ⟨1, Nat.le_refl 1, by rw [mem_singleton.mp member]; exact h⟩
  | cons b l ih =>
    rcases mem_cons.mp member with rfl | later
    · obtain ⟨k, bound, there⟩ := ih h.2 mem_cons_self
      refine ⟨k + 1, Nat.succ_le_succ bound, ?_⟩
      rw [iterate_succ_apply, h.1, there]
    · obtain ⟨k, bound, there⟩ := ih h.2 later
      exact ⟨k, Nat.le_succ_of_le bound, there⟩

theorem Linked.around (h : Linked next a l a) {x y : α} (hx : x ∈ a :: l) (hy : y ∈ a :: l) :
    ∃ k ≤ 2 * l.length + 1, next^[k] x = y := by
  obtain ⟨i, first, there⟩ := h.leave hx
  obtain ⟨j, second, here⟩ := h.reach hy
  refine ⟨j + i, by omega, ?_⟩
  rw [Function.iterate_add_apply, there, here]

theorem Linked.pred (h : Linked next a l a) {x : α} (hx : x ∈ a :: l) :
    ∃ y ∈ a :: l, next y = x := by
  obtain ⟨k, -, there⟩ := h.around (h.closed hx) hx
  refine ⟨next^[k] x, Function.Iterate.rec (· ∈ a :: l) hx (fun _ member => h.closed member) k, ?_⟩
  rw [← iterate_succ_apply' next, iterate_succ_apply, there]

/-! Going along a list until a condition holds -/

/-- The first element from `x` on at which `P` holds, among the first `fuel`. -/
def firstFrom (next : α → α) (P : α → Bool) : Nat → α → Option α
  | 0, _ => none
  | fuel + 1, x => if P x then some x else firstFrom next P fuel (next x)

section FirstFrom

variable {P : α → Bool} {x y : α}

theorem firstFrom_mono {n k : Nat} (found : firstFrom next P n x = some y) (more : n ≤ k) :
    firstFrom next P k x = some y := by
  induction n generalizing k x with
  | zero => cases found
  | succ n ih =>
    obtain ⟨k, rfl⟩ := Nat.exists_eq_add_of_le' (Nat.lt_of_lt_of_le n.succ_pos more)
    unfold firstFrom at found ⊢
    split at found
    · next here => rw [if_pos here, found]
    · next notHere =>
      rw [if_neg notHere]
      exact ih found (by omega)

theorem firstFrom_spec {n : Nat} (found : firstFrom next P n x = some y) :
    P y = true ∧ ∃ k, y = next^[k] x ∧ ∀ j < k, P (next^[j] x) = false := by
  induction n generalizing x with
  | zero => cases found
  | succ n ih =>
    unfold firstFrom at found
    split at found
    · next here =>
      cases found
      exact ⟨here, 0, rfl, fun j none => absurd none (Nat.not_lt_zero j)⟩
    · next notHere =>
      obtain ⟨here, k, there, before⟩ := ih found
      refine ⟨here, k + 1, there, fun j lt => ?_⟩
      cases j with
      | zero => exact Bool.not_eq_true _ ▸ notHere
      | succ j => exact before j (Nat.lt_of_succ_lt_succ lt)

theorem firstFrom_total {k : Nat} (here : P (next^[k] x) = true) :
    ∃ y, firstFrom next P (k + 1) x = some y := by
  induction k generalizing x with
  | zero => exact ⟨x, if_pos here⟩
  | succ k ih =>
    unfold firstFrom
    split
    · exact ⟨x, rfl⟩
    · exact ih here

theorem Linked.firstFrom (h : Linked next a l a) (hx : x ∈ a :: l) (hy : y ∈ a :: l)
    (here : P y = true) : ∃ u ∈ a :: l, P u = true ∧
      ∀ fuel, 2 * l.length + 2 ≤ fuel → UvaOs.firstFrom next P fuel x = some u := by
  obtain ⟨k, bound, rfl⟩ := h.around hx hy
  obtain ⟨u, found⟩ := firstFrom_total here
  obtain ⟨holds, j, rfl, -⟩ := firstFrom_spec found
  have inside : next^[j] x ∈ a :: l :=
    Function.Iterate.rec (· ∈ a :: l) hx (fun _ member => h.closed member) j
  exact ⟨_, inside, holds, fun fuel enough => firstFrom_mono found (by omega)⟩

theorem Linked.none_found [DecidableEq α] (h : Linked next a l a) (hx : x ∈ a :: l) {Q : α → Bool}
    {fuel : Nat}
    (found : UvaOs.firstFrom next (fun u => Q (next u) || decide (next u = x)) fuel x = some y)
    (no : Q (next y) = false) : next y = x ∧ ∀ u ∈ a :: l, Q u = false := by
  obtain ⟨here, k, rfl, before⟩ := firstFrom_spec found
  rw [no, Bool.false_or, decide_eq_true_eq] at here
  refine ⟨here, fun u hu => ?_⟩
  have period : Function.IsPeriodicPt next (k + 1) x := (iterate_succ_apply' ..).trans here
  obtain ⟨m, -, rfl⟩ := h.around hx hu
  rw [← period.iterate_mod_apply m]
  have bound : m % (k + 1) < k + 1 := Nat.mod_lt m (Nat.succ_pos k)
  cases part : m % (k + 1) with
  | zero =>
    rw [here] at no
    exact no
  | succ j => grind [Bool.or_eq_false_iff, iterate_succ_apply']

end FirstFrom

end UvaOs
