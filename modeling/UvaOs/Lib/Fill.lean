import UvaOs.Lib.Forest

/-! Filling in missing nodes of a forest from a stock of free blocks. A program that fills a set
of nodes takes one block for each node of the set that is empty, and succeeds if and only if
the stock has as many; two such programs in a row are one for the union of their sets. -/
namespace Forest

open List

variable {ρ : Type} {F G H : Forest ρ} {A B X Y : Finset (ρ × List Nat)}
  {p q q' : Nat}

variable {js : List Nat} {done : Prop} {r : ρ}

def lack (F : Forest ρ) (A : Finset (ρ × List Nat)) : Finset (ρ × List Nat) :=
  A.filter (fun x => F.ptr x.1 x.2 = 0)

theorem mem_lack {x : ρ × List Nat} : x ∈ F.lack A ↔ x ∈ A ∧ F.ptr x.1 x.2 = 0 :=
  Finset.mem_filter

theorem lack_subset (h : A ⊆ B) : F.lack A ⊆ F.lack B := Finset.filter_subset_filter _ h

structure Filled (F G : Forest ρ) (X : Finset (ρ × List Nat)) : Prop where
  depth : ∀ r, G.depth r = F.depth r
  nodes : ∀ x ∈ X, F.IsNode x.1 x.2
  empty : ∀ x ∈ X, F.ptr x.1 x.2 = 0
  filled : ∀ x ∈ X, G.ptr x.1 x.2 ≠ 0
  rest : ∀ r js, F.IsNode r js → (r, js) ∉ X → G.ptr r js = F.ptr r js

theorem Filled.node (h : Filled F G X) : G.IsNode r js ↔ F.IsNode r js := by
  unfold IsNode
  rw [h.depth]

theorem Filled.same (depth : ∀ r, G.depth r = F.depth r)
    (rest : ∀ r js, F.IsNode r js → G.ptr r js = F.ptr r js) : Filled F G ∅ :=
  ⟨depth, by simp, by simp, by simp, fun r js node _ => rest r js node⟩

theorem Attached.filled {b : Nat} (att : Attached F G r js b)
    (depth : ∀ r, G.depth r = F.depth r) (node : F.IsNode r js) (empty : F.ptr r js = 0)
    (new : b ≠ 0) : Filled F G {(r, js)} := by
  refine ⟨depth, ?_, ?_, ?_, ?_⟩
  · intro x hx
    cases Finset.mem_singleton.mp hx
    exact node
  · intro x hx
    cases Finset.mem_singleton.mp hx
    exact empty
  · intro x hx
    cases Finset.mem_singleton.mp hx
    rw [(att r js node).1 ⟨rfl, rfl⟩]
    exact new
  · intro s ks hn out
    refine (att s ks hn).2 ?_
    rintro ⟨rfl, rfl⟩
    exact out (Finset.mem_singleton_self _)

theorem Filled.disjoint (h : Filled F G X) (k : Filled G H Y) : Disjoint X Y := by
  rw [Finset.disjoint_left]
  intro x hx hy
  exact h.filled x hx (k.empty x hy)

/-- The empty nodes of `A` have been filled, each with one of `p` free blocks, and `q` are
left. -/
structure Spent (F G : Forest ρ) (p q : Nat) (A : Finset (ρ × List Nat)) : Prop where
  filled : Filled F G (F.lack A)
  count : q + (F.lack A).card = p

theorem Spent.congr (h : Spent F G p q A) (depth : ∀ r, H.depth r = G.depth r)
    (same : ∀ r js, G.IsNode r js → H.ptr r js = G.ptr r js) : Spent F H p q A := by
  refine ⟨⟨fun r => (depth r).trans (h.filled.depth r), h.filled.nodes, h.filled.empty, ?_, ?_⟩,
    h.count⟩
  · intro x hx
    rw [same x.1 x.2 (h.filled.node.mpr (h.filled.nodes x hx))]
    exact h.filled.filled x hx
  · grind [h.filled.node.mpr, h.filled.rest]

/-- The empty nodes of `A` have been filled if `done` holds; if not, there were too few
blocks. -/
def Paid (F G : Forest ρ) (p q : Nat) (A : Finset (ρ × List Nat)) (done : Prop) : Prop :=
  (done ∧ Spent F G p q A) ∨ (¬ done ∧ p < (F.lack A).card)

theorem few_mono (h : p < (F.lack A).card) (sub : A ⊆ B) : p < (F.lack B).card :=
  Nat.lt_of_lt_of_le h (Finset.card_le_card (lack_subset sub))

theorem Paid.done_iff (h : Paid F G p q A done) : done ↔ (F.lack A).card ≤ p := by
  rcases h with ⟨yes, spent⟩ | ⟨no, few⟩
  · have count := spent.count
    exact ⟨fun _ => by omega, fun _ => yes⟩
  · exact ⟨fun yes => absurd yes no, fun le => by omega⟩

theorem Paid.spent (h : Paid F G p q A done) (yes : done) : Spent F G p q A :=
  (h.resolve_right (fun k => k.1 yes)).2

variable [DecidableEq ρ]

theorem Filled.trans (h : Filled F G X) (k : Filled G H Y) : Filled F H (X ∪ Y) := by
  have apart := Finset.disjoint_left.mp (h.disjoint k)
  refine ⟨fun r => (k.depth r).trans (h.depth r), ?_, ?_, ?_, ?_⟩
  · intro x hx
    rcases Finset.mem_union.mp hx with hx | hy
    · exact h.nodes x hx
    · exact h.node.mp (k.nodes x hy)
  · intro x hx
    rcases Finset.mem_union.mp hx with hx | hy
    · exact h.empty x hx
    · rw [← h.rest x.1 x.2 (h.node.mp (k.nodes x hy)) (fun hx => apart hx hy)]
      exact k.empty x hy
  · intro x hx
    rcases Finset.mem_union.mp hx with hx | hy
    · grind [k.rest, h.node.mpr, h.nodes, h.filled]
    · exact k.filled x hy
  · grind [k.rest, h.node.mpr, h.rest]

theorem Filled.lack (h : Filled F G X) (nodes : ∀ x ∈ B, F.IsNode x.1 x.2) :
    G.lack B = F.lack B \ X := by
  ext x
  rw [Finset.mem_sdiff, mem_lack, mem_lack]
  constructor
  · grind [h.filled, h.rest]
  · grind [h.rest]

theorem Spent.card_union (h : Spent F G p q A) (nodes : ∀ x ∈ B, F.IsNode x.1 x.2) :
    (F.lack (A ∪ B)).card = (F.lack A).card + (G.lack B).card := by
  have union : F.lack (A ∪ B) = F.lack A ∪ (F.lack B \ F.lack A) := by
    rw [Finset.union_sdiff_self_eq_union]
    exact Finset.filter_union ..
  rw [union, ← h.filled.lack nodes, Finset.card_union_of_disjoint]
  rw [h.filled.lack nodes]
  exact Finset.disjoint_sdiff

theorem Spent.trans (h : Spent F G p q A) (k : Spent G H q q' B)
    (nodes : ∀ x ∈ B, F.IsNode x.1 x.2) : Spent F H p q' (A ∪ B) := by
  have union : F.lack (A ∪ B) = F.lack A ∪ G.lack B := by
    rw [h.filled.lack nodes, Finset.union_sdiff_self_eq_union]
    exact Finset.filter_union ..
  refine ⟨union ▸ h.filled.trans k.filled, ?_⟩
  have all := h.card_union nodes
  have first := h.count
  have second := k.count
  omega

theorem Spent.paid (h : Spent F G p q A) (k : Paid G H q q' B done)
    (nodes : ∀ x ∈ B, F.IsNode x.1 x.2) : Paid F H p q' (A ∪ B) done := by
  rcases k with ⟨yes, k⟩ | ⟨no, few⟩
  · exact .inl ⟨yes, h.trans k nodes⟩
  · refine .inr ⟨no, ?_⟩
    have all := h.card_union nodes
    have first := h.count
    omega

def way (r : ρ) (js : List Nat) : Finset (ρ × List Nat) := (js.inits.map (fun ks => (r, ks))).toFinset

theorem mem_way {x : ρ × List Nat} : x ∈ way r js ↔ x.1 = r ∧ x.2 <+: js := by
  obtain ⟨s, ks⟩ := x
  rw [way, mem_toFinset, mem_map]
  constructor
  · grind [mem_inits]
  · rintro ⟨rfl, pre⟩
    exact ⟨ks, (mem_inits ..).mpr pre, rfl⟩

theorem way_nodes (node : F.IsNode r js) : ∀ x ∈ way r js, F.IsNode x.1 x.2 := by
  intro x hx
  obtain ⟨rfl, pre⟩ := mem_way.mp hx
  exact Nat.le_trans pre.length_le node

theorem way_snoc (r : ρ) (js : List Nat) (j : Nat) :
    way r (js ++ [j]) = way r js ∪ {(r, js ++ [j])} := by
  ext x
  rw [Finset.mem_union, Finset.mem_singleton, mem_way, mem_way, prefix_concat_iff]
  constructor
  · grind
  · grind

@[simp] theorem way_nil (r : ρ) : way r [] = {(r, [])} := rfl

theorem Spent.down {j : Nat} (h : Spent F G p q (way r js)) (node : F.IsNode r (js ++ [j]))
    (k : Paid G H q q' {(r, js ++ [j])} done) : Paid F H p q' (way r (js ++ [j])) done := by
  rw [way_snoc]
  refine h.paid k ?_
  intro x hx
  cases Finset.mem_singleton.mp hx
  exact node

end Forest
