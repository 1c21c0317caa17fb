import Mathlib

/-! Forests of numbered blocks.
Each root holds a block number; an index block holds the numbers of its
children; zero stands for no block. A node is a root with the list of entry
numbers leading to it, at most as long as the depth of that root. The lemmas
say what one change of the store does to the number at every node. -/

@[ext] structure Forest (ρ : Type) where
  root : ρ → Nat
  word : Nat → Nat → Nat
  depth : ρ → Nat

namespace Forest

open List

variable {ρ : Type}

variable {F G : Forest ρ} {js : List Nat} {b i j : Nat} {r : ρ}

def child (word : Nat → Nat → Nat) (b j : Nat) : Nat := if b = 0 then 0 else word b j

def ptr (F : Forest ρ) (r : ρ) (js : List Nat) : Nat := js.foldl (child F.word) (F.root r)

def IsNode (F : Forest ρ) (r : ρ) (js : List Nat) : Prop := js.length ≤ F.depth r

def IsIndex (F : Forest ρ) (r : ρ) (js : List Nat) : Prop := js.length < F.depth r

/-- No block number occurs at two nodes. -/
def Exclusive (F : Forest ρ) : Prop :=
  ∀ r js s ks, F.IsNode r js → F.IsNode s ks → F.ptr r js ≠ 0 →
    F.ptr r js = F.ptr s ks → r = s ∧ js = ks

/-- Every block number at a node satisfies `ok`. -/
def Covered (F : Forest ρ) (ok : Nat → Prop) : Prop :=
  ∀ r js, F.IsNode r js → F.ptr r js ≠ 0 → ok (F.ptr r js)

/-- Every number satisfying `used` occurs at a node. -/
def Accounted (F : Forest ρ) (used : Nat → Prop) : Prop :=
  ∀ b, used b → ∃ r js, F.IsNode r js ∧ F.ptr r js = b

theorem ptr_nil (F : Forest ρ) (r : ρ) : F.ptr r [] = F.root r := rfl

theorem ptr_snoc (F : Forest ρ) (r : ρ) (js : List Nat) (j : Nat) :
    F.ptr r (js ++ [j]) = child F.word (F.ptr r js) j := by
  simp [ptr, foldl_append]

theorem child_zero (word : Nat → Nat → Nat) (j : Nat) : child word 0 j = 0 := if_pos rfl

theorem child_of_ne {word : Nat → Nat → Nat} (h : b ≠ 0) (j : Nat) :
    child word b j = word b j := if_neg h

theorem ptr_append_zero (F : Forest ρ) (absent : F.ptr r js = 0)
    (ks : List Nat) : F.ptr r (js ++ ks) = 0 := by
  induction ks using List.reverseRecOn with
  | nil => rwa [append_nil]
  | append_singleton ks k ih => rw [← append_assoc, ptr_snoc, ih, child_zero]

theorem parent_node (h : F.IsNode r (js ++ [j])) : F.IsIndex r js := by
  have h' : js.length + 1 ≤ F.depth r := by simpa [IsNode] using h
  exact h'

theorem IsIndex.node (h : F.IsIndex r js) : F.IsNode r js := Nat.le_of_lt h

theorem IsIndex.snoc (h : F.IsIndex r js) : F.IsNode r (js ++ [j]) := by
  have h' : js.length + 1 ≤ F.depth r := h
  simpa [IsNode] using h'

/-- The number at one node becomes `b`; every other node keeps its number. -/
def Attached (F G : Forest ρ) (r : ρ) (js : List Nat) (b : Nat) : Prop :=
  ∀ s ks, F.IsNode s ks →
    (s = r ∧ ks = js → G.ptr s ks = b) ∧ (¬ (s = r ∧ ks = js) → G.ptr s ks = F.ptr s ks)

theorem attached_root (empty : F.root r = 0) (fresh : ∀ s ks, F.IsNode s ks → F.ptr s ks ≠ b)
    (here : G.root r = b) (roots : ∀ s, s ≠ r → G.root s = F.root s)
    (blank : ∀ j, G.word b j = 0) (words : ∀ c j, c ≠ b → G.word c j = F.word c j) :
    Attached F G r [] b := by
  intro s ks node
  induction ks using List.reverseRecOn with
  | nil => grind [ptr_nil]
  | append_singleton ks j ih =>
    have up := parent_node node
    have both := ih up.node
    refine ⟨fun h => absurd h.2 (by simp), fun _ => ?_⟩
    rw [ptr_snoc, ptr_snoc]
    by_cases top : s = r ∧ ks = []
    · -- the entries of the new block are blank, and there were none before
      have old : F.ptr s ks = 0 := by rw [top.1, top.2, ptr_nil, empty]
      rw [both.1 top, old, child_zero]
      by_cases z : b = 0
      · rw [z, child_zero]
      · rw [child_of_ne z, blank]
    · rw [both.2 top]
      by_cases z : F.ptr s ks = 0
      · rw [z, child_zero, child_zero]
      · rw [child_of_ne z, child_of_ne z, words _ j (fresh s ks up.node)]

/-- A new block enters at an empty entry of an index block. Exclusivity is what
keeps the change of that index block away from every other node. -/
theorem attached_entry (excl : F.Exclusive) (index : F.IsIndex r js) (parent : F.ptr r js ≠ 0)
    (empty : F.word (F.ptr r js) i = 0) (new : b ≠ 0)
    (fresh : ∀ s ks, F.IsNode s ks → F.ptr s ks ≠ b)
    (roots : ∀ s, G.root s = F.root s) (blank : ∀ j, G.word b j = 0)
    (here : G.word (F.ptr r js) i = b)
    (words : ∀ c j, c ≠ b → (c ≠ F.ptr r js ∨ j ≠ i) → G.word c j = F.word c j) :
    Attached F G r (js ++ [i]) b := by
  intro s ks node
  induction ks using List.reverseRecOn with
  | nil =>
    refine ⟨fun h => absurd h.2 (by simp), fun _ => roots s⟩
  | append_singleton ks j ih =>
    have up := parent_node node
    have both := ih up.node
    have split : (s = r ∧ ks ++ [j] = js ++ [i]) ↔ (s = r ∧ ks = js) ∧ j = i := by
      grind [append_inj']
    rw [ptr_snoc, ptr_snoc]
    by_cases below : s = r ∧ ks = js ++ [i]
    · -- below the new block: blank now, absent before
      have old : F.ptr s ks = 0 := by rw [below.1, below.2, ptr_snoc, child_of_ne parent, empty]
      have apart : ¬ (s = r ∧ ks = js) := by grind
      refine ⟨fun h => absurd (split.mp h).1 apart, fun _ => ?_⟩
      rw [both.1 below, old, child_zero, child_of_ne new, blank]
    · rw [both.2 below]
      by_cases z : F.ptr s ks = 0
      · grind [child_zero]
      · have other := fresh s ks up.node
        rw [child_of_ne z, child_of_ne z]
        by_cases same : s = r ∧ ks = js
        · grind
        · have apart : F.ptr s ks ≠ F.ptr r js := by
            intro e
            exact same (excl s ks r js up.node index.node z e)
          exact ⟨fun h => absurd (split.mp h).1 same, fun _ => words _ j other (.inl apart)⟩

theorem attached_leaf
    (excl : F.Exclusive) (lowest : js.length + 1 = F.depth r) (parent : F.ptr r js ≠ 0)
    (roots : ∀ s, G.root s = F.root s) (here : G.word (F.ptr r js) i = b)
    (words : ∀ s ks j, F.IsIndex s ks → (F.ptr s ks ≠ F.ptr r js ∨ j ≠ i) →
      G.word (F.ptr s ks) j = F.word (F.ptr s ks) j) :
    Attached F G r (js ++ [i]) b := by
  have index : F.IsIndex r js := Nat.lt_of_succ_le (Nat.le_of_eq lowest)
  intro s ks node
  induction ks using List.reverseRecOn with
  | nil => exact ⟨fun h => absurd h.2 (by simp), fun _ => roots s⟩
  | append_singleton ks j ih =>
    have up := parent_node node
    have above : ¬ (s = r ∧ ks = js ++ [i]) := by
      rintro ⟨rfl, rfl⟩
      have short : (js ++ [i]).length < F.depth s := up
      rw [length_append, length_singleton, lowest] at short
      exact Nat.lt_irrefl _ short
    rw [ptr_snoc, ptr_snoc, (ih up.node).2 above]
    by_cases z : F.ptr s ks = 0
    · grind [child_zero, append_inj']
    · rw [child_of_ne z, child_of_ne z]
      constructor
      · grind [append_inj']
      · intro h
        apply words s ks j up
        by_contra both
        push Not at both
        obtain ⟨rfl, rfl⟩ := excl s ks r js up.node index.node z both.1
        exact h ⟨rfl, by rw [both.2]⟩

section Attached

variable {F G : Forest ρ} {r : ρ} {js : List Nat} {b : Nat}

section

variable (att : Attached F G r js b) (depth : ∀ s, G.depth s = F.depth s)
include att depth

theorem Attached.exclusive
    (fresh : ∀ s ks, F.IsNode s ks → b ≠ 0 → F.ptr s ks ≠ b) (excl : F.Exclusive) :
    G.Exclusive := by
  intro s ks t ls hs ht nz eq
  have hs' : F.IsNode s ks := by simpa [IsNode, depth] using hs
  have ht' : F.IsNode t ls := by simpa [IsNode, depth] using ht
  have as := att s ks hs'
  have at' := att t ls ht'
  by_cases hx : s = r ∧ ks = js <;> by_cases hy : t = r ∧ ls = js
  · exact ⟨hx.1.trans hy.1.symm, hx.2.trans hy.2.symm⟩
  · grind
  · grind
  · rw [as.2 hx] at nz eq
    rw [at'.2 hy] at eq
    exact excl s ks t ls hs' ht' nz eq

theorem Attached.covered {ok ok' : Nat → Prop} (cov : F.Covered ok) (weaker : ∀ c, ok c → ok' c)
    (new : b ≠ 0 → ok' b) : G.Covered ok' := by
  intro s ks hs nz
  have hs' : F.IsNode s ks := by simpa [IsNode, depth] using hs
  by_cases hx : s = r ∧ ks = js
  · rw [(att s ks hs').1 hx] at nz ⊢
    exact new nz
  · rw [(att s ks hs').2 hx] at nz ⊢
    exact weaker _ (cov s ks hs' nz)

theorem Attached.accounted (node : F.IsNode r js) (empty : F.ptr r js = 0) {used used' : Nat → Prop}
    (acc : F.Accounted used) (split : ∀ c, used' c → c ≠ 0 ∧ (c = b ∨ used c)) :
    G.Accounted used' := by
  intro c hc
  obtain ⟨nz, rfl | old⟩ := split c hc
  · exact ⟨r, js, by simpa [IsNode, depth] using node, (att r js node).1 ⟨rfl, rfl⟩⟩
  · obtain ⟨s, ks, hs, e⟩ := acc c old
    have apart : ¬ (s = r ∧ ks = js) := by
      rintro ⟨rfl, rfl⟩
      exact nz (e.symm.trans empty)
    exact ⟨s, ks, by simpa [IsNode, depth] using hs, by rw [(att s ks hs).2 apart, e]⟩

end

theorem Attached.keeps (att : Attached F G r js b) (empty : F.ptr r js = 0) {s : ρ}
    {ks : List Nat} (node : F.IsNode s ks) (nz : F.ptr s ks ≠ 0) : G.ptr s ks = F.ptr s ks := by
  refine (att s ks node).2 ?_
  rintro ⟨rfl, rfl⟩
  exact nz empty

end Attached

/-- The trees of the roots in `cut` are gone, all other nodes keep their numbers. -/
def Pruned (F G : Forest ρ) (cut : ρ → Prop) : Prop :=
  ∀ r js, F.IsNode r js → (cut r → G.ptr r js = 0) ∧ (¬ cut r → G.ptr r js = F.ptr r js)

section Pruned

variable {F G : Forest ρ} {cut : ρ → Prop}

/-- Clearing some roots and keeping every index block clears exactly the trees
below those roots. With no root cleared this is the frame rule. -/
theorem pruned_of_roots (gone : ∀ r, cut r → G.root r = 0)
    (kept : ∀ r, ¬ cut r → G.root r = F.root r) (words : ∀ r js, F.IsIndex r js → F.ptr r js ≠ 0 →
      ∀ j, G.word (F.ptr r js) j = F.word (F.ptr r js) j) : Pruned F G cut := by
  intro r js node
  induction js using List.reverseRecOn with
  | nil => exact ⟨gone r, kept r⟩
  | append_singleton js j ih =>
    have up := parent_node node
    have both := ih up.node
    rw [ptr_snoc, ptr_snoc]
    constructor
    · intro h
      rw [both.1 h, child_zero]
    · grind [child_zero, child_of_ne]

theorem Pruned.survives (p : Pruned F G cut) (node : F.IsNode r js)
    (nz : G.ptr r js ≠ 0) : ¬ cut r ∧ G.ptr r js = F.ptr r js := by
  have keep : ¬ cut r := fun h => nz ((p r js node).1 h)
  exact ⟨keep, (p r js node).2 keep⟩

section

variable (p : Pruned F G cut) (depth : ∀ s, G.depth s = F.depth s)
include p depth

theorem Pruned.exclusive (excl : F.Exclusive) : G.Exclusive := by
  intro s ks t ls hs ht nz eq
  have hs' : F.IsNode s ks := by simpa [IsNode, depth] using hs
  have ht' : F.IsNode t ls := by simpa [IsNode, depth] using ht
  obtain ⟨_, es⟩ := p.survives hs' nz
  obtain ⟨_, et⟩ := p.survives ht' (eq ▸ nz)
  exact excl s ks t ls hs' ht' (es ▸ nz) (es.symm.trans (eq.trans et))

theorem Pruned.covered {ok ok' : Nat → Prop} (cov : F.Covered ok)
    (keep : ∀ r js, F.IsNode r js → ¬ cut r → F.ptr r js ≠ 0 → ok (F.ptr r js) →
      ok' (F.ptr r js)) : G.Covered ok' := by
  intro s ks hs nz
  have hs' : F.IsNode s ks := by simpa [IsNode, depth] using hs
  obtain ⟨root, e⟩ := p.survives hs' nz
  rw [e] at nz ⊢
  exact keep s ks hs' root nz (cov s ks hs' nz)

theorem Pruned.accounted {used used' : Nat → Prop} (acc : F.Accounted used)
    (still : ∀ b, used' b → used b ∧ ∀ r js, F.IsNode r js → F.ptr r js = b → ¬ cut r) :
    G.Accounted used' := by
  intro b hb
  obtain ⟨old, keep⟩ := still b hb
  obtain ⟨r, js, node, e⟩ := acc b old
  exact ⟨r, js, by simpa [IsNode, depth] using node, ((p r js node).2 (keep r js node e)).trans e⟩

end

end Pruned

end Forest
