import UvaOs.Fs.Alloc

/-! The block map. `bmap` returns the block at the leaf for its file block after
hanging in what was missing on the way, and changes nothing when the leaf is
already there. -/
namespace UvaOs.Fs

open Bytes Prog FsState Forest

theorem benign_bug : Benign .bug := by simp [Benign]

theorem benign_range : Benign .bmapOutOfRange := by simp [Benign]

/-- What the lookup of a pointer comes to, by its value before: it is there, or a free block was
hung in, or there is none. -/
inductive Took (s : FsState) (old : Nat) (hung : Nat → FsState) : Nat → FsState → Prop
  | there (nz : old ≠ 0) : Took s old hung old s
  | hangs {b : Nat} (empty : old = 0) (lt : b < s.sb.size) (free : s.bitmap b = false) :
      Took s old hung b (hung b)
  | full (empty : old = 0) (all : ∀ x, x < s.sb.size → s.bitmap x = true) : Took s old hung 0 s

section Took

variable {s : FsState} {E : Panic → Prop}

theorem rootBlock_took (h : Layout s) (ip k : Nat) :
    wp (rootBlock ip k) (Took s ((s.itable ip).copy.addrs k) (rootAttached s ip k)) E s := by
  unfold rootBlock inode
  simp only [wp_bind, wp_get, wp_pure]
  split
  · rename_i empty
    refine wp_call (balloc_spec s E) ?_
    rintro b t (⟨lt, free, rfl⟩ | ⟨rfl, rfl, all⟩)
    · rw [if_neg (h.free_pos free)]
      exact .hangs empty lt free
    · exact .full empty all
  · rename_i nz
    exact .there nz

theorem indirectEntry_took (h : Layout s) (addr j : Nat) :
    wp (indirectEntry addr j) (Took s (word (s.block addr) j) (entryAttached s addr j)) E s := by
  unfold indirectEntry bread
  simp only [wp_bind, wp_get, wp_pure]
  split
  · rename_i empty
    refine wp_call (balloc_spec s E) ?_
    rintro b t (⟨lt, free, rfl⟩ | ⟨rfl, rfl, all⟩)
    · rw [if_neg (h.free_pos free)]
      exact .hangs empty lt free
    · exact .full empty all
  · rename_i nz
    exact .there nz

theorem doublyEntry_took (s : FsState) (addr j : Nat) :
    wp (doublyEntry addr j) (Took s (word (s.block addr) j) (entryAttached s addr j)) E s := by
  unfold doublyEntry bread
  simp only [wp_bind, wp_get, wp_pure]
  split
  · rename_i empty
    refine wp_call (balloc_spec s E) ?_
    rintro b t (⟨lt, free, rfl⟩ | ⟨rfl, rfl, all⟩)
    · exact .hangs empty lt free
    · -- the failed allocation is stored over an entry that was zero before
      have same : t.putBlock addr (setWord (t.block addr) j 0) = t := by
        rw [setWord_zero empty]
        simp [putBlock]
      rw [wp_bind, wp_modify, wp_pure, same]
      exact .full empty all
  · rename_i nz
    exact .there nz

end Took

theorem rootBlock_spec {s : FsState} {ip inum k : Nat} {E : Panic → Prop} (h : Sound s)
    (c : Cached s ip inum) (hk : k < NDIRECT + 2) :
    wp (rootBlock ip k) (fun b t => Sound t ∧ Grow s t ip ∧ b = (forest t).ptr (inum, k) [] ∧
      Paid s t {((inum, k), [])} (b ≠ 0) ∧
      (b = 0 → t = s ∧ ∀ x, x < s.sb.size → s.bitmap x = true)) E s := by
  have root := (ptr_nil (forest s) _).trans (root_cached h.table c hk)
  have node : (forest s).IsNode (inum, k) [] := Nat.zero_le _
  refine wp_mono (rootBlock_took h.layout ip k) ?_ (fun _ e => e)
  rintro b t (nz | ⟨empty, lt, free⟩ | ⟨empty, all⟩)
  · rw [← root] at nz ⊢
    exact ⟨h, .refl s ip, rfl, paid_there nz, fun z => absurd z nz⟩
  · have nz := h.layout.free_pos free
    obtain ⟨sound, grow, att⟩ := rootAttached_grow h c hk empty free lt
    exact ⟨sound, grow, ((att _ _ node).1 ⟨rfl, rfl⟩).symm,
      paid_hung att node (root.trans empty) nz free lt rfl rfl, fun z => absurd z nz⟩
  · exact ⟨h, .refl _ ip, (root.trans empty).symm, paid_none (root.trans empty) all,
      fun _ => ⟨rfl, all⟩⟩

section Entry

variable {s t : FsState} {ip inum k j b : Nat} {js : List Nat} {E : Panic → Prop}

theorem ptr_entry (parent : (forest s).ptr (inum, k) js ≠ 0) (hj : j < NINDIRECT) :
    (forest s).ptr (inum, k) (js ++ [j]) = word (s.block ((forest s).ptr (inum, k) js)) j := by
  rw [ptr_snoc, child_of_ne parent]
  simp only [forest, if_pos hj]

section

variable (h : Sound s) (c : Cached s ip inum) (index : (forest s).IsIndex (inum, k) js)
  (parent : (forest s).ptr (inum, k) js ≠ 0) (hj : j < NINDIRECT)
include h c index parent hj

theorem Took.entry (took : Took s (word (s.block ((forest s).ptr (inum, k) js)) j)
      (entryAttached s ((forest s).ptr (inum, k) js) j) b t) :
    Sound t ∧ Grow s t ip ∧ b = (forest t).ptr (inum, k) (js ++ [j]) ∧
      Paid s t {((inum, k), js ++ [j])} (b ≠ 0) := by
  have entry := ptr_entry parent hj
  have node : (forest s).IsNode (inum, k) (js ++ [j]) := index.snoc
  rcases took with nz | ⟨empty, lt, free⟩ | ⟨empty, all⟩
  · rw [← entry] at nz ⊢
    exact ⟨h, .refl s ip, rfl, paid_there nz⟩
  · have nz := h.layout.free_pos free
    obtain ⟨sound, grow, att⟩ := entryAttached_grow h c index parent hj empty free lt
    exact ⟨sound, grow, ((att _ _ node).1 ⟨rfl, rfl⟩).symm,
      paid_hung att node (entry.trans empty) nz free lt rfl rfl⟩
  · exact ⟨h, .refl _ ip, (entry.trans empty).symm, paid_none (entry.trans empty) all⟩

theorem indirectEntry_spec : wp (indirectEntry ((forest s).ptr (inum, k) js) j) (fun b t =>
      Sound t ∧ Grow s t ip ∧ b = (forest t).ptr (inum, k) (js ++ [j]) ∧
        Paid s t {((inum, k), js ++ [j])} (b ≠ 0)) E s :=
  wp_mono (indirectEntry_took h.layout _ j) (fun _ _ took => took.entry h c index parent hj)
    (fun _ e => e)

theorem doublyEntry_spec : wp (doublyEntry ((forest s).ptr (inum, k) js) j) (fun b t =>
      Sound t ∧ Grow s t ip ∧ b = (forest t).ptr (inum, k) (js ++ [j]) ∧
        Paid s t {((inum, k), js ++ [j])} (b ≠ 0)) E s :=
  wp_mono (doublyEntry_took s _ j) (fun _ _ took => took.entry h c index parent hj) (fun _ e => e)

end

end Entry

variable {s : FsState} {bn inum ip : Nat}

/- With every block in use, a doubly-indirect lookup that went on with block 0
ends in the assertion after the second failed allocation. -/
theorem doublyEntry_full {E : Panic → Prop} (h : Layout s) (j : Nat)
    (full : ∀ x, x < s.sb.size → s.bitmap x = true) :
    wp (doublyEntry 0 j) (fun b _ => b = 0) E s := by
  refine wp_mono (doublyEntry_took s 0 j) ?_ (fun _ e => e)
  rw [h.boot, word_zeros]
  rintro b t (nz | ⟨-, lt, free⟩ | -)
  · rfl
  · exact nomatch (full b lt).symm.trans free
  · rfl

theorem leaf_direct (h : bn < NDIRECT) : leaf bn = (bn, []) := if_pos h

theorem leaf_indirect (lo : ¬ bn < NDIRECT) (hi : bn - NDIRECT < NINDIRECT) :
    leaf bn = (NDIRECT, [bn - NDIRECT]) := by
  rw [leaf, if_neg lo, if_pos hi]

theorem leaf_doubly (lo : ¬ bn < NDIRECT) (hi : ¬ bn - NDIRECT < NINDIRECT) :
    leaf bn = (NDIRECT + 1,
      [(bn - NDIRECT - NINDIRECT) / NINDIRECT, (bn - NDIRECT - NINDIRECT) % NINDIRECT]) := by
  rw [leaf, if_neg lo, if_neg hi]

theorem bmap_direct (h : bn < NDIRECT) : bmap ip bn = rootBlock ip bn := if_pos h

theorem bmap_indirect (lo : ¬ bn < NDIRECT) (hi : bn - NDIRECT < NINDIRECT) : bmap ip bn = (do
      let addr ← rootBlock ip NDIRECT
      if addr = 0 then pure 0 else indirectEntry addr (bn - NDIRECT)) := by
  rw [bmap, if_neg lo, if_pos hi]

theorem bmap_doubly (lo : ¬ bn < NDIRECT) (hi : ¬ bn - NDIRECT < NINDIRECT)
    (inside : bn - NDIRECT - NINDIRECT < NINDIRECT * NINDIRECT) : bmap ip bn = (do
      let addr ← rootBlock ip (NDIRECT + 1)
      let addr ← doublyEntry addr ((bn - NDIRECT - NINDIRECT) / NINDIRECT)
      if addr = 0 then stop .bug
      else doublyEntry addr ((bn - NDIRECT - NINDIRECT) % NINDIRECT)) := by
  rw [bmap, if_neg lo, if_neg hi]
  exact if_pos inside

theorem bmap_outside (h : MAXFILE ≤ bn) : bmap ip bn = stop .bmapOutOfRange := by
  simp only [MAXFILE, NDIRECT, NINDIRECT] at h
  have direct : ¬ bn < NDIRECT := by simp only [NDIRECT]; omega
  have single : ¬ bn - NDIRECT < NINDIRECT := by simp only [NDIRECT, NINDIRECT]; omega
  have double : ¬ bn - NDIRECT - NINDIRECT < NINDIRECT * NINDIRECT := by
    simp only [NDIRECT, NINDIRECT]
    omega
  rw [bmap, if_neg direct, if_neg single]
  exact if_neg double

theorem doubly_spec {q m : Nat} (h : Sound s) (c : Cached s ip inum)
    (hq : q < NINDIRECT) (hm : m < NINDIRECT) : wp (do
      let addr ← rootBlock ip (NDIRECT + 1)
      let addr ← doublyEntry addr q
      if addr = 0 then stop .bug else doublyEntry addr m)
      (fun b t => Sound t ∧ Grow s t ip ∧ b = (forest t).ptr (inum, NDIRECT + 1) [q, m] ∧
        Paid s t (way (inum, NDIRECT + 1) [q, m]) (b ≠ 0)) Benign s := by
  refine wp_call (rootBlock_spec h c (by decide)) ?_
  rintro b t ⟨sound, grow, here, paid, out⟩
  have cached := grow.cached c
  by_cases z : b = 0
  · obtain ⟨rfl, full⟩ := out z
    rw [z]
    refine wp_call (doublyEntry_full h.layout q full) ?_
    rintro x u rfl
    exact benign_bug
  · have top : (forest t).IsIndex (inum, NDIRECT + 1) [] := Nat.zero_lt_two
    subst here
    refine wp_call (doublyEntry_spec sound cached top z hq) ?_
    rintro b u ⟨sound', grow', here', paid'⟩
    have cached' := grow'.cached cached
    split
    · exact benign_bug
    · rename_i nz
      subst here'
      have mid : (forest u).IsIndex (inum, NDIRECT + 1) ([] ++ [q]) := Nat.one_lt_two
      refine wp_mono (doublyEntry_spec sound' cached' mid nz hm) ?_ (fun _ e => e)
      rintro b v ⟨sound'', grow'', here'', paid''⟩
      refine ⟨sound'', (grow.trans grow').trans grow'', here'', ?_⟩
      have upper : (forest s).IsNode (inum, NDIRECT + 1) ([] ++ [q]) :=
        Nat.le_succ 1
      have lower : (forest s).IsNode (inum, NDIRECT + 1) ([q] ++ [m]) :=
        Nat.le_refl 2
      have half := (paid.spent z).down upper paid'
      exact (half.spent nz).down lower paid''

theorem indirect_spec {j : Nat} (h : Sound s) (c : Cached s ip inum) (hj : j < NINDIRECT) : wp (do
      let addr ← rootBlock ip NDIRECT
      if addr = 0 then pure 0 else indirectEntry addr j)
      (fun b t => Sound t ∧ Grow s t ip ∧ b = (forest t).ptr (inum, NDIRECT) [j] ∧
        Paid s t (way (inum, NDIRECT) [j]) (b ≠ 0)) Benign s := by
  refine wp_call (rootBlock_spec h c (by decide)) ?_
  rintro b t ⟨sound, grow, here, paid, _⟩
  have cached := grow.cached c
  split
  · rename_i z
    have step := ptr_snoc (forest t) (inum, NDIRECT) [] j
    rw [← here, z, child_zero] at step
    refine ⟨sound, grow, step.symm, .inr ⟨fun ne => ne rfl, ?_⟩⟩
    have few := (paid.resolve_left (fun k => k.1 z)).2
    exact few_mono few (way_snoc (inum, NDIRECT) [] j ▸ Finset.subset_union_left)
  · rename_i nz
    subst here
    have index : (forest t).IsIndex (inum, NDIRECT) [] := Nat.zero_lt_one
    refine wp_mono (indirectEntry_spec sound cached index nz hj) ?_ (fun _ e => e)
    rintro b u ⟨sound', grow', here', paid'⟩
    have node : (forest s).IsNode (inum, NDIRECT) ([] ++ [j]) := Nat.le_refl 1
    exact ⟨sound', grow.trans grow', here', (paid.spent nz).down node paid'⟩

theorem range_cases (bn : Nat) : bn < NDIRECT ∨ (¬ bn < NDIRECT ∧ bn - NDIRECT < NINDIRECT) ∨
    (¬ bn < NDIRECT ∧ ¬ bn - NDIRECT < NINDIRECT ∧
      bn - NDIRECT - NINDIRECT < NINDIRECT * NINDIRECT) ∨ MAXFILE ≤ bn := by
  simp only [NDIRECT, NINDIRECT, MAXFILE]
  omega

theorem bmap_spec (bn : Nat) (h : Sound s) (c : Cached s ip inum) :
    wp (bmap ip bn) (fun b t => Sound t ∧ Grow s t ip ∧ b = blockOf t inum bn ∧
      Paid s t (way (inum, (leaf bn).1) (leaf bn).2) (b ≠ 0)) Benign s := by
  unfold blockOf
  rcases range_cases bn with direct | ⟨lo, hi⟩ | ⟨lo, hi, inside⟩ | outside
  · rw [leaf_direct direct, bmap_direct direct]
    have hk : bn < NDIRECT + 2 := Nat.lt_of_lt_of_le direct (by decide)
    refine wp_mono (rootBlock_spec h c hk) ?_ (fun _ e => e)
    intro b t post
    exact ⟨post.1, post.2.1, post.2.2.1, post.2.2.2.1⟩
  · rw [leaf_indirect lo hi, bmap_indirect lo hi]
    exact indirect_spec h c hi
  · rw [leaf_doubly lo hi, bmap_doubly lo hi inside]
    exact doubly_spec h c (Nat.div_lt_of_lt_mul inside) (Nat.mod_lt _ (by decide))
  · rw [bmap_outside outside]
    exact benign_range

/-! Lookups that find their block. -/

section Mapped

variable {s : FsState} {ip inum : Nat} {E : Panic → Prop}

variable {addr j : Nat} {r : Nat × Nat}

theorem rootBlock_mapped {k : Nat} (h : Table s) (c : Cached s ip inum) (hk : k < NDIRECT + 2)
    (nz : (forest s).ptr (inum, k) [] ≠ 0) :
    wp (rootBlock ip k) (fun b t => b = (forest s).ptr (inum, k) [] ∧ t = s) E s := by
  have root := root_cached h c hk
  rw [ptr_nil, root] at nz ⊢
  unfold rootBlock inode
  simp only [wp_bind, wp_get, wp_pure, if_neg nz, and_self]

theorem indirectEntry_mapped (nz : word (s.block addr) j ≠ 0) :
    wp (indirectEntry addr j) (fun b t => b = word (s.block addr) j ∧ t = s) E s := by
  unfold indirectEntry bread
  simp only [wp_bind, wp_get, wp_pure, if_neg nz, and_self]

theorem doublyEntry_mapped (nz : word (s.block addr) j ≠ 0) :
    wp (doublyEntry addr j) (fun b t => b = word (s.block addr) j ∧ t = s) E s := by
  unfold doublyEntry bread
  simp only [wp_bind, wp_get, wp_pure, if_neg nz, and_self]

theorem parent_mapped {F : Forest (Nat × Nat)} (js : List Nat)
    (nz : F.ptr r (js ++ [j]) ≠ 0) : F.ptr r js ≠ 0 := by
  intro z
  rw [ptr_snoc, z, child_zero] at nz
  exact nz rfl

theorem entry_mapped (js : List Nat) (nz : (forest s).ptr r (js ++ [j]) ≠ 0) : j < NINDIRECT := by
  by_contra out
  have parent := parent_mapped js nz
  rw [ptr_snoc, child_of_ne parent] at nz
  simp only [forest, if_neg out] at nz
  exact nz rfl

theorem blockOf_lt (nz : blockOf s inum bn ≠ 0) : bn < MAXFILE := by
  by_contra out
  have far : MAXFILE ≤ bn := Nat.le_of_not_lt out
  simp only [MAXFILE, NDIRECT, NINDIRECT] at far
  have direct : ¬ bn < NDIRECT := by simp only [NDIRECT]; omega
  have single : ¬ bn - NDIRECT < NINDIRECT := by simp only [NDIRECT, NINDIRECT]; omega
  rw [blockOf, leaf_doubly direct single] at nz
  have first : (bn - NDIRECT - NINDIRECT) / NINDIRECT < NINDIRECT :=
    entry_mapped [] (parent_mapped [_] nz)
  simp only [NDIRECT, NINDIRECT] at first
  omega

theorem bmap_mapped (h : Table s) (c : Cached s ip inum) (nz : blockOf s inum bn ≠ 0) :
    wp (bmap ip bn) (fun b t => b = blockOf s inum bn ∧ t = s) E s := by
  have inside := blockOf_lt nz
  unfold blockOf at nz ⊢
  rcases range_cases bn with direct | ⟨lo, hi⟩ | ⟨lo, hi, mid⟩ | outside
  · grind [leaf_direct, bmap_direct, rootBlock_mapped, Nat.lt_of_lt_of_le]
  · rw [leaf_indirect lo hi] at nz ⊢
    rw [bmap_indirect lo hi]
    have top := parent_mapped [] nz
    have entry := ptr_entry top hi
    refine wp_call (rootBlock_mapped h c (by decide) top) ?_
    rintro b t ⟨rfl, rfl⟩
    rw [if_neg top]
    rw [List.nil_append] at entry
    rw [entry] at nz ⊢
    exact indirectEntry_mapped nz
  · rw [leaf_doubly lo hi] at nz ⊢
    rw [bmap_doubly lo hi mid]
    have quot := Nat.div_lt_of_lt_mul mid
    have rem : (bn - NDIRECT - NINDIRECT) % NINDIRECT < NINDIRECT := Nat.mod_lt _ (by decide)
    generalize (bn - NDIRECT - NINDIRECT) / NINDIRECT = q at *
    generalize (bn - NDIRECT - NINDIRECT) % NINDIRECT = m at *
    have second := parent_mapped [q] nz
    have top := parent_mapped [] second
    have entry := ptr_entry top quot
    have entry' := ptr_entry second rem
    rw [List.nil_append] at entry
    refine wp_call (rootBlock_mapped h c (by decide) top) ?_
    rintro b t ⟨rfl, rfl⟩
    refine wp_call (doublyEntry_mapped (entry ▸ second)) ?_
    rintro b u ⟨rfl, rfl⟩
    rw [← entry, if_neg second]
    rw [List.singleton_append] at entry'
    rw [entry'] at nz ⊢
    exact doublyEntry_mapped nz
  · exact absurd inside (Nat.not_lt.mpr outside)

end Mapped

end UvaOs.Fs
