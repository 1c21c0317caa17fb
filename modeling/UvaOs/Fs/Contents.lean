import UvaOs.Fs.Trunc

/-! File contents. The bytes of a file are read through the pointers, block by
block; a write changes the bytes it was given and no others. -/
namespace UvaOs.Fs

open Bytes Prog FsState List

/- Byte `i` of a file. Where no block is mapped it is a byte of block 0. -/
def byteAt (s : FsState) (inum i : Nat) : UInt8 := s.block (blockOf s inum (i / BSIZE)) (i % BSIZE)

def Mapped (s : FsState) (inum i : Nat) : Prop := blockOf s inum (i / BSIZE) ≠ 0

section Leaf

theorem leaf_node (F : FsState) (inum bn : Nat) :
    (forest F).IsNode (inum, (leaf bn).1) (leaf bn).2 ∧
      ¬ (forest F).IsIndex (inum, (leaf bn).1) (leaf bn).2 := by
  by_cases direct : bn < NDIRECT
  · rw [leaf_direct direct]
    have depth : (forest F).depth (inum, bn) = 0 := by
      simp only [forest]
      rw [if_neg (by simp at direct ⊢; omega), if_neg (by simp at direct ⊢; omega)]
    simp [Forest.IsNode, Forest.IsIndex, depth]
  · by_cases single : bn - NDIRECT < NINDIRECT
    · rw [leaf_indirect direct single]
      have depth : (forest F).depth (inum, NDIRECT) = 1 := rfl
      simp only [Forest.IsNode, Forest.IsIndex, depth]
      simp
    · rw [leaf_doubly direct single]
      have depth : (forest F).depth (inum, NDIRECT + 1) = 2 := rfl
      simp only [Forest.IsNode, Forest.IsIndex, depth]
      simp

def unleaf : Nat × List Nat → Nat
  | (k, []) => k
  | (_, [j]) => NDIRECT + j
  | (_, q :: m :: _) => NDIRECT + NINDIRECT + (NINDIRECT * q + m)

theorem unleaf_leaf (bn : Nat) : unleaf (leaf bn) = bn := by
  by_cases direct : bn < NDIRECT
  · rw [leaf_direct direct]
    rfl
  · grind [NDIRECT, NINDIRECT, leaf_indirect, Nat.add_sub_of_le, Nat.le_of_not_lt, leaf_doubly, unleaf, Nat.div_add_mod]

theorem leaf_injective {a b : Nat} (h : leaf a = leaf b) : a = b := by
  rw [← unleaf_leaf a, h, unleaf_leaf]

theorem blockOf_injective {s : FsState} (h : Sound s) {m m' a b : Nat} (nz : blockOf s m a ≠ 0)
    (e : blockOf s m a = blockOf s m' b) : m = m' ∧ a = b := by
  have same := h.exclusive _ _ _ _ (leaf_node s m a).1 (leaf_node s m' b).1 nz e
  have number : m = m' := congrArg Prod.fst same.1
  have index : (leaf a).1 = (leaf b).1 := congrArg Prod.snd same.1
  exact ⟨number, leaf_injective (Prod.ext index same.2)⟩

end Leaf

variable {s t : FsState} {i ip m : Nat}

/-- `t` is `s` after blocks were hung into the inode of slot `ip` and some of its
data was written. -/
structure Edit (s t : FsState) (ip : Nat) : Prop extends Touched s t ip where
  others : ∀ m i, m ≠ (s.itable ip).inum → Mapped s m i → byteAt t m i = byteAt s m i

theorem Edit.blockOf {bn : Nat} (h : Edit s t ip) (nz : blockOf s m bn ≠ 0) :
    blockOf t m bn = blockOf s m bn := h.keeps _ _ (leaf_node s m bn).1 nz

theorem Edit.mapped (h : Edit s t ip) (k : Mapped s m i) : Mapped t m i := by
  unfold Mapped at k ⊢
  rw [h.blockOf k]
  exact k

theorem Edit.trans {u : FsState} (h : Edit s t ip) (k : Edit t u ip) : Edit s u ip := by
  have inum : (t.itable ip).inum = (s.itable ip).inum := (h.itable.fields ip).2.2.1
  refine ⟨h.toTouched.trans k.toTouched, ?_⟩
  grind [k.others, h.mapped, h.others]

theorem Grow.byteAt (h : Grow s t ip) (mapped : Mapped s m i) : byteAt t m i = byteAt s m i := by
  obtain ⟨node, flat⟩ := leaf_node s m (i / BSIZE)
  have ptr := h.keeps _ _ node mapped
  have data := h.data _ _ node flat mapped
  unfold UvaOs.Fs.byteAt blockOf
  rw [ptr, data]

theorem Grow.edit (h : Grow s t ip) : Edit s t ip :=
  { h with others := fun _ _ _ mapped => h.byteAt mapped }

section PutData

variable {s : FsState} {ip inum bn : Nat} {data : Buffer}

theorem putData_forest (data : Buffer) (h : Sound s) (r : Nat × Nat) (js : List Nat)
    (node : (forest s).IsNode r js) :
    (forest (s.putBlock (blockOf s inum bn) data)).ptr r js = (forest s).ptr r js := by
  obtain ⟨hn, flat⟩ := leaf_node s inum bn
  have pruned : Forest.Pruned (forest s) (forest (s.putBlock (blockOf s inum bn) data))
      (fun _ => False) := by
    apply Forest.pruned_of_roots
    · intro r no
      exact absurd no not_false
    · intro r _
      rfl
    · intro r js index hz j
      have apart : (forest s).ptr r js ≠ blockOf s inum bn := by
        intro e
        obtain ⟨rfl, rfl⟩ := h.exclusive r js _ _ index.node hn hz e
        exact flat index
      have block : (s.putBlock (blockOf s inum bn) data).block ((forest s).ptr r js) =
          s.block ((forest s).ptr r js) := by
        rw [putBlock_block, Function.update_of_ne apart]
      change (if _ then word _ j else 0) = if _ then word _ j else 0
      rw [block]
  exact (pruned r js node).2 not_false

theorem putData_blockOf (h : Sound s) (m b : Nat) :
    blockOf (s.putBlock (blockOf s inum bn) data) m b = blockOf s m b :=
  putData_forest data h _ _ (leaf_node s m b).1

theorem putData_byteAt (h : Sound s) (nz : blockOf s inum bn ≠ 0) (m i : Nat) :
    byteAt (s.putBlock (blockOf s inum bn) data) m i =
      if m = inum ∧ i / BSIZE = bn then data (i % BSIZE) else byteAt s m i := by
  unfold byteAt
  rw [putData_blockOf h]
  by_cases e : blockOf s m (i / BSIZE) = blockOf s inum bn
  · obtain ⟨rfl, rfl⟩ := blockOf_injective h (e ▸ nz) e
    simp
  · have apart : ¬ (m = inum ∧ i / BSIZE = bn) := by
      rintro ⟨rfl, rfl⟩
      exact e rfl
    rw [if_neg apart, putBlock_block, Function.update_of_ne e]

theorem Sound.putData (h : Sound s) (nz : blockOf s inum bn ≠ 0) :
    Sound (s.putBlock (blockOf s inum bn) data) := by
  have ptrs : ∀ r js, (forest s).IsNode r js →
      (forest (s.putBlock (blockOf s inum bn) data)).ptr r js = (forest s).ptr r js :=
    putData_forest data h
  have boot : (s.putBlock (blockOf s inum bn) data).block 0 = s.block 0 := by
    simp [Function.update_of_ne nz.symm]
  refine ⟨h.layout.congr rfl (fun _ _ => rfl) boot, ?_, ?_, ?_⟩
  · exact h.table.congr rfl rfl rfl
  · intro r js r' js' node node' hz e
    rw [ptrs r js node] at hz e
    rw [ptrs r' js' node'] at e
    exact h.exclusive r js r' js' node node' hz e
  · intro r js node hz
    rw [ptrs r js node] at hz ⊢
    exact h.covered r js node hz

theorem putData_edit (h : Sound s) (c : Cached s ip inum) (nz : blockOf s inum bn ≠ 0) :
    Edit s (s.putBlock (blockOf s inum bn) data) ip := by
  have ptrs : ∀ r js, (forest s).IsNode r js →
      (forest (s.putBlock (blockOf s inum bn) data)).ptr r js = (forest s).ptr r js :=
    putData_forest data h
  refine ⟨⟨rfl, rfl, .refl s ip, fun r js node _ => ptrs r js node,
    fun r js _ node => ptrs r js node, ?_, ?_⟩, ?_⟩
  · intro acc b used
    obtain ⟨r, js, node, e⟩ := acc b used
    exact ⟨r, js, node, (ptrs r js node).trans e⟩
  · intro b ne
    obtain rfl : b = blockOf s inum bn := not_not.mp (fun out => ne (Function.update_of_ne out ..))
    have node := (leaf_node s inum bn).1
    rw [c.2.2.2.1]
    exact ⟨nz, _, _, node, ptrs _ _ node⟩
  · intro m i ne _
    rw [putData_byteAt h nz, if_neg]
    rintro ⟨e, _⟩
    exact ne (e.trans c.2.2.2.1.symm)

end PutData

/-! The loop of `writei`. -/

/-- What the loop does from counter `tot` and offset `off`, when it ends with the
pair `r`. The clause `aligned` says where a short write can end. -/
structure Wrote (s u : FsState) (ip inum : Nat) (src : List UInt8) (tot off n : Nat)
    (r : Nat × Nat) : Prop where
  edit : Edit s u ip
  least : tot ≤ r.1
  most : r.1 ≤ tot ∨ r.1 ≤ n
  offset : r.2 = off + (r.1 - tot)
  aligned : tot < r.1 → r.1 < n → r.2 % BSIZE = 0
  outside : ∀ i, Mapped s inum i →
    (i < off ∨ off + (n - tot) ≤ i ∨ (n ≤ src.length ∧ r.2 ≤ i)) →
    byteAt u inum i = byteAt s inum i
  inside : ∀ i, off ≤ i → i < r.2 →
    Mapped u inum i ∧ src[tot + (i - off)]? = some (byteAt u inum i)
  blank : ∀ i, ¬ Mapped s inum i → Mapped u inum i → (i < off ∨ off + (n - tot) ≤ i) →
    byteAt u inum i = 0

theorem Wrote.cached {u : FsState} {inum tot off n : Nat} {src : List UInt8} {r : Nat × Nat}
    (wrote : Wrote s u ip inum src tot off n r) (c : Cached s ip inum) : Cached u ip inum :=
  (wrote.edit.itable.cached ip inum).mpr c

theorem Grow.byteAt_blank (h : Grow s t ip)
    (absent : ¬ Mapped s m i) (mapped : Mapped t m i) : UvaOs.Fs.byteAt t m i = 0 := by
  obtain ⟨node, flat⟩ := leaf_node s m (i / BSIZE)
  have empty := h.blank _ _ node flat (not_not.mp absent) mapped
  unfold UvaOs.Fs.byteAt blockOf
  rw [empty]
  rfl

theorem Grow.wrote {inum tot off n : Nat} {src : List UInt8}
    (h : Grow s t ip) : Wrote s t ip inum src tot off n (tot, off) := by
  refine ⟨h.edit, Nat.le_refl _, .inl (Nat.le_refl _), by simp, fun lt _ => absurd lt (Nat.lt_irrefl _),
    fun i mapped _ => h.byteAt mapped, ?_, fun i absent mapped _ => h.byteAt_blank absent mapped⟩
  intro i lo hi
  exact absurd (Nat.lt_of_le_of_lt lo hi) (Nat.lt_irrefl _)

section Chunk

variable {s : FsState} {ip inum tot off n : Nat} {src : List UInt8}

def chunk (tot off n : Nat) : Nat := min (n - tot) (BSIZE - off % BSIZE)

theorem chunk_facts (h : tot < n) :
    0 < chunk tot off n ∧ tot + chunk tot off n ≤ n ∧ off % BSIZE + chunk tot off n ≤ BSIZE ∧
      (tot + chunk tot off n < n → (off + chunk tot off n) % BSIZE = 0) := by
  unfold chunk
  simp only [BSIZE]
  omega

def written (s : FsState) (inum : Nat) (src : List UInt8) (tot off n : Nat) : FsState :=
  s.putBlock (blockOf s inum (off / BSIZE)) (blit (s.block (blockOf s inum (off / BSIZE)))
    (off % BSIZE) ((src.drop tot).take (chunk tot off n)))

theorem written_outside (h : Sound s) (here : blockOf s inum (off / BSIZE) ≠ 0)
    (out : i < off ∨ off + chunk tot off n ≤ i) :
    byteAt (written s inum src tot off n) inum i = byteAt s inum i := by
  unfold written
  rw [putData_byteAt h here]
  split
  · rename_i same
    have len : ((src.drop tot).take (chunk tot off n)).length ≤ chunk tot off n :=
      length_take_le _ _
    have apart : i % BSIZE < off % BSIZE ∨
        off % BSIZE + ((src.drop tot).take (chunk tot off n)).length ≤ i % BSIZE := by
      have block := same.2
      simp only [BSIZE] at block ⊢
      omega
    rw [blit_outside apart]
    unfold byteAt
    rw [same.2]
  · rfl

theorem written_inside (h : Sound s) (here : blockOf s inum (off / BSIZE) ≠ 0) (more : tot < n)
    (room : tot + chunk tot off n ≤ src.length) (lo : off ≤ i) (hi : i < off + chunk tot off n) :
    src[tot + (i - off)]? = some (byteAt (written s inum src tot off n) inum i) := by
  obtain ⟨_, _, fits, _⟩ := @chunk_facts tot off n more
  have block : i / BSIZE = off / BSIZE := by
    simp only [BSIZE] at fits ⊢
    omega
  have rem : i % BSIZE - off % BSIZE = i - off := by
    simp only [BSIZE] at fits block ⊢
    omega
  have low : off % BSIZE ≤ i % BSIZE := by
    simp only [BSIZE] at fits block ⊢
    omega
  have len : ((src.drop tot).take (chunk tot off n)).length = chunk tot off n := by
    rw [length_take, length_drop]
    omega
  have inside : i % BSIZE - off % BSIZE < ((src.drop tot).take (chunk tot off n)).length := by
    rw [len, rem]
    omega
  unfold written
  rw [putData_byteAt h here, if_pos ⟨rfl, block⟩, blit_inside low inside]
  have bound : tot + (i - off) < src.length := by omega
  simp only [rem, getElem_take, getElem_drop]
  exact getElem?_eq_getElem bound

end Chunk

variable {src : List UInt8} {inum n off tot : Nat}

theorem Wrote.cons {u : FsState} {r : Nat × Nat}
    (h : Sound t) (grow : Grow s t ip) (c : Cached t ip inum)
    (here : blockOf t inum (off / BSIZE) ≠ 0) (more : tot < n)
    (room : tot + chunk tot off n ≤ src.length)
    (rest : Wrote (written t inum src tot off n) u ip inum src (tot + chunk tot off n)
      (off + chunk tot off n) n r) : Wrote s u ip inum src tot off n r := by
  obtain ⟨pos, fits, _, boundary⟩ := @chunk_facts tot off n more
  have least := rest.least
  have offset := rest.offset
  have first : Edit s (written t inum src tot off n) ip :=
    grow.edit.trans (putData_edit h c here)
  have mapped : ∀ i, Mapped (written t inum src tot off n) inum i ↔ Mapped t inum i := by
    intro i
    unfold Mapped written
    rw [putData_blockOf h]
  refine ⟨first.trans rest.edit, by omega, ?_, by omega, ?_, ?_, ?_, ?_⟩
  · have most := rest.most
    omega
  · grind [rest.aligned]
  · intro i old out
    have apart : i < off ∨ off + chunk tot off n ≤ i := by omega
    rw [rest.outside i (first.mapped old) (by omega), written_outside h here apart,
      grow.byteAt old]
  · intro i lo hi
    by_cases e : i < off + chunk tot off n
    · have same : i / BSIZE = off / BSIZE := by
        have := (@chunk_facts tot off n more).2.2.1
        simp only [BSIZE] at this ⊢
        omega
      have at_i : Mapped (written t inum src tot off n) inum i := by
        rw [mapped, Mapped, same]
        exact here
      rw [rest.outside i at_i (.inl e)]
      exact ⟨rest.edit.mapped at_i, written_inside h here more room lo e⟩
    · grind [rest.inside]
  · grind [rest.outside, grow.byteAt_blank, rest.blank, chunk, Mapped, written_outside]

theorem Wrote.fault (h : Sound t) (grow : Grow s t ip) (c : Cached t ip inum)
    (here : blockOf t inum (off / BSIZE) ≠ 0) (more : tot < n)
    (short : ¬ tot + chunk tot off n ≤ src.length) :
    Wrote s (written t inum src tot off n) ip inum src tot off n (tot, off) := by
  obtain ⟨_, fits, _, _⟩ := @chunk_facts tot off n more
  refine ⟨grow.edit.trans (putData_edit h c here), Nat.le_refl _, .inl (Nat.le_refl _), by simp,
    fun lt _ => absurd lt (Nat.lt_irrefl _), ?_, ?_, ?_⟩
  · grind [grow.byteAt, chunk, written_outside]
  · omega
  · intro i absent at_w out
    have apart : i < off ∨ off + chunk tot off n ≤ i := by omega
    have at_t : Mapped t inum i := by
      unfold Mapped written at at_w
      rwa [putData_blockOf h] at at_w
    rw [written_outside h here apart]
    exact grow.byteAt_blank absent at_t

theorem wp_writeLoop (inum : Nat) {s : FsState} {P : Nat → FsState → Prop} {F E : Panic → Prop} {fuel : Nat}
    {Q : Nat × Nat → FsState → Prop} (more : tot < n) (call : wp (bmap ip (off / BSIZE)) P F s)
    (errors : ∀ e, F e → E e) (turn : ∀ addr t, P addr t → addr = blockOf t inum (off / BSIZE) ∧
      (addr = 0 → Q (tot, off) t) ∧ (addr ≠ 0 → if tot + chunk tot off n ≤ src.length then
          wp (writeLoop ip src fuel (tot + chunk tot off n) (off + chunk tot off n) n) Q E
            (written t inum src tot off n)
        else Q (tot, off) (written t inum src tot off n))) :
    wp (writeLoop ip src (fuel + 1) tot off n) Q E s := by
  rw [writeLoop, if_pos more]
  refine wp_callE call errors ?_
  intro addr t post
  obtain ⟨rfl, none, some_⟩ := turn addr t post
  split
  · rename_i zero
    exact none zero
  · rename_i here
    unfold bread logWrite
    simp only [wp_bind, wp_get, wp_pure, wp_modify]
    have rest := some_ here
    change wp (if tot + chunk tot off n ≤ src.length then _ else _) Q E (written t inum src tot off n)
    split <;> rename_i fits
    · rwa [if_pos fits] at rest
    · rwa [if_neg fits] at rest

theorem writeLoop_spec (fuel : Nat) : ∀ (s : FsState) (tot off : Nat), Sound s → Cached s ip inum →
      wp (writeLoop ip src fuel tot off n)
        (fun r u => Sound u ∧ Wrote s u ip inum src tot off n r) Benign s := by
  induction fuel with
  | zero =>
    intro s tot off h _
    exact ⟨h, (Grow.refl s ip).wrote⟩
  | succ fuel ih =>
    intro s tot off h c
    by_cases more : tot < n
    · refine wp_writeLoop inum more (bmap_spec (off / BSIZE) h c) (fun _ e => e) ?_
      rintro addr t ⟨sound, grow, rfl, _⟩
      have cached := grow.cached c
      refine ⟨rfl, fun _ => ⟨sound, grow.wrote⟩, fun here => ?_⟩
      have sound' : Sound (written t inum src tot off n) := sound.putData here
      split
      · rename_i room
        refine wp_mono (ih _ _ _ sound' cached) ?_ (fun _ e => e)
        rintro r u ⟨soundU, rest⟩
        exact ⟨soundU, rest.cons sound grow cached here more room⟩
      · rename_i short
        exact ⟨sound', Wrote.fault sound grow cached here more short⟩
    · rw [writeLoop, if_neg more]
      exact ⟨h, (Grow.refl s ip).wrote⟩

end UvaOs.Fs
