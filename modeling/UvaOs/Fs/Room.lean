import UvaOs.Fs.Runs

/-! How far a write comes. A write that is accepted is completed if and only if the source can
be read to its end and the disk has a free block for each node that is missing on the ways to
the blocks of the range; one that stores nothing has failed in its first piece. -/
namespace UvaOs.Fs

open Bytes Prog FsState List Finset Forest

/- The blocks of a file that a range of its bytes touches. -/
def span (off n : Nat) : Finset Nat := (Finset.Ico off (off + n)).image (· / BSIZE)

def ways (inum : Nat) (bns : Finset Nat) : Finset ((Nat × Nat) × List Nat) :=
  bns.biUnion (fun bn => way (inum, (leaf bn).1) (leaf bn).2)

/-- How many blocks must be allocated for a range of a file. -/
def needs (s : FsState) (inum off n : Nat) : Nat := ((forest s).lack (ways inum (span off n))).card

section Ways

theorem span_add (off a b : Nat) : span off (a + b) = span off a ∪ span (off + a) b := by
  rw [span, span, span, ← Finset.image_union, Nat.add_assoc,
    Finset.Ico_union_Ico_eq_Ico (Nat.le_add_right ..) (by omega)]

theorem span_block {off n : Nat} (pos : 0 < n) (fits : off % BSIZE + n ≤ BSIZE) :
    span off n = {off / BSIZE} := by
  ext b
  rw [span, Finset.mem_image, Finset.mem_singleton]
  constructor
  · grind [BSIZE]
  · rintro rfl
    exact ⟨off, mem_Ico.mpr ⟨Nat.le_refl _, by omega⟩, rfl⟩

theorem span_one (off : Nat) : span off 1 = {off / BSIZE} :=
  span_block Nat.one_pos (Nat.mod_lt _ (by decide))

theorem ways_singleton (inum bn : Nat) :
    ways inum {bn} = way (inum, (leaf bn).1) (leaf bn).2 := singleton_biUnion

theorem ways_union (inum : Nat) (a b : Finset Nat) :
    ways inum (a ∪ b) = ways inum a ∪ ways inum b := by
  ext x
  simp only [ways, mem_biUnion, mem_union, or_and_right, exists_or]

theorem ways_nodes (s : FsState) (inum : Nat) (bns : Finset Nat) :
    ∀ x ∈ ways inum bns, (forest s).IsNode x.1 x.2 := by
  intro x hx
  obtain ⟨bn, _, mem⟩ := mem_biUnion.mp hx
  exact way_nodes (leaf_node s inum bn).1 x mem

theorem needs_mono (s : FsState) (inum off : Nat) {a b : Nat} (le : a ≤ b) :
    needs s inum off a ≤ needs s inum off b := by
  obtain ⟨c, rfl⟩ := Nat.exists_eq_add_of_le le
  unfold needs
  rw [span_add, ways_union]
  exact card_le_card (lack_subset subset_union_left)

end Ways

theorem writeLoop_paid {ip inum n : Nat} {src : List UInt8} (enough : n ≤ src.length) (fuel : Nat) :
    ∀ (s : FsState) (tot off : Nat), Sound s → Cached s ip inum → tot ≤ n → n - tot ≤ fuel →
      wp (writeLoop ip src fuel tot off n)
        (fun r u => Paid s u (ways inum (span off (n - tot))) (r.1 = n)) Benign s := by
  have nothing : ∀ (s : FsState) (off : Nat),
      Paid s s (ways inum (span off (n - n))) (n = n) := by
    intro s off
    rw [Nat.sub_self, span, Nat.add_zero, Finset.Ico_self]
    exact .inl ⟨rfl, spent_nothing rfl⟩
  induction fuel with
  | zero =>
    intro s tot off _ _ le fuel
    obtain rfl : tot = n := by omega
    exact nothing s off
  | succ fuel ih =>
    intro s tot off h c le fits
    by_cases more : tot < n
    · obtain ⟨pos, within, inBlock, _⟩ := @chunk_facts tot off n more
      have whole : ways inum (span off (n - tot)) =
          way (inum, (leaf (off / BSIZE)).1) (leaf (off / BSIZE)).2 ∪
            ways inum (span (off + chunk tot off n) (n - (tot + chunk tot off n))) := by
        have split : n - tot = chunk tot off n + (n - (tot + chunk tot off n)) := by omega
        rw [split, span_add, ways_union, span_block pos inBlock, ways_singleton]
      rw [whole]
      refine wp_writeLoop inum more (bmap_spec (off / BSIZE) h c) (fun _ e => e) ?_
      rintro addr t ⟨sound, grow, rfl, paid⟩
      have cached := grow.cached c
      refine ⟨rfl, fun none => ?_, fun here => ?_⟩
      · refine .inr ⟨Nat.ne_of_lt more, ?_⟩
        exact few_mono (paid.resolve_left (fun k => k.1 none)).2 subset_union_left
      · rw [if_pos (by omega)]
        have first : Spent (forest s) (forest (written t inum src tot off n)) (spare s)
            (spare (written t inum src tot off n)) _ :=
          (paid.spent here).congr (fun _ => rfl) (putData_forest _ sound)
        refine wp_mono (ih _ _ _ (sound.putData here) cached within (by omega)) ?_ (fun _ e => e)
        intro r u rest
        exact first.paid rest (ways_nodes s inum _)
    · rw [writeLoop, if_neg more]
      obtain rfl : tot = n := by omega
      exact nothing s off

theorem written_short {s : FsState} {inum off n : Nat} {src : List UInt8} (h : Sound s)
    (here : blockOf s inum (off / BSIZE) ≠ 0) (short : src.length < chunk 0 off n) (i : Nat) :
    byteAt (written s inum src 0 off n) inum i =
      if off ≤ i then (src[i - off]?).getD (byteAt s inum i) else byteAt s inum i := by
  have piece : (src.drop 0).take (chunk 0 off n) = src := by
    rw [drop_zero, take_of_length_le (Nat.le_of_lt short)]
  have last : chunk 0 off n ≤ BSIZE - off % BSIZE := Nat.min_le_right ..
  unfold written
  rw [putData_byteAt h here, piece]
  by_cases same : i / BSIZE = off / BSIZE
  · have low : off % BSIZE ≤ i % BSIZE ↔ off ≤ i := by
      simp only [BSIZE] at same ⊢
      omega
    have rem : off ≤ i → i % BSIZE - off % BSIZE = i - off := by
      simp only [BSIZE] at same ⊢
      omega
    rw [if_pos ⟨rfl, same⟩]
    unfold blit byteAt
    rw [same]
    by_cases lo : off ≤ i
    · rw [if_pos lo, if_pos (low.mpr lo), rem lo]
    · rw [if_neg lo, if_neg (fun k => lo (low.mp k))]
  · rw [if_neg (fun k => same k.2)]
    simp only [BSIZE] at last same
    split
    · -- the next block begins after the last byte that could be read
      rw [getElem?_eq_none (by omega), Option.getD_none]
    · rfl

/-- The first piece of a write was not completed: there was no block for it, or it faulted and
changed those of the old bytes that it came to. -/
inductive Stalled (s u : FsState) (inum : Nat) (src : List UInt8) (off n : Nat) : Prop
  | full (few : spare s < needs s inum off 1)
      (same : ∀ i, Mapped s inum i → byteAt u inum i = byteAt s inum i)
  | fault (room : needs s inum off 1 ≤ spare s) (short : src.length < chunk 0 off n)
      (put : ∀ i, Mapped s inum i → byteAt u inum i =
        if off ≤ i then (src[i - off]?).getD (byteAt s inum i) else byteAt s inum i)

theorem writeLoop_stalled {s : FsState} {ip inum n : Nat} (src : List UInt8) (off : Nat)
    (h : Sound s) (c : Cached s ip inum) (pos : 0 < n) :
    wp (writeLoop ip src n 0 off n) (fun r u => (r.1 = 0 → Stalled s u inum src off n) ∧
      (0 < r.1 → needs s inum off 1 ≤ spare s ∧ chunk 0 off n ≤ src.length)) Benign s := by
  obtain ⟨fuel, rfl⟩ : ∃ m, n = m + 1 := ⟨n - 1, by omega⟩
  have size := (@chunk_facts 0 off (fuel + 1) pos).1
  refine wp_writeLoop inum pos (bmap_spec (off / BSIZE) h c) (fun _ e => e) ?_
  rintro addr t ⟨sound, grow, rfl, paid⟩
  have room := paid.done_iff
  rw [← ways_singleton, ← span_one] at room
  refine ⟨rfl, fun none => ?_, fun here => ?_⟩
  · refine ⟨fun _ => ?_, fun moved => absurd moved (Nat.lt_irrefl 0)⟩
    exact .full (Nat.lt_of_not_le (fun le => room.mpr le none)) (fun i mapped => grow.byteAt mapped)
  · split
    · rename_i fits
      -- what the first piece has stored stays counted
      have cached := grow.cached c
      refine wp_mono (writeLoop_spec fuel _ _ _ (sound.putData here) cached) ?_ (fun _ e => e)
      rintro r u ⟨_, wrote⟩
      have least := wrote.least
      exact ⟨fun zero => absurd zero (by omega), fun _ => ⟨room.mp here, by omega⟩⟩
    · rename_i short
      refine ⟨fun _ => ?_, fun moved => absurd moved (Nat.lt_irrefl 0)⟩
      refine .fault (room.mp here) (by omega) ?_
      intro i mapped
      rw [written_short sound here (by omega), grow.byteAt mapped]

/- What `writei` accepts, for lengths that do not wrap around. -/
def Accepted (s : FsState) (inum off n : Nat) : Prop :=
  off ≤ (file s inum).data.length ∧ off + n ≤ MAXFILE * BSIZE

section Writei

variable {s t : FsState} {ip inum off n : Nat} {src : List UInt8} {r : Int}

theorem length_data (c : Cached s ip inum) (h : Table s) :
    (file s inum).data = bytes s inum 0 (current s inum).size := by
  rw [file, if_pos (c.allocated h)]

theorem writei_run (h : Sound s) (full : Full s) (c : Cached s ip inum) (small : n < UINT)
    (run : writei ip src off n s = .ok (r, t)) : (¬ Accepted s inum off n ∧ r = -1 ∧ t = s) ∨
    (Accepted s inum off n ∧ ∃ w u, writeLoop ip src n 0 off n s = .ok (w, u) ∧ r = w.1 ∧
      t = stored u ip inum (extend w.2)) := by
  have now := current_cached h.table.unique c
  have bound := full.bound inum (c.allocated h.table)
  have limit := maxBytes
  unfold Accepted
  rw [length_data c h.table, length_bytes, now]
  rw [now] at bound
  unfold writei at run
  rw [run_inode] at run
  split at run
  · rename_i refused
    cases run
    refine .inl ⟨?_, rfl, rfl⟩
    simp only [UINT] at refused
    omega
  · rename_i go
    have sum : (off + n) % UINT = off + n := by
      simp only [UINT] at go small ⊢
      omega
    rw [sum] at go run
    split at run
    · cases run
      exact .inl ⟨by omega, rfl, rfl⟩
    · refine .inr ⟨by omega, ?_⟩
      cases loop : writeLoop ip src n 0 off n s with
      | error e =>
        rw [run_bind_error loop] at run
        cases run
      | ok p =>
        obtain ⟨w, u⟩ := p
        rw [run_bind loop] at run
        obtain ⟨_, wrote⟩ := wp_ok (writeLoop_spec n s 0 off h c) loop
        have cached := wrote.cached c
        have size : (u.itable ip).copy.size = (s.itable ip).copy.size := by
          obtain ⟨a, ha⟩ := wrote.edit.itable
          rw [ha, itable_onCopy_self]
        obtain ⟨rfl, rfl⟩ := wp_ok (writeTail_spec cached size w.1) run
        exact ⟨w, u, rfl, rfl, rfl⟩

/-- What an accepted write of `n` bytes has done when it returns `w`. -/
structure Served (s t : FsState) (ip inum : Nat) (src : List UInt8) (off n w : Nat) : Prop where
  sound : Sound t
  full : Full t
  cached : Cached t ip inum
  most : w ≤ n
  complete : w = n ↔ n ≤ src.length ∧ needs s inum off n ≤ spare s
  stores : w = n → (file t inum).data = splice (file s inum).data off (src.take n)
  spent : w = n →
    Spent (forest s) (forest t) (spare s) (spare t) (ways inum (span off n))
  stalls : w = 0 → (spare s < needs s inum off 1 ∧ (file t inum).data = (file s inum).data) ∨
    (needs s inum off 1 ≤ spare s ∧ src.length < chunk 0 off n ∧ (file t inum).data =
      (splice (file s inum).data off src).take (file s inum).data.length)
  begun : 0 < w → needs s inum off 1 ≤ spare s ∧ chunk 0 off n ≤ src.length

theorem Wrote.data {u : FsState} {w : Nat × Nat} (wrote : Wrote s u ip inum src 0 off n w)
    (table : Table s) (sound : Sound u) (c : Cached s ip inum) :
    (UvaOs.Fs.file (stored u ip inum (extend w.2)) inum).data =
      bytes u inum 0 (max (current s inum).size w.2) := by
  have cached := wrote.cached c
  obtain ⟨a, own⟩ := wrote.edit.current_self table.unique c
  rw [file_stored sound.table cached rfl (sound.table.typed ip inum cached).1, own,
    Function.update_self]
  rfl

theorem Stalled.data {u : FsState} (stalled : Stalled s u inum src off n) (table : Table s)
    (full : Full s) (c : Cached s ip inum) (within : off ≤ (current s inum).size) :
    (spare s < needs s inum off 1 ∧ bytes u inum 0 (current s inum).size = (file s inum).data) ∨
    (needs s inum off 1 ≤ spare s ∧ src.length < chunk 0 off n ∧
      bytes u inum 0 (current s inum).size =
        (splice (file s inum).data off src).take (file s inum).data.length) := by
  have mapped := fun i => full.mapped inum i (c.allocated table)
  rw [length_data c table, length_bytes]
  cases stalled with
  | full few same =>
    exact .inl ⟨few, bytes_congr (fun i lt => same i (mapped i lt))⟩
  | fault room short put =>
    refine .inr ⟨room, short, ?_⟩
    apply ext_getElem?
    intro i
    rw [getElem?_take, getElem?_splice _ _ (by rw [length_bytes]; exact within)]
    simp only [getElem?_bytes, Nat.zero_add]
    by_cases lt : i < (current s inum).size
    · grind
    · rw [if_neg lt, if_neg lt]

theorem writei_served (h : Sound s) (full : Full s) (c : Cached s ip inum) (pos : 0 < n)
    (small : n < 2 ^ 31) (run : writei ip src off n s = .ok (r, t)) :
    (¬ Accepted s inum off n ∧ r = -1 ∧ t = s) ∨
    (Accepted s inum off n ∧ ∃ w : Nat, r = w ∧ Served s t ip inum src off n w) := by
  rcases writei_run h full c (small.trans (by decide)) run with refused | ⟨accepted, w, u, loop, rfl, rfl⟩
  · exact .inl refused
  · refine .inr ⟨accepted, w.1, rfl, ?_⟩
    have within : off ≤ (current s inum).size := by
      have inside := accepted.1
      rwa [length_data c h.table, length_bytes] at inside
    obtain ⟨sound, wrote⟩ := wp_ok (writeLoop_spec n s 0 off h c) loop
    have offset := wrote.offset
    have most := wrote.most
    have cached := wrote.cached c
    have typed := (sound.table.typed ip inum cached).1
    have paid : n ≤ src.length → Paid s u (ways inum (span off n)) (w.1 = n) := by
      intro enough
      have all := writeLoop_paid enough n s 0 off h c (Nat.zero_le _) (Nat.le_refl _)
      have bill := wp_ok all loop
      exact bill
    have first := wp_ok (writeLoop_stalled src off h c pos) loop
    refine ⟨(wrote.sound c sound).1, wrote.full h.table full c sound within,
      (cached_stored ip inum).mpr cached, by omega, ?_, ?_, ?_, ?_, first.2⟩
    · constructor
      · intro all
        exact ⟨wrote.enough all, (paid (wrote.enough all)).done_iff.mp all⟩
      · rintro ⟨enough, room⟩
        exact (paid enough).done_iff.mpr room
    · intro all
      rw [wrote.file h.table full c sound within (wrote.enough all), Function.update_self, all]
    · intro all
      refine ((paid (wrote.enough all)).spent all).congr (fun _ => rfl) ?_
      intro r js _
      have types : (extend w.2 (u.itable ip).copy).type = .free ↔
          (u.itable ip).copy.type = .free := Iff.rfl
      rw [stored_forest sound.table.unique cached rfl types]
    · intro none
      have last : max (current s inum).size w.2 = (current s inum).size := by omega
      rw [wrote.data h.table sound c, last]
      exact (first.1 none).data h.table full c within

theorem writei_type (h : Sound s) (full : Full s) (c : Cached s ip inum) (small : n < 2 ^ 31)
    (run : writei ip src off n s = .ok (r, t)) : (file t inum).type = (file s inum).type := by
  rcases writei_run h full c (small.trans (by decide)) run with ⟨_, _, rfl⟩ | ⟨_, w, u, loop, _, rfl⟩
  · rfl
  · obtain ⟨sound, wrote⟩ := wp_ok (writeLoop_spec n s 0 off h c) loop
    have cached := wrote.cached c
    obtain ⟨a, own⟩ := wrote.edit.current_self h.table.unique c
    rw [file_stored sound.table cached rfl (sound.table.typed ip inum cached).1, own,
      Function.update_self, file, if_pos (c.allocated h.table)]
    rfl

end Writei

section Mapped

variable {s : FsState} {ip inum off n : Nat}

theorem needs_mapped (mapped : ∀ i, off ≤ i → i < off + n → Mapped s inum i) :
    needs s inum off n = 0 := by
  rw [needs, card_eq_zero, lack, filter_eq_empty_iff]
  intro x hx absent
  obtain ⟨bn, touched, onWay⟩ := mem_biUnion.mp hx
  obtain ⟨i, range, rfl⟩ := mem_image.mp touched
  obtain ⟨root, below, rest⟩ := mem_way.mp onWay
  rw [mem_Ico] at range
  refine mapped i range.1 range.2 ?_
  rw [blockOf, ← rest, ← root]
  exact ptr_append_zero (forest s) absent below

theorem writeLoop_returns (src : List UInt8) (fuel : Nat) :
    ∀ (s : FsState) (tot off : Nat), Sound s → Cached s ip inum →
      (∀ i, off ≤ i → i < off + (n - tot) → Mapped s inum i) →
      wp (writeLoop ip src fuel tot off n) (fun _ _ => True) (fun _ => False) s := by
  induction fuel with
  | zero =>
    intro s tot off _ _ _
    trivial
  | succ fuel ih =>
    intro s tot off h c mapped
    by_cases more : tot < n
    · obtain ⟨pos, within, _, _⟩ := @chunk_facts tot off n more
      have here : blockOf s inum (off / BSIZE) ≠ 0 := mapped off (Nat.le_refl _) (by omega)
      refine wp_writeLoop inum more (bmap_mapped h.table c here) (fun _ no => no) ?_
      rintro addr t ⟨rfl, rfl⟩
      refine ⟨rfl, fun none => absurd none here, fun _ => ?_⟩
      split
      · refine ih _ _ _ (h.putData here) c ?_
        intro i lo hi
        unfold Mapped written
        rw [putData_blockOf h]
        exact mapped i (by omega) (by omega)
      · trivial
    · rw [writeLoop, if_neg more]
      trivial

theorem writei_ends {src : List UInt8} (h : Sound s) (c : Cached s ip inum)
    (native : isFattype (s.itable ip).copy.type = false)
    (loop : wp (writeLoop ip src n 0 off n) (fun _ _ => True) (fun _ => False) s) :
    ∃ r t, writei ip src off n s = .ok (r, t) := by
  have spec : wp (writei ip src off n) (fun _ _ => True) (fun _ => False) s := by
    unfold writei inode
    simp only [wp_bind, wp_get, wp_pure]
    split
    · trivial
    · split
      · trivial
      · refine wp_callE (wp_and loop (writeLoop_spec n s 0 off h c)) (fun _ e => e.1) ?_
        rintro w u ⟨_, _, wrote⟩
        have cached := wrote.cached c
        obtain ⟨a, ha⟩ := wrote.edit.itable
        have copy : (u.itable ip).copy = { (s.itable ip).copy with addrs := a } := by
          rw [ha, itable_onCopy_self]
        refine wp_mono (writeTail_spec cached (by rw [copy]) w.1) (fun _ _ _ => trivial) ?_
        rintro e ⟨_, fat⟩
        rw [copy, native] at fat
        cases fat
  obtain ⟨r, t, ok, _⟩ := wp_returns spec (fun _ no => no)
  exact ⟨r, t, ok⟩

theorem writei_returns (src : List UInt8) (h : Sound s) (c : Cached s ip inum)
    (mapped : ∀ i, off ≤ i → i < off + n → Mapped s inum i)
    (native : isFattype (s.itable ip).copy.type = false) : ∃ r t, writei ip src off n s = .ok (r, t) :=
  writei_ends h c native (writeLoop_returns src n s 0 off h c mapped)

end Mapped

/-! Where a write halts. `bmap` checks the results of `balloc` for the direct and the indirect
blocks and for the data block below two indices. It does not for the two index blocks, where the
assertion behind the second one stops the machine. -/

def missing (s : FsState) (A : Finset ((Nat × Nat) × List Nat)) : Nat := ((forest s).lack A).card

def indexWay (inum bn : Nat) : Finset ((Nat × Nat) × List Nat) :=
  if bn < NDIRECT + NINDIRECT then ∅
  else way (inum, NDIRECT + 1) [(bn - NDIRECT - NINDIRECT) / NINDIRECT]

def before (off n bn : Nat) : Finset Nat := (span off n).filter (· < bn)

/-- The disk does not become full on an index block: when there is room for the blocks of the
range before `bn`, there is room for the index blocks above `bn` as well. -/
def Provided (s : FsState) (inum off n : Nat) : Prop :=
  ∀ bn ∈ span off n, missing s (ways inum (before off n bn)) ≤ spare s →
    missing s (ways inum (before off n bn) ∪ indexWay inum bn) ≤ spare s

section Index

variable {s : FsState} {ip inum bn : Nat}

theorem indexWay_outer (h : bn < NDIRECT + NINDIRECT) : indexWay inum bn = ∅ := if_pos h

theorem indexWay_doubly (lo : ¬ bn < NDIRECT) (hi : ¬ bn - NDIRECT < NINDIRECT) :
    indexWay inum bn = way (inum, NDIRECT + 1) [(bn - NDIRECT - NINDIRECT) / NINDIRECT] := by
  refine if_neg ?_
  simp only [NDIRECT, NINDIRECT] at *
  omega

theorem missing_empty (s : FsState) : missing s ∅ = 0 := rfl

theorem indexWay_nodes (s : FsState) (inum bn : Nat) :
    ∀ x ∈ indexWay inum bn, (forest s).IsNode x.1 x.2 := by
  intro x hx
  unfold indexWay at hx
  split at hx
  · exact absurd hx (notMem_empty x)
  · have node : (forest s).IsNode (inum, NDIRECT + 1) [(bn - NDIRECT - NINDIRECT) / NINDIRECT] :=
      Nat.le_succ 1
    exact way_nodes node x hx

theorem outer_halts {m : FsM Nat} (outer : bn < NDIRECT + NINDIRECT)
    (ends : wp m (fun _ _ => True) (fun _ => False) s) :
    wp m (fun _ _ => missing s (indexWay inum bn) ≤ spare s)
      (fun _ => spare s < missing s (indexWay inum bn)) s := by
  rw [indexWay_outer outer, missing_empty]
  exact wp_mono ends (fun _ _ _ => Nat.zero_le _) (fun _ no => no.elim)

theorem bmap_halts (h : Sound s) (c : Cached s ip inum) (inside : bn < MAXFILE) :
    wp (bmap ip bn) (fun _ _ => missing s (indexWay inum bn) ≤ spare s)
      (fun _ => spare s < missing s (indexWay inum bn)) s := by
  rcases range_cases bn with direct | ⟨lo, hi⟩ | ⟨lo, hi, mid⟩ | outside
  · rw [bmap_direct direct]
    exact outer_halts (Nat.lt_add_right _ direct) (wp_mono (rootBlock_took h.layout ip bn)
      (fun _ _ _ => trivial) (fun _ e => e))
  · rw [bmap_indirect lo hi]
    refine outer_halts (by simp only [NDIRECT, NINDIRECT] at *; omega) ?_
    refine wp_call (rootBlock_spec h c (by decide)) ?_
    rintro addr t ⟨sound, _⟩
    split
    · trivial
    · exact wp_mono (indirectEntry_took sound.layout addr _) (fun _ _ _ => trivial) (fun _ e => e)
  · rw [indexWay_doubly lo hi, bmap_doubly lo hi mid]
    have quot := Nat.div_lt_of_lt_mul mid
    generalize (bn - NDIRECT - NINDIRECT) / NINDIRECT = q at *
    generalize (bn - NDIRECT - NINDIRECT) % NINDIRECT = m at *
    have upper := way_snoc (inum, NDIRECT + 1) [] q
    refine wp_call (rootBlock_spec h c (by decide)) ?_
    rintro b t ⟨sound, grow, here, paid, out⟩
    have cached := grow.cached c
    by_cases z : b = 0
    · -- the lookup goes on in block 0, whose entries are zero
      obtain ⟨rfl, full⟩ := out z
      have few := (paid.resolve_left (fun k => k.1 z)).2
      rw [z]
      refine wp_call (doublyEntry_full h.layout q full) ?_
      rintro b u rfl
      exact few_mono few (upper ▸ subset_union_left)
    · have top : (forest t).IsIndex (inum, NDIRECT + 1) [] := Nat.zero_lt_two
      subst here
      refine wp_call (doublyEntry_spec sound cached top z quot) ?_
      rintro b u ⟨_, _, _, paid'⟩
      have node : (forest s).IsNode (inum, NDIRECT + 1) ([] ++ [q]) := Nat.le_succ 1
      have half := (paid.spent z).down node paid'
      split
      · rename_i none
        exact (half.resolve_left (fun k => k.1 none)).2
      · rename_i some
        exact wp_mono (doublyEntry_took u b m) (fun _ _ _ => half.done_iff.mp some) (fun _ e => e)
  · exact absurd inside (Nat.not_lt.mpr outside)

end Index

section Loop

variable {s t : FsState} {ip inum off n : Nat}

theorem before_first (off n : Nat) : before off n (off / BSIZE) = ∅ := by
  unfold before span
  rw [filter_eq_empty_iff]
  intro b hb
  obtain ⟨i, hi, rfl⟩ := mem_image.mp hb
  rw [mem_Ico] at hi
  exact Nat.not_lt.mpr (Nat.div_le_div_right hi.1)

theorem mem_span_first {off n : Nat} (pos : 0 < n) : off / BSIZE ∈ span off n :=
  mem_image.mpr ⟨off, mem_Ico.mpr ⟨Nat.le_refl _, by omega⟩, rfl⟩

theorem mem_span_le {bn : Nat} (mem : bn ∈ span off n) : off / BSIZE ≤ bn := by
  obtain ⟨i, hi, rfl⟩ := mem_image.mp mem
  exact Nat.div_le_div_right (Finset.mem_Ico.mp hi).1

theorem before_later {a m bn : Nat} (pos : 0 < a) (inBlock : off % BSIZE + a ≤ BSIZE)
    (later : off / BSIZE < bn) : before off (a + m) bn = {off / BSIZE} ∪ before (off + a) m bn := by
  unfold before
  rw [span_add, span_block pos inBlock, Finset.filter_union, Finset.filter_singleton, if_pos later]

theorem provided_split {a m : Nat} (pos : 0 < a) (inBlock : off % BSIZE + a ≤ BSIZE)
    (next : 0 < m → (off + a) % BSIZE = 0)
    (spent : Spent (forest s) (forest t) (spare s) (spare t) (ways inum {off / BSIZE}))
    (first : missing s (indexWay inum (off / BSIZE)) ≤ spare s) :
    Provided s inum off (a + m) ↔ Provided t inum (off + a) m := by
  have count := spent.count
  have shift : ∀ B : Finset ((Nat × Nat) × List Nat), (∀ x ∈ B, (forest s).IsNode x.1 x.2) →
      (missing s (ways inum {off / BSIZE} ∪ B) ≤ spare s ↔ missing t B ≤ spare t) := by
    grind [spent.card_union, missing]
  have rest : ∀ bn, off / BSIZE < bn →
      ((missing s (ways inum (before off (a + m) bn)) ≤ spare s →
        missing s (ways inum (before off (a + m) bn) ∪ indexWay inum bn) ≤ spare s) ↔
      (missing t (ways inum (before (off + a) m bn)) ≤ spare t →
        missing t (ways inum (before (off + a) m bn) ∪ indexWay inum bn) ≤ spare t)) := by
    intro bn later
    rw [before_later pos inBlock later, ways_union, union_assoc,
      shift _ (ways_nodes s inum _), shift]
    intro x hx
    rcases mem_union.mp hx with hx | hx
    · exact ways_nodes s inum _ x hx
    · exact indexWay_nodes s inum bn x hx
  constructor
  · intro provided bn mem
    have later : off / BSIZE < bn := by
      have low := mem_span_le mem
      obtain ⟨i, hi, rfl⟩ := mem_image.mp mem
      rw [mem_Ico] at hi
      have aligned := next (by omega)
      simp only [BSIZE] at *
      omega
    refine (rest bn later).mp (provided bn ?_)
    rw [span_add]
    exact Finset.mem_union_right _ mem
  · intro provided bn mem
    rw [span_add, span_block pos inBlock, Finset.mem_union, Finset.mem_singleton] at mem
    rcases Nat.lt_or_ge (off / BSIZE) bn with later | le
    · exact (rest bn later).mpr (provided bn (mem.resolve_left (Nat.ne_of_gt later)))
    · have same : bn = off / BSIZE := by
        rcases mem with same | mem
        · exact same
        · have low := mem_span_le mem
          have mono : off / BSIZE ≤ (off + a) / BSIZE := Nat.div_le_div_right (Nat.le_add_right ..)
          omega
      subst same
      intro _
      rw [before_first, ways, biUnion_empty, empty_union]
      exact first

theorem provided_short (first : missing s (indexWay inum (off / BSIZE)) ≤ spare s)
    (few : spare s < missing s (ways inum {off / BSIZE})) : Provided s inum off n := by
  intro bn mem enough
  rcases Nat.lt_or_ge (off / BSIZE) bn with later | le
  · have pos : 0 < n := by
      obtain ⟨i, hi, _⟩ := mem_image.mp mem
      rw [mem_Ico] at hi
      omega
    have sub : ways inum {off / BSIZE} ⊆ ways inum (before off n bn) := by
      refine biUnion_subset_biUnion_of_subset_left _ ?_
      rw [singleton_subset_iff]
      exact mem_filter.mpr ⟨mem_span_first pos, later⟩
    exact absurd enough (Nat.not_le.mpr (few_mono few sub))
  · grind [Nat.le_antisymm, mem_span_le, before_first, ways, biUnion_empty, empty_union]

theorem provided_nothing (s : FsState) (inum off : Nat) : Provided s inum off 0 := by
  intro bn mem
  rw [span, Nat.add_zero, Finset.Ico_self] at mem
  exact absurd mem (notMem_empty bn)

theorem writeLoop_halts {src : List UInt8} (enough : n ≤ src.length) (fuel : Nat) :
    ∀ (s : FsState) (tot off : Nat), Sound s → Cached s ip inum → tot ≤ n → n - tot ≤ fuel →
      off + (n - tot) ≤ MAXFILE * BSIZE →
      wp (writeLoop ip src fuel tot off n) (fun _ _ => Provided s inum off (n - tot))
        (fun _ => ¬ Provided s inum off (n - tot)) s := by
  induction fuel with
  | zero =>
    intro s tot off _ _ le fits _
    obtain rfl : tot = n := by omega
    change Provided s inum off (tot - tot)
    rw [Nat.sub_self]
    exact provided_nothing s inum off
  | succ fuel ih =>
    intro s tot off h c le fits below
    by_cases more : tot < n
    · obtain ⟨pos, within, inBlock, next⟩ := @chunk_facts tot off n more
      have split : n - tot = chunk tot off n + (n - (tot + chunk tot off n)) := by omega
      have inside : off / BSIZE < MAXFILE := by
        simp only [BSIZE] at below ⊢
        omega
      refine wp_writeLoop inum more (wp_and (bmap_halts h c inside)
        (bmap_spec (off / BSIZE) h c)) ?_ ?_
      · rintro e ⟨few, _⟩ provided
        have index := provided (off / BSIZE) (mem_span_first (by omega))
        rw [before_first, ways, biUnion_empty, empty_union] at index
        have room := index (Nat.zero_le _)
        omega
      · rintro addr t ⟨first, sound, grow, rfl, paid⟩
        have cached := grow.cached c
        rw [← ways_singleton] at paid
        refine ⟨rfl, fun none => ?_, fun here => ?_⟩
        · exact provided_short first (paid.resolve_left (fun k => k.1 none)).2
        · rw [if_pos (by omega)]
          have spent : Spent (forest s) (forest (written t inum src tot off n)) (spare s)
              (spare (written t inum src tot off n)) (ways inum {off / BSIZE}) :=
            (paid.spent here).congr (fun _ => rfl) (putData_forest _ sound)
          have same : Provided s inum off (n - tot) ↔ Provided (written t inum src tot off n) inum
              (off + chunk tot off n) (n - (tot + chunk tot off n)) := by grind [provided_split]
          rw [same]
          exact ih _ _ _ (sound.putData here) cached within (by omega) (by omega)
    · rw [writeLoop, if_neg more]
      obtain rfl : tot = n := by omega
      change Provided s inum off (tot - tot)
      rw [Nat.sub_self]
      exact provided_nothing s inum off

end Loop

section Complete

variable {s : FsState} {ip inum off n : Nat} {src : List UInt8}

theorem indexWay_subset (inum bn : Nat) :
    indexWay inum bn ⊆ way (inum, (leaf bn).1) (leaf bn).2 := by
  unfold indexWay
  split
  · exact empty_subset _
  · rename_i outer
    rw [leaf_doubly (by simp only [NDIRECT, NINDIRECT] at *; omega)
      (by simp only [NDIRECT, NINDIRECT] at *; omega)]
    intro x mem
    obtain ⟨root, pre⟩ := mem_way.mp mem
    exact mem_way.mpr ⟨root, pre.trans (prefix_append [_] [_])⟩

theorem provided_of_room (room : needs s inum off n ≤ spare s) : Provided s inum off n := by
  intro bn mem _
  refine le_trans (card_le_card (lack_subset (union_subset ?_ ?_))) room
  · exact biUnion_subset_biUnion_of_subset_left _ (filter_subset ..)
  · refine (indexWay_subset inum bn).trans ?_
    rw [← ways_singleton]
    exact biUnion_subset_biUnion_of_subset_left _ (singleton_subset_iff.mpr mem)

theorem writei_complete (h : Sound s) (full : Full s) (c : Cached s ip inum) (pos : 0 < n)
    (native : isFattype (s.itable ip).copy.type = false) (accepted : Accepted s inum off n)
    (enough : n ≤ src.length) (room : needs s inum off n ≤ spare s) :
    ∃ t, writei ip src off n s = .ok ((n : Int), t) ∧ Served s t ip inum src off n n := by
  have limit := maxBytes
  have small : n < 2 ^ 31 := by
    have below := accepted.2
    omega
  obtain ⟨r, t, ok⟩ := writei_ends h c native (wp_mono (writeLoop_halts enough n s 0 off h c
    (Nat.zero_le _) (Nat.le_refl _) accepted.2) (fun _ _ _ => trivial)
    (fun _ no => no (provided_of_room room)))
  rcases writei_served h full c pos small ok with ⟨refused, _⟩ | ⟨_, w, rfl, served⟩
  · exact absurd accepted refused
  · obtain rfl := served.complete.mpr ⟨enough, room⟩
    exact ⟨t, ok, served⟩

end Complete

end UvaOs.Fs
