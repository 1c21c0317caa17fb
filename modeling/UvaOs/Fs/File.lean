import UvaOs.Fs.Contents

/-! Files as byte strings. The abstract state of the file system is a map from
inode numbers to files; `file` reads it off the inodes, the pointers and the
blocks, and the operations below are what they should be on that map. -/
namespace UvaOs.Fs

open Bytes Prog FsState List
open Function (update update_self update_of_ne)

@[ext] structure File where
  type : IType
  major : Int
  minor : Int
  nlink : Int
  data : List UInt8
  deriving DecidableEq

def File.none : File := ⟨.free, 0, 0, 0, []⟩

def bytes (s : FsState) (inum off n : Nat) : List UInt8 :=
  (List.range n).map (fun i => byteAt s inum (off + i))

def Allocated (s : FsState) (inum : Nat) : Prop :=
  inum < s.sb.ninodes ∧ (current s inum).type ≠ .free

instance (s : FsState) (inum : Nat) : Decidable (Allocated s inum) :=
  inferInstanceAs (Decidable (_ ∧ _))

def file (s : FsState) (inum : Nat) : File :=
  if Allocated s inum then
    ⟨(current s inum).type, (current s inum).major, (current s inum).minor,
      (current s inum).nlink, bytes s inum 0 (current s inum).size⟩
  else .none

/-- Every byte below the size of a file has a block, and copies agree with the disk. -/
structure Full (s : FsState) : Prop where
  bound : ∀ m, Allocated s m → (current s m).size ≤ MAXFILE * BSIZE
  mapped : ∀ m i, Allocated s m → i < (current s m).size → Mapped s m i
  synced : Synced s

section Bytes

@[simp] theorem length_bytes (s : FsState) (inum off n : Nat) : (bytes s inum off n).length = n := by
  simp [bytes]

theorem getElem?_bytes (s : FsState) (inum off n i : Nat) :
    (bytes s inum off n)[i]? = if i < n then some (byteAt s inum (off + i)) else none := by
  unfold bytes
  rw [getElem?_map]
  split
  · rename_i lt
    rw [getElem?_range lt]
    rfl
  · rename_i ge
    rw [getElem?_eq_none (by simpa using ge)]
    rfl

theorem bytes_append (s : FsState) (inum off a b : Nat) :
    bytes s inum off a ++ bytes s inum (off + a) b = bytes s inum off (a + b) := by
  apply ext_getElem?
  intro i
  rw [getElem?_append, length_bytes]
  simp only [getElem?_bytes]
  by_cases lt : i < a
  · rw [if_pos lt, if_pos lt, if_pos (by omega)]
  · grind

theorem bytes_drop_take (s : FsState) (inum size off n : Nat) :
    ((bytes s inum 0 size).drop off).take n = bytes s inum off (min n (size - off)) := by
  apply ext_getElem?
  intro i
  rw [getElem?_take, getElem?_drop]
  simp only [getElem?_bytes]
  by_cases lt : i < n
  · grind
  · rw [if_neg lt, if_neg (by omega)]

theorem bytes_congr {s t : FsState} {m n : Nat} (h : ∀ i, i < n → byteAt t m i = byteAt s m i) :
    bytes t m 0 n = bytes s m 0 n := by
  unfold bytes
  apply map_congr_left
  intro i hi
  rw [Nat.zero_add]
  exact h i (mem_range.mp hi)

end Bytes

variable {s t : FsState} {inum ip n off room : Nat} {E : Panic → Prop}

theorem file_congr {m : Nat} (sb : t.sb = s.sb) (now : current t m = current s m)
    (data : Allocated s m → ∀ i, i < (current s m).size → byteAt t m i = byteAt s m i) :
    file t m = file s m := by
  have alloc : Allocated t m ↔ Allocated s m := by
    unfold Allocated
    rw [sb, now]
  unfold file
  by_cases a : Allocated s m
  · rw [if_pos a, if_pos (alloc.mpr a), now, bytes_congr (data a)]
  · rw [if_neg a, if_neg (fun k => a (alloc.mp k))]

theorem Quiet.byteAt (q : Quiet s t) (m i : Nat) : byteAt t m i = byteAt s m i := by
  unfold UvaOs.Fs.byteAt blockOf
  rw [q.forest, q.block]

theorem Quiet.file (q : Quiet s t) : file t = file s := by
  funext m
  exact file_congr q.sb (q.now m) (fun _ i _ => q.byteAt m i)

theorem Quiet.full (q : Quiet s t) (h : Full s) : Full t := by
  have alloc : ∀ m, Allocated t m ↔ Allocated s m := by
    intro m
    unfold Allocated
    rw [q.sb, q.now]
  refine ⟨?_, ?_, q.synced h.synced⟩
  · intro m a
    rw [q.now]
    exact h.bound m ((alloc m).mp a)
  · intro m i a lt
    rw [q.now] at lt
    unfold Mapped blockOf
    rw [q.forest]
    exact h.mapped m i ((alloc m).mp a) lt

theorem Cached.allocated (c : Cached s ip inum) (h : Table s) : Allocated s inum := by
  have inside := h.range ip c.1 c.2.1 c.2.2.1
  rw [c.2.2.2.1] at inside
  refine ⟨inside, ?_⟩
  rw [current_cached h.unique c]
  exact (h.typed ip inum c).1

/-! Reading -/

theorem readLoop_mapped (h : Table s) (c : Cached s ip inum) (fuel : Nat) :
    ∀ (tot off : Nat) (out : List UInt8), tot ≤ n → n - tot ≤ fuel →
      (∀ i, off ≤ i → i < off + (n - tot) → Mapped s inum i) →
      wp (readLoop ip room fuel tot off n out)
        (fun r t => t = s ∧ (n ≤ room → r = ((n : Int), out ++ bytes s inum off (n - tot)))) E s := by
  induction fuel with
  | zero =>
    intro tot off out le enough _
    have done : tot = n := by omega
    rw [done, Nat.sub_self]
    exact ⟨rfl, by simp [bytes]⟩
  | succ fuel ih =>
    intro tot off out le enough mapped
    unfold readLoop
    by_cases more : tot < n
    · rw [if_pos more]
      obtain ⟨pos, within, inBlock, _⟩ := @chunk_facts tot off n more
      have here : blockOf s inum (off / BSIZE) ≠ 0 := mapped off (Nat.le_refl _) (by omega)
      refine wp_call (bmap_mapped h c here) ?_
      rintro addr t ⟨rfl, rfl⟩
      rw [if_neg here]
      have piece : slice (t.block (blockOf t inum (off / BSIZE))) (off % BSIZE) (chunk tot off n) =
          bytes t inum off (chunk tot off n) := by
        unfold slice bytes
        apply map_congr_left
        intro i hi
        have lt := mem_range.mp hi
        have quot : (off + i) / BSIZE = off / BSIZE := by
          simp only [BSIZE] at inBlock ⊢
          omega
        have rem : (off + i) % BSIZE = off % BSIZE + i := by
          simp only [BSIZE] at inBlock ⊢
          omega
        unfold byteAt
        rw [quot, rem]
      unfold bread
      simp only [wp_bind, wp_get, wp_pure]
      change wp (if tot + chunk tot off n ≤ room then _ else _) _ _ _
      split
      · refine wp_mono (ih _ _ _ within (by omega) ?_) ?_ (fun _ e => e)
        · intro i lo hi
          exact mapped i (by omega) (by omega)
        · grind [chunk, slice, bytes, append_assoc, bytes_append]
      · exact ⟨rfl, fun fits => by omega⟩
    · rw [if_neg more]
      have done : tot = n := by omega
      rw [done, Nat.sub_self]
      exact ⟨rfl, by simp [bytes]⟩

theorem readi_full (h : Sound s)
    (full : Full s) (c : Cached s ip inum) (hoff : off < UINT) (hn : n < UINT) :
    wp (readi ip room off n) (fun r t => t = s ∧ (n ≤ room →
      r = if off ≤ (file s inum).data.length ∧ off + n < UINT then
          (((min n ((file s inum).data.length - off) : Nat) : Int),
            ((file s inum).data.drop off).take n)
        else (0, []))) E s := by
  have now := current_cached h.table.unique c
  have alloc := c.allocated h.table
  have data : (file s inum).data = bytes s inum 0 (current s inum).size := by
    unfold file
    rw [if_pos alloc]
  have small := full.bound inum alloc
  have limit : MAXFILE * BSIZE < UINT := by decide
  rw [data, length_bytes, bytes_drop_take]
  unfold readi inode
  simp only [wp_bind, wp_get, wp_pure, ← now]
  simp only [UINT] at hoff hn limit
  by_cases inside : off ≤ (current s inum).size ∧ off + n < UINT
  · have sum : (off + n) % UINT = off + n := Nat.mod_eq_of_lt inside.2
    have go : ¬ (off > (current s inum).size ∨ (off + n) % UINT < off) := by
      rw [sum]
      omega
    rw [if_neg go, if_pos inside, sum]
    have length : (if off + n > (current s inum).size then (current s inum).size - off else n) =
        min n ((current s inum).size - off) := by
      split <;> omega
    rw [length]
    refine wp_mono (readLoop_mapped h.table c _ 0 off [] (Nat.zero_le _) (Nat.le_refl _) ?_) ?_
      (fun _ e => e)
    · intro i _ hi
      exact full.mapped inum i alloc (by omega)
    · rintro r t ⟨rfl, read⟩
      exact ⟨rfl, fun fits => read (by omega)⟩
  · have stop : off > (current s inum).size ∨ (off + n) % UINT < off := by
      rcases not_and_or.mp inside with low | wraps
      · exact .inl (by omega)
      · right
        simp only [UINT] at wraps ⊢
        omega
    rw [if_pos stop, if_neg inside]
    exact ⟨rfl, fun _ => rfl⟩

theorem readLoop_spec (fuel : Nat) :
    ∀ (s : FsState) (tot off : Nat) (out : List UInt8), Sound s → Cached s ip inum →
      wp (readLoop ip room fuel tot off n out) (fun _ t => Sound t ∧ Grow s t ip) Benign s := by
  induction fuel with
  | zero =>
    intro s tot off out h _
    exact ⟨h, .refl s ip⟩
  | succ fuel ih =>
    intro s tot off out h c
    unfold readLoop
    split
    · refine wp_call (bmap_spec (off / BSIZE) h c) ?_
      rintro addr t ⟨sound, grow, _⟩
      have cached := grow.cached c
      split
      · exact ⟨sound, grow⟩
      · unfold bread
        simp only [wp_bind, wp_get, wp_pure]
        split
        · refine wp_mono (ih t _ _ _ sound cached) ?_ (fun _ e => e)
          rintro r u ⟨soundU, growU⟩
          exact ⟨soundU, grow.trans growU⟩
        · exact ⟨sound, grow⟩
    · exact ⟨h, .refl s ip⟩

theorem readi_spec (room off n : Nat) (h : Sound s) (c : Cached s ip inum) :
    wp (readi ip room off n) (fun _ t => Sound t ∧ Grow s t ip) Benign s := by
  unfold readi inode
  simp only [wp_bind, wp_get, wp_pure]
  split
  · exact ⟨h, .refl s ip⟩
  · exact readLoop_spec _ s _ _ _ h c

/-! Changes of one inode. -/

section StoredFile

variable {s : FsState} {ip inum : Nat} {f : Dinode → Dinode}

section

variable (h : Table s) (c : Cached s ip inum)
  (addrs : (f (s.itable ip).copy).addrs = (s.itable ip).copy.addrs)
  (typed : (f (s.itable ip).copy).type ≠ .free)
include h c addrs typed

theorem stored_byteAt (m i : Nat) : byteAt (stored s ip inum f) m i = byteAt s m i ∧
      (Mapped (stored s ip inum f) m i ↔ Mapped s m i) := by
  have types : (f (s.itable ip).copy).type = .free ↔ (s.itable ip).copy.type = .free :=
    ⟨fun e => absurd e typed, fun e => absurd e (h.typed ip inum c).1⟩
  have same := stored_forest h.unique c addrs types
  unfold Mapped byteAt blockOf
  rw [same]
  exact ⟨rfl, Iff.rfl⟩

theorem file_stored : file (stored s ip inum f) = update (file s) inum
      ⟨(f (current s inum)).type, (f (current s inum)).major, (f (current s inum)).minor,
        (f (current s inum)).nlink, bytes s inum 0 (f (current s inum)).size⟩ := by
  have now := current_stored (f := f) h.unique c
  have here := current_cached h.unique c
  funext m
  by_cases e : m = inum
  · subst e
    have alloc : Allocated (stored s ip m f) m := by
      refine ⟨(c.allocated h).1, ?_⟩
      rw [now, update_self, here]
      exact typed
    unfold file
    rw [if_pos alloc, now]
    simp only [update_self]
    rw [bytes_congr (fun i _ => (stored_byteAt h c addrs typed m i).1)]
  · rw [update_of_ne e]
    refine file_congr rfl ?_ (fun _ i _ => (stored_byteAt h c addrs typed m i).1)
    rw [now, update_of_ne e]

theorem full_stored (bound : (f (current s inum)).size ≤ MAXFILE * BSIZE)
    (mapped : ∀ i, i < (f (current s inum)).size → Mapped s inum i)
    (others : ∀ m, m ≠ inum → Allocated s m →
      (current s m).size ≤ MAXFILE * BSIZE ∧ ∀ i, i < (current s m).size → Mapped s m i)
    (synced : ∀ i m, i ≠ ip → Cached s i m → s.dinode m = (s.itable i).copy) :
    Full (stored s ip inum f) := by
  have now := current_stored (f := f) h.unique c
  have rest : ∀ m, m ≠ inum → Allocated (stored s ip inum f) m → Allocated s m := by
    intro m e a
    unfold Allocated at a ⊢
    rw [now, update_of_ne e] at a
    exact a
  refine ⟨?_, ?_, stored_synced synced h.unique c⟩
  · intro m a
    rw [now]
    by_cases e : m = inum
    · rw [e, update_self]
      exact bound
    · rw [update_of_ne e]
      exact (others m e (rest m e a)).1
  · intro m i a lt
    rw [(stored_byteAt h c addrs typed m i).2]
    rw [now] at lt
    by_cases e : m = inum
    · rw [e, update_self] at lt
      rw [e]
      exact mapped i lt
    · grind

theorem accounted_stored (acc : Accounted s) : Accounted (stored s ip inum f) := by
  have types : (f (s.itable ip).copy).type = .free ↔ (s.itable ip).copy.type = .free :=
    ⟨fun e => absurd e typed, fun e => absurd e (h.typed ip inum c).1⟩
  unfold Accounted at acc ⊢
  rw [stored_forest h.unique c addrs types]
  exact acc

end

end StoredFile

/-! Writing -/

def extend (last : Nat) (d : Dinode) : Dinode := { d with size := max d.size last }

theorem writeTail_spec {last size : Nat} (c : Cached s ip inum)
    (same : (s.itable ip).copy.size = size) (tot : Int) : wp (do
      if last > size then modify (·.onCopy ip (fun d => { d with size := last })) else pure ()
      iupdate ip
      pure tot : FsM Int) (fun r t => r = tot ∧ t = stored s ip inum (extend last))
      (fun e => e = .bug ∧ isFattype (s.itable ip).copy.type = true) s := by
  have agree : ∀ f : Dinode → Dinode, f (s.itable ip).copy = extend last (s.itable ip).copy →
      stored s ip inum f = stored s ip inum (extend last) := by
    intro f e
    unfold stored onCopy
    rw [e]
  split
  · rename_i grows
    rw [wp_bind, wp_modify]
    refine wp_call (iupdate_spec (fun d => { d with size := last }) c) ?_
    rintro _ t rfl
    refine ⟨rfl, agree _ ?_⟩
    unfold extend
    rw [Nat.max_eq_right (by omega)]
  · rename_i stays
    have start : s = s.onCopy ip id := by simp [onCopy, putInode]
    have spec := iupdate_spec id c
    rw [← start] at spec
    refine wp_call spec ?_
    rintro _ t rfl
    refine ⟨rfl, agree _ ?_⟩
    unfold extend
    rw [Nat.max_eq_left (by omega)]
    rfl

theorem writei_spec (src : List UInt8) (off n : Nat) (h : Sound s) (c : Cached s ip inum) :
    wp (writei ip src off n) (fun r t => (r = -1 ∧ t = s) ∨
      ∃ u w, Sound u ∧ Wrote s u ip inum src 0 off n w ∧ r = w.1 ∧ off ≤ (current s inum).size ∧
        t = stored u ip inum (extend w.2)) Benign s := by
  have now := current_cached h.table.unique c
  unfold writei inode
  simp only [wp_bind, wp_get, wp_pure]
  split
  · exact .inl ⟨rfl, rfl⟩
  · rename_i go
    split
    · exact .inl ⟨rfl, rfl⟩
    · refine wp_call (writeLoop_spec n s 0 off h c) ?_
      rintro w u ⟨sound, wrote⟩
      have cached := wrote.cached c
      have size : (u.itable ip).copy.size = (s.itable ip).copy.size := by
        obtain ⟨a, ha⟩ := wrote.edit.itable
        rw [ha, itable_onCopy_self]
      refine wp_mono (writeTail_spec cached size w.1) ?_ ?_
      · grind
      · rintro e ⟨rfl, _⟩
        exact benign_bug

section Effect

variable {s u : FsState} {ip inum : Nat}

variable {src : List UInt8} {m : Nat} {w : Nat × Nat}

theorem Edit.current_ne (h : Edit s u ip) (c : Cached s ip inum) (ne : m ≠ inum) :
    current u m = current s m := h.itable.current_ne h.dinode c ne

theorem Edit.current_self (h : Edit s u ip) (t : Unique s) (c : Cached s ip inum) :
    ∃ a, current u inum = { current s inum with addrs := a } := by
  have cached := (h.itable.cached ip inum).mpr c
  have unique := h.itable.unique t
  obtain ⟨a, ha⟩ := h.itable
  refine ⟨a, ?_⟩
  rw [current_cached unique cached, current_cached t c, ha, itable_onCopy_self]

theorem SameButAddrs.refs (h : SameButAddrs s u ip) : Refs s u (fun _ => 0) (fun _ => 0) := by
  constructor
  · intro j
    rw [(h.fields j).1]
    omega
  · intro j _
    obtain ⟨_, d, n, v⟩ := h.fields j
    exact ⟨d, n, fun valid => v.trans valid⟩

theorem Refs.zero_trans {used made : Nat → Int} (h : Refs s t (fun _ => 0) (fun _ => 0))
    (k : Refs t u used made) (nonneg : ∀ j, 0 ≤ used j) : Refs s u used made :=
  h.trans k nonneg (fun j => by omega) (fun j => by omega)

theorem Edit.file_ne (h : Edit s u ip) (full : Full s) (c : Cached s ip inum)
    (ne : m ≠ inum) : file u m = file s m := by
  refine file_congr h.sb (h.current_ne c ne) ?_
  intro a i lt
  exact h.others m i (fun e => ne (e.trans c.2.2.2.1)) (full.mapped m i a lt)

theorem Wrote.sound (wrote : Wrote s u ip inum src 0 off n w)
    (c : Cached s ip inum) (sound : Sound u) : Sound (stored u ip inum (extend w.2)) ∧
      Refs s (stored u ip inum (extend w.2)) (fun _ => 0) (fun _ => 0) ∧
      (Accounted s → Accounted (stored u ip inum (extend w.2))) := by
  have cached := wrote.cached c
  have typed := (sound.table.typed ip inum cached).1
  refine ⟨sound.stored cached rfl typed, ?_, ?_⟩
  · exact wrote.edit.itable.refs.zero_trans (stored_refs u ip inum _) (fun _ => Int.le_refl 0)
  · intro acc
    exact accounted_stored sound.table cached rfl typed (wrote.edit.accounted acc)

theorem Wrote.full (wrote : Wrote s u ip inum src 0 off n w) (table : Table s) (full : Full s)
    (c : Cached s ip inum) (sound : Sound u) (within : off ≤ (current s inum).size) :
    Full (stored u ip inum (extend w.2)) := by
  have cached := wrote.cached c
  have typed := (sound.table.typed ip inum cached).1
  obtain ⟨a, own⟩ := wrote.edit.current_self table.unique c
  have alloc := c.allocated table
  have size : (extend w.2 (current u inum)).size = max (current s inum).size w.2 := by
    rw [own]
    rfl
  have mapped : ∀ i, i < max (current s inum).size w.2 → Mapped u inum i := by
    grind [wrote.edit.mapped, full.mapped, wrote.inside]
  refine full_stored sound.table cached rfl typed ?_ ?_ ?_ ?_
  · rw [size]
    by_cases grows : w.2 ≤ (current s inum).size
    · rw [Nat.max_eq_left grows]
      exact full.bound inum alloc
    · -- the last byte written is mapped, so it lies in a block that `bmap` can reach
      have last := blockOf_lt (mapped (w.2 - 1) (by omega))
      simp only [MAXFILE, NDIRECT, NINDIRECT, BSIZE] at last ⊢
      omega
  · rw [size]
    exact mapped
  · intro m ne am
    have same := wrote.edit.current_ne c ne
    have am' : Allocated s m := by
      unfold Allocated at am ⊢
      rwa [wrote.edit.sb, same] at am
    rw [same]
    exact ⟨full.bound m am', fun i lt => wrote.edit.mapped (full.mapped m i am' lt)⟩
  · intro i m ne ci
    obtain ⟨b, hb⟩ := wrote.edit.itable
    have ci' := (wrote.edit.itable.cached i m).mp ci
    rw [wrote.edit.dinode, hb, itable_onCopy_ne s _ ne]
    exact full.synced i m ci'

theorem Wrote.file (wrote : Wrote s u ip inum src 0 off n w) (table : Table s) (full : Full s)
    (c : Cached s ip inum) (sound : Sound u) (within : off ≤ (current s inum).size)
    (enough : n ≤ src.length) : file (stored u ip inum (extend w.2)) = update (file s) inum
      { file s inum with data := splice (file s inum).data off (src.take w.1) } := by
  have cached := wrote.cached c
  have typed := (sound.table.typed ip inum cached).1
  obtain ⟨a, own⟩ := wrote.edit.current_self table.unique c
  have alloc := c.allocated table
  have offset := wrote.offset
  have most := wrote.most
  have taken : (src.take w.1).length = w.1 := by
    rw [length_take]
    omega
  have old : UvaOs.Fs.file s inum = ⟨(current s inum).type, (current s inum).major,
      (current s inum).minor, (current s inum).nlink, bytes s inum 0 (current s inum).size⟩ := by
    unfold UvaOs.Fs.file
    rw [if_pos alloc]
  have data : bytes u inum 0 (max (current s inum).size w.2) =
      splice (bytes s inum 0 (current s inum).size) off (src.take w.1) := by
    apply ext_getElem?
    intro i
    rw [getElem?_splice _ _ (by rw [length_bytes]; exact within), taken]
    simp only [getElem?_bytes, Nat.zero_add]
    by_cases before : i < off
    · grind [wrote.outside, full.mapped]
    · rw [if_neg before]
      by_cases new : i < off + w.1
      · rw [if_pos new, if_pos (by omega), getElem?_take, if_pos (by omega)]
        have stored := (wrote.inside i (by omega) (by omega)).2
        rw [Nat.zero_add] at stored
        exact stored.symm
      · grind [wrote.outside, full.mapped]
  rw [file_stored sound.table cached rfl typed, own, old]
  funext m
  by_cases e : m = inum
  · subst e
    rw [update_self, update_self, ← data]
    rfl
  · rw [update_of_ne e, update_of_ne e, wrote.edit.file_ne full c e]

end Effect

/-! Truncating, freeing and allocating. -/

section Prune

variable {s t : FsState} {inum : Nat} {d : Dinode} {cut : Nat × Nat → Prop}

theorem pruned_file_ne (sb : t.sb = s.sb) (block : t.block = s.block)
    (now : current t = update (current s) inum d)
    (pruned : Forest.Pruned (forest s) (forest t) cut) (own : ∀ r, cut r → r.1 = inum)
    {m : Nat} (ne : m ≠ inum) : file t m = file s m ∧ ∀ i, Mapped t m i ↔ Mapped s m i := by
  have blocks : ∀ bn, blockOf t m bn = blockOf s m bn := by
    intro bn
    exact (pruned _ _ (leaf_node s m bn).1).2 (fun k => ne (own _ k))
  constructor
  · refine file_congr sb (by rw [now, update_of_ne ne]) ?_
    intro _ i _
    unfold byteAt
    rw [blocks, block]
  · intro i
    unfold Mapped
    rw [blocks]

theorem pruned_full (sb : t.sb = s.sb) (block : t.block = s.block)
    (now : current t = update (current s) inum d)
    (pruned : Forest.Pruned (forest s) (forest t) cut) (own : ∀ r, cut r → r.1 = inum)
    (empty : d.type = .free ∨ d.size = 0) (synced : Synced t) (full : Full s) : Full t := by
  have same : ∀ m, m ≠ inum → (Allocated t m ↔ Allocated s m) ∧ current t m = current s m := by
    intro m ne
    unfold Allocated
    rw [sb, now, update_of_ne ne]
    exact ⟨Iff.rfl, rfl⟩
  have none : ∀ m, m = inum → Allocated t m → (current t m).size = 0 := by
    rintro m rfl a
    have typed := a.2
    rw [now, update_self] at typed ⊢
    exact empty.resolve_left typed
  refine ⟨?_, ?_, synced⟩
  · intro m a
    by_cases e : m = inum
    · rw [none m e a]
      exact Nat.zero_le _
    · rw [(same m e).2]
      exact full.bound m ((same m e).1.mp a)
  · intro m i a lt
    by_cases e : m = inum
    · rw [none m e a] at lt
      exact absurd lt (Nat.not_lt_zero i)
    · rw [(same m e).2] at lt
      exact ((pruned_file_ne sb block now pruned own e).2 i).mpr
        (full.mapped m i ((same m e).1.mp a) lt)

end Prune

section Files

variable {s t : FsState} {ip inum : Nat}

variable {type : IType}

theorem Truncated.full (tr : Truncated s t ip inum) (h : Sound s) (c : Cached s ip inum)
    (full : Full s) : Full t :=
  pruned_full tr.sb tr.block (tr.now h.table.unique c) (tr.pruned h.table.unique c)
    (fun _ k => k.1) (.inr rfl) (tr.synced h.table.unique c full.synced) full

theorem Freed.full (fr : Freed s t inum) (full : Full s) : Full t := by
  obtain ⟨d, free, now⟩ := fr.now
  exact pruned_full fr.sb fr.block now fr.pruned (fun _ k => k) (.inl free)
    (fr.synced full.synced) full

theorem fresh_file (h : Sound s) (free : (s.dinode inum).type = .free)
    (inside : inum < s.sb.ninodes) (typed : type ≠ .free) :
    file (fresh s inum type) = update (file s) inum ⟨type, 0, 0, 0, []⟩ := by
  have now : current (fresh s inum type) = _ := current_fresh h.table free
  have same : forest (fresh s inum type) = forest s := fresh_forest h.table free
  funext m
  by_cases e : m = inum
  · subst e
    have alloc : Allocated (fresh s m type) m := by
      refine ⟨inside, ?_⟩
      rw [now, update_self]
      exact typed
    rw [update_self]
    unfold file
    rw [if_pos alloc, now, update_self]
    rfl
  · rw [update_of_ne e]
    refine file_congr rfl (by rw [now, update_of_ne e]) ?_
    intro _ i _
    unfold byteAt blockOf
    rw [same]
    rfl

theorem fresh_full (h : Sound s) (free : (s.dinode inum).type = .free)
    (full : Full s) : Full (fresh s inum type) := by
  have now : current (fresh s inum type) = _ := current_fresh h.table free
  have same : forest (fresh s inum type) = forest s := fresh_forest h.table free
  have pruned : Forest.Pruned (forest s) (forest (fresh s inum type)) (fun _ => False) := by
    rw [same]
    intro r js _
    exact ⟨fun k => absurd k not_false, fun _ => rfl⟩
  have sb : (fresh s inum type).sb = s.sb := rfl
  have block : (fresh s inum type).block = s.block := rfl
  exact pruned_full sb block now pruned (fun _ k => absurd k not_false) (.inr rfl)
    (full.synced.fresh h.table free) full

theorem fresh_accounted (h : Table s) (free : (s.dinode inum).type = .free)
    (acc : Accounted s) : Accounted (fresh s inum type) := by
  unfold Accounted at acc ⊢
  rw [fresh_forest h free]
  exact acc

end Files

end UvaOs.Fs
