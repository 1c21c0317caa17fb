import UvaOs.Mkfs.Append

/-! The calls of mkfs one after the other: each leaves a well-formed file system, and `iappend`
and `ialloc` do to its files what their names say. -/
namespace UvaOs.Mkfs

open Bytes Prog Forest
open UvaOs.Fs (FsState Dinode BSIZE NDIRECT NINDIRECT MAXFILE ROOTDEV ROOTINO)
open Function (update update_self update_of_ne)

section Held

variable {m : State} {inum : Nat} {din : Buffer}

theorem view_current (m : State) (k : Nat) : Fs.current (view m) k = (view m).dinode k :=
  Fs.current_uncached (fun _ c => absurd c.2.1 (Int.lt_irrefl 0))

theorem held_slot {i : Nat} (used : 0 < ((held m inum din).itable i).ref) : i = 0 := by
  by_contra other
  have empty : (held m inum din).itable i = Fs.emptySlot := update_of_ne other ..
  rw [empty] at used
  exact absurd used (Int.lt_irrefl 0)

theorem held_unique : Fs.Unique (held m inum din) := by
  intro i j _ _ ri rj _ _
  rw [held_slot ri, held_slot rj]

theorem held_quiet (synced : decode din = (view m).dinode inum) :
    Fs.Quiet (view m) (held m inum din) := by
  have copy : ∀ i k, Fs.Cached (held m inum din) i k →
      k = inum ∧ ((held m inum din).itable i).copy = (view m).dinode inum := by
    intro i k c
    have first := held_slot c.2.1
    subst first
    exact ⟨c.2.2.2.1.symm, synced⟩
  refine ⟨rfl, rfl, rfl, rfl, ?_, ?_⟩
  · intro k
    rw [view_current]
    by_cases e : k = inum
    · rw [e, Fs.current_cached held_unique held_cached]
      exact synced
    · exact Fs.current_uncached (fun i c => e (copy i k c).1)
  · intro _ i k c
    obtain ⟨rfl, same⟩ := copy i k c
    exact same.symm

theorem held_sound (image : Fs.Image (view m)) (inside : inum < NINODES)
    (synced : decode din = (view m).dinode inum) (typed : ((view m).dinode inum).type ≠ .free) :
    Fs.Sound (held m inum din) := by
  refine (held_quiet synced).sound image.sound ⟨held_unique, ?_, ?_, ?_⟩
  · intro i _ used _
    rw [held_slot used]
    exact inside
  · intro i k c
    have first := held_slot c.2.1
    subst first
    obtain rfl : inum = k := c.2.2.2.1
    change (decode din).type ≠ .free ∧ ((view m).dinode inum).type = (decode din).type
    rw [synced]
    exact ⟨typed, rfl⟩
  · intro i k c j
    have first := held_slot c.2.1
    subst first
    obtain rfl : inum = k := c.2.2.2.1
    left
    change ((view m).dinode inum).addrs j = (decode din).addrs j
    rw [synced]

theorem held_image (sound : Fs.Sound (held m inum din))
    (synced : decode din = (view m).dinode inum) : Fs.Image (view m) := by
  have same := (held_quiet synced).forest
  refine ⟨sound.layout.congr rfl (fun _ _ => rfl) rfl, fun _ => rfl, ?_, ?_⟩
  · rw [← same]
    exact sound.exclusive
  · rw [← same]
    exact sound.covered

end Held

/-- A file system in which nothing is behind the end of a file but the rest of its last block,
which is blank. -/
structure Neat (s : FsState) : Prop where
  full : Fs.Full s
  accounted : Fs.Accounted s
  tight : ∀ inum bn, Fs.blockOf s inum bn ≠ 0 → bn * BSIZE < (Fs.file s inum).data.length
  blank : ∀ inum i, (Fs.file s inum).data.length ≤ i → Fs.Mapped s inum i →
    Fs.byteAt s inum i = 0

theorem blockOf_congr {s t : FsState} (forest : Fs.forest t = Fs.forest s) (k bn : Nat) :
    Fs.blockOf t k bn = Fs.blockOf s k bn := by
  unfold Fs.blockOf
  rw [forest]

theorem byteAt_congr {s t : FsState} (forest : Fs.forest t = Fs.forest s) (block : t.block = s.block)
    (k i : Nat) : Fs.byteAt t k i = Fs.byteAt s k i := by
  unfold Fs.byteAt
  rw [blockOf_congr forest, block]

theorem mapped_congr {s t : FsState} (forest : Fs.forest t = Fs.forest s) (k i : Nat) :
    Fs.Mapped t k i ↔ Fs.Mapped s k i := by
  unfold Fs.Mapped
  rw [blockOf_congr forest]

theorem accounted_congr {s t : FsState} (forest : Fs.forest t = Fs.forest s) (sb : t.sb = s.sb)
    (bitmap : t.bitmap = s.bitmap) (account : Fs.Accounted s) : Fs.Accounted t := by
  unfold Fs.Accounted Fs.InData at account ⊢
  rwa [forest, bitmap, sb]

theorem Neat.congr {s t : FsState} (neat : Neat s) (sb : t.sb = s.sb) (bitmap : t.bitmap = s.bitmap)
    (block : t.block = s.block) (now : ∀ m, Fs.current t m = Fs.current s m)
    (synced : Fs.Synced t) : Neat t := by
  have forest : Fs.forest t = Fs.forest s :=
    Fs.forest_congr sb block (fun m => by rw [now]) (fun m => by rw [now])
  have bytes := byteAt_congr forest block
  have mapped := mapped_congr forest
  have alloc : ∀ k, Fs.Allocated t k ↔ Fs.Allocated s k := by
    intro k
    unfold Fs.Allocated
    rw [sb, now]
  have files : ∀ k, Fs.file t k = Fs.file s k := fun k =>
    Fs.file_congr sb (now k) (fun _ i _ => bytes k i)
  refine ⟨⟨?_, ?_, synced⟩, accounted_congr forest sb bitmap neat.accounted, ?_, ?_⟩
  · intro k a
    rw [now]
    exact neat.full.bound k ((alloc k).mp a)
  · grind [neat.full.mapped]
  · intro k bn nz
    rw [blockOf_congr forest] at nz
    rw [files]
    exact neat.tight k bn nz
  · grind [neat.blank]

theorem leaf_of_way {inum k bn bn' : Nat} (s : FsState) (h : ((k, (Fs.leaf bn).1), (Fs.leaf bn).2) ∈
      way (inum, (Fs.leaf bn').1) (Fs.leaf bn').2) : k = inum ∧ bn = bn' := by
  obtain ⟨root, pre⟩ := mem_way.mp h
  have number : k = inum := congrArg Prod.fst root
  have index : (Fs.leaf bn).1 = (Fs.leaf bn').1 := congrArg Prod.snd root
  obtain ⟨_, flat⟩ := Fs.leaf_node s k bn
  obtain ⟨node', _⟩ := Fs.leaf_node s inum bn'
  refine ⟨number, Fs.leaf_injective (Prod.ext index (pre.eq_of_length ?_))⟩
  have least : (Fs.forest s).depth (k, (Fs.leaf bn).1) ≤ (Fs.leaf bn).2.length :=
    Nat.le_of_not_lt flat
  have most : (Fs.leaf bn').2.length ≤ (Fs.forest s).depth (inum, (Fs.leaf bn').1) := node'
  rw [number, index] at least
  exact Nat.le_antisymm pre.length_le (Nat.le_trans most least)

section Writei

variable {s t u : FsState} {ip inum off : Nat} {src : List UInt8}

theorem wrote_behind {n : Nat} {w : Nat × Nat} (wrote : Fs.Wrote s u ip inum src 0 off n w)
    (c : Fs.Cached s ip inum) (neat : Neat s) (at_end : (Fs.file s inum).data.length = off)
    {k i : Nat} (behind : (if k = inum then off + n else (Fs.file s k).data.length) ≤ i)
    (mapped : Fs.Mapped u k i) : Fs.byteAt u k i = 0 := by
  by_cases own : k = inum
  · grind [wrote.outside, neat.blank, wrote.blank]
  · rw [if_neg own] at behind
    have apart : k ≠ (s.itable ip).inum := fun e => own (e.trans c.2.2.2.1)
    have old : Fs.Mapped s k i := by grind [wrote.edit.foreign, Fs.Mapped, Fs.blockOf, Fs.leaf_node]
    rw [wrote.edit.others k i apart old]
    exact neat.blank k i behind old

theorem spent_blocks {n k bn : Nat}
    (spent : Spent (Fs.forest s) (Fs.forest t) (Fs.spare s) (Fs.spare t)
      (Fs.ways inum (Fs.span off n))) (nz : Fs.blockOf t k bn ≠ 0) :
    Fs.blockOf s k bn ≠ 0 ∨ (k = inum ∧ bn * BSIZE < off + n) := by
  by_cases new : ((k, (Fs.leaf bn).1), (Fs.leaf bn).2) ∈
      (Fs.forest s).lack (Fs.ways inum (Fs.span off n))
  · right
    obtain ⟨bn', touched, onWay⟩ := Finset.mem_biUnion.mp (mem_lack.mp new).1
    obtain ⟨own, same⟩ := leaf_of_way s onWay
    obtain ⟨i, range, quot⟩ := Finset.mem_image.mp touched
    rw [Finset.mem_Ico] at range
    refine ⟨own, ?_⟩
    simp only [BSIZE] at quot ⊢
    omega
  · grind [spent.filled.rest, Fs.blockOf, Fs.leaf_node]

theorem neat_append (sound : Fs.Sound s) (neat : Neat s) (c : Fs.Cached s ip inum)
    (at_end : (Fs.file s inum).data.length = off) (some_ : src ≠ []) (small : src.length < 2 ^ 31)
    (run : Fs.writei ip src off src.length s = .ok ((src.length : Int), t)) :
    Fs.Sound t ∧ Neat t ∧ Fs.file t = update (Fs.file s) inum
      { Fs.file s inum with data := (Fs.file s inum).data ++ src } ∧
      ∀ k, k ≠ inum → t.dinode k = s.dinode k := by
  have positive : 0 < src.length := List.length_pos_iff.mpr some_
  rcases wp_ok (Fs.writei_spec src off src.length sound c) run with
    ⟨bad, _⟩ | ⟨u, w, soundU, wrote, r, within, rfl⟩
  · exact absurd bad (by omega)
  have all : w.1 = src.length := by omega
  have offset := wrote.offset
  have cached := wrote.cached c
  have typed := (soundU.table.typed ip inum cached).1
  have files := wrote.file sound.table neat.full c soundU within (Nat.le_refl _)
  rw [all, List.take_length, ← at_end, splice_end] at files
  obtain ⟨_, w', number, served⟩ :=
    (Fs.writei_served sound neat.full c positive small run).resolve_left (fun k => by omega)
  have spent := served.spent (by omega)
  have bytes := Fs.stored_byteAt (f := Fs.extend w.2) soundU.table cached rfl typed
  refine ⟨(wrote.sound c soundU).1, ⟨wrote.full sound.table neat.full c soundU within,
    (wrote.sound c soundU).2.2 neat.accounted, ?_, ?_⟩, files, ?_⟩
  · intro k bn nz
    rw [files]
    rcases spent_blocks spent nz with old | ⟨rfl, new⟩
    · have before := neat.tight k bn old
      by_cases own : k = inum
      · grind
      · rw [update_of_ne own]
        exact before
    · rw [update_self, List.length_append]
      omega
  · intro k i le mapped
    rw [(bytes k i).2] at mapped
    rw [(bytes k i).1]
    refine wrote_behind wrote c neat at_end ?_ mapped
    rw [files] at le
    by_cases own : k = inum
    · grind
    · rw [update_of_ne own] at le
      rw [if_neg own]
      exact le
  · intro k ne
    change update u.dinode inum _ k = _
    rw [update_of_ne ne, wrote.edit.dinode]

end Writei

structure Made (m : State) : Prop where
  inv : Inv m
  image : Fs.Image (view m)
  neat : Neat (view m)
  unused : ∀ inum, m.freeinode ≤ inum → (view m).dinode inum = .zero

section Calls

variable {m m' : State} {inum : Nat} {src : List UInt8}

theorem view_allocated (inside : inum < NINODES) (typed : ((view m).dinode inum).type ≠ .free) :
    Fs.Allocated (view m) inum := by
  refine ⟨inside, ?_⟩
  rwa [view_current]

theorem view_length (inside : inum < NINODES) (typed : ((view m).dinode inum).type ≠ .free) :
    (Fs.file (view m) inum).data.length = ((view m).dinode inum).size := by
  rw [Fs.file, if_pos (view_allocated inside typed), Fs.length_bytes, view_current]

theorem view_type (typed : (Fs.file (view m) inum).type ≠ .free) :
    ((view m).dinode inum).type = (Fs.file (view m) inum).type := by
  unfold Fs.file at typed ⊢
  split
  · rw [view_current]
  · rename_i free
    rw [if_neg free] at typed
    exact absurd rfl typed

theorem iappend_made (made : Made m) (inside : inum < NINODES)
    (typed : (Fs.file (view m) inum).type ≠ .free)
    (native : Fs.isFattype (Fs.file (view m) inum).type = false) (some_ : src ≠ [])
    (small : src.length < 2 ^ 31) (run : iappend inum src m = .ok ((), m')) :
    Made m' ∧ m'.freeinode = m.freeinode ∧ Fs.file (view m') = update (Fs.file (view m)) inum
        { Fs.file (view m) inum with data := (Fs.file (view m) inum).data ++ src } := by
  have type := view_type typed
  rw [← type] at typed native
  have synced : decode (slot (m.sect (IBLOCK inum)) (inum % IPB)) = (view m).dinode inum :=
    (if_pos inside).symm
  have sound := held_sound made.image inside synced typed
  have quiet := held_quiet synced
  have neat : Neat (held m inum (slot (m.sect (IBLOCK inum)) (inum % IPB))) :=
    made.neat.congr rfl rfl rfl quiet.now (quiet.synced made.neat.full.synced)
  have bound : ((view m).dinode inum).size ≤ MAXFILE * BSIZE := by
    rw [← view_current]
    exact made.neat.full.bound inum (view_allocated inside typed)
  obtain ⟨din', synced', kernel, inv⟩ :=
    iappend_held made.inv inside sound native bound some_ run
  have at_end := view_length inside typed
  rw [← quiet.file] at at_end
  obtain ⟨sound', neat', files, others⟩ :=
    neat_append sound neat held_cached at_end some_ small kernel
  have quiet' := held_quiet synced'
  have count := Steady.iappend _ _ _ _ _ run
  refine ⟨⟨inv, held_image sound' synced', ?_, ?_⟩, count, ?_⟩
  · refine neat'.congr rfl rfl rfl (fun k => (quiet'.now k).symm) ?_
    intro _ _ c
    exact absurd c.2.1 (Int.lt_irrefl 0)
  · intro k free
    rw [count] at free
    have zero := made.unused k free
    have apart : k ≠ inum := by
      rintro rfl
      rw [zero] at typed
      exact typed rfl
    exact (others k apart).trans zero
  · rw [← quiet'.file, files, quiet.file]

/-- Inode `inum` is rewritten, and points to what it did. -/
structure Rewritten (m m' : State) (inum : Nat) (d : Dinode) : Prop where
  block : (view m').block = (view m).block
  bitmap : (view m').bitmap = (view m).bitmap
  own : Fs.current (view m') inum = d
  others : ∀ k, k ≠ inum → Fs.current (view m') k = Fs.current (view m) k
  forest : Fs.forest (view m') = Fs.forest (view m)

theorem view_put {d : Dinode} (here : view m' = (view m).putDinode inum d)
    (pointers : d.addrs = ((view m).dinode inum).addrs)
    (kind : d.type = ((view m).dinode inum).type ∨ d.addrs = fun _ => 0) : Rewritten m m' inum d := by
  have block : (view m').block = (view m).block := by rw [here]; rfl
  have own : Fs.current (view m') inum = d := by
    rw [view_current, here, FsState.putDinode_dinode, update_self]
  have others : ∀ k, k ≠ inum → Fs.current (view m') k = Fs.current (view m) k := by
    intro k ne
    rw [view_current, view_current, here, FsState.putDinode_dinode, update_of_ne ne]
  refine ⟨block, by rw [here]; rfl, own, others, ?_⟩
  simp only [Fs.forest, block]
  congr 1
  funext r
  by_cases e : r.1 = inum
  · rw [e, own, view_current, ← pointers]
    rcases kind with same | zero
    · rw [same]
      rfl
    · rw [zero, ite_self, ite_self]
  · rw [others r.1 e]
    rfl

theorem Rewritten.image {d : Dinode} (h : Rewritten m m' inum d) (image : Fs.Image (view m)) :
    Fs.Image (view m') := by
  refine ⟨image.layout.congr rfl (fun b _ => by rw [h.bitmap]) (by rw [h.block]), fun _ => rfl, ?_, ?_⟩
  · rw [h.forest]
    exact image.exclusive
  · rw [h.forest, h.bitmap]
    exact image.covered

theorem Rewritten.alloc {d : Dinode} (h : Rewritten m m' inum d) {k : Nat} (ne : k ≠ inum)
    (a : Fs.Allocated (view m') k) : Fs.Allocated (view m) k := ⟨a.1, by rw [← h.others k ne]; exact a.2⟩

theorem view_new {d : Dinode} (made : Made m) (free : m.freeinode ≤ inum) (inside : inum < NINODES)
    (typed : d.type ≠ .free) (empty : d.size = 0) (pointers : d.addrs = fun _ => 0)
    (here : view m' = (view m).putDinode inum d) :
    Fs.Image (view m') ∧ Neat (view m') ∧ Fs.file (view m') =
      update (Fs.file (view m)) inum ⟨d.type, d.major, d.minor, d.nlink, []⟩ := by
  have old : (view m).dinode inum = .zero := made.unused inum free
  have new := view_put here (by rw [old]; exact pointers) (.inr pointers)
  have bytes := byteAt_congr new.forest new.block
  have nothing : (Fs.file (view m) inum).data = [] := by
    unfold Fs.file
    rw [if_neg]
    · rfl
    · rintro ⟨_, used⟩
      rw [view_current, old] at used
      exact used rfl
  have unmapped : ∀ bn, Fs.blockOf (view m') inum bn = 0 := by
    intro bn
    by_contra nz
    rw [blockOf_congr new.forest] at nz
    have inFile := made.neat.tight inum bn nz
    rw [nothing] at inFile
    exact absurd inFile (Nat.not_lt_zero _)
  have files : Fs.file (view m') = update (Fs.file (view m)) inum
      ⟨d.type, d.major, d.minor, d.nlink, []⟩ := by
    funext k
    by_cases e : k = inum
    · have there : Fs.Allocated (view m') inum := ⟨inside, by rw [new.own]; exact typed⟩
      rw [e, update_self, Fs.file, if_pos there, new.own, empty]
      rfl
    · rw [update_of_ne e]
      exact Fs.file_congr rfl (new.others k e) fun _ i _ => bytes k i
  refine ⟨new.image made.image, ⟨⟨?_, ?_, ?_⟩,
    accounted_congr new.forest rfl new.bitmap made.neat.accounted, ?_, ?_⟩, files⟩
  · intro k a
    by_cases e : k = inum
    · rw [e, new.own, empty]
      exact Nat.zero_le _
    · rw [new.others k e]
      exact made.neat.full.bound k (new.alloc e a)
  · intro k i a lt
    by_cases e : k = inum
    · rw [e, new.own, empty] at lt
      exact absurd lt (Nat.not_lt_zero i)
    · rw [new.others k e] at lt
      exact (mapped_congr new.forest k i).mpr (made.neat.full.mapped k i (new.alloc e a) lt)
  · intro _ _ c
    exact absurd c.2.1 (Int.lt_irrefl 0)
  · intro k bn nz
    have ne : k ≠ inum := fun e => nz (e ▸ unmapped bn)
    rw [files, update_of_ne ne]
    exact made.neat.tight k bn (blockOf_congr new.forest k bn ▸ nz)
  · intro k i le mapped
    have ne : k ≠ inum := fun e => mapped (e ▸ unmapped _)
    rw [files, update_of_ne ne] at le
    rw [bytes]
    exact made.neat.blank k i le ((mapped_congr new.forest k i).mp mapped)

theorem ialloc_made {type : Nat} (made : Made m) (room : m.freeinode < NINODES) (small : type < 256)
    (typed : itype type ≠ .free) (run : ialloc type m = .ok (inum, m')) :
    Made m' ∧ inum = m.freeinode ∧ m'.freeinode = m.freeinode + 1 ∧ Fs.file (view m') =
      update (Fs.file (view m)) m.freeinode ⟨itype type, 0, 0, 1, []⟩ := by
  obtain ⟨_, _, first, run⟩ := bind_ok run
  cases first
  obtain ⟨_, t, first, run⟩ := bind_ok run
  cases first
  obtain ⟨_, t, write, last⟩ := bind_ok run
  cases last
  have inv : Inv { m with freeinode := m.freeinode + 1 } :=
    ⟨made.inv.length, made.inv.low, made.inv.high, made.inv.boot, made.inv.super,
      made.inv.bitmap, made.inv.zeros⟩
  have written := winode_ok inv write
  have here : view m' = (view m).putDinode m.freeinode
      { Dinode.zero with type := itype type, nlink := 1 } := by
    rw [written, view_winode room, decode_new small]
    rfl
  obtain ⟨image, neat, files⟩ :=
    view_new made (Nat.le_refl _) room typed rfl rfl here
  refine ⟨⟨written ▸ inv.winode room, image, neat, ?_⟩, rfl, by rw [written], files⟩
  intro k le
  rw [written] at le
  change m.freeinode + 1 ≤ k at le
  rw [here, FsState.putDinode_dinode, update_of_ne (by omega)]
  exact made.unused k (by omega)

end Calls

end UvaOs.Mkfs
