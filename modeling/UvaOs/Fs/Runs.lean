import UvaOs.Fs.Mkfs

/-! Runs of the inode layer from the image that mkfs leaves.
System calls use the layer through the operations below, each under the sleep
lock of its inode. The caller of an operation on a slot holds a reference to it;
nothing else is assumed of the order, the inodes or the arguments. -/
namespace UvaOs.Fs

open Bytes Prog FsState Finset

variable {s t u : FsState} {inum ip n off room : Nat}

inductive Op where
  | iget (inum : Nat)
  | idup (ip : Nat)
  | ialloc (type : IType)
  | readi (ip room off n : Nat)
  | writei (ip : Nat) (src : List UInt8) (off n : Nat)
  | itrunc (ip : Nat)
  /-- `create`, `sys_link` and `sys_unlink` store new fields with `iupdate`. -/
  | fields (ip : Nat) (type : IType) (major minor nlink : Int)
  | iput (ip : Nat)

def setFields (type : IType) (major minor nlink : Int) (d : Dinode) : Dinode :=
  { d with type := type, major := major, minor := minor, nlink := nlink }

def Op.run : Op → FsM Unit
  | .iget inum => do
    let _ ← UvaOs.Fs.iget ROOTDEV inum
    pure ()
  | .idup ip => do
    let _ ← UvaOs.Fs.idup ip
    pure ()
  | .ialloc type => do
    let _ ← UvaOs.Fs.ialloc type
    pure ()
  | .readi ip room off n => do
    ilock ip
    let _ ← UvaOs.Fs.readi ip room off n
    pure ()
  | .writei ip src off n => do
    ilock ip
    let _ ← UvaOs.Fs.writei ip src off n
    pure ()
  | .itrunc ip => do
    ilock ip
    UvaOs.Fs.itrunc ip
  | .fields ip type major minor nlink => do
    ilock ip
    modify (·.onCopy ip (setFields type major minor nlink))
    iupdate ip
  | .iput ip => UvaOs.Fs.iput ip

/- The caller has a reference to the slot, and the arguments are of type `uint`. -/
def Op.Allowed (s : FsState) : Op → Prop
  | .iget inum => inum < s.sb.ninodes
  | .ialloc _ => True
  | .fields ip type _ _ _ => (∃ inum, Held s ip inum) ∧ type ≠ .free
  | .readi ip _ off n | .writei ip _ off n => (∃ inum, Held s ip inum) ∧ off < UINT ∧ n < UINT
  | .idup ip | .itrunc ip | .iput ip => ∃ inum, Held s ip inum

/-- An operation of a run; one that stops the machine has no next state. -/
def Step (s t : FsState) : Prop := ∃ op : Op, op.Allowed s ∧ op.run s = .ok ((), t)

/- The operation does not free an inode that has a doubly-indirect block. -/
def Op.Shallow (s : FsState) : Op → Prop
  | .iput ip => LastUnlinked s ip → (s.itable ip).copy.addrs (NDIRECT + 1) = 0
  | _ => True

structure Keeps (s t : FsState) (clean : Prop) : Prop where
  sound : Sound t
  full : Full s → Full t
  accounted : clean → Full s → Accounted s → Accounted t

theorem Keeps.trans {clean clean' : Prop} (h : Keeps s t clean)
    (k : Keeps t u clean') (both : clean' → clean) : Keeps s u clean' :=
  ⟨k.sound, fun f => k.full (h.full f),
    fun c f a => k.accounted c (h.full f) (h.accounted (both c) f a)⟩

theorem Quiet.keeps (q : Quiet s t) (sound : Sound t) : Keeps s t True :=
  ⟨sound, q.full, fun _ _ => q.accounted⟩

theorem locked {α : Type} {body : FsM α} (h : Sound s) (held : Held s ip inum)
    (run : ∀ t, Sound t → Cached t ip inum →
      wp body (fun _ u => Keeps t u True) (fun _ => True) t) :
    wp (do ilock ip; body) (fun _ u => Keeps s u True) (fun _ => True) s := by
  refine wp_callE (ilock_spec h held) (fun _ _ => trivial) ?_
  rintro _ t ⟨sound, quiet, cached, _⟩
  refine wp_mono (run t sound cached) ?_ (fun _ e => e)
  intro _ u keeps
  exact (quiet.keeps sound).trans keeps (fun c => c)

theorem readi_keeps (h : Sound s) (c : Cached s ip inum) (hoff : off < UINT) (hn : n < UINT) :
    wp (readi ip room off n) (fun _ t => Keeps s t True) (fun _ => True) s := by
  by_cases full : Full s
  · refine wp_mono (readi_full (E := fun _ => True) h full c hoff hn) ?_ (fun _ e => e)
    rintro _ t ⟨rfl, -⟩
    exact (Quiet.refl t).keeps h
  · refine wp_mono (readi_spec room off n h c) ?_ (fun _ _ => trivial)
    rintro _ t ⟨sound, _⟩
    exact ⟨sound, fun f => absurd f full, fun _ f => absurd f full⟩

theorem writei_keeps (src : List UInt8) (off n : Nat) (h : Sound s) (c : Cached s ip inum) :
    wp (writei ip src off n) (fun _ t => Keeps s t True) (fun _ => True) s := by
  refine wp_mono (writei_spec src off n h c) ?_ (fun _ _ => trivial)
  rintro r t (⟨_, rfl⟩ | ⟨u, w, sound, wrote, _, within, rfl⟩)
  · exact (Quiet.refl t).keeps h
  · obtain ⟨soundT, _, acc⟩ := wrote.sound c sound
    exact ⟨soundT, fun full => wrote.full h.table full c sound within, fun _ _ => acc⟩

theorem itrunc_keeps (h : Sound s) (c : Cached s ip inum) :
    wp (itrunc ip) (fun _ t => Keeps s t True) (fun _ => True) s := by
  refine wp_mono (itrunc_spec h c) ?_ (fun _ _ => trivial)
  intro _ t tr
  exact ⟨tr.sound h c, tr.full h c, fun _ _ => tr.accounted h.table.unique c h.layout⟩

theorem fields_keeps (type : IType) (major minor nlink : Int)
    (h : Sound s) (c : Cached s ip inum) (typed : type ≠ .free) :
    wp (do modify (·.onCopy ip (setFields type major minor nlink)); iupdate ip)
      (fun _ t => Keeps s t True) (fun _ => True) s := by
  rw [wp_bind, wp_modify]
  refine wp_mono (iupdate_spec _ c) ?_ (fun _ _ => trivial)
  rintro _ t rfl
  have alloc := c.allocated h.table
  refine ⟨h.stored c rfl typed, ?_, fun _ _ => accounted_stored h.table c rfl typed⟩
  intro full
  exact full_stored h.table c rfl typed (full.bound inum alloc)
    (fun i => full.mapped inum i alloc) (fun m _ a => ⟨full.bound m a, fun i => full.mapped m i a⟩)
    (fun i m _ => full.synced i m)

theorem ialloc_keeps (type : IType) (h : Sound s) :
    wp (ialloc type) (fun _ t => Keeps s t True) (fun _ => True) s := by
  refine wp_mono (ialloc_spec type h) ?_ (fun _ _ => trivial)
  rintro r t ⟨sound, post⟩
  cases r with
  | none =>
    subst post
    exact (Quiet.refl t).keeps h
  | some i =>
    obtain ⟨inum, _, _, _, free, quiet, _, _⟩ := post
    have first : Keeps s (fresh s inum type) True :=
      ⟨h.fresh_inode free, fresh_full h free, fun _ _ => fresh_accounted h.table free⟩
    exact first.trans (quiet.keeps sound) (fun c => c)

theorem iput_keeps (h : Sound s) (held : Held s ip inum) : wp (iput ip) (fun _ t =>
      Keeps s t (LastUnlinked s ip → (s.itable ip).copy.addrs (NDIRECT + 1) = 0))
      (fun _ => True) s := by
  refine wp_mono (iput_spec h held) ?_ (fun _ _ => trivial)
  rintro _ t ⟨sound, _, freed, stays⟩
  by_cases last : LastUnlinked s ip
  · have fr := freed last
    have c := held.cached last.2.1
    refine ⟨sound, fr.full, fun clean _ => fr.accounted ?_⟩
    rw [current_cached h.table.unique c]
    exact clean last
  · exact ⟨sound, fun full => (stays last full.synced).full full,
      fun _ full => (stays last full.synced).accounted⟩

theorem run_keeps (op : Op) (h : Sound s) (allowed : op.Allowed s) :
    wp op.run (fun _ t => Keeps s t (op.Shallow s)) (fun _ => True) s := by
  cases op with
  | iget inum =>
    refine wp_callE (iget_spec h allowed) (fun _ _ => trivial) ?_
    rintro i t ⟨sound, quiet, _, _⟩
    exact quiet.keeps sound
  | idup ip =>
    obtain ⟨inum, held⟩ := allowed
    refine wp_call (idup_spec h held) ?_
    rintro i t ⟨_, sound, quiet, _⟩
    exact quiet.keeps sound
  | ialloc type => exact wp_call (ialloc_keeps type h) (fun _ _ keeps => keeps)
  | readi ip room off n =>
    obtain ⟨⟨inum, held⟩, hoff, hn⟩ := allowed
    refine locked h held ?_
    intro t sound cached
    exact wp_call (readi_keeps sound cached hoff hn) (fun _ _ keeps => keeps)
  | writei ip src off n =>
    obtain ⟨⟨inum, held⟩, _, _⟩ := allowed
    refine locked h held ?_
    intro t sound cached
    exact wp_call (writei_keeps src off n sound cached) (fun _ _ keeps => keeps)
  | itrunc ip =>
    obtain ⟨inum, held⟩ := allowed
    exact locked h held (fun t sound cached => itrunc_keeps sound cached)
  | fields ip type major minor nlink =>
    obtain ⟨⟨inum, held⟩, typed⟩ := allowed
    exact locked h held
      (fun t sound cached => fields_keeps type major minor nlink sound cached typed)
  | iput ip =>
    obtain ⟨inum, held⟩ := allowed
    exact iput_keeps h held

theorem Step.keeps (step : Step s t) (h : Sound s) : Keeps s t False := by
  obtain ⟨op, allowed, ok⟩ := step
  have keeps := wp_ok (run_keeps op h allowed) ok
  exact ⟨keeps.sound, keeps.full, fun no => absurd no not_false⟩

/-! Block exclusivity -/

/-- The places inside `readi` and `writei` where the pointers or the data of a
locked inode change: each level of `bmap`, and the copy into a data block. -/
inductive Piece (s : FsState) : FsState → Prop
  | root {ip inum k b : Nat} {t : FsState} : Cached s ip inum → k < NDIRECT + 2 →
      rootBlock ip k s = .ok (b, t) → Piece s t
  | indirect {ip inum k j b : Nat} {js : List Nat} {t : FsState} : Cached s ip inum →
      (forest s).IsIndex (inum, k) js → (forest s).ptr (inum, k) js ≠ 0 → j < NINDIRECT →
      indirectEntry ((forest s).ptr (inum, k) js) j s = .ok (b, t) → Piece s t
  | doubly {ip inum k j b : Nat} {js : List Nat} {t : FsState} : Cached s ip inum →
      (forest s).IsIndex (inum, k) js → (forest s).ptr (inum, k) js ≠ 0 → j < NINDIRECT →
      doublyEntry ((forest s).ptr (inum, k) js) j s = .ok (b, t) → Piece s t
  | copy {ip inum bn : Nat} {data : Buffer} : Cached s ip inum → blockOf s inum bn ≠ 0 →
      Piece s (s.putBlock (blockOf s inum bn) data)

theorem Piece.sound (piece : Piece s t) (h : Sound s) : Sound t := by
  cases piece with
  | root c hk ok => exact (wp_ok (E := Benign) (rootBlock_spec h c hk) ok).1
  | indirect c index parent hj ok => exact (wp_ok (E := Benign) (indirectEntry_spec h c index parent hj) ok).1
  | doubly c index parent hj ok => exact (wp_ok (E := Benign) (doublyEntry_spec h c index parent hj) ok).1
  | copy _ here => exact h.putData here

/-- In every state, between operations or between the pieces of one, no block is
referenced twice, every referenced block is a data block marked used, and
`balloc` hands out a block that nothing references. -/
theorem blocks_exclusive {s : FsState} (h : Reach Image (fun s t => Step s t ∨ Piece s t) s) :
    (forest s).Exclusive ∧ (∀ r js, (forest s).IsNode r js → (forest s).ptr r js ≠ 0 →
      InData s ((forest s).ptr r js) ∧ s.bitmap ((forest s).ptr r js) = true) ∧
    ∀ b t, balloc s = .ok (b, t) → b ≠ 0 →
      ∀ r js, (forest s).IsNode r js → (forest s).ptr r js ≠ b := by
  have sound : Sound s := by
    refine h.invariant Sound (fun s i => i.sound) ?_
    rintro s t sound (step | piece)
    · exact (step.keeps sound).sound
    · exact piece.sound sound
  refine ⟨sound.exclusive, sound.covered, ?_⟩
  intro b t ok nz
  rcases wp_ok (balloc_spec s (fun _ => True)) ok with ⟨_, free, _⟩ | ⟨z, _⟩
  · exact sound.fresh free
  · exact absurd z nz

theorem blocks_exclusive_mkfs : (forest mkfsBig).Exclusive :=
  (blocks_exclusive (.start mkfsBig_image)).1

/-! Contents -/

theorem full_run (h : Reach (fun s => Image s ∧ Full s) Step s) : Sound s ∧ Full s := by
  refine h.invariant (fun s => Sound s ∧ Full s) (fun s i => ⟨i.1.sound, i.2⟩) ?_
  rintro s t ⟨sound, full⟩ step
  have keeps := step.keeps sound
  exact ⟨keeps.sound, keeps.full full⟩

def readResult (data : List UInt8) (off n : Nat) : Int × List UInt8 :=
  if off ≤ data.length ∧ off + n < UINT then
    (((min n (data.length - off) : Nat) : Int), (data.drop off).take n)
  else (0, [])

theorem readi_result (h : Sound s) (full : Full s)
    (c : Cached s ip inum) (hoff : off < UINT) (hn : n < UINT) (fits : n ≤ room) :
    readi ip room off n s = .ok (readResult (file s inum).data off n, s) := by
  have spec : wp (readi ip room off n) _ (fun _ => False) s := readi_full h full c hoff hn
  obtain ⟨r, t, ok, rfl, read⟩ := wp_returns spec (fun _ no => no)
  rw [read fits] at ok
  exact ok

theorem Wrote.enough {src : List UInt8} {w : Nat × Nat}
    (wrote : Wrote s u ip inum src 0 off n w) (all : w.1 = n) : n ≤ src.length := by
  by_contra short
  have offset := wrote.offset
  have last := (wrote.inside (off + n - 1) (by omega) (by omega)).2
  rw [List.getElem?_eq_none (by omega)] at last
  contradiction

/-- Contents are byte strings: `readi` returns the bytes of the range, and after a
complete `writei` the string has the new bytes in their place, the size to go
with it, and no other file has changed. -/
theorem contents_refine {s : FsState} {ip inum : Nat}
    (h : Reach (fun s => Image s ∧ Full s) Step s) (c : Cached s ip inum) :
    (∀ room off n, off < UINT → n < UINT → n ≤ room →
      readi ip room off n s = .ok (readResult (file s inum).data off n, s)) ∧
    ∀ (src : List UInt8) (off n : Nat) (t : FsState), writei ip src off n s = .ok ((n : Int), t) →
      file t = Function.update (file s) inum
        { file s inum with data := splice (file s inum).data off (src.take n) } ∧
      (current t inum).size = max (current s inum).size (off + n) ∧
      ∀ room off' n', off' < UINT → n' < UINT → n' ≤ room → readi ip room off' n' t =
        .ok (readResult (splice (file s inum).data off (src.take n)) off' n', t) := by
  obtain ⟨sound, full⟩ := full_run h
  refine ⟨fun room off n hoff hn fits => readi_result sound full c hoff hn fits, ?_⟩
  intro src off n t ok
  rcases wp_ok (writei_spec src off n sound c) ok with ⟨bad, _⟩ | ⟨u, w, soundU, wrote, r, within, rfl⟩
  · exact absurd bad (by omega)
  · have all : w.1 = n := by omega
    have offset := wrote.offset
    have cachedU := wrote.cached c
    have files := wrote.file sound.table full c soundU within (wrote.enough all)
    have fullT := wrote.full sound.table full c soundU within
    rw [all] at files
    refine ⟨files, ?_, ?_⟩
    · obtain ⟨a, own⟩ := wrote.edit.current_self sound.table.unique c
      rw [current_stored soundU.table.unique cachedU, Function.update_self, own]
      change max _ w.2 = _
      congr 1
      omega
    · intro room off' n' hoff hn fits
      have cachedT : Cached (stored u ip inum (extend w.2)) ip inum :=
        (cached_stored ip inum).mpr cachedU
      rw [readi_result (wrote.sound c soundU).1 fullT cachedT hoff hn fits, files,
        Function.update_self]

def mkfsOpen : FsState := loaded (occupy mkfsBig 0 ROOTDEV 2) 0

theorem mkfsOpen_reach {init : FsState → Prop} (h : init mkfsBig) : Reach init Step mkfsOpen := by
  have first : Step mkfsBig (occupy mkfsBig 0 ROOTDEV 2) := ⟨.iget 2, by change 2 < 200; decide, rfl⟩
  have held : Held (occupy mkfsBig 0 ROOTDEV 2) 0 2 := by decide
  have second : Step (occupy mkfsBig 0 ROOTDEV 2) mkfsOpen :=
    ⟨.readi 0 0 0 0, ⟨⟨2, held⟩, by decide, by decide⟩, rfl⟩
  exact .next (.next (.start h) first) second

theorem mkfsOpen_cached : Cached mkfsOpen 0 2 := by decide

theorem contents_refine_mkfs : readi 0 2 0 2 mkfsOpen =
    .ok (readResult (file mkfsOpen 2).data 0 2, mkfsOpen) :=
  (contents_refine (mkfsOpen_reach ⟨mkfsBig_image, mkfsBig_full⟩) mkfsOpen_cached).1 2 0 2
    (by decide) (by decide) (by decide)

def mkfsNew (type : IType) : FsState := loaded (occupy (fresh mkfsBig 3 type) 0 ROOTDEV 3) 0

theorem mkfsNew_ready {type : IType} (typed : type ≠ .free) :
    Sound (mkfsNew type) ∧ Full (mkfsNew type) ∧ Cached (mkfsNew type) 0 3 ∧
      file (mkfsNew type) 3 = ⟨type, 0, 0, 0, []⟩ := by
  have free : (mkfsBig.dinode 3).type = .free := rfl
  have sound : Sound (fresh mkfsBig 3 type) := mkfsBig_image.sound.fresh_inode free
  have full : Full (fresh mkfsBig 3 type) := fresh_full mkfsBig_image.sound free mkfsBig_full
  have got : iget ROOTDEV 3 (fresh mkfsBig 3 type) =
      .ok (0, occupy (fresh mkfsBig 3 type) 0 ROOTDEV 3) := rfl
  have inside : 3 < mkfsBig.sb.ninodes := by decide
  obtain ⟨sound₁, quiet₁, held, _⟩ := wp_ok (iget_spec sound inside) got
  have locked : ilock 0 (occupy (fresh mkfsBig 3 type) 0 ROOTDEV 3) = .ok ((), mkfsNew type) := by
    cases type with
    | free => exact absurd rfl typed
    | _ => rfl
  obtain ⟨sound₂, quiet₂, cached, _⟩ := wp_ok (ilock_spec sound₁ held) locked
  refine ⟨sound₂, quiet₂.full (quiet₁.full full), cached, ?_⟩
  rw [quiet₂.file, quiet₁.file, fresh_file mkfsBig_image.sound free inside typed,
    Function.update_self]

/-! Block leaks -/

open Classical in
/- The blocks that inode `m` references. -/
noncomputable def blocksOf (s : FsState) (m : Nat) : Finset Nat :=
  (Finset.range s.sb.size).filter (fun b => b ≠ 0 ∧
    ∃ k js, (forest s).IsNode (m, k) js ∧ (forest s).ptr (m, k) js = b)

def usedData (s : FsState) : Finset Nat :=
  (Finset.range s.sb.size).filter (fun b => s.sb.size - s.sb.nblocks ≤ b ∧ s.bitmap b = true)

theorem ptr_allocated {r : Nat × Nat} {js : List Nat}
    (nz : (forest s).ptr r js ≠ 0) : Allocated s r.1 := by
  by_contra free
  refine nz (ptr_rootless ?_ js)
  simp only [forest]
  refine if_neg ?_
  rintro ⟨_, inside, typed⟩
  exact free ⟨inside, typed⟩

theorem usedData_eq (h : Sound s) (acc : Accounted s) :
    usedData s = (Finset.range s.sb.ninodes).biUnion (blocksOf s) := by
  ext b
  simp only [usedData, blocksOf, mem_filter, mem_range, mem_biUnion]
  constructor
  · rintro ⟨lt, low, set⟩
    obtain ⟨⟨m, k⟩, js, node, e⟩ := acc b ⟨⟨low, lt⟩, set⟩
    have nz : b ≠ 0 := h.layout.data_pos ⟨low, lt⟩
    exact ⟨m, (ptr_allocated (e ▸ nz)).1, lt, nz, k, js, node, e⟩
  · rintro ⟨m, _, lt, nz, k, js, node, e⟩
    obtain ⟨data, set⟩ := h.covered (m, k) js node (e ▸ nz)
    rw [e] at data set
    exact ⟨lt, data.1, set⟩

theorem card_usedData (h : Sound s) (acc : Accounted s) :
    (usedData s).card = ∑ m ∈ Finset.range s.sb.ninodes, (blocksOf s m).card := by
  rw [usedData_eq h acc]
  refine card_biUnion ?_
  intro m _ m' _ ne
  rw [Function.onFun, disjoint_left]
  intro b hb hb'
  simp only [blocksOf, mem_filter] at hb hb'
  obtain ⟨_, nz, k, js, node, e⟩ := hb
  obtain ⟨_, _, k', js', node', e'⟩ := hb'
  have same := (h.exclusive (m, k) js (m', k') js' node node' (e ▸ nz) (e.trans e'.symm)).1
  exact ne (congrArg Prod.fst same)

/- Steps that free no inode with a doubly-indirect block. -/
def ShallowStep (s t : FsState) : Prop :=
  ∃ op : Op, op.Allowed s ∧ op.Shallow s ∧ op.run s = .ok ((), t)

/-- Without such a step, every used data block belongs to an allocated inode, so
the number of used blocks is the sum of what the inodes reference. -/
theorem no_block_leaks {s : FsState}
    (h : Reach (fun s => Image s ∧ Full s ∧ Accounted s) ShallowStep s) :
    (∀ b, InData s b → s.bitmap b = true → ∃ m k js, Allocated s m ∧
      (forest s).IsNode (m, k) js ∧ (forest s).ptr (m, k) js = b) ∧
    (usedData s).card = ∑ m ∈ Finset.range s.sb.ninodes, (blocksOf s m).card := by
  have inv : Sound s ∧ Full s ∧ Accounted s := by
    refine h.invariant (fun s => Sound s ∧ Full s ∧ Accounted s)
      (fun s i => ⟨i.1.sound, i.2.1, i.2.2⟩) ?_
    rintro s t ⟨sound, full, acc⟩ ⟨op, allowed, shallow, ok⟩
    have keeps := wp_ok (run_keeps op sound allowed) ok
    exact ⟨keeps.sound, keeps.full full, keeps.accounted shallow full acc⟩
  obtain ⟨sound, _, acc⟩ := inv
  refine ⟨?_, card_usedData sound acc⟩
  intro b data set
  obtain ⟨⟨m, k⟩, js, node, e⟩ := acc b ⟨data, set⟩
  exact ⟨m, k, js, ptr_allocated (e ▸ sound.layout.data_pos data), node, e⟩

theorem no_block_leaks_mkfs :
    (usedData mkfsBig).card = ∑ m ∈ Finset.range mkfsBig.sb.ninodes, (blocksOf mkfsBig m).card :=
  (no_block_leaks (.start ⟨mkfsBig_image, mkfsBig_full, mkfsBig_accounted⟩)).2

theorem Freed.leak (h : Sound s) (fr : Freed s t inum)
    (deep : (forest s).ptr (inum, NDIRECT + 1) [] ≠ 0) :
    InData t ((forest s).ptr (inum, NDIRECT + 1) []) ∧
    t.bitmap ((forest s).ptr (inum, NDIRECT + 1) []) = true ∧ ∀ r js, (forest t).IsNode r js →
      (forest t).ptr r js ≠ (forest s).ptr (inum, NDIRECT + 1) [] := by
  have node : (forest s).IsNode (inum, NDIRECT + 1) [] := Nat.zero_le _
  obtain ⟨data, set⟩ := h.covered _ _ node deep
  refine ⟨?_, ?_, ?_⟩
  · unfold InData at data ⊢
    rwa [fr.sb]
  · refine (fr.bits _).mpr ⟨set, ?_⟩
    rintro ⟨_, k, js, lt, hn, e⟩
    have same := (h.exclusive (inum, k) js _ _ hn node (e ▸ deep) e).1
    have index : k = NDIRECT + 1 := congrArg Prod.snd same
    omega
  · intro r js hn e
    obtain ⟨other, same⟩ := fr.pruned.survives hn (e ▸ deep)
    obtain ⟨rfl, _⟩ := h.exclusive r js _ _ hn node (same ▸ e ▸ deep) (same.symm.trans e)
    exact other rfl

theorem iput_leaks (h : Sound s) (c : Cached s ip inum)
    (last : LastUnlinked s ip) (regular : isFattype (s.itable ip).copy.type = false)
    (deep : (s.itable ip).copy.addrs (NDIRECT + 1) ≠ 0) :
    ∃ t, Step s t ∧ InData t ((s.itable ip).copy.addrs (NDIRECT + 1)) ∧
      t.bitmap ((s.itable ip).copy.addrs (NDIRECT + 1)) = true ∧ ∀ r js, (forest t).IsNode r js →
        (forest t).ptr r js ≠ (s.itable ip).copy.addrs (NDIRECT + 1) := by
  have root : (forest s).ptr (inum, NDIRECT + 1) [] = (s.itable ip).copy.addrs (NDIRECT + 1) :=
    root_cached h.table c (by decide)
  have returns := wp_returns (iput_spec h c.held) (by
    rintro e ⟨_, fat⟩
    rw [regular] at fat
    contradiction)
  obtain ⟨_, t, ok, _, _, freed, _⟩ := returns
  have leak := (freed last).leak h (root ▸ deep)
  rw [root] at leak
  exact ⟨t, ⟨.iput ip, ⟨inum, c.held⟩, ok⟩, leak⟩

def mkfsUnlinked : FsState := stored mkfsOpen 0 2 (setFields .file 0 0 0)

/-- The file of the image is opened, unlinked and closed: block 229, its
doubly-indirect block, is still marked used and belongs to no inode. -/
theorem big_file_leaks : ∃ s t, Reach (fun s => Image s ∧ Full s ∧ Accounted s) Step s ∧
    Step s t ∧ InData t 229 ∧ t.bitmap 229 = true ∧
    ∀ r js, (forest t).IsNode r js → (forest t).ptr r js ≠ 229 := by
  have opened : Reach (fun s => Image s ∧ Full s ∧ Accounted s) Step mkfsOpen :=
    mkfsOpen_reach ⟨mkfsBig_image, mkfsBig_full, mkfsBig_accounted⟩
  have unlink : Step mkfsOpen mkfsUnlinked :=
    ⟨.fields 0 .file 0 0 0, ⟨⟨2, mkfsOpen_cached.held⟩, by decide⟩, rfl⟩
  have reached := opened.next unlink
  have sound : Sound mkfsUnlinked := by
    refine reached.invariant Sound (fun s i => i.1.sound) ?_
    intro s t sound step
    exact (step.keeps sound).sound
  have cached : Cached mkfsUnlinked 0 2 := (cached_stored 0 2).mpr mkfsOpen_cached
  have last : LastUnlinked mkfsUnlinked 0 := ⟨rfl, rfl, rfl⟩
  have deep : (mkfsUnlinked.itable 0).copy.addrs (NDIRECT + 1) = 229 := rfl
  obtain ⟨t, step, leak⟩ := iput_leaks sound cached last rfl (by rw [deep]; decide)
  rw [deep] at leak
  exact ⟨mkfsUnlinked, t, reached, step, leak⟩

end UvaOs.Fs
