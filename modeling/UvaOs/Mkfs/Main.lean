import UvaOs.Mkfs.Build

/-! The run of mkfs from the empty image to the bitmap: which files there are at the end, and
what the kernel finds when it mounts the image. -/
namespace UvaOs.Mkfs

open Bytes Prog List
open UvaOs.Fs (FsState Dinode BSIZE MAXFILE ROOTDEV ROOTINO)
open Function (update update_self update_of_ne update_eq_self)

/-! The entries of the root directory -/

/-- The numbers and names of host files, from number `f` on. -/
def entries : Nat → List Host → List (Nat × List UInt8)
  | _, [] => []
  | f, host :: hosts => (f, entryName host.path) :: entries (f + 1) hosts

def listing (es : List (Nat × List UInt8)) : List UInt8 := es.flatMap (fun e => dirent e.1 e.2)

def rootEntries (hosts : List Host) : List (Nat × List UInt8) :=
  (1, [dot]) :: (1, [dot, dot]) :: entries 2 hosts

theorem length_entries (hosts : List Host) (f : Nat) : (entries f hosts).length = hosts.length := by
  induction hosts generalizing f with
  | nil => rfl
  | cons host hosts ih => simp [entries, ih]

theorem getElem?_entries (hosts : List Host) (f i : Nat) :
    (entries f hosts)[i]? = hosts[i]?.map (fun h => (f + i, entryName h.path)) := by
  induction hosts generalizing f i with
  | nil => rfl
  | cons host hosts ih => grind [entries, getElem?_cons_succ]

theorem length_dirent (inum : Nat) (name : List UInt8) : (dirent inum name).length = 16 := by
  simp [dirent]
  omega

theorem dirent_ne_nil (inum : Nat) (name : List UInt8) : dirent inum name ≠ [] :=
  ne_nil_of_length_pos (by rw [length_dirent]; decide)

theorem length_listing (es : List (Nat × List UInt8)) : (listing es).length = 16 * es.length := by
  induction es with
  | nil => rfl
  | cons e es ih => grind [listing, dirent, length_append, length_dirent, length_cons]

theorem dirent_listing {es : List (Nat × List UInt8)} {k : Nat} {e : Nat × List UInt8}
    (here : es[k]? = some e) (rest : List UInt8) :
    Fs.dirent (listing es ++ rest) k = dirent e.1 e.2 := by
  induction es generalizing k with
  | nil => cases here
  | cons x es ih =>
    have split : listing (x :: es) ++ rest = dirent x.1 x.2 ++ (listing es ++ rest) :=
      append_assoc ..
    have size := length_dirent x.1 x.2
    cases k with
    | zero =>
      cases here
      have whole : Fs.DIRENT = (dirent e.1 e.2).length := size.symm
      rw [split, Fs.dirent, Nat.mul_zero, drop_zero, whole, take_left]
    | succ k =>
      rw [← ih here, split]
      unfold Fs.dirent
      have shift : Fs.DIRENT * (k + 1) = (dirent x.1 x.2).length + Fs.DIRENT * k := by
        simp only [Fs.DIRENT, size]
        omega
      rw [shift, drop_length_add_append]

theorem direntInum_dirent {inum : Nat} (small : inum < 2 ^ 16) (name : List UInt8) :
    Fs.direntInum (dirent inum name) = inum := by
  have bytes : Fs.direntInum (dirent inum name) =
      (UInt8.ofNat inum).toNat + 256 * (UInt8.ofNat (inum / 256)).toNat := rfl
  rw [bytes]
  simp
  omega

theorem takeWhile_padded (name : List UInt8) (n : Nat) :
    (name ++ List.replicate n 0).takeWhile (· ≠ 0) = name.takeWhile (· ≠ 0) := by
  induction name with
  | nil => cases n <;> simp [replicate_succ]
  | cons x name ih =>
    by_cases z : x = 0
    · simp [z]
    · simp only [cons_append, takeWhile_cons, ne_eq, z, not_false_eq_true, decide_true,
        if_true] at ih ⊢
      rw [ih]

theorem cstring_dirent (inum : Nat) (name : List UInt8) :
    Fs.cstring (Fs.direntName (dirent inum name)) = Fs.cstring name := by
  have text : Fs.direntName (dirent inum name) =
      name.take Fs.DIRSIZ ++ List.replicate (Fs.DIRSIZ - name.length) 0 := rfl
  have fits : (name.take Fs.DIRSIZ ++ List.replicate (Fs.DIRSIZ - name.length) 0).length ≤
      Fs.DIRSIZ := by
    simp
    omega
  rw [text, Fs.cstring, take_of_length_le fits, takeWhile_padded, Fs.cstring]

/-! The empty image -/

/-- The image with nothing but zeros and the superblock. -/
def blank : State := ⟨update (fun _ => zeros) 1 super, FSSIZE, 1, nmeta⟩

theorem wsect_zeros (n : Nat) : forRange (fun i => wsect i zeros) 0 n ⟨fun _ => zeros, 0, 1, nmeta⟩ =
    .ok ((), ⟨fun _ => zeros, n, 1, nmeta⟩) := by
  have loop : wp (forRange (fun i => wsect i zeros) 0 n)
      (fun _ t => t = ⟨fun _ => zeros, 0 + n, 1, nmeta⟩) (fun _ : Exit => False)
      ⟨fun _ => zeros, 0, 1, nmeta⟩ := by
    refine wp_forRange (fun j (t : State) => t = ⟨fun _ => zeros, j, 1, nmeta⟩) n 0 _ ?_ rfl
    rintro j t _ _ rfl
    have same : update (fun _ : Nat => zeros) j zeros = fun _ => zeros :=
      update_eq_self j (fun _ => zeros)
    change (⟨update (fun _ => zeros) j zeros, max j (j + 1), 1, nmeta⟩ : State) = _
    rw [same, Nat.max_eq_right (Nat.le_succ j)]
  obtain ⟨_, t, ran, rfl⟩ := wp_returns loop (fun _ no => no)
  rw [ran, Nat.zero_add]

theorem wsect_super : wsect 1 super ⟨fun _ => zeros, FSSIZE, 1, nmeta⟩ = .ok ((), blank) := by
  have size : max FSSIZE (1 + 1) = FSSIZE := Nat.max_eq_left (by decide)
  unfold wsect blank Prog.modify
  dsimp only
  rw [size]

theorem clear_then (n : Nat) (rest : MkM Unit) :
    (do modify (fun m => { m with freeblock := nmeta })
        forRange (fun i => wsect i zeros) 0 n
        rest : MkM Unit) initial = rest ⟨fun _ => zeros, n, 1, nmeta⟩ := by
  rw [run_bind (t := ⟨fun _ => zeros, 0, 1, nmeta⟩) (a := ()) rfl, run_bind (wsect_zeros n)]

theorem main_eq (hosts : List Host) : main hosts = (do
    modify (fun m => { m with freeblock := nmeta })
    forRange (fun i => wsect i zeros) 0 FSSIZE
    wsect 1 super
    makeRoot
    addFiles hosts
    fixRoot
    let m ← get
    balloc m.freeblock) := by
  delta main
  rfl

def populate (hosts : List Host) : MkM Unit := do
  makeRoot
  addFiles hosts
  fixRoot
  let m ← get
  balloc m.freeblock

theorem main_blank (hosts : List Host) : main hosts initial = populate hosts blank := by
  have clear := clear_then FSSIZE (do
    wsect 1 super
    makeRoot
    addFiles hosts
    fixRoot
    let m ← get
    balloc m.freeblock)
  have last := run_bind (f := fun _ => populate hosts) wsect_super
  rw [main_eq, clear]
  exact last

theorem blank_dinode (inum : Nat) : (view blank).dinode inum = .zero := by
  change (if inum < NINODES then decode (slot (blank.sect (IBLOCK inum)) (inum % IPB)) else .zero) = _
  split
  · rename_i inside
    have apart : IBLOCK inum ≠ 1 := by grind [IBLOCK_range, inodestart]
    have empty : blank.sect (IBLOCK inum) = zeros :=
      update_of_ne (v := super) apart (fun _ => zeros)
    have same : slot zeros (inum % IPB) = zeros := by
      funext i
      exact ite_self _
    rw [empty, same, decode_zeros]
  · rfl

theorem blank_ptr (r : Nat × Nat) (js : List Nat) : (Fs.forest (view blank)).ptr r js = 0 := by
  have root : (Fs.forest (view blank)).ptr r [] = 0 := by
    rw [Forest.ptr_nil]
    simp only [Fs.forest, view_current, blank_dinode]
    exact ite_self 0
  simpa using Forest.ptr_append_zero _ root js

theorem blank_made : Made blank := by
  have free : ∀ inum, ¬ Fs.Allocated (view blank) inum := by
    rintro inum ⟨_, used⟩
    rw [view_current, blank_dinode] at used
    exact used rfl
  refine ⟨⟨rfl, Nat.le_refl _, by decide, rfl, rfl, ?_, ?_⟩, ⟨⟨by decide, by decide, ?_, rfl⟩,
    fun _ => rfl, ?_, ?_⟩, ⟨⟨?_, ?_, ?_⟩, ?_, ?_, ?_⟩, ?_⟩
  · intro b least _
    have first : bmapstart = 83 := rfl
    have apart : b ≠ 1 := by omega
    exact update_of_ne (v := super) apart (fun _ => zeros)
  · intro b le
    have meta_ : blank.freeblock = 87 := rfl
    have apart : b ≠ 1 := by omega
    exact update_of_ne (v := super) apart (fun _ => zeros)
  · intro b low
    exact decide_eq_true (show b < nmeta from low)
  · intro r js _ _ _ _ nz
    exact absurd (blank_ptr r js) nz
  · intro r js _ nz
    exact absurd (blank_ptr r js) nz
  · intro inum a
    exact absurd a (free inum)
  · intro inum _ a
    exact absurd a (free inum)
  · intro _ _ c
    exact absurd c.2.1 (Int.lt_irrefl 0)
  · rintro b ⟨⟨low, _⟩, used⟩
    have below : b < nmeta := of_decide_eq_true used
    exact absurd below (Nat.not_lt.mpr low)
  · intro inum bn nz
    exact absurd (blank_ptr _ _) nz
  · intro inum i _ mapped
    exact absurd (blank_ptr _ _) mapped
  · intro inum _
    exact blank_dinode inum

/-! The files -/

section Files

variable {m m' : State}

theorem appendAll_made {inum : Nat} (inside : inum < NINODES) (reads : List (List UInt8)) :
    ∀ m, Made m → (Fs.file (view m) inum).type = .file →
      (∀ r ∈ reads, r ≠ [] ∧ r.length ≤ BSIZE) → appendAll inum reads m = .ok ((), m') →
      Made m' ∧ m'.freeinode = m.freeinode ∧ Fs.file (view m') = update (Fs.file (view m)) inum
          { Fs.file (view m) inum with data := (Fs.file (view m) inum).data ++ reads.flatten } := by
  induction reads with
  | nil =>
    intro m made type _ run
    cases run
    refine ⟨made, rfl, ?_⟩
    rw [flatten_nil, append_nil, update_eq_self]
  | cons r reads ih =>
    intro m made type documented run
    obtain ⟨_, t, first, rest⟩ := bind_ok run
    obtain ⟨some_, short⟩ := documented r (mem_cons_self ..)
    simp only [BSIZE] at short
    obtain ⟨made', count, files⟩ := iappend_made made inside (by rw [type]; decide)
      (by rw [type]; rfl) some_ (by omega) first
    have type' : (Fs.file (view t) inum).type = .file := by
      rw [files, update_self]
      exact type
    obtain ⟨made'', count', files'⟩ := ih t made' type'
      (fun r' mem => documented r' (mem_cons_of_mem _ mem)) rest
    refine ⟨made'', count'.trans count, ?_⟩
    rw [files', files, update_self, Function.update_idem, flatten_cons,
      append_assoc]

structure Added (m m' : State) (hosts : List Host) : Prop where
  made : Made m'
  count : m'.freeinode = m.freeinode + hosts.length
  root : Fs.file (view m') ROOTINO = { Fs.file (view m) ROOTINO with
    data := (Fs.file (view m) ROOTINO).data ++ listing (entries m.freeinode hosts) }
  files : ∀ i host, hosts[i]? = some host →
    Fs.file (view m') (m.freeinode + i) = ⟨.file, 0, 0, 1, host.reads.flatten⟩
  others : ∀ k, k ≠ ROOTINO → k < m.freeinode → Fs.file (view m') k = Fs.file (view m) k

theorem addFile_made {host : Host} (made : Made m) (room : m.freeinode < NINODES)
    (later : ROOTINO < m.freeinode) (dir : (Fs.file (view m) ROOTINO).type = .dir)
    (run : addFile host m = .ok ((), m')) : Added m m' [host] := by
  unfold addFile at run
  split at run
  · cases run
  split at run
  · cases run
  obtain ⟨inum, m₁, first, run⟩ := bind_ok run
  obtain ⟨made₁, rfl, count₁, files₁⟩ := ialloc_made made room (by decide) (by decide) first
  obtain ⟨_, m₂, second, third⟩ := bind_ok run
  have apart : ROOTINO ≠ m.freeinode := Nat.ne_of_lt later
  have root₁ : Fs.file (view m₁) ROOTINO = Fs.file (view m) ROOTINO := by
    rw [files₁, update_of_ne apart]
  obtain ⟨made₂, count₂, files₂⟩ := iappend_made made₁ (by decide) (by rw [root₁, dir]; decide)
    (by rw [root₁, dir]; rfl) (dirent_ne_nil _ _) (by rw [length_dirent]; decide) second
  have new : Fs.file (view m₂) m.freeinode = ⟨.file, 0, 0, 1, []⟩ := by
    rw [files₂, update_of_ne apart.symm, files₁, update_self]
    rfl
  obtain ⟨made₃, count₃, files₃⟩ := appendAll_made room host.reads m₂ made₂ (by rw [new])
    host.documented third
  refine ⟨made₃, by rw [count₃, count₂, count₁]; rfl, ?_, ?_, ?_⟩
  · rw [files₃, update_of_ne apart, files₂, update_self, root₁]
    simp [entries, listing]
  · intro i h here
    cases i with
    | zero =>
      cases here
      rw [Nat.add_zero, files₃, update_self, new]
      rfl
    | succ i => cases here
  · intro k other before
    rw [files₃, update_of_ne (Nat.ne_of_lt before), files₂, update_of_ne other,
      files₁, update_of_ne (Nat.ne_of_lt before)]

theorem addFiles_made (hosts : List Host) : ∀ m, Made m → m.freeinode + hosts.length ≤ NINODES →
    ROOTINO < m.freeinode → (Fs.file (view m) ROOTINO).type = .dir →
    addFiles hosts m = .ok ((), m') → Added m m' hosts := by
  induction hosts with
  | nil =>
    intro m made _ _ _ run
    cases run
    refine ⟨made, rfl, ?_, ?_, fun _ _ _ => rfl⟩
    · simp [entries, listing]
    · intro i host here
      cases here
  | cons host hosts ih =>
    intro m made room later dir run
    rw [length_cons] at room
    obtain ⟨_, t, first, rest⟩ := bind_ok run
    have one := addFile_made made (by omega) later dir first
    have count : t.freeinode = m.freeinode + 1 := one.count
    have all := ih t one.made (by omega) (by omega) (by rw [one.root]; exact dir) rest
    refine ⟨all.made, ?_, ?_, ?_, ?_⟩
    · rw [all.count, count, length_cons]
      omega
    · rw [all.root, one.root, count]
      simp [entries, listing]
    · intro i h here
      cases i with
      | zero =>
        cases here
        have apart : m.freeinode + 0 ≠ ROOTINO := Nat.ne_of_gt later
        rw [all.others _ apart (by omega)]
        exact one.files 0 _ rfl
      | succ i =>
        have index : m.freeinode + (i + 1) = t.freeinode + i := by omega
        rw [index]
        exact all.files i h here
    · intro k other before
      rw [all.others k other (by omega), one.others k other before]

structure Stocked (m : State) (hosts : List Host) : Prop where
  made : Made m
  count : m.freeinode = hosts.length + 2
  root : Fs.file (view m) ROOTINO = ⟨.dir, 0, 0, 1, listing (rootEntries hosts)⟩
  files : ∀ i host, hosts[i]? = some host →
    Fs.file (view m) (i + 2) = ⟨.file, 0, 0, 1, host.reads.flatten⟩

theorem makeRoot_stocked (run : makeRoot blank = .ok ((), m')) : Stocked m' [] := by
  obtain ⟨inum, m₁, first, run⟩ := bind_ok run
  obtain ⟨made₁, number, count₁, files₁⟩ :=
    ialloc_made blank_made (by decide) (by decide) (by decide) first
  have rootino : inum = ROOTINO := number
  subst rootino
  rw [if_neg (by decide)] at run
  obtain ⟨_, m₂, second, third⟩ := bind_ok run
  have root₁ : Fs.file (view m₁) ROOTINO = ⟨.dir, 0, 0, 1, []⟩ := by
    rw [files₁]
    exact update_self ..
  obtain ⟨made₂, count₂, files₂⟩ := iappend_made made₁ (by decide) (by rw [root₁]; decide)
    (by rw [root₁]; rfl) (dirent_ne_nil _ _) (by rw [length_dirent]; decide) second
  have root₂ : Fs.file (view m₂) ROOTINO = ⟨.dir, 0, 0, 1, dirent 1 [dot]⟩ := by
    rw [files₂, update_self, root₁]
    rfl
  obtain ⟨made₃, count₃, files₃⟩ := iappend_made made₂ (by decide) (by rw [root₂]; decide)
    (by rw [root₂]; rfl) (dirent_ne_nil _ _) (by rw [length_dirent]; decide) third
  refine ⟨made₃, by rw [count₃, count₂, count₁]; rfl, ?_, ?_⟩
  · rw [files₃, update_self, root₂]
    rfl
  · intro i host here
    cases here

theorem addFiles_stocked {hosts : List Host} {t : State} (room : hosts.length + 1 < NINODES)
    (root : Stocked t []) (run : addFiles hosts t = .ok ((), m')) : Stocked m' hosts := by
  have first : t.freeinode = 2 := root.count
  have added := addFiles_made hosts t root.made (by omega) (by rw [first]; decide)
    (by rw [root.root]) run
  have count := added.count
  have start := added.root
  have files := added.files
  rw [first] at count start files
  refine ⟨added.made, by omega, ?_, ?_⟩
  · rw [start, root.root]
    simp [listing, rootEntries, entries]
  · intro i host here
    rw [Nat.add_comm]
    exact files i host here

end Files

/-! The size of the root directory -/

def rounded (size : Nat) : Nat := (size / BSIZE + 1) * BSIZE

section Root

variable {m m' : State}

theorem fixRoot_ok (inv : Inv m) (bound : ((view m).dinode ROOTINO).size ≤ MAXFILE * BSIZE)
    (run : fixRoot m = .ok ((), m')) :
    view m' = (view m).putDinode ROOTINO { (view m).dinode ROOTINO with
      size := rounded ((view m).dinode ROOTINO).size } ∧ Inv m' ∧ m'.freeinode = m.freeinode := by
  obtain ⟨din, t, read, write⟩ := bind_ok run
  obtain ⟨rfl, rfl⟩ := rinode_ok inv read
  have written := winode_ok inv write
  have inside : ROOTINO < NINODES := by decide
  rw [view_dinode inside] at bound ⊢
  have small : rounded (dinSize (slot (t.sect (IBLOCK ROOTINO)) (ROOTINO % IPB))) < 2 ^ 32 := by
    have limit := Fs.maxBytes
    change dinSize (slot (t.sect (IBLOCK ROOTINO)) (ROOTINO % IPB)) ≤ _ at bound
    simp only [rounded, BSIZE] at bound limit ⊢
    omega
  refine ⟨?_, written ▸ inv.winode inside, by rw [written]⟩
  rw [written, view_winode inside]
  exact congrArg _ (decode_setSize small)

/-- The image that the kernel mounts, without the table. -/
structure Finished (s : FsState) (hosts : List Host) : Prop where
  sb : s.sb = Fs.mkfsSuper
  image : Fs.Image s
  accounted : Fs.Accounted s
  root : Fs.file s ROOTINO = ⟨.dir, 0, 0, 1, Fs.bytes s ROOTINO 0
    (rounded (listing (rootEntries hosts)).length)⟩
  files : ∀ i host, hosts[i]? = some host →
    Fs.file s (i + 2) = ⟨.file, 0, 0, 1, host.reads.flatten⟩
  full : (hosts.length + 2) % 32 ≠ 0 → Fs.Full s ∧ ∃ n, Fs.bytes s ROOTINO 0
    (rounded (listing (rootEntries hosts)).length) = listing (rootEntries hosts) ++ List.replicate n 0
  hole : (hosts.length + 2) % 32 = 0 → ∃ i, Fs.Allocated s ROOTINO ∧
    i < (Fs.current s ROOTINO).size ∧ ¬ Fs.Mapped s ROOTINO i

theorem length_rootEntries (hosts : List Host) :
    (listing (rootEntries hosts)).length = 16 * (hosts.length + 2) := by
  rw [length_listing, rootEntries, length_cons, length_cons, length_entries]

theorem fixRoot_finished {hosts : List Host} (stocked : Stocked m hosts)
    (run : fixRoot m = .ok ((), m')) : Finished (view m') hosts := by
  have inside : ROOTINO < NINODES := by decide
  have dir : (Fs.file (view m) ROOTINO).type = .dir := by rw [stocked.root]
  have type := view_type (m := m) (by rw [dir]; decide)
  have typed : ((view m).dinode ROOTINO).type ≠ .free := by
    rw [type, dir]
    decide
  have length := view_length inside typed
  have alloc := view_allocated inside typed
  have neat := stocked.made.neat
  have bound := neat.full.bound ROOTINO alloc
  rw [view_current] at bound
  obtain ⟨here, _, _⟩ := fixRoot_ok stocked.made.inv bound run
  rw [← length, stocked.root] at here
  have data : (Fs.file (view m) ROOTINO).data = listing (rootEntries hosts) := by rw [stocked.root]
  have size := length_rootEntries hosts
  have rooted := stocked.root
  generalize named : listing (rootEntries hosts) = entries at rooted here data size
  have new := view_put here rfl (.inl rfl)
  have bytes := byteAt_congr new.forest new.block
  have alloc' : Fs.Allocated (view m') ROOTINO := ⟨inside, by rw [new.own]; exact typed⟩
  rw [Fs.file, if_pos alloc, view_current] at rooted
  refine ⟨rfl, new.image stocked.made.image, accounted_congr new.forest rfl new.bitmap neat.accounted,
    ?_, ?_, ?_, ?_⟩
  · injection rooted with isDir major minor nlink _
    rw [Fs.file, if_pos alloc', new.own, named]
    dsimp only
    rw [isDir, major, minor, nlink]
  · intro i host at_i
    rw [← stocked.files i host at_i]
    exact Fs.file_congr rfl (new.others _ (by simp)) (fun _ j _ => bytes _ j)
  · intro odd
    have partly : entries.length % BSIZE ≠ 0 := by
      simp only [size, BSIZE]
      omega
    -- the last block of the directory is there already
    have last : ∀ i, entries.length ≤ i → i < rounded entries.length →
        Fs.Mapped (view m) ROOTINO i := by
      intro i le lt
      have before := neat.full.mapped ROOTINO (entries.length - 1) alloc (by
        rw [view_current, ← length, data]
        simp only [BSIZE] at partly
        omega)
      unfold Fs.Mapped at before ⊢
      have same : i / BSIZE = (entries.length - 1) / BSIZE := by
        simp only [rounded, BSIZE] at lt partly ⊢
        omega
      rwa [same]
    refine ⟨⟨?_, ?_, ?_⟩, rounded entries.length - entries.length, ?_⟩
    · intro k a
      by_cases e : k = ROOTINO
      · grind [MAXFILE, BSIZE, rounded, new.own]
      · rw [new.others k e]
        exact neat.full.bound k (new.alloc e a)
    · intro k i a lt
      refine (mapped_congr new.forest k i).mpr ?_
      by_cases e : k = ROOTINO
      · rw [e, new.own] at lt
        rw [e]
        by_cases le : entries.length ≤ i
        · exact last i le lt
        · refine neat.full.mapped ROOTINO i alloc ?_
          rw [view_current, ← length, data]
          omega
      · rw [new.others k e] at lt
        exact neat.full.mapped k i (new.alloc e a) lt
    · intro _ _ c
      exact absurd c.2.1 (Int.lt_irrefl 0)
    · have whole : entries.length + (rounded entries.length - entries.length) =
          rounded entries.length := by
        simp only [rounded, BSIZE]
        omega
      rw [named]
      conv_lhs => rw [← whole, ← Fs.bytes_append, Nat.zero_add]
      congr 1
      · rw [Fs.bytes_congr (fun i _ => bytes ROOTINO i), ← data, Fs.file, if_pos alloc,
          Fs.length_bytes]
      · apply ext_getElem?
        intro i
        rw [Fs.getElem?_bytes, getElem?_replicate]
        split
        · rename_i lt
          rw [bytes, neat.blank ROOTINO _ (by rw [data]; omega) (last _ (by omega) (by omega))]
        · rfl
  · intro even
    refine ⟨entries.length, alloc', ?_, ?_⟩
    · rw [new.own]
      simp only [rounded, BSIZE]
      omega
    · intro mapped
      have before := neat.tight ROOTINO _ ((mapped_congr new.forest _ _).mp mapped)
      rw [data] at before
      simp only [size, BSIZE] at before even
      omega

end Root

/-! The bitmap -/

theorem bit_bits (len i : Nat) : bit (bits len) i = decide (i < len) := by
  unfold bits
  induction len with
  | zero => exact bit_zeros i
  | succ len ih =>
    grind [range_succ, bit_setBit, Nat.lt_succ_of_lt]

theorem ballocLoop_ok (fuel : Nat) : ∀ (left k : Nat) (m m' : State), left ≤ fuel →
    ballocLoop fuel left k m = .ok ((), m') → m'.freeinode = m.freeinode ∧
      (∀ b, b < bmapstart + k ∨ bmapstart + k + (left + 4095) / 4096 ≤ b → m'.sect b = m.sect b) ∧
      ∀ j i, i < BPB → BPB * j < left →
        bit (m'.sect (bmapstart + k + j)) i = decide (BPB * j + i < left) := by
  induction fuel with
  | zero =>
    intro left k m m' few run
    cases run
    exact ⟨rfl, fun _ _ => rfl, fun j i _ lt => by omega⟩
  | succ fuel ih =>
    intro left k m m' few run
    have page : BPB = 4096 := rfl
    unfold ballocLoop at run
    by_cases more : 0 < left
    · rw [if_pos more] at run
      obtain ⟨_, t, write, rest⟩ := bind_ok run
      cases write
      have piece : min left (BSIZE * 8) = min left 4096 := rfl
      rw [piece] at rest
      obtain ⟨count, same, marks⟩ := ih _ _ _ _ (by omega) rest
      refine ⟨count, ?_, ?_⟩
      · intro b out
        rw [same b (by omega)]
        exact update_of_ne (by omega) ..
      · intro j i hi lt
        rw [page] at hi lt ⊢
        cases j with
        | zero =>
          have here : m'.sect (bmapstart + k + 0) = bits (min left 4096) := by
            rw [same _ (by omega)]
            exact update_self ..
          rw [here, bit_bits]
          congr 1
          apply propext
          omega
        | succ j =>
          have index : bmapstart + k + (j + 1) = bmapstart + (k + 1) + j := by omega
          rw [index, marks j i hi (by rw [page]; omega), page]
          congr 1
          apply propext
          omega
    · rw [if_neg more] at run
      cases run
      exact ⟨rfl, fun _ _ => rfl, fun j i _ lt => by omega⟩

theorem mount_balloc {m m' : State} (inv : Inv m) (run : balloc m.freeblock m = .ok ((), m')) :
    mount m'.sect = view m ∧ m'.freeinode = m.freeinode := by
  obtain ⟨count, same, marks⟩ := ballocLoop_ok _ _ _ _ _ (Nat.le_refl _) run
  have high := inv.high
  have total : FSSIZE = 15000 := rfl
  have first : bmapstart = 83 := rfl
  have meta_ : nmeta = 87 := rfl
  have start : inodestart = 32 := rfl
  have page : BPB = 4096 := rfl
  rw [Nat.add_zero, first] at same
  have super_ : m'.sect 1 = super := (same 1 (by omega)).trans inv.super
  have size : word super 1 = 15000 := word_ofWords _ _ (by decide)
  have blocks : word super 2 = 14913 := word_ofWords _ _ (by decide)
  have inodes : word super 3 = 200 := word_ofWords _ _ (by decide)
  have inodes_at : word super 6 = inodestart := word_ofWords _ _ (by decide)
  have bitmap_at : word super 7 = bmapstart := word_ofWords _ _ (by decide)
  refine ⟨?_, count⟩
  unfold mount view
  rw [super_, size, blocks, inodes, inodes_at, bitmap_at]
  congr 1
  · funext b
    by_cases lt : b < 15000
    · rw [decide_eq_true lt, Bool.true_and, page]
      by_cases some_ : 4096 * (b / 4096) < m.freeblock
      · have marked := marks (b / 4096) (b % 4096) (by omega) some_
        rw [Nat.add_zero, page, Nat.div_add_mod] at marked
        exact marked
      · grind [inv.bitmap, bit_zeros, decide_eq_false]
    · grind
  · funext inum
    by_cases inside : inum < NINODES
    · have range := (IBLOCK_range inside).2
      rw [if_pos inside, if_pos (show inum < 200 from inside)]
      congr 2
      exact same _ (by rw [IBLOCK] at range; omega)
    · rw [if_neg inside, if_neg (show ¬ inum < 200 from inside)]
  · grind

end UvaOs.Mkfs
