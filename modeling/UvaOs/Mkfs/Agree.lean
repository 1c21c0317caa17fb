import UvaOs.Mkfs.Main

/-! mkfs and the kernel agree on the format of the disk: when the image of mkfs is well formed
for the kernel, and what the kernel reads from it. -/
namespace UvaOs.Mkfs

open Bytes Prog List
open UvaOs.Fs (FsState FsM BSIZE MAXFILE ROOTDEV ROOTINO)

/-! The kernel reads a file of the root directory -/

/-- Look a name up in the root directory and read the whole file. -/
def lookupRead (name : List UInt8) : FsM (Option (List UInt8)) := do
  let dp ← Fs.iget ROOTDEV ROOTINO
  Fs.ilock dp
  let r ← Fs.dirlookup dp name
  match r with
  | none => pure none
  | some (ip, _) => do
    Fs.ilock ip
    let i ← Fs.inode ip
    let r ← Fs.readi ip i.copy.size 0 i.copy.size
    pure (some r.2)

section Kernel

variable {s : FsState} {inum k : Nat} {name : List UInt8}

theorem iget_ilock {i : Nat} (sound : Fs.Sound s) (alloc : Fs.Allocated s inum) (lt : i < Fs.NINODE)
    (empty : (s.itable i).ref = 0) : ∃ ip t u, Fs.iget ROOTDEV inum s = .ok (ip, t) ∧
      Fs.ilock ip t = .ok ((), u) ∧ Fs.Sound u ∧ Fs.Quiet s u ∧ Fs.Cached u ip inum ∧
      ∀ j, j ≠ ip → (u.itable j).ref = (s.itable j).ref := by
  obtain ⟨ip, t, got⟩ := Fs.iget_room ROOTDEV inum lt empty
  obtain ⟨soundT, quietT, held, refsT⟩ := wp_ok (Fs.iget_spec sound alloc.1) got
  obtain ⟨_, u, locked, soundU, quietU, cached, refsU⟩ := wp_returns (Fs.ilock_spec soundT held) (by
    rintro e ⟨_, free⟩
    rw [quietT.now] at free
    exact alloc.2 free)
  refine ⟨ip, t, u, got, locked, soundU, quietT.trans quietU, cached, ?_⟩
  intro j other
  rw [refsU.count, refsT.count, Fs.one_ne other]
  omega

theorem lookupRead_match (sound : Fs.Sound s) (full : Fs.Full s) (idle : ∀ i, (s.itable i).ref = 0)
    (dir : (Fs.file s ROOTINO).type = .dir)
    (inside : Fs.DIRENT * (k + 1) ≤ (Fs.file s ROOTINO).data.length)
    (match_ : Fs.Matches (Fs.file s ROOTINO).data name k)
    (first : ∀ j, j < k → ¬ Fs.Matches (Fs.file s ROOTINO).data name j)
    (number : Fs.direntInum (Fs.dirent (Fs.file s ROOTINO).data k) = inum)
    (alloc : Fs.Allocated s inum) :
    ∃ t, lookupRead name s = .ok (some (Fs.file s inum).data, t) := by
  have rooted : Fs.Allocated s ROOTINO := by
    by_contra free
    rw [Fs.file, if_neg free] at dir
    cases dir
  obtain ⟨dp, s₁, s₂, got, locked, sound₂, quiet₂, cached₂, refs₂⟩ :=
    iget_ilock (i := 0) sound rooted (by decide) (idle 0)
  rw [← quiet₂.file] at dir inside match_ first number
  have found := Fs.dirlookup_match sound₂ (quiet₂.full full) cached₂ dir inside match_ first
  rw [number] at found
  have alloc₂ : Fs.Allocated s₂ inum := ⟨by rw [quiet₂.sb]; exact alloc.1, by
    rw [quiet₂.now]
    exact alloc.2⟩
  obtain ⟨j, lt, empty⟩ : ∃ j, j < Fs.NINODE ∧ (s₂.itable j).ref = 0 := by
    by_cases e : dp = 0
    · exact ⟨1, by decide, (refs₂ 1 (by omega)).trans (idle 1)⟩
    · exact ⟨0, by decide, (refs₂ 0 (fun k => e k.symm)).trans (idle 0)⟩
  obtain ⟨ip, s₃, s₄, got', locked', sound₄, quiet₄, cached₄, _⟩ :=
    iget_ilock sound₂ alloc₂ lt empty
  have full₄ := quiet₄.full (quiet₂.full full)
  have alloc₄ := cached₄.allocated sound₄.table
  have now := Fs.current_cached sound₄.table.unique cached₄
  have size : (s₄.itable ip).copy.size = (Fs.file s₄ inum).data.length := by
    rw [Fs.file, if_pos alloc₄, Fs.length_bytes, now]
  have small : (s₄.itable ip).copy.size < Fs.UINT := by
    have limit : MAXFILE * BSIZE < Fs.UINT := by decide
    have bound := full₄.bound inum alloc₄
    rw [now] at bound
    exact Nat.lt_of_le_of_lt bound limit
  refine ⟨s₄, ?_⟩
  unfold lookupRead
  rw [run_bind got, run_bind locked]
  rw [run_bind (t := s₃) (a := some (ip, Fs.DIRENT * k)) (by rw [found, run_bind got']; rfl)]
  dsimp only
  rw [run_bind locked', Fs.run_inode,
    run_bind (Fs.readi_result sound₄ full₄ cached₄ (by decide) small (Nat.le_refl _)), size,
    ← quiet₂.file, ← quiet₄.file]
  have whole : (Fs.readResult (Fs.file s₄ inum).data 0 (Fs.file s₄ inum).data.length).2 =
      (Fs.file s₄ inum).data := by
    rw [size] at small
    rw [Fs.readResult, if_pos ⟨Nat.zero_le _, by omega⟩, drop_zero, take_length]
  rw [whole]
  rfl

end Kernel

/-! The whole run -/

section Agree

variable {hosts : List Host} {m : State}

theorem Steady.balloc (used : Nat) : Steady (balloc used) := fun _ _ _ run =>
  (ballocLoop_ok _ _ _ _ _ (Nat.le_refl _) run).1

theorem main_count (run : main hosts initial = .ok ((), m)) : m.freeinode = hosts.length + 2 := by
  rw [main_blank] at run
  obtain ⟨_, m₁, root, run⟩ := bind_ok run
  obtain ⟨_, m₂, files, run⟩ := bind_ok run
  obtain ⟨_, m₃, fix, run⟩ := bind_ok run
  obtain ⟨_, _, here, last⟩ := bind_ok run
  cases here
  have start : blank.freeinode = 1 := rfl
  rw [Steady.balloc _ _ _ _ last, Steady.fixRoot _ _ _ fix, addFiles_count _ _ files,
    makeRoot_count root, start]
  omega

theorem main_finished (few : hosts.length + 1 < NINODES) (run : main hosts initial = .ok ((), m)) :
    Finished (mount m.sect) hosts := by
  rw [main_blank] at run
  obtain ⟨_, m₁, root, run⟩ := bind_ok run
  obtain ⟨_, m₂, files, run⟩ := bind_ok run
  obtain ⟨_, m₃, fix, run⟩ := bind_ok run
  obtain ⟨_, _, here, last⟩ := bind_ok run
  cases here
  have stocked := addFiles_stocked few (makeRoot_stocked root) files
  have inside : ROOTINO < NINODES := by decide
  have dir : (Fs.file (view m₂) ROOTINO).type = .dir := by rw [stocked.root]
  have type := view_type (m := m₂) (by rw [dir]; decide)
  have bound := stocked.made.neat.full.bound ROOTINO
    (view_allocated inside (by rw [type, dir]; decide))
  rw [view_current] at bound
  obtain ⟨_, inv, _⟩ := fixRoot_ok stocked.made.inv bound fix
  rw [(mount_balloc inv last).1]
  exact fixRoot_finished stocked fix

/-- An image that is well formed for the kernel and holds the host files. The inode numbers in
use are those that mkfs has handed out. -/
structure WellFormed (hosts : List Host) (m : State) : Prop where
  sb : (mount m.sect).sb = Fs.mkfsSuper
  inodes : ∀ inum, 1 ≤ inum → inum < m.freeinode →
    inum < (mount m.sect).sb.ninodes ∧ inodestart ≤ IBLOCK inum ∧ IBLOCK inum < bmapstart
  mapped : ∀ inum i, Fs.Allocated (mount m.sect) inum →
    i < (Fs.current (mount m.sect) inum).size → Fs.Mapped (mount m.sect) inum i
  exclusive : (Fs.forest (mount m.sect)).Exclusive
  bitmap : ∀ b, (mount m.sect).bitmap b = true ↔ b < nmeta ∨
    ∃ r js, (Fs.forest (mount m.sect)).IsNode r js ∧ (Fs.forest (mount m.sect)).ptr r js = b
  names : ∀ j k, j < k → Fs.DIRENT * (k + 1) ≤ (Fs.file (mount m.sect) ROOTINO).data.length →
    Fs.direntInum (Fs.dirent (Fs.file (mount m.sect) ROOTINO).data j) ≠ 0 →
    Fs.direntInum (Fs.dirent (Fs.file (mount m.sect) ROOTINO).data k) ≠ 0 →
    Fs.sameName (Fs.direntName (Fs.dirent (Fs.file (mount m.sect) ROOTINO).data j))
      (Fs.direntName (Fs.dirent (Fs.file (mount m.sect) ROOTINO).data k)) = false
  contents : ∀ host ∈ hosts, ∃ t,
    lookupRead ((entryName host.path).take Fs.DIRSIZ) (mount m.sect) = .ok (some host.bytes, t)

/-- The names that mkfs writes into the root directory. -/
def rootNames (hosts : List Host) : List (List UInt8) :=
  [dot] :: [dot, dot] :: hosts.map (fun host => entryName host.path)

/-- The host files that mkfs can handle: there is an inode for each, the root directory does not
end on a block boundary, all names are different, and every file could be read to its end. -/
structure Fits (hosts : List Host) : Prop where
  few : hosts.length + 1 < NINODES
  odd : (hosts.length + 2) % 32 ≠ 0
  distinct : (rootNames hosts).Pairwise (fun a b => Fs.sameName a b = false)
  whole : ∀ host ∈ hosts, host.reads.flatten = host.bytes

theorem getElem?_rootEntries (hosts : List Host) (k : Nat) : (rootEntries hosts)[k]? =
    (rootNames hosts)[k]?.map (fun name => (if k = 0 then 1 else k, name)) := by
  match k with
  | 0 => rfl
  | 1 => rfl
  | k + 2 =>
    grind [rootEntries, entries, rootNames, entryName, getElem?_entries, Option.map_map, Nat.add_comm]

theorem length_rootNames (hosts : List Host) : (rootNames hosts).length = hosts.length + 2 := by
  simp [rootNames]

theorem sameName_comm (a b : List UInt8) : Fs.sameName a b = Fs.sameName b a := by
  unfold Fs.sameName
  rw [Bool.eq_iff_iff, beq_iff_eq, beq_iff_eq]
  exact eq_comm

theorem sameName_dirent (name : List UInt8) (inum : Nat) (other : List UInt8) :
    Fs.sameName name (Fs.direntName (dirent inum other)) = Fs.sameName name other := by
  unfold Fs.sameName
  rw [cstring_dirent]

theorem sameName_take (name other : List UInt8) :
    Fs.sameName (name.take Fs.DIRSIZ) other = Fs.sameName name other := by
  unfold Fs.sameName Fs.cstring
  rw [take_take, Nat.min_self]

theorem root_entry {k n : Nat} {name : List UInt8} (few : hosts.length + 1 < NINODES)
    (here : (rootNames hosts)[k]? = some name) :
    Fs.direntInum (Fs.dirent (listing (rootEntries hosts) ++ List.replicate n 0) k) =
      (if k = 0 then 1 else k) ∧
    Fs.dirent (listing (rootEntries hosts) ++ List.replicate n 0) k =
      dirent (if k = 0 then 1 else k) name := by
  have entry : (rootEntries hosts)[k]? = some (if k = 0 then 1 else k, name) := by
    rw [getElem?_rootEntries, here]
    rfl
  have lt : k < hosts.length + 2 := by grind [length_rootNames]
  have total : NINODES = 200 := rfl
  have small : (if k = 0 then 1 else k) < 2 ^ 16 := by
    split <;> omega
  rw [dirent_listing entry]
  exact ⟨direntInum_dirent small name, rfl⟩

theorem root_unused {k n : Nat} (behind : hosts.length + 2 ≤ k) :
    Fs.direntInum (Fs.dirent (listing (rootEntries hosts) ++ List.replicate n 0) k) = 0 := by
  have length := length_rootEntries hosts
  have empty : (listing (rootEntries hosts)).drop (Fs.DIRENT * k) = [] := by
    apply drop_eq_nil_of_le
    simp only [Fs.DIRENT]
    omega
  unfold Fs.dirent
  rw [drop_append, empty, nil_append, drop_replicate, take_replicate]
  unfold Fs.direntInum
  rw [getElem?_replicate, getElem?_replicate]
  split <;> split <;> rfl

theorem Finished.listed {s : FsState} (finished : Finished s hosts)
    (odd : (hosts.length + 2) % 32 ≠ 0) :
    ∃ n, (Fs.file s ROOTINO).data = listing (rootEntries hosts) ++ List.replicate n 0 := by
  obtain ⟨_, n, data⟩ := finished.full odd
  exact ⟨n, by rw [finished.root, data]⟩

theorem Finished.lookup {s : FsState} (finished : Finished s hosts)
    (few : hosts.length + 1 < NINODES) (odd : (hosts.length + 2) % 32 ≠ 0)
    (distinct : (rootNames hosts).Pairwise (fun a b => Fs.sameName a b = false)) {i : Nat} {host : Host}
    (here : hosts[i]? = some host) : ∃ t, lookupRead ((entryName host.path).take Fs.DIRSIZ) s =
      .ok (some host.reads.flatten, t) := by
  obtain ⟨n, data⟩ := finished.listed odd
  have lt : i < hosts.length := (List.getElem?_eq_some_iff.mp here).1
  have name : (rootNames hosts)[i + 2]? = some (entryName host.path) := by
    grind [rootNames, entryName]
  have file := finished.files i host here
  obtain ⟨number, entry⟩ := root_entry (n := n) few name
  rw [if_neg (by omega)] at number entry
  have whole : host.reads.flatten = (Fs.file s (i + 2)).data := by rw [file]
  rw [whole]
  refine lookupRead_match (k := i + 2) finished.image.sound (finished.full odd).1
    finished.image.idle (by rw [finished.root]) ?_ ?_ ?_ ?_ ?_
  · rw [data, length_append, length_rootEntries]
    simp only [Fs.DIRENT]
    omega
  · rw [data]
    refine ⟨by rw [number]; omega, ?_⟩
    rw [entry, sameName_dirent, sameName_take]
    exact beq_self_eq_true _
  · rintro j before ⟨_, same⟩
    have within : j < (rootNames hosts).length := by
      rw [length_rootNames]
      omega
    have other := getElem?_eq_getElem within
    rw [data, (root_entry (n := n) few other).2, sameName_dirent, sameName_take, sameName_comm]
      at same
    have apart := List.pairwise_iff_getElem.mp distinct j (i + 2) within
      (by rw [length_rootNames]; omega) before
    rw [List.getElem?_eq_some_iff.mp name |>.2, same] at apart
    cases apart
  · rw [data]
    exact number
  · by_contra free
    rw [Fs.file, if_neg free] at file
    cases file

theorem WellFormed.fits (run : main hosts initial = .ok ((), m)) (good : WellFormed hosts m) :
    Fits hosts := by
  have count := main_count run
  have few : hosts.length + 1 < NINODES := by
    have last := (good.inodes (hosts.length + 1) (by omega) (by omega)).1
    rwa [good.sb] at last
  have finished := main_finished few run
  have odd : (hosts.length + 2) % 32 ≠ 0 := by
    intro even
    obtain ⟨i, alloc, lt, hole⟩ := finished.hole even
    exact hole (good.mapped ROOTINO i alloc lt)
  obtain ⟨n, data⟩ := finished.listed odd
  have distinct : (rootNames hosts).Pairwise (fun a b => Fs.sameName a b = false) := by
    rw [pairwise_iff_getElem]
    intro j k hj hk before
    obtain ⟨numberJ, entryJ⟩ := root_entry (n := n) few (getElem?_eq_getElem hj)
    obtain ⟨numberK, entryK⟩ := root_entry (n := n) few (getElem?_eq_getElem hk)
    have apart := good.names j k before
    rw [data, numberJ, numberK, entryJ, entryK, sameName_dirent, sameName_comm, sameName_dirent,
      sameName_comm] at apart
    apply apart
    · grind [length_append, length_rootEntries, length_rootNames, Fs.DIRENT]
    · split <;> omega
    · split <;> omega
  refine ⟨few, odd, distinct, ?_⟩
  intro host mem
  obtain ⟨i, here⟩ := mem_iff_getElem?.mp mem
  obtain ⟨t, read⟩ := good.contents host mem
  obtain ⟨t', found⟩ := finished.lookup few odd distinct here
  have same := Except.ok.inj (found.symm.trans read)
  exact Option.some.inj (Prod.mk.inj same).1

theorem Fits.wellFormed (run : main hosts initial = .ok ((), m)) (fits : Fits hosts) :
    WellFormed hosts m := by
  have finished := main_finished fits.few run
  obtain ⟨n, data⟩ := finished.listed fits.odd
  refine ⟨finished.sb, ?_, (finished.full fits.odd).1.mapped, finished.image.exclusive, ?_, ?_, ?_⟩
  · intro inum _ used
    rw [main_count run] at used
    have inside : inum < NINODES := Nat.lt_of_lt_of_le used fits.few
    rw [finished.sb]
    exact ⟨inside, IBLOCK_range inside⟩
  · intro b
    have layout := finished.image.layout
    constructor
    · intro used
      by_cases low : b < nmeta
      · exact .inl low
      · have inside : b < (mount m.sect).sb.size := by
          have both := used
          simp only [mount, Bool.and_eq_true, decide_eq_true_eq] at both
          exact both.1
        refine .inr (finished.accounted b ⟨⟨?_, inside⟩, used⟩)
        rw [finished.sb]
        exact Nat.not_lt.mp low
    · rintro (low | ⟨r, js, node, rfl⟩)
      · refine layout.used b ?_
        rw [finished.sb]
        exact low
      · by_cases absent : (Fs.forest (mount m.sect)).ptr r js = 0
        · rw [absent]
          refine layout.used 0 ?_
          rw [finished.sb]
          decide
        · exact (finished.image.covered r js node absent).2
  · intro j k before within usedJ usedK
    rw [data] at usedJ usedK ⊢
    have hk : k < (rootNames hosts).length := by
      rw [length_rootNames]
      by_contra behind
      exact usedK (root_unused (Nat.not_lt.mp behind))
    have hj : j < (rootNames hosts).length := Nat.lt_trans before hk
    rw [(root_entry (n := n) fits.few (getElem?_eq_getElem hj)).2,
      (root_entry (n := n) fits.few (getElem?_eq_getElem hk)).2, sameName_dirent,
      sameName_comm, sameName_dirent, sameName_comm]
    exact pairwise_iff_getElem.mp fits.distinct j k hj hk before
  · intro host mem
    obtain ⟨i, here⟩ := mem_iff_getElem?.mp mem
    rw [← fits.whole host mem]
    exact finished.lookup fits.few fits.odd fits.distinct here

/-- mkfs makes an image that the kernel can use, with the host files in it, exactly for the host
files that fit. -/
theorem mkfs_agrees (run : main hosts initial = .ok ((), m)) : WellFormed hosts m ↔ Fits hosts :=
  ⟨fun good => good.fits run, fun fits => fits.wellFormed run⟩

/-- Whatever the kernel does with an image of mkfs, the blocks stay apart. If mkfs has left no
hole in the root directory, every file reads as its bytes. -/
theorem mkfs_then_kernel {s : FsState} (few : hosts.length + 1 < NINODES)
    (run : main hosts initial = .ok ((), m)) (reached : Reach (mount m.sect = ·) Fs.Step s) :
    (Fs.forest s).Exclusive ∧ (∀ r js, (Fs.forest s).IsNode r js → (Fs.forest s).ptr r js ≠ 0 →
      Fs.InData s ((Fs.forest s).ptr r js) ∧ s.bitmap ((Fs.forest s).ptr r js) = true) ∧
    ((hosts.length + 2) % 32 ≠ 0 → ∀ ip inum room off n, Fs.Cached s ip inum → off < Fs.UINT →
      n < Fs.UINT → n ≤ room →
      Fs.readi ip room off n s = .ok (Fs.readResult (Fs.file s inum).data off n, s)) := by
  have finished := main_finished few run
  obtain ⟨sound, full⟩ : Fs.Sound s ∧ ((hosts.length + 2) % 32 ≠ 0 → Fs.Full s) := by
    refine reached.invariant (fun s => Fs.Sound s ∧ (_ → Fs.Full s)) ?_ ?_
    · rintro _ rfl
      exact ⟨finished.image.sound, fun odd => (finished.full odd).1⟩
    · intro s t kept step
      have keeps := step.keeps kept.1
      exact ⟨keeps.sound, fun odd => keeps.full (kept.2 odd)⟩
  refine ⟨sound.exclusive, sound.covered, ?_⟩
  exact fun odd ip inum room off n c => Fs.readi_result sound (full odd) c

end Agree

def shortFile (path data : List UInt8) (string : 0 ∉ path) (some_ : data ≠ [])
    (short : data.length ≤ BSIZE) : Host where
  path := path
  bytes := data
  opens := true
  reads := [data]
  string := string
  documented := by
    intro r mem
    rw [mem_singleton] at mem
    exact mem ▸ ⟨some_, short⟩
  partly := by simp

def fileA : Host := shortFile [97] [1] (by decide) (by decide) (by decide)

def fileUnderscoreA : Host := shortFile [95, 97] [2] (by decide) (by decide) (by decide)

theorem populate_ends : (populate [fileA] blank).isOk = true ∧
    (populate [fileA, fileUnderscoreA] blank).isOk = true := by
  decide +kernel

theorem main_returns {hosts : List Host} (ends : (populate hosts blank).isOk = true) :
    ∃ m, main hosts initial = .ok ((), m) := by
  rw [main_blank]
  cases result : populate hosts blank with
  | error e =>
    rw [result] at ends
    cases ends
  | ok r => exact ⟨r.2, rfl⟩

theorem mkfs_agrees_one : ∃ m, main [fileA] initial = .ok ((), m) ∧ WellFormed [fileA] m := by
  obtain ⟨m, run⟩ := main_returns populate_ends.1
  refine ⟨m, run, (mkfs_agrees run).mpr ⟨by decide, by decide, by decide, ?_⟩⟩
  intro host mem
  rw [mem_singleton] at mem
  rw [mem]
  rfl

theorem mkfs_then_kernel_one : ∃ m, main [fileA] initial = .ok ((), m) ∧
    (Fs.forest (mount m.sect)).Exclusive := by
  obtain ⟨m, run⟩ := main_returns populate_ends.1
  exact ⟨m, run, (mkfs_then_kernel (by decide) run (.start rfl)).1⟩

/- `_a` is stored as `a`, and the kernel never finds it. -/
theorem mkfs_same_name : ∃ m, main [fileA, fileUnderscoreA] initial = .ok ((), m) ∧
    ¬ WellFormed [fileA, fileUnderscoreA] m := by
  obtain ⟨m, run⟩ := main_returns populate_ends.2
  refine ⟨m, run, ?_⟩
  intro good
  have distinct := (good.fits run).distinct
  revert distinct
  decide

end UvaOs.Mkfs
