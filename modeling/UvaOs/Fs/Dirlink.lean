import UvaOs.Fs.Dir
import UvaOs.Fs.Frame
import UvaOs.Lib.Slots

/-! A directory as a finite map (kernel/fs.c, kernel/sysfile.c). `dirlink` enters a name in the
first entry that is not in use, `sys_unlink` clears the entry that `dirlookup` found; names are
stored and compared by their first `DIRSIZ` bytes. -/
namespace UvaOs.Fs

open Bytes Prog FsState Slots List Finset

/-- `strncmp` (kernel/string.c); a list stands for its bytes and a terminator. -/
def strncmp : Nat → List UInt8 → List UInt8 → Int
  | 0, _, _ => 0
  | n + 1, p, q =>
    if p.headD 0 ≠ 0 ∧ p.headD 0 = q.headD 0 then strncmp n p.tail q.tail
    else (p.headD 0).toNat - (q.headD 0).toNat

/-- What `strncpy` (kernel/string.c) stores in a field of `n` bytes. -/
def strncpy : Nat → List UInt8 → List UInt8
  | 0, _ => []
  | n + 1, t =>
    if t.headD 0 ≠ 0 then t.headD 0 :: strncpy n t.tail
    else List.replicate (n + 1) 0

def newDirent (inum : Nat) (name : List UInt8) : List UInt8 :=
  UInt8.ofNat inum :: UInt8.ofNat (inum / 256) :: strncpy DIRSIZ name

/-- The loop of `dirlink`: the offset of the first entry that is not in use, or the size. -/
def dirlinkLoop (dp : Nat) : Nat → Nat → FsM Nat
  | 0, off => pure off
  | fuel + 1, off => do
    let i ← inode dp
    if off < i.copy.size then do
      let r ← readi dp DIRENT off DIRENT
      if r.1 ≠ DIRENT then stop .dirlinkRead
      else if direntInum r.2 = 0 then pure off
      else dirlinkLoop dp fuel (off + DIRENT)
    else pure off

/-- Write a new directory entry: 0 on success, -1 on failure. -/
def dirlink (dp : Nat) (name : List UInt8) (inum : Nat) : FsM Int := do
  match ← dirlookup dp name with
  | some (ip, _) => do
    iput ip
    pure (-1)
  | none => do
    let i ← inode dp
    let off ← dirlinkLoop dp i.copy.size 0
    let r ← writei dp (newDirent inum name) off DIRENT
    if r ≠ DIRENT then pure (-1) else pure 0

/-- What `sys_unlink` does to the directory: the entry that `dirlookup` found is cleared. The
reference to the inode is dropped at the end. -/
def clearEntry (dp : Nat) (name : List UInt8) : FsM Int := do
  match ← dirlookup dp name with
  | none => pure (-1)
  | some (ip, off) => do
    let r ← writei dp (List.replicate DIRENT 0) off DIRENT
    if r ≠ DIRENT then stop .unlinkWritei
    else do
      iput ip
      pure 0

section Names

theorem takeWhile_take_cons (n : Nat) (x : UInt8) (p : List UInt8) :
    ((x :: p).take (n + 1)).takeWhile (· ≠ 0) =
      if x = 0 then [] else x :: (p.take n).takeWhile (· ≠ 0) := by
  by_cases z : x = 0 <;> simp [z]

theorem strncmp_zero (n : Nat) : ∀ p q : List UInt8, strncmp n p q = 0 ↔
    (p.take n).takeWhile (· ≠ 0) = (q.take n).takeWhile (· ≠ 0) := by
  have diff : ∀ x y : UInt8, (x.toNat : Int) - y.toNat = 0 ↔ x = y := by
    intro x y
    rw [← UInt8.toNat_inj]
    omega
  -- a list that has ended is as good as one that goes on with a terminator
  have ended : ∀ (n : Nat) (p : List UInt8), (p.take (n + 1)).takeWhile (· ≠ 0) =
      ((p.headD 0 :: p.tail).take (n + 1)).takeWhile (· ≠ 0) := by
    intro n p
    cases p <;> simp
  induction n with
  | zero =>
    intro p q
    simp [strncmp]
  | succ n ih =>
    intro p q
    rw [ended n p, ended n q, takeWhile_take_cons, takeWhile_take_cons, strncmp]
    by_cases more : p.headD 0 ≠ 0 ∧ p.headD 0 = q.headD 0
    · grind
    · grind

theorem namecmp_zero (s t : List UInt8) : strncmp DIRSIZ s t = 0 ↔ sameName s t = true := by
  rw [strncmp_zero, sameName, beq_iff_eq]
  rfl

theorem takeWhile_strncpy (n : Nat) : ∀ t : List UInt8,
    (strncpy n t).takeWhile (· ≠ 0) = (t.take n).takeWhile (· ≠ 0) := by
  induction n with
  | zero => intro t; simp [strncpy]
  | succ n ih =>
    intro t
    cases t with
    | nil => simp [strncpy, replicate_succ]
    | cons x t =>
      by_cases z : x = 0
      · simp [strncpy, z, replicate_succ]
      · have more := ih t
        simp [strncpy, z] at more ⊢
        exact more

theorem length_strncpy (n : Nat) : ∀ t : List UInt8, (strncpy n t).length = n := by
  induction n with
  | zero => intro t; rfl
  | succ n ih => grind [strncpy, length_cons, length_replicate]

theorem length_newDirent (inum : Nat) (name : List UInt8) : (newDirent inum name).length = DIRENT := by
  simp [newDirent, length_strncpy]

theorem direntInum_newDirent {inum : Nat} (small : inum ≤ 65535) (name : List UInt8) :
    direntInum (newDirent inum name) = inum := by
  have bytes : direntInum (newDirent inum name) =
      (UInt8.ofNat inum).toNat + 256 * (UInt8.ofNat (inum / 256)).toNat := rfl
  rw [bytes]
  simp
  omega

theorem cstring_newDirent (inum : Nat) (name : List UInt8) :
    cstring (direntName (newDirent inum name)) = cstring name := by
  have text : direntName (newDirent inum name) = strncpy DIRSIZ name := rfl
  rw [text, cstring, take_of_length_le (Nat.le_of_eq (length_strncpy ..)), takeWhile_strncpy]
  rfl

end Names

def held (de : List UInt8) : Option (List UInt8 × Nat) :=
  if direntInum de = 0 then none else some (cstring (direntName de), direntInum de)

def slots (data : List UInt8) (k : Nat) : Option (List UInt8 × Nat) := held (dirent data k)

section Slots

variable {data de : List UInt8} {k : Nat}

theorem held_newDirent {inum : Nat} (pos : 1 ≤ inum) (small : inum ≤ 65535) (name : List UInt8) :
    held (newDirent inum name) = some (cstring name, inum) := by
  rw [held, direntInum_newDirent small, if_neg (by omega), cstring_newDirent]

theorem held_zeros : held (List.replicate DIRENT 0) = none := rfl

theorem slots_beyond (end_ : data.length ≤ DIRENT * k) : slots data k = none := by
  have empty : dirent data k = [] := by
    rw [dirent, drop_eq_nil_of_le end_, take_nil]
  rw [slots, empty]
  rfl

theorem slots_inside {x : List UInt8 × Nat} (here : slots data k = some x) :
    DIRENT * k < data.length := by
  by_contra out
  rw [slots_beyond (Nat.le_of_not_lt out)] at here
  cases here

theorem dirent_splice (inside : DIRENT * k ≤ data.length) (size : de.length = DIRENT) (j : Nat) :
    dirent (splice data (DIRENT * k) de) j = if j = k then de else dirent data j := by
  apply ext_getElem?
  intro i
  have entry : ∀ l : List UInt8, (dirent l j)[i]? = if i < DIRENT then l[DIRENT * j + i]? else none := by
    intro l
    rw [dirent, getElem?_take, getElem?_drop]
  rw [entry, getElem?_splice _ _ inside]
  by_cases e : j = k
  · grind
  · rw [if_neg e, entry]
    by_cases lt : i < DIRENT
    · rw [if_pos lt, if_pos lt]
      simp only [DIRENT] at lt size
      by_cases before : j < k
      · rw [if_pos (by simp only [DIRENT]; omega)]
      · rw [if_neg (by simp only [DIRENT]; omega), if_neg (by simp only [DIRENT]; omega)]
    · rw [if_neg lt, if_neg lt]

theorem slots_splice (inside : DIRENT * k ≤ data.length) (size : de.length = DIRENT) :
    slots (splice data (DIRENT * k) de) = Function.update (slots data) k (held de) := by
  funext j
  rw [slots, dirent_splice inside size]
  by_cases e : j = k
  · subst e
    rw [if_pos rfl, Function.update_self]
  · rw [if_neg e, Function.update_of_ne e]
    rfl

theorem slots_some {name : List UInt8} : Matches data name k ↔
    slots data k = some (cstring name, direntInum (dirent data k)) := by
  unfold Matches slots held sameName
  rw [beq_iff_eq]
  by_cases z : direntInum (dirent data k) = 0
  · simp [z]
  · simp [z, eq_comm]

end Slots

/-- A directory whose lock is held. -/
structure Directory (s : FsState) (dp inum : Nat) : Prop where
  sound : Sound s
  full : Full s
  cached : Cached s dp inum
  type : (file s inum).type = .dir
  whole : (file s inum).data.length % DIRENT = 0

structure Vacant (data : List UInt8) (k : Nat) : Prop where
  inside : DIRENT * k ≤ data.length
  free : slots data k = none
  first : ∀ j, j < k → slots data j ≠ none

/-- The disk has the blocks for entry `k`. -/
def Roomy (s : FsState) (inum k : Nat) : Prop :=
  DIRENT * k + DIRENT ≤ MAXFILE * BSIZE ∧ needs s inum (DIRENT * k) DIRENT ≤ spare s

theorem exists_vacant {data : List UInt8} (whole : data.length % DIRENT = 0) :
    ∃ k, Vacant data k := by
  have size : DIRENT * (data.length / DIRENT) = data.length :=
    Nat.mul_div_cancel' (Nat.dvd_of_mod_eq_zero whole)
  have some : ∃ k, slots data k = none := ⟨_, slots_beyond (Nat.le_of_eq size.symm)⟩
  refine ⟨Nat.find some, ?_, Nat.find_spec some, fun j lt => Nat.find_min some lt⟩
  have le := Nat.find_min' some (slots_beyond (Nat.le_of_eq size.symm))
  calc DIRENT * Nat.find some ≤ DIRENT * (data.length / DIRENT) := Nat.mul_le_mul_left _ le
    _ = data.length := size

section Lookup

variable {s t : FsState} {dp inum k n : Nat} {name : List UInt8}

section

variable (d : Directory s dp inum)
include d

theorem Directory.entry (inside : DIRENT * k < (file s inum).data.length) :
    DIRENT * (k + 1) ≤ (file s inum).data.length := by
  have whole := d.whole
  simp only [DIRENT] at *
  omega

theorem Directory.lookupLoop_none (absent : ∀ j, ¬ Matches (file s inum).data name j) (fuel : Nat) :
    ∀ j, dirlookupLoop dp name fuel (DIRENT * j) s = .ok (none, s) := by
  induction fuel with
  | zero => exact fun _ => rfl
  | succ fuel ih =>
    intro j
    unfold dirlookupLoop
    rw [run_inode, dir_size d.sound.table d.cached]
    split
    · rename_i inside
      rw [run_bind (readi_dirent d.sound d.full d.cached (d.entry inside))]
      dsimp only
      rw [if_neg (by simp)]
      have next := ih (j + 1)
      split
      · exact next
      · rename_i live
        rw [if_neg (fun same => absent j ⟨live, same⟩)]
        exact next
    · rfl

theorem Directory.copy_type : (s.itable dp).copy.type = .dir := by
  have type := d.type
  rwa [file, if_pos (d.cached.allocated d.sound.table), current_cached d.sound.table.unique d.cached]
    at type

theorem Directory.lookup_none
    (absent : ∀ k m, slots (file s inum).data k ≠ some (cstring name, m)) :
    dirlookup dp name s = .ok (none, s) := by
  unfold dirlookup
  rw [run_inode, if_neg (by simp [d.copy_type])]
  exact d.lookupLoop_none (fun j m => absent j _ (slots_some.mp m)) _ 0

theorem Directory.lookup_some (distinct : Distinct (slots (file s inum).data))
    (here : slots (file s inum).data k = some (cstring name, n)) :
    dirlookup dp name s = (iget ROOTDEV n >>= fun ip => pure (some (ip, DIRENT * k))) s := by
  have number : direntInum (dirent (file s inum).data k) = n := by
    grind [slots, held, Prod.mk.inj, Option.some.inj]
  have inside := slots_inside here
  have match_ : Matches (file s inum).data name k := slots_some.mpr (here.trans (by rw [number]))
  rw [dirlookup_match d.sound d.full d.cached d.type (d.entry inside) match_ ?_, number]
  intro j before other
  have same := distinct j k _ _ _ (slots_some.mp other) here
  omega

theorem Directory.dirlinkLoop_vacant (v : Vacant (file s inum).data k)
    (fuel : Nat) : ∀ j, j ≤ k → k - j ≤ fuel →
      dirlinkLoop dp fuel (DIRENT * j) s = .ok (DIRENT * k, s) := by
  have inside := v.inside
  induction fuel with
  | zero =>
    intro j le few
    obtain rfl : j = k := by omega
    rfl
  | succ fuel ih =>
    intro j le few
    unfold dirlinkLoop
    rw [run_inode, dir_size d.sound.table d.cached]
    split
    · rename_i here
      rw [run_bind (readi_dirent d.sound d.full d.cached (d.entry here))]
      dsimp only
      rw [if_neg (by simp)]
      by_cases last : j = k
      · subst last
        have free := v.free
        unfold slots held at free
        split at free
        · rename_i z
          rw [if_pos z]
          rfl
        · cases free
      · have live : ¬ direntInum (dirent (file s inum).data j) = 0 := by
          intro z
          refine v.first j (by omega) ?_
          rw [slots, held, if_pos z]
        rw [if_neg live]
        exact ih (j + 1) (by omega) (by omega)
    · rename_i beyond
      obtain rfl : j = k := by
        simp only [DIRENT] at beyond inside
        omega
      rfl

theorem Directory.dirlink_present (distinct : Distinct (slots (file s inum).data)) {m : Nat}
    (here : slots (file s inum).data k = some (cstring name, m)) : dirlink dp name n s = (do
      let ip ← iget ROOTDEV m
      iput ip
      pure (-1)) s := by
  have found := d.lookup_some distinct here
  unfold dirlink
  cases got : iget ROOTDEV m s with
  | error e =>
    rw [run_bind_error got] at found ⊢
    rw [run_bind_error found]
  | ok r =>
    obtain ⟨ip, u⟩ := r
    rw [run_bind got] at found ⊢
    rw [run_bind found]

theorem Directory.dirlink_absent
    (absent : ∀ k m, slots (file s inum).data k ≠ some (cstring name, m))
    (v : Vacant (file s inum).data k) : dirlink dp name n s = (do
      let r ← writei dp (newDirent n name) (DIRENT * k) DIRENT
      if r ≠ DIRENT then pure (-1) else pure 0) s := by
  have inside := v.inside
  have loop : dirlinkLoop dp (s.itable dp).copy.size 0 s = .ok (DIRENT * k, s) := by
    refine d.dirlinkLoop_vacant v _ 0 (Nat.zero_le k) ?_
    rw [dir_size d.sound.table d.cached]
    simp only [DIRENT] at inside
    omega
  unfold dirlink
  rw [run_bind (d.lookup_none absent)]
  dsimp only
  rw [run_inode, run_bind loop]

theorem Directory.clear_absent
    (absent : ∀ k m, slots (file s inum).data k ≠ some (cstring name, m)) :
    clearEntry dp name s = .ok (-1, s) := by
  unfold clearEntry
  rw [run_bind (d.lookup_none absent)]
  rfl

theorem Directory.clear_present (distinct : Distinct (slots (file s inum).data))
    (here : slots (file s inum).data k = some (cstring name, n)) : clearEntry dp name s = (do
      let ip ← iget ROOTDEV n
      let r ← writei dp (List.replicate DIRENT 0) (DIRENT * k) DIRENT
      if r ≠ DIRENT then stop .unlinkWritei
      else do
        iput ip
        pure 0) s := by
  have found := d.lookup_some distinct here
  unfold clearEntry
  cases got : iget ROOTDEV n s with
  | error e =>
    rw [run_bind_error got] at found ⊢
    rw [run_bind_error found]
  | ok r =>
    obtain ⟨ip, u⟩ := r
    rw [run_bind got] at found ⊢
    rw [run_bind found]

end

end Lookup

section Write

variable {s t : FsState} {dp inum k n : Nat} {name de : List UInt8} {r : Int}

theorem DIRENT_in_block (k : Nat) : DIRENT * k % BSIZE + DIRENT ≤ BSIZE := by
  simp only [DIRENT, BSIZE]
  omega

section

variable (d : Directory s dp inum)
include d

theorem Directory.write (inside : DIRENT * k ≤ (file s inum).data.length)
    (size : de.length = DIRENT) (run : writei dp de (DIRENT * k) DIRENT s = .ok (r, t)) :
    Directory t dp inum ∧
      ((r = DIRENT ∧ (file t inum).data = splice (file s inum).data (DIRENT * k) de ∧
          Roomy s inum k) ∨
        (r ≠ DIRENT ∧ (file t inum).data = (file s inum).data ∧ ¬ Roomy s inum k)) := by
  have type := (writei_type d.sound d.full d.cached (by simp) run).trans d.type
  rcases writei_served d.sound d.full d.cached (by simp) (by simp) run with
    ⟨refused, rfl, rfl⟩ | ⟨accepted, w, rfl, served⟩
  · exact ⟨d, .inr ⟨by simp, rfl, fun room => refused ⟨inside, room.1⟩⟩⟩
  · by_cases all : w = DIRENT
    · have data := served.stores all
      rw [take_of_length_le (Nat.le_of_eq size)] at data
      refine ⟨{ served with type := type, whole := ?_ },
        Or.inl ⟨congrArg Int.ofNat all, data, accepted.2, (served.complete.mp all).2⟩⟩
      have whole := d.whole
      rw [data, length_splice _ _ inside, size]
      simp only [DIRENT] at *
      omega
    · have few : ¬ needs s inum (DIRENT * k) DIRENT ≤ spare s :=
        fun room => all (served.complete.mpr ⟨Nat.le_of_eq size.symm, room⟩)
      have one : needs s inum (DIRENT * k) 1 = needs s inum (DIRENT * k) DIRENT := by
        rw [needs, needs, span_one, span_block (by simp) (DIRENT_in_block k)]
      have none : w = 0 := by
        by_contra some
        exact few (one ▸ (served.begun (Nat.pos_of_ne_zero some)).1)
      have data : (file t inum).data = (file s inum).data := by
        rcases served.stalls none with ⟨_, same⟩ | ⟨room, _⟩
        · exact same
        · exact absurd (one ▸ room) few
      refine ⟨{ served with type := type, whole := data ▸ d.whole }, .inr ⟨?_, data, ?_⟩⟩
      · exact fun e => all (Int.ofNat.inj e)
      · exact fun room => few room.2

theorem Directory.native : isFattype (s.itable dp).copy.type = false := by
  rw [d.copy_type]
  rfl

theorem Directory.write_room (inside : DIRENT * k ≤ (file s inum).data.length)
    (size : de.length = DIRENT) (room : Roomy s inum k) :
    ∃ t, writei dp de (DIRENT * k) DIRENT s = .ok ((DIRENT : Nat), t) := by
  obtain ⟨t, run, _⟩ := writei_complete d.sound d.full d.cached (by simp) d.native
    ⟨inside, room.1⟩ (Nat.le_of_eq size.symm) room.2
  exact ⟨t, run⟩

theorem Directory.room_inside
    (inside : DIRENT * k < (file s inum).data.length) : Roomy s inum k := by
  have entry := d.entry inside
  have alloc := d.cached.allocated d.sound.table
  have bound := d.full.bound inum alloc
  have size := dir_size d.sound.table d.cached
  have now := current_cached d.sound.table.unique d.cached
  rw [now, size] at bound
  refine ⟨by simp only [DIRENT] at *; omega, ?_⟩
  rw [needs_mapped]
  · exact Nat.zero_le _
  · grind [d.full.mapped]

end

theorem Idle.directory (h : Idle s t) (d : Directory s dp inum) : Directory t dp inum ∧ file t = file s := by
  have same := h.quiet.file
  refine ⟨⟨h.sound d.sound, h.quiet.full d.full, (h.cached dp inum).mpr d.cached, ?_, ?_⟩, same⟩
  · rw [same]
    exact d.type
  · rw [same]
    exact d.whole

theorem Directory.put_back (d : Directory s dp inum) {i : Nat} {u : FsState}
    (taken : iget ROOTDEV n s = .ok (i, u)) :
    ∃ w, iput i u = .ok ((), w) ∧ Directory w dp inum ∧ file w = file s := by
  obtain ⟨v, w, same, put, idle⟩ := around (Local.pure ()) d.cached.2.1 taken
    (rfl : (pure () : FsM Unit) s = .ok ((), s))
  cases same
  exact ⟨w, put, idle.directory d⟩

theorem Directory.around_write (d : Directory s dp inum) (size : de.length = DIRENT)
    (inside : DIRENT * k < (file s inum).data.length) {i : Nat} {u : FsState}
    (taken : iget ROOTDEV n s = .ok (i, u)) :
    ∃ v w, writei dp de (DIRENT * k) DIRENT u = .ok ((DIRENT : Nat), v) ∧ iput i v = .ok ((), w) ∧
      Directory w dp inum ∧ (file w inum).data = splice (file s inum).data (DIRENT * k) de := by
  have lt := Nat.le_of_lt inside
  obtain ⟨t, run⟩ := d.write_room lt size (d.room_inside inside)
  obtain ⟨v, w, under, put, idle⟩ := around (local_writei de (DIRENT * k) DIRENT) d.cached.2.1 taken run
  obtain ⟨dir, cases⟩ := d.write lt size run
  obtain ⟨dirW, files⟩ := idle.directory dir
  refine ⟨v, w, under, put, dirW, ?_⟩
  rw [files]
  rcases cases with ⟨_, data, _⟩ | ⟨no, _⟩
  · exact data
  · exact absurd rfl no

end Write

/-- A file system with one of its directories in view, and the operations on that directory that
succeeded, the latest first. -/
structure DirRun where
  fs : FsState
  past : List (Event (List UInt8) Nat)

/-- A call on the directory, or anything else that leaves it as it is. -/
inductive DirStep (dp inum : Nat) : DirRun → DirRun → Prop
  | linked {s t past} (name : List UInt8) (n : Nat) (number : 1 ≤ n ∧ n ≤ 65535)
      (run : dirlink dp name n s = .ok (0, t)) :
      DirStep dp inum ⟨s, past⟩ ⟨t, .put (cstring name) n :: past⟩
  | refused {s t past} (name : List UInt8) (n : Nat) (number : 1 ≤ n ∧ n ≤ 65535) (r : Int)
      (failed : r ≠ 0) (run : dirlink dp name n s = .ok (r, t)) :
      DirStep dp inum ⟨s, past⟩ ⟨t, past⟩
  | cleared {s t past} (name : List UInt8) (run : clearEntry dp name s = .ok (0, t)) :
      DirStep dp inum ⟨s, past⟩ ⟨t, .clear (cstring name) :: past⟩
  | missing {s t past} (name : List UInt8) (r : Int) (failed : r ≠ 0)
      (run : clearEntry dp name s = .ok (r, t)) : DirStep dp inum ⟨s, past⟩ ⟨t, past⟩
  | other {s t past} (sound : Sound t) (full : Full t) (cached : Cached t dp inum)
      (same : file t inum = file s inum) : DirStep dp inum ⟨s, past⟩ ⟨t, past⟩

def dot : List UInt8 := [46]

def dotdot : List UInt8 := [46, 46]

/-- A directory as `create` leaves it: `dirlink` has entered `.` and `..` in a new file. -/
def Created (dp inum parent : Nat) (r : DirRun) : Prop :=
  (1 ≤ inum ∧ inum ≤ 65535) ∧ (1 ≤ parent ∧ parent ≤ 65535) ∧
  r.past = [.put (cstring dotdot) parent, .put (cstring dot) inum] ∧
  ∃ s t, Directory s dp inum ∧ (file s inum).data = [] ∧
    dirlink dp dot inum s = .ok (0, t) ∧ dirlink dp dotdot parent t = .ok (0, r.fs)

def SameFor (q : List UInt8) (old new : List UInt8) : Prop :=
  ∀ k m, slots new k = some (q, m) ↔ slots old k = some (q, m)

def Linked (s t : FsState) (inum : Nat) (name : List UInt8) (n : Nat) (r : Int) : Prop :=
  ∃ k, Vacant (file s inum).data k ∧
    ((r = 0 ∧ Roomy s inum k ∧
        slots (file t inum).data = Function.update (slots (file s inum).data) k (some (cstring name, n)) ∧
        (file t inum).data.length = max (file s inum).data.length (DIRENT * k + DIRENT)) ∨
      (r = -1 ∧ ¬ Roomy s inum k ∧ (file t inum).data = (file s inum).data))

def Unlinked (s t : FsState) (inum : Nat) (name : List UInt8) (r : Int) : Prop :=
  ∃ k n, slots (file s inum).data k = some (cstring name, n) ∧ r = 0 ∧
    slots (file t inum).data = Function.update (slots (file s inum).data) k none ∧
    (file t inum).data.length = (file s inum).data.length

structure DirInv (dp inum : Nat) (r : DirRun) : Prop where
  dir : Directory r.fs dp inum
  holds : Holds (slots (file r.fs inum).data) r.past

section Outcomes

variable {s t : FsState} {past : List (Event (List UInt8) Nat)} {dp inum n : Nat} {name : List UInt8}
  {r : Int}

section

variable (h : DirInv dp inum ⟨s, past⟩)
include h

theorem DirInv.absent (none : value past (cstring name) = none) :
    ∀ k m, slots (file s inum).data k ≠ some (cstring name, m) := h.holds.absent none

theorem DirInv.dirlink_present {m : Nat}
    (here : value past (cstring name) = some m) (run : dirlink dp name n s = .ok (r, t)) :
    r = -1 ∧ Directory t dp inum ∧ file t = file s := by
  obtain ⟨k, slot⟩ := (h.holds.agrees _ _).mpr here
  rw [h.dir.dirlink_present h.holds.distinct slot] at run
  obtain ⟨ip, u, taken, run⟩ := bind_ok run
  obtain ⟨w, put, dir, same⟩ := h.dir.put_back taken
  rw [run_bind put] at run
  cases run
  exact ⟨rfl, dir, same⟩

theorem DirInv.dirlink_absent (number : 1 ≤ n ∧ n ≤ 65535)
    (none : value past (cstring name) = none) (run : dirlink dp name n s = .ok (r, t)) :
    Directory t dp inum ∧ Linked s t inum name n r := by
  obtain ⟨k, v⟩ := exists_vacant h.dir.whole
  have size := length_newDirent n name
  rw [h.dir.dirlink_absent (h.absent none) v] at run
  obtain ⟨x, u, wrote, run⟩ := bind_ok run
  obtain ⟨dir, ⟨rfl, data, room⟩ | ⟨no, data, full⟩⟩ := h.dir.write v.inside size wrote
  · cases run
    refine ⟨dir, k, v, .inl ⟨rfl, room, ?_, ?_⟩⟩
    · rw [data, slots_splice v.inside size, held_newDirent number.1 number.2]
    · rw [data, length_splice _ _ v.inside, size]
  · rw [if_pos no] at run
    cases run
    exact ⟨dir, k, v, .inr ⟨rfl, full, data⟩⟩

theorem DirInv.clear_present {m : Nat}
    (here : value past (cstring name) = some m) (run : clearEntry dp name s = .ok (r, t)) :
    Directory t dp inum ∧ Unlinked s t inum name r := by
  obtain ⟨k, slot⟩ := (h.holds.agrees _ _).mpr here
  have inside := slots_inside slot
  rw [h.dir.clear_present h.holds.distinct slot] at run
  obtain ⟨ip, u, taken, run⟩ := bind_ok run
  obtain ⟨v, w, wrote, put, dir, data⟩ := h.dir.around_write length_replicate inside taken
  rw [run_bind wrote, if_neg (by simp), run_bind put] at run
  cases run
  refine ⟨dir, k, m, slot, rfl, ?_, ?_⟩
  · rw [data, slots_splice (Nat.le_of_lt inside) length_replicate, held_zeros]
  · have entry := h.dir.entry inside
    rw [data, length_splice _ _ (Nat.le_of_lt inside), length_replicate]
    exact Nat.max_eq_left (by simp only [DIRENT] at *; omega)

end

theorem Linked.sameFor (l : Linked s t inum name n r) {q : List UInt8} (ne : q ≠ cstring name) :
    SameFor q (file s inum).data (file t inum).data := by
  obtain ⟨k, v, ⟨_, _, slots, _⟩ | ⟨_, _, same⟩⟩ := l
  · intro j m
    rw [slots]
    refine update_other ?_ ?_ ne j
    · intro p x here
      rw [v.free] at here
      cases here
    · intro p x e
      cases e
      rfl
  · intro j m
    rw [same]

theorem Unlinked.sameFor (l : Unlinked s t inum name r) {q : List UInt8} (ne : q ≠ cstring name) :
    SameFor q (file s inum).data (file t inum).data := by
  obtain ⟨k, n, here, _, slots, _⟩ := l
  intro j m
  rw [slots]
  refine update_other ?_ (fun p x e => by cases e) ne j
  intro p x other
  rw [here] at other
  cases other
  rfl

theorem Linked.reuses (l : Linked s t inum name n r) {j : Nat}
    (inside : DIRENT * j + DIRENT ≤ (file s inum).data.length)
    (free : slots (file s inum).data j = none) :
    (file t inum).data.length = (file s inum).data.length := by
  obtain ⟨k, v, ⟨_, _, _, length⟩ | ⟨_, _, same⟩⟩ := l
  · have le : k ≤ j := by
      by_contra later
      exact v.first j (Nat.lt_of_not_le later) free
    rw [length]
    exact Nat.max_eq_left (by simp only [DIRENT] at *; omega)
  · rw [same]

theorem Linked.zero (l : Linked s t inum name n 0) (h : Holds (slots (file s inum).data) past)
    (none : value past (cstring name) = none) :
    Holds (slots (file t inum).data) (.put (cstring name) n :: past) := by
  obtain ⟨k, v, ⟨_, _, slots, _⟩ | ⟨no, _⟩⟩ := l
  · rw [slots]
    exact h.put none v.free n
  · cases no

theorem Linked.nonzero (l : Linked s t inum name n r) (failed : r ≠ 0) :
    (file t inum).data = (file s inum).data := by
  obtain ⟨k, v, ⟨zero, _⟩ | ⟨_, _, same⟩⟩ := l
  · exact absurd zero failed
  · exact same

theorem DirInv.step {a b : DirRun} (h : DirInv dp inum a) (step : DirStep dp inum a b) :
    DirInv dp inum b := by
  cases step with
  | linked name n number run =>
    cases here : value _ (cstring name) with
    | some m =>
      obtain ⟨no, _⟩ := h.dirlink_present here run
      cases no
    | none =>
      obtain ⟨dir, did⟩ := h.dirlink_absent number here run
      exact ⟨dir, did.zero h.holds here⟩
  | refused name n number r failed run =>
    cases here : value _ (cstring name) with
    | some m =>
      obtain ⟨_, dir, same⟩ := h.dirlink_present here run
      exact ⟨dir, by rw [same]; exact h.holds⟩
    | none =>
      obtain ⟨dir, did⟩ := h.dirlink_absent number here run
      exact ⟨dir, by rw [did.nonzero failed]; exact h.holds⟩
  | cleared name run =>
    cases here : value _ (cstring name) with
    | some m =>
      obtain ⟨dir, k, m, slot, _, slots, _⟩ := h.clear_present here run
      exact ⟨dir, by rw [slots]; exact h.holds.clear slot⟩
    | none =>
      rw [h.dir.clear_absent (h.absent here)] at run
      cases run
  | missing name r failed run =>
    cases here : value _ (cstring name) with
    | some m =>
      obtain ⟨dir, k, m, slot, zero, _⟩ := h.clear_present here run
      exact absurd zero failed
    | none => grind [h.dir.clear_absent, h.absent]
  | other sound full cached same =>
    exact ⟨⟨sound, full, cached, by rw [same]; exact h.dir.type, by rw [same]; exact h.dir.whole⟩,
      by rw [same]; exact h.holds⟩

theorem Created.inv {parent : Nat} {a : DirRun} (c : Created dp inum parent a) : DirInv dp inum a := by
  obtain ⟨self, up, past, s, t, dir, empty, first, second⟩ := c
  obtain ⟨u, events⟩ := a
  cases past
  have start : DirInv dp inum ⟨s, []⟩ := by
    refine ⟨dir, Holds.empty (fun k => ?_)⟩
    rw [empty]
    exact slots_beyond (Nat.zero_le _)
  exact (start.step (.linked dot inum self first)).step (.linked dotdot parent up second)

end Outcomes

/-- A directory as a finite map from names, cut to `DIRSIZ` bytes, to inodes. -/
structure FiniteMap (dp inum : Nat) (a : DirRun) : Prop where
  distinct : Distinct (slots (file a.fs inum).data)
  absent : ∀ name, value a.past (cstring name) = none → dirlookup dp name a.fs = .ok (none, a.fs)
  found : ∀ name n, value a.past (cstring name) = some n → ∃ k,
    slots (file a.fs inum).data k = some (cstring name, n) ∧
    dirlookup dp name a.fs = (do
      let ip ← iget ROOTDEV n
      pure (some (ip, DIRENT * k))) a.fs
  present : ∀ name n m, value a.past (cstring name) = some m →
    ((∃ i, i < NINODE ∧ (a.fs.itable i).ref = 0) → ∃ t, dirlink dp name n a.fs = .ok (-1, t)) ∧
    ∀ r t, dirlink dp name n a.fs = .ok (r, t) → r = -1 ∧ file t = file a.fs
  links : ∀ name n, 1 ≤ n ∧ n ≤ 65535 → value a.past (cstring name) = none →
    (∀ k, Vacant (file a.fs inum).data k → Roomy a.fs inum k → ∃ t, dirlink dp name n a.fs = .ok (0, t)) ∧
    ∀ r t, dirlink dp name n a.fs = .ok (r, t) → Linked a.fs t inum name n r
  clears : ∀ name m, value a.past (cstring name) = some m →
    ((∃ i, i < NINODE ∧ (a.fs.itable i).ref = 0) → ∃ t, clearEntry dp name a.fs = .ok (0, t)) ∧
    ∀ r t, clearEntry dp name a.fs = .ok (r, t) → Unlinked a.fs t inum name r
  nothing : ∀ name, value a.past (cstring name) = none → clearEntry dp name a.fs = .ok (-1, a.fs)
  others : ∀ name n r t, 1 ≤ n ∧ n ≤ 65535 →
    dirlink dp name n a.fs = .ok (r, t) ∨ clearEntry dp name a.fs = .ok (r, t) →
    ∀ q, q ≠ cstring name → SameFor q (file a.fs inum).data (file t inum).data
  reuses : ∀ name n r t, 1 ≤ n ∧ n ≤ 65535 → dirlink dp name n a.fs = .ok (r, t) →
    ∀ j, DIRENT * j + DIRENT ≤ (file a.fs inum).data.length → slots (file a.fs inum).data j = none →
      (file t inum).data.length = (file a.fs inum).data.length

theorem DirInv.finiteMap {dp inum : Nat} {a : DirRun} (h : DirInv dp inum a) : FiniteMap dp inum a where
  distinct := h.holds.distinct
  absent name none := h.dir.lookup_none (h.absent none)
  found name n here := by
    obtain ⟨k, slot⟩ := (h.holds.agrees _ _).mpr here
    exact ⟨k, slot, h.dir.lookup_some h.holds.distinct slot⟩
  present name n m here := by
    refine ⟨?_, fun r t run => ?_⟩
    · rintro ⟨i, lt, idle⟩
      obtain ⟨k, slot⟩ := (h.holds.agrees _ _).mpr here
      obtain ⟨ip, u, taken⟩ := iget_room ROOTDEV m lt idle
      obtain ⟨w, put, _⟩ := h.dir.put_back taken
      refine ⟨w, ?_⟩
      rw [h.dir.dirlink_present h.holds.distinct slot, run_bind taken, run_bind put]
      rfl
    · obtain ⟨no, _, same⟩ := h.dirlink_present here run
      exact ⟨no, same⟩
  links name n number none := by
    refine ⟨?_, fun r t run => (h.dirlink_absent number none run).2⟩
    intro k v room
    obtain ⟨t, wrote⟩ := h.dir.write_room v.inside (length_newDirent n name) room
    refine ⟨t, ?_⟩
    rw [h.dir.dirlink_absent (h.absent none) v, run_bind wrote, if_neg (by simp)]
    rfl
  clears name m here := by
    refine ⟨?_, fun r t run => (h.clear_present here run).2⟩
    rintro ⟨i, lt, idle⟩
    obtain ⟨k, slot⟩ := (h.holds.agrees _ _).mpr here
    obtain ⟨ip, u, taken⟩ := iget_room ROOTDEV m lt idle
    obtain ⟨v, w, wrote, put, _⟩ :=
      h.dir.around_write length_replicate (slots_inside slot) taken
    refine ⟨w, ?_⟩
    rw [h.dir.clear_present h.holds.distinct slot, run_bind taken, run_bind wrote, if_neg (by simp),
      run_bind put]
    rfl
  nothing name none := h.dir.clear_absent (h.absent none)
  others name n r t number run q ne := by
    cases here : value a.past (cstring name) with
    | some m =>
      rcases run with run | run
      · obtain ⟨_, _, same⟩ := h.dirlink_present here run
        rw [same]
        exact fun _ _ => Iff.rfl
      · exact (h.clear_present here run).2.sameFor ne
    | none =>
      rcases run with run | run
      · exact (h.dirlink_absent number here run).2.sameFor ne
      · rw [h.dir.clear_absent (h.absent here)] at run
        cases run
        exact fun _ _ => Iff.rfl
  reuses name n r t number run j inside free := by
    cases here : value a.past (cstring name) with
    | some m =>
      obtain ⟨_, _, same⟩ := h.dirlink_present here run
      rw [same]
    | none => exact (h.dirlink_absent number here run).2.reuses inside free

theorem directory_is_map {dp inum parent : Nat} {a : DirRun}
    (run : Reach (Created dp inum parent) (DirStep dp inum) a) : FiniteMap dp inum a :=
  (run.invariant (DirInv dp inum) (fun _ c => c.inv) (fun _ _ h step => h.step step)).finiteMap

section Mkdir

variable {s : FsState} {dp inum parent : Nat}

theorem needs_first (s : FsState) (inum : Nat) {k : Nat} (first : DIRENT * k + DIRENT ≤ BSIZE) :
    needs s inum (DIRENT * k) DIRENT ≤ 1 := by
  have zero : DIRENT * k / BSIZE = 0 := by
    simp only [DIRENT, BSIZE] at *
    omega
  rw [needs, span_block (by simp) (DIRENT_in_block k), ways_singleton, zero, leaf_direct (by decide),
    Forest.way_nil]
  exact card_filter_le ..

theorem Directory.created (d : Directory s dp inum) (empty : (file s inum).data = [])
    (room : 2 ≤ spare s) (self : 1 ≤ inum ∧ inum ≤ 65535) (up : 1 ≤ parent ∧ parent ≤ 65535) :
    ∃ a, Created dp inum parent a := by
  have limit := maxBytes
  have start : DirInv dp inum ⟨s, []⟩ := by
    refine ⟨d, Holds.empty (fun k => ?_)⟩
    rw [empty]
    exact slots_beyond (Nat.zero_le _)
  have vacant : Vacant (file s inum).data 0 := by
    rw [empty]
    exact ⟨Nat.le_refl _, slots_beyond (Nat.zero_le _), fun j lt => absurd lt (Nat.not_lt_zero j)⟩
  have few := needs_first s inum (k := 0) (by decide)
  obtain ⟨t, wrote, served⟩ := writei_complete d.sound d.full d.cached (by simp) d.native
    ⟨vacant.inside, by rw [limit]; decide⟩ (Nat.le_of_eq (length_newDirent inum dot).symm)
    (Nat.le_trans few (by omega))
  have first : dirlink dp dot inum s = .ok (0, t) := by
    rw [d.dirlink_absent (start.absent rfl) vacant, run_bind wrote, if_neg (by simp)]
    rfl
  have left : 1 ≤ spare t := by
    have count := (served.spent rfl).count
    unfold needs at few
    omega
  have linked := start.step (.linked dot inum self first)
  have length : (file t inum).data.length = DIRENT := by
    rw [served.stores rfl, empty, take_of_length_le (Nat.le_of_eq (length_newDirent ..)),
      length_splice [] _ (Nat.le_refl (DIRENT * 0)), length_newDirent]
    rfl
  obtain ⟨k, v⟩ := exists_vacant linked.dir.whole
  have inside := v.inside
  rw [length] at inside
  have block : DIRENT * k + DIRENT ≤ BSIZE := by
    simp only [DIRENT, BSIZE] at *
    omega
  have roomy : Roomy t inum k := by
    refine ⟨?_, Nat.le_trans (needs_first t inum block) left⟩
    rw [limit]
    exact Nat.le_trans block (by decide)
  obtain ⟨u, second⟩ := (linked.finiteMap.links dotdot parent up rfl).1 k v roomy
  exact ⟨⟨u, _⟩, self, up, rfl, s, t, d, empty, first, second⟩

def mkfsMkdir : FsState := loaded (occupy (fresh mkfsBig 3 .dir) 0 ROOTDEV 3) 0

theorem mkfsMkdir_directory : Directory mkfsMkdir 0 3 ∧ (file mkfsMkdir 3).data = [] := by
  obtain ⟨sound, full, cached, files⟩ := mkfsNew_ready (nofun : IType.dir ≠ .free)
  have here : file mkfsMkdir 3 = ⟨.dir, 0, 0, 0, []⟩ := files
  refine ⟨⟨sound, full, cached, ?_, ?_⟩, ?_⟩ <;> rw [here]
  rfl

theorem directory_is_map_mkdir : ∃ a, Created 0 3 1 a ∧ FiniteMap 0 3 a := by
  have room : 2 ≤ spare mkfsMkdir := by
    have two : ({232, 233} : Finset Nat) ⊆
        (Finset.range mkfsMkdir.sb.size).filter (fun b => mkfsMkdir.bitmap b = false) := by
      intro b hb
      rw [Finset.mem_insert, Finset.mem_singleton] at hb
      have size : mkfsMkdir.sb.size = 15000 := rfl
      have bits : mkfsMkdir.bitmap = fun b => decide (b < 232) := rfl
      rw [Finset.mem_filter, Finset.mem_range, size, bits]
      rcases hb with rfl | rfl <;> exact ⟨by omega, rfl⟩
    exact card_le_card two
  have up : 1 ≤ 1 ∧ 1 ≤ 65535 := by decide
  obtain ⟨a, created⟩ := mkfsMkdir_directory.1.created mkfsMkdir_directory.2 room (by decide) up
  exact ⟨a, created, directory_is_map (.start created)⟩

end Mkdir

end UvaOs.Fs
