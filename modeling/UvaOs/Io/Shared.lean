import UvaOs.Io.Write

/-! One `struct file` in the hands of several tasks (kernel/file.c): `f->off` has no lock of its
own, and is read and moved inside of the lock of the inode. The steps of a task are the sections
in which it holds that lock: one for a read, one for each transaction of a write, between which
the other tasks may come in. -/
namespace UvaOs.Io

open Bytes List
open UvaOs.Fs (FsState UINT MAXFILE BSIZE)

/-- Where a task is in `filewrite`; a read has one section and leaves nothing open. -/
inductive Call where
  | idle
  | writing (src : List UInt8) (n i : Nat)

/-- A section with the offset that it used, what `readi` or `writei` returned in it and the bytes
that it moved; `foreign` is a write to the inode through another open file. -/
inductive Transfer where
  | read (off : Nat) (r : Int) (bytes : List UInt8)
  | wrote (off : Nat) (r : Int) (bytes : List UInt8)
  | foreign (off : Nat) (bytes : List UInt8)

def Transfer.range : Transfer → Option (Nat × Nat)
  | .read off r _ | .wrote off r _ => some (off, r.toNat)
  | .foreign _ _ => none

def Transfer.stored : Transfer → Option (Nat × List UInt8)
  | .read _ _ _ => none
  | .wrote off _ bytes | .foreign off bytes => some (off, bytes)

def Transfer.Exact : Transfer → Prop
  | .read _ r bytes | .wrote _ r bytes => bytes.length = r.toNat
  | .foreign _ _ => True

def Transfer.covers (e : Transfer) (i : Nat) : Prop :=
  ∃ off bytes, e.stored = some (off, bytes) ∧ off ≤ i ∧ i < off + bytes.length

/-- The open file, the calls of the tasks, and the sections so far, the latest first. -/
structure Sharing where
  state : State
  calls : Nat → Call
  past : List Transfer

def partLength (n i : Nat) : Nat := min (n - i) (((MAXOPBLOCKS - 1 - 1 - 2) / 2) * BSIZE)

/-- A step of one of the tasks, whose buffers are valid, on a disk that is not full; or something
else that writes the file, or leaves it as it is. -/
inductive SharedStep (inum : Nat) : Sharing → Sharing → Prop
  | read {x : Sharing} (task : Nat) (env : Env) (n r : Int) (out : List UInt8) (t : State)
      (idle : x.calls task = .idle) (valid : toUint n ≤ env.room)
      (run : fileread env n x.state = .ok (.returns r out, t)) :
      SharedStep inum x ⟨t, x.calls, .read x.state.file.off r out :: x.past⟩
  | enter {x : Sharing} (task : Nat) (src : List UInt8) (n : Int) (idle : x.calls task = .idle)
      (writable : x.state.file.writable = true) (valid : n.toNat ≤ src.length) :
      SharedStep inum x ⟨x.state, Function.update x.calls task (.writing src n.toNat 0), x.past⟩
  | part {x : Sharing} (task : Nat) (src : List UInt8) (n i : Nat) (r : Int) (t : State)
      (call : x.calls task = .writing src n i) (more : i < n)
      (room : Fs.needs x.state.fs inum x.state.file.off (partLength n i) ≤ Fs.spare x.state.fs)
      (run : writePart (src.drop i) (partLength n i) x.state = .ok (r, t)) :
      SharedStep inum x ⟨t, Function.update x.calls task
        (if r ≠ partLength n i then .idle else .writing src n (i + partLength n i)),
        .wrote x.state.file.off r ((src.drop i).take r.toNat) :: x.past⟩
  | leave {x : Sharing} (task : Nat) (src : List UInt8) (n i : Nat)
      (call : x.calls task = .writing src n i) (done : ¬ i < n) :
      SharedStep inum x ⟨x.state, Function.update x.calls task .idle, x.past⟩
  | foreign {x : Sharing} (off : Nat) (bytes : List UInt8) (t : State) (ready : Ready t inum)
      (file : t.file = x.state.file) (inside : off ≤ x.state.contents.length)
      (data : t.contents = splice x.state.contents off bytes) :
      SharedStep inum x ⟨t, x.calls, .foreign off bytes :: x.past⟩
  | other {x : Sharing} (t : State) (ready : Ready t inum) (file : t.file = x.state.file)
      (data : t.contents = x.state.contents) : SharedStep inum x ⟨t, x.calls, x.past⟩

def Start (inum o : Nat) (x : Sharing) : Prop :=
  Ready x.state inum ∧ x.state.file.type = .inode ∧ x.state.file.off = o ∧ o < UINT ∧
    (∀ task, x.calls task = .idle) ∧ x.past = []

/-- The ranges, the latest first, follow each other from `o` on and end at `e`. -/
def Consecutive (o : Nat) : List (Nat × Nat) → Nat → Prop
  | [], e => e = o
  | (off, n) :: rest, e => e = off + n ∧ Consecutive o rest off

/-- What was stored stays, as long as nothing later is stored over it. -/
def Stays (data : List UInt8) (past : List Transfer) : Prop :=
  ∀ later e earlier, past = later ++ e :: earlier → ∀ off bytes, e.stored = some (off, bytes) →
    ∀ j, j < bytes.length → (∀ f ∈ later, ¬ f.covers (off + j)) → data[off + j]? = bytes[j]?

section Ranges

variable {o e : Nat} {rs : List (Nat × Nat)}

theorem Consecutive.total (h : Consecutive o rs e) : e = o + (rs.map (·.2)).sum := by
  induction rs generalizing e with
  | nil => exact h
  | cons x rs ih =>
    obtain ⟨off, n⟩ := x
    have before := ih h.2
    rw [h.1, before, map_cons, sum_cons]
    omega

theorem Consecutive.before (h : Consecutive o rs e) : ∀ x ∈ rs, x.1 + x.2 ≤ e := by
  induction rs generalizing e with
  | nil => exact fun _ no => absurd no not_mem_nil
  | cons x rs ih =>
    intro y hy
    obtain ⟨off, n⟩ := x
    rcases mem_cons.mp hy with rfl | mem
    · exact Nat.le_of_eq h.1.symm
    · have le := ih h.2 y mem
      have last := h.1
      omega

theorem Consecutive.disjoint (h : Consecutive o rs e) :
    rs.Pairwise (fun later earlier => earlier.1 + earlier.2 ≤ later.1) := by
  induction rs generalizing e with
  | nil => exact .nil
  | cons x rs ih => exact .cons h.2.before (ih h.2)

end Ranges

section Stays

variable {data next : List UInt8} {past : List Transfer} {e : Transfer}

theorem Stays.nothing (data : List UInt8) : Stays data [] := by
  intro later e earlier split
  cases later <;> cases split

theorem Stays.cons (h : Stays data past)
    (own : ∀ off bytes, e.stored = some (off, bytes) → ∀ j, j < bytes.length → next[off + j]? = bytes[j]?)
    (rest : ∀ i, ¬ e.covers i → next[i]? = data[i]?) : Stays next (e :: past) := by
  intro later f earlier split off bytes stored j lt uncovered
  cases later with
  | nil =>
    cases split
    exact own off bytes stored j lt
  | cons x later =>
    cases split
    have old := h later f earlier rfl off bytes stored j lt
      (fun g mem => uncovered g (mem_cons_of_mem _ mem))
    rw [rest _ (uncovered e mem_cons_self), old]

theorem Stays.read (h : Stays data past) (off : Nat) (r : Int) (bytes : List UInt8) :
    Stays data (.read off r bytes :: past) := by
  refine h.cons ?_ (fun _ _ => rfl)
  intro off bytes stored
  cases stored

theorem Stays.splice {off : Nat} {bytes : List UInt8} (h : Stays data past)
    (stored : e.stored = some (off, bytes)) (inside : off ≤ data.length) :
    Stays (splice data off bytes) (e :: past) := by
  refine h.cons ?_ ?_
  · intro a b same j lt
    rw [stored] at same
    cases same
    rw [getElem?_splice _ _ inside, if_neg (by omega), if_pos (by omega), Nat.add_sub_cancel_left]
  · intro i free
    rw [getElem?_splice _ _ inside]
    by_cases before : i < off
    · rw [if_pos before]
    · rw [if_neg before, if_neg (fun lt => free ⟨off, bytes, stored, by omega, lt⟩)]

end Stays

structure SharedInv (inum o : Nat) (x : Sharing) : Prop where
  ready : Ready x.state inum
  type : x.state.file.type = .inode
  below : x.state.file.off < UINT
  valid : ∀ task src n i, x.calls task = .writing src n i → n ≤ src.length
  ranges : Consecutive o (x.past.filterMap Transfer.range) x.state.file.off
  exact_ : ∀ e ∈ x.past, e.Exact
  stays : Stays x.state.contents x.past

section Steps

variable {s t : State} {inum o m n i : Nat} {r : Int} {env : Env} {src out : List UInt8}

theorem fileread_moves {n : Int} (ready : Ready s inum) (type : s.file.type = .inode)
    (below : s.file.off < UINT) (valid : toUint n ≤ env.room)
    (run : fileread env n s = .ok (.returns r out, t)) :
    t.fs = s.fs ∧ t.file = { s.file with off := s.file.off + r.toNat } ∧ t.file.off < UINT ∧
      out.length = r.toNat := by
  unfold fileread at run
  split at run
  · cases run
    exact ⟨rfl, rfl, below, rfl⟩
  · rw [type] at run
    dsimp only at run
    rw [readInode_eq ⟨inum, ready.cached⟩,
      Fs.readi_result ready.sound ready.full ready.cached below (toUint_lt n) valid] at run
    have alloc := ready.cached.allocated ready.sound.table
    have bound := ready.full.bound inum alloc
    have limit := Fs.maxBytes
    have length := congrArg List.length (Fs.length_data ready.cached ready.sound.table)
    rw [Fs.length_bytes] at length
    unfold Fs.readResult at run
    generalize (Fs.file s.fs inum).data = data at run length
    by_cases inside : s.file.off ≤ data.length ∧ s.file.off + toUint n < UINT
    · rw [if_pos inside] at run
      dsimp only at run
      have moves : (s.file.off + min (toUint n) (data.length - s.file.off)) % UINT =
          s.file.off + min (toUint n) (data.length - s.file.off) := by
        refine Nat.mod_eq_of_lt ?_
        simp only [UINT]
        omega
      have fits : s.file.off + min (toUint n) (data.length - s.file.off) < UINT := by
        simp only [UINT]
        omega
      cases run
      split
      · grind [State.advance, Int.toNat_natCast, length_take, length_drop]
      · rename_i none
        have zero : min (toUint n) (data.length - s.file.off) = 0 := by omega
        rw [Int.toNat_natCast, length_take, length_drop, zero]
        exact ⟨rfl, rfl, below, rfl⟩
    · rw [if_neg inside] at run
      cases run
      exact ⟨rfl, rfl, below, rfl⟩

theorem writePart_file (run : writePart src m s = .ok (r, t)) :
    t.file = { s.file with off := t.file.off } := by
  unfold writePart at run
  dsimp only at run
  split at run
  · cases run
  · cases run
    split <;> rfl

theorem writePart_moves (ready : Ready s inum) (pos : 0 < m) (small : m < 2 ^ 31)
    (valid : m ≤ src.length)
    (room : Fs.needs s.fs inum s.file.off m ≤ Fs.spare s.fs) (run : writePart src m s = .ok (r, t)) :
    (r = -1 ∧ t = s) ∨ (r = m ∧ Completed s t inum src m) := by
  have enough : Enough s inum src m := ⟨valid, room⟩
  cases writePart_cases ready pos small run with
  | refused _ same => exact .inl ⟨rfl, same⟩
  | stalled _ few => exact absurd enough few
  | short _ few => exact absurd enough few
  | complete completed => exact .inr ⟨rfl, completed⟩

theorem partLength_pos (more : i < n) : 0 < partLength n i := by
  unfold partLength
  have some : 0 < ((MAXOPBLOCKS - 1 - 1 - 2) / 2) * BSIZE := by decide
  omega

theorem partLength_small (n i : Nat) : partLength n i < 2 ^ 31 := by
  have most : ((MAXOPBLOCKS - 1 - 1 - 2) / 2) * BSIZE < 2 ^ 31 := by decide
  unfold partLength
  omega

theorem partLength_valid (source : n ≤ src.length) : partLength n i ≤ (src.drop i).length := by
  unfold partLength
  rw [length_drop]
  omega

theorem valid_update {calls : Nat → Call} {k : Nat} {c : Call}
    (old : ∀ task src n i, calls task = .writing src n i → n ≤ src.length)
    (new : ∀ src n i, c = .writing src n i → n ≤ src.length) :
    ∀ task src n i, Function.update calls k c task = .writing src n i → n ≤ src.length := by
  intro task src n i call
  by_cases e : task = k
  · rw [e, Function.update_self] at call
    exact new src n i call
  · rw [Function.update_of_ne e] at call
    exact old task src n i call

theorem SharedInv.step {x y : Sharing} (h : SharedInv inum o x) (step : SharedStep inum x y) :
    SharedInv inum o y := by
  cases step with
  | read task env n r out t idle valid run =>
    obtain ⟨fs, file, below, length⟩ := fileread_moves h.ready h.type h.below valid run
    have ready : Ready t inum := by
      refine ⟨fs ▸ h.ready.sound, fs ▸ h.ready.full, ?_⟩
      rw [fs, file]
      exact h.ready.cached
    refine ⟨ready, by rw [file]; exact h.type, below, h.valid, ?_, ?_, ?_⟩
    · rw [file]
      exact ⟨rfl, h.ranges⟩
    · exact forall_mem_cons.mpr ⟨length, h.exact_⟩
    · rw [ready.contents, fs, ← h.ready.contents]
      exact h.stays.read _ _ _
  | enter task src n idle writable valid =>
    refine { h with valid := valid_update h.valid ?_ }
    rintro _ _ _ ⟨⟩
    exact valid
  | part task src n i r t call more room run =>
    have source := h.valid task src n i call
    have length := partLength_valid (i := i) source
    have valid : ∀ s m j, (if r ≠ partLength n i then Call.idle
        else .writing src n (i + partLength n i)) = .writing s m j → m ≤ s.length := by grind
    have file := writePart_file run
    rcases writePart_moves h.ready (partLength_pos more) (partLength_small n i) length room run with
      ⟨rfl, rfl⟩ | ⟨rfl, done⟩
    · have nothing : ∀ off bytes, (Transfer.wrote x.state.file.off (-1)
          ((src.drop i).take (-1 : Int).toNat)).stored = some (off, bytes) → ∀ j, j < bytes.length →
            x.state.contents[off + j]? = bytes[j]? := by
        rintro _ _ ⟨⟩ j lt
        exact absurd lt (Nat.not_lt_zero j)
      exact ⟨h.ready, h.type, h.below, valid_update h.valid valid, ⟨rfl, h.ranges⟩,
        forall_mem_cons.mpr ⟨rfl, h.exact_⟩, h.stays.cons nothing (fun _ _ => rfl)⟩
    · have below : t.file.off < UINT := by
        have limit := Fs.maxBytes
        have bound := done.accepted.2
        rw [done.moves]
        simp only [UINT]
        omega
      refine ⟨done.ready, by rw [file]; exact h.type, below, valid_update h.valid valid,
        ⟨done.moves, h.ranges⟩, forall_mem_cons.mpr ⟨?_, h.exact_⟩, ?_⟩
      · rw [Transfer.Exact, Int.toNat_natCast, length_take]
        exact Nat.min_eq_left length
      · rw [done.data]
        refine h.stays.splice rfl ?_
        rw [h.ready.contents]
        exact done.accepted.1
  | leave task src n i call done =>
    exact { h with valid := valid_update h.valid nofun }
  | foreign off bytes t ready file inside data =>
    refine ⟨ready, by rw [file]; exact h.type, by rw [file]; exact h.below, h.valid, ?_, ?_, ?_⟩
    · rw [file]
      exact h.ranges
    · exact forall_mem_cons.mpr ⟨trivial, h.exact_⟩
    · rw [data]
      exact h.stays.splice rfl inside
  | other t ready file data =>
    exact ⟨ready, by rw [file]; exact h.type, by rw [file]; exact h.below, h.valid,
      by rw [file]; exact h.ranges, h.exact_, by rw [data]; exact h.stays⟩

theorem writeParts_more (src : List UInt8) (fuel : Nat) (s : State) (more : i < n) :
    writeParts src n (fuel + 1) i s = match writePart (src.drop i) (partLength n i) s with
      | .error e => .error e
      | .ok (r, s) => if r ≠ partLength n i then .ok (i, s)
        else writeParts src n fuel (i + partLength n i) s := if_pos more

theorem writeParts_steps {j : Nat} {init : Sharing → Prop} (task : Nat) (source : n ≤ src.length)
    (fuel : Nat) : ∀ (i : Nat) (x : Sharing), Prog.Reach init (SharedStep inum) x →
      Ready x.state inum → x.calls task = .writing src n i →
      Fs.needs x.state.fs inum x.state.file.off (n - i) ≤ Fs.spare x.state.fs →
      writeParts src n fuel i x.state = .ok (j, t) →
      ∃ y, Prog.Reach init (SharedStep inum) y ∧ y.state = t := by
  induction fuel with
  | zero =>
    intro i x reached _ _ _ run
    cases run
    exact ⟨x, reached, rfl⟩
  | succ fuel ih =>
    intro i x reached ready call room run
    by_cases more : i < n
    · rw [writeParts_more src fuel x.state more] at run
      have split : n - i = partLength n i + (n - (i + partLength n i)) := by
        unfold partLength
        omega
      have first : Fs.needs x.state.fs inum x.state.file.off (partLength n i) ≤ Fs.spare x.state.fs :=
        le_trans (Fs.needs_mono _ _ _ (by omega)) room
      cases part : writePart (src.drop i) (partLength n i) x.state with
      | error e =>
        rw [part] at run
        cases run
      | ok p =>
        obtain ⟨r, s⟩ := p
        rw [part] at run
        dsimp only at run
        have moved := reached.next (.part task src n i r s call more first part)
        rcases writePart_moves ready (partLength_pos more) (partLength_small n i)
          (partLength_valid source) first part with ⟨rfl, _⟩ | ⟨rfl, done⟩
        · grind
        · rw [if_neg (by simp)] at run
          have need := done.need (n - (i + partLength n i))
          have count : Fs.spare s.fs + Fs.needs x.state.fs inum x.state.file.off (partLength n i) =
              Fs.spare x.state.fs := done.spent.count
          rw [split] at room
          exact ih (i + partLength n i) _ moved done.ready
            ((Function.update_self ..).trans (if_neg (by simp))) (by dsimp only; omega) run
    · rw [writeParts, if_neg more] at run
      cases run
      exact ⟨x, reached, rfl⟩

theorem openFile_steps : ∃ j y, writeParts [1, 2] 2 2 0 openFile = .ok (j, y.state) ∧
    Prog.Reach (Start openFile.inum 0) (SharedStep openFile.inum) y := by
  obtain ⟨need, _, r, t, run⟩ := openFile_writes (n := 2) [1, 2] (by decide) (by decide)
  obtain ⟨j, parts, -⟩ := filewrite_inode rfl rfl run
  have ready := openFile_opened.ready rfl
  have start : Prog.Reach (Start openFile.inum 0) (SharedStep openFile.inum) ⟨openFile, fun _ => .idle, []⟩ :=
    .start ⟨ready, rfl, rfl, by decide, fun _ => rfl, rfl⟩
  have room : Fs.needs openFile.fs openFile.inum openFile.file.off 2 ≤ Fs.spare openFile.fs :=
    need.le.trans (Nat.zero_le _)
  obtain ⟨y, steps, rfl⟩ := writeParts_steps 0 (by decide) 2 0 _
    (start.next (.enter 0 [1, 2] 2 rfl rfl (by decide))) ready rfl room parts
  exact ⟨j, y, parts, steps⟩

theorem Ready.reads {n : Int} (ready : Ready s inum) (type : s.file.type = .inode)
    (readable : s.file.readable = true) (below : s.file.off < UINT) (valid : toUint n ≤ env.room) :
    ∃ r out t, fileread env n s = .ok (.returns r out, t) := by
  unfold fileread
  rw [if_neg (by simp [readable]), type]
  dsimp only
  rw [readInode_eq ⟨inum, ready.cached⟩,
    Fs.readi_result ready.sound ready.full ready.cached below (toUint_lt n) valid]
  exact ⟨_, _, _, rfl⟩

theorem Ready.writes (ready : Ready s inum) (pos : 0 < m)
    (accepted : Fs.Accepted s.fs inum s.file.off m) (enough : Enough s inum src m)
    (native : Fs.isFattype (s.fs.itable s.file.ip).copy.type = false) :
    ∃ r t, writePart src m s = .ok (r, t) := by
  obtain ⟨fs, ok, _⟩ := Fs.writei_complete ready.sound ready.full ready.cached pos native accepted
    enough.1 enough.2
  unfold writePart
  dsimp only
  rw [Prog.run_bind (ilock_cached ready.cached), ok]
  exact ⟨_, _, rfl⟩

end Steps

theorem shared_inv {inum o : Nat} {x : Sharing}
    (run : Prog.Reach (Start inum o) (SharedStep inum) x) : SharedInv inum o x := by
  refine run.invariant (SharedInv inum o) ?_ (fun _ _ h step => h.step step)
  rintro ⟨s, calls, past⟩ ⟨ready, type, rfl, below, idle, rfl⟩
  refine ⟨ready, type, below, ?_, rfl, nofun, .nothing _⟩
  intro task src n i call
  rw [idle task] at call
  cases call

/-- The sections of the tasks that share an open file do not get in each other's way. -/
structure Atomic (o : Nat) (x : Sharing) : Prop where
  consecutive : Consecutive o (x.past.filterMap Transfer.range) x.state.file.off
  disjoint : (x.past.filterMap Transfer.range).Pairwise
    (fun later earlier => earlier.1 + earlier.2 ≤ later.1)
  total : x.state.file.off = o + ((x.past.filterMap Transfer.range).map (·.2)).sum
  exact_ : ∀ e ∈ x.past, e.Exact
  stays : Stays x.state.contents x.past

theorem shared_offset_atomic {inum o : Nat} {x : Sharing}
    (run : Prog.Reach (Start inum o) (SharedStep inum) x) : Atomic o x := by
  have inv := shared_inv run
  exact ⟨inv.ranges, inv.ranges.disjoint, inv.ranges.total, inv.exact_, inv.stays⟩

theorem shared_offset_atomic_two : ∃ x, Prog.Reach (Start openFile.inum 0)
    (SharedStep openFile.inum) x ∧ x.past.length = 2 ∧ Atomic 0 x := by
  have ready := openFile_opened.ready rfl
  have start : Prog.Reach (Start openFile.inum 0) (SharedStep openFile.inum)
      ⟨openFile, fun _ => .idle, []⟩ :=
    .start ⟨ready, rfl, rfl, by decide, fun _ => rfl, rfl⟩
  have entered := start.next (.enter 0 [1, 2] 2 rfl rfl (by decide))
  obtain ⟨need, accepted, _⟩ := openFile_writes (n := 2) [1, 2] (by decide) (by decide)
  have room : Fs.needs openFile.fs openFile.inum openFile.file.off (partLength 2 0) ≤
      Fs.spare openFile.fs := need.le.trans (Nat.zero_le _)
  have enough : Enough openFile openFile.inum [1, 2] (partLength 2 0) := ⟨by decide, room⟩
  obtain ⟨r, t, part⟩ := ready.writes (by decide) accepted enough (by decide)
  have written := entered.next (.part 0 [1, 2] 2 0 r t rfl (by decide) room part)
  have file := writePart_file part
  have inv := shared_inv written
  have valid : toUint 2 ≤ (⟨2, true, fun _ => true, .last, none⟩ : Env).room := by decide
  obtain ⟨r', out, u, read⟩ := inv.ready.reads inv.type (by rw [file]; rfl) inv.below valid
  have done := written.next (.read 1 _ 2 r' out u rfl (by decide) read)
  exact ⟨_, done, rfl, shared_offset_atomic done⟩

end UvaOs.Io
