import UvaOs.Fs.Room
import UvaOs.Io.Read

/-! `filewrite` (kernel/file.c) on a file of the root disk; the other kinds are only dispatched
here. A user's buffer is given by the bytes that `copyin` can read before it faults. -/
namespace UvaOs.Io

open Bytes List
open UvaOs.Fs (FsState UINT MAXFILE BSIZE)

/-- The most blocks that one transaction of the log writes. -/
def MAXOPBLOCKS : Nat := 10

/-- Where the write goes on, or what it returns. -/
inductive Written where
  | returns (r : Int)
  | pipewrite (n : Int)
  | devwrite (major : Major) (n : Int)
  | fatWrite (n : Int)
  | procfsWrite (n : Int)

def Major.writes : Major → Bool
  | .console | .framebuffer | .framebuffer0 | .devnull | .devsb => true
  | .keyboard | .keyboard0 | .devzero => false

def writePart (src : List UInt8) (n1 : Nat) (s : State) : Except Halt (Int × State) :=
  let write : Fs.FsM Int := do
    Fs.ilock s.file.ip
    Fs.writei s.file.ip src s.file.off n1
  match write s.fs with
  | .error e => .error (.fs e)
  | .ok (r, fs) =>
    let s := { s with fs := fs }
    .ok (r, if 0 < r then s.advance r.toNat else s)

def writeParts (src : List UInt8) (n : Nat) : Nat → Nat → State → Except Halt (Nat × State)
  | 0, i, s => .ok (i, s)
  | fuel + 1, i, s =>
    if i < n then
      let max := ((MAXOPBLOCKS - 1 - 1 - 2) / 2) * BSIZE
      let n1 := min (n - i) max
      match writePart (src.drop i) n1 s with
      | .error e => .error e
      | .ok (r, s) => if r ≠ n1 then .ok (i, s) else writeParts src n fuel (i + n1) s
    else .ok (i, s)

/- A negative length makes no turn of the loop. -/
def filewrite (src : List UInt8) (n : Int) (s : State) : Except Halt (Written × State) :=
  if s.file.writable = false then .ok (.returns (-1), s)
  else
    match s.file.type with
    | .pipe => .ok (.pipewrite n, s)
    | .device =>
      match s.file.major with
      | none => .ok (.returns (-1), s)
      | some major => .ok (if major.writes then .devwrite major n else .returns (-1), s)
    | .inode =>
      match writeParts src n.toNat n.toNat 0 s with
      | .error e => .error e
      | .ok (i, s) => .ok (.returns (if (i : Int) = n then n else -1), s)
    | .inodeFat => .ok (.fatWrite n, s)
    | .procfs => .ok (.procfsWrite n, s)
    | .none => .error .filewrite

/-! What a write reports -/

def State.inum (s : State) : Nat := (s.fs.itable s.file.ip).inum

def State.contents (s : State) : List UInt8 := (Fs.file s.fs s.inum).data

structure Ready (s : State) (inum : Nat) : Prop where
  sound : Fs.Sound s.fs
  full : Fs.Full s.fs
  cached : Fs.Cached s.fs s.file.ip inum

section Parts

variable {s t : State} {inum m n i j : Nat} {src : List UInt8} {r : Int}

theorem Ready.contents (ready : Ready s inum) : s.contents = (Fs.file s.fs inum).data := by
  rw [State.contents, State.inum, ready.cached.2.2.2.1]

/-- Enough of the source can be read and there is a block for all of it. -/
def Enough (s : State) (inum : Nat) (src : List UInt8) (m : Nat) : Prop :=
  m ≤ src.length ∧ Fs.needs s.fs inum s.file.off m ≤ Fs.spare s.fs

structure Completed (s t : State) (inum : Nat) (src : List UInt8) (m : Nat) : Prop where
  accepted : Fs.Accepted s.fs inum s.file.off m
  enough : Enough s inum src m
  ready : Ready t inum
  moves : t.file.off = s.file.off + m
  data : t.contents = splice s.contents s.file.off (src.take m)
  spent : Forest.Spent (Fs.forest s.fs) (Fs.forest t.fs) (Fs.spare s.fs) (Fs.spare t.fs)
    (Fs.ways inum (Fs.span s.file.off m))

/-- Everything that one transaction of `m` bytes can do, by what `writei` returns. -/
inductive Part (s t : State) (inum : Nat) (src : List UInt8) (m : Nat) : Int → Prop
  | refused (refused : ¬ Fs.Accepted s.fs inum s.file.off m) (same : t = s) : Part s t inum src m (-1)
  | stalled (accepted : Fs.Accepted s.fs inum s.file.off m) (few : ¬ Enough s inum src m)
      (stays : t.file.off = s.file.off)
      (data : (Fs.spare s.fs < Fs.needs s.fs inum s.file.off 1 ∧ t.contents = s.contents) ∨
        (Fs.needs s.fs inum s.file.off 1 ≤ Fs.spare s.fs ∧
          src.length < Fs.chunk 0 s.file.off m ∧
          t.contents = (splice s.contents s.file.off src).take s.contents.length)) :
      Part s t inum src m 0
  | short (accepted : Fs.Accepted s.fs inum s.file.off m) (few : ¬ Enough s inum src m) (w : Nat)
      (pos : 0 < w) (lt : w < m) (moves : t.file.off = s.file.off + w)
      (begun : Fs.needs s.fs inum s.file.off 1 ≤ Fs.spare s.fs ∧
        Fs.chunk 0 s.file.off m ≤ src.length) : Part s t inum src m w
  | complete (completed : Completed s t inum src m) : Part s t inum src m m

theorem writePart_cases (ready : Ready s inum) (pos : 0 < m) (small : m < 2 ^ 31)
    (run : writePart src m s = .ok (r, t)) : Part s t inum src m r := by
  unfold writePart at run
  dsimp only at run
  rw [Prog.run_bind (ilock_cached ready.cached)] at run
  split at run
  · cases run
  · rename_i r' fs ok
    cases run
    rcases Fs.writei_served ready.sound ready.full ready.cached pos small ok with
      ⟨refused, rfl, rfl⟩ | ⟨accepted, w, rfl, served⟩
    · exact .refused refused rfl
    · have after : ∀ f : File, f.ip = s.file.ip →
          ({ s with fs := fs, file := f } : State).contents = (Fs.file fs inum).data := by
        intro f ip
        unfold State.contents State.inum
        dsimp only
        rw [ip, served.cached.2.2.2.1]
      have limit := Fs.maxBytes
      have most := served.most
      have advance : s.file.off + w < UINT := by
        have bound := accepted.2
        simp only [UINT]
        omega
      by_cases zero : w = 0
      · subst zero
        have few : ¬ Enough s inum src m := fun enough =>
          absurd (served.complete.mpr enough) (Nat.ne_of_lt pos)
        refine .stalled accepted few rfl ?_
        rw [ready.contents]
        exact (after s.file rfl) ▸ served.stalls rfl
      · rw [if_pos (by omega)]
        have moves : (s.file.off + w) % UINT = s.file.off + w := Nat.mod_eq_of_lt advance
        by_cases all : w = m
        · subst all
          refine .complete ⟨accepted, served.complete.mp rfl,
            { served with }, moves, ?_, served.spent rfl⟩
          rw [ready.contents, ← served.stores rfl]
          exact after _ rfl
        · have few : ¬ Enough s inum src m := fun enough => all (served.complete.mpr enough)
          exact .short accepted few w (by omega) (by omega) moves (served.begun (by omega))

theorem Completed.need {a : Nat} (c : Completed s t inum src a) (b : Nat) :
    Fs.needs s.fs inum s.file.off (a + b) =
      Fs.needs s.fs inum s.file.off a + Fs.needs t.fs inum t.file.off b := by
  unfold Fs.needs
  rw [Fs.span_add, Fs.ways_union, c.spent.card_union (Fs.ways_nodes s.fs inum _), c.moves]

theorem Completed.rest {a b : Nat} (c : Completed s t inum src a) (ready : Ready s inum) :
    (Fs.Accepted s.fs inum s.file.off (a + b) ∧ Enough s inum src (a + b)) ↔
      (Fs.Accepted t.fs inum t.file.off b ∧ Enough t inum (src.drop a) b) := by
  have length : (Fs.file t.fs inum).data.length =
      max (Fs.file s.fs inum).data.length (s.file.off + a) := by
    rw [← c.ready.contents, c.data, ready.contents, length_splice _ _ c.accepted.1,
      length_take, Nat.min_eq_left c.enough.1]
  have need := c.need b
  have count : Fs.spare t.fs + Fs.needs s.fs inum s.file.off a = Fs.spare s.fs := c.spent.count
  have inside := c.accepted.1
  have bound := c.enough.1
  unfold Fs.Accepted Enough
  rw [need, length, c.moves, length_drop]
  omega

theorem accepted_enough_le {a b : Nat} (le : a ≤ b)
    (h : Fs.Accepted s.fs inum s.file.off b ∧ Enough s inum src b) :
    Fs.Accepted s.fs inum s.file.off a ∧ Enough s inum src a := by
  obtain ⟨⟨inside, bound⟩, length, room⟩ := h
  have less : Fs.needs s.fs inum s.file.off a ≤ Fs.needs s.fs inum s.file.off b :=
    Fs.needs_mono s.fs inum s.file.off le
  exact ⟨⟨inside, by omega⟩, by omega, by omega⟩

structure Counted (s t : State) (inum : Nat) (src : List UInt8) (m : Nat) (done : Prop) : Prop where
  complete : done ↔ m = 0 ∨ (Fs.Accepted s.fs inum s.file.off m ∧ Enough s inum src m)
  stores : done → m ≤ src.length ∧ t.contents = splice s.contents s.file.off (src.take m) ∧
    t.file.off = s.file.off + m
  forward : s.file.off ≤ t.file.off

theorem Counted.nothing (src : List UInt8) {done : Prop} (yes : done) :
    Counted s s inum src 0 done := by
  refine ⟨⟨fun _ => .inl rfl, fun _ => yes⟩, fun _ => ⟨Nat.zero_le _, ?_, rfl⟩, Nat.le_refl _⟩
  rw [take_zero, splice_nil]

theorem Completed.counted {u : State} {a b : Nat} {done : Prop} (c : Completed s t inum src a)
    (ready : Ready s inum) (rest : Counted t u inum (src.drop a) b done) :
    Counted s u inum src (a + b) done := by
  have whole := c.rest (b := b) ready
  refine ⟨?_, ?_, ?_⟩
  · grind [rest.complete, c.accepted, c.enough]
  · intro yes
    obtain ⟨length, data, off⟩ := rest.stores yes
    have taken : (src.take a).length = a := by rw [length_take, Nat.min_eq_left c.enough.1]
    have inside : s.file.off ≤ s.contents.length := by
      rw [ready.contents]
      exact c.accepted.1
    have both := splice_splice s.contents (src.take a) ((src.drop a).take b) inside
    rw [taken, ← take_add] at both
    refine ⟨?_, ?_, ?_⟩
    · grind
    · rw [data, c.data, c.moves, both]
    · rw [off, c.moves, Nat.add_assoc]
  · have forward := rest.forward
    have moves := c.moves
    omega

theorem Part.stops {b : Nat} (part : Part s t inum src m r) (short : r ≠ m) (le : m ≤ b)
    (pos : 0 < b) {done : Prop} (no : ¬ done) : Counted s t inum src b done := by
  have unfit : ¬ (Fs.Accepted s.fs inum s.file.off b ∧ Enough s inum src b) ∧
      s.file.off ≤ t.file.off := by
    cases part with
    | refused refused same =>
      exact ⟨fun fits => refused (accepted_enough_le le fits).1, Nat.le_of_eq (by rw [same])⟩
    | stalled _ few stays =>
      exact ⟨fun fits => few (accepted_enough_le le fits).2, Nat.le_of_eq stays.symm⟩
    | short _ few w _ _ moves _ =>
      exact ⟨fun fits => few (accepted_enough_le le fits).2, by omega⟩
    | complete => exact absurd rfl short
  refine ⟨⟨fun yes => absurd yes no, ?_⟩, fun yes => absurd yes no, unfit.2⟩
  rintro (zero | fits)
  · omega
  · exact absurd fits unfit.1

theorem writeParts_counted (small : n < 2 ^ 31) (fuel : Nat) :
    ∀ (s : State) (i : Nat), Ready s inum → i ≤ n → n - i ≤ fuel →
      writeParts src n fuel i s = .ok (j, t) → Counted s t inum (src.drop i) (n - i) (j = n) := by
  induction fuel with
  | zero =>
    intro s i _ le fits run
    cases run
    have last : j = n := by omega
    rw [last, Nat.sub_self]
    exact .nothing _ rfl
  | succ fuel ih =>
    intro s i ready le fits run
    unfold writeParts at run
    split at run
    · rename_i more
      dsimp only at run
      have pos : 0 < min (n - i) (((MAXOPBLOCKS - 1 - 1 - 2) / 2) * BSIZE) := by
        simp only [MAXOPBLOCKS, BSIZE]
        omega
      have less : min (n - i) (((MAXOPBLOCKS - 1 - 1 - 2) / 2) * BSIZE) ≤ n - i :=
        Nat.min_le_left ..
      generalize min (n - i) (((MAXOPBLOCKS - 1 - 1 - 2) / 2) * BSIZE) = m at pos less run
      split at run
      · cases run
      · rename_i r u ok
        have part := writePart_cases ready pos (by omega) ok
        split at run
        · rename_i short
          cases run
          exact part.stops short less (by omega) (by omega)
        · rename_i all
          have total : n - i = m + (n - (i + m)) := by omega
          cases part with
          | complete c =>
            have rest := ih u (i + m) c.ready (by omega) (by omega) run
            rw [← drop_drop] at rest
            rw [total]
            exact c.counted ready rest
          | refused | stalled | short => omega
    · cases run
      have last : j = n := by omega
      rw [last, Nat.sub_self]
      exact .nothing _ rfl

theorem writeParts_first (ready : Ready s inum) (pos : 0 < n) (small : n < 2 ^ 31)
    (run : writeParts src n n 0 s = .ok (j, t)) :
    (∃ r : Int, r ≠ (min n (3 * BSIZE) : Nat) ∧ Part s t inum src (min n (3 * BSIZE)) r) ∨
    ∃ u, Completed s u inum src (min n (3 * BSIZE)) ∧ u.file.off ≤ t.file.off := by
  obtain ⟨fuel, rfl⟩ : ∃ m, n = m + 1 := ⟨n - 1, by omega⟩
  have least : 0 < min (fuel + 1) (3 * BSIZE) := by
    simp only [BSIZE]
    omega
  unfold writeParts at run
  rw [if_pos pos] at run
  dsimp only at run
  have max : ((MAXOPBLOCKS - 1 - 1 - 2) / 2) * BSIZE = 3 * BSIZE := rfl
  rw [drop_zero, Nat.sub_zero, Nat.zero_add, max] at run
  split at run
  · cases run
  · rename_i r u ok
    have part := writePart_cases ready least (by omega) ok
    split at run
    · rename_i short
      cases run
      exact .inl ⟨r, short, part⟩
    · rename_i all
      cases part with
      | complete c =>
        have rest := writeParts_counted small fuel u _ c.ready (by omega) (by omega) run
        exact .inr ⟨u, c, rest.forward⟩
      | refused | stalled | short => omega

end Parts

/-- If `write` returns `k ≥ 0`, the first `k` bytes of the buffer are at the old offset, and the
offset has advanced by `k`; if it returns -1, the contents with their size and the offset are
as they were. -/
structure Reports (s : State) (src : List UInt8) (r : Int) (t : State) : Prop where
  count : ∀ k : Nat, r = k → k ≤ src.length ∧
    t.contents = splice s.contents s.file.off (src.take k) ∧ t.file.off = s.file.off + k
  error : r = -1 → t.contents = s.contents ∧ t.file.off = s.file.off

/-- The requests that are answered so: those that are refused at once, those that can be
completed, and those that fail in their first piece, if there is no block for it, or if what of
it can be read is in the file already, as far as the file goes. -/
def Reported (s : State) (src : List UInt8) (n : Nat) : Prop :=
  s.file.writable = true →
    n = 0 ∨ ¬ Fs.Accepted s.fs s.inum s.file.off (min n (3 * BSIZE)) ∨
    (Fs.Accepted s.fs s.inum s.file.off n ∧ n ≤ src.length ∧
      Fs.needs s.fs s.inum s.file.off n ≤ Fs.spare s.fs) ∨
    Fs.spare s.fs < Fs.needs s.fs s.inum s.file.off 1 ∨
    (src.length < min n (BSIZE - s.file.off % BSIZE) ∧
      (splice s.contents s.file.off src).take s.contents.length = s.contents)

section Reports

variable {s t : State} {n j : Nat} {src : List UInt8} {r : Int}

theorem Opened.ready (opened : Opened s) (type : s.file.type = .inode) : Ready s s.inum := by
  obtain ⟨⟨inum, cached⟩, reached⟩ := opened.inode type
  obtain ⟨sound, full⟩ := Fs.full_run reached
  have number : s.inum = inum := cached.2.2.2.1
  exact ⟨sound, full, number ▸ cached⟩

theorem filewrite_inode (writable : s.file.writable = true) (type : s.file.type = .inode)
    (run : filewrite src n s = .ok (.returns r, t)) :
    ∃ j, writeParts src n n 0 s = .ok (j, t) ∧ r = if j = n then (n : Int) else -1 := by
  unfold filewrite at run
  rw [if_neg (by simp [writable]), type] at run
  dsimp only at run
  rw [Int.toNat_natCast] at run
  split at run
  · cases run
  · grind

theorem reports_error : Reports s src (-1) t ↔
    t.contents = s.contents ∧ t.file.off = s.file.off := by
  refine ⟨fun h => h.error rfl, fun same => ⟨?_, fun _ => same⟩⟩
  intro k e
  omega

theorem Part.reports {m : Nat} (part : Part s t s.inum src m r) (short : r ≠ m) (pos : 0 < n)
    (first : m = min n (3 * BSIZE)) (writable : s.file.writable = true) :
    (t.contents = s.contents ∧ t.file.off = s.file.off) ↔ Reported s src n := by
  have less : m ≤ n := first ▸ Nat.min_le_left ..
  have chunk : Fs.chunk 0 s.file.off m = min n (BSIZE - s.file.off % BSIZE) := by
    unfold Fs.chunk
    simp only [BSIZE] at first ⊢
    omega
  unfold Reported
  rw [← first, ← chunk]
  have nonzero : n ≠ 0 := Nat.ne_of_gt pos
  have unfit : ∀ few : ¬ Enough s s.inum src m,
      ¬ (Fs.Accepted s.fs s.inum s.file.off n ∧ n ≤ src.length ∧
        Fs.needs s.fs s.inum s.file.off n ≤ Fs.spare s.fs) :=
    fun few fits => few (accepted_enough_le less fits).2
  cases part with
  | refused refused same =>
    exact ⟨fun _ _ => .inr (.inl refused), fun _ => by simp [same]⟩
  | stalled accepted few stays data => grind
  | short accepted few w moved lt moves begun => grind
  | complete => exact absurd rfl short

/-- A write to a file of the root disk that returns has reported what it did if and only if it
was refused, completed, or failed before it changed anything. -/
theorem write_reports (opened : Opened s) (type : s.file.type = .inode) (small : n < 2 ^ 31)
    (run : filewrite src n s = .ok (.returns r, t)) : Reports s src r t ↔ Reported s src n := by
  have ready := opened.ready type
  by_cases writable : s.file.writable = true
  · obtain ⟨j, loop, rfl⟩ := filewrite_inode writable type run
    have counted := writeParts_counted small n s 0 ready (Nat.zero_le _) (Nat.le_refl _) loop
    rw [drop_zero, Nat.sub_zero] at counted
    by_cases all : j = n
    · rw [if_pos all]
      constructor
      · intro _ _
        rcases counted.complete.mp all with zero | fits
        · exact .inl zero
        · exact .inr (.inr (.inl fits))
      · intro _
        refine ⟨?_, fun e => absurd e (by omega)⟩
        intro k e
        obtain rfl : n = k := by omega
        exact counted.stores all
    · rw [if_neg all, reports_error]
      have pos : 0 < n := by
        by_contra zero
        exact all (counted.complete.mpr (.inl (by omega)))
      rcases writeParts_first ready pos small loop with ⟨r, short, part⟩ | ⟨u, c, forward⟩
      · exact part.reports short pos rfl writable
      · -- later transactions failed after this one had moved the offset
        have least : 0 < min n (3 * BSIZE) := by
          simp only [BSIZE]
          omega
        have moves := c.moves
        have begun := accepted_enough_le (a := 1) least ⟨c.accepted, c.enough⟩
        constructor
        · rintro ⟨_, stays⟩
          omega
        · intro cond
          rcases cond writable with zero | refused | fits | none | ⟨fault, _⟩
          · omega
          · exact absurd c.accepted refused
          · exact absurd (counted.complete.mpr (.inr fits)) all
          · exact absurd begun.2.2 (Nat.not_le.mpr none)
          · have length := c.enough.1
            simp only [BSIZE] at fault length
            omega
  · have same : filewrite src n s = .ok (.returns (-1), s) := by
      unfold filewrite
      rw [if_pos (by simpa using writable)]
    rw [same] at run
    cases run
    rw [reports_error]
    exact ⟨fun _ yes => absurd yes writable, fun _ => ⟨rfl, rfl⟩⟩

theorem writeParts_done (src : List UInt8) (n fuel : Nat) (s : State) :
    writeParts src n fuel n s = .ok (n, s) := by
  cases fuel with
  | zero => rfl
  | succ fuel => rw [writeParts, if_neg (Nat.lt_irrefl n)]

theorem filewrite_inside (src : List UInt8) (opened : Opened s) (type : s.file.type = .inode)
    (writable : s.file.writable = true) (pos : 0 < n) (one : n ≤ 3 * BSIZE)
    (inside : s.file.off + n ≤ s.size)
    (native : Fs.isFattype (s.fs.itable s.file.ip).copy.type = false) :
    (∀ i, s.file.off ≤ i → i < s.file.off + n → Fs.Mapped s.fs s.inum i) ∧
    Fs.Accepted s.fs s.inum s.file.off n ∧ ∃ r t, filewrite src n s = .ok (.returns r, t) := by
  have ready := opened.ready type
  have size : (Fs.current s.fs s.inum).size = s.size := by
    rw [Fs.current_cached ready.sound.table.unique ready.cached]
    rfl
  have mapped : ∀ i, s.file.off ≤ i → i < s.file.off + n → Fs.Mapped s.fs s.inum i := by
    intro i _ hi
    refine ready.full.mapped s.inum i (ready.cached.allocated ready.sound.table) ?_
    omega
  have bound := ready.full.bound s.inum (ready.cached.allocated ready.sound.table)
  have accepted : Fs.Accepted s.fs s.inum s.file.off n := by
    unfold Fs.Accepted
    rw [Fs.length_data ready.cached ready.sound.table, Fs.length_bytes]
    omega
  refine ⟨mapped, accepted, ?_⟩
  have part : ∃ r u, writePart src n s = .ok (r, u) := by
    obtain ⟨r, fs, ok⟩ := Fs.writei_returns src ready.sound ready.cached mapped native
    unfold writePart
    dsimp only
    rw [Prog.run_bind (ilock_cached ready.cached), ok]
    exact ⟨_, _, rfl⟩
  have loop : ∃ j u, writeParts src n n 0 s = .ok (j, u) := by
    obtain ⟨fuel, rfl⟩ : ∃ m, n = m + 1 := ⟨n - 1, by omega⟩
    obtain ⟨r, u, ok⟩ := part
    have max : ((MAXOPBLOCKS - 1 - 1 - 2) / 2) * BSIZE = 3 * BSIZE := rfl
    unfold writeParts
    dsimp only
    rw [if_pos pos, drop_zero, Nat.sub_zero, Nat.zero_add, max, Nat.min_eq_left one, ok]
    dsimp only
    split
    · exact ⟨_, _, rfl⟩
    · exact ⟨_, _, writeParts_done src (fuel + 1) fuel u⟩
  obtain ⟨j, u, ok⟩ := loop
  unfold filewrite
  rw [if_neg (by simp [writable]), type]
  dsimp only
  rw [Int.toNat_natCast, ok]
  exact ⟨_, _, rfl⟩

end Reports

theorem openFile_writes {n : Nat} (src : List UInt8) (pos : 0 < n) (one : n ≤ 3 * BSIZE) :
    Fs.needs openFile.fs openFile.inum 0 n = 0 ∧ Fs.Accepted openFile.fs openFile.inum 0 n ∧
      ∃ r t, filewrite src n openFile = .ok (.returns r, t) := by
  have size : openFile.size = 72192 := by decide
  have inside : openFile.file.off + n ≤ openFile.size := by
    rw [size]
    simp only [openFile, BSIZE] at one ⊢
    omega
  obtain ⟨mapped, accepted, run⟩ :=
    filewrite_inside src openFile_opened rfl rfl pos one inside (by decide)
  exact ⟨Fs.needs_mapped mapped, accepted, run⟩

theorem openFile_reports_two : ∃ r t, filewrite [1, 2] 2 openFile = .ok (.returns r, t) ∧
    Reports openFile [1, 2] r t := by
  obtain ⟨need, accepted, r, t, run⟩ := openFile_writes (n := 2) [1, 2] (by decide) (by decide)
  refine ⟨r, t, run, (write_reports openFile_opened rfl (by decide) run).mpr ?_⟩
  intro _
  refine .inr (.inr (.inl ⟨accepted, by decide, ?_⟩))
  exact need.le.trans (Nat.zero_le _)

/- The buffer ends in the second of two blocks: `write` returns -1, and the first one has been
written and counted. -/
theorem failed_write_moves : ∃ t,
    filewrite (List.replicate 512 7) 1024 openFile = .ok (.returns (-1), t) ∧
      ¬ Reports openFile (List.replicate 512 7) (-1) t := by
  obtain ⟨_, accepted, r, t, run⟩ :=
    openFile_writes (n := 1024) (List.replicate 512 7) (by decide) (by decide)
  obtain ⟨need, _⟩ := openFile_writes (n := 1) [] (by decide) (by decide)
  have ready := openFile_opened.ready rfl
  have length : (List.replicate 512 (7 : UInt8)).length = 512 := length_replicate
  obtain ⟨j, loop, rfl⟩ := filewrite_inode (n := 1024) rfl rfl run
  have counted := writeParts_counted (n := 1024) (by decide) 1024 openFile 0 ready (Nat.zero_le _)
    (Nat.le_refl _) loop
  rw [drop_zero] at counted
  have short : j ≠ 1024 := by
    intro all
    rcases counted.complete.mp all with zero | ⟨_, enough, _⟩
    · omega
    · omega
  rw [if_neg short] at run
  refine ⟨t, run, ?_⟩
  rw [reports_error]
  rcases writeParts_first ready (by decide) (by decide) loop with ⟨r, less, part⟩ | ⟨u, c, _⟩
  · rw [part.reports (n := 1024) less (by decide) rfl rfl]
    intro reported
    rcases reported rfl with zero | refused | ⟨_, enough, _⟩ | none | ⟨fault, _⟩
    · omega
    · exact refused accepted
    · omega
    · exact absurd none (by rw [show openFile.file.off = 0 from rfl, need]; exact Nat.not_lt_zero _)
    · rw [length] at fault
      exact absurd fault (by decide)
  · have enough := c.enough.1
    rw [length] at enough
    exact absurd enough (by decide)

end UvaOs.Io
