import UvaOs.Ipc.Pipe

/-! A pipe is a queue of bytes, also when its 32-bit counters wrap around. -/
namespace UvaOs.Pipes

open Monitor List

/-- The counters count, and the ring holds the bytes between them. -/
structure Ring (d : Pipe) : Prop where
  behind : d.taken.length ≤ d.stored.length
  room : d.stored.length ≤ d.taken.length + PIPESIZE
  nread : d.nread = BitVec.ofNat 32 d.taken.length
  nwrite : d.nwrite = BitVec.ofNat 32 d.stored.length
  data : ∀ k e, d.taken.length ≤ k → d.stored[k]? = some e → d.data (k % PIPESIZE) = e.byte
  order : d.taken.map (·.byte) = (d.stored.map (·.byte)).take d.taken.length
  writers : ∀ e ∈ d.stored, e.call < d.calls
  readers : ∀ e ∈ d.taken, e.call < d.calls

theorem ring_index (k : Nat) : (BitVec.ofNat 32 k).toNat % PIPESIZE = k % PIPESIZE := by
  rw [BitVec.toNat_ofNat, PIPESIZE]
  omega

theorem counter_add_one (k : Nat) : BitVec.ofNat 32 k + 1 = BitVec.ofNat 32 (k + 1) :=
  BitVec.eq_of_toNat_eq (by simp)

namespace Ring

variable {d : Pipe} (ring : Ring d)

include ring

theorem empty_iff : d.Empty ↔ d.taken.length = d.stored.length := by
  have behind := ring.behind
  have room := ring.room
  rw [Pipe.Empty, ring.nread, ring.nwrite, ← BitVec.toNat_inj, BitVec.toNat_ofNat,
    BitVec.toNat_ofNat]
  simp only [PIPESIZE] at room
  omega

theorem full_iff : d.Full ↔ d.stored.length = d.taken.length + PIPESIZE := by
  have behind := ring.behind
  have room := ring.room
  rw [Pipe.Full, ring.nread, ring.nwrite, ← BitVec.toNat_inj, BitVec.toNat_add,
    BitVec.toNat_ofNat, BitVec.toNat_ofNat, BitVec.toNat_ofNat]
  simp only [PIPESIZE] at room ⊢
  omega

theorem enroll (task : Nat) : Ring (d.enroll task) where
  behind := ring.behind
  room := ring.room
  nread := ring.nread
  nwrite := ring.nwrite
  data := ring.data
  order := ring.order
  writers e mem := Nat.lt_succ_of_lt (ring.writers e mem)
  readers e mem := Nat.lt_succ_of_lt (ring.readers e mem)

theorem close (writable : Bool) : Ring (d.close writable) := by
  cases writable with
  | true => exact { ring with }
  | false => exact { ring with }

theorem store {w : Write} (i : Nat) (ch : UInt8) (known : w.call < d.calls) (space : ¬ d.Full) :
    Ring (d.store w i ch) := by
  have behind := ring.behind
  have fits : d.stored.length < d.taken.length + PIPESIZE :=
    Nat.lt_of_le_of_ne ring.room (fun full => space (ring.full_iff.mpr full))
  refine ⟨?_, ?_, ring.nread, ?_, ?_, ?_, ?_, ring.readers⟩
  · simp only [Pipe.store, length_append, length_singleton]
    omega
  · simp only [Pipe.store, length_append, length_singleton]
    omega
  · simp only [Pipe.store, length_append, length_singleton, ring.nwrite]
    exact counter_add_one _
  · intro k e from_ entry
    simp only [Pipe.store] at entry from_ ⊢
    rw [ring.nwrite, ring_index]
    rcases Nat.lt_or_ge k d.stored.length with old | new
    · rw [getElem?_append_left old] at entry
      have apart : k % PIPESIZE ≠ d.stored.length % PIPESIZE := by
        simp only [PIPESIZE] at fits ⊢
        omega
      rw [Function.update_of_ne apart]
      exact ring.data k e from_ entry
    · grind
  · simp only [Pipe.store, map_append, ring.order]
    rw [take_append_of_le_length (by simpa using behind)]
  · intro e mem
    rcases mem_append.mp mem with old | new
    · exact ring.writers e old
    · rw [mem_singleton.mp new]
      exact known

theorem remove {r : Read} (i : Nat) (known : r.call < d.calls) (some_ : ¬ d.Empty) :
    Ring (d.remove r i) := by
  have ahead : d.taken.length < d.stored.length :=
    Nat.lt_of_le_of_ne ring.behind (fun empty => some_ (ring.empty_iff.mpr empty))
  have room := ring.room
  have next : d.data (d.nread.toNat % PIPESIZE) = d.stored[d.taken.length].byte := by
    rw [ring.nread, ring_index]
    exact ring.data _ _ (Nat.le_refl _) (getElem?_eq_getElem ahead)
  refine ⟨?_, ?_, ?_, ring.nwrite, ?_, ?_, ring.writers, ?_⟩
  · simp only [Pipe.remove, length_append, length_singleton]
    omega
  · simp only [Pipe.remove, length_append, length_singleton]
    omega
  · simp only [Pipe.remove, length_append, length_singleton, ring.nread]
    exact counter_add_one _
  · intro k e from_ entry
    simp only [Pipe.remove, length_append, length_singleton] at from_
    exact ring.data k e (by omega) entry
  · simp only [Pipe.remove, map_append, length_append, length_singleton,
      map_cons, map_nil, next, ring.order]
    rw [take_add_one, getElem?_map, getElem?_eq_getElem ahead]
    rfl
  · intro e mem
    rcases mem_append.mp mem with old | new
    · exact ring.readers e old
    · rw [mem_singleton.mp new]
      exact known

end Ring

/-! What one call has done -/

variable {i j k : Nat} {d e : Pipe} {r : Read} {w : Write}

def Write.Valid (w : Write) : Prop := ∀ k : Nat, k < w.n → (w.src k).isSome

def Read.Valid (r : Read) : Prop := ∀ k : Nat, k < r.n → r.dst k = true

def Pipe.storedBy (d : Pipe) (call : Nat) : List (Nat × Option UInt8) :=
  (d.stored.filter (·.call = call)).map (fun e => (e.index, some e.byte))

def Pipe.takenBy (d : Pipe) (call : Nat) : List Nat :=
  (d.taken.filter (·.call = call)).map (·.index)

structure Wrote (d : Pipe) (i : Nat) (w : Write) (k : Nat) : Prop where
  valid : w.Valid
  known : w.call < d.calls
  owner : d.owner w.call = i
  bytes : d.storedBy w.call = (List.range k).map (fun j => (j, w.src j))
  upto : (k : Int) ≤ max w.n 0

structure Took (d : Pipe) (i : Nat) (r : Read) (k : Nat) : Prop where
  valid : r.Valid
  known : r.call < d.calls
  owner : d.owner r.call = i
  places : d.takenBy r.call = List.range k

/-- What task `i` knows at a point of its call. -/
def knows (d : Pipe) (i : Nat) : Point → Prop
  | .pipewrite src n => Write.Valid ⟨0, src, n⟩
  | .piperead dst n => Read.Valid ⟨0, dst, n⟩
  | .wtest w k _ => Wrote d i w k
  | .wbody w k _ | .wfull w k | .wsleep w k => Wrote d i w k ∧ k < w.n
  | .wend w k | .wleave w k => Wrote d i w k ∧ w.n ≤ k
  | .rtest r | .rsleep r => Took d i r 0
  | .rcopy r k => Took d i r k ∧ (k = 0 → ¬ (d.Empty ∧ d.writeopen = true))
  | .rend r k | .rleave r k =>
    Took d i r k ∧ (k = 0 → r.n ≤ 0 ∨ (d.Empty ∧ d.writeopen = false))
  | .pipeclose _ | .cend _ | .cleave => True

structure Frame (d e : Pipe) (i : Nat) : Prop where
  calls : d.calls ≤ e.calls
  owner : ∀ q < d.calls, e.owner q = d.owner q
  stored : ∀ q < d.calls, d.owner q ≠ i → e.storedBy q = d.storedBy q
  taken : ∀ q < d.calls, d.owner q ≠ i → e.takenBy q = d.takenBy q

theorem Frame.refl (d : Pipe) (i : Nat) : Frame d d i :=
  ⟨Nat.le_refl _, fun _ _ => rfl, fun _ _ _ => rfl, fun _ _ _ => rfl⟩

theorem Frame.wrote (frame : Frame d e i) (ne : j ≠ i) (h : Wrote d j w k) : Wrote e j w k where
  valid := h.valid
  known := Nat.lt_of_lt_of_le h.known frame.calls
  owner := (frame.owner _ h.known).trans h.owner
  bytes := (frame.stored _ h.known (h.owner ▸ ne)).trans h.bytes
  upto := h.upto

theorem Frame.took (frame : Frame d e i) (ne : j ≠ i) (h : Took d j r k) : Took e j r k where
  valid := h.valid
  known := Nat.lt_of_lt_of_le h.known frame.calls
  owner := (frame.owner _ h.known).trans h.owner
  places := (frame.taken _ h.known (h.owner ▸ ne)).trans h.places

theorem Frame.knows {p : Point} (frame : Frame d e i) (ne : j ≠ i)
    (resumes : p.resumes = true) (h : knows d j p) : knows e j p := by
  cases p with
  | pipewrite | piperead | pipeclose => exact h
  | wtest w k fresh => exact frame.wrote ne h
  | rtest r => exact frame.took ne h
  | _ => cases resumes

theorem Ring.storedBy_calls (ring : Ring d) : d.storedBy d.calls = [] := by
  have none_ : d.stored.filter (·.call = d.calls) = [] := by
    rw [filter_eq_nil_iff]
    intro e mem
    simpa using (Nat.ne_of_lt (ring.writers e mem))
  rw [Pipe.storedBy, none_, map_nil]

theorem Ring.takenBy_calls (ring : Ring d) : d.takenBy d.calls = [] := by
  have none_ : d.taken.filter (·.call = d.calls) = [] := by
    rw [filter_eq_nil_iff]
    intro e mem
    simpa using (Nat.ne_of_lt (ring.readers e mem))
  rw [Pipe.takenBy, none_, map_nil]

theorem frame_enroll (d : Pipe) (i : Nat) : Frame d (d.enroll i) i where
  calls := Nat.le_succ _
  owner _ lt := Function.update_of_ne (Nat.ne_of_lt lt) ..
  stored _ _ _ := rfl
  taken _ _ _ := rfl

theorem storedBy_store (d : Pipe) (w : Write) (i : Nat) (ch : UInt8) (q : Nat) :
    (d.store w i ch).storedBy q = d.storedBy q ++ if w.call = q then [(i, some ch)] else [] := by
  simp only [Pipe.storedBy, Pipe.store, filter_append, map_append]
  by_cases mine : w.call = q
  · simp [mine]
  · simp [mine]

theorem takenBy_remove (d : Pipe) (r : Read) (i q : Nat) :
    (d.remove r i).takenBy q = d.takenBy q ++ if r.call = q then [i] else [] := by
  simp only [Pipe.takenBy, Pipe.remove, filter_append, map_append]
  by_cases mine : r.call = q
  · simp [mine]
  · simp [mine]

theorem Wrote.frame_store (h : Wrote d i w k) (ch : UInt8) : Frame d (d.store w k ch) i where
  calls := Nat.le_refl _
  owner _ _ := rfl
  stored q _ other := by
    have ne : w.call ≠ q := fun e => other (e ▸ h.owner)
    rw [storedBy_store, if_neg ne, append_nil]
  taken _ _ _ := rfl

theorem Took.frame_remove (h : Took d i r k) : Frame d (d.remove r k) i where
  calls := Nat.le_refl _
  owner _ _ := rfl
  stored _ _ _ := rfl
  taken q _ other := by
    have ne : r.call ≠ q := fun e => other (e ▸ h.owner)
    rw [takenBy_remove, if_neg ne, append_nil]

theorem frame_close (d : Pipe) (writable : Bool) (i : Nat) : Frame d (d.close writable) i := by
  cases writable <;>
    exact ⟨Nat.le_refl _, fun _ _ => rfl, fun _ _ _ => rfl, fun _ _ _ => rfl⟩

theorem Wrote.store {ch : UInt8} (h : Wrote d i w k)
    (more : k < w.n) (byte : w.src k = some ch) : Wrote (d.store w k ch) i w (k + 1) where
  valid := h.valid
  known := h.known
  owner := h.owner
  bytes := by
    rw [storedBy_store, if_pos rfl, h.bytes, range_succ, map_append, map_singleton,
      byte]
  upto := by
    push_cast
    omega

theorem Took.remove (h : Took d i r k) : Took (d.remove r k) i r (k + 1) where
  valid := h.valid
  known := h.known
  owner := h.owner
  places := by rw [takenBy_remove, if_pos rfl, h.places, range_succ]

section

variable {d e : Pipe} {killed : Bool} {p q : Point} {i : Nat}

theorem fifo_go (ring : Ring d) (h : knows d i p) (did : Does d i killed p (.go e q)) :
    (Ring e ∧ knows e i q) ∧ Frame d e i := by
  cases did with
  | pipewrite =>
    refine ⟨⟨ring.enroll i, ?_⟩, frame_enroll d i⟩
    exact ⟨h, Nat.lt_succ_self _, Function.update_self .., ring.storedBy_calls, Int.le_max_right ..⟩
  | wtest more open_ alive => exact ⟨⟨ring, h, more⟩, .refl d i⟩
  | wdone done => exact ⟨⟨ring, h, done⟩, .refl d i⟩
  | wfull full => exact ⟨⟨ring, h⟩, .refl d i⟩
  | wfault room fault =>
    have works := h.1.valid _ h.2
    rw [fault] at works
    cases works
  | wstore room byte =>
    exact ⟨⟨ring.store _ _ h.1.known room, h.1.store h.2 byte⟩, h.1.frame_store _⟩
  | piperead =>
    refine ⟨⟨ring.enroll i, ?_⟩, frame_enroll d i⟩
    exact ⟨h, Nat.lt_succ_self _, Function.update_self .., ring.takenBy_calls⟩
  | rwait empty open_ alive => exact ⟨⟨ring, h⟩, .refl d i⟩
  | rready ready => exact ⟨⟨ring, h, fun _ => ready⟩, .refl d i⟩
  | rdone done =>
    refine ⟨⟨ring, h.1, fun zero => .inl ?_⟩, .refl d i⟩
    rw [zero] at done
    exact done
  | rempty more empty =>
    refine ⟨⟨ring, h.1, fun zero => .inr ⟨empty, ?_⟩⟩, .refl d i⟩
    exact Bool.not_eq_true _ ▸ fun open_ => h.2 zero ⟨empty, open_⟩
  | rtake more some_ works =>
    exact ⟨⟨ring.remove _ h.1.known some_, h.1.remove, nofun⟩, h.1.frame_remove⟩
  | rfault more some_ fails =>
    rw [h.1.valid _ more] at fails
    cases fails
  | pipeclose => exact ⟨⟨ring.close _, trivial⟩, frame_close d _ i⟩

theorem fifo_wakeup {k : Chan} (h : knows d i p) (did : Does d i killed p (.wakeup k q)) :
    knows d i q := by
  cases did with
  | wrouse | wend | rend => exact h
  | cend => trivial

theorem fifo_sleep {k : Chan} (h : knows d i p) (did : Does d i killed p (.sleep k q)) :
    q.resumes = true ∧ knows d i q := by
  cases did with
  | wsleep => exact ⟨rfl, h.1⟩
  | rsleep => exact ⟨rfl, h⟩

theorem fifo_leave {r : Int} (did : Does d i killed p (.leave e r)) : e = d := by
  cases did <;> rfl

end

def ValidBuffers (_ : State) : Event Point → Prop
  | .call _ (.pipewrite src n) => Write.Valid ⟨0, src, n⟩
  | .call _ (.piperead dst n) => Read.Valid ⟨0, dst, n⟩
  | _ => True

def fifo : Outline code ValidBuffers where
  free d _ := Ring d
  held d _ i _ p := Ring d ∧ knows d i p
  rest d i _ p := p.resumes = true ∧ knows d i p
  call := by
    intro s i p valid begins
    cases p with
    | pipewrite | piperead => exact ⟨rfl, valid⟩
    | pipeclose => exact ⟨rfl, trivial⟩
    | _ => cases begins
  enter ring _ rest := ⟨ring, rest.2⟩
  go _ _ h acts :=
    have after := fifo_go h.1 h.2 (did acts)
    ⟨after.1, fun _ _ ne _ rest => ⟨rest.1, after.2.knows ne rest.1 rest.2⟩⟩
  wakeup _ _ h acts := ⟨h.1, fifo_wakeup h.2 (did acts)⟩
  sleep _ _ h acts := ⟨h.1, fifo_sleep h.2 (did acts)⟩
  leave _ _ h acts := by
    rw [fifo_leave (did acts)]
    exact ⟨h.1, fun _ _ _ _ rest => rest⟩
  mark _ := ⟨fun _ _ h => h, fun _ rest => rest⟩
  rouse _ := ⟨id, fun _ h => h⟩
  tick _ := ⟨id, id, id⟩

def Point.write : Point → Option Write
  | .wtest w _ _ | .wbody w _ _ | .wfull w _ | .wsleep w _ | .wend w _ | .wleave w _ => some w
  | _ => none

def Point.read : Point → Option Read
  | .rtest r | .rsleep r | .rcopy r _ | .rend r _ | .rleave r _ => some r
  | _ => none

/- In every run with valid buffers: the distance of the counters, the order of the bytes, what
a read that returns has got, and what a write that returns has stored. -/
theorem pipe_is_fifo {s : State} (run : Run code ValidBuffers Boot s) :
    (s.data.nwrite - s.data.nread).toNat ≤ PIPESIZE ∧
    s.data.taken.map (·.byte) <+: s.data.stored.map (·.byte) ∧
    (∀ i p v r, Returns code s i p v → p.read = some r → 0 ≤ v →
      s.data.takenBy r.call = List.range v.toNat ∧
      (v = 0 → r.n ≤ 0 ∨ s.data.nread = s.data.nwrite ∧ s.data.writeopen = false)) ∧
    (∀ i p v w, Returns code s i p v → p.write = some w → 0 ≤ v →
      v = max w.n 0 ∧ s.data.storedBy w.call = (List.range v.toNat).map (fun j => (j, w.src j))) := by
  have inv : fifo.Inv s := by
    refine Outline.Inv.run (fun s boot => ⟨boot.idle, ?_⟩) run
    obtain ⟨page, new⟩ := boot.data
    rw [new]
    exact ⟨Nat.le_refl _, Nat.zero_le _, rfl, rfl, nofun, rfl, nofun, nofun⟩
  have ring : Ring s.data := inv.always (P := Ring) id And.left
  refine ⟨?_, ?_, ?_, ?_⟩
  · have behind := ring.behind
    have room := ring.room
    rw [ring.nread, ring.nwrite, BitVec.toNat_sub, BitVec.toNat_ofNat, BitVec.toNat_ofNat]
    simp only [PIPESIZE] at room ⊢
    omega
  · rw [ring.order]
    exact take_prefix ..
  · rintro i p v r ⟨inside, e, acts⟩ reads positive
    have known := (inv.held inside).2
    cases did acts with
    | rleave =>
      cases reads
      refine ⟨known.1.places, fun zero => known.2 ?_⟩
      exact Int.ofNat_eq_zero.mp zero
    | wfails | rfails => cases positive
    | wleave | cleave => cases reads
  · rintro i p v w ⟨inside, e, acts⟩ writes positive
    have known := (inv.held inside).2
    cases did acts with
    | wleave =>
      cases writes
      exact ⟨Int.le_antisymm known.1.upto (Int.max_le.mpr ⟨known.2, positive⟩), known.1.bytes⟩
    | wfails | rfails => cases positive
    | rleave | cleave => cases writes

/-- Task 1 writes two bytes and is about to return. -/
def twoBytes : List (Event Point) :=
  .call 1 (.pipewrite (fun k => if k = 0 then some 65 else some 66) 2) :: List.replicate 8 (.go 1)

theorem twoBytes_stored :
    ∃ s p w, Run code ValidBuffers Boot s ∧ Returns code s 1 p 2 ∧ p.write = some w ∧
      s.data.storedBy w.call = [(0, some 65), (1, some 66)] := by
  have valid : ∀ s : State, ∀ e ∈ twoBytes, ValidBuffers s e := by
    intro s e mem
    rcases mem_cons.mp mem with rfl | mem
    · intro k _
      dsimp only
      split <;> rfl
    · rw [eq_of_mem_replicate mem]
      trivial
  have run : Run code ValidBuffers Boot (Prog.played (step code) newPipe twoBytes) :=
    Run.play twoBytes newPipe_boot valid rfl
  have returns : Returns code (Prog.played (step code) newPipe twoBytes) 1
      (.wleave ⟨0, fun k => if k = 0 then some 65 else some 66, 2⟩ 2) 2 := ⟨rfl, _, rfl⟩
  exact ⟨_, _, _, run, returns, rfl, ((pipe_is_fifo run).2.2.2 _ _ _ _ returns rfl (by decide)).2⟩

end UvaOs.Pipes
