import UvaOs.Ipc.Pipe

/-! `piperead` advances `nread` before it copies the byte out, so a byte that cannot be copied is
gone. -/
namespace UvaOs.Pipes

open Monitor List

def Pipe.unread (d : Pipe) : List UInt8 :=
  (List.range (d.nwrite - d.nread).toNat).map fun k => d.data ((d.nread + BitVec.ofNat 32 k).toNat % PIPESIZE)

/-- The loop of `piperead`, from index `i` in state `d` to its end: it has copied `out`. -/
inductive Copies (r : Read) : Pipe → Nat → Pipe → Nat → List UInt8 → Prop
  | done {d e : Pipe} {i j : Nat} (task : Nat) (killed : Bool)
      (last : code.act d task killed (.rcopy r i) = .go e (.rend r j)) : Copies r d i e j []
  | next {d e f : Pipe} {i j : Nat} {out : List UInt8} (task : Nat) (killed : Bool)
      (copied : code.act d task killed (.rcopy r i) = .go e (.rcopy r (i + 1)))
      (rest : Copies r e (i + 1) f j out) :
      Copies r d i f j (d.data (d.nread.toNat % PIPESIZE) :: out)

/-- Of the unread bytes the first `j` are copied, and the next reads give the others. -/
def Lossless (d : Pipe) (r : Read) : Prop :=
  ∀ e j out, Copies r d 0 e j out → out = d.unread.take j ∧
    ∀ r', (∀ k, r'.dst k = true) → ∀ f j' out', Copies r' e 0 f j' out' →
      out' = (d.unread.drop j).take r'.n.toNat

section

variable {d e : Pipe} {r : Read} {i j : Nat} {out : List UInt8}

theorem length_unread : d.unread.length = (d.nwrite - d.nread).toNat := by simp [Pipe.unread]

theorem unread_empty : d.Empty ↔ d.unread = [] := by
  rw [← length_eq_zero_iff, length_unread, Pipe.Empty]
  constructor <;> intro h <;> bv_omega

theorem unread_remove (some_ : ¬ d.Empty) :
    d.unread = d.data (d.nread.toNat % PIPESIZE) :: (d.remove r i).unread := by
  have rest : (d.nwrite - d.nread).toNat = (d.nwrite - (d.nread + 1)).toNat + 1 := by
    simp only [Pipe.Empty] at some_
    bv_omega
  simp only [Pipe.unread, Pipe.remove, rest, range_succ_eq_map, map_cons, map_map]
  congr 1
  · simp
  · refine map_congr_left fun k _ => ?_
    have index : d.nread + BitVec.ofNat 32 (k + 1) = d.nread + 1 + BitVec.ofNat 32 k := by
      rw [BitVec.add_assoc, Nat.add_comm, BitVec.ofNat_add]
      rfl
    simp only [Function.comp_apply, Nat.succ_eq_add_one, index]

theorem Copies.spec (copies : Copies r d i e j out) :
    i ≤ j ∧ out = d.unread.take (j - i) ∧ j - i ≤ d.unread.length ∧
      (∀ k : Nat, i ≤ k → k < j → k < r.n ∧ r.dst k = true) ∧
      ((e.unread = d.unread.drop (j - i) ∧ (r.n ≤ j ∨ j - i = d.unread.length)) ∨
        (e.unread = d.unread.drop (j - i + 1) ∧ j - i < d.unread.length ∧ j < r.n ∧ r.dst j = false)) := by
  induction copies with
  | @done d e i j task killed last =>
    cases did last with
    | rdone done => exact ⟨Nat.le_refl _, by simp, by simp, by omega, .inl ⟨by simp, .inl done⟩⟩
    | rempty more empty =>
      have none := unread_empty.mp empty
      exact ⟨Nat.le_refl _, by simp, by simp, by omega, .inl ⟨by simp, .inr (by simp [none])⟩⟩
    | rfault more some_ fails =>
      rw [unread_remove (r := r) (i := i) some_]
      exact ⟨Nat.le_refl _, by simp, by simp, by omega, .inr ⟨by simp, by simp, more, fails⟩⟩
  | @next d e f i j out task killed copied rest ih =>
    cases did copied with
    | rtake more some_ works =>
      obtain ⟨le, out_, fits, good, ends⟩ := ih
      have count : j - i = j - (i + 1) + 1 := by omega
      rw [unread_remove (r := r) (i := i) some_, count]
      refine ⟨by omega, by simp [out_], by simpa using fits, ?_, by simpa using ends⟩
      intro k from_ to_
      rcases Nat.eq_or_lt_of_le from_ with rfl | later
      · exact ⟨more, works⟩
      · exact good k later to_

theorem copies_exists (r : Read) (d : Pipe) (i : Nat) : ∃ e j out, Copies r d i e j out := by
  generalize size : d.unread.length = n
  induction n generalizing d i with
  | zero =>
    have empty : d.Empty := unread_empty.mpr (length_eq_zero_iff.mp size)
    refine ⟨d, i, [], .done 0 false ?_⟩
    simp [code, act, empty]
  | succ n ih =>
    have some_ : ¬ d.Empty := fun empty => by simp [unread_empty.mp empty] at size
    by_cases more : (i : Int) < r.n
    · cases works : r.dst i with
      | false =>
        refine ⟨d.remove r i, i, [], .done 0 false ?_⟩
        simp [code, act, more, some_, works]
      | true =>
        rw [unread_remove (r := r) (i := i) some_, length_cons, Nat.add_right_cancel_iff] at size
        obtain ⟨e, j, out, copies⟩ := ih (d.remove r i) (i + 1) size
        refine ⟨e, j, _, .next 0 false ?_ copies⟩
        simp [code, act, more, some_, works]
    · refine ⟨d, i, [], .done 0 false ?_⟩
      simp [code, act, more]

theorem Copies.all (copies : Copies r d 0 e j out) (works : ∀ k, r.dst k = true) :
    out = d.unread.take r.n.toNat := by
  obtain ⟨-, out_, fits, good, ⟨-, ends⟩ | ⟨-, -, -, fails⟩⟩ := copies.spec
  · have below : j ≤ r.n.toNat := by
      cases j with
      | zero => exact Nat.zero_le _
      | succ j => have := (good j (Nat.zero_le _) (Nat.lt_succ_self j)).1; omega
    rw [out_]
    rcases ends with stop | all
    · congr 1
      omega
    · rw [take_of_length_le (by omega), take_of_length_le (by omega)]
  · cases (works j).symm.trans fails

theorem read_lossless (d : Pipe) (r : Read) :
    Lossless d r ↔ ∀ k : Nat, (k : Int) < r.n → k < d.unread.length → r.dst k = true := by
  constructor
  · intro lossless k below inside
    obtain ⟨e, j, out, copies⟩ := copies_exists r d 0
    obtain ⟨-, -, fits, good, ⟨-, ends⟩ | ⟨rest, lost, -, -⟩⟩ := copies.spec
    · exact (good k (Nat.zero_le _) (by omega)).2
    · -- the next read cannot give what is not in the pipe
      obtain ⟨f, j', out', next⟩ := copies_exists ⟨0, fun _ => true, d.unread.length⟩ e 0
      have given := (lossless e j out copies).2 _ (fun _ => rfl) f j' out' next
      rw [next.all fun _ => rfl, rest] at given
      have sizes := congrArg List.length given
      simp only [length_take, length_drop] at sizes
      omega
  · intro good e j out copies
    obtain ⟨-, out_, fits, -, ⟨rest, -⟩ | ⟨-, lost, below, fails⟩⟩ := copies.spec
    · refine ⟨out_, fun r' works f j' out' next => ?_⟩
      rw [next.all works, rest, Nat.sub_zero]
    · cases (good j below lost).symm.trans fails

end

def oneByte : Pipe := ⟨fun _ => 7, 0, 1, true, true, [], [], 0, fun _ => 0⟩

theorem read_loses : oneByte.unread = [7] ∧ ∃ e, Copies ⟨0, fun _ => false, 1⟩ oneByte 0 e 0 [] ∧ e.unread = [] :=
  ⟨rfl, _, .done 0 false rfl, rfl⟩

end UvaOs.Pipes
