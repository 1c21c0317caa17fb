import UvaOs.Fs.Room

/-! A write whose source faults. `either_copyin` copies what it can read before it fails, straight
into the buffer of the block, and `writei` then releases the buffer without a `log_write`: the
cache holds bytes that the disk does not have. -/
namespace UvaOs.Fs.Torn

open Bytes Prog FsState List

/- A block whose buffer was changed and not written, with what the disk holds of it. -/
abbrev Unwritten := Option (Nat × Buffer)

/-- The loop of `writei` with the buffer that a fault leaves behind. -/
def writeLoop (ip : Nat) (src : List UInt8) : Nat → Nat → Nat → Nat → FsM ((Nat × Nat) × Unwritten)
  | 0, tot, off, _ => pure ((tot, off), none)
  | fuel + 1, tot, off, n =>
    if tot < n then do
      let addr ← bmap ip (off / BSIZE)
      if addr = 0 then pure ((tot, off), none)
      else do
        let bp ← bread addr
        let m := min (n - tot) (BSIZE - off % BSIZE)
        logWrite addr (blit bp (off % BSIZE) ((src.drop tot).take m))
        if tot + m ≤ src.length then writeLoop ip src fuel (tot + m) (off + m) n
        else pure ((tot, off), some (addr, bp))
    else pure ((tot, off), none)

def unwritten (ip : Nat) (src : List UInt8) (off n : Nat) (s : FsState) : Unwritten :=
  match writeLoop ip src n 0 off n s with
  | .ok (r, _) => r.2
  | .error _ => none

def evicted (s : FsState) : Unwritten → FsState
  | none => s
  | some (b, old) => s.putBlock b old

/-- The file holds the old contents with the first `tot` bytes of the range replaced, in the
cache and on the disk, which agree on every block. -/
structure Intact (s t disk : FsState) (inum : Nat) (src : List UInt8) (off tot : Nat) : Prop where
  cached : (file t inum).data = splice (file s inum).data off (src.take tot)
  reread : (file disk inum).data = splice (file s inum).data off (src.take tot)
  coherent : disk.block = t.block

/-- The source ends in the middle of a piece: one of its bytes goes to the block in which it
faults, finds room there and differs from the byte of the file. -/
def Tears (s : FsState) (inum : Nat) (src : List UInt8) (off n : Nat) : Prop :=
  src.length < n ∧ ∃ i < src.length, (off + i) / BSIZE = (off + src.length) / BSIZE ∧
    needs s inum off (i + 1) ≤ spare s ∧ src[i]? ≠ some (byteAt s inum (off + i))

theorem writeLoop_fst (ip : Nat) (src : List UInt8) (n fuel : Nat) :
    ∀ (s : FsState) (tot off : Nat), Fs.writeLoop ip src fuel tot off n s =
      (writeLoop ip src fuel tot off n s).map (fun r => (r.1.1, r.2)) := by
  induction fuel with
  | zero =>
    intro s tot off
    rfl
  | succ fuel ih =>
    intro s tot off
    rw [Fs.writeLoop, writeLoop]
    split
    · cases call : bmap ip (off / BSIZE) s with
      | error e =>
        rw [run_bind_error call, run_bind_error call]
        rfl
      | ok p =>
        obtain ⟨addr, t⟩ := p
        rw [run_bind call, run_bind call]
        by_cases full : addr = 0
        · rw [if_pos full, if_pos full]
          rfl
        · rw [if_neg full, if_neg full]
          by_cases fits : tot + min (n - tot) (BSIZE - off % BSIZE) ≤ src.length
          · simp only [if_pos fits]
            exact ih ..
          · simp only [if_neg fits]
            rfl
    · rfl

section Loop

variable {s t : FsState} {ip inum off n tot : Nat} {src : List UInt8}

theorem evicted_written (t : FsState) (inum : Nat) (src : List UInt8) (tot off n : Nat) :
    evicted (written t inum src tot off n)
      (some (blockOf t inum (off / BSIZE), t.block (blockOf t inum (off / BSIZE)))) = t := by
  unfold evicted written putBlock
  simp

theorem evicted_same (s : FsState) (x : Unwritten) (same : (evicted s x).block = s.block) :
    evicted s x = s := by
  cases x with
  | none => rfl
  | some p =>
    change { s with block := (evicted s (some p)).block } = s
    rw [same]

theorem byteAt_absent (h : Sound s) (i : Nat) (absent : ¬ Mapped s inum i) :
    byteAt s inum i = 0 := by
  unfold byteAt
  rw [not_not.mp absent, h.layout.boot]
  rfl

theorem byteAt_grown (h : Sound s) (sound : Sound t) (grow : Grow s t ip) (i : Nat) :
    byteAt t inum i = byteAt s inum i := by
  grind [grow.byteAt, grow.byteAt_blank, byteAt_absent]

theorem tears_nothing (le : n ≤ tot) : ¬ Tears s inum (src.drop tot) off (n - tot) := by
  rintro ⟨lt, i, hi, _⟩
  omega

theorem tears_full (few : spare s < needs s inum off 1) : ¬ Tears s inum src off n := by
  rintro ⟨_, i, _, _, room, _⟩
  exact absurd (needs_mono s inum off (Nat.le_add_left 1 i)) (by omega)

theorem tears_fault (h : Sound s) (sound : Sound t) (grow : Grow s t ip) (more : tot < n)
    (room : needs s inum off 1 ≤ spare s) (short : ¬ tot + chunk tot off n ≤ src.length) :
    (t.block = (written t inum src tot off n).block) ↔
      ¬ Tears s inum (src.drop tot) off (n - tot) := by
  obtain ⟨_, _, inBlock, _⟩ := @chunk_facts tot off n more
  have last : ((src.drop tot).take (chunk tot off n)) = src.drop tot :=
    take_of_length_le (by rw [length_drop]; omega)
  have old : ∀ k < src.length - tot, t.block (blockOf t inum (off / BSIZE)) (off % BSIZE + k) =
      byteAt s inum (off + k) := by
    intro k lt
    have place : (off + k) / BSIZE = off / BSIZE ∧ (off + k) % BSIZE = off % BSIZE + k := by
      simp only [BSIZE] at inBlock ⊢
      omega
    rw [← byteAt_grown h sound grow, byteAt, place.1, place.2]
  have fault : ∀ k ≤ src.length - tot, (off + k) / BSIZE = off / BSIZE := by
    intro k le
    simp only [BSIZE] at inBlock ⊢
    omega
  constructor
  · rintro same ⟨_, k, lt, _, _, differs⟩
    rw [length_drop] at lt
    refine differs ?_
    have byte := congrFun (congrFun same (blockOf t inum (off / BSIZE))) (off % BSIZE + k)
    rw [old k lt, written, putBlock_block, Function.update_self, last,
      blit_inside (Nat.le_add_right ..) (by rw [length_drop]; omega)] at byte
    rw [byte, getElem?_eq_getElem (by rw [length_drop]; omega)]
    simp
  · intro clean
    have bytes : ∀ k < src.length - tot, (src.drop tot)[k]? = some (byteAt s inum (off + k)) := by
      intro k lt
      by_contra differs
      refine clean ⟨by rw [length_drop]; omega, k, by rw [length_drop]; exact lt, ?_, ?_,
        differs⟩
      · rw [length_drop, fault k (by omega), fault _ (Nat.le_refl _)]
      · rw [needs, span_block (Nat.succ_pos k) (by omega), ← span_one]
        exact room
    rw [written, putBlock_block, last, eq_comm, Function.update_eq_self_iff]
    funext j
    unfold blit
    split
    · rename_i low
      by_cases lt : j - off % BSIZE < src.length - tot
      · rw [bytes _ lt, Option.getD_some, ← old _ lt, Nat.add_sub_of_le low]
      · rw [getElem?_eq_none (by rw [length_drop]; omega), Option.getD_none]
    · rfl

theorem tears_next (h : Sound s) (sound : Sound t) (grow : Grow s t ip) (more : tot < n)
    (here : blockOf t inum (off / BSIZE) ≠ 0)
    (spent : Forest.Spent (forest s) (forest (written t inum src tot off n)) (spare s)
      (spare (written t inum src tot off n)) (ways inum {off / BSIZE}))
    (fits : tot + chunk tot off n ≤ src.length) :
    Tears (written t inum src tot off n) inum (src.drop (tot + chunk tot off n))
      (off + chunk tot off n) (n - (tot + chunk tot off n)) ↔
      Tears s inum (src.drop tot) off (n - tot) := by
  obtain ⟨pos, within, inBlock, boundary⟩ := @chunk_facts tot off n more
  have byte : ∀ k, byteAt (written t inum src tot off n) inum (off + chunk tot off n + k) =
      byteAt s inum (off + (chunk tot off n + k)) := by
    intro k
    rw [written_outside sound here (.inr (by omega)), byteAt_grown h sound grow, Nat.add_assoc]
  have room : ∀ k, needs (written t inum src tot off n) inum (off + chunk tot off n) k ≤
      spare (written t inum src tot off n) ↔
      needs s inum off (chunk tot off n + k) ≤ spare s := by
    intro k
    have cost := spent.card_union (ways_nodes s inum (span (off + chunk tot off n) k))
    have paid := spent.count
    rw [← ways_union, ← span_block pos inBlock, ← span_add] at cost
    rw [← span_block pos inBlock] at paid
    unfold needs
    omega
  unfold Tears
  simp only [length_drop, getElem?_drop]
  constructor
  · rintro ⟨lt, k, hk, same, enough, differs⟩
    refine ⟨by omega, chunk tot off n + k, by omega, ?_, (room (k + 1)).mp enough, ?_⟩
    · rwa [show off + (src.length - tot) =
        off + chunk tot off n + (src.length - (tot + chunk tot off n)) by omega, ← Nat.add_assoc]
    · rwa [byte, Nat.add_assoc] at differs
  · rintro ⟨lt, i, hi, same, enough, differs⟩
    -- the fault is in a later block, so the byte is behind this piece
    have behind : chunk tot off n ≤ i := by
      have next := boundary (by omega)
      simp only [BSIZE] at same inBlock next
      omega
    obtain ⟨k, rfl⟩ := Nat.exists_eq_add_of_le behind
    refine ⟨by omega, k, by omega, ?_, (room (k + 1)).mpr enough, ?_⟩
    · rwa [show off + (src.length - tot) =
        off + chunk tot off n + (src.length - (tot + chunk tot off n)) by omega,
        ← Nat.add_assoc] at same
    · rwa [byte, Nat.add_assoc]

theorem written_append (fits : tot + chunk tot off n ≤ src.length) (more : List UInt8) :
    written t inum (src ++ more) tot off n = written t inum src tot off n := by
  unfold written
  rw [drop_append_of_le_length (by omega), take_append_of_le_length (by simp; omega)]

theorem writeLoop_torn (fuel : Nat) :
    ∀ (s : FsState) (tot off : Nat), Sound s → Cached s ip inum → n - tot ≤ fuel →
      wp (writeLoop ip src fuel tot off n) (fun r u => Sound (evicted u r.2) ∧
        Wrote s (evicted u r.2) ip inum (src ++ List.replicate n 0) tot off n r.1 ∧
        r.1.1 ≤ max tot src.length ∧
        ((evicted u r.2).block = u.block ↔ ¬ Tears s inum (src.drop tot) off (n - tot))) Benign s := by
  have nothing : ∀ (s : FsState) (tot off : Nat), Sound s → n ≤ tot → Sound s ∧
      Wrote s s ip inum (src ++ List.replicate n 0) tot off n (tot, off) ∧ tot ≤ max tot src.length ∧
      (s.block = s.block ↔ ¬ Tears s inum (src.drop tot) off (n - tot)) := fun s tot off h le =>
    ⟨h, (Grow.refl s ip).wrote, Nat.le_max_left .., iff_of_true rfl (tears_nothing le)⟩
  induction fuel with
  | zero =>
    intro s tot off h _ le
    exact nothing s tot off h (by omega)
  | succ fuel ih =>
    intro s tot off h c fuel
    rw [writeLoop]
    split <;> rename_i more
    · obtain ⟨pos, within, _, _⟩ := @chunk_facts tot off n more
      refine wp_call (bmap_spec (off / BSIZE) h c) ?_
      rintro addr t ⟨sound, grow, rfl, paid⟩
      have cached := grow.cached c
      have room := paid.done_iff
      rw [← ways_singleton, ← span_one] at room
      split <;> rename_i here
      · exact ⟨sound, grow.wrote, Nat.le_max_left .., iff_of_true rfl
          (tears_full (Nat.lt_of_not_le (fun le => room.mpr le here)))⟩
      · have sound' : Sound (written t inum src tot off n) := sound.putData here
        unfold bread logWrite
        simp only [wp_bind, wp_get, wp_pure, wp_modify]
        change wp (if tot + chunk tot off n ≤ src.length then _ else _) _ _
          (written t inum src tot off n)
        split <;> rename_i fits
        · have spent : Forest.Spent (forest s) (forest (written t inum src tot off n)) (spare s)
              (spare (written t inum src tot off n)) (ways inum {off / BSIZE}) := by
            rw [ways_singleton]
            exact (paid.spent here).congr (fun _ => rfl) (putData_forest _ sound)
          refine wp_mono (ih _ (tot + chunk tot off n) (off + chunk tot off n) sound' cached
            (by omega)) ?_ (fun _ e => e)
          rintro r u ⟨soundU, rest, most, torn⟩
          rw [← written_append fits (List.replicate n 0)] at rest
          refine ⟨soundU, rest.cons sound grow cached here more (by simp; omega), by omega, ?_⟩
          rw [torn, tears_next h sound grow more here spent fits]
        · change Sound (evicted _ _) ∧ Wrote s (evicted _ _) .. ∧ _ ∧ ((evicted _ _).block = _ ↔ _)
          rw [evicted_written]
          exact ⟨sound, grow.wrote, Nat.le_max_left ..,
            tears_fault h sound grow more (room.mp here) fits⟩
    · exact nothing s tot off h (by omega)

end Loop

section Writei

variable {s t : FsState} {ip inum off n : Nat} {src : List UInt8} {r : Int}

theorem faulting_write_intact (h : Sound s) (full : Full s) (c : Cached s ip inum) (small : n < UINT)
    (run : writei ip src off n s = .ok (r, t)) : (∀ tot : Nat, r = tot → tot < n →
      Intact s t (evicted t (unwritten ip src off n s)) inum src off tot) ↔
      (Accepted s inum off n → ¬ Tears s inum src off n) := by
  rcases writei_run h full c small run with ⟨refused, rfl, rfl⟩ | ⟨accepted, w, u, loop, rfl, rfl⟩
  · exact ⟨fun _ accepted => absurd accepted refused, fun _ tot no => by omega⟩
  · have within : off ≤ (current s inum).size := by
      have inside := accepted.1
      rwa [length_data c h.table, length_bytes] at inside
    obtain ⟨x, ran⟩ : ∃ x, writeLoop ip src n 0 off n s = .ok ((w, x), u) := by
      rw [writeLoop_fst] at loop
      cases own : writeLoop ip src n 0 off n s with
      | error e =>
        rw [own] at loop
        cases loop
      | ok p =>
        rw [own] at loop
        cases loop
        exact ⟨_, rfl⟩
    have left : unwritten ip src off n s = x := by
      unfold unwritten
      rw [ran]
    obtain ⟨sound, wrote, most, torn⟩ :=
      wp_ok (writeLoop_torn n s 0 off h c (by omega)) ran
    rw [drop_zero, Nat.sub_zero] at torn
    have taken : w.1 ≤ src.length := by simpa using most
    have disk : evicted (stored u ip inum (extend w.2)) x =
        stored (evicted u x) ip inum (extend w.2) := by
      cases x <;> rfl
    have data : (file (stored (evicted u x) ip inum (extend w.2)) inum).data =
        splice (file s inum).data off (src.take w.1) := by
      rw [wrote.file h.table full c sound within (by simp), Function.update_self,
        take_append_of_le_length taken]
    rw [left, disk]
    constructor
    · intro intact _ tears
      have lt := tears.1
      exact torn.mp (intact w.1 rfl (by omega)).coherent tears
    · intro clean tot e _
      obtain rfl := Int.ofNat.inj e
      have same := evicted_same u x (torn.mpr (clean accepted))
      rw [same] at data ⊢
      exact ⟨data, data, rfl⟩

end Writei

theorem faulting_write_intact_two : ∃ r t, writei 0 [1, 2] 0 2 mkfsOpen = .ok (r, t) ∧
    ((∀ tot : Nat, r = tot → tot < 2 → Intact mkfsOpen t
      (evicted t (unwritten 0 [1, 2] 0 2 mkfsOpen)) 2 [1, 2] 0 tot) ↔
      (Accepted mkfsOpen 2 0 2 → ¬ Tears mkfsOpen 2 [1, 2] 0 2)) := by
  obtain ⟨sound, full⟩ := full_run (mkfsOpen_reach ⟨mkfsBig_image, mkfsBig_full⟩)
  exact ⟨_, _, rfl, faulting_write_intact sound full mkfsOpen_cached (by decide) rfl⟩

/- One of two bytes can be read: the call returns 0, and the byte is in the buffer. -/
theorem prefix_lost : ∃ t, writei 0 [1] 0 2 mkfsOpen = .ok (0, t) ∧
    ¬ Intact mkfsOpen t (evicted t (unwritten 0 [1] 0 2 mkfsOpen)) 2 [1] 0 0 := by
  refine ⟨_, rfl, fun k => absurd (congrFun (congrFun k.coherent ((mkfsOpen.itable 0).copy.addrs 0)) 0)
    (by decide)⟩

end UvaOs.Fs.Torn
