import UvaOs.Fs.Room

/-! A disk that becomes full during a write: what is left behind. -/
namespace UvaOs.Fs

open Bytes Prog FsState List Finset Forest

/-- What a write does to the disk and what it returns: a request out of bounds is refused; else
the first `tot` bytes are in their place, and `tot` is returned. Only the inode itself and blocks
of its tree have changed. -/
structure Graceful (s t : FsState) (inum : Nat) (src : List UInt8) (off n : Nat) (r : Int) : Prop where
  refused : ¬ Accepted s inum off n → r = -1 ∧ t = s
  counted : Accepted s inum off n → ∃ tot : Nat, r = tot ∧ tot ≤ n ∧
    (file t inum).data = splice (file s inum).data off (src.take tot)
  super : t.sb = s.sb
  inodes : ∀ m, m ≠ inum → t.dinode m = s.dinode m
  blocks : ∀ b, t.block b ≠ s.block b → Owned t inum b

section Writei

variable {s t : FsState} {ip inum off n : Nat} {src : List UInt8} {r : Int}

section

variable (h : Sound s) (full : Full s) (c : Cached s ip inum) (small : n < UINT)
include h full c small

theorem writei_refused
    (refused : ¬ Accepted s inum off n) : writei ip src off n s = .ok (-1, s) := by
  have now := current_cached h.table.unique c
  have bound := full.bound inum (c.allocated h.table)
  have limit := maxBytes
  unfold Accepted at refused
  rw [length_data c h.table, length_bytes, now] at refused
  rw [now] at bound
  unfold writei
  rw [run_inode]
  split
  · rfl
  · rename_i go
    rw [if_pos]
    · rfl
    · simp only [UINT] at go small ⊢
      omega

theorem writei_graceful (enough : n ≤ src.length) (run : writei ip src off n s = .ok (r, t)) :
    Graceful s t inum src off n r := by
  rcases writei_run h full c small run with ⟨refused, rfl, rfl⟩ | ⟨accepted, w, u, loop, rfl, rfl⟩
  · exact ⟨fun _ => ⟨rfl, rfl⟩, fun yes => absurd yes refused, rfl, fun _ _ => rfl,
      fun _ ne => absurd rfl ne⟩
  · have within : off ≤ (current s inum).size := by
      have inside := accepted.1
      rwa [length_data c h.table, length_bytes] at inside
    obtain ⟨sound, wrote⟩ := wp_ok (writeLoop_spec n s 0 off h c) loop
    have blocks : Within s u inum := c.2.2.2.1 ▸ wrote.edit.within
    have cached := wrote.cached c
    refine ⟨fun no => absurd accepted no, fun _ => ⟨w.1, rfl, ?_, ?_⟩, wrote.edit.sb, ?_, ?_⟩
    · have most := wrote.most
      omega
    · rw [wrote.file h.table full c sound within enough, Function.update_self]
    · intro m ne
      exact (Function.update_of_ne ne ..).trans (congrFun wrote.edit.dinode m)
    · intro b ne
      have types : (extend w.2 (u.itable ip).copy).type = .free ↔
          (u.itable ip).copy.type = .free := Iff.rfl
      unfold Owned
      rw [stored_forest sound.table.unique cached rfl types]
      exact blocks b ne

theorem writei_provided (enough : n ≤ src.length) (accepted : Accepted s inum off n)
    (run : writei ip src off n s = .ok (r, t)) : Provided s inum off n := by
  rcases writei_run h full c small run with ⟨refused, _⟩ | ⟨_, w, u, loop, _⟩
  · exact absurd accepted refused
  · have outcome := writeLoop_halts enough n s 0 off h c (Nat.zero_le _) (Nat.le_refl _) accepted.2
    have provided := wp_ok outcome loop
    exact provided

end

/-- A write that the disk becomes full in is handled gracefully if and only if the disk does not
become full on one of the index blocks of the doubly-indirect range. -/
theorem full_disk_handled (h : Sound s) (full : Full s) (c : Cached s ip inum)
    (native : isFattype (s.itable ip).copy.type = false) (small : n < UINT)
    (enough : n ≤ src.length) :
    (∃ r t, writei ip src off n s = .ok (r, t) ∧ Graceful s t inum src off n r) ↔
      (Accepted s inum off n → Provided s inum off n) := by
  constructor
  · grind [writei_provided]
  · intro provided
    have ends : ∃ r t, writei ip src off n s = .ok (r, t) := by
      by_cases accepted : Accepted s inum off n
      · refine writei_ends h c native (wp_mono (writeLoop_halts enough n s 0 off h c (Nat.zero_le _)
          (Nat.le_refl _) accepted.2) (fun _ _ _ => trivial) ?_)
        exact fun _ no => no (provided accepted)
      · exact ⟨-1, s, writei_refused h full c small accepted⟩
    obtain ⟨r, t, run⟩ := ends
    exact ⟨r, t, run, writei_graceful h full c small enough run⟩

end Writei

theorem full_disk_handled_two :
    ∃ r t, writei 0 [1, 2] 0 2 mkfsOpen = .ok (r, t) ∧ Graceful mkfsOpen t 2 [1, 2] 0 2 r := by
  obtain ⟨sound, full⟩ := full_run (mkfsOpen_reach ⟨mkfsBig_image, mkfsBig_full⟩)
  refine (full_disk_handled sound full mkfsOpen_cached rfl (by decide) (by decide)).mpr ?_
  intro _ bn mem room
  rw [span_block (by decide) (by decide)] at mem
  obtain rfl := Finset.mem_singleton.mp mem
  rwa [indexWay_outer (by decide), Finset.union_empty]

section Tight

variable {s : FsState} {bits : Nat → Bool}

theorem Sound.fuller (h : Sound s) (more : ∀ b, s.bitmap b = true → bits b = true) :
    Sound { s with bitmap := bits } := by
  refine ⟨⟨h.layout.reserved, h.layout.small, ?_, h.layout.boot⟩,
    ⟨h.table.unique, h.table.range, h.table.typed, h.table.lag⟩, h.exclusive, ?_⟩
  · exact fun b lt => more b (h.layout.used b lt)
  · intro r js node nz
    obtain ⟨data, used⟩ := h.covered r js node nz
    exact ⟨data, more _ used⟩

theorem Full.fuller (h : Full s) : Full { s with bitmap := bits } := { h with }

/- A new file of the image, on a disk with 141 free blocks: enough for 140 blocks of the file and
its indirect block. -/
def mkfsTight : FsState := { mkfsNew .file with bitmap := fun b => !decide (232 ≤ b ∧ b < 373) }

theorem mkfsTight_ready :
    Sound mkfsTight ∧ Full mkfsTight ∧ Cached mkfsTight 0 3 ∧ (file mkfsTight 3).data = [] := by
  obtain ⟨sound, full, cached, files⟩ := mkfsNew_ready (nofun : IType.file ≠ .free)
  refine ⟨sound.fuller ?_, full.fuller, cached, congrArg File.data files⟩
  intro b used
  have low : b < 232 := of_decide_eq_true used
  simp only [Bool.not_eq_true', decide_eq_false_iff_not]
  omega

theorem mkfsTight_spare : spare mkfsTight = 141 := by
  have free : (Finset.range mkfsTight.sb.size).filter (fun b => mkfsTight.bitmap b = false) =
      Finset.Ico 232 373 := by
    ext b
    have size : mkfsTight.sb.size = 15000 := rfl
    have bit : mkfsTight.bitmap b = !decide (232 ≤ b ∧ b < 373) := rfl
    rw [Finset.mem_filter, Finset.mem_range, Finset.mem_Ico, size, bit, Bool.not_eq_false',
      decide_eq_true_eq]
    omega
  rw [spare, free, Nat.card_Ico]

theorem mkfsTight_ptr (k : Nat) (js : List Nat) : (forest mkfsTight).ptr (3, k) js = 0 := by
  obtain ⟨sound, _, cached, _⟩ := mkfsTight_ready
  have root : (forest mkfsTight).root (3, k) = 0 := by
    unfold forest
    dsimp only
    rw [current_cached sound.table.unique cached]
    split <;> rfl
  unfold ptr
  rw [root]
  induction js with
  | nil => rfl
  | cons j js ih => rw [foldl_cons, child_zero, ih]

/- The nodes on the ways to the first 140 blocks of a file. -/
def outerNode (inum i : Nat) : (Nat × Nat) × List Nat :=
  if i < NDIRECT then ((inum, i), [])
  else if i < NDIRECT + NINDIRECT then ((inum, NDIRECT), [i - NDIRECT])
  else ((inum, NDIRECT), [])

theorem ways_outer (inum : Nat) : ways inum (Finset.range (NDIRECT + NINDIRECT)) =
      (Finset.range (NDIRECT + NINDIRECT + 1)).image (outerNode inum) := by
  ext x
  simp only [ways, Finset.mem_biUnion, Finset.mem_image, Finset.mem_range, mem_way]
  constructor
  · rintro ⟨bn, lt, root, pre⟩
    by_cases direct : bn < NDIRECT
    · rw [leaf_direct direct] at root pre
      refine ⟨bn, by omega, ?_⟩
      rw [outerNode, if_pos direct]
      exact (Prod.ext root (prefix_nil.mp pre)).symm
    · have single : bn - NDIRECT < NINDIRECT := by omega
      rw [leaf_indirect direct single] at root pre
      rcases prefix_concat_iff.mp (show x.2 <+: [] ++ [bn - NDIRECT] from pre) with whole | top
      · refine ⟨bn, by omega, ?_⟩
        rw [outerNode, if_neg direct, if_pos lt]
        exact (Prod.ext root whole).symm
      · refine ⟨NDIRECT + NINDIRECT, by omega, ?_⟩
        exact (Prod.ext root (prefix_nil.mp top)).symm
  · rintro ⟨i, lt, rfl⟩
    unfold outerNode
    split
    · rename_i direct
      refine ⟨i, by omega, ?_⟩
      rw [leaf_direct direct]
      exact ⟨rfl, prefix_refl _⟩
    · rename_i direct
      split
      · rename_i below
        refine ⟨i, below, ?_⟩
        rw [leaf_indirect direct (by omega)]
        exact ⟨rfl, prefix_refl _⟩
      · exact ⟨NDIRECT, by decide, rfl, nil_prefix⟩

theorem card_ways_outer (inum : Nat) :
    (ways inum (Finset.range (NDIRECT + NINDIRECT))).card = NDIRECT + NINDIRECT + 1 := by
  rw [ways_outer, Finset.card_image_of_injOn, Finset.card_range]
  intro i hi j hj same
  simp only [coe_range, Set.mem_Iio] at hi hj
  unfold outerNode at same
  split at same <;> split at same <;> (try split at same) <;> (try split at same) <;>
    simp only [Prod.mk.injEq, List.cons.injEq, reduceCtorEq, and_false, and_true, true_and] at same <;>
    omega

theorem ways_root (inum : Nat) (bns : Finset Nat) : ∀ x ∈ ways inum bns, x.1.1 = inum := by
  intro x hx
  obtain ⟨bn, _, mem⟩ := mem_biUnion.mp hx
  rw [(mem_way.mp mem).1]

theorem doubly_notMem_outer (inum : Nat) :
    ((inum, NDIRECT + 1), []) ∉ ways inum (Finset.range (NDIRECT + NINDIRECT)) := by
  rw [ways_outer]
  intro hx
  obtain ⟨i, _, same⟩ := mem_image.mp hx
  unfold outerNode at same
  split at same
  · simp only [Prod.mk.injEq, and_true, true_and] at same
    omega
  · split at same <;> simp at same

theorem missing_own {inum : Nat} {A : Finset ((Nat × Nat) × List Nat)}
    (empty : ∀ k js, (forest s).ptr (inum, k) js = 0) (own : ∀ x ∈ A, x.1.1 = inum) :
    missing s A = A.card := by
  rw [missing, lack, filter_true_of_mem]
  rintro ⟨⟨m, k⟩, js⟩ hx
  obtain rfl : m = inum := own _ hx
  exact empty k js

theorem missing_outer {inum : Nat} (empty : ∀ k js, (forest s).ptr (inum, k) js = 0) :
    missing s (ways inum (Finset.range (NDIRECT + NINDIRECT))) = 141 ∧
      142 ≤ missing s (ways inum (Finset.range (NDIRECT + NINDIRECT)) ∪
        indexWay inum (NDIRECT + NINDIRECT)) := by
  have own := ways_root inum (Finset.range (NDIRECT + NINDIRECT))
  have count : (ways inum (Finset.range (NDIRECT + NINDIRECT))).card = 141 := card_ways_outer inum
  have top := doubly_notMem_outer inum
  generalize ways inum (Finset.range (NDIRECT + NINDIRECT)) = W at own count top ⊢
  refine ⟨(missing_own empty own).trans count, ?_⟩
  have sub : insert ((inum, NDIRECT + 1), []) W ⊆ W ∪ indexWay inum (NDIRECT + NINDIRECT) := by
    refine insert_subset (mem_union_right _ ?_) subset_union_left
    rw [indexWay, if_neg (Nat.lt_irrefl _)]
    exact mem_way.mpr ⟨rfl, nil_prefix⟩
  have grown : missing s (insert ((inum, NDIRECT + 1), []) W) = 142 := by
    rw [missing_own empty, card_insert_of_notMem top, count]
    intro x hx
    rcases mem_insert.mp hx with rfl | hx
    · rfl
    · exact own x hx
  rw [← grown]
  exact card_le_card (lack_subset sub)

theorem full_disk_halts : Sound mkfsTight ∧ Full mkfsTight ∧ Cached mkfsTight 0 3 ∧
    Accepted mkfsTight 3 0 (141 * BSIZE) ∧
    ¬ ∃ r t, writei 0 (List.replicate (141 * BSIZE) 7) 0 (141 * BSIZE) mkfsTight = .ok (r, t) := by
  obtain ⟨sound, full, cached, empty⟩ := mkfsTight_ready
  have accepted : Accepted mkfsTight 3 0 (141 * BSIZE) := by
    rw [Accepted, empty]
    decide
  refine ⟨sound, full, cached, accepted, ?_⟩
  rintro ⟨r, t, run⟩
  have length : 141 * BSIZE ≤ (List.replicate (141 * BSIZE) (7 : UInt8)).length := by
    rw [length_replicate]
  have provided := writei_provided sound full cached (by decide) length accepted run
  have early : before 0 (141 * BSIZE) (NDIRECT + NINDIRECT) = Finset.range (NDIRECT + NINDIRECT) := by
    ext b
    rw [before, Finset.mem_filter, Finset.mem_range]
    refine ⟨fun h => h.2, fun lt => ⟨mem_image.mpr ⟨b * BSIZE, ?_, ?_⟩, lt⟩⟩
    · rw [mem_Ico]
      simp only [BSIZE, NDIRECT, NINDIRECT] at *
      omega
    · exact Nat.mul_div_cancel b (by decide)
  have last : NDIRECT + NINDIRECT ∈ span 0 (141 * BSIZE) := by
    refine mem_image.mpr ⟨140 * BSIZE, ?_, ?_⟩ <;> simp [BSIZE, NDIRECT, NINDIRECT]
  have room := provided _ last
  obtain ⟨count, more⟩ := missing_outer mkfsTight_ptr
  rw [early, mkfsTight_spare, count] at room
  have beyond := more.trans (room (Nat.le_refl _))
  omega

end Tight

end UvaOs.Fs
