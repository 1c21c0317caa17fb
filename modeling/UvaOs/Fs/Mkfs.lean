import UvaOs.Fs.File

/-! The disk as mkfs leaves it. mkfs hands out data blocks one after the other from
the end of the metadata, so the image of a single host file can be written down:
the root directory, the blocks of the file in order, and each index block right
before the first block it leads to. -/
namespace UvaOs.Fs

open Bytes Prog FsState Forest

/-- A well-formed disk before any inode is in memory: the metadata blocks are
marked used, and the pointers are data blocks, marked used and distinct. -/
structure Image (s : FsState) : Prop where
  layout : Layout s
  idle : ∀ i, (s.itable i).ref = 0
  exclusive : (forest s).Exclusive
  covered : (forest s).Covered (fun b => InData s b ∧ s.bitmap b = true)

theorem Image.sound {s : FsState} (h : Image s) : Sound s := by
  have none : ∀ i, ¬ 0 < (s.itable i).ref := by grind [h.idle]
  refine { h with table := ⟨?_, ?_, ?_, ?_⟩ }
  · intro i j _ _ ri
    exact absurd ri (none i)
  · intro i _ ri
    exact absurd ri (none i)
  · intro i m c
    exact absurd c.2.1 (none i)
  · intro i m c
    exact absurd c.2.1 (none i)

/- FSSIZE, the metadata blocks in front of the data, and NINODES. -/
def mkfsSuper : Superblock := ⟨15000, 15000 - 87, 200⟩

def emptySlot : Inode := ⟨0, 0, 0, false, .zero⟩

/- `ialloc` of mkfs gives every inode one link. -/
def mkfsRoot : Dinode := ⟨.dir, 0, 0, 1, BSIZE, fun k => if k = 0 then 87 else 0⟩

/- The first block beyond the single-indirect range is the last of this file. -/
def mkfsFile : Dinode :=
  ⟨.file, 0, 0, 1, 141 * BSIZE, fun k => if k < 13 then 88 + k else if k = 13 then 229 else 0⟩

def mkfsBlock (b : Nat) : Buffer :=
  if b = 100 then ofWords (fun j => 101 + j)
  else if b = 229 then ofWords (fun j => if j = 0 then 230 else 0)
  else if b = 230 then ofWords (fun j => if j = 0 then 231 else 0)
  else zeros

def mkfsBig : FsState where
  sb := mkfsSuper
  bitmap b := decide (b < 232)
  dinode m := if m = 1 then mkfsRoot else if m = 2 then mkfsFile else .zero
  block := mkfsBlock
  itable _ := emptySlot

section Big

def mkfsNode (b : Nat) : (Nat × Nat) × List Nat :=
  if b = 87 then ((1, 0), [])
  else if b < 101 then ((2, b - 88), [])
  else if b < 229 then ((2, 12), [b - 101])
  else if b = 229 then ((2, 13), [])
  else if b = 230 then ((2, 13), [0])
  else ((2, 13), [0, 0])

theorem mkfsBig_current (m : Nat) : current mkfsBig m = mkfsBig.dinode m := by
  apply current_uncached
  intro i c
  exact absurd c.2.1 (Int.lt_irrefl 0)

theorem mkfsBig_root (m k : Nat) : (forest mkfsBig).root (m, k) =
    if m = 1 ∧ k = 0 then 87
    else if m = 2 ∧ k < 13 then 88 + k
    else if m = 2 ∧ k = 13 then 229 else 0 := by
  simp only [forest, mkfsBig_current]
  by_cases one : m = 1
  · subst one
    simp [mkfsBig, mkfsRoot, mkfsSuper]
    omega
  · by_cases two : m = 2
    · subst two
      simp only [mkfsBig, mkfsFile, mkfsSuper]
      by_cases low : k < 13
      · simp [low]
        omega
      · by_cases last : k = 13
        · simp [last]
        · simp [low, last]
    · simp [mkfsBig, one, two, Dinode.zero]

theorem word_mkfsBlock {j : Nat} (b : Nat) (hj : j < 128) : word (mkfsBlock b) j =
    if b = 100 then 101 + j else if b = 229 ∧ j = 0 then 230
      else if b = 230 ∧ j = 0 then 231 else 0 := by
  unfold mkfsBlock
  by_cases first : b = 100
  · rw [if_pos first, if_pos first]
    have small : 101 + j < 2 ^ 32 := by omega
    exact word_ofWords _ _ small
  · rw [if_neg first, if_neg first]
    by_cases second : b = 229
    · have small : (if j = 0 then 230 else 0) < 2 ^ 32 := by split <;> decide
      rw [if_pos second, word_ofWords _ j small]
      by_cases z : j = 0
      · simp [second, z]
      · simp [z]
    · rw [if_neg second]
      by_cases third : b = 230
      · have small : (if j = 0 then 231 else 0) < 2 ^ 32 := by split <;> decide
        rw [if_pos third, word_ofWords _ j small]
        simp [third]
      · simp [second, third, word_zeros]

theorem mkfsBig_child {b j : Nat} (nz : child (forest mkfsBig).word b j ≠ 0) :
    j < 128 ∧ ((b = 100 ∧ child (forest mkfsBig).word b j = 101 + j) ∨
      (b = 229 ∧ j = 0 ∧ child (forest mkfsBig).word b j = 230) ∨
      (b = 230 ∧ j = 0 ∧ child (forest mkfsBig).word b j = 231)) := by
  have parent : b ≠ 0 := by
    rintro rfl
    exact nz (child_zero _ j)
  rw [child_of_ne parent] at nz ⊢
  have hj : j < 128 := by
    by_contra out
    exact nz (if_neg out)
  have value : (forest mkfsBig).word b j = word (mkfsBlock b) j := if_pos hj
  rw [value, word_mkfsBlock b hj] at nz ⊢
  refine ⟨hj, ?_⟩
  by_cases first : b = 100
  · exact .inl ⟨first, if_pos first⟩
  · grind

theorem mkfsBig_node {r : Nat × Nat} {js : List Nat} (nz : (forest mkfsBig).ptr r js ≠ 0) :
    87 ≤ (forest mkfsBig).ptr r js ∧ (forest mkfsBig).ptr r js < 232 ∧
      mkfsNode ((forest mkfsBig).ptr r js) = (r, js) := by
  induction js using List.reverseRecOn with
  | nil =>
    obtain ⟨m, k⟩ := r
    rw [ptr_nil, mkfsBig_root] at nz ⊢
    by_cases top : m = 1 ∧ k = 0
    · rw [if_pos top, top.1, top.2]
      decide
    · rw [if_neg top] at nz ⊢
      by_cases low : m = 2 ∧ k < 13
      · rw [if_pos low]
        refine ⟨by omega, by omega, ?_⟩
        have index : 88 + k - 88 = k := by omega
        rw [mkfsNode, if_neg (by omega), if_pos (by omega), index, low.1]
      · rw [if_neg low] at nz ⊢
        by_cases last : m = 2 ∧ k = 13
        · rw [if_pos last, last.1, last.2]
          decide
        · exact absurd (if_neg last) nz
  | append_singleton js j ih =>
    rw [ptr_snoc] at nz ⊢
    have parent : (forest mkfsBig).ptr r js ≠ 0 := by
      intro z
      rw [z] at nz
      exact nz (child_zero _ j)
    obtain ⟨_, _, at_parent⟩ := ih parent
    obtain ⟨hj, ⟨e, value⟩ | ⟨e, rfl, value⟩ | ⟨e, rfl, value⟩⟩ := mkfsBig_child nz
    · rw [value]
      rw [e] at at_parent
      cases at_parent
      have index : 101 + j - 101 = j := by omega
      refine ⟨by omega, by omega, ?_⟩
      rw [mkfsNode, if_neg (by omega), if_neg (by omega), if_pos (by omega), index]
      rfl
    · rw [value]
      rw [e] at at_parent
      cases at_parent
      decide
    · rw [value]
      rw [e] at at_parent
      cases at_parent
      decide

theorem mkfsBig_locate {b : Nat} (lo : 87 ≤ b) (hi : b < 232) :
    (forest mkfsBig).IsNode (mkfsNode b).1 (mkfsNode b).2 ∧
      (forest mkfsBig).ptr (mkfsNode b).1 (mkfsNode b).2 = b := by
  have entry : ∀ k js j, (forest mkfsBig).ptr (2, k) js ≠ 0 → j < 128 →
      (forest mkfsBig).ptr (2, k) (js ++ [j]) =
        word (mkfsBlock ((forest mkfsBig).ptr (2, k) js)) j := fun k js j => ptr_entry
  have single : (forest mkfsBig).ptr (2, 12) [] = 100 := mkfsBig_root 2 12
  have double : (forest mkfsBig).ptr (2, 13) [] = 229 := mkfsBig_root 2 13
  have second : (forest mkfsBig).ptr (2, 13) [0] = 230 := by
    have step := entry 13 [] 0 (by rw [double]; decide) (by decide)
    rw [double, word_mkfsBlock _ (by decide)] at step
    exact step
  unfold mkfsNode
  by_cases h87 : b = 87
  · rw [if_pos h87, h87]
    exact ⟨Nat.zero_le _, mkfsBig_root 1 0⟩
  rw [if_neg h87]
  by_cases direct : b < 101
  · rw [if_pos direct]
    refine ⟨Nat.zero_le _, (mkfsBig_root 2 (b - 88)).trans ?_⟩
    rw [if_neg (by omega), if_pos ⟨rfl, by omega⟩]
    omega
  rw [if_neg direct]
  by_cases indirect : b < 229
  · rw [if_pos indirect]
    refine ⟨Nat.le_refl 1, ?_⟩
    have step := entry 12 [] (b - 101) (by rw [single]; decide) (by omega)
    rw [single, word_mkfsBlock _ (by omega), if_pos rfl] at step
    exact step.trans (by omega)
  rw [if_neg indirect]
  by_cases h229 : b = 229
  · rw [if_pos h229, h229]
    exact ⟨Nat.zero_le _, double⟩
  rw [if_neg h229]
  by_cases h230 : b = 230
  · rw [if_pos h230, h230]
    exact ⟨Nat.le_succ 1, second⟩
  rw [if_neg h230]
  refine ⟨Nat.le_refl 2, ?_⟩
  have step := entry 13 [0] 0 (by rw [second]; decide) (by decide)
  rw [second, word_mkfsBlock _ (by decide)] at step
  exact step.trans (by simp; omega)

theorem mkfsBig_image : Image mkfsBig := by
  refine ⟨⟨by decide, by decide, ?_, rfl⟩, fun _ => rfl, ?_, ?_⟩
  · intro b low
    have small : b < 87 := low
    exact decide_eq_true (by omega)
  · intro r js r' js' _ _ nz e
    have here := (mkfsBig_node nz).2.2
    have there := (mkfsBig_node (e ▸ nz)).2.2
    rw [e, there] at here
    cases here
    exact ⟨rfl, rfl⟩
  · intro r js _ nz
    obtain ⟨lo, hi, _⟩ := mkfsBig_node nz
    refine ⟨⟨lo, ?_⟩, decide_eq_true hi⟩
    have size : mkfsBig.sb.size = 15000 := rfl
    omega

theorem mkfsBig_accounted : Accounted mkfsBig := by
  rintro b ⟨⟨low, _⟩, set⟩
  have hi : b < 232 := of_decide_eq_true set
  obtain ⟨node, e⟩ := mkfsBig_locate low hi
  exact ⟨_, _, node, e⟩

def mkfsData (bn : Nat) : Nat := if bn < 12 then 88 + bn else if bn < 140 then 89 + bn else 231

theorem mkfsBig_blockOf {bn : Nat} (h : bn < 141) : blockOf mkfsBig 2 bn = mkfsData bn := by
  unfold blockOf mkfsData
  have located : ∀ b, 87 ≤ b → b < 232 → mkfsNode b = ((2, (leaf bn).1), (leaf bn).2) →
      (forest mkfsBig).ptr (2, (leaf bn).1) (leaf bn).2 = b := by grind [mkfsBig_locate]
  by_cases direct : bn < 12
  · rw [if_pos direct]
    refine located _ (by omega) (by omega) ?_
    have index : 88 + bn - 88 = bn := by omega
    rw [leaf_direct direct, mkfsNode, if_neg (by omega), if_pos (by omega), index]
  · rw [if_neg direct]
    by_cases single : bn < 140
    · rw [if_pos single]
      refine located _ (by omega) (by omega) ?_
      have index : 89 + bn - 101 = bn - 12 := by omega
      rw [leaf_indirect direct (by simp only [NDIRECT, NINDIRECT]; omega), mkfsNode,
        if_neg (by omega), if_neg (by omega), if_pos (by omega), index]
      rfl
    · rw [if_neg single]
      have last : bn = 140 := by omega
      subst last
      exact located 231 (by decide) (by decide) (by decide)

theorem mkfsBig_full : Full mkfsBig := by
  have alloc : ∀ m, Allocated mkfsBig m → m = 1 ∨ m = 2 := by
    rintro m ⟨_, typed⟩
    rw [mkfsBig_current] at typed
    by_contra other
    have one : m ≠ 1 := fun e => other (.inl e)
    have two : m ≠ 2 := fun e => other (.inr e)
    simp [mkfsBig, one, two, Dinode.zero] at typed
  refine ⟨?_, ?_, ?_⟩
  · intro m a
    rw [mkfsBig_current]
    rcases alloc m a with rfl | rfl <;> decide
  · intro m i a lt
    rw [mkfsBig_current] at lt
    unfold Mapped
    rcases alloc m a with rfl | rfl
    · have small : i < 512 := lt
      have first : i / BSIZE = 0 := by
        simp only [BSIZE]
        omega
      have root : blockOf mkfsBig 1 0 = 87 := mkfsBig_root 1 0
      rw [first, root]
      decide
    · have small : i < 141 * 512 := lt
      have inside : i / BSIZE < 141 := by
        simp only [BSIZE]
        omega
      rw [mkfsBig_blockOf inside]
      generalize i / BSIZE = bn
      unfold mkfsData
      split
      · omega
      · split <;> omega
  · intro i m c
    exact absurd c.2.1 (Int.lt_irrefl 0)

end Big

end UvaOs.Fs
