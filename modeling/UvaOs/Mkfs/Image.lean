import UvaOs.Mkfs.Model

/-! What the kernel finds on an image, and the state of the file system while mkfs is making
it: the blocks handed out so far are the ones in use. -/
namespace UvaOs.Mkfs

open Bytes Prog
open UvaOs.Fs (FsState Dinode IType BSIZE NDIRECT NINDIRECT MAXFILE ROOTDEV)

/-- `dinode::type`; mkfs writes no other numbers. -/
def itype : Nat → IType
  | 1 => .dir
  | 2 => .file
  | 3 => .device
  | 4 => .procfs
  | 5 => .fileFat
  | 6 => .dirFat
  | _ => .free

def int16 (x : Nat) : Int := if x < 2 ^ 15 then x else x - 2 ^ 16

def decode (din : Buffer) : Dinode where
  type := itype (short din 0)
  major := int16 (short din 1)
  minor := int16 (short din 2)
  nlink := int16 (short din 3)
  size := dinSize din
  addrs k := if k < NDIRECT + 2 then addr din k else 0

/-- The file system on an image, as the kernel reads it at boot: the superblock in block 1 tells
where the inodes and the bitmap are. No bit or inode is there from `size` or `ninodes` on. -/
def mount (disk : Nat → Buffer) : FsState where
  sb := ⟨word (disk 1) 1, word (disk 1) 2, word (disk 1) 3⟩
  bitmap b := decide (b < word (disk 1) 1) && bit (disk (word (disk 1) 7 + b / BPB)) (b % BPB)
  dinode inum :=
    if inum < word (disk 1) 3 then
      decode (slot (disk (inum / IPB + word (disk 1) 6)) (inum % IPB))
    else .zero
  block b := if word (disk 1) 6 ≤ b ∧ b < word (disk 1) 1 - word (disk 1) 2 then zeros else disk b
  itable _ := Fs.emptySlot

def view (m : State) : FsState where
  sb := Fs.mkfsSuper
  bitmap b := decide (b < m.freeblock)
  dinode inum := if inum < NINODES then decode (slot (m.sect (IBLOCK inum)) (inum % IPB)) else .zero
  block b := if inodestart ≤ b ∧ b < nmeta then zeros else m.sect b
  itable _ := Fs.emptySlot

/-- The same with inode `inum` in slot 0 of the table, with the contents of `din`. -/
def held (m : State) (inum : Nat) (din : Buffer) : FsState :=
  (view m).putInode 0 ⟨ROOTDEV, inum, 1, true, decode din⟩

structure Inv (m : State) : Prop where
  length : m.length = FSSIZE
  low : nmeta ≤ m.freeblock
  high : m.freeblock ≤ FSSIZE
  boot : m.sect 0 = zeros
  super : m.sect 1 = super
  bitmap : ∀ b, bmapstart ≤ b → b < nmeta → m.sect b = Bytes.zeros
  zeros : ∀ b, m.freeblock ≤ b → m.sect b = Bytes.zeros

section Decode

variable {din din' : Buffer} {k b : Nat}

theorem decode_congr (same : ∀ i, i < 128 → din i = din' i) : decode din = decode din' := by
  have shorts : ∀ j, j < 4 → short din j = short din' j := by grind [short]
  have words : ∀ j, j < 17 → word din j = word din' j := by grind [word]
  unfold decode dinSize addr
  rw [shorts 0 (by decide), shorts 1 (by decide), shorts 2 (by decide), shorts 3 (by decide),
    words 2 (by decide)]
  congr 1
  funext k
  split
  · rename_i lt
    simp only [NDIRECT] at lt
    exact words _ (by omega)
  · rfl

theorem short_setWord {j v : Nat} (low : j < 4) (high : 2 ≤ k) :
    short (setWord din k v) j = short din j := by
  have first : ¬ 2 * j / 4 = k := by omega
  have second : ¬ (2 * j + 1) / 4 = k := by omega
  simp only [short, setWord, if_neg first, if_neg second]

theorem addr_setAddr (small : b < 2 ^ 32) : addr (setAddr din k b) k = b :=
  word_setWord_same _ _ _ small

theorem decode_setAddr (hk : k < NDIRECT + 2) (small : b < 2 ^ 32) : decode (setAddr din k b) =
      { decode din with addrs := Function.update (decode din).addrs k b } := by
  unfold decode dinSize setAddr
  rw [short_setWord (by decide) (by omega), short_setWord (by decide) (by omega),
    short_setWord (by decide) (by omega), short_setWord (by decide) (by omega),
    word_setWord_ne _ _ (by omega)]
  congr 1
  funext j
  by_cases e : j = k
  · rw [e, if_pos hk, Function.update_self]
    exact word_setWord_same _ _ _ small
  · rw [Function.update_of_ne e]
    unfold addr
    rw [word_setWord_ne _ _ (by omega)]

theorem decode_setSize {off : Nat} (small : off < 2 ^ 32) :
    decode (setWord din 2 off) = { decode din with size := off } := by
  unfold decode dinSize addr
  rw [short_setWord (by decide) (by decide), short_setWord (by decide) (by decide),
    short_setWord (by decide) (by decide), short_setWord (by decide) (by decide),
    word_setWord_same _ _ _ small]
  congr 1
  funext j
  rw [word_setWord_ne _ _ (by omega)]

theorem decode_zeros : decode zeros = .zero := by
  unfold decode dinSize addr Dinode.zero
  simp only [word_zeros, ite_self]
  rfl

theorem decode_new {type : Nat} (small : type < 256) :
    decode (setShort (setShort zeros 0 type) 3 1) =
      { Dinode.zero with type := itype type, nlink := 1 } := by
  have bytes : ∀ i, 8 ≤ i → setShort (setShort zeros 0 type) 3 1 i = 0 := by
    intro i hi
    have first : ¬ i / 2 = 3 := by omega
    have second : ¬ i / 2 = 0 := by omega
    rw [setShort, if_neg first, setShort, if_neg second]
    rfl
  have words : ∀ j, 2 ≤ j → word (setShort (setShort zeros 0 type) 3 1) j = 0 := by
    intro j hj
    unfold word
    rw [bytes _ (by omega), bytes _ (by omega), bytes _ (by omega), bytes _ (by omega)]
    rfl
  have number : short (setShort (setShort zeros 0 type) 3 1) 0 = type := by
    have high : type / 256 = 0 := by omega
    simp [short, setShort, high]
    omega
  unfold decode dinSize addr Dinode.zero
  rw [words 2 (by decide), number]
  have pointers : (fun k => if k < NDIRECT + 2 then
      word (setShort (setShort zeros 0 type) 3 1) (3 + k) else 0) = fun _ => 0 := by
    funext k
    rw [words _ (by omega), ite_self]
  rw [pointers]
  simp [short, setShort, int16, zeros]

theorem slot_putSlot_same (buf : Buffer) : decode (slot (putSlot buf k din) k) = decode din := by
  apply decode_congr
  intro i hi
  have quot : (128 * k + i) / 128 = k := by omega
  have rem : (128 * k + i) % 128 = i := by omega
  rw [slot, if_pos hi, putSlot, if_pos quot, rem]

theorem slot_putSlot_ne (buf : Buffer) {j : Nat} (ne : j ≠ k) :
    slot (putSlot buf k din) j = slot buf j := by
  funext i
  unfold slot putSlot
  by_cases hi : i < 128
  · grind
  · rw [if_neg hi, if_neg hi]

end Decode

section View

variable {m : State} {inum x : Nat} {din buf : Buffer}

theorem IBLOCK_range (h : inum < NINODES) : inodestart ≤ IBLOCK inum ∧ IBLOCK inum < bmapstart := by
  simp only [IBLOCK, NINODES, IPB, BSIZE, inodestart, bmapstart, nlog, LOGSIZE, ninodeblocks] at h ⊢
  omega

theorem view_dinode (inside : inum < NINODES) :
    (view m).dinode inum = decode (slot (m.sect (IBLOCK inum)) (inum % IPB)) := if_pos inside

theorem view_wsect (data : nmeta ≤ x) (length : Nat) :
    view { m with sect := Function.update m.sect x buf, length := length } =
      (view m).putBlock x buf := by
  have high : ¬ (inodestart ≤ x ∧ x < nmeta) := fun k => absurd data (Nat.not_le.mpr k.2)
  unfold view FsState.putBlock
  dsimp only
  congr 1
  · funext i
    split
    · grind [IBLOCK, IBLOCK_range, nmeta, bmapstart, Function.update_of_ne]
    · rfl
  · grind

theorem view_winode (h : inum < NINODES) (length : Nat) : view { m with
      sect := Function.update m.sect (IBLOCK inum) (putSlot (m.sect (IBLOCK inum)) (inum % IPB) din)
      length := length } = (view m).putDinode inum (decode din) := by
  obtain ⟨lo, hi⟩ := IBLOCK_range h
  have middle : inodestart ≤ IBLOCK inum ∧ IBLOCK inum < nmeta := by
    refine ⟨lo, Nat.lt_of_lt_of_le hi ?_⟩
    decide
  unfold view FsState.putDinode
  dsimp only
  congr 1
  · funext i
    by_cases e : i = inum
    · rw [e, if_pos h, Function.update_self, Function.update_self, slot_putSlot_same]
    · grind [Function.update_of_ne, IBLOCK, IPB, BSIZE, Function.update_self, slot_putSlot_ne]
  · grind

end View

end UvaOs.Mkfs
