import UvaOs.Fs.Model
import UvaOs.Lib.Forest

/-! Block pointers of all allocated inodes, as one forest.
The pointers of an inode are those of its valid in-memory copy when it has one,
since only `iupdate` carries changes to the disk. A root of the forest is an
inode number with an index into `addrs`. -/
namespace UvaOs.Fs

open Bytes Prog FsState List

/-- Slot `i` of the inode table holds a valid copy of disk inode `inum`. -/
def Cached (s : FsState) (i inum : Nat) : Prop :=
  i < NINODE ∧ 0 < (s.itable i).ref ∧ (s.itable i).dev = ROOTDEV ∧
    (s.itable i).inum = inum ∧ (s.itable i).valid = true

instance (s : FsState) (i inum : Nat) : Decidable (Cached s i inum) :=
  inferInstanceAs (Decidable (_ ∧ _ ∧ _ ∧ _ ∧ _))

/- The fields of an inode as the kernel sees them. -/
def current (s : FsState) (inum : Nat) : Dinode :=
  match (List.range NINODE).find? (fun i => decide (Cached s i inum)) with
  | some i => (s.itable i).copy
  | none => s.dinode inum

def Unique (s : FsState) : Prop :=
  ∀ i j, i < NINODE → j < NINODE → 0 < (s.itable i).ref → 0 < (s.itable j).ref →
    (s.itable i).dev = (s.itable j).dev → (s.itable i).inum = (s.itable j).inum → i = j

theorem cached_unique {s : FsState} (u : Unique s) {i j inum : Nat} (hi : Cached s i inum)
    (hj : Cached s j inum) : i = j := by
  obtain ⟨li, ri, di, ni, _⟩ := hi
  obtain ⟨lj, rj, dj, nj, _⟩ := hj
  exact u i j li lj ri rj (di.trans dj.symm) (ni.trans nj.symm)

theorem current_cached {s : FsState} (u : Unique s) {i inum : Nat} (c : Cached s i inum) :
    current s inum = (s.itable i).copy := by
  unfold current
  cases found : (List.range NINODE).find? (fun i => decide (Cached s i inum)) with
  | none =>
    have absent := find?_eq_none.mp found i (mem_range.mpr c.1)
    simp [c] at absent
  | some j => grind [Cached, cached_unique]

theorem current_uncached {s : FsState} {inum : Nat} (h : ∀ i, ¬ Cached s i inum) :
    current s inum = s.dinode inum := by
  have none : (List.range NINODE).find? (fun i => decide (Cached s i inum)) = none := by
    apply find?_eq_none.mpr
    intro i _
    simp [h i]
  unfold current
  rw [none]

theorem current_congr {s t : FsState} {inum : Nat} (slots : ∀ i, Cached t i inum ↔ Cached s i inum)
    (copies : ∀ i, Cached s i inum → (t.itable i).copy = (s.itable i).copy)
    (disk : t.dinode inum = s.dinode inum) : current t inum = current s inum := by
  have same : (fun i => decide (Cached t i inum)) = fun i => decide (Cached s i inum) := by
    funext i
    exact decide_eq_decide.mpr (slots i)
  unfold current
  rw [same]
  cases found : (List.range NINODE).find? (fun i => decide (Cached s i inum)) with
  | none => exact disk
  | some i => exact copies i (by simpa using find?_some found)

section OnCopy

variable {s : FsState} {ip inum : Nat} {f : Dinode → Dinode}

theorem itable_onCopy_ne (s : FsState) (f : Dinode → Dinode) {ip i : Nat} (h : i ≠ ip) :
    (s.onCopy ip f).itable i = s.itable i := by
  simp [onCopy, Function.update_of_ne h]

theorem itable_onCopy_self (s : FsState) (ip : Nat) (f : Dinode → Dinode) :
    (s.onCopy ip f).itable ip = { s.itable ip with copy := f (s.itable ip).copy } := by
  simp [onCopy]

theorem cached_onCopy (s : FsState) (ip i inum : Nat) (f : Dinode → Dinode) :
    Cached (s.onCopy ip f) i inum ↔ Cached s i inum := by
  by_cases h : i = ip
  · subst h
    unfold Cached
    rw [itable_onCopy_self]
  · unfold Cached
    rw [itable_onCopy_ne s f h]

theorem unique_onCopy (u : Unique s) : Unique (s.onCopy ip f) := by
  have keep : ∀ i, ((s.onCopy ip f).itable i).ref = (s.itable i).ref ∧
      ((s.onCopy ip f).itable i).dev = (s.itable i).dev ∧
      ((s.onCopy ip f).itable i).inum = (s.itable i).inum := by
    grind [itable_onCopy_self, itable_onCopy_ne]
  intro i j hi hj ri rj
  rw [(keep i).1] at ri
  rw [(keep j).1] at rj
  rw [(keep i).2.1, (keep j).2.1, (keep i).2.2, (keep j).2.2]
  exact u i j hi hj ri rj

theorem current_onCopy_ne (c : Cached s ip inum) {m : Nat} (h : m ≠ inum) :
    current (s.onCopy ip f) m = current s m := by
  apply current_congr (fun i => cached_onCopy s ip i m f) _ rfl
  intro i ci
  have apart : i ≠ ip := by
    rintro rfl
    exact h (ci.2.2.2.1.symm.trans c.2.2.2.1)
  rw [itable_onCopy_ne s f apart]

end OnCopy

def forest (s : FsState) : Forest (Nat × Nat) where
  root r :=
    if r.2 < NDIRECT + 2 ∧ r.1 < s.sb.ninodes ∧ (current s r.1).type ≠ .free then
      (current s r.1).addrs r.2
    else 0
  word b j := if j < NINDIRECT then word (s.block b) j else 0
  depth r := if r.2 = NDIRECT + 1 then 2 else if r.2 = NDIRECT then 1 else 0

/-- Where block `bn` of a file hangs: the index into `addrs` and the entries below it. -/
def leaf (bn : Nat) : Nat × List Nat :=
  if bn < NDIRECT then (bn, [])
  else if bn - NDIRECT < NINDIRECT then (NDIRECT, [bn - NDIRECT])
  else (NDIRECT + 1, [(bn - NDIRECT - NINDIRECT) / NINDIRECT, (bn - NDIRECT - NINDIRECT) % NINDIRECT])

/- The disk block that holds block `bn` of inode `inum`, zero if there is none. -/
def blockOf (s : FsState) (inum bn : Nat) : Nat := (forest s).ptr (inum, (leaf bn).1) (leaf bn).2

/- The data blocks are the last `nblocks` blocks of the disk. -/
def InData (s : FsState) (b : Nat) : Prop := s.sb.size - s.sb.nblocks ≤ b ∧ b < s.sb.size

/-- What holds of the superblock, the bitmap and block 0. -/
structure Layout (s : FsState) : Prop where
  reserved : s.sb.nblocks < s.sb.size
  small : s.sb.size ≤ UINT
  used : ∀ b, b < s.sb.size - s.sb.nblocks → s.bitmap b = true
  boot : s.block 0 = zeros

/-- What holds of the inode table. The disk may lag behind a copy by pointers that
a read has allocated. -/
structure Table (s : FsState) : Prop where
  unique : Unique s
  range : ∀ i, i < NINODE → 0 < (s.itable i).ref → (s.itable i).dev = ROOTDEV →
    (s.itable i).inum < s.sb.ninodes
  typed : ∀ i inum, Cached s i inum →
    (s.itable i).copy.type ≠ .free ∧ (s.dinode inum).type = (s.itable i).copy.type
  lag : ∀ i inum, Cached s i inum → ∀ k,
    (s.dinode inum).addrs k = (s.itable i).copy.addrs k ∨ (s.dinode inum).addrs k = 0

structure Sound (s : FsState) : Prop where
  layout : Layout s
  table : Table s
  exclusive : (forest s).Exclusive
  covered : (forest s).Covered (fun b => InData s b ∧ s.bitmap b = true)

end UvaOs.Fs
