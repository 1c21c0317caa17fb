import UvaOs.Fs.Runs

/-! Directories (kernel/fs.c): a directory is a file of entries, and `dirlookup` finds the first
entry in use with a name. -/
namespace UvaOs.Fs

open Bytes Prog FsState

@[simp] def DIRSIZ : Nat := 14

/-- `sizeof (struct dirent)`. -/
@[simp] def DIRENT : Nat := 16

/-- The string that `strncmp` sees in a name. -/
def cstring (name : List UInt8) : List UInt8 := (name.take DIRSIZ).takeWhile (· ≠ 0)

/-- Whether `namecmp` returns zero. -/
def sameName (s t : List UInt8) : Bool := cstring s == cstring t

def direntInum (de : List UInt8) : Nat := (de[0]?.getD 0).toNat + 256 * (de[1]?.getD 0).toNat

def direntName (de : List UInt8) : List UInt8 := de.drop 2

/-- The loop of `dirlookup`: the inode found, and the offset of its entry. -/
def dirlookupLoop (dp : Nat) (name : List UInt8) : Nat → Nat → FsM (Option (Nat × Nat))
  | 0, _ => pure none
  | fuel + 1, off => do
    let i ← inode dp
    if off < i.copy.size then do
      let r ← readi dp DIRENT off DIRENT
      if r.1 ≠ DIRENT then stop .dirlookupRead
      else if direntInum r.2 = 0 then dirlookupLoop dp name fuel (off + DIRENT)
      else if sameName name (direntName r.2) then do
        let ip ← iget i.dev (direntInum r.2)
        pure (some (ip, off))
      else dirlookupLoop dp name fuel (off + DIRENT)
    else pure none

def dirlookup (dp : Nat) (name : List UInt8) : FsM (Option (Nat × Nat)) := do
  let i ← inode dp
  if i.copy.type ≠ .dir then stop .dirlookupNotDir
  else dirlookupLoop dp name i.copy.size 0

def dirent (data : List UInt8) (k : Nat) : List UInt8 := (data.drop (DIRENT * k)).take DIRENT

def Matches (data name : List UInt8) (k : Nat) : Prop :=
  direntInum (dirent data k) ≠ 0 ∧ sameName name (direntName (dirent data k)) = true

section Lookup

variable {s : FsState} {dp inum : Nat} {name : List UInt8}

theorem dir_size (h : Table s) (c : Cached s dp inum) :
    (s.itable dp).copy.size = (file s inum).data.length := by
  rw [file, if_pos (c.allocated h), length_bytes, current_cached h.unique c]

section

variable (h : Sound s) (full : Full s) (c : Cached s dp inum)
include h full c

theorem readi_dirent {j : Nat} (inside : DIRENT * (j + 1) ≤ (file s inum).data.length) :
    readi dp DIRENT (DIRENT * j) DIRENT s = .ok (((16 : Nat), dirent (file s inum).data j), s) := by
  have bound := full.bound inum (c.allocated h.table)
  rw [current_cached h.table.unique c, dir_size h.table c] at bound
  have limit := maxBytes
  simp only [DIRENT] at inside
  rw [readi_result h full c (by simp; omega) (by simp) (Nat.le_refl _), readResult,
    if_pos (by simp; omega), Nat.min_eq_left (by simp; omega)]
  rfl

theorem dirlookupLoop_match {k : Nat} (inside : DIRENT * (k + 1) ≤ (file s inum).data.length)
    (match_ : Matches (file s inum).data name k)
    (first : ∀ j, j < k → ¬ Matches (file s inum).data name j) (fuel : Nat) :
    ∀ j, j ≤ k → k - j < fuel → dirlookupLoop dp name fuel (DIRENT * j) s =
      (iget ROOTDEV (direntInum (dirent (file s inum).data k)) >>=
        fun ip => pure (some (ip, DIRENT * k))) s := by
  have size := dir_size h.table c
  induction fuel with
  | zero =>
    intro j _ few
    omega
  | succ fuel ih =>
    intro j le few
    simp only [DIRENT] at inside
    have here : 16 * j + 16 ≤ (file s inum).data.length := by omega
    have read := readi_dirent h full c (j := j) (by simp; omega)
    unfold dirlookupLoop
    rw [run_inode, if_pos (by rw [size]; simp; omega), run_bind read]
    dsimp only
    rw [if_neg (by simp)]
    by_cases last : j = k
    · subst last
      rw [if_neg match_.1, if_pos match_.2, c.2.2.1]
    · have next := ih (j + 1) (by omega) (by omega)
      have unmatched := first j (by omega)
      split
      · exact next
      · rename_i live
        rw [if_neg (fun same => unmatched ⟨live, same⟩)]
        exact next

theorem dirlookup_match (dir : (file s inum).type = .dir) {k : Nat}
    (inside : DIRENT * (k + 1) ≤ (file s inum).data.length)
    (match_ : Matches (file s inum).data name k)
    (first : ∀ j, j < k → ¬ Matches (file s inum).data name j) :
    dirlookup dp name s = (iget ROOTDEV (direntInum (dirent (file s inum).data k)) >>=
      fun ip => pure (some (ip, DIRENT * k))) s := by
  have now := current_cached h.table.unique c
  have type : (s.itable dp).copy.type = .dir := by
    rwa [file, if_pos (c.allocated h.table), now] at dir
  have size := dir_size h.table c
  unfold dirlookup
  rw [run_inode, if_neg (by simp [type])]
  refine dirlookupLoop_match h full c inside match_ first _ 0 (Nat.zero_le k) ?_
  rw [size]
  simp only [DIRENT] at inside
  omega

end

end Lookup

end UvaOs.Fs
