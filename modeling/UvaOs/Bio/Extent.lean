import UvaOs.Bio.Model

/-! The range checks below `bread` and `bwrite` (kernel/ramdisk.c, sd.c), which are made in
32-bit arithmetic. -/
namespace UvaOs.Bio

def BSIZE : Nat := 512

/-- The offset from `ramdisk_start` of the block that is copied, for a ramdisk of `size` bytes;
`none` is the BUG. -/
def ramdiskRw (size : Nat) (blockno : BitVec 32) : Option Nat :=
  let secNo : BitVec 32 := blockno * BitVec.ofNat 32 (BSIZE / 512)
  if (512 * secNo).toNat > size then none else some (512 * secNo).toNat

structure Partition where
  firstSector : BitVec 32
  sectors : BitVec 32
  fits : firstSector.toNat + sectors.toNat ≤ 2 ^ 32

/-- `sd_part_readblock` and `sd_part_writeblock`: the sector of the card. -/
def sdPartBlock (p : Partition) (lba num : BitVec 32) : Option (BitVec 32) :=
  if p.sectors = 0 then none
  else if lba + num > p.sectors then none
  else some (p.firstSector + lba)

def sdPartRw (p : Partition) (blockno : BitVec 32) : Option (BitVec 32) := sdPartBlock p blockno 1

/-- The ramdisk, by its size, or a partition. -/
inductive Device where
  | ramdisk (size : Nat)
  | sd (p : Partition)

/-- A block that is not refused is one of the device, and only the device is touched. -/
def Device.Stays (blockno : BitVec 32) : Device → Prop
  | .ramdisk size => ∀ off, ramdiskRw size blockno = some off →
      blockno.toNat * BSIZE + BSIZE ≤ size ∧ off + BSIZE ≤ size
  | .sd p => ∀ sector, sdPartRw p blockno = some sector → blockno < p.sectors ∧
      p.firstSector.toNat ≤ sector.toNat ∧ sector.toNat < p.firstSector.toNat + p.sectors.toNat

/-- The block is one of the ramdisk or its 32-bit offset is beyond the end; on a partition with
sectors it is not the last number of all. -/
def Device.Checks (blockno : BitVec 32) : Device → Prop
  | .ramdisk size => blockno.toNat * BSIZE + BSIZE ≤ size ∨ size < blockno.toNat * BSIZE % 2 ^ 32
  | .sd p => p.sectors ≠ 0 → blockno.toNat ≠ 2 ^ 32 - 1

theorem ramdiskRw_eq (size : Nat) (blockno : BitVec 32) : ramdiskRw size blockno =
    if blockno.toNat * BSIZE % 2 ^ 32 > size then none else some (blockno.toNat * BSIZE % 2 ^ 32) := by
  have off : (512 * (blockno * BitVec.ofNat 32 (BSIZE / 512))).toNat = blockno.toNat * BSIZE % 2 ^ 32 := by
    simp [BSIZE, BitVec.toNat_mul, Nat.mul_comm]
  simp only [ramdiskRw, off]

theorem ramdisk_stays (size : Nat) (blockno : BitVec 32) :
    (Device.ramdisk size).Stays blockno ↔ (Device.ramdisk size).Checks blockno := by
  simp only [Device.Stays, Device.Checks, ramdiskRw_eq]
  generalize value : blockno.toNat * BSIZE % 2 ^ 32 = off
  by_cases refused : off > size
  · simp [refused]
  · simp only [refused, if_false, Option.some.injEq, forall_eq', or_false, BSIZE] at value ⊢
    omega

theorem sd_stays (p : Partition) (blockno : BitVec 32) :
    (Device.sd p).Stays blockno ↔ (Device.sd p).Checks blockno := by
  have fits := p.fits
  simp only [Device.Stays, Device.Checks, sdPartRw, sdPartBlock]
  by_cases empty : p.sectors = 0
  · simp [empty]
  · by_cases beyond : blockno + 1 > p.sectors
    · simp only [if_neg empty, if_pos beyond, reduceCtorEq, false_implies, implies_true, true_iff]
      intro _
      bv_omega
    · simp only [if_neg empty, if_neg beyond, Option.some.injEq, forall_eq']
      constructor
      · rintro ⟨lt, -⟩ _
        bv_omega
      · intro other
        have other := other empty
        refine ⟨?_, ?_, ?_⟩ <;> bv_omega

theorem access_stays (dev : Device) (blockno : BitVec 32) : dev.Stays blockno ↔ dev.Checks blockno := by
  cases dev with
  | ramdisk size => exact ramdisk_stays size blockno
  | sd p => exact sd_stays p blockno

/- The block behind the end of a ramdisk of two blocks, a block number that wraps around, and
the sector before a partition. -/
theorem access_leaves : ramdiskRw 1024 2 = some 1024 ∧ ramdiskRw 1024 0x800000 = some 0 ∧
    sdPartRw ⟨2048, 4096, by decide⟩ 0xffffffff = some 2047 := by
  decide

end UvaOs.Bio
