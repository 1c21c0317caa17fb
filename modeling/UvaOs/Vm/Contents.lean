import UvaOs.Vm.Copy
import UvaOs.Vm.Fill

/-! The bytes in an address space that is filled page by page. -/
namespace UvaOs.Vm

open Prog VmState

/-! Bytes of a frame -/

theorem getByte_setByte (w : BitVec 64) (b : UInt8) {k j : Nat} (hj : j < 8) :
    getByte (setByte w k b) j = if j = k then b else getByte w j := by
  have mask : ∀ i (inside : i < 64), (0xff#64)[i] = decide (i < 8) := by
    intro i inside
    rw [← BitVec.getLsbD_eq_getElem, BitVec.getLsbD_ofNat, decide_eq_true inside, Bool.true_and]
    exact Nat.testBit_two_pow_sub_one 8 i
  apply UInt8.toBitVec_inj.mp
  unfold getByte setByte
  rw [UInt8.toBitVec_ofBitVec]
  split
  · grind
  · grind

/-- Byte `j` of a frame. -/
def byteIn (s : VmState) (frame j : Nat) : UInt8 := getByte (s.mem frame (j / 8)) (j % 8)

theorem pagePath_down (a : Nat) : pagePath (PGROUNDDOWN a) = pagePath a :=
  pagePath_of_div (Nat.mul_div_cancel _ (by decide))

/-! Bytes of a space -/

/-- A permission with which `walkaddr` finds the page. -/
def Usable (perm : BitVec 64) : Prop :=
  (MMU_PTE_FLAGS ||| perm) &&& 0xfffff000#64 = 0 ∧
    (MMU_PTE_FLAGS ||| perm) &&& 0xfff#64 &&& ~~~MM_AP_MASK = MMU_PTE_FLAGS

instance (perm : BitVec 64) : Decidable (Usable perm) := inferInstanceAs (Decidable (_ ∧ _))

theorem entry_usable {f : Nat} {perm : BitVec 64} (small : f < 2 ^ 20) (usable : Usable perm) :
    entry f perm &&& 0xfff#64 &&& ~~~MM_AP_MASK = MMU_PTE_FLAGS := by
  have apart : 0xfffff000#64 &&& 0xfff#64 = 0#64 := by decide
  have none : BitVec.ofNat 64 (f * PAGE_SIZE) &&& 0xfff#64 = 0#64 := by
    rw [← address_mask small, BitVec.and_assoc, apart, BitVec.and_zero]
  unfold entry
  rw [BitVec.or_assoc, BitVec.and_comm _ (0xfff#64), BitVec.and_or_distrib_left,
    BitVec.and_comm (0xfff#64), none, BitVec.zero_or, BitVec.and_comm (0xfff#64)]
  exact usable.2

end UvaOs.Vm
