import UvaOs.Vm.Copy

/-! Copies of ranges without a missing page. -/
namespace UvaOs.Vm

open Prog VmState

/-- Every page of `[va, va + len)` is accepted. -/
def AcceptsRange (s : VmState) (m va len : Nat) : Prop :=
  ∀ a, va ≤ a → a < va + len → Accepts s m (PGROUNDDOWN a)

section Full

variable {β : Type} {s : VmState} {m : Nat} {body : Nat → Nat → Nat → β → VmM β}

theorem copyLoop_full (I : Nat → β → VmState → Prop) (stop : Nat)
    (lookup : ∀ a acc t, I a acc t → ∀ va, pte t m va = pte s m va)
    (real : ∀ va, PTE_TO_PA (pte s m va) < PHYS_SIZE)
    (onPage : ∀ t va n acc, I va acc t → Accepts s m (PGROUNDDOWN va) → va + n ≤ stop →
      va + n ≤ PGROUNDDOWN va + PAGE_SIZE →
      wp (body (PTE_TO_PA (pte s m (PGROUNDDOWN va)) / PAGE_SIZE) (va - PGROUNDDOWN va) n acc)
        (fun acc' u => I (va + n) acc' u) (fun _ => False) t)
    (fuel va len : Nat) (acc : β) (touched : List Nat) (t : VmState) (enough : len ≤ fuel)
    (ends : va + len = stop) (accepted : AcceptsRange s m va len) (now : I va acc t) :
    wp (copyLoop m body (fun _ => true) fuel va len acc touched)
      (fun r u => ∃ acc', r.1 = some acc' ∧ I stop acc' u) (fun _ => False) t := by
  refine wp_mono (copyLoop_rule (fun a acc _ t => va ≤ a ∧ I a acc t) stop
    (fun a acc _ t now => lookup a acc t now.2) real ?_ fuel va len acc touched t enough ends
    ⟨Nat.le_refl va, now⟩) ?_ (fun _ no => no)
  · intro t a n acc _ now _ here _ fits page
    refine wp_mono (onPage t a n acc now.2 here fits page) ?_ (fun _ no => no)
    intro _ _ next
    exact ⟨Nat.le_trans now.1 (Nat.le_add_right a n), next⟩
  · rintro r u ⟨a, acc', -, ⟨lo, holds⟩, ⟨done, last⟩ | ⟨-, before, -, missing⟩⟩
    · exact ⟨acc', done, last rfl ▸ holds⟩
    · exact absurd (accepted a lo (by omega)) missing

end Full

theorem copyout_full {s : VmState} {m dstva : Nat} {src : List UInt8} (tables : Apart s m)
    (user : dstva ≤ USER_VA_END) (accepted : AcceptsRange s m dstva src.length) :
    wp (copyout m dstva src) (fun r t => r.1 = 0 ∧ SameTables s t m) (fun _ => False) s := by
  unfold copyout
  rw [if_neg (Nat.not_lt.mpr user)]
  refine wp_call (copyLoop_full (fun _ _ t => SameTables s t m) (dstva + src.length) ?_ tables.real
    ?_ _ dstva src.length src [] s (Nat.le_refl _) rfl accepted ⟨rfl, fun _ _ _ => rfl⟩) ?_
  · intro _ _ t same va
    exact same.pte va
  · intro t va n rest same here _ _
    exact same.poke tables here _ _
  · rintro r t ⟨rest, done, same⟩
    refine ⟨?_, same⟩
    rw [done]
    rfl

theorem copyin_full {s : VmState} {m srcva len : Nat} (tables : Apart s m)
    (user : srcva ≤ USER_VA_END) (accepted : AcceptsRange s m srcva len) :
    wp (copyin m srcva len) (fun r t => r.1 = 0 ∧ r.2.1.length = len ∧ t = s) (fun _ => False) s := by
  unfold copyin
  rw [if_neg (Nat.not_lt.mpr user)]
  refine wp_call (copyLoop_full (fun a dst t => dst.length = a - srcva ∧ srcva ≤ a ∧ t = s)
    (srcva + len) ?_ tables.real ?_ _ srcva len [] [] s (Nat.le_refl _) rfl accepted
    ⟨by simp, Nat.le_refl _, rfl⟩) ?_
  · rintro _ _ t ⟨-, -, rfl⟩ va
    rfl
  · rintro t va n dst ⟨size, lo, rfl⟩ _ _ _
    refine ⟨?_, by omega, rfl⟩
    rw [List.length_append, size]
    unfold peek
    rw [List.length_map, List.length_range]
    omega
  · rintro r t ⟨dst, done, size, -, rfl⟩
    rw [done]
    exact ⟨rfl, by simpa using size, rfl⟩

end UvaOs.Vm
