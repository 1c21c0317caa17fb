import UvaOs.Vm.Dup
import UvaOs.Vm.Fill

/-! What `dup_current_virt_memory` does, page by page, until it has copied everything, runs
out of memory, or comes to a page that the parent does not have. -/
namespace UvaOs.Vm

open Prog VmState List

/-- The pages of one of the two loops, with the permission they are mapped with. -/
def dupList (x : Nat → BitVec 64) (perm : BitVec 64 → BitVec 64) : Nat → Nat → Pages
  | 0, _ => []
  | n + 1, va => (va, perm (x va)) :: dupList x perm n (va + PAGE_SIZE)

/-- With the pages `ps` in place, all the pages of the list are there to be copied and there
is room for them. `x` are the ptes of the parent, `n` the free frames at the start. -/
def Good (x : Nat → BitVec 64) (n : Nat) : Pages → Pages → Prop
  | _, [] => True
  | ps, p :: rest => Valid (x p.1) ∧ Room n 0 ps p.1 ∧ Good x n (p :: ps) rest

/-- The copy ends at the page `p`, for want of memory. -/
def Starved (table : Nat → Prop) (n : Nat) (ps : Pages) (p : Nat × BitVec 64) : Prop :=
  table p.1 ∧ ¬ Room n 0 ps p.1

/-- The kernel halts at the page `p`. -/
def Breaks (x : Nat → BitVec 64) (table : Nat → Prop) (n : Nat) (ps : Pages)
    (p : Nat × BitVec 64) : Prop :=
  ¬ table p.1 ∨ Room n 0 ps p.1 ∧ ¬ Valid (x p.1)

theorem Good.append {x : Nat → BitVec 64} {n : Nat} {ps as bs : Pages} (first : Good x n ps as)
    (second : Good x n (as.reverse ++ ps) bs) : Good x n ps (as ++ bs) := by
  induction as generalizing ps with
  | nil => exact second
  | cons a as ih =>
    obtain ⟨valid, room, rest⟩ := first
    refine ⟨valid, room, ih rest ?_⟩
    rwa [reverse_cons, append_assoc] at second

theorem Good.unique {x : Nat → BitVec 64} {n : Nat} {ps as as' bs bs' : Pages}
    (first : Good x n ps as) (first' : Good x n ps as') (same : as ++ bs = as' ++ bs')
    (ends : ∀ p ∈ bs.head?, ¬ (Valid (x p.1) ∧ Room n 0 (as.reverse ++ ps) p.1))
    (ends' : ∀ p ∈ bs'.head?, ¬ (Valid (x p.1) ∧ Room n 0 (as'.reverse ++ ps) p.1)) :
    as = as' ∧ bs = bs' := by
  induction as generalizing ps as' with
  | nil =>
    cases as' with
    | nil => exact ⟨rfl, same⟩
    | cons a as' =>
      obtain rfl : bs = a :: as' ++ bs' := same
      exact absurd ⟨first'.1, first'.2.1⟩ (ends a rfl)
  | cons a as ih =>
    cases as' with
    | nil =>
      obtain rfl : a :: as ++ bs = bs' := same
      exact absurd ⟨first.1, first.2.1⟩ (ends' a rfl)
    | cons a' as' =>
      obtain ⟨rfl, tails⟩ := List.cons.inj same
      rw [reverse_cons, append_assoc] at ends ends'
      obtain ⟨rfl, rfl⟩ := ih first.2.2 first'.2.2 tails ends ends'
      exact ⟨rfl, rfl⟩

/-! One page -/

structure Copying (s t : VmState) (src m : Nat) (ps : Pages) : Prop extends Filled s t m ps where
  contents : ∀ va perm, permAt ps va = some perm →
    t.mem (frameAt t m va) = s.mem (frameAt s src va)

def HasTable (s : VmState) (m va : Nat) : Prop := node s m (tablePath va) ≠ 0

theorem Valid.ne_zero {x : BitVec 64} (valid : Valid x) : x ≠ 0 := by
  rintro rfl
  exact absurd valid (by decide)

theorem frame_ne_zero {s : VmState} {m va : Nat} (h : Tables s m) (valid : Valid (pte s m va)) :
    frameAt s m va ≠ 0 := fun none => valid.ne_zero ((h.pte_eq_zero va).mpr none)

section Copy

variable {s t u : VmState} {src m va f : Nat} {perm : BitVec 64} {ps : Pages}

theorem Copying.added (copying : Copying s t src m ps) (h : Tables s src) (other : src ≠ m)
    (filled : Filled s u m ((va, perm) :: ps)) (added : Added t u m va f)
    (valid : Valid (pte s src va)) (nz : f ≠ 0) :
    copyUserPage src va (f * PAGE_SIZE) u = .ok ((), u.putFrame f (s.mem (frameAt s src va))) ∧
      Copying s (u.putFrame f (s.mem (frameAt s src va))) src m ((va, perm) :: ps) := by
  obtain ⟨same, -⟩ := filled.others_same other h
  have there := frame_ne_zero h valid
  have held := h.node_held (Nat.le_of_eq (length_pagePath va)) there
  have page : u.mem (PTE_TO_PA (pte u src va) / PAGE_SIZE) = s.mem (frameAt s src va) := by
    rw [same.pte, h.pte_frame, Nat.mul_div_cancel _ (by decide)]
    exact filled.data _ there held.2
  refine ⟨?_, ?_⟩
  · change (if Valid (pte u src va) then _ else _ : Prog VmState Trap Unit) u = _
    rw [same.pte, if_pos valid]
    change Except.ok ((), u.putFrame (f * PAGE_SIZE / PAGE_SIZE) _) = _
    rw [page, Nat.mul_div_cancel _ (by decide)]
  · have frame : frameAt u m va ≠ 0 := by
      rw [added.frame]
      exact nz
    have mem : ∀ g, g ≠ frameAt u m va →
        (u.putFrame f (s.mem (frameAt s src va))).mem g = u.mem g := by
      intro g differs
      rw [added.frame] at differs
      exact Function.update_of_ne differs _ _
    obtain ⟨written, -, frames⟩ := filled.write frame mem rfl rfl rfl rfl
    refine ⟨written, ?_⟩
    intro va' perm' found
    rw [frames]
    by_cases here : pagePath va' = pagePath va
    · rw [frameAt_congr u m here, frameAt_congr s src here, added.frame]
      exact Function.update_self ..
    · rw [permAt, if_neg here] at found
      obtain ⟨g, pool, unused, -, at_⟩ := copying.mapped va' perm' found
      have old : frameAt t m va' ≠ 0 := by
        have first := h.first
        have lo := pool.1
        omega
      obtain ⟨kept, data⟩ := added.others va' here old
      have used := (copying.tables.node_held (Nat.le_of_eq (length_pagePath va')) old).2
      have differs : frameAt t m va' ≠ frameAt u m va := by
        rw [added.frame]
        intro clash
        have unused := added.unused
        rw [← clash] at unused
        change t.used (frameAt t m va') = true at used
        rw [used] at unused
        cases unused
      rw [kept, mem _ differs, data, copying.contents va' perm' found]

/-! One loop -/

/-- How a loop over the pages of `L` ends, when `ps` are in place at its start. -/
inductive Ends (s : VmState) (src m : Nat) (ps L : Pages) (r : Except Trap (Bool × VmState)) : Prop
  | all (u : VmState) (good : Good (pte s src) (free s) ps L)
      (copying : Copying s u src m (L.reverse ++ ps)) (run : r = .ok (true, u))
  | starved (done : Pages) (p : Nat × BitVec 64) (rest : Pages) (t u : VmState)
      (cut : L = done ++ p :: rest) (good : Good (pte s src) (free s) ps done)
      (short : Starved (HasTable s src) (free s) (done.reverse ++ ps) p)
      (copying : Copying s t src m (done.reverse ++ ps)) (refused : Refused t u m)
      (run : r = .ok (false, u))
  | breaks (done : Pages) (p : Nat × BitVec 64) (rest : Pages) (trap : Trap)
      (cut : L = done ++ p :: rest) (good : Good (pte s src) (free s) ps done)
      (broken : Breaks (pte s src) (HasTable s src) (free s) (done.reverse ++ ps) p)
      (run : r = .error trap)

theorem Ends.cons {p : Nat × BitVec 64} {L : Pages} {r : Except Trap (Bool × VmState)}
    (valid : Valid (pte s src p.1)) (room : Room (free s) 0 ps p.1)
    (ends : Ends s src m (p :: ps) L r) : Ends s src m ps (p :: L) r := by
  have turn : ∀ as : Pages, (p :: as).reverse ++ ps = as.reverse ++ p :: ps := by simp
  cases ends with
  | all u good copying run => exact .all u ⟨valid, room, good⟩ (turn L ▸ copying) run
  | starved done q rest t u cut good short copying refused run =>
    exact .starved (p :: done) q rest t u (by rw [cut]; rfl) ⟨valid, room, good⟩ (turn done ▸ short)
      (turn done ▸ copying) refused run
  | breaks done q rest trap cut good broken run =>
    exact .breaks (p :: done) q rest trap (by rw [cut]; rfl) ⟨valid, room, good⟩
      (turn done ▸ broken) run

theorem pteOf_none_iff (h : Tables s src) (va : Nat) : pteOf s src va = none ↔ ¬ HasTable s src va := by
  rw [h.pteOf_eq, HasTable, not_not]
  split
  · next absent => simp [absent]
  · next present => simp [present]

theorem not_table {x : BitVec 64} (h : Tables s src) (none : ¬ HasTable s src va)
    (is : x = pte s src va) : ¬ Valid x := by
  rw [is, pte_of_none ((pteOf_none_iff h va).mpr none)]
  decide

theorem dupPages_ends (h : Tables s src) (other : src ≠ m) (none : (s.mm m).kernelPagesCount = 0)
    {perm : BitVec 64 → BitVec 64} (low : ∀ x, (MMU_PTE_FLAGS ||| perm x) &&& 0xfffff000#64 = 0) (n va : Nat)
    (copying : Copying s t src m ps) :
    Ends s src m ps (dupList (pte s src) perm n va) (dupPages src m perm n va t) := by
  induction n generalizing va t ps with
  | zero => exact .all t trivial copying rfl
  | succ n ih =>
    obtain ⟨same, tables⟩ := copying.others_same other h
    have table : HasTable t src va ↔ HasTable s src va := by
      unfold HasTable
      rw [same.nodes (tablePath va) (Nat.le_succ 3)]
    have located : lift (mapPage src va 0 false 0) t = .ok (pteOf t src va, t) := by
      unfold lift
      rw [mapPage_locate]
    unfold dupPages
    rw [run_bind located]
    cases place : pteOf t src va with
    | none =>
      have none : ¬ HasTable s src va := table.not.mp ((pteOf_none_iff tables va).mp place)
      exact .breaks [] (va, perm (pte s src va)) _ .bug rfl trivial (.inl none) rfl
    | some q =>
      obtain ⟨frame, index⟩ := q
      have there : HasTable s src va := by
        by_contra absent
        rw [(pteOf_none_iff tables va).mpr (table.not.mpr absent)] at place
        cases place
      have word : t.mem frame index = pte s src va := by
        rw [← pte_of_some place, same.pte]
      change Ends s src m ps _ ((lift (allocateUserPageMm m va (perm (t.mem frame index))) >>= _) t)
      rw [word]
      have outcome := copying.toFilled.allocate va (low (pte s src va))
      rw [none] at outcome
      rcases outcome with ⟨room, f, u, ran, nz, filled, added⟩ | ⟨noRoom, u, ran, refused⟩
      · have lifted : lift (allocateUserPageMm m va (perm (pte s src va))) t =
            .ok (f * PAGE_SIZE, u) := by
          unfold lift
          rw [ran]
        rw [run_bind lifted, if_neg nz]
        by_cases valid : Valid (pte s src va)
        · have frame : f ≠ 0 := by
            rintro rfl
            exact nz (Nat.zero_mul _)
          obtain ⟨copied, next⟩ := copying.added h other filled added valid frame
          rw [run_bind copied]
          exact Ends.cons valid room (ih (va + PAGE_SIZE) next)
        · obtain ⟨same', -⟩ := filled.others_same other h
          have fault : copyUserPage src va (f * PAGE_SIZE) u = .error .fault := by
            change (if Valid (pte u src va) then _ else _ : Prog VmState Trap Unit) u = _
            rw [same'.pte, if_neg valid]
            rfl
          refine .breaks [] (va, perm (pte s src va)) _ .fault rfl trivial (.inr ⟨room, valid⟩) ?_
          simp only [bind, fault]
      · have lifted : lift (allocateUserPageMm m va (perm (pte s src va))) t = .ok (0, u) := by
          unfold lift
          rw [ran]
        rw [run_bind lifted, if_pos rfl]
        exact .starved [] (va, perm (pte s src va)) _ t u rfl trivial ⟨there, noRoom⟩ copying refused rfl

/-! Both loops -/

theorem Ends.append {A B : Pages} {first : Prog VmState Trap Bool} {second : Prog VmState Trap Bool}
    (ends : Ends s src m ps A (first t))
    (next : ∀ u, Copying s u src m (A.reverse ++ ps) → Ends s src m (A.reverse ++ ps) B (second u)) :
    Ends s src m ps (A ++ B) ((do if ← first then second else pure false) t) := by
  have turn : ∀ as : Pages, (A ++ as).reverse ++ ps = as.reverse ++ (A.reverse ++ ps) := by simp
  cases ends with
  | all u good copying run =>
    rw [run_bind run, if_pos rfl]
    cases next u copying with
    | all w good' copying' run' => exact .all w (good.append good') (turn B ▸ copying') run'
    | starved done p rest w w' cut good' short copying' refused run' =>
      exact .starved (A ++ done) p rest w w' (by rw [cut, append_assoc]) (good.append good')
        (turn done ▸ short) (turn done ▸ copying') refused run'
    | breaks done p rest trap cut good' broken run' =>
      exact .breaks (A ++ done) p rest trap (by rw [cut, append_assoc]) (good.append good')
        (turn done ▸ broken) run'
  | starved done p rest w w' cut good short copying refused run =>
    rw [run_bind run, if_neg Bool.false_ne_true]
    exact .starved done p (rest ++ B) w w' (by rw [cut, append_assoc]; rfl) good short copying
      refused rfl
  | breaks done p rest trap cut good broken run =>
    refine .breaks done p (rest ++ B) trap (by rw [cut, append_assoc]; rfl) good broken ?_
    simp only [bind, run]

end Copy

def stackPerm : BitVec 64 := MM_AP_RW ||| MM_XN

/-- The pages that are copied: those below the break, and the stack from `sp` on. -/
def dupAll (x : Nat → BitVec 64) (sz sp : Nat) : Pages :=
  dupList x PTE_TO_PERM (pageSteps 0 sz) 0 ++
    dupList x (fun _ => stackPerm) (pageSteps (PGROUNDDOWN sp) USER_VA_END) (PGROUNDDOWN sp)

def dupBoth (src sp dst sz : Nat) : Prog VmState Trap Bool := do
  if ← dupPages src dst PTE_TO_PERM (pageSteps 0 sz) 0 then
    dupPages src dst (fun _ => stackPerm) (pageSteps (PGROUNDDOWN sp) USER_VA_END) (PGROUNDDOWN sp)
  else pure false

def agree (s : VmState) (src dst : Nat) : VmState :=
  s.putMm dst { s.mm dst with sz := (s.mm src).sz, codesz := (s.mm src).codesz }

theorem dupCurrentVirtMemory_eq (src sp dst : Nat) (s : VmState) :
    dupCurrentVirtMemory src sp dst s = (match dupBoth src sp dst (s.mm src).sz s with
      | .ok (true, t) => .ok (0, agree t src dst)
      | .ok (false, t) => .ok (-1, t)
      | .error trap => .error trap) := by
  have enter : dupCurrentVirtMemory src sp dst s =
      (dupPages src dst PTE_TO_PERM (pageSteps 0 (s.mm src).sz) 0 >>= fun heap => if heap then
        dupPages src dst (fun _ => stackPerm) (pageSteps (PGROUNDDOWN sp) USER_VA_END)
          (PGROUNDDOWN sp) >>= fun stack => if stack then
            modify (agree · src dst) >>= fun _ => pure 0
          else pure (-1)
      else pure (-1)) s := rfl
  rw [enter]
  unfold dupBoth
  simp only [bind]
  cases dupPages src dst PTE_TO_PERM (pageSteps 0 (s.mm src).sz) 0 s with
  | error trap => rfl
  | ok r =>
    obtain ⟨heap, t⟩ := r
    cases heap with
    | false => rfl
    | true =>
      simp only [↓reduceIte]
      cases dupPages src dst (fun _ => stackPerm) (pageSteps (PGROUNDDOWN sp) USER_VA_END)
        (PGROUNDDOWN sp) t with
      | error trap => rfl
      | ok r =>
        obtain ⟨stack, u⟩ := r
        cases stack with
        | false => rfl
        | true => rfl

theorem PTE_TO_PERM_low (x : BitVec 64) : (MMU_PTE_FLAGS ||| PTE_TO_PERM x) &&& 0xfffff000#64 = 0 := by
  have flags : MMU_PTE_FLAGS &&& 0xfffff000#64 = 0#64 := by decide
  have mask : (MM_AP_MASK ||| MM_XN_MASK) &&& 0xfffff000#64 = 0#64 := by decide
  unfold PTE_TO_PERM
  rw [BitVec.and_comm, BitVec.and_or_distrib_left, BitVec.and_comm, flags, BitVec.and_comm,
    BitVec.and_assoc, mask, BitVec.and_zero]
  rfl

theorem dupBoth_ends {s : VmState} {src m sp sz : Nat} (h : Tables s src) (other : src ≠ m)
    (none : (s.mm m).kernelPagesCount = 0) (start : Filled s s m []) :
    Ends s src m [] (dupAll (pte s src) sz sp) (dupBoth src sp m sz s) := by
  have empty : Copying s s src m [] := ⟨start, fun va perm found => nomatch found⟩
  refine Ends.append (dupPages_ends h other none PTE_TO_PERM_low _ 0 empty) ?_
  intro u copying
  exact dupPages_ends h other none (fun _ => by decide) _ _ copying

/-! Permissions -/

theorem PTE_TO_PERM_entry {f : Nat} (small : f < 2 ^ 20) (perm : BitVec 64) :
    PTE_TO_PERM (entry f perm) = PTE_TO_PERM perm := by
  have flags : MMU_PTE_FLAGS &&& (MM_AP_MASK ||| MM_XN_MASK) = 0#64 := by decide
  have mask : 0xfffff000#64 &&& (MM_AP_MASK ||| MM_XN_MASK) = 0#64 := by decide
  unfold PTE_TO_PERM entry
  rw [← address_mask small, BitVec.and_comm, BitVec.and_or_distrib_left, BitVec.and_or_distrib_left,
    BitVec.and_comm, BitVec.and_assoc, mask, BitVec.and_zero, BitVec.and_comm _ MMU_PTE_FLAGS, flags,
    BitVec.zero_or, BitVec.zero_or, BitVec.and_comm]

theorem dupList_perm {x : Nat → BitVec 64} {perm : BitVec 64 → BitVec 64}
    (only : ∀ y, PTE_TO_PERM (perm y) = perm y) (n va : Nat) :
    ∀ p ∈ dupList x perm n va, PTE_TO_PERM p.2 = p.2 := by
  induction n generalizing va with
  | zero =>
    intro p none
    cases none
  | succ n ih =>
    intro p member
    rcases mem_cons.mp member with rfl | later
    · exact only _
    · exact ih _ p later

theorem dupAll_perm (x : Nat → BitVec 64) (sz sp : Nat) :
    ∀ p ∈ dupAll x sz sp, PTE_TO_PERM p.2 = p.2 := by
  intro p member
  rcases mem_append.mp member with heap | stack
  · grind [dupList_perm, PTE_TO_PERM, BitVec.and_assoc, BitVec.and_self]
  · exact dupList_perm (fun _ => by decide) _ _ p stack

end UvaOs.Vm
