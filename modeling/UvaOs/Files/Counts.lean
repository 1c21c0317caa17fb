import UvaOs.Lib.Total
import UvaOs.Lib.Prog
import UvaOs.Files.Calls

/-! Reference counts of open files over every interleaving of calls.
A descriptor slot, an entry that a call has allocated or has still to close, and a
reference that a call has promised by filling a slot before `filedup`, all have a
weight. The reference count of an entry is the sum of the weights in every state,
also in the middle of calls; with no call in progress only the slots are left. -/
namespace UvaOs.Files

open List

open UvaOs.Fs (IType Panic)

variable {f fd p : Nat} {ofile : Ofile} {s : State} {t : Task}

def slots (f : Nat) (ofile : Ofile) : Int :=
  total NOFILE (fun o => if o = some f then 1 else 0) ofile

def Closing.weight (f : Nat) : Closing → Int
  | .fileclose g => if g = f then 1 else 0
  | _ => 0

def Pc.weight (f : Nat) (ofile : Ofile) : Pc → Int
  | .openFd g _ _ _ | .pipeSecond g => if g = f then 1 else 0
  | .pipeAlloc g h | .pipeFds g h => (if g = f then 1 else 0) + (if h = f then 1 else 0)
  -- the slot is filled and the reference still to be taken
  | .dup g => -(if g = f then 1 else 0)
  -- the slot is to be cleared, its reference belongs to the pending close
  | .exitClear fd => -(if ofile fd = some f then 1 else 0)
  | _ => 0

def holds (f : Nat) (t : Task) : Int :=
  slots f t.ofile + (t.todo.map (Closing.weight f)).sum + t.pc.weight f t.ofile

/-- Close actions of life `n` of entry `f` that a task has still to run. -/
def Closing.acts (f n : Nat) : Closing → Int
  | .act g m _ => if g = f ∧ m = n then 1 else 0
  | _ => 0

def pending (f n : Nat) (t : Task) : Int := (t.todo.map (Closing.acts f n)).sum

/-- How often the close action of life `n` of entry `f` has run. -/
def ran (s : State) (f n : Nat) : Int :=
  (s.log.map (fun e => if e.1 = f ∧ e.2.1 = n then (1 : Int) else 0)).sum

/-- Life `n` of entry `f` is over: its last reference has gone. -/
def Over (s : State) (f n : Nat) : Prop :=
  1 ≤ n ∧ (n < s.life f ∨ n = s.life f ∧ (s.ftable f).ref = 0)

instance (s : State) (f n : Nat) : Decidable (Over s f n) := inferInstanceAs (Decidable (_ ∧ _))

def Empty (ofile : Ofile) : Prop := ∀ fd < NOFILE, ofile fd = none

/-- What a task has seen of its descriptors at each point of a call. -/
def Pc.Fits (ofile : Ofile) : Pc → Prop
  | .dup f => ∃ a < NOFILE, ∃ b < NOFILE, a ≠ b ∧ ofile a = some f ∧ ofile b = some f
  | .pipeCopyout rf wf fd0 fd1 => fd0 < NOFILE ∧ fd1 < NOFILE ∧ fd0 ≠ fd1 ∧
      ofile fd0 = some rf ∧ ofile fd1 = some wf
  | .exitFds fd => ∀ a < fd, a < NOFILE → ofile a = none
  | .exitClear fd => fd < NOFILE ∧ ∀ a < fd, ofile a = none
  | .exitZombie => Empty ofile
  | _ => True

def Pc.Forking (pc : Pc) : Prop := ∃ child fd, pc = .forkFds child fd

/-! Slots -/

theorem slots_update {ofile : Ofile} {fd : Nat} (hfd : fd < NOFILE) (f : Nat) (o : Option Nat) :
    slots f (Function.update ofile fd o) = slots f ofile +
      ((if o = some f then 1 else 0) - (if ofile fd = some f then 1 else 0)) :=
  total_update hfd o

theorem slots_empty (empty : Empty ofile) (f : Nat) : slots f ofile = 0 :=
  total_zero fun fd hfd => by simp [empty fd hfd]

theorem slot_le_slots {ofile : Ofile} {fd : Nat} (hfd : fd < NOFILE) (f : Nat) :
    (if ofile fd = some f then 1 else 0) ≤ slots f ofile :=
  weight_le_total (w := fun o => if o = some f then (1 : Int) else 0) hfd
    (fun _ _ => by split <;> omega)

theorem slots_nonneg (f : Nat) (ofile : Ofile) : 0 ≤ slots f ofile :=
  total_nonneg fun _ _ => by split <;> omega

theorem two_le_slots {a b : Nat} (ha : a < NOFILE) (hb : b < NOFILE)
    (ne : a ≠ b) (ofA : ofile a = some f) (ofB : ofile b = some f) : 2 ≤ slots f ofile := by
  have cleared := @slots_update ofile a ha f none
  have other := @slot_le_slots (Function.update ofile a none) b hb f
  rw [Function.update_of_ne (Ne.symm ne), ofB] at other
  simp only [ofA, reduceCtorEq, if_false, if_true] at cleared other
  omega

theorem fdalloc_some {ofile' : Ofile} (h : fdalloc ofile f = some (fd, ofile')) :
    fd < NOFILE ∧ ofile fd = none ∧ ofile' = Function.update ofile fd (some f) := by
  unfold fdalloc unusedFd at h
  split at h
  case h_2 => exact absurd h (by simp)
  case h_1 g found =>
    have free := find?_some found
    have range := mem_range.mp (mem_of_find?_eq_some found)
    simp only [Option.some.injEq, Prod.mk.injEq] at h
    obtain ⟨rfl, rfl⟩ := h
    exact ⟨range, of_decide_eq_true free, rfl⟩

theorem argfd_some {fd : Int} (h : argfd ofile fd = some f) :
    fd.toNat < NOFILE ∧ ofile fd.toNat = some f := by
  unfold argfd at h
  split at h
  · exact absurd h (by simp)
  · grind

theorem filealloc_some {ftable ftable' : Ftable} (h : filealloc ftable = some (f, ftable')) :
    f < NFILE ∧ (ftable f).ref = 0 ∧
      ftable' = Function.update ftable f { ftable f with ref := 1 } := by
  unfold filealloc unusedFile at h
  split at h
  case h_2 => exact absurd h (by simp)
  case h_1 g found =>
    have free := find?_some found
    have range := mem_range.mp (mem_of_find?_eq_some found)
    simp only [Option.some.injEq, Prod.mk.injEq] at h
    obtain ⟨rfl, rfl⟩ := h
    exact ⟨range, of_decide_eq_true free, rfl⟩

theorem unusedTask_some {child : Nat} (h : unusedTask s = some child) :
    child < NR_TASKS ∧ (s.task child).state = .unused := by
  have free := find?_some h
  obtain ⟨i, _, rfl⟩ := mem_map.mp (mem_of_find?_eq_some h)
  exact ⟨Nat.mod_lt _ (by decide), of_decide_eq_true free⟩

/-! Tasks -/

theorem weights_nonneg (f : Nat) (todo : List Closing) : 0 ≤ (todo.map (Closing.weight f)).sum := by
  refine sum_nonneg ?_
  simp only [mem_map, forall_exists_index, and_imp]
  rintro _ w _ rfl
  cases w with
  | fileclose g =>
    simp only [Closing.weight]
    split <;> omega
  | act | kthread => exact le_refl 0

theorem holds_nonneg (fits : t.pc.Fits t.ofile) (f : Nat) : 0 ≤ holds f t := by
  have todo := weights_nonneg f t.todo
  have own := slots_nonneg f t.ofile
  unfold holds
  cases h : t.pc with
  | dup g =>
    rw [h] at fits
    obtain ⟨a, ha, b, hb, ne, ofA, ofB⟩ := fits
    simp only [Pc.weight]
    split
    · rename_i e
      subst e
      have two := two_le_slots ha hb ne ofA ofB
      omega
    · omega
  | exitClear fd =>
    rw [h] at fits
    have one := @slot_le_slots t.ofile _ fits.1 f
    simp only [Pc.weight]
    omega
  | idle | openFill | pipeCopyout | fork | forkFds | exitFds | exitZombie =>
    simp only [Pc.weight]
    omega
  | openFd | pipeSecond =>
    simp only [Pc.weight]
    split <;> omega
  | pipeAlloc | pipeFds =>
    simp only [Pc.weight]
    split <;> split <;> omega

theorem holds_idle (idle : t.Idle) (f : Nat) : holds f t = slots f t.ofile := by
  simp [holds, idle.1, idle.2, Pc.weight]

theorem pending_idle (idle : t.Idle) (f n : Nat) : pending f n t = 0 := by
  simp [pending, idle.1]

theorem clearing_of_holds (fits : t.pc.Fits t.ofile) (hfd : fd < NOFILE)
    (slot : t.ofile fd = some f) (none : holds f t = 0) : t.pc = .exitClear fd := by
  have todo := weights_nonneg f t.todo
  have own := @slot_le_slots t.ofile _ hfd f
  rw [slot, if_pos rfl] at own
  unfold holds at none
  cases h : t.pc with
  | dup g =>
    rw [h] at fits none
    obtain ⟨a, ha, b, hb, ne, ofA, ofB⟩ := fits
    simp only [Pc.weight] at none
    split at none
    · rename_i e
      subst e
      have two := two_le_slots ha hb ne ofA ofB
      omega
    · omega
  | exitClear c =>
    rw [h] at fits none
    by_cases e : c = fd
    · rw [e]
    · exfalso
      simp only [Pc.weight] at none
      split at none
      · rename_i same
        have two := two_le_slots fits.1 hfd e same slot
        omega
      · omega
  | idle | openFill | pipeCopyout | fork | forkFds | exitFds | exitZombie =>
    simp only [h, Pc.weight] at none
    omega
  | openFd | pipeSecond =>
    simp only [h, Pc.weight] at none
    split at none <;> omega
  | pipeAlloc | pipeFds => grind [Pc.weight]

structure Inv (s : State) : Prop where
  counted : ∀ f, (s.ftable f).ref = total NR_TASKS (holds f) s.task
  fits : ∀ p < NR_TASKS, (s.task p).pc.Fits (s.task p).ofile
  idle : ∀ p < NR_TASKS, (s.task p).state ≠ .active → (s.task p).Idle
  emptied : ∀ p < NR_TASKS, (s.task p).state = .zombie → Empty (s.task p).ofile
  forking : ∀ p < NR_TASKS, ∀ child fd, (s.task p).pc = .forkFds child fd →
    (s.task p).todo = [] ∧ s.sched = some p ∧ child < NR_TASKS ∧
      (s.task child).state = .unused ∧ ∀ a < NOFILE, fd ≤ a → (s.task child).ofile a = none
  unused : ∀ q < NR_TASKS, (s.task q).state = .unused →
    Empty (s.task q).ofile ∨ ∃ p < NR_TASKS, ∃ fd, (s.task p).pc = .forkFds q fd
  born : ∀ f, (s.ftable f).ref ≠ 0 → 1 ≤ s.life f
  logged : ∀ f n, ran s f n + total NR_TASKS (pending f n) s.task = if Over s f n then 1 else 0

theorem Boot.inv (boot : Boot s) : Inv s where
  counted f := by
    rw [boot.closed f, total_zero]
    · rfl
    · intro p _
      rw [boot.quiet p]
      exact (holds_idle ⟨rfl, rfl⟩ f).trans (slots_empty (fun _ _ => rfl) f)
  fits p _ := by rw [boot.quiet p]; trivial
  idle p _ _ := by rw [boot.quiet p]; exact ⟨rfl, rfl⟩
  emptied p _ z := absurd z (boot.alive p)
  forking p _ child fd h := by rw [boot.quiet p] at h; cases h
  unused q _ _ := by rw [boot.quiet q]; exact .inl fun _ _ => rfl
  born f used := by rw [boot.closed f] at used; exact absurd rfl used
  logged f n := by
    have never : ¬ Over s f n := by
      rintro ⟨pos, before | now⟩
      · rw [boot.fresh] at before; omega
      · rw [boot.fresh] at now; omega
    rw [if_neg never, total_zero]
    · simp [ran, boot.unlogged]
    · intro p _
      rw [boot.quiet p]
      exact pending_idle ⟨rfl, rfl⟩ f n

theorem Inv.unforked (inv : Inv s) (free : s.sched = none) :
    ∀ q < NR_TASKS, ¬ (s.task q).pc.Forking := by
  rintro q hq ⟨c, fd, h⟩
  have mine := (inv.forking q hq c fd h).2.1
  rw [free] at mine
  cases mine

theorem Inv.unused_empty (inv : Inv s) (free : s.sched = none) {q : Nat}
    (hq : q < NR_TASKS) (unused : (s.task q).state = .unused) : Empty (s.task q).ofile := by
  refine (inv.unused q hq unused).resolve_right ?_
  rintro ⟨p, hp, fd, pc⟩
  exact inv.unforked free p hp ⟨q, fd, pc⟩

/- An entry with no references is in no slot, apart from one that an exiting task
closed and clears next. -/
theorem Inv.unreferenced (inv : Inv s) (hp : p < NR_TASKS)
    (hfd : fd < NOFILE) (zero : (s.ftable f).ref = 0) (slot : (s.task p).ofile fd = some f) :
    (s.task p).pc = .exitClear fd := by
  refine clearing_of_holds (inv.fits p hp) hfd slot ?_
  exact eq_zero_of_total hp (fun q hq => holds_nonneg (inv.fits q hq) f)
    ((inv.counted f).symm.trans zero)

theorem Inv.holds_le (inv : Inv s) (hp : p < NR_TASKS) (f : Nat) :
    holds f (s.task p) ≤ (s.ftable f).ref := by
  rw [inv.counted f]
  exact weight_le_total hp (fun q hq => holds_nonneg (inv.fits q hq) f)

end UvaOs.Files
