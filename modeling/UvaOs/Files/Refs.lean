import UvaOs.Files.Turns

/-! Reference counts of open files in every run. -/
namespace UvaOs.Files

open List

open UvaOs.Fs (IType Panic)
open Prog (Reach)
open Function (update update_self update_of_ne)

variable {p : Nat} {pc : Pc} {s : State}

@[simp] theorem forking_iff : pc.Forking ↔ ∃ c fd, pc = .forkFds c fd := Iff.rfl

theorem update_ref {ftable : Ftable} {f : Nat} {x : File} (same : x.ref = (ftable f).ref) (g : Nat) :
    (update ftable f x g).ref = (ftable g).ref := by
  by_cases e : g = f
  · rw [e, update_self, same]
  · rw [update_of_ne e]

theorem allocated_used {f : Nat} {ftable : Ftable}
    (alloc : filealloc s.ftable = some (f, ftable)) (g : Nat)
    (zero : ((s.allocated p f ftable pc).ftable g).ref = 0) : (s.ftable g).ref = 0 := by
  obtain ⟨_, free, rfl⟩ := filealloc_some alloc
  simp only [State.allocated] at zero
  by_cases e : g = f
  · rw [e, free]
  · simpa only [update_of_ne e] using zero

theorem Inv.stepClosing {w : Closing} {rest : List Closing} (env : Env)
    (inv : Inv s) (hp : p < NR_TASKS) (active : (s.task p).state = .active)
    (todo : (s.task p).todo = w :: rest) : Served s p (stepClosing s p env rest w) := by
  have apart : ¬ (s.task p).pc.Forking := by
    rintro ⟨c, fd, h⟩
    have none := (inv.forking p hp c fd h).1
    rw [todo] at none
    cases none
  cases w with
  | fileclose f => exact inv.dropped env hp active todo apart
  | act f life ff => exact inv.acted env hp active todo apart
  | kthread =>
    rw [UvaOs.Files.stepClosing]
    split
    · rename_i free
      refine Inv.served (Inv.copyKthread ?_ free) ?_
      · refine inv.own_turn hp active (.inl active) ⟨apart, apart⟩ (inv.fits p hp) ?_ ?_
        · intro f
          rw [holds_cons todo]
          simp only [Closing.weight]
          omega
        · intro f n
          rw [pending_cons todo]
          simp only [Closing.acts]
          omega
      · intro f h
        unfold UvaOs.Files.copyKthread at h
        split at h <;> exact h
    · exact inv.served

section

variable {s : State} {p : Nat} (inv : Inv s) (hp : p < NR_TASKS)
  (active : (s.task p).state = .active) (todo : (s.task p).todo = [])

include inv hp active todo

variable {type : IType} {f fd ip omode rf wf : Nat}

/- A step of a call that only moves references between the slots of the task and
what its call has in hand. Nothing it leaves to do is a close action. -/
theorem Inv.moved {ofile : Ofile} {closes : List Closing}
    (same : ∀ f, holds f { s.task p with ofile := ofile, todo := closes, pc := pc } =
      slots f (s.task p).ofile + (s.task p).pc.weight f (s.task p).ofile)
    (fits : pc.Fits ofile)
    (apart : ¬ (s.task p).pc.Forking ∧ ¬ pc.Forking)
    (acts : ∀ f n, (closes.map (Closing.acts f n)).sum = 0) :
    Served s p (.ok (s.putTask p { s.task p with ofile := ofile, todo := closes, pc := pc })) := by
  refine Inv.served (inv.own_turn hp active (.inl active) apart fits ?_ ?_)
  · intro f
    rw [same f]
    simp [holds, todo]
  · intro f n
    simp [pending, todo, acts f n]

theorem Inv.openFd (env : Env) (pc : (s.task p).pc = .openFd f type ip omode) :
    Served s p (stepPc s p env (.openFd f type ip omode)) := by
  dsimp only [UvaOs.Files.stepPc]
  split
  case h_1 fd ofile found =>
    obtain ⟨hfd, free, rfl⟩ := fdalloc_some found
    refine inv.moved hp active todo (fun g => ?_) trivial (by simp [*]) (by simp [todo])
    simp [holds, todo, pc, Pc.weight, slots_update hfd, free]
  case h_2 =>
    refine inv.moved hp active todo (fun g => ?_) trivial (by simp [*]) (by simp [Closing.acts, *])
    simp [holds, pc, Pc.weight, Closing.weight]

omit todo in
theorem Inv.openFill (env : Env) (pc : (s.task p).pc = .openFill f type ip omode) :
    Served s p (stepPc s p env (.openFill f type ip omode)) := by
  have refs : ∀ g, (update s.ftable f (prepfile (s.ftable f) type ip omode) g).ref =
      (s.ftable g).ref := update_ref rfl
  refine Inv.served (Inv.fill (s := s.putTask p { s.task p with pc := .idle }) ?_ refs)
    fun g h => (refs g).symm.trans h
  refine inv.own_turn hp active (.inl active) (by simp [pc]) trivial ?_ (fun _ _ => rfl)
  intro g
  simp [holds, pc, Pc.weight]

theorem Inv.dup (env : Env) (pc : (s.task p).pc = .dup f) :
    Served s p (stepPc s p env (.dup f)) := by
  have fits := inv.fits p hp
  rw [pc] at fits
  obtain ⟨a, ha, b, hb, ne, ofA, ofB⟩ := fits
  have ref : 1 ≤ (s.ftable f).ref := by
    have two := two_le_slots ha hb ne ofA ofB
    have le := inv.holds_le hp f
    simp only [holds, todo, pc, Pc.weight, map_nil, sum_nil, if_true] at le
    omega
  obtain ⟨ftable, ok, refs, used⟩ := filedup_ok ref
  dsimp only [UvaOs.Files.stepPc]
  rw [ok]
  refine Inv.served (inv.turn (t := { s.task p with pc := .idle }) hp active
    ⟨rfl, rfl, .inl active, by simp [pc], trivial, ?_,
      fun g h => inv.born g (fun z => h ((used g).mpr z)),
      settled_of_same rfl rfl used (fun _ _ => rfl)⟩) (fun g => (used g).mp)
  intro g
  simp only [refs g, holds, pc, Pc.weight]
  omega

theorem Inv.pipeSecond (env : Env) (pc : (s.task p).pc = .pipeSecond rf) :
    Served s p (stepPc s p env (.pipeSecond rf)) := by
  dsimp only [UvaOs.Files.stepPc]
  split
  case h_1 wf ftable found =>
    refine Inv.served (inv.allocated hp active found (by simp [pc]) trivial ?_) (allocated_used found)
    intro g
    simp [pc, Pc.weight]
  case h_2 =>
    refine inv.moved hp active todo (fun g => ?_) trivial (by simp [*]) (by simp [Closing.acts, *])
    simp [holds, pc, Pc.weight, Closing.weight]

theorem Inv.pipeAlloc (env : Env) (pc : (s.task p).pc = .pipeAlloc rf wf) :
    Served s p (stepPc s p env (.pipeAlloc rf wf)) := by
  dsimp only [UvaOs.Files.stepPc]
  split
  · refine inv.moved hp active todo (fun g => ?_) trivial (by simp [*]) (by simp [Closing.acts, *])
    simp [holds, pc, Pc.weight, Closing.weight]
  · have fill : ∀ (ftable : Ftable) f w g,
        (update ftable f (pipeEnd (ftable f) env.kalloc w) g).ref = (ftable g).ref :=
      fun _ _ _ => update_ref rfl
    have both := fun g => (fill _ wf true g).trans (fill s.ftable rf false g)
    refine Inv.served (Inv.fill (s := s.putTask p { s.task p with pc := .pipeFds rf wf }) ?_ both)
      fun g h => (both g).symm.trans h
    refine inv.own_turn hp active (.inl active) (by simp [pc]) trivial ?_ (fun _ _ => rfl)
    intro g
    simp [holds, pc, Pc.weight]

theorem Inv.pipeFds (env : Env) (pc : (s.task p).pc = .pipeFds rf wf) :
    Served s p (stepPc s p env (.pipeFds rf wf)) := by
  dsimp only [UvaOs.Files.stepPc]
  split
  case h_1 =>
    refine inv.moved hp active todo (fun g => ?_) trivial (by simp [*]) (by simp [Closing.acts, *])
    simp [holds, pc, Pc.weight, Closing.weight]
  case h_2 fd0 ofile found =>
    obtain ⟨h0, free0, rfl⟩ := fdalloc_some found
    split
    case h_1 =>
      refine inv.moved hp active todo ?_ trivial (by simp [*]) (by simp [Closing.acts, *])
      grind [holds, slots_update, update_self, Pc.weight, Closing.weight]
    case h_2 fd1 ofile' found' =>
      obtain ⟨h1, free1, rfl⟩ := fdalloc_some found'
      have ne : fd0 ≠ fd1 := by grind
      refine inv.moved hp active todo ?_ ⟨h0, h1, ne, ?_, update_self ..⟩
        (by simp [*]) (by simp [todo])
      · grind [holds, Pc.weight, slots_update]
      · simp only [update_of_ne ne, update_self]

theorem Inv.pipeCopyout {fd0 fd1 : Nat} (env : Env)
    (pc : (s.task p).pc = .pipeCopyout rf wf fd0 fd1) :
    Served s p (stepPc s p env (.pipeCopyout rf wf fd0 fd1)) := by
  have fits := inv.fits p hp
  rw [pc] at fits
  obtain ⟨h0, h1, ne, of0, of1⟩ := fits
  dsimp only [UvaOs.Files.stepPc]
  split
  · refine inv.moved hp active todo (fun g => ?_) trivial (by simp [*]) (by simp [todo])
    simp [holds, todo, pc, Pc.weight]
  · refine inv.moved hp active todo (fun g => ?_) trivial (by simp [*]) (by simp [Closing.acts, *])
    simp only [holds, slots_update h1, slots_update h0, update_of_ne (Ne.symm ne), of0, of1, pc,
      Pc.weight, Closing.weight, map_cons, map_nil, sum_cons, sum_nil,
      Option.some.injEq, reduceCtorEq, if_false]
    omega

theorem Inv.fork (env : Env) (pc : (s.task p).pc = .fork) : Served s p (stepPc s p env .fork) := by
  dsimp only [UvaOs.Files.stepPc]
  split
  · rename_i free
    refine Inv.served (inv.copyBegin hp active free todo pc) ?_
    intro g h
    unfold UvaOs.Files.copyBegin at h
    split at h <;> exact h
  · exact inv.served

theorem Inv.forkFds {child : Nat} (env : Env) (pc : (s.task p).pc = .forkFds child fd) :
    Served s p (stepPc s p env (.forkFds child fd)) := by
  obtain ⟨_, locked, hc, unused, rest⟩ := inv.forking p hp child fd pc
  have idle := inv.idle child hc (by rw [unused]; exact TaskState.noConfusion)
  dsimp only [UvaOs.Files.stepPc]
  by_cases more : fd < NOFILE
  · rw [if_pos more]
    cases slot : (s.task p).ofile fd with
    | none =>
      refine Inv.served (inv.forked (c := s.task child) hp active pc idle ?_
        (.inl ⟨unused, rfl, rfl, fun a ha le => rest a ha (by omega)⟩)
        (fun f => ?_) (fun _ => Iff.rfl) rfl rfl)
      · simp [State.putTask]
      · simp [State.putTask]
    | some f =>
      have ref : 1 ≤ (s.ftable f).ref := by
        have le := inv.holds_le hp f
        have own := @slot_le_slots (s.task p).ofile _ more f
        simp only [holds, todo, pc, Pc.weight, map_nil, sum_nil, slot, if_true] at le own
        omega
      obtain ⟨ftable, ok, refs, used⟩ := filedup_ok ref
      simp only [ok]
      refine Inv.served (inv.forked (c := { s.task child with
        ofile := update (s.task child).ofile fd (some f) }) hp active pc idle rfl
        (.inl ⟨unused, rfl, rfl, ?_⟩) ?_ used rfl rfl) (fun g => (used g).mp)
      · grind
      · intro g
        simp only [refs g, slots_update more, rest fd more (le_refl fd), Option.some.injEq,
          reduceCtorEq, if_false]
        omega
  · rw [if_neg more]
    refine Inv.served (inv.forked (c := { s.task child with state := .active }) hp active pc
      idle rfl (.inr ⟨rfl, rfl, rfl⟩) (fun f => ?_) (fun _ => Iff.rfl) rfl rfl)
    simp [State.putTask]

theorem Inv.exitFds (env : Env) (pc : (s.task p).pc = .exitFds fd) :
    Served s p (stepPc s p env (.exitFds fd)) := by
  have fits := inv.fits p hp
  rw [pc] at fits
  dsimp only [UvaOs.Files.stepPc]
  by_cases more : fd < NOFILE
  · rw [if_pos more]
    cases slot : (s.task p).ofile fd with
    | none =>
      refine inv.moved hp active todo (fun g => ?_) ?_ (by simp [*]) (by simp [todo])
      · simp [holds, todo, pc, Pc.weight]
      · intro a ha range
        by_cases e : a = fd
        · rw [e]; exact slot
        · exact fits a (by omega) range
    | some f =>
      refine inv.moved hp active todo (fun g => ?_) ⟨more, fun a ha => fits a ha (by omega)⟩
        (by simp [*]) (by simp [Closing.acts, *])
      simp [holds, pc, Pc.weight, Closing.weight, slot]
  · rw [if_neg more]
    refine inv.moved hp active todo (fun g => ?_) (fun a ha => fits a (by omega) ha)
      (by simp [*]) (by simp [todo])
    simp [holds, todo, pc, Pc.weight]

theorem Inv.exitClear (env : Env) (pc : (s.task p).pc = .exitClear fd) :
    Served s p (stepPc s p env (.exitClear fd)) := by
  have fits := inv.fits p hp
  rw [pc] at fits
  refine inv.moved hp active todo (fun g => ?_) ?_ (by simp [*]) (by simp [todo])
  · simp only [holds, todo, pc, Pc.weight, slots_update fits.1, map_nil, sum_nil,
      reduceCtorEq, if_false]
    omega
  · intro a ha range
    by_cases e : a = fd
    · subst e
      exact update_self ..
    · simp only [update_of_ne e]
      exact fits.2 a (by omega)

theorem Inv.exitZombie (env : Env) (pc : (s.task p).pc = .exitZombie) :
    Served s p (stepPc s p env .exitZombie) := by
  have fits := inv.fits p hp
  rw [pc] at fits
  dsimp only [UvaOs.Files.stepPc]
  split
  · refine Inv.served (inv.own_turn hp active (.inr ⟨rfl, ⟨todo, rfl⟩, fits⟩) (by simp [pc]) trivial ?_
      (fun _ _ => rfl))
    intro g
    simp [holds, pc, Pc.weight]
  · exact inv.served

theorem Inv.stepPc (env : Env) : Served s p (stepPc s p env (s.task p).pc) := by
  cases pc : (s.task p).pc with
  | idle => exact inv.served
  | openFd => exact inv.openFd hp active todo env pc
  | openFill => exact inv.openFill hp active env pc
  | dup => exact inv.dup hp active todo env pc
  | pipeSecond => exact inv.pipeSecond hp active todo env pc
  | pipeAlloc => exact inv.pipeAlloc hp active todo env pc
  | pipeFds => exact inv.pipeFds hp active todo env pc
  | pipeCopyout => exact inv.pipeCopyout hp active todo env pc
  | fork => exact inv.fork hp active todo env pc
  | forkFds => exact inv.forkFds hp active todo env pc
  | exitFds => exact inv.exitFds hp active todo env pc
  | exitClear => exact inv.exitClear hp active todo env pc
  | exitZombie => exact inv.exitZombie hp active todo env pc

end

variable {t : State}

theorem Inv.stepCall (c : Call) (inv : Inv s) (hp : p < NR_TASKS)
    (active : (s.task p).state = .active) (idle : (s.task p).Idle) :
    Served s p (stepCall s p c) ∨ stepCall s p c = .error .initExiting := by
  obtain ⟨todo, pc⟩ := idle
  cases c with
  | sysOpen type ip omode =>
    left
    rw [UvaOs.Files.stepCall]
    split
    case h_1 f ftable found =>
      refine Inv.served (inv.allocated hp active found (by simp [pc]) trivial ?_) (allocated_used found)
      intro g
      simp [pc, Pc.weight]
    case h_2 => exact inv.served
  | sysDup fd =>
    left
    rw [UvaOs.Files.stepCall]
    split
    case h_1 => exact inv.served
    case h_2 f arg =>
      obtain ⟨hfd, slot⟩ := argfd_some arg
      split
      case h_1 => exact inv.served
      case h_2 fd1 ofile found =>
        obtain ⟨h1, free, rfl⟩ := fdalloc_some found
        have ne : fd.toNat ≠ fd1 := by
          intro e
          rw [e, free] at slot
          cases slot
        refine inv.moved hp active todo (fun g => ?_) ⟨fd.toNat, hfd, fd1, h1, ne, ?_, update_self ..⟩
          (by simp [*]) (by simp [todo])
        · simp [holds, todo, pc, Pc.weight, slots_update h1, free]
        · simp only [update_of_ne ne]
          exact slot
  | sysClose fd =>
    left
    rw [UvaOs.Files.stepCall]
    split
    case h_1 => exact inv.served
    case h_2 f arg =>
      obtain ⟨hfd, slot⟩ := argfd_some arg
      refine inv.moved hp active todo (fun g => ?_) (by rw [pc]; trivial)
        (by simp [*]) (by simp [Closing.acts, *])
      simp [holds, pc, Pc.weight, Closing.weight, slots_update hfd, slot]
  | sysPipe =>
    left
    rw [UvaOs.Files.stepCall]
    split
    case h_1 f ftable found =>
      refine Inv.served (inv.allocated hp active found (by simp [pc]) trivial ?_) (allocated_used found)
      intro g
      simp [pc, Pc.weight]
    case h_2 => exact inv.served
  | fork =>
    left
    refine inv.moved hp active todo (fun g => ?_) trivial (by simp [*]) (by simp [todo])
    simp [holds, todo, pc, Pc.weight]
  | kthread =>
    left
    refine inv.moved hp active todo (fun g => ?_) (by rw [pc]; trivial)
      (by simp [*]) (by simp [Closing.acts, *])
    simp [holds, pc, Pc.weight, Closing.weight]
  | exitProcess =>
    rw [UvaOs.Files.stepCall]
    split
    · exact .inr rfl
    · left
      refine inv.moved hp active todo (fun g => ?_) (fun a ha => by omega)
        (by simp [*]) (by simp [todo])
      simp [holds, todo, pc, Pc.weight]
  | wait child =>
    left
    rw [UvaOs.Files.stepCall]
    split
    · rename_i found
      obtain ⟨free, hc, zombie⟩ := found
      have rest := inv.idle child hc (by rw [zombie]; exact TaskState.noConfusion)
      have empty := inv.emptied child hc zombie
      exact Inv.served (inv.replaced free hc rest empty rest empty)
    · exact inv.served

theorem Inv.step (inv : Inv s) (e : Event) (hp : e.task < NR_TASKS)
    (active : (s.task e.task).state = .active) :
    Served s e.task (step s e) ∨ step s e = .error .initExiting := by
  cases e with
  | call p c =>
    rw [UvaOs.Files.step]
    split
    case h_1 todo pc => exact inv.stepCall c hp active ⟨todo, pc⟩
    case h_2 => exact .inl inv.served
  | run p env =>
    left
    rw [UvaOs.Files.step]
    cases todo : (s.task p).todo with
    | cons w rest => exact inv.stepClosing env hp active todo
    | nil => exact inv.stepPc hp active todo env

theorem Inv.next (inv : Inv s) (step : Step s t) : Inv t := by
  obtain ⟨e, hp, active, run⟩ := step
  rcases inv.step e hp active with ⟨s', ok, kept⟩ | stopped
  · rw [run] at ok
    cases ok
    exact kept.inv
  · rw [run] at stopped
    cases stopped

def descriptors (s : State) (f : Nat) : Int :=
  total NR_TASKS (fun t => if t.state = .unused then 0 else slots f t.ofile) s.task

theorem Quiescent.unforked (quiet : Quiescent s) :
    ∀ p < NR_TASKS, ∀ q fd, (s.task p).pc ≠ .forkFds q fd := by
  intro p hp q fd pc
  rw [(quiet p hp).2] at pc
  cases pc

theorem Inv.descriptors (inv : Inv s) (quiet : Quiescent s) (f : Nat) :
    (s.ftable f).ref = descriptors s f := by
  rw [inv.counted f]
  refine total_congr fun p hp => ?_
  rw [holds_idle (quiet p hp)]
  split
  · grind [inv.unused, quiet.unforked, unused, slots_empty]
  · rfl

theorem Inv.ran_quiescent (inv : Inv s) (quiet : Quiescent s) (f n : Nat) :
    ran s f n = if Over s f n then 1 else 0 := by
  rw [← inv.logged f n, total_zero fun p hp => pending_idle (quiet p hp) f n, add_zero]

theorem pending_nonneg (f n : Nat) (t : Task) : 0 ≤ pending f n t := by
  refine sum_nonneg ?_
  simp only [mem_map, forall_exists_index, and_imp]
  rintro _ w _ rfl
  cases w with
  | act g m ff =>
    simp only [Closing.acts]
    split <;> omega
  | fileclose | kthread => exact le_refl 0

theorem Inv.ran_le (inv : Inv s) (f n : Nat) : ran s f n ≤ 1 := by
  have books := inv.logged f n
  have later : 0 ≤ total NR_TASKS (pending f n) s.task :=
    total_nonneg fun p _ => pending_nonneg f n (s.task p)
  split at books <;> omega

def bootState : State where
  ftable := fun _ => File.zero
  sched := none
  lastpid := 1
  task := fun p => { Task.zero with state := if p ≤ 1 then .active else .unused }
  life := fun _ => 0
  log := []

theorem bootState_boot : Boot bootState := by
  refine ⟨fun _ => rfl, fun _ => rfl, fun _ => rfl, ?_, rfl, rfl⟩
  intro p
  simp only [bootState]
  split <;> exact TaskState.noConfusion

def after (s : State) (e : Event) : State :=
  match step s e with
  | .ok t => t
  | .error _ => s

theorem Reach.after (reached : Reach Boot Step s) {e : Event}
    (hp : e.task < NR_TASKS) (active : (s.task e.task).state = .active) (run : step s e = .ok t) :
    Reach Boot Step (after s e) := by
  refine reached.next ⟨e, hp, active, ?_⟩
  rw [UvaOs.Files.after, run]

def openedState : State :=
  after (after (after bootState (.call 1 (.sysOpen .file 3 O_RDWR))) (.run 1 ⟨0, true, 0⟩))
    (.run 1 ⟨0, true, 0⟩)

end UvaOs.Files
