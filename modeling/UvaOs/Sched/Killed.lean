import UvaOs.Sched.Family

/-! `kill` and the tasks in `wait`: a task that has been killed does not sleep there. -/
namespace UvaOs.Sched

open UvaOs.Files (NR_TASKS)
open Prog (Reach)
open Function (update update_self update_of_ne)

variable {c : Nat} {point : Point} {s t : State}

section

variable {ncpu : Nat} {s t : State}

variable {copied : Bool} {e : Event} {addr i j p : Nat}

theorem sleeper_elsewhere (others : ∀ j, j ≠ i → t.task j = s.task j)
    (awake : (t.task i).state ≠ .sleeping)
    (cores : ∀ d < ncpu, ∀ next addr, (t.core d).pc = .switching next (.wait addr) →
      (s.core d).pc = .switching next (.wait addr) ∧ (s.core d).stack = (t.core d).stack)
    (inWait : InWait ncpu t j) (sleeps : (t.task j).state = .sleeping) :
    InWait ncpu s j ∧ (s.task j).state = .sleeping ∧ ((t.task j).killed = true → (s.task j).killed = true) := by
  have ne : j ≠ i := by
    rintro rfl
    exact awake sleeps
  refine ⟨inWait_of_same (by rw [others j ne]) cores inWait, ?_⟩
  rw [← others j ne]
  exact ⟨sleeps, id⟩

theorem waiter_before (inv : Inv ncpu s) (act : Act ncpu s t e)
    (inWait : InWait ncpu t j) (sleeps : (t.task j).state = .sleeping) :
    InWait ncpu s j ∧ (s.task j).state = .sleeping ∧ ((t.task j).killed = true → (s.task j).killed = true) ∨
      (t.task j).killed = false := by
  cases act with
  | calm calm _ =>
    obtain ⟨before, slept, -, killed⟩ := calm.sleeper j inWait sleeps
    exact .inl ⟨before, slept, killed⟩
  | @exit c i status hc proc ne free eq =>
    subst eq
    left
    have woken := announce_woken (s.acquire c .out) i
    have told := sleeper_elsewhere (i := i) (s := announce (s.acquire c .out) i) (fun k ne => ?_) ?_
      (fun d _ next addr pc => ?_) inWait sleeps
    · obtain ⟨before, slept, killed⟩ := told
      rw [announce_frame (s.acquire c .out)] at killed
      exact ⟨inWait_goTo (fun ⟨_, _, h⟩ => nomatch h) (woken.inWait before), woken.sleeping slept, killed⟩
    · rw [exitProcess_task, update_of_ne ne]
    · rw [exitProcess_task, update_self]
      exact TaskState.noConfusion
    · have core : (exitProcess (s.acquire c .out) c i status).core =
          update (announce (s.acquire c .out) i).core c
            { (announce (s.acquire c .out) i).core c with
              proc := .idle c, pc := .switching (.idle c) .exit } := rfl
      by_cases e : d = c
      · rw [e, core, update_self] at pc
        cases pc
      · rw [core, update_of_ne e] at pc ⊢
        exact ⟨pc, rfl⟩
  | @fork c p child hc proc free found eq =>
    rw [copyProcess_task found] at eq
    have task := congrArg State.task eq
    have core := congrArg State.core eq
    left
    refine sleeper_elsewhere (i := child) (fun k ne => ?_) ?_ (fun d _ next addr pc => ?_)
      inWait sleeps
    · exact (congrFun task k).trans (update_of_ne ne ..)
    · rw [(congrFun task child).trans (update_self ..)]
      exact TaskState.noConfusion
    · rw [core] at pc ⊢
      exact ⟨pc, rfl⟩
  | @reap c p i addr copied hc pc proc found eq =>
    subst eq
    left
    have quiet : Quiet ncpu s (returns s p (s.task i).pid
        (if addr = 0 then none else some (s.task i).xstate)) := returns_quiet s p _ _
    have freed := sleeper_elsewhere (i := i) (s := returns s p (s.task i).pid _)
      (fun k ne => by rw [freeproc_task, update_of_ne ne])
      (by rw [freeproc_task, update_self]; exact TaskState.noConfusion)
      (fun d hd next addr h => ?_) inWait sleeps
    · obtain ⟨before, slept, -, killed⟩ := quiet.calm.sleeper j freed.1 freed.2.1
      exact ⟨before, slept, fun dead => killed (freed.2.2 dead)⟩
    · by_cases e : d = c
      · subst e
        simp only [State.release, State.goTo, State.onCore, update_self] at h
        cases h
      · simp only [State.release, State.goTo, State.onCore, update_of_ne e] at h ⊢
        exact ⟨h, rfl⟩
  | @sleep c p addr copied hc pc proc found kids eq =>
    subst eq
    by_cases e : j = p
    · subst e
      rw [sleep_task, update_self]
      exact .inr kids.2
    · left
      rw [sleep_task, update_of_ne e] at sleeps ⊢
      refine ⟨?_, sleeps, id⟩
      rcases inWait with ⟨addr', saved⟩ | ⟨d, hd, stack, next, addr', h⟩
      · rw [sleep_task, update_of_ne e] at saved
        exact .inl ⟨addr', saved⟩
      · obtain ⟨own, _, _⟩ := inv.current hc (wait_still pc) proc
        by_cases same : d = c
        · rw [same, sleep_core, update_self] at stack
          exact absurd (Who.task.inj (stack.symm.trans own)) e
        · rw [sleep_core, update_of_ne same] at stack h
          exact .inr ⟨d, hd, stack, next, addr', h⟩

/-- No task that has been killed sleeps in `wait`. -/
def Roused (ncpu : Nat) (s : State) : Prop :=
  ∀ i, (s.task i).killed = true → InWait ncpu s i → (s.task i).state ≠ .sleeping

theorem wait_killed (dead : (s.task p).killed = true) :
    ((wait s c p addr copied).core c).pc = .out := by
  unfold wait
  split
  · split <;> simp [State.release, State.goTo, State.onCore]
  · rw [if_pos (.inr dead)]
    simp [State.release, State.goTo, State.onCore]

theorem Roused.step (inv : Inv ncpu s) (roused : Roused ncpu s) (he : e.core < ncpu)
    (run : step ncpu s e = .ok t) : Roused ncpu t := by
  intro i dead inWait sleeps
  rcases waiter_before inv (act_of_step inv he run) inWait sleeps with
    ⟨inWait', slept, killed⟩ | alive
  · exact roused i (killed dead) inWait' slept
  · cases alive.symm.trans dead

theorem roused (reached : Reach Boot (Step ncpu) s) : Roused ncpu s := by
  have both : Inv ncpu s ∧ Roused ncpu s := by
    refine reached.invariant (fun s => Inv ncpu s ∧ Roused ncpu s) (fun s boot => ⟨boot.inv, ?_⟩) ?_
    · intro i _ _ sleeps
      by_cases e : i = 0
      · rw [e, boot.init] at sleeps
        cases sleeps
      · rw [boot.others i e] at sleeps
        cases sleeps
    · rintro s t ⟨inv, roused⟩ ⟨e, he, run⟩
      exact ⟨inv.next ⟨e, he, run⟩, roused.step inv he run⟩
  exact both.2

/-! The way back to the user -/

/-- `ret_from_syscall` (kernel/entry.S): a task that has been killed exits. -/
def retFromSyscall (s : State) (c i : Nat) : Except Halt State :=
  if (s.task i).killed then call s c (.exitProcess (-1)) else .ok s

theorem retFromSyscall_killed (proc : (s.core c).proc = .task i) (ne : i ≠ 0)
    (dead : (s.task i).killed = true) :
    ∃ t, retFromSyscall s c i = .ok t ∧ (t.task i).state = .zombie ∧ (t.task i).xstate = -1 := by
  refine ⟨exitProcess (s.acquire c .out) c i (-1), ?_, ?_⟩
  · rw [retFromSyscall, if_pos dead, call, proc]
    exact if_neg ne
  · rw [exitProcess_task, update_self]
    exact ⟨rfl, rfl⟩

end

end UvaOs.Sched
