import UvaOs.Sched.Acts

/-! Which slots a step gives back, and what follows for the kernel stacks. -/
namespace UvaOs.Sched

open UvaOs.Files (NR_TASKS)
open Prog (Reach)
open Function (update_self update_of_ne)

/-- The call of `wait` on core `c` that frees the zombie in slot `i`: it is made by the
parent, and returns the pid and the status. -/
structure Reaps (s t : State) (c p addr i : Nat) : Prop where
  pc : (s.core c).pc = .wait addr
  proc : (s.core c).proc = .task p
  child : Child s p i
  zombie : (s.task i).state = .zombie
  freed : (t.task i).state = .unused
  others : ∀ j, j ≠ i → (t.task j).state = (s.task j).state
  parents : ∀ j, (t.task j).parent = (s.task j).parent
  ret : (t.task p).ret = (s.task i).pid
  status : (t.task p).status = if addr = 0 then none else some (s.task i).xstate
  core : (t.core c).pc = .out ∧ t.lock = none

/-- Nothing a zombie is remembered for changes. -/
def Still (x y : Task) : Prop := y.state = x.state ∧ y.pid = x.pid ∧ y.xstate = x.xstate

theorem Still.refl (x : Task) : Still x x := ⟨rfl, rfl, rfl⟩

section

variable {ncpu : Nat} {s t : State} {c : Nat}

variable {e : Event} {addr i p : Nat} {x : Task}

theorem Calm.still (h : Calm ncpu s t) (zombie : (s.task i).state = .zombie) :
    Still (s.task i) (t.task i) :=
  ⟨((h.zombie i).mpr zombie).trans zombie.symm, (h.kin i).2⟩

theorem Inv.ne_current (inv : Inv ncpu s) (hc : c < ncpu) (still : ¬ (s.core c).pc.Switching)
    (proc : (s.core c).proc = .task p) (other : (s.task i).state ≠ .running) : i ≠ p := by
  rintro rfl
  exact other (inv.current hc still proc).2.2

theorem wait_still (pc : (s.core c).pc = .wait addr) : ¬ (s.core c).pc.Switching := still_of pc nofun

theorem reaps_of_found (inv : Inv ncpu s) (hc : c < ncpu)
    (pc : (s.core c).pc = .wait addr) (proc : (s.core c).proc = .task p)
    (found : zombieChild s p = some i) : Reaps s ((freeproc (returns s p (s.task i).pid
      (if addr = 0 then none else some (s.task i).xstate)) i).release c) c p addr i := by
  obtain ⟨child, zombie⟩ := zombieChild_some found
  have ne : p ≠ i := (inv.ne_current hc (wait_still pc) proc
    (by rw [zombie]; exact TaskState.noConfusion)).symm
  refine ⟨pc, proc, child, zombie, ?_, ?_, ?_, ?_, ?_, ?_, rfl⟩
  · simp [State.release, State.goTo, State.onCore, freeproc, State.onTask]
  · intro j ne'
    simp only [State.release, State.goTo, State.onCore, freeproc, returns, State.onTask,
      Function.update_of_ne ne']
    by_cases e : j = p
    · subst e
      simp
    · simp [e]
  · intro j
    simp only [State.release, State.goTo, State.onCore, freeproc, returns, State.onTask]
    by_cases e' : j = i
    · subst e'
      simp [Ne.symm ne]
    · grind
  · simp [State.release, State.goTo, State.onCore, freeproc, returns, State.onTask, ne]
  · simp [State.release, State.goTo, State.onCore, freeproc, returns, State.onTask, ne]
  · simp [State.release, State.goTo, State.onCore]

/-- What a step makes of a slot other than the one it is about. -/
structure Told (x y : Task) : Prop where
  state : y.state = x.state ∨ x.state = .sleeping ∧ y.state = .runnable
  pid : y.pid = x.pid
  xstate : y.xstate = x.xstate

/-- What a step may make of the slot it is about. -/
inductive Change (s t : State) (j : Nat) : Event → Prop where
  | exit {c : Nat} {status : Int} (proc : (s.core c).proc = .task j)
      (runs : (s.task j).state = .running) (state : (t.task j).state = .zombie)
      (pid : (t.task j).pid = (s.task j).pid) (xstate : (t.task j).xstate = status) :
      Change s t j (.call c (.exitProcess status))
  | fork {e : Event} (unused : (s.task j).state = .unused) (state : (t.task j).state = .runnable)
      (pid : (t.task j).pid = j) : Change s t j e
  | reap {c p addr : Nat} {copied : Bool} (reaps : Reaps s t c p addr j) : Change s t j (.run c copied)
  | sleep {e : Event} (runs : (s.task j).state = .running) (state : (t.task j).state = .sleeping)
      (pid : (t.task j).pid = (s.task j).pid) : Change s t j e

theorem Act.change (inv : Inv ncpu s) (act : Act ncpu s t e) :
    Calm ncpu s t ∨ ∃ j, Change s t j e ∧ ∀ i, i ≠ j → Told (s.task i) (t.task i) := by
  cases act with
  | calm calm _ => exact .inl calm
  | @exit c j status hc proc _ free eq =>
    subst eq
    have frame := announce_frame (s.acquire c .out) j
    have runs := (inv.current hc (inv.free_still free hc) proc).2.2
    refine .inr ⟨j, .exit proc runs ?_ ?_ ?_, fun i ne => ?_⟩ <;> rw [exitProcess_task]
    · rw [update_self]
    · rw [update_self, frame]
      rfl
    · rw [update_self]
    · rw [update_of_ne ne]
      exact ⟨(announce_woken (s.acquire c .out) j).state i, by rw [frame]; rfl, by rw [frame]; rfl⟩
  | @fork c p child _ _ _ found eq =>
    rw [copyProcess_task found] at eq
    subst eq
    refine .inr ⟨child, .fork (unusedTask_some found).2 ?_ ?_, fun i ne => ?_⟩ <;> dsimp only
    · rw [update_self]
    · rw [update_self]
    · rw [update_of_ne ne]
      exact ⟨.inl rfl, rfl, rfl⟩
  | @reap c p j addr copied hc pc proc found eq =>
    subst eq
    refine .inr ⟨j, .reap (reaps_of_found inv hc pc proc found), fun i ne => ?_⟩
    have told := (returns_quiet s p (s.task j).pid
      (if addr = 0 then none else some (s.task j).xstate) : Quiet ncpu s _).kin i
    rw [freeproc_task, update_of_ne ne]
    exact ⟨(returns_woken ..).state i, told.2.1, told.2.2⟩
  | @sleep c p addr copied hc pc proc _ _ eq =>
    subst eq
    have runs := (inv.current hc (wait_still pc) proc).2.2
    refine .inr ⟨p, .sleep runs ?_ ?_, fun i ne => ?_⟩ <;> rw [sleep_task]
    · rw [update_self]
    · rw [update_self]
    · rw [update_of_ne ne]
      exact ⟨.inl rfl, rfl, rfl⟩

theorem still_of_step (inv : Inv ncpu s) (he : e.core < ncpu)
    (run : step ncpu s e = .ok t) (zombie : (s.task i).state = .zombie) :
    Still (s.task i) (t.task i) ∨ ∃ c copied p addr, e = .run c copied ∧ Reaps s t c p addr i := by
  rcases (act_of_step inv he run).change inv with calm | ⟨j, change, others⟩
  · exact .inl (calm.still zombie)
  · by_cases here : i = j
    · subst here
      cases change with
      | exit _ runs | sleep runs => cases zombie.symm.trans runs
      | fork unused => cases zombie.symm.trans unused
      | reap reaps => exact .inr ⟨_, _, _, _, rfl, reaps⟩
    · obtain ⟨same | ⟨slept, _⟩, pid, xstate⟩ := others i here
      · exact .inl ⟨same, pid, xstate⟩
      · cases zombie.symm.trans slept

theorem Told.unused {x y : Task} (told : Told x y) : y.state = .unused ↔ x.state = .unused := by
  rcases told.state with same | ⟨slept, awake⟩
  · rw [same]
  · rw [slept, awake]
    exact ⟨nofun, nofun⟩

theorem freed_of_step (inv : Inv ncpu s) (he : e.core < ncpu)
    (run : step ncpu s e = .ok t) (used : (s.task i).state ≠ .unused)
    (freed : (t.task i).state = .unused) : (s.task i).state = .zombie := by
  rcases (act_of_step inv he run).change inv with calm | ⟨j, change, others⟩
  · exact absurd ((calm.unused i).mp freed) used
  · by_cases here : i = j
    · subst here
      cases change with
      | exit _ _ state | fork _ state | sleep _ state => cases freed.symm.trans state
      | reap reaps => exact reaps.zombie
    · exact absurd ((others i here).unused.mp freed) used

theorem Inv.unused_parked (inv : Inv ncpu s) (unused : (s.task i).state = .unused) :
    Parked ncpu s i := by
  intro d hd stack
  by_cases switching : (s.core d).pc.Switching
  · obtain ⟨next, point, pc⟩ := switching
    have fits := (inv.leaving d hd next point pc).left i stack
    rw [unused] at fits
    exact fits
  · have runs := (inv.settled d hd switching).2 i stack
    rw [unused] at runs
    cases runs

theorem Reaps.parked (reaps : Reaps s t c p addr i) (inv : Inv ncpu s)
    (hc : c < ncpu) : Parked ncpu s i := by
  have held := inv.held hc (by rw [reaps.pc]; exact (nomatch ·))
  exact inv.parked_of_state
    (fun d hd => inv.calm (.inr held) (fun _ => wait_still reaps.pc) hd)
    (by rw [reaps.zombie]; exact TaskState.noConfusion)

end

/-- On any number of cores, in every state of every run: no two cores run on one stack,
no core switches to a task whose registers are not saved or comes back to a zombie, and
a slot that a step gives back or takes is on no core. While the lock is free, every
core runs on the stack of its `proc`, a task is running just if it is the `proc` of a
core, which is then the only one, and a task that is runnable, asleep or a zombie is on
no core and has its registers saved at a point that suits its state. -/
theorem one_task_one_core {ncpu : Nat} {s : State} (reached : Reach Boot (Step ncpu) s) :
    (∀ c < ncpu, ∀ d < ncpu, (s.core c).stack = (s.core d).stack → c = d) ∧
    (∀ e : Event, e.core < ncpu →
      step ncpu s e ≠ .error .noContext ∧ step ncpu s e ≠ .error .zombieExit) ∧
    (∀ (e : Event) (t : State), e.core < ncpu → step ncpu s e = .ok t → ∀ i,
      ((s.task i).state = .unused ↔ (t.task i).state = .unused) ∨
        Parked ncpu s i ∧ ((t.task i).state = .unused → Parked ncpu t i)) ∧
    (s.lock = none → (∀ c < ncpu, (s.core c).proc = (s.core c).stack) ∧ ∀ i < NR_TASKS,
        ((s.task i).state = .running ↔
          ∃ c < ncpu, (s.core c).proc = .task i ∧ ∀ d < ncpu, (s.core d).proc = .task i → d = c) ∧
        ((s.task i).state = .runnable ∨ (s.task i).state = .sleeping ∨ (s.task i).state = .zombie →
          (∀ c < ncpu, (s.core c).proc ≠ .task i) ∧
            ∃ point, (s.task i).context = some point ∧ Fits (s.task i).state point)) := by
  have inv : Inv ncpu s := reached.invariant (Inv ncpu) (fun _ => Boot.inv) (fun _ _ inv => inv.next)
  refine ⟨?_, ?_, ?_, ?_⟩
  · intro c hc d hd same
    cases h : (s.core d).stack with
    | task i => exact inv.single c hc d hd i (same.trans h) h
    | idle e => exact (inv.home c hc e (same.trans h)).symm.trans (inv.home d hd e h)
  · intro e he
    rcases inv.step e he with ⟨t, ok, _⟩ | stopped | stopped
    · rw [ok]; exact ⟨(nomatch ·), (nomatch ·)⟩
    · rw [stopped]; exact ⟨by simp, by simp⟩
    · rw [stopped]; exact ⟨by simp, by simp⟩
  · intro e t he run i
    have inv' : Inv ncpu t := inv.next ⟨e, he, run⟩
    by_cases unused : (s.task i).state = .unused
    · by_cases later : (t.task i).state = .unused
      · exact .inl ⟨fun _ => later, fun _ => unused⟩
      · exact .inr ⟨inv.unused_parked unused, fun h => absurd h later⟩
    · by_cases later : (t.task i).state = .unused
      · right
        refine ⟨?_, fun _ => inv'.unused_parked later⟩
        have zombie := freed_of_step inv he run unused later
        rcases still_of_step inv he run zombie with still | ⟨c, copied, p, addr, rfl, reaps⟩
        · rw [still.1, zombie] at later
          cases later
        · exact reaps.parked inv he
      · exact .inl ⟨fun h => absurd h unused, fun h => absurd h later⟩
  · intro free
    have settled : ∀ c < ncpu, _ := fun c hc => inv.settled c hc (inv.free_still free hc)
    refine ⟨fun c hc => (settled c hc).1, ?_⟩
    intro i hi
    have only : ∀ c < ncpu, ∀ d < ncpu, (s.core c).proc = .task i → (s.core d).proc = .task i → d = c :=
      fun c hc d hd h k => inv.single d hd c hc i ((settled d hd).1.symm.trans k)
        ((settled c hc).1.symm.trans h)
    have unnamed : (s.task i).state ≠ .running → ∀ c < ncpu, (s.core c).proc ≠ .task i :=
      fun ne c hc h => ne ((settled c hc).2 i ((settled c hc).1.symm.trans h))
    have parkedSaved : (s.task i).state ≠ .unused → Parked ncpu s i →
        ∃ p, (s.task i).context = some p ∧ Fits (s.task i).state p := by
      intro used parked
      refine (inv.parked i hi parked used).resolve_left ?_
      rintro ⟨d, hd, point, pc⟩
      exact inv.free_still free hd ⟨_, point, pc⟩
    refine ⟨⟨?_, ?_⟩, ?_⟩
    · intro runs
      by_contra none
      have parked : Parked ncpu s i := by
        intro c hc stack
        have proc := (settled c hc).1.trans stack
        exact none ⟨c, hc, proc, fun d hd => only c hc d hd proc⟩
      obtain ⟨p, _, fits⟩ := parkedSaved (by rw [runs]; exact TaskState.noConfusion) parked
      rw [runs] at fits
      exact fits
    · grind
    · intro waits
      have ne : (s.task i).state ≠ .running ∧ (s.task i).state ≠ .unused := by
        rcases waits with h | h | h <;> rw [h] <;> exact ⟨TaskState.noConfusion, TaskState.noConfusion⟩
      refine ⟨unnamed ne.1, parkedSaved ne.2 ?_⟩
      exact inv.parked_of_state (fun d hd => inv.free_still free hd) ne.1

def bootState : State where
  task i := if i = 0 then { Task.zero with state := .runnable, priority := 2, context := some .fork }
    else Task.zero
  core c := ⟨.idle c, .idle c, .out, none⟩
  lock := none
  lastpid := 0

theorem bootState_boot : Boot bootState := by
  refine ⟨rfl, ?_, fun _ => rfl, rfl⟩
  intro i ne
  simp [bootState, ne]

theorem step_sound {ncpu : Nat} (s : State) (e : Event) (t : State) (he : e.core < ncpu)
    (run : step ncpu s e = .ok t) : Step ncpu s t := ⟨e, he, run⟩

def initRuns : List Event :=
  [.call 0 .schedule, .run 0 false, .run 0 false, .run 0 false, .run 0 false]

def initRunning : State := Prog.played (step 2) bootState initRuns

theorem initRunning_one_core : initRunning.lock = none ∧ (initRunning.task 0).state = .running ∧
    ∃ c < 2, (initRunning.core c).proc = .task 0 ∧
      ∀ d < 2, (initRunning.core d).proc = .task 0 → d = c := by
  have reached : Reach Boot (Step 2) initRunning :=
    Reach.play step_sound initRuns (.start bootState_boot) (by decide) rfl
  have free : initRunning.lock = none := rfl
  have runs : (initRunning.task 0).state = .running := rfl
  exact ⟨free, runs, (((one_task_one_core reached).2.2.2 free).2 0 (by decide)).1.mp runs⟩

end UvaOs.Sched
