import UvaOs.Sched.Slots

/-! Parents, children and `wait`. -/
namespace UvaOs.Sched

open UvaOs.Files (NR_TASKS)
open Prog (Reach)
open Function (update update_self update_of_ne)

/-- A task that can call `wait`. -/
def Alive (s : State) (i : Nat) : Prop :=
  i < NR_TASKS ∧ (s.task i).state ≠ .unused ∧ (s.task i).state ≠ .zombie

structure Family (ncpu : Nat) (s : State) : Prop where
  init : Alive s 0
  parent : ∀ i < NR_TASKS, i ≠ 0 → (s.task i).state ≠ .unused →
    ∃ p, (s.task i).parent = some p ∧ Alive s p
  waits : ∀ i, InWait ncpu s i → (s.task i).state = .sleeping →
    (s.task i).chan = some (.task i) ∧ (∃ j, Child s i j) ∧
      ∀ j, Child s i j → (s.task j).state ≠ .zombie

theorem Boot.family {ncpu : Nat} {s : State} (boot : Boot s) : Family ncpu s where
  init := by
    refine ⟨by decide, ?_, ?_⟩ <;> rw [boot.init] <;> exact TaskState.noConfusion
  parent i _ ne used := by rw [boot.others i ne] at used; exact absurd rfl used
  waits i _ sleeps := by
    by_cases e : i = 0
    · rw [e, boot.init] at sleeps; cases sleeps
    · rw [boot.others i e] at sleeps; cases sleeps

section

variable {ncpu : Nat} {s t : State} {c : Nat}

variable {e : Event} {i p : Nat}

theorem Calm.alive (h : Calm ncpu s t) (alive : Alive s i) : Alive t i :=
  ⟨alive.1, fun e => alive.2.1 ((h.unused i).mp e), fun e => alive.2.2 ((h.zombie i).mp e)⟩

theorem Calm.child (h : Calm ncpu s t) : Child t p i ↔ Child s p i := by
  simp only [Child, (h.kin _).1, ne_eq, h.unused]

theorem Family.calm (family : Family ncpu s) (h : Calm ncpu s t) : Family ncpu t := by
  refine ⟨h.alive family.init, ?_, ?_⟩
  · intro i hi ne used
    obtain ⟨p, parent, alive⟩ := family.parent i hi ne (fun e => used ((h.unused i).mpr e))
    exact ⟨p, ((h.kin i).1).trans parent, h.alive alive⟩
  · intro i inWait sleeps
    obtain ⟨inWait', sleeps', chan, -⟩ := h.sleeper i inWait sleeps
    obtain ⟨own, ⟨j, child⟩, clean⟩ := family.waits i inWait' sleeps'
    exact ⟨chan.trans own, ⟨j, h.child.mpr child⟩,
      fun k child' zombie => clean k (h.child.mp child') ((h.zombie k).mp zombie)⟩

theorem Inv.alive (inv : Inv ncpu s) (hc : c < ncpu) (still : ¬ (s.core c).pc.Switching)
    (proc : (s.core c).proc = .task i) : Alive s i := by
  obtain ⟨_, hi, runs⟩ := inv.current hc still proc
  refine ⟨hi, ?_, ?_⟩ <;> rw [runs] <;> exact TaskState.noConfusion

/- One slot changes. Whoever has children stays alive, and no sleeper in `wait` other than
the slot itself gets a zombie or loses a child. -/
theorem Family.reslot (family : Family ncpu s) (others : ∀ j, j ≠ i → t.task j = s.task j)
    (cores : ∀ d < ncpu, ∀ next addr, (t.core d).pc = .switching next (.wait addr) →
      (t.core d).stack = .task i ∨
        (s.core d).pc = .switching next (.wait addr) ∧ (s.core d).stack = (t.core d).stack)
    (init : i ≠ 0 ∨ Alive t i)
    (alive : Alive s i → (∃ j < NR_TASKS, j ≠ i ∧ Child s i j) → Alive t i)
    (parent : (t.task i).state ≠ .unused → i ≠ 0 → ∃ p, (t.task i).parent = some p ∧ Alive t p)
    (kid : ∀ k, InWait ncpu s k → (s.task k).state = .sleeping → Child t k i →
      (t.task i).state ≠ .zombie)
    (kept : ∀ k, k ≠ i → (s.task k).state = .sleeping → Child s k i →
      Child t k i ∨ (s.task i).state = .zombie)
    (waits : InWait ncpu t i → (t.task i).state = .sleeping →
      (t.task i).chan = some (.task i) ∧ (∃ j, Child t i j) ∧
        ∀ j, Child t i j → (t.task j).state ≠ .zombie) : Family ncpu t := by
  have stays : ∀ {j}, j ≠ i → Alive s j → Alive t j := by
    intro j ne h
    rw [Alive, others j ne]
    exact h
  have child : ∀ {k j}, j ≠ i → (Child t k j ↔ Child s k j) := by
    intro k j ne
    rw [Child, Child, others j ne]
  refine ⟨?_, ?_, ?_⟩
  · grind [family.init]
  · intro j hj ne used
    by_cases e : j = i
    · subst e
      exact parent used ne
    · rw [others j e] at used ⊢
      obtain ⟨q, h, h'⟩ := family.parent j hj ne used
      refine ⟨q, h, ?_⟩
      by_cases e' : q = i
      · subst e'
        exact alive h' ⟨j, hj, e, hj, used, h⟩
      · exact stays e' h'
  · intro k inWait sleeps
    by_cases e : k = i
    · subst e
      exact waits inWait sleeps
    · rw [others k e] at sleeps ⊢
      have inWait' : InWait ncpu s k := by
        rcases inWait with ⟨addr, saved⟩ | ⟨d, hd, stack, next, addr, pc⟩
        · exact .inl ⟨addr, others k e ▸ saved⟩
        · rcases cores d hd next addr pc with own | ⟨pc', stack'⟩
          · exact absurd (Who.task.inj (stack.symm.trans own)) e
          · exact .inr ⟨d, hd, stack'.trans stack, next, addr, pc'⟩
      obtain ⟨chan, ⟨j, kid'⟩, clean⟩ := family.waits k inWait' sleeps
      refine ⟨chan, ⟨j, ?_⟩, ?_⟩
      · grind
      · grind

theorem Family.fork {p child : Nat} (inv : Inv ncpu s) (family : Family ncpu s) (hc : c < ncpu)
    (proc : (s.core c).proc = .task p) (free : s.lock = none) (found : unusedTask s = some child) :
    Family ncpu (copyProcess s p) := by
  have alive := inv.alive hc (inv.free_still free hc) proc
  obtain ⟨_, unused⟩ := unusedTask_some found
  have ne : p ≠ child := by rintro rfl; exact alive.2.1 unused
  rw [copyProcess, found]
  refine family.reslot (i := child) ?_ ?_ (.inl ?_) ?_ ?_ ?_ ?_ ?_
  · exact fun j ne => update_of_ne ne ..
  · exact fun d _ next addr pc => .inr ⟨pc, rfl⟩
  · rintro rfl
    exact family.init.2.1 unused
  · exact fun h => absurd unused h.2.1
  · intro _ _
    simp only [update_self, Option.some.injEq, exists_eq_left']
    rw [Alive]
    simp only [update_of_ne ne]
    exact alive
  · simp [update_self]
  · exact fun k _ _ h => absurd unused h.2.1
  · simp [update_self]

theorem Family.freeproc (family : Family ncpu s) (zombie : (s.task i).state = .zombie) :
    Family ncpu (freeproc s i) := by
  have own : ((UvaOs.Sched.freeproc s i).task i).state = .unused := by
    simp only [UvaOs.Sched.freeproc, State.onTask, update_self]
  refine family.reslot (i := i) ?_ ?_ (.inl ?_) ?_ ?_ ?_ ?_ ?_
  · exact fun j ne => update_of_ne ne ..
  · exact fun d _ next addr pc => .inr ⟨pc, rfl⟩
  · rintro rfl
    exact family.init.2.2 zombie
  · exact fun h => absurd zombie h.2.2
  · exact fun h => absurd own h
  · exact fun k _ _ h => absurd own h.2.1
  · exact fun k _ _ _ => .inr zombie
  · intro _ h
    rw [own] at h
    cases h

theorem Family.sleep {p addr : Nat} (family : Family ncpu s) (stack : (s.core c).stack = .task p)
    (runs : (s.task p).state = .running) (range : p < NR_TASKS) (found : zombieChild s p = none)
    (kids : ∃ j, Child s p j) : Family ncpu (sleep s c p (.task p) (.wait addr)) := by
  have own : (UvaOs.Sched.sleep s c p (.task p) (.wait addr)).task p = { s.task p with
      chan := some (.task p), state := .sleeping, credits := (s.task p).credits - 1 } := by
    rw [sleep_task, update_self]
  have others : ∀ j, j ≠ p → (UvaOs.Sched.sleep s c p (.task p) (.wait addr)).task j = s.task j := by
    intro j ne
    rw [sleep_task, update_of_ne ne]
  have core : (UvaOs.Sched.sleep s c p (.task p) (.wait addr)).core = update s.core c
      { s.core c with proc := .idle c, pc := .switching (.idle c) (.wait addr) } := rfl
  have used : (s.task p).state ≠ .unused := by rw [runs]; exact TaskState.noConfusion
  have child : ∀ {k j}, Child (UvaOs.Sched.sleep s c p (.task p) (.wait addr)) k j ↔ Child s k j := by
    grind [Child]
  have alive : Alive (UvaOs.Sched.sleep s c p (.task p) (.wait addr)) p := by
    refine ⟨range, ?_, ?_⟩ <;> rw [own] <;> exact TaskState.noConfusion
  refine family.reslot (i := p) others ?_ (.inr alive) (fun _ _ => alive) ?_ ?_ ?_ ?_
  · intro d _ next addr' pc
    by_cases e : d = c
    · rw [e, core, update_self]
      exact .inl stack
    · rw [core, update_of_ne e] at pc ⊢
      exact .inr ⟨pc, rfl⟩
  · grind [parent, Alive]
  · intro k _ _ _
    rw [own]
    exact TaskState.noConfusion
  · exact fun k _ _ h => .inl (child.mpr h)
  · grind [zombieChild_none]

/-! Exit -/

theorem handOver_parent (s : State) (i j : Nat) :
    ((handOver s i).task j).parent = if Child s i j then some 0 else (s.task j).parent := by
  rw [handOver_frame]

theorem wakeup_awake (s : State) {chan : Chan} (range : i < NR_TASKS)
    (mine : (s.task i).chan = some chan) : ((wakeupNolock s chan).task i).state ≠ .sleeping := by
  simp only [wakeupNolock]
  split
  · exact TaskState.noConfusion
  · rename_i h
    exact fun sleeps => h ⟨range, sleeps, mine⟩

theorem Woken.alive (h : Woken s t) (alive : Alive s i) : Alive t i := by
  refine ⟨alive.1, fun e => alive.2.1 (h.unused.mp e), ?_⟩
  intro zombie
  rcases h.state i with same | ⟨_, awake⟩
  · exact alive.2.2 (same.symm.trans zombie)
  · rw [awake] at zombie; cases zombie

theorem Woken.inWait (h : Woken s t) (inWait : InWait ncpu t i) : InWait ncpu s i :=
  inWait_of_same (h.context i)
    (fun d _ next addr pc => by rw [h.core] at pc ⊢; exact ⟨pc, rfl⟩) inWait

theorem Woken.sleeping (h : Woken s t) (sleeps : (t.task i).state = .sleeping) :
    (s.task i).state = .sleeping := by
  rcases h.state i with same | ⟨_, awake⟩
  · exact same.symm.trans sleeps
  · rw [awake] at sleeps; cases sleeps

theorem Family.handOver (family : Family ncpu s) (runs : (s.task i).state = .running) :
    Family ncpu (handOver s i) := by
  have woken := handOver_woken s i
  refine ⟨woken.alive family.init, ?_, ?_⟩
  · intro j hj ne used
    rw [handOver_parent]
    split
    · exact ⟨0, rfl, woken.alive family.init⟩
    · obtain ⟨p, parent, alive⟩ := family.parent j hj ne (fun e => used (woken.unused.mpr e))
      exact ⟨p, parent, woken.alive alive⟩
  · intro k inWait sleeps
    have slept := woken.sleeping sleeps
    obtain ⟨chan, ⟨j, kid⟩, clean⟩ := family.waits k (woken.inWait inWait) slept
    have notSelf : k ≠ i := by
      rintro rfl
      rw [runs] at slept
      cases slept
    -- init would be awake if it had got children
    have notInit : (∃ l < NR_TASKS, Child s i l) → k ≠ 0 := by
      rintro moved rfl
      rw [UvaOs.Sched.handOver, if_pos moved] at sleeps
      refine wakeup_awake _ family.init.1 ?_ sleeps
      simp only [reparent]
      split <;> exact chan
    have child : ∀ l, Child (UvaOs.Sched.handOver s i) k l ↔ Child s k l := by
      intro l
      rw [Child, Child, handOver_parent]
      simp only [ne_eq, woken.unused]
      by_cases moved : Child s i l
      · rw [if_pos moved]
        refine iff_of_false (fun h => ?_) (fun h => ?_)
        · exact notInit ⟨l, moved.1, moved⟩ (Option.some.inj h.2.2).symm
        · exact notSelf (Option.some.inj (h.2.2.symm.trans moved.2.2))
      · rw [if_neg moved]
    refine ⟨by rwa [handOver_frame], ⟨j, (child j).mpr kid⟩, ?_⟩
    intro l h zombie
    refine clean l ((child l).mp h) ?_
    rcases woken.state l with same | ⟨_, awake⟩
    · exact same.symm.trans zombie
    · rw [awake] at zombie; cases zombie

theorem handOver_childless (ne : i ≠ 0) (j : Nat) : ¬ Child (handOver s i) i j := by
  rintro ⟨hj, used, parent⟩
  rw [handOver_parent] at parent
  split at parent
  · exact ne (Option.some.inj parent).symm
  · rename_i h
    exact h ⟨hj, fun e => used ((handOver_woken s i).unused.mpr e), parent⟩

theorem announce_eq (parent : ((handOver s i).task i).parent = some p) :
    announce s i = wakeupNolock (handOver s i) (.task p) := by
  unfold announce
  split
  case h_1 q h => rw [Option.some.inj (h.symm.trans parent)]
  case h_2 h => exact absurd (h.symm.trans parent) (nomatch ·)

theorem Family.exit {i : Nat} {status : Int} (family : Family ncpu s) (ne : i ≠ 0)
    (range : i < NR_TASKS) (runs : (s.task i).state = .running) :
    Family ncpu (exitProcess s c i status) := by
  have handed := family.handOver runs
  have running : ((UvaOs.Sched.handOver s i).task i).state = .running :=
    (handOver_woken s i).keeps runs TaskState.noConfusion
  obtain ⟨p, parent, alive⟩ := handed.parent i range ne (by rw [running]; exact TaskState.noConfusion)
  have calm : Calm ncpu (UvaOs.Sched.handOver s i) (announce s i) := by
    rw [announce_eq parent]
    exact (wakeup_quiet _ _).calm
  have told := handed.calm calm
  have own : (exitProcess s c i status).task i =
      { (announce s i).task i with xstate := status, state := .zombie } := by
    rw [exitProcess_task, update_self]
  have others : ∀ j, j ≠ i → (exitProcess s c i status).task j = (announce s i).task j := by
    intro j ne
    rw [exitProcess_task, update_of_ne ne]
  have parent' : ((announce s i).task i).parent = some p := (calm.kin i).1.trans parent
  have notSelf : p ≠ i := by
    rintro rfl
    exact handOver_childless ne p ⟨range, alive.2.1, parent⟩
  refine told.reslot (i := i) others ?_ (.inl ne) ?_ ?_ ?_ ?_ ?_
  · intro d _ next addr pc
    have core : (exitProcess s c i status).core = update (announce s i).core c
        { (announce s i).core c with proc := .idle c, pc := .switching (.idle c) .exit } := rfl
    by_cases e : d = c
    · rw [e, core, update_self] at pc
      cases pc
    · rw [core, update_of_ne e] at pc ⊢
      exact .inr ⟨pc, rfl⟩
  · rintro _ ⟨j, _, _, child⟩
    exact absurd (calm.child.mp child) (handOver_childless ne j)
  · intro _ _
    refine ⟨p, by rw [own]; exact parent', ?_⟩
    rw [Alive, others p notSelf]
    exact calm.alive alive
  · intro k inWait sleeps child
    have same : k = p := by
      have h := child.2.2
      rw [own] at h
      exact Option.some.inj (h.symm.trans parent')
    subst same
    have chan := (handed.waits k (calm.sleeper k inWait sleeps).1 (calm.sleeper k inWait sleeps).2.1).1
    rw [announce_eq parent] at sleeps
    exact absurd sleeps (wakeup_awake _ alive.1 chan)
  · intro k _ _ child
    refine .inl ⟨range, by rw [own]; exact TaskState.noConfusion, ?_⟩
    rw [own]
    exact child.2.2
  · intro _ sleeps
    rw [own] at sleeps
    cases sleeps

/-! Every step -/

theorem Family.act (inv : Inv ncpu s) (family : Family ncpu s) (act : Act ncpu s t e) :
    Family ncpu t := by
  cases act with
  | calm calm _ => exact family.calm calm
  | @exit c i status hc proc ne free eq =>
    subst eq
    obtain ⟨_, range, runs⟩ := inv.current hc (inv.free_still free hc) proc
    have taken : Quiet ncpu s (s.acquire c .out) :=
      goTo_quiet (some c) (fun ⟨_, _, h⟩ => nomatch h) (fun _ => (nomatch ·))
    exact (family.calm taken.calm).exit ne range runs
  | fork hc proc free found eq => exact eq ▸ family.fork inv hc proc free found
  | @reap c p i addr copied hc pc proc found eq =>
    subst eq
    have told : Quiet ncpu s (returns s p (s.task i).pid
      (if addr = 0 then none else some (s.task i).xstate)) := returns_quiet ..
    have zombie := (told.zombie i).mpr (zombieChild_some found).2
    exact ((family.calm told.calm).freeproc zombie).calm (release_quiet _ c).calm
  | sleep hc pc proc found kids eq => grind [inv.current, family.sleep, wait_still]

theorem zombie_of_step (inv : Inv ncpu s) (he : e.core < ncpu)
    (run : step ncpu s e = .ok t) (before : (s.task i).state ≠ .zombie)
    (now : (t.task i).state = .zombie) :
    ∃ c status, e = .call c (.exitProcess status) ∧ (s.core c).proc = .task i ∧
      (t.task i).pid = (s.task i).pid ∧ (t.task i).xstate = status := by
  rcases (act_of_step inv he run).change inv with calm | ⟨j, change, others⟩
  · exact absurd ((calm.zombie i).mp now) before
  · by_cases here : i = j
    · subst here
      cases change with
      | exit proc _ _ pid xstate => exact ⟨_, _, rfl, proc, pid, xstate⟩
      | fork _ state | sleep _ state => cases now.symm.trans state
      | reap reaps => cases now.symm.trans reaps.freed
    · rcases (others i here).state with same | ⟨_, awake⟩
      · exact absurd (same.symm.trans now) before
      · cases now.symm.trans awake

end

/-- On any number of cores, in every state of every run: the parent of every task but
init can still call `wait`; a task becomes a zombie in its own `exit_process`, keeps its
pid and its status, and its slot is freed by one call of `wait`, of the task that is its
parent then, which returns both; and whoever sleeps in `wait` has children, none of them
a zombie. -/
theorem zombies_reaped {ncpu : Nat} {s : State} (reached : Reach Boot (Step ncpu) s) :
    (∀ i < NR_TASKS, i ≠ 0 → (s.task i).state ≠ .unused →
      ∃ p, (s.task i).parent = some p ∧ Alive s p) ∧
    (∀ (e : Event) (t : State), e.core < ncpu → step ncpu s e = .ok t → ∀ i,
      ((s.task i).state ≠ .zombie → (t.task i).state = .zombie →
        ∃ c status, e = .call c (.exitProcess status) ∧ (s.core c).proc = .task i ∧
          (t.task i).pid = (s.task i).pid ∧ (t.task i).xstate = status) ∧
      ((s.task i).state = .zombie → Still (s.task i) (t.task i) ∨
        ∃ c copied p addr, e = .run c copied ∧ Reaps s t c p addr i) ∧
      ((s.task i).state ≠ .unused → (t.task i).state = .unused → (s.task i).state = .zombie)) ∧
    (∀ i, InWait ncpu s i → (s.task i).state = .sleeping →
      (∃ j, Child s i j) ∧ ∀ j, Child s i j → (s.task j).state ≠ .zombie) := by
  have both : Inv ncpu s ∧ Family ncpu s := by
    refine reached.invariant (fun s => Inv ncpu s ∧ Family ncpu s)
      (fun _ boot => ⟨boot.inv, boot.family⟩) ?_
    rintro s t ⟨inv, family⟩ ⟨e, he, run⟩
    exact ⟨inv.next ⟨e, he, run⟩, family.act inv (act_of_step inv he run)⟩
  obtain ⟨inv, family⟩ := both
  refine ⟨family.parent, ?_, fun i inWait sleeps => (family.waits i inWait sleeps).2⟩
  intro e t he run i
  exact ⟨zombie_of_step inv he run, still_of_step inv he run, freed_of_step inv he run⟩

def initWaits : List Event :=
  [.call 0 .schedule, .run 0 false, .run 0 false, .run 0 false, .run 0 false,
    .call 0 .copyProcess, .call 0 (.wait 0), .run 0 false, .run 0 false, .run 0 false]

def initWaiting : State := Prog.played (step 2) bootState initWaits

theorem initWaiting_child : (initWaiting.task 0).state = .sleeping ∧ Child initWaiting 0 1 ∧
    (initWaiting.task 1).state ≠ .zombie := by
  have reached : Reach Boot (Step 2) initWaiting :=
    Reach.play step_sound initWaits (.start bootState_boot) (by decide) rfl
  have sleeps : (initWaiting.task 0).state = .sleeping := rfl
  have inWait : InWait 2 initWaiting 0 := Or.inl ⟨0, rfl⟩
  have child : Child initWaiting 0 1 := ⟨by decide, TaskState.noConfusion, rfl⟩
  exact ⟨sleeps, child, ((zombies_reaped reached).2.2 0 inWait sleeps).2 1 child⟩

end UvaOs.Sched
