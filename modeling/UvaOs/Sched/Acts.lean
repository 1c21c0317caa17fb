import UvaOs.Sched.Steps

/-! What one step can do to the slots, their parents and the tasks in `wait`. -/
namespace UvaOs.Sched

open UvaOs.Files (NR_TASKS)
open Prog (Reach)
open Function (update update_self update_of_ne)

/-- The task sleeps in `wait`, or is on its way from there to the idle task. -/
def InWait (ncpu : Nat) (s : State) (i : Nat) : Prop :=
  (∃ addr, (s.task i).context = some (.wait addr)) ∨
    ∃ c < ncpu, (s.core c).stack = .task i ∧ ∃ next addr, (s.core c).pc = .switching next (.wait addr)

def Kin (x y : Task) : Prop := y.parent = x.parent ∧ y.pid = x.pid ∧ y.xstate = x.xstate

theorem Kin.refl (x : Task) : Kin x x := ⟨rfl, rfl, rfl⟩

theorem Kin.trans {x y z : Task} (h : Kin x y) (k : Kin y z) : Kin x z :=
  ⟨k.1.trans h.1, k.2.1.trans h.2.1, k.2.2.trans h.2.2⟩

/-- A step that takes and frees no slot, moves no child and puts nobody to sleep in
`wait`. -/
structure Calm (ncpu : Nat) (s t : State) : Prop where
  kin : ∀ i, Kin (s.task i) (t.task i)
  unused : ∀ i, (t.task i).state = .unused ↔ (s.task i).state = .unused
  zombie : ∀ i, (t.task i).state = .zombie ↔ (s.task i).state = .zombie
  sleeper : ∀ i, InWait ncpu t i → (t.task i).state = .sleeping →
    InWait ncpu s i ∧ (s.task i).state = .sleeping ∧ (t.task i).chan = (s.task i).chan ∧
      ((t.task i).killed = true → (s.task i).killed = true)

structure Quiet (ncpu : Nat) (s t : State) : Prop where
  kin : ∀ i, Kin (s.task i) (t.task i)
  unused : ∀ i, (t.task i).state = .unused ↔ (s.task i).state = .unused
  zombie : ∀ i, (t.task i).state = .zombie ↔ (s.task i).state = .zombie
  sleeper : ∀ i, (t.task i).state = .sleeping → (s.task i).state = .sleeping ∧
    (t.task i).chan = (s.task i).chan ∧ (InWait ncpu t i → InWait ncpu s i) ∧
      ((t.task i).killed = true → (s.task i).killed = true)
  window : ∀ d < ncpu, ∀ chan, (t.core d).pc = .sleep chan →
    (s.core d).pc = .sleep chan ∧ (t.core d).proc = (s.core d).proc

section

variable {ncpu : Nat} {s t : State} {c : Nat}

theorem Quiet.calm (h : Quiet ncpu s t) : Calm ncpu s t := by
  refine { h with sleeper := ?_ }
  intro i inWait sleeps
  obtain ⟨slept, chan, before, killed⟩ := h.sleeper i sleeps
  exact ⟨before inWait, slept, chan, killed⟩

theorem Quiet.refl (s : State) : Quiet ncpu s s :=
  ⟨fun _ => Kin.refl _, fun _ => Iff.rfl, fun _ => Iff.rfl, fun _ h => ⟨h, rfl, id, id⟩,
    fun _ _ _ h => ⟨h, rfl⟩⟩

theorem Quiet.trans {u : State} (h : Quiet ncpu s t) (k : Quiet ncpu t u) : Quiet ncpu s u := by
  refine ⟨fun i => (h.kin i).trans (k.kin i), fun i => (k.unused i).trans (h.unused i),
    fun i => (k.zombie i).trans (h.zombie i), ?_, ?_⟩
  · grind [k.sleeper, h.sleeper]
  · grind [k.window, h.window]

/-! Ordinary steps are quiet -/

theorem inWait_of_same {i : Nat} (context : (t.task i).context = (s.task i).context)
    (cores : ∀ d < ncpu, ∀ next addr, (t.core d).pc = .switching next (.wait addr) →
      (s.core d).pc = .switching next (.wait addr) ∧ (s.core d).stack = (t.core d).stack)
    (h : InWait ncpu t i) : InWait ncpu s i := by
  rcases h with ⟨addr, saved⟩ | ⟨d, hd, stack, next, addr, pc⟩
  · exact .inl ⟨addr, context ▸ saved⟩
  · obtain ⟨pc', stack'⟩ := cores d hd next addr pc
    exact .inr ⟨d, hd, stack'.trans stack, next, addr, pc'⟩

theorem Woken.quiet (h : Woken s t)
    (same : ∀ i, Kin (s.task i) (t.task i) ∧ (t.task i).chan = (s.task i).chan ∧
      ((t.task i).state = .sleeping → (t.task i).killed = (s.task i).killed)) : Quiet ncpu s t := by
  refine ⟨fun i => (same i).1, fun i => h.unused, ?_, ?_, ?_⟩
  · grind [state]
  · grind [h.context, h.state, h.core, inWait_of_same, state]
  · intro d _ chan pc
    rw [h.core] at pc ⊢
    exact ⟨pc, rfl⟩

theorem inWait_goTo {pc : Pc} {lock : Option Nat} (now : ¬ pc.Switching) {i : Nat}
    (h : InWait ncpu { s.goTo c pc with lock := lock } i) : InWait ncpu s i := by
  refine inWait_of_same (t := { s.goTo c pc with lock := lock }) rfl ?_ h
  intro d _ next addr h
  by_cases e : d = c
  · subst e
    simp only [State.goTo, State.onCore, update_self] at h
    exact absurd ⟨next, _, h⟩ now
  · simp only [State.goTo, State.onCore, update_of_ne e] at h ⊢
    exact ⟨h, trivial⟩

theorem goTo_quiet {pc : Pc} (lock : Option Nat) (now : ¬ pc.Switching)
    (away : ∀ chan, pc ≠ .sleep chan) : Quiet ncpu s { s.goTo c pc with lock := lock } := by
  refine ⟨fun _ => Kin.refl _, fun _ => Iff.rfl, fun _ => Iff.rfl,
    fun i sleeps => ⟨sleeps, rfl, inWait_goTo now, id⟩, ?_⟩
  intro d _ chan h
  by_cases e : d = c
  · subst e
    simp only [State.goTo, State.onCore, update_self] at h
    exact absurd h (away chan)
  · simp only [State.goTo, State.onCore, update_of_ne e] at h ⊢
    exact ⟨h, trivial⟩

theorem release_quiet (s : State) (c : Nat) : Quiet ncpu s (s.release c) :=
  goTo_quiet none (fun ⟨_, _, h⟩ => nomatch h) (fun _ => (nomatch ·))

theorem onTask_quiet {i : Nat} {f : Task → Task}
    (same : ∀ x, Kin x (f x) ∧ (f x).state = x.state ∧ (f x).context = x.context ∧
      (f x).killed = x.killed)
    (chan : (f (s.task i)).chan = (s.task i).chan ∨ (s.task i).state ≠ .sleeping) :
    Quiet ncpu s (s.onTask i f) := by
  have field : ∀ {α : Type} (get : Task → α) (_ : ∀ x, get (f x) = get x) (j : Nat),
      get ((s.onTask i f).task j) = get (s.task j) := by
    intro α get keep j
    by_cases e : j = i
    · subst e
      simp [State.onTask, keep]
    · simp [State.onTask, e]
  have state := field Task.state (fun x => (same x).2.1)
  have kin : ∀ j, Kin (s.task j) ((s.onTask i f).task j) := fun j =>
    ⟨field Task.parent (fun x => (same x).1.1) j, field Task.pid (fun x => (same x).1.2.1) j,
      field Task.xstate (fun x => (same x).1.2.2) j⟩
  refine ⟨kin, fun j => by rw [state], fun j => by rw [state], ?_, fun _ _ _ pc => ⟨pc, rfl⟩⟩
  intro j sleeps
  rw [state] at sleeps
  refine ⟨sleeps, ?_, inWait_of_same (t := s.onTask i f) (field Task.context (fun x => (same x).2.2.1) j)
    (fun d _ next addr pc => ⟨pc, rfl⟩), (field Task.killed (fun x => (same x).2.2.2) j).symm.trans⟩
  by_cases e : j = i
  · subst e
    simp only [State.onTask, update_self]
    exact chan.resolve_right (fun h => h sleeps)
  · simp [State.onTask, e]

theorem returns_quiet (s : State) (i : Nat) (ret : Int) (status : Option Int) :
    Quiet ncpu s (returns s i ret status) :=
  onTask_quiet (fun _ => ⟨Kin.refl _, rfl, rfl, rfl⟩) (.inl rfl)

theorem wakeup_quiet (s : State) (chan : Chan) : Quiet ncpu s (wakeupNolock s chan) := by
  refine (wakeupNolock_woken s chan).quiet (fun i => ?_)
  rw [wakeupNolock_frame]
  exact ⟨Kin.refl _, rfl, fun _ => rfl⟩

theorem recharge_quiet (s : State) : Quiet ncpu s (recharge s) := by
  refine (recharge_woken s).quiet (fun i => ?_)
  simp only [recharge]
  split <;> exact ⟨Kin.refl _, rfl, fun _ => rfl⟩

theorem kill_quiet {pid : Int} (h : kill s pid = .ok t) : Quiet ncpu s t := by
  refine (kill_ok h).quiet (fun i => ?_)
  unfold kill at h
  split at h
  · split at h
    · cases h
    · cases h
      by_cases e : i = pid.toNat
      · subst e
        simp only [State.onTask, update_self]
        exact ⟨Kin.refl _, trivial, by grind⟩
      · simp only [State.onTask, update_of_ne e]
        exact ⟨Kin.refl _, trivial, fun _ => trivial⟩
  · cases h; exact ⟨Kin.refl _, rfl, fun _ => rfl⟩

theorem switchTo_quiet {next : Who} (inv : Inv ncpu s) (hc : c < ncpu)
    (pc : (s.core c).pc = .schedule) (runnable : ∀ j, next = .task j → (s.core c).proc ≠ next →
      j < NR_TASKS ∧ (s.task j).state = .runnable) : Quiet ncpu s (switchTo s c next .schedule) := by
  have still := still_of pc (by simp)
  by_cases other : (s.core c).proc = next
  · rw [switchTo, if_pos other]
    exact goTo_quiet s.lock (by simp [Pc.Switching]) (by simp)
  · obtain ⟨same, runs⟩ := inv.settled c hc still
    have runs' : ∀ k, (s.core c).proc = .task k → (s.task k).state = .running :=
      fun k h => runs k (same.symm.trans h)
    have task := switchTo_task .schedule other runs'
    obtain ⟨core, _⟩ := switchTo_core .schedule other
    have state : ∀ i, ((switchTo s c next .schedule).task i).state = (s.task i).state ∨
        ((s.task i).state = .runnable ∨ (s.task i).state = .running) ∧
          (((switchTo s c next .schedule).task i).state = .runnable ∨
            ((switchTo s c next .schedule).task i).state = .running) := by
      intro i
      rw [task]
      split
      · grind
      · grind
    have kind : ∀ i k, k ≠ .runnable → k ≠ .running →
        (((switchTo s c next .schedule).task i).state = k ↔ (s.task i).state = k) := by grind
    have frame : ∀ i, (switchTo s c next .schedule).task i = { s.task i with
        state := ((switchTo s c next .schedule).task i).state } := by
      intro i
      rw [task]
      split
      · rfl
      · split <;> rfl
    refine ⟨?_, fun i => kind i _ TaskState.noConfusion TaskState.noConfusion,
      fun i => kind i _ TaskState.noConfusion TaskState.noConfusion, ?_, ?_⟩
    · intro i
      rw [frame]
      exact Kin.refl _
    · intro i sleeps
      refine ⟨(kind i _ TaskState.noConfusion TaskState.noConfusion).mp sleeps, by rw [frame],
        inWait_of_same (by rw [frame]) ?_, by rw [frame]; exact id⟩
      · intro d _ next' addr h
        by_cases e : d = c
        · subst e
          rw [core, update_self] at h
          cases h
        · rw [core, update_of_ne e] at h ⊢
          exact ⟨h, rfl⟩
    · intro d _ chan h
      by_cases e : d = c
      · subst e
        rw [core, update_self] at h
        cases h
      · rw [core, update_of_ne e] at h ⊢
        exact ⟨h, rfl⟩

theorem schedule_quiet (inv : Inv ncpu s) (hc : c < ncpu) (pc : (s.core c).pc = .schedule) :
    Quiet ncpu s (schedule ncpu s c) := by
  unfold schedule
  split
  · rename_i found
    obtain ⟨range, eligible⟩ := best_eligible found
    refine switchTo_quiet inv hc pc ?_
    intro j h other
    cases h
    refine ⟨range, eligible.2.resolve_left ?_⟩
    rintro ⟨proc, _⟩
    exact other proc
  · split
    · exact recharge_quiet s
    · exact switchTo_quiet inv hc pc (fun j h => nomatch h)

theorem Switched.quiet {next : Who} {point resume : Point} (hc : c < ncpu)
    (pc : (s.core c).pc = .switching next point) (sw : Switched s t c next point resume) :
    Quiet ncpu s t := by
  have field : ∀ {α : Type} (get : Task → α) (_ : ∀ x p, get { x with context := p } = get x) (j : Nat),
      get (t.task j) = get (s.task j) := by
    intro α get keep j
    obtain ⟨context, eq⟩ := sw.frame j
    rw [eq, keep]
  refine ⟨fun i => ⟨field Task.parent (fun _ _ => rfl) i, field Task.pid (fun _ _ => rfl) i,
    field Task.xstate (fun _ _ => rfl) i⟩, fun i => by rw [sw.state], fun i => by rw [sw.state], ?_, ?_⟩
  · intro i sleeps
    refine ⟨(sw.state i).symm.trans sleeps, field Task.chan (fun _ _ => rfl) i, ?_,
      (field Task.killed (fun _ _ => rfl) i).symm.trans⟩
    rintro (⟨addr, saved⟩ | ⟨d, hd, stack, next', addr, h⟩)
    · rw [sw.context] at saved
      split at saved
      · cases saved
      · split at saved
        · rename_i mine
          refine .inr ⟨c, hc, mine, next, addr, ?_⟩
          rw [pc, Option.some.inj saved]
        · exact .inl ⟨addr, saved⟩
    · by_cases e : d = c
      · subst e
        rw [sw.pc] at h
        cases h
      · rw [sw.others d e] at stack h
        exact .inr ⟨d, hd, stack, next', addr, h⟩
  · grind [sw.pc, sw.others]

theorem resume_quiet {point : Point} (inv : Inv ncpu s) (hc : c < ncpu)
    (pc : (s.core c).pc = .resumed point) (run : resume s c (s.core c).stack point = .ok t) :
    Quiet ncpu s t := by
  have still := still_of pc nofun
  have cleared : ∀ i, (s.core c).stack = .task i → Quiet ncpu s (s.onTask i ({ · with chan := none })) := by
    intro i stack
    refine onTask_quiet (fun _ => ⟨Kin.refl _, rfl, rfl, rfl⟩) (.inr ?_)
    rw [(inv.settled c hc still).2 i stack]
    exact TaskState.noConfusion
  cases point with
  | schedule | fork => cases run; exact release_quiet s c
  | sleep =>
    cases hs : (s.core c).stack with
    | task i => rw [hs] at run; cases run; exact (cleared i hs).trans (release_quiet _ c)
    | idle d => rw [hs] at run; cases run; exact release_quiet s c
  | wait addr =>
    cases hs : (s.core c).stack with
    | task i =>
      rw [hs] at run
      cases run
      exact (cleared i hs).trans (goTo_quiet s.lock (fun ⟨_, _, h⟩ => nomatch h) (fun _ => (nomatch ·)))
    | idle d => rw [hs] at run; cases run; exact release_quiet s c
  | exit => cases run

theorem sleep_task (s : State) (c i : Nat) (chan : Chan) (point : Point) :
    (sleep s c i chan point).task = update s.task i { s.task i with
      chan := some chan, state := .sleeping, credits := (s.task i).credits - 1 } := rfl

theorem exitProcess_task (s : State) (c i : Nat) (status : Int) :
    (exitProcess s c i status).task = update (announce s i).task i
      { (announce s i).task i with xstate := status, state := .zombie } := rfl

theorem freeproc_task (s : State) (c i : Nat) :
    ((freeproc s i).release c).task = update s.task i { s.task i with
      state := .unused, killed := false, credits := 0, chan := none, pid := 0, xstate := 0 } := rfl

theorem copyProcess_task {p child : Nat} (found : unusedTask s = some child) :
    copyProcess s p = { s with
      task := update s.task child { Task.zero with
          state := .runnable, parent := some p, pid := child, credits := (s.task p).priority
          priority := (s.task p).priority, context := some .fork }
      lastpid := child } := by
  simp only [copyProcess, found]

theorem doze_calm {chan : Chan} : Calm ncpu s (s.acquire c (.sleep chan)) := by
  refine ⟨fun _ => Kin.refl _, fun _ => Iff.rfl, fun _ => Iff.rfl, ?_⟩
  exact fun j inWait sleeps => ⟨inWait_goTo (fun ⟨_, _, h⟩ => nomatch h) inWait, sleeps, rfl, id⟩

theorem sleep_core (s : State) (c i : Nat) (chan : Chan) (point : Point) :
    (sleep s c i chan point).core = update s.core c
      { s.core c with proc := .idle c, pc := .switching (.idle c) point } := rfl

theorem sleep_calm {i : Nat} {chan : Chan} (inv : Inv ncpu s) (hc : c < ncpu)
    (still : ¬ (s.core c).pc.Switching) (proc : (s.core c).proc = .task i) :
    Calm ncpu s (sleep s c i chan .sleep) := by
  obtain ⟨stack, hi, runs⟩ := inv.current hc still proc
  have others : ∀ j, j ≠ i → (sleep s c i chan .sleep).task j = s.task j := by
    intro j ne
    rw [sleep_task, update_of_ne ne]
  have own : (sleep s c i chan .sleep).task i = { s.task i with
      chan := some chan, state := .sleeping, credits := (s.task i).credits - 1 } := by
    rw [sleep_task, update_self]
  refine ⟨?_, ?_, ?_, ?_⟩
  · intro j
    by_cases e : j = i
    · rw [e, own]
      exact Kin.refl _
    · rw [others j e]
      exact Kin.refl _
  · grind
  · grind
  · intro j inWait sleeps
    have cores : ∀ d < ncpu, ∀ next addr,
        ((sleep s c i chan .sleep).core d).pc = .switching next (.wait addr) →
        (s.core d).pc = .switching next (.wait addr) ∧
          (s.core d).stack = ((sleep s c i chan .sleep).core d).stack := by
      intro d _ next addr h
      by_cases e : d = c
      · subst e
        rw [sleep_core, update_self] at h
        cases h
      · rw [sleep_core, update_of_ne e] at h ⊢
        exact ⟨h, rfl⟩
    by_cases e : j = i
    · -- it was on a core, so no registers of it are saved in `wait`
      subst e
      exfalso
      rcases inWait_of_same (by rw [own]) cores inWait with ⟨addr, saved⟩ | ⟨d, hd, stack', _, _, h⟩
      · rw [(inv.slot c hc j stack).2] at saved
        cases saved
      · have same := inv.single c hc d hd j stack stack'
        subst same
        exact still ⟨_, _, h⟩
    · grind [inWait_of_same]

/-! The other steps -/

/-- How a step that leaves the family alone may use `sleep`. -/
inductive Rest (ncpu : Nat) (s t : State) : Event → Prop where
  | quiet {e : Event} (quiet : Quiet ncpu s t) : Rest ncpu s t e
  | doze {c i : Nat} {chan : Chan} (hc : c < ncpu) (proc : (s.core c).proc = .task i)
      (free : s.lock = none) (eq : t = s.acquire c (.sleep chan)) :
      Rest ncpu s t (.call c (.sleep chan))
  | nod {c i : Nat} {chan : Chan} {copied : Bool} (hc : c < ncpu) (pc : (s.core c).pc = .sleep chan)
      (proc : (s.core c).proc = .task i) (eq : t = sleep s c i chan .sleep) :
      Rest ncpu s t (.run c copied)

/-- What a step may do. -/
inductive Act (ncpu : Nat) (s t : State) : Event → Prop where
  | calm {e : Event} (calm : Calm ncpu s t) (rest : Rest ncpu s t e) : Act ncpu s t e
  | exit {c i : Nat} {status : Int} (hc : c < ncpu) (proc : (s.core c).proc = .task i) (ne : i ≠ 0)
      (free : s.lock = none) (eq : t = exitProcess (s.acquire c .out) c i status) :
      Act ncpu s t (.call c (.exitProcess status))
  | fork {c p child : Nat} (hc : c < ncpu) (proc : (s.core c).proc = .task p) (free : s.lock = none)
      (found : unusedTask s = some child) (eq : t = copyProcess s p) :
      Act ncpu s t (.call c .copyProcess)
  | reap {c p i addr : Nat} {copied : Bool} (hc : c < ncpu) (pc : (s.core c).pc = .wait addr)
      (proc : (s.core c).proc = .task p) (found : zombieChild s p = some i)
      (eq : t = (freeproc (returns s p (s.task i).pid
        (if addr = 0 then none else some (s.task i).xstate)) i).release c) :
      Act ncpu s t (.run c copied)
  | sleep {c p addr : Nat} {copied : Bool} (hc : c < ncpu) (pc : (s.core c).pc = .wait addr)
      (proc : (s.core c).proc = .task p) (found : zombieChild s p = none)
      (kids : (∃ j, Child s p j) ∧ (s.task p).killed = false)
      (eq : t = sleep s c p (.task p) (.wait addr)) :
      Act ncpu s t (.run c copied)

theorem Quiet.act {e : Event} (h : Quiet ncpu s t) : Act ncpu s t e := .calm h.calm (.quiet h)

theorem act_of_call {k : Call} (inv : Inv ncpu s) (hc : c < ncpu) (free : s.lock = none)
    (run : call s c k = .ok t) : Act ncpu s t (.call c k) := by
  have still := inv.free_still free hc
  have acquired : ∀ pc : Pc, ¬ pc.Switching → (∀ chan, pc ≠ .sleep chan) →
      Quiet ncpu s (s.acquire c pc) := fun pc now away => goTo_quiet (some c) now away
  cases k with
  | schedule => cases run; exact Quiet.act (acquired _ (by simp [Pc.Switching]) (by simp))
  | timerTick | yield =>
    rw [UvaOs.Sched.call] at run
    split at run <;> cases run
    · exact Quiet.act (onTask_quiet (fun _ => ⟨Kin.refl _, rfl, rfl, rfl⟩) (.inl rfl))
    · exact Quiet.act (Quiet.refl s)
  | wakeup chan => cases run; exact Quiet.act (wakeup_quiet s chan)
  | kill pid => exact Quiet.act (kill_quiet run)
  | sleep chan =>
    rw [UvaOs.Sched.call] at run
    split at run <;> cases run
    case h_1 i proc => 
      exact .calm doze_calm (.doze hc proc free rfl)
    case h_2 => exact Quiet.act (Quiet.refl s)
  | wait addr =>
    rw [UvaOs.Sched.call] at run
    split at run <;> cases run
    · exact Quiet.act (acquired _ (by simp [Pc.Switching]) (by simp))
    · exact Quiet.act (Quiet.refl s)
  | exitProcess status =>
    rw [UvaOs.Sched.call] at run
    split at run
    case h_1 i proc =>
      split at run
      · cases run
      · cases run; exact .exit hc proc ‹_› free rfl
    case h_2 => cases run; exact Quiet.act (Quiet.refl s)
  | copyProcess =>
    rw [UvaOs.Sched.call] at run
    split at run
    case h_1 p proc =>
      cases run
      cases found : unusedTask s with
      | some child => exact .fork hc proc free found rfl
      | none => grind [Quiet.act, copyProcess, Quiet.refl]
    case h_2 => cases run; exact Quiet.act (Quiet.refl s)

theorem act_of_wait {p addr : Nat} {copied : Bool} (hc : c < ncpu) (pc : (s.core c).pc = .wait addr)
    (proc : (s.core c).proc = .task p) : Act ncpu s (wait s c p addr copied) (.run c copied) := by
  have fails : Quiet ncpu s ((returns s p (-1) none).release c) :=
    (returns_quiet s p _ _).trans (release_quiet _ c)
  unfold wait
  split
  case h_1 i found =>
    split
    · exact fails.act
    · exact .reap hc pc proc found rfl
  case h_2 found =>
    split
    · exact fails.act
    case isFalse sleeps =>
      obtain ⟨kids, alive⟩ := not_or.mp sleeps
      refine .sleep hc pc proc found ⟨?_, Bool.eq_false_iff.mpr alive⟩ rfl
      by_contra none
      exact kids fun j _ child => none ⟨j, child⟩

theorem act_of_step (inv : Inv ncpu s) {e : Event} (he : e.core < ncpu) (run : step ncpu s e = .ok t) :
    Act ncpu s t e := by
  cases e with
  | call c k =>
    rw [UvaOs.Sched.step] at run
    split at run
    · exact act_of_call inv he ‹_› run
    · cases run; exact Quiet.act (Quiet.refl s)
  | run c copied =>
    have hc : c < ncpu := he
    rw [UvaOs.Sched.step] at run
    cases pc : (s.core c).pc with
    | out => rw [pc] at run; cases run; exact Quiet.act (Quiet.refl s)
    | schedule => rw [pc] at run; cases run; exact Quiet.act (schedule_quiet inv hc pc)
    | switching next point =>
      simp only [pc] at run
      obtain ⟨resume, u, ok, switched, _⟩ := inv.switch hc pc
      rw [ok] at run
      cases run
      exact Quiet.act (switched.quiet hc pc)
    | resumed point => simp only [pc] at run; exact Quiet.act (resume_quiet inv hc pc run)
    | sleep chan =>
      simp only [pc] at run
      cases proc : (s.core c).proc with
      | idle d => rw [proc] at run; cases run; exact Quiet.act (Quiet.refl s)
      | task i =>
        rw [proc] at run
        cases run
        exact .calm (sleep_calm inv hc (still_of pc (by simp)) proc) (.nod hc pc proc rfl)
    | wait addr => grind [Quiet.act, Quiet.refl, act_of_wait]

end

end UvaOs.Sched
