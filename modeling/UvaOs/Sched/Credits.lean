import UvaOs.Sched.Slots

/-! The credits of the scheduler. `timer_tick` and `yield` take the credits of the running task
and call `schedule` only after they have released `sched_lock`, so a core may owe a call of
`schedule`; until it makes it, only interrupt handlers run on it. -/
namespace UvaOs.Sched

open Prog Finset
open UvaOs.Files (NR_TASKS)
open Function (update update_self update_of_ne)

structure Clock where
  state : State
  due : Nat → Bool

def Call.inIrq : Call → Bool
  | .schedule | .timerTick | .wakeup _ => true
  | _ => false

def Event.Allowed (due : Nat → Bool) : Event → Prop
  | .call c k => due c = true → k.inIrq = true
  | .run .. => True

/-- Whether core `c` owes a call of `schedule` after another call. -/
def owed (s : State) (c : Nat) (was : Bool) : Call → Bool
  | .schedule => false
  | .yield => true
  | .timerTick =>
    match (s.core c).proc with
    | .task i => if (s.task i).credits - 1 > 0 then was else true
    | .idle _ => true
  | _ => was

def owes (s : State) (due : Nat → Bool) : Event → Nat → Bool
  | .call c k => if s.lock = none then update due c (owed s c (due c) k) else due
  | .run .. => due

structure Turn (ncpu : Nat) (x : Clock) (e : Event) (y : Clock) : Prop where
  core : e.core < ncpu
  allowed : e.Allowed x.due
  ran : step ncpu x.state e = .ok y.state
  due : y.due = owes x.state x.due e

structure Clock.Boot (x : Clock) : Prop where
  state : Sched.Boot x.state
  due : ∀ c, x.due c = false

def Turns (ncpu : Nat) (x y : Clock) : Prop := ∃ e, Turn ncpu x e y

/-! What a step does to the credits -/

structure Kept (x y : Task) : Prop where
  credits : y.credits = x.credits
  priority : y.priority = x.priority
  unused : y.state = .unused ↔ x.state = .unused

theorem Kept.refl (x : Task) : Kept x x := ⟨rfl, rfl, Iff.rfl⟩

structure Steady (s t : State) (c : Nat) : Prop where
  others : ∀ d, d ≠ c → t.core d = s.core d
  mine : ∀ i, (t.core c).proc = .task i → (t.core c).pc ≠ .schedule →
    (s.core c).proc = .task i ∧ (s.core c).pc ≠ .schedule

/-- In `sleep` or `wait`, with `sched_lock`. -/
def Pc.dozes : Pc → Bool
  | .sleep _ | .wait _ => true
  | _ => false

inductive Bill (ncpu : Nat) (s t : State) : Event → Prop where
  | kept {e : Event} (each : ∀ i, Kept (s.task i) (t.task i)) (steady : Steady s t e.core) :
      Bill ncpu s t e
  | tick {c i : Nat} {k : Call} (free : s.lock = none) (proc : (s.core c).proc = .task i)
      (others : ∀ j, j ≠ i → t.task j = s.task j)
      (task : t.task i = { s.task i with credits := (t.task i).credits })
      (less : 0 < (s.task i).credits → (t.task i).credits < (s.task i).credits)
      (floor : 0 ≤ (s.task i).credits → 0 ≤ (t.task i).credits ∧
        (t.task i).credits ≤ (s.task i).credits)
      (pays : 0 < (t.task i).credits ∨ ∀ was, owed s c was k = true)
      (core : t.core = s.core) : Bill ncpu s t (.call c k)
  | slept {c i : Nat} {copied : Bool} (pc : (s.core c).pc.dozes = true)
      (proc : (s.core c).proc = .task i) (others : ∀ j, j ≠ i → t.task j = s.task j)
      (credits : (t.task i).credits = (s.task i).credits - 1)
      (priority : (t.task i).priority = (s.task i).priority)
      (state : (t.task i).state = .sleeping) (left : (t.core c).proc = .idle c)
      (steady : Steady s t c) : Bill ncpu s t (.run c copied)
  | picked {c i : Nat} {copied : Bool} (each : ∀ i, Kept (s.task i) (t.task i))
      (proc : (t.core c).proc = .task i) (positive : 0 < (s.task i).credits)
      (others : ∀ d, d ≠ c → t.core d = s.core d) : Bill ncpu s t (.run c copied)
  | recharge {c : Nat} {copied : Bool} (pc : (s.core c).pc = .schedule)
      (low : ¬ (best ncpu s c).1 > 0) (some_ : ∃ i < NR_TASKS, Eligible ncpu s c i)
      (new : t = recharge s) : Bill ncpu s t (.run c copied)
  | freed {c i : Nat} {copied : Bool} (pc : (s.core c).pc.dozes = true)
      (zombie : (s.task i).state = .zombie)
      (others : ∀ j, j ≠ i → Kept (s.task j) (t.task j)) (state : (t.task i).state = .unused)
      (credits : (t.task i).credits = 0) (steady : Steady s t c) : Bill ncpu s t (.run c copied)
  | forked {c p child : Nat} (free : s.lock = none) (proc : (s.core c).proc = .task p)
      (found : unusedTask s = some child) (new : t = copyProcess s p) :
      Bill ncpu s t (.call c .copyProcess)

section

variable {ncpu c i : Nat} {s t : State}

theorem steady_of_core (core : t.core = s.core) : Steady s t c :=
  ⟨fun d _ => by rw [core], fun i => by rw [core]; exact fun at_ out => ⟨at_, out⟩⟩

theorem steady_of_pc {pc : Pc} (was : (s.core c).pc ≠ .schedule)
    (core : t.core = update s.core c { s.core c with pc := pc }) : Steady s t c := by
  refine ⟨fun d ne => by rw [core, update_of_ne ne], fun i => ?_⟩
  rw [core, update_self]
  exact fun at_ _ => ⟨at_, was⟩

theorem steady_of_leave {x : Core} {d : Nat} (idle : x.proc = .idle d)
    (core : t.core = update s.core c x) : Steady s t c := by
  refine ⟨fun d ne => by rw [core, update_of_ne ne], fun i => ?_⟩
  rw [core, update_self, idle]
  exact fun at_ => nomatch at_

theorem onTask_kept {f : Task → Task} (h : Kept (s.task i) (f (s.task i))) (j : Nat) :
    Kept (s.task j) ((s.onTask i f).task j) := by
  by_cases e : j = i
  · subst e
    simpa [State.onTask] using h
  · simpa [State.onTask, e] using Kept.refl _

theorem returns_kept (s : State) (i : Nat) (ret : Int) (status : Option Int) (j : Nat) :
    Kept (s.task j) ((returns s i ret status).task j) := onTask_kept ⟨rfl, rfl, Iff.rfl⟩ j

theorem wakeupNolock_kept (s : State) (chan : Chan) (i : Nat) :
    Kept (s.task i) ((wakeupNolock s chan).task i) := by
  refine ⟨?_, ?_, (wakeupNolock_woken s chan).unused⟩
  · rw [wakeupNolock_frame]
  · rw [wakeupNolock_frame]

theorem announce_kept (s : State) (i j : Nat) : Kept (s.task j) ((announce s i).task j) := by
  refine ⟨?_, ?_, (announce_woken s i).unused⟩
  · rw [announce_frame]
  · rw [announce_frame]

theorem kill_kept {pid : Int} (h : kill s pid = .ok t) (i : Nat) : Kept (s.task i) (t.task i) := by
  unfold kill at h
  split at h
  · split at h
    · cases h
    · cases h
      refine onTask_kept ⟨rfl, rfl, ?_⟩ i
      dsimp only
      split
      · rename_i slept
        simp [slept]
      · exact Iff.rfl
  · cases h
    exact Kept.refl _

/-! The choice of the scheduler -/

theorem best_le (h : Eligible ncpu s c i) (range : i < NR_TASKS) :
    (s.task i).credits ≤ (best ncpu s c).1 := by
  have grows : ∀ (l : List Nat) (b : Int × Nat), b.1 ≤ (l.foldl (better ncpu s c) b).1 := by
    intro l
    induction l with
    | nil => exact fun b => Int.le_refl _
    | cons j l ih =>
      intro b
      refine Int.le_trans ?_ (ih _)
      unfold better
      split
      · rename_i taken
        exact Int.le_of_lt taken.2
      · exact Int.le_refl _
  have scan : ∀ (l : List Nat) (b : Int × Nat), i ∈ l →
      (s.task i).credits ≤ (l.foldl (better ncpu s c) b).1 := by
    intro l
    induction l with
    | nil => exact fun b none => nomatch none
    | cons j l ih =>
      intro b member
      rcases List.mem_cons.mp member with rfl | later
      · refine Int.le_trans ?_ (grows l _)
        unfold better
        split
        · exact Int.le_refl _
        · grind
      · exact ih _ later
  exact scan _ _ (List.mem_range.mpr range)

theorem best_credits (h : (best ncpu s c).1 > 0) :
    (s.task (best ncpu s c).2).credits = (best ncpu s c).1 := by
  have scan : ∀ (l : List Nat) (b : Int × Nat), (b.1 > 0 → (s.task b.2).credits = b.1) →
      (l.foldl (better ncpu s c) b).1 > 0 →
      (s.task (l.foldl (better ncpu s c) b).2).credits = (l.foldl (better ncpu s c) b).1 := by
    intro l
    induction l with
    | nil => exact fun b ok => ok
    | cons j l ih =>
      intro b ok
      refine ih _ ?_
      unfold better
      split
      · exact fun _ => rfl
      · exact ok
  exact scan _ (-1, 0) (fun pos => absurd pos (by decide)) h

theorem switchTo_kept {next : Who} (inv : Inv ncpu s) (hc : c < ncpu)
    (pc : (s.core c).pc = .schedule)
    (used : ∀ j, next = .task j → (s.task j).state ≠ .unused) (i : Nat) :
    Kept (s.task i) ((switchTo s c next .schedule).task i) := by
  by_cases other : (s.core c).proc = next
  · rw [switchTo, if_pos other]
    exact Kept.refl _
  · have runs := fun k h => (inv.current hc (still_of pc (by simp)) (i := k) h).2.2
    rw [switchTo_task .schedule other runs]
    split
    · rename_i here
      exact ⟨rfl, rfl, by simp [used i here]⟩
    · split
      · rename_i here
        exact ⟨rfl, rfl, by simp [runs i here]⟩
      · exact Kept.refl _

theorem switchTo_proc (s : State) (c : Nat) (next : Who) :
    ((switchTo s c next .schedule).core c).proc = next ∧
      ((switchTo s c next .schedule).core c).pc ≠ .schedule ∧
      ∀ d, d ≠ c → (switchTo s c next .schedule).core d = s.core d := by
  by_cases other : (s.core c).proc = next
  · rw [switchTo, if_pos other]
    refine ⟨?_, ?_, ?_⟩
    · simpa [State.goTo, State.onCore] using other
    · simp [State.goTo, State.onCore]
    · exact fun d ne => update_of_ne ne ..
  · rw [(switchTo_core .schedule other).1]
    refine ⟨?_, ?_, ?_⟩
    · rw [update_self]
    · simp
    · exact fun d ne => update_of_ne ne ..

theorem bill_of_schedule {copied : Bool} (inv : Inv ncpu s) (hc : c < ncpu)
    (pc : (s.core c).pc = .schedule) : Bill ncpu s (schedule ncpu s c) (.run c copied) := by
  unfold schedule
  split
  · rename_i found
    obtain ⟨proc, -, others⟩ := switchTo_proc s c (.task (best ncpu s c).2)
    refine .picked (switchTo_kept inv hc pc ?_) proc (best_credits found ▸ found) others
    rintro j h
    cases h
    rcases (best_eligible found).2.2 with ⟨-, state⟩ | state <;> simp [state]
  · rename_i low
    split
    · rename_i some_
      exact .recharge pc low some_ rfl
    · obtain ⟨proc, -, others⟩ := switchTo_proc s c (.idle c)
      refine .kept (switchTo_kept inv hc pc (fun _ h => nomatch h)) ⟨others, fun i at_ => ?_⟩
      cases proc.symm.trans at_

theorem bill_of_sleep {chan : Chan} {point : Point} {copied : Bool}
    (pc : (s.core c).pc.dozes = true) (proc : (s.core c).proc = .task i) :
    Bill ncpu s (sleep s c i chan point) (.run c copied) := by
  refine .slept pc proc (fun j ne => ?_) ?_ ?_ ?_ ?_ ?_
  · rw [sleep_task, update_of_ne ne]
  · rw [sleep_task, update_self]
  · rw [sleep_task, update_self]
  · rw [sleep_task, update_self]
  · rw [sleep_core, update_self]
  · exact steady_of_leave rfl (sleep_core s c i chan point)

theorem bill_of_wait {p addr : Nat} {copied : Bool} (pc : (s.core c).pc = .wait addr)
    (proc : (s.core c).proc = .task p) : Bill ncpu s (wait s c p addr copied) (.run c copied) := by
  have was : (s.core c).pc ≠ .schedule := by simp [pc]
  have told : ∀ ret status, Bill ncpu s ((returns s p ret status).release c) (.run c copied) :=
    fun ret status => .kept (returns_kept s p ret status) (steady_of_pc was rfl)
  unfold wait
  split
  · rename_i i found
    split
    · exact told ..
    · refine .freed (by rw [pc]; rfl) (zombieChild_some found).2 ?_ ?_ ?_ (steady_of_pc was rfl)
      · intro j ne
        rw [freeproc_task, update_of_ne ne]
        exact returns_kept s p _ _ j
      · rw [freeproc_task, update_self]
      · rw [freeproc_task, update_self]
  · split
    · exact told ..
    · exact bill_of_sleep (by rw [pc]; rfl) proc

theorem bill_of_resume {point : Point} {w : Who} {copied : Bool}
    (pc : (s.core c).pc = .resumed point) (run : resume s c w point = .ok t) :
    Bill ncpu s t (.run c copied) := by
  have was : (s.core c).pc ≠ .schedule := by simp [pc]
  have out : Bill ncpu s (s.release c) (.run c copied) :=
    .kept (fun _ => Kept.refl _) (steady_of_pc was rfl)
  have woke : ∀ i, ∀ j, Kept (s.task j) ((s.onTask i ({ · with chan := none })).task j) :=
    fun i => onTask_kept ⟨rfl, rfl, Iff.rfl⟩
  cases point with
  | schedule | fork =>
    cases run
    exact out
  | sleep =>
    cases w with
    | task i =>
      cases run
      exact .kept (woke i) (steady_of_pc was rfl)
    | idle d =>
      cases run
      exact out
  | wait addr =>
    cases w with
    | task i =>
      cases run
      exact .kept (woke i) (steady_of_pc was rfl)
    | idle d =>
      cases run
      exact out
  | exit => cases run

theorem bill_of_switch {next : Who} {point : Point} {copied : Bool} (inv : Inv ncpu s) (hc : c < ncpu)
    (pc : (s.core c).pc = .switching next point) (run : cpuSwitchTo s c next point = .ok t) :
    Bill ncpu s t (.run c copied) := by
  obtain ⟨resume, u, ok, switched, -⟩ := inv.switch hc pc
  rw [run] at ok
  cases ok
  refine .kept (fun i => ?_) ⟨switched.others, fun i at_ _ => ?_⟩
  · obtain ⟨context, same⟩ := switched.frame i
    rw [same]
    exact ⟨rfl, rfl, Iff.rfl⟩
  · exact ⟨switched.proc.symm.trans at_, by simp [Event.core, pc]⟩

theorem bill_of_call {k : Call} (inv : Inv ncpu s) (hc : c < ncpu) (free : s.lock = none)
    (run : call s c k = .ok t) : Bill ncpu s t (.call c k) := by
  have was : (s.core c).pc ≠ .schedule := by grind [inv.holder]
  have same : Bill ncpu s s (.call c k) := .kept (fun _ => Kept.refl _) (steady_of_core rfl)
  cases k with
  | schedule =>
    cases run
    exact .kept (fun _ => Kept.refl _) (steady_of_pc was rfl)
  | timerTick | yield =>
    rw [call] at run
    split at run
    · rename_i i proc
      cases run
      refine .tick free proc (fun j ne => ?_) ?_ ?_ ?_ ?_ rfl
      · exact update_of_ne ne ..
      · simp [State.onTask]
      · simp only [State.onTask, update_self]
        grind
      · simp only [State.onTask, update_self]
        grind
      · simp only [State.onTask, update_self, owed, proc]
        grind
    · cases run
      exact same
  | wakeup chan =>
    cases run
    exact .kept (wakeupNolock_kept s chan) (steady_of_core rfl)
  | kill pid => exact .kept (kill_kept run) (steady_of_core (kill_ok run).core)
  | sleep | wait =>
    rw [call] at run
    split at run
    · cases run
      exact .kept (fun _ => Kept.refl _) (steady_of_pc was rfl)
    · cases run
      exact same
  | exitProcess status =>
    rw [call] at run
    split at run
    · rename_i i proc
      split at run
      · cases run
      · cases run
        have runs := (inv.current hc (inv.free_still free hc) proc).2.2
        refine .kept (fun j => ?_) ?_
        · rw [exitProcess_task]
          have told := announce_kept (s.acquire c .out) i j
          by_cases e : j = i
          · subst e
            rw [update_self]
            exact { told with unused := by simp [runs] }
          · rw [update_of_ne e]
            exact told
        · refine steady_of_leave (x := { s.core c with
            proc := .idle c, pc := .switching (.idle c) .exit }) (d := c) rfl ?_
          simp only [exitProcess, leave, State.name, State.onCore, State.onTask,
            (announce_woken _ _).core, State.acquire, State.goTo, Function.update_idem,
            update_self, Event.core]
    · cases run
      exact same
  | copyProcess =>
    rw [call] at run
    split at run
    · rename_i p proc
      cases run
      cases found : unusedTask s with
      | some child => exact .forked free proc found rfl
      | none =>
        simp only [copyProcess, found]
        exact same
    · cases run
      exact same

theorem bill_of_step {e : Event} (inv : Inv ncpu s) (he : e.core < ncpu)
    (run : step ncpu s e = .ok t) : Bill ncpu s t e := by
  have same : Bill ncpu s s e := .kept (fun _ => Kept.refl _) (steady_of_core rfl)
  cases e with
  | call c k =>
    rw [step] at run
    split at run
    · rename_i free
      exact bill_of_call inv he free run
    · cases run
      exact same
  | run c copied =>
    rw [step] at run
    cases pc : (s.core c).pc with
    | out =>
      rw [pc] at run
      cases run
      exact same
    | schedule =>
      rw [pc] at run
      cases run
      exact bill_of_schedule inv he pc
    | switching next point =>
      rw [pc] at run
      exact bill_of_switch inv he pc run
    | resumed point =>
      rw [pc] at run
      exact bill_of_resume pc run
    | sleep chan =>
      rw [pc] at run
      cases proc : (s.core c).proc with
      | task i =>
        rw [proc] at run
        cases run
        exact bill_of_sleep (by rw [pc]; rfl) proc
      | idle d =>
        rw [proc] at run
        cases run
        exact same
    | wait addr => grind [bill_of_wait]

/-! The credits stay bounded -/

structure Task.Rated (x : Task) : Prop where
  floor : 0 ≤ x.credits
  unused : x.state = .unused → x.credits = 0
  used : x.state ≠ .unused → 1 ≤ x.priority ∧ x.credits ≤ 2 * x.priority - 1

structure Rated (ncpu : Nat) (x : Clock) : Prop where
  inv : Inv ncpu x.state
  task : ∀ i, (x.state.task i).Rated
  core : ∀ c < ncpu, ∀ i, (x.state.core c).proc = .task i → (x.state.core c).pc ≠ .schedule →
    x.due c = false → 0 < (x.state.task i).credits
  due : ∀ c < ncpu, x.due c = true → (x.state.core c).pc = .out

theorem Task.Rated.kept {x y : Task} (h : x.Rated) (k : Kept x y) : y.Rated := by
  obtain ⟨credits, priority, unused⟩ := k
  obtain ⟨floor, zero, top⟩ := h
  constructor <;> grind

theorem Task.Rated.recharge (h : ∀ i, (s.task i).Rated) (i : Nat) :
    ((recharge s).task i).Rated := by
  obtain ⟨floor, zero, top⟩ := h i
  simp only [Sched.recharge]
  split
  · rename_i used
    obtain ⟨one, high⟩ := top used.2
    exact ⟨by dsimp only; omega, fun no => absurd no used.2, fun _ => ⟨one, by dsimp only; omega⟩⟩
  · exact h i

theorem Inv.proc_inj {d : Nat} (inv : Inv ncpu s) (hc : c < ncpu) (hd : d < ncpu)
    (calm : ∀ d < ncpu, ¬ (s.core d).pc.Switching) (proc : (s.core c).proc = .task i)
    (proc' : (s.core d).proc = .task i) : d = c :=
  inv.single d hd c hc i (inv.current hd (calm d hd) proc').1 (inv.current hc (calm c hc) proc).1

theorem Bill.others {e : Event} {d : Nat} (bill : Bill ncpu s t e) (ne : d ≠ e.core) :
    t.core d = s.core d := by
  cases bill with
  | kept _ steady | slept _ _ _ _ _ _ _ steady | freed _ _ _ _ _ steady => exact steady.others d ne
  | tick _ _ _ _ _ _ _ core => rw [core]
  | picked _ _ _ others => exact others d ne
  | recharge _ _ _ new => rw [new]; rfl
  | forked _ _ found new => rw [new, copyProcess_task found]

variable {x y : Clock} {e : Event}

theorem owes_others (s : State) (due : Nat → Bool) {d : Nat} (ne : d ≠ e.core) :
    owes s due e d = due d := by
  cases e with
  | run c copied => rfl
  | call c k =>
    simp only [owes]
    split
    · exact update_of_ne ne ..
    · rfl

theorem owed_call {k : Call} {was : Bool} (allowed : was = true → k.inIrq = true)
    (owes : owed s c was k = true) (ran : call s c k = .ok t) : t.core = s.core := by
  cases k <;> simp_all [owed, call, Call.inIrq]
  case timerTick | yield =>
    split at ran <;> cases ran <;> rfl
  case wakeup chan =>
    cases ran
    rfl

theorem Rated.due_turn (h : Rated ncpu x) (turn : Turn ncpu x e y) (hc : c < ncpu)
    (due : y.due c = true) : (y.state.core c).pc = .out := by
  have ran := turn.ran
  rw [turn.due] at due
  by_cases me : c = e.core
  · subst me
    cases e with
    | run c copied =>
      have out := h.due c hc due
      simp only [step, out] at ran
      rw [← Except.ok.inj ran]
      exact out
    | call c k =>
      simp only [step, owes, Event.core] at ran due ⊢
      split at ran
      · rename_i free
        rw [if_pos free, update_self] at due
        rw [owed_call turn.allowed due ran]
        exact (h.inv.holder c hc).mpr (by simp [free])
      · rename_i busy
        rw [if_neg busy] at due
        rw [← Except.ok.inj ran]
        exact h.due c hc due
  · rw [owes_others _ _ me] at due
    rw [(bill_of_step h.inv turn.core ran).others me]
    exact h.due c hc due

theorem Rated.core_steady (h : Rated ncpu x) (turn : Turn ncpu x e y) {d : Nat} (hd : d < ncpu)
    (steady : Steady x.state y.state e.core) (proc : (y.state.core d).proc = .task i)
    (pc : (y.state.core d).pc ≠ .schedule) (due : y.due d = false) :
    (x.state.core d).proc = .task i ∧ 0 < (x.state.task i).credits := by
  rw [turn.due] at due
  have ran := turn.ran
  by_cases me : d = e.core
  · subst me
    obtain ⟨proc', pc'⟩ := steady.mine i proc pc
    refine ⟨proc', h.core _ hd i proc' pc' ?_⟩
    cases e with
    | run c copied => exact due
    | call c k =>
      by_contra owing
      have owing : x.due c = true := Bool.not_eq_false _ ▸ owing
      have allowed := turn.allowed owing
      simp only [step, owes, Event.core] at *
      split at ran
      · rename_i free
        rw [if_pos free, update_self, owing] at due
        cases k <;> simp_all [owed, call, Call.inIrq]
        simp [← ran, State.acquire, State.goTo, State.onCore] at pc
      · rename_i busy
        rw [if_neg busy, owing] at due
        cases due
  · rw [owes_others _ _ me] at due
    rw [steady.others d me] at proc pc
    exact ⟨proc, h.core d hd i proc pc due⟩

theorem Inv.dozing_calm (inv : Inv ncpu s) (hc : c < ncpu) (pc : (s.core c).pc.dozes = true) :
    ∀ d < ncpu, ¬ (s.core d).pc.Switching := by
  refine fun d hd => inv.calm (.inr (inv.held hc ?_)) (fun _ => ?_) hd
  · exact fun no => by rw [no] at pc; cases pc
  · exact fun ⟨_, _, no⟩ => by rw [no] at pc; cases pc

theorem Rated.dozing (h : Rated ncpu x) (hc : c < ncpu) (pc : (x.state.core c).pc.dozes = true)
    (proc : (x.state.core c).proc = .task i) :
    (x.state.task i).state ≠ .unused ∧ 0 < (x.state.task i).credits := by
  have owing : x.due c = false := by
    by_contra due
    rw [h.due c hc (Bool.not_eq_false _ ▸ due)] at pc
    cases pc
  refine ⟨?_, h.core c hc i proc (fun no => by rw [no] at pc; cases pc) owing⟩
  rw [(h.inv.current hc (h.inv.dozing_calm hc pc c hc) proc).2.2]
  exact (nomatch ·)

theorem Rated.task_turn (h : Rated ncpu x) (turn : Turn ncpu x e y) (i : Nat) :
    (y.state.task i).Rated := by
  have old := h.task
  cases bill_of_step h.inv turn.core turn.ran with
  | kept each _ | picked each _ _ _ => exact (old i).kept (each i)
  | @tick c j k _ _ others task _ floor _ _ =>
    by_cases e : i = j
    · subst e
      obtain ⟨low, high⟩ := floor (old i).floor
      obtain ⟨_, zero, top⟩ := old i
      refine ⟨low, ?_, ?_⟩ <;> rw [task]
      · exact fun unused => by have := zero unused; dsimp only; omega
      · exact fun used => ⟨(top used).1, by have := (top used).2; dsimp only; omega⟩
    · rw [others i e]
      exact old i
  | @slept c j copied pc proc others credits priority state _ _ =>
    by_cases e : i = j
    · subst e
      -- the task of a core that is not in the scheduler has credits left
      obtain ⟨used, positive⟩ := h.dozing turn.core pc proc
      have top := (old i).used used
      exact ⟨by omega, fun no => absurd (state.symm.trans no) (nomatch ·), fun _ => by omega⟩
    · rw [others i e]
      exact old i
  | recharge _ _ _ new =>
    rw [new]
    exact Task.Rated.recharge old i
  | @freed c j copied _ zombie others state credits _ =>
    by_cases e : i = j
    · subst e
      exact ⟨by omega, fun _ => credits, fun used => absurd state used⟩
    · exact (old i).kept (others i e)
  | @forked c p child free proc found new =>
    rw [new, copyProcess_task found]
    have used := (h.inv.current turn.core (h.inv.free_still free turn.core) proc).2.2
    have top := ((old p).used (by rw [used]; exact (nomatch ·))).1
    simp only [Function.update_apply]
    split
    · exact ⟨by dsimp only; omega, (nomatch ·), fun _ => ⟨top, by dsimp only; omega⟩⟩
    · exact old i

theorem recharge_positive (h : (s.task i).Rated) (range : i < NR_TASKS)
    (used : (s.task i).state ≠ .unused) : 0 < ((recharge s).task i).credits := by
  have floor := h.floor
  have top := (h.used used).1
  simp only [recharge, if_pos (And.intro range used)]
  omega

theorem Rated.core_turn (h : Rated ncpu x) (turn : Turn ncpu x e y) {d : Nat} (hd : d < ncpu)
    (proc : (y.state.core d).proc = .task i) (pc : (y.state.core d).pc ≠ .schedule)
    (due : y.due d = false) : 0 < (y.state.task i).credits := by
  have here := turn.core
  have steady := fun steady => h.core_steady turn hd steady proc pc due
  cases bill_of_step h.inv here turn.ran with
  | kept each moves =>
    rw [(each i).credits]
    exact (steady moves).2
  | @tick c j k free proc' others task _ _ pays core =>
    obtain ⟨proc₀, positive⟩ := steady (steady_of_core core)
    by_cases e : i = j
    · subst e
      refine pays.resolve_right fun owing => ?_
      -- only core `c` runs the task that is charged
      have calm : ∀ d < ncpu, ¬ (x.state.core d).pc.Switching := fun d hd => h.inv.free_still free hd
      obtain rfl := h.inv.proc_inj here hd calm proc' proc₀
      rw [turn.due, owes, if_pos free] at due
      simp [owing] at due
    · rw [others i e]
      exact positive
  | @slept c j copied dozes proc' others _ _ _ left moves =>
    obtain ⟨proc₀, positive⟩ := steady moves
    by_cases e : i = j
    · subst e
      obtain rfl := h.inv.proc_inj here hd (h.inv.dozing_calm here dozes) proc' proc₀
      cases left.symm.trans proc
    · rw [others i e]
      exact positive
  | @picked c j copied each proc' positive others =>
    rw [(each i).credits]
    by_cases me : d = c
    · subst me
      cases proc'.symm.trans proc
      exact positive
    · rw [others d me] at proc pc
      rw [turn.due] at due
      exact h.core d hd i proc pc due
  | @recharge c copied pc' _ _ new =>
    obtain ⟨proc₀, -⟩ := steady (steady_of_core (by rw [new]; rfl))
    have calm := h.inv.calm (d := d) (.inr (h.inv.held here (by simp [Event.core, pc'])))
      (fun _ ⟨_, _, no⟩ => by simp [Event.core, pc'] at no) hd
    obtain ⟨-, range, runs⟩ := h.inv.current hd calm proc₀
    rw [new]
    exact recharge_positive (h.task i) range (by simp [runs])
  | @freed c j copied dozes zombie others _ _ moves =>
    obtain ⟨proc₀, positive⟩ := steady moves
    have other : i ≠ j := by
      rintro rfl
      have runs := (h.inv.current hd (h.inv.dozing_calm here dozes d hd) proc₀).2.2
      cases zombie.symm.trans runs
    rw [(others i other).credits]
    exact positive
  | @forked c p child free proc' found new =>
    obtain ⟨proc₀, positive⟩ := steady (steady_of_core (by rw [new, copyProcess_task found]))
    have running := (h.inv.current hd (h.inv.free_still free hd) proc₀).2.2
    have other : i ≠ child := by
      rintro rfl
      rw [(unusedTask_some found).2] at running
      cases running
    rw [new, copyProcess_task found]
    simpa [other] using positive

theorem Clock.Boot.rated (boot : x.Boot) : Rated ncpu x where
  inv := boot.state.inv
  task i := by
    by_cases e : i = 0
    · rw [e, boot.state.init]
      exact ⟨by decide, (nomatch ·), fun _ => by decide⟩
    · rw [boot.state.others i e]
      exact ⟨by decide, fun _ => rfl, fun used => absurd rfl used⟩
  core c _ i proc := by
    rw [boot.state.cores c] at proc
    cases proc
  due c _ due := by
    rw [boot.due c] at due
    cases due

theorem Rated.turn (h : Rated ncpu x) (turn : Turn ncpu x e y) : Rated ncpu y where
  inv := h.inv.next ⟨e, turn.core, turn.ran⟩
  task := h.task_turn turn
  core _ hc _ := h.core_turn turn hc
  due _ := h.due_turn turn

theorem Rated.reach (reached : Reach Clock.Boot (Turns ncpu) x) : Rated ncpu x :=
  reached.invariant (Rated ncpu) (fun _ boot => boot.rated) (fun _ _ h ⟨_, turn⟩ => h.turn turn)

theorem eligible_recharge : Eligible ncpu (recharge s) c i ↔ Eligible ncpu s c i := by
  have state : ((recharge s).task i).state = (s.task i).state := by
    simp only [recharge]
    split <;> rfl
  simp only [Eligible, state]
  exact Iff.rfl

/-- In the loop of `schedule`, the pass in state `u` is the last. -/
structure LastPass (ncpu : Nat) (u : State) (c : Nat) : Prop where
  inside : (u.core c).pc = .schedule
  left : ((schedule ncpu u c).core c).pc ≠ .schedule
  picks : (∃ i < NR_TASKS, Eligible ncpu u c i) → ∃ i < NR_TASKS,
    ((schedule ncpu u c).core c).proc = .task i ∧ 0 < (u.task i).credits ∧
      ∀ d < ncpu, d ≠ c → (u.core d).proc ≠ .task i
  idles : (∀ i < NR_TASKS, ¬ Eligible ncpu u c i) → ((schedule ncpu u c).core c).proc = .idle c

theorem lastPass_of_positive (pc : (s.core c).pc = .schedule) (range : i < NR_TASKS)
    (eligible : Eligible ncpu s c i) (positive : 0 < (s.task i).credits) : LastPass ncpu s c := by
  have found : (best ncpu s c).1 > 0 := Int.lt_of_lt_of_le positive (best_le eligible range)
  obtain ⟨proc, left, -⟩ := switchTo_proc s c (.task (best ncpu s c).2)
  obtain ⟨within, free, -⟩ := best_eligible found
  have run : schedule ncpu s c = switchTo s c (.task (best ncpu s c).2) .schedule := if_pos found
  refine ⟨pc, ?_, fun _ => ⟨_, within, ?_, best_credits found ▸ found, ?_⟩, fun none => ?_⟩
  · rwa [run]
  · rwa [run]
  · exact fun d hd other at_ => other (free d hd at_)
  · exact absurd eligible (none i range)

theorem lastPass_of_none (pc : (s.core c).pc = .schedule)
    (none : ∀ i < NR_TASKS, ¬ Eligible ncpu s c i) : LastPass ncpu s c := by
  obtain ⟨proc, left, -⟩ := switchTo_proc s c (.idle c)
  have low : ¬ (best ncpu s c).1 > 0 := fun found =>
    none _ (best_eligible found).1 (best_eligible found).2
  have run : schedule ncpu s c = switchTo s c (.idle c) .schedule := by
    rw [schedule, if_neg low, if_neg (fun ⟨i, range, eligible⟩ => none i range eligible)]
  refine ⟨pc, ?_, fun ⟨i, range, eligible⟩ => absurd eligible (none i range), fun _ => ?_⟩
  · rwa [run]
  · rwa [run]

theorem Rated.passes (h : Rated ncpu x) (pc : (x.state.core c).pc = .schedule) :
    LastPass ncpu x.state c ∨ schedule ncpu x.state c = recharge x.state ∧
      LastPass ncpu (recharge x.state) c := by
  by_cases some_ : ∃ i < NR_TASKS, Eligible ncpu x.state c i
  · obtain ⟨i, range, eligible⟩ := some_
    by_cases positive : (best ncpu x.state c).1 > 0
    · obtain ⟨within, eligible'⟩ := best_eligible positive
      exact .inl (lastPass_of_positive pc within eligible' (best_credits positive ▸ positive))
    · refine .inr ⟨by rw [schedule, if_neg positive, if_pos ⟨i, range, eligible⟩], ?_⟩
      refine lastPass_of_positive pc range (eligible_recharge.mpr eligible) ?_
      refine recharge_positive (h.task i) range ?_
      rcases eligible.2 with ⟨-, state⟩ | state <;> simp [state]
  · exact .inl (lastPass_of_none pc fun i range eligible => some_ ⟨i, range, eligible⟩)

theorem credits_bounded (reached : Reach Clock.Boot (Turns ncpu) x) :
    (∀ i, ((x.state.task i).state = .unused → (x.state.task i).credits = 0) ∧
      ((x.state.task i).state ≠ .unused → 0 ≤ (x.state.task i).credits ∧
        (x.state.task i).credits ≤ 2 * (x.state.task i).priority - 1)) ∧
    ∀ c < ncpu, (x.state.core c).pc = .schedule → LastPass ncpu x.state c ∨
      schedule ncpu x.state c = recharge x.state ∧ LastPass ncpu (recharge x.state) c := by
  have rated := Rated.reach reached
  refine ⟨fun i => ?_, fun c _ => rated.passes⟩
  obtain ⟨floor, unused, used⟩ := rated.task i
  exact ⟨unused, fun at_ => ⟨floor, (used at_).2⟩⟩

/-! The charges while a task waits for its turn -/

/-- The charge to a task other than `T`, by a step of core `c`: a tick or `yield` that finds
positive credits, or a sleep. -/
def charged (T : Nat) (s t : State) (c : Nat) : Nat :=
  match (s.core c).proc with
  | .task i => if i ≠ T ∧ (t.task i).credits < (s.task i).credits then 1 else 0
  | .idle _ => 0

/-- Whether a step is a pass of `schedule` that recharges. -/
def Recharges (ncpu : Nat) (s : State) : Event → Prop
  | .run c _ => (s.core c).pc = .schedule ∧ ¬ (best ncpu s c).1 > 0 ∧
      ∃ i < NR_TASKS, Eligible ncpu s c i
  | .call .. => False

instance (ncpu : Nat) (s : State) (e : Event) : Decidable (Recharges ncpu s e) := by
  cases e <;> unfold Recharges <;> infer_instance

/-- A run without `copy_process` in which `T` can run all the time and does not, with the
charges to other tasks and the passes that recharge. -/
inductive Segment (ncpu T : Nat) : Clock → Nat → Nat → Prop where
  | stop {x : Clock} (waits : (x.state.task T).state = .runnable) : Segment ncpu T x 0 0
  | turn {x y : Clock} {e : Event} {n r : Nat} (waits : (x.state.task T).state = .runnable)
      (turn : Turn ncpu x e y) (old : ∀ c, e ≠ .call c .copyProcess) (rest : Segment ncpu T y n r) :
      Segment ncpu T x (charged T x.state y.state e.core + n)
        ((if Recharges ncpu x.state e then 1 else 0) + r)

/-- The credits of all tasks but `T`. -/
def potential (T : Nat) (s : State) : Int := ∑ i ∈ (Finset.range NR_TASKS).erase T, (s.task i).credits

variable {T n r : Nat} {P : Int}

theorem Segment.waits (run : Segment ncpu T x n r) : (x.state.task T).state = .runnable := by
  cases run with
  | stop waits => exact waits
  | turn waits => exact waits

theorem potential_le (each : ∀ i, i ≠ T → (t.task i).credits ≤ (s.task i).credits) :
    potential T t ≤ potential T s :=
  sum_le_sum fun i member => each i (ne_of_mem_erase member)

theorem potential_lt (range : i < NR_TASKS) (ne : i ≠ T)
    (each : ∀ i, i ≠ T → (t.task i).credits ≤ (s.task i).credits)
    (less : (t.task i).credits < (s.task i).credits) : potential T t < potential T s :=
  sum_lt_sum (fun i member => each i (ne_of_mem_erase member))
    ⟨i, mem_erase.mpr ⟨ne, mem_range.mpr range⟩, less⟩

theorem Rated.potential_nonneg (h : Rated ncpu x) : 0 ≤ potential T x.state :=
  sum_nonneg fun i _ => (h.task i).floor

def Top (P : Int) (s : State) : Prop := ∀ i < NR_TASKS, (s.task i).state ≠ .unused → (s.task i).priority ≤ P

theorem Rated.potential_top (h : Rated ncpu x) (top : Top P x.state) (one : 1 ≤ P) (range : T < NR_TASKS) :
    potential T x.state ≤ (NR_TASKS - 1) * (2 * P - 1) := by
  have each : ∀ i ∈ (Finset.range NR_TASKS).erase T, (x.state.task i).credits ≤ 2 * P - 1 := by
    intro i member
    have inside := mem_range.mp (mem_of_mem_erase member)
    by_cases used : (x.state.task i).state = .unused
    · rw [(h.task i).unused used]
      omega
    · have high := ((h.task i).used used).2
      have below := top i inside used
      omega
  refine (sum_le_card_nsmul _ _ _ each).trans_eq ?_
  rw [card_erase_of_mem (mem_range.mpr range), card_range, nsmul_eq_mul]
  rfl

theorem Inv.proc_range (inv : Inv ncpu s) (hc : c < ncpu) (proc : (s.core c).proc = .task i) :
    i < NR_TASKS := by
  by_cases still : (s.core c).pc.Switching
  · obtain ⟨next, point, pc⟩ := still
    have leaving := inv.leaving c hc next point pc
    exact (leaving.picked i (leaving.proc.symm.trans proc)).1
  · exact (inv.current hc still proc).2.1

theorem Inv.proc_running (inv : Inv ncpu s) (hc : c < ncpu) (proc : (s.core c).proc = .task i) :
    (s.task i).state ≠ .runnable := by
  intro waits
  by_cases still : (s.core c).pc.Switching
  · obtain ⟨next, point, pc⟩ := still
    have leaving := inv.leaving c hc next point pc
    cases waits.symm.trans (leaving.picked i (leaving.proc.symm.trans proc)).2.2.1
  · cases waits.symm.trans (inv.current hc still proc).2.2

theorem Recharges.eq (recharges : Recharges ncpu s e) (ran : step ncpu s e = .ok t) :
    t = recharge s := by
  cases e with
  | call c k => cases recharges
  | run c copied =>
    obtain ⟨pc, low, some_⟩ := recharges
    simp only [step, pc, schedule, if_neg low, if_pos some_] at ran
    exact (Except.ok.inj ran).symm

theorem Rated.no_gain (h : Rated ncpu x) (turn : Turn ncpu x e y) (old : ∀ c, e ≠ .call c .copyProcess)
    (no : ¬ Recharges ncpu x.state e) (i : Nat) :
    (y.state.task i).credits ≤ (x.state.task i).credits ∧
      ((x.state.task i).state = .runnable → (y.state.task i).credits = (x.state.task i).credits) := by
  cases bill_of_step h.inv turn.core turn.ran with
  | kept each _ | picked each _ _ _ => exact ⟨Int.le_of_eq (each i).credits, fun _ => (each i).credits⟩
  | @tick c j k free proc others _ _ floor _ _ =>
    by_cases e : i = j
    · subst e
      refine ⟨(floor (h.task i).floor).2, fun waits => ?_⟩
      have runs := (h.inv.current turn.core (h.inv.free_still free turn.core) proc).2.2
      cases waits.symm.trans runs
    · simp [others i e]
  | @slept c j copied dozes proc others credits _ _ _ _ =>
    by_cases e : i = j
    · subst e
      refine ⟨by omega, fun waits => ?_⟩
      have runs := (h.inv.current turn.core (h.inv.dozing_calm turn.core dozes c turn.core) proc).2.2
      cases waits.symm.trans runs
    · simp [others i e]
  | recharge pc low some_ _ => exact absurd ⟨pc, low, some_⟩ no
  | @freed c j copied _ zombie others _ credits _ =>
    by_cases e : i = j
    · subst e
      exact ⟨credits ▸ (h.task i).floor, fun waits => by cases waits.symm.trans zombie⟩
    · exact ⟨Int.le_of_eq (others i e).credits, fun _ => (others i e).credits⟩
  | @forked c p child _ _ _ _ => exact absurd rfl (old c)

theorem Rated.pays (h : Rated ncpu x) (turn : Turn ncpu x e y) (old : ∀ c, e ≠ .call c .copyProcess)
    (no : ¬ Recharges ncpu x.state e) :
    charged T x.state y.state e.core + potential T y.state ≤ potential T x.state := by
  have each := fun i (_ : i ≠ T) => (h.no_gain turn old no i).1
  unfold charged
  split
  · rename_i i proc
    split
    · rename_i lower
      have less := potential_lt (h.inv.proc_range turn.core proc) lower.1 each lower.2
      push_cast
      omega
    · simpa using potential_le each
  · simpa using potential_le each

theorem Rated.charged_recharge (h : Rated ncpu x) : charged T x.state (recharge x.state) c = 0 := by
  unfold charged
  split
  · rename_i i proc
    refine if_neg fun lower => ?_
    obtain ⟨floor, _, used⟩ := h.task i
    have less := lower.2
    simp only [recharge] at less
    split at less
    · grind
    · exact Int.lt_irrefl _ less
  · rfl

theorem Rated.top_turn (h : Rated ncpu x) (turn : Turn ncpu x e y) (old : ∀ c, e ≠ .call c .copyProcess)
    (top : Top P x.state) : Top P y.state := by
  intro i range used
  cases bill_of_step h.inv turn.core turn.ran with
  | kept each _ | picked each _ _ _ =>
    rw [(each i).priority]
    exact top i range fun unused => used ((each i).unused.mpr unused)
  | @tick c j k _ _ others task _ _ _ _ =>
    by_cases e : i = j
    · subst e
      rw [task] at used ⊢
      exact top i range used
    · rw [others i e] at used ⊢
      exact top i range used
  | @slept c j copied dozes proc others _ priority _ _ _ =>
    by_cases e : i = j
    · subst e
      rw [priority]
      exact top i range (h.dozing turn.core dozes proc).1
    · rw [others i e] at used ⊢
      exact top i range used
  | recharge _ _ _ new =>
    have same : ((recharge x.state).task i).priority = (x.state.task i).priority ∧
        ((recharge x.state).task i).state = (x.state.task i).state := by
      simp only [recharge]
      split <;> exact ⟨rfl, rfl⟩
    rw [new, same.2] at used
    rw [new, same.1]
    exact top i range used
  | @freed c j copied _ _ others state _ _ =>
    by_cases e : i = j
    · subst e
      exact absurd state used
    · rw [(others i e).priority]
      exact top i range fun unused => used ((others i e).unused.mpr unused)
  | @forked c p child _ _ _ _ => exact absurd rfl (old c)

theorem Segment.bounded (range : T < NR_TASKS) (one : 1 ≤ P) (run : Segment ncpu T x n r)
    (h : Rated ncpu x) (top : Top P x.state) :
    (0 < (x.state.task T).credits → (n : Int) ≤ potential T x.state ∧ r = 0) ∧
    (¬ 0 < (x.state.task T).credits →
      (n : Int) ≤ potential T x.state + (NR_TASKS - 1) * (2 * P - 1) ∧ r ≤ 1) := by
  have room := h.potential_nonneg (T := T)
  have most := h.potential_top top one range
  induction run with
  | stop waits => exact ⟨fun _ => ⟨room, rfl⟩, fun _ => ⟨by push_cast; omega, Nat.zero_le _⟩⟩
  | @turn x y e n r waits turn old rest ih =>
    have next := h.turn turn
    have top' := h.top_turn turn old top
    have most' := next.potential_top top' one range
    obtain ⟨rich, poor⟩ := ih next top' next.potential_nonneg most'
    by_cases recharges : Recharges ncpu x.state e
    · have new := recharges.eq turn.ran
      rw [if_pos recharges, new, h.charged_recharge]
      have gets : 0 < (y.state.task T).credits := by
        rw [new]
        exact recharge_positive (h.task T) range (by rw [waits]; exact (nomatch ·))
      obtain ⟨few, none⟩ := rich gets
      refine ⟨fun positive => ?_, fun _ => ⟨by push_cast; omega, by omega⟩⟩
      -- the core found nobody with credits, and `T` may run on it
      cases e with
      | call c k => cases recharges
      | run c copied =>
        have eligible : Eligible ncpu x.state c T :=
          ⟨fun d hd proc => absurd waits (h.inv.proc_running hd proc), .inr waits⟩
        have low := best_le eligible range
        have found := recharges.2.1
        omega
    · have paid := h.pays (T := T) turn old recharges
      have same := (h.no_gain turn old recharges T).2 waits
      rw [if_neg recharges]
      rw [same] at rich poor
      exact ⟨fun positive => ⟨by have := rich positive; push_cast; omega, by have := rich positive; omega⟩,
        fun none => ⟨by have := poor none; push_cast; omega, by have := poor none; omega⟩⟩

theorem bypass_bounded (reached : Reach Clock.Boot (Turns ncpu) x) (range : T < NR_TASKS)
    (top : ∀ i < NR_TASKS, (x.state.task i).state ≠ .unused → (x.state.task i).priority ≤ P)
    (run : Segment ncpu T x n r) : (n : Int) ≤ 2 * (NR_TASKS - 1) * (2 * P - 1) ∧ r ≤ 1 ∧
      (0 < (x.state.task T).credits → r = 0) := by
  have h := Rated.reach reached
  have used : (x.state.task T).state ≠ .unused := by
    rw [run.waits]
    exact (nomatch ·)
  have one : 1 ≤ P := Int.le_trans ((h.task T).used used).1 (top T range used)
  obtain ⟨rich, poor⟩ := run.bounded range one h top
  have most := h.potential_top top one range
  have room := h.potential_nonneg (T := T)
  rw [Int.mul_assoc, Int.two_mul]
  by_cases positive : 0 < (x.state.task T).credits
  · omega
  · omega

end

def bootClock : Clock := ⟨bootState, fun _ => false⟩

theorem bootClock_reached (ncpu : Nat) : Reach Clock.Boot (Turns ncpu) bootClock :=
  .start ⟨bootState_boot, fun _ => rfl⟩

def inSchedule : Clock := ⟨bootState.acquire 0 .schedule, owes bootState (fun _ => false) (.call 0 .schedule)⟩

theorem inSchedule_turn : Turn 2 bootClock (.call 0 .schedule) inSchedule :=
  ⟨by decide, (nomatch ·), rfl, rfl⟩

theorem credits_bounded_first : (bootState.acquire 0 .schedule).core 0 = ⟨.idle 0, .idle 0, .schedule, none⟩ ∧
    (LastPass 2 inSchedule.state 0 ∨ schedule 2 inSchedule.state 0 = recharge inSchedule.state ∧
      LastPass 2 (recharge inSchedule.state) 0) :=
  ⟨rfl, (credits_bounded ((bootClock_reached 2).next ⟨_, inSchedule_turn⟩)).2 0 (by decide) rfl⟩

theorem bypass_bounded_first : Segment 2 0 bootClock 0 1 ∧
    ((0 : Nat) : Int) ≤ 2 * (NR_TASKS - 1) * (2 * 2 - 1) := by
  have second : Turn 2 inSchedule (.run 0 true) ⟨recharge inSchedule.state, inSchedule.due⟩ :=
    ⟨by decide, trivial, rfl, rfl⟩
  have run : Segment 2 0 bootClock 0 1 :=
    .turn rfl inSchedule_turn (fun _ => nofun) (.turn rfl second (fun _ => nofun) (.stop rfl))
  exact ⟨run, (bypass_bounded (bootClock_reached 2) (by decide) (by decide) run).1⟩

end UvaOs.Sched
