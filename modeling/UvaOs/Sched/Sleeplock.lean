import UvaOs.Sched.Family

/-! kernel/sleeplock.c on top of the scheduler: any number of sleep locks, tasks and
cores.

A step is a critical section of one spin lock. A task that finds a spin lock taken
spins, which is a step that changes nothing. The kernel switches interrupts off while a
core holds a spin lock; here it may also be scheduled away then, which only adds runs. -/
namespace UvaOs.Sleeplock

open UvaOs.Files (NR_TASKS)
open UvaOs.Sched (Halt Chan Alive Act Quiet Calm Woken)
open Prog (Reach)
open Function (update update_self update_of_ne)

/-- `struct sleeplock`. `lk` is the task that holds the spin lock. -/
structure Lock where
  locked : Bool
  lk : Option Nat
  pid : Int

/-- Where a task is in `acquiresleep` or `releasesleep`. -/
inductive Job where
  | none
  /-- It wants `lk`, at the start of `acquiresleep` or at the end of `sleep`. -/
  | acquiring (l : Nat)
  | testing (l : Nat)
  /-- It is in `sleep` and has `lk` and `sched_lock`. -/
  | dozing (l : Nat)
  | releasing (l : Nat)
  /-- It has cleared `locked` and calls `wakeup`. -/
  | waking (l : Nat)
  | leaving (l : Nat)
  deriving DecidableEq

def Job.lk : Job → Option Nat
  | .testing l | .dozing l | .waking l | .leaving l => some l
  | _ => .none

def Job.dozes : Job → Bool
  | .dozing _ => true
  | _ => false

/-- `held i` are the locks that task `i` got from `acquiresleep` and has not given back. -/
structure State where
  sched : Sched.State
  lock : Nat → Lock
  job : Nat → Job
  held : Nat → List Nat

namespace State

def put (s : State) (l : Nat) (x : Lock) : State := { s with lock := update s.lock l x }

def goTo (s : State) (i : Nat) (j : Job) : State := { s with job := update s.job i j }

def keep (s : State) (i : Nat) (ls : List Nat) : State :=
  { s with held := update s.held i ls }

end State

/-- The next step of task `i`, which runs on core `c`. -/
def go (s : State) (c i : Nat) : State :=
  match s.job i with
  | .none => s
  | .acquiring l =>
    if (s.lock l).lk = none then (s.put l { s.lock l with lk := some i }).goTo i (.testing l) else s
  | .testing l =>
    if (s.lock l).locked = true then
      -- `sleep` takes `sched_lock` before it gives `lk` back
      if s.sched.lock = none then
        { s.goTo i (.dozing l) with sched := s.sched.acquire c (.sleep (.sleeplock l)) }
      else s
    else ((s.put l ⟨true, none, (s.sched.task i).pid⟩).goTo i .none).keep i (l :: s.held i)
  | .dozing l => (s.put l { s.lock l with lk := none }).goTo i (.acquiring l)
  | .releasing l =>
    if (s.lock l).lk = none then
      ((s.put l ⟨false, some i, 0⟩).goTo i (.waking l)).keep i ((s.held i).filter (· ≠ l))
    else s
  | .waking l =>
    if s.sched.lock = none then
      { s.goTo i (.leaving l) with sched := Sched.wakeupNolock s.sched (.sleeplock l) }
    else s
  | .leaving l => (s.put l { s.lock l with lk := none }).goTo i .none

def holdingsleep (s : State) (l i : Nat) : Bool :=
  (s.lock l).locked && (s.lock l).pid == (s.sched.task i).pid

def isSleeplock : Chan → Bool
  | .sleeplock _ => true
  | _ => false

/-- What the rest of the kernel may do meanwhile. A task sleeps on other channels, waits
and forks outside `acquiresleep` and `releasesleep`, and exits without a sleep lock;
anybody may kill it or wake it up at any time. -/
def allowed (s : State) : Sched.Event → Bool
  | .run c _ =>
    match (s.sched.core c).proc with
    | .task i => !(s.job i).dozes
    | .idle _ => true
  | .call c k =>
    match (s.sched.core c).proc, k with
    | .task i, .sleep chan => decide (s.job i = .none) && !isSleeplock chan
    | .task i, .wait _ => decide (s.job i = .none)
    | .task i, .copyProcess => decide (s.job i = .none)
    | .task i, .exitProcess _ => decide (s.job i = .none) && (s.held i).isEmpty
    | _, _ => true

inductive Event where
  | acquiresleep (c l : Nat)
  | releasesleep (c l : Nat)
  | go (c : Nat)
  | sched (e : Sched.Event)

def Event.core : Event → Nat
  | .acquiresleep c _ => c
  | .releasesleep c _ => c
  | .go c => c
  | .sched e => e.core

def step (ncpu : Nat) (s : State) : Event → Except Halt State
  | .acquiresleep c l =>
    match (s.sched.core c).proc with
    | .task i =>
      if (s.sched.core c).pc = .out ∧ s.job i = .none then .ok (s.goTo i (.acquiring l)) else .ok s
    | .idle _ => .ok s
  | .releasesleep c l =>
    match (s.sched.core c).proc with
    | .task i =>
      if (s.sched.core c).pc = .out ∧ s.job i = .none ∧ l ∈ s.held i then
        .ok (s.goTo i (.releasing l))
      else .ok s
    | .idle _ => .ok s
  | .go c =>
    match (s.sched.core c).proc with
    | .task i =>
      if (s.sched.core c).pc = .out ∨ (s.job i).dozes = true then .ok (go s c i) else .ok s
    | .idle _ => .ok s
  | .sched e =>
    if allowed s e = true then
      match Sched.step ncpu s.sched e with
      | .ok t => .ok { s with sched := t }
      | .error h => .error h
    else .ok s

structure Boot (s : State) : Prop where
  sched : Sched.Boot s.sched
  lock : ∀ l, s.lock l = ⟨false, none, 0⟩
  job : ∀ i, s.job i = .none
  held : ∀ i, s.held i = []

def Step (ncpu : Nat) (s t : State) : Prop :=
  ∃ e : Event, e.core < ncpu ∧ step ncpu s e = .ok t

/-! What the scheduler's steps mean for the locks -/

/-- Somebody sleeps on the lock, or is in `sleep` with `lk` given back or about to be. -/
def Asleep (ncpu : Nat) (s : Sched.State) (l : Nat) : Prop :=
  (∃ i < NR_TASKS, (s.task i).state = .sleeping ∧ (s.task i).chan = some (.sleeplock l)) ∨
    ∃ c < ncpu, (s.core c).pc = .sleep (.sleeplock l)

section

variable {ncpu : Nat} {s t : Sched.State}

variable {i j l : Nat} {e : Sched.Event} {x : Sched.Task}

theorem Asleep.quiet (h : Quiet ncpu s t) (asleep : Asleep ncpu t l) : Asleep ncpu s l := by
  rcases asleep with ⟨i, hi, sleeps, chan⟩ | ⟨c, hc, pc⟩
  · obtain ⟨slept, same, _⟩ := h.sleeper i sleeps
    exact .inl ⟨i, hi, slept, same.symm.trans chan⟩
  · exact .inr ⟨c, hc, (h.window c hc _ pc).1⟩

theorem Asleep.before (asleep : Asleep ncpu t l)
    (tasks : ∀ i, (t.task i).state = .sleeping → (t.task i).chan = some (.sleeplock l) →
      (s.task i).state = .sleeping ∧ (s.task i).chan = some (.sleeplock l))
    (cores : ∀ d, (t.core d).pc = .sleep (.sleeplock l) → (s.core d).pc = .sleep (.sleeplock l)) :
    Asleep ncpu s l := by
  rcases asleep with ⟨i, hi, sleeps, chan⟩ | ⟨d, hd, pc⟩
  · exact .inl ⟨i, hi, tasks i sleeps chan⟩
  · exact .inr ⟨d, hd, cores d pc⟩

theorem slot_before (task : t.task = update s.task i x)
    (slot : x.state = .sleeping → x.chan ≠ some (.sleeplock l)) (j : Nat)
    (sleeps : (t.task j).state = .sleeping) (chan : (t.task j).chan = some (.sleeplock l)) :
    (s.task j).state = .sleeping ∧ (s.task j).chan = some (.sleeplock l) := by
  rw [task] at sleeps chan
  by_cases e : j = i
  · grind
  · rw [update_of_ne e] at sleeps chan
    exact ⟨sleeps, chan⟩

theorem core_before {c : Nat} {x : Sched.Core} (core : t.core = update s.core c x)
    (away : x.pc ≠ .sleep (.sleeplock l)) (d : Nat) (pc : (t.core d).pc = .sleep (.sleeplock l)) :
    (s.core d).pc = .sleep (.sleeplock l) := by
  rw [core] at pc
  by_cases e : d = c
  · subst e
    rw [update_self] at pc
    exact absurd pc away
  · rwa [update_of_ne e] at pc

theorem Asleep.announce (asleep : Asleep ncpu (Sched.announce s i) l) : Asleep ncpu s l := by
  have woken := Sched.announce_woken s i
  rcases asleep with ⟨j, hj, sleeps, chan⟩ | ⟨c, hc, pc⟩
  · refine .inl ⟨j, hj, woken.sleeping sleeps, ?_⟩
    rw [Sched.announce_frame] at chan
    exact chan
  · rw [woken.core] at pc
    exact .inr ⟨c, hc, pc⟩

theorem asleep_of_act (act : Act ncpu s t e) (asleep : Asleep ncpu t l) : Asleep ncpu s l ∨
      ∃ c i, e = .call c (.sleep (.sleeplock l)) ∧ (s.core c).proc = .task i := by
  cases act with
  | calm _ rest =>
    cases rest with
    | quiet quiet => exact .inl (asleep.quiet quiet)
    | @doze c i chan _ proc _ eq =>
      subst eq
      by_cases e : chan = .sleeplock l
      · exact .inr ⟨c, i, by rw [e], proc⟩
      · refine .inl (asleep.before (fun _ h k => ⟨h, k⟩) (core_before rfl ?_))
        exact fun h => e (Sched.Pc.sleep.inj h)
    | @nod c i chan copied hc pc _ eq =>
      subst eq
      left
      by_cases e : chan = .sleeplock l
      · exact .inr ⟨c, hc, e ▸ pc⟩
      · refine asleep.before (slot_before (Sched.sleep_task ..) ?_) (core_before (Sched.sleep_core ..) ?_)
        · exact fun _ h => e (Option.some.inj h)
        · exact Sched.Pc.noConfusion
  | @exit c i status _ _ _ _ eq =>
    subst eq
    left
    have told : Asleep ncpu (Sched.announce (s.acquire c .out) i) l :=
      asleep.before (slot_before (Sched.exitProcess_task ..) (nomatch ·))
        (core_before rfl Sched.Pc.noConfusion)
    refine told.announce.quiet (Sched.goTo_quiet (some c) ?_ ?_)
    · exact fun ⟨_, _, h⟩ => nomatch h
    · exact fun _ => (nomatch ·)
  | fork _ _ _ found eq =>
    rw [Sched.copyProcess_task found] at eq
    subst eq
    exact .inl (asleep.before (slot_before rfl (nomatch ·)) (fun _ h => h))
  | @reap c p i addr copied hc pc proc found eq =>
    subst eq
    left
    have told : Quiet ncpu s (Sched.returns s p (s.task i).pid
      (if addr = 0 then none else some (s.task i).xstate)) := Sched.returns_quiet ..
    refine Asleep.quiet told ?_
    exact asleep.before (slot_before (Sched.freeproc_task ..) (nomatch ·))
      (core_before rfl Sched.Pc.noConfusion)
  | sleep _ _ _ _ _ eq =>
    subst eq
    left
    refine asleep.before (slot_before (Sched.sleep_task ..) ?_)
      (core_before (Sched.sleep_core ..) Sched.Pc.noConfusion)
    exact fun _ h => nomatch h

theorem alive_of_act (inv : Sched.Inv ncpu s) (act : Act ncpu s t e) (alive : Alive s i) :
    Alive t i ∧ (t.task i).pid = (s.task i).pid ∨
      ∃ c status, e = .call c (.exitProcess status) ∧ (s.core c).proc = .task i := by
  rcases act.change inv with calm | ⟨j, change, others⟩
  · exact .inl ⟨calm.alive alive, (calm.kin i).2.1⟩
  · obtain ⟨range, used, living⟩ := alive
    by_cases here : i = j
    · subst here
      cases change with
      | exit proc => exact .inr ⟨_, _, rfl, proc⟩
      | fork unused => exact absurd unused used
      | reap reaps => exact absurd reaps.zombie living
      | sleep _ state pid => exact .inl ⟨⟨range, by rw [state]; nofun, by rw [state]; nofun⟩, pid⟩
    · have told := others i here
      refine .inl ⟨⟨range, fun h => used (told.unused.mp h), fun zombie => ?_⟩, told.pid⟩
      rcases told.state with same | ⟨_, awake⟩
      · exact living (same.symm.trans zombie)
      · cases zombie.symm.trans awake

theorem pid_of_act (inv : Sched.Inv ncpu s) (act : Act ncpu s t e)
    (pids : ∀ i, (s.task i).state ≠ .unused → (s.task i).pid = i)
    (used : (t.task i).state ≠ .unused) : (t.task i).pid = i := by
  rcases act.change inv with calm | ⟨j, change, others⟩
  · rw [(calm.kin i).2.1]
    exact pids i (fun h => used ((calm.unused i).mpr h))
  · by_cases here : i = j
    · subst here
      cases change with
      | exit _ runs _ pid | sleep runs _ pid =>
        rw [pid]
        exact pids i (by rw [runs]; nofun)
      | fork _ _ pid => exact pid
      | reap reaps => exact absurd reaps.freed used
    · rw [(others i here).pid]
      exact pids i (fun h => used ((others i here).unused.mpr h))

end

/-! The invariant -/

structure Inv (ncpu : Nat) (s : State) : Prop where
  sched : Sched.Inv ncpu s.sched
  pids : ∀ i, (s.sched.task i).state ≠ .unused → (s.sched.task i).pid = i
  alive : ∀ i, s.job i ≠ .none ∨ s.held i ≠ [] → Alive s.sched i
  mutex : ∀ l i, (s.lock l).lk = some i ↔ (s.job i).lk = some l
  locked : ∀ l, (s.lock l).locked = true → ∃ i, l ∈ s.held i
  held : ∀ l i, l ∈ s.held i → (s.lock l).locked = true ∧
    (s.lock l).pid = (s.sched.task i).pid ∧ ∀ j, l ∈ s.held j → j = i
  releasing : ∀ i l, s.job i = .releasing l → l ∈ s.held i
  dozing : ∀ i l, s.job i = .dozing l → (s.lock l).locked = true
  asleep : ∀ l, Asleep ncpu s.sched l → (s.lock l).locked = true ∨ ∃ j, s.job j = .waking l

theorem Boot.inv {ncpu : Nat} {s : State} (boot : Boot s) : Inv ncpu s where
  sched := boot.sched.inv
  pids i used := by
    by_cases e : i = 0
    · rw [e, boot.sched.init]; rfl
    · rw [boot.sched.others i e] at used
      exact absurd rfl used
  alive i busy := by
    rw [boot.job, boot.held] at busy
    exact absurd busy (by simp)
  mutex l i := by
    rw [boot.lock, boot.job]
    simp [Job.lk]
  locked l h := by
    rw [boot.lock] at h
    cases h
  held l i h := by
    rw [boot.held] at h
    cases h
  releasing i l h := by
    rw [boot.job] at h
    cases h
  dozing i l h := by
    rw [boot.job] at h
    cases h
  asleep l h := by
    rcases h with ⟨i, _, sleeps, _⟩ | ⟨c, _, pc⟩
    · by_cases e : i = 0
      · rw [e, boot.sched.init] at sleeps; cases sleeps
      · rw [boot.sched.others i e] at sleeps; cases sleeps
    · rw [boot.sched.cores] at pc
      cases pc

section

variable {ncpu : Nat} {s t : State} {c i : Nat}

variable {j : Job} {l : Nat}

theorem Inv.other {e : Sched.Event} {u : Sched.State} (inv : Inv ncpu s) (he : e.core < ncpu)
    (may : allowed s e = true) (run : Sched.step ncpu s.sched e = .ok u) :
    Inv ncpu { s with sched := u } := by
  have act := Sched.act_of_step inv.sched he run
  have stays : ∀ j, s.job j ≠ .none ∨ s.held j ≠ [] →
      Alive u j ∧ (u.task j).pid = (s.sched.task j).pid := by
    intro j busy
    refine (alive_of_act inv.sched act (inv.alive j busy)).resolve_right ?_
    rintro ⟨c, status, rfl, proc⟩
    simp only [allowed, proc, Bool.and_eq_true, decide_eq_true_eq, List.isEmpty_iff] at may
    exact busy.elim (fun h => h may.1) (fun h => h may.2)
  refine ⟨inv.sched.next ⟨e, he, run⟩, fun i => pid_of_act inv.sched act inv.pids, fun j busy => (stays j busy).1,
    inv.mutex, inv.locked, ?_, inv.releasing, inv.dozing, ?_⟩
  · grind [inv.held]
  · intro l asleep
    refine inv.asleep l ((asleep_of_act act asleep).resolve_right ?_)
    rintro ⟨c, i, rfl, proc⟩
    simp [allowed, proc, isSleeplock] at may

theorem mutex_turn {x : Lock} (inv : Inv ncpu s)
    (lock : t.lock = update s.lock l x) (job : t.job = update s.job i j)
    (mine : (s.lock l).lk = none ∨ (s.lock l).lk = some i)
    (was : ∀ l', (s.job i).lk = some l' → l' = l)
    (now : x.lk = some i ∧ j.lk = some l ∨ x.lk = none ∧ j.lk = none) (l' k : Nat) :
    (t.lock l').lk = some k ↔ (t.job k).lk = some l' := by
  rw [lock, job]
  by_cases el : l' = l
  · grind [inv.mutex]
  · grind [inv.mutex]

theorem Inv.turn (inv : Inv ncpu s) (alive : Alive s.sched i) (sched : Sched.Inv ncpu t.sched)
    (calm : Calm ncpu s.sched t.sched)
    (locks : ∀ l, (t.lock l).locked = (s.lock l).locked ∧ (t.lock l).pid = (s.lock l).pid)
    (held : t.held = s.held) (job : t.job = update s.job i j)
    (mutex : ∀ l k, (t.lock l).lk = some k ↔ (t.job k).lk = some l)
    (releasing : ∀ l, j = .releasing l → l ∈ s.held i)
    (dozing : ∀ l, j = .dozing l → (s.lock l).locked = true)
    (asleep : ∀ l, Asleep ncpu t.sched l → (s.lock l).locked = true ∨ ∃ k, t.job k = .waking l) :
    Inv ncpu t := by
  have jobs : ∀ {k : Nat} {J : Job}, t.job k = J → k = i ∧ j = J ∨ s.job k = J := by
    intro k J h
    rw [job] at h
    by_cases e : k = i
    · grind
    · rw [update_of_ne e] at h
      exact .inr h
  refine ⟨sched, ?_, ?_, mutex, ?_, ?_, ?_, ?_, ?_⟩
  · intro k used
    rw [(calm.kin k).2.1]
    exact inv.pids k (fun h => used ((calm.unused k).mpr h))
  · grind [calm.alive, inv.alive]
  · intro l h
    rw [(locks l).1] at h
    rw [held]
    exact inv.locked l h
  · intro l k h
    rw [held] at h ⊢
    rw [(locks l).1, (locks l).2, (calm.kin k).2.1]
    exact inv.held l k h
  · intro k l h
    rw [held]
    rcases jobs h with ⟨rfl, h⟩ | h
    · exact releasing l h
    · exact inv.releasing k l h
  · grind [inv.dozing]
  · intro l h
    rw [(locks l).1]
    exact asleep l h

theorem put_lk (l : Nat) (o : Option Nat) (l' : Nat) :
    ((s.put l { s.lock l with lk := o }).lock l').locked = (s.lock l').locked ∧
      ((s.put l { s.lock l with lk := o }).lock l').pid = (s.lock l').pid := by
  by_cases e : l' = l
  · subst e
    simp only [State.put, update_self, and_self]
  · simp only [State.put, update_of_ne e, and_self]

theorem waking_update (j : Job) (other : s.job i ≠ .waking l)
    (h : (s.lock l).locked = true ∨ ∃ k, s.job k = .waking l) :
    (s.lock l).locked = true ∨ ∃ k, update s.job i j k = .waking l := by
  refine h.imp id ?_
  rintro ⟨k, waking⟩
  have ne : k ≠ i := by
    rintro rfl
    exact other waking
  exact ⟨k, by rw [update_of_ne ne]; exact waking⟩

section

variable (inv : Inv ncpu s)
include inv

theorem Inv.spin {o : Option Nat} (alive : Alive s.sched i)
    (mine : (s.lock l).lk = none ∨ (s.lock l).lk = some i)
    (was : ∀ l', (s.job i).lk = some l' → l' = l)
    (now : o = some i ∧ j.lk = some l ∨ o = none ∧ j.lk = none)
    (other : ∀ l, s.job i ≠ .waking l) (plain : ∀ l, j ≠ .releasing l ∧ j ≠ .dozing l) :
    Inv ncpu ((s.put l { s.lock l with lk := o }).goTo i j) := by
  refine inv.turn (j := j) alive inv.sched (Quiet.refl s.sched).calm (put_lk l o) rfl rfl
    (mutex_turn inv rfl rfl mine was now) (fun l h => absurd h (plain l).1)
    (fun l h => absurd h (plain l).2) ?_
  intro l' asleep
  exact waking_update j (other l') (inv.asleep l' asleep)

theorem Inv.lk_of_job (job : (s.job i).lk = some l) :
    (s.lock l).lk = some i := (inv.mutex l i).mpr job

theorem Inv.keeps (was : (s.job i).lk = some l) (now : j.lk = some l) (l' k : Nat) :
    (s.lock l').lk = some k ↔ (update s.job i j k).lk = some l' := by
  have mine := inv.lk_of_job was
  refine mutex_turn (t := s.goTo i j) (x := s.lock l) inv (Function.update_eq_self l s.lock).symm rfl
    (.inr mine) ?_ (.inl ⟨mine, now⟩) l' k
  exact fun l'' h => Option.some.inj (h.symm.trans was)

theorem Inv.take (alive : Alive s.sched i) (job : s.job i = .testing l)
    (free : (s.lock l).locked ≠ true) :
    Inv ncpu (((s.put l ⟨true, none, (s.sched.task i).pid⟩).goTo i .none).keep i (l :: s.held i)) := by
  have mine := inv.lk_of_job (l := l) (by rw [job]; rfl)
  have fresh : ∀ k, l ∉ s.held k := fun k h => free (inv.held l k h).1
  have jobs : ∀ {k : Nat} {J : Job}, update s.job i .none k = J → J ≠ .none → s.job k = J := by
    grind
  have helds : ∀ {l' k : Nat}, l' ∈ update s.held i (l :: s.held i) k ↔
      l' = l ∧ k = i ∨ l' ∈ s.held k := by grind
  refine ⟨inv.sched, inv.pids, ?_, ?_, ?_, ?_, ?_, ?_, ?_⟩
  · intro k busy
    by_cases e : k = i
    · exact e ▸ alive
    · simp only [State.keep, State.goTo, State.put, update_of_ne e] at busy
      exact inv.alive k busy
  · refine mutex_turn (l := l) (j := .none) inv rfl rfl (.inr mine) ?_ (.inr ⟨rfl, rfl⟩)
    intro l' h
    rw [job] at h
    exact (Option.some.inj h).symm
  · intro l' h
    by_cases e : l' = l
    · exact ⟨i, helds.mpr (.inl ⟨e, rfl⟩)⟩
    · simp only [State.keep, State.goTo, State.put, update_of_ne e] at h
      obtain ⟨k, h⟩ := inv.locked l' h
      exact ⟨k, helds.mpr (.inr h)⟩
  · intro l' k h
    rcases helds.mp h with ⟨rfl, rfl⟩ | before
    · simp only [State.keep, State.goTo, State.put, update_self, true_and]
      intro j hj
      exact ((helds.mp hj).resolve_right (fresh j)).2
    · have e : l' ≠ l := by
        rintro rfl
        exact fresh k before
      simp only [State.keep, State.goTo, State.put, update_of_ne e]
      obtain ⟨locked, pid, only⟩ := inv.held l' k before
      exact ⟨locked, pid, fun j hj => only j ((helds.mp hj).resolve_left (fun h => e h.1))⟩
  · intro k l' h
    exact helds.mpr (.inr (inv.releasing k l' (jobs h (nomatch ·))))
  · intro k l' h
    have dozing := inv.dozing k l' (jobs h (nomatch ·))
    by_cases e : l' = l
    · grind
    · simp only [State.keep, State.goTo, State.put, update_of_ne e]
      exact dozing
  · intro l' asleep
    by_cases e : l' = l
    · subst e
      left
      simp only [State.keep, State.goTo, State.put, update_self]
    · simp only [State.keep, State.goTo, State.put, update_of_ne e]
      refine waking_update .none ?_ (inv.asleep l' asleep)
      rw [job]
      exact (nomatch ·)

theorem Inv.give (alive : Alive s.sched i) (job : s.job i = .releasing l)
    (free : (s.lock l).lk = none) :
    Inv ncpu (((s.put l ⟨false, some i, 0⟩).goTo i (.waking l)).keep i
      ((s.held i).filter (· ≠ l))) := by
  have mine := inv.releasing i l job
  have jobs : ∀ {k : Nat} {J : Job}, update s.job i (.waking l) k = J → J ≠ .waking l →
      s.job k = J := by grind
  have helds : ∀ {l' k : Nat}, l' ∈ update s.held i ((s.held i).filter (· ≠ l)) k ↔
      l' ∈ s.held k ∧ l' ≠ l := by
    intro l' k
    by_cases e : k = i
    · subst e
      simp
    · simp only [update_of_ne e]
      refine ⟨fun h => ⟨h, ?_⟩, fun h => h.1⟩
      rintro rfl
      exact e ((inv.held l' i mine).2.2 k h)
  refine ⟨inv.sched, inv.pids, ?_, ?_, ?_, ?_, ?_, ?_, ?_⟩
  · intro k busy
    by_cases e : k = i
    · exact e ▸ alive
    · simp only [State.keep, State.goTo, State.put, update_of_ne e] at busy
      exact inv.alive k busy
  · refine mutex_turn (l := l) (j := .waking l) inv rfl rfl (.inl free) ?_ (.inl ⟨rfl, rfl⟩)
    intro l' h
    rw [job] at h
    cases h
  · intro l' h
    by_cases e : l' = l
    · subst e
      simp only [State.keep, State.goTo, State.put, update_self] at h
      cases h
    · simp only [State.keep, State.goTo, State.put, update_of_ne e] at h
      obtain ⟨k, h⟩ := inv.locked l' h
      exact ⟨k, helds.mpr ⟨h, e⟩⟩
  · intro l' k h
    obtain ⟨h, e⟩ := helds.mp h
    simp only [State.keep, State.goTo, State.put, update_of_ne e]
    obtain ⟨locked, pid, only⟩ := inv.held l' k h
    exact ⟨locked, pid, fun j hj => only j (helds.mp hj).1⟩
  · intro k l' h
    have releasing := jobs h (nomatch ·)
    refine helds.mpr ⟨inv.releasing k l' releasing, ?_⟩
    -- only the holder releases, and it is no longer at it
    rintro rfl
    have same : k = i := (inv.held l' i mine).2.2 k (inv.releasing k l' releasing)
    subst same
    simp only [State.keep, State.goTo, State.put, update_self] at h
    cases h
  · intro k l' h
    have dozing := jobs h (nomatch ·)
    have e : l' ≠ l := by
      rintro rfl
      have lk := inv.lk_of_job (i := k) (l := l') (by rw [dozing]; rfl)
      rw [free] at lk
      cases lk
    simp only [State.keep, State.goTo, State.put, update_of_ne e]
    exact inv.dozing k l' dozing
  · intro l' asleep
    by_cases e : l' = l
    · subst e
      exact .inr ⟨i, by simp only [State.keep, State.goTo, State.put, update_self]⟩
    · simp only [State.keep, State.goTo, State.put, update_of_ne e]
      refine waking_update (.waking l) ?_ (inv.asleep l' asleep)
      rw [job]
      exact (nomatch ·)

end

theorem wakeup_all {u : Sched.State} (inv : Sched.Inv ncpu u) (free : u.lock = none) :
    ¬ Asleep ncpu (Sched.wakeupNolock u (.sleeplock l)) l := by
  rintro (⟨i, hi, sleeps, chan⟩ | ⟨c, hc, pc⟩)
  · grind [Sched.wakeup_awake, Sched.wakeupNolock]
  · have busy : (u.core c).pc ≠ .out := by
      rw [Sched.wakeupNolock] at pc
      simp only at pc
      simp [pc]
    rw [inv.held hc busy] at free
    cases free

theorem Inv.go (inv : Inv ncpu s) (hc : c < ncpu) (alive : Alive s.sched i) :
    Inv ncpu (go s c i) := by
  unfold UvaOs.Sleeplock.go
  have only : ∀ {l : Nat}, (s.job i).lk = some l → ∀ l', (s.job i).lk = some l' → l' = l :=
    fun h l' h' => Option.some.inj (h'.symm.trans h)
  cases job : s.job i with
  | none => exact inv
  | acquiring l =>
    simp only []
    split
    case isTrue free =>
      refine inv.spin alive (.inl free) ?_ (.inl ⟨rfl, rfl⟩) ?_ (fun _ => ⟨(nomatch ·), (nomatch ·)⟩)
      · rw [job]; exact fun l' h => nomatch h
      · rw [job]; exact fun _ => (nomatch ·)
    case isFalse => exact inv
  | testing l =>
    simp only []
    split
    case isTrue locked =>
      split
      case isTrue free =>
        have acquired : Sched.Inv ncpu (s.sched.acquire c (.sleep (.sleeplock l))) :=
          inv.sched.acquire hc free (nomatch ·) (fun ⟨_, _, h⟩ => nomatch h) (nomatch ·)
        have lk : (s.job i).lk = some l := by rw [job]; rfl
        refine inv.turn (j := .dozing l) alive acquired Sched.doze_calm (fun _ => ⟨rfl, rfl⟩) rfl rfl
          (inv.keeps lk rfl) (fun _ => (nomatch ·)) ?_ ?_
        · rintro l' h
          cases h
          exact locked
        · intro l' asleep
          by_cases e : l' = l
          · exact .inl (e ▸ locked)
          · refine waking_update _ (by rw [job]; exact (nomatch ·)) (inv.asleep l' ?_)
            refine asleep.before (fun _ h k => ⟨h, k⟩) (core_before rfl ?_)
            exact fun h => e (Chan.sleeplock.inj (Sched.Pc.sleep.inj h)).symm
      case isFalse => exact inv
    case isFalse free => exact inv.take alive job free
  | dozing l =>
    have lk : (s.job i).lk = some l := by rw [job]; rfl
    refine inv.spin alive (.inr (inv.lk_of_job lk)) (only lk) (.inr ⟨rfl, rfl⟩) ?_
      (fun _ => ⟨(nomatch ·), (nomatch ·)⟩)
    rw [job]; exact fun _ => (nomatch ·)
  | releasing l =>
    simp only []
    split
    case isTrue free => exact inv.give alive job free
    case isFalse => exact inv
  | waking l =>
    simp only []
    split
    case isTrue free =>
      have lk : (s.job i).lk = some l := by rw [job]; rfl
      have quiet : Quiet ncpu s.sched (Sched.wakeupNolock s.sched (.sleeplock l)) :=
        Sched.wakeup_quiet ..
      refine inv.turn (j := .leaving l) alive (inv.sched.woken (Sched.wakeupNolock_woken ..)) quiet.calm
        (fun _ => ⟨rfl, rfl⟩) rfl rfl (inv.keeps lk rfl) (fun _ => (nomatch ·)) (fun _ => (nomatch ·)) ?_
      intro l' asleep
      by_cases e : l' = l
      · subst e
        exact absurd asleep (wakeup_all inv.sched free)
      · refine waking_update _ ?_ (inv.asleep l' (asleep.quiet quiet))
        rw [job]
        exact fun h => e (Job.waking.inj h).symm
    case isFalse => exact inv
  | leaving l =>
    have lk : (s.job i).lk = some l := by rw [job]; rfl
    refine inv.spin alive (.inr (inv.lk_of_job lk)) (only lk) (.inr ⟨rfl, rfl⟩) ?_
      (fun _ => ⟨(nomatch ·), (nomatch ·)⟩)
    rw [job]; exact fun _ => (nomatch ·)

theorem Inv.start (inv : Inv ncpu s) (alive : Alive s.sched i) (job : s.job i = .none)
    (now : j.lk = none) (releasing : ∀ l, j = .releasing l → l ∈ s.held i) :
    Inv ncpu (s.goTo i j) := by
  refine inv.turn alive inv.sched (Quiet.refl s.sched).calm (fun _ => ⟨rfl, rfl⟩) rfl rfl ?_ releasing
    ?_ ?_
  · intro l k
    simp only [State.goTo]
    rw [inv.mutex]
    by_cases e : k = i
    · subst e
      rw [update_self, job, now]
      exact Iff.rfl
    · rw [update_of_ne e]
  · rintro l rfl
    cases now
  · intro l asleep
    exact waking_update j (by rw [job]; exact (nomatch ·)) (inv.asleep l asleep)

theorem Inv.next (inv : Inv ncpu s) (step : Step ncpu s t) : Inv ncpu t := by
  obtain ⟨e, he, run⟩ := step
  have runs : ∀ {c i : Nat}, c < ncpu → (s.sched.core c).pc = .out → (s.sched.core c).proc = .task i →
      Alive s.sched i := by
    intro c i hc out proc
    exact inv.sched.alive hc (Sched.still_of out nofun) proc
  cases e with
  | acquiresleep c l =>
    rw [UvaOs.Sleeplock.step] at run
    split at run
    case h_1 i proc =>
      split at run <;> cases run
      case isTrue h => exact inv.start (runs he h.1 proc) h.2 rfl (fun _ => (nomatch ·))
      case isFalse => exact inv
    case h_2 => cases run; exact inv
  | releasesleep c l =>
    rw [UvaOs.Sleeplock.step] at run
    split at run
    case h_1 i proc =>
      split at run <;> cases run
      case isTrue h =>
        exact inv.start (runs he h.1 proc) h.2.1 rfl (fun l' e => Job.releasing.inj e ▸ h.2.2)
      case isFalse => exact inv
    case h_2 => cases run; exact inv
  | go c =>
    rw [UvaOs.Sleeplock.step] at run
    split at run
    case h_1 i proc =>
      split at run <;> cases run
      case isTrue h =>
        refine inv.go he (h.elim (fun out => runs he out proc) (fun dozes => inv.alive i (.inl ?_)))
        intro none
        rw [none] at dozes
        cases dozes
      case isFalse => exact inv
    case h_2 => cases run; exact inv
  | sched e =>
    rw [UvaOs.Sleeplock.step] at run
    split at run
    case isTrue may =>
      cases h : Sched.step ncpu s.sched e with
      | ok u =>
        rw [h] at run
        cases run
        exact inv.other he may h
      | error x => rw [h] at run; cases run
    case isFalse => cases run; exact inv

end

/-- In every state of every run, on any number of cores: at most one task has a sleep
lock; a locked one has the pid of the task that has it, so that `holdingsleep` tells a
task whether it does; and while neither spin lock is taken, whoever sleeps on a sleep
lock sleeps on one that is locked. -/
theorem sleeplocks_safe {ncpu : Nat} {s : State} (reached : Reach Boot (Step ncpu) s) :
    (∀ l i j, l ∈ s.held i → l ∈ s.held j → i = j) ∧
    (∀ l, (s.lock l).locked = true → ∃ i, l ∈ s.held i ∧ (s.lock l).pid = (s.sched.task i).pid) ∧
    (∀ l i, (s.sched.task i).state ≠ .unused → (holdingsleep s l i = true ↔ l ∈ s.held i)) ∧
    (∀ l, ∀ i < NR_TASKS, (s.lock l).lk = none → s.sched.lock = none →
      (s.sched.task i).state = .sleeping → (s.sched.task i).chan = some (.sleeplock l) →
      (s.lock l).locked = true) := by
  have inv : Inv ncpu s := reached.invariant (Inv ncpu) (fun _ => Boot.inv) (fun _ _ inv => inv.next)
  have owner : ∀ l, (s.lock l).locked = true →
      ∃ i, l ∈ s.held i ∧ (s.lock l).pid = (s.sched.task i).pid := by
    intro l locked
    obtain ⟨i, mine⟩ := inv.locked l locked
    exact ⟨i, mine, (inv.held l i mine).2.1⟩
  refine ⟨fun l i j mine other => ((inv.held l i mine).2.2 j other).symm, owner, ?_, ?_⟩
  · intro l i used
    simp only [holdingsleep, Bool.and_eq_true, beq_iff_eq]
    constructor
    · rintro ⟨locked, pid⟩
      obtain ⟨j, mine, pid'⟩ := owner l locked
      have alive := inv.alive j (.inr (List.ne_nil_of_mem mine))
      have same : (i : Int) = j := by
        rw [← inv.pids i used, ← inv.pids j alive.2.1, ← pid, pid']
      exact Int.ofNat.inj same ▸ mine
    · exact fun mine => ⟨(inv.held l i mine).1, (inv.held l i mine).2.1⟩
  · intro l i hi free _ sleeps chan
    refine (inv.asleep l (.inl ⟨i, hi, sleeps, chan⟩)).resolve_right ?_
    rintro ⟨j, waking⟩
    have lk := inv.lk_of_job (i := j) (l := l) (by rw [waking]; rfl)
    rw [free] at lk
    cases lk

/-! Two tasks want one lock -/

theorem step_sound {ncpu : Nat} (s : State) (e : Event) (t : State) (he : e.core < ncpu)
    (run : step ncpu s e = .ok t) : Step ncpu s t := ⟨e, he, run⟩

def bootState : State := ⟨Sched.bootState, fun _ => ⟨false, none, 0⟩, fun _ => .none, fun _ => []⟩

theorem bootState_boot : Boot bootState :=
  ⟨Sched.bootState_boot, fun _ => rfl, fun _ => rfl, fun _ => rfl⟩

/- Init forks a child, which another core picks. Init takes lock 7, and the child goes to
sleep on it. -/
def contention : List Event :=
  [.sched (.call 0 .schedule), .sched (.run 0 false), .sched (.run 0 false), .sched (.run 0 false),
    .sched (.run 0 false), .sched (.call 0 .copyProcess), .sched (.call 1 .schedule),
    .sched (.run 1 false), .sched (.run 1 false), .sched (.run 1 false),
    .acquiresleep 0 7, .go 0, .go 0, .acquiresleep 1 7, .go 1, .go 1, .go 1,
    .sched (.run 1 false), .sched (.run 1 false), .sched (.run 1 false)]

def contended : State := Prog.played (step 2) bootState contention

theorem contended_locked : (contended.sched.task 1).state = .sleeping ∧
    (contended.lock 7).locked = true ∧ 7 ∈ contended.held 0 := by
  have reached : Reach Boot (Step 2) contended :=
    Reach.play step_sound contention (.start bootState_boot) (by decide) rfl
  have sleeps : (contended.sched.task 1).state = .sleeping := rfl
  obtain ⟨only, owner, _, awake⟩ := sleeplocks_safe reached
  have locked := awake 7 1 (by decide) rfl rfl sleeps rfl
  have mine : 7 ∈ contended.held 0 := List.mem_singleton.mpr rfl
  exact ⟨sleeps, locked, mine⟩

end UvaOs.Sleeplock
