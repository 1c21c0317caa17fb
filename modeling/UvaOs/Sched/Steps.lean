import UvaOs.Sched.Cores

/-! Every step of the scheduler keeps the invariant of Cores. -/
namespace UvaOs.Sched

open List

open UvaOs.Files (NR_TASKS)

/-! What the functions of the source change -/

variable {i p : Nat} {s : State}

theorem onTask_woken {f : Task → Task} (context : (f (s.task i)).context = (s.task i).context)
    (state : (f (s.task i)).state = (s.task i).state ∨
      (s.task i).state = .sleeping ∧ (f (s.task i)).state = .runnable) : Woken s (s.onTask i f) := by
  refine ⟨rfl, rfl, ?_, ?_⟩ <;> intro j <;> by_cases e : j = i
  · subst e
    simpa [State.onTask] using context
  · simp [State.onTask, e]
  · subst e
    simpa [State.onTask] using state
  · simp [State.onTask, e]

theorem wakeupNolock_woken (s : State) (chan : Chan) : Woken s (wakeupNolock s chan) := by
  refine ⟨rfl, rfl, ?_, ?_⟩ <;> intro i <;> simp only [wakeupNolock]
  · split <;> rfl
  · grind

theorem wakeupNolock_frame (s : State) (chan : Chan) (j : Nat) : (wakeupNolock s chan).task j =
    { s.task j with state := ((wakeupNolock s chan).task j).state } := by
  simp only [wakeupNolock]
  split <;> rfl

theorem reparent_woken (s : State) (p : Nat) : Woken s (reparent s p) := by
  refine ⟨rfl, rfl, ?_, ?_⟩ <;> intro i <;> simp only [reparent]
  · split <;> rfl
  · left
    split <;> rfl

theorem handOver_woken (s : State) (i : Nat) : Woken s (handOver s i) := by
  unfold handOver
  split
  · exact (reparent_woken s i).trans (wakeupNolock_woken _ _)
  · exact reparent_woken s i

theorem handOver_frame (s : State) (i j : Nat) : (handOver s i).task j = { s.task j with
    parent := if Child s i j then some 0 else (s.task j).parent
    state := ((handOver s i).task j).state } := by
  have moved : (reparent s i).task j = { s.task j with
      parent := if Child s i j then some 0 else (s.task j).parent } := by
    simp only [reparent]
    split <;> rfl
  unfold handOver
  split
  · rw [wakeupNolock_frame, moved]
  · rw [moved]

theorem announce_woken (s : State) (i : Nat) : Woken s (announce s i) := by
  unfold announce
  split
  · exact (handOver_woken s i).trans (wakeupNolock_woken _ _)
  · exact handOver_woken s i

theorem announce_frame (s : State) (i j : Nat) : (announce s i).task j = { s.task j with
    parent := if Child s i j then some 0 else (s.task j).parent
    state := ((announce s i).task j).state } := by
  unfold announce
  split
  · rw [wakeupNolock_frame, handOver_frame]
  · exact handOver_frame s i j

theorem recharge_woken (s : State) : Woken s (recharge s) := by
  refine ⟨rfl, rfl, ?_, ?_⟩ <;> intro i <;> simp only [recharge]
  · split <;> rfl
  · left
    split <;> rfl

theorem returns_woken (s : State) (i : Nat) (ret : Int) (status : Option Int) :
    Woken s (returns s i ret status) := onTask_woken rfl (.inl rfl)

theorem kill_ok {t : State} {pid : Int} (h : kill s pid = .ok t) : Woken s t := by
  unfold kill at h
  split at h
  · grind [onTask_woken]
  · cases h
    exact Woken.refl _

theorem zombieChild_some (h : zombieChild s p = some i) :
    Child s p i ∧ (s.task i).state = .zombie :=
  of_decide_eq_true (find?_some (p := fun i => decide (Child s p i ∧ (s.task i).state = .zombie)) h)

theorem zombieChild_none (h : zombieChild s p = none)
    (child : Child s p i) : (s.task i).state ≠ .zombie := by
  intro zombie
  have all := find?_eq_none.mp h i (mem_range.mpr child.1)
  exact all (decide_eq_true ⟨child, zombie⟩)

theorem unusedTask_some {child : Nat} (h : unusedTask s = some child) :
    child < NR_TASKS ∧ (s.task child).state = .unused := by
  have free := find?_some h
  obtain ⟨i, _, rfl⟩ := mem_map.mp (mem_of_find?_eq_some h)
  exact ⟨Nat.mod_lt _ (by decide), of_decide_eq_true free⟩

theorem unusedTask_none (h : unusedTask s = none) (i : Nat) (hi : i < NR_TASKS) :
    (s.task i).state ≠ .unused := by
  have all := find?_eq_none.mp h
  -- slot `i` comes up at some distance from the last one used
  refine fun unused => all i (mem_map.mpr ⟨(i + 2 * NR_TASKS - (s.lastpid + 1) % NR_TASKS) % NR_TASKS,
    mem_range.mpr (Nat.mod_lt _ (by decide)), ?_⟩) (decide_eq_true unused)
  simp only [NR_TASKS] at hi ⊢
  omega

theorem best_eligible {ncpu : Nat} {c : Nat} (h : (best ncpu s c).1 > 0) :
    (best ncpu s c).2 < NR_TASKS ∧ Eligible ncpu s c (best ncpu s c).2 := by
  -- the pair is the start value or comes from an eligible slot
  have scan : ∀ (l : List Nat) (b : Int × Nat), (∀ i ∈ l, i < NR_TASKS) →
      (b.1 > 0 → b.2 < NR_TASKS ∧ Eligible ncpu s c b.2) →
      (l.foldl (better ncpu s c) b).1 > 0 → (l.foldl (better ncpu s c) b).2 < NR_TASKS ∧
        Eligible ncpu s c (l.foldl (better ncpu s c) b).2 := by
    intro l
    induction l with
    | nil => exact fun b _ ok => ok
    | cons i l ih =>
      intro b range ok
      refine ih _ (fun j hj => range j (mem_cons_of_mem i hj)) ?_
      unfold better
      split
      · grind [mem_cons_self]
      · exact ok
  exact scan (List.range NR_TASKS) (-1, 0) (fun i hi => mem_range.mp hi)
    (fun pos => absurd pos (by decide)) h

section

variable {ncpu : Nat} {s : State} {c : Nat}

theorem Inv.current (inv : Inv ncpu s) (hc : c < ncpu) (still : ¬ (s.core c).pc.Switching) {i : Nat}
    (proc : (s.core c).proc = .task i) :
    (s.core c).stack = .task i ∧ i < NR_TASKS ∧ (s.task i).state = .running := by
  obtain ⟨same, runs⟩ := inv.settled c hc still
  have stack := same.symm.trans proc
  exact ⟨stack, (inv.slot c hc i stack).1, runs i stack⟩

theorem Inv.free_still (inv : Inv ncpu s) (free : s.lock = none) {d : Nat} (hd : d < ncpu) :
    ¬ (s.core d).pc.Switching :=
  inv.out hd (by rw [free]; exact (nomatch ·))

theorem Inv.leave {t : State} {i : Nat} {f : Task → Task} {point : Point} (inv : Inv ncpu s)
    (mine : s.lock = none ∨ s.lock = some c) (hc : c < ncpu) (was : ¬ (s.core c).pc.Switching)
    (proc : (s.core c).proc = .task i) (core : ∃ pc, t.core = Function.update s.core c
      { s.core c with pc := pc }) (lock : t.lock = some c) (task : t.task = s.task)
    (context : (f (s.task i)).context = (s.task i).context)
    (fits : Fits (f (s.task i)).state point) : Inv ncpu (leave (t.onTask i f) c point) := by
  obtain ⟨stack, hi, runs⟩ := inv.current hc was proc
  obtain ⟨pc, core⟩ := core
  have core' : (UvaOs.Sched.leave (t.onTask i f) c point).core = Function.update s.core c
      { s.core c with proc := .idle c, pc := .switching (.idle c) point } := by
    simp [UvaOs.Sched.leave, State.name, State.onCore, State.onTask, core]
  have task' : (UvaOs.Sched.leave (t.onTask i f) c point).task =
      Function.update s.task i (f (s.task i)) := by
    simp [UvaOs.Sched.leave, State.name, State.onCore, State.onTask, task]
  refine inv.depart mine hc was lock core' ?_ ?_ ?_ ?_ ?_ ?_ ?_
  · intro j
    rw [task']
    by_cases e : j = i
    · subst e
      rw [Function.update_self]
      exact context
    · rw [Function.update_of_ne e]
  · simp [stack]
  · intro j h
    rw [stack] at h
    cases h
    rw [task', Function.update_self]
    exact fits
  · intro h
    rw [stack] at h
    cases h
  · intro d h
    exact (Who.idle.inj h).symm
  · intro j h
    cases h
  · intro j h _
    have ne : j ≠ i := fun e => h (e ▸ stack)
    rw [task', Function.update_of_ne ne]

theorem switchTo_task {next : Who} (point : Point) (other : (s.core c).proc ≠ next)
    (runs : ∀ k, (s.core c).proc = .task k → (s.task k).state = .running) (i : Nat) :
    (switchTo s c next point).task i =
      if next = .task i then { s.task i with state := .running }
      else if (s.core c).proc = .task i then { s.task i with state := .runnable }
      else s.task i := by
  have before : (preempt (s.name c next point) (s.core c).proc).task i =
      if (s.core c).proc = .task i then { s.task i with state := .runnable } else s.task i := by
    cases proc : (s.core c).proc with
    | idle d => rfl
    | task k =>
      simp only [preempt, State.name, State.onCore, runs k proc, if_true, State.setState,
        State.onTask, Who.task.injEq]
      by_cases e : i = k
      · subst e
        simp
      · simp [e, Ne.symm e]
  rw [switchTo, if_neg other]
  cases next with
  | idle d => exact before
  | task j =>
    simp only [State.setState, State.onTask, Who.task.injEq]
    by_cases e : i = j
    · subst e
      simp [before, other]
    · simp [e, Ne.symm e, before]

theorem switchTo_core {next : Who} (point : Point) (other : (s.core c).proc ≠ next) :
    (switchTo s c next point).core = Function.update s.core c
      { s.core c with proc := next, pc := .switching next point } ∧
    (switchTo s c next point).lock = s.lock := by
  rw [switchTo, if_neg other]
  constructor <;> cases next <;> cases (s.core c).proc <;> simp only [preempt, State.setState] <;>
    first | rfl | (split <;> rfl)

theorem Inv.switchTo {next : Who} (inv : Inv ncpu s) (hc : c < ncpu)
    (pc : (s.core c).pc = .schedule) (home : ∀ d, next = .idle d → d = c)
    (runnable : ∀ j, next = .task j → (s.core c).proc ≠ next →
      j < NR_TASKS ∧ (s.task j).state = .runnable) : Inv ncpu (switchTo s c next .schedule) := by
  have still := still_of pc nofun
  have held : s.lock = some c := by
    by_contra free
    rw [(inv.holder c hc).mpr free] at pc
    cases pc
  by_cases other : (s.core c).proc = next
  · rw [UvaOs.Sched.switchTo, if_pos other]
    have moved := inv.move (.resumed .schedule) (.inr held) hc still
      (fun ⟨_, _, h⟩ => nomatch h) (nomatch ·)
    simp only [reduceCtorEq, if_false, ← held] at moved
    exact moved
  · obtain ⟨same, runs⟩ := inv.settled c hc still
    have task := switchTo_task .schedule other (fun k h => runs k (same.symm.trans h))
    obtain ⟨core, lock⟩ := switchTo_core .schedule other
    refine inv.depart (.inr held) hc still (lock.trans held) core ?_ (same ▸ other) ?_
      (fun _ => rfl) home ?_ ?_
    · intro i
      rw [task]
      split
      · rfl
      · split <;> rfl
    · intro i h
      have proc := same.trans h
      rw [task, if_neg (fun h' => other (proc.trans h'.symm)), if_pos proc]
      exact (nomatch ·)
    · grind
    · grind

theorem Inv.schedule (inv : Inv ncpu s) (hc : c < ncpu) (pc : (s.core c).pc = .schedule) :
    Inv ncpu (schedule ncpu s c) := by
  unfold UvaOs.Sched.schedule
  split
  · rename_i found
    obtain ⟨range, eligible⟩ := best_eligible found
    refine inv.switchTo hc pc (fun d h => nomatch h) ?_
    intro j h other
    cases h
    refine ⟨range, eligible.2.resolve_left ?_⟩
    rintro ⟨proc, _⟩
    exact other proc
  · split
    · exact inv.woken (recharge_woken s)
    · exact inv.switchTo hc pc (fun d h => (Who.idle.inj h).symm) (fun j h => nomatch h)

theorem Inv.held (inv : Inv ncpu s) (hc : c < ncpu) (busy : (s.core c).pc ≠ .out) :
    s.lock = some c := by
  by_contra free
  exact busy ((inv.holder c hc).mpr free)

theorem Inv.release (inv : Inv ncpu s) (hc : c < ncpu) (held : s.lock = some c)
    (still : ¬ (s.core c).pc.Switching) : Inv ncpu (s.release c) :=
  inv.move .out (.inr held) hc still (fun ⟨_, _, h⟩ => nomatch h) (nomatch ·)

theorem Inv.sleep {i : Nat} {chan : Chan} {point : Point} (inv : Inv ncpu s) (hc : c < ncpu)
    (held : s.lock = some c) (was : ¬ (s.core c).pc.Switching) (proc : (s.core c).proc = .task i)
    (fits : Fits .sleeping point) : Inv ncpu (sleep s c i chan point) :=
  inv.leave (f := fun t => { t with chan := some chan, state := .sleeping, credits := t.credits - 1 })
    (.inr held) hc was proc ⟨_, (Function.update_eq_self c s.core).symm⟩ held rfl rfl fits

theorem Inv.parked_of_state (inv : Inv ncpu s) (calm : ∀ d < ncpu, ¬ (s.core d).pc.Switching) {i : Nat}
    (state : (s.task i).state ≠ .running) : Parked ncpu s i :=
  fun d hd h => state ((inv.settled d hd (calm d hd)).2 i h)

theorem Inv.freeproc {i : Nat} (inv : Inv ncpu s) (calm : ∀ d < ncpu, ¬ (s.core d).pc.Switching)
    (zombie : (s.task i).state = .zombie) : Inv ncpu (freeproc s i) :=
  inv.reslot s.lastpid calm
    (inv.parked_of_state calm (by rw [zombie]; exact TaskState.noConfusion)) (fun used => absurd rfl used)

theorem Inv.wait {p addr : Nat} (copied : Bool) (inv : Inv ncpu s) (hc : c < ncpu)
    (pc : (s.core c).pc = .wait addr) (proc : (s.core c).proc = .task p) :
    Inv ncpu (wait s c p addr copied) := by
  have still := still_of pc nofun
  have held := inv.held hc (by rw [pc]; exact (nomatch ·))
  have fails : Inv ncpu ((returns s p (-1) none).release c) :=
    (inv.woken (returns_woken s p _ _)).release hc held still
  unfold UvaOs.Sched.wait
  split
  case h_1 i found =>
    obtain ⟨child, zombie⟩ := zombieChild_some found
    split
    · exact fails
    · have told := returns_woken s p (s.task i).pid
        (if addr = 0 then none else some (s.task i).xstate)
      refine (Inv.freeproc (inv.woken told) (fun d hd => ?_) ?_).release hc held still
      · exact inv.calm (.inr held) (fun _ => still) hd
      · exact told.keeps zombie TaskState.noConfusion
  case h_2 =>
    split
    · exact fails
    · exact inv.sleep hc held still proc (.inr ⟨addr, rfl⟩)

theorem Inv.resume {point : Point} (inv : Inv ncpu s) (hc : c < ncpu)
    (pc : (s.core c).pc = .resumed point) :
    ∃ t, resume s c (s.core c).stack point = .ok t ∧ Inv ncpu t := by
  have still := still_of pc nofun
  have held := inv.held hc (by rw [pc]; exact (nomatch ·))
  have quiet : ∀ i, Woken s (s.onTask i ({ · with chan := none })) :=
    fun i => onTask_woken rfl (.inl rfl)
  cases point with
  | schedule | fork => exact ⟨_, rfl, inv.release hc held still⟩
  | sleep =>
    cases (s.core c).stack with
    | task i => exact ⟨_, rfl, (inv.woken (quiet i)).release hc held still⟩
    | idle d => exact ⟨_, rfl, inv.release hc held still⟩
  | wait addr =>
    cases (s.core c).stack with
    | task i =>
      refine ⟨_, rfl, ?_⟩
      have moved := (inv.woken (quiet i)).move (.wait addr) (.inr held) hc still
        (fun ⟨_, _, h⟩ => nomatch h) (nomatch ·)
      simp only [reduceCtorEq, if_false] at moved
      rw [← held] at moved
      exact moved
    | idle d => exact ⟨_, rfl, inv.release hc held still⟩
  | exit => exact absurd pc (inv.resumed c hc)

theorem Inv.acquire {pc : Pc} (inv : Inv ncpu s) (hc : c < ncpu) (free : s.lock = none)
    (busy : pc ≠ .out) (now : ¬ pc.Switching) (alive : pc ≠ .resumed .exit) :
    Inv ncpu (s.acquire c pc) := by
  have moved := inv.move pc (.inl free) hc (inv.free_still free hc) now alive
  rw [if_neg busy] at moved
  exact moved

theorem Inv.call (k : Call) (inv : Inv ncpu s) (hc : c < ncpu) (free : s.lock = none) :
    (∃ t, call s c k = .ok t ∧ Inv ncpu t) ∨
      call s c k = .error .killUnused ∨ call s c k = .error .initExiting := by
  have still := inv.free_still free hc
  have stays : ∃ t, Except.ok s = .ok (ε := Halt) t ∧ Inv ncpu t := ⟨s, rfl, inv⟩
  cases k with
  | schedule =>
    exact .inl ⟨_, rfl, inv.acquire hc free (nomatch ·) (fun ⟨_, _, h⟩ => nomatch h) (nomatch ·)⟩
  | timerTick => grind [inv.woken, UvaOs.Sched.call, onTask_woken]
  | yield => grind [inv.woken, UvaOs.Sched.call, onTask_woken]
  | wakeup chan => exact .inl ⟨_, rfl, inv.woken (wakeupNolock_woken s chan)⟩
  | kill pid => grind [inv.woken, UvaOs.Sched.call, kill, kill_ok]
  | sleep | wait =>
    left
    rw [UvaOs.Sched.call]
    split
    · exact ⟨_, rfl, inv.acquire hc free (nomatch ·) (fun ⟨_, _, h⟩ => nomatch h) (nomatch ·)⟩
    · exact stays
  | exitProcess status =>
    rw [UvaOs.Sched.call]
    split
    case h_1 i proc =>
      split
      · exact .inr (.inr rfl)
      · left
        refine ⟨_, rfl, ?_⟩
        have told := announce_woken (s.acquire c .out) i
        -- the lock is taken first, the wakeups come under it
        have here : Woken s { announce (s.acquire c .out) i with core := s.core, lock := s.lock } :=
          ⟨rfl, rfl, told.context, told.state⟩
        refine (inv.woken here).leave (t := announce (s.acquire c .out) i) (.inl free) hc still proc
          ⟨.out, told.core⟩ (told.lock.trans rfl) rfl rfl ?_
        exact rfl
    case h_2 => exact .inl stays
  | copyProcess =>
    left
    rw [UvaOs.Sched.call]
    split
    case h_1 i proc =>
      refine ⟨_, rfl, ?_⟩
      unfold copyProcess
      split
      case h_1 child found =>
        obtain ⟨_, unused⟩ := unusedTask_some found
        have calm : ∀ d < ncpu, ¬ (s.core d).pc.Switching := fun d hd => inv.free_still free hd
        exact inv.reslot child calm (inv.parked_of_state calm (by rw [unused]; exact TaskState.noConfusion))
          (fun _ => ⟨.fork, rfl, (nomatch ·)⟩)
      case h_2 => exact inv
    case h_2 => exact stays

theorem Inv.step (inv : Inv ncpu s) (e : Event) (he : e.core < ncpu) :
    (∃ t, step ncpu s e = .ok t ∧ Inv ncpu t) ∨
      step ncpu s e = .error .killUnused ∨ step ncpu s e = .error .initExiting := by
  cases e with
  | call c k =>
    rw [UvaOs.Sched.step]
    split
    · rename_i free
      exact inv.call k he free
    · exact .inl ⟨s, rfl, inv⟩
  | run c copied =>
    left
    rw [UvaOs.Sched.step]
    cases pc : (s.core c).pc with
    | out => exact ⟨s, rfl, inv⟩
    | schedule => exact ⟨_, rfl, inv.schedule he pc⟩
    | switching next point =>
      obtain ⟨resume, t, ok, switched, alive⟩ := inv.switch he pc
      exact ⟨t, ok, inv.switched he pc switched alive⟩
    | resumed point => exact inv.resume he pc
    | sleep chan =>
      cases proc : (s.core c).proc with
      | task i =>
        refine ⟨_, rfl, inv.sleep he (inv.held he ?_) ?_ proc (.inl rfl)⟩
        · rw [pc]; exact (nomatch ·)
        · exact still_of pc nofun
      | idle d => exact ⟨s, rfl, inv⟩
    | wait addr =>
      cases proc : (s.core c).proc with
      | task p => exact ⟨_, rfl, inv.wait copied he pc proc⟩
      | idle d => exact ⟨s, rfl, inv⟩

theorem Inv.next {t : State} (inv : Inv ncpu s) (step : Step ncpu s t) : Inv ncpu t := by
  obtain ⟨e, he, run⟩ := step
  rcases inv.step e he with ⟨t', ok, kept⟩ | stopped | stopped
  · rw [run] at ok
    cases ok
    exact kept
  · rw [run] at stopped
    cases stopped
  · rw [run] at stopped
    cases stopped

end

end UvaOs.Sched
