import UvaOs.Sched.Model

/-! One task on one core. The invariant speaks of every state, also of those between
`acquire` and `release`; it says for each slot whether its stack is in use, and if it
is not, that the registers are saved at a point that suits the state of the task. -/
namespace UvaOs.Sched

open UvaOs.Files (NR_TASKS)
open Function (update update_self update_of_ne)

variable {i ncpu : Nat} {s t : State}

/-- No core runs on the stack of slot `i`. -/
def Parked (ncpu : Nat) (s : State) (i : Nat) : Prop := ∀ c < ncpu, (s.core c).stack ≠ .task i

/-- Where a task in a given state may go on, if it is not on a core. -/
def Fits : TaskState → Point → Prop
  | .runnable, p => p ≠ .exit
  | .sleeping, p => p = .sleep ∨ ∃ addr, p = .wait addr
  | .zombie, p => p = .exit
  | _, _ => False

def Pc.Switching (pc : Pc) : Prop := ∃ next point, pc = .switching next point

/-- A core between the changes of `switch_to` and the switch of the stack. -/
structure Leaving (ncpu : Nat) (s : State) (c : Nat) (next : Who) (point : Point) : Prop where
  proc : (s.core c).proc = next
  other : (s.core c).stack ≠ next
  left : ∀ i, (s.core c).stack = .task i → Fits (s.task i).state point
  idle : (s.core c).stack = .idle c → point = .schedule
  home : ∀ d, next = .idle d → d = c
  picked : ∀ j, next = .task j → j < NR_TASKS ∧ Parked ncpu s j ∧ (s.task j).state = .running ∧
    ∃ p, (s.task j).context = some p ∧ p ≠ .exit

structure Inv (ncpu : Nat) (s : State) : Prop where
  holder : ∀ c < ncpu, (s.core c).pc = .out ↔ s.lock ≠ some c
  owner : ∀ c, s.lock = some c → c < ncpu
  home : ∀ c < ncpu, ∀ d, (s.core c).stack = .idle d → d = c
  slot : ∀ c < ncpu, ∀ i, (s.core c).stack = .task i → i < NR_TASKS ∧ (s.task i).context = none
  single : ∀ c < ncpu, ∀ d < ncpu, ∀ i, (s.core c).stack = .task i → (s.core d).stack = .task i →
    c = d
  settled : ∀ c < ncpu, ¬ (s.core c).pc.Switching → (s.core c).proc = (s.core c).stack ∧
    ∀ i, (s.core c).stack = .task i → (s.task i).state = .running
  leaving : ∀ c < ncpu, ∀ next point, (s.core c).pc = .switching next point →
    Leaving ncpu s c next point
  resumed : ∀ c < ncpu, (s.core c).pc ≠ .resumed .exit
  idle : ∀ c < ncpu, (s.core c).stack ≠ .idle c → (s.core c).idle = some .schedule
  parked : ∀ i < NR_TASKS, Parked ncpu s i → (s.task i).state ≠ .unused →
    (∃ c < ncpu, ∃ point, (s.core c).pc = .switching (.task i) point) ∨
      ∃ p, (s.task i).context = some p ∧ Fits (s.task i).state p

theorem Boot.inv (boot : Boot s) : Inv ncpu s where
  holder c _ := by simp [boot.cores c, boot.free]
  owner c h := by rw [boot.free] at h; cases h
  home c _ d h := by rw [boot.cores c] at h; cases h; rfl
  slot c _ i h := by rw [boot.cores c] at h; cases h
  single c _ _ _ i h := by rw [boot.cores c] at h; cases h
  settled c _ _ := by
    rw [boot.cores c]
    exact ⟨rfl, fun i h => nomatch h⟩
  leaving c _ next point h := by rw [boot.cores c] at h; cases h
  resumed c _ h := by rw [boot.cores c] at h; cases h
  idle c _ h := by rw [boot.cores c] at h; exact absurd rfl h
  parked i _ _ used := by
    right
    by_cases e : i = 0
    · subst e
      rw [boot.init]
      exact ⟨.fork, rfl, fun h => nomatch h⟩
    · rw [boot.others i e] at used
      exact absurd rfl used

/-! Steps that change no core -/

/-- Tasks keep their states, apart from sleepers that are woken up. -/
structure Woken (s t : State) : Prop where
  core : t.core = s.core
  lock : t.lock = s.lock
  context : ∀ i, (t.task i).context = (s.task i).context
  state : ∀ i, (t.task i).state = (s.task i).state ∨
    (s.task i).state = .sleeping ∧ (t.task i).state = .runnable

theorem Woken.refl (s : State) : Woken s s := ⟨rfl, rfl, fun _ => rfl, fun _ => .inl rfl⟩

theorem Woken.trans {u : State} (h : Woken s t) (k : Woken t u) : Woken s u := by
  refine ⟨k.core.trans h.core, k.lock.trans h.lock, fun i => (k.context i).trans (h.context i), ?_⟩
  intro i
  rcases h.state i with same | ⟨slept, awake⟩
  · rw [← same]
    exact k.state i
  · grind [k.state]

theorem Woken.keeps (h : Woken s t) {state : TaskState}
    (now : (s.task i).state = state) (awake : state ≠ .sleeping) : (t.task i).state = state := by
  rcases h.state i with same | ⟨slept, _⟩
  · exact same.trans now
  · exact absurd (now.symm.trans slept) awake

theorem Woken.fits (h : Woken s t) {p : Point}
    (fits : Fits (s.task i).state p) : Fits (t.task i).state p := by
  rcases h.state i with same | ⟨slept, awake⟩
  · rw [same]
    exact fits
  · rw [slept] at fits
    rw [awake]
    rcases fits with rfl | ⟨addr, rfl⟩ <;> exact Point.noConfusion

theorem Woken.unused (h : Woken s t) : (t.task i).state = .unused ↔ (s.task i).state = .unused := by
  rcases h.state i with same | ⟨slept, awake⟩
  · rw [same]
  · rw [slept, awake]
    exact ⟨(nomatch ·), (nomatch ·)⟩

theorem Inv.woken (inv : Inv ncpu s) (h : Woken s t) : Inv ncpu t := by
  have core : ∀ c, t.core c = s.core c := fun c => by rw [h.core]
  have parkedIff : ∀ i, Parked ncpu t i ↔ Parked ncpu s i := fun i => by
    simp only [Parked, core]
  refine ⟨?_, ?_, ?_, ?_, ?_, ?_, ?_, ?_, ?_, ?_⟩ <;> simp only [core, h.lock]
  · exact inv.holder
  · exact inv.owner
  · exact inv.home
  · intro c hc i e
    exact ⟨(inv.slot c hc i e).1, (h.context i).trans (inv.slot c hc i e).2⟩
  · exact inv.single
  · intro c hc settled
    obtain ⟨proc, runs⟩ := inv.settled c hc settled
    exact ⟨proc, fun i e => h.keeps (runs i e) TaskState.noConfusion⟩
  · intro c hc next point pc
    have old := inv.leaving c hc next point pc
    refine ⟨?_, ?_, ?_, ?_, old.home, ?_⟩
    · rw [core]; exact old.proc
    · rw [core]; exact old.other
    · rw [core]; exact fun i e => h.fits (old.left i e)
    · rw [core]; exact old.idle
    · intro j e
      obtain ⟨hj, parked, runs, p, saved, ne⟩ := old.picked j e
      exact ⟨hj, (parkedIff j).mpr parked, h.keeps runs TaskState.noConfusion, p,
        (h.context j).trans saved, ne⟩
  · exact inv.resumed
  · exact inv.idle
  · grind [inv.parked, h.unused.mpr, h.context, h.fits]

/-! The core that holds the lock -/

section

variable {ncpu : Nat} {s : State} {c : Nat}

variable {d : Nat} {point resume : Point} {next : Who}

theorem still_of {pc : Pc} (here : (s.core c).pc = pc) (other : ∀ next point, pc ≠ .switching next point) :
    ¬ (s.core c).pc.Switching := fun ⟨next, point, h⟩ => other next point (here.symm.trans h)

theorem Inv.out (inv : Inv ncpu s) (hd : d < ncpu) (other : s.lock ≠ some d) :
    ¬ (s.core d).pc.Switching := still_of ((inv.holder d hd).mpr other) nofun

theorem Inv.calm (inv : Inv ncpu s) (mine : s.lock = none ∨ s.lock = some c)
    (still : c < ncpu → ¬ (s.core c).pc.Switching) (hd : d < ncpu) : ¬ (s.core d).pc.Switching := by
  by_cases e : d = c
  · subst e
    exact still hd
  · grind [inv.out]

theorem Inv.move (pc : Pc) (inv : Inv ncpu s) (mine : s.lock = none ∨ s.lock = some c)
    (hc : c < ncpu) (was : ¬ (s.core c).pc.Switching) (now : ¬ pc.Switching)
    (alive : pc ≠ .resumed .exit) :
    Inv ncpu { s.goTo c pc with lock := if pc = .out then none else some c } := by
  set t : State := { s.goTo c pc with lock := if pc = Pc.out then none else some c } with ht
  have self : t.core c = { s.core c with pc := pc } := update_self ..
  have other : ∀ d, d ≠ c → t.core d = s.core d := fun d ne => update_of_ne ne ..
  have stack : ∀ d, (t.core d).stack = (s.core d).stack := by grind
  have still : ∀ d < ncpu, ¬ (t.core d).pc.Switching := by grind [inv.calm]
  have lock : t.lock = if pc = .out then none else some c := rfl
  refine ⟨?_, ?_, ?_, ?_, ?_, ?_, ?_, ?_, ?_, ?_⟩
  · intro d hd
    by_cases e : d = c
    · rw [e, self, lock]
      by_cases out : pc = .out <;> simp [out]
    · have free : s.lock ≠ some d := by
        rcases mine with h | h <;> rw [h]
        · exact (nomatch ·)
        · exact fun h => e (Option.some.inj h).symm
      have free' : t.lock ≠ some d := by grind
      rw [other d e]
      exact ⟨fun _ => free', fun _ => (inv.holder d hd).mpr free⟩
  · grind
  · intro d hd e h
    exact inv.home d hd e ((stack d).symm.trans h)
  · intro d hd i h
    exact inv.slot d hd i ((stack d).symm.trans h)
  · grind [inv.single]
  · intro d hd _
    have old := inv.settled d hd (inv.calm mine (fun _ => was) hd)
    by_cases e : d = c
    · subst e
      rw [self]
      exact old
    · rw [other d e]
      exact old
  · intro d hd next point h
    exact absurd ⟨next, point, h⟩ (still d hd)
  · grind [inv.resumed]
  · grind [inv.idle]
  · intro i hi parked used
    have parked' : Parked ncpu s i := fun d hd h => parked d hd ((stack d).trans h)
    refine (inv.parked i hi parked' used).imp ?_ id
    rintro ⟨d, hd, point, h⟩
    exact absurd ⟨_, point, h⟩ (inv.calm mine (fun _ => was) hd)

theorem Inv.reslot {x : Task} (last : Nat) (inv : Inv ncpu s)
    (calm : ∀ d < ncpu, ¬ (s.core d).pc.Switching) (parked : Parked ncpu s i)
    (saved : x.state ≠ .unused → ∃ p, x.context = some p ∧ Fits x.state p) :
    Inv ncpu { s with task := update s.task i x, lastpid := last } := by
  have other : ∀ d < ncpu, ∀ j, (s.core d).stack = .task j →
      update s.task i x j = s.task j := fun d hd j h =>
    update_of_ne (fun e : j = i => parked d hd (e ▸ h)) ..
  refine { inv with slot := ?_, settled := ?_, leaving := ?_, parked := ?_ }
  · intro d hd j h
    simp only [other d hd j h]
    exact inv.slot d hd j h
  · grind [settled]
  · intro d hd next point h
    exact absurd ⟨next, point, h⟩ (calm d hd)
  · intro j hj parked' used
    by_cases e : j = i
    · grind
    · simp only [update_of_ne e] at used ⊢
      exact inv.parked j hj parked' used

theorem Inv.depart (inv : Inv ncpu s)
    (mine : s.lock = none ∨ s.lock = some c) (hc : c < ncpu) (was : ¬ (s.core c).pc.Switching)
    (lock : t.lock = some c) (core : t.core = update s.core c
      { s.core c with proc := next, pc := .switching next point })
    (context : ∀ i, (t.task i).context = (s.task i).context)
    (other : (s.core c).stack ≠ next)
    (left : ∀ i, (s.core c).stack = .task i → Fits (t.task i).state point)
    (idle : (s.core c).stack = .idle c → point = .schedule)
    (home : ∀ d, next = .idle d → d = c)
    (picked : ∀ j, next = .task j →
      j < NR_TASKS ∧ (s.task j).state = .runnable ∧ (t.task j).state = .running)
    (same : ∀ i, (s.core c).stack ≠ .task i → next ≠ .task i →
      (t.task i).state = (s.task i).state) : Inv ncpu t := by
  have calm : ∀ d < ncpu, ¬ (s.core d).pc.Switching := fun d hd => inv.calm mine (fun _ => was) hd
  have self : t.core c = { s.core c with proc := next, pc := .switching next point } := by
    rw [core, update_self]
  have others : ∀ d, d ≠ c → t.core d = s.core d := fun d ne => by
    rw [core, update_of_ne ne]
  have stack : ∀ d, (t.core d).stack = (s.core d).stack := by grind
  have parkedIff : ∀ i, Parked ncpu t i ↔ Parked ncpu s i := fun i => by simp only [Parked, stack]
  -- a runnable task is on no core, and its registers are saved
  have rests : ∀ j < NR_TASKS, (s.task j).state = .runnable → Parked ncpu s j ∧
      ∃ p, (s.task j).context = some p ∧ p ≠ .exit := by
    intro j hj runnable
    have parked : Parked ncpu s j := by
      intro d hd h
      have runs := (inv.settled d hd (calm d hd)).2 j h
      rw [runnable] at runs
      cases runs
    refine ⟨parked, ?_⟩
    rcases inv.parked j hj parked (by rw [runnable]; exact TaskState.noConfusion) with
      ⟨d, hd, point, h⟩ | ⟨p, saved, fits⟩
    · exact absurd ⟨_, point, h⟩ (calm d hd)
    · rw [runnable] at fits
      exact ⟨p, saved, fits⟩
  refine ⟨?_, ?_, ?_, ?_, ?_, ?_, ?_, ?_, ?_, ?_⟩
  · intro d hd
    by_cases e : d = c
    · rw [e, self, lock]
      simp
    · have free : s.lock ≠ some d := by
        rcases mine with h | h <;> rw [h]
        · exact (nomatch ·)
        · exact fun h => e (Option.some.inj h).symm
      rw [others d e, lock]
      exact ⟨fun _ h => e (Option.some.inj h).symm, fun _ => (inv.holder d hd).mpr free⟩
  · intro d h
    rw [lock] at h
    rwa [← Option.some.inj h]
  · intro d hd e h
    exact inv.home d hd e ((stack d).symm.trans h)
  · grind [inv.slot]
  · grind [inv.single]
  · intro d hd settled
    by_cases e : d = c
    · rw [e, self] at settled
      exact absurd ⟨next, point, rfl⟩ settled
    · grind [inv.settled, inv.single]
  · intro d hd next' point' h
    by_cases e : d = c
    · subst e
      rw [self] at h
      cases h
      refine ⟨by rw [self], by rw [self]; exact other, by rw [self]; exact left,
        by rw [self]; exact idle, home, ?_⟩
      intro j h
      obtain ⟨hj, runnable, runs⟩ := picked j h
      obtain ⟨parked, p, saved, ne⟩ := rests j hj runnable
      exact ⟨hj, (parkedIff j).mpr parked, runs, p, (context j).trans saved, ne⟩
    · rw [others d e] at h
      exact absurd ⟨_, _, h⟩ (calm d hd)
  · grind [inv.resumed]
  · grind [inv.idle]
  · intro i hi parked used
    have parked' := (parkedIff i).mp parked
    by_cases e : next = .task i
    · exact .inl ⟨c, hc, point, by rw [self, e]⟩
    · rw [same i (parked' c hc) e] at used ⊢
      rcases inv.parked i hi parked' used with ⟨d, hd, point', h⟩ | ⟨p, saved, fits⟩
      · exact absurd ⟨_, point', h⟩ (calm d hd)
      · exact .inr ⟨p, (context i).trans saved, fits⟩

structure Switched (s t : State) (c : Nat) (next : Who) (point resume : Point) : Prop where
  lock : t.lock = s.lock
  state : ∀ i, (t.task i).state = (s.task i).state
  context : ∀ i, (t.task i).context = if next = .task i then none
    else if (s.core c).stack = .task i then some point else (s.task i).context
  others : ∀ d, d ≠ c → t.core d = s.core d
  proc : (t.core c).proc = (s.core c).proc
  stack : (t.core c).stack = next
  pc : (t.core c).pc = .resumed resume
  idle : next ≠ .idle c → (t.core c).idle =
    if (s.core c).stack = .idle c then some point else (s.core c).idle
  frame : ∀ i, ∃ context, t.task i = { s.task i with context := context }

theorem putContext_task (s : State) (w : Who) (p : Option Point) (i : Nat) :
    (s.putContext w p).task i =
      if w = .task i then { s.task i with context := p } else s.task i := by
  cases w with
  | task j =>
    by_cases e : i = j
    · subst e
      simp [State.putContext, State.onTask]
    · simp [State.putContext, State.onTask, e, Ne.symm e]
  | idle d => rfl

theorem putContext_core (s : State) (w : Who) (p : Option Point) (d : Nat) :
    (s.putContext w p).core d =
      if w = .idle d then { s.core d with idle := p } else s.core d := by
  cases w with
  | task j => rfl
  | idle e =>
    by_cases h : d = e
    · subst h
      simp [State.putContext, State.onCore]
    · simp [State.putContext, State.onCore, h, Ne.symm h]

theorem putContext_lock (s : State) (w : Who) (p : Option Point) :
    (s.putContext w p).lock = s.lock := by
  cases w <;> rfl

theorem cpuSwitchTo_some (point : Point)
    (own : ∀ d, (s.core c).stack = .idle d → d = c) (home : ∀ d, next = .idle d → d = c)
    (saved : s.context next = some resume) :
    ∃ t, cpuSwitchTo s c next point = .ok t ∧ Switched s t c next point resume := by
  refine ⟨_, by rw [cpuSwitchTo, saved], ?_⟩
  have task : ∀ i, ((s.putContext (s.core c).stack (some point)).putContext next none).task i =
      if next = .task i then { s.task i with context := none }
      else if (s.core c).stack = .task i then { s.task i with context := some point }
      else s.task i := by grind [putContext_task]
  refine ⟨?_, ?_, ?_, ?_, ?_, ?_, ?_, ?_, ?_⟩ <;> simp only [State.onCore, task]
  · rw [putContext_lock, putContext_lock]
  · intro i
    split
    · rfl
    · split <;> rfl
  · intro i
    split
    · rfl
    · split <;> rfl
  · intro d ne
    rw [update_of_ne ne, putContext_core, putContext_core,
      if_neg (fun h => ne (home d h)), if_neg (fun h => ne (own d h))]
  · grind [update_self, putContext_core]
  · rw [update_self]
  · rw [update_self]
  · intro ne
    rw [update_self, putContext_core, putContext_core, if_neg ne]
    split <;> rfl
  · intro i
    split
    · exact ⟨_, rfl⟩
    · split
      · exact ⟨_, rfl⟩
      · exact ⟨_, rfl⟩

theorem Inv.switch (inv : Inv ncpu s) (hc : c < ncpu) (pc : (s.core c).pc = .switching next point) :
    ∃ resume t, cpuSwitchTo s c next point = .ok t ∧ Switched s t c next point resume ∧
      resume ≠ .exit := by
  have leaving := inv.leaving c hc next point pc
  cases hn : next with
  | task j =>
    obtain ⟨_, _, _, p, saved, ne⟩ := leaving.picked j hn
    obtain ⟨t, ok, switched⟩ := cpuSwitchTo_some point (inv.home c hc)
      (fun d h => leaving.home d (hn.trans h)) (show s.context (.task j) = some p from saved)
    exact ⟨p, t, ok, switched, ne⟩
  | idle d =>
    have own := leaving.home d hn
    subst own
    have saved := inv.idle d hc (hn ▸ leaving.other)
    obtain ⟨t, ok, switched⟩ := cpuSwitchTo_some point (inv.home d hc)
      (fun e h => leaving.home e (hn.trans h)) (show s.context (.idle d) = some .schedule from saved)
    exact ⟨.schedule, t, ok, switched, (nomatch ·)⟩

theorem Inv.switched (inv : Inv ncpu s) (hc : c < ncpu) (pc : (s.core c).pc = .switching next point)
    (sw : Switched s t c next point resume) (alive : resume ≠ .exit) : Inv ncpu t := by
  have leaving := inv.leaving c hc next point pc
  have held : s.lock = some c := by
    by_contra free
    rw [(inv.holder c hc).mpr free] at pc
    cases pc
  have calm : ∀ d < ncpu, d ≠ c → ¬ (s.core d).pc.Switching := fun d hd ne =>
    inv.out hd (fun h => ne (Option.some.inj (h.symm.trans held)))
  -- the stacks other than this core's are the same, and none of them is the new one
  have apart : ∀ d < ncpu, d ≠ c → (t.core d).stack ≠ next := by
    intro d hd ne h
    rw [sw.others d ne] at h
    cases hn : next with
    | task j => exact (leaving.picked j hn).2.1 d hd (h.trans hn)
    | idle e =>
      have here := leaving.home e hn
      have there := inv.home d hd e (h.trans hn)
      exact ne (there.symm.trans here)
  refine ⟨?_, ?_, ?_, ?_, ?_, ?_, ?_, ?_, ?_, ?_⟩
  · grind [sw.lock, sw.pc, sw.others, inv.holder]
  · intro d h
    exact inv.owner d (sw.lock.symm.trans h)
  · intro d hd e h
    by_cases i : d = c
    · subst i
      rw [sw.stack] at h
      exact leaving.home e h
    · rw [sw.others d i] at h
      exact inv.home d hd e h
  · intro d hd i h
    by_cases e : d = c
    · subst e
      rw [sw.stack] at h
      exact ⟨(leaving.picked i h).1, by rw [sw.context, if_pos h]⟩
    · have ne : next ≠ .task i := fun h' => apart d hd e (h.trans h'.symm)
      rw [sw.others d e] at h
      have away : (s.core c).stack ≠ .task i := fun h' => e (inv.single d hd c hc i h h')
      rw [sw.context, if_neg ne, if_neg away]
      exact inv.slot d hd i h
  · grind [sw.stack, sw.others, inv.single]
  · intro d hd _
    by_cases e : d = c
    · subst e
      rw [sw.proc, sw.stack, leaving.proc]
      exact ⟨rfl, fun i h => (sw.state i).trans (leaving.picked i h).2.2.1⟩
    · grind [sw.others, inv.settled, sw.state]
  · intro d hd next' point' h
    by_cases e : d = c
    · subst e
      rw [sw.pc] at h
      cases h
    · rw [sw.others d e] at h
      exact absurd ⟨_, _, h⟩ (calm d hd e)
  · grind [sw.pc, sw.others, inv.resumed]
  · intro d hd h
    by_cases e : d = c
    · subst e
      rw [sw.stack] at h
      rw [sw.idle h]
      split
      · rename_i home
        rw [leaving.idle home]
      · rename_i away
        exact inv.idle d hd away
    · rw [sw.others d e] at h ⊢
      exact inv.idle d hd h
  · intro i hi parked used
    right
    rw [sw.state] at used ⊢
    have notNext : next ≠ .task i := fun h => parked c hc (sw.stack.trans h)
    rw [sw.context, if_neg notNext]
    by_cases mine : (s.core c).stack = .task i
    · rw [if_pos mine]
      exact ⟨point, rfl, leaving.left i mine⟩
    · rw [if_neg mine]
      have parked' : Parked ncpu s i := by
        intro d hd h
        by_cases e : d = c
        · exact mine (e ▸ h)
        · exact parked d hd (by rw [sw.others d e]; exact h)
      refine (inv.parked i hi parked' used).resolve_left ?_
      rintro ⟨d, hd, point', h⟩
      by_cases e : d = c
      · subst e
        rw [pc] at h
        exact notNext (Pc.switching.inj h).1
      · exact calm d hd e ⟨_, _, h⟩

end

end UvaOs.Sched
