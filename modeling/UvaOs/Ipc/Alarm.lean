import UvaOs.Ipc.Timer

/-! `sys_sleep` keeps its promise when its delay fits in an `int`, nobody kills the caller or
cancels its timer, and the delay is not over before the first test. -/
namespace UvaOs.Timers

open Monitor

variable {x : Bool} {d e : Clock} {h : Handler} {elapse i j t : Nat} {p : Point} {c : Sleep}

def Sleep.ticks (c : Sleep) : Nat := 1000 * c.ms.toNat

def Nobody (d : Clock) (i : Nat) : Prop := ∀ t, d.handler t ≠ some (.wake i)

structure Own (d : Clock) (i : Nat) (x : Bool) (c : Sleep) : Prop where
  alive : x = false
  fits : Fits c.ms
  begun : c.c0 ≤ d.now
  sole : ∀ t, d.handler t = some (.wake i) → t = c.t
  armed : d.handler c.t = some (.wake i) → c.c0 + c.ticks ≤ d.elapseat c.t
  elapsed : d.handler c.t ≠ some (.wake i) → c.c0 + c.ticks ≤ d.now

theorem Own.clear (own : Own d i x c)
    (past : d.handler t = some (.wake i) → d.elapseat t ≤ d.now) : Own (d.clear t) i x c where
  alive := own.alive
  fits := own.fits
  begun := own.begun
  sole u running := own.sole u (of_handler_clear running).1
  armed running := by
    rw [elapseat_clear]
    exact own.armed (of_handler_clear running).1
  elapsed stopped := by
    by_cases running : d.handler c.t = some (.wake i)
    · have same : c.t = t := by
        by_contra ne
        rw [handler_clear_other ne] at stopped
        exact stopped running
      have due := own.armed running
      rw [same] at running due
      exact Nat.le_trans due (past running)
    · exact own.elapsed running

theorem Own.set (own : Own d i x c) (empty : d.handler t = none) (other : h ≠ .wake i) :
    Own (d.set t h elapse) i x c := by
  have before : ∀ u, (d.set t h elapse).handler u = some (.wake i) →
      d.handler u = some (.wake i) ∧ u ≠ t := by
    grind [handler_set, Option.some.inj, handler_set_other]
  refine ⟨own.alive, own.fits, own.begun, fun u running => own.sole u (before u running).1, ?_, ?_⟩
  · intro running
    rw [elapseat_set_other _ _ (before _ running).2]
    exact own.armed (before _ running).1
  · intro stopped
    refine own.elapsed (fun running => stopped ?_)
    by_cases e : c.t = t
    · rw [e, empty] at running
      cases running
    · rw [handler_set_other _ _ e]
      exact running

theorem Own.start (alive : x = false) (fits : Fits c.ms)
    (begun : c.c0 ≤ d.now) (nobody : Nobody d i) :
    Own (d.set c.t (.wake i) (d.now + ticksUnsigned c.ms)) i x c where
  alive := alive
  fits := fits
  begun := begun
  sole u running := by
    by_contra ne
    rw [handler_set_other _ _ ne] at running
    exact nobody u running
  armed _ := by
    rw [elapseat_set, fits.unsigned]
    exact Nat.add_le_add_right begun _
  elapsed stopped := absurd (handler_set ..) stopped

theorem Own.later (own : Own d i x c)
    (timer : e.timer = d.timer) (later : d.now ≤ e.now) : Own e i x c where
  alive := own.alive
  fits := own.fits
  begun := Nat.le_trans own.begun later
  sole u running := own.sole u (by simpa [Clock.handler, timer] using running)
  armed running := by
    have due := own.armed (by simpa [Clock.handler, timer] using running)
    simpa [Clock.elapseat, timer] using due
  elapsed stopped := Nat.le_trans (own.elapsed (by simpa [Clock.handler, timer] using stopped)) later

theorem Nobody.clear (nobody : Nobody d i) : Nobody (d.clear t) i :=
  fun u running => nobody u (of_handler_clear running).1

theorem Nobody.set (nobody : Nobody d i) (other : h ≠ .wake i) : Nobody (d.set t h elapse) i := by
  intro u running
  by_cases e : u = t
  · rw [e, handler_set] at running
    exact other (Option.some.inj running)
  · rw [handler_set_other _ _ e] at running
    exact nobody u running

/-- What the holder of the lock knows about its own call. -/
def keeps (d : Clock) (i : Nat) (x : Bool) : Cont → Prop
  | .sleep c => Own d i x c
  | .finish _ => Nobody d i

def owns (d : Clock) (A : Nat → Nat → Prop) (i : Nat) (x : Bool) : Point → Prop
  | .sysSleep ms => x = false ∧ Fits ms ∧ Nobody d i
  | .arm h ms t k => d.handler t = none ∧ Nobody d i ∧
    match k with
    | .sleep c => h = .wake i ∧ x = false ∧ Fits ms ∧ c.c0 ≤ d.now ∧ c.ms = ms ∧ c.t = t
    | .finish _ => h = .other
  | .adjust _ _ k => keeps d i x k
  | .expire t h _ k => keeps d i x k ∧ d.handler t = some h ∧ d.elapseat t < d.now
  | .unarm t _ k => keeps d i x k ∧ d.elapseat t < d.now ∧ ∀ j, ¬ A t j
  | .test c first => Own d i x c ∧ (first = false → Nobody d i)
  | .check c | .doze c => Own d i x c ∧ d.handler c.t = some (.wake i)
  | .irq cur | .fire cur _ => cur ≤ d.now ∧ Nobody d i
  | .callback cur t _ => cur ≤ d.now ∧ Nobody d i ∧ d.handler t = none
  | .ktimerStart _ | .ktimerCancel .. => Nobody d i

/-- The slot whose sleepers do not match it at the moment: it is being fired. -/
def Point.fires : Point → Nat → Prop
  | .callback _ t (.wake _), u => u = t
  | .unarm t _ _, u => u = t
  | _, _ => False

/-- Apart from task `i` and the slots in `but`, a task sleeps on a slot just when the timer
runs for it. -/
def Matched (d : Clock) (A : Nat → Nat → Prop) (i : Nat) (but : Nat → Prop) : Prop :=
  ∀ t j, ¬ but t → j ≠ i → (d.handler t = some (.wake j) ↔ A t j)

def waits (d : Clock) (i : Nat) (x : Bool) : Point → Prop
  | .sysSleep ms => x = false ∧ Fits ms
  | .test c first => first = false ∧ Own d i x c
  | .irq cur => cur ≤ d.now
  | .ktimerStart _ | .ktimerCancel .. => True
  | _ => False

def Cont.sleeps : Cont → Bool
  | .sleep _ => true
  | .finish _ => false

def Point.sleeps : Point → Bool
  | .sysSleep _ | .test .. | .check _ | .doze _ => true
  | .arm _ _ _ k | .adjust _ _ k | .expire _ _ _ k | .unarm _ _ k => k.sleeps
  | _ => false

def Away (s : State) (i : Nat) : Prop :=
  (∀ p, s.phase i = .inside p ∨ Waits s i p → p.sleeps = false) ∧ ∀ t, ¬ Sleeps s t i

/-- `sys_sleep` is called with a delay that fits, by a task that is not killed then or
before it returns; nobody cancels a timer that runs for it; and the delay is not over when
the task looks at the counter for the first time. -/
def Undisturbed (s : State) : Event Point → Prop
  | .call i (.sysSleep ms) => s.killed i = false ∧ 0 ≤ ms.toInt ∧ 1000 * ms.toInt < 2 ^ 31
  | .kill i | .setkilled i => Away s i
  | .go i => ∀ p, s.phase i = .inside p →
    match p with
    | .test c first => first = true → s.data.now - c.c0 < 1000 * c.ms.toNat
    | .ktimerCancel t _ => ∀ j, s.data.handler t ≠ some (.wake j)
    | _ => True
  | _ => True

theorem fits_of_toInt {ms : BitVec 32} (positive : 0 ≤ ms.toInt) (small : 1000 * ms.toInt < 2 ^ 31) :
    Fits ms := by
  have range := ms.isLt
  rw [BitVec.toInt_eq_toNat_cond] at positive small
  rw [Fits]
  split at positive
  · rename_i half
    rw [if_pos half] at small
    omega
  · omega

theorem waits_later (h : waits d i x p)
    (timer : e.timer = d.timer) (later : d.now ≤ e.now) : waits e i x p := by
  cases p with
  | sysSleep | ktimerStart | ktimerCancel => exact h
  | test c first => exact ⟨h.1, h.2.later timer later⟩
  | irq cur => exact Nat.le_trans h later
  | _ => exact h

theorem waits_clear (h : waits d j x p)
    (past : d.handler t = some (.wake j) → d.elapseat t ≤ d.now) : waits (d.clear t) j x p := by
  cases p with
  | test c first => exact ⟨h.1, h.2.clear past⟩
  | _ => exact h

theorem waits_set {k : Handler}
    (h : waits d j x p) (empty : d.handler t = none) (other : k ≠ .wake j) :
    waits (d.set t k elapse) j x p := by
  cases p with
  | test c first => exact ⟨h.1, h.2.set empty other⟩
  | _ => exact h

theorem owns_later {A : Nat → Nat → Prop}
    (h : owns d A i x p) (timer : e.timer = d.timer) (later : d.now ≤ e.now) : owns e A i x p := by
  have handler : ∀ t, e.handler t = d.handler t := fun t => by simp [Clock.handler, timer]
  have elapseat : ∀ t, e.elapseat t = d.elapseat t := fun t => by simp [Clock.elapseat, timer]
  have nobody : Nobody d i → Nobody e i := fun h t => by rw [handler]; exact h t
  have keep : ∀ k, keeps d i x k → keeps e i x k := by
    intro k h
    cases k with
    | sleep c => exact h.later timer later
    | finish r => exact nobody h
  cases p with
  | sysSleep ms => exact ⟨h.1, h.2.1, nobody h.2.2⟩
  | ktimerStart ms => exact nobody h
  | arm k ms t c =>
    refine ⟨by rw [handler]; exact h.1, nobody h.2.1, ?_⟩
    cases c with
    | sleep c =>
      obtain ⟨-, -, mine, alive, fits, begun, rest⟩ := h
      exact ⟨mine, alive, fits, Nat.le_trans begun later, rest⟩
    | finish r => exact h.2.2
  | adjust tt next k => exact keep k h
  | expire t k next c =>
    exact ⟨keep c h.1, by rw [handler]; exact h.2.1, by rw [elapseat]; exact Nat.lt_of_lt_of_le h.2.2 later⟩
  | unarm t next k =>
    exact ⟨keep k h.1, by rw [elapseat]; exact Nat.lt_of_lt_of_le h.2.1 later, h.2.2⟩
  | test c first => exact ⟨h.1.later timer later, fun again => nobody (h.2 again)⟩
  | check c => exact ⟨h.1.later timer later, by rw [handler]; exact h.2⟩
  | doze c => exact ⟨h.1.later timer later, by rw [handler]; exact h.2⟩
  | irq cur => exact ⟨Nat.le_trans h.1 later, nobody h.2⟩
  | fire cur t => exact ⟨Nat.le_trans h.1 later, nobody h.2⟩
  | callback cur t k =>
    exact ⟨Nat.le_trans h.1 later, nobody h.2.1, by rw [handler]; exact h.2.2⟩
  | ktimerCancel t cur => exact nobody h

structure Held (d : Clock) (A : Nat → Nat → Prop) (i : Nat) (x : Bool) (p : Point) : Prop where
  awake : ∀ t, ¬ A t i
  matched : Matched d A i p.fires
  owns : owns d A i x p

section

variable {d e : Clock} {A : Nat → Nat → Prop} {i t : Nat} {x : Bool} {p q : Point}

variable {k : Nat} {but : Nat → Prop}

theorem Held.no_sleeper (h : Held d A i x p) (calm : ¬ p.fires t)
    (other : ∀ j, d.handler t ≠ some (.wake j)) (j : Nat) : ¬ A t j := by
  intro asleep
  by_cases e : j = i
  · exact h.awake t (e ▸ asleep)
  · exact other j ((h.matched t j calm e).mpr asleep)

theorem Matched.clear (matched : Matched d A i but)
    (empty : ∀ j, ¬ A t j) (elsewhere : ∀ u, but u → u = t) :
    Matched (d.clear t) A i (fun _ => False) := by
  intro u j _ ne
  by_cases e : u = t
  · subst e
    rw [handler_clear]
    exact iff_of_false nofun (empty j)
  · rw [handler_clear_other e]
    exact matched u j (fun fires => e (elsewhere u fires)) ne

theorem Matched.set (matched : Matched d A i (fun _ => False))
    (empty : d.handler t = none) (mine : ∀ j, j ≠ i → h ≠ .wake j) :
    Matched (d.set t h elapse) A i (fun _ => False) := by
  intro u j _ ne
  by_cases e : u = t
  · subst e
    rw [handler_set]
    refine iff_of_false (fun eq => mine j ne (Option.some.inj eq)) (fun asleep => ?_)
    rw [(matched u j id ne).mpr asleep] at empty
    cases empty
  · rw [handler_set_other _ _ e]
    exact matched u j id ne

theorem Matched.within (matched : Matched d A i (fun _ => False)) :
    Matched d A i but := fun t j _ ne => matched t j id ne

theorem keeps_clear {k : Cont} (h : keeps d i x k) (past : d.elapseat t ≤ d.now) :
    keeps (d.clear t) i x k := by
  cases k with
  | sleep c => exact Own.clear h (fun _ => past)
  | finish r => exact Nobody.clear h

theorem alarm_go (held : Held d A i x p) (did : Does d i x p (.go e q))
    (allowed : ∀ t cur, p = .ktimerCancel t cur → ∀ j, d.handler t ≠ some (.wake j)) :
    Held e A i x q ∧ ∀ j y r, j ≠ i → waits d j y r → waits e j y r := by
  obtain ⟨awake, matched, owns⟩ := id held
  cases did with
  | sysSleep found =>
    refine ⟨⟨awake, matched, free_slot found, owns.2.2, rfl, owns.1, owns.2.1, Nat.le_refl _, rfl, rfl⟩, ?_⟩
    exact fun _ _ _ _ rest => rest
  | ktimerStart found =>
    exact ⟨⟨awake, matched, free_slot found, owns, rfl⟩, fun _ _ _ _ rest => rest⟩
  | @arm h ms t k =>
    obtain ⟨empty, nobody, mine⟩ := owns
    cases k with
    | sleep c =>
      obtain ⟨rfl, alive, fits, begun, rfl, rfl⟩ := mine
      have others : ∀ j, j ≠ i → Handler.wake i ≠ .wake j := fun j ne eq =>
        ne (Handler.wake.inj eq).symm
      refine ⟨⟨awake, matched.set empty others, Own.start alive fits begun nobody⟩, ?_⟩
      exact fun j _ _ ne rest => waits_set rest empty (others j ne)
    | finish r =>
      cases mine
      refine ⟨⟨awake, matched.set empty (fun _ _ => nofun), nobody.set nofun⟩, ?_⟩
      exact fun j _ _ ne rest => waits_set rest empty nofun
  | expired _ armed past => exact ⟨⟨awake, matched, owns, armed, past⟩, fun _ _ _ _ rest => rest⟩
  | skip => exact ⟨⟨awake, matched, owns⟩, fun _ _ _ _ rest => rest⟩
  | resume => exact ⟨⟨awake, matched, owns, nofun⟩, fun _ _ _ _ rest => rest⟩
  | @expireOther tt next k =>
    obtain ⟨kept, armed, past⟩ := owns
    have none_ := held.no_sleeper (t := tt) id (fun j eq => by rw [armed] at eq; cases eq)
    exact ⟨⟨awake, Matched.within matched, kept, past, none_⟩, fun _ _ _ _ rest => rest⟩
  | @unarm tt next k =>
    obtain ⟨kept, past, none_⟩ := owns
    refine ⟨⟨awake, matched.clear none_ (fun _ => id), keeps_clear kept (Nat.le_of_lt past)⟩, ?_⟩
    exact fun _ _ _ _ rest => waits_clear rest (fun _ => Nat.le_of_lt past)
  | @early c first early =>
    have running : d.handler c.t = some (.wake i) := by
      by_contra stopped
      have elapsed := owns.1.elapsed stopped
      rw [owns.1.fits.signed] at early
      rw [Sleep.ticks] at elapsed
      omega
    exact ⟨⟨awake, matched, owns.1, running⟩, fun _ _ _ _ rest => rest⟩
  | check alive => exact ⟨⟨awake, matched, owns⟩, fun _ _ _ _ rest => rest⟩
  | irq => exact ⟨⟨awake, matched, owns⟩, fun _ _ _ _ rest => rest⟩
  | @fire cur t h _ armed past =>
    obtain ⟨read, nobody⟩ := owns
    have due : d.elapseat t ≤ d.now := Nat.le_trans past read
    refine ⟨⟨awake, ?_, read, nobody.clear, handler_clear ..⟩, ?_⟩
    · cases h with
      | wake j =>
        intro u k ne other
        rw [handler_clear_other ne]
        exact matched u k id other
      | other =>
        refine matched.clear (held.no_sleeper id (fun j eq => ?_)) (fun _ => False.elim)
        rw [armed] at eq
        cases eq
    · exact fun _ _ _ _ rest => waits_clear rest (fun _ => due)
  | pass => exact ⟨⟨awake, matched, owns⟩, fun _ _ _ _ rest => rest⟩
  | fired => exact ⟨⟨awake, matched, owns.2⟩, fun _ _ _ _ rest => rest⟩
  | callOther => exact ⟨⟨awake, matched, owns.1, owns.2.1⟩, fun _ _ _ _ rest => rest⟩
  | @cancel t cur =>
    have other := allowed t cur rfl
    refine ⟨⟨awake, matched.clear (held.no_sleeper id other) (fun _ => False.elim), owns.clear⟩, ?_⟩
    exact fun j _ _ _ rest => waits_clear rest (fun running => absurd running (other j))

theorem alarm_wakeup (held : Held d A i x p) (did : Does d i x p (.wakeup k q)) :
    Held d (fun l j => A l j ∧ l ≠ k) i x q := by
  obtain ⟨awake, matched, owns⟩ := held
  cases did with
  | expire =>
    refine ⟨fun t asleep => awake t asleep.1, ?_, owns.1, owns.2.2, fun j asleep => asleep.2 rfl⟩
    intro u j ne other
    rw [matched u j id other]
    exact (and_iff_left ne).symm
  | callback =>
    refine ⟨fun t asleep => awake t asleep.1, ?_, owns.1, owns.2.1⟩
    intro u j _ other
    by_cases e : u = k
    · rw [e, owns.2.2]
      exact iff_of_false nofun (fun asleep => asleep.2 rfl)
    · rw [matched u j e other]
      exact (and_iff_left e).symm

/-- While the lock is free, a task sleeps on a slot just when the timer runs for it. -/
def Agree (d : Clock) (A : Nat → Nat → Prop) : Prop := ∀ t j, d.handler t = some (.wake j) ↔ A t j

theorem Held.agree (h : Held d A i x p) (calm : ∀ t, ¬ p.fires t) (nobody : Nobody d i) :
    Agree d A := by
  intro t j
  by_cases e : j = i
  · rw [e]
    exact iff_of_false (nobody t) (h.awake t)
  · exact h.matched t j (calm t) e

theorem alarm_sleep (held : Held d A i x p) (did : Does d i x p (.sleep k q)) :
    Agree d (fun l j => A l j ∨ l = k ∧ j = i) ∧ waits d i x q := by
  obtain ⟨awake, matched, owns⟩ := held
  cases did with
  | @doze c =>
    refine ⟨fun t j => ?_, rfl, owns.1⟩
    by_cases e : j = i
    · subst e
      constructor
      · exact fun running => .inr ⟨owns.1.sole t running, rfl⟩
      · rintro (asleep | ⟨rfl, _⟩)
        · exact absurd asleep (awake t)
        · exact owns.2
    · rw [matched t j id e]
      simp [e]

theorem alarm_leave {r : Int} (held : Held d A i x p) (did : Does d i x p (.leave e r))
    (first : ∀ c, p = .test c true → d.now - c.c0 < 1000 * c.ms.toNat)
    (allowed : ∀ t cur, p = .ktimerCancel t cur → ∀ j, d.handler t ≠ some (.wake j)) :
    (Agree e A ∧ Nobody e i) ∧ ∀ j y r, j ≠ i → waits d j y r → waits e j y r := by
  obtain ⟨awake, matched, owns⟩ := id held
  cases did with
  | none_left => exact ⟨⟨held.agree (fun _ => id) owns, owns⟩, fun _ _ _ _ rest => rest⟩
  | finish => exact ⟨⟨held.agree (fun _ => id) owns, owns⟩, fun _ _ _ _ rest => rest⟩
  | @elapsed c again elapsed =>
    cases again with
    | true =>
      have early := first c rfl
      rw [owns.1.fits.signed] at elapsed
      omega
    | false =>
      exact ⟨⟨held.agree (fun _ => id) (owns.2 rfl), owns.2 rfl⟩, fun _ _ _ _ rest => rest⟩
  | killed dead =>
    rw [owns.1.alive] at dead
    cases dead
  | invalid => exact ⟨⟨held.agree (fun _ => id) owns, owns⟩, fun _ _ _ _ rest => rest⟩
  | @cancelled t cur =>
    have other := allowed t cur rfl
    have after : Held (d.clear t) A i x (.ktimerCancel t cur) :=
      ⟨awake, matched.clear (held.no_sleeper id other) (fun _ => False.elim), owns.clear⟩
    refine ⟨⟨after.agree (fun _ => id) owns.clear, owns.clear⟩, ?_⟩
    exact fun j _ _ _ rest => waits_clear rest (fun running => absurd running (other j))

end

theorem owns_killed {A : Nat → Nat → Prop}
    (h : owns d A i x p) (away : p.sleeps = false) : owns d A i true p := by
  cases p with
  | sysSleep | test | check | doze => cases away
  | arm _ _ _ k =>
    cases k with
    | sleep => cases away
    | finish => exact h
  | adjust _ _ k =>
    cases k with
    | sleep => cases away
    | finish => exact h
  | expire _ _ _ k =>
    cases k with
    | sleep => cases away
    | finish => exact h
  | unarm _ _ k =>
    cases k with
    | sleep => cases away
    | finish => exact h
  | _ => exact h

theorem waits_killed (h : waits d i x p) (away : p.sleeps = false) : waits d i true p := by
  cases p with
  | sysSleep | test => cases away
  | _ => exact h

theorem waits_start {s : State} (fine : Undisturbed s (.call i p))
    (begins : start s.data p = true) : waits s.data i (s.killed i) p := by
  cases p with
  | sysSleep ms => exact ⟨fine.1, fits_of_toInt fine.2.1 fine.2.2⟩
  | ktimerStart | ktimerCancel => trivial
  | irq cur => exact Nat.le_of_eq (eq_of_beq begins)
  | _ => cases begins

theorem tick_timer (d : Clock) (n : Nat) : (tick d n).timer = d.timer ∧ d.now ≤ (tick d n).now := by
  unfold tick
  split
  · exact ⟨rfl, Nat.le_add_right ..⟩
  · exact ⟨rfl, Nat.le_refl _⟩

def alarm : Outline code Undisturbed where
  free := Agree
  held := Held
  rest := waits
  call fine begins := waits_start fine begins
  enter := by
    intro d A i x p free awake rest
    have nobody : Nobody d i := fun t running => awake t ((free t i).mp running)
    cases p with
    | sysSleep ms => exact ⟨awake, fun t j _ _ => free t j, rest.1, rest.2, nobody⟩
    | test c first => exact ⟨awake, fun t j _ _ => free t j, rest.2, fun _ => nobody⟩
    | irq cur => exact ⟨awake, fun t j _ _ => free t j, rest, nobody⟩
    | ktimerStart | ktimerCancel => exact ⟨awake, fun t j _ _ => free t j, nobody⟩
    | _ => exact rest.elim
  go := by
    intro s i p d q fine inside held acts
    obtain ⟨after, frame⟩ := alarm_go held (did acts) (fun t cur eq => by subst eq; exact fine _ inside)
    exact ⟨after, fun j r ne _ rest => frame j _ r ne rest⟩
  wakeup _ _ held acts := alarm_wakeup held (did acts)
  sleep _ _ held acts := alarm_sleep held (did acts)
  leave := by
    intro s i p d r fine inside held acts
    obtain ⟨after, frame⟩ := alarm_leave held (did acts)
      (fun c eq => by subst eq; exact fine _ inside rfl) (fun t cur eq => by subst eq; exact fine _ inside)
    exact ⟨after.1, fun j r ne _ rest => frame j _ r ne rest⟩
  mark := by
    intro s i p fine
    have away : Away s i := fine.elim id id
    refine ⟨fun A inside held => ?_, fun waiting rest => ?_⟩
    · exact { held with owns := owns_killed held.owns (away.1 p (.inl inside)) }
    · exact waits_killed rest (away.1 p (.inr waiting))
  rouse := by
    intro s i away
    have same : (fun l j => Sleeps s l j ∧ j ≠ i) = Sleeps s := by
      funext l j
      refine propext ⟨And.left, fun asleep => ⟨asleep, ?_⟩⟩
      rintro rfl
      exact away.2 l asleep
    rw [same]
    exact ⟨id, fun _ held => held⟩
  tick := by
    intro s n _
    obtain ⟨timer, later⟩ := tick_timer s.data n
    have handler : ∀ t, (code.tick s.data n).handler t = s.data.handler t := fun t => by
      simp only [Clock.handler, code, timer]
    refine ⟨fun agree t j => ?_, fun held => ⟨held.awake, fun t j calm ne => ?_, ?_⟩, fun rest => ?_⟩
    · rw [handler]
      exact agree t j
    · rw [handler]
      exact held.matched t j calm ne
    · exact owns_later held.owns timer later
    · exact waits_later rest timer later

def Point.sleep : Point → Option Sleep
  | .test c _ | .check c | .doze c => some c
  | .adjust _ _ (.sleep c) | .expire _ _ _ (.sleep c) | .unarm _ _ (.sleep c)
  | .arm _ _ _ (.sleep c) => some c
  | _ => none

/- In every undisturbed run: `sys_sleep` returns only when the delay is over, and then no
timer runs for the task any more; while it sleeps, the timer runs for long enough. -/
theorem sleep_keeps_time {s : State} (run : Run code Undisturbed Boot s) :
    (∀ i p c r, Returns code s i p r → Undisturbed s (.go i) → p.sleep = some c →
      r = 0 ∧ 1000 * c.ms.toNat ≤ s.data.now - c.c0 ∧ ∀ t, s.data.handler t ≠ some (.wake i)) ∧
    (s.lock = none → ∀ i t p, s.phase i = .asleep t p → ∃ c, p.sleep = some c ∧ c.t = t ∧
      s.data.handler t = some (.wake i) ∧ c.c0 + 1000 * c.ms.toNat ≤ s.data.elapseat t) := by
  have inv : alarm.Inv s := by
    refine Outline.Inv.run (fun s boot => ⟨boot.idle, fun t j => ?_⟩) run
    exact iff_of_false (boot.timers t j) id
  refine ⟨?_, ?_⟩
  · rintro i p c r ⟨inside, e, acts⟩ fine call
    have held : Held s.data (Sleeps s) i (s.killed i) p := inv.held inside
    have owns := held.owns
    cases did acts with
    | @elapsed c' first elapsed =>
      cases call
      have fits := owns.1.fits
      rw [fits.signed] at elapsed
      cases first with
      | true =>
        have early := fine _ inside rfl
        omega
      | false => exact ⟨rfl, elapsed, owns.2 rfl⟩
    | killed dead =>
      rw [owns.1.alive] at dead
      cases dead
    | _ => cases call
  · intro unlocked i t p asleep
    have sleeps : Sleeps s t i := by
      rw [Sleeps, asleep]
      rfl
    have waiting : Waits s i p := by
      rw [Waits, asleep]
      rfl
    obtain ⟨c, rfl, rfl⟩ : ∃ c, p = .test c false ∧ c.t = t := by
      refine sleepers (S := fun t q => ∃ c, q = .test c false ∧ c.t = t) (fun s boot => boot.idle) ?_
        run i t p sleeps waiting
      intro d i x p k q acts
      cases did acts with
      | doze => exact ⟨_, rfl, rfl⟩
    have rest : waits s.data i (s.killed i) (.test c false) := inv.rest waiting
    have running : s.data.handler c.t = some (.wake i) := (inv.free unlocked c.t i).mpr sleeps
    exact ⟨c, rfl, rfl, running, rest.2.armed running⟩

def bootState : State := ⟨⟨0, fun _ => ⟨none, 0⟩⟩, none, none, fun _ => .out, fun _ => false⟩

theorem bootState_boot : Boot bootState := ⟨⟨rfl, rfl, fun _ => rfl⟩, fun _ _ => nofun⟩

/-- Task 0 calls `sys_sleep` and gets to its loop. -/
def begins (ms : BitVec 32) : List (Event Point) :=
  .call 0 (.sysSleep ms) :: List.replicate 24 (.go 0)

def dozes : List (Event Point) := List.replicate 4 (.go 0)

/-- A test for `Undisturbed`, for runs without kills and cancels. -/
def quiet (s : State) : Event Point → Bool
  | .call i (.sysSleep ms) => !s.killed i && decide (0 ≤ ms.toInt ∧ 1000 * ms.toInt < 2 ^ 31)
  | .kill _ | .setkilled _ => false
  | .go i =>
    match s.phase i with
    | .inside (.test c _) => decide (s.data.now - c.c0 < 1000 * c.ms.toNat)
    | .inside (.ktimerCancel ..) => false
    | _ => true
  | _ => true

theorem quiet_undisturbed (s : State) (e : Event Point) (passed : quiet s e = true) :
    Undisturbed s e := by
  cases e with
  | call i p =>
    cases p with
    | sysSleep ms => simpa [quiet, Undisturbed] using passed
    | _ => trivial
  | go i =>
    intro p inside
    rw [quiet, inside] at passed
    cases p with
    | test c first => exact fun _ => of_decide_eq_true passed
    | ktimerCancel t cur => cases passed
    | _ => trivial
  | kill i => cases passed
  | setkilled i => cases passed
  | tick n => trivial

theorem dozes_armed :
    ∃ s t p c, Run code Undisturbed Boot s ∧ s.lock = none ∧ s.phase 0 = .asleep t p ∧
      p.sleep = some c ∧ s.data.handler t = some (.wake 0) ∧
      c.c0 + 1000 * c.ms.toNat ≤ s.data.elapseat t := by
  have run : Run code Undisturbed Boot (Prog.played (guarded code quiet) bootState (begins 1 ++ dozes)) :=
    Run.guarded quiet_undisturbed (begins 1 ++ dozes) bootState_boot rfl
  obtain ⟨c, call, -, armed, late⟩ := (sleep_keeps_time run).2 rfl 0 0 _ rfl
  exact ⟨_, _, _, c, run, rfl, rfl, call, armed, late⟩

/-- Both products wrap around to 704. -/
def wrapped : List (Event Point) :=
  .call 0 (.sysSleep 4294968) :: List.replicate 3 (.go 0) ++ .tick 704 :: List.replicate 21 (.go 0)

def killedAsleep : List (Event Point) :=
  begins 1000 ++ dozes ++ [.kill 0, .go 0, .go 0]

/-- The product is negative as an `int`. The timer fires in time, and the task goes back to
sleep. -/
def negative : List (Event Point) :=
  begins 2147484 ++ dozes ++ .tick 2147484000 :: .call 1 (.irq 2147484000) :: List.replicate 45 (.go 1) ++
    List.replicate 5 (.go 0)

theorem sleep_goes_wrong :
    (∃ s p c, Run code (fun _ _ => True) Boot s ∧ Returns code s 0 p 0 ∧ p.sleep = some c ∧
      0 ≤ c.ms.toInt ∧ s.data.now - c.c0 < 1000 * c.ms.toNat) ∧
    (∃ s p c, Run code (fun _ _ => True) Boot s ∧ Returns code s 0 p (-1) ∧ p.sleep = some c ∧
      s.data.handler c.t = some (.wake 0)) ∧
    ∃ s t p, Run code (fun _ _ => True) Boot s ∧ s.lock = none ∧ s.phase 0 = .asleep t p ∧
      s.data.handler t = none := by
  have first : Run code (fun _ _ => True) Boot (Prog.played (step code) bootState wrapped) :=
    Run.play wrapped bootState_boot (fun _ _ _ => trivial) rfl
  have second : Run code (fun _ _ => True) Boot (Prog.played (step code) bootState killedAsleep) :=
    Run.play killedAsleep bootState_boot (fun _ _ _ => trivial) rfl
  have third : Run code (fun _ _ => True) Boot (Prog.played (step code) bootState negative) :=
    Run.play negative bootState_boot (fun _ _ _ => trivial) rfl
  exact ⟨⟨_, .test ⟨4294968, 0, 0⟩ true, _, first, ⟨rfl, _, rfl⟩, rfl, by decide, by decide⟩,
    ⟨_, .check ⟨1000, 0, 0⟩, _, second, ⟨rfl, _, rfl⟩, rfl, rfl⟩, _, 0, _, third, rfl, rfl, rfl⟩

end UvaOs.Timers
