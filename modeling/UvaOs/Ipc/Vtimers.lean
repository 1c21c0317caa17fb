import UvaOs.Ipc.Timer

/-! The calls that virtual timers make, kernel/timer.c. Each call of `ktimer_start`,
`ktimer_cancel` and `sys_timer_irq` runs under `timerlock`, so they come one after the other, while
the counter goes on between any two reads of it. A handler cannot get at the timers: it is called
with the lock held.

Beside the table of the source the state has a history, with one entry for each timer that was
started. -/
namespace UvaOs.Vtimers

open Prog List
open UvaOs.Timers (N_TIMERS TICKPERMS FOREVER ticksUnsigned)
open Function (update update_self update_of_ne update_apply)

/-! Model -/

structure Vtimer where
  handler : Option Nat
  elapseat : Nat
  param : Nat
  context : Nat

/-- A call of a handler, the counter then, and whether the timer had been cancelled. -/
structure Call where
  id : Nat
  handler : Nat
  param : Nat
  context : Nat
  at_ : Nat
  late : Bool

/-- What becomes of a timer. `ktimer_cancel` has `cancelled` it with 0 or `dropped` it with -2. -/
structure Life where
  slot : Nat
  delayms : BitVec 32
  handler : Nat
  param : Nat
  context : Nat
  started : Nat
  calls : List Call
  cancelled : Bool
  dropped : Bool

structure State where
  now : Nat
  timer : Nat → Vtimer
  compare : Nat
  halted : Bool
  count : Nat
  /-- The timer that was started last in a slot. -/
  last : Nat → Nat
  life : Nat → Life

namespace State

def handler (s : State) (t : Nat) : Option Nat := (s.timer t).handler

def elapseat (s : State) (t : Nat) : Nat := (s.timer t).elapseat

/- The counter goes on; the source assumes that it never wraps around. -/
def pass (s : State) (n : Nat) : State :=
  { s with now := if s.now + n ≤ FOREVER then s.now + n else s.now }

def clear (s : State) (t : Nat) : State :=
  { s with timer := update s.timer t { s.timer t with handler := none } }

def putLife (s : State) (n : Nat) (l : Life) : State :=
  { s with life := update s.life n l }

/- `(*h)(t, timers[t].param, timers[t].context)`. -/
def call (s : State) (t h : Nat) : State :=
  let l := s.life (s.last t)
  s.putLife (s.last t) { l with
    calls := l.calls ++ [⟨t, h, (s.timer t).param, (s.timer t).context, s.now, l.cancelled⟩] }

def arm (s : State) (t : Nat) (delayms : BitVec 32) (handler param context : Nat) : State :=
  { s with
    timer := update s.timer t ⟨some handler, s.now + ticksUnsigned delayms, param, context⟩
    count := s.count + 1
    last := update s.last t s.count
    life := update s.life s.count
      ⟨t, delayms, handler, param, context, s.now, [], false, false⟩ }

def free (s : State) : Option Nat :=
  (List.range N_TIMERS).find? (fun t => decide (s.handler t = none))

end State

/-- The loop of `adjust_sys_timer`, with `next`. The counter goes on by `wait tt` before it is read
for slot `tt`. -/
def adjustSlots (wait : Nat → Nat) : List Nat → State × Nat → State × Nat
  | [], r => r
  | tt :: rest, (s, next) =>
    match s.handler tt with
    | none => adjustSlots wait rest (s, next)
    | some h =>
      if s.elapseat tt < next then
        let s := s.pass (wait tt)
        if s.elapseat tt < s.now then adjustSlots wait rest ((s.call tt h).clear tt, next)
        else adjustSlots wait rest (s, (s.elapseat tt + 10 * 1000) % 2 ^ 64)
      else adjustSlots wait rest (s, next)

def adjustSysTimer (wait : Nat → Nat) (s : State) : State :=
  let r := adjustSlots wait (List.range N_TIMERS) (s, FOREVER)
  let s := r.1.pass (wait N_TIMERS)
  if r.2 < s.now then { s with halted := true }
  else if r.2 = FOREVER then s
  else { s with compare := r.2 % 2 ^ 32 }

/-- The timer's slot, or -1. The first read of the counter is for the deadline. -/
def ktimerStart (wait : Nat → Nat) (delayms : BitVec 32) (handler param context : Nat) (s : State) :
    Int × State :=
  match s.free with
  | none => (-1, s)
  | some t =>
    let s := s.pass (wait 0)
    if FOREVER < s.now + ticksUnsigned delayms then (t, { s with halted := true })
    else (t, adjustSysTimer (fun i => wait (i + 1)) (s.arm t delayms handler param context))

/-- `cur` is the counter, read before the lock is taken. -/
def ktimerCancel (wait : Nat → Nat) (t : Int) (cur : Nat) (s : State) : Int × State :=
  if t < 0 ∨ t ≥ N_TIMERS then (-1, s)
  else
    let t := t.toNat
    let l := s.life (s.last t)
    match s.handler t with
    | none => (-1, s)
    | some _ =>
      if s.elapseat t < cur then
        (-2, { s.putLife (s.last t) { l with dropped := true } with
          timer := update s.timer t ⟨none, s.elapseat t, 0, 0⟩ })
      else (0, adjustSysTimer wait
        ((s.putLife (s.last t) { l with cancelled := true }).clear t))

/-- One turn of the loop of `sys_timer_irq`. -/
def fireSlot (wait : Nat → Nat) (cur : Nat) (s : State) (t : Nat) : State :=
  match s.handler t with
  | none => s
  | some h =>
    if s.elapseat t ≤ cur then ((s.pass (wait t)).clear t).call t h else s

def fireSlots (wait : Nat → Nat) (cur : Nat) (slots : List Nat) (s : State) : State :=
  slots.foldl (fireSlot wait cur) s

/-- `matched` is the match bit of timer 1; `cur` is read before the lock is taken. -/
def sysTimerIrq (wait wait' : Nat → Nat) (cur : Nat) (matched : Bool) (s : State) : State :=
  if matched then adjustSysTimer wait' (fireSlots wait cur (List.range N_TIMERS) s)
  else { s with halted := true }

inductive Event where
  | pass (n : Nat)
  | start (wait : Nat → Nat) (delayms : BitVec 32) (handler param context : Nat)
  | cancel (wait : Nat → Nat) (t : Int) (cur : Nat)
  | irq (wait wait' : Nat → Nat) (cur : Nat) (matched : Bool)

def Event.Possible (s : State) : Event → Prop
  | .pass _ | .start .. => True
  | .cancel _ _ cur | .irq _ _ cur _ => cur ≤ s.now

def step (s : State) : Event → State
  | .pass n => s.pass n
  | .start wait delayms handler param context => (ktimerStart wait delayms handler param context s).2
  | .cancel wait t cur => (ktimerCancel wait t cur s).2
  | .irq wait wait' cur matched => sysTimerIrq wait wait' cur matched s

structure Init (s : State) : Prop where
  timers : ∀ t, s.handler t = none
  none : s.count = 0

/-! What a timer is for -/

namespace Life

def deadline (l : Life) : Nat := l.started + 1000 * l.delayms.toNat

/-- It has been called or is not to be called any more. -/
def Done (l : Life) : Prop := l.calls ≠ [] ∨ l.cancelled = true ∨ l.dropped = true

/-- At most one call, with what was given at the start, not early, and not after it was
cancelled. -/
structure Kept (l : Life) : Prop where
  once : l.calls.length ≤ 1
  given : ∀ c ∈ l.calls, c.id = l.slot ∧ c.handler = l.handler ∧ c.param = l.param ∧
    c.context = l.context
  due : ∀ c ∈ l.calls, l.deadline ≤ c.at_
  wanted : ∀ c ∈ l.calls, c.late = false

end Life

/-- The product of `ktimer_start` does not exceed 32 bits. -/
def Event.Short : Event → Prop
  | .start _ delayms .. => 1000 * delayms.toNat < 2 ^ 32
  | _ => True

/-- Runs in which no delay is too long for the product. -/
def Run (s : State) : Prop :=
  Reach Init (fun s t => ∃ e : Event, s.halted = false ∧ e.Possible s ∧ e.Short ∧ t = step s e) s

/-! Expiry. Both loops do nothing but call handlers that are due and clear their slots. -/

namespace State

def expire (s : State) (t h : Nat) : State := (s.call t h).clear t

theorem call_clear (s : State) (t h : Nat) : (s.clear t).call t h = s.expire t h := by
  simp only [expire, call, clear, putLife, update_self]

theorem handler_clear (s : State) (t u : Nat) :
    (s.clear t).handler u = if u = t then none else s.handler u := by
  by_cases same : u = t
  · simp [handler, clear, same]
  · simp [handler, clear, same]

theorem elapseat_clear (s : State) (t u : Nat) : (s.clear t).elapseat u = s.elapseat u := by
  by_cases same : u = t
  · simp [elapseat, clear, same]
  · simp [elapseat, clear, same]

theorem handler_expire (s : State) (t h u : Nat) :
    (s.expire t h).handler u = if u = t then none else s.handler u := handler_clear ..

theorem elapseat_expire (s : State) (t h u : Nat) : (s.expire t h).elapseat u = s.elapseat u :=
  elapseat_clear ..

theorem life_expire (s : State) (t h n : Nat) :
    (s.expire t h).life n = if n = s.last t then { s.life (s.last t) with
      calls := (s.life (s.last t)).calls ++
        [⟨t, h, (s.timer t).param, (s.timer t).context, s.now, (s.life (s.last t)).cancelled⟩] }
    else s.life n := update_apply ..

end State

/-- Time goes on, and some timers that are due expire; the register may be set and the kernel
stopped. -/
inductive Settles : State → State → Prop
  | refl {s} : Settles s s
  | pass {s t} (n : Nat) : Settles (s.pass n) t → Settles s t
  | note {s t} (compare : Nat) (halted : Bool) :
      Settles { s with compare := compare, halted := halted } t → Settles s t
  | expire {s t u h} : s.handler u = some h → s.elapseat u ≤ s.now → Settles (s.expire u h) t →
      Settles s t

theorem adjustSlots_settles (wait : Nat → Nat) (slots : List Nat) (s : State) (next : Nat) :
    Settles s (adjustSlots wait slots (s, next)).1 := by
  induction slots generalizing s next with
  | nil => exact .refl
  | cons tt rest ih =>
    unfold adjustSlots
    split
    · exact ih s next
    · next armed =>
      split
      · dsimp only
        refine .pass (wait tt) ?_
        split
        · next past => exact .expire armed (Nat.le_of_lt past) (ih _ _)
        · exact ih _ _
      · exact ih s next

theorem Settles.trans {s t u : State} (first : Settles s t) (second : Settles t u) : Settles s u := by
  induction first with
  | refl => exact second
  | pass n _ ih => exact .pass n (ih second)
  | note compare halted _ ih => exact .note compare halted (ih second)
  | expire armed due _ ih => exact .expire armed due (ih second)

theorem adjustSysTimer_settles (wait : Nat → Nat) (s : State) : Settles s (adjustSysTimer wait s) := by
  have loop := adjustSlots_settles wait (List.range N_TIMERS) s FOREVER
  unfold adjustSysTimer
  dsimp only
  refine loop.trans (.pass (wait N_TIMERS) ?_)
  split
  · exact .note _ true .refl
  · split
    · exact .refl
    · exact .note _ _ .refl

theorem State.le_pass (s : State) (n : Nat) : s.now ≤ (s.pass n).now := by
  unfold State.pass
  dsimp only
  split
  · omega
  · exact Nat.le_refl _

theorem Settles.now {s t : State} (settles : Settles s t) : s.now ≤ t.now := by
  induction settles with
  | refl => exact Nat.le_refl _
  | pass n _ ih => exact Nat.le_trans (State.le_pass _ n) ih
  | note _ _ _ ih => exact ih
  | expire _ _ _ ih => exact ih

def Quiet (cur : Nat) (s : State) (u : Nat) : Prop := ∀ h, s.handler u = some h → cur < s.elapseat u

theorem quiet_expire {s : State} {cur u t h : Nat} (quiet : u ≠ t → Quiet cur s u) :
    Quiet cur (s.expire t h) u := by
  intro h' armed
  rw [State.handler_expire] at armed
  split at armed
  · cases armed
  · next other =>
    rw [State.elapseat_expire]
    exact quiet other h' armed

theorem Settles.quiet {s t : State} {cur u : Nat} (settles : Settles s t) (quiet : Quiet cur s u) :
    Quiet cur t u := by
  induction settles with
  | refl => exact quiet
  | pass _ _ ih => exact ih quiet
  | note _ _ _ ih => exact ih quiet
  | expire _ _ _ ih => exact ih (quiet_expire fun _ => quiet)

theorem fireSlot_settles (wait : Nat → Nat) {cur : Nat} {s : State} (read : cur ≤ s.now) (t : Nat) :
    Settles s (fireSlot wait cur s t) ∧ Quiet cur (fireSlot wait cur s t) t := by
  unfold fireSlot
  split
  · next none =>
    refine ⟨.refl, fun h armed => ?_⟩
    rw [none] at armed
    cases armed
  · next armed =>
    split
    · next due =>
      rw [State.call_clear]
      have late : s.elapseat t ≤ (s.pass (wait t)).now :=
        Nat.le_trans due (Nat.le_trans read (s.le_pass (wait t)))
      exact ⟨.pass (wait t) (.expire armed late .refl), quiet_expire fun other => absurd rfl other⟩
    · next early => exact ⟨.refl, fun _ _ => Nat.lt_of_not_le early⟩

theorem fireSlots_settles (wait : Nat → Nat) {cur : Nat} (slots : List Nat) {s : State}
    (read : cur ≤ s.now) : Settles s (fireSlots wait cur slots s) ∧
      ∀ u ∈ slots, Quiet cur (fireSlots wait cur slots s) u := by
  induction slots generalizing s with
  | nil => exact ⟨.refl, fun u none => nomatch none⟩
  | cons t rest ih =>
    obtain ⟨first, quiet⟩ := fireSlot_settles wait read t
    obtain ⟨others, quiets⟩ := ih (Nat.le_trans read first.now)
    refine ⟨first.trans others, fun u member => ?_⟩
    rcases mem_cons.mp member with rfl | later
    · exact others.quiet quiet
    · exact quiets u later

/-! The invariant -/

/-- The timer in a slot is the one started there last, and nothing has become of it yet. -/
structure Armed (l : Life) (t h : Nat) (v : Vtimer) : Prop where
  slot : l.slot = t
  handler : l.handler = h
  param : l.param = v.param
  context : l.context = v.context
  elapseat : v.elapseat = l.deadline
  calls : l.calls = []
  cancelled : l.cancelled = false
  dropped : l.dropped = false

structure Inv (s : State) : Prop where
  armed : ∀ t h, s.handler t = some h →
    t < N_TIMERS ∧ s.last t < s.count ∧ Armed (s.life (s.last t)) t h (s.timer t)
  live : ∀ n < s.count, ¬ (s.life n).Done →
    s.handler (s.life n).slot ≠ none ∧ s.last (s.life n).slot = n
  kept : ∀ n < s.count, (s.life n).Kept

theorem Init.inv {s : State} (init : Init s) : Inv s := by
  refine ⟨fun t h armed => ?_, fun n lt => ?_, fun n lt => ?_⟩
  · rw [init.timers] at armed
    cases armed
  · rw [init.none] at lt
    cases lt
  · rw [init.none] at lt
    cases lt

theorem Inv.last_ne {s : State} (inv : Inv s) {t u h k : Nat} (armed : s.handler t = some h)
    (other : s.handler u = some k) (differ : u ≠ t) : s.last u ≠ s.last t := by
  intro same
  have first := (inv.armed t h armed).2.2.slot
  have second := (inv.armed u k other).2.2.slot
  rw [same, first] at second
  exact differ second.symm

theorem Inv.finish {s : State} (inv : Inv s) {t h : Nat} (armed : s.handler t = some h) {v : Vtimer}
    (off : v.handler = none) {l : Life} (done : l.Done) (kept : l.Kept) :
    Inv { s with timer := update s.timer t v, life := update s.life (s.last t) l } := by
  have handlers : ∀ u, (update s.timer t v u).handler = if u = t then none else s.handler u := by
    intro u
    rw [update_apply]
    split
    · exact off
    · rfl
  refine ⟨?_, ?_, ?_⟩
  · intro u k still
    change (update s.timer t v u).handler = some k at still
    rw [handlers] at still
    split at still
    · cases still
    · next other =>
      obtain ⟨slot, known, a⟩ := inv.armed u k still
      refine ⟨slot, known, ?_⟩
      dsimp only
      rw [update_of_ne (inv.last_ne armed still other), update_of_ne other]
      exact a
  · intro n lt live
    dsimp only at live ⊢
    by_cases same : n = s.last t
    · rw [same, update_self] at live
      exact absurd done live
    · rw [update_of_ne same] at live ⊢
      obtain ⟨there, here⟩ := inv.live n lt live
      refine ⟨?_, here⟩
      change (update s.timer t v (s.life n).slot).handler ≠ none
      rw [handlers]
      split
      · grind
      · exact there
  · intro n lt
    dsimp only
    by_cases same : n = s.last t
    · rw [same, update_self]
      exact kept
    · rw [update_of_ne same]
      exact inv.kept n lt

theorem Inv.expire {s : State} (inv : Inv s) {t h : Nat} (armed : s.handler t = some h)
    (due : s.elapseat t ≤ s.now) : Inv (s.expire t h) := by
  obtain ⟨-, -, a⟩ := inv.armed t h armed
  refine inv.finish armed rfl (.inl (by simp)) ⟨?_, ?_, ?_, ?_⟩
  · rw [a.calls]
    exact Nat.le_refl 1
  all_goals
    intro c member
    rw [a.calls] at member
    rw [mem_singleton.mp member]
  · exact ⟨a.slot.symm, a.handler.symm, a.param.symm, a.context.symm⟩
  · exact a.elapseat ▸ due
  · exact a.cancelled

structure Keeps (s t : State) : Prop where
  inv : Inv t
  count : t.count = s.count
  deadline : ∀ n, (t.life n).deadline = (s.life n).deadline

theorem Settles.keeps {s t : State} (settles : Settles s t) (inv : Inv s) : Keeps s t := by
  induction settles with
  | refl => exact ⟨inv, rfl, fun _ => rfl⟩
  | pass n _ ih =>
    have next := ih { inv with }
    exact { next with }
  | note compare halted _ ih =>
    have next := ih { inv with }
    exact { next with }
  | expire armed due _ ih =>
    have next := ih (inv.expire armed due)
    refine ⟨next.inv, next.count, fun n => (next.deadline n).trans ?_⟩
    rw [State.life_expire]
    split
    · next same => rw [same]; rfl
    · rfl

/-! Calls -/

section Calls

variable {s : State}

theorem Inv.arm (inv : Inv s) {t : Nat} (slot : t < N_TIMERS) (none : s.handler t = none)
    {delayms : BitVec 32} (short : 1000 * delayms.toNat < 2 ^ 32) (handler param context : Nat) :
    Inv (s.arm t delayms handler param context) := by
  have product : ticksUnsigned delayms = 1000 * delayms.toNat := by
    rw [ticksUnsigned, BitVec.toNat_mul, BitVec.toNat_ofNat, TICKPERMS, Timers.CLOCKHZ]
    omega
  have handlers : ∀ u, u ≠ t → (s.arm t delayms handler param context).handler u = s.handler u := by
    intro u other
    simp only [State.arm, State.handler, update_of_ne other]
  refine ⟨?_, ?_, ?_⟩
  · intro u h armed
    by_cases same : u = t
    · subst same
      simp only [State.arm, State.handler, update_self] at armed ⊢
      cases armed
      exact ⟨slot, Nat.lt_succ_self _, rfl, rfl, rfl, rfl, by rw [product]; rfl, rfl, rfl, rfl⟩
    · rw [handlers u same] at armed
      obtain ⟨slot', known, a⟩ := inv.armed u h armed
      simp only [State.arm, update_of_ne same]
      rw [update_of_ne (Nat.ne_of_lt known)]
      exact ⟨slot', Nat.lt_succ_of_lt known, a⟩
  · intro n lt live
    by_cases new : n = s.count
    · subst new
      simp only [State.arm, State.handler, update_self] at live ⊢
      exact ⟨by simp, trivial⟩
    · have old : (s.arm t delayms handler param context).life n = s.life n :=
        update_of_ne new ..
      rw [old] at live ⊢
      obtain ⟨there, here⟩ := inv.live n (Nat.lt_of_le_of_ne (Nat.le_of_lt_succ lt) new) live
      have other : (s.life n).slot ≠ t := by
        intro same
        rw [same] at there
        exact there none
      refine ⟨by rw [handlers _ other]; exact there, ?_⟩
      exact (update_of_ne other ..).trans here
  · intro n lt
    by_cases new : n = s.count
    · subst new
      simp only [State.arm, update_self]
      exact ⟨Nat.zero_le 1, by simp, by simp, by simp⟩
    · have old : (s.arm t delayms handler param context).life n = s.life n :=
        update_of_ne new ..
      rw [old]
      exact inv.kept n (Nat.lt_of_le_of_ne (Nat.le_of_lt_succ lt) new)

theorem free_slot {t : Nat} (found : s.free = some t) : t < N_TIMERS ∧ s.handler t = none :=
  ⟨mem_range.mp (mem_of_find?_eq_some found), by simpa using find?_some found⟩

theorem Inv.ktimerStart (inv : Inv s) (wait : Nat → Nat) {delayms : BitVec 32}
    (short : 1000 * delayms.toNat < 2 ^ 32) (handler param context : Nat) :
    Inv (ktimerStart wait delayms handler param context s).2 := by
  unfold Vtimers.ktimerStart
  split
  · exact inv
  · next t found =>
    obtain ⟨slot, none⟩ := free_slot found
    have passed : Inv (s.pass (wait 0)) := { inv with }
    dsimp only
    split
    · exact { inv with }
    · exact ((adjustSysTimer_settles _ _).keeps
        (passed.arm slot none short handler param context)).inv

theorem Inv.ktimerCancel (inv : Inv s) (wait : Nat → Nat) (t : Int) (cur : Nat) :
    Inv (ktimerCancel wait t cur s).2 := by
  unfold Vtimers.ktimerCancel
  split
  · exact inv
  dsimp only
  split
  · exact inv
  · next armed =>
    obtain ⟨-, -, a⟩ := inv.armed _ _ armed
    have kept : ∀ l : Life, l.calls = [] → l.Kept := by
      intro l empty
      refine ⟨by rw [empty]; exact Nat.zero_le 1, ?_, ?_, ?_⟩
      all_goals
        intro c member
        rw [empty] at member
        cases member
    split
    · exact inv.finish armed rfl (.inr (.inr rfl)) (kept _ a.calls)
    · refine ((adjustSysTimer_settles wait _).keeps ?_).inv
      exact inv.finish armed rfl (.inr (.inl rfl)) (kept _ a.calls)

theorem sysTimerIrq_settles (wait wait' : Nat → Nat) {cur : Nat} (read : cur ≤ s.now)
    (matched : Bool) : Settles s (sysTimerIrq wait wait' cur matched s) := by
  unfold sysTimerIrq
  split
  · exact (fireSlots_settles wait _ read).1.trans (adjustSysTimer_settles wait' _)
  · exact .note _ true .refl

end Calls

variable {s : State}

theorem Inv.step (inv : Inv s) {e : Event} (possible : e.Possible s) (short : e.Short) :
    Inv (step s e) := by
  cases e with
  | pass n => exact { inv with }
  | start wait delayms handler param context => exact inv.ktimerStart wait short handler param context
  | cancel wait t cur => exact inv.ktimerCancel wait t cur
  | irq wait wait' cur matched => exact ((sysTimerIrq_settles wait wait' possible matched).keeps inv).inv

theorem Run.inv (run : Run s) : Inv s :=
  Reach.invariant Inv (fun _ init => init.inv)
    (fun _ _ inv ⟨_, _, possible, short, same⟩ => same ▸ inv.step possible short) run

def boot : State where
  now := 0
  timer _ := ⟨none, 0, 0, 0⟩
  compare := 0
  halted := false
  count := 0
  last _ := 0
  life _ := ⟨0, 0, 0, 0, 0, 0, [], false, false⟩

def fired (delayms : BitVec 32) (cur : Nat) : State :=
  step (step (step boot (.start (fun _ => 0) delayms 7 8 9)) (.pass cur))
    (.irq (fun _ => 0) (fun _ => 0) cur true)

theorem Run.after (run : Run s) (e : Event) (running : s.halted = false)
    (possible : e.Possible s) (short : e.Short) : Run (step s e) :=
  run.next ⟨e, running, possible, short, rfl⟩

theorem fired_run : Run (fired 1 1000) := by
  have booted : Run boot := .start ⟨fun _ => rfl, rfl⟩
  have started := booted.after (.start (fun _ => 0) 1 7 8 9) rfl trivial (by decide : _ < _)
  have passed := started.after (.pass 1000) (by decide +kernel) trivial trivial
  exact passed.after (.irq (fun _ => 0) (fun _ => 0) 1000 true) (by decide +kernel)
    (by decide +kernel : 1000 ≤ _) trivial

end UvaOs.Vtimers
