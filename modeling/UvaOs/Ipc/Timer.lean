import UvaOs.Lib.Monitor

/-! kernel/timer.c: the table of virtual timers, `sys_sleep` and the timer interrupt, on any
number of cores, with a counter that goes on at any time.

The counter has 64 bits and the source assumes that it never wraps around. The compare
register of the device is left out, so that an interrupt may come at any time. -/
namespace UvaOs.Timers

open Monitor

def N_TIMERS : Nat := 20
def CLOCKHZ : Nat := 1000000
def TICKPERMS : Nat := CLOCKHZ / 1000

/-- `(unsigned long)-1`. -/
def FOREVER : Nat := 2 ^ 64 - 1

/-- `wakehandler`, with the task whose `sys_sleep` has started the timer, or another one. -/
inductive Handler where
  | wake (task : Nat)
  | other
  deriving DecidableEq

structure Timer where
  handler : Option Handler
  elapseat : Nat

structure Clock where
  now : Nat
  timer : Nat → Timer

structure Sleep where
  ms : BitVec 32
  c0 : Nat
  t : Nat

/-- `TICKPERMS * delayms`, which is `unsigned` in `ktimer_start_nolock`. -/
def ticksUnsigned (ms : BitVec 32) : Nat := (ms * BitVec.ofNat 32 TICKPERMS).toNat

/-- `ms * TICKPERMS`, which is an `int` in `sys_sleep` and compared with an `unsigned long`. -/
def ticksSigned (ms : BitVec 32) : Nat := ((ms * BitVec.ofNat 32 TICKPERMS).signExtend 64).toNat

inductive Cont where
  | sleep (c : Sleep)
  | finish (r : Int)

/-- The points between the accesses to the timers, the counter and the sleepers. -/
inductive Point where
  | sysSleep (ms : BitVec 32)
  | ktimerStart (ms : BitVec 32)
  | arm (h : Handler) (ms : BitVec 32) (t : Nat) (k : Cont)
  /-- The loop of `adjust_sys_timer` is at slot `tt`. -/
  | adjust (tt next : Nat) (k : Cont)
  | expire (tt : Nat) (h : Handler) (next : Nat) (k : Cont)
  | unarm (tt next : Nat) (k : Cont)
  /-- The loop of `sys_sleep`, for the first time or after `sleep`. -/
  | test (c : Sleep) (first : Bool)
  | check (c : Sleep)
  | doze (c : Sleep)
  /-- `sys_timer_irq` has read the counter. -/
  | irq (cur : Nat)
  | fire (cur t : Nat)
  | callback (cur t : Nat) (h : Handler)
  | ktimerCancel (t cur : Nat)

namespace Clock

def handler (d : Clock) (t : Nat) : Option Handler := (d.timer t).handler

def elapseat (d : Clock) (t : Nat) : Nat := (d.timer t).elapseat

def free (d : Clock) : Option Nat :=
  (List.range N_TIMERS).find? (fun t => decide (d.handler t = none))

def set (d : Clock) (t : Nat) (h : Handler) (elapseat : Nat) : Clock :=
  { d with timer := Function.update d.timer t ⟨some h, elapseat⟩ }

def clear (d : Clock) (t : Nat) : Clock :=
  { d with timer := Function.update d.timer t { d.timer t with handler := none } }

end Clock

def act (d : Clock) (task : Nat) (killed : Bool) : Point → Act Clock Point Nat
  | .sysSleep ms =>
    match d.free with
    | some t => .go d (.arm (.wake task) ms t (.sleep ⟨ms, d.now, t⟩))
    | none => .halt
  | .ktimerStart ms =>
    match d.free with
    | some t => .go d (.arm .other ms t (.finish t))
    | none => .leave d (-1)
  | .arm h ms t k =>
    if FOREVER < d.now + ticksUnsigned ms then .halt
    else .go (d.set t h (d.now + ticksUnsigned ms)) (.adjust 0 FOREVER k)
  | .adjust tt next k =>
    if tt < N_TIMERS then
      match d.handler tt with
      | some h =>
        if d.elapseat tt < next then
          if d.elapseat tt < d.now then .go d (.expire tt h next k)
          else .go d (.adjust (tt + 1) ((d.elapseat tt + 10 * 1000) % 2 ^ 64) k)
        else .go d (.adjust (tt + 1) next k)
      | none => .go d (.adjust (tt + 1) next k)
    else if next < d.now then .halt
    else
      match k with
      | .sleep c => .go d (.test c true)
      | .finish r => .leave d r
  | .expire tt (.wake _) next k => .wakeup tt (.unarm tt next k)
  | .expire tt .other next k => .go d (.unarm tt next k)
  | .unarm tt next k => .go (d.clear tt) (.adjust (tt + 1) next k)
  | .test c _ => if d.now - c.c0 < ticksSigned c.ms then .go d (.check c) else .leave d 0
  | .check c => if killed then .leave d (-1) else .go d (.doze c)
  | .doze c => .sleep c.t (.test c false)
  | .irq cur => .go d (.fire cur 0)
  | .fire cur t =>
    if t < N_TIMERS then
      match d.handler t with
      | some h =>
        if d.elapseat t ≤ cur then .go (d.clear t) (.callback cur t h)
        else .go d (.fire cur (t + 1))
      | none => .go d (.fire cur (t + 1))
    else .go d (.adjust 0 FOREVER (.finish 0))
  | .callback cur t (.wake _) => .wakeup t (.fire cur (t + 1))
  | .callback cur t .other => .go d (.fire cur (t + 1))
  | .ktimerCancel t cur =>
    match d.handler t with
    | some _ =>
      if d.elapseat t < cur then .leave (d.clear t) (-2)
      else .go (d.clear t) (.adjust 0 FOREVER (.finish 0))
    | none => .leave d (-1)

/-- `sys_timer_irq` and `ktimer_cancel` read the counter before they take the lock. -/
def start (d : Clock) : Point → Bool
  | .sysSleep _ | .ktimerStart _ => true
  | .irq cur => cur == d.now
  | .ktimerCancel t cur => t < N_TIMERS && cur == d.now
  | _ => false

def tick (d : Clock) (n : Nat) : Clock :=
  if d.now + n ≤ FOREVER then { d with now := d.now + n } else d

def code : Code Clock Point Nat := ⟨start, act, tick⟩

abbrev State : Type := Monitor.State Clock Point Nat

structure Boot (s : State) : Prop where
  idle : Idle s
  timers : ∀ t i, s.data.handler t ≠ some (.wake i)

inductive Does (d : Clock) (task : Nat) (killed : Bool) : Point → Act Clock Point Nat → Prop
  | sysSleep {ms t} : d.free = some t → Does d task killed (.sysSleep ms)
      (.go d (.arm (.wake task) ms t (.sleep ⟨ms, d.now, t⟩)))
  | full {ms} : d.free = none → Does d task killed (.sysSleep ms) .halt
  | ktimerStart {ms t} : d.free = some t → Does d task killed (.ktimerStart ms)
      (.go d (.arm .other ms t (.finish t)))
  | none_left {ms} : Does d task killed (.ktimerStart ms) (.leave d (-1))
  | wraps {h ms t k} : Does d task killed (.arm h ms t k) .halt
  | arm {h ms t k} : Does d task killed (.arm h ms t k)
      (.go (d.set t h (d.now + ticksUnsigned ms)) (.adjust 0 FOREVER k))
  | expired {tt h next k} : tt < N_TIMERS → d.handler tt = some h → d.elapseat tt < d.now →
      Does d task killed (.adjust tt next k) (.go d (.expire tt h next k))
  | skip {tt next next' k} : tt < N_TIMERS →
      Does d task killed (.adjust tt next k) (.go d (.adjust (tt + 1) next' k))
  | late {tt next k} : Does d task killed (.adjust tt next k) .halt
  | resume {tt next c} : Does d task killed (.adjust tt next (.sleep c)) (.go d (.test c true))
  | finish {tt next r} : Does d task killed (.adjust tt next (.finish r)) (.leave d r)
  | expire {tt i next k} :
      Does d task killed (.expire tt (.wake i) next k) (.wakeup tt (.unarm tt next k))
  | expireOther {tt next k} :
      Does d task killed (.expire tt .other next k) (.go d (.unarm tt next k))
  | unarm {tt next k} :
      Does d task killed (.unarm tt next k) (.go (d.clear tt) (.adjust (tt + 1) next k))
  | early {c first} : d.now - c.c0 < ticksSigned c.ms →
      Does d task killed (.test c first) (.go d (.check c))
  | elapsed {c first} : ticksSigned c.ms ≤ d.now - c.c0 →
      Does d task killed (.test c first) (.leave d 0)
  | killed {c} : killed = true → Does d task killed (.check c) (.leave d (-1))
  | check {c} : killed = false → Does d task killed (.check c) (.go d (.doze c))
  | doze {c : Sleep} : Does d task killed (.doze c) (.sleep c.t (.test c false))
  | irq {cur} : Does d task killed (.irq cur) (.go d (.fire cur 0))
  | fire {cur t h} : t < N_TIMERS → d.handler t = some h → d.elapseat t ≤ cur →
      Does d task killed (.fire cur t) (.go (d.clear t) (.callback cur t h))
  | pass {cur t} : t < N_TIMERS → Does d task killed (.fire cur t) (.go d (.fire cur (t + 1)))
  | fired {cur t} : Does d task killed (.fire cur t) (.go d (.adjust 0 FOREVER (.finish 0)))
  | callback {cur t i} :
      Does d task killed (.callback cur t (.wake i)) (.wakeup t (.fire cur (t + 1)))
  | callOther {cur t} :
      Does d task killed (.callback cur t .other) (.go d (.fire cur (t + 1)))
  | invalid {t cur} : Does d task killed (.ktimerCancel t cur) (.leave d (-1))
  | cancelled {t cur} : Does d task killed (.ktimerCancel t cur) (.leave (d.clear t) (-2))
  | cancel {t cur} : Does d task killed (.ktimerCancel t cur)
      (.go (d.clear t) (.adjust 0 FOREVER (.finish 0)))

theorem does (d : Clock) (task : Nat) (killed : Bool) (p : Point) :
    Does d task killed p (act d task killed p) := by
  cases p with
  | sysSleep ms =>
    simp only [act]
    split
    · rename_i found
      exact .sysSleep found
    · rename_i full
      exact .full full
  | ktimerStart ms =>
    simp only [act]
    split
    · rename_i found
      exact .ktimerStart found
    · exact .none_left
  | arm h ms t k =>
    simp only [act]
    split
    · exact .wraps
    · exact .arm
  | adjust tt next k =>
    simp only [act]
    split
    · rename_i slot
      split
      · rename_i armed
        split
        · split
          · rename_i past
            exact .expired slot armed past
          · exact .skip slot
        · exact .skip slot
      · exact .skip slot
    · split
      · exact .late
      · cases k with
        | sleep c => exact .resume
        | finish r => exact .finish
  | expire tt h next k =>
    cases h with
    | wake i => exact .expire
    | other => exact .expireOther
  | unarm tt next k => exact .unarm
  | test c first =>
    simp only [act]
    split
    · rename_i early
      exact .early early
    · rename_i elapsed
      exact .elapsed (Nat.not_lt.mp elapsed)
  | check c =>
    simp only [act]
    split
    · rename_i dead
      exact .killed dead
    · rename_i alive
      exact .check (Bool.not_eq_true _ ▸ alive)
  | doze c => exact .doze
  | irq cur => exact .irq
  | fire cur t =>
    simp only [act]
    split
    · rename_i slot
      split
      · rename_i armed
        split
        · rename_i past
          exact .fire slot armed past
        · exact .pass slot
      · exact .pass slot
    · exact .fired
  | callback cur t h =>
    cases h with
    | wake i => exact .callback
    | other => exact .callOther
  | ktimerCancel t cur =>
    simp only [act]
    split
    · split
      · exact .cancelled
      · exact .cancel
    · exact .invalid

theorem did {d : Clock} {task : Nat} {killed : Bool} {p : Point} {a : Act Clock Point Nat}
    (acts : code.act d task killed p = a) : Does d task killed p a := acts ▸ does ..

section

variable (d : Clock) (t : Nat) (h : Handler) (elapse : Nat)

@[simp] theorem handler_set : (d.set t h elapse).handler t = some h := by
  simp [Clock.handler, Clock.set]

@[simp] theorem elapseat_set : (d.set t h elapse).elapseat t = elapse := by
  simp [Clock.elapseat, Clock.set]

@[simp] theorem handler_clear : (d.clear t).handler t = none := by
  simp [Clock.handler, Clock.clear]

variable {d t} {u : Nat} (ne : u ≠ t)

include ne

theorem handler_set_other : (d.set t h elapse).handler u = d.handler u := by
  simp [Clock.handler, Clock.set, ne]

theorem elapseat_set_other : (d.set t h elapse).elapseat u = d.elapseat u := by
  simp [Clock.elapseat, Clock.set, ne]

theorem handler_clear_other : (d.clear t).handler u = d.handler u := by
  simp [Clock.handler, Clock.clear, ne]

end

@[simp] theorem elapseat_clear (d : Clock) (t u : Nat) : (d.clear t).elapseat u = d.elapseat u := by
  by_cases e : u = t
  · simp [Clock.elapseat, Clock.clear, e]
  · simp [Clock.elapseat, Clock.clear, e]

theorem of_handler_clear {d : Clock} {t u : Nat} {h : Handler}
    (armed : (d.clear t).handler u = some h) : d.handler u = some h ∧ u ≠ t := by
  by_cases e : u = t
  · rw [e, handler_clear] at armed
    cases armed
  · rw [handler_clear_other e] at armed
    exact ⟨armed, e⟩

theorem free_slot {d : Clock} {t : Nat} (found : d.free = some t) : d.handler t = none := by
  simpa using List.find?_some found

/-! `sys_sleep` when nothing disturbs it -/

/-- The delay, which fits in the 32-bit product. -/
def Fits (ms : BitVec 32) : Prop := 1000 * ms.toNat < 2 ^ 31

theorem Fits.unsigned {ms : BitVec 32} (fits : Fits ms) : ticksUnsigned ms = 1000 * ms.toNat := by
  rw [Fits] at fits
  rw [ticksUnsigned, BitVec.toNat_mul, BitVec.toNat_ofNat, TICKPERMS, CLOCKHZ]
  omega

theorem Fits.signed {ms : BitVec 32} (fits : Fits ms) : ticksSigned ms = 1000 * ms.toNat := by
  have product : (ms * BitVec.ofNat 32 TICKPERMS).toNat = 1000 * ms.toNat := fits.unsigned
  rw [Fits] at fits
  have positive : (ms * BitVec.ofNat 32 TICKPERMS).msb = false := by grind
  rw [ticksSigned, BitVec.signExtend_eq_setWidth_of_msb_false positive, BitVec.toNat_setWidth,
    product]
  omega

end UvaOs.Timers
