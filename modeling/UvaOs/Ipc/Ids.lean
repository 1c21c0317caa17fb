import UvaOs.Ipc.Vtimers

/-! Cancelling a timer by its number. The number is a slot, and the slot is given out again as soon
as the timer has fired or was cancelled. -/
namespace UvaOs.Vtimers

open Prog
open UvaOs.Timers (N_TIMERS)

def AnyRun (s : State) : Prop :=
  Reach Init (fun s t => ∃ e : Event, s.halted = false ∧ e.Possible s ∧ t = step s e) s

/-- What a call on behalf of timer `n` may do: it cancels no other timer, and if `n` is over, it
says so and changes nothing. -/
structure Spares (s : State) (n : Nat) (r : Int) (u : State) : Prop where
  others : ∀ m, m ≠ n → (u.life m).cancelled = (s.life m).cancelled ∧
    (u.life m).dropped = (s.life m).dropped
  reported : (s.life n).Done → (r = -1 ∨ r = -2) ∧ u = s

def Fresh (s : State) : Prop :=
  ∀ t h, s.handler t = some h → t < N_TIMERS ∧ s.last t < s.count ∧
    (s.life (s.last t)).slot = t ∧ ¬ (s.life (s.last t)).Done

variable {s u : State} {t h : Nat}

theorem Fresh.finish (fresh : Fresh s) (armed : s.handler t = some h) {v : Vtimer}
    (off : v.handler = none) (l : Life) : Fresh { s with
      timer := Function.update s.timer t v
      life := Function.update s.life (s.last t) l } := by
  intro x k still
  by_cases same : x = t
  · simp only [State.handler, same, Function.update_self, off] at still
    cases still
  · simp only [State.handler, Function.update_of_ne same] at still
    obtain ⟨below, known, slot, live⟩ := fresh x k still
    have apart : s.last x ≠ s.last t := by
      intro e
      rw [e, (fresh t h armed).2.2.1] at slot
      exact same slot.symm
    simp only [Function.update_of_ne apart]
    exact ⟨below, known, slot, live⟩

theorem Fresh.settles (fresh : Fresh s) (settles : Settles s u) : Fresh u := by
  induction settles with
  | refl => exact fresh
  | pass _ _ ih => exact ih fresh
  | note _ _ _ ih => exact ih fresh
  | expire armed _ _ ih => exact ih (fresh.finish armed rfl _)

theorem Fresh.arm (fresh : Fresh s) (below : t < N_TIMERS) (delayms : BitVec 32)
    (handler param context : Nat) : Fresh (s.arm t delayms handler param context) := by
  intro x h armed
  by_cases same : x = t
  · subst same
    simp [State.arm, Life.Done, below]
  · simp only [State.arm, State.handler, Function.update_of_ne same] at armed ⊢
    obtain ⟨inside, known, slot, live⟩ := fresh x h armed
    rw [Function.update_of_ne (Nat.ne_of_lt known)]
    exact ⟨inside, Nat.lt_succ_of_lt known, slot, live⟩

theorem Fresh.step (fresh : Fresh s) {e : Event} (possible : e.Possible s) : Fresh (step s e) := by
  cases e with
  | pass n => exact fresh
  | start wait delayms handler param context =>
    change Fresh (ktimerStart ..).2
    unfold ktimerStart
    split
    · exact fresh
    · next found =>
      have passed : Fresh (s.pass (wait 0)) := fresh
      dsimp only
      split
      · exact fresh
      · exact (passed.arm (free_slot found).1 delayms handler param context).settles (adjustSysTimer_settles _ _)
  | cancel wait t cur =>
    change Fresh (ktimerCancel ..).2
    unfold ktimerCancel
    split
    · exact fresh
    · dsimp only
      split
      · exact fresh
      · next armed =>
        split
        · exact fresh.finish armed rfl _
        · refine Fresh.settles ?_ (adjustSysTimer_settles _ _)
          exact fresh.finish armed rfl _
  | irq wait wait' cur matched => exact fresh.settles (sysTimerIrq_settles wait wait' possible matched)

theorem AnyRun.fresh (run : AnyRun s) : Fresh s := by
  refine Reach.invariant Fresh ?_ ?_ run
  · intro s init t h armed
    rw [init.timers] at armed
    cases armed
  · rintro s _ fresh ⟨e, _, possible, rfl⟩
    exact fresh.step possible

theorem Settles.flags (settles : Settles s u) (n : Nat) :
    (u.life n).cancelled = (s.life n).cancelled ∧ (u.life n).dropped = (s.life n).dropped := by
  induction settles with
  | refl => exact ⟨rfl, rfl⟩
  | pass _ _ ih => exact ih
  | note _ _ _ ih => exact ih
  | @expire s _ t h _ _ _ ih =>
    rw [State.life_expire] at ih
    split at ih
    · next same =>
      rw [same] at ih ⊢
      exact ih
    · exact ih

/- A timer has fired, and its slot has been given to a second one. -/
def reused : State := step (fired 1 1000) (.start (fun _ => 0) 1 7 8 9)

end UvaOs.Vtimers
