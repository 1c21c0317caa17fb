import UvaOs.Lib.Heed
import UvaOs.Ipc.Pipe
import UvaOs.Ipc.Semaphore
import UvaOs.Ipc.Timer
import UvaOs.Ipc.Devices
import UvaOs.Sched.Killed

/-! What `kill` does to a task that waits for a pipe, the console, the keyboard, a timer or a
child, and what it does not do to one that waits for a semaphore or the sound queue. -/
namespace UvaOs

open Monitor

namespace Pipes

/-- The points between a test of `killed` and a `sleep`. -/
def Point.gap : Point → Bool
  | .wbody .. | .wfull .. | .wsleep .. | .rsleep _ => true
  | _ => false

def Point.size : Point → Nat
  | .pipewrite .. => 4
  | .wtest .. => 3
  | .piperead _ n => n.toNat + 5
  | .rtest r => r.n.toNat + 4
  | .rcopy r i => (r.n - i).toNat + 3
  | .pipeclose _ => 3
  | .wend .. | .rend .. | .cend _ => 2
  | _ => 1

def attentive : Attentive code where
  gap := Point.gap
  size := Point.size
  start := by
    intro d p may
    cases p <;> first | rfl | exact absurd may Bool.false_ne_true
  wakes := by
    intro d i x p k q acts
    cases did acts <;> rfl
  awake := by
    intro d i p k q outside acts
    cases did acts <;> cases outside
  go := by
    intro d i p e q outside acts
    cases did acts with
    | wtest _ _ alive => cases alive
    | rwait _ _ alive => cases alive
    | wfull | wfault | wstore => cases outside
    | rtake more => exact ⟨rfl, by simp only [Point.size]; omega⟩
    | _ => exact ⟨rfl, by simp only [Point.size]; omega⟩
  wakeup := by
    intro d i p k q outside acts
    cases did acts with
    | wrouse => cases outside
    | wend | rend | cend => exact ⟨rfl, Nat.lt_succ_self _⟩

end Pipes

namespace Console

def Point.gap : Point → Bool
  | .doze .. => true
  | _ => false

def Point.size : Point → Nat
  | .consoleread c => 3 * c.n.toNat + 2
  | .loop c k => 3 * (c.n - k).toNat + 1
  | .wait c k => 3 * (c.n - (k + 1)).toNat + 3
  | .take c k => 3 * (c.n - (k + 1)).toNat + 2
  | .consoleintr _ => 3
  | .wake => 2
  | _ => 1

def attentive : Attentive code where
  gap := Point.gap
  size := Point.size
  start := by
    intro d p may
    cases p <;> first | rfl | exact absurd may Bool.false_ne_true
  wakes := by
    intro d i x p k q acts
    cases did acts
    rfl
  awake := by
    intro d i p k q outside acts
    cases did acts
    cases outside
  go := by
    intro d i p e q outside acts
    cases did acts with
    | wait _ alive => cases alive
    | _ => exact ⟨rfl, by simp only [Point.size]; omega⟩
  wakeup := by
    intro d i p k q outside acts
    cases did acts
    exact ⟨rfl, Nat.lt_succ_self _⟩

end Console

namespace Kb

def Point.gap : Point → Bool
  | .doze _ => true
  | _ => false

def Point.size : Point → Nat
  | .kbRead _ | .kbIntr .. => 3
  | .wait _ | .wake => 2
  | _ => 1

def attentive : Attentive code where
  gap := Point.gap
  size := Point.size
  start := by
    intro d p may
    cases p <;> first | rfl | exact absurd may Bool.false_ne_true
  wakes := by
    intro d i x p k q acts
    cases did acts
    rfl
  awake := by
    intro d i p k q outside acts
    cases did acts
    cases outside
  go := by
    intro d i p e q outside acts
    cases did acts with
    | wait _ alive => cases alive
    | _ => exact ⟨rfl, Nat.lt_succ_self _⟩
  wakeup := by
    intro d i p k q outside acts
    cases did acts
    exact ⟨rfl, Nat.lt_succ_self _⟩

end Kb

namespace Timers

def Point.gap : Point → Bool
  | .doze _ => true
  | _ => false

def Point.size : Point → Nat
  | .sysSleep _ | .ktimerStart _ => 65
  | .arm .. | .ktimerCancel .. => 64
  | .adjust tt _ _ => 3 * (N_TIMERS - tt) + 3
  | .expire tt _ _ _ => 3 * (N_TIMERS - (tt + 1)) + 5
  | .unarm tt _ _ => 3 * (N_TIMERS - (tt + 1)) + 4
  | .test .. => 2
  | .irq _ => 105
  | .fire _ t => 2 * (N_TIMERS - t) + 64
  | .callback _ t _ => 2 * (N_TIMERS - (t + 1)) + 65
  | _ => 1

def attentive : Attentive code where
  gap := Point.gap
  size := Point.size
  start := by
    intro d p may
    cases p <;> first | rfl | exact absurd may Bool.false_ne_true
  wakes := by
    intro d i x p k q acts
    cases did acts
    rfl
  awake := by
    intro d i p k q outside acts
    cases did acts
    cases outside
  go := by
    intro d i p e q outside acts
    cases did acts with
    | check alive => cases alive
    | _ => exact ⟨rfl, by simp only [Point.size, N_TIMERS] at *; omega⟩
  wakeup := by
    intro d i p k q outside acts
    cases did acts <;> exact ⟨rfl, by simp only [Point.size]; omega⟩

end Timers

/-- Every `kill` of the task that does not fall between a test of `killed` and its `sleep` is
heeded. -/
def Obeys {σ π κ : Type} [DecidableEq κ] (M : Code σ π κ) (init : State σ π κ → Prop)
    (gap : π → Bool) (i : Nat) : Prop :=
  ∀ s t, Run M (fun _ _ => True) init s → step M s (.kill i) = .ok t →
    (∀ p, s.phase i = .inside p → gap p = false) → Heeds M i t

def Disobeys {σ π κ : Type} [DecidableEq κ] (M : Code σ π κ) (init : State σ π κ → Prop) : Prop :=
  ∃ s t u i k, Run M (fun _ _ => True) init s ∧ step M s (.kill i) = .ok t ∧ Later M t u ∧
    Sleeps u k i

def readerTests : List (Event Pipes.Point) :=
  .call 0 (.piperead (fun _ => true) 1) :: List.replicate 3 (.go 0)

def lowers : List (Event Sems.Point) :=
  Sems.creates 0 ++ [.call 1 (.semp ⟨0, some 0⟩), .go 1, .go 1, .go 1, .go 1]

def fullQueue : Sound.State :=
  ⟨⟨3, 0, 4, 0, 1, 1, false⟩, none, none, fun _ => .out, fun _ => false⟩

def plays : List (Event Sound.Point) := [.call 0 (.soundWrite 1 true), .go 0, .go 0, .go 0]

end UvaOs
