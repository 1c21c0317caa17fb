import UvaOs.Io.Read
import UvaOs.Ipc.Pipe

/-! No read stores or returns more than it was asked for: pipes, the console and the keyboard,
in any interleaving, and everything that `fileread` answers by itself. -/
namespace UvaOs

open Monitor

/-- A read that was asked for `n` bytes stores only bytes below `n` and returns no more. `asked`
is the length of the read that is at a point, and `stores` tells which bytes of the buffer its
next step may write. -/
def Limited {σ π κ : Type} [DecidableEq κ] (M : Code σ π κ) (init : State σ π κ → Prop)
    (asked : π → Option Int) (stores : σ → π → Nat → Prop) : Prop :=
  ∀ s i p n, Run M (fun _ _ => True) init s → s.phase i = .inside p → asked p = some n →
    (∀ j, stores s.data p j → (j : Int) < max n 0) ∧ ∀ r, Returns M s i p r → r ≤ max n 0

namespace Pipes

def Point.asked : Point → Option Int
  | .piperead _ n => some n
  | .rtest r | .rsleep r | .rcopy r _ | .rend r _ | .rleave r _ => some r.n
  | _ => none

def stores (d : Pipe) : Point → Nat → Prop
  | .rcopy r i, j => j = i ∧ (i : Int) < r.n ∧ ¬ d.Empty ∧ r.dst i = true
  | _, _ => False

def Point.Inside : Point → Prop
  | .rcopy r i | .rend r i | .rleave r i => (i : Int) ≤ max r.n 0
  | _ => True

theorem inside_passes : Passes code Point.Inside where
  start := by
    intro d p may
    cases p <;> trivial
  go := by
    intro d i x p e q inside acts
    cases did acts with
    | rready => exact Int.le_max_right ..
    | rdone done => exact inside
    | rempty | rfault => exact inside
    | rtake more => simp only [Point.Inside] at inside ⊢; omega
    | _ => trivial
  wakeup := by
    intro d i x p k q inside acts
    cases did acts with
    | rend => exact inside
    | _ => trivial
  sleep := by
    intro d i x p k q inside acts
    cases did acts <;> trivial

theorem limited : Limited code Boot Point.asked stores := by
  intro s i p n run inside asked
  refine ⟨?_, ?_⟩
  · intro j stored
    cases p with
    | rcopy r k =>
      obtain ⟨rfl, more, _⟩ := stored
      cases asked
      omega
    | _ => exact stored.elim
  · rintro r ⟨_, d, acts⟩
    have bound := inside_passes.inside (fun _ boot => boot.idle) run inside
    cases did acts with
    | rfails => omega
    | rleave => cases asked; exact bound
    | _ => cases asked

end Pipes

namespace Console

def Point.asked : Point → Option Int
  | .consoleread c | .loop c _ | .wait c _ | .doze c _ | .take c _ => some c.n
  | _ => none

def stores (d : Cons) : Point → Nat → Prop
  | .take c k, j => j = k ∧ d.get d.r ≠ 4 ∧ c.dst k = true
  | _, _ => False

def Point.Inside : Point → Prop
  | .loop c k => (k : Int) ≤ max c.n 0
  | .wait c k | .doze c k | .take c k => (k : Int) < c.n
  | _ => True

theorem inside_passes : Passes code Point.Inside where
  start := by
    intro d p may
    cases p <;> trivial
  go := by
    intro d i x p e q inside acts
    cases did acts with
    | consoleread => exact Int.le_max_right ..
    | loop more => exact more
    | wait | ready => exact inside
    | take => simp only [Point.Inside] at inside ⊢; omega
    | stored => trivial
  wakeup := by
    intro d i x p k q inside acts
    cases did acts
    trivial
  sleep := by
    intro d i x p k q inside acts
    cases did acts
    exact inside

theorem limited : Limited code Idle Point.asked stores := by
  intro s i p n run inside asked
  have bound := inside_passes.inside (fun _ idle => idle) run inside
  refine ⟨?_, ?_⟩
  · intro j stored
    cases p with
    | take c k =>
      obtain ⟨rfl, _⟩ := stored
      cases asked
      simp only [Point.Inside] at bound
      omega
    | _ => exact stored.elim
  · rintro r ⟨_, d, acts⟩
    cases did acts with
    | killed => omega
    | full => cases asked; exact bound
    | eof | fault | line => cases asked; simp only [Point.Inside] at bound; omega
    | _ => cases asked

end Console

namespace Kb

def Point.asked : Point → Option Int
  | .kbRead c | .wait c | .doze c | .take c => some c.n
  | _ => none

def stores (_ : Keyboard) : Point → Nat → Prop
  | .take c, j => TXTSIZE ≤ c.n ∧ j < textLength
  | _, _ => False

theorem limited : Limited code Idle Point.asked stores := by
  intro s i p n run inside asked
  have text : textLength = 8 := rfl
  have size : TXTSIZE = 20 := rfl
  refine ⟨?_, ?_⟩
  · intro j stored
    cases p with
    | take c =>
      obtain ⟨room, below⟩ := stored
      cases asked
      omega
    | _ => exact stored.elim
  · rintro r ⟨_, d, acts⟩
    cases did acts with
    | nothing | fails | small | fault => omega
    | take room => cases asked; omega
    | done => cases asked

end Kb

namespace Io

def Outcome.asks (n : Int) : Outcome → Prop
  | .piperead m | .consoleread m | .kbRead m _ => m = n
  | .returns .. | .spins => True

theorem readDevice_asks {env : Env} {n : Int} {s t : State} {outcome : Outcome}
    (run : readDevice env n s = .ok (outcome, t)) : outcome.asks n := by
  unfold readDevice at run
  split at run
  · split at run <;> cases run
    rfl
  · cases run
    rfl
  · have same := Prod.mk.inj (Except.ok.inj run)
    rw [← same.1, kb0Read]
    split
    · trivial
    · split
      · trivial
      · split
        · split <;> trivial
        · split
          · trivial
          · split <;> trivial
  · cases run
    trivial
  · cases run
    trivial
  · cases run
    trivial

theorem fileread_asks {env : Env} {n : Int} {s t : State} {outcome : Outcome}
    (run : fileread env n s = .ok (outcome, t)) : outcome.asks n := by
  unfold fileread at run
  split at run
  · cases run
    trivial
  · split at run
    · cases run
      rfl
    · exact readDevice_asks run
    · unfold readInode at run
      dsimp only at run
      split at run <;> cases run
      trivial
    · unfold readFat at run
      split at run
      · split at run
        · cases run
          trivial
        · split at run
          · cases run
          · generalize fRead env.disk (toUint n) _ = result at run
            obtain ⟨ok, n1, fp'⟩ := result
            dsimp only at run
            split at run <;> cases run <;> trivial
      · split at run
        · cases run
          trivial
        · split at run
          · cases run
            trivial
          · cases run
            trivial
          · split at run <;> cases run
            trivial
    · unfold procfsRead at run
      split at run
      · cases run
      · dsimp only at run
        split at run <;> cases run
        trivial
    · cases run

/-- For every `int` n: a read of a pipe, the console or the keyboard stays inside of the buffer
in every run; and a read of a file, a directory, a procfs file or another device does so, and
moves the offset by what it returns, exactly if it is `Answered`. -/
theorem read_stays_inside {s : State} {n : Int} (opened : Opened s) (lo : -2 ^ 31 ≤ n)
    (hi : n < 2 ^ 31) : (Keeps s n ↔ Answered s n) ∧
    (∀ env outcome t, fileread env n s = .ok (outcome, t) → outcome.asks n) ∧
    Limited Pipes.code Pipes.Boot Pipes.Point.asked Pipes.stores ∧
    Limited Console.code Idle Console.Point.asked Console.stores ∧
    Limited Kb.code Idle Kb.Point.asked Kb.stores :=
  ⟨keeps_iff opened lo hi, fun _ _ _ => fileread_asks, Pipes.limited, Console.limited, Kb.limited⟩

theorem openFile_reads_two : Answered openFile 2 ∧ Keeps openFile 2 :=
  have answered : Answered openFile 2 := fun _ => .inl (by decide)
  ⟨answered, (read_stays_inside openFile_opened (by decide) (by decide)).1.mpr answered⟩

/- `read(fd, p, -1)` stores and returns the whole file. -/
theorem negative_read_exceeds : ∃ env out t, fileread env (-1) openFile =
    .ok (.returns 72192 out, t) := by
  obtain ⟨out, t, run⟩ := fileread_inode (n := -1) ⟨2 ^ 32, true, fun _ => true, .last, none⟩
    openFile_opened rfl rfl (by decide) (Nat.zero_le _) (by decide)
  exact ⟨_, out, t, run⟩

end Io

end UvaOs
