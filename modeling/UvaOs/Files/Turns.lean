import UvaOs.Files.Counts

/-! Each step keeps the books of Counts. -/
namespace UvaOs.Files

open List

open UvaOs.Fs (IType Panic)
open Function (update update_self update_of_ne)

variable {w : Closing} {ftable : Ftable} {rest : List Closing} {child f p : Nat} {s s' : State} {t : Task}

/- What was promised for life `n` of entry `f` and what was done, before and after. -/
def Settled (s s' : State) (t t' : Task) : Prop :=
  ∀ f n, ran s' f n + pending f n t' + (if Over s f n then 1 else 0) =
    ran s f n + pending f n t + (if Over s' f n then 1 else 0)

structure Turn (s : State) (p : Nat) (t : Task) (s' : State) : Prop where
  tasks : s'.task = update s.task p t
  sched : s'.sched = s.sched
  live : t.state = .active ∨ t.state = .zombie ∧ t.Idle ∧ Empty t.ofile
  apart : ¬ (s.task p).pc.Forking ∧ ¬ t.pc.Forking
  fits : t.pc.Fits t.ofile
  refs : ∀ f, (s'.ftable f).ref = (s.ftable f).ref + (holds f t - holds f (s.task p))
  born : ∀ f, (s'.ftable f).ref ≠ 0 → 1 ≤ s'.life f
  settled : Settled s s' (s.task p) t

theorem Inv.turn (inv : Inv s) (hp : p < NR_TASKS)
    (active : (s.task p).state = .active) (turn : Turn s p t s') : Inv s' := by
  have self : s'.task p = t := by rw [turn.tasks, update_self]
  have other : ∀ q, q ≠ p → s'.task q = s.task q := fun q ne => by
    rw [turn.tasks, update_of_ne ne]
  have sleeping : ∀ q, (s.task q).state ≠ .active → q ≠ p := fun q h e => h (e ▸ active)
  refine ⟨?_, ?_, ?_, ?_, ?_, ?_, turn.born, ?_⟩
  · intro f
    rw [turn.refs f, turn.tasks, total_update hp, inv.counted f]
  · grind [turn.fits, inv.fits]
  · grind [turn.live.resolve_left, inv.idle]
  · grind [turn.live.resolve_left, inv.emptied]
  · intro q hq child fd pc
    by_cases e : q = p
    · rw [e, self] at pc
      exact absurd ⟨child, fd, pc⟩ turn.apart.2
    · rw [other q e] at pc
      obtain ⟨todo, locked, hc, unused, rest⟩ := inv.forking q hq child fd pc
      have ne : child ≠ p := sleeping child (by rw [unused]; exact TaskState.noConfusion)
      rw [turn.sched, other child ne, other q e]
      exact ⟨todo, locked, hc, unused, rest⟩
  · intro q hq unused
    by_cases e : q = p
    · grind [turn.live]
    · rw [other q e] at unused ⊢
      refine (inv.unused q hq unused).imp id ?_
      rintro ⟨r, hr, fd, pc⟩
      have ne : r ≠ p := fun e => turn.apart.1 ⟨q, fd, e ▸ pc⟩
      exact ⟨r, hr, fd, by rw [other r ne]; exact pc⟩
  · intro f n
    have before := inv.logged f n
    have moved := turn.settled f n
    rw [turn.tasks, total_update hp]
    omega

/-! What becomes of the tables in a turn -/

theorem settled_of_same {t' : Task} (log : s'.log = s.log) (life : s'.life = s.life)
    (used : ∀ f, (s'.ftable f).ref = 0 ↔ (s.ftable f).ref = 0)
    (acts : ∀ f n, pending f n t' = pending f n t) : Settled s s' t t' := by
  intro f n
  have sameOver : Over s' f n ↔ Over s f n := by simp only [Over, life, used]
  rw [acts f n, if_congr sameOver rfl rfl]
  simp only [ran, log]

theorem Inv.own_turn (inv : Inv s) (hp : p < NR_TASKS) (active : (s.task p).state = .active)
    (live : t.state = .active ∨ t.state = .zombie ∧ t.Idle ∧ Empty t.ofile)
    (apart : ¬ (s.task p).pc.Forking ∧ ¬ t.pc.Forking) (fits : t.pc.Fits t.ofile)
    (same : ∀ f, holds f t = holds f (s.task p))
    (acts : ∀ f n, pending f n t = pending f n (s.task p)) : Inv (s.putTask p t) :=
  inv.turn hp active ⟨rfl, rfl, live, apart, fits, fun f => by simp [State.putTask, same f],
    inv.born, settled_of_same rfl rfl (fun _ => Iff.rfl) acts⟩

theorem Inv.fill (inv : Inv s)
    (refs : ∀ f, (ftable f).ref = (s.ftable f).ref) : Inv { s with ftable := ftable } := by
  refine { inv with
      counted := fun f => (refs f).trans (inv.counted f), born := fun f used => inv.born f (refs f ▸ used), logged := ?_ }
  intro f n
  have sameOver : Over { s with ftable := ftable } f n ↔ Over s f n := by simp only [Over, refs]
  rw [if_congr sameOver rfl rfl]
  exact inv.logged f n

theorem Inv.allocated {pc : Pc} (inv : Inv s)
    (hp : p < NR_TASKS) (active : (s.task p).state = .active)
    (alloc : filealloc s.ftable = some (f, ftable))
    (apart : ¬ (s.task p).pc.Forking ∧ ¬ pc.Forking) (fits : pc.Fits (s.task p).ofile)
    (takes : ∀ g, pc.weight g (s.task p).ofile =
      (s.task p).pc.weight g (s.task p).ofile + if f = g then 1 else 0) :
    Inv (s.allocated p f ftable pc) := by
  obtain ⟨_, free, rfl⟩ := filealloc_some alloc
  refine inv.turn (t := { s.task p with pc := pc }) hp active
    ⟨rfl, rfl, .inl active, apart, fits, ?_, ?_, ?_⟩
  · intro g
    simp only [State.allocated, holds, takes g]
    by_cases e : f = g
    · subst e
      simp only [update_self, if_true, free]
      omega
    · simp only [update_of_ne (Ne.symm e), if_neg e]
      omega
  · intro g used
    simp only [State.allocated] at used ⊢
    by_cases e : g = f
    · subst e
      simp
    · rw [update_of_ne e] at used ⊢
      exact inv.born g used
  · intro g n
    have sameOver : Over (s.allocated p f (update s.ftable f { s.ftable f with ref := 1 }) pc)
        g n ↔ Over s g n := by
      simp only [Over, State.allocated]
      by_cases e : g = f
      · grind
      · simp only [update_of_ne e]
    rw [if_congr sameOver rfl rfl]
    rfl

theorem holds_cons (todo : t.todo = w :: rest)
    (f : Nat) : holds f t = w.weight f + holds f { t with todo := rest } := by
  simp only [holds, todo, map_cons, sum_cons]
  omega

theorem pending_cons (todo : t.todo = w :: rest)
    (f n : Nat) : pending f n t = w.acts f n + pending f n { t with todo := rest } := by
  simp only [pending, todo, map_cons, sum_cons]

theorem filedrop_cases (ref : 1 ≤ (ftable f).ref) : 1 < (ftable f).ref ∧ filedrop ftable f =
      .ok (update ftable f { ftable f with ref := (ftable f).ref - 1 }, none) ∨
    (ftable f).ref = 1 ∧ ∃ ff, filedrop ftable f =
      .ok (update ftable f { ftable f with ref := 0, type := .none }, some ff) := by
  by_cases last : (ftable f).ref = 1
  · refine .inr ⟨last, { ftable f with ref := (ftable f).ref - 1 }, ?_⟩
    rw [filedrop, if_neg (by omega), if_neg (by omega)]
  · refine .inl ⟨by omega, ?_⟩
    rw [filedrop, if_neg (by omega), if_pos (by omega)]

theorem filedup_ok (ref : 1 ≤ (ftable f).ref) : ∃ ftable', filedup ftable f = .ok ftable' ∧
      (∀ g, (ftable' g).ref = (ftable g).ref + if f = g then 1 else 0) ∧
      ∀ g, (ftable' g).ref = 0 ↔ (ftable g).ref = 0 := by
  refine ⟨_, by rw [filedup, if_neg (by omega)], ?_, ?_⟩
  · grind
  · grind

/-- A step keeps the books, and when it takes the last reference to an entry the
close action is the next thing that the task does. -/
structure Kept (s : State) (p : Nat) (s' : State) : Prop where
  inv : Inv s'
  last : ∀ g, (s.ftable g).ref ≠ 0 → (s'.ftable g).ref = 0 →
    ∃ ff rest, (s'.task p).todo = .act g (s.life g) ff :: rest

theorem Inv.kept (inv : Inv s')
    (used : ∀ f, (s'.ftable f).ref = 0 → (s.ftable f).ref = 0) : Kept s p s' :=
  ⟨inv, fun g was now => absurd (used g now) was⟩

def Served (s : State) (p : Nat) (r : Except Panic State) : Prop := ∃ s', r = .ok s' ∧ Kept s p s'

theorem Inv.served (inv : Inv s')
    (used : ∀ f, (s'.ftable f).ref = 0 → (s.ftable f).ref = 0 := by exact fun _ h => h) :
    Served s p (.ok s') := ⟨s', rfl, inv.kept used⟩

theorem Inv.dropped (env : Env) (inv : Inv s)
    (hp : p < NR_TASKS) (active : (s.task p).state = .active)
    (todo : (s.task p).todo = .fileclose f :: rest) (apart : ¬ (s.task p).pc.Forking) :
    Served s p (stepClosing s p env rest (.fileclose f)) := by
  have weight := holds_cons todo
  have mine : 1 ≤ (s.ftable f).ref := by
    have le := inv.holds_le hp f
    have base := holds_nonneg (t := ⟨(s.task p).state, (s.task p).ofile, rest, (s.task p).pc⟩)
      (inv.fits p hp) f
    simp only [weight f, Closing.weight, if_true] at le
    omega
  rcases filedrop_cases mine with ⟨more, drop⟩ | ⟨last, ff, drop⟩
  · refine ⟨_, by rw [stepClosing, drop], ⟨?_, ?_⟩⟩
    · refine inv.turn (t := { s.task p with todo := rest }) hp active
        ⟨rfl, rfl, .inl active, ⟨apart, apart⟩, inv.fits p hp, ?_, ?_, ?_⟩
      · intro g
        simp only [weight g, Closing.weight]
        by_cases e : f = g
        · subst e
          simp only [update_self, if_true]
          omega
        · simp only [update_of_ne (Ne.symm e), if_neg e]
          omega
      · intro g used
        by_cases e : g = f
        · subst e
          exact inv.born g (by omega)
        · simp only [update_of_ne e] at used
          exact inv.born g used
      · intro g n
        simp only [pending_cons todo, Closing.acts, ran, Over, State.putTask]
        by_cases e : f = g
        · subst e
          have now : ¬ (s.ftable f).ref = 0 := by omega
          have after : ¬ (s.ftable f).ref - 1 = 0 := by omega
          simp only [update_self, now, after]
          omega
        · simp only [update_of_ne (Ne.symm e)]
          omega
    · intro g was now
      by_cases e : f = g
      · subst e
        simp only [update_self] at now
        omega
      · simp only [update_of_ne (Ne.symm e)] at now
        exact absurd now was
  · have weight' := holds_cons (t := { s.task p with todo := .act f (s.life f) ff :: rest }) rfl
    have acts := pending_cons (t := { s.task p with todo := .act f (s.life f) ff :: rest }) rfl
    have born := inv.born f (by omega)
    refine ⟨_, by rw [stepClosing, drop], ⟨?_, ?_⟩⟩
    · refine inv.turn (t := { s.task p with todo := .act f (s.life f) ff :: rest }) hp active
        ⟨rfl, rfl, .inl active, ⟨apart, apart⟩, inv.fits p hp, ?_, ?_, ?_⟩
      · intro g
        simp only [weight g, weight', Closing.weight]
        by_cases e : f = g
        · grind
        · simp only [update_of_ne (Ne.symm e), if_neg e]
          omega
      · intro g used
        by_cases e : g = f
        · rw [e]
          exact born
        · simp only [update_of_ne e] at used
          exact inv.born g used
      · intro g n
        simp only [acts, pending_cons todo, Closing.acts, ran, Over, State.putTask]
        by_cases e : f = g
        · grind
        · grind
    · intro g was now
      by_cases e : f = g
      · subst e
        exact ⟨ff, rest, by simp [State.putTask]⟩
      · grind

theorem Inv.acted {life : Nat} {ff : File} (env : Env)
    (inv : Inv s) (hp : p < NR_TASKS) (active : (s.task p).state = .active)
    (todo : (s.task p).todo = .act f life ff :: rest) (apart : ¬ (s.task p).pc.Forking) :
    Served s p (stepClosing s p env rest (.act f life ff)) := by
  refine ⟨_, rfl, Inv.kept (inv.turn hp active ⟨rfl, rfl, .inl active, ⟨apart, apart⟩,
    inv.fits p hp, ?_, inv.born, ?_⟩) (fun _ h => h)⟩
  · intro g
    simp [holds, todo, Closing.weight, State.putTask]
  · intro g n
    simp only [pending, todo, ran, map_append, map_replicate, map_cons,
      sum_append, sum_cons, sum_replicate, Closing.acts, nsmul_zero, Over,
      State.putTask]
    omega

section

variable (inv : Inv s) (free : s.sched = none)
include inv free

/- A task that has nothing is replaced by another that has nothing: `memset` on an
unused slot of the task table, and the end of a zombie. -/
theorem Inv.replaced
    (hc : child < NR_TASKS) (wasIdle : (s.task child).Idle) (wasEmpty : Empty (s.task child).ofile)
    (idle : t.Idle) (empty : Empty t.ofile) : Inv (s.putTask child t) := by
  have self : (s.putTask child t).task child = t := update_self ..
  have other : ∀ q, q ≠ child → (s.putTask child t).task q = s.task q :=
    fun q ne => update_of_ne ne ..
  have unforked := inv.unforked free
  refine ⟨?_, ?_, ?_, ?_, ?_, ?_, inv.born, ?_⟩
  · intro f
    simp only [State.putTask, total_update hc, holds_idle wasIdle, holds_idle idle,
      slots_empty wasEmpty, slots_empty empty, inv.counted f]
    omega
  · intro q hq
    by_cases e : q = child
    · rw [e, self, idle.2]; trivial
    · rw [other q e]; exact inv.fits q hq
  · grind [inv.idle]
  · grind [inv.emptied]
  · intro q hq c fd pc
    by_cases e : q = child
    · rw [e, self, idle.2] at pc; cases pc
    · rw [other q e] at pc; exact absurd ⟨c, fd, pc⟩ (unforked q hq)
  · grind [inv.unused_empty]
  · intro f n
    have before := inv.logged f n
    simp only [State.putTask, total_update hc, pending_idle wasIdle, pending_idle idle]
    simp only [ran, Over] at before ⊢
    omega

theorem Inv.reset (found : unusedTask s = some child) (state : TaskState) :
    Inv (s.putTask child { Task.zero with state := state }) := by
  obtain ⟨hc, unused⟩ := unusedTask_some found
  exact inv.replaced free hc (inv.idle child hc (by rw [unused]; exact TaskState.noConfusion))
    (inv.unused_empty free hc unused) ⟨rfl, rfl⟩ (fun _ _ => rfl)

theorem Inv.copyKthread : Inv (copyKthread s) := by
  unfold UvaOs.Files.copyKthread
  split
  case h_1 child found =>
    have reset := inv.reset free found .active
    exact { reset with }
  case h_2 => exact inv

end

section

variable (inv : Inv s) (hp : p < NR_TASKS) (active : (s.task p).state = .active)
include inv hp active

theorem Inv.forked {fd : Nat} {c : Task} {pc' : Pc}
    (pc : (s.task p).pc = .forkFds child fd) (idle : c.Idle)
    (tasks : s'.task = update (update s.task child c) p { s.task p with pc := pc' })
    (goes : c.state = .unused ∧ s'.sched = s.sched ∧ pc' = .forkFds child (fd + 1) ∧
        (∀ a < NOFILE, fd + 1 ≤ a → c.ofile a = none) ∨
      c.state = .active ∧ s'.sched = none ∧ pc' = .idle)
    (refs : ∀ f, (s'.ftable f).ref =
      (s.ftable f).ref + (slots f c.ofile - slots f (s.task child).ofile))
    (used : ∀ f, (s'.ftable f).ref = 0 ↔ (s.ftable f).ref = 0)
    (life : s'.life = s.life) (log : s'.log = s.log) : Inv s' := by
  obtain ⟨todo, locked, hc, unused, rest⟩ := inv.forking p hp child fd pc
  have ne : p ≠ child := by
    rintro rfl
    rw [active] at unused
    cases unused
  have wasIdle := inv.idle child hc (by rw [unused]; exact TaskState.noConfusion)
  have self : s'.task p = { s.task p with pc := pc' } := by rw [tasks, update_self]
  have born : s'.task child = c := by
    rw [tasks, update_of_ne (Ne.symm ne), update_self]
  have other : ∀ q, q ≠ p → q ≠ child → s'.task q = s.task q := fun q e e' => by
    rw [tasks, update_of_ne e, update_of_ne e']
  have alone : ∀ q < NR_TASKS, q ≠ p → ¬ (s.task q).pc.Forking := by
    rintro q hq e ⟨c', fd', h⟩
    have mine := (inv.forking q hq c' fd' h).2.1
    rw [locked] at mine
    exact e (Option.some.inj mine).symm
  have sum : ∀ w : Task → Int, w { s.task p with pc := pc' } = w (s.task p) →
      total NR_TASKS w s'.task = total NR_TASKS w s.task + (w c - w (s.task child)) := by
    grind [total_update, update_of_ne]
  have weightless : ∀ f, pc'.weight f (s.task p).ofile = (s.task p).pc.weight f (s.task p).ofile := by
    intro f
    rw [pc]
    rcases goes with ⟨_, _, rfl, _⟩ | ⟨_, _, rfl⟩ <;> rfl
  refine ⟨?_, ?_, ?_, ?_, ?_, ?_, ?_, ?_⟩
  · intro f
    have own : holds f { s.task p with pc := pc' } = holds f (s.task p) := by
      simp only [holds, weightless]
    rw [sum (holds f) own, holds_idle idle, holds_idle wasIdle, refs f, inv.counted f]
  · intro q hq
    by_cases e : q = p
    · rw [e, self]
      rcases goes with ⟨_, _, rfl, _⟩ | ⟨_, _, rfl⟩ <;> trivial
    · by_cases e' : q = child
      · rw [e', born, idle.2]; trivial
      · rw [other q e e']; exact inv.fits q hq
  · grind [inv.idle]
  · grind [inv.emptied]
  · intro q hq c' fd' h
    by_cases e : q = p
    · grind
    · by_cases e' : q = child
      · rw [e', born, idle.2] at h; cases h
      · rw [other q e e'] at h; exact absurd ⟨c', fd', h⟩ (alone q hq e)
  · intro q hq h
    by_cases e : q = p
    · rw [e, self] at h
      simp only [active] at h
      cases h
    · by_cases e' : q = child
      · grind
      · rw [other q e e'] at h ⊢
        refine .inl ((inv.unused q hq h).resolve_right ?_)
        rintro ⟨r, hr, fd', h'⟩
        by_cases e2 : r = p
        · rw [e2, pc] at h'; cases h'; exact e' rfl
        · exact alone r hr e2 ⟨q, fd', h'⟩
  · intro f h
    rw [life]
    exact inv.born f (fun z => h ((used f).mpr z))
  · intro f n
    have sameOver : Over s' f n ↔ Over s f n := by simp only [Over, life, used]
    rw [sum (pending f n) rfl, pending_idle idle, pending_idle wasIdle, if_congr sameOver rfl rfl,
      ← inv.logged f n]
    simp only [ran, log]
    omega

theorem Inv.locked (free : s.sched = none)
    (todo : (s.task p).todo = []) (pc : (s.task p).pc = .fork) (hc : child < NR_TASKS)
    (unused : (s.task child).state = .unused) (empty : Empty (s.task child).ofile) :
    Inv { s.putTask p { s.task p with pc := .forkFds child 0 } with sched := some p } := by
  have ne : child ≠ p := by
    rintro rfl
    rw [active] at unused
    cases unused
  have unforked := inv.unforked free
  set t : Task := { s.task p with pc := .forkFds child 0 } with ht
  have self : update s.task p t p = t := update_self ..
  have other : ∀ q, q ≠ p → update s.task p t q = s.task q :=
    fun q ne => update_of_ne ne ..
  have sum : ∀ w : Task → Int, w t = w (s.task p) →
      total NR_TASKS w (update s.task p t) = total NR_TASKS w s.task := by
    intro w same
    rw [total_update hp, same]
    omega
  refine ⟨?_, ?_, ?_, ?_, ?_, ?_, inv.born, ?_⟩ <;> simp only [State.putTask]
  · grind [inv.counted, holds, Pc.weight]
  · intro q hq
    by_cases e : q = p
    · rw [e, self]; trivial
    · rw [other q e]; exact inv.fits q hq
  · grind [inv.idle]
  · intro q hq zombie
    by_cases e : q = p
    · grind
    · rw [other q e] at zombie ⊢; exact inv.emptied q hq zombie
  · intro q hq c fd h
    by_cases e : q = p
    · subst e
      rw [self] at h
      cases h
      rw [self, other child ne]
      exact ⟨todo, rfl, hc, unused, fun a ha _ => empty a ha⟩
    · rw [other q e] at h; exact absurd ⟨c, fd, h⟩ (unforked q hq)
  · intro q hq h
    by_cases e : q = p
    · grind
    · rw [other q e] at h ⊢
      exact .inl (inv.unused_empty free hq h)
  · intro f n
    rw [sum (pending f n) rfl]
    exact inv.logged f n

theorem Inv.copyBegin (free : s.sched = none)
    (todo : (s.task p).todo = []) (pc : (s.task p).pc = .fork) : Inv (copyBegin s p) := by
  unfold UvaOs.Files.copyBegin
  split
  case h_2 =>
    refine inv.own_turn hp active (.inl active) ⟨?_, ?_⟩ trivial ?_ (fun _ _ => rfl)
    · rintro ⟨c, fd, h⟩; rw [pc] at h; cases h
    · rintro ⟨c, fd, h⟩; cases h
    · intro f; simp only [holds, pc, Pc.weight]
  case h_1 child found =>
    obtain ⟨hc, unused⟩ := unusedTask_some found
    have reset : Inv (s.putTask child Task.zero) := inv.reset free found .unused
    have ne : p ≠ child := by
      rintro rfl
      rw [active] at unused
      cases unused
    have same : (s.putTask child Task.zero).task p = s.task p := update_of_ne ne ..
    have zero : (s.putTask child Task.zero).task child = Task.zero := update_self ..
    have step := reset.locked hp (by rw [same]; exact active) free (by rw [same]; exact todo)
      (by rw [same]; exact pc) hc (by rw [zero]; rfl) (by rw [zero]; exact fun _ _ => rfl)
    rw [same] at step
    exact { step with }

end

end UvaOs.Files
