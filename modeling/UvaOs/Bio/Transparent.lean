import UvaOs.Bio.Cache

/-! Whole operations on the cache and on the disk itself. -/
namespace UvaOs.Bio

open Prog Bytes State List

/-! One operation after the other -/

structure Only (init : Disk) (s : State) (c : Nat) (p : Phase) (past : List Access) : Prop where
  inv : Inv init s
  mine : s.phase c = p
  others : ∀ c', c' ≠ c → s.phase c' = .out
  past : s.past = past

def Quiet (s : State) : Prop := ∀ c, s.phase c = .out

namespace Only

variable {init : Disk} {s t : State} {b c dev blockno : Nat} {p p' : Phase} {past : List Access}

theorem disk (o : Only init s c p past) : s.disk = latest init past := by
  rw [o.inv.disk, o.past]

theorem start (h : Inv init s) (quiet : Quiet s) (c : Nat) : Only init s c .out s.past :=
  ⟨h, quiet c, fun c' _ => quiet c', rfl⟩

theorem quiet (o : Only init s c .out past) : Quiet s := by
  intro c'
  by_cases me : c' = c
  · rw [me, o.mine]
  · exact o.others c' me

theorem moved {virt : Bool} {e : Event} {u : State} (o : Only init s c p past)
    (ran : step virt s e = .ok (u.goTo c p')) (phase : u.phase = s.phase) :
    Only init (u.goTo c p') c p' u.past := by
  refine ⟨o.inv.step ran, goTo_self .., ?_, rfl⟩
  intro c' me
  rw [goTo_ne _ _ me, phase]
  exact o.others c' me

theorem steps {virt : Bool} {e : Event} {past' : List Access} (u : State) (o : Only init s c p past)
    (ran : step virt s e = .ok (u.goTo c p')) (phase : u.phase = s.phase) (same : u.past = past') :
    ∃ t, step virt s e = .ok t ∧ Only init t c p' past' :=
  ⟨_, ran, { o.moved ran phase with past := same }⟩

variable (virt : Bool)

theorem bget (o : Only init s c .out past) (dev blockno : Nat) (fill : Bool) :
    ∃ b t, step virt s (.bget c dev blockno fill) = .ok t ∧
      Only init t c (.waiting b dev blockno fill) past := by
  have free : ∀ b, (s.buf b).refcnt = 0 := by
    intro b
    obtain ⟨H, mem, count⟩ := o.inv.refs b
    have empty : H = ∅ := by
      refine Finset.eq_empty_of_forall_notMem ?_
      intro c' inside
      obtain ⟨dev', blockno', there⟩ := (mem c').mp inside
      rw [o.quiet c'] at there
      cases there
    rw [count, empty, Finset.card_empty]
  have got : ∃ b u, s.bget dev blockno = .ok (b, u) ∧ u.phase = s.phase ∧ u.past = s.past := by
    unfold State.bget
    split
    · exact ⟨_, _, rfl, rfl, rfl⟩
    · split
      · exact ⟨_, _, rfl, rfl, rfl⟩
      · next none =>
        have taken := find?_eq_none.mp none 0
          (mem_reverse.mpr ((o.inv.all 0).mpr (by decide)))
        exact absurd (decide_eq_true (free 0)) taken
  obtain ⟨b, u, ran, phase, same⟩ := got
  exact ⟨b, o.steps u (by simp only [step, o.mine, ran]) phase (same.trans o.past)⟩

theorem acquiresleep {fill : Bool} (o : Only init s c (.waiting b dev blockno fill) past) :
    ∃ t, step virt s (.acquiresleep c) = .ok t ∧
      Only init t c (if fill then .locked b dev blockno else .owned b dev blockno) past := by
  have free : s.lock b = none := by
    cases held : s.lock b with
    | none => rfl
    | some c' =>
      obtain ⟨⟨dev', blockno', there⟩, locks⟩ := (o.inv.lock b c').mp held
      by_cases me : c' = c
      · rw [me, o.mine] at locks
        cases locks
      · rw [o.others c' me] at there
        cases there
  exact o.steps { s with lock := Function.update s.lock b (some c) }
    (by simp only [step, o.mine, free, if_true]) rfl o.past

theorem fill (o : Only init s c (.locked b dev blockno) past) (driven : Driven virt dev) :
    ∃ t, step virt s (.fill c) = .ok t ∧ Only init t c (.held b dev blockno)
      (.read dev blockno (latest init past dev blockno) :: past) := by
  have filled : ∃ u, s.fill virt b dev = .ok u ∧ u.phase = s.phase ∧ u.past = s.past ∧
      u.disk = s.disk := by
    unfold State.fill
    rw [if_pos driven]
    split
    · exact ⟨s, rfl, rfl, rfl, rfl⟩
    · exact ⟨_, rfl, rfl, rfl, rfl⟩
  obtain ⟨u, ran, phase, same, disk⟩ := filled
  have stepped : step virt s (.fill c) =
      .ok ((u.saw (.read dev blockno (u.buf b).data)).goTo c (.held b dev blockno)) := by
    simp only [step, o.mine, ran]
  have next := o.moved stepped phase
  have bytes : (u.buf b).data = latest init past dev blockno := by
    have held := next.inv.held c b dev blockno next.mine
    rw [← o.disk, ← disk]
    exact held
  refine ⟨_, stepped, { next with past := ?_ }⟩
  change Access.read dev blockno (u.buf b).data :: u.past = _
  rw [bytes, same, o.past]

theorem modify (o : Only init s c (.held b dev blockno) past) (f : Buffer → Buffer) :
    ∃ t, step virt s (.modify c f) = .ok t ∧ Only init t c (.changed b dev blockno) past ∧
      (t.buf b).data = f (latest init past dev blockno) := by
  have stepped : step virt s (.modify c f) =
      .ok ((s.putBuf b { s.buf b with data := f (s.buf b).data }).goTo c
        (.changed b dev blockno)) := by
    simp only [step, o.mine]
  refine ⟨_, stepped, { o.moved stepped rfl with past := o.past }, ?_⟩
  change ((s.putBuf b { s.buf b with data := f (s.buf b).data }).buf b).data = _
  rw [putBuf_self, ← o.disk, ← o.inv.held c b dev blockno o.mine]

theorem overwrite (o : Only init s c (.owned b dev blockno) past) (x : Buffer) :
    ∃ t, step virt s (.overwrite c x) = .ok t ∧ Only init t c (.changed b dev blockno) past ∧
      (t.buf b).data = x := by
  have stepped : step virt s (.overwrite c x) =
      .ok ((s.putBuf b { s.buf b with data := x }).goTo c (.changed b dev blockno)) := by
    simp only [step, o.mine]
  refine ⟨_, stepped, { o.moved stepped rfl with past := o.past }, ?_⟩
  change ((s.putBuf b { s.buf b with data := x }).buf b).data = _
  rw [putBuf_self]

theorem locked (o : Only init s c p past) (on : p.on = some (b, dev, blockno))
    (locks : p.locks = true) : s.lock b = some c := by
  refine (o.inv.lock b c).mpr ⟨⟨dev, blockno, ?_⟩, ?_⟩
  · rw [o.mine, on]
  · rw [o.mine, locks]

theorem bwrite (o : Only init s c (.changed b dev blockno) past) (driven : Driven virt dev) :
    ∃ t, step virt s (.bwrite c) = .ok t ∧ Only init t c (.held b dev blockno)
      (.write dev blockno (s.buf b).data :: past) := by
  obtain ⟨-, dev_, blockno_⟩ := o.inv.asked c b dev blockno (by rw [o.mine]; rfl)
  have wrote : ∃ u, s.bwrite virt c b = .ok u ∧ u.phase = s.phase ∧
      u.past = .write (s.buf b).dev (s.buf b).blockno (s.buf b).data :: s.past := by
    unfold State.bwrite
    rw [if_neg (not_not_intro (o.locked rfl rfl)), if_pos (by rwa [dev_])]
    exact ⟨_, rfl, rfl, rfl⟩
  rw [dev_, blockno_, o.past] at wrote
  obtain ⟨u, ran, phase, same⟩ := wrote
  exact o.steps u (by simp only [step, o.mine, ran]) phase same

theorem brelse (o : Only init s c (.held b dev blockno) past) :
    ∃ t, step virt s (.brelse c) = .ok t ∧ Only init t c .out past := by
  have released : ∃ u, s.brelse c b = .ok u ∧ u.phase = s.phase ∧ u.past = s.past := by
    unfold State.brelse
    rw [if_neg (not_not_intro (o.locked rfl rfl))]
    dsimp only
    split
    · exact ⟨_, rfl, rfl, rfl⟩
    · exact ⟨_, rfl, rfl, rfl⟩
  obtain ⟨u, ran, phase, same⟩ := released
  exact o.steps u (by simp only [step, o.mine, ran]) phase (same.trans o.past)

section

variable (o : Only init s c .out past)
include o

theorem look (blockno : Nat) (driven : Driven virt dev) :
    ∃ t, play (step virt) s (Bio.look c dev blockno) = .ok t ∧ Only init t c .out
      (.read dev blockno (latest init past dev blockno) :: past) := by
  obtain ⟨b, s₁, ran₁, o₁⟩ := o.bget virt dev blockno true
  obtain ⟨s₂, ran₂, o₂⟩ := o₁.acquiresleep virt
  obtain ⟨s₃, ran₃, o₃⟩ := Only.fill virt o₂ driven
  obtain ⟨s₄, ran₄, o₄⟩ := o₃.brelse virt
  refine ⟨s₄, ?_, o₄⟩
  rw [Bio.look, play_cons ran₁, play_cons ran₂, play_cons ran₃, play_cons ran₄, play]

theorem edit (blockno : Nat) (f : Buffer → Buffer) (driven : Driven virt dev) :
    ∃ t, play (step virt) s (Bio.edit c dev blockno f) = .ok t ∧ Only init t c .out
      (.write dev blockno (f (latest init past dev blockno)) ::
        .read dev blockno (latest init past dev blockno) :: past) := by
  obtain ⟨b, s₁, ran₁, o₁⟩ := o.bget virt dev blockno true
  obtain ⟨s₂, ran₂, o₂⟩ := o₁.acquiresleep virt
  obtain ⟨s₃, ran₃, o₃⟩ := Only.fill virt o₂ driven
  obtain ⟨s₄, ran₄, o₄, bytes⟩ := o₃.modify virt f
  obtain ⟨s₅, ran₅, o₅⟩ := o₄.bwrite virt driven
  obtain ⟨s₆, ran₆, o₆⟩ := o₅.brelse virt
  rw [bytes] at o₆
  refine ⟨s₆, ?_, o₆⟩
  rw [Bio.edit, play_cons ran₁, play_cons ran₂, play_cons ran₃, play_cons ran₄, play_cons ran₅,
    play_cons ran₆, play]

theorem replace (blockno : Nat) (x : Buffer) (driven : Driven virt dev) :
    ∃ t, play (step virt) s (Bio.replace c dev blockno x) = .ok t ∧ Only init t c .out
      (.write dev blockno x :: past) := by
  obtain ⟨b, s₁, ran₁, o₁⟩ := o.bget virt dev blockno false
  obtain ⟨s₂, ran₂, o₂⟩ := o₁.acquiresleep virt
  obtain ⟨s₃, ran₃, o₃, bytes⟩ := Only.overwrite virt o₂ x
  obtain ⟨s₄, ran₄, o₄⟩ := o₃.bwrite virt driven
  obtain ⟨s₅, ran₅, o₅⟩ := o₄.brelse virt
  rw [bytes] at o₅
  refine ⟨s₅, ?_, o₅⟩
  rw [Bio.replace, play_cons ran₁, play_cons ran₂, play_cons ran₃, play_cons ran₄, play_cons ran₅,
    play]

theorem diskRead (sector count : Nat) (driven : Driven virt dev) :
    ∃ t, play (step virt) s (Bio.diskRead c dev sector count) = .ok t ∧ Only init t c .out
      (plainRead (latest init past) dev sector count ++ past) := by
  induction count generalizing s sector past with
  | zero => exact ⟨s, rfl, o⟩
  | succ count ih =>
    obtain ⟨u, first, o₁⟩ := o.look virt sector driven
    obtain ⟨t, more, o₂⟩ := ih o₁ (sector + 1)
    refine ⟨t, ?_, ?_⟩
    · rw [Bio.diskRead, play_append first, more]
    · rw [plainRead, append_assoc]
      exact o₂

theorem diskWrite (sector : Nat) (data : List Buffer) (driven : Driven virt dev) :
    ∃ t, play (step virt) s (Bio.diskWrite c dev sector data) = .ok t ∧ Only init t c .out
      (plainWrite dev sector data ++ past) := by
  induction data generalizing s sector past with
  | nil => exact ⟨s, rfl, o⟩
  | cons x rest ih =>
    obtain ⟨u, first, o₁⟩ := o.replace virt sector x driven
    obtain ⟨t, more, o₂⟩ := ih o₁ (sector + 1)
    refine ⟨t, ?_, ?_⟩
    · rw [Bio.diskWrite, play_append first, more]
    · rw [plainWrite, append_assoc]
      exact o₂

theorem op (op : Op) (driven : Driven virt op.dev) :
    ∃ t, play (step virt) s (op.events c) = .ok t ∧ Only init t c .out
      (op.plain (latest init past) ++ past) := by
  cases op with
  | look dev blockno => exact o.look virt blockno driven
  | edit dev blockno f => exact o.edit virt blockno f driven
  | diskRead dev sector count => exact o.diskRead virt sector count driven
  | diskWrite dev sector data => exact o.diskWrite virt sector data driven

end

end Only

theorem latest_append (init : Disk) (new old : List Access) :
    latest init (new ++ old) = latest (latest init old) new := by
  induction new with
  | nil => rfl
  | cons a new ih =>
    cases a with
    | read dev blockno x => exact ih
    | write dev blockno x => rw [cons_append, latest, latest, ih]

theorem ops_play (virt : Bool) {init : Disk} (ops : List (Nat × Op))
    (driven : ∀ op ∈ ops, Driven virt op.2.dev) {s : State} (h : Inv init s) (quiet : Quiet s) :
    ∃ t, play (step virt) s (ops.flatMap (fun op => op.2.events op.1)) = .ok t ∧ Quiet t ∧
      Inv init t ∧ t.past = plainRun (latest init s.past) (ops.map Prod.snd) ++ s.past := by
  induction ops generalizing s with
  | nil => exact ⟨s, rfl, quiet, h, rfl⟩
  | cons op rest ih =>
    obtain ⟨first, later⟩ := forall_mem_cons.mp driven
    obtain ⟨u, ran, o⟩ := (Only.start h quiet op.1).op virt op.2 first
    obtain ⟨t, more, done, inv, past⟩ := ih later o.inv o.quiet
    refine ⟨t, ?_, done, inv, ?_⟩
    · rw [flatMap_cons, play_append ran, more]
    · rw [past, o.past, latest_append, ← append_assoc]
      rfl

/-- Whatever calls are in progress, every read has returned the bytes last written to its block,
or those the disk had at first, and the disk holds the bytes last written. When no call is in
progress, any operations come to their end, with the accesses of a disk without a cache. -/
theorem cache_is_transparent {virt : Bool} {init : Disk} {s : State}
    (reached : Reach (Boot init) (Next virt) s) :
    Faithful init s.past ∧ s.disk = latest init s.past ∧
    ∀ ops : List (Nat × Op), (∀ op ∈ ops, Driven virt op.2.dev) → Quiet s →
      ∃ t, play (step virt) s (ops.flatMap (fun op => op.2.events op.1)) = .ok t ∧ Quiet t ∧
        t.past = plainRun s.disk (ops.map Prod.snd) ++ s.past ∧
        t.disk = latest s.disk (plainRun s.disk (ops.map Prod.snd)) := by
  have h := Inv.reach reached
  refine ⟨h.faithful, h.disk, ?_⟩
  intro ops driven quiet
  obtain ⟨t, ran, done, inv, past⟩ := ops_play virt ops driven h quiet
  rw [← h.disk] at past
  refine ⟨t, ran, done, past, ?_⟩
  rw [inv.disk, past, latest_append, ← h.disk]

def bootState : State where
  buf _ := ⟨false, 0, 0, 0, zeros⟩
  order := (List.range NBUF).reverse
  lock _ := none
  phase _ := .out
  disk _ _ := zeros
  past := []

theorem bootState_boot : Boot (fun _ _ => zeros) bootState :=
  ⟨fun _ => ⟨rfl, rfl⟩, rfl, fun _ => rfl, fun _ => rfl, rfl, rfl⟩

theorem cache_is_transparent_boot : ∃ t, play (step false) bootState
    (diskWrite 0 DEV_SD0 7 [fun _ => 1] ++ diskRead 0 DEV_SD0 7 1) = .ok t ∧ Quiet t ∧
      t.past = [.read DEV_SD0 7 (fun _ => 1), .write DEV_SD0 7 (fun _ => 1)] := by
  obtain ⟨-, -, ops⟩ := @cache_is_transparent false _ _ (.start bootState_boot)
  obtain ⟨t, ran, quiet, past, -⟩ := ops
    [(0, .diskWrite DEV_SD0 7 [fun _ => 1]), (0, .diskRead DEV_SD0 7 1)] (by decide) (fun _ => rfl)
  refine ⟨t, ran, quiet, past.trans ?_⟩
  have written : bootState.disk.put DEV_SD0 7 (fun _ => 1) DEV_SD0 7 = fun _ => 1 := by
    rw [put_apply, if_pos ⟨rfl, rfl⟩]
  change [Access.read DEV_SD0 7 (bootState.disk.put DEV_SD0 7 (fun _ => 1) DEV_SD0 7), _] = _
  rw [written]

end UvaOs.Bio
