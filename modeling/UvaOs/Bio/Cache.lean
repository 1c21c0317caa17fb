import UvaOs.Bio.Model

/-! The cache cannot be told from the disk. Of the buffers with the same block, only the first
in the list can be in use or hold bytes; this is what `bget` finds, and what `brelse` keeps when
it moves a buffer to the front. -/
namespace UvaOs.Bio

open Prog Bytes State List
open Function (update update_self update_of_ne update_apply)

def Untouched (x : Buf) : Prop := x.refcnt = 0 ∧ x.valid = false

def SameBlock (x y : Buf) : Prop := x.dev = y.dev ∧ x.blockno = y.blockno

def State.On (s : State) (c b : Nat) : Prop := ∃ dev blockno, (s.phase c).on = some (b, dev, blockno)

structure Inv (init : Disk) (s : State) : Prop where
  nodup : s.order.Nodup
  all : ∀ b, b ∈ s.order ↔ b < NBUF
  first : s.order.Pairwise (fun b b' => SameBlock (s.buf b) (s.buf b') → Untouched (s.buf b'))
  asked : ∀ c b dev blockno, (s.phase c).on = some (b, dev, blockno) →
    b < NBUF ∧ (s.buf b).dev = dev ∧ (s.buf b).blockno = blockno
  refs : ∀ b, ∃ H : Finset Nat, (∀ c, c ∈ H ↔ s.On c b) ∧ (s.buf b).refcnt = H.card
  lock : ∀ b c, s.lock b = some c ↔ s.On c b ∧ (s.phase c).locks = true
  clean : ∀ b < NBUF, (s.buf b).valid = true → (∀ c dev blockno, s.phase c ≠ .changed b dev blockno) →
    (s.buf b).data = s.disk (s.buf b).dev (s.buf b).blockno
  held : ∀ c b dev blockno, s.phase c = .held b dev blockno →
    (s.buf b).data = s.disk dev blockno
  disk : s.disk = latest init s.past
  faithful : Faithful init s.past

/-! Fields -/

section Fields

variable (s : State)

theorem putBuf_self (b : Nat) (x : Buf) : (s.putBuf b x).buf b = x := update_self ..

theorem putBuf_ne {b b' : Nat} (x : Buf) (other : b' ≠ b) : (s.putBuf b x).buf b' = s.buf b' :=
  update_of_ne other ..

theorem goTo_self (c : Nat) (p : Phase) : (s.goTo c p).phase c = p := update_self ..

theorem goTo_ne {c c' : Nat} (p : Phase) (other : c' ≠ c) : (s.goTo c p).phase c' = s.phase c' :=
  update_of_ne other ..

theorem put_apply (d : Disk) (dev blockno dev' blockno' : Nat) (x : Buffer) :
    d.put dev blockno x dev' blockno' =
      if dev' = dev ∧ blockno' = blockno then x else d dev' blockno' := by
  by_cases dev_ : dev' = dev <;> by_cases blockno_ : blockno' = blockno <;>
    simp [Disk.put, dev_, blockno_]

end Fields

/-! One buffer for a block -/

section Alone

variable {init : Disk} {s : State} {b b' c : Nat}

section

variable (h : Inv init s)
include h

theorem Inv.on_lt (on : s.On c b) : b < NBUF := by
  obtain ⟨dev, blockno, at_⟩ := on
  exact (h.asked c b dev blockno at_).1

theorem Inv.referenced (on : s.On c b) : (s.buf b).refcnt ≠ 0 := by
  obtain ⟨H, mem, count⟩ := h.refs b
  rw [count]
  exact Finset.card_ne_zero_of_mem ((mem c).mpr on)

theorem Inv.nobody (zero : (s.buf b).refcnt = 0) (c : Nat) : ¬ s.On c b :=
  fun on => h.referenced on zero

theorem Inv.pair (lt : b < NBUF) (lt' : b' < NBUF) (other : b' ≠ b)
    (same : SameBlock (s.buf b) (s.buf b')) (touched : ¬ Untouched (s.buf b)) :
    Untouched (s.buf b') := by
  have sym : SameBlock (s.buf b') (s.buf b) := ⟨same.1.symm, same.2.symm⟩
  let Either (b b' : Nat) : Prop := (SameBlock (s.buf b) (s.buf b') → Untouched (s.buf b')) ∨
    (SameBlock (s.buf b') (s.buf b) → Untouched (s.buf b))
  have either : Either b b' := by
    have : Std.Symm Either := ⟨fun _ _ => Or.symm⟩
    have ordered : s.order.Pairwise Either := h.first.imp Or.inl
    exact ordered.forall ((h.all b).mpr lt) ((h.all b').mpr lt') other.symm
  rcases either with left | right
  · exact left same
  · exact absurd (right sym) touched

theorem Inv.alone (on : s.On c b) (lt' : b' < NBUF) (other : b' ≠ b)
    (same : SameBlock (s.buf b) (s.buf b')) : Untouched (s.buf b') :=
  h.pair (h.on_lt on) lt' other same (fun untouched => h.referenced on untouched.1)

theorem Inv.holder {d : Nat} (on : s.On c b) (on' : s.On d b)
    (locks : (s.phase c).locks = true) (locks' : (s.phase d).locks = true) : d = c := by
  have one := (h.lock b c).mpr ⟨on, locks⟩
  have two := (h.lock b d).mpr ⟨on', locks'⟩
  rw [one] at two
  exact (Option.some.inj two).symm

end

end Alone

theorem Boot.inv {init : Disk} {s : State} (boot : Boot init s) : Inv init s := by
  have out : ∀ c b, ¬ s.On c b := by
    rintro c b ⟨dev, blockno, at_⟩
    rw [boot.phase] at at_
    cases at_
  refine ⟨?_, ?_, ?_, ?_, ?_, ?_, ?_, ?_, ?_, ?_⟩
  · rw [boot.order, nodup_reverse]
    exact nodup_range
  · intro b
    rw [boot.order, mem_reverse, mem_range]
  · refine pairwise_of_forall ?_
    intro b b' _
    exact ⟨(boot.buf b').2, (boot.buf b').1⟩
  · intro c b dev blockno at_
    exact absurd ⟨dev, blockno, at_⟩ (out c b)
  · intro b
    refine ⟨∅, fun c => ?_, (boot.buf b).2⟩
    simp [out c b]
  · grind [boot.lock]
  · intro b _ valid
    rw [(boot.buf b).1] at valid
    cases valid
  · intro c b dev blockno at_
    rw [boot.phase] at at_
    cases at_
  · rw [boot.disk, boot.past]
    rfl
  · rw [boot.past]
    trivial

/-! Steps -/

section Steps

variable {virt fill : Bool} {init : Disk} {s t : State} {b c dev blockno : Nat}

theorem phase_on_goTo {p : Phase} (same : p.on = (s.phase c).on) (c' : Nat) :
    ((s.goTo c p).phase c').on = (s.phase c').on := by
  by_cases me : c' = c
  · subst me
    rw [goTo_self, same]
  · rw [goTo_ne _ _ me]

theorem on_goTo {p : Phase} (same : p.on = (s.phase c).on) (c' b' : Nat) :
    (s.goTo c p).On c' b' ↔ s.On c' b' := by
  unfold State.On
  rw [phase_on_goTo same]

theorem on_enter {p : Phase} (out : s.phase c = .out) (at_ : p.on = some (b, dev, blockno))
    (c' b' : Nat) : (s.goTo c p).On c' b' ↔ s.On c' b' ∨ (c' = c ∧ b' = b) := by
  unfold State.On
  by_cases me : c' = c
  · subst me
    rw [goTo_self, at_, out]
    simp only [Phase.on, Option.some.injEq, Prod.mk.injEq, reduceCtorEq, exists_false, false_or,
      true_and]
    constructor
    · rintro ⟨_, _, rfl, -⟩
      rfl
    · rintro rfl
      exact ⟨dev, blockno, rfl, rfl, rfl⟩
  · rw [goTo_ne _ _ me]
    simp only [me, false_and, or_false]

theorem on_of {p : Phase} (at_ : s.phase c = p) (on : p.on = some (b, dev, blockno)) : s.On c b :=
  ⟨dev, blockno, by rw [at_, on]⟩

theorem Inv.saw (h : Inv init s) {x : Buffer} (same : x = s.disk dev blockno) :
    Inv init (s.saw (.read dev blockno x)) := by
  have right : x = latest init s.past dev blockno := by rw [same, h.disk]
  exact { h with faithful := ⟨right, h.faithful⟩ }

theorem Inv.change (h : Inv init s) {x : Buf} {p : Phase}
    (on : (s.phase c).on = some (b, dev, blockno)) (locks : (s.phase c).locks = true)
    (key : x.dev = (s.buf b).dev ∧ x.blockno = (s.buf b).blockno)
    (refcnt : x.refcnt = (s.buf b).refcnt) (on' : p.on = (s.phase c).on) (locks' : p.locks = true)
    (clean : x.valid = true → p ≠ .changed b dev blockno → x.data = s.disk dev blockno)
    (held : p = .held b dev blockno → x.data = s.disk dev blockno) :
    Inv init ((s.putBuf b x).goTo c p) := by
  have mine : s.On c b := ⟨dev, blockno, on⟩
  obtain ⟨lt, dev_, blockno_⟩ := h.asked c b dev blockno on
  have touched := h.referenced mine
  have ons : ∀ c' b', ((s.putBuf b x).goTo c p).On c' b' ↔ s.On c' b' := on_goTo on'
  refine ⟨h.nodup, h.all, ?_, ?_, ?_, ?_, ?_, ?_, h.disk, h.faithful⟩
  · refine h.first.imp ?_
    intro b₁ b₂ rule same
    simp only [goTo, putBuf, SameBlock, Untouched, update_apply] at *
    grind
  · intro c' b' dev' blockno' there
    have old := h.asked c' b' dev' blockno' ((phase_on_goTo on' c').symm.trans there)
    simp only [goTo, putBuf, update_apply]
    grind
  · intro b'
    obtain ⟨H, mem, count⟩ := h.refs b'
    refine ⟨H, fun c' => (mem c').trans (ons c' b').symm, ?_⟩
    simp only [goTo, putBuf, update_apply]
    grind
  · intro b' c'
    have own := h.lock b' c'
    rw [ons]
    simp only [goTo, putBuf, update_apply]
    grind
  · intro b' lt' valid unchanged
    have old := h.clean b' lt'
    simp only [goTo, putBuf, update_apply] at *
    grind [Phase.on]
  · intro c' b' dev' blockno' there
    -- nobody else has the lock of the buffer
    have alone := h.holder (d := c') mine
    have old := h.held c' b' dev' blockno'
    simp only [goTo, putBuf, update_apply] at *
    grind [State.On, Phase.on, Phase.locks]

theorem Inv.acquired {p : Phase} (h : Inv init s) (at_ : s.phase c = .waiting b dev blockno fill)
    (free : s.lock b = none) (p_ : p = .locked b dev blockno ∨ p = .owned b dev blockno) :
    Inv init ({ s with lock := update s.lock b (some c) }.goTo c p) := by
  have on' : p.on = (s.phase c).on := by grind [Phase.on]
  have ons : ∀ c' b', ({ s with lock := update s.lock b (some c) }.goTo c p).On c' b' ↔
      s.On c' b' := on_goTo on'
  refine ⟨h.nodup, h.all, h.first, ?_, ?_, ?_, ?_, ?_, h.disk, h.faithful⟩
  · intro c' b' dev' blockno' there
    exact h.asked _ _ _ _ ((phase_on_goTo on' c').symm.trans there)
  · intro b'
    obtain ⟨H, mem, count⟩ := h.refs b'
    exact ⟨H, fun c' => (mem c').trans (ons c' b').symm, count⟩
  · intro b' c'
    have own := h.lock b' c'
    rw [ons]
    simp only [goTo, update_apply]
    grind [State.On, Phase.on, Phase.locks]
  · intro b' lt' valid unchanged
    have old := h.clean b' lt'
    simp only [goTo, update_apply] at *
    grind
  · intro c' b' dev' blockno' there
    have old := h.held c' b' dev' blockno'
    simp only [goTo, update_apply] at *
    grind

theorem Inv.wrote (h : Inv init s) (at_ : s.phase c = .changed b dev blockno) :
    Inv init ((({ s with disk := s.disk.put (s.buf b).dev (s.buf b).blockno (s.buf b).data }).saw
      (.write (s.buf b).dev (s.buf b).blockno (s.buf b).data)).goTo c (.held b dev blockno)) := by
  have mine : s.On c b := on_of at_ rfl
  have locks : (s.phase c).locks = true := by
    rw [at_]
    rfl
  obtain ⟨lt, dev_, blockno_⟩ := h.asked c b dev blockno (by rw [at_]; rfl)
  have on' : (Phase.held b dev blockno).on = (s.phase c).on := by
    rw [at_]
    rfl
  rw [dev_, blockno_]
  have apart : ∀ b' < NBUF, b' ≠ b → ¬ Untouched (s.buf b') →
      ¬ ((s.buf b').dev = dev ∧ (s.buf b').blockno = blockno) := by
    rintro b' lt' other touched ⟨d, n⟩
    exact touched (h.alone mine lt' other ⟨dev_.trans d.symm, blockno_.trans n.symm⟩)
  refine ⟨h.nodup, h.all, h.first, ?_, ?_, ?_, ?_, ?_, ?_, h.faithful⟩
  · intro c' b' dev' blockno' there
    exact h.asked _ _ _ _ ((phase_on_goTo on' c').symm.trans there)
  · intro b'
    obtain ⟨H, mem, count⟩ := h.refs b'
    exact ⟨H, fun c' => (mem c').trans (on_goTo on' c' b').symm, count⟩
  · intro b' c'
    refine (h.lock b' c').trans (and_congr (on_goTo on' c' b').symm ?_)
    simp only [goTo, State.saw, update_apply]
    grind [Phase.locks]
  · intro b' lt' valid unchanged
    have old := h.clean b' lt'
    have away := apart b' lt'
    simp only [goTo, State.saw, update_apply, Untouched, put_apply] at *
    grind
  · intro c' b' dev' blockno' there
    have alone := h.holder (d := c') mine
    have old := h.held c' b' dev' blockno'
    have theirs := h.asked c' b' dev' blockno'
    have used := h.referenced (c := c') (b := b')
    have away := apart b'
    simp only [goTo, State.saw, update_apply, Untouched, put_apply] at *
    grind [State.On, Phase.on, Phase.locks]
  · change s.disk.put dev blockno (s.buf b).data = (latest init s.past).put dev blockno _
    rw [h.disk]

theorem Inv.entered (h : Inv init s) (out : s.phase c = .out) {x : Buf} (lt : b < NBUF)
    (key : x.dev = dev ∧ x.blockno = blockno) (refcnt : x.refcnt = (s.buf b).refcnt + 1)
    (keep : (s.buf b).refcnt ≠ 0 → x = { s.buf b with refcnt := x.refcnt })
    (first : s.order.Pairwise (fun b₁ b₂ => SameBlock ((s.putBuf b x).buf b₁)
      ((s.putBuf b x).buf b₂) → Untouched ((s.putBuf b x).buf b₂)))
    (clean : x.valid = true → x = { s.buf b with refcnt := x.refcnt }) :
    Inv init ((s.putBuf b x).goTo c (.waiting b dev blockno fill)) := by
  have ons : ∀ c' b', ((s.putBuf b x).goTo c (.waiting b dev blockno fill)).On c' b' ↔
      s.On c' b' ∨ (c' = c ∧ b' = b) := on_enter out rfl
  have free : ∀ b', ¬ s.On c b' := by
    rintro b' ⟨dev', blockno', on⟩
    rw [out] at on
    cases on
  refine ⟨h.nodup, h.all, first, ?_, ?_, ?_, ?_, ?_, h.disk, h.faithful⟩
  · intro c' b' dev' blockno' there
    have old := h.asked c' b' dev' blockno'
    have used := h.referenced (c := c') (b := b')
    simp only [goTo, putBuf, update_apply] at *
    grind [State.On, Phase.on]
  · intro b'
    obtain ⟨H, mem, count⟩ := h.refs b'
    by_cases here : b' = b
    · subst here
      have new : c ∉ H := fun inside => free b' ((mem c).mp inside)
      refine ⟨insert c H, ?_, ?_⟩
      · grind
      · simp [goTo, putBuf, refcnt, count, Finset.card_insert_of_notMem new]
    · refine ⟨H, ?_, ?_⟩
      · grind
      · simp [goTo, putBuf, here, count]
  · intro b' c'
    have own := h.lock b' c'
    have none := free b'
    rw [ons]
    simp only [goTo, putBuf, update_apply]
    grind [Phase.locks]
  · intro b' lt' valid unchanged
    have old := h.clean b' lt'
    simp only [goTo, putBuf, update_apply] at *
    grind
  · intro c' b' dev' blockno' there
    have old := h.held c' b' dev' blockno'
    have used : s.phase c' = .held b' dev' blockno' → (s.buf b').refcnt ≠ 0 :=
      fun theirs => h.referenced (on_of theirs rfl)
    simp only [goTo, putBuf, update_apply] at *
    grind

theorem pairwise_replace {α : Type} {R R' : α → α → Prop} {as bs : List α} {b : α}
    (h : (as ++ b :: bs).Pairwise R) (nodup : (as ++ b :: bs).Nodup)
    (same : ∀ x y, x ≠ b → y ≠ b → R x y → R' x y) (before : ∀ a ∈ as, R' a b)
    (after : ∀ a ∈ bs, R b a → R' b a) : (as ++ b :: bs).Pairwise R' := by
  obtain ⟨first, rest, across⟩ := pairwise_append.mp h
  obtain ⟨next, last⟩ := pairwise_cons.mp rest
  obtain ⟨-, restNodup, apart⟩ := nodup_append.mp nodup
  have left : ∀ a ∈ as, a ≠ b := fun a inside => apart a inside b (mem_cons_self ..)
  have right : ∀ a ∈ bs, a ≠ b := fun a inside e => (nodup_cons.mp restNodup).1 (e ▸ inside)
  refine pairwise_append.mpr ⟨?_, pairwise_cons.mpr ⟨?_, ?_⟩, ?_⟩
  · exact first.imp_of_mem (fun ha hb r => same _ _ (left _ ha) (left _ hb) r)
  · exact fun a inside => after a inside (next a inside)
  · exact last.imp_of_mem (fun ha hb r => same _ _ (right _ ha) (right _ hb) r)
  · grind

theorem Inv.got (h : Inv init s) (out : s.phase c = .out) (ran : s.bget dev blockno = .ok (b, t)) :
    Inv init (t.goTo c (.waiting b dev blockno fill)) := by
  unfold State.bget at ran
  split at ran
  · next b₀ found =>
    obtain ⟨rfl, rfl⟩ := Prod.mk.inj (Except.ok.inj ran)
    obtain ⟨is, as, bs, order, before⟩ := find?_eq_some_iff_append.mp found
    have key := of_decide_eq_true is
    have lt := (h.all b₀).mp (mem_of_find?_eq_some found)
    refine h.entered out lt key rfl (fun _ => rfl) ?_ (fun _ => rfl)
    have first := h.first
    have nodup := h.nodup
    rw [order] at first nodup ⊢
    refine pairwise_replace first nodup ?_ ?_ ?_
    · intro x y hx hy rule
      rwa [putBuf_ne _ _ hx, putBuf_ne _ _ hy]
    · intro a inside same
      have hidden := before a inside
      have other : a ≠ b₀ := by grind
      rw [putBuf_ne _ _ other, putBuf_self] at same
      grind [State.isBlock, SameBlock]
    · intro a inside rule same
      have other : a ≠ b₀ := by grind
      rw [putBuf_self, putBuf_ne _ _ other] at same
      rw [putBuf_ne _ _ other]
      exact rule same
  · next missing =>
    split at ran
    · next b₀ found =>
      obtain ⟨rfl, rfl⟩ := Prod.mk.inj (Except.ok.inj ran)
      have chosen := find?_some found
      have zero : (s.buf b₀).refcnt = 0 := of_decide_eq_true chosen
      have lt := (h.all b₀).mp (mem_reverse.mp (mem_of_find?_eq_some found))
      have absent : ∀ a ∈ s.order, ¬ ((s.buf a).dev = dev ∧ (s.buf a).blockno = blockno) :=
        fun a inside is => find?_eq_none.mp missing a inside (decide_eq_true is)
      refine h.entered out lt ⟨rfl, rfl⟩ (by rw [zero]) (fun used => absurd zero used) ?_ nofun
      refine (h.first.and h.nodup).imp_of_mem ?_
      rintro x y hx hy ⟨rule, differ⟩ same
      have left := absent x hx
      have right := absent y hy
      simp only [putBuf, SameBlock, update_apply] at *
      grind
    · cases ran

theorem Inv.left (h : Inv init s) (at_ : s.phase c = .held b dev blockno) {order : List Nat}
    (nodup : order.Nodup) (all : ∀ b, b ∈ order ↔ b < NBUF) {x : Buf}
    (x_ : x = { s.buf b with refcnt := (s.buf b).refcnt - 1 })
    (first : order.Pairwise (fun b₁ b₂ => SameBlock ((s.putBuf b x).buf b₁)
      ((s.putBuf b x).buf b₂) → Untouched ((s.putBuf b x).buf b₂))) :
    Inv init (({ s with
      buf := update s.buf b x
      order := order
      lock := update s.lock b none } : State).goTo c .out) := by
  have mine : s.On c b := on_of at_ rfl
  have locks : (s.phase c).locks = true := by
    rw [at_]
    rfl
  obtain ⟨lt, dev_, blockno_⟩ := h.asked c b dev blockno (by rw [at_]; rfl)
  have ons : ∀ c' b', (({ s with
      buf := update s.buf b x
      order := order
      lock := update s.lock b none } : State).goTo c .out).On c' b' ↔
      c' ≠ c ∧ s.On c' b' := by
    intro c' b'
    unfold State.On
    by_cases me : c' = c
    · subst me
      rw [goTo_self]
      simp [Phase.on]
    · rw [goTo_ne _ _ me]
      exact (and_iff_right me).symm
  refine ⟨nodup, all, first, ?_, ?_, ?_, ?_, ?_, h.disk, h.faithful⟩
  · intro c' b' dev' blockno' there
    have old := h.asked c' b' dev' blockno'
    simp only [goTo, update_apply] at *
    grind [Phase.on]
  · intro b'
    obtain ⟨H, mem, count⟩ := h.refs b'
    by_cases here : b' = b
    · subst here
      refine ⟨H.erase c, ?_, ?_⟩
      · intro c'
        rw [ons, Finset.mem_erase, mem]
      · simp [goTo, x_, Finset.card_erase_of_mem ((mem c).mpr mine), ← count]
    · refine ⟨H, ?_, ?_⟩
      · intro c'
        rw [ons, mem]
        grind [State.On, Phase.on]
      · simp [goTo, here, count]
  · intro b' c'
    have own := h.lock b' c'
    have alone := h.holder (d := c') mine
    rw [ons]
    simp only [goTo, update_apply]
    grind [State.On, Phase.on]
  · intro b' lt' valid unchanged
    have old := h.clean b' lt'
    simp only [goTo, update_apply] at *
    grind
  · intro c' b' dev' blockno' there
    have old := h.held c' b' dev' blockno'
    simp only [goTo, update_apply] at *
    grind

theorem Inv.released (h : Inv init s) (at_ : s.phase c = .held b dev blockno)
    (ran : s.brelse c b = .ok t) : Inv init (t.goTo c .out) := by
  have mine : s.On c b := on_of at_ rfl
  have lt := h.on_lt mine
  have touched := h.referenced mine
  unfold State.brelse at ran
  split at ran
  · cases ran
  · dsimp only at ran
    split at ran
    · obtain rfl := Except.ok.inj ran
      have others : ∀ b' ∈ s.order.erase b, b' ≠ b := by grind [h.nodup]
      refine h.left at_ (nodup_cons.mpr ⟨fun inside => others b inside rfl, h.nodup.erase b⟩)
        ?_ rfl (pairwise_cons.mpr ⟨?_, ?_⟩)
      · grind [h.all]
      · intro b' inside same
        have other := others b' inside
        rw [putBuf_self, putBuf_ne _ _ other] at same
        rw [putBuf_ne _ _ other]
        exact h.alone mine ((h.all b').mp (mem_of_mem_erase inside)) other same
      · refine (h.first.sublist erase_sublist).imp_of_mem ?_
        intro x y hx hy rule same
        rw [putBuf_ne _ _ (others x hx), putBuf_ne _ _ (others y hy)] at same
        rw [putBuf_ne _ _ (others y hy)]
        exact rule same
    · obtain rfl := Except.ok.inj ran
      refine h.left at_ h.nodup h.all rfl (h.first.imp_of_mem ?_)
      intro x y _ _ rule same
      simp only [putBuf, SameBlock, Untouched, update_apply] at *
      grind

theorem Inv.filled (h : Inv init s) (at_ : s.phase c = .locked b dev blockno)
    (ran : s.fill virt b dev = .ok t) :
    Inv init ((t.saw (.read dev blockno (t.buf b).data)).goTo c (.held b dev blockno)) := by
  have on : (s.phase c).on = some (b, dev, blockno) := by
    rw [at_]
    rfl
  have locks : (s.phase c).locks = true := by
    rw [at_]
    rfl
  obtain ⟨lt, dev_, blockno_⟩ := h.asked c b dev blockno on
  -- the buffer as it is, or with what was read
  have both : ∃ x : Buf, t = s.putBuf b x ∧ x.dev = (s.buf b).dev ∧
      x.blockno = (s.buf b).blockno ∧ x.refcnt = (s.buf b).refcnt ∧ x.data = s.disk dev blockno := by
    unfold State.fill at ran
    split at ran
    · next valid =>
      obtain rfl := Except.ok.inj ran
      refine ⟨s.buf b, ?_, rfl, rfl, rfl, ?_⟩
      · unfold State.putBuf
        rw [Function.update_eq_self]
      · have same := h.clean b lt valid (fun c' dev' blockno' there => by
          have me := h.holder ⟨dev, blockno, on⟩ (on_of there rfl) locks (by rw [there]; rfl)
          subst me
          rw [at_] at there
          cases there)
        rwa [dev_, blockno_] at same
    · grind
  obtain ⟨x, rfl, d, n, r, data⟩ := both
  have next := h.change (p := .held b dev blockno) on locks ⟨d, n⟩ r on.symm rfl (fun _ _ => data)
    (fun _ => data)
  have same : ((s.putBuf b x).buf b).data = s.disk dev blockno := by
    rw [putBuf_self, data]
  exact next.saw same

theorem Inv.step {e : Event} (h : Inv init s) (ran : Bio.step virt s e = .ok t) : Inv init t := by
  cases e with
  | bget c dev blockno fill => grind [Bio.step, got, Except.ok.inj]
  | acquiresleep c => grind [h.acquired, Bio.step, fill, Except.ok.inj]
  | fill c => grind [Bio.step, filled, Except.ok.inj]
  | modify c f =>
    rw [Bio.step] at ran
    split at ran
    · next b dev blockno at_ =>
      obtain rfl := Except.ok.inj ran
      have on : (s.phase c).on = some (b, dev, blockno) := by
        rw [at_]
        rfl
      exact h.change on (by rw [at_]; rfl) ⟨rfl, rfl⟩ rfl on.symm rfl (fun _ no => absurd rfl no)
        nofun
    · cases ran
  | overwrite c x =>
    rw [Bio.step] at ran
    split at ran
    · next b dev blockno at_ =>
      obtain rfl := Except.ok.inj ran
      have on : (s.phase c).on = some (b, dev, blockno) := by
        rw [at_]
        rfl
      exact h.change on (by rw [at_]; rfl) ⟨rfl, rfl⟩ rfl on.symm rfl (fun _ no => absurd rfl no)
        nofun
    · cases ran
  | bwrite c => grind [Bio.step, wrote, Except.ok.inj, State.bwrite]
  | brelse c => grind [Bio.step, released, Except.ok.inj]

end Steps

theorem Inv.reach {virt : Bool} {init : Disk} {s : State} (reached : Reach (Boot init) (Next virt) s) :
    Inv init s :=
  Reach.invariant (Inv init) (fun _ boot => boot.inv) (fun _ _ h ⟨_, ran⟩ => h.step ran) reached

end UvaOs.Bio
