import UvaOs.Bio.Model
import UvaOs.Lib.Ring

/-! The list of buffers in kernel/bio.c with its pointers. A step is a section under
`bcache.lock`; what tasks do to a buffer between `bget` and `brelse`, and how they wait for it,
does not matter here. -/
namespace UvaOs.Bio.Lru

open Prog List
open Function (update update_of_ne update_apply)

/-- `&bcache.head`; the buffers are the numbers below. -/
def HEAD : Nat := NBUF

structure Links where
  next : Nat → Nat
  prev : Nat → Nat

namespace Links

def setNext (k : Links) (b x : Nat) : Links := { k with next := update k.next b x }

def setPrev (k : Links) (b x : Nat) : Links := { k with prev := update k.prev b x }

def unlink (k : Links) (b : Nat) : Links :=
  let k := k.setPrev (k.next b) (k.prev b)
  k.setNext (k.prev b) (k.next b)

def insert (k : Links) (b : Nat) : Links :=
  let k := k.setNext b (k.next HEAD)
  let k := k.setPrev b HEAD
  let k := k.setPrev (k.next HEAD) b
  k.setNext HEAD b

def binit (k : Links) : Links :=
  (List.range NBUF).foldl insert ((k.setPrev HEAD HEAD).setNext HEAD HEAD)

/-- The buffers of `l` from `head.next` on, and backwards from `head.prev` on. -/
structure Holds (k : Links) (l : List Nat) : Prop where
  next : Linked k.next HEAD l HEAD
  prev : Linked k.prev HEAD l.reverse HEAD
  nodup : (HEAD :: l).Nodup

end Links

/-- A loop over the list; `none` if it does not come back to the head in time. -/
def scan (next : Nat → Nat) (test : Nat → Bool) : Nat → Nat → Option (Option Nat)
  | 0, _ => none
  | fuel + 1, b =>
    if b = HEAD then some none
    else if test b then some (some b) else scan next test fuel (next b)

structure State where
  links : Links
  dev : Nat → Nat
  blockno : Nat → Nat
  refcnt : Nat → Nat
  /-- Tasks with the buffers that they obtained and did not release yet. -/
  holders : List (Nat × Nat)
  releases : Nat
  /-- Which release was the last one of a buffer, 0 for none. -/
  released : Nat → Nat

inductive Stop where
  | panic
  | endless
  | blocked

def State.isBlock (s : State) (dev blockno b : Nat) : Bool :=
  decide (s.dev b = dev ∧ s.blockno b = blockno)

def State.isFree (s : State) (b : Nat) : Bool := decide (s.refcnt b = 0)

/-- `bget` up to `release(&bcache.lock)`. -/
def bget (s : State) (dev blockno : Nat) : Except Stop (Nat × State) :=
  match scan s.links.next (s.isBlock dev blockno) (NBUF + 1) (s.links.next HEAD) with
  | none => .error .endless
  | some (some b) => .ok (b, { s with refcnt := update s.refcnt b (s.refcnt b + 1) })
  | some none =>
    match scan s.links.prev s.isFree (NBUF + 1) (s.links.prev HEAD) with
    | none => .error .endless
    | some (some b) => .ok (b, { s with
        dev := update s.dev b dev, blockno := update s.blockno b blockno
        refcnt := update s.refcnt b 1 })
    | some none => .error .panic

/-- `brelse` after `releasesleep`. -/
def brelse (s : State) (b : Nat) : State :=
  let s := { s with refcnt := update s.refcnt b (s.refcnt b - 1) }
  if s.refcnt b = 0 then { s with links := (s.links.unlink b).insert b } else s

inductive Event where
  | bget (task dev blockno : Nat)
  | brelse (task b : Nat)

def step (s : State) : Event → Except Stop State
  | .bget c dev blockno =>
    match bget s dev blockno with
    | .ok (b, t) => .ok { t with holders := (c, b) :: t.holders }
    | .error e => .error e
  | .brelse c b =>
    if (c, b) ∈ s.holders then
      .ok { brelse s b with
        holders := s.holders.erase (c, b), releases := s.releases + 1
        released := update s.released b (s.releases + 1) }
    else .error .blocked

/-- `binit`, on zeroed memory. -/
structure Boot (s : State) : Prop where
  links : ∃ k : Links, s.links = k.binit
  zero : ∀ b, s.dev b = 0 ∧ s.refcnt b = 0
  holders : s.holders = []
  released : s.releases = 0 ∧ ∀ b, s.released b = 0

def Next (s t : State) : Prop := ∃ e, step s e = .ok t

/-! The list -/

section Surgery

variable {k : Links} {l m : List Nat} {b : Nat}

theorem Links.Holds.unlink (h : k.Holds (l ++ b :: m)) : (k.unlink b).Holds (l ++ m) := by
  have back : (l ++ b :: m).reverse = m.reverse ++ b :: l.reverse := by simp
  have prev := h.prev
  rw [back] at prev
  have ahead : k.next b = m.headD HEAD := (linked_head.mp (linked_append.mp h.next).2).1
  have behind : k.prev b = l.reverse.headD HEAD := (linked_head.mp (linked_append.mp prev).2).1
  have last : l.reverse.headD HEAD = l.getLastD HEAD := by simp
  have first : m.reverse.getLastD HEAD = m.headD HEAD := by simp
  have nodup := h.nodup
  have other : k.next b ≠ b := by
    rw [ahead]
    cases m <;> grind
  refine ⟨?_, ?_, by grind⟩
  · have forth := h.next.unlink h.nodup
    rw [← last, ← behind] at forth
    simpa [Links.unlink, setNext, setPrev, update_of_ne other.symm] using forth
  · have forth := prev.unlink (by grind)
    rw [first, ← ahead, ← reverse_append] at forth
    exact forth

theorem Links.Holds.insert (h : k.Holds l) (new : b ∉ HEAD :: l) : (k.insert b).Holds (b :: l) := by
  have other : b ≠ HEAD := fun same => new (same ▸ mem_cons_self)
  have first : l.reverse.getLastD HEAD = k.next HEAD := by simp [(linked_head.mp h.next).1]
  refine ⟨?_, ?_, ?_⟩
  · simpa [Links.insert, setNext, setPrev] using h.next.push h.nodup new
  · have back := h.prev.concat (b := b) (by simpa using h.nodup) (by simpa using new)
    rw [first] at back
    simpa [Links.insert, setNext, setPrev, update_of_ne other.symm] using back
  · simp only [nodup_cons, mem_cons] at *
    grind [h.nodup]

theorem Links.binit_holds (k : Links) : k.binit.Holds (List.range NBUF).reverse := by
  have run : ∀ n ≤ NBUF, ((List.range n).foldl Links.insert
      ((k.setPrev HEAD HEAD).setNext HEAD HEAD)).Holds (List.range n).reverse := by
    intro n le
    induction n with
    | zero =>
      refine ⟨?_, ?_, nodup_singleton HEAD⟩ <;>
        simp [Linked, Links.setNext, Links.setPrev]
    | succ n ih =>
      rw [range_succ, foldl_append, reverse_append]
      refine (ih (Nat.le_of_succ_le le)).insert ?_
      simp only [mem_cons, mem_reverse, mem_range, HEAD]
      omega
  exact run NBUF (Nat.le_refl NBUF)

theorem scan_linked {next : Nat → Nat} {a : Nat} (test : Nat → Bool) (h : Linked next a l HEAD)
    (inner : HEAD ∉ l) : ∀ fuel, l.length < fuel → scan next test fuel (next a) = some (l.find? test) := by
  induction l generalizing a with
  | nil =>
    intro fuel enough
    obtain ⟨fuel, rfl⟩ := Nat.exists_eq_add_of_lt enough
    exact if_pos h
  | cons b l ih =>
    intro fuel enough
    obtain ⟨at_, rest⟩ := h
    obtain ⟨fuel, rfl⟩ : ∃ n, fuel = n + 1 := ⟨fuel - 1, by omega⟩
    have other : b ≠ HEAD := fun same => inner (same ▸ mem_cons_self)
    rw [at_, scan, if_neg other, find?_cons]
    cases test b with
    | true => rfl
    | false =>
      exact ih rest (fun member => inner (mem_cons_of_mem b member)) fuel
        (Nat.lt_of_succ_lt_succ enough)

end Surgery

/-! Runs -/

/-- The list `l` has every buffer, and those that are free in the order of their last release. -/
structure Inv (s : State) (l : List Nat) : Prop where
  links : s.links.Holds l
  all : ∀ b, b ∈ l ↔ b < NBUF
  sorted : l.Pairwise fun b b' => s.refcnt b = 0 → s.refcnt b' = 0 → s.released b' ≤ s.released b
  stamps : ∀ b, s.released b ≤ s.releases
  unique : ∀ b < NBUF, ∀ b' < NBUF, s.dev b ≠ 0 → s.dev b = s.dev b' → s.blockno b = s.blockno b' →
    b = b'
  inside : ∀ c b, (c, b) ∈ s.holders → b < NBUF
  refs : ∀ b, s.refcnt b = s.holders.countP (·.2 = b)

section Runs

variable {s t : State} {l : List Nat} {b c dev blockno : Nat}

theorem Boot.inv (boot : Boot s) : Inv s (List.range NBUF).reverse := by
  obtain ⟨k, links⟩ := boot.links
  refine ⟨links ▸ k.binit_holds, by simp, ?_, ?_, ?_, ?_, ?_⟩
  · exact pairwise_of_forall (by simp [boot.released.2])
  all_goals simp [boot.released, boot.zero, boot.holders]

theorem Inv.length (h : Inv s l) : l.length = NBUF := by
  have same : l.toFinset = Finset.range NBUF := by
    ext b
    simp [h.all]
  rw [← toFinset_card_of_nodup (nodup_cons.mp h.links.nodup).2, same, Finset.card_range]

theorem Inv.bget_eq (h : Inv s l) : bget s dev blockno =
    match l.find? (s.isBlock dev blockno) with
    | some b => .ok (b, { s with refcnt := update s.refcnt b (s.refcnt b + 1) })
    | none =>
      match l.reverse.find? s.isFree with
      | some b => .ok (b, { s with
          dev := update s.dev b dev, blockno := update s.blockno b blockno
          refcnt := update s.refcnt b 1 })
      | none => .error .panic := by
  have inner := (nodup_cons.mp h.links.nodup).1
  have size := h.length
  rw [bget, scan_linked _ h.links.next inner _ (by omega),
    scan_linked _ h.links.prev (by simpa using inner) _ (by simp [size])]
  cases l.find? (s.isBlock dev blockno) <;> cases l.reverse.find? s.isFree <;> rfl

theorem Inv.oldest (h : Inv s l) (found : l.reverse.find? s.isFree = some b) :
    b < NBUF ∧ s.refcnt b = 0 ∧ ∀ b' < NBUF, s.refcnt b' = 0 → s.released b ≤ s.released b' := by
  obtain ⟨free, before, behind, eq, none⟩ := find?_eq_some_iff_append.mp found
  have sorted := pairwise_reverse.mpr h.sorted
  rw [eq] at sorted
  have members : ∀ b', b' ∈ before ++ b :: behind ↔ b' < NBUF := by
    intro b'
    rw [← eq, mem_reverse, h.all]
  simp only [State.isFree, decide_eq_true_eq] at *
  refine ⟨(members b).mp (by simp), free, ?_⟩
  intro b' lt free'
  have older := (pairwise_cons.mp (pairwise_append.mp sorted).2.1).1 b'
  rcases mem_append.mp ((members b').mpr lt) with early | late
  · grind
  · rcases mem_cons.mp late with rfl | late
    · exact Nat.le_refl _
    · exact older late free' free

theorem Inv.bget_cases (h : Inv s l) (ran : Lru.bget s dev blockno = .ok (b, t)) : b < NBUF ∧
    (t = { s with refcnt := update s.refcnt b (s.refcnt b + 1) } ∨
      ((∀ b' < NBUF, ¬ (s.dev b' = dev ∧ s.blockno b' = blockno)) ∧ s.refcnt b = 0 ∧
        (∀ b' < NBUF, s.refcnt b' = 0 → s.released b ≤ s.released b') ∧ t = { s with
          dev := update s.dev b dev, blockno := update s.blockno b blockno
          refcnt := update s.refcnt b 1 })) := by
  rw [h.bget_eq] at ran
  split at ran
  · rename_i found
    cases ran
    exact ⟨(h.all b).mp (mem_of_find?_eq_some found), .inl rfl⟩
  · rename_i none
    split at ran
    · rename_i found
      cases ran
      obtain ⟨lt, free, oldest⟩ := h.oldest found
      refine ⟨lt, .inr ⟨?_, free, oldest, rfl⟩⟩
      intro b' lt'
      simpa [State.isBlock] using find?_eq_none.mp none b' ((h.all b').mpr lt')
    · cases ran

theorem Inv.bget (h : Inv s l) (ran : Lru.bget s dev blockno = .ok (b, t)) :
    Inv { t with holders := (c, b) :: t.holders } l := by
  obtain ⟨lt, cases_⟩ := h.bget_cases ran
  have inside : ∀ c' b', (c', b') ∈ (c, b) :: s.holders → b' < NBUF := by
    intro c' b' member
    have old := h.inside c' b'
    grind
  rcases cases_ with rfl | ⟨absent, free, -, rfl⟩
  · refine ⟨h.links, h.all, h.sorted.imp ?_, h.stamps, h.unique, inside, ?_⟩
    · grind [update_apply]
    · intro b'
      have old := h.refs b'
      grind [update_apply]
  · refine ⟨h.links, h.all, h.sorted.imp ?_, h.stamps, ?_, inside, ?_⟩
    · grind [update_apply]
    · intro b₁ lt₁ b₂ lt₂
      have old := h.unique b₁ lt₁ b₂ lt₂
      simp only [update_apply]
      grind
    · intro b'
      have old := h.refs b'
      grind [update_apply]

theorem Inv.brelse (h : Inv s l) (holds : (c, b) ∈ s.holders) : ∃ m, Inv { Lru.brelse s b with
      holders := s.holders.erase (c, b), releases := s.releases + 1
      released := update s.released b (s.releases + 1) } m := by
  have stamps : ∀ b', update s.released b (s.releases + 1) b' ≤ s.releases + 1 := by
    intro b'
    have old := h.stamps b'
    grind [update_apply]
  have inside : ∀ c' b', (c', b') ∈ s.holders.erase (c, b) → b' < NBUF :=
    fun c' b' member => h.inside c' b' (mem_of_mem_erase member)
  have refs : ∀ b', update s.refcnt b (s.refcnt b - 1) b' =
      (s.holders.erase (c, b)).countP (·.2 = b') := by
    intro b'
    have old := h.refs b'
    have one := countP_erase (fun x => decide (x.2 = b')) s.holders (c, b)
    grind [update_apply]
  unfold Lru.brelse
  dsimp only
  by_cases last : update s.refcnt b (s.refcnt b - 1) b = 0
  · rw [if_pos last]
    obtain ⟨before, behind, rfl⟩ := append_of_mem ((h.all b).mpr (h.inside c b holds))
    have nodup := h.links.nodup
    refine ⟨b :: (before ++ behind), h.links.unlink.insert (by grind), ?_, ?_, stamps, h.unique,
      inside, refs⟩
    · intro b'
      rw [← h.all]
      grind
    · have sorted := h.sorted.sublist (List.Sublist.append_left (sublist_cons_self b behind) before)
      refine pairwise_cons.mpr ⟨?_, List.Pairwise.imp_of_mem ?_ sorted⟩
      · intro b' member _ _
        change _ ≤ update s.released b (s.releases + 1) b
        rw [Function.update_self]
        exact stamps b'
      · intro b₁ b₂ mem₁ mem₂ old
        grind [update_apply]
  · rw [if_neg last]
    refine ⟨l, h.links, h.all, h.sorted.imp ?_, stamps, h.unique, inside, refs⟩
    intro b₁ b₂ old
    grind [update_apply]

theorem step_cases {e : Event} (ran : step s e = .ok t) :
    (∃ c b dev blockno u, bget s dev blockno = .ok (b, u) ∧
      t = { u with holders := (c, b) :: u.holders }) ∨
    (∃ c b, (c, b) ∈ s.holders ∧ t = { brelse s b with
      holders := s.holders.erase (c, b), releases := s.releases + 1
      released := update s.released b (s.releases + 1) }) := by
  cases e with
  | bget c dev blockno =>
    rw [step] at ran
    split at ran
    · rename_i b u got
      cases ran
      exact .inl ⟨c, b, dev, blockno, u, got, rfl⟩
    · cases ran
  | brelse c b =>
    rw [step] at ran
    split at ran
    · rename_i holds
      cases ran
      exact .inr ⟨c, b, holds, rfl⟩
    · cases ran

theorem Inv.step (h : Inv s l) {e : Event} (ran : Lru.step s e = .ok t) : ∃ m, Inv t m := by
  rcases step_cases ran with ⟨c, b, dev, blockno, u, got, rfl⟩ | ⟨c, b, holds, rfl⟩
  · exact ⟨l, h.bget got⟩
  · exact h.brelse holds

theorem Inv.recycled (h : Inv s l) {e : Event} (ran : Lru.step s e = .ok t)
    (changed : ¬ (t.dev b = s.dev b ∧ t.blockno b = s.blockno b)) :
    s.refcnt b = 0 ∧ ∀ b' < NBUF, s.refcnt b' = 0 → s.released b ≤ s.released b' := by
  rcases step_cases ran with ⟨c, b', dev, blockno, u, got, rfl⟩ | ⟨c, b', holds, rfl⟩
  · rcases (h.bget_cases got).2 with rfl | ⟨-, free, oldest, rfl⟩
    · exact absurd ⟨rfl, rfl⟩ changed
    · obtain rfl : b = b' := by
        by_contra other
        exact changed ⟨update_of_ne other .., update_of_ne other ..⟩
      exact ⟨free, oldest⟩
  · refine absurd ?_ changed
    simp only [Lru.brelse]
    split <;> exact ⟨rfl, rfl⟩

theorem Inv.ends (h : Inv s l) (e : Event) : Lru.step s e ≠ .error .endless := by
  cases e with
  | bget c dev blockno =>
    rw [Lru.step, h.bget_eq]
    cases l.find? (s.isBlock dev blockno) <;> cases l.reverse.find? s.isFree <;> nofun
  | brelse c b =>
    rw [Lru.step]
    split <;> nofun

end Runs

/-- The buffer cache as its clients may rely on it. -/
structure Structured (s : State) : Prop where
  list : ∃ l, s.links.Holds l ∧ ∀ b, b ∈ l ↔ b < NBUF
  unique : ∀ b < NBUF, ∀ b' < NBUF, s.dev b ≠ 0 → s.dev b = s.dev b' → s.blockno b = s.blockno b' →
    b = b'
  refs : ∀ b < NBUF, s.refcnt b = s.holders.countP (·.2 = b)
  ends : ∀ e, step s e ≠ .error .endless
  kept : ∀ e t c b, step s e = .ok t → (c, b) ∈ s.holders →
    t.dev b = s.dev b ∧ t.blockno b = s.blockno b
  oldest : ∀ e t b, step s e = .ok t → ¬ (t.dev b = s.dev b ∧ t.blockno b = s.blockno b) →
    s.refcnt b = 0 ∧ ∀ b' < NBUF, s.refcnt b' = 0 → s.released b ≤ s.released b'

theorem cache_structured {s : State} (reached : Reach Boot Next s) : Structured s := by
  obtain ⟨l, inv⟩ : ∃ l, Inv s l := by
    refine Reach.invariant (fun s => ∃ l, Inv s l) ?_ ?_ reached
    · intro s boot
      exact ⟨_, boot.inv⟩
    · rintro s t ⟨l, inv⟩ ⟨e, ran⟩
      exact inv.step ran
  refine ⟨⟨l, inv.links, inv.all⟩, inv.unique, fun b _ => inv.refs b, inv.ends, ?_, ?_⟩
  · intro e t c b ran holds
    by_contra changed
    have free := (inv.recycled ran changed).1
    rw [inv.refs, countP_eq_zero] at free
    exact free (c, b) holds (decide_eq_true rfl)
  · intro e t b ran changed
    exact inv.recycled ran changed

def booted : State :=
  ⟨Links.binit ⟨fun _ => 0, fun _ => 0⟩, fun _ => 0, fun _ => 0, fun _ => 0, [], 0, fun _ => 0⟩

theorem cache_structured_booted : Boot booted ∧ Structured booted := by
  have boot : Boot booted := ⟨⟨_, rfl⟩, fun _ => ⟨rfl, rfl⟩, rfl, rfl, fun _ => rfl⟩
  exact ⟨boot, cache_structured (.start boot)⟩

end UvaOs.Bio.Lru
