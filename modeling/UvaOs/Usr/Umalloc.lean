import UvaOs.Lib.Prog
import UvaOs.Lib.Ring

/-! usr/libc-simple/umalloc.c: the allocator of Kernighan and Ritchie over `sbrk`. -/
namespace UvaOs.Umalloc

open List

open Function (update update_self update_of_ne)

/-! Model -/

/-- `sizeof(Header)`. -/
def HEADER : Nat := 16

structure Heap where
  /-- The address of the static `base`, below the heap. -/
  base : Nat
  start : Nat
  /-- The current break. -/
  brk : Nat
  /-- `s.ptr` of the header at an address. -/
  ptr : Nat → Nat
  /-- `s.size` of the header at an address. -/
  size : Nat → Nat
  freep : Nat

namespace Heap

def stop (s : Heap) (p : Nat) : Nat := p + HEADER * s.size p

/- Where the loop of `free` ends: `bp` comes after `p`, or `p` is the last block and `bp` is beyond
one of the ends. -/
def Belongs (s : Heap) (bp p : Nat) : Prop :=
  (bp > p ∧ bp < s.ptr p) ∨ (p ≥ s.ptr p ∧ (bp > p ∨ bp < s.ptr p))

instance (s : Heap) (bp p : Nat) : Decidable (s.Belongs bp p) := inferInstanceAs (Decidable (_ ∨ _))

def place (s : Heap) (bp fuel : Nat) : Option Nat :=
  firstFrom s.ptr (fun p => decide (s.Belongs bp p)) fuel s.freep

def joinNext (s : Heap) (bp p : Nat) : Heap :=
  if s.stop bp = s.ptr p then { s with
    size := update s.size bp ((s.size bp + s.size (s.ptr p)) % 2 ^ 32)
    ptr := update s.ptr bp (s.ptr (s.ptr p)) }
  else { s with ptr := update s.ptr bp (s.ptr p) }

def joinPrev (s : Heap) (bp p : Nat) : Heap :=
  if s.stop p = bp then { s with
    size := update s.size p ((s.size p + s.size bp) % 2 ^ 32)
    ptr := update s.ptr p (s.ptr bp) }
  else { s with ptr := update s.ptr p bp }

def putBack (s : Heap) (bp p : Nat) : Heap := { (s.joinNext bp p).joinPrev bp p with freep := p }

end Heap

/-- `fuel` bounds the turns of the loop. -/
def free (fuel ap : Nat) (s : Heap) : Option Heap :=
  (s.place (ap - HEADER) fuel).map (s.putBack (ap - HEADER))

/-- The argument of `sbrk` is an `int`. -/
def sbrkArg (nu : Nat) : Int := (BitVec.ofNat 32 (nu * HEADER)).toInt

/-- `grant` says whether `sbrk` extends a heap with some break; the inner `none` is the null
pointer, and otherwise `freep` is returned. -/
def morecore (fuel : Nat) (grant : Nat → Bool) (nu : Nat) (s : Heap) : Option (Option Heap) :=
  let nu := if nu < 4096 then 4096 else nu
  if grant s.brk then
    let hp := s.brk
    (free fuel (hp + HEADER) { s with
      brk := (s.brk + sbrkArg nu).toNat
      size := update s.size hp nu }).map some
  else some none

/- The block `p` after `prevp`, or its last `nunits` units. -/
def Heap.take (s : Heap) (prevp p nunits : Nat) : Nat × Heap :=
  if s.size p = nunits then
    (p + HEADER, { s with ptr := update s.ptr prevp (s.ptr p), freep := prevp })
  else
    let rest := s.size p - nunits
    let q := p + HEADER * rest
    (q + HEADER, { s with
      size := update (update s.size p rest) q nunits
      freep := prevp })

/-- The loop of `malloc`. It goes on from `prevp` until a block is large enough, or back to
`freep`; then it asks for more memory and starts again. -/
def mallocLoop (grant : Nat → Bool) (nunits : Nat) : Nat → Nat → Heap → Option (Nat × Heap)
  | 0, _, _ => none
  | fuel + 1, prevp, s => do
    let prevp ← firstFrom s.ptr
      (fun prevp => decide (nunits ≤ s.size (s.ptr prevp)) || decide (s.ptr prevp = s.freep)) fuel prevp
    let p := s.ptr prevp
    if nunits ≤ s.size p then some (s.take prevp p nunits)
    else
      match ← morecore fuel grant nunits s with
      | none => some (0, s)
      | some s => mallocLoop grant nunits fuel s.freep s

def units (nbytes : Nat) : Nat := ((nbytes + HEADER - 1) / HEADER + 1) % 2 ^ 32

def malloc (fuel : Nat) (grant : Nat → Bool) (nbytes : Nat) (s : Heap) : Option (Nat × Heap) :=
  let s := if s.freep = 0 then { s with
      ptr := update s.ptr s.base s.base
      freep := s.base
      size := update s.size s.base 0 }
    else s
  mallocLoop grant (units nbytes) fuel s.freep s

/-! The free list -/

/-- The free list is a ring through `base` whose other elements `fs` are blocks of the heap in the
order of their addresses, with something between any two. -/
structure Blocks (s : Heap) (fs : List Nat) : Prop where
  base : 0 < s.base ∧ s.base + HEADER ≤ s.start
  brk : s.start ≤ s.brk ∧ s.brk < s.start + HEADER * 2 ^ 32
  ring : Linked s.ptr s.base fs s.base
  none : s.size s.base = 0
  sorted : fs.Pairwise (fun a b => s.stop a < b)
  within : ∀ a ∈ fs, s.start ≤ a ∧ 0 < s.size a ∧ s.stop a ≤ s.brk
  rover : s.freep ∈ s.base :: fs

/- The bytes from `x` to `y` are in no block of `fs`. -/
def Avoids (s : Heap) (fs : List Nat) (x y : Nat) : Prop := ∀ a ∈ fs, y ≤ a ∨ s.stop a ≤ x

section Blocks

variable {s : Heap} {fs : List Nat}

theorem Blocks.base_lt (h : Blocks s fs) : s.base < s.start :=
  Nat.lt_of_lt_of_le (Nat.lt_add_of_pos_right (by decide)) h.base.2

theorem Blocks.ordered (h : Blocks s fs) : (s.base :: fs).Pairwise (· < ·) := by
  refine pairwise_cons.mpr ⟨fun a member => ?_, h.sorted.imp ?_⟩
  · exact Nat.lt_of_lt_of_le h.base_lt (h.within a member).1
  · intro a b gap
    unfold Heap.stop at gap
    omega

theorem Blocks.nodup (h : Blocks s fs) : (s.base :: fs).Nodup :=
  h.ordered.imp (fun lt => Nat.ne_of_lt lt)

theorem split_sorted {fs : List Nat} {bp top : Nat} (sorted : fs.Pairwise (fun a b => s.stop a < b))
    (apart : Avoids s fs bp top) :
    ∃ lo hi, fs = lo ++ hi ∧ (∀ a ∈ lo, s.stop a ≤ bp) ∧ ∀ a ∈ hi, top ≤ a := by
  induction fs with
  | nil => exact ⟨[], [], rfl, nofun, nofun⟩
  | cons a fs ih =>
    obtain ⟨first, rest⟩ := pairwise_cons.mp sorted
    rcases apart a mem_cons_self with after | before
    · refine ⟨[], a :: fs, rfl, nofun, fun b member => ?_⟩
      rcases mem_cons.mp member with rfl | later
      · exact after
      · have gap := first b later
        unfold Heap.stop at gap
        omega
    · obtain ⟨lo, hi, rfl, below, above⟩ := ih rest (fun b member => apart b (mem_cons_of_mem a member))
      refine ⟨a :: lo, hi, rfl, fun b member => ?_, above⟩
      rcases mem_cons.mp member with rfl | later
      · exact before
      · exact below b later

theorem Blocks.place {lo hi : List Nat} {bp : Nat} (h : Blocks s (lo ++ hi)) (inside : s.start ≤ bp)
    (below : ∀ a ∈ lo, a < bp) (above : ∀ a ∈ hi, bp < a) {fuel : Nat}
    (enough : 2 * (lo ++ hi).length + 2 ≤ fuel) : s.place bp fuel = some (lo.getLastD s.base) := by
  have low : s.base < bp := Nat.lt_of_lt_of_le h.base_lt inside
  obtain ⟨first, -⟩ := linked_append.mp h.ring
  have before : ∀ a ∈ s.base :: lo, a < bp := by grind
  have here := getLastD_mem s.base lo
  have sub : ∀ a ∈ s.base :: lo, a ∈ s.base :: (lo ++ hi) := by grind
  have stops : s.Belongs bp (lo.getLastD s.base) := by
    have less := before _ here
    have next := first.last
    unfold Heap.Belongs
    rw [next]
    cases hi with
    | nil =>
      refine .inr ⟨?_, .inl less⟩
      rcases mem_cons.mp here with top | later
      · exact Nat.le_of_eq top.symm
      · exact Nat.le_of_lt (rel_of_pairwise_cons h.ordered (mem_append_left [] later))
    | cons b hi => exact .inl ⟨less, above b mem_cons_self⟩
  obtain ⟨u, member, holds, found⟩ := h.ring.firstFrom
    (P := fun p => decide (s.Belongs bp p)) h.rover (sub _ here) (decide_eq_true stops)
  have belongs : s.Belongs bp u := of_decide_eq_true holds
  -- along the list the addresses go up, except at the end
  have ends : u = (lo ++ hi).getLastD s.base ∨ u < s.ptr u := by
    rcases h.ring.succ member with last | ⟨v, w, whole⟩
    · exact .inl last
    · grind [h.ordered]
  have less : u < bp := by
    rcases belongs with inner | ⟨back, beyond | under⟩
    · exact inner.1
    · exact beyond
    · grind [h.ring.last]
  have early : u ∈ s.base :: lo := by grind
  have unique : u = lo.getLastD s.base := by
    rcases first.succ early with last | ⟨v, w, whole⟩
    · exact last
    · have next : s.ptr u ∈ s.base :: lo := by
        rw [whole]
        simp
      have order := h.ordered
      rw [← cons_append, whole] at order
      have up : u < s.ptr u :=
        rel_of_pairwise_cons (pairwise_append.mp (pairwise_append.mp order).1).2.1
          mem_cons_self
      have under := before _ next
      unfold Heap.Belongs at belongs
      omega
  rw [← unique]
  exact found fuel enough

end Blocks

/-! Putting a block back -/

structure Apart (s : Heap) (fs : List Nat) (bp : Nat) : Prop where
  start : s.start ≤ bp
  size : 0 < s.size bp
  brk : s.stop bp ≤ s.brk
  avoids : Avoids s fs bp (s.stop bp)

structure Freed (s t : Heap) (fs fs' : List Nat) (bp : Nat) : Prop where
  blocks : Blocks t fs'
  start : t.start = s.start
  brk : t.brk = s.brk
  sizes : ∀ a, a ≠ bp → a ∉ fs → t.size a = s.size a
  avoids : ∀ x y, x < y → y ≤ bp ∨ s.stop bp ≤ x → Avoids s fs x y → Avoids t fs' x y
  large : ∃ a ∈ fs', s.size bp ≤ t.size a

section Free

variable {s : Heap} {lo hi : List Nat} {bp p : Nat}

/- `bp` has `n` units and goes on with `hi'`. -/
structure Grafted (s : Heap) (hi hi' : List Nat) (bp n : Nat) : Prop where
  suffix : hi' <:+ hi
  rest : Rest s.ptr hi' s.base
  size : s.size bp ≤ n
  brk : bp + HEADER * n ≤ s.brk
  gap : ∀ a ∈ hi', bp + HEADER * n < a
  avoids : ∀ x y, x < y → y ≤ bp ∨ s.stop bp ≤ x → Avoids s hi x y → y ≤ bp ∨ bp + HEADER * n ≤ x

theorem joinNext_spec (h : Blocks s (lo ++ hi)) (apart : Apart s (lo ++ hi) bp)
    (above : ∀ a ∈ hi, s.stop bp ≤ a) (next : s.ptr p = hi.headD s.base) :
    ∃ n hi', s.joinNext bp p = { s with
        size := update s.size bp n
        ptr := update s.ptr bp (hi'.headD s.base) } ∧ Grafted s hi hi' bp n := by
  obtain ⟨-, rest⟩ := linked_append.mp h.ring
  have sorted := (pairwise_append.mp h.sorted).2.1
  have limit := h.brk.2
  have inside := apart.brk
  unfold Heap.joinNext
  split
  · next touch =>
    rw [next] at touch ⊢
    cases hi with
    | nil => grind [h.base_lt, apart.start, headD_nil, Heap.stop]
    | cons c hi =>
      simp only [headD_cons] at touch ⊢
      obtain ⟨after, rest'⟩ := linked_head.mp rest
      obtain ⟨start, -, stop⟩ := h.within c (mem_append_right lo mem_cons_self)
      obtain ⟨gap, -⟩ := pairwise_cons.mp sorted
      have whole : (s.size bp + s.size c) % 2 ^ 32 = s.size bp + s.size c := by
        grind [apart.start, Nat.mod_eq_of_lt, Heap.stop, HEADER]
      rw [whole, after]
      refine ⟨_, hi, rfl, suffix_cons c hi, rest', Nat.le_add_right .., ?_, ?_, ?_⟩
      · simp only [Heap.stop, HEADER] at *
        omega
      · grind [Heap.stop, HEADER]
      · intro x y some_ apart_ avoids
        have := avoids c mem_cons_self
        simp only [Heap.stop, HEADER] at *
        omega
  · next gap =>
    refine ⟨s.size bp, hi, ?_, suffix_rfl, rest, Nat.le_refl _, inside, ?_, ?_⟩
    · rw [next, Function.update_eq_self]
    · intro a member
      rw [next] at gap
      cases hi with
      | nil => cases member
      | cons c hi =>
        have first := above c mem_cons_self
        obtain ⟨later, -⟩ := pairwise_cons.mp sorted
        simp only [headD_cons] at gap
        rcases mem_cons.mp member with rfl | more
        · simp only [Heap.stop, HEADER] at *
          omega
        · grind [Heap.stop, HEADER]
    · intro x y _ apart_ _
      exact apart_

/- The parts of the free list around `bp`. -/
structure Around (s : Heap) (lo hi : List Nat) (bp : Nat) : Prop where
  blocks : Blocks s (lo ++ hi)
  apart : Apart s (lo ++ hi) bp
  below : ∀ a ∈ lo, s.stop a ≤ bp
  above : ∀ a ∈ hi, s.stop bp ≤ a

namespace Around

section

variable (g : Around s lo hi bp)
include g

theorem lt {a : Nat} (member : a ∈ s.base :: lo) : a < bp := by
  rcases mem_cons.mp member with rfl | later
  · exact Nat.lt_of_lt_of_le g.blocks.base_lt g.apart.start
  · have before := g.below a later
    have size := (g.blocks.within a (mem_append_left hi later)).2.1
    simp only [Heap.stop, HEADER] at before
    omega

theorem gt {a : Nat} (member : a ∈ hi) : bp < a := by
  have after := g.above a member
  have size := g.apart.size
  simp only [Heap.stop, HEADER] at after
  omega

theorem last_lt : lo.getLastD s.base < bp := g.lt (getLastD_mem ..)

theorem last_mem (touch : s.stop (lo.getLastD s.base) = bp) : lo.getLastD s.base ∈ lo := by
  refine (mem_cons.mp (getLastD_mem ..)).resolve_left fun top => ?_
  have less := g.last_lt
  rw [top] at touch less
  simp only [Heap.stop, g.blocks.none] at touch
  omega

theorem front {ptr : Nat → Nat} {q : Nat} (here : ptr (lo.getLastD s.base) = q)
    (same : ∀ a ∈ s.base :: lo, a ≠ lo.getLastD s.base → ptr a = s.ptr a) :
    Linked ptr s.base lo q := by
  obtain ⟨first, -⟩ := linked_append.mp g.blocks.ring
  have nodup := g.blocks.nodup
  rw [← cons_append] at nodup
  refine (first.retarget (nodup_append.mp nodup).1 q).congr ?_
  intro a member
  by_cases last : a = lo.getLastD s.base
  · rw [last, here, update_self]
  · rw [update_of_ne last]
    exact same a member last

theorem before_last {a : Nat} (member : a ∈ lo)
    (other : a ≠ lo.getLastD s.base) : s.stop a < lo.getLastD s.base := by
  obtain ⟨sorted, -, -⟩ := pairwise_append.mp g.blocks.sorted
  rcases eq_nil_or_concat' lo with rfl | ⟨lo', p, rfl⟩
  · cases member
  · rw [getLastD_concat] at other ⊢
    rcases mem_append.mp member with early | last
    · exact (pairwise_append.mp sorted).2.2 a early p (mem_singleton.mpr rfl)
    · exact absurd (mem_singleton.mp last) other

end

variable {lo' hi' : List Nat} {n b m q : Nat} {ptr size : Nat → Nat}

section

variable (g : Around s lo hi bp) (graft : Grafted s hi hi' bp n)
include g graft

/- What the two ways to put a block back have in common: it ends up in the block `b`, of `m`
units, between `lo'` and `hi'`. -/
theorem freed (front : lo' <+: lo)
    (ring : Linked ptr s.base (lo' ++ b :: hi') s.base) (rover : q ∈ s.base :: (lo' ++ b :: hi'))
    (sizes : ∀ a, a ≠ bp → a ≠ b → size a = s.size a) (units : size b = m)
    (known : b = bp ∨ b ∈ lo) (before : ∀ a ∈ lo', s.stop a < b) (start : s.start ≤ b)
    (top : b + HEADER * m = bp + HEADER * n) (more : n ≤ m)
    (avoids : ∀ x y, x < y → y ≤ bp ∨ bp + HEADER * n ≤ x → Avoids s lo x y →
      y ≤ b ∨ bp + HEADER * n ≤ x) :
    Freed s { s with size := size, ptr := ptr, freep := q } (lo ++ hi) (lo' ++ b :: hi') bp := by
  have low : b ≤ bp := by
    simp only [HEADER] at top
    omega
  have early : ∀ a ∈ lo', size a = s.size a := by grind [mem_cons_of_mem, Heap.stop, HEADER]
  have late : ∀ a ∈ hi', bp < a ∧ size a = s.size a := by
    intro a member
    have after := g.gt (graft.suffix.subset member)
    exact ⟨after, sizes a (by omega) (by omega)⟩
  have frontIn : ∀ a ∈ lo', a ∈ lo ++ hi := fun a member => mem_append_left hi (front.subset member)
  have backIn : ∀ a ∈ hi', a ∈ lo ++ hi :=
    fun a member => mem_append_right lo (graft.suffix.subset member)
  have positive : 0 < m := Nat.lt_of_lt_of_le g.apart.size (Nat.le_trans graft.size more)
  have baseLt := Nat.lt_of_lt_of_le g.blocks.base_lt start
  obtain ⟨first, second, -⟩ := pairwise_append.mp g.blocks.sorted
  refine ⟨⟨g.blocks.base, g.blocks.brk, ring, ?_, ?_, ?_, rover⟩, rfl, rfl, ?_, ?_, b, ?_, ?_⟩
  · exact (sizes s.base (by omega) (by omega)).trans g.blocks.none
  · refine pairwise_append.mpr ⟨?_, pairwise_cons.mpr ⟨?_, ?_⟩, ?_⟩
    · refine (first.sublist front.sublist).imp_of_mem fun {a c} member _ order => ?_
      simp only [Heap.stop, early a member]
      exact order
    · intro a member
      simp only [Heap.stop, units, top]
      exact graft.gap a member
    · refine (second.sublist graft.suffix.sublist).imp_of_mem fun {a c} member _ order => ?_
      simp only [Heap.stop, (late a member).2]
      exact order
    · grind [Heap.stop]
  · intro a member
    rcases mem_append.mp member with early_ | back
    · simp only [Heap.stop, early a early_]
      exact g.blocks.within a (frontIn a early_)
    · rcases mem_cons.mp back with rfl | tail
      · simp only [Heap.stop, units, top]
        exact ⟨start, positive, graft.brk⟩
      · simp only [Heap.stop, (late a tail).2]
        exact g.blocks.within a (backIn a tail)
  · intro a other unlisted
    apply sizes a other
    rcases known with rfl | member
    · exact other
    · exact fun same => unlisted (same ▸ mem_append_left hi member)
  · intro x y some_ apart free a member
    rcases mem_append.mp member with early_ | back
    · simp only [Heap.stop, early a early_]
      exact free a (frontIn a early_)
    · rcases mem_cons.mp back with rfl | tail
      · simp only [Heap.stop, units, top]
        have beyond := graft.avoids x y some_ apart (fun c tail => free c (mem_append_right lo tail))
        exact avoids x y some_ beyond (fun c head => free c (mem_append_left hi head))
      · simp only [Heap.stop, (late a tail).2]
        exact free a (backIn a tail)
  · exact mem_append_right lo' mem_cons_self
  · dsimp only
    rw [units]
    exact Nat.le_trans graft.size more

theorem back (same : ∀ a, bp < a → ptr a = s.ptr a) : Rest ptr hi' s.base :=
  graft.rest.congr fun a member => same a (g.gt (graft.suffix.subset member))

theorem insert (gap : s.stop (lo.getLastD s.base) ≠ bp) : Freed s { s with
        size := update s.size bp n
        ptr := update (update s.ptr bp (hi'.headD s.base)) (lo.getLastD s.base) bp
        freep := lo.getLastD s.base } (lo ++ hi) (lo ++ bp :: hi') bp := by
  have less := g.last_lt
  refine g.freed graft prefix_rfl (linked_append.mpr ⟨?_, linked_head.mpr ⟨?_, ?_⟩⟩) ?_
    (fun a other _ => update_of_ne other ..) (update_self ..) (.inl rfl) ?_
    g.apart.start rfl (Nat.le_refl n) (fun _ _ _ apart _ => apart)
  · refine g.front (update_self ..) (fun a member other => ?_)
    rw [update_of_ne other, update_of_ne (Nat.ne_of_lt (g.lt member))]
  · rw [update_of_ne (Nat.ne_of_gt less), update_self]
  · grind [g.back]
  · grind
  · intro a member
    by_cases last : a = lo.getLastD s.base
    · exact Nat.lt_of_le_of_ne (g.below a member) (last ▸ gap)
    · exact Nat.lt_trans (g.before_last member last) less

theorem join (touch : s.stop (lo.getLastD s.base) = bp) : Freed s { s with
        size := update (update s.size bp n) (lo.getLastD s.base) (s.size (lo.getLastD s.base) + n)
        ptr := update (update s.ptr bp (hi'.headD s.base)) (lo.getLastD s.base)
          (hi'.headD s.base)
        freep := lo.getLastD s.base } (lo ++ hi) (lo ++ hi') bp := by
  have less := g.last_lt
  have ring : Linked (update (update s.ptr bp (hi'.headD s.base))
      (lo.getLastD s.base) (hi'.headD s.base)) s.base (lo ++ hi') s.base := by
    refine linked_append.mpr ⟨g.front (update_self ..) fun a member other => ?_, ?_⟩
    · rw [update_of_ne other, update_of_ne (Nat.ne_of_lt (g.lt member))]
    · grind [g.back]
  have member := g.last_mem touch
  obtain ⟨sorted, -, -⟩ := pairwise_append.mp g.blocks.sorted
  rcases eq_nil_or_concat' lo with rfl | ⟨lo', p, rfl⟩
  · cases member
  rw [getLastD_concat] at *
  rw [append_assoc lo' [p] hi'] at ring ⊢
  refine g.freed graft (prefix_append lo' [p]) ring ?_ ?_ (update_self ..)
    (.inr member) ?_ (g.blocks.within p (mem_append_left hi member)).1 ?_
    (Nat.le_add_left ..) ?_
  · simp
  · grind
  · grind
  · simp only [Heap.stop, HEADER] at touch ⊢
    omega
  · intro x y some_ apart free
    have := free p member
    omega

end

end Around

theorem free_spec {fs : List Nat} (h : Blocks s fs) (apart : Apart s fs bp) :
    ∃ t fs', Freed s t fs fs' bp ∧
      ∀ fuel, 2 * fs.length + 2 ≤ fuel → free fuel (bp + HEADER) s = some t := by
  obtain ⟨lo, hi, rfl, below, above⟩ := split_sorted h.sorted apart.avoids
  have g : Around s lo hi bp := ⟨h, apart, below, above⟩
  have less := g.last_lt
  obtain ⟨first, -⟩ := linked_append.mp h.ring
  obtain ⟨n, hi', joined, graft⟩ := joinNext_spec h apart above first.last
  have placed : ∀ fuel, 2 * (lo ++ hi).length + 2 ≤ fuel →
      s.place bp fuel = some (lo.getLastD s.base) := fun fuel enough =>
    h.place apart.start (fun a member => g.lt (mem_cons_of_mem _ member))
      (fun a member => g.gt member) enough
  have run : ∀ fuel, 2 * (lo ++ hi).length + 2 ≤ fuel →
      free fuel (bp + HEADER) s = some (s.putBack bp (lo.getLastD s.base)) := by
    grind [free, Nat.add_sub_cancel]
  have size : update s.size bp n (lo.getLastD s.base) = s.size (lo.getLastD s.base) :=
    update_of_ne (Nat.ne_of_lt less) ..
  have prev : s.putBack bp (lo.getLastD s.base) = { Heap.joinPrev { s with
      size := update s.size bp n
      ptr := update s.ptr bp (hi'.headD s.base) } bp (lo.getLastD s.base) with
      freep := lo.getLastD s.base } := by
    unfold Heap.putBack
    rw [joined]
  unfold Heap.joinPrev at prev
  simp only [Heap.stop, size, update_self] at prev
  by_cases touch : s.stop (lo.getLastD s.base) = bp
  · refine ⟨_, _, g.join graft touch, fun fuel enough => (run fuel enough).trans (congrArg some ?_)⟩
    have whole : (s.size (lo.getLastD s.base) + n) % 2 ^ 32 = s.size (lo.getLastD s.base) + n := by
      have start := (h.within _ (mem_append_left hi (g.last_mem touch))).1
      have limit := h.brk.2
      have inside := graft.brk
      apply Nat.mod_eq_of_lt
      simp only [Heap.stop, HEADER] at *
      omega
    have here : lo.getLastD s.base + HEADER * s.size (lo.getLastD s.base) = bp := touch
    rw [prev, if_pos here, whole]
  · refine ⟨_, _, g.insert graft touch, fun fuel enough => (run fuel enough).trans (congrArg some ?_)⟩
    have here : ¬ lo.getLastD s.base + HEADER * s.size (lo.getLastD s.base) = bp := touch
    rw [prev, if_neg here]

end Free

/-! Taking a block out -/

structure Given (s t : Heap) (fs fs' : List Nat) (a n : Nat) : Prop where
  blocks : Blocks t fs'
  start : t.start = s.start
  brk : s.brk ≤ t.brk
  size : t.size a = n
  inside : t.start ≤ a ∧ t.stop a ≤ t.brk
  clear : Avoids t fs' a (t.stop a)
  others : ∀ x y, x < y → y ≤ s.brk → Avoids s fs x y →
    Avoids t fs' x y ∧ (y ≤ a ∨ t.stop a ≤ x) ∧ t.size x = s.size x

section Take

variable {s : Heap} {fs : List Nat}

theorem take_whole {lo hi : List Nat} {p : Nat} (h : Blocks s (lo ++ p :: hi)) : Given s { s with
        ptr := update s.ptr (lo.getLastD s.base) (s.ptr p)
        freep := lo.getLastD s.base } (lo ++ p :: hi) (lo ++ hi) p (s.size p) := by
  obtain ⟨first, second⟩ := linked_append.mp h.ring
  obtain ⟨after, rest⟩ := linked_head.mp second
  have nodup := h.nodup
  rw [← cons_append] at nodup
  obtain ⟨front, back, apart⟩ := nodup_append.mp nodup
  have sub : (lo ++ hi).Sublist (lo ++ p :: hi) := (sublist_cons_self p hi).append_left lo
  have gaps := pairwise_append.mp h.sorted
  obtain ⟨here, pos, top⟩ := h.within p (mem_append_right lo mem_cons_self)
  refine ⟨⟨h.base, h.brk, linked_append.mpr ⟨?_, ?_⟩, h.none, h.sorted.sublist sub,
    fun a member => h.within a (sub.subset member), ?_⟩, rfl, Nat.le_refl _, rfl, ⟨here, top⟩, ?_, ?_⟩
  · rw [after]
    exact first.retarget front _
  · refine rest.congr fun a member => update_of_ne ?_ ..
    exact fun same => apart _ (getLastD_mem ..) a (mem_cons_of_mem p member) same.symm
  · rw [← cons_append]
    exact mem_append_left hi (getLastD_mem ..)
  · intro a member
    rcases mem_append.mp member with early | late
    · exact .inr (Nat.le_of_lt (gaps.2.2 a early p mem_cons_self))
    · exact .inl (Nat.le_of_lt (rel_of_pairwise_cons gaps.2.1 late))
  · intro x y _ _ avoids
    exact ⟨fun a member => avoids a (sub.subset member),
      avoids p (mem_append_right lo mem_cons_self), rfl⟩

theorem take_part {lo hi : List Nat} {p q n rest prevp : Nat} (h : Blocks s (lo ++ p :: hi))
    (split : s.size p = rest + n) (left : 0 < rest) (pos : 0 < n) (cut : q = p + HEADER * rest)
    (rover : prevp ∈ s.base :: (lo ++ p :: hi)) :
    Given s { s with size := update (update s.size p rest) q n, freep := prevp }
      (lo ++ p :: hi) (lo ++ p :: hi) q n := by
  obtain ⟨here, -, top⟩ := h.within p (mem_append_right lo mem_cons_self)
  obtain ⟨first, second, cross⟩ := pairwise_append.mp h.sorted
  obtain ⟨after, tail⟩ := pairwise_cons.mp second
  have stop : s.stop p = q + HEADER * n := by
    simp only [Heap.stop, HEADER] at *
    omega
  have order : p < q := by
    simp only [HEADER] at cut
    omega
  have sizes : ∀ a, a ≠ p → a ≠ q → update (update s.size p rest) q n a = s.size a := by
    grind
  have block : update (update s.size p rest) q n p = rest := by
    rw [update_of_ne (Nat.ne_of_lt order), update_self]
  have early : ∀ a ∈ lo, s.stop a < p ∧ update (update s.size p rest) q n a = s.size a := by
    grind [mem_cons_self, Heap.stop, HEADER]
  have late : ∀ a ∈ hi, s.stop p < a ∧ update (update s.size p rest) q n a = s.size a := by
    grind
  have baseLt := Nat.lt_of_lt_of_le h.base_lt here
  refine ⟨⟨h.base, h.brk, h.ring, ?_, pairwise_append.mpr ⟨?_, pairwise_cons.mpr ⟨?_, ?_⟩, ?_⟩,
    ?_, rover⟩, rfl, Nat.le_refl _, update_self .., ⟨?_, ?_⟩, ?_, ?_⟩
  · exact (sizes s.base (by omega) (by omega)).trans h.none
  · refine first.imp_of_mem fun {a b} member _ gap => ?_
    simp only [Heap.stop, (early a member).2]
    exact gap
  · grind [Heap.stop]
  · refine tail.imp_of_mem fun {a b} member _ gap => ?_
    simp only [Heap.stop, (late a member).2]
    exact gap
  · grind [Heap.stop]
  · intro a member
    rcases mem_append.mp member with front | back
    · simp only [Heap.stop, (early a front).2]
      exact h.within a member
    · rcases mem_cons.mp back with rfl | more
      · grind [Heap.stop]
      · simp only [Heap.stop, (late a more).2]
        exact h.within a member
  · exact Nat.le_trans here (Nat.le_of_lt order)
  · simp only [Heap.stop, update_self]
    omega
  · intro a member
    simp only [Heap.stop, update_self]
    rcases mem_append.mp member with front | back
    · grind [Heap.stop]
    · grind
  · intro x y some_ _ avoids
    have away := avoids p (mem_append_right lo mem_cons_self)
    have long : 0 < HEADER * n := Nat.mul_pos (by decide) pos
    refine ⟨fun a member => ?_, ?_, sizes x ?_ ?_⟩
    · have old := avoids a member
      rcases mem_append.mp member with front | back
      · simp only [Heap.stop, (early a front).2]
        exact old
      · grind [Heap.stop]
    · simp only [Heap.stop, update_self]
      omega
    · omega
    · omega

theorem take_spec {prevp n : Nat} (h : Blocks s fs) (member : prevp ∈ s.base :: fs) (pos : 0 < n)
    (fits : n ≤ s.size (s.ptr prevp)) :
    ∃ a t fs', s.take prevp (s.ptr prevp) n = (a + HEADER, t) ∧ Given s t fs fs' a n := by
  have inner : s.ptr prevp ≠ s.base := by
    intro same
    rw [same, h.none] at fits
    omega
  obtain ⟨lo, hi, rfl, last⟩ := h.ring.split member inner
  unfold Heap.take
  split
  · next whole =>
    refine ⟨_, _, lo ++ hi, rfl, ?_⟩
    have given := take_whole h
    rw [last, whole] at given
    exact given
  · next larger =>
    exact ⟨_, _, _, rfl, take_part h (by omega) (by omega) pos rfl member⟩

end Take

/-! `malloc` -/

section Malloc

variable {s : Heap} {fs : List Nat}

theorem Given.trans {t u : Heap} {fs fs' fs'' : List Nat} {a n : Nat} (given : Given t u fs' fs'' a n)
    (start : t.start = s.start) (brk : s.brk ≤ t.brk)
    (others : ∀ x y, x < y → y ≤ s.brk → Avoids s fs x y → Avoids t fs' x y ∧ t.size x = s.size x) :
    Given s u fs fs'' a n where
  blocks := given.blocks
  start := given.start.trans start
  brk := Nat.le_trans brk given.brk
  size := given.size
  inside := given.inside
  clear := given.clear
  others x y some_ low avoids := by
    obtain ⟨still, size⟩ := others x y some_ low avoids
    obtain ⟨now, apart, same⟩ := given.others x y some_ (Nat.le_trans low brk) still
    exact ⟨now, apart, same.trans size⟩

/- The request is one that `sbrk` takes as it is meant, and the heap stays below 2^32 units. -/
def Fits (s : Heap) (grant : Nat → Bool) (n : Nat) : Prop :=
  grant s.brk = true → n < 2 ^ 27 ∧ s.brk + HEADER * max n 4096 < s.start + HEADER * 2 ^ 32

theorem sbrkArg_eq {nu : Nat} (small : nu < 2 ^ 27) : sbrkArg nu = HEADER * nu := by
  unfold sbrkArg HEADER
  rw [BitVec.toInt_eq_toNat_of_lt, BitVec.toNat_ofNat, Nat.mod_eq_of_lt (by omega)]
  · omega
  · rw [BitVec.toNat_ofNat, Nat.mod_eq_of_lt (by omega)]
    omega

theorem Blocks.below_brk (h : Blocks s fs) {a : Nat} (member : a ∈ s.base :: fs) : a < s.brk := by
  rcases mem_cons.mp member with rfl | block
  · exact Nat.lt_of_lt_of_le h.base_lt h.brk.1
  · obtain ⟨-, pos, top⟩ := h.within a block
    simp only [Heap.stop, HEADER] at top
    omega

theorem Avoids.unlisted {x y : Nat} (h : Blocks s fs) (avoids : Avoids s fs x y) (some_ : x < y) :
    x ∉ fs := by
  intro member
  have here := avoids x member
  have pos := (h.within x member).2.1
  simp only [Heap.stop, HEADER] at here
  omega

theorem Blocks.grow (h : Blocks s fs) {n : Nat} (pos : 0 < n)
    (room : s.brk + HEADER * n < s.start + HEADER * 2 ^ 32) :
    Blocks { s with brk := s.brk + HEADER * n, size := update s.size s.brk n } fs ∧
      Apart { s with brk := s.brk + HEADER * n, size := update s.size s.brk n } fs s.brk ∧
      ∀ a ∈ fs, update s.size s.brk n a = s.size a := by
  have same : ∀ a ∈ s.base :: fs, update s.size s.brk n a = s.size a :=
    fun a member => update_of_ne (Nat.ne_of_lt (h.below_brk member)) ..
  have sizes : ∀ a ∈ fs, update s.size s.brk n a = s.size a :=
    fun a member => same a (mem_cons_of_mem _ member)
  refine ⟨⟨h.base, ⟨Nat.le_trans h.brk.1 (Nat.le_add_right ..), room⟩, h.ring, ?_, ?_, ?_, h.rover⟩,
    ⟨h.brk.1, ?_, ?_, ?_⟩, sizes⟩
  · exact (same s.base mem_cons_self).trans h.none
  · grind [h.sorted.imp_of_mem, Heap.stop]
  · intro a member
    obtain ⟨start, size, top⟩ := h.within a member
    simp only [Heap.stop, sizes a member]
    exact ⟨start, size, Nat.le_trans top (Nat.le_add_right ..)⟩
  · dsimp only
    rw [update_self]
    exact pos
  · simp only [Heap.stop, update_self]
    exact Nat.le_refl _
  · intro a member
    simp only [Heap.stop, sizes a member]
    exact .inr (h.within a member).2.2

theorem morecore_spec (h : Blocks s fs) {grant : Nat → Bool} {n : Nat} (fits : Fits s grant n) :
    (∀ fuel, morecore fuel grant n s = some none) ∨
    ∃ t fs', (∀ fuel, 2 * fs.length + 2 ≤ fuel → morecore fuel grant n s = some (some t)) ∧
      Blocks t fs' ∧ t.start = s.start ∧ s.brk ≤ t.brk ∧ (∃ a ∈ fs', n ≤ t.size a) ∧
      ∀ x y, x < y → y ≤ s.brk → Avoids s fs x y → Avoids t fs' x y ∧ t.size x = s.size x := by
  cases granted : grant s.brk with
  | false =>
    left
    intro fuel
    simp only [morecore, granted]
    rfl
  | true =>
    right
    obtain ⟨small, room⟩ := fits granted
    have nu : (if n < 4096 then 4096 else n) = max n 4096 := by
      split
      · omega
      · omega
    have grown : ((s.brk : Int) + sbrkArg (max n 4096)).toNat = s.brk + HEADER * max n 4096 := by
      rw [sbrkArg_eq (by omega)]
      omega
    obtain ⟨blocks, apart, sizes⟩ := h.grow (by omega : 0 < max n 4096) room
    obtain ⟨t, fs', freed, run⟩ := free_spec blocks apart
    refine ⟨t, fs', fun fuel enough => ?_, freed.blocks, freed.start, ?_, ?_, ?_⟩
    · simp only [morecore, granted, nu, grown, if_true, run fuel enough, Option.map_some]
    · rw [freed.brk]
      exact Nat.le_add_right ..
    · obtain ⟨a, member, large⟩ := freed.large
      simp only [update_self] at large
      exact ⟨a, member, by omega⟩
    · intro x y some_ low avoids
      have still : Avoids { s with
          brk := s.brk + HEADER * max n 4096
          size := update s.size s.brk (max n 4096) } fs x y := by
        intro a member
        simp only [Heap.stop, sizes a member]
        exact avoids a member
      refine ⟨freed.avoids x y some_ (.inl low) still, ?_⟩
      rw [freed.sizes x (by omega) (avoids.unlisted h some_)]
      exact update_of_ne (by omega) ..

theorem Blocks.scan (h : Blocks s fs) (n : Nat) :
    ∃ u ∈ s.base :: fs, (n ≤ s.size (s.ptr u) ∨ ∀ a ∈ s.base :: fs, s.size a < n) ∧
      ∀ fuel, 2 * fs.length + 2 ≤ fuel → firstFrom s.ptr
        (fun p => decide (n ≤ s.size (s.ptr p)) || decide (s.ptr p = s.freep)) fuel s.freep = some u := by
  obtain ⟨y, there, back⟩ := h.ring.pred h.rover
  obtain ⟨u, member, -, found⟩ := h.ring.firstFrom
    (P := fun p => decide (n ≤ s.size (s.ptr p)) || decide (s.ptr p = s.freep)) h.rover there
    (by rw [back]; simp)
  refine ⟨u, member, ?_, found⟩
  by_cases fits : n ≤ s.size (s.ptr u)
  · exact .inl fits
  · have none := h.ring.none_found (Q := fun p => decide (n ≤ s.size p)) h.rover
      (found _ (Nat.le_refl _)) (decide_eq_false fits)
    exact .inr fun a listed => Nat.lt_of_not_le (of_decide_eq_false (none.2 a listed))

theorem mallocLoop_take (grant : Nat → Bool) {n u : Nat} (h : Blocks s fs) (pos : 0 < n)
    (member : u ∈ s.base :: fs) (fits : n ≤ s.size (s.ptr u))
    (found : ∀ fuel, 2 * fs.length + 2 ≤ fuel → firstFrom s.ptr
      (fun p => decide (n ≤ s.size (s.ptr p)) || decide (s.ptr p = s.freep)) fuel s.freep = some u) :
    ∃ a t fs', (∀ fuel, 2 * fs.length + 3 ≤ fuel →
      mallocLoop grant n fuel s.freep s = some (a + HEADER, t)) ∧ Given s t fs fs' a n := by
  obtain ⟨a, t, fs', taken, given⟩ := take_spec h member pos fits
  refine ⟨a, t, fs', fun fuel enough => ?_, given⟩
  obtain ⟨fuel, rfl⟩ := Nat.exists_eq_add_of_le' (Nat.lt_of_lt_of_le (Nat.succ_pos _) enough)
  simp only [mallocLoop, found fuel (by omega), Option.bind_eq_bind, Option.bind_some, if_pos fits,
    taken]

theorem mallocLoop_spec (h : Blocks s fs) {grant : Nat → Bool} {n : Nat} (pos : 0 < n)
    (fits : Fits s grant n) :
    ∃ bound r t, (∀ fuel, bound ≤ fuel → mallocLoop grant n fuel s.freep s = some (r, t)) ∧
      ((r = 0 ∧ t = s) ∨ ∃ a fs', r = a + HEADER ∧ Given s t fs fs' a n) := by
  obtain ⟨u, member, -, found⟩ := h.scan n
  by_cases here : n ≤ s.size (s.ptr u)
  · obtain ⟨a, t, fs', run, given⟩ := mallocLoop_take grant h pos member here found
    exact ⟨_, _, t, run, .inr ⟨a, fs', rfl, given⟩⟩
  · have enter : ∀ fuel, 2 * fs.length + 2 ≤ fuel → mallocLoop grant n (fuel + 1) s.freep s =
        (morecore fuel grant n s).bind (fun r => match r with
          | none => some (0, s)
          | some s => mallocLoop grant n fuel s.freep s) := by
      intro fuel enough
      simp only [mallocLoop, found fuel enough, Option.bind_eq_bind, Option.bind_some, if_neg here]
    rcases morecore_spec h fits with refused | ⟨t, fs', more, blocks, start, brk, large, others⟩
    · refine ⟨2 * fs.length + 3, 0, s, fun fuel enough => ?_, .inl ⟨rfl, rfl⟩⟩
      obtain ⟨fuel, rfl⟩ := Nat.exists_eq_add_of_le' (Nat.lt_of_lt_of_le (Nat.succ_pos _) enough)
      rw [enter fuel (by omega), refused]
      rfl
    · obtain ⟨w, listed, big | none, again⟩ := blocks.scan n
      case inr =>
        obtain ⟨a, member, large⟩ := large
        exact absurd (none a (mem_cons_of_mem _ member)) (Nat.not_lt.mpr large)
      obtain ⟨a, v, fs'', run, given⟩ := mallocLoop_take grant blocks pos listed big again
      refine ⟨2 * fs.length + 2 * fs'.length + 5, a + HEADER, v, fun fuel enough => ?_,
        Or.inr ⟨a, fs'', rfl, given.trans start brk others⟩⟩
      obtain ⟨fuel, rfl⟩ := Nat.exists_eq_add_of_le' (Nat.lt_of_lt_of_le (Nat.succ_pos _) enough)
      rw [enter fuel (by omega), more fuel (by omega)]
      exact run fuel (by omega)

end Malloc

end UvaOs.Umalloc
