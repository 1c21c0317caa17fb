import UvaOs.Alloc.Blocks
import UvaOs.Gfx.Model

/-! Graphics requests that do not halt the kernel. -/
namespace UvaOs.Sf

open Prog Alloc List

/-! Conditions -/

/-- A request of `n` bytes that is not refused finds a free block, or room for a new one. -/
def Room (s : Pool) (n : Nat) : Prop :=
  ∀ i, n ≤ MAX_ALLOC_SIZE → buckets.findIdx? (fun size => decide (n ≤ size)) = some i →
    s.freeList i ≠ 0 ∨ s.nextBlock + HEADER + buckets.getD i 0 ≤ poolLimit

/-- Not tiny, on the screen, and with a buffer for all its pixels. -/
def Drawable (screen r : Region) : Prop :=
  B_THICKNESS.toInt < r.w.toInt ∧ B_THICKNESS.toInt < r.h.toInt ∧ OnScreen screen r ∧
  r.w.toInt * r.h.toInt * PIXELSIZE.toInt = bufSize r.w r.h

/-- The task has a child to wait for, and may wait. -/
def Waits (family : Family) (pid : Nat) (g : Gfx) : Prop :=
  family.zombie.isSome ∨ ((pid ∈ g.kb ∨ 0 < family.others) ∧ family.killed = false)

def Call.Meets (screen : Region) (g : Gfx) : Call → Prop
  | .init pid r zorder _ spawned =>
    Room g.pool SF_SIZE ∧
    (∀ p t, Alloc.malloc SF_SIZE g.pool = .ok (p, t) → Room t (bufSize r.w r.h)) ∧
    (findSf pid g.sflist = none → zorder ∈ [ZORDER_BOTTOM, ZORDER_TOP, ZORDER_FLOATING] →
      bufSize r.w r.h ≤ MAX_ALLOC_SIZE →
      Drawable screen r ∧ g.sflist.length + 1 < MAX_SF ∧ (g.sflist = [] → spawned = true))
  | .config pid r zorder => ∀ sf, findSf pid g.sflist = some sf →
    sf.r.w = r.w ∧ sf.r.h = r.h ∧ OnScreen screen r ∧
    zorder ∈ [ZORDER_UNCHANGED, ZORDER_TOP, ZORDER_BOTTOM, ZORDER_FLOATING]
  | .fini pid family => ∀ sf, g.sflist = [sf] → sf.pid = pid → Waits family pid g
  | .exit pid family => ∀ sf, g.sflist = [sf] → sf.pid = pid → Waits family pid g
  | .write pid off data _ => ∃ sf, findSf pid g.sflist = some sf ∧ 0 ≤ off ∧
    off + data.length ≤ bufSize sf.r.w sf.r.h
  | .test => True
  | .flinger => True

structure Boot (g : Gfx) : Prop where
  pool : ∃ mem, g.pool = allocInit mem
  sflist : g.sflist = []

/-- A request that cannot be honoured: a z-order, a second surface or a size that there is not, or
no surface. -/
def Call.Unfit (g : Gfx) : Call → Prop
  | .init pid r zorder _ _ => zorder ∉ [ZORDER_BOTTOM, ZORDER_TOP, ZORDER_FLOATING] ∨
    (findSf pid g.sflist).isSome ∨ MAX_ALLOC_SIZE < bufSize r.w r.h
  | .config pid _ _ => findSf pid g.sflist = none
  | .fini pid _ => findSf pid g.sflist = none
  | .exit pid _ => findSf pid g.sflist = none
  | _ => False

def Surface.clean (sf : Surface) : Surface := { sf with dirty := false }

def Run (screen : Region) (g : Gfx) : Prop :=
  Reach Boot (fun g t => ∃ c : Call, c.Meets screen g ∧ ∃ r, c.run screen g = .ok (r, t)) g

/-! The invariant -/

def Surface.blocks (sf : Surface) : List Nat := [sf.self, sf.buf]

structure Surfaces (D : Region → Prop) (live : List (Nat × Nat)) (l : List Surface) : Prop where
  self : ∀ sf ∈ l, (sf.self, SF_SIZE) ∈ live
  buf : ∀ sf ∈ l, (sf.buf, bufSize sf.r.w sf.r.h) ∈ live
  apart : (l.flatMap Surface.blocks).Nodup
  drawable : ∀ sf ∈ l, D sf.r

structure Inv (screen : Region) (g : Gfx) : Prop where
  heap : ∃ live carved free, HeapInv ⟨g.pool, live, carved⟩ free ∧
    Surfaces (Drawable screen) live g.sflist
  count : g.sflist.length < MAX_SF

structure Alike (D : Region → Prop) (a b : Surface) : Prop where
  blocks : b.blocks = a.blocks
  width : b.r.w = a.r.w
  height : b.r.h = a.r.h
  drawable : D a.r → D b.r

section

variable {D : Region → Prop} {live : List (Nat × Nat)} {l l' : List Surface} {sf moved : Surface}

theorem Alike.refl (a : Surface) : Alike D a a := ⟨rfl, rfl, rfl, id⟩

theorem Alike.parts {a b : Surface} (same : Alike D a b) : b.self = a.self ∧ b.buf = a.buf := by
  obtain ⟨first, second⟩ := List.cons.inj same.blocks
  exact ⟨first, head_eq_of_cons_eq second⟩

section

variable (h : Surfaces D live l)
include h

theorem Surfaces.alike (same : List.Forall₂ (Alike D) l l') : Surfaces D live l' := by
  have blocks : l'.flatMap Surface.blocks = l.flatMap Surface.blocks := by
    clear h
    induction same with
    | nil => rfl
    | cons first _ ih => rw [flatMap_cons, flatMap_cons, first.blocks, ih]
  have from_ : ∀ b ∈ l', ∃ a ∈ l, Alike D a b := by
    clear h blocks
    induction same with
    | nil => exact nofun
    | cons first _ ih => grind
  refine ⟨fun b member => ?_, fun b member => ?_, blocks ▸ h.apart, fun b member => ?_⟩
  · obtain ⟨a, listed, alike⟩ := from_ b member
    rw [alike.parts.1]
    exact h.self a listed
  · obtain ⟨a, listed, alike⟩ := from_ b member
    rw [alike.parts.2, alike.width, alike.height]
    exact h.buf a listed
  · obtain ⟨a, listed, alike⟩ := from_ b member
    exact alike.drawable (h.drawable a listed)

theorem Surfaces.perm (same : l.Perm l') : Surfaces D live l' :=
  ⟨fun b member => h.self b (same.mem_iff.mpr member), fun b member => h.buf b (same.mem_iff.mpr member),
    (same.flatMap_right _).nodup_iff.mp h.apart, fun b member => h.drawable b (same.mem_iff.mpr member)⟩

theorem Surfaces.sublist (part : l'.Sublist l) : Surfaces D live l' :=
  ⟨fun b member => h.self b (part.subset member), fun b member => h.buf b (part.subset member),
    h.apart.sublist (part.flatMap _), fun b member => h.drawable b (part.subset member)⟩

theorem Surfaces.freed {p : Nat} (other : p ∉ l.flatMap Surface.blocks) :
    Surfaces D (live.filter fun x => decide (x.1 ≠ p)) l := by
  have keep : ∀ sf ∈ l, ∀ q ∈ sf.blocks, q ≠ p := by grind
  refine ⟨fun b member => ?_, fun b member => ?_, h.apart, h.drawable⟩
  · exact mem_filter.mpr ⟨h.self b member, decide_eq_true (keep b member _ mem_cons_self)⟩
  · exact mem_filter.mpr ⟨h.buf b member,
      decide_eq_true (keep b member _ (mem_cons_of_mem _ mem_cons_self))⟩

theorem Surfaces.held {q : Nat} (block : q ∈ l.flatMap Surface.blocks) : ∃ n, (q, n) ∈ live := by
  obtain ⟨sf, member, block⟩ := mem_flatMap.mp block
  rcases mem_cons.mp block with rfl | block
  · exact ⟨_, h.self sf member⟩
  · rw [mem_singleton.mp block]
    exact ⟨_, h.buf sf member⟩

theorem Surfaces.weaken (x : Nat × Nat) : Surfaces D (x :: live) l :=
  ⟨fun b member => mem_cons_of_mem _ (h.self b member),
    fun b member => mem_cons_of_mem _ (h.buf b member), h.apart, h.drawable⟩

end

end

/-! `malloc` and `free` -/

section

variable {g : Gfx} {live carved : List (Nat × Nat)} {free : Nat → List Nat} {n p : Nat}

theorem malloc_spec (heap : HeapInv ⟨g.pool, live, carved⟩ free) (small : n < 2 ^ 32) (room : Room g.pool n) :
    ∃ p pool, malloc n g = .ok (p, { g with pool := pool }) ∧ Alloc.malloc n g.pool = .ok (p, pool) ∧
      ((p = 0 ∧ pool = g.pool ∧ MAX_ALLOC_SIZE < n) ∨
       (p ≠ 0 ∧ n ≤ MAX_ALLOC_SIZE ∧
         ∃ carved' free', HeapInv ⟨pool, (p, n) :: live, carved'⟩ free')) := by
  by_cases large : MAX_ALLOC_SIZE < n
  · have ran := malloc_large (n := n) heap.nextBlock_pos large
    refine ⟨0, g.pool, ?_, ran, .inl ⟨rfl, rfl, large⟩⟩
    unfold malloc onPool
    rw [ran]
  · have fits := Nat.le_of_not_lt large
    obtain ⟨i, found⟩ := findIdx_request fits
    have served : ∃ p pool, Alloc.malloc n g.pool = .ok (p, pool) ∧ p ≠ 0 := by
      cases heap.served fits found with
      | list _ ran => exact ⟨_, _, ran, Nat.succ_ne_zero _⟩
      | pool _ _ ran => exact ⟨_, _, ran, Nat.succ_ne_zero _⟩
      | exhausted none full =>
        rcases room i fits found with some_ | room
        · exact absurd none some_
        · exact absurd full (Nat.not_lt.mpr room)
    obtain ⟨p, pool, ran, some_⟩ := served
    obtain ⟨free', after⟩ := heap.step (.malloc n p pool small some_ ran)
    refine ⟨p, pool, ?_, ran, .inr ⟨some_, fits, _, free', after⟩⟩
    unfold malloc onPool
    rw [ran]

theorem free_spec (heap : HeapInv ⟨g.pool, live, carved⟩ free) (holds : (p, n) ∈ live) :
    ∃ pool free', Sf.free p g = .ok ((), { g with pool := pool }) ∧
      HeapInv ⟨pool, live.filter fun x => decide (x.1 ≠ p), carved⟩ free' := by
  obtain ⟨a, i, -, -, -, ran⟩ := heap.free_runs holds
  obtain ⟨free', after⟩ := heap.step (.free p n _ holds ran)
  refine ⟨_, free', ?_, after⟩
  unfold Sf.free onPool
  rw [ran]

theorem fresh {D : Region → Prop} {l : List Surface} (heap : HeapInv ⟨g.pool, (p, n) :: live, carved⟩ free)
    (h : Surfaces D live l) : p ∉ l.flatMap Surface.blocks := by
  intro block
  obtain ⟨m, listed⟩ := h.held block
  exact (nodup_cons.mp heap.once).1 (mem_map.mpr ⟨_, listed, rfl⟩)

end

/-! Requests -/

/- The request returns; if it is refused, the surfaces are what they were. -/
def Returns (screen : Region) (g : Gfx) (unfit : Prop) (m : Prog Gfx Halt Int) : Prop :=
  ∃ r t, m g = .ok (r, t) ∧ Inv screen t ∧ (r < 0 → t.sflist.map Surface.clean = g.sflist.map Surface.clean) ∧
    (unfit → r < 0)

section

variable {screen : Region} {D : Region → Prop} {g : Gfx}

variable {zorder : BitVec 32} {family : Family} {carved live : List (Nat × Nat)} {l : List Surface}
  {pid : Nat} {free : Nat → List Nat} {r : Region} {sf : Surface}

theorem fail_spec {self buf n m : Nat} (ret : Int)
    (heap : HeapInv ⟨g.pool, (buf, m) :: (self, n) :: live, carved⟩ free)
    (h : Surfaces D live g.sflist) : ∃ t, fail self buf ret g = .ok (ret, t) ∧ t.sflist = g.sflist ∧
      ∃ live carved free, HeapInv ⟨t.pool, live, carved⟩ free ∧ Surfaces D live t.sflist := by
  have once := heap.once
  have apart : self ≠ buf := by grind
  have freshSelf : self ∉ g.sflist.flatMap Surface.blocks := by grind [h.held]
  have freshBuf : buf ∉ g.sflist.flatMap Surface.blocks := fresh heap (h.weaken _)
  obtain ⟨pool, free₁, ran, heap₁⟩ := free_spec heap mem_cons_self
  have still : (self, n) ∈ ((buf, m) :: (self, n) :: live).filter fun x => decide (x.1 ≠ buf) :=
    mem_filter.mpr ⟨mem_cons_of_mem _ mem_cons_self, decide_eq_true apart⟩
  obtain ⟨pool', free₂, ran', heap₂⟩ := free_spec (g := { g with pool := pool }) heap₁ still
  refine ⟨{ g with pool := pool' }, ?_, rfl, _, _, _, heap₂,
    (((h.weaken _).weaken _).freed freshBuf).freed freshSelf⟩
  unfold fail
  rw [run_bind ran, run_bind ran']
  rfl

theorem place_spec (zorder : BitVec 32) (sf : Surface) :
    (zorder ∉ [ZORDER_BOTTOM, ZORDER_TOP, ZORDER_FLOATING] ∧ place zorder sf l = none) ∨
      (zorder ∈ [ZORDER_BOTTOM, ZORDER_TOP, ZORDER_FLOATING] ∧
        ∃ l' float, place zorder sf l = some l' ∧ ({ sf with floating := float } :: l).Perm l') := by
  unfold place
  by_cases bottom : zorder = ZORDER_BOTTOM
  · rw [if_pos bottom]
    exact .inr ⟨by simp [bottom], _, sf.floating, rfl, .refl _⟩
  · rw [if_neg bottom]
    by_cases top : zorder = ZORDER_TOP
    · rw [if_pos top]
      exact .inr ⟨by simp [top], _, sf.floating, rfl, (perm_append_singleton _ _).symm⟩
    · grind

theorem alike_dirty (l : List Surface) :
    List.Forall₂ (Alike D) l (l.map fun sf => { sf with dirty := true }) := by
  induction l with
  | nil => exact .nil
  | cons sf l ih => exact .cons ⟨rfl, rfl, rfl, id⟩ ih

theorem bufSize_small (w h : BitVec 32) : bufSize w h < 2 ^ 32 := (w * h * PIXELSIZE).isLt

theorem sfCreate_returns {transparency : BitVec 32} {spawned : Bool}
    (inv : Inv screen g) (meets : (Call.init pid r zorder transparency spawned).Meets screen g) :
    Returns screen g ((Call.init pid r zorder transparency spawned).Unfit g)
      (sfCreate screen spawned pid r zorder transparency) := by
  obtain ⟨roomSelf, roomBuf, fit⟩ := meets
  obtain ⟨⟨live, carved, free, heap, h⟩, count⟩ := inv
  unfold Returns sfCreate
  obtain ⟨self, pool, ran, ran', ⟨-, -, large⟩ | ⟨some_, -, carved₁, free₁, heap₁⟩⟩ :=
    malloc_spec heap (by decide) roomSelf
  · exact absurd large (by decide)
  rw [run_bind ran, if_neg some_]
  have room := roomBuf self pool ran'
  obtain ⟨buf, pool', ranBuf, -, ⟨rfl, rfl, large⟩ | ⟨some', fits, carved₂, free₂, heap₂⟩⟩ :=
    malloc_spec (g := { g with pool := pool }) heap₁ (bufSize_small _ _) room
  · -- the pixels do not fit into any bucket
    rw [run_bind ranBuf, if_pos rfl]
    obtain ⟨pool₂, free₂, ranFree, heap₂⟩ := free_spec (g := { g with pool := pool' }) heap₁ mem_cons_self
    refine ⟨-2, { g with pool := pool₂ }, ?_, ⟨⟨_, _, _, heap₂, (h.weaken _).freed ?_⟩, count⟩, fun _ => rfl,
      fun _ => by decide⟩
    · rw [run_bind ranFree]
      rfl
    · exact fresh (g := { g with pool := pool' }) heap₁ h
  rw [run_bind ranBuf, if_neg some']
  rw [run_get]
  cases found : findSf pid g.sflist with
  | some sf =>
    obtain ⟨t, ran, same, heap'⟩ := fail_spec (g := { g with pool := pool' }) (-3) heap₂ h
    refine ⟨-3, t, ?_, ⟨heap', ?_⟩, fun _ => by rw [same], fun _ => by decide⟩
    · rw [if_pos (show (some sf).isSome = true from rfl)]
      exact ran
    · rw [same]
      exact count
  | none =>
    rw [if_neg (show ¬ (none : Option Surface).isSome = true from Bool.false_ne_true)]
    dsimp only
    rcases place_spec zorder ⟨pid, r, transparency, true, false, self, buf⟩
        (l := g.sflist) with ⟨unknown, none⟩ | ⟨known, sflist, float, placed, perm⟩
    · rw [none]
      obtain ⟨t, ran, same, heap'⟩ := fail_spec (g := { g with pool := pool' }) (-4) heap₂ h
      refine ⟨-4, t, ran, ⟨heap', ?_⟩, fun _ => by rw [same], fun _ => by decide⟩
      rw [same]
      exact count
    · rw [placed]
      obtain ⟨drawable, room, first⟩ := fit found known fits
      have once := heap₂.once
      have apart : self ≠ buf := fun same => (nodup_cons.mp once).1 (same ▸ mem_cons_self)
      have freshSelf := fresh (g := { g with pool := pool }) heap₁ h
      have freshBuf := fresh (g := { g with pool := pool' }) heap₂ (h.weaken _)
      have new : Surfaces (Drawable screen) ((buf, bufSize r.w r.h) :: (self, SF_SIZE) :: live)
          (⟨pid, r, transparency, true, float, self, buf⟩ :: g.sflist) := by
        have old := (h.weaken (self, SF_SIZE)).weaken (buf, bufSize r.w r.h)
        refine ⟨fun sf member => ?_, fun sf member => ?_, ?_, fun sf member => ?_⟩
        · rcases mem_cons.mp member with rfl | earlier
          · exact mem_cons_of_mem _ mem_cons_self
          · exact old.self sf earlier
        · rcases mem_cons.mp member with rfl | earlier
          · exact mem_cons_self
          · exact old.buf sf earlier
        · refine nodup_cons.mpr ⟨?_, nodup_cons.mpr ⟨freshBuf, h.apart⟩⟩
          intro member
          rcases mem_cons.mp member with same | member
          · exact apart same
          · exact freshSelf member
        · rcases mem_cons.mp member with rfl | earlier
          · exact drawable
          · exact old.drawable sf earlier
      have after := (new.perm perm).alike (alike_dirty sflist)
      have length : sflist.length = g.sflist.length + 1 := by
        rw [← perm.length_eq, length_cons]
      have count' : (sflist.map fun sf : Surface => { sf with dirty := true }).length < MAX_SF := by
        rw [length_map, length]
        exact room
      have fit' : ¬ (Call.init pid r zorder transparency spawned).Unfit g := by
        rintro (unknown | again | large)
        · exact unknown known
        · rw [found] at again
          cases again
        · omega
      dsimp only
      rw [run_modify]
      by_cases one : sflist.length = 1
      · have empty : g.sflist = [] := length_eq_zero_iff.mp (by omega)
        rw [if_pos one, run_modify, first empty]
        exact ⟨0, _, rfl, ⟨⟨_, _, _, heap₂, after⟩, count'⟩, fun neg => absurd neg (by decide),
          fun unfit => absurd unfit fit'⟩
      · rw [if_neg one]
        exact ⟨0, _, rfl, ⟨⟨_, _, _, heap₂, after⟩, count'⟩, fun neg => absurd neg (by decide),
          fun unfit => absurd unfit fit'⟩

theorem release_spec {rest : List Surface} (heap : HeapInv ⟨g.pool, live, carved⟩ free)
    (h : Surfaces D live (sf :: rest)) : ∃ pool, release sf g = .ok ((), { g with pool := pool }) ∧
      ∃ live carved free, HeapInv ⟨pool, live, carved⟩ free ∧ Surfaces D live rest := by
  obtain ⟨selfApart, tail⟩ := nodup_cons.mp h.apart
  obtain ⟨bufApart, -⟩ := nodup_cons.mp tail
  have held := h.buf sf mem_cons_self
  have some_ : sf.buf ≠ 0 := by grind [heap.held, HEADER]
  obtain ⟨pool, free₁, ran, heap₁⟩ := free_spec heap held
  have still : (sf.self, SF_SIZE) ∈ live.filter fun x => decide (x.1 ≠ sf.buf) := by
    refine mem_filter.mpr ⟨h.self sf mem_cons_self, decide_eq_true fun same => selfApart ?_⟩
    rw [show sf.self = sf.buf from same]
    exact mem_cons_self
  obtain ⟨pool', free₂, ran', heap₂⟩ := free_spec (g := { g with pool := pool }) heap₁ still
  have others := h.sublist (sublist_cons_self sf rest)
  refine ⟨pool', ?_, _, _, _, heap₂, (others.freed bufApart).freed fun member => selfApart ?_⟩
  · unfold release
    rw [if_pos some_, run_bind ran]
    exact ran'
  · exact mem_cons_of_mem _ member

theorem waitKb_spec (waits : Waits family pid g) :
    ∃ kb, waitKb family pid g = .ok ((), { g with kb := kb }) := by
  unfold waitKb
  rw [run_get]
  cases zombie : family.zombie with
  | some kb =>
    dsimp only
    cases kb with
    | true => exact ⟨_, rfl⟩
    | false => exact ⟨_, rfl⟩
  | none =>
    have children : ¬ ((pid ∉ g.kb ∧ family.others = 0) ∨ family.killed = true) := by
      rcases waits with some_ | ⟨child, alive⟩
      · rw [zombie] at some_
        cases some_
      · grind
    exact ⟨_, by rw [if_neg children]; rfl⟩

theorem findSf_mem (found : findSf pid l = some sf) : sf ∈ l ∧ sf.pid = pid :=
  ⟨mem_of_find?_eq_some found, beq_iff_eq.mp (find?_some (p := fun s : Surface => s.pid == pid) found)⟩

theorem sfFree_returns (inv : Inv screen g)
    (meets : ∀ sf, g.sflist = [sf] → sf.pid = pid → Waits family pid g) :
    Returns screen g (findSf pid g.sflist = none) (sfFree family pid) := by
  obtain ⟨⟨live, carved, free, heap, h⟩, count⟩ := inv
  unfold Returns sfFree
  rw [run_get]
  cases found : findSf pid g.sflist with
  | none => exact ⟨-1, g, rfl, ⟨⟨live, carved, free, heap, h⟩, count⟩, fun _ => rfl, fun _ => by decide⟩
  | some sf =>
    obtain ⟨member, owner⟩ := findSf_mem found
    have perm := perm_cons_erase member
    have length := perm.length_eq
    rw [length_cons] at length
    have apart := h.perm perm
    have count' : (g.sflist.erase sf).length < MAX_SF := by omega
    dsimp only
    rw [run_modify]
    by_cases last : (g.sflist.erase sf).length = 0
    · have only : g.sflist = [sf] := by
        rw [length_eq_zero_iff.mp last] at perm
        exact perm_singleton.mp perm
      rw [if_pos last, run_modify]
      obtain ⟨pool, ran, heap'⟩ := release_spec
        (g := { g with sflist := g.sflist.erase sf, fb := false }) heap apart
      obtain ⟨kb, waited⟩ := waitKb_spec (g := { g with sflist := g.sflist.erase sf, fb := false, pool := pool })
        (show Waits family pid _ from meets sf only owner)
      refine ⟨0, _, (run_bind ran).trans (run_bind waited), ⟨heap', count'⟩, fun neg => absurd neg (by decide), nofun⟩
    · rw [if_neg last, run_modify]
      obtain ⟨pool, ran, heap'⟩ := release_spec
        (g := { g with sflist := g.sflist.erase sf, bkDirty := union g.bkDirty sf.r }) heap apart
      exact ⟨0, _, run_bind ran, ⟨heap', count'⟩, fun neg => absurd neg (by decide), nofun⟩

theorem sfConfig_returns (inv : Inv screen g) (meets : (Call.config pid r zorder).Meets screen g) :
    Returns screen g (findSf pid g.sflist = none) (sfConfig pid r zorder) := by
  obtain ⟨⟨live, carved, free, heap, h⟩, count⟩ := inv
  unfold Returns sfConfig
  rw [run_get]
  cases found : findSf pid g.sflist with
  | none => exact ⟨-1, g, rfl, ⟨⟨live, carved, free, heap, h⟩, count⟩, fun _ => rfl, fun _ => by decide⟩
  | some sf =>
    obtain ⟨width, height, screen_, known⟩ := meets sf found
    obtain ⟨member, -⟩ := findSf_mem found
    have alike : ∀ dirty, Alike (Drawable screen) sf { sf with r := r, dirty := dirty } := fun dirty =>
      ⟨rfl, width.symm, height.symm, fun d => ⟨width ▸ d.1, height ▸ d.2.1, screen_, width ▸ height ▸ d.2.2.2⟩⟩
    have perm := perm_cons_erase member
    have length := perm.length_eq
    rw [length_cons] at length
    have moved : Surfaces (Drawable screen) live ({ sf with r := r, dirty := true } :: g.sflist.erase sf) :=
      (h.perm perm).alike (.cons (alike true) (forall₂_same.mpr fun s _ => Alike.refl s))
    dsimp only
    rw [if_neg (by rw [width, height]; exact fun other => other.elim (· rfl) (· rfl))]
    by_cases unchanged : zorder = ZORDER_UNCHANGED
    · rw [if_pos unchanged]
      refine ⟨0, _, rfl, ⟨⟨live, carved, free, heap, h.alike ?_⟩, ?_⟩, fun neg => absurd neg (by decide), nofun⟩
      · refine forall₂_map_right_iff.mpr (forall₂_same.mpr fun s _ => ?_)
        split
        · rename_i same
          rw [same]
          exact alike sf.dirty
        · exact Alike.refl s
      · grind
    · rw [if_neg unchanged]
      by_cases top : zorder = ZORDER_TOP
      · rw [if_pos top]
        refine ⟨0, _, rfl, ⟨⟨live, carved, free, heap, moved.perm (perm_append_singleton _ _).symm⟩, ?_⟩,
          fun neg => absurd neg (by decide), nofun⟩
        change (g.sflist.erase sf ++ [_]).length < MAX_SF
        rw [length_append, length_singleton]
        omega
      · rw [if_neg top]
        by_cases bottom : zorder = ZORDER_BOTTOM
        · rw [if_pos bottom]
          refine ⟨0, _, rfl, ⟨⟨live, carved, free, heap, moved⟩, ?_⟩, fun neg => absurd neg (by decide), nofun⟩
          change (_ :: g.sflist.erase sf).length < MAX_SF
          rw [length_cons]
          omega
        · have float : zorder = ZORDER_FLOATING := by
            simp only [mem_cons, not_mem_nil, or_false, unchanged, top, bottom, false_or] at known
            exact known
          rw [if_neg bottom, if_pos float]
          refine ⟨0, _, rfl, ⟨⟨live, carved, free, heap, h.sublist erase_sublist⟩, ?_⟩,
            fun neg => absurd neg (by decide), nofun⟩
          change (g.sflist.erase sf).length < MAX_SF
          omega

theorem alike_clean (sf : Surface) : Alike D sf { sf with dirty := false } := ⟨rfl, rfl, rfl, id⟩

theorem drawPass_spec (float : Bool) (redrawn : List Region) (each : ∀ sf ∈ l, Clipped screen sf.r)
    (room : redrawn.length + l.countP (fun sf => sf.floating == float) ≤ MAX_SF) :
    ∃ l' redrawn' n, drawPass screen float l redrawn = .ok (l', redrawn', n) ∧
      List.Forall₂ (Alike (Drawable screen)) l l' ∧ l'.map Surface.clean = l.map Surface.clean ∧
      redrawn'.length ≤ redrawn.length + l.countP (fun sf => sf.floating == float) := by
  induction l generalizing redrawn with
  | nil => exact ⟨[], redrawn, 0, rfl, .nil, rfl, Nat.le_refl _⟩
  | cons sf rest ih =>
    unfold drawPass
    have others : ∀ s ∈ rest, Clipped screen s.r := fun s member => each s (mem_cons_of_mem sf member)
    rw [countP_cons] at room ⊢
    by_cases drawn : sf.floating = float ∧ (sf.dirty = true ∨ redrawn.any (intersect sf.r) = true)
    · have one : (if (sf.floating == float) = true then 1 else 0) = 1 := if_pos (beq_iff_eq.mpr drawn.1)
      rw [one] at room ⊢
      obtain ⟨l', redrawn', n, ran, alike, clean, bound⟩ := ih (redrawn ++ [sf.r]) others
        (by rw [length_append, length_singleton]; omega)
      rw [if_pos drawn, if_neg (not_not_intro (each sf mem_cons_self)), if_neg (by omega), ran]
      refine ⟨_, _, _, rfl, .cons (alike_clean sf) alike, ?_, ?_⟩
      · rw [map_cons, map_cons, clean]
        rfl
      · rw [length_append, length_singleton] at bound
        omega
    · obtain ⟨l', redrawn', n, ran, alike, clean, bound⟩ := ih redrawn others (by omega)
      rw [if_neg drawn, ran]
      refine ⟨_, _, _, rfl, .cons (Alike.refl sf) alike, ?_, by omega⟩
      rw [map_cons, map_cons, clean]

theorem countP_floating (l : List Surface) :
    l.countP (fun sf => sf.floating == false) + l.countP (fun sf => sf.floating == true) = l.length := by
  induction l with
  | nil => rfl
  | cons sf l ih => grind

theorem Drawable.clipped (drawable : Drawable screen r) : Clipped screen r := by
  obtain ⟨wide, high, ⟨left, right, top, bottom⟩, pixels⟩ := drawable
  have thick : B_THICKNESS.toInt = 3 := rfl
  exact .inr ⟨left, by omega, top, by omega, by omega, by omega, pixels⟩

theorem drawBoundary_spec (drawable : Drawable screen r) : drawBoundary screen r = .ok () := by
  obtain ⟨wide, high, here, -⟩ := drawable
  unfold drawBoundary
  have tall : r.h.sle B_THICKNESS = false := by
    rw [BitVec.sle, decide_eq_false_iff_not]
    omega
  have broad : r.w.sle B_THICKNESS = false := by
    rw [BitVec.sle, decide_eq_false_iff_not]
    omega
  rw [tall, broad, Bool.or_false, if_neg Bool.false_ne_true, if_neg (not_not_intro here)]

theorem draw_spec (redrawn : List Region) (each : ∀ sf ∈ l, Drawable screen sf.r)
    (room : redrawn.length + l.length ≤ MAX_SF) :
    ∃ l' cnt, draw screen l redrawn = .ok (l', cnt) ∧ l'.map Surface.clean = l.map Surface.clean ∧
      ∀ live, Surfaces (Drawable screen) live l → Surfaces (Drawable screen) live l' := by
  have total := countP_floating l
  obtain ⟨l₁, redrawn₁, n, ran₁, alike₁, clean₁, bound₁⟩ :=
    drawPass_spec false redrawn (fun sf member => (each sf member).clipped) (by omega)
  have floating : l₁.countP (fun sf => sf.floating == true) = l.countP (fun sf => sf.floating == true) := by
    have mapped := congrArg (List.countP fun sf : Surface => sf.floating == true) clean₁
    rw [countP_map, countP_map] at mapped
    exact mapped
  have each₁ : ∀ sf ∈ l₁, Clipped screen sf.r := by
    intro sf member
    have image := mem_map_of_mem (f := Surface.clean) member
    rw [clean₁] at image
    obtain ⟨old, listed, same⟩ := mem_map.mp image
    have region : sf.r = old.r := (congrArg Surface.r same).symm
    rw [region]
    exact (each old listed).clipped
  obtain ⟨l₂, redrawn₂, m, ran₂, alike₂, clean₂, -⟩ :=
    drawPass_spec true redrawn₁ each₁ (by omega)
  refine ⟨l₂, (n + m) % 256, ?_, clean₂.trans clean₁, fun live h => (h.alike alike₁).alike alike₂⟩
  unfold draw
  rw [ran₁]
  change (drawPass screen true l₁ redrawn₁ >>= _) = _
  rw [ran₂]
  dsimp only [bind, Except.bind]
  cases last : l.getLast? with
  | none => rfl
  | some top =>
    dsimp only
    rw [drawBoundary_spec (each top (mem_of_getLast? last))]
    split <;> rfl

theorem sfComposite_returns (inv : Inv screen g) : Returns screen g False (sfComposite screen) := by
  unfold Returns sfComposite
  cases shown : g.fb with
  | false => exact ⟨0, g, rfl, inv, fun neg => absurd neg (by decide), nofun⟩
  | true =>
    obtain ⟨⟨live, carved, free, heap, h⟩, count⟩ := inv
    rw [if_neg (show ¬ (!true) = true by decide)]
    dsimp only
    have few : (if g.bkDirty.w ≠ 0 ∨ g.bkDirty.h ≠ 0 then [g.bkDirty] else []).length ≤ 1 := by
      split
      · exact Nat.le_refl 1
      · exact Nat.zero_le 1
    obtain ⟨l, cnt, ran, clean, kept⟩ := draw_spec
      (if g.bkDirty.w ≠ 0 ∨ g.bkDirty.h ≠ 0 then [g.bkDirty] else []) h.drawable (by omega)
    have length : l.length = g.sflist.length := by
      have mapped := congrArg List.length clean
      rwa [length_map, length_map] at mapped
    rw [ran]
    refine ⟨cnt, _, rfl, ⟨⟨live, carved, free, heap, kept live h⟩, ?_⟩, fun _ => clean, nofun⟩
    change l.length < MAX_SF
    omega

theorem alike_dirtyFrom (D : Region → Prop) (pid : Nat) (l : List Surface) :
    List.Forall₂ (Alike D) l (dirtyFrom pid l) ∧ (dirtyFrom pid l).map Surface.clean = l.map Surface.clean := by
  induction l with
  | nil => exact ⟨.nil, rfl⟩
  | cons sf l ih =>
    unfold dirtyFrom
    split
    · refine ⟨alike_dirty (sf :: l), ?_⟩
      rw [map_map]
      rfl
    · exact ⟨.cons (Alike.refl sf) ih.1, by rw [map_cons, map_cons, ih.2]⟩

theorem devfb0Write_returns {off : Int} {data : List UInt8} {copied : Bool} (inv : Inv screen g)
    (meets : (Call.write pid off data copied).Meets screen g) :
    Returns screen g False (devfb0Write pid off data copied) := by
  obtain ⟨⟨live, carved, free, heap, h⟩, count⟩ := inv
  obtain ⟨sf, found, low, high⟩ := meets
  obtain ⟨member, -⟩ := findSf_mem found
  have held := h.buf sf member
  obtain ⟨a, size, ptr, -⟩ := heap.held _ held
  have some_ : sf.buf ≠ 0 := by
    simp only [HEADER] at ptr
    omega
  obtain ⟨alike, clean⟩ := alike_dirtyFrom (Drawable screen) pid g.sflist
  have heap' : HeapInv ⟨{ g.pool with mem := Bytes.blit g.pool.mem (sf.buf + off.toNat) data }, live, carved⟩ free := by
    refine heap.inside held fun i out => Bytes.blit_outside ?_
    omega
  have length : (dirtyFrom pid g.sflist).length < MAX_SF := by
    rw [← alike.length_eq]
    exact count
  unfold Returns devfb0Write
  rw [run_get, found]
  dsimp only
  rw [run_modify, if_neg some_, if_neg (by omega), run_modify]
  cases copied with
  | true => exact ⟨0, _, rfl, ⟨⟨live, carved, free, heap', h.alike alike⟩, length⟩, fun _ => clean, nofun⟩
  | false => exact ⟨-1, _, rfl, ⟨⟨live, carved, free, heap', h.alike alike⟩, length⟩, fun _ => clean, nofun⟩

theorem Call.returns (inv : Inv screen g) (c : Call) (meets : c.Meets screen g) :
    Returns screen g (c.Unfit g) (c.run screen) := by
  cases c with
  | init pid r zorder transparency spawned => exact sfCreate_returns inv meets
  | config pid r zorder => exact sfConfig_returns inv meets
  | fini pid family => exact sfFree_returns inv meets
  | test => exact sfComposite_returns inv
  | write pid off data copied => exact devfb0Write_returns inv meets
  | flinger => exact sfComposite_returns inv
  | exit pid family =>
    obtain ⟨r, t, ran, inv', same, refused⟩ := sfFree_returns inv meets
    exact ⟨r, reparent pid t, run_bind ran, ⟨inv'.heap, inv'.count⟩, same, refused⟩

end

variable {g : Gfx} {screen : Region}

theorem Boot.inv (boot : Boot g) : Inv screen g := by
  obtain ⟨⟨mem, pool⟩, none⟩ := boot
  refine ⟨⟨[], [], fun _ => [], pool ▸ Alloc.Boot.inv ⟨mem, rfl⟩, ?_⟩, ?_⟩
  · rw [none]
    exact ⟨nofun, nofun, .nil, nofun⟩
  · rw [none]
    decide

theorem Run.inv (run : Run screen g) : Inv screen g := by
  refine Reach.invariant (Inv screen) (fun _ boot => boot.inv) ?_ run
  rintro g t inv ⟨c, meets, r, ran⟩
  obtain ⟨r', t', ran', inv', -⟩ := c.returns inv meets
  rw [ran] at ran'
  cases ran'
  exact inv'

/-- In every run whose requests meet the condition, every further one returns; a request that is
refused leaves the surfaces as they are, and one that cannot be honoured is refused. -/
theorem requests_return {screen : Region} {g : Gfx} (run : Run screen g) (c : Call) (meets : c.Meets screen g) :
    ∃ r t, c.run screen g = .ok (r, t) ∧
      (r < 0 → t.sflist.map Surface.clean = g.sflist.map Surface.clean) ∧ (c.Unfit g → r < 0) := by
  obtain ⟨r, t, ran, -, same, refused⟩ := c.returns run.inv meets
  exact ⟨r, t, ran, same, refused⟩

/- The framebuffer of the emulator, and a kernel that has just booted. -/
def display : Region := ⟨0, 0, 1360, 768⟩

def booted : Gfx := ⟨allocInit fun _ => 0, [], ⟨0, 0, 0, 0⟩, false, []⟩

theorem requests_return_first : ∃ r t,
    (Call.init 1 ⟨0, 0, 320, 240⟩ ZORDER_TOP 100 true).run display booted = .ok (r, t) ∧
      (r < 0 → t.sflist.map Surface.clean = booted.sflist.map Surface.clean) ∧
      ((Call.init 1 ⟨0, 0, 320, 240⟩ ZORDER_TOP 100 true).Unfit booted → r < 0) := by
  refine requests_return (.start ⟨⟨_, rfl⟩, rfl⟩) _
    ⟨?_, ?_, fun _ _ _ => ⟨⟨?_, ?_, ?_, ?_⟩, ?_, fun _ => rfl⟩⟩
  · intro i _ found
    cases (show some 1 = some i from found)
    exact .inr (by decide)
  · intro p t ran i _ found
    cases (show some 5 = some i from found)
    cases ran
    exact .inr (by decide)
  all_goals decide

/- A write without a surface halts the kernel, and so does the flinger after a surface of two by two
pixels was made. -/
theorem requests_halt : (Call.write 1 0 [] true).run display booted = .error .noSurface ∧
    ((Call.init 1 ⟨0, 0, 2, 2⟩ ZORDER_TOP 100 true).run display >>= fun r =>
      if r = 0 then Call.flinger.run display else pure r) booted = .error .boundary := by
  refine ⟨rfl, rfl⟩

end UvaOs.Sf
