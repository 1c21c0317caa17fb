import UvaOs.Vm.Space

/-! The page allocator of kernel/alloc.c over whole runs. Single pages are handed out and freed,
regions are reserved and freed as a whole, and the clients write where they like. The history
of a run tells who has a page; the map and the counter are compared with it. -/
namespace UvaOs.Vm

open Prog VmState

/-! alloc.c, param.h and plat-rpi3qemu.h -/

@[simp] def HIGH_MEMORY0 : Nat := 0x3c100000
@[simp] def MALLOC_PAGES : Nat := 8 * 1024 * 1024 / PAGE_SIZE
@[simp] def MAX_PAGING_PAGES : Nat := PHYS_SIZE / PAGE_SIZE
@[simp] def KERNEL_START : Nat := 0x80000

/- Whether one of the `left` frames from `frame` on has the mark. -/
def anyMarked (used : Nat → Bool) (mark : Bool) : Nat → Nat → Bool
  | _, 0 => false
  | frame, left + 1 => if used frame = mark then true else anyMarked used mark (frame + 1) left

/-- `_reserve_phys_region`: reserve or free all pages of a region, or none. -/
def markPhysRegion (start size : Nat) (isReserve : Bool) : VmM Int :=
  if start % PAGE_SIZE ≠ 0 ∨ size % PAGE_SIZE ≠ 0 then stop .bug
  else do
    let s ← get
    if anyMarked s.used isReserve (start / PAGE_SIZE) (size / PAGE_SIZE) then pure (-2)
    else do
      forRange (fun frame => modify (·.putUsed frame isReserve)) (start / PAGE_SIZE)
        (size / PAGE_SIZE)
      modify (fun s => { s with
        pagesUsed := if isReserve then s.pagesUsed + ((size / PAGE_SIZE : Nat) : Int)
          else s.pagesUsed - ((size / PAGE_SIZE : Nat) : Int) })
      pure 0

def reservePhysRegion (start size : Nat) : VmM Int := markPhysRegion start size true

def freePhysRegion (start size : Nat) : VmM Int := markPhysRegion start size false

/-- `LOW_MEMORY`, from the end of the kernel image. -/
def lowMemory (kernelEnd : Nat) : Nat := PGROUNDUP kernelEnd

/-- `PAGING_PAGES`; the subtraction is one of `unsigned long`. -/
def pagingPages (kernelEnd : Nat) : Nat :=
  (HIGH_MEMORY0 + 2 ^ 64 - lowMemory kernelEnd) % 2 ^ 64 / PAGE_SIZE

def pagingInit (kernelEnd : Nat) : VmM Nat :=
  if 2 * MALLOC_PAGES ≥ pagingPages kernelEnd then stop .bug
  else do
    modify (fun s => { s with
      low := lowMemory kernelEnd / PAGE_SIZE
      pages := pagingPages kernelEnd - MALLOC_PAGES })
    let ret ← markPhysRegion (HIGH_MEMORY0 - MALLOC_PAGES * PAGE_SIZE) (MALLOC_PAGES * PAGE_SIZE) true
    if ret ≠ 0 then stop .bug else pure (pagingPages kernelEnd)

/-! Histories -/

/-- The calls that have changed the map, with what they were given or returned. -/
inductive PageEvent where
  | got (pa : Nat)
  | freed (pa : Nat)
  | reserved (start size : Nat)
  | released (start size : Nat)

inductive Owner where
  | free | page | region
  deriving DecidableEq

def inRegion (start size frame : Nat) : Bool :=
  decide (start / PAGE_SIZE ≤ frame ∧ frame < start / PAGE_SIZE + size / PAGE_SIZE)

/-- Who has a frame, by its last event. At boot only the malloc region is taken. -/
def owner : List PageEvent → Nat → Owner
  | [], frame =>
    if inRegion (HIGH_MEMORY0 - MALLOC_PAGES * PAGE_SIZE) (MALLOC_PAGES * PAGE_SIZE) frame then .region
    else .free
  | .got pa :: past, frame => if frame = pa / PAGE_SIZE then .page else owner past frame
  | .freed pa :: past, frame => if frame = pa / PAGE_SIZE then .free else owner past frame
  | .reserved start size :: past, frame =>
    if inRegion start size frame then .region else owner past frame
  | .released start size :: past, frame =>
    if inRegion start size frame then .free else owner past frame

/-- The allocator and its history, latest event first. -/
structure PageAlloc where
  vm : VmState
  past : List PageEvent

structure Region (s : VmState) (start size : Nat) : Prop where
  aligned : start % PAGE_SIZE = 0
  whole : size % PAGE_SIZE = 0
  above : s.low ≤ start / PAGE_SIZE
  below : start / PAGE_SIZE + size / PAGE_SIZE ≤ s.low + MAX_PAGING_PAGES

/-- The calls, and what the clients do to memory in between. -/
inductive PageStep : PageAlloc → PageAlloc → Prop
  | got {w : PageAlloc} {pa : Nat} {t : VmState} (run : getFreePage w.vm = .ok (pa, t)) :
    PageStep w ⟨t, if pa = 0 then w.past else .got pa :: w.past⟩
  | freed {w : PageAlloc} {pa : Nat} {t : VmState} (held : owner w.past (pa / PAGE_SIZE) = .page)
    (run : freePage pa w.vm = .ok ((), t)) : PageStep w ⟨t, .freed pa :: w.past⟩
  | reserved {w : PageAlloc} {start size : Nat} {r : Int} {t : VmState} (region : Region w.vm start size)
    (run : reservePhysRegion start size w.vm = .ok (r, t)) :
    PageStep w ⟨t, if r = 0 then .reserved start size :: w.past else w.past⟩
  | released {w : PageAlloc} {start size : Nat} {r : Int} {t : VmState} (region : Region w.vm start size)
    (run : freePhysRegion start size w.vm = .ok (r, t)) :
    PageStep w ⟨t, if r = 0 then .released start size :: w.past else w.past⟩
  | store {w : PageAlloc} (mem : Nat → Nat → BitVec 64) : PageStep w ⟨{ w.vm with mem := mem }, w.past⟩

/- Where the linker puts the end of the kernel image. -/
structure Linked (kernelEnd : Nat) : Prop where
  above : KERNEL_START ≤ kernelEnd
  below : kernelEnd ≤ HIGH_MEMORY0

/-- After `paging_init`, which starts with an empty map. -/
def Booted (kernelEnd : Nat) (w : PageAlloc) : Prop :=
  w.past = [] ∧ ∃ s n, (∀ f, s.used f = false) ∧ s.pagesUsed = 0 ∧
    pagingInit kernelEnd s = .ok (n, w.vm)

/-! The map -/

def marked (s : VmState) : Finset Nat :=
  (Finset.Ico s.low (s.low + MAX_PAGING_PAGES)).filter (fun frame => s.used frame = true)

structure Marked (s t : VmState) (a n : Nat) (mark : Bool) : Prop where
  low : t.low = s.low
  pages : t.pages = s.pages
  used : ∀ f, t.used f = if a ≤ f ∧ f < a + n then mark else s.used f
  pagesUsed : t.pagesUsed = if mark then s.pagesUsed + (n : Int) else s.pagesUsed - (n : Int)
  before : ∀ f, a ≤ f → f < a + n → s.used f = !mark

theorem Marked.card {s t : VmState} {a n : Nat} {mark : Bool} (h : Marked s t a n mark)
    (above : s.low ≤ a) (below : a + n ≤ s.low + MAX_PAGING_PAGES)
    (count : s.pagesUsed = (marked s).card) : t.pagesUsed = (marked t).card := by
  have range : (Finset.Ico a (a + n)).card = n := by
    rw [Nat.card_Ico, Nat.add_sub_cancel_left]
  rw [h.pagesUsed, count]
  cases mark with
  | true =>
    have apart : Disjoint (marked s) (Finset.Ico a (a + n)) := by
      rw [Finset.disjoint_left]
      intro f used inside
      rw [Finset.mem_Ico] at inside
      have unused := h.before f inside.1 inside.2
      rw [(Finset.mem_filter.mp used).2] at unused
      cases unused
    have union : marked t = marked s ∪ Finset.Ico a (a + n) := by
      ext f
      rw [Finset.mem_union, marked, marked, Finset.mem_filter, Finset.mem_filter, h.low, h.used f]
      simp only [Finset.mem_Ico]
      by_cases inside : a ≤ f ∧ f < a + n
      · grind
      · grind
    rw [union, Finset.card_union_of_disjoint apart, range]
    push_cast
    rfl
  | false =>
    have subset : Finset.Ico a (a + n) ⊆ marked s := by
      intro f inside
      rw [Finset.mem_Ico] at inside
      exact Finset.mem_filter.mpr ⟨Finset.mem_Ico.mpr ⟨by omega, by omega⟩,
        h.before f inside.1 inside.2⟩
    have rest : marked t = marked s \ Finset.Ico a (a + n) := by
      ext f
      rw [Finset.mem_sdiff, marked, marked, Finset.mem_filter, Finset.mem_filter, h.low, h.used f]
      simp only [Finset.mem_Ico]
      by_cases inside : a ≤ f ∧ f < a + n
      · grind
      · grind
    have fewer := Finset.card_le_card subset
    rw [range] at fewer
    rw [rest, Finset.card_sdiff_of_subset subset, range, if_neg Bool.false_ne_true]
    omega

theorem anyMarked_eq_false {used : Nat → Bool} {mark : Bool} {frame left : Nat} :
    anyMarked used mark frame left = false ↔
      ∀ f, frame ≤ f → f < frame + left → used f = !mark := by
  induction left generalizing frame with
  | zero => exact ⟨fun _ f lo hi => by omega, fun _ => rfl⟩
  | succ left ih =>
    unfold anyMarked
    by_cases here : used frame = mark
    · grind
    · rw [if_neg here, ih]
      constructor
      · intro all f lo hi
        rcases Nat.eq_or_lt_of_le lo with rfl | later
        · exact Bool.eq_not_iff.mpr here
        · exact all f later (by omega)
      · exact fun all f lo hi => all f (by omega) (by omega)

theorem markLoop_run (mark : Bool) (a n : Nat) (s : VmState) :
    wp (forRange (fun frame => modify (·.putUsed frame mark)) a n)
      (fun _ t => t = { s with used := fun f => if a ≤ f ∧ f < a + n then mark else s.used f })
      (fun _ : Halt => False) s := by
  refine wp_forRange (fun j (t : VmState) => t =
    { s with used := fun f => if a ≤ f ∧ f < j then mark else s.used f }) n a s ?_ ?_
  · rintro j t lo _ rfl
    rw [wp_modify]
    unfold putUsed
    congr 1
    funext f
    dsimp only
    by_cases e : f = j
    · rw [e, Function.update_self, if_pos ⟨lo, Nat.lt_succ_self j⟩]
    · grind
  · have same : (fun f => if a ≤ f ∧ f < a then mark else s.used f) = s.used := by
      funext f
      rw [if_neg (by omega)]
    rw [same]

theorem markPhysRegion_cases (start size : Nat) (s : VmState) (mark : Bool)
    (first : start % PAGE_SIZE = 0) (whole : size % PAGE_SIZE = 0) :
    (markPhysRegion start size mark s = .ok (-2, s) ∧
      ∃ f, inRegion start size f = true ∧ s.used f = mark) ∨
      ∃ t, markPhysRegion start size mark s = .ok (0, t) ∧ t.mem = s.mem ∧
        Marked s t (start / PAGE_SIZE) (size / PAGE_SIZE) mark := by
  unfold markPhysRegion
  rw [if_neg (by simp only [not_or, not_not]; exact ⟨first, whole⟩),
    run_get]
  cases any : anyMarked s.used mark (start / PAGE_SIZE) (size / PAGE_SIZE) with
  | true =>
    left
    refine ⟨rfl, ?_⟩
    by_contra none
    have unmarked : anyMarked s.used mark (start / PAGE_SIZE) (size / PAGE_SIZE) = false := by
      rw [anyMarked_eq_false]
      intro f lo hi
      by_contra other
      exact none ⟨f, decide_eq_true ⟨lo, hi⟩, by rwa [Bool.eq_not_iff, not_not] at other⟩
    rw [any] at unmarked
    cases unmarked
  | false =>
    right
    obtain ⟨_, u, ran, rfl⟩ :=
      wp_returns (markLoop_run mark (start / PAGE_SIZE) (size / PAGE_SIZE) s) (fun _ no => no)
    rw [if_neg Bool.false_ne_true, run_bind ran]
    exact ⟨_, rfl, rfl, rfl, rfl, fun _ => rfl, rfl, anyMarked_eq_false.mp any⟩

/-! Runs -/

structure Agreed (kernelEnd : Nat) (w : PageAlloc) : Prop where
  low : w.vm.low = lowMemory kernelEnd / PAGE_SIZE
  pages : w.vm.pages = pagingPages kernelEnd - MALLOC_PAGES
  used : ∀ f, w.vm.low ≤ f → f < w.vm.low + MAX_PAGING_PAGES →
    (w.vm.used f = true ↔ owner w.past f ≠ .free)
  pool : ∀ f, owner w.past f = .page → InPool w.vm f
  count : w.vm.pagesUsed = (marked w.vm).card

section Layout

variable {kernelEnd : Nat}

theorem lowMemory_bounds (linked : Linked kernelEnd) : lowMemory kernelEnd % PAGE_SIZE = 0 ∧
    KERNEL_START ≤ lowMemory kernelEnd ∧ lowMemory kernelEnd ≤ HIGH_MEMORY0 := by
  obtain ⟨above, below⟩ := linked
  refine ⟨PGROUNDUP_mod kernelEnd, Nat.le_trans above (le_PGROUNDUP kernelEnd), ?_⟩
  unfold lowMemory PGROUNDUP
  simp only [PAGE_SIZE, HIGH_MEMORY0] at below ⊢
  omega

theorem pagingPages_eq (linked : Linked kernelEnd) :
    pagingPages kernelEnd = HIGH_MEMORY0 / PAGE_SIZE - lowMemory kernelEnd / PAGE_SIZE := by
  obtain ⟨aligned, _, below⟩ := lowMemory_bounds linked
  unfold pagingPages
  simp only [PAGE_SIZE, HIGH_MEMORY0] at aligned below ⊢
  omega

theorem Agreed.layout {w : PageAlloc} (linked : Linked kernelEnd) (h : Agreed kernelEnd w)
    (room : 2 * MALLOC_PAGES < pagingPages kernelEnd) :
    w.vm.low + w.vm.pages = HIGH_MEMORY0 / PAGE_SIZE - MALLOC_PAGES ∧
      w.vm.pages ≤ MAX_PAGING_PAGES := by
  obtain ⟨_, _, below⟩ := lowMemory_bounds linked
  rw [h.low, h.pages, pagingPages_eq linked] at *
  simp only [PAGE_SIZE, HIGH_MEMORY0, MALLOC_PAGES, MAX_PAGING_PAGES, PHYS_SIZE] at *
  omega

end Layout

section Keep

variable {kernelEnd : Nat} {w : PageAlloc} {t : VmState} {a n : Nat}

theorem Agreed.mark {mark : Bool} {past : List PageEvent} {o : Owner} (h : Agreed kernelEnd w)
    (m : Marked w.vm t a n mark) (above : w.vm.low ≤ a)
    (below : a + n ≤ w.vm.low + MAX_PAGING_PAGES)
    (owners : ∀ f, owner past f = if a ≤ f ∧ f < a + n then o else owner w.past f)
    (agree : mark = true ↔ o ≠ .free) (pool : o = .page → ∀ f, a ≤ f → f < a + n → InPool w.vm f) :
    Agreed kernelEnd ⟨t, past⟩ := by
  refine ⟨m.low.trans h.low, m.pages.trans h.pages, ?_, ?_, m.card above below h.count⟩
  · grind [m.low, m.used, h.used]
  · intro f page
    unfold InPool
    dsimp only at page ⊢
    rw [m.low, m.pages]
    rw [owners f] at page
    split at page
    · rename_i inside
      exact pool page f inside.1 inside.2
    · exact h.pool f page

theorem Agreed.same (h : Agreed kernelEnd w) (low : t.low = w.vm.low) (pages : t.pages = w.vm.pages)
    (used : t.used = w.vm.used) (count : t.pagesUsed = w.vm.pagesUsed) :
    Agreed kernelEnd ⟨t, w.past⟩ := by
  refine ⟨low.trans h.low, pages.trans h.pages, ?_, ?_, ?_⟩
  · dsimp only
    rw [low, used]
    exact h.used
  · intro f page
    unfold InPool
    dsimp only
    rw [low, pages]
    exact h.pool f page
  · unfold marked
    dsimp only
    rw [count, low, used]
    exact h.count

theorem marked_one (mark : Bool) {f : Nat} (s : VmState) (mem : Nat → Nat → BitVec 64)
    (before : s.used f = !mark) : Marked s { s with
      used := Function.update s.used f mark
      pagesUsed := if mark then s.pagesUsed + ((1 : Nat) : Int) else s.pagesUsed - ((1 : Nat) : Int)
      mem := mem } f 1 mark := by
  refine ⟨rfl, rfl, ?_, rfl, ?_⟩
  · grind
  · intro g lo hi
    have same : g = f := by omega
    rwa [same]

theorem Agreed.step (linked : Linked kernelEnd) (room : 2 * MALLOC_PAGES < pagingPages kernelEnd)
    {w' : PageAlloc} (h : Agreed kernelEnd w) (step : PageStep w w') : Agreed kernelEnd w' := by
  obtain ⟨_, few⟩ := h.layout linked room
  have one : ∀ f g : Nat, (f ≤ g ∧ g < f + 1) ↔ g = f := by
    intro f g
    omega
  cases step with
  | @got pa t run =>
    rcases getFreePage_cases w.vm with ⟨_, none⟩ | ⟨f, pool, unused, found⟩
    · rw [none] at run
      cases run
      exact h
    · rw [found] at run
      cases run
      have positive : f * PAGE_SIZE ≠ 0 := by
        have low := pool.1
        rw [h.low] at low
        obtain ⟨_, start, _⟩ := lowMemory_bounds linked
        simp only [PAGE_SIZE, KERNEL_START] at low start ⊢
        omega
      have frame : f * PAGE_SIZE / PAGE_SIZE = f := Nat.mul_div_cancel f (by decide)
      rw [if_neg positive]
      refine h.mark (o := .page) (marked_one true w.vm _ unused) pool.1
        (by have := pool.2; omega) ?_ (by decide) ?_
      · intro g
        simp only [owner, frame, one]
      · intro _ g lo hi
        have same : g = f := by omega
        rwa [same]
  | @freed pa t held run =>
    cases run
    have pool := h.pool _ held
    have used : w.vm.used (pa / PAGE_SIZE) = true := by
      rw [h.used _ pool.1 (by have := pool.2; omega), held]
      decide
    refine h.mark (o := .free) (marked_one false w.vm w.vm.mem used) pool.1
      (by have := pool.2; omega) ?_ (by decide) (fun no => by cases no)
    intro g
    simp only [owner, one]
  | @reserved start size r t region run =>
    unfold reservePhysRegion at run
    rcases markPhysRegion_cases start size w.vm true region.aligned region.whole with
      ⟨none, _⟩ | ⟨u, found, _, m⟩
    · rw [none] at run
      cases run
      exact h
    · rw [found] at run
      cases run
      refine h.mark (o := .region) m region.above region.below ?_ (by decide) (fun no => by cases no)
      intro g
      simp only [if_true, owner, inRegion, decide_eq_true_eq]
  | @released start size r t region run =>
    unfold freePhysRegion at run
    rcases markPhysRegion_cases start size w.vm false region.aligned region.whole with
      ⟨none, _⟩ | ⟨u, found, _, m⟩
    · rw [none] at run
      cases run
      exact h
    · rw [found] at run
      cases run
      refine h.mark (o := .free) m region.above region.below ?_ (by decide) (fun no => by cases no)
      intro g
      simp only [if_true, owner, inRegion, decide_eq_true_eq]
  | store mem => exact h.same rfl rfl rfl rfl

theorem Booted.kept (linked : Linked kernelEnd) (boot : Booted kernelEnd w) :
    2 * MALLOC_PAGES < pagingPages kernelEnd ∧ Agreed kernelEnd w := by
  obtain ⟨fresh, s, n, empty, zero, run⟩ := boot
  obtain ⟨vm, past⟩ := w
  dsimp only at fresh run
  subst fresh
  unfold pagingInit at run
  split at run
  · cases run
  rename_i room
  obtain ⟨_, u, first, run⟩ := bind_ok run
  cases first
  obtain ⟨aligned, start, below⟩ := lowMemory_bounds linked
  have pages := pagingPages_eq linked
  refine ⟨Nat.not_le.mp room, ?_⟩
  obtain ⟨r, t, mark, last⟩ := bind_ok run
  rcases markPhysRegion_cases (HIGH_MEMORY0 - MALLOC_PAGES * PAGE_SIZE) (MALLOC_PAGES * PAGE_SIZE)
      { s with low := lowMemory kernelEnd / PAGE_SIZE, pages := pagingPages kernelEnd - MALLOC_PAGES } true
      (by decide) (by decide) with ⟨_, f, _, used⟩ | ⟨u, found, _, m⟩
  · rw [empty f] at used
    cases used
  · rw [found] at mark
    cases mark
    cases last
    have bounds : lowMemory kernelEnd / PAGE_SIZE ≤
        (HIGH_MEMORY0 - MALLOC_PAGES * PAGE_SIZE) / PAGE_SIZE ∧
        (HIGH_MEMORY0 - MALLOC_PAGES * PAGE_SIZE) / PAGE_SIZE + MALLOC_PAGES * PAGE_SIZE / PAGE_SIZE ≤
          lowMemory kernelEnd / PAGE_SIZE + MAX_PAGING_PAGES := by
      simp only [PAGE_SIZE, HIGH_MEMORY0, MALLOC_PAGES, MAX_PAGING_PAGES, PHYS_SIZE] at *
      omega
    have nothing : marked { s with
        low := lowMemory kernelEnd / PAGE_SIZE
        pages := pagingPages kernelEnd - MALLOC_PAGES } = ∅ := by
      apply Finset.filter_eq_empty_iff.mpr
      intro f _
      dsimp only
      rw [empty f]
      decide
    refine ⟨m.low, m.pages, ?_, ?_, m.card bounds.1 bounds.2 (by rw [nothing]; exact zero)⟩
    · intro f _ _
      dsimp only
      rw [m.used f, owner, inRegion]
      simp only [decide_eq_true_eq]
      split
      · decide
      · simp [empty f]
    · grind [owner]

end Keep

def PageEvent.Frees (f : Nat) : PageEvent → Prop
  | .freed pa => f = pa / PAGE_SIZE
  | .released start size => inRegion start size f = true
  | _ => False

theorem owner_since {f pa : Nat} (same : f = pa / PAGE_SIZE) (later earlier : List PageEvent)
    (kept : ∀ e ∈ later, ¬ e.Frees f) : owner (later ++ .got pa :: earlier) f ≠ .free := by
  induction later with
  | nil =>
    rw [List.nil_append, owner, if_pos same]
    decide
  | cons e later ih =>
    have before := ih (fun e' mem => kept e' (List.mem_cons_of_mem _ mem))
    have here := kept e (List.mem_cons_self ..)
    cases e with
    | got pa' => grind [owner]
    | freed pa' =>
      have other : ¬ f = pa' / PAGE_SIZE := here
      rw [List.cons_append, owner, if_neg other]
      exact before
    | reserved start size => grind [owner]
    | released start size =>
      have outside : ¬ inRegion start size f = true := here
      rw [List.cons_append, owner, if_neg outside]
      exact before

structure Allocates (kernelEnd : Nat) (w : PageAlloc) : Prop where
  /-- `paging_pages_used` counts the set bytes, which are those of the pages in use. -/
  count : w.vm.pagesUsed = (marked w.vm).card
  used : ∀ f, w.vm.low ≤ f → f < w.vm.low + MAX_PAGING_PAGES →
    (w.vm.used f = true ↔ owner w.past f ≠ .free)
  /-- `get_free_page` fails only if the paging area is full. -/
  full : ∀ pa t, getFreePage w.vm = .ok (pa, t) → (pa = 0 ↔
    ∀ f, lowMemory kernelEnd ≤ f * PAGE_SIZE → f * PAGE_SIZE < HIGH_MEMORY0 - MALLOC_PAGES * PAGE_SIZE →
      w.vm.used f = true)
  /-- A page handed out belongs to no one, is filled with zeros and lies in the paging area. -/
  fresh : ∀ pa t, getFreePage w.vm = .ok (pa, t) → pa ≠ 0 → pa % PAGE_SIZE = 0 ∧
    owner w.past (pa / PAGE_SIZE) = .free ∧ (∀ i, t.mem (pa / PAGE_SIZE) i = 0) ∧
    lowMemory kernelEnd ≤ pa ∧ pa + PAGE_SIZE ≤ HIGH_MEMORY0 - MALLOC_PAGES * PAGE_SIZE
  /-- It was freed since it was handed out the last time. -/
  once : ∀ pa t later earlier, getFreePage w.vm = .ok (pa, t) → pa ≠ 0 →
    w.past = later ++ .got pa :: earlier → ∃ e ∈ later, e.Frees (pa / PAGE_SIZE)
  /-- A region changes as a whole or not at all. -/
  regions : ∀ start size mark, Region w.vm start size → ∃ r t,
    markPhysRegion start size mark w.vm = .ok (r, t) ∧
      ((r = 0 ∧ ∀ f, if inRegion start size f then w.vm.used f = !mark ∧ t.used f = mark
        else t.used f = w.vm.used f) ∨ (r ≠ 0 ∧ t = w.vm))

theorem Agreed.allocates {kernelEnd : Nat} {w : PageAlloc} (linked : Linked kernelEnd)
    (room : 2 * MALLOC_PAGES < pagingPages kernelEnd) (h : Agreed kernelEnd w) :
    Allocates kernelEnd w := by
  obtain ⟨last, few⟩ := h.layout linked room
  obtain ⟨aligned, start, below⟩ := lowMemory_bounds linked
  have low := h.low
  -- the paging area in frames and in addresses
  have pool : ∀ f, InPool w.vm f ↔ lowMemory kernelEnd ≤ f * PAGE_SIZE ∧
      f * PAGE_SIZE < HIGH_MEMORY0 - MALLOC_PAGES * PAGE_SIZE := by
    grind [InPool, low, PAGE_SIZE, HIGH_MEMORY0, MALLOC_PAGES]
  have fresh : ∀ pa t, getFreePage w.vm = .ok (pa, t) → pa ≠ 0 → pa % PAGE_SIZE = 0 ∧
      owner w.past (pa / PAGE_SIZE) = .free ∧ (∀ i, t.mem (pa / PAGE_SIZE) i = 0) ∧
      lowMemory kernelEnd ≤ pa ∧ pa + PAGE_SIZE ≤ HIGH_MEMORY0 - MALLOC_PAGES * PAGE_SIZE := by
    intro pa t run some_
    rcases getFreePage_cases w.vm with ⟨_, none⟩ | ⟨f, inside, unused, found⟩
    · rw [none] at run
      cases run
      exact absurd rfl some_
    · rw [found] at run
      cases run
      have frame : f * PAGE_SIZE / PAGE_SIZE = f := Nat.mul_div_cancel f (by decide)
      have free : owner w.past f = .free := by
        by_contra taken
        have used := (h.used f inside.1 (by have := inside.2; omega)).mpr taken
        rw [unused] at used
        cases used
      obtain ⟨lo, hi⟩ := (pool f).mp inside
      rw [frame]
      refine ⟨Nat.mul_mod_left f PAGE_SIZE, free, ?_, lo, ?_⟩
      · intro i
        have blank : (take w.vm f).mem f = fun _ => 0 := Function.update_self ..
        rw [blank]
      · simp only [PAGE_SIZE, HIGH_MEMORY0, MALLOC_PAGES] at hi ⊢
        omega
  refine ⟨h.count, h.used, ?_, fresh, ?_, ?_⟩
  · intro pa t run
    constructor
    · rintro rfl f lo hi
      rcases getFreePage_cases w.vm with ⟨zero, _⟩ | ⟨g, inside, _, found⟩
      · by_contra unused
        have none := Finset.filter_eq_empty_iff.mp (Finset.card_eq_zero.mp zero)
          (Finset.mem_Ico.mpr ((pool f).mpr ⟨lo, hi⟩))
        exact none (Bool.not_eq_true _ ▸ unused)
      · grind [PAGE_SIZE, Prod.mk.inj, Except.ok.inj, low, KERNEL_START]
    · intro all
      by_contra some_
      obtain ⟨whole, free, _, lo, hi⟩ := fresh pa t run some_
      have address : pa / PAGE_SIZE * PAGE_SIZE = pa := Nat.div_mul_cancel (Nat.dvd_of_mod_eq_zero whole)
      have used := all (pa / PAGE_SIZE) (by rw [address]; exact lo) (by
        rw [address]
        simp only [PAGE_SIZE] at hi ⊢
        omega)
      have inside := (pool (pa / PAGE_SIZE)).mpr (by
        rw [address]
        simp only [PAGE_SIZE] at hi ⊢
        exact ⟨lo, by omega⟩)
      exact (h.used _ inside.1 (by have := inside.2; omega)).mp used free
  · intro pa t later earlier run some_ split_
    by_contra none
    have taken := owner_since (f := pa / PAGE_SIZE) rfl later earlier
      (fun e mem frees => none ⟨e, mem, frees⟩)
    rw [← split_] at taken
    exact taken (fresh pa t run some_).2.1
  · intro start size mark region
    rcases markPhysRegion_cases start size w.vm mark region.aligned region.whole with
      ⟨none, _⟩ | ⟨u, found, _, m⟩
    · exact ⟨-2, w.vm, none, .inr ⟨by decide, rfl⟩⟩
    · refine ⟨0, u, found, .inl ⟨rfl, ?_⟩⟩
      intro f
      rw [m.used f]
      by_cases inside : inRegion start size f = true
      · rw [if_pos inside]
        have range := of_decide_eq_true inside
        rw [if_pos range]
        exact ⟨m.before f range.1 range.2, rfl⟩
      · rw [if_neg inside]
        exact if_neg (fun range => inside (decide_eq_true range))

/-- In every run after `paging_init`, pages have one owner, and the map and its counter say
which pages are taken. -/
theorem pages_have_one_owner {kernelEnd : Nat} {w : PageAlloc} (linked : Linked kernelEnd)
    (reached : Reach (Booted kernelEnd) PageStep w) : Allocates kernelEnd w := by
  have kept : 2 * MALLOC_PAGES < pagingPages kernelEnd ∧ Agreed kernelEnd w := by
    refine reached.invariant (fun w => 2 * MALLOC_PAGES < pagingPages kernelEnd ∧ Agreed kernelEnd w)
      (fun w boot => boot.kept linked) ?_
    rintro s t ⟨room, kept⟩ step
    exact ⟨room, kept.step linked room step⟩
  exact kept.2.allocates linked kept.1

def bootEnd : Nat := 0x180000

def unbooted : VmState := ⟨0, 0, fun _ => false, 0, fun _ _ => 0, fun _ => ⟨0, 0, 0, 0, 0, fun _ => 0⟩⟩

theorem pages_have_one_owner_boot :
    ∃ w, Reach (Booted bootEnd) PageStep w ∧ Allocates bootEnd w := by
  have linked : Linked bootEnd := ⟨by decide, by decide⟩
  obtain ⟨t, run⟩ : ∃ t, pagingInit bootEnd unbooted = .ok (pagingPages bootEnd, t) := by
    unfold pagingInit
    rw [if_neg (by decide), run_bind (t := { unbooted with
      low := lowMemory bootEnd / PAGE_SIZE, pages := pagingPages bootEnd - MALLOC_PAGES }) (a := ()) rfl]
    rcases markPhysRegion_cases (HIGH_MEMORY0 - MALLOC_PAGES * PAGE_SIZE) (MALLOC_PAGES * PAGE_SIZE)
        { unbooted with low := lowMemory bootEnd / PAGE_SIZE, pages := pagingPages bootEnd - MALLOC_PAGES } true
        (by decide) (by decide) with ⟨_, f, _, used⟩ | ⟨u, found, _, _⟩
    · cases used
    · exact ⟨u, by rw [run_bind found]; rfl⟩
  have reached : Reach (Booted bootEnd) PageStep ⟨t, []⟩ :=
    .start ⟨rfl, unbooted, _, fun _ => rfl, rfl, run⟩
  exact ⟨_, reached, pages_have_one_owner linked reached⟩

end UvaOs.Vm
