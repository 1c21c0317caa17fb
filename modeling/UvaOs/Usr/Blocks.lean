import UvaOs.Usr.Umalloc

/-! A program and its heap: `malloc`, `free` of blocks that are live, and stores to them. -/
namespace UvaOs.Umalloc

open Prog List

structure World where
  heap : Heap
  live : List (Nat × Nat)

/-- The store may change what the headers at other addresses would be, but for those that lie
outside the block. -/
def Outside (b : Nat × Nat) (x : Nat) : Prop := x + HEADER ≤ b.1 ∨ b.1 + b.2 ≤ x

inductive Call where
  | malloc (nbytes : BitVec 32) (grant : Nat → Bool)
  | free (b : Nat × Nat)
  | store (b : Nat × Nat) (ptr size : Nat → Nat)

/-- What a program may ask for: it frees and writes to live blocks only. -/
def Call.Allowed (w : World) : Call → Prop
  | .malloc .. => True
  | .free b => b ∈ w.live
  | .store b ptr size => b ∈ w.live ∧
      ∀ x, Outside b x → ptr x = w.heap.ptr x ∧ size x = w.heap.size x

/-- The loops of a function come to an end: with enough fuel it returns `x`. -/
def Ends {α : Type} (f : Nat → Option α) (x : α) : Prop := ∃ bound, ∀ fuel, bound ≤ fuel → f fuel = some x

inductive Returns (w : World) : Call → World → Prop
  | malloc {nbytes grant r t} : Ends (fun fuel => malloc fuel grant nbytes.toNat w.heap) (r, t) →
      Returns w (.malloc nbytes grant)
        ⟨t, if r = 0 then w.live else (r, nbytes.toNat) :: w.live⟩
  | free {b t} : Ends (fun fuel => free fuel b.1 w.heap) t → Returns w (.free b) ⟨t, w.live.erase b⟩
  | store {b ptr size} : Returns w (.store b ptr size) ⟨{ w.heap with ptr := ptr, size := size }, w.live⟩

/-- A request for which the heap has to grow is one that `sbrk` takes as it is meant, and the
heap has less than 2^32 units then. -/
def Call.Fits (w : World) : Call → Prop
  | .malloc nbytes grant => Umalloc.Fits w.heap grant (units nbytes.toNat)
  | _ => True

structure Fresh (w : World) : Prop where
  base : 0 < w.heap.base ∧ w.heap.base + HEADER ≤ w.heap.start
  brk : w.heap.brk = w.heap.start
  freep : w.heap.freep = 0
  live : w.live = []

def Run (w : World) : Prop :=
  Reach Fresh (fun w v => ∃ c : Call, c.Allowed w ∧ c.Fits w ∧ Returns w c v) w

/-! What the allocator is for -/

/-- The free list: circular, in the order of the addresses except at `base`, with blocks that
neither overlap nor touch each other and are not live. -/
structure FreeList (w : World) (fs : List Nat) : Prop where
  circular : Linked w.heap.ptr w.heap.base fs w.heap.base
  rover : w.heap.freep ∈ w.heap.base :: fs
  apart : fs.Pairwise (fun a b => w.heap.stop a < b)
  inside : ∀ a ∈ fs, w.heap.start ≤ a ∧ w.heap.stop a ≤ w.heap.brk
  dead : ∀ a ∈ fs, ∀ b ∈ w.live, b.1 + b.2 ≤ a ∨ w.heap.stop a ≤ b.1

structure Sound (w : World) : Prop where
  inside : ∀ b ∈ w.live, w.heap.start ≤ b.1 ∧ b.1 + b.2 ≤ w.heap.brk
  disjoint : w.live.Pairwise (fun b c => b.1 + b.2 ≤ c.1 ∨ c.1 + c.2 ≤ b.1)
  list : w.heap.freep = 0 ∨ ∃ fs, FreeList w fs

/-! The invariant -/

def header (b : Nat × Nat) : Nat := b.1 - HEADER

structure Live (s : Heap) (fs : List Nat) (b : Nat × Nat) : Prop where
  start : s.start + HEADER ≤ b.1
  room : b.1 + b.2 ≤ s.stop (header b)
  brk : s.stop (header b) ≤ s.brk
  avoids : Avoids s fs (header b) (s.stop (header b))

def Disjoint (s : Heap) (b c : Nat × Nat) : Prop :=
  s.stop (header b) ≤ header c ∨ s.stop (header c) ≤ header b

instance (s : Heap) : Std.Symm (Disjoint s) := ⟨fun _ _ apart => apart.symm⟩

structure Heaped (s : Heap) (live : List (Nat × Nat)) (fs : List Nat) : Prop where
  blocks : Blocks s fs
  each : ∀ b ∈ live, Live s fs b
  disjoint : live.Pairwise (Disjoint s)

inductive Inv (w : World) : Prop
  | fresh : Fresh w → Inv w
  | heaped {fs} : Heaped w.heap w.live fs → Inv w

section

variable {s t : Heap} {fs fs' : List Nat} {live : List (Nat × Nat)} {b : Nat × Nat}

theorem Live.header_eq (h : Live s fs b) : header b + HEADER = b.1 := by
  have := h.start
  unfold header
  omega

theorem Live.apart (h : Live s fs b) : Apart s fs (header b) := by
  have eq := h.header_eq
  have room := h.room
  have start := h.start
  refine ⟨by omega, ?_, h.brk, h.avoids⟩
  simp only [Heap.stop, HEADER] at *
  omega

theorem Live.lt (h : Live s fs b) : header b < s.stop (header b) := by
  have pos := h.apart.size
  simp only [Heap.stop, HEADER]
  omega

theorem Live.keep (h : Live s fs b) (start : t.start = s.start) (brk : s.brk ≤ t.brk)
    (size : t.size (header b) = s.size (header b))
    (avoids : Avoids t fs' (header b) (s.stop (header b))) :
    Live t fs' b ∧ t.stop (header b) = s.stop (header b) := by
  have stop : t.stop (header b) = s.stop (header b) := by
    unfold Heap.stop
    rw [size]
  exact ⟨⟨start ▸ h.start, stop ▸ h.room, stop ▸ Nat.le_trans h.brk brk, stop ▸ avoids⟩, stop⟩

theorem disjoint_congr {c : Nat × Nat} (first : t.stop (header b) = s.stop (header b))
    (second : t.stop (header c) = s.stop (header c)) (apart : Disjoint s b c) : Disjoint t b c := by
  unfold Disjoint
  rw [first, second]
  exact apart

theorem Heaped.malloc (h : Heaped s live fs) {a nbytes : Nat} (small : nbytes < 2 ^ 32)
    (given : Given s t fs fs' a (units nbytes)) : Heaped t ((a + HEADER, nbytes) :: live) fs' := by
  have old : ∀ b ∈ live, (Live t fs' b ∧ t.stop (header b) = s.stop (header b)) ∧
      (s.stop (header b) ≤ a ∨ t.stop a ≤ header b) := by
    intro b member
    have l := h.each b member
    obtain ⟨avoids, apart, size⟩ := given.others _ _ l.lt l.brk l.avoids
    exact ⟨l.keep given.start given.brk size avoids, apart⟩
  have head : header (a + HEADER, nbytes) = a := Nat.add_sub_cancel ..
  refine ⟨given.blocks, fun b member => ?_, pairwise_cons.mpr ⟨fun b member => ?_, ?_⟩⟩
  · rcases mem_cons.mp member with rfl | earlier
    · refine ⟨Nat.add_le_add_right given.inside.1 _, ?_, ?_, ?_⟩
      · rw [head]
        simp only [Heap.stop, given.size, units, HEADER]
        omega
      · rw [head]
        exact given.inside.2
      · rw [head]
        exact given.clear
    · exact (old b earlier).1.1
  · grind [stop, Disjoint]
  · exact h.disjoint.imp_of_mem fun hb hc apart => disjoint_congr (old _ hb).1.2 (old _ hc).1.2 apart

theorem Heaped.free (h : Heaped s live fs) (member : b ∈ live) :
    ∃ t fs', Heaped t (live.erase b) fs' ∧ Ends (fun fuel => Umalloc.free fuel b.1 s) t := by
  have l := h.each b member
  obtain ⟨t, fs', freed, run⟩ := free_spec h.blocks l.apart
  rw [l.header_eq] at run
  -- the others come with `b` as the first of the list
  have perm : live.Perm (b :: live.erase b) := perm_cons_erase member
  have symm : ∀ c d, Disjoint s c d → Disjoint s d c := fun _ _ apart => apart.symm
  obtain ⟨first, rest⟩ := pairwise_cons.mp (h.disjoint.perm perm (fun apart => symm _ _ apart))
  have old : ∀ c ∈ live.erase b, Live t fs' c ∧ t.stop (header c) = s.stop (header c) := by
    intro c other
    have k := h.each c (mem_of_mem_erase other)
    have apart := first c other
    have away : s.stop (header c) ≤ header b ∨ s.stop (header b) ≤ header c := apart.symm
    have lt := k.lt
    have lt' := l.lt
    refine k.keep freed.start (Nat.le_of_eq freed.brk.symm) ?_ (freed.avoids _ _ lt away k.avoids)
    exact freed.sizes _ (by omega) (k.avoids.unlisted h.blocks lt)
  exact ⟨t, fs', ⟨freed.blocks, fun c other => (old c other).1,
    rest.imp_of_mem fun hc hd apart => disjoint_congr (old _ hc).2 (old _ hd).2 apart⟩, _, run⟩

theorem Heaped.store (h : Heaped s live fs) (member : b ∈ live) {ptr size : Nat → Nat}
    (same : ∀ x, Outside b x → ptr x = s.ptr x ∧ size x = s.size x) :
    Heaped { s with ptr := ptr, size := size } live fs := by
  have l := h.each b member
  have eq := l.header_eq
  have room := l.room
  have base : Outside b s.base := by
    have low := h.blocks.base.2
    have start := l.start
    left
    omega
  have free : ∀ a ∈ fs, Outside b a := by
    intro a listed
    have apart := l.avoids a listed
    have pos := (h.blocks.within a listed).2.1
    simp only [Outside, Heap.stop, HEADER] at *
    omega
  have headers : ∀ c ∈ live, Outside b (header c) := by
    intro c other
    by_cases self : c = b
    · left
      rw [self, eq]
    · have k := h.each c other
      have pos := k.apart.size
      have apart : Disjoint s b c :=
        h.disjoint.forall member other (Ne.symm self)
      simp only [Outside, Disjoint, Heap.stop, HEADER] at *
      omega
  have stops : ∀ x, Outside b x → Heap.stop { s with ptr := ptr, size := size } x = s.stop x := by
    intro x out
    simp only [Heap.stop, (same x out).2]
  refine ⟨⟨h.blocks.base, h.blocks.brk, ?_, ?_, ?_, ?_, h.blocks.rover⟩, ?_, ?_⟩
  · grind [h.blocks.ring.congr]
  · exact (same s.base base).2.trans h.blocks.none
  · grind [h.blocks.sorted.imp_of_mem]
  · intro a listed
    rw [stops a (free a listed)]
    obtain ⟨start, pos, top⟩ := h.blocks.within a listed
    exact ⟨start, Nat.lt_of_lt_of_eq pos (same a (free a listed)).2.symm, top⟩
  · intro c other
    have k := h.each c other
    refine (k.keep (t := { s with ptr := ptr, size := size }) rfl (Nat.le_refl _)
      (same _ (headers c other)).2 ?_).1
    intro a listed
    rw [stops a (free a listed)]
    exact k.avoids a listed
  · grind [h.disjoint.imp_of_mem, disjoint_congr]

theorem blocks_base (base : 0 < s.base ∧ s.base + HEADER ≤ s.start) (brk : s.brk = s.start) :
    Blocks { s with
      ptr := Function.update s.ptr s.base s.base
      freep := s.base
      size := Function.update s.size s.base 0 } [] where
  base := base
  brk := by
    simp only [brk, HEADER]
    omega
  ring := Function.update_self ..
  none := Function.update_self ..
  sorted := .nil
  within := nofun
  rover := mem_cons_self

theorem Blocks.freep_ne (h : Blocks s fs) : s.freep ≠ 0 := by
  have := h.base
  rcases mem_cons.mp h.rover with same | listed
  · omega
  · have := (h.within _ listed).1
    omega

theorem Heaped.ends (h : Heaped s live fs) {nbytes : Nat} (small : nbytes < 2 ^ 32)
    {grant : Nat → Bool} (fits : Fits s grant (units nbytes)) :
    ∃ r t fs', Ends (fun fuel => mallocLoop grant (units nbytes) fuel s.freep s) (r, t) ∧
      Heaped t (if r = 0 then live else (r, nbytes) :: live) fs' := by
  have pos : 0 < units nbytes := by
    unfold units HEADER
    omega
  obtain ⟨bound, r, t, run, ⟨rfl, rfl⟩ | ⟨a, fs', rfl, given⟩⟩ := mallocLoop_spec h.blocks pos fits
  · exact ⟨0, t, fs, ⟨bound, run⟩, h⟩
  · refine ⟨a + HEADER, t, fs', ⟨bound, run⟩, ?_⟩
    rw [if_neg (by unfold HEADER; omega)]
    exact h.malloc small given

end

theorem Ends.unique {α : Type} {f : Nat → Option α} {x y : α} (first : Ends f x) (second : Ends f y) :
    x = y := by
  obtain ⟨n, hn⟩ := first
  obtain ⟨m, hm⟩ := second
  have here := hn (max n m) (Nat.le_max_left ..)
  rw [hm (max n m) (Nat.le_max_right ..)] at here
  exact (Option.some.inj here).symm

section

variable {w v : World}

theorem Inv.call (inv : Inv w) {c : Call} (allowed : c.Allowed w) (fits : c.Fits w) :
    ∃ v, Returns w c v ∧ Inv v := by
  cases c with
  | malloc nbytes grant =>
    have small := nbytes.isLt
    cases inv with
    | fresh f =>
      have heaped : Heaped _ [] [] := ⟨blocks_base f.base f.brk, nofun, .nil⟩
      obtain ⟨r, t, fs, ends, after⟩ := heaped.ends small fits
      have now : Heaped t (if r = 0 then w.live else (r, nbytes.toNat) :: w.live) fs := by
        rw [f.live]
        exact after
      refine ⟨_, .malloc (r := r) (t := t) ?_, .heaped now⟩
      unfold Umalloc.malloc
      rw [if_pos f.freep]
      exact ends
    | heaped h =>
      obtain ⟨r, t, fs, ends, after⟩ := h.ends small fits
      refine ⟨_, .malloc (r := r) (t := t) ?_, .heaped after⟩
      unfold Umalloc.malloc
      rw [if_neg h.blocks.freep_ne]
      exact ends
  | free b =>
    cases inv with
    | fresh f =>
      have member : b ∈ w.live := allowed
      rw [f.live] at member
      cases member
    | heaped h =>
      obtain ⟨t, fs, after, ends⟩ := h.free allowed
      exact ⟨_, .free ends, .heaped after⟩
  | store b ptr size =>
    cases inv with
    | fresh f =>
      have member : b ∈ w.live := allowed.1
      rw [f.live] at member
      cases member
    | heaped h => exact ⟨_, .store, .heaped (h.store allowed.1 allowed.2)⟩

theorem Returns.unique {c : Call} {u : World} (first : Returns w c u) (second : Returns w c v) : u = v := by
  cases first with
  | malloc ends =>
    cases second with
    | malloc ends' =>
      cases ends.unique ends'
      rfl
  | free ends =>
    cases second with
    | free ends' =>
      cases ends.unique ends'
      rfl
  | store =>
    cases second
    rfl

theorem Run.inv (run : Run w) : Inv w := by
  refine Reach.invariant Inv (fun _ fresh => .fresh fresh) ?_ run
  rintro w v inv ⟨c, allowed, fits, returns⟩
  obtain ⟨u, returns', after⟩ := inv.call allowed fits
  exact returns'.unique returns ▸ after

theorem Inv.sound (inv : Inv w) : Sound w := by
  cases inv with
  | fresh f =>
    refine ⟨?_, ?_, .inl f.freep⟩
    · rw [f.live]
      exact nofun
    · rw [f.live]
      exact .nil
  | heaped h =>
    rename_i fs
    refine ⟨fun b member => ?_, h.disjoint.imp_of_mem fun {b c} hb hc apart => ?_, .inr ⟨fs, ?_⟩⟩
    · have l := h.each b member
      exact ⟨Nat.le_trans (Nat.le_add_right ..) l.start, Nat.le_trans l.room l.brk⟩
    · have first := h.each b hb
      have second := h.each c hc
      have := first.room
      have := second.room
      have := first.header_eq
      have := second.header_eq
      unfold Disjoint at apart
      omega
    · refine ⟨h.blocks.ring, h.blocks.rover, h.blocks.sorted, fun a listed => ?_, fun a listed b member => ?_⟩
      · obtain ⟨start, -, top⟩ := h.blocks.within a listed
        exact ⟨start, top⟩
      · have l := h.each b member
        have := l.avoids a listed
        have := l.room
        have := l.header_eq
        omega

/-- In every run whose requests fit, live blocks are apart and in the heap, the free list is sound,
and every further call returns. -/
theorem umalloc_sound (run : Run w) :
    Sound w ∧ ∀ c : Call, c.Allowed w → c.Fits w → ∃ v, Returns w c v :=
  ⟨run.inv.sound, fun _ allowed fits => (run.inv.call allowed fits).imp fun _ both => both.1⟩

def loaded : World := ⟨⟨16, 4096, 4096, fun _ => 0, fun _ => 0, 0⟩, []⟩

theorem fresh_loaded : Fresh loaded := ⟨by decide, rfl, rfl, rfl⟩

theorem umalloc_sound_hundred : ∃ v, Returns loaded (.malloc 100 fun _ => true) v ∧ Sound v := by
  have fits : Call.Fits loaded (.malloc 100 fun _ => true) := fun _ => by decide
  obtain ⟨v, returns⟩ := (umalloc_sound (.start fresh_loaded)).2 (.malloc 100 _) trivial fits
  have run : Run v := Reach.next (.start fresh_loaded) ⟨.malloc 100 _, trivial, fits, returns⟩
  exact ⟨v, returns, (umalloc_sound run).1⟩

def overrun : Heap where
  base := 16
  start := 4096
  brk := 4112
  ptr := Function.update (Function.update (Function.update (Function.update (fun _ => 0) 16 16)
    4096 16) 16 4096) 16 16
  size := Function.update (Function.update (fun _ => 0) 16 0) 4096 0x10000001
  freep := 16

/-- The request of 2^32 - 1 bytes asks `sbrk` for 16, and the block that it gets begins where the
heap ends. -/
theorem malloc_beyond_break :
    Fresh loaded ∧ ∃ v, Returns loaded (.malloc 0xffffffff fun _ => true) v ∧
      v.heap.brk = 4112 ∧ v.live = [(4112, 0xffffffff)] ∧ ¬ Sound v := by
  refine ⟨fresh_loaded, _, .malloc (r := 4112) (t := overrun) ⟨5, fun fuel enough => ?_⟩, rfl, rfl, ?_⟩
  · obtain ⟨k, rfl⟩ := Nat.exists_eq_add_of_le' enough
    rfl
  · intro sound
    exact absurd (sound.inside (4112, 0xffffffff) (by decide)).2 (by decide)

end

end UvaOs.Umalloc
