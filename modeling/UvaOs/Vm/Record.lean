import UvaOs.Vm.Heap

/-! The record of page tables: `kernel_pages[]` over all calls of `map_page` for one mm, and over
the trees that one `exec` after the other starts in it. -/
namespace UvaOs.Vm

open Prog VmState

structure Undisturbed (s t : VmState) (m : Nat) : Prop where
  tables : Tables t m
  nodes : ∀ ks, ks.length ≤ 3 → node t m ks = node s m ks
  records : records (t.mm m) = Vm.records (s.mm m)
  used : ∀ pa ∈ Vm.records (s.mm m), s.used (pa / PAGE_SIZE) = true → t.used (pa / PAGE_SIZE) = true

/-- The mm that `exec` fills on the side: it takes over the record, and starts a new tree. -/
def startTree (s : VmState) (m : Nat) : VmState :=
  s.putMm m ⟨0, 0, 0, 0, (s.mm m).kernelPagesCount, (s.mm m).kernelPages⟩

/-- The two ways in which the kernel calls `map_page`, with a condition `P` on the calls that
may allocate; a new tree; and everything else. -/
inductive MapStep (m : Nat) (P : VmState → Nat → Prop) : VmState → VmState → Prop
  | map {s t : VmState} {va f : Nat} {perm : BitVec 64} {r : Option (Nat × Nat)}
    (loose : Loose s m f) (low : (MMU_PTE_FLAGS ||| perm) &&& 0xfffff000#64 = 0) (meets : P s va)
    (run : mapPage m va (f * PAGE_SIZE) true perm s = .ok (r, t)) : MapStep m P s t
  | locate {s t : VmState} {va : Nat} {perm : BitVec 64} {r : Option (Nat × Nat)}
    (run : mapPage m va 0 false perm s = .ok (r, t)) : MapStep m P s t
  | exec {s : VmState} : MapStep m P s (startTree s m)
  | other {s t : VmState} (rest : Undisturbed s t m) : MapStep m P s t

def NewMm (m : Nat) (s : VmState) : Prop :=
  Tables s m ∧ (s.mm m).pgd = 0 ∧ (s.mm m).kernelPagesCount = 0

/-- Mapping a page at `va` fails before it has changed anything, or finds all the tables it
needs and has room to record them. -/
def Sparing (m : Nat) (s : VmState) (va : Nat) : Prop :=
  Stuck s m va ∨
    (Roomy s m va ∧ (s.mm m).kernelPagesCount + need s m va ≤ MAX_TASK_KER_PAGES)

/-- Every table of the tree stands in the record, the record has no doubles, and what it lists
is allocated. -/
structure Recorded (s : VmState) (m : Nat) : Prop where
  tables : Tables s m
  bound : (s.mm m).kernelPagesCount ≤ MAX_TASK_KER_PAGES
  nodup : (records (s.mm m)).Nodup
  used : ∀ pa ∈ records (s.mm m), s.used (pa / PAGE_SIZE) = true
  all : ∀ ks, ks.length ≤ 3 → node s m ks ≠ 0 → node s m ks * PAGE_SIZE ∈ records (s.mm m)

section Record

variable {s t : VmState} {m : Nat}

@[simp] theorem length_records (mm : Mm) : (records mm).length = mm.kernelPagesCount := by
  simp [records]

theorem node_of_pgd (none : (s.mm m).pgd = 0) (ks : List Nat) : node s m ks = 0 := by
  have top : node s m [] = 0 := by
    rw [node_nil, none]
    rfl
  simpa using node_append_zero top ks

theorem Tables.of_pgd (none : (s.mm m).pgd = 0) (first : 0 < s.low)
    (real : (s.low + s.pages) * PAGE_SIZE ≤ PHYS_SIZE) : Tables s m := by
  refine ⟨⟨by rw [none]; rfl, ?_, ?_⟩, first, real, ?_⟩
  · intro _ js _ _ _ _ there
    exact absurd (node_of_pgd none js) there
  · intro js _ _ there
    exact absurd (node_of_pgd none js) there
  · intro _ js _ there
    exact absurd (node_of_pgd none js) there

theorem startTree_pgd (s : VmState) (m : Nat) : ((startTree s m).mm m).pgd = 0 := by
  rw [startTree, putMm_self]

theorem startTree_records (s : VmState) (m : Nat) :
    records ((startTree s m).mm m) = records (s.mm m) := by
  rw [startTree, putMm_self]
  rfl

theorem startTree_tables (h : Tables s m) : Tables (startTree s m) m :=
  .of_pgd (startTree_pgd s m) h.first h.real

theorem Recorded.mapped {va : Nat} {x : BitVec 64} (h : Recorded s m)
    (mapped : MappedNew s t m va x)
    (room : (s.mm m).kernelPagesCount + need s m va ≤ MAX_TASK_KER_PAGES) : Recorded t m := by
  obtain ⟨new, recording⟩ := mapped.recorded
  have frame : ∀ f, f * PAGE_SIZE / PAGE_SIZE = f := fun f => Nat.mul_div_cancel f (by decide)
  refine ⟨mapped.tables, by rw [mapped.kernelPagesCount]; exact room, ?_, ?_, ?_⟩
  · rw [recording.records, List.nodup_append]
    refine ⟨h.nodup, recording.nodup.map (fun a b same => ?_), ?_⟩
    · rw [← frame a, ← frame b, same]
    · -- an old entry is in use, a new one was not
      rintro pa old pa' member rfl
      obtain ⟨f, inNew, rfl⟩ := List.mem_map.mp member
      have used := h.used _ old
      rw [frame, (recording.fresh f inNew).1] at used
      cases used
  · intro pa member
    rw [recording.records, List.mem_append] at member
    rcases member with old | new_
    · exact mapped.used _ (h.used pa old)
    · obtain ⟨f, inNew, rfl⟩ := List.mem_map.mp new_
      rw [frame]
      exact (recording.fresh f inNew).2
  · intro ks short there
    rw [recording.records, List.mem_append]
    by_cases absent : node s m ks = 0
    · exact .inr (List.mem_map_of_mem (recording.along ks short absent there))
    · grind [mapped.kept, h.all]

theorem Recorded.undisturbed (h : Recorded s m) (rest : Undisturbed s t m) : Recorded t m := by
  refine ⟨rest.tables, ?_, ?_, ?_, ?_⟩
  · rw [← length_records, rest.records, length_records]
    exact h.bound
  · rw [rest.records]
    exact h.nodup
  · grind [rest.records, rest.used, h.used]
  · grind [rest.nodes, rest.records, h.all]

theorem Recorded.startTree (h : Recorded s m) : Recorded (startTree s m) m := by
  refine ⟨startTree_tables h.tables, ?_, ?_, ?_, ?_⟩
  · rw [← length_records, startTree_records, length_records]
    exact h.bound
  · rw [startTree_records]
    exact h.nodup
  · rw [startTree_records]
    exact h.used
  · grind [node_of_pgd, startTree_pgd]

theorem Recorded.step (h : Recorded s m) (step : MapStep m (Sparing m) s t) : Recorded t m := by
  cases step with
  | map loose low meets run =>
    rename_i va f perm r
    obtain ⟨r', t', ran, outcome⟩ := mapPage_full va h.tables loose low
    rw [ran] at run
    cases run
    rcases outcome with ⟨_, _, mapped, _⟩ | ⟨_, rfl, _⟩ | ⟨_, cramped, free_, _⟩
    · rcases meets with stuck | ⟨_, room⟩
      · rename_i roomy _
        obtain ⟨user, enough, limit⟩ := roomy
        rcases stuck with exceeds | ⟨some_, none | ⟨four, full⟩⟩
        · omega
        · omega
        · have := limit some_
          omega
      · exact h.mapped mapped room
    · exact h
    · rcases meets with stuck | ⟨roomy, _⟩
      · exact absurd stuck free_
      · exact absurd roomy cramped
  | locate run => grind [mapPage_locate]
  | exec => exact h.startTree
  | other rest => exact h.undisturbed rest

end Record

/-! One exec too many -/

def emptySpace : VmState where
  low := 1
  pages := 200
  used _ := false
  pagesUsed := 0
  mem _ _ := 0
  mm _ := ⟨0, 0, 0, 0, 0, fun _ => 0⟩

theorem emptySpace_new : NewMm 0 emptySpace :=
  ⟨.of_pgd rfl (by decide) (by decide), rfl, rfl⟩

section Overflow

variable {s : VmState}

abbrev Mapping (s : VmState) : Prop := Reach (NewMm 0) (MapStep 0 fun _ _ => True) s

theorem reached_map (reached : Mapping s) (h : Tables s 0) (va : Nat)
    (user : (s.mm 0).userPagesCount < MAX_TASK_USER_PAGES) (frames : need s 0 va + 1 ≤ free s)
    (limit : (s.mm 0).kernelPagesCount + 3 ≤ MAX_TASK_KER_PAGES) :
    ∃ u f r t x, Mapping u ∧ Loose u 0 f ∧ (u.mm 0) = s.mm 0 ∧
      mapPage 0 va (f * PAGE_SIZE) true heapPerm u = .ok (some r, t) ∧ Mapping t ∧
      MappedNew u t 0 va x ∧ (∀ ks, ks.length ≤ 4 → node u 0 ks = node s 0 ks) ∧
      free u + 1 = free s ∧ need u 0 va = need s 0 va := by
  rcases getFreePage_cases s with ⟨none, _⟩ | ⟨f, pool, unused, _⟩
  · omega
  obtain ⟨tables, nodes, loose⟩ := take_tables h pool unused
  have fewer := free_take pool unused
  have needs : need (take s f) 0 va = need s 0 va := need_congr nodes va
  have got : Mapping (take s f) := by
    refine reached.next (.other ⟨tables, fun ks short => nodes ks (by omega), rfl, ?_⟩)
    intro pa _ old
    change Function.update s.used f true _ = true
    by_cases same : pa / PAGE_SIZE = f
    · rw [same, Function.update_self]
    · rw [Function.update_of_ne same, old]
  obtain ⟨r, t, ran, outcome⟩ := mapPage_full va tables loose heapPerm_low
  have roomy : Roomy (take s f) 0 va := ⟨user, by rw [needs]; omega, fun _ => limit⟩
  rcases outcome with ⟨found, _, mapped, _⟩ | ⟨_, _, stuck⟩ | ⟨_, cramped, _⟩
  · obtain ⟨place, rfl⟩ := Option.isSome_iff_exists.mp found
    exact ⟨_, f, place, t, _, got, loose, rfl, ran, got.next (.map loose heapPerm_low trivial ran),
      mapped, nodes, fewer, needs⟩
  · obtain ⟨_, enough, _⟩ := roomy
    have count : ((take s f).mm 0).kernelPagesCount = (s.mm 0).kernelPagesCount := rfl
    have total : ((take s f).mm 0).userPagesCount = (s.mm 0).userPagesCount := rfl
    unfold Stuck at stuck
    rw [count, total] at stuck
    omega
  · exact absurd roomy cramped

structure Begun (c k : Nat) (s : VmState) : Prop where
  reached : Mapping s
  tables : Tables s 0
  none : (s.mm 0).pgd = 0
  user : (s.mm 0).userPagesCount = 0
  count : (s.mm 0).kernelPagesCount = c
  free : free s + k = 200

theorem need_of_pgd (none : (s.mm 0).pgd = 0) (va : Nat) : need s 0 va = 4 :=
  if_pos (node_of_pgd none [])

theorem Begun.start : ∃ s, Begun 0 0 s :=
  ⟨emptySpace, .start emptySpace_new, emptySpace_new.1, rfl, rfl, rfl, by simp [Vm.free, emptySpace]⟩

theorem Begun.again {c k : Nat} {t : VmState} (reached : Mapping t) (tables : Tables t 0)
    (count : (t.mm 0).kernelPagesCount = c) (frames : Vm.free t + k = 200) :
    Begun c k (startTree t 0) := by
  refine ⟨reached.next .exec, startTree_tables tables, startTree_pgd t 0, ?_, ?_, frames⟩
  · rw [startTree, putMm_self]
  · rw [← count, ← length_records, startTree_records, length_records]

theorem Begun.next {c k : Nat} (h : Begun c k s) (limit : c + 3 ≤ MAX_TASK_KER_PAGES)
    (frames : k + 5 ≤ 200) : ∃ t, Begun (c + 4) (k + 5) t := by
  have four := need_of_pgd h.none 0
  have before := h.free
  have none := h.user
  obtain ⟨u, f, r, t, x, _, _, mm, _, reached, mapped, _, fewer, needs⟩ := reached_map h.reached
    h.tables 0 (by rw [none]; decide) (by omega) (by rw [h.count]; exact limit)
  have after := mapped.free
  refine ⟨_, Begun.again reached mapped.tables ?_ (by omega)⟩
  rw [mapped.kernelPagesCount, mm, h.count, needs, four]

theorem begun_many (i : Nat) (few : i ≤ 22) : ∃ s, Begun (4 * i) (5 * i) s := by
  induction i with
  | zero => exact Begun.start
  | succ i ih =>
    obtain ⟨s, begun⟩ := ih (by omega)
    have limit : MAX_TASK_KER_PAGES = 96 := rfl
    exact begun.next (by omega) (by omega)

theorem begun_odd : ∃ s, Begun 93 117 s := by
  obtain ⟨s, h⟩ := begun_many 22 (Nat.le_refl _)
  have limit : MAX_TASK_KER_PAGES = 96 := rfl
  have four := need_of_pgd h.none 0
  have before := h.free
  have nobody := h.user
  obtain ⟨u, f, r, t, x, _, _, mm, _, reached, mapped, nodes, fewer, needs⟩ := reached_map h.reached
    h.tables 0 (by rw [nobody]; decide) (by omega) (by rw [h.count]; decide)
  have after := mapped.free
  have absent := mapped.absent
  -- the way to the second table leaves the way to the first at the last level
  have path : tablePath (2 ^ 21) = [0, 0, 1] := by decide
  have first : tablePath 0 = [0, 0, 0] := by decide
  have gone : ∀ ks, node u 0 ks = 0 := by
    intro ks
    exact node_of_pgd (by rw [mm]; exact h.none) ks
  have present : ∀ ks, ks.length ≤ 3 → (node t 0 ks = 0 ↔ ¬ ks <+: [0, 0, 0]) := by grind
  have top : ¬ node t 0 [] = 0 := by
    rw [present [] (by decide)]
    decide
  have second : ¬ node t 0 [0] = 0 := by
    rw [present [0] (by decide)]
    decide
  have third : ¬ node t 0 [0, 0] = 0 := by
    rw [present [0, 0] (by decide)]
    decide
  have last : node t 0 [0, 0, 1] = 0 := by
    rw [present [0, 0, 1] (by decide)]
    decide
  have one : need t 0 (2 ^ 21) = 1 := by
    unfold need
    rw [if_neg top, path]
    simp only [missing, List.nil_append, List.cons_append]
    rw [if_neg second, if_neg third, if_pos last]
    rfl
  have kernel : (t.mm 0).kernelPagesCount = 92 := by
    rw [mapped.kernelPagesCount, mm, h.count, needs, four]
  have users : (t.mm 0).userPagesCount = 1 := by
    rw [mapped.userPagesCount, mm, nobody]
    rfl
  obtain ⟨u', f', r', t', x', _, _, mm', _, reached', mapped', _, fewer', needs'⟩ := reached_map
    reached mapped.tables (2 ^ 21) (by rw [users]; decide) (by omega) (by rw [kernel]; decide)
  have after' := mapped'.free
  refine ⟨_, Begun.again reached' mapped'.tables ?_ (by omega)⟩
  rw [mapped'.kernelPagesCount, mm', kernel, needs', one]

end Overflow

end UvaOs.Vm
