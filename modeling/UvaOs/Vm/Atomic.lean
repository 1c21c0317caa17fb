import UvaOs.Vm.Record

/-! A call of `map_page` that fails. The undo loop frees the tables of the walk and then clears an
entry of its own array instead of the descriptors, so a failure is undone only if it comes before
the first table. -/
namespace UvaOs.Vm

open Prog VmState

/-- A failed call of `map_page` for `m` has left no trace, and what the tables of `m` refer to is
allocated. -/
structure Undone (s t : VmState) (m : Nat) : Prop where
  mm : t.mm = s.mm
  translation : ∀ k va, pte t k va = pte s k va
  used : t.used = s.used
  held : ∀ ks, ks.length ≤ 4 → node t m ks ≠ 0 → t.used (node t m ks) = true

/-- The call is refused for the number of user pages, or it fails at its first table, or it does
not fail. -/
def FailsEarly (s : VmState) (m va page : Nat) : Prop :=
  (page ≠ 0 ∧ (s.mm m).userPagesCount ≥ MAX_TASK_USER_PAGES) ∨ Barred s m va ∨ Supplied s m va

section

variable {s t : VmState} {m : Nat}

theorem Undone.refl (h : Tables s m) : Undone s s m :=
  ⟨rfl, fun _ _ => rfl, rfl, fun ks short there => (h.held () ks short there).2⟩

theorem Dangling.not_undone (dangling : Dangling t m) : ¬ Undone s t m := by
  obtain ⟨ks, short, there, unused⟩ := dangling
  intro undone
  rw [undone.held ks (by omega) there] at unused
  cases unused

/-- A failure of `map_page` is atomic if and only if it comes before the first table that the
walk allocates. -/
theorem map_page_atomic (h : Tables s m) (va page : Nat) (perm : BitVec 64) :
    (∀ t, mapPage m va page true perm s = .ok (none, t) → Undone s t m) ↔
      FailsEarly s m va page := by
  by_cases full : page ≠ 0 ∧ (s.mm m).userPagesCount ≥ MAX_TASK_USER_PAGES
  · refine ⟨fun _ => .inl full, fun _ t run => ?_⟩
    rw [mapPage_eq, if_pos ⟨full.1, rfl, full.2⟩] at run
    cases run
    exact .refl h
  have below : page ≠ 0 → (s.mm m).userPagesCount < MAX_TASK_USER_PAGES := by omega
  rcases mapPage_walks va h with ⟨u, new, found, run⟩ | ⟨barred, run⟩ | ⟨short, fed, t, _, dangling, run⟩
  · refine ⟨fun _ => .inr (.inr found.supplied), fun _ t failed => ?_⟩
    rw [run page perm below] at failed
    exact absurd failed mapFound_some
  · refine ⟨fun _ => .inr (.inl barred), fun _ t failed => ?_⟩
    rw [run page perm] at failed
    cases failed
    exact .refl h
  · constructor
    · intro atomic
      exact absurd (atomic t (run page perm below)) dangling.not_undone
    · rintro (limit | barred | supplied)
      · exact absurd limit full
      · exact absurd barred fed
      · exact absurd supplied short

end

def smallPool (pages : Nat) : VmState :=
  ⟨1, pages, fun _ => false, 0, fun _ _ => 0, fun _ => ⟨0, 0, 0, 0, 0, fun _ => 0⟩⟩

theorem smallPool_tables {pages : Nat} (few : pages ≤ 1) : Tables (smallPool pages) 0 := by
  refine .of_pgd rfl Nat.one_pos ?_
  simp only [smallPool, PAGE_SIZE, PHYS_SIZE]
  omega

theorem smallPool_free (pages : Nat) : free (smallPool pages) = pages := by
  simp [free, smallPool]

theorem map_page_atomic_none : mapPage 0 0 0x5000 true MM_AP_RW (smallPool 0) = .ok (none, smallPool 0) ∧
    Undone (smallPool 0) (smallPool 0) 0 := by
  have run : mapPage 0 0 0x5000 true MM_AP_RW (smallPool 0) = .ok (none, smallPool 0) := rfl
  have early : FailsEarly (smallPool 0) 0 0 0x5000 :=
    Or.inr (.inl ⟨by rw [need_of_pgd rfl]; decide, .inl (smallPool_free 0)⟩)
  exact ⟨run, (map_page_atomic (smallPool_tables (by decide)) 0 0x5000 MM_AP_RW).mpr early _ run⟩

theorem failed_map_dangles : Tables (smallPool 1) 0 ∧
    ∃ t, mapPage 0 0 0x5000 true MM_AP_RW (smallPool 1) = .ok (none, t) ∧ Dangling t 0 ∧
      ¬ Undone (smallPool 1) t 0 := by
  have tables := smallPool_tables (Nat.le_refl 1)
  have four : need (smallPool 1) 0 0 = 4 := need_of_pgd rfl 0
  have one := smallPool_free 1
  refine ⟨tables, ?_⟩
  rcases mapPage_walks 0 tables with ⟨u, new, found, _⟩ | ⟨barred, _⟩ | ⟨_, _, t, _, dangling, run⟩
  · have enough := found.supplied.1
    omega
  · rcases barred.2 with none | ⟨_, limit⟩
    · omega
    · cases limit
  · exact ⟨t, run 0x5000 MM_AP_RW (fun _ => by decide), dangling, dangling.not_undone⟩

end UvaOs.Vm
