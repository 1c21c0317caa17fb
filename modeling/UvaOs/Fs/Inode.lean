import UvaOs.Fs.Bmap

/-! The inode table: taking, copying and locking a reference.
None of these changes a file. `Refs` keeps the accounts of references: what a
call consumes and what it hands out, slot by slot, and that a slot with a
reference to spare keeps its inode. -/
namespace UvaOs.Fs

open Bytes Prog FsState List
open Function (update update_self update_of_ne)

variable {s t u : FsState} {i inum : Nat} {made used : Nat → Int}

/-- Slot `i` is referenced and stands for inode `inum` of the root device. -/
def Held (s : FsState) (i inum : Nat) : Prop :=
  i < NINODE ∧ 0 < (s.itable i).ref ∧ (s.itable i).dev = ROOTDEV ∧ (s.itable i).inum = inum

instance (s : FsState) (i inum : Nat) : Decidable (Held s i inum) :=
  inferInstanceAs (Decidable (_ ∧ _ ∧ _ ∧ _))

theorem cached_iff (s : FsState) (i inum : Nat) :
    Cached s i inum ↔ Held s i inum ∧ (s.itable i).valid = true := by
  simp only [Cached, Held, and_assoc]

theorem Cached.held (c : Cached s i inum) : Held s i inum :=
  ((cached_iff s i inum).mp c).1

theorem Held.cached (h : Held s i inum)
    (valid : (s.itable i).valid = true) : Cached s i inum := (cached_iff s i inum).mpr ⟨h, valid⟩

/- The disk has every change that was made to a copy. -/
def Synced (s : FsState) : Prop := ∀ i inum, Cached s i inum → s.dinode inum = (s.itable i).copy

/-- Nothing that belongs to a file differs. -/
structure Quiet (s t : FsState) : Prop where
  sb : t.sb = s.sb
  bitmap : t.bitmap = s.bitmap
  dinode : t.dinode = s.dinode
  block : t.block = s.block
  now : ∀ m, current t m = current s m
  synced : Synced s → Synced t

theorem Quiet.refl (s : FsState) : Quiet s s := ⟨rfl, rfl, rfl, rfl, fun _ => rfl, id⟩

theorem Quiet.trans (h : Quiet s t) (k : Quiet t u) : Quiet s u :=
  ⟨k.sb.trans h.sb, k.bitmap.trans h.bitmap, k.dinode.trans h.dinode, k.block.trans h.block,
    fun m => (k.now m).trans (h.now m), fun y => k.synced (h.synced y)⟩

theorem forest_congr (sb : t.sb = s.sb) (block : t.block = s.block)
    (types : ∀ m, (current t m).type = (current s m).type)
    (addrs : ∀ m, (current t m).addrs = (current s m).addrs) : forest t = forest s := by
  simp only [forest, sb, block, types, addrs]

theorem Quiet.forest (q : Quiet s t) : forest t = forest s :=
  forest_congr q.sb q.block (fun m => by rw [q.now m]) (fun m => by rw [q.now m])

theorem Layout.congr (h : Layout s) (sb : t.sb = s.sb)
    (used : ∀ b, b < s.sb.size - s.sb.nblocks → t.bitmap b = s.bitmap b)
    (boot : t.block 0 = s.block 0) : Layout t := by
  refine ⟨sb ▸ h.reserved, sb ▸ h.small, ?_, boot.trans h.boot⟩
  intro b low
  rw [sb] at low
  rw [used b low, h.used b low]

theorem Sound.same_forest (h : Sound s) (sb : t.sb = s.sb)
    (bitmap : t.bitmap = s.bitmap) (block : t.block = s.block) (same : forest t = forest s)
    (table : Table t) : Sound t := by
  refine ⟨h.layout.congr sb (fun b _ => by rw [bitmap]) (by rw [block]), table, ?_, ?_⟩
  · rw [same]
    exact h.exclusive
  · grind [h.covered, InData]

theorem Quiet.sound (q : Quiet s t) (h : Sound s) (table : Table t) : Sound t :=
  h.same_forest q.sb q.bitmap q.block q.forest table

theorem Quiet.accounted (q : Quiet s t) (h : Accounted s) : Accounted t := by
  unfold Accounted InData at h ⊢
  rw [q.forest, q.sb, q.bitmap]
  exact h

def one (ip j : Nat) : Int := if j = ip then 1 else 0

theorem one_self (ip : Nat) : one ip ip = 1 := if_pos rfl

theorem one_ne {ip j : Nat} (h : j ≠ ip) : one ip j = 0 := if_neg h

theorem one_nonneg (ip j : Nat) : 0 ≤ one ip j := by
  unfold one
  split <;> decide

/-- From `s` to `t` the references `used` were consumed and `made` handed out. -/
structure Refs (s t : FsState) (used made : Nat → Int) : Prop where
  count : ∀ j, (t.itable j).ref = (s.itable j).ref - used j + made j
  keeps : ∀ j, used j < (s.itable j).ref → (t.itable j).dev = (s.itable j).dev ∧
    (t.itable j).inum = (s.itable j).inum ∧ ((s.itable j).valid = true → (t.itable j).valid = true)

theorem Refs.refl (s : FsState) : Refs s s (fun _ => 0) (fun _ => 0) :=
  ⟨fun j => by omega, fun _ _ => ⟨rfl, rfl, id⟩⟩

/-- The second call may consume what the first handed out, and more if the
whole is charged for it. -/
theorem Refs.trans {used' made' used'' made'' : Nat → Int}
    (h : Refs s t used made) (k : Refs t u used' made') (pays : ∀ j, used j ≤ used'' j)
    (covers : ∀ j, used j + used' j ≤ used'' j + made j)
    (total : ∀ j, made'' j - used'' j = made j - used j + made' j - used' j) :
    Refs s u used'' made'' := by
  constructor
  · intro j
    rw [k.count j, h.count j]
    have := total j
    omega
  · grind [h.keeps, k.keeps, h.count]

theorem Refs.held (h : Refs s t used made)
    (held : Held s i inum) (spare : used i < (s.itable i).ref) (left : 0 < (t.itable i).ref) :
    Held t i inum := by
  obtain ⟨d, n, _⟩ := h.keeps i spare
  exact ⟨held.1, left, d.trans held.2.2.1, n.trans held.2.2.2⟩

section PutInode

variable {s : FsState} {i : Nat} {x : Inode}

theorem itable_putInode_ne {j : Nat} (h : j ≠ i) : (s.putInode i x).itable j = s.itable j := by
  simp [update_of_ne h]

theorem itable_putInode_self : (s.putInode i x).itable i = x := by simp

theorem cached_putInode_ne {j m : Nat} (h : j ≠ i) :
    Cached (s.putInode i x) j m ↔ Cached s j m := by
  unfold Cached
  rw [itable_putInode_ne h]

end PutInode

variable {r : Int}

def recount (s : FsState) (i : Nat) (r : Int) : FsState :=
  s.putInode i { s.itable i with ref := r }

theorem recount_fields (s : FsState) (i : Nat) (r : Int) (j : Nat) :
    ((recount s i r).itable j).dev = (s.itable j).dev ∧
    ((recount s i r).itable j).inum = (s.itable j).inum ∧
    ((recount s i r).itable j).valid = (s.itable j).valid ∧
    ((recount s i r).itable j).copy = (s.itable j).copy := by
  unfold recount
  by_cases e : j = i
  · subst e
    rw [itable_putInode_self]
    exact ⟨rfl, rfl, rfl, rfl⟩
  · rw [itable_putInode_ne e]
    exact ⟨rfl, rfl, rfl, rfl⟩

theorem recount_ref (s : FsState) (i : Nat) (r : Int) (j : Nat) :
    ((recount s i r).itable j).ref = if j = i then r else (s.itable j).ref := by
  unfold recount
  by_cases e : j = i
  · subst e
    simp
  · rw [itable_putInode_ne e, if_neg e]

theorem Table.recount (h : Table s)
    (alive : 0 < r → 0 < (s.itable i).ref) : Table (recount s i r) := by
  have was : ∀ j, 0 < ((UvaOs.Fs.recount s i r).itable j).ref → 0 < (s.itable j).ref := by
    intro j pos
    rw [recount_ref] at pos
    by_cases e : j = i
    · rw [if_pos e] at pos
      exact e ▸ alive pos
    · rwa [if_neg e] at pos
  have cached : ∀ j m, Cached (UvaOs.Fs.recount s i r) j m → Cached s j m := by
    intro j m c
    obtain ⟨d, n, v, _⟩ := recount_fields s i r j
    obtain ⟨lt, pos, cd, cn, cv⟩ := c
    exact ⟨lt, was j pos, d ▸ cd, n ▸ cn, v ▸ cv⟩
  refine ⟨?_, ?_, ?_, ?_⟩
  · intro j k hj hk rj rk
    obtain ⟨dj, nj, _, _⟩ := recount_fields s i r j
    obtain ⟨dk, nk, _, _⟩ := recount_fields s i r k
    rw [dj, dk, nj, nk]
    exact h.unique j k hj hk (was j rj) (was k rk)
  · intro j hj rj
    obtain ⟨dj, nj, _, _⟩ := recount_fields s i r j
    rw [dj, nj]
    exact h.range j hj (was j rj)
  · intro j m c
    rw [(recount_fields s i r j).2.2.2]
    exact h.typed j m (cached j m c)
  · intro j m c
    rw [(recount_fields s i r j).2.2.2]
    exact h.lag j m (cached j m c)

theorem recount_quiet (pos : 0 < (s.itable i).ref) (pos' : 0 < r) : Quiet s (recount s i r) := by
  have cached : ∀ j m, Cached (recount s i r) j m ↔ Cached s j m := by
    intro j m
    obtain ⟨d, n, v, _⟩ := recount_fields s i r j
    unfold Cached
    rw [d, n, v, recount_ref]
    by_cases e : j = i
    · subst e
      simp only [if_pos, pos, pos']
    · rw [if_neg e]
  refine ⟨rfl, rfl, rfl, rfl, ?_, ?_⟩
  · intro m
    exact current_congr (fun j => cached j m) (fun j _ => (recount_fields s i r j).2.2.2) rfl
  · intro y j m c
    rw [(recount_fields s i r j).2.2.2]
    exact y j m ((cached j m).mp c)

theorem recount_refs (s : FsState) (i : Nat) :
    Refs s (recount s i ((s.itable i).ref + 1)) (fun _ => 0) (one i) := by
  constructor
  · intro j
    rw [recount_ref]
    by_cases e : j = i
    · subst e
      rw [if_pos rfl, one_self]
      omega
    · rw [if_neg e, one_ne e]
      omega
  · grind [recount_fields]

theorem idup_spec {ip : Nat} {E : Panic → Prop} (h : Sound s) (held : Held s ip inum) :
    wp (idup ip) (fun i t => i = ip ∧ Sound t ∧ Quiet s t ∧ Refs s t (fun _ => 0) (one ip)) E s := by
  have pos := held.2.1
  have quiet := recount_quiet (r := (s.itable ip).ref + 1) pos (by omega)
  exact ⟨rfl, quiet.sound h (h.table.recount (fun _ => pos)), quiet, recount_refs s ip⟩

/- An empty slot given to an inode that no slot stands for. -/
def occupy (s : FsState) (i dev inum : Nat) : FsState :=
  s.putInode i { s.itable i with dev := dev, inum := inum, ref := 1, valid := false }

section Occupy

variable {s : FsState} {i inum : Nat}

theorem cached_occupy (empty : (s.itable i).ref = 0) (j m : Nat) :
    Cached (occupy s i ROOTDEV inum) j m ↔ Cached s j m := by
  by_cases e : j = i
  · subst e
    constructor
    · intro c
      have stale := c.2.2.2.2
      simp [occupy] at stale
    · intro c
      have pos := c.2.1
      omega
  · exact cached_putInode_ne e

theorem Table.occupy (h : Table s) (empty : (s.itable i).ref = 0) (inside : inum < s.sb.ninodes)
    (absent : ∀ j, j < NINODE → ¬ (0 < (s.itable j).ref ∧ (s.itable j).dev = ROOTDEV ∧
      (s.itable j).inum = inum)) : Table (occupy s i ROOTDEV inum) := by
  have other : ∀ j, j ≠ i → (UvaOs.Fs.occupy s i ROOTDEV inum).itable j = s.itable j :=
    fun j e => itable_putInode_ne e
  have self : ((UvaOs.Fs.occupy s i ROOTDEV inum).itable i) =
      { s.itable i with dev := ROOTDEV, inum := inum, ref := 1, valid := false } :=
    itable_putInode_self
  refine ⟨?_, ?_, ?_, ?_⟩
  · intro j k hj hk rj rk de ne
    by_cases ej : j = i <;> by_cases ek : k = i
    · exact ej.trans ek.symm
    · grind
    · grind
    · rw [other j ej] at rj de ne
      rw [other k ek] at rk de ne
      exact h.unique j k hj hk rj rk de ne
  · intro j hj rj dj
    by_cases e : j = i
    · rw [e, self]
      exact inside
    · rw [other j e] at rj dj ⊢
      exact h.range j hj rj dj
  · intro j m c
    have old := (cached_occupy empty j m).mp c
    have apart : j ≠ i := by
      rintro rfl
      have pos := old.2.1
      omega
    rw [other j apart]
    exact h.typed j m old
  · intro j m c
    have old := (cached_occupy empty j m).mp c
    have apart : j ≠ i := by
      rintro rfl
      have pos := old.2.1
      omega
    rw [other j apart]
    exact h.lag j m old

theorem occupy_quiet (empty : (s.itable i).ref = 0) : Quiet s (occupy s i ROOTDEV inum) := by
  have copies : ∀ j m, Cached s j m →
      ((occupy s i ROOTDEV inum).itable j).copy = (s.itable j).copy := by
    intro j m c
    have apart : j ≠ i := by
      rintro rfl
      have pos := c.2.1
      omega
    unfold occupy
    rw [itable_putInode_ne apart]
  refine ⟨rfl, rfl, rfl, rfl, ?_, ?_⟩
  · intro m
    exact current_congr (fun j => cached_occupy empty j m) (fun j c => copies j m c) rfl
  · intro y j m c
    have old := (cached_occupy empty j m).mp c
    rw [copies j m old]
    exact y j m old

theorem occupy_refs (empty : (s.itable i).ref = 0) :
    Refs s (occupy s i ROOTDEV inum) (fun _ => 0) (one i) := by
  constructor
  · intro j
    by_cases e : j = i
    · subst e
      simp [occupy, one_self, empty]
    · unfold occupy
      rw [itable_putInode_ne e, one_ne e]
      omega
  · grind [spare, occupy, itable_putInode_ne]

end Occupy

theorem iget_room (dev inum : Nat) (lt : i < NINODE) (empty : (s.itable i).ref = 0) :
    ∃ r t, iget dev inum s = .ok (r, t) := by
  unfold iget
  rw [run_get]
  cases (List.range NINODE).find? (fun i => decide (0 < (s.itable i).ref ∧
      (s.itable i).dev = dev ∧ (s.itable i).inum = inum)) with
  | some j => exact ⟨_, _, rfl⟩
  | none =>
    cases search : (List.range NINODE).find? (fun i => decide ((s.itable i).ref = 0)) with
    | some j => exact ⟨_, _, rfl⟩
    | none => grind

theorem iget_spec (h : Sound s) (inside : inum < s.sb.ninodes) :
    wp (iget ROOTDEV inum) (fun i t => Sound t ∧ Quiet s t ∧ Held t i inum ∧
      Refs s t (fun _ => 0) (one i)) (fun e => e = .igetNoInodes) s := by
  unfold iget
  rw [wp_bind, wp_get]
  split
  · rename_i i found
    have lt := mem_range.mp (mem_of_find?_eq_some found)
    have matching := find?_some found
    obtain ⟨pos, dev, num⟩ := of_decide_eq_true matching
    have quiet := recount_quiet (r := (s.itable i).ref + 1) pos (by omega)
    have refs := recount_refs s i
    have left : 0 < ((recount s i ((s.itable i).ref + 1)).itable i).ref := by
      rw [recount_ref, if_pos rfl]
      omega
    exact ⟨quiet.sound h (h.table.recount (fun _ => pos)), quiet,
      refs.held ⟨lt, pos, dev, num⟩ pos left, refs⟩
  · rename_i none
    have absent : ∀ j, j < NINODE → ¬ (0 < (s.itable j).ref ∧ (s.itable j).dev = ROOTDEV ∧
        (s.itable j).inum = inum) := by grind
    split
    · rename_i i found
      have lt := mem_range.mp (mem_of_find?_eq_some found)
      have empty : (s.itable i).ref = 0 := by simpa using find?_some found
      have quiet : Quiet s (occupy s i ROOTDEV inum) := occupy_quiet empty
      refine ⟨quiet.sound h (h.table.occupy empty inside absent), quiet, ?_, occupy_refs empty⟩
      refine ⟨lt, ?_, ?_, ?_⟩ <;> simp
    · rfl

def loaded (s : FsState) (i : Nat) : FsState :=
  s.putInode i { s.itable i with copy := s.dinode (s.itable i).inum, valid := true }

section Loaded

variable {s : FsState} {i inum : Nat}

theorem cached_loaded (held : Held s i inum) : Cached (loaded s i) i inum := by
  obtain ⟨lt, pos, dev, num⟩ := held
  refine ⟨lt, ?_, ?_, ?_, ?_⟩ <;> simp [loaded, pos, dev, num]

theorem itable_loaded_ne {j : Nat} (e : j ≠ i) : (loaded s i).itable j = s.itable j :=
  itable_putInode_ne e

theorem loaded_fields (s : FsState) (i j : Nat) : ((loaded s i).itable j).ref = (s.itable j).ref ∧
    ((loaded s i).itable j).dev = (s.itable j).dev ∧
    ((loaded s i).itable j).inum = (s.itable j).inum := by
  by_cases e : j = i
  · subst e
    simp [loaded]
  · rw [itable_loaded_ne e]
    exact ⟨rfl, rfl, rfl⟩

theorem loaded_unique (u : Unique s) : Unique (loaded s i) := by
  intro j k hj hk rj rk
  obtain ⟨r, d, n⟩ := loaded_fields s i j
  obtain ⟨r', d', n'⟩ := loaded_fields s i k
  rw [r] at rj
  rw [r'] at rk
  rw [d, d', n, n']
  exact u j k hj hk rj rk

theorem loaded_cached_cases (held : Held s i inum) {j m : Nat} (c : Cached (loaded s i) j m) :
    (j = i ∧ m = inum) ∨ (j ≠ i ∧ Cached s j m) := by
  by_cases e : j = i
  · subst e
    have num := c.2.2.2.1
    rw [(loaded_fields s j j).2.2, held.2.2.2] at num
    exact .inl ⟨rfl, num.symm⟩
  · exact .inr ⟨e, (cached_putInode_ne e).mp c⟩

theorem loaded_copy (held : Held s i inum) : ((loaded s i).itable i).copy = s.dinode inum := by
  rw [← held.2.2.2]
  simp [loaded]

theorem Table.loaded (h : Table s) (held : Held s i inum) (typed : (s.dinode inum).type ≠ .free) :
    Table (loaded s i) := by
  refine ⟨loaded_unique h.unique, ?_, ?_, ?_⟩
  · intro j hj
    obtain ⟨r, d, n⟩ := loaded_fields s i j
    rw [r, d, n]
    exact h.range j hj
  · intro j m c
    rcases loaded_cached_cases held c with ⟨rfl, rfl⟩ | ⟨e, old⟩
    · rw [loaded_copy held]
      exact ⟨typed, rfl⟩
    · rw [itable_loaded_ne e]
      exact h.typed j m old
  · intro j m c k
    rcases loaded_cached_cases held c with ⟨rfl, rfl⟩ | ⟨e, old⟩
    · rw [loaded_copy held]
      exact .inl rfl
    · rw [itable_loaded_ne e]
      exact h.lag j m old k

theorem loaded_quiet (u : Unique s) (held : Held s i inum) (stale : (s.itable i).valid = false) :
    Quiet s (loaded s i) := by
  -- no other slot can hold a copy of the inode
  have uncached : ∀ j, ¬ Cached s j inum := by
    intro j c
    have same := u j i c.1 held.1 c.2.1 held.2.1 (c.2.2.1.trans held.2.2.1.symm)
      (c.2.2.2.1.trans held.2.2.2.symm)
    have valid := c.2.2.2.2
    rw [same, stale] at valid
    contradiction
  refine ⟨rfl, rfl, rfl, rfl, ?_, ?_⟩
  · intro m
    by_cases e : m = inum
    · grind [current_uncached, current_cached, loaded_unique, cached_loaded, loaded_copy]
    · have cached : ∀ j, Cached (loaded s i) j m ↔ Cached s j m := by
        intro j
        constructor
        · grind [loaded_cached_cases]
        · intro c
          have apart : j ≠ i := by
            rintro rfl
            exact e (c.2.2.2.1.symm.trans held.2.2.2)
          exact (cached_putInode_ne apart).mpr c
      refine current_congr cached ?_ rfl
      intro j c
      have apart : j ≠ i := by
        rintro rfl
        exact e (c.2.2.2.1.symm.trans held.2.2.2)
      rw [itable_loaded_ne apart]
  · intro y j m c
    rcases loaded_cached_cases held c with ⟨rfl, rfl⟩ | ⟨e, old⟩
    · exact (loaded_copy held).symm
    · rw [itable_loaded_ne e]
      exact y j m old

theorem loaded_refs (s : FsState) (i : Nat) : Refs s (loaded s i) (fun _ => 0) (fun _ => 0) := by
  constructor
  · intro j
    rw [(loaded_fields s i j).1]
    omega
  · intro j _
    obtain ⟨_, d, n⟩ := loaded_fields s i j
    refine ⟨d, n, fun valid => ?_⟩
    by_cases e : j = i
    · subst e
      simp [loaded]
    · rw [itable_loaded_ne e]
      exact valid

end Loaded

variable {ip : Nat}

theorem ilock_spec (h : Sound s) (held : Held s ip inum) :
    wp (ilock ip) (fun _ t => Sound t ∧ Quiet s t ∧ Cached t ip inum ∧
      Refs s t (fun _ => 0) (fun _ => 0))
      (fun e => e = .ilockNoType ∧ (current s inum).type = .free) s := by
  have alive : ¬ (s.itable ip).ref < 1 := by
    have := held.2.1
    omega
  unfold ilock inode
  simp only [wp_bind, wp_get, wp_pure, if_neg alive]
  split
  · rename_i valid
    exact ⟨h, .refl s, held.cached valid, .refl s⟩
  · rename_i stale
    have stale : (s.itable ip).valid = false := by simpa using stale
    have quiet := loaded_quiet h.table.unique held stale
    have copy := (quiet.now inum).symm.trans
      ((current_cached (loaded_unique h.table.unique) (cached_loaded held)).trans (loaded_copy held))
    simp only [wp_bind, wp_get, wp_modify]
    split
    · rename_i free
      rw [held.2.2.2] at free
      exact ⟨rfl, by rw [copy, free]⟩
    · rename_i typed
      rw [held.2.2.2] at typed
      exact ⟨quiet.sound h (h.table.loaded held typed), quiet, cached_loaded held, loaded_refs s ip⟩

/-! Changes that reach the disk at once. -/

/- The copy of `inum` in slot `ip` changed and written back by `iupdate`. -/
def stored (s : FsState) (ip inum : Nat) (f : Dinode → Dinode) : FsState :=
  (s.onCopy ip f).putDinode inum (f (s.itable ip).copy)

theorem iupdate_spec (f : Dinode → Dinode) (c : Cached s ip inum) :
    wp (iupdate ip) (fun _ t => t = stored s ip inum f)
      (fun e => e = .bug ∧ isFattype (f (s.itable ip).copy).type = true) (s.onCopy ip f) := by
  unfold iupdate inode
  simp only [wp_bind, wp_get, wp_pure]
  split
  · rename_i fat
    rw [itable_onCopy_self] at fat
    exact ⟨rfl, fat⟩
  · rw [wp_modify, itable_onCopy_self, c.2.2.2.1]
    rfl

section Stored

variable {s : FsState} {ip inum : Nat} {f : Dinode → Dinode}

theorem cached_stored (i m : Nat) : Cached (stored s ip inum f) i m ↔ Cached s i m :=
  cached_onCopy s ip i m f

theorem current_stored (u : Unique s) (c : Cached s ip inum) :
    current (stored s ip inum f) = update (current s) inum (f (current s inum)) := by
  funext m
  by_cases e : m = inum
  · subst e
    rw [update_self, current_cached u c]
    have slot : ((stored s ip m f).itable ip).copy = f (s.itable ip).copy :=
      congrArg Inode.copy (itable_onCopy_self s ip f)
    have u' : Unique (stored s ip m f) := unique_onCopy u
    rw [current_cached u' ((cached_stored ip m).mpr c), slot]
  · rw [update_of_ne e, ← current_onCopy_ne c e]
    refine current_congr (fun _ => Iff.rfl) (fun _ _ => rfl) ?_
    simp [stored, update_of_ne e]

theorem Table.stored (h : Table s) (c : Cached s ip inum)
    (typed : (f (s.itable ip).copy).type ≠ .free) : Table (stored s ip inum f) := by
  have same : (UvaOs.Fs.stored s ip inum f).itable = (s.onCopy ip f).itable := rfl
  have disk : (UvaOs.Fs.stored s ip inum f).dinode inum = f (s.itable ip).copy := by
    simp [UvaOs.Fs.stored]
  have slots : ∀ i m, Cached (UvaOs.Fs.stored s ip inum f) i m →
      (i = ip ∧ m = inum ∧ ((UvaOs.Fs.stored s ip inum f).itable i).copy = f (s.itable ip).copy) ∨
      (Cached s i m ∧ (UvaOs.Fs.stored s ip inum f).itable i = s.itable i ∧
        (UvaOs.Fs.stored s ip inum f).dinode m = s.dinode m) := by
    intro i m ci
    have old := (cached_stored i m).mp ci
    by_cases e : i = ip
    · subst e
      refine .inl ⟨rfl, old.2.2.2.1.symm.trans c.2.2.2.1, ?_⟩
      rw [same, itable_onCopy_self]
    · have apart : m ≠ inum := by
        rintro rfl
        exact e (cached_unique h.unique old c)
      refine .inr ⟨old, by rw [same, itable_onCopy_ne s f e], ?_⟩
      simp [UvaOs.Fs.stored, onCopy, update_of_ne apart]
  refine ⟨unique_onCopy h.unique, ?_, ?_, ?_⟩
  · intro i hi
    rw [same]
    by_cases e : i = ip
    · subst e
      rw [itable_onCopy_self]
      exact h.range i hi
    · rw [itable_onCopy_ne s f e]
      exact h.range i hi
  · grind [h.typed]
  · grind [h.lag]

theorem stored_synced (y : ∀ i m, i ≠ ip → Cached s i m → s.dinode m = (s.itable i).copy)
    (u : Unique s) (c : Cached s ip inum) : Synced (stored s ip inum f) := by
  intro i m ci
  have old := (cached_stored i m).mp ci
  by_cases e : i = ip
  · subst e
    have number : m = inum := old.2.2.2.1.symm.trans c.2.2.2.1
    simp [UvaOs.Fs.stored, onCopy, number]
  · have apart : m ≠ inum := by
      rintro rfl
      exact e (cached_unique u old c)
    have disk : (UvaOs.Fs.stored s ip inum f).dinode m = s.dinode m := by
      simp [UvaOs.Fs.stored, onCopy, update_of_ne apart]
    have slot : (UvaOs.Fs.stored s ip inum f).itable i = s.itable i := itable_onCopy_ne s f e
    rw [disk, slot]
    exact y i m e old

theorem stored_refs (s : FsState) (ip inum : Nat) (f : Dinode → Dinode) :
    Refs s (stored s ip inum f) (fun _ => 0) (fun _ => 0) := by
  have fields : ∀ j, ((stored s ip inum f).itable j).ref = (s.itable j).ref ∧
      ((stored s ip inum f).itable j).dev = (s.itable j).dev ∧
      ((stored s ip inum f).itable j).inum = (s.itable j).inum ∧
      ((stored s ip inum f).itable j).valid = (s.itable j).valid := by
    intro j
    have same : (stored s ip inum f).itable j = (s.onCopy ip f).itable j := rfl
    rw [same]
    by_cases e : j = ip
    · grind [itable_onCopy_self]
    · rw [itable_onCopy_ne s f e]
      exact ⟨rfl, rfl, rfl, rfl⟩
  constructor
  · intro j
    rw [(fields j).1]
    omega
  · grind

theorem stored_forest (u : Unique s) (c : Cached s ip inum)
    (addrs : (f (s.itable ip).copy).addrs = (s.itable ip).copy.addrs)
    (types : (f (s.itable ip).copy).type = .free ↔ (s.itable ip).copy.type = .free) :
    forest (stored s ip inum f) = forest s := by
  have now := current_stored (f := f) u c
  have here := current_cached u c
  have roots : (forest (stored s ip inum f)).root = (forest s).root := by
    funext r
    simp only [forest, now]
    by_cases e : r.1 = inum
    · rw [e, update_self, here, addrs]
      simp only [ne_eq, types]
      rfl
    · rw [update_of_ne e]
      rfl
  exact Forest.ext roots rfl rfl

theorem Sound.stored (h : Sound s) (c : Cached s ip inum)
    (addrs : (f (s.itable ip).copy).addrs = (s.itable ip).copy.addrs)
    (typed : (f (s.itable ip).copy).type ≠ .free) : Sound (stored s ip inum f) := by
  have types : (f (s.itable ip).copy).type = .free ↔ (s.itable ip).copy.type = .free :=
    ⟨fun e => absurd e typed, fun e => absurd e (h.table.typed ip inum c).1⟩
  exact h.same_forest rfl rfl rfl (stored_forest h.table.unique c addrs types)
    (h.table.stored c typed)

end Stored

/-! Allocating an inode. -/

theorem firstFreeInode_some {dinode : Nat → Dinode} {inum n m : Nat}
    (h : firstFreeInode dinode inum n = some m) :
    inum ≤ m ∧ m < inum + n ∧ (dinode m).type = .free := by
  induction n generalizing inum with
  | zero => simp [firstFreeInode] at h
  | succ n ih => grind [firstFreeInode, Option.some.inj]

def fresh (s : FsState) (inum : Nat) (type : IType) : FsState :=
  s.putDinode inum { Dinode.zero with type := type }

section Fresh

variable {s : FsState} {inum : Nat} {type : IType}

section

variable (h : Table s) (free : (s.dinode inum).type = .free)
include h free

theorem free_uncached (i : Nat) : ¬ Cached s i inum := by
  intro c
  have typed := h.typed i inum c
  exact typed.1 (typed.2.symm.trans free)

theorem current_fresh :
    current (fresh s inum type) = update (current s) inum { Dinode.zero with type := type } := by
  funext m
  by_cases e : m = inum
  · subst e
    have none : ∀ i, ¬ Cached (fresh s m type) i m := fun i c => free_uncached h free i c
    rw [update_self, current_uncached none]
    simp [fresh]
  · rw [update_of_ne e]
    refine current_congr (fun _ => Iff.rfl) (fun _ _ => rfl) ?_
    simp [fresh, update_of_ne e]

theorem fresh_dinode {i m : Nat}
    (c : Cached s i m) : (fresh s inum type).dinode m = s.dinode m := by
  have apart : m ≠ inum := by
    rintro rfl
    exact free_uncached h free i c
  simp [fresh, update_of_ne apart]

theorem Table.fresh : Table (fresh s inum type) := by
  refine ⟨h.unique, h.range, ?_, ?_⟩
  · intro i m c
    rw [fresh_dinode h free c]
    exact h.typed i m c
  · intro i m c
    rw [fresh_dinode h free c]
    exact h.lag i m c

end

theorem Synced.fresh (y : Synced s) (h : Table s) (free : (s.dinode inum).type = .free) :
    Synced (fresh s inum type) := by
  intro i m c
  rw [fresh_dinode h free c]
  exact y i m c

theorem fresh_forest (h : Table s) (free : (s.dinode inum).type = .free) :
    forest (fresh s inum type) = forest s := by
  have now : current (fresh s inum type) = _ := current_fresh h free
  have was : (current s inum).type = .free := by rw [current_uncached (free_uncached h free), free]
  have roots : (forest (fresh s inum type)).root = (forest s).root := by
    funext r
    simp only [forest, now]
    by_cases e : r.1 = inum
    · rw [e, update_self, was]
      simp only [Dinode.zero, ne_eq, not_true_eq_false, and_false, if_false, ite_self]
    · rw [update_of_ne e]
      rfl
  exact Forest.ext roots rfl rfl

theorem Sound.fresh_inode (h : Sound s) (free : (s.dinode inum).type = .free) :
    Sound (UvaOs.Fs.fresh s inum type) :=
  h.same_forest rfl rfl rfl (fresh_forest h.table free) (h.table.fresh free)

end Fresh

theorem ialloc_spec {s : FsState} (type : IType) (h : Sound s) :
    wp (ialloc type) (fun r t => Sound t ∧
      match r with
      | none => t = s
      | some i => ∃ inum, 0 < inum ∧ inum < s.sb.ninodes ∧ (current s inum).type = .free ∧
          (s.dinode inum).type = .free ∧ Quiet (fresh s inum type) t ∧ Held t i inum ∧
          Refs s t (fun _ => 0) (one i))
      (fun e => e = .bug ∨ e = .igetNoInodes) s := by
  unfold ialloc
  split
  · exact .inl rfl
  · rw [wp_bind, wp_get]
    cases found : firstFreeInode s.dinode 1 (s.sb.ninodes - 1) with
    | none => exact ⟨h, rfl⟩
    | some inum =>
      obtain ⟨lo, hi, free⟩ := firstFreeInode_some found
      have inside : inum < s.sb.ninodes := by omega
      have sound : Sound (fresh s inum type) := h.fresh_inode free
      rw [wp_bind, wp_modify]
      refine wp_callE (iget_spec sound inside) (fun e none => .inr none) ?_
      rintro i t ⟨soundT, quiet, held, refs⟩
      refine ⟨soundT, inum, by omega, inside, ?_, free, quiet, held, refs.count, refs.keeps⟩
      rw [current_uncached (free_uncached h.table free), free]

end UvaOs.Fs
