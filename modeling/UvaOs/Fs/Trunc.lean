import UvaOs.Fs.Inode

/-! Giving blocks and references back: `itrunc` and `iput`.
The loops of `itrunc` clear bits one block at a time; `Freeing` says which are
cleared so far. Exclusivity is why no block is freed twice, so the panic of
`bfree` is out of reach. -/
namespace UvaOs.Fs

open Bytes Prog FsState Forest
open Function (update update_self update_of_ne)

theorem bfree_spec {s : FsState} {b : Nat} {E : Panic → Prop} (set : s.bitmap b = true) :
    wp (bfree b) (fun _ t => t = s.mark b false) E s := by
  have used : ¬ s.bitmap b = false := by simp [set]
  unfold bfree
  simp only [wp_bind, wp_get, if_neg used]
  exact rfl

/-- `u` is `s` in the middle of `itrunc`: the blocks in `gone` are free, and the
copy in slot `ip` has the pointers `addrs`. -/
structure Freeing (s u : FsState) (ip : Nat) (gone : Nat → Prop) (addrs : Nat → Nat) : Prop where
  sb : u.sb = s.sb
  dinode : u.dinode = s.dinode
  block : u.block = s.block
  itable : u.itable = (s.onCopy ip (fun d => { d with addrs := addrs })).itable
  bits : ∀ b, u.bitmap b = true ↔ s.bitmap b = true ∧ ¬ gone b

section Freeing

variable {s u : FsState} {ip b : Nat} {gone gone' : Nat → Prop} {addrs addrs' : Nat → Nat}

theorem Freeing.start (s : FsState) (ip : Nat) :
    Freeing s s ip (fun _ => False) (s.itable ip).copy.addrs := by
  refine ⟨rfl, rfl, rfl, ?_, fun b => by simp⟩
  simp [onCopy]

section

variable (h : Freeing s u ip gone addrs)
include h

theorem Freeing.mark (all : ∀ x, gone' x ↔ gone x ∨ x = b) :
    Freeing s (u.mark b false) ip gone' addrs := by
  refine { h with bits := ?_ }
  intro x
  by_cases e : x = b
  · subst e
    simp [all]
  · simp [h.bits, all, e]

theorem Freeing.clear (k : Nat) :
    Freeing s (u.onCopy ip (fun d => { d with addrs := update d.addrs k 0 })) ip gone
      (update addrs k 0) := by
  refine { h with itable := ?_ }
  simp [onCopy, h.itable]

theorem Freeing.addrs_now : (u.itable ip).copy.addrs = addrs := by
  rw [h.itable, itable_onCopy_self]

theorem Freeing.congr (all : ∀ x, gone' x ↔ gone x)
    (same : addrs' = addrs) : Freeing s u ip gone' addrs' := by
  refine ⟨h.sb, h.dinode, h.block, same ▸ h.itable, ?_⟩
  intro x
  rw [h.bits, all]

end

end Freeing

/- The blocks below the first `n` pointers. -/
def Below (s : FsState) (inum n b : Nat) : Prop :=
  b ≠ 0 ∧ ∃ k js, k < n ∧ (forest s).IsNode (inum, k) js ∧ (forest s).ptr (inum, k) js = b

def cleared (n : Nat) (addrs : Nat → Nat) (k : Nat) : Nat := if k < n then 0 else addrs k

section Itrunc

variable {s : FsState} {ip inum : Nat}

theorem direct_node {k : Nat} (hk : k < NDIRECT) {js : List Nat}
    (node : (forest s).IsNode (inum, k) js) : js = [] := by
  have depth : (forest s).depth (inum, k) = 0 := by
    simp only [forest]
    rw [if_neg (by simp at hk ⊢; omega), if_neg (by simp at hk ⊢; omega)]
  unfold IsNode at node
  rw [depth] at node
  exact List.length_eq_zero_iff.mp (Nat.le_zero.mp node)

theorem indirect_node {js : List Nat} (node : (forest s).IsNode (inum, NDIRECT) js) :
    js = [] ∨ ∃ j, js = [j] := by
  have short : js.length ≤ 1 := node
  match js, short with
  | [], _ => exact .inl rfl
  | [j], _ => exact .inr ⟨j, rfl⟩

theorem cleared_step (addrs : Nat → Nat) (i : Nat) :
    update (cleared i addrs) i 0 = cleared (i + 1) addrs := by
  funext k
  unfold cleared
  by_cases e : k = i
  · subst e
    simp
  · grind

theorem Freeing.still_set {u : FsState} {gone : Nat → Prop} {addrs : Nat → Nat} (h : Sound s)
    (f : Freeing s u ip gone addrs) {r : Nat × Nat} {js : List Nat}
    (node : (forest s).IsNode r js) (nz : (forest s).ptr r js ≠ 0)
    (kept : ¬ gone ((forest s).ptr r js)) : u.bitmap ((forest s).ptr r js) = true :=
  (f.bits _).mpr ⟨(h.covered r js node nz).2, kept⟩

theorem truncDirect_spec {u : FsState} {i : Nat} (h : Sound s) (c : Cached s ip inum)
    (hi : i < NDIRECT)
    (f : Freeing s u ip (Below s inum i) (cleared i (s.itable ip).copy.addrs)) (E : Panic → Prop) :
    wp (truncDirect ip i) (fun _ t =>
      Freeing s t ip (Below s inum (i + 1)) (cleared (i + 1) (s.itable ip).copy.addrs)) E u := by
  have hk : i < NDIRECT + 2 := Nat.lt_of_lt_of_le hi (by decide)
  have node : (forest s).IsNode (inum, i) [] := Nat.zero_le _
  have root : (forest s).ptr (inum, i) [] = (s.itable ip).copy.addrs i :=
    root_cached h.table c hk
  have entry : (u.itable ip).copy.addrs i = (forest s).ptr (inum, i) [] := by
    rw [f.addrs_now, root]
    exact if_neg (Nat.lt_irrefl i)
  have grows : ∀ x, Below s inum (i + 1) x ↔
      Below s inum i x ∨ (x ≠ 0 ∧ x = (forest s).ptr (inum, i) []) := by
    intro x
    constructor
    · rintro ⟨nz, k, js, lt, hn, e⟩
      rcases Nat.lt_succ_iff_lt_or_eq.mp lt with lt | rfl
      · exact .inl ⟨nz, k, js, lt, hn, e⟩
      · cases direct_node hi hn
        exact .inr ⟨nz, e.symm⟩
    · rintro (⟨nz, k, js, lt, hn, e⟩ | ⟨nz, e⟩)
      · exact ⟨nz, k, js, by omega, hn, e⟩
      · exact ⟨nz, i, [], by omega, node, e.symm⟩
  unfold truncDirect inode
  simp only [wp_bind, wp_get, wp_pure, entry]
  split
  · rename_i z
    refine f.congr ?_ ?_
    · intro x
      rw [grows, z]
      exact or_iff_left (fun k => k.1 k.2)
    · rw [← cleared_step]
      funext k
      by_cases e : k = i
      · subst e
        rw [update_self]
        unfold cleared
        rw [if_neg (Nat.lt_irrefl k), ← root, z]
      · rw [update_of_ne e]
  · rename_i nz
    have kept : ¬ Below s inum i ((forest s).ptr (inum, i) []) := by
      rintro ⟨_, k, js, lt, hn, e⟩
      have same := (h.exclusive (inum, k) js (inum, i) [] hn node (e ▸ nz) e).1
      have index : k = i := congrArg Prod.snd same
      omega
    refine wp_call (bfree_spec (f.still_set h node nz kept)) ?_
    rintro _ t rfl
    rw [wp_modify]
    have marked : Freeing s (u.mark ((forest s).ptr (inum, i) []) false) ip (Below s inum (i + 1))
        (cleared i (s.itable ip).copy.addrs) := by grind [f.mark]
    rw [← cleared_step]
    exact marked.clear i

/- The blocks freed by the first loop and by `j` turns of the second. -/
def BelowEntries (s : FsState) (inum j x : Nat) : Prop :=
  Below s inum NDIRECT x ∨
    (x ≠ 0 ∧ ∃ i, i < j ∧ word (s.block ((forest s).ptr (inum, NDIRECT) [])) i = x)

theorem truncEntry_spec {u : FsState} {j : Nat} {addrs : Nat → Nat} (h : Sound s)
    (hj : j < NINDIRECT) (top : (forest s).ptr (inum, NDIRECT) [] ≠ 0)
    (f : Freeing s u ip (BelowEntries s inum j) addrs) (E : Panic → Prop) :
    wp (if word (s.block ((forest s).ptr (inum, NDIRECT) [])) j = 0 then pure ()
      else bfree (word (s.block ((forest s).ptr (inum, NDIRECT) [])) j))
      (fun _ t => Freeing s t ip (BelowEntries s inum (j + 1)) addrs) E u := by
  have entries : ∀ i, i < NINDIRECT → word (s.block ((forest s).ptr (inum, NDIRECT) [])) i =
      (forest s).ptr (inum, NDIRECT) [i] := fun i hi => (ptr_entry top hi).symm
  have isNode : ∀ i, (forest s).IsNode (inum, NDIRECT) [i] := fun _ => Nat.le_refl 1
  have grows : ∀ x, BelowEntries s inum (j + 1) x ↔ BelowEntries s inum j x ∨
      (x ≠ 0 ∧ x = word (s.block ((forest s).ptr (inum, NDIRECT) [])) j) := by grind [BelowEntries]
  split
  · rename_i z
    refine f.congr ?_ rfl
    intro x
    rw [grows, z]
    exact or_iff_left (fun k => k.1 k.2)
  · rename_i nz
    have fresh : ¬ BelowEntries s inum j (word (s.block ((forest s).ptr (inum, NDIRECT) [])) j) := by
      rw [entries j hj] at nz ⊢
      rintro (⟨_, k, js, lt, hn, e⟩ | ⟨_, i, lt, e⟩)
      · have same := (h.exclusive (inum, k) js (inum, NDIRECT) [j] hn (isNode j) (e ▸ nz) e).1
        have index : k = NDIRECT := congrArg Prod.snd same
        omega
      · rw [entries i (by omega)] at e
        have same := (h.exclusive _ _ _ _ (isNode i) (isNode j) (e ▸ nz) e).2
        have index : i = j := by simpa using same
        omega
    have set : u.bitmap (word (s.block ((forest s).ptr (inum, NDIRECT) [])) j) = true := by
      rw [entries j hj] at nz fresh ⊢
      exact f.still_set h (isNode j) nz fresh
    refine wp_mono (bfree_spec set) ?_ (fun _ e => e)
    rintro _ t rfl
    refine f.mark ?_
    intro x
    rw [grows]
    constructor
    · grind
    · grind

theorem below_indirect (x : Nat) (top : (forest s).ptr (inum, NDIRECT) [] ≠ 0) :
    Below s inum (NDIRECT + 1) x ↔
      BelowEntries s inum NINDIRECT x ∨ x = (forest s).ptr (inum, NDIRECT) [] := by
  constructor
  · rintro ⟨nz, k, js, lt, hn, e⟩
    rcases Nat.lt_succ_iff_lt_or_eq.mp lt with lt | rfl
    · exact .inl (.inl ⟨nz, k, js, lt, hn, e⟩)
    · rcases indirect_node hn with rfl | ⟨j, rfl⟩
      · exact .inr e.symm
      · have hj : j < NINDIRECT := entry_mapped [] (e ▸ nz)
        exact .inl (.inr ⟨nz, j, hj, (ptr_entry top hj).symm.trans e⟩)
  · rintro ((⟨nz, k, js, lt, hn, e⟩ | ⟨nz, j, hj, e⟩) | e)
    · exact ⟨nz, k, js, Nat.lt_succ_of_lt lt, hn, e⟩
    · exact ⟨nz, NDIRECT, [j], Nat.lt_succ_self _, Nat.le_refl 1, (ptr_entry top hj).trans e⟩
    · exact ⟨e ▸ top, NDIRECT, [], Nat.lt_succ_self _, Nat.zero_le _, e.symm⟩

theorem below_none (x : Nat) (top : (forest s).ptr (inum, NDIRECT) [] = 0) :
    Below s inum (NDIRECT + 1) x ↔ Below s inum NDIRECT x := by
  constructor
  · rintro ⟨nz, k, js, lt, hn, e⟩
    rcases Nat.lt_succ_iff_lt_or_eq.mp lt with lt | rfl
    · exact ⟨nz, k, js, lt, hn, e⟩
    · grind [indirect_node, parent_mapped]
  · rintro ⟨nz, k, js, lt, hn, e⟩
    exact ⟨nz, k, js, Nat.lt_succ_of_lt lt, hn, e⟩

def truncate (d : Dinode) : Dinode :=
  { d with addrs := cleared (NDIRECT + 1) d.addrs, size := 0 }

structure Truncated (s t : FsState) (ip inum : Nat) : Prop where
  sb : t.sb = s.sb
  block : t.block = s.block
  itable : t.itable = (stored s ip inum truncate).itable
  dinode : t.dinode = (stored s ip inum truncate).dinode
  bits : ∀ b, t.bitmap b = true ↔ s.bitmap b = true ∧ ¬ Below s inum (NDIRECT + 1) b

theorem truncTail_spec {u : FsState} (c : Cached s ip inum)
    (f : Freeing s u ip (Below s inum (NDIRECT + 1))
      (cleared (NDIRECT + 1) (s.itable ip).copy.addrs)) :
    wp (do
      modify (·.onCopy ip (fun d => { d with size := 0 }))
      iupdate ip) (fun _ t => Truncated s t ip inum)
      (fun e => e = .bug ∧ isFattype (s.itable ip).copy.type = true) u := by
  have slot : u.itable ip = { s.itable ip with copy := { (s.itable ip).copy with
      addrs := cleared (NDIRECT + 1) (s.itable ip).copy.addrs } } := by
    rw [f.itable, itable_onCopy_self]
  have cached : Cached u ip inum := by
    unfold Cached
    rw [slot]
    exact c
  rw [wp_bind, wp_modify]
  have spec := iupdate_spec (fun d => { d with size := 0 }) cached
  rw [slot] at spec
  refine wp_mono spec ?_ (fun _ e => e)
  rintro _ t rfl
  refine ⟨f.sb, f.block, ?_, ?_, f.bits⟩
  · simp [stored, onCopy, f.itable, truncate]
  · simp [stored, onCopy, f.dinode, slot, truncate]

theorem itrunc_spec (h : Sound s) (c : Cached s ip inum) :
    wp (itrunc ip) (fun _ t => Truncated s t ip inum)
      (fun e => e = .bug ∧ isFattype (s.itable ip).copy.type = true) s := by
  have hk : NDIRECT < NDIRECT + 2 := by decide
  have root : (forest s).ptr (inum, NDIRECT) [] = (s.itable ip).copy.addrs NDIRECT :=
    root_cached h.table c hk
  have start : Freeing s s ip (Below s inum 0) (cleared 0 (s.itable ip).copy.addrs) := by
    refine (Freeing.start s ip).congr ?_ ?_
    · intro x
      exact ⟨fun ⟨_, _, _, lt, _⟩ => absurd lt (Nat.not_lt_zero _), False.elim⟩
    · rfl
  unfold itrunc
  refine wp_call (wp_forRange (fun i u => Freeing s u ip (Below s inum i)
    (cleared i (s.itable ip).copy.addrs)) NDIRECT 0 s ?_ start) ?_
  · intro i u _ hi f
    exact truncDirect_spec h c (by omega) f _
  intro _ u f
  rw [Nat.zero_add] at f
  have entry : (u.itable ip).copy.addrs NDIRECT = (forest s).ptr (inum, NDIRECT) [] := by
    rw [f.addrs_now, root]
    exact if_neg (Nat.lt_irrefl NDIRECT)
  unfold inode
  simp only [wp_bind, wp_get, wp_pure, entry]
  split
  · rename_i z
    refine truncTail_spec c (f.congr (fun x => below_none x z) ?_)
    rw [← cleared_step]
    funext k
    by_cases e : k = NDIRECT
    · rw [e, update_self]
      exact ((if_neg (Nat.lt_irrefl _)).trans (root.symm.trans z)).symm
    · rw [update_of_ne e]
  · rename_i top
    have blocks : u.block = s.block := f.block
    have first : Freeing s u ip (BelowEntries s inum 0) (cleared NDIRECT (s.itable ip).copy.addrs) := by
      refine f.congr ?_ rfl
      intro x
      refine or_iff_left ?_
      rintro ⟨_, i, lt, _⟩
      exact absurd lt (Nat.not_lt_zero i)
    unfold bread
    simp only [wp_bind, wp_get, wp_pure, blocks]
    refine wp_mono (wp_forRange (fun j u => Freeing s u ip (BelowEntries s inum j)
      (cleared NDIRECT (s.itable ip).copy.addrs)) NINDIRECT 0 u ?_ first) ?_ (fun _ e => e)
    · intro j v _ hj g
      exact truncEntry_spec h (by omega) top g _
    intro _ v g
    rw [Nat.zero_add] at g
    have node : (forest s).IsNode (inum, NDIRECT) [] := Nat.zero_le _
    have kept : ¬ BelowEntries s inum NINDIRECT ((forest s).ptr (inum, NDIRECT) []) := by
      rintro (⟨_, k, js, lt, hn, e⟩ | ⟨_, i, lt, e⟩)
      · have same := (h.exclusive _ _ _ _ hn node (e ▸ top) e).1
        have index : k = NDIRECT := congrArg Prod.snd same
        omega
      · have at_entry := (ptr_entry top lt).trans e
        have same := (h.exclusive (inum, NDIRECT) [i] (inum, NDIRECT) [] (Nat.le_refl 1) node
          (at_entry ▸ top) at_entry).2
        simp at same
    refine wp_mono (bfree_spec (g.still_set h node top kept)) ?_ (fun _ e => e)
    rintro _ w rfl
    rw [wp_modify, ← wp_bind]
    have marked := g.mark (fun x => below_indirect x top)
    have done := marked.clear NDIRECT
    rw [cleared_step] at done
    exact truncTail_spec c done

end Itrunc

theorem Table.congr {s t : FsState} (h : Table s) (sb : t.sb = s.sb) (itable : t.itable = s.itable)
    (dinode : t.dinode = s.dinode) : Table t := by
  obtain ⟨u, r, y, l⟩ := h
  refine ⟨?_, ?_, ?_, ?_⟩
  · unfold Unique
    rw [itable]
    exact u
  · rw [itable, sb]
    exact r
  · unfold Cached
    rw [itable, dinode]
    exact y
  · unfold Cached
    rw [itable, dinode]
    exact l

theorem current_eq {s t : FsState} (itable : t.itable = s.itable) (dinode : t.dinode = s.dinode) :
    current t = current s := by
  funext m
  refine current_congr ?_ (fun i _ => by rw [itable]) (by rw [dinode])
  intro i
  unfold Cached
  rw [itable]

def Shallow (inum : Nat) (r : Nat × Nat) : Prop := r.1 = inum ∧ r.2 < NDIRECT + 1

section Truncated

variable {s t : FsState} {ip inum : Nat}

section

variable (tr : Truncated s t ip inum)
include tr

theorem Truncated.now (u : Unique s) (c : Cached s ip inum) :
    current t = update (current s) inum (truncate (current s inum)) := by
  rw [current_eq tr.itable tr.dinode, current_stored u c]

theorem Truncated.pruned (u : Unique s) (c : Cached s ip inum) :
    Pruned (forest s) (forest t) (Shallow inum) := by
  have now := tr.now u c
  apply pruned_of_roots
  · rintro r ⟨e, lt⟩
    simp only [forest, now, e, update_self, truncate, cleared, if_pos lt, ite_self]
  · intro r kept
    simp only [forest, now, tr.sb]
    by_cases e : r.1 = inum
    · have deep : ¬ r.2 < NDIRECT + 1 := fun lt => kept ⟨e, lt⟩
      simp only [e, update_self, truncate, cleared, if_neg deep]
    · rw [update_of_ne e]
  · intro r js _ _ j
    simp only [forest, tr.block]

theorem Truncated.sound (h : Sound s) (c : Cached s ip inum) : Sound t := by
  have typed := (h.table.typed ip inum c).1
  have pruned := tr.pruned h.table.unique c
  have survives : ∀ r js, (forest s).IsNode r js → ¬ Shallow inum r → (forest s).ptr r js ≠ 0 →
      ¬ Below s inum (NDIRECT + 1) ((forest s).ptr r js) := by
    rintro r js node kept nz ⟨_, k, ks, lt, hn, e⟩
    obtain ⟨rfl, rfl⟩ := h.exclusive (inum, k) ks r js hn node (e ▸ nz) e
    exact kept ⟨rfl, lt⟩
  refine ⟨h.layout.congr tr.sb ?_ (by rw [tr.block]), ?_, ?_, ?_⟩
  · intro b low
    have set := h.layout.used b low
    rw [set]
    refine (tr.bits b).mpr ⟨set, ?_⟩
    -- only data blocks are freed
    rintro ⟨nz, k, js, lt, hn, e⟩
    have data := (h.covered (inum, k) js hn (e ▸ nz)).1.1
    omega
  · exact (h.table.stored (f := truncate) c typed).congr tr.sb tr.itable tr.dinode
  · exact pruned.exclusive (fun _ => rfl) h.exclusive
  · refine pruned.covered (fun _ => rfl) h.covered ?_
    rintro r js node kept nz ⟨data, set⟩
    unfold InData at data ⊢
    rw [tr.sb]
    exact ⟨data, (tr.bits _).mpr ⟨set, survives r js node kept nz⟩⟩

theorem Truncated.accounted (u : Unique s) (c : Cached s ip inum)
    (small : Layout s) (acc : Accounted s) : Accounted t := by
  refine (tr.pruned u c).accounted (fun _ => rfl) acc ?_
  rintro b ⟨data, set⟩
  obtain ⟨old, kept⟩ := (tr.bits b).mp set
  unfold InData at data
  rw [tr.sb] at data
  refine ⟨⟨data, old⟩, ?_⟩
  rintro ⟨m, k⟩ js node e ⟨rfl, lt⟩
  exact kept ⟨small.data_pos data, k, js, lt, node, e⟩

theorem Truncated.refs : Refs s t (fun _ => 0) (fun _ => 0) := by
  obtain ⟨count, keeps⟩ := stored_refs s ip inum truncate
  rw [← tr.itable] at count keeps
  exact ⟨count, keeps⟩

theorem Truncated.synced (u : Unique s) (c : Cached s ip inum) (y : Synced s) : Synced t := by
  have stored := stored_synced (f := truncate) (fun i m _ => y i m) u c
  unfold Synced Cached at stored ⊢
  rw [tr.itable, tr.dinode]
  exact stored

theorem Truncated.cached (i m : Nat) : Cached t i m ↔ Cached s i m := by
  have same : Cached (stored s ip inum truncate) i m ↔ Cached s i m := cached_stored i m
  unfold Cached at same ⊢
  rw [tr.itable]
  exact same

end

end Truncated

/-! The last reference of an inode that stays. -/

section Evict

variable {s : FsState} {ip inum : Nat}

theorem cached_evict (s : FsState) (ip j m : Nat) :
    Cached (recount s ip 0) j m ↔ j ≠ ip ∧ Cached s j m := by
  by_cases e : j = ip
  · subst e
    refine ⟨fun c => ?_, fun k => absurd rfl k.1⟩
    have pos := c.2.1
    rw [recount_ref, if_pos rfl] at pos
    exact absurd pos (Int.lt_irrefl 0)
  · simp only [ne_eq, e, not_false_eq_true, true_and]
    exact cached_putInode_ne e

theorem current_evict_self (u : Unique s) (held : Held s ip inum) :
    current (recount s ip 0) inum = s.dinode inum := by
  refine current_uncached ?_
  intro j c
  obtain ⟨ne, old⟩ := (cached_evict s ip j inum).mp c
  exact ne (u j ip old.1 held.1 old.2.1 held.2.1 (old.2.2.1.trans held.2.2.1.symm)
    (old.2.2.2.1.trans held.2.2.2.symm))

theorem current_evict_ne (held : Held s ip inum) {m : Nat} (ne : m ≠ inum) :
    current (recount s ip 0) m = current s m := by
  refine current_congr ?_ (fun j _ => (recount_fields s ip 0 j).2.2.2) rfl
  intro j
  rw [cached_evict]
  refine ⟨fun k => k.2, fun c => ⟨?_, c⟩⟩
  rintro rfl
  exact ne (c.2.2.2.1.symm.trans held.2.2.2)

theorem current_valid (u : Unique s) (held : Held s ip inum) :
    Cached s ip inum ∨ current s inum = s.dinode inum := by
  by_cases valid : (s.itable ip).valid = true
  · exact .inl (held.cached valid)
  · refine .inr (current_uncached ?_)
    intro j c
    have same := u j ip c.1 held.1 c.2.1 held.2.1 (c.2.2.1.trans held.2.2.1.symm)
      (c.2.2.2.1.trans held.2.2.2.symm)
    exact valid (same ▸ c.2.2.2.2)

theorem evict_synced (y : Synced s) : Synced (recount s ip 0) := by
  intro j m c
  rw [(recount_fields s ip 0 j).2.2.2]
  exact y j m ((cached_evict s ip j m).mp c).2

theorem evict_quiet (u : Unique s) (held : Held s ip inum) (y : Synced s) :
    Quiet s (recount s ip 0) := by
  refine ⟨rfl, rfl, rfl, rfl, ?_, evict_synced⟩
  intro m
  by_cases e : m = inum
  · subst e
    rw [current_evict_self u held]
    rcases current_valid u held with c | same
    · rw [current_cached u c, y ip m c]
    · exact same.symm
  · exact current_evict_ne held e

theorem evict_pruned (h : Table s) (held : Held s ip inum) :
    Pruned (forest s) (forest (recount s ip 0))
      (fun r => r.1 = inum ∧ (s.dinode inum).addrs r.2 = 0) := by
  have self := current_evict_self h.unique held
  apply pruned_of_roots
  · rintro r ⟨e, z⟩
    simp only [forest, e, self, z, ite_self]
  · intro r kept
    by_cases e : r.1 = inum
    · have nz : (s.dinode inum).addrs r.2 ≠ 0 := fun z => kept ⟨e, z⟩
      simp only [forest, e, self]
      rcases current_valid h.unique held with c | same
      · rw [current_cached h.unique c, (h.typed ip inum c).2,
          (h.lag ip inum c r.2).resolve_right nz]
        rfl
      · rw [same]
        rfl
    · simp only [forest, current_evict_ne held e]
      rfl
  · intro r js _ _ j
    rfl

theorem Sound.evict (h : Sound s) (held : Held s ip inum) : Sound (recount s ip 0) := by
  have pruned := evict_pruned h.table held
  refine ⟨h.layout.congr rfl (fun _ _ => rfl) rfl, ?_, ?_, ?_⟩
  · exact h.table.recount (fun pos => absurd pos (Int.lt_irrefl 0))
  · exact pruned.exclusive (fun _ => rfl) h.exclusive
  · exact pruned.covered (fun _ => rfl) h.covered (fun _ _ _ _ _ ok => ok)

theorem release_refs (s : FsState) (ip : Nat) :
    Refs s (recount s ip ((s.itable ip).ref - 1)) (one ip) (fun _ => 0) := by
  constructor
  · intro j
    rw [recount_ref]
    by_cases e : j = ip
    · subst e
      rw [if_pos rfl, one_self]
      omega
    · rw [if_neg e, one_ne e]
      omega
  · grind [recount_fields]

end Evict

theorem Sound.release {s : FsState} {ip inum : Nat} (h : Sound s) (held : Held s ip inum) :
    Sound (recount s ip ((s.itable ip).ref - 1)) ∧
      (Synced s → Quiet s (recount s ip ((s.itable ip).ref - 1))) := by
  have pos := held.2.1
  by_cases last : (s.itable ip).ref = 1
  · have zero : (s.itable ip).ref - 1 = 0 := by omega
    rw [zero]
    exact ⟨h.evict held, evict_quiet h.table.unique held⟩
  · have quiet : Quiet s (recount s ip ((s.itable ip).ref - 1)) :=
      recount_quiet pos (by omega)
    exact ⟨quiet.sound h (h.table.recount (fun _ => pos)), fun _ => quiet⟩

/-! The last reference of an inode without links. -/

def retire (d : Dinode) : Dinode := { d with type := .free }

def retired (s : FsState) (ip inum : Nat) : FsState :=
  recount ((stored s ip inum retire).putInode ip
    { (stored s ip inum retire).itable ip with valid := false }) ip 0

section Retired

variable {s : FsState} {ip inum : Nat}

theorem itable_retired_ne {j : Nat} (e : j ≠ ip) : (retired s ip inum).itable j = s.itable j := by
  unfold retired recount
  rw [itable_putInode_ne e, itable_putInode_ne e]
  exact itable_onCopy_ne s retire e

theorem itable_retired_self : (retired s ip inum).itable ip = { s.itable ip with
      copy := retire (s.itable ip).copy, valid := false, ref := 0 } := by
  simp [retired, recount, stored, onCopy]

theorem cached_retired (j m : Nat) : Cached (retired s ip inum) j m ↔ j ≠ ip ∧ Cached s j m := by
  by_cases e : j = ip
  · subst e
    refine ⟨fun c => ?_, fun k => absurd rfl k.1⟩
    have pos := c.2.1
    rw [itable_retired_self] at pos
    exact absurd pos (Int.lt_irrefl 0)
  · unfold Cached
    rw [itable_retired_ne e]
    simp only [ne_eq, e, not_false_eq_true, true_and]

theorem dinode_retired : (retired s ip inum).dinode =
    update s.dinode inum (retire (s.itable ip).copy) := by
  simp [retired, recount, stored, onCopy]

theorem current_retired (u : Unique s) (c : Cached s ip inum) :
    current (retired s ip inum) = update (current s) inum (retire (current s inum)) := by
  funext m
  by_cases e : m = inum
  · subst e
    have none : ∀ j, ¬ Cached (retired s ip m) j m := by grind [cached_retired, cached_unique]
    rw [current_uncached none, dinode_retired, update_self, update_self,
      current_cached u c]
  · rw [update_of_ne e]
    have apart : ∀ j, Cached s j m → j ≠ ip := by
      rintro j cj rfl
      exact e (cj.2.2.2.1.symm.trans c.2.2.2.1)
    refine current_congr ?_ ?_ ?_
    · grind [cached_retired]
    · intro j cj
      rw [itable_retired_ne (apart j cj)]
    · rw [dinode_retired, update_of_ne e]

theorem Table.retired (h : Table s) (c : Cached s ip inum) : Table (retired s ip inum) := by
  have alive : ∀ j, 0 < ((UvaOs.Fs.retired s ip inum).itable j).ref → j ≠ ip := by
    rintro j pos rfl
    rw [itable_retired_self] at pos
    exact absurd pos (Int.lt_irrefl 0)
  have disk : ∀ j m, j ≠ ip → Cached s j m →
      (UvaOs.Fs.retired s ip inum).dinode m = s.dinode m := by
    intro j m ne old
    have apart : m ≠ inum := by
      rintro rfl
      exact ne (cached_unique h.unique old c)
    rw [dinode_retired, update_of_ne apart]
  refine ⟨?_, ?_, ?_, ?_⟩
  · intro j k hj hk rj rk
    have ej := alive j rj
    have ek := alive k rk
    rw [itable_retired_ne ej] at rj ⊢
    rw [itable_retired_ne ek] at rk ⊢
    exact h.unique j k hj hk rj rk
  · intro j hj rj
    have ej := alive j rj
    rw [itable_retired_ne ej] at rj ⊢
    exact h.range j hj rj
  · grind [h.typed, cached_retired, itable_retired_ne]
  · grind [h.lag, cached_retired, itable_retired_ne]

theorem Synced.retired (y : Synced s) (u : Unique s) (c : Cached s ip inum) :
    Synced (retired s ip inum) := by
  intro j m cj
  obtain ⟨ne, old⟩ := (cached_retired j m).mp cj
  have apart : m ≠ inum := by
    rintro rfl
    exact ne (cached_unique u old c)
  rw [itable_retired_ne ne, dinode_retired, update_of_ne apart]
  exact y j m old

theorem retired_pruned (u : Unique s) (c : Cached s ip inum) :
    Pruned (forest s) (forest (retired s ip inum)) (fun r => r.1 = inum) := by
  have now := current_retired u c
  apply pruned_of_roots
  · intro r e
    simp only [forest, now, e, update_self, retire, ne_eq, not_true_eq_false, and_false,
      if_false]
  · intro r kept
    simp only [forest, now, update_of_ne kept]
    rfl
  · intro r js _ _ j
    rfl

theorem Sound.retired (h : Sound s) (c : Cached s ip inum) : Sound (retired s ip inum) := by
  have pruned := retired_pruned h.table.unique c
  refine ⟨h.layout.congr rfl (fun _ _ => rfl) rfl, h.table.retired c, ?_, ?_⟩
  · exact pruned.exclusive (fun _ => rfl) h.exclusive
  · exact pruned.covered (fun _ => rfl) h.covered (fun _ _ _ _ _ ok => ok)

theorem retired_accounted (u : Unique s) (small : Layout s) (c : Cached s ip inum)
    (bare : ∀ k js, (forest s).ptr (inum, k) js = 0) (acc : Accounted s) :
    Accounted (retired s ip inum) := by
  refine (retired_pruned u c).accounted (fun _ => rfl) acc ?_
  rintro b ⟨data, set⟩
  refine ⟨⟨data, set⟩, ?_⟩
  rintro ⟨m, k⟩ js _ e rfl
  exact small.data_pos data (e.symm.trans (bare k js))

end Retired

structure Freed (s t : FsState) (inum : Nat) : Prop where
  sb : t.sb = s.sb
  block : t.block = s.block
  now : ∃ d : Dinode, d.type = .free ∧ current t = update (current s) inum d
  pruned : Pruned (forest s) (forest t) (fun r => r.1 = inum)
  synced : Synced s → Synced t
  accounted : (current s inum).addrs (NDIRECT + 1) = 0 → Accounted s → Accounted t
  bits : ∀ b, t.bitmap b = true ↔ s.bitmap b = true ∧ ¬ Below s inum (NDIRECT + 1) b

theorem ptr_rootless {F : Forest (Nat × Nat)} {r : Nat × Nat} (z : F.root r = 0)
    (js : List Nat) : F.ptr r js = 0 := by
  induction js using List.reverseRecOn with
  | nil => exact z
  | append_singleton js j ih => rw [ptr_snoc, ih, child_zero]

theorem Truncated.freed {s t : FsState} {ip inum : Nat} (tr : Truncated s t ip inum) (h : Sound s)
    (c : Cached s ip inum) : Freed s (retired t ip inum) inum := by
  have sound := tr.sound h c
  have cached := (tr.cached ip inum).mpr c
  have now := tr.now h.table.unique c
  have first := tr.pruned h.table.unique c
  have second := retired_pruned sound.table.unique cached
  refine ⟨tr.sb, tr.block, ?_, ?_, ?_, ?_, tr.bits⟩
  · refine ⟨retire (truncate (current s inum)), rfl, ?_⟩
    rw [current_retired sound.table.unique cached, now, update_self, Function.update_idem]
  · intro r js node
    constructor
    · intro e
      exact (second r js node).1 e
    · intro ne
      rw [(second r js node).2 ne, (first r js node).2 (fun k => ne k.1)]
  · intro y
    exact (tr.synced h.table.unique c y).retired sound.table.unique cached
  · intro shallow acc
    refine retired_accounted sound.table.unique sound.layout cached ?_
      (tr.accounted h.table.unique c h.layout acc)
    intro k js
    refine ptr_rootless ?_ js
    simp only [forest, now, update_self, truncate, cleared]
    split
    · grind
    · rfl

theorem retired_refs {s : FsState} {ip : Nat} (inum : Nat) (last : (s.itable ip).ref = 1) :
    Refs s (retired s ip inum) (one ip) (fun _ => 0) := by
  constructor
  · grind [itable_retired_self, one_self, itable_retired_ne, one_ne]
  · grind [spare, one_self, itable_retired_ne]

/-- The condition under which `iput` frees the inode. -/
def LastUnlinked (s : FsState) (ip : Nat) : Prop :=
  (s.itable ip).ref = 1 ∧ (s.itable ip).valid = true ∧ (s.itable ip).copy.nlink = 0

instance (s : FsState) (ip : Nat) : Decidable (LastUnlinked s ip) :=
  inferInstanceAs (Decidable (_ ∧ _ ∧ _))

theorem iput_spec {s : FsState} {ip inum : Nat} (h : Sound s) (held : Held s ip inum) :
    wp (iput ip) (fun _ t => Sound t ∧ Refs s t (one ip) (fun _ => 0) ∧
      (LastUnlinked s ip → Freed s t inum) ∧ (¬ LastUnlinked s ip → Synced s → Quiet s t))
      (fun e => e = .bug ∧ isFattype (s.itable ip).copy.type = true) s := by
  unfold iput inode
  simp only [wp_bind, wp_get, wp_pure]
  split
  · rename_i last
    have c := held.cached last.2.1
    split
    · rename_i fat
      exact ⟨rfl, fat⟩
    · refine wp_call (itrunc_spec h c) ?_
      intro _ t tr
      have cached := (tr.cached ip inum).mpr c
      have ref : (t.itable ip).ref = 1 := by
        rw [tr.refs.count ip, last.1]
        rfl
      simp only [wp_bind, wp_modify]
      refine wp_mono (iupdate_spec retire cached) ?_ (fun _ e => absurd e.2 (by simp [retire, isFattype]))
      rintro _ u rfl
      have final : ∀ r : Int, r = 0 → recount ((stored t ip inum retire).putInode ip
          { (stored t ip inum retire).itable ip with valid := false }) ip r =
          retired t ip inum := by
        rintro r rfl
        rfl
      have zero : (((stored t ip inum retire).putInode ip
          { (stored t ip inum retire).itable ip with valid := false }).itable ip).ref - 1 = 0 := by
        simp [stored, onCopy, ref]
      have state := final _ zero
      unfold recount at state
      rw [state]
      have refs : Refs s (retired t ip inum) (one ip) (fun _ => 0) :=
        tr.refs.trans (retired_refs inum ref) (fun j => one_nonneg ip j) (fun j => by omega)
          (fun j => by omega)
      exact ⟨(tr.sound h c).retired cached, refs, fun _ => tr.freed h c, fun k => absurd last k⟩
  · rename_i stays
    obtain ⟨sound, quiet⟩ := h.release held
    exact ⟨sound, release_refs s ip, fun k => absurd k stays, fun _ => quiet⟩

end UvaOs.Fs
