import UvaOs.Fs.Pointers
import UvaOs.Lib.Fill

/-! Block allocation. Every allocation of `bmap` hangs one zeroed block at one
empty node of the inode being mapped, so the effect of a whole call is a
composition of such steps; `Grow` collects what they have in common. -/
namespace UvaOs.Fs

open Bytes Prog FsState Finset Forest
open Function (update update_of_ne)

variable {s : FsState} {b n : Nat} {bitmap : Nat → Bool}

/- The two panics that later results exclude; allocation never raises them. -/
def Benign (e : Panic) : Prop := e ≠ .ilockNoType ∧ e ≠ .unlinkNlink

theorem firstFree_some {c : Nat} (h : firstFree bitmap b n = some c) :
    c < b + n ∧ bitmap c = false := by
  induction n generalizing b with
  | zero => simp [firstFree] at h
  | succ n ih => grind [firstFree, Option.some.inj]

theorem firstFree_none (h : firstFree bitmap b n = none) :
    ∀ c, b ≤ c → c < b + n → bitmap c = true := by
  induction n generalizing b with
  | zero =>
    intro c lo hi
    omega
  | succ n ih => grind [firstFree]

/-- `balloc` either takes a block whose bit was clear, and clears its contents,
or finds every bit set and does nothing. -/
theorem balloc_spec (s : FsState) (E : Panic → Prop) : wp balloc (fun b t =>
      (b < s.sb.size ∧ s.bitmap b = false ∧ t = (s.mark b true).putBlock b zeros) ∨
      (b = 0 ∧ t = s ∧ ∀ c, c < s.sb.size → s.bitmap c = true)) E s := by
  unfold balloc
  rw [wp_bind, wp_get]
  cases found : firstFree s.bitmap 0 s.sb.size with
  | some b =>
    have facts := firstFree_some found
    exact .inl ⟨by omega, facts.2, rfl⟩
  | none =>
    refine .inr ⟨rfl, rfl, ?_⟩
    intro c hc
    exact firstFree_none found c (Nat.zero_le c) (by omega)

theorem Layout.data_pos (h : Layout s) (hb : InData s b) : b ≠ 0 := by
  have := h.reserved
  have := hb.1
  omega

theorem Layout.free_pos (h : Layout s) (hb : s.bitmap b = false) : b ≠ 0 := by
  rintro rfl
  have set := h.used 0 (Nat.sub_pos_of_lt h.reserved)
  rw [hb] at set
  contradiction

theorem Layout.free_data (h : Layout s) (hb : s.bitmap b = false)
    (lt : b < s.sb.size) : InData s b := by
  refine ⟨Nat.le_of_not_lt ?_, lt⟩
  intro low
  rw [h.used b low] at hb
  contradiction

theorem Sound.fresh (h : Sound s) (hb : s.bitmap b = false)
    (r : Nat × Nat) (js : List Nat) (node : (forest s).IsNode r js) : (forest s).ptr r js ≠ b := by
  intro e
  by_cases z : (forest s).ptr r js = 0
  · exact h.layout.free_pos hb (e.symm.trans z)
  · have set := (h.covered r js node z).2
    rw [e, hb] at set
    contradiction

def spare (s : FsState) : Nat := ((Finset.range s.sb.size).filter (fun b => s.bitmap b = false)).card

/-- The empty nodes of `A` were given free blocks, unless there were too few. -/
abbrev Paid (s t : FsState) (A : Finset ((Nat × Nat) × List Nat)) (done : Prop) : Prop :=
  Forest.Paid (forest s) (forest t) (spare s) (spare t) A done

section Paid

variable {s t : FsState} {r : Nat × Nat} {js : List Nat} {b : Nat}

theorem spare_full (full : ∀ x, x < s.sb.size → s.bitmap x = true) : spare s = 0 := by
  rw [spare, card_eq_zero, filter_eq_empty_iff]
  intro x hx
  rw [full x (mem_range.mp hx)]
  simp

theorem spare_take (free : s.bitmap b = false) (lt : b < s.sb.size) (sb : t.sb = s.sb)
    (bits : t.bitmap = update s.bitmap b true) : spare t + 1 = spare s := by
  have rest : (Finset.range t.sb.size).filter (fun x => t.bitmap x = false) =
      ((Finset.range s.sb.size).filter (fun x => s.bitmap x = false)).erase b := by
    ext x
    rw [bits, sb, mem_erase, mem_filter, mem_filter]
    by_cases e : x = b <;> simp [e, update_of_ne]
  have mem : b ∈ (Finset.range s.sb.size).filter (fun x => s.bitmap x = false) := by
    simp [free, lt]
  rw [spare, rest, spare, card_erase_add_one mem]

theorem lack_singleton (empty : (forest s).ptr r js = 0) :
    (forest s).lack {(r, js)} = {(r, js)} := by
  rw [lack, filter_singleton, if_pos empty]

theorem spent_nothing {A : Finset ((Nat × Nat) × List Nat)} (none : (forest s).lack A = ∅) :
    Spent (forest s) (forest s) (spare s) (spare s) A := by
  refine ⟨?_, by rw [none]; rfl⟩
  rw [none]
  exact .same (fun _ => rfl) (fun _ _ _ => rfl)

/- The three ways to come to the block of one node: it is there, a free block is hung in, or
there is none. -/
theorem paid_there (nz : (forest s).ptr r js ≠ 0) :
    Paid s s {(r, js)} ((forest s).ptr r js ≠ 0) := by
  have none : (forest s).lack {(r, js)} = ∅ := by
    rw [Forest.lack, filter_singleton, if_neg nz]
  exact .inl ⟨nz, spent_nothing none⟩

theorem paid_hung (att : Forest.Attached (forest s) (forest t) r js b)
    (node : (forest s).IsNode r js) (empty : (forest s).ptr r js = 0) (new : b ≠ 0)
    (free : s.bitmap b = false) (lt : b < s.sb.size) (sb : t.sb = s.sb)
    (bits : t.bitmap = update s.bitmap b true) : Paid s t {(r, js)} (b ≠ 0) := by
  refine .inl ⟨new, ?_⟩
  constructor
  · rw [lack_singleton empty]
    exact att.filled (fun _ => rfl) node empty new
  · rw [lack_singleton empty]
    exact spare_take free lt sb bits

theorem paid_none (empty : (forest s).ptr r js = 0)
    (full : ∀ x, x < s.sb.size → s.bitmap x = true) : Paid s s {(r, js)} (0 ≠ 0) := by
  refine .inr ⟨fun ne => ne rfl, ?_⟩
  rw [lack_singleton empty, spare_full full]
  exact Nat.one_pos

end Paid

variable {t u : FsState} {js : List Nat} {inum ip k : Nat} {a : Nat → Nat}

/- Only the pointers of the slot's copy differ. -/
def SameButAddrs (s t : FsState) (ip : Nat) : Prop :=
  ∃ a, t.itable = (s.onCopy ip (fun d => { d with addrs := a })).itable

/- The used data blocks are all at nodes. -/
def Accounted (s : FsState) : Prop :=
  (forest s).Accounted (fun b => InData s b ∧ s.bitmap b = true)

def Owned (s : FsState) (inum b : Nat) : Prop :=
  b ≠ 0 ∧ ∃ k js, (forest s).IsNode (inum, k) js ∧ (forest s).ptr (inum, k) js = b

/-- The blocks that have changed belong to the inode. -/
def Within (s t : FsState) (inum : Nat) : Prop := ∀ b, t.block b ≠ s.block b → Owned t inum b

/-- Blocks were hung into the inode of slot `ip`, or data of it was written. -/
structure Touched (s t : FsState) (ip : Nat) : Prop where
  sb : t.sb = s.sb
  dinode : t.dinode = s.dinode
  itable : SameButAddrs s t ip
  keeps : ∀ r js, (forest s).IsNode r js → (forest s).ptr r js ≠ 0 →
    (forest t).ptr r js = (forest s).ptr r js
  foreign : ∀ r js, r.1 ≠ (s.itable ip).inum → (forest s).IsNode r js →
    (forest t).ptr r js = (forest s).ptr r js
  accounted : Accounted s → Accounted t
  within : Within s t (s.itable ip).inum

/-- `t` is `s` after some blocks were hung into the inode of slot `ip`. -/
structure Grow (s t : FsState) (ip : Nat) : Prop extends Touched s t ip where
  data : ∀ r js, (forest s).IsNode r js → ¬ (forest s).IsIndex r js →
    (forest s).ptr r js ≠ 0 → t.block ((forest s).ptr r js) = s.block ((forest s).ptr r js)
  blank : ∀ r js, (forest s).IsNode r js → ¬ (forest s).IsIndex r js →
    (forest s).ptr r js = 0 → (forest t).ptr r js ≠ 0 → t.block ((forest t).ptr r js) = zeros

theorem SameButAddrs.refl (s : FsState) (ip : Nat) : SameButAddrs s s ip := by
  refine ⟨(s.itable ip).copy.addrs, ?_⟩
  simp [onCopy]

section

variable (h : SameButAddrs s t ip)
include h

theorem SameButAddrs.trans (k : SameButAddrs t u ip) : SameButAddrs s u ip := by
  obtain ⟨a, ha⟩ := h
  obtain ⟨b, hb⟩ := k
  refine ⟨b, ?_⟩
  rw [hb]
  simp [onCopy, ha]

theorem SameButAddrs.fields (i : Nat) :
    (t.itable i).ref = (s.itable i).ref ∧ (t.itable i).dev = (s.itable i).dev ∧
      (t.itable i).inum = (s.itable i).inum ∧ (t.itable i).valid = (s.itable i).valid := by
  obtain ⟨a, ha⟩ := h
  rw [ha]
  by_cases e : i = ip
  · subst e
    rw [itable_onCopy_self]
    exact ⟨rfl, rfl, rfl, rfl⟩
  · rw [itable_onCopy_ne s _ e]
    exact ⟨rfl, rfl, rfl, rfl⟩

theorem SameButAddrs.cached (i inum : Nat) : Cached t i inum ↔ Cached s i inum := by
  obtain ⟨r, d, n, v⟩ := h.fields i
  unfold Cached
  rw [r, d, n, v]

theorem SameButAddrs.unique (u : Unique s) : Unique t := by
  intro i j hi hj ri rj de ne
  obtain ⟨a1, a2, a3, _⟩ := h.fields i
  obtain ⟨b1, b2, b3, _⟩ := h.fields j
  rw [a1] at ri
  rw [b1] at rj
  rw [a2, b2] at de
  rw [a3, b3] at ne
  exact u i j hi hj ri rj de ne

theorem SameButAddrs.current_ne
    (disk : t.dinode = s.dinode) (c : Cached s ip inum) {m : Nat} (ne : m ≠ inum) :
    current t m = current s m := by
  obtain ⟨a, ha⟩ := h
  have step : current t m = current (s.onCopy ip (fun d => { d with addrs := a })) m := by
    apply current_congr
    · intro i
      unfold Cached
      rw [ha]
    · intro i _
      rw [ha]
    · rw [disk]
      rfl
  rw [step, current_onCopy_ne c ne]

end

theorem Grow.cached (grow : Grow s t ip) (c : Cached s ip inum) : Cached t ip inum :=
  (grow.itable.cached ip inum).mpr c

theorem Grow.refl (s : FsState) (ip : Nat) : Grow s s ip :=
  ⟨⟨rfl, rfl, .refl s ip, fun _ _ _ _ => rfl, fun _ _ _ _ => rfl, id, fun _ ne => absurd rfl ne⟩,
    fun _ _ _ _ _ => rfl, fun _ _ _ _ z nz => absurd z nz⟩

theorem Touched.trans (h : Touched s t ip) (k : Touched t u ip) : Touched s u ip := by
  have inum : (t.itable ip).inum = (s.itable ip).inum := (h.itable.fields ip).2.2.1
  refine ⟨k.sb.trans h.sb, k.dinode.trans h.dinode, h.itable.trans k.itable, ?_, ?_,
    fun a => k.accounted (h.accounted a), ?_⟩
  · intro r js node nz
    have first := h.keeps r js node nz
    rw [k.keeps r js node (first ▸ nz), first]
  · intro r js ne node
    rw [k.foreign r js (inum ▸ ne) node, h.foreign r js ne node]
  · intro b ne
    by_cases same : u.block b = t.block b
    · obtain ⟨nz, i, js, node, rfl⟩ := h.within b (same ▸ ne)
      exact ⟨nz, i, js, node, k.keeps _ _ node nz⟩
    · exact inum ▸ k.within b same

theorem Grow.trans (h : Grow s t ip) (k : Grow t u ip) : Grow s u ip := by
  refine ⟨h.toTouched.trans k.toTouched, ?_, ?_⟩
  · intro r js node flat nz
    have first := h.keeps r js node nz
    have second := k.data r js node flat (first ▸ nz)
    rw [first] at second
    rw [second, h.data r js node flat nz]
  · intro r js node flat z nz
    by_cases early : (forest t).ptr r js = 0
    · exact k.blank r js node flat early nz
    · have same := k.keeps r js node early
      rw [same, k.data r js node flat early]
      exact h.blank r js node flat z early

theorem Table.sameButAddrs (h : Table s) (c : Cached s ip inum)
    (sb : t.sb = s.sb) (disk : t.dinode = s.dinode)
    (itable : t.itable = (s.onCopy ip (fun d => { d with addrs := a })).itable)
    (lag : ∀ j, (s.dinode inum).addrs j = a j ∨ (s.dinode inum).addrs j = 0) : Table t := by
  have same : SameButAddrs s t ip := ⟨a, itable⟩
  refine ⟨same.unique h.unique, ?_, ?_, ?_⟩
  · intro i hi
    obtain ⟨r, d, n, _⟩ := same.fields i
    rw [r, d, n, sb]
    exact h.range i hi
  · intro i m ci
    have cs := (same.cached i m).mp ci
    have old := h.typed i m cs
    have type : (t.itable i).copy.type = (s.itable i).copy.type := by
      rw [itable]
      by_cases e : i = ip
      · rw [e, itable_onCopy_self]
      · rw [itable_onCopy_ne s _ e]
    rw [type, disk]
    exact old
  · intro i m ci j
    have cs := (same.cached i m).mp ci
    rw [itable, disk]
    by_cases e : i = ip
    · subst e
      have number : m = inum := cs.2.2.2.1.symm.trans c.2.2.2.1
      rw [itable_onCopy_self, number]
      exact lag j
    · rw [itable_onCopy_ne s _ e]
      exact h.lag i m cs j

theorem attach_grow (h : Sound s)
    (c : Cached s ip inum) (free : s.bitmap b = false) (lt : b < s.sb.size)
    (sb : t.sb = s.sb) (disk : t.dinode = s.dinode) (bits : t.bitmap = update s.bitmap b true)
    (itable : t.itable = (s.onCopy ip (fun d => { d with addrs := a })).itable)
    (lag : ∀ j, (s.dinode inum).addrs j = a j ∨ (s.dinode inum).addrs j = 0)
    (node : (forest s).IsNode (inum, k) js) (empty : (forest s).ptr (inum, k) js = 0)
    (att : Attached (forest s) (forest t) (inum, k) js b) (blank : t.block b = zeros)
    (boot : t.block 0 = s.block 0)
    (data : ∀ r ks, (forest s).IsNode r ks → ¬ (forest s).IsIndex r ks →
      (forest s).ptr r ks ≠ 0 → t.block ((forest s).ptr r ks) = s.block ((forest s).ptr r ks))
    (within : Within s t inum) : Sound t ∧ Grow s t ip := by
  have depth : ∀ r, (forest t).depth r = (forest s).depth r := fun _ => rfl
  have fresh := h.fresh free
  have inData : ∀ x, InData t x ↔ InData s x := by
    intro x
    unfold InData
    rw [sb]
  have set : ∀ x, t.bitmap x = true ↔ x = b ∨ s.bitmap x = true := by
    intro x
    rw [bits]
    by_cases e : x = b <;> simp [e, update_of_ne]
  constructor
  · refine ⟨⟨sb ▸ h.layout.reserved, sb ▸ h.layout.small, ?_, boot.trans h.layout.boot⟩,
      h.table.sameButAddrs c sb disk itable lag,
      att.exclusive depth (fun r ks node _ => fresh r ks node) h.exclusive, ?_⟩
    · grind [h.layout.used]
    · grind [att.covered, h.covered, h.layout.free_data]
  · refine ⟨⟨sb, disk, ⟨a, itable⟩, fun r ks hn nz => att.keeps empty hn nz, ?_, ?_,
      c.2.2.2.1.symm ▸ within⟩, data, ?_⟩
    · intro r ks ne hn
      refine (att r ks hn).2 ?_
      rintro ⟨rfl, _⟩
      exact ne c.2.2.2.1.symm
    · intro acc
      refine att.accounted depth node empty acc ?_
      intro x hx
      refine ⟨h.layout.data_pos ((inData x).mp hx.1), ?_⟩
      rcases (set x).mp hx.2 with e | old
      · exact .inl e
      · exact .inr ⟨(inData x).mp hx.1, old⟩
    · intro r ks hn _ z nz
      by_cases here : r = (inum, k) ∧ ks = js
      · rw [(att r ks hn).1 here]
        exact blank
      · rw [(att r ks hn).2 here] at nz
        exact absurd z nz

theorem root_cached (h : Table s) (c : Cached s ip inum)
    (hk : k < NDIRECT + 2) : (forest s).root (inum, k) = (s.itable ip).copy.addrs k := by
  have inside : inum < s.sb.ninodes := by
    have := h.range ip c.1 c.2.1 c.2.2.1
    rwa [c.2.2.2.1] at this
  have now := current_cached h.unique c
  have typed := (h.typed ip inum c).1
  have all : k < NDIRECT + 2 ∧ inum < s.sb.ninodes ∧ (current s inum).type ≠ .free :=
    ⟨hk, inside, now ▸ typed⟩
  change (if _ then _ else _) = _
  rw [if_pos all, now]

/-- The state after a root of the inode in slot `ip` received block `b`. -/
def rootAttached (s : FsState) (ip k b : Nat) : FsState :=
  ((s.mark b true).putBlock b zeros).onCopy ip
    (fun d => { d with addrs := update d.addrs k b })

theorem rootAttached_grow (h : Sound s) (c : Cached s ip inum)
    (hk : k < NDIRECT + 2) (empty : (s.itable ip).copy.addrs k = 0) (free : s.bitmap b = false)
    (lt : b < s.sb.size) : Sound (rootAttached s ip k b) ∧ Grow s (rootAttached s ip k b) ip ∧
      Attached (forest s) (forest (rootAttached s ip k b)) (inum, k) [] b := by
  have nz := h.layout.free_pos free
  have itable : (rootAttached s ip k b).itable = (s.onCopy ip (fun d =>
      { d with addrs := update (s.itable ip).copy.addrs k b })).itable := by
    simp [rootAttached, onCopy]
  have lag : ∀ j, (s.dinode inum).addrs j = update (s.itable ip).copy.addrs k b j ∨
      (s.dinode inum).addrs j = 0 := by grind [h.table.lag]
  have table : Table (rootAttached s ip k b) :=
    h.table.sameButAddrs (t := rootAttached s ip k b) c rfl rfl itable lag
  have same : SameButAddrs s (rootAttached s ip k b) ip := ⟨_, itable⟩
  have cached := (same.cached ip inum).mpr c
  have here : (forest (rootAttached s ip k b)).root (inum, k) = b := by
    rw [root_cached table cached hk, itable, itable_onCopy_self]
    simp
  have roots : ∀ r, r ≠ (inum, k) →
      (forest (rootAttached s ip k b)).root r = (forest s).root r := by
    rintro ⟨m, j⟩ ne
    by_cases e : m = inum
    · subst e
      have apart : j ≠ k := fun e => ne (by rw [e])
      by_cases hj : j < NDIRECT + 2
      · rw [root_cached table cached hj, root_cached h.table c hj, itable, itable_onCopy_self]
        simp [update_of_ne apart]
      · have out : ∀ u : FsState, (forest u).root (m, j) = 0 := by
          intro u
          simp only [forest, hj, false_and, if_false]
        rw [out, out]
    · have now := same.current_ne rfl c e
      simp only [forest, now]
      rfl
  have words : ∀ x j, x ≠ b →
      (forest (rootAttached s ip k b)).word x j = (forest s).word x j := by
    intro x j ne
    have block : (rootAttached s ip k b).block x = s.block x := by
      simp [rootAttached, onCopy, update_of_ne ne]
    simp only [forest, block]
  have blank : ∀ j, (forest (rootAttached s ip k b)).word b j = 0 := by
    intro j
    have block : (rootAttached s ip k b).block b = zeros := by simp [rootAttached, onCopy]
    simp only [forest, block, word_zeros, ite_self]
  have bare : (forest s).root (inum, k) = 0 := by rw [root_cached h.table c hk, empty]
  have att := attached_root bare (h.fresh free) here roots blank words
  have node : (forest s).IsNode (inum, k) [] := Nat.zero_le _
  have grown := attach_grow (t := rootAttached s ip k b) h c free lt rfl rfl rfl itable lag node
    bare att (by simp [rootAttached, onCopy])
    (by simp [rootAttached, onCopy, update_of_ne nz.symm]) (by
      intro r ks hn _ _
      simp [rootAttached, onCopy, update_of_ne (h.fresh free r ks hn)]) (by
      intro x ne
      obtain rfl : x = b := not_not.mp (fun out => ne (update_of_ne out ..))
      exact ⟨nz, k, [], node, (att _ _ node).1 ⟨rfl, rfl⟩⟩)
  exact ⟨grown.1, grown.2, att⟩

/-- The state after entry `j` of index block `addr` received block `b`. -/
def entryAttached (s : FsState) (addr j b : Nat) : FsState :=
  ((s.mark b true).putBlock b zeros).putBlock addr
    (setWord (((s.mark b true).putBlock b zeros).block addr) j b)

theorem entryAttached_grow {j : Nat} (h : Sound s)
    (c : Cached s ip inum) (index : (forest s).IsIndex (inum, k) js)
    (parent : (forest s).ptr (inum, k) js ≠ 0) (hj : j < NINDIRECT)
    (empty : word (s.block ((forest s).ptr (inum, k) js)) j = 0) (free : s.bitmap b = false)
    (lt : b < s.sb.size) : Sound (entryAttached s ((forest s).ptr (inum, k) js) j b) ∧
      Grow s (entryAttached s ((forest s).ptr (inum, k) js) j b) ip ∧
      Attached (forest s) (forest (entryAttached s ((forest s).ptr (inum, k) js) j b))
        (inum, k) (js ++ [j]) b := by
  have nz := h.layout.free_pos free
  have apart := h.fresh free (inum, k) js index.node
  have small : b < 2 ^ 32 := Nat.lt_of_lt_of_le lt h.layout.small
  generalize he : (forest s).ptr (inum, k) js = addr at *
  have at_addr : (entryAttached s addr j b).block addr = setWord (s.block addr) j b := by
    simp [entryAttached, update_of_ne apart]
  have at_b : (entryAttached s addr j b).block b = zeros := by
    simp [entryAttached, update_of_ne apart.symm]
  have elsewhere : ∀ x, x ≠ addr → x ≠ b → (entryAttached s addr j b).block x = s.block x := by
    intro x ha hb
    simp [entryAttached, update_of_ne ha, update_of_ne hb]
  have itable : (entryAttached s addr j b).itable =
      (s.onCopy ip (fun d => { d with addrs := (s.itable ip).copy.addrs })).itable := by
    simp [entryAttached, onCopy]
  have same : SameButAddrs s (entryAttached s addr j b) ip := ⟨_, itable⟩
  have currents : ∀ m, current (entryAttached s addr j b) m = current s m := by
    intro m
    exact current_congr (fun i => same.cached i m) (fun _ _ => rfl) rfl
  have roots : ∀ r, (forest (entryAttached s addr j b)).root r = (forest s).root r := by
    intro r
    simp only [forest, currents]
    rfl
  have blank : ∀ i, (forest (entryAttached s addr j b)).word b i = 0 := by
    intro i
    simp only [forest, at_b, word_zeros, ite_self]
  have here : (forest (entryAttached s addr j b)).word addr j = b := by
    simp only [forest, at_addr, if_pos hj]
    exact word_setWord_same _ _ _ small
  have words : ∀ x i, x ≠ b → (x ≠ addr ∨ i ≠ j) →
      (forest (entryAttached s addr j b)).word x i = (forest s).word x i := by
    grind [forest, word_setWord_ne]
  have bare : (forest s).word addr j = 0 := by simp only [forest, empty, ite_self]
  have hole : (forest s).ptr (inum, k) (js ++ [j]) = 0 := by
    rw [ptr_snoc, he, child_of_ne parent, bare]
  have att : Attached (forest s) (forest (entryAttached s addr j b)) (inum, k) (js ++ [j]) b :=
    attached_entry h.exclusive index (he ▸ parent) (he ▸ bare) nz (h.fresh free) roots blank
      (he ▸ here) (he ▸ words)
  have node : (forest s).IsNode (inum, k) (js ++ [j]) := index.snoc
  have grown := attach_grow (t := entryAttached s addr j b) h c free lt rfl rfl rfl itable
    (h.table.lag ip inum c) node hole att at_b (elsewhere 0 parent.symm nz.symm) (by
      intro r ks hn flat hz
      refine elsewhere _ ?_ (h.fresh free r ks hn)
      intro e
      obtain ⟨rfl, rfl⟩ := h.exclusive r ks (inum, k) js hn index.node hz (e.trans he.symm)
      exact flat index) (by
      intro x ne
      by_cases own : x = addr
      · exact ⟨own ▸ parent, k, js, index.node, (att.keeps hole index.node (he ▸ parent)).trans (he.trans own.symm)⟩
      · obtain rfl : x = b := not_not.mp (fun out => ne (elsewhere x own out))
        exact ⟨nz, k, js ++ [j], node, (att _ _ node).1 ⟨rfl, rfl⟩⟩)
  exact ⟨grown.1, grown.2, att⟩

end UvaOs.Fs
