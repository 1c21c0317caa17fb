import UvaOs.Gfx.Safe

/-! The list of surfaces, and the buffers of their pixels. -/
namespace UvaOs.Sf

open Prog Alloc List

/-- Where a surface stands by its z-order; the others keep their order. -/
def stack (zorder : BitVec 32) (others : List Surface) (sf : Surface) : List Surface :=
  if zorder = ZORDER_BOTTOM then sf :: others else others ++ [sf]

def Surface.moved (r : Region) (zorder : BitVec 32) (sf : Surface) : Surface :=
  { sf with r := r, floating := sf.floating || zorder == ZORDER_FLOATING }

/-- The list that a request is to make of `l` when it is granted, the dirty flags aside. -/
def Call.Lists (l l' : List Surface) : Call → Prop
  | .init pid r zorder _ _ => pid ∉ l.map Surface.pid ∧ ∃ sf : Surface, sf.pid = pid ∧ sf.r = r ∧
    sf.floating = (zorder == ZORDER_FLOATING) ∧ l'.map Surface.clean = (stack zorder l sf).map Surface.clean
  | .config pid r zorder => ∃ sf ∈ l, sf.pid = pid ∧ l'.map Surface.clean =
    (if zorder = ZORDER_UNCHANGED then l.map fun s => if s = sf then sf.moved r zorder else s
      else stack zorder (l.erase sf) (sf.moved r zorder)).map Surface.clean
  | .fini pid _ => ∃ sf ∈ l, sf.pid = pid ∧ l' = l.erase sf
  | .exit pid _ => ∃ sf ∈ l, sf.pid = pid ∧ l' = l.erase sf
  | _ => l' = l

/-- The keyboard task of a first surface can be made, and no surface is made to float later. -/
def Call.Keeps (g : Gfx) : Call → Prop
  | .init pid r zorder transparency spawned =>
    ¬ (Call.init pid r zorder transparency spawned).Unfit g → g.sflist = [] → spawned = true
  | .config pid _ zorder => (findSf pid g.sflist).isSome → zorder ≠ ZORDER_FLOATING
  | .fini .. => True
  | .exit .. => True
  | _ => False

/-- The tasks that have made a surface and not freed it. -/
def Call.owners (ret : Int) (owners : List Nat) : Call → List Nat
  | .init pid .. => if ret < 0 then owners else pid :: owners
  | .fini pid _ => if ret < 0 then owners else owners.erase pid
  | .exit pid _ => if ret < 0 then owners else owners.erase pid
  | _ => owners

def Did (c : Call) (l : List Surface) (ret : Int) (t : Gfx) : Prop :=
  (ret < 0 ∧ t.sflist = l) ∨ (ret = 0 ∧ c.Lists l t.sflist)

/-- One node for each owner. -/
def Kept (s : Gfx × List Nat) : Prop :=
  (s.1.sflist.map Surface.pid).Nodup ∧ (s.1.sflist.map Surface.pid).Perm s.2

def Listing (screen : Region) (s : Gfx × List Nat) : Prop :=
  Reach (fun s => s.1.sflist = [] ∧ s.2 = []) (fun s t => ∃ (c : Call) (ret : Int), c.Keeps s.1 ∧
    c.run screen s.1 = .ok (ret, t.1) ∧ t.2 = c.owners ret s.2) s

section

variable {screen : Region} {g : Gfx} {zorder : BitVec 32} {l l' : List Surface} {pid : Nat} {r : Region}
  {sf : Surface} {c : Call}

theorem stack_perm (zorder : BitVec 32) (l : List Surface) (sf : Surface) : (stack zorder l sf).Perm (sf :: l) := by
  unfold stack
  split
  · exact .refl _
  · exact perm_append_singleton sf l

theorem place_stack (placed : place zorder sf l = some l') (fixed : sf.floating = false) :
    zorder ∈ [ZORDER_BOTTOM, ZORDER_TOP, ZORDER_FLOATING] ∧
      l' = stack zorder l { sf with floating := zorder == ZORDER_FLOATING } := by
  obtain ⟨pid, r, transparency, dirty, floating, self, buf⟩ := sf
  cases fixed
  unfold place at placed
  split at placed
  · rename_i bottom
    cases bottom
    cases placed
    exact ⟨by decide, rfl⟩
  split at placed
  · rename_i top
    cases top
    cases placed
    exact ⟨by decide, rfl⟩
  split at placed
  · rename_i float
    cases float
    cases placed
    exact ⟨by decide, rfl⟩
  · cases placed

theorem malloc_accepts {n p : Nat} {pool pool' : Pool} (ran : Alloc.malloc n pool = .ok (p, pool'))
    (some_ : p ≠ 0) : n ≤ MAX_ALLOC_SIZE := by
  refine Nat.le_of_not_lt fun large => ?_
  by_cases none : pool.nextBlock = 0
  · unfold Alloc.malloc at ran
    rw [run_get, if_pos none] at ran
    cases ran
  · rw [malloc_large none large] at ran
    cases ran
    exact some_ rfl

theorem onPool_keeps {α : Type} (m : Prog Pool Fault α) (same : g.sflist = l) :
    wp (onPool m) (fun a t => t.sflist = l ∧ ∃ pool, m g.pool = .ok (a, pool)) (· ≠ .dangling) g := by
  unfold wp onPool
  cases m g.pool with
  | ok out => exact ⟨same, _, rfl⟩
  | error f => exact nofun

theorem fail_did {self buf : Nat} {ret : Int} (neg : ret < 0) (same : g.sflist = l) :
    wp (fail self buf ret) (Did c l) (· ≠ .dangling) g :=
  wp_call (onPool_keeps _ same) fun _ _ first =>
    wp_call (onPool_keeps _ first.1) fun _ _ second => .inl ⟨neg, second.1⟩

theorem sfCreate_did {transparency : BitVec 32} {spawned : Bool} (call : c = .init pid r zorder transparency spawned)
    (keeps : c.Keeps g) : wp (c.run screen) (Did c g.sflist) (· ≠ .dangling) g := by
  subst call
  refine wp_call (onPool_keeps _ rfl) fun self t made => ?_
  split
  · exact .inl ⟨by decide, made.1⟩
  refine wp_call (onPool_keeps _ made.1) fun buf u filled => ?_
  split
  · exact wp_call (onPool_keeps _ filled.1) fun _ v freed => .inl ⟨by decide, freed.1⟩
  rename_i some_
  rw [wp_bind, wp_get]
  split
  · exact fail_did (by decide) filled.1
  split
  · exact fail_did (by decide) filled.1
  rename_i new _ l placed
  obtain ⟨same, pool, ran⟩ := filled
  rw [same] at new placed
  obtain ⟨known, rfl⟩ := place_stack placed rfl
  have did : ∀ t : Gfx, t.sflist = (stack zorder g.sflist ⟨pid, r, transparency, true, zorder == ZORDER_FLOATING,
      self, buf⟩).map (fun sf => { sf with dirty := true }) →
      Did (.init pid r zorder transparency spawned) g.sflist 0 t := by
    intro t same
    refine .inr ⟨rfl, fun member => ?_, _, rfl, rfl, (rfl : (zorder == ZORDER_FLOATING) = _), by
      rw [same, map_map]; rfl⟩
    obtain ⟨sf, listed, owner⟩ := mem_map.mp member
    exact new (find?_isSome.mpr ⟨sf, listed, beq_iff_eq.mpr owner⟩)
  rw [wp_bind, wp_modify]
  split
  · rename_i one
    rw [(stack_perm ..).length_eq, length_cons] at one
    have spawn : spawned = true := by
      refine keeps ?_ (length_eq_zero_iff.mp (by omega))
      rintro (unknown | again | large)
      · exact unknown known
      · exact new again
      · exact Nat.not_lt.mpr (malloc_accepts ran some_) large
    subst spawn
    exact did _ rfl
  · exact did _ rfl

theorem sfFree_did (family : Family) :
    wp (sfFree family pid) (Did (.fini pid family) g.sflist) (· ≠ .dangling) g := by
  unfold sfFree
  rw [wp_bind, wp_get]
  cases found : findSf pid g.sflist with
  | none => exact .inl ⟨by decide, rfl⟩
  | some sf =>
    obtain ⟨member, owner⟩ := findSf_mem found
    have released : ∀ t, wp (release sf) (fun _ u => u.sflist = t.sflist) (· ≠ .dangling) t := by
      intro t
      unfold release
      split
      · exact wp_call (onPool_keeps _ rfl) fun _ u first =>
          wp_mono (onPool_keeps _ first.1) (fun _ _ second => second.1) fun _ e => e
      · exact wp_mono (onPool_keeps _ rfl) (fun _ _ freed => freed.1) fun _ e => e
    dsimp only
    rw [wp_bind, wp_modify]
    split
    · rw [wp_bind, wp_modify]
      refine wp_call (released _) fun _ t freed => ?_
      have waited : wp (waitKb family pid) (fun _ u => u.sflist = t.sflist) (· ≠ .dangling) t := by
        unfold waitKb
        rw [wp_bind, wp_get]
        split
        · split
          · rfl
          · rfl
        · split
          · exact nofun
          · rfl
      exact wp_call waited fun _ u same => .inr ⟨rfl, sf, member, owner, same.trans freed⟩
    · rw [wp_bind, wp_modify]
      exact wp_call (released _) fun _ t freed => .inr ⟨rfl, sf, member, owner, freed⟩

theorem sfConfig_did (keeps : (Call.config pid r zorder).Keeps g) :
    wp (sfConfig pid r zorder) (Did (.config pid r zorder) g.sflist) (· ≠ .dangling) g := by
  unfold sfConfig
  rw [wp_bind, wp_get]
  cases found : findSf pid g.sflist with
  | none => exact .inl ⟨by decide, rfl⟩
  | some sf =>
    obtain ⟨member, owner⟩ := findSf_mem found
    have other : zorder ≠ ZORDER_FLOATING := keeps (by rw [found]; rfl)
    have moved : sf.moved r zorder = { sf with r := r } := by
      unfold Surface.moved
      rw [beq_eq_false_iff_ne.mpr other, Bool.or_false]
    dsimp only
    split
    · exact nofun
    split
    · rename_i unchanged
      refine .inr ⟨rfl, sf, member, owner, ?_⟩
      rw [moved, if_pos unchanged]
    rename_i moves
    split
    · rename_i top
      refine .inr ⟨rfl, sf, member, owner, ?_⟩
      rw [moved, if_neg moves, stack, if_neg (by rw [top]; decide), map_append, map_append]
      rfl
    split
    · rename_i bottom
      refine .inr ⟨rfl, sf, member, owner, ?_⟩
      rw [moved, if_neg moves, stack, if_pos bottom]
      rfl
    exact nofun

theorem Call.did (c : Call) (keeps : c.Keeps g) : wp (c.run screen) (Did c g.sflist) (· ≠ .dangling) g := by
  cases c with
  | init pid r zorder transparency spawned => exact sfCreate_did rfl keeps
  | config pid r zorder => exact sfConfig_did keeps
  | fini pid family => exact sfFree_did family
  | exit pid family => exact wp_call (sfFree_did family) fun _ _ did => did
  | test => cases keeps
  | write pid off data copied => cases keeps
  | flinger => cases keeps

/-- The pids on the list, after a request that was granted. -/
theorem Call.Lists.pids (lists : c.Lists l l') : (l'.map Surface.pid).Perm (c.owners 0 (l.map Surface.pid)) ∧
    ((l.map Surface.pid).Nodup → (c.owners 0 (l.map Surface.pid)).Nodup) := by
  have clean : ∀ l : List Surface, (l.map Surface.clean).map Surface.pid = l.map Surface.pid := fun l => map_map
  have erased : ∀ sf ∈ l, ((l.erase sf).map Surface.pid).Perm ((l.map Surface.pid).erase sf.pid) := by
    intro sf member
    have perm := ((perm_cons_erase member).map Surface.pid).erase sf.pid
    rw [map_cons, erase_cons_head] at perm
    exact perm.symm
  cases c with
  | init pid r zorder transparency spawned =>
    obtain ⟨new, sf, rfl, -, -, same⟩ := lists
    have pids := congrArg (List.map Surface.pid) same
    rw [clean, clean] at pids
    exact ⟨pids ▸ (stack_perm ..).map Surface.pid, fun once => nodup_cons.mpr ⟨new, once⟩⟩
  | config pid r zorder =>
    obtain ⟨sf, member, rfl, same⟩ := lists
    have pids := congrArg (List.map Surface.pid) same
    rw [clean, clean] at pids
    refine ⟨?_, id⟩
    rw [pids]
    split
    · rw [map_map]
      refine .of_eq (map_congr_left fun s _ => ?_)
      change Surface.pid (if s = sf then _ else s) = _
      split
      · rename_i same
        rw [same]
        rfl
      · rfl
    · exact ((stack_perm ..).map Surface.pid).trans ((perm_cons_erase member).symm.map Surface.pid)
  | fini pid family =>
    obtain ⟨sf, member, rfl, rfl⟩ := lists
    exact ⟨erased sf member, fun once => once.erase _⟩
  | exit pid family =>
    obtain ⟨sf, member, rfl, rfl⟩ := lists
    exact ⟨erased sf member, fun once => once.erase _⟩
  | _ => exact ⟨.of_eq (congrArg _ lists), id⟩

end

theorem bufSize_eq (w h : BitVec 32) : (bufSize w h : Int) = (w.toInt * h.toInt * PIXELSIZE.toInt) % 2 ^ 32 := by
  have signed : (w * h * PIXELSIZE).toInt % 2 ^ 32 = (w.toInt * h.toInt * PIXELSIZE.toInt) % 2 ^ 32 := by
    rw [BitVec.toInt_mul, BitVec.toInt_mul, Int.bmod_mul_bmod]
    exact Int.bmod_emod
  have small : ((w * h * PIXELSIZE).toNat : Int) < 2 ^ 32 := Int.ofNat_lt.mpr (BitVec.isLt _)
  rw [← signed, BitVec.toInt_eq_toNat_bmod]
  exact (Int.emod_eq_of_lt (Int.natCast_nonneg _) small).symm.trans Int.bmod_emod.symm

/-- The write stores the bytes in the buffer of `w * h` pixels, and returns how many there are. -/
def Counted (g : Gfx) (sf : Surface) (off : Int) (data : List UInt8) (copied : Bool) : Prop :=
  ∃ t, devfb0Write sf.pid off data copied g = .ok ((data.length : Int), t) ∧ ∀ i (lt : i < data.length),
    off + i < sf.r.w.toInt * sf.r.h.toInt * PIXELSIZE.toInt ∧ t.pool.mem (sf.buf + off.toNat + i) = data[i]

/-- The buffer of a surface has room for its pixels exactly if their number does not wrap, and a write is
counted exactly if there is nothing to count. -/
theorem surface_filled {g : Gfx} {sf : Surface} {pool pool' : Pool}
    (made : Alloc.malloc (bufSize sf.r.w sf.r.h) pool = .ok (sf.buf, pool')) (some_ : sf.buf ≠ 0)
    (found : findSf sf.pid g.sflist = some sf) (off : Int) (data : List UInt8) (copied : Bool) :
    (sf.r.w.toInt * sf.r.h.toInt * PIXELSIZE.toInt ≤ rounded (bufSize sf.r.w sf.r.h) ↔
      sf.r.w.toInt * sf.r.h.toInt * PIXELSIZE.toInt < 2 ^ 32) ∧
    (Counted g sf off data copied ↔ data = [] ∧ copied = true ∧ 0 ≤ off ∧ off ≤ bufSize sf.r.w sf.r.h) := by
  constructor
  · obtain ⟨i, index⟩ := findIdx_request (malloc_accepts made some_)
    obtain ⟨lt, room⟩ := findIdx_some index
    have top : ∀ size ∈ buckets, size ≤ 0x100000 := by decide
    have bound := top _ (getD_mem lt)
    have size := bufSize_eq sf.r.w sf.r.h
    have enough := of_decide_eq_true room
    unfold rounded
    rw [index]
    dsimp only
    omega
  · unfold Counted devfb0Write
    rw [run_get, found]
    dsimp only
    rw [run_modify, if_neg some_]
    constructor
    · rintro ⟨t, ran, -⟩
      split at ran
      · cases ran
      rename_i inside
      rw [run_modify] at ran
      cases copied with
      | false =>
        obtain ⟨ret, -⟩ := Prod.mk.inj (Except.ok.inj ran)
        omega
      | true =>
        obtain ⟨ret, -⟩ := Prod.mk.inj (Except.ok.inj ran)
        obtain rfl := length_eq_zero_iff.mp (Int.ofNat.inj ret.symm)
        rw [length_nil] at inside
        exact ⟨rfl, rfl, by omega⟩
    · rintro ⟨rfl, rfl, low, high⟩
      rw [if_neg (by rw [length_nil]; omega)]
      exact ⟨_, rfl, nofun⟩

/- A surface of eight by eight pixels at the start of the pool. -/
def small : Surface := ⟨1, ⟨0, 0, 8, 8⟩, 100, true, false, 0, poolBase + HEADER⟩

theorem surface_filled_empty : Counted { booted with sflist := [small] } small 256 [] true :=
  (surface_filled (rfl : Alloc.malloc _ (allocInit fun _ => 0) = _) (by decide) rfl 256 [] true).2.mpr
    ⟨rfl, rfl, by decide, by decide⟩

/-- A write of one byte returns 0; and a surface of 2^30 pixels gets a buffer of 64 bytes. -/
theorem surface_overflows :
    (((Call.init 1 ⟨0, 0, 8, 8⟩ ZORDER_TOP 100 true).run display >>= fun _ =>
      devfb0Write 1 0 [7] true) booted).map (·.1) = .ok 0 ∧
    ((Call.init 1 ⟨0, 0, 0x10000, 0x4000⟩ ZORDER_TOP 100 true).run display booted).map (·.1) = .ok 0 ∧
    rounded (bufSize 0x10000 0x4000) = 64 :=
  ⟨rfl, rfl, rfl⟩

end UvaOs.Sf
