import UvaOs.Fs.Room
import UvaOs.Mkfs.Image

/-! `iappend` of mkfs is the kernel's `writei` at the end of the file. Both hand out the first
free block, which on this disk is the number in `freeblock`, and find it zeroed. -/
namespace UvaOs.Mkfs

open Bytes Prog List
open UvaOs.Fs (FsState BSIZE NDIRECT NINDIRECT MAXFILE ROOTDEV)
open Function (update update_self update_of_ne update_idem)

/-! How many inodes mkfs hands out -/

def Steady {α : Type} (p : MkM α) : Prop := ∀ m a m', p m = .ok (a, m') → m'.freeinode = m.freeinode

section Steady

variable {α β : Type} {m m' : State}

theorem Steady.pure (a : α) : Steady (Pure.pure a : MkM α) := by
  intro m b m' run
  cases run
  rfl

theorem Steady.stop (e : Exit) : Steady (Prog.stop e : MkM α) := by
  intro m a m' run
  cases run

theorem Steady.bind {p : MkM α} {f : α → MkM β} (first : Steady p) (rest : ∀ a, Steady (f a)) :
    Steady (p >>= f) := by
  intro m b m' run
  obtain ⟨a, t, ran, last⟩ := bind_ok run
  exact (rest a t b m' last).trans (first m a t ran)

theorem Steady.ite {c : Prop} [Decidable c] {p q : MkM α} (yes : Steady p) (no : Steady q) :
    Steady (if c then p else q) := by
  split
  · exact yes
  · exact no

theorem Steady.wsect (sec : Nat) (buf : Buffer) : Steady (wsect sec buf) := by
  intro m a m' run
  cases run
  rfl

theorem Steady.rsect (sec : Nat) : Steady (rsect sec) := by
  refine .bind ?_ (fun _ => .ite (.pure _) (.stop _))
  intro m a m' run
  cases run
  rfl

theorem Steady.takeBlock : Steady takeBlock := by
  intro m a m' run
  cases run
  rfl

theorem Steady.rootBlock (din : Buffer) (k : Nat) : Steady (rootBlock din k) :=
  .ite (.bind .takeBlock (fun _ => .pure _)) (.pure _)

theorem Steady.entry (x j : Nat) : Steady (entry x j) :=
  .bind (.rsect x) (fun _ => .ite
    (.bind .takeBlock (fun _ => .bind (.wsect _ _) (fun _ => .pure _))) (.pure _))

theorem Steady.locate (din : Buffer) (fbn : Nat) : Steady (locate din fbn) :=
  .ite (.bind (.rootBlock _ _) (fun _ => .pure _))
    (.ite (.bind (.rootBlock _ _) (fun _ => .bind (.entry _ _) (fun _ => .pure _)))
      (.bind (.rootBlock _ _) (fun _ => .bind (.entry _ _) (fun _ => .bind (.entry _ _)
        (fun _ => .pure _)))))

theorem Steady.iappendLoop (fuel : Nat) : ∀ (p : List UInt8) (off : Nat) (din : Buffer),
    Steady (iappendLoop fuel p off din) := by
  induction fuel with
  | zero => exact fun _ _ _ => .pure _
  | succ fuel ih =>
    intro p off din
    exact .ite (.ite (.bind (.locate _ _) (fun _ => .bind (.rsect _) (fun _ => .bind (.wsect _ _)
      (fun _ => ih _ _ _)))) (.stop _)) (.pure _)

theorem Steady.winode (inum : Nat) (din : Buffer) : Steady (winode inum din) :=
  .bind (.rsect _) (fun _ => .wsect _ _)

theorem Steady.rinode (inum : Nat) : Steady (rinode inum) := .bind (.rsect _) (fun _ => .pure _)

theorem Steady.iappend (inum : Nat) (p : List UInt8) : Steady (iappend inum p) :=
  .bind (.rinode _) (fun _ => .bind (.iappendLoop _ _ _ _) (fun _ => .winode _ _))

theorem Steady.appendAll (inum : Nat) (reads : List (List UInt8)) :
    Steady (appendAll inum reads) := by
  induction reads with
  | nil => exact .pure _
  | cons r reads ih => exact .bind (.iappend _ _) (fun _ => ih)

theorem Steady.fixRoot : Steady fixRoot := .bind (.rinode _) (fun _ => .winode _ _)

theorem ialloc_count {type inum : Nat} (run : ialloc type m = .ok (inum, m')) :
    m'.freeinode = m.freeinode + 1 := by
  obtain ⟨_, _, first, run⟩ := bind_ok run
  cases first
  obtain ⟨_, _, first, run⟩ := bind_ok run
  cases first
  exact Steady.bind (.winode _ _) (fun _ => .pure _) _ _ _ run

theorem addFiles_count (hosts : List Host) : ∀ m, addFiles hosts m = .ok ((), m') →
    m'.freeinode = m.freeinode + hosts.length := by
  induction hosts with
  | nil =>
    intro m run
    cases run
    rfl
  | cons host hosts ih =>
    intro m run
    obtain ⟨_, t, first, rest⟩ := bind_ok run
    unfold addFile at first
    split at first
    · cases first
    split at first
    · cases first
    obtain ⟨inum, u, alloc, append⟩ := bind_ok first
    have steady := Steady.bind (.iappend _ _) (fun _ => .appendAll _ _) _ _ _ append
    rw [ih t rest, steady, ialloc_count alloc, length_cons]
    omega

theorem makeRoot_count (run : makeRoot m = .ok ((), m')) : m'.freeinode = m.freeinode + 1 := by
  obtain ⟨inum, t, alloc, rest⟩ := bind_ok run
  have steady := Steady.ite (.stop _) (.bind (.iappend _ _) (fun _ => .iappend _ _)) _ _ _ rest
  rw [steady, ialloc_count alloc]

end Steady

/-- The state after `freeblock++`. -/
def State.taken (m : State) : State := { m with freeblock := m.freeblock + 1 }

theorem firstFree_below {f b n : Nat} (lo : b ≤ f) (hi : f < b + n) :
    Fs.firstFree (fun x => decide (x < f)) b n = some f := by
  induction n generalizing b with
  | zero => omega
  | succ n ih =>
    unfold Fs.firstFree
    by_cases e : b = f
    · rw [e]
      simp
    · rw [if_pos (by simp; omega)]
      exact ih (by omega) (by omega)

theorem Inv.taken {m : State} (h : Inv m) (lt : m.freeblock < FSSIZE) : Inv m.taken :=
  { h with
      low := Nat.le_succ_of_le h.low, high := lt, zeros := fun b le => h.zeros b (Nat.le_of_succ_le le) }

theorem Inv.wsect {m : State} (h : Inv m) {x : Nat} {buf : Buffer} (lo : nmeta ≤ x)
    (hi : x < m.freeblock) :
    Inv { m with sect := update m.sect x buf, length := max m.length (x + 1) } := by
  have high := h.high
  have meta_ : nmeta = 87 := rfl
  refine ⟨?_, h.low, h.high, ?_, ?_, ?_, ?_⟩
  · have length := h.length
    dsimp only
    omega
  · rw [← h.boot]
    exact update_of_ne (by omega) ..
  · rw [← h.super]
    exact update_of_ne (by omega) ..
  · grind [h.bitmap]
  · grind [h.zeros]

section Held

variable {m m' : State} {inum k x j b : Nat} {din din' : Buffer}

theorem held_cached : Fs.Cached (held m inum din) 0 inum := by
  refine ⟨by decide, ?_, rfl, rfl, rfl⟩
  exact Int.one_pos

theorem balloc_held (h : Inv m) (lt : m.freeblock < FSSIZE) :
    Fs.balloc (held m inum din) = .ok (m.freeblock, held m.taken inum din) := by
  have found : Fs.firstFree (held m inum din).bitmap 0 (held m inum din).sb.size =
      some m.freeblock := by
    have size : (held m inum din).sb.size = FSSIZE := rfl
    rw [size]
    exact firstFree_below (Nat.zero_le _) (by omega)
  unfold Fs.balloc
  rw [run_get, found]
  have after : ((held m inum din).mark m.freeblock true).putBlock m.freeblock zeros =
      held m.taken inum din := by
    have low := h.low
    have data : ¬ (inodestart ≤ m.freeblock ∧ m.freeblock < nmeta) := by omega
    have blank : (view m).block m.freeblock = zeros := by
      unfold view
      dsimp only
      rw [if_neg data, h.zeros _ (Nat.le_refl _)]
    unfold held FsState.putInode FsState.mark FsState.putBlock
    dsimp only
    congr 1
    · funext y
      unfold view State.taken
      by_cases e : y = m.freeblock
      · simp [e]
      · grind
    · rw [← blank, Function.update_eq_self]
      rfl
  exact congrArg (fun t => Except.ok (m.freeblock, t)) after

theorem held_setAddr (hk : k < NDIRECT + 2) (small : b < 2 ^ 32) :
    (held m inum din).onCopy 0 (fun d => { d with addrs := update d.addrs k b }) =
      held m inum (setAddr din k b) := by
  unfold FsState.onCopy held FsState.putInode
  dsimp only
  rw [update_self, update_idem, decode_setAddr hk small]

theorem held_wsect (data : nmeta ≤ x) (length : Nat) (buf : Buffer) :
    held { m with sect := update m.sect x buf, length := length } inum din =
      (held m inum din).putBlock x buf := by
  unfold held
  rw [view_wsect data]
  rfl

theorem held_block (data : nmeta ≤ x) : (held m inum din).block x = m.sect x :=
  if_neg (fun low => absurd data (Nat.not_le.mpr low.2))

theorem held_range (h : Fs.Sound (held m inum din)) {r : Nat × Nat} {js : List Nat}
    (node : (Fs.forest (held m inum din)).IsNode r js)
    (nz : (Fs.forest (held m inum din)).ptr r js ≠ 0) :
    nmeta ≤ (Fs.forest (held m inum din)).ptr r js ∧
      (Fs.forest (held m inum din)).ptr r js < m.freeblock := by
  have first : Fs.mkfsSuper.size - Fs.mkfsSuper.nblocks = nmeta := by decide
  obtain ⟨⟨lo, _⟩, used⟩ := h.covered r js node nz
  exact ⟨first ▸ lo, of_decide_eq_true used⟩

theorem rootBlock_held (inum : Nat) (h : Inv m) (hk : k < NDIRECT + 2)
    (run : rootBlock din k m = .ok (din', m')) (lt : addr din' k < FSSIZE) :
    Fs.rootBlock 0 k (held m inum din) = .ok (addr din' k, held m' inum din') ∧ Inv m' ∧
      addr din' k ≠ 0 := by
  have pointer : ((held m inum din).itable 0).copy.addrs k = addr din k := if_pos hk
  have low := h.low
  have high := h.high
  have meta_ : nmeta = 87 := rfl
  have size : FSSIZE = 15000 := rfl
  unfold rootBlock at run
  unfold Fs.rootBlock
  rw [Fs.run_inode, pointer]
  split at run
  · rename_i empty
    cases run
    rw [addr_setAddr (by omega)] at lt ⊢
    refine ⟨?_, h.taken lt, by omega⟩
    rw [if_pos empty, run_bind (balloc_held h lt), if_neg (by omega)]
    exact congrArg (fun t => Except.ok (m.freeblock, t)) (held_setAddr hk (by omega))
  · rename_i there
    cases run
    rw [if_neg there]
    exact ⟨rfl, h, there⟩

theorem entry_held (inum : Nat) (din : Buffer) (h : Inv m) (lo : nmeta ≤ x) (hi : x < m.freeblock)
    (run : entry x j m = .ok (b, m')) (lt : b < FSSIZE) :
    (Fs.indirectEntry x j (held m inum din) = .ok (b, held m' inum din) ∧
      Fs.doublyEntry x j (held m inum din) = .ok (b, held m' inum din)) ∧ Inv m' ∧ b ≠ 0 := by
  have low := h.low
  have meta_ : nmeta = 87 := rfl
  have block : (held m inum din).block x = m.sect x := held_block lo
  have inside : x < m.length := by
    rw [h.length]
    exact Nat.lt_of_lt_of_le hi h.high
  unfold entry at run
  unfold Fs.indirectEntry Fs.doublyEntry
  have read : rsect x m = .ok (m.sect x, m) := by
    unfold rsect
    rw [run_get, if_pos inside]
    rfl
  rw [run_bind read] at run
  have bread : Fs.bread x (held m inum din) = .ok (m.sect x, held m inum din) := by
    rw [← block]
    rfl
  rw [run_bind bread, run_bind bread]
  split at run
  · rename_i empty
    cases run
    have next : m.taken.sect x = m.sect x := rfl
    have after : held { m with
        sect := update m.sect x (setWord (m.sect x) j m.freeblock)
        length := max m.length (x + 1)
        freeblock := m.freeblock + 1 } inum din =
        (held m.taken inum din).putBlock x
          (setWord ((held m.taken inum din).block x) j m.freeblock) := by
      rw [held_block lo, next]
      exact held_wsect (m := m.taken) lo _ _
    refine ⟨⟨?_, ?_⟩, (h.taken lt).wsect lo (Nat.lt_succ_of_lt hi), by omega⟩
    · rw [if_pos empty, run_bind (balloc_held h lt), if_neg (by omega)]
      exact congrArg (fun t => Except.ok (m.freeblock, t)) after.symm
    · rw [if_pos empty, run_bind (balloc_held h lt)]
      exact congrArg (fun t => Except.ok (m.freeblock, t)) after.symm
  · rename_i there
    cases run
    rw [if_neg there, if_neg there]
    exact ⟨⟨rfl, rfl⟩, h, there⟩

theorem rsect_ok {buf : Buffer} (length : m.length = FSSIZE) (run : rsect x m = .ok (buf, m')) :
    x < FSSIZE ∧ buf = m.sect x ∧ m' = m := by
  unfold rsect at run
  rw [run_get] at run
  split at run
  · rename_i inside
    cases run
    exact ⟨length ▸ inside, rfl, rfl⟩
  · cases run

theorem rootBlock_same (run : rootBlock din k m = .ok (din', m')) : m'.length = m.length := by
  unfold rootBlock at run
  split at run <;> cases run <;> rfl

theorem entry_inside (length : m.length = FSSIZE) (run : entry x j m = .ok (b, m')) :
    x < FSSIZE ∧ m'.length = FSSIZE := by
  obtain ⟨buf, t, read, rest⟩ := bind_ok run
  obtain ⟨inside, rfl, rfl⟩ := rsect_ok length read
  refine ⟨inside, ?_⟩
  split at rest
  · cases rest
    change max t.length (x + 1) = FSSIZE
    omega
  · cases rest
    exact length

theorem locate_same {fbn : Nat} (length : m.length = FSSIZE)
    (run : locate din fbn m = .ok ((x, din'), m')) : m'.length = FSSIZE := by
  unfold locate at run
  split at run
  · obtain ⟨din₁, m₁, root, rest⟩ := bind_ok run
    cases rest
    exact (rootBlock_same root).trans length
  · split at run
    · obtain ⟨din₁, m₁, root, rest⟩ := bind_ok run
      obtain ⟨y, m₂, leaf, rest⟩ := bind_ok rest
      cases rest
      exact (entry_inside ((rootBlock_same root).trans length) leaf).2
    · obtain ⟨din₁, m₁, root, rest⟩ := bind_ok run
      obtain ⟨y, m₂, middle, rest⟩ := bind_ok rest
      obtain ⟨z, m₃, leaf, rest⟩ := bind_ok rest
      cases rest
      exact (entry_inside (entry_inside ((rootBlock_same root).trans length) middle).2 leaf).2

section

variable (h : Inv m) (sound : Fs.Sound (held m inum din))
include h sound

theorem rootBlock_node (hk : k < NDIRECT + 2)
    (run : rootBlock din k m = .ok (din', m')) (lt : addr din' k < FSSIZE) :
    Fs.rootBlock 0 k (held m inum din) = .ok (addr din' k, held m' inum din') ∧ Inv m' ∧
      Fs.Sound (held m' inum din') ∧
      addr din' k = (Fs.forest (held m' inum din')).ptr (inum, k) [] ∧ addr din' k ≠ 0 := by
  obtain ⟨kernel, inv, nz⟩ := rootBlock_held inum h hk run lt
  obtain ⟨sound', _, node, _⟩ := wp_ok (E := Fs.Benign) (Fs.rootBlock_spec sound held_cached hk) kernel
  exact ⟨kernel, inv, sound', node, nz⟩

theorem locate_single {q : Nat} (root : rootBlock din NDIRECT m = .ok (din', m'))
    {m'' : State} (leaf : entry (addr din' NDIRECT) q m' = .ok (x, m'')) (lt : x < FSSIZE) : (do
      let addr ← Fs.rootBlock 0 NDIRECT
      if addr = 0 then pure 0 else Fs.indirectEntry addr q) (held m inum din) =
        .ok (x, held m'' inum din') ∧ Inv m'' ∧ x ≠ 0 := by
  have top := (entry_inside ((rootBlock_same root).trans h.length) leaf).1
  obtain ⟨kernel, inv, sound', node, nz⟩ := rootBlock_node h sound (by decide) root top
  have index : (Fs.forest (held m' inum din')).IsNode (inum, NDIRECT) [] := Nat.zero_le _
  obtain ⟨lo, hi⟩ := held_range sound' index (node ▸ nz)
  rw [← node] at lo hi
  obtain ⟨⟨second, _⟩, inv', nz'⟩ := entry_held inum din' inv lo hi leaf lt
  refine ⟨?_, inv', nz'⟩
  rw [run_bind kernel, if_neg nz]
  exact second

theorem locate_double {q r y : Nat}
    (hq : q < NINDIRECT) (root : rootBlock din (NDIRECT + 1) m = .ok (din', m'))
    {m₁ m₂ : State} (middle : entry (addr din' (NDIRECT + 1)) q m' = .ok (y, m₁))
    (leaf : entry y r m₁ = .ok (x, m₂)) (lt : x < FSSIZE) : (do
      let addr ← Fs.rootBlock 0 (NDIRECT + 1)
      let addr ← Fs.doublyEntry addr q
      if addr = 0 then stop .bug else Fs.doublyEntry addr r) (held m inum din) =
        .ok (x, held m₂ inum din') ∧ Inv m₂ ∧ x ≠ 0 := by
  obtain ⟨top, length⟩ := entry_inside ((rootBlock_same root).trans h.length) middle
  have mid := (entry_inside length leaf).1
  obtain ⟨kernel, inv, sound', node, nz⟩ := rootBlock_node h sound (by decide) root top
  have index : (Fs.forest (held m' inum din')).IsIndex (inum, NDIRECT + 1) [] := Nat.zero_lt_two
  have parent : (Fs.forest (held m' inum din')).ptr (inum, NDIRECT + 1) [] ≠ 0 := node ▸ nz
  obtain ⟨lo, hi⟩ := held_range sound' index.node parent
  rw [← node] at lo hi
  obtain ⟨⟨_, second⟩, inv', nz'⟩ := entry_held inum din' inv lo hi middle mid
  have spec := Fs.doublyEntry_spec (E := Fs.Benign) sound' held_cached index parent hq
  rw [← node] at spec
  obtain ⟨sound'', _, node', _⟩ := wp_ok spec second
  have index' : (Fs.forest (held m₁ inum din')).IsNode (inum, NDIRECT + 1) ([] ++ [q]) :=
    Nat.le_succ 1
  obtain ⟨lo', hi'⟩ := held_range sound'' index' (node' ▸ nz')
  rw [← node'] at lo' hi'
  obtain ⟨⟨_, third⟩, inv'', nz''⟩ := entry_held inum din' inv' lo' hi' leaf lt
  refine ⟨?_, inv'', nz''⟩
  rw [run_bind kernel, run_bind second, if_neg nz']
  exact third

theorem locate_held {fbn : Nat}
    (inside : fbn < MAXFILE) (run : locate din fbn m = .ok ((x, din'), m')) (lt : x < FSSIZE) :
    Fs.bmap 0 fbn (held m inum din) = .ok (x, held m' inum din') ∧ Inv m' ∧ x ≠ 0 := by
  unfold locate at run
  split at run
  · rename_i direct
    obtain ⟨din₁, m₁, root, rest⟩ := bind_ok run
    cases rest
    rw [Fs.bmap_direct direct]
    exact rootBlock_held inum h (by simp only [NDIRECT] at direct ⊢; omega) root lt
  · rename_i past
    split at run
    · rename_i single
      have small : fbn - NDIRECT < NINDIRECT := by omega
      obtain ⟨din₁, m₁, root, rest⟩ := bind_ok run
      obtain ⟨y, m₂, leaf, rest⟩ := bind_ok rest
      cases rest
      rw [Fs.bmap_indirect past small]
      exact locate_single h sound root leaf lt
    · rename_i double
      have large : ¬ fbn - NDIRECT < NINDIRECT := by omega
      have small : fbn - NDIRECT - NINDIRECT < NINDIRECT * NINDIRECT := by
        grind [MAXFILE, NDIRECT, NINDIRECT]
      obtain ⟨din₁, m₁, root, rest⟩ := bind_ok run
      obtain ⟨y, m₂, middle, rest⟩ := bind_ok rest
      obtain ⟨z, m₃, leaf, rest⟩ := bind_ok rest
      cases rest
      rw [Fs.bmap_doubly past large small]
      exact locate_double h sound (Nat.div_lt_of_lt_mul small) root middle leaf lt

end

end Held

section Loop

variable {m m' : State} {inum off off' : Nat} {din din' : Buffer} {src : List UInt8}

theorem piece_eq (tot off n : Nat) :
    min (n - tot) ((off / BSIZE + 1) * BSIZE - off) = Fs.chunk tot off n ∧
      off - off / BSIZE * BSIZE = off % BSIZE := by
  unfold Fs.chunk
  simp only [BSIZE]
  omega

theorem iappendLoop_held (fuel : Nat) :
    ∀ (m : State) (tot off : Nat) (din : Buffer), Inv m → Fs.Sound (held m inum din) →
      tot ≤ src.length → off ≤ MAXFILE * BSIZE →
      iappendLoop fuel (src.drop tot) off din m = .ok ((off', din'), m') →
      ∃ tot', Fs.writeLoop 0 src fuel tot off src.length (held m inum din) =
        .ok ((tot', off'), held m' inum din') ∧ Inv m' ∧
        off' = off + (tot' - tot) ∧ tot ≤ tot' ∧ off' ≤ MAXFILE * BSIZE ∧
        (src.length - tot ≤ fuel → tot' = src.length) := by
  induction fuel with
  | zero =>
    intro m tot off din h _ le bound run
    cases run
    exact ⟨tot, rfl, h, by omega, Nat.le_refl _, bound, by omega⟩
  | succ fuel ih =>
    intro m tot off din h sound le bound run
    unfold iappendLoop at run
    unfold Fs.writeLoop
    rw [length_drop] at run
    by_cases more : tot < src.length
    · rw [if_pos (by omega)] at run
      rw [if_pos more]
      dsimp only at run
      rw [(piece_eq tot off src.length).1, (piece_eq tot off src.length).2] at run
      split at run
      · rename_i inside
        obtain ⟨pos, within, _, _⟩ := @Fs.chunk_facts tot off src.length more
        obtain ⟨⟨x, din₁⟩, m₁, found, rest⟩ := bind_ok run
        have length := locate_same h.length found
        obtain ⟨buf, m₂, read, rest⟩ := bind_ok rest
        obtain ⟨small, rfl, rfl⟩ := rsect_ok length read
        obtain ⟨kernel, inv, nz⟩ := locate_held h sound inside found small
        obtain ⟨sound₁, _, node, _⟩ := wp_ok (Fs.bmap_spec (off / BSIZE) sound held_cached) kernel
        have here : Fs.blockOf (held m₂ inum din₁) inum (off / BSIZE) ≠ 0 := node ▸ nz
        obtain ⟨lo, hi⟩ := held_range sound₁ (Fs.leaf_node _ inum (off / BSIZE)).1 here
        change nmeta ≤ Fs.blockOf _ inum _ at lo
        change Fs.blockOf _ inum _ < _ at hi
        rw [← node] at lo hi
        rw [run_bind kernel, if_neg nz]
        have bread : Fs.bread x (held m₂ inum din₁) = .ok (m₂.sect x, held m₂ inum din₁) := by
          have sect : (held m₂ inum din₁).block x = m₂.sect x := held_block lo
          rw [← sect]
          rfl
        rw [run_bind bread]
        -- from here on the states are those after the piece has been written
        have wrote : held { m₂ with
            sect := update m₂.sect x (blit (m₂.sect x) (off % BSIZE)
              ((src.drop tot).take (Fs.chunk tot off src.length)))
            length := max m₂.length (x + 1) } inum din₁ =
            Fs.written (held m₂ inum din₁) inum src tot off src.length := by
          rw [held_wsect lo, Fs.written, ← node, held_block lo]
        have sound₂ : Fs.Sound (Fs.written (held m₂ inum din₁) inum src tot off src.length) :=
          sound₁.putData here
        rw [← wrote] at sound₂
        have logged : Fs.logWrite x (blit (m₂.sect x) (off % BSIZE)
            ((src.drop tot).take (Fs.chunk tot off src.length))) (held m₂ inum din₁) =
            .ok ((), Fs.written (held m₂ inum din₁) inum src tot off src.length) := by
          rw [Fs.written, ← node, held_block lo]
          rfl
        obtain ⟨_, m₃, write, rest⟩ := bind_ok rest
        cases write
        rw [drop_drop] at rest
        have bound' : off + Fs.chunk tot off src.length ≤ MAXFILE * BSIZE := by
          grind [piece_eq, MAXFILE, NDIRECT, NINDIRECT, BSIZE]
        obtain ⟨tot', loop, inv', sum, least, most, all⟩ :=
          ih _ _ _ _ (inv.wsect lo hi) sound₂ within bound' rest
        rw [wrote] at loop
        change ∃ tot', (Fs.logWrite x (blit (m₂.sect x) (off % BSIZE)
          ((src.drop tot).take (Fs.chunk tot off src.length))) >>= fun _ =>
            if tot + Fs.chunk tot off src.length ≤ src.length then
              Fs.writeLoop 0 src fuel (tot + Fs.chunk tot off src.length)
                (off + Fs.chunk tot off src.length) src.length
            else pure (tot, off)) (held m₂ inum din₁) = _ ∧ _
        refine ⟨tot', ?_, inv', by omega, by omega, most, fun enough => ?_⟩
        · rw [run_bind logged, if_pos within]
          exact loop
        · exact all (by omega)
      · cases run
    · rw [if_neg (by omega)] at run
      cases run
      rw [if_neg more]
      exact ⟨tot, rfl, h, by omega, Nat.le_refl _, bound, by omega⟩

theorem Inv.winode (h : Inv m) (inside : inum < NINODES) : Inv { m with
      sect := update m.sect (IBLOCK inum) (putSlot (m.sect (IBLOCK inum)) (inum % IPB) din)
      length := max m.length (IBLOCK inum + 1) } := by
  obtain ⟨lo, hi⟩ := IBLOCK_range inside
  have low := h.low
  have first : inodestart = 32 := rfl
  have last : bmapstart = 83 := rfl
  have meta_ : nmeta = 87 := rfl
  have apart : 0 ≠ IBLOCK inum ∧ 1 ≠ IBLOCK inum := by omega
  refine ⟨?_, h.low, h.high, ?_, ?_, ?_, ?_⟩
  · grind [length, FSSIZE]
  · dsimp only
    rw [update_of_ne apart.1, h.boot]
  · dsimp only
    rw [update_of_ne apart.2, h.super]
  · grind [h.bitmap]
  · grind [h.zeros]

theorem rinode_ok {buf : Buffer} (h : Inv m) (run : rinode inum m = .ok (buf, m')) :
    buf = slot (m.sect (IBLOCK inum)) (inum % IPB) ∧ m' = m := by
  obtain ⟨sector, t, read, rest⟩ := bind_ok run
  obtain ⟨_, rfl, rfl⟩ := rsect_ok h.length read
  cases rest
  exact ⟨rfl, rfl⟩

theorem winode_ok (h : Inv m) (run : winode inum din m = .ok ((), m')) : m' = { m with
      sect := update m.sect (IBLOCK inum) (putSlot (m.sect (IBLOCK inum)) (inum % IPB) din)
      length := max m.length (IBLOCK inum + 1) } := by
  obtain ⟨sector, t, read, rest⟩ := bind_ok run
  obtain ⟨_, rfl, rfl⟩ := rsect_ok h.length read
  cases rest
  rfl

theorem held_stored (inside : inum < NINODES) (small : off < 2 ^ 32) (length : Nat) : held { m with
      sect := update m.sect (IBLOCK inum)
        (putSlot (m.sect (IBLOCK inum)) (inum % IPB) (setWord din 2 off))
      length := length } inum (setWord din 2 off) =
      ((held m inum din).onCopy 0 (fun d => { d with size := off })).putDinode inum
        { decode din with size := off } := by
  unfold held
  rw [view_winode inside, decode_setSize small]
  unfold FsState.onCopy FsState.putInode FsState.putDinode
  dsimp only
  rw [update_self, update_idem]

theorem iappend_held (h : Inv m) (inside : inum < NINODES)
    (sound : Fs.Sound (held m inum (slot (m.sect (IBLOCK inum)) (inum % IPB))))
    (native : Fs.isFattype ((view m).dinode inum).type = false)
    (bound : ((view m).dinode inum).size ≤ MAXFILE * BSIZE) (some_ : src ≠ [])
    (run : iappend inum src m = .ok ((), m')) : ∃ din', decode din' = (view m').dinode inum ∧
      Fs.writei 0 src ((view m).dinode inum).size src.length
        (held m inum (slot (m.sect (IBLOCK inum)) (inum % IPB))) =
          .ok ((src.length : Int), held m' inum din') ∧ Inv m' := by
  have here : (view m).dinode inum = decode (slot (m.sect (IBLOCK inum)) (inum % IPB)) :=
    if_pos inside
  rw [here] at native bound ⊢
  obtain ⟨din, t, read, rest⟩ := bind_ok run
  obtain ⟨rfl, rfl⟩ := rinode_ok h read
  generalize slot (t.sect (IBLOCK inum)) (inum % IPB) = din at *
  obtain ⟨⟨off', din'⟩, m₁, loop, write⟩ := bind_ok rest
  have positive : 0 < src.length := length_pos_iff.mpr some_
  obtain ⟨tot', kernel, inv, sum, least, most, all⟩ :=
    iappendLoop_held src.length t 0 (dinSize din) din h sound (Nat.zero_le _) bound loop
  have total := all (Nat.le_refl _)
  rw [total] at kernel sum
  have limit := Fs.maxBytes
  have small : off' < 2 ^ 32 := by omega
  have written := winode_ok inv write
  have size : ((held t inum din).itable 0).copy.size = dinSize din := rfl
  change dinSize din ≤ MAXFILE * BSIZE at bound
  refine ⟨setWord din' 2 off', ?_, ?_, ?_⟩
  · rw [written, view_winode inside, FsState.putDinode_dinode, update_self]
  · have sum' : (dinSize din + src.length) % Fs.UINT = dinSize din + src.length := by
      simp only [Fs.UINT]
      omega
    unfold Fs.writei
    rw [Fs.run_inode, size]
    have small' : (decode din).size = dinSize din := rfl
    rw [small', sum', if_neg (by omega), if_neg (by omega), run_bind kernel]
    dsimp only
    rw [if_pos (by omega), run_bind (t := (held m₁ inum din').onCopy 0
      (fun d => { d with size := off' })) (a := ()) rfl]
    obtain ⟨_, wrote⟩ := wp_ok (Fs.writeLoop_spec src.length _ 0 (dinSize din) sound held_cached)
      kernel
    obtain ⟨a, same⟩ := wrote.edit.itable
    have type : (decode din').type = (decode din).type := by
      have copy := congrArg (fun table => (table 0).copy.type) same
      rw [Fs.itable_onCopy_self] at copy
      exact copy
    have spec := Fs.iupdate_spec (s := held m₁ inum din') (fun d => { d with size := off' })
      (held_cached : Fs.Cached (held m₁ inum din') 0 inum)
    obtain ⟨_, u, ok, rfl⟩ := wp_returns spec (by
      rintro e ⟨_, fat⟩
      change Fs.isFattype (decode din').type = true at fat
      rw [type, native] at fat
      cases fat)
    rw [run_bind ok, written, held_stored inside small]
    rfl
  · rw [written]
    exact inv.winode inside

end Loop

end UvaOs.Mkfs
