import UvaOs.Fs.Room

/-! What a write to an inode does to the rest of the inode table: nothing. A program that is
local to slot `ip` uses the number and the copy of that slot only and changes no more than the
copy, so that a reference taken before it and dropped after it leaves no trace. -/
namespace UvaOs.Fs

open Bytes Prog FsState
open Function (update update_self update_of_ne update_idem update_eq_self update_comm)

/-- `s` under another inode table, which takes over the copy of slot `ip`. -/
def retable (T : Nat → Inode) (ip : Nat) (s : FsState) : FsState :=
  { s with itable := update T ip { T ip with copy := (s.itable ip).copy } }

def Local {α : Type} (ip : Nat) (m : FsM α) : Prop :=
  ∀ (s : FsState) (T : Nat → Inode), (T ip).inum = (s.itable ip).inum →
    m (retable T ip s) = (m s).map (fun r => (r.1, retable T ip r.2))

section Rules

variable {α β : Type} {ip : Nat}

theorem retable_self (s : FsState) (ip : Nat) : retable s.itable ip s = s := by
  unfold retable
  rw [update_eq_self]

theorem Local.table {m : FsM α} (l : Local ip m) {s t : FsState} {a : α} (run : m s = .ok (a, t)) :
    t.itable = update s.itable ip { s.itable ip with copy := (t.itable ip).copy } := by
  have again := l s s.itable rfl
  rw [retable_self, run] at again
  have same := congrArg Prod.snd (Except.ok.inj again)
  exact congrArg FsState.itable same

theorem Local.inum {m : FsM α} (l : Local ip m) {s t : FsState} {a : α} (run : m s = .ok (a, t)) :
    (t.itable ip).inum = (s.itable ip).inum := by
  rw [l.table run, update_self]

theorem Local.pure (a : α) : Local ip (Pure.pure a : FsM α) := fun _ _ _ => rfl

theorem Local.stop (e : Panic) : Local ip (Prog.stop e : FsM α) := fun _ _ _ => rfl

theorem Local.bind {m : FsM α} {f : α → FsM β} (l : Local ip m) (rest : ∀ a, Local ip (f a)) :
    Local ip (m >>= f) := by
  intro s T num
  cases run : m s with
  | error e =>
    rw [run_bind_error run]
    refine (run_bind_error ?_ f).trans rfl
    rw [l s T num, run]
    rfl
  | ok r =>
    obtain ⟨a, t⟩ := r
    rw [run_bind run, ← rest a t T (num.trans (l.inum run).symm)]
    refine run_bind ?_
    rw [l s T num, run]
    rfl

theorem Local.inode {f : Inode → FsM β} (reads : ∀ i j : Inode, i.inum = j.inum →
    i.copy = j.copy → f i = f j) (rest : ∀ i, Local ip (f i)) : Local ip (inode ip >>= f) := by
  intro s T num
  have slot : (retable T ip s).itable ip = { T ip with copy := (s.itable ip).copy } :=
    update_self ..
  have other : (Fs.inode ip >>= f) (retable T ip s) = f ((retable T ip s).itable ip) (retable T ip s) :=
    rfl
  have here : (Fs.inode ip >>= f) s = f (s.itable ip) s := rfl
  rw [other, here, reads _ (s.itable ip) (by rw [slot]; exact num) (by rw [slot])]
  exact rest _ s T num

theorem local_bread (b : Nat) : Local ip (bread b) := fun _ _ _ => rfl

theorem local_logWrite (b : Nat) (data : Buffer) : Local ip (logWrite b data) := fun _ _ _ => rfl

theorem balloc_eq (s : FsState) : balloc s = .ok (match firstFree s.bitmap 0 s.sb.size with
    | some b => (b, (s.mark b true).putBlock b zeros)
    | none => (0, s)) := by
  unfold balloc
  rw [run_get]
  cases firstFree s.bitmap 0 s.sb.size <;> rfl

theorem local_balloc : Local ip balloc := by
  intro s T _
  have bits : (retable T ip s).bitmap = s.bitmap ∧ (retable T ip s).sb = s.sb := ⟨rfl, rfl⟩
  rw [balloc_eq, balloc_eq, bits.1, bits.2]
  cases firstFree s.bitmap 0 s.sb.size <;> rfl

theorem local_onCopy (f : Dinode → Dinode) : Local ip (modify (·.onCopy ip f) : FsM Unit) := by
  intro s T _
  have same : (retable T ip s).onCopy ip f = retable T ip (s.onCopy ip f) := by
    unfold onCopy putInode retable
    simp only [update_self, update_idem]
  exact congrArg (fun t => Except.ok ((), t)) same

theorem local_iupdate : Local ip (iupdate ip) := by
  unfold iupdate
  refine .inode ?_ ?_
  · intro i j num copy
    rw [num, copy]
  · intro i
    split
    · exact .stop _
    · exact fun _ _ _ => rfl

end Rules

section Writei

variable {ip : Nat}

theorem local_rootBlock (k : Nat) : Local ip (rootBlock ip k) := by
  unfold rootBlock
  refine .inode ?_ ?_
  · intro i j _ copy
    rw [copy]
  · intro i
    split
    · refine local_balloc.bind (fun addr => ?_)
      split
      · exact .pure _
      · exact (local_onCopy _).bind (fun _ => .pure _)
    · exact .pure _

theorem local_indirectEntry (addr j : Nat) : Local ip (indirectEntry addr j) := by
  unfold indirectEntry
  refine (local_bread addr).bind (fun a => ?_)
  split
  · refine local_balloc.bind (fun b => ?_)
    split
    · exact .pure _
    · exact Local.bind (fun _ _ _ => rfl) (fun _ => .pure _)
  · exact .pure _

theorem local_doublyEntry (addr j : Nat) : Local ip (doublyEntry addr j) := by
  unfold doublyEntry
  refine (local_bread addr).bind (fun a => ?_)
  split
  · exact local_balloc.bind (fun b => Local.bind (fun _ _ _ => rfl) (fun _ => .pure _))
  · exact .pure _

theorem local_bmap (bn : Nat) : Local ip (bmap ip bn) := by
  unfold bmap
  split
  · exact local_rootBlock bn
  · split
    · refine (local_rootBlock _).bind (fun addr => ?_)
      split
      · exact .pure _
      · exact local_indirectEntry _ _
    · dsimp only
      split
      · refine (local_rootBlock _).bind (fun addr => (local_doublyEntry _ _).bind (fun b => ?_))
        split
        · exact .stop _
        · exact local_doublyEntry _ _
      · exact .stop _

theorem local_writeLoop (src : List UInt8) (fuel : Nat) :
    ∀ tot off n, Local ip (writeLoop ip src fuel tot off n) := by
  induction fuel with
  | zero => exact fun _ _ _ => .pure _
  | succ fuel ih =>
    intro tot off n
    unfold writeLoop
    split
    · refine (local_bmap _).bind (fun addr => ?_)
      split
      · exact .pure _
      · refine (local_bread _).bind (fun bp => (local_logWrite _ _).bind (fun _ => ?_))
        split
        · exact ih _ _ _
        · exact .pure _
    · exact .pure _

theorem local_writei (src : List UInt8) (off n : Nat) : Local ip (writei ip src off n) := by
  unfold writei
  refine .inode ?_ ?_
  · intro i j _ copy
    rw [copy]
  · intro i
    split
    · exact .pure _
    · split
      · exact .pure _
      · refine (local_writeLoop src n _ _ _).bind (fun r => ?_)
        have tail : Local ip (do iupdate ip; Pure.pure (r.1 : Int)) :=
          local_iupdate.bind (fun _ => .pure _)
        dsimp only
        split
        · exact (local_onCopy _).bind (fun _ => tail)
        · exact tail

end Writei

/-- At most the contents of a slot without references differ. -/
inductive Idle (s : FsState) : FsState → Prop
  | same : Idle s s
  | slot (j : Nat) (x : Inode) (free : (s.itable j).ref = 0) (still : x.ref = 0) :
      Idle s (s.putInode j x)

section Around

variable {s t u : FsState} {dp i n : Nat}

section

variable (h : Idle s t)
include h

theorem Idle.ref (j : Nat) : (t.itable j).ref = (s.itable j).ref := by
  cases h with
  | same => rfl
  | slot k x free still => grind [itable_putInode_self, itable_putInode_ne]

theorem Idle.itable {j : Nat} (used : 0 < (s.itable j).ref) : t.itable j = s.itable j := by
  cases h with
  | same => rfl
  | slot k x free still =>
    refine itable_putInode_ne ?_
    rintro rfl
    omega

theorem Idle.cached (j m : Nat) : Cached t j m ↔ Cached s j m := by
  have ref := h.ref j
  unfold Cached
  by_cases used : 0 < (s.itable j).ref
  · rw [h.itable used]
  · omega

theorem Idle.rest : t.sb = s.sb ∧ t.bitmap = s.bitmap ∧ t.dinode = s.dinode ∧
    t.block = s.block := by
  cases h <;> exact ⟨rfl, rfl, rfl, rfl⟩

theorem Idle.quiet : Quiet s t := by
  obtain ⟨sb, bitmap, dinode, block⟩ := h.rest
  refine ⟨sb, bitmap, dinode, block, ?_, ?_⟩
  · intro m
    unfold current
    simp only [h.cached, dinode]
    split
    · rename_i k found
      have here := List.find?_some found
      have c := of_decide_eq_true here
      rw [h.itable c.2.1]
    · rfl
  · intro synced j m c
    have old := (h.cached j m).mp c
    rw [dinode, h.itable old.2.1]
    exact synced j m old

theorem Idle.table (table : Table s) : Table t := by
  have ref := h.ref
  obtain ⟨sb, _, dinode, _⟩ := h.rest
  constructor
  · intro a b la lb ra rb
    rw [ref] at ra rb
    rw [h.itable ra, h.itable rb]
    exact table.unique a b la lb ra rb
  · intro a la ra
    rw [ref] at ra
    rw [h.itable ra, sb]
    exact table.range a la ra
  · intro a m c
    have old := (h.cached a m).mp c
    rw [h.itable old.2.1, dinode]
    exact table.typed a m old
  · intro a m c
    have old := (h.cached a m).mp c
    rw [h.itable old.2.1, dinode]
    exact table.lag a m old

theorem Idle.sound (sound : Sound s) : Sound t := h.quiet.sound sound (h.table sound.table)

end

theorem iget_cases {dev : Nat} (run : iget dev n s = .ok (i, t)) :
    (0 < (s.itable i).ref ∧ t = s.putInode i { s.itable i with ref := (s.itable i).ref + 1 }) ∨
    ((s.itable i).ref = 0 ∧
      t = s.putInode i { s.itable i with dev := dev, inum := n, ref := 1, valid := false }) := by
  have spec : wp (iget dev n) (fun i t =>
      (0 < (s.itable i).ref ∧ t = s.putInode i { s.itable i with ref := (s.itable i).ref + 1 }) ∨
      ((s.itable i).ref = 0 ∧
        t = s.putInode i { s.itable i with dev := dev, inum := n, ref := 1, valid := false }))
      (fun _ => True) s := by
    unfold iget
    rw [wp_bind, wp_get]
    split
    · rename_i j found
      have here := List.find?_some found
      exact .inl ⟨(of_decide_eq_true here).1, rfl⟩
    · split
      · rename_i j found
        have here := List.find?_some found
        exact .inr ⟨of_decide_eq_true here, rfl⟩
      · trivial
  have cases := wp_ok spec run
  exact cases

theorem iput_keeps_copy (shared : ¬ ((s.itable i).ref = 1 ∧ (s.itable i).valid = true ∧
    (s.itable i).copy.nlink = 0)) : iput i s =
      .ok ((), s.putInode i { s.itable i with ref := (s.itable i).ref - 1 }) := by
  unfold iput
  rw [run_inode, if_neg shared]
  rfl

theorem Local.commutes {α : Type} {m : FsM α} {r : α} (l : Local dp m) (run : m s = .ok (r, t))
    (i : Nat) (g : Inode → Inode)
    (copy : ∀ (a : Inode) (c : Dinode), g { a with copy := c } = { g a with copy := c })
    (num : i = dp → (g (s.itable i)).inum = (s.itable i).inum) :
    m (s.putInode i (g (s.itable i))) = .ok (r, t.putInode i (g (t.itable i))) := by
  have table := l.table run
  by_cases e : i = dp
  · subst e
    have before : s.putInode i (g (s.itable i)) =
        retable (update s.itable i (g (s.itable i))) i s := by
      unfold retable putInode
      rw [update_self, ← copy, update_idem]
    have after : t.putInode i (g (t.itable i)) =
        retable (update s.itable i (g (s.itable i))) i t := by
      unfold retable putInode
      rw [update_self, update_idem, ← copy]
      nth_rewrite 1 [table]
      rw [update_idem]
      nth_rewrite 1 [table]
      rw [update_self]
    rw [before, after, l s _ ((congrArg Inode.inum (update_self ..)).trans (num rfl)), run]
    rfl
  · have away : update s.itable i (g (s.itable i)) dp = s.itable dp :=
      update_of_ne (Ne.symm e) ..
    have before : s.putInode i (g (s.itable i)) =
        retable (update s.itable i (g (s.itable i))) dp s := by
      unfold retable putInode
      rw [away, update_comm e, update_eq_self]
    have after : t.putInode i (g (t.itable i)) =
        retable (update s.itable i (g (s.itable i))) dp t := by
      unfold retable putInode
      have slot : t.itable i = s.itable i := by
        rw [table, update_of_ne e]
      rw [away, update_comm e, ← table, slot]
    rw [before, after, l s _ (congrArg Inode.inum away), run]
    rfl

/-- A reference that is taken for the time of a local program and dropped after it is never the
last one of a file. -/
theorem around {α : Type} {m : FsM α} {r : α} (l : Local dp m) (used : 0 < (s.itable dp).ref)
    (taken : iget ROOTDEV n s = .ok (i, u)) (run : m s = .ok (r, t)) :
    ∃ v w, m u = .ok (r, v) ∧ iput i v = .ok ((), w) ∧ Idle t w := by
  have ref : (t.itable i).ref = (s.itable i).ref := by
    rw [l.table run]
    by_cases e : i = dp
    · rw [e, update_self]
    · rw [update_of_ne e]
  rcases iget_cases taken with ⟨pos, rfl⟩ | ⟨free, rfl⟩
  · have under := l.commutes run i (fun a => { a with ref := a.ref + 1 }) (fun _ _ => rfl)
      (fun _ => rfl)
    refine ⟨_, _, under, iput_keeps_copy ?_, ?_⟩
    · rw [itable_putInode_self]
      dsimp only
      omega
    · rw [itable_putInode_self]
      dsimp only
      have back : (t.putInode i { t.itable i with ref := (t.itable i).ref + 1 }).putInode i
          { t.itable i with ref := (t.itable i).ref + 1 - 1 } = t := by
        unfold putInode
        rw [update_idem, Int.add_sub_cancel, update_eq_self]
      rw [back]
      exact .same
  · have apart : i ≠ dp := by
      rintro rfl
      omega
    have under := l.commutes run i
      (fun a => { a with dev := ROOTDEV, inum := n, ref := 1, valid := false }) (fun _ _ => rfl)
      (fun e => absurd e apart)
    refine ⟨_, _, under, iput_keeps_copy ?_, ?_⟩
    · rw [itable_putInode_self]
      simp
    · rw [itable_putInode_self]
      unfold putInode
      rw [update_idem]
      exact .slot i _ (ref.trans free) rfl

end Around

end UvaOs.Fs
