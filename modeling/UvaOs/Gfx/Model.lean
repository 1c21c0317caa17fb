import UvaOs.Alloc.Malloc

/-! The surface flinger (kernel/sf.c): surfaces of tasks in the order they are drawn in, their
buffers in the pool of `malloc`, and the task that reads the keyboard while there is a surface.
Pixels are left out: what matters of a drawing is whether it stays inside the framebuffer and the
buffer of the surface. -/
namespace UvaOs.Sf

open Prog

def PIXELSIZE : BitVec 32 := 4
def B_THICKNESS : BitVec 32 := 3
def MAX_SF : Nat := 20

/-- `sizeof(struct sf_struct)`. -/
def SF_SIZE : Nat := 184

def ZORDER_TOP : BitVec 32 := 0
def ZORDER_BOTTOM : BitVec 32 := -1
def ZORDER_UNCHANGED : BitVec 32 := 4
def ZORDER_FLOATING : BitVec 32 := 5

inductive Halt where
  /-- `BUG()` for a new size, and for an unknown z-order. -/
  | resize | zorder
  /-- `BUG_ON` in `draw_boundary`. -/
  | boundary
  /-- `BUG()` in `devfb0_write`. -/
  | noSurface
  /-- `BUG_ON(wpid<0)`. -/
  | noChild
  | alloc (f : Alloc.Fault)
  /-- More regions are redrawn than `redrawn_regions` has room for. -/
  | regions
  /-- Memory outside the framebuffer or a buffer is drawn on, read or written. -/
  | stray
  /-- A surface that was freed stays on the list. -/
  | dangling
deriving DecidableEq

structure Region where
  x : BitVec 32
  y : BitVec 32
  w : BitVec 32
  h : BitVec 32
deriving DecidableEq

structure Surface where
  pid : Nat
  r : Region
  transparency : BitVec 32
  dirty : Bool
  floating : Bool
  /-- The block of the structure, and the one of its pixels. -/
  self : Nat
  buf : Nat
deriving DecidableEq

structure Gfx where
  pool : Alloc.Pool
  /-- From the bottom to the top. -/
  sflist : List Surface
  bkDirty : Region
  /-- `the_fb.fb` is not null. -/
  fb : Bool
  /-- The parents of the keyboard tasks that nobody has waited for. -/
  kb : List Nat

/-! Regions -/

def intersect (a b : Region) : Bool :=
  !((b.x + b.w).sle a.x || (a.x + a.w).sle b.x || (b.y + b.h).sle a.y || (a.y + a.h).sle b.y)

def smin (a b : BitVec 32) : BitVec 32 := if a.slt b then a else b
def smax (a b : BitVec 32) : BitVec 32 := if b.slt a then a else b

def union (a b : Region) : Region :=
  let x := smin a.x b.x
  let y := smin a.y b.y
  ⟨x, y, smax (a.x + a.w) (b.x + b.w) - x, smax (a.y + a.h) (b.y + b.h) - y⟩

def bufSize (w h : BitVec 32) : Nat := (w * h * PIXELSIZE).toNat

/-! The pool -/

def onPool {α : Type} (m : Prog Alloc.Pool Alloc.Fault α) : Prog Gfx Halt α := fun g =>
  match m g.pool with
  | .ok (a, pool) => .ok (a, { g with pool := pool })
  | .error f => .error (.alloc f)

def malloc (n : Nat) : Prog Gfx Halt Nat := onPool (Alloc.malloc n)

def free (p : Nat) : Prog Gfx Halt Unit := onPool (Alloc.free p)

/-! Surfaces -/

def findSf (pid : Nat) (sflist : List Surface) : Option Surface := sflist.find? (·.pid == pid)

section

variable (screen : Region)

def resetFb (g : Gfx) : Gfx := { g with fb := true, bkDirty := screen }

/-- Where a new surface comes on the list, `none` if the z-order is unknown. -/
def place (zorder : BitVec 32) (sf : Surface) (sflist : List Surface) : Option (List Surface) :=
  if zorder = ZORDER_BOTTOM then some (sf :: sflist)
  else if zorder = ZORDER_TOP then some (sflist ++ [sf])
  else if zorder = ZORDER_FLOATING then some (sflist ++ [{ sf with floating := true }])
  else none

def fail (self buf : Nat) (ret : Int) : Prog Gfx Halt Int := do
  free buf
  free self
  pure ret

/-- `spawned` says whether `copy_process` finds a slot for the keyboard task. -/
def sfCreate (spawned : Bool) (pid : Nat) (r : Region) (zorder transparency : BitVec 32) : Prog Gfx Halt Int := do
  let self ← malloc SF_SIZE
  if self = 0 then pure (-1)
  else
    let buf ← malloc (bufSize r.w r.h)
    if buf = 0 then do
      free self
      pure (-2)
    else
      let g ← get
      if (findSf pid g.sflist).isSome then fail self buf (-3)
      else
        match place zorder ⟨pid, r, transparency, true, false, self, buf⟩ g.sflist with
        | none => fail self buf (-4)
        | some sflist => do
          modify fun g => { g with sflist := sflist.map fun sf => { sf with dirty := true } }
          if sflist.length = 1 then do
            modify (resetFb screen)
            -- the error path frees the surface and leaves it on the list
            if !spawned then stop .dangling
            else do
              modify fun g => { g with kb := pid :: g.kb }
              pure 0
          else pure 0

/-- What `wait` finds: a child that has exited, which may be the keyboard task; other children;
and whether the task itself was killed. -/
structure Family where
  zombie : Option Bool
  others : Nat
  killed : Bool

/-- `wait(0)` and the check of its result. -/
def waitKb (family : Family) (pid : Nat) : Prog Gfx Halt Unit := do
  let g ← get
  match family.zombie with
  | some kb => if kb then modify fun g => { g with kb := g.kb.erase pid } else pure ()
  | none =>
    if (pid ∉ g.kb ∧ family.others = 0) ∨ family.killed then stop .noChild
    else modify fun g => { g with kb := g.kb.erase pid }

def release (sf : Surface) : Prog Gfx Halt Unit := do
  if sf.buf ≠ 0 then free sf.buf
  free sf.self

def sfFree (family : Family) (pid : Nat) : Prog Gfx Halt Int := do
  let g ← get
  match findSf pid g.sflist with
  | none => pure (-1)
  | some sf =>
    let sflist := g.sflist.erase sf
    modify fun g => { g with sflist := sflist }
    if sflist.length = 0 then do
      modify fun g => { g with fb := false }
      release sf
      waitKb family pid
      pure 0
    else do
      modify fun g => { g with bkDirty := union g.bkDirty sf.r }
      release sf
      pure 0

def sfConfig (pid : Nat) (r : Region) (zorder : BitVec 32) : Prog Gfx Halt Int := do
  let g ← get
  match findSf pid g.sflist with
  | none => pure (-1)
  | some sf =>
    if sf.r.w ≠ r.w ∨ sf.r.h ≠ r.h then stop .resize
    else
      let moved := { sf with r := r }
      if zorder = ZORDER_UNCHANGED then do
        modify fun g => { g with sflist := g.sflist.map fun s => if s = sf then moved else s }
        pure 0
      else
        let others := g.sflist.erase sf
        let moved := { moved with dirty := true }
        if zorder = ZORDER_TOP then do
          modify fun g => { g with sflist := others ++ [moved] }
          pure 0
        else if zorder = ZORDER_BOTTOM then do
          modify fun g => { g with sflist := moved :: others }
          pure 0
        else if zorder = ZORDER_FLOATING then do
          -- it is not put back on the list
          modify fun g => { g with sflist := others }
          pure 0
        else stop .zorder

/-! Composition -/

/-- `MIN` of an `int` and an `unsigned`, which compares them as unsigned. -/
def umin (a b : BitVec 32) : BitVec 32 := if a.ult b then a else b

/-- The rows that are left after clipping are inside the framebuffer and the buffer, if there are
any. -/
def Clipped (r : Region) : Prop :=
  (umin r.h (screen.h - r.y)).toInt ≤ 0 ∨
  0 ≤ r.x.toInt ∧ r.x.toInt ≤ screen.w.toInt ∧ 0 ≤ r.y.toInt ∧ r.y.toInt ≤ screen.h.toInt ∧
    0 ≤ r.w.toInt ∧ 0 ≤ r.h.toInt ∧ r.w.toInt * r.h.toInt * PIXELSIZE.toInt = bufSize r.w r.h

instance (r : Region) : Decidable (Clipped screen r) := inferInstanceAs (Decidable (_ ∨ _))

def OnScreen (r : Region) : Prop :=
  0 ≤ r.x.toInt ∧ r.x.toInt + B_THICKNESS.toInt ≤ screen.w.toInt ∧
  0 ≤ r.y.toInt ∧ r.y.toInt + B_THICKNESS.toInt ≤ screen.h.toInt

instance (r : Region) : Decidable (OnScreen screen r) := inferInstanceAs (Decidable (_ ∧ _))

/-- The pass over the surfaces that do or do not float: the surfaces, the regions redrawn, and how
many surfaces those are. -/
def drawPass (float : Bool) : List Surface → List Region → Except Halt (List Surface × List Region × Nat)
  | [], redrawn => .ok ([], redrawn, 0)
  | sf :: rest, redrawn =>
    if sf.floating = float ∧ (sf.dirty ∨ redrawn.any (intersect sf.r)) then
      if ¬ Clipped screen sf.r then .error .stray
      else if redrawn.length ≥ MAX_SF then .error .regions
      else do
        let (rest, redrawn, n) ← drawPass float rest (redrawn ++ [sf.r])
        pure ({ sf with dirty := false } :: rest, redrawn, n + 1)
    else do
      let (rest, redrawn, n) ← drawPass float rest redrawn
      pure (sf :: rest, redrawn, n)

def drawBoundary (r : Region) : Except Halt Unit :=
  if r.h.sle B_THICKNESS || r.w.sle B_THICKNESS then .error .boundary
  else if ¬ OnScreen screen r then .error .stray
  else .ok ()

/-- Both passes, and the boundary of the top surface. -/
def draw (sflist : List Surface) (redrawn : List Region) : Except Halt (List Surface × Nat) := do
  let (first, redrawn, n) ← drawPass screen false sflist redrawn
  let (both, _, m) ← drawPass screen true first redrawn
  -- `cnt` is an unsigned char
  let cnt := (n + m) % 256
  match sflist.getLast? with
  | some top => if cnt ≠ 0 then drawBoundary screen top.r else pure ()
  | none => pure ()
  pure (both, cnt)

def sfComposite : Prog Gfx Halt Int := fun g =>
  if !g.fb then .ok (0, g)
  else
    let redrawn := if g.bkDirty.w ≠ 0 ∨ g.bkDirty.h ≠ 0 then [g.bkDirty] else []
    let bkDirty := if g.bkDirty.w ≠ 0 ∨ g.bkDirty.h ≠ 0 then ⟨0, 0, 0, 0⟩ else g.bkDirty
    match draw screen g.sflist redrawn with
    | .error halt => .error halt
    | .ok (sflist, cnt) => .ok (cnt, { g with sflist := sflist, bkDirty := bkDirty })

/-! Writes -/

/-- The surface of the task, and all above it, are to be redrawn. -/
def dirtyFrom (pid : Nat) : List Surface → List Surface
  | [] => []
  | sf :: rest =>
    if sf.pid = pid then (sf :: rest).map fun s => { s with dirty := true } else sf :: dirtyFrom pid rest

/-- `data` are the bytes that `either_copyin` copies, `copied` is false if it fails after them. -/
def devfb0Write (pid : Nat) (off : Int) (data : List UInt8) (copied : Bool) : Prog Gfx Halt Int := do
  let g ← get
  match findSf pid g.sflist with
  | none => stop .noSurface
  | some sf =>
    modify fun g => { g with sflist := dirtyFrom pid g.sflist }
    if sf.buf = 0 then stop .noSurface
    -- what comes before or after the buffer belongs to others
    else if off < 0 ∨ bufSize sf.r.w sf.r.h < off + data.length then stop .stray
    else do
      modify fun g => { g with pool := { g.pool with mem := Bytes.blit g.pool.mem (sf.buf + off.toNat) data } }
      if copied then pure 0 else pure (-1)

/-! Requests -/

inductive Call where
  | init (pid : Nat) (r : Region) (zorder transparency : BitVec 32) (spawned : Bool)
  | config (pid : Nat) (r : Region) (zorder : BitVec 32)
  | fini (pid : Nat) (family : Family)
  | test
  | write (pid : Nat) (off : Int) (data : List UInt8) (copied : Bool)
  | flinger
  | exit (pid : Nat) (family : Family)

/-- Children of a task that exits go to the first one. -/
def reparent (pid : Nat) (g : Gfx) : Gfx :=
  { g with kb := g.kb.map fun parent => if parent = pid then 0 else parent }

def Call.run : Call → Prog Gfx Halt Int
  | .init pid r zorder transparency spawned => sfCreate screen spawned pid r zorder transparency
  | .config pid r zorder => sfConfig pid r zorder
  | .fini pid family => sfFree family pid
  | .test => sfComposite screen
  | .write pid off data copied => devfb0Write pid off data copied
  | .flinger => sfComposite screen
  | .exit pid family => do
    let ret ← sfFree family pid
    modify (reparent pid)
    pure ret

end

end UvaOs.Sf
