import UvaOs.Usr.Lex

/-! usr/sh.c: the commands of `initrc.txt`, and those typed at the prompt. -/
namespace UvaOs.Initrc

open Shell
open List hiding lex

/-! Model -/

def INITCMD_MAX : Nat := 512

/-- `sizeof(buf)` in `main`. -/
def BUF : Nat := 100

def NL : UInt8 := ch '\n'
def CR : UInt8 := ch '\r'

inductive Fault where
  /-- A byte after the end of `init_cmds` is read. -/
  | outside
  | fuel
deriving DecidableEq

/-- The loop of `read_init_cmd`: what is left of the file, and what is in `init_cmds` so far. -/
def readLoop : Nat → List UInt8 → List UInt8 → List UInt8
  | 0, _, got => got
  | fuel + 1, file, got =>
    let n := min (INITCMD_MAX - got.length) file.length
    if n = 0 then got
    else
      let got := got ++ file.take n
      if got.length = INITCMD_MAX then got else readLoop fuel (file.drop n) got

/-- The array `init_cmds`, which is full of zeros at first. -/
def readInitCmd (content : List UInt8) : List UInt8 :=
  let got := readLoop (content.length + 1) content []
  got ++ List.replicate (INITCMD_MAX - got.length) 0

/-! A pointer into `init_cmds` is the part of the array that it points to. -/

def isBlank (c : UInt8) : Bool := c == ch ' ' || c == ch '\t' || c == CR

def skipBlanks : List UInt8 → Except Fault (List UInt8)
  | [] => .error .outside
  | c :: cs => if isBlank c || c == NL then skipBlanks cs else .ok (c :: cs)

def strchr (d : UInt8) : List UInt8 → Except Fault (Option (List UInt8))
  | [] => .error .outside
  | c :: cs => if c = 0 then .ok none else if c = d then .ok (some (c :: cs)) else strchr d cs

def strlen : List UInt8 → Except Fault Nat
  | [] => .error .outside
  | c :: cs => if c = 0 then .ok 0 else (strlen cs).map (· + 1)

/-- The first loop of `getcmd0`, over blank lines and comments. -/
def lineStart : Nat → List UInt8 → Except Fault (Option (List UInt8))
  | 0, _ => .error .fuel
  | fuel + 1, cmds => do
    match ← skipBlanks cmds with
    | [] => .error .outside
    | c :: cs =>
      if c = 0 then pure none
      else if c = ch '#' then
        match ← strchr NL (c :: cs) with
        | none => pure none
        | some next => lineStart fuel next.tail
      else pure (some (c :: cs))

def lineEnd (line : List UInt8) : Except Fault (List UInt8) := do
  match ← strchr NL line with
  | some stop => pure stop
  | none => do
    let n ← strlen line
    pure (line.drop n)

/-- The last part of `getcmd0`: what is copied to `buf`, and the pointer that is returned. -/
def copyLine (nbuf : Nat) (line stop : List UInt8) : Except Fault (Option (List UInt8 × List UInt8)) :=
  let trimmed := (line.take (line.length - stop.length)).rdropWhile fun c => c == NL || c == CR
  if trimmed.length ≥ nbuf then .ok none
  else
    match stop with
    | [] => .error .outside
    | c :: next => if c = NL ∨ c = 0 then .ok (some (trimmed, next)) else .ok none

def getcmd0 (nbuf : Nat) (cmds : List UInt8) : Except Fault (Option (List UInt8 × List UInt8)) := do
  match ← lineStart (cmds.length + 1) cmds with
  | none => pure none
  | some line => do
    let stop ← lineEnd line
    copyLine nbuf line stop

/-- The commands that the first loop of `main` takes from `init_cmds`. -/
def script : Nat → List UInt8 → Except Fault (List (List UInt8))
  | 0, _ => .error .fuel
  | fuel + 1, cmds => do
    match ← getcmd0 BUF cmds with
    | none => pure []
    | some (buf, next) => do pure (buf :: (← script fuel next))

def runInit (content : List UInt8) : Except Fault (List (List UInt8)) :=
  script (INITCMD_MAX + 1) (readInitCmd content)

inductive Action where
  | chdir (path : List UInt8)
  | run (line : List UInt8)
deriving DecidableEq

def cd : List UInt8 := ['c', 'd', ' '].map ch

/-- The body of both loops of `main`: the last byte of a `cd` is chopped off. -/
def dispatch (buf : List UInt8) : Action :=
  if buf.take 3 = cd then .chdir (buf.dropLast.drop 3) else .run buf

/-- At most `n` bytes are left in `buf`; the rest of the input comes with them. -/
def gets : Nat → List UInt8 → List UInt8 × List UInt8
  | 0, input => ([], input)
  | _ + 1, [] => ([], [])
  | n + 1, c :: cs =>
    if c = NL ∨ c = CR then ([c], cs)
    else
      let (buf, rest) := gets n cs
      (c :: buf, rest)

/-- The second loop of `main`, up to the end of the input. -/
def prompt : Nat → List UInt8 → List Action
  | 0, _ => []
  | fuel + 1, input =>
    let (buf, rest) := gets (BUF - 1) input
    match buf with
    | [] => []
    | c :: cs => if c = 0 then [] else dispatch (c :: cs) :: prompt fuel rest

/-! What the script is for -/

def lines : List UInt8 → List (List UInt8)
  | [] => [[]]
  | c :: cs => if c = NL then [] :: lines cs else (lines cs).modifyHead (c :: ·)

/-- A line without its leading blanks and its trailing carriage returns. -/
def strip (line : List UInt8) : List UInt8 := (line.dropWhile isBlank).rdropWhile (· == CR)

def isCommand (line : List UInt8) : Bool :=
  match line with
  | [] => false
  | c :: _ => c != ch '#'

def commands (content : List UInt8) : List (List UInt8) := ((lines content).map strip).filter isCommand

/-- What an action does: a change of the directory or a line of tokens to run; a line without
tokens does nothing. -/
def effects (actions : List Action) : List (List UInt8 ⊕ List Token) :=
  actions.filterMap fun
    | .chdir path => some (.inl path)
    | .run line => if lex line = [] then none else some (.inr (lex line))

def typed (line : List UInt8) : List Action := prompt (line.length + 2) (line ++ [NL])

/-- The commands of the file are run, in order, and do what they do at the prompt. A line with a
carriage return inside cannot be typed, since that ends it. -/
structure Executed (content : List UInt8) : Prop where
  lines : runInit content = .ok (commands content)
  typed : ∀ line ∈ commands content, CR ∉ line → effects [dispatch line] = effects (typed line)
  chdir : ∀ dir, cd ++ dir ∈ commands content → dispatch (cd ++ dir) = .chdir dir

def lastLine (content : List UInt8) : List UInt8 := ((lines content).getLast?).getD []

/-- The file fits into `init_cmds` with a byte to spare, or with none if its last line is no
command; every command fits into `buf`, and none changes to a directory that has a name. -/
structure Fits (content : List UInt8) : Prop where
  size : content.length < INITCMD_MAX
  spare : content.length + 1 = INITCMD_MAX → isCommand (strip (lastLine content)) = false
  short : ∀ line ∈ commands content, line.length < BUF
  chdir : ∀ dir, cd ++ dir ∈ commands content → dir = []

/-! Lines -/

section

variable {l r : List UInt8}

theorem lines_ne (cs : List UInt8) : lines cs ≠ [] := by
  induction cs with
  | nil => exact cons_ne_nil _ _
  | cons c cs ih =>
    unfold lines
    split
    · exact cons_ne_nil _ _
    · obtain ⟨l, ls, same⟩ := exists_cons_of_ne_nil ih
      rw [same]
      exact cons_ne_nil _ _

theorem lines_line (one : NL ∉ l) (r : List UInt8) : lines (l ++ NL :: r) = l :: lines r := by
  induction l with
  | nil => exact if_pos rfl
  | cons c l ih =>
    obtain ⟨other, rest⟩ := not_or.mp (mt mem_cons.mpr one)
    rw [cons_append, lines, if_neg (Ne.symm other), ih rest]
    rfl

theorem lines_last (one : NL ∉ l) : lines l = [l] := by
  induction l with
  | nil => rfl
  | cons c l ih =>
    obtain ⟨other, rest⟩ := not_or.mp (mt mem_cons.mpr one)
    rw [lines, if_neg (Ne.symm other), ih rest]
    rfl

theorem commands_line (one : NL ∉ l) (r : List UInt8) :
    commands (l ++ NL :: r) = [strip l].filter isCommand ++ commands r := by
  unfold commands
  rw [lines_line one, map_cons, ← singleton_append, filter_append]

theorem commands_last (one : NL ∉ l) : commands l = [strip l].filter isCommand := by
  unfold commands
  rw [lines_last one, map_singleton]

theorem lastLine_line (one : NL ∉ l) (r : List UInt8) : lastLine (l ++ NL :: r) = lastLine r := by
  unfold lastLine
  obtain ⟨m, ms, same⟩ := exists_cons_of_ne_nil (lines_ne r)
  rw [lines_line one, same, getLast?_cons_cons]

theorem lastLine_last (one : NL ∉ l) : lastLine l = l := by
  unfold lastLine
  rw [lines_last one]
  rfl

theorem length_commands (r : List UInt8) : (commands r).length ≤ r.length + 1 := by
  have all : (lines r).length ≤ r.length + 1 := by
    induction r with
    | nil => exact Nat.le_refl 1
    | cons c r ih => grind [lines, Nat.succ_le_succ, length_modifyHead, Nat.le_succ_of_le]
  refine Nat.le_trans (length_filter_le _ _) ?_
  rwa [length_map]

theorem rdropWhile_cons {p : UInt8 → Bool} {c : UInt8} (stop : p c = false) (t : List UInt8) :
    (c :: t).rdropWhile p = c :: t.rdropWhile p := by
  unfold List.rdropWhile
  rw [reverse_cons, dropWhile_append]
  split
  · rename_i empty
    rw [isEmpty_iff.mp empty, dropWhile_cons_of_neg (by rw [stop]; exact Bool.false_ne_true)]
    rfl
  · rw [reverse_append]
    rfl

theorem blank_or (l : List UInt8) : l.dropWhile isBlank = [] ∨
    ∃ c t, l.dropWhile isBlank = c :: t ∧ isBlank c = false ∧ c ∈ l := by
  cases text : l.dropWhile isBlank with
  | nil => exact .inl rfl
  | cons c t =>
    refine .inr ⟨c, t, rfl, ?_, ?_⟩
    · have stop := head_dropWhile_not isBlank (l := l) (by rw [text]; exact cons_ne_nil c t)
      simpa only [text, head_cons] using stop
    · exact (dropWhile_suffix isBlank).subset (text ▸ mem_cons_self)

theorem strip_eq {c : UInt8} {t : List UInt8} (text : l.dropWhile isBlank = c :: t)
    (first : isBlank c = false) : strip l = c :: t.rdropWhile (· == CR) := by
  have other : (c == CR) = false := by grind [isBlank, Bool.or_eq_false_iff]
  unfold strip
  rw [text, rdropWhile_cons (p := (· == CR)) other]

end

/-! Pointers -/

section

variable {t x z : List UInt8}

theorem strchr_skip (nul : 0 ∉ t) (one : NL ∉ t) (x : List UInt8) : strchr NL (t ++ x) = strchr NL x := by
  induction t with
  | nil => rfl
  | cons c t ih =>
    obtain ⟨other, rest⟩ := not_or.mp (mt mem_cons.mpr one)
    obtain ⟨some_, rest'⟩ := not_or.mp (mt mem_cons.mpr nul)
    rw [cons_append, strchr, if_neg (Ne.symm some_), if_neg (Ne.symm other), ih rest' rest]

theorem strlen_eq (nul : 0 ∉ t) (z : List UInt8) : strlen (t ++ 0 :: z) = .ok t.length := by
  induction t with
  | nil => rfl
  | cons c t ih =>
    obtain ⟨some_, rest⟩ := not_or.mp (mt mem_cons.mpr nul)
    rw [cons_append, strlen, if_neg (Ne.symm some_), ih rest]
    rfl

theorem skipBlanks_line {l : List UInt8} (one : NL ∉ l) (x : List UInt8) : skipBlanks (l ++ x) =
      if l.dropWhile isBlank = [] then skipBlanks x else .ok (l.dropWhile isBlank ++ x) := by
  induction l with
  | nil => rfl
  | cons c l ih =>
    obtain ⟨other, rest⟩ := not_or.mp (mt mem_cons.mpr one)
    have nl : (c == NL) = false := beq_eq_false_iff_ne.mpr (Ne.symm other)
    rw [cons_append, skipBlanks, nl, Bool.or_false]
    by_cases blank : isBlank c = true
    · rw [if_pos blank, ih rest, dropWhile_cons_of_pos blank]
    · rw [if_neg blank, dropWhile_cons_of_neg blank, if_neg (cons_ne_nil c l)]
      rfl

end

/-! The first command of a text -/

/-- What comes after the text: the end of the array, or a NUL. -/
inductive Ending : List UInt8 → Prop
  | full : Ending []
  | nul {z} : Ending (0 :: z)

def atEnd {α : Type} : List UInt8 → Except Fault (Option α)
  | [] => .error .outside
  | _ => .ok none

section

variable {l x z : List UInt8} {fuel : Nat}

theorem lineStart_end (ending : Ending z) : lineStart (fuel + 1) z = atEnd z := by
  cases ending with
  | full => rfl
  | nul => rfl

theorem lineStart_blank (one : NL ∉ l) (blank : l.dropWhile isBlank = []) (x : List UInt8) :
    lineStart (fuel + 1) (l ++ x) = lineStart (fuel + 1) x := by
  rw [lineStart, lineStart, skipBlanks_line one, if_pos blank]

theorem lineStart_comment (nul : 0 ∉ l) (one : NL ∉ l) {t : List UInt8}
    (comment : l.dropWhile isBlank = ch '#' :: t) (x : List UInt8) :
    lineStart (fuel + 1) (l ++ x) = (strchr NL x >>= fun
      | none => pure none
      | some next => lineStart fuel next.tail) := by
  have inside := dropWhile_suffix isBlank (l := l)
  rw [comment] at inside
  rw [lineStart, skipBlanks_line one, comment, if_neg (cons_ne_nil _ _)]
  change (strchr NL ((ch '#' :: t) ++ x) >>= _) = _
  rw [strchr_skip (fun h => nul (inside.subset h)) (fun h => one (inside.subset h))]

theorem lineStart_comment_end (nul : 0 ∉ l) (one : NL ∉ l) {t : List UInt8}
    (comment : l.dropWhile isBlank = ch '#' :: t) (ending : Ending z) :
    lineStart (fuel + 1) (l ++ z) = atEnd z := by
  rw [lineStart_comment nul one comment]
  cases ending with
  | full => rfl
  | nul => rfl

theorem lineStart_command (nul : 0 ∉ l) (one : NL ∉ l) {c : UInt8} {t : List UInt8}
    (text : l.dropWhile isBlank = c :: t) (member : c ∈ l) (command : c ≠ ch '#') (x : List UInt8) :
    lineStart (fuel + 1) (l ++ x) = .ok (some (c :: t ++ x)) := by
  have some_ : c ≠ 0 := fun zero => nul (zero ▸ member)
  rw [lineStart, skipBlanks_line one, text, if_neg (cons_ne_nil _ _)]
  change (if c = 0 then _ else if c = ch '#' then _ else _) = _
  rw [if_neg some_, if_neg command]
  rfl

end

/-- Where `getcmd0` finds a command in `r`, when `z` comes after it. -/
inductive First (r z : List UInt8) : Except Fault (Option (List UInt8)) → Prop
  | none : commands r = [] → isCommand (strip (lastLine r)) = false → First r z (atEnd z)
  | line {text r'} : 0 ∉ text → NL ∉ text → 0 ∉ r' → lastLine r = lastLine r' →
      (∀ more, commands (r ++ more) = text.rdropWhile (· == CR) :: commands (r' ++ more)) →
      First r z (.ok (some (text ++ NL :: (r' ++ z))))
  | last {text} : 0 ∉ text → NL ∉ text → commands r = [text.rdropWhile (· == CR)] →
      isCommand (strip (lastLine r)) = true → First r z (.ok (some (text ++ z)))

section

variable {r z : List UInt8} {fuel : Nat}

theorem First.skip {l : List UInt8} {res : Except Fault (Option (List UInt8))} (one : NL ∉ l)
    (other : isCommand (strip l) = false) (first : First r z res) : First (l ++ NL :: r) z res := by
  have same : ∀ r, commands (l ++ NL :: r) = commands r := by
    intro r
    rw [commands_line one, filter_cons_of_neg (by rw [other]; exact Bool.false_ne_true)]
    rfl
  cases first with
  | none empty last => exact .none ((same r).trans empty) (by rw [lastLine_line one]; exact last)
  | line nul nl nul' last next =>
    refine .line nul nl nul' ((lastLine_line one r).trans last) fun more => ?_
    rw [append_assoc, cons_append, same, next]
  | last nul nl only last => exact .last nul nl ((same r).trans only) (by rw [lastLine_line one]; exact last)

theorem First.nothing (only : NL ∉ r) (other : isCommand (strip r) = false) : First r z (atEnd z) := by
  refine .none ?_ ((lastLine_last only).symm ▸ other)
  rw [commands_last only, filter_cons_of_neg (by rw [other]; exact Bool.false_ne_true)]
  rfl

theorem isCommand_text {l : List UInt8} {c : UInt8} {t : List UInt8} (text : l.dropWhile isBlank = c :: t)
    (first : isBlank c = false) : isCommand (strip l) = (c != ch '#') := by
  rw [strip_eq text first]
  rfl

theorem isCommand_blank {l : List UInt8} (blank : l.dropWhile isBlank = []) : isCommand (strip l) = false := by
  unfold strip
  rw [blank]
  rfl

theorem lineStart_first (nul : 0 ∉ r) (ending : Ending z) (enough : r.length < fuel) :
    First r z (lineStart fuel (r ++ z)) := by
  induction size : r.length using Nat.strong_induction_on generalizing r fuel with
  | _ n ih =>
    subst size
    obtain ⟨fuel, rfl⟩ := Nat.exists_eq_add_of_lt (Nat.lt_of_le_of_lt (Nat.zero_le _) enough)
    rw [Nat.zero_add] at enough ⊢
    by_cases more : NL ∈ r
    · obtain ⟨l, r', rfl, one⟩ := eq_append_cons_of_mem more
      have nulLine : 0 ∉ l := fun h => nul (mem_append_left _ h)
      have nulRest : 0 ∉ r' := fun h => nul (mem_append_right _ (mem_cons_of_mem _ h))
      rw [length_append, length_cons] at enough
      have shorter : r'.length < (l ++ NL :: r').length := by
        rw [length_append, length_cons]
        omega
      rw [append_assoc, cons_append]
      rcases blank_or l with blank | ⟨c, t, text, first, member⟩
      · rw [lineStart_blank one blank]
        change First _ z (lineStart (fuel + 1) (r' ++ z))
        exact (ih _ shorter nulRest (by omega) rfl).skip one (isCommand_blank blank)
      · by_cases comment : c = ch '#'
        · subst comment
          rw [lineStart_comment nulLine one text]
          change First _ z (lineStart fuel (r' ++ z))
          refine (ih _ shorter nulRest (by omega) rfl).skip one ?_
          rw [isCommand_text text first]
          rfl
        · have inside := dropWhile_suffix isBlank (l := l)
          rw [text] at inside
          rw [lineStart_command nulLine one text member comment]
          refine .line (fun h => nulLine (inside.subset h)) (fun h => one (inside.subset h)) nulRest
            (lastLine_line one r') fun more => ?_
          have command : isCommand (strip l) = true := by grind [isCommand_text]
          rw [append_assoc, cons_append, commands_line one, filter_cons_of_pos command, strip,
            text]
          rfl
    · rcases blank_or r with blank | ⟨c, t, text, first, member⟩
      · rw [lineStart_blank more blank, lineStart_end ending]
        exact .nothing more (isCommand_blank blank)
      · by_cases comment : c = ch '#'
        · subst comment
          rw [lineStart_comment_end nul more text ending]
          refine .nothing more ?_
          rw [isCommand_text text first]
          rfl
        · have inside := dropWhile_suffix isBlank (l := r)
          rw [text] at inside
          have command : isCommand (strip r) = true := by grind [isCommand_text]
          rw [lineStart_command nul more text member comment]
          refine .last (fun h => nul (inside.subset h)) (fun h => more (inside.subset h)) ?_
            ((lastLine_last more).symm ▸ command)
          rw [commands_last more, filter_cons_of_pos command, strip, text]
          rfl

theorem rdropWhile_nl {text : List UInt8} (one : NL ∉ text) :
    text.rdropWhile (fun c => c == NL || c == CR) = text.rdropWhile (· == CR) := by
  induction text using List.reverseRecOn with
  | nil => rfl
  | append_singleton text c ih =>
    have other : (c == NL) = false :=
      beq_eq_false_iff_ne.mpr fun same => one (same ▸ mem_append_right _ mem_cons_self)
    rw [rdropWhile_concat, rdropWhile_concat, other, Bool.false_or,
      ih fun h => one (mem_append_left _ h)]

/-- What `getcmd0` returns for a text `r`, when `z` comes after it. -/
inductive Taken (nbuf : Nat) (r z : List UInt8) : Except Fault (Option (List UInt8 × List UInt8)) → Prop
  | none : commands r = [] → isCommand (strip (lastLine r)) = false → Taken nbuf r z (atEnd z)
  | long {cmd rest} : commands r = cmd :: rest → nbuf ≤ cmd.length →
      (z = [] → ∀ more, commands (r ++ more) ≠ []) → Taken nbuf r z (.ok none)
  | line {cmd r'} : 0 ∉ r' → lastLine r = lastLine r' →
      (∀ more, commands (r ++ more) = cmd :: commands (r' ++ more)) → cmd.length < nbuf →
      Taken nbuf r z (.ok (some (cmd, r' ++ z)))
  | outside : z = [] → Taken nbuf r z (.error .outside)
  | last {cmd z'} : z = 0 :: z' → commands r = [cmd] → isCommand (strip (lastLine r)) = true →
      cmd.length < nbuf → Taken nbuf r z (.ok (some (cmd, z')))

theorem copyLine_eq {nbuf : Nat} {text next : List UInt8} {c : UInt8} (one : NL ∉ text) (stop : c = NL ∨ c = 0) :
    copyLine nbuf (text ++ c :: next) (c :: next) =
      if nbuf ≤ (text.rdropWhile (· == CR)).length then .ok none
      else .ok (some (text.rdropWhile (· == CR), next)) := by
  have length : (text ++ c :: next).take ((text ++ c :: next).length - (c :: next).length) = text := by
    rw [length_append, Nat.add_sub_cancel, take_left]
  unfold copyLine
  rw [length, rdropWhile_nl one]
  dsimp only
  rw [if_pos stop]

theorem getcmd0_taken (nbuf : Nat) (nul : 0 ∉ r) (ending : Ending z) :
    Taken nbuf r z (getcmd0 nbuf (r ++ z)) := by
  have first : First r z (lineStart ((r ++ z).length + 1) (r ++ z)) := lineStart_first nul ending
    (by rw [length_append]; omega)
  unfold getcmd0
  generalize lineStart ((r ++ z).length + 1) (r ++ z) = found at first
  cases first with
  | none empty last =>
    have same : (atEnd z >>= fun
        | none => pure none
        | some line => do
          let stop ← lineEnd line
          copyLine nbuf line stop : Except Fault (Option (List UInt8 × List UInt8))) = atEnd z := by
      cases ending with
      | full => rfl
      | nul => rfl
    exact same ▸ .none empty last
  | @line text r' nul' one nulRest last next =>
    change Taken nbuf r z (lineEnd (text ++ NL :: (r' ++ z)) >>= _)
    have stop : lineEnd (text ++ NL :: (r' ++ z)) = .ok (NL :: (r' ++ z)) := by
      unfold lineEnd
      rw [strchr_skip nul' one]
      rfl
    rw [stop]
    change Taken nbuf r z (copyLine nbuf _ _)
    rw [copyLine_eq one (.inl rfl)]
    have here := next []
    rw [append_nil, append_nil] at here
    split
    · rename_i long
      exact .long here long fun _ more => by rw [next more]; exact cons_ne_nil _ _
    · rename_i short
      exact .line nulRest last next (Nat.lt_of_not_le short)
  | @last text nul' one only last =>
    change Taken nbuf r z (lineEnd (text ++ z) >>= _)
    cases ending with
    | full =>
      have outside : lineEnd (text ++ []) = .error .outside := by
        unfold lineEnd
        rw [strchr_skip nul' one]
        rfl
      rw [outside]
      exact .outside rfl
    | @nul z' =>
      have stop : lineEnd (text ++ 0 :: z') = .ok (0 :: z') := by
        unfold lineEnd
        rw [strchr_skip nul' one]
        change (strlen (text ++ 0 :: z') >>= _) = _
        rw [strlen_eq nul']
        exact congrArg Except.ok drop_left
      rw [stop]
      change Taken nbuf r _ (copyLine nbuf _ _)
      rw [copyLine_eq one (.inr rfl)]
      split
      · rename_i long
        exact .long only long nofun
      · rename_i short
        exact .last rfl only last (Nat.lt_of_not_le short)

end

/-! The loop -/

section

variable {r : List UInt8} {fuel : Nat}

theorem script_cons {m : Except Fault (List (List UInt8))} {cmd : List UInt8} {rest : List (List UInt8)} :
    (m >>= fun rest => pure (cmd :: rest)) = .ok (cmd :: rest) ↔ m = .ok rest := by
  cases m with
  | error e => exact ⟨nofun, nofun⟩
  | ok l =>
    change Except.ok (cmd :: l) = .ok (cmd :: rest) ↔ _
    rw [Except.ok.injEq, Except.ok.injEq, List.cons.injEq, and_iff_right rfl]

/-- With a NUL after the text, all commands are taken if they are short, and if the array does not
end where the loop goes on after the last. -/
theorem script_iff {k : Nat} (nul : 0 ∉ r) (enough : (commands r).length < fuel) :
    script fuel (r ++ 0 :: List.replicate k 0) = .ok (commands r) ↔
      (∀ cmd ∈ commands r, cmd.length < BUF) ∧ (k = 0 → isCommand (strip (lastLine r)) = false) := by
  induction fuel generalizing r k with
  | zero => omega
  | succ fuel ih =>
    have taken := getcmd0_taken BUF nul (.nul (z := List.replicate k 0))
    unfold script
    generalize getcmd0 BUF (r ++ 0 :: List.replicate k 0) = got at taken
    cases taken with
    | none empty last =>
      rw [empty]
      exact ⟨fun _ => ⟨nofun, fun _ => last⟩, fun _ => rfl⟩
    | long here long _ =>
      rw [here]
      constructor
      · exact nofun
      · grind
    | @line cmd r' nulRest last next short =>
      have here := next []
      rw [append_nil, append_nil] at here
      rw [here, length_cons] at enough
      change (script fuel (r' ++ 0 :: List.replicate k 0) >>= fun rest => pure (cmd :: rest)) = _ ↔ _
      have step := ih (r := r') (k := k) nulRest (by omega)
      rw [here, last, forall_mem_cons, and_assoc, ← step, script_cons]
      exact (and_iff_right short).symm
    | outside empty => cases empty
    | @last cmd z' same only last short =>
      cases same
      rw [only, length_singleton] at enough
      change (script fuel (List.replicate k 0) >>= fun rest => pure (cmd :: rest)) = _ ↔ _
      rw [only, last]
      cases k with
      | zero =>
        obtain ⟨fuel, rfl⟩ := Nat.exists_eq_succ_of_ne_zero (Nat.ne_of_gt (Nat.lt_of_succ_lt_succ enough))
        constructor
        · exact nofun
        · rintro ⟨-, no⟩
          cases no rfl
      | succ k =>
        have rest : script fuel ([] ++ 0 :: List.replicate k 0) = .ok (commands []) :=
          (ih not_mem_nil (Nat.lt_of_succ_lt_succ enough)).mpr ⟨nofun, fun _ => rfl⟩
        rw [replicate_succ, ← nil_append (0 :: _), rest]
        refine ⟨fun _ => ⟨fun _ member => ?_, nofun⟩, fun _ => rfl⟩
        rw [mem_singleton.mp member]
        exact short

theorem script_full (nul : 0 ∉ r) (more : List UInt8) : script fuel r ≠ .ok (commands (r ++ more)) := by
  induction fuel generalizing r with
  | zero => exact nofun
  | succ fuel ih =>
    have taken := getcmd0_taken BUF nul .full
    rw [append_nil] at taken
    unfold script
    generalize getcmd0 BUF r = got at taken
    cases taken with
    | none => exact nofun
    | long _ _ some_ =>
      intro ran
      exact some_ rfl more (Except.ok.inj ran).symm
    | @line cmd r' nulRest _ next _ =>
      rw [next more, append_nil]
      change (script fuel r' >>= fun rest => pure (cmd :: rest)) ≠ _
      exact fun ran => ih nulRest (script_cons.mp ran)
    | outside => exact nofun
    | last same => cases same

end

theorem readInitCmd_eq (content : List UInt8) : readInitCmd content =
    content.take INITCMD_MAX ++ List.replicate (INITCMD_MAX - content.length) 0 := by
  have got : readLoop (content.length + 1) content [] = content.take INITCMD_MAX := by
    unfold readLoop
    rw [length_nil, Nat.sub_zero]
    dsimp only
    split
    · grind
    · rename_i some_
      have length : ([] ++ content.take (min INITCMD_MAX content.length)).length =
          min INITCMD_MAX content.length := by
        rw [nil_append, length_take]
        omega
      rw [length]
      split
      · rename_i full
        rw [full, nil_append]
      · rename_i short
        -- the file is at its end, so the next `read` returns 0
        have all : min INITCMD_MAX content.length = content.length := by omega
        obtain ⟨m, size⟩ := Nat.exists_eq_succ_of_ne_zero some_
        rw [all] at size
        rw [all, size, readLoop, ← size, drop_length]
        dsimp only
        rw [length_nil, Nat.min_zero, if_pos rfl, nil_append, take_length,
          take_of_length_le (by omega)]
  unfold readInitCmd
  dsimp only
  rw [got, length_take]
  congr 2
  omega

theorem runInit_iff {content : List UInt8} (nul : 0 ∉ content) :
    runInit content = .ok (commands content) ↔ content.length < INITCMD_MAX ∧
      (∀ cmd ∈ commands content, cmd.length < BUF) ∧
      (content.length + 1 = INITCMD_MAX → isCommand (strip (lastLine content)) = false) := by
  unfold runInit
  rw [readInitCmd_eq]
  by_cases fits : content.length < INITCMD_MAX
  · obtain ⟨k, spare⟩ := Nat.exists_eq_add_of_lt fits
    have count := length_commands content
    have enough : (commands content).length < INITCMD_MAX + 1 := by omega
    have step := script_iff (k := k) nul enough
    have zero : k = 0 ↔ content.length + 1 = INITCMD_MAX := by omega
    rw [take_of_length_le (by omega), show INITCMD_MAX - content.length = k + 1 by omega,
      replicate_succ, step, zero]
    exact ⟨fun both => ⟨fits, both⟩, fun all => all.2⟩
  · refine ⟨fun ran => ?_, fun all => absurd all.1 fits⟩
    rw [Nat.sub_eq_zero_of_le (Nat.le_of_not_lt fits), replicate_zero, append_nil] at ran
    have other : script (INITCMD_MAX + 1) (content.take INITCMD_MAX) ≠ _ := script_full
      (fun h => nul (mem_of_mem_take h)) (content.drop INITCMD_MAX)
    rw [take_append_drop] at other
    exact absurd ran other

/-! At the prompt -/

section

variable {line : List UInt8}

theorem gets_line {n : Nat} (nl : NL ∉ line) (cr : CR ∉ line) (x : List UInt8) :
    gets (line.length + n) (line ++ x) = (line ++ (gets n x).1, (gets n x).2) := by
  induction line with
  | nil => rw [length_nil, Nat.zero_add]; rfl
  | cons c line ih =>
    obtain ⟨first, rest⟩ := not_or.mp (mt mem_cons.mpr nl)
    obtain ⟨first', rest'⟩ := not_or.mp (mt mem_cons.mpr cr)
    rw [cons_append, length_cons, Nat.succ_add, gets,
      if_neg (not_or.mpr ⟨Ne.symm first, Ne.symm first'⟩), ih rest rest']
    rfl

theorem prompt_step {fuel : Nat} {input buf rest : List UInt8} (ran : gets (BUF - 1) input = (buf, rest))
    (some_ : buf ≠ []) (nul : 0 ∉ buf) : prompt (fuel + 1) input = dispatch buf :: prompt fuel rest := by
  obtain ⟨c, cs, rfl⟩ := exists_cons_of_ne_nil some_
  rw [prompt, ran]
  exact if_neg fun zero : c = 0 => nul (zero ▸ mem_cons_self)

theorem prompt_nil (fuel : Nat) : prompt fuel [] = [] := by
  cases fuel with
  | zero => rfl
  | succ fuel => rfl

theorem typed_same (some_ : line ≠ []) (nul : 0 ∉ line) (nl : NL ∉ line) (cr : CR ∉ line)
    (short : line.length < BUF) (chdir : ∀ dir, line = cd ++ dir → dir = []) :
    effects [dispatch line] = effects (typed line) := by
  unfold typed
  by_cases room : line.length < BUF - 1
  · obtain ⟨n, size⟩ := Nat.exists_eq_add_of_lt room
    have ran : gets (BUF - 1) (line ++ [NL]) = (line ++ [NL], []) := by
      rw [size, Nat.add_assoc, gets_line nl cr]
      rfl
    have nul' : 0 ∉ line ++ [NL] := by
      intro h
      rcases mem_append.mp h with h | h
      · exact nul h
      · exact absurd (mem_singleton.mp h) (by decide)
    rw [prompt_step ran (append_ne_nil_of_right_ne_nil _ (cons_ne_nil _ _)) nul', prompt_nil]
    unfold dispatch
    by_cases isCd : line.take 3 = cd
    · have same : line = cd ++ line.drop 3 := by
        rw [← isCd, take_append_drop]
      have only := chdir _ same
      rw [only, append_nil] at same
      subst same
      rfl
    · have other : (line ++ [NL]).take 3 ≠ cd := by
        intro same
        by_cases three : 3 ≤ line.length
        · grind
        · -- a shorter line has its newline among the first three characters
          have inside : NL ∈ (line ++ [NL]).take 3 := by
            grind [take_of_length_le, length_append, length_singleton, mem_append_right, mem_cons_self]
          rw [same] at inside
          exact absurd inside (by decide)
      rw [if_neg isCd, if_neg other]
      unfold effects
      simp only [filterMap_cons, filterMap_nil, lex_concat (show isSpace NL = true by decide)]
  · -- the newline is read as a line of its own
    have full : BUF - 1 = line.length := by omega
    have ran : gets (BUF - 1) (line ++ [NL]) = (line, [NL]) := by
      rw [full, ← Nat.add_zero line.length, gets_line nl cr, gets, append_nil]
    have last : gets (BUF - 1) [NL] = ([NL], []) := rfl
    rw [prompt_step ran some_ nul, prompt_step last (cons_ne_nil _ _) (by decide), prompt_nil]
    unfold effects
    rw [filterMap_cons, filterMap_cons]
    rfl

end

/-! The result -/

theorem command_mem {content line : List UInt8} (member : line ∈ commands content) :
    line ≠ [] ∧ NL ∉ line ∧ ∀ c ∈ line, c ∈ content := by
  unfold commands at member
  obtain ⟨stripped, command⟩ := mem_filter.mp member
  obtain ⟨l, listed, rfl⟩ := mem_map.mp stripped
  have sub : ∀ c ∈ strip l, c ∈ l := fun c h =>
    (dropWhile_suffix isBlank).subset (( rdropWhile_prefix _ _).subset h)
  have parts : NL ∉ l ∧ ∀ c ∈ l, c ∈ content := by
    clear member stripped command sub
    induction content generalizing l with
    | nil =>
      rw [mem_singleton.mp listed]
      exact ⟨not_mem_nil, fun _ h => h⟩
    | cons c cs ih =>
      unfold lines at listed
      split at listed
      · grind
      · rename_i other
        obtain ⟨m, ms, same⟩ := exists_cons_of_ne_nil (lines_ne cs)
        rw [same, modifyHead_cons] at listed
        rcases mem_cons.mp listed with rfl | later
        · grind
        · grind
  refine ⟨?_, fun h => parts.1 (sub NL h), fun c h => parts.2 c (sub c h)⟩
  intro empty
  rw [empty] at command
  cases command

theorem dispatch_cd {dir : List UInt8} : dispatch (cd ++ dir) = .chdir dir ↔ dir = [] := by
  have action : dispatch (cd ++ dir) = .chdir ((cd ++ dir).dropLast.drop 3) := if_pos rfl
  rw [action]
  constructor
  · intro same
    have length := congrArg List.length (Action.chdir.inj same)
    rw [length_drop, length_dropLast, length_append] at length
    have three : cd.length = 3 := rfl
    exact length_eq_zero_iff.mp (by omega)
  · rintro rfl
    rfl

def startup : List UInt8 := ['#', '\n', ' ', 'l', 's', '\r', '\n', 'w', 'c'].map ch

theorem fits_startup : Fits startup := by
  have cmds : commands startup = [['l', 's'].map ch, ['w', 'c'].map ch] := by decide +kernel
  refine ⟨by decide, by decide, ?_, fun dir member => ?_⟩
  · rw [cmds]
    decide
  · rw [cmds] at member
    have both : ∀ line ∈ [['l', 's'].map ch, ['w', 'c'].map ch], line.length < cd.length := by decide
    have short := both _ member
    rw [length_append] at short
    omega

def moving : List UInt8 := ['c', 'd', ' ', 'd', 'i', 'r'].map ch

end UvaOs.Initrc
