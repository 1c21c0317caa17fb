import UvaOs.Usr.Parse

/-! A line that derives from the grammar is accepted, and the words of its command are the strings
that `nulterminate` leaves in memory. -/
namespace UvaOs.Shell

open Prog Scan List

/-! A derivation is followed by the parser. -/

section

variable {ts us rest : List Token}

theorem Follow.not_starts {nt : Nonterminal} {cs : List Char} (follow : Follow nt rest)
    (other : ∀ k ∈ nt.follow, ¬ (cs.map ch).contains k.first = true) : ¬ Starts cs rest = true := by
  match rest with
  | [] => exact Bool.false_ne_true
  | .sym k :: _ => exact other k follow

theorem follow_sym {nt : Nonterminal} {k : Sym} (member : k ∈ nt.follow) : Follow nt (.sym k :: ts) := member

theorem Follow.mono {nt nt' : Nonterminal} (follow : Follow nt rest)
    (wider : ∀ k ∈ nt.follow, k ∈ nt'.follow) : Follow nt' rest := by
  match rest with
  | [] => trivial
  | .sym k :: _ => exact wider k follow

theorem follow_amps (follow : Follow .pipe rest) (n : Nat) :
    Follow .pipe (List.replicate n (.sym .amp) ++ rest) := by
  cases n with
  | zero => exact follow
  | succ n =>
    rw [replicate_succ]
    exact follow_sym (by decide)

end

def Begins (ts : List Token) : Prop := ts = [] ∨ ∃ w us, ts = .word w :: us

section

variable {mem : Bytes.Buffer} {start es s fuel : Nat} {ts rest : List Token} {argv : List (List UInt8)}
  {ws : List (Redir (List UInt8))} (line : Terminated mem start es)

include line

section

variable {α : Type} {Q : α → Nat → Prop} {E : Halt → Prop} {cs : List Char} {A B : Prog Nat Halt α}
  {f : Tok × Nat × Nat → Prog Nat Halt α} (inside : Inside start es s)
  (listed : cs.all fun c => (symbolOf (ch c)).isSome)

include inside listed

theorem wp_skip (here : toks mem es s = ts) (other : ¬ Starts cs ts = true)
    (next : ∀ t, Inside start es t → toks mem es t = ts → wp B Q E t) :
    wp (peek mem es cs >>= fun b => if b = true then A else B) Q E s := by
  subst here
  exact wp_peek line inside listed (fun _ _ _ starts => absurd starts other) fun t inside' same _ => next t inside' same

theorem wp_take {k : Sym} (here : toks mem es s = .sym k :: ts) (starts : (cs.map ch).contains k.first = true)
    (next : ∀ q eq t, Inside start es t → toks mem es t = ts → wp (f (.sym k, q, eq)) Q E t) :
    wp (peek mem es cs >>= fun b => if b = true then gettoken mem es >>= f else B) Q E s := by
  refine wp_peek line inside listed (fun t inside' same _ => ?_) fun _ _ _ other => ?_
  · exact wp_sym line inside' (same.trans here) next
  · rw [here] at other
    exact absurd starts other

end

theorem parseredirs_complete {acc : List (Redir (Nat × Nat))} (inside : Inside start es s)
    (simple : Simple ts argv ws) (here : toks mem es s = ts ++ rest) (follow : Follow .cmd rest) :
    wp (parseredirs mem es fuel acc) (fun rs t => Inside start es t ∧ ∃ us new read left,
      toks mem es t = us ++ rest ∧ Begins us ∧ rs = acc ++ new ∧ ws = read ++ left ∧
      List.Forall₂ (Redir.Rel (IsWord mem start es)) new read ∧ Simple us argv left) (· = .fuel) s := by
  induction simple generalizing s acc fuel with
  | nil =>
    cases fuel with
    | zero => exact rfl
    | succ fuel =>
      refine wp_skip line inside (by decide) here (follow.not_starts (by decide)) fun t inside' here' => ?_
      exact ⟨inside', [], [], [], [], here', .inl rfl, (append_nil acc).symm, rfl, .nil, .nil⟩
  | @word ts argv ws w simple ih =>
    cases fuel with
    | zero => exact rfl
    | succ fuel =>
      refine wp_skip line inside (by decide) here Bool.false_ne_true fun t inside' here' => ?_
      exact ⟨inside', _, [], [], _, here', .inr ⟨w, ts, rfl⟩, (append_nil acc).symm, rfl, .nil, simple.word⟩
  | @redir ts argv ws w k mode fd simple known ih =>
    cases fuel with
    | zero => exact rfl
    | succ fuel =>
      refine wp_take line inside (by decide) here (starts_redir.mpr ⟨k, ts, rfl, _, known⟩)
        fun _ _ u inside₂ rest₁ => ?_
      refine wp_word line inside₂ rest₁ fun p v word inside₃ rest₂ => ?_
      simp only [ne_eq, not_true_eq_false, if_false, known]
      refine wp_mono (ih inside₃ rest₂) ?_ fun _ no => no
      rintro _ x ⟨inside₄, us, new, read, left, after, begins, rfl, rfl, each, simple'⟩
      refine ⟨inside₄, us, ⟨p, mode, fd⟩ :: new, ⟨w, mode, fd⟩ :: read, left, after, begins, ?_, rfl,
        .cons ⟨word, rfl, rfl⟩ each, simple'⟩
      exact append_assoc ..

theorem parseargs_complete {acc : List (Nat × Nat)} {racc : List (Redir (Nat × Nat))}
    (inside : Inside start es s) (simple : Simple ts argv ws) (begins : Begins ts)
    (here : toks mem es s = ts ++ rest) (follow : Follow .cmd rest)
    (few : acc.length + argv.length < MAXARGS) :
    wp (parseargs mem es fuel acc racc) (fun r t => Inside start es t ∧ ∃ new rs,
      toks mem es t = rest ∧ r = (acc ++ new, racc ++ rs) ∧ List.Forall₂ (IsWord mem start es) new argv ∧
      List.Forall₂ (Redir.Rel (IsWord mem start es)) rs ws) (· = .fuel) s := by
  induction fuel generalizing s acc racc ts argv ws with
  | zero => exact rfl
  | succ fuel ih =>
    unfold parseargs
    rcases begins with rfl | ⟨w, us, rfl⟩
    · cases simple
      have none : ∀ t, Inside start es t → toks mem es t = rest →
          Inside start es t ∧ ∃ new rs, toks mem es t = rest ∧ (acc, racc) = (acc ++ new, racc ++ rs) ∧
            List.Forall₂ (IsWord mem start es) new [] ∧
            List.Forall₂ (Redir.Rel (IsWord mem start es)) rs [] := by
        intro t inside' same
        refine ⟨inside', [], [], same, ?_, .nil, .nil⟩
        rw [append_nil, append_nil]
      refine wp_peek line inside (by decide) (fun t inside' same _ => none t inside' (same.trans here))
        fun t inside' same other => ?_
      -- what follows is none of the symbols, so the line ends here
      rcases rest with _ | ⟨w | k, vs⟩
      · exact wp_eof line inside' (same.trans here) fun _ _ => none
      · exact False.elim follow
      · rw [here] at other
        exact absurd (starts_follow.mpr ⟨k, vs, rfl, follow⟩) other
    · cases simple with
      | @word _ argv _ _ simple =>
        refine wp_skip line inside (by decide) here Bool.false_ne_true fun t inside' here' => ?_
        refine wp_word line inside' here' ?_
        rintro ⟨q, eq⟩ u word inside₂ after
        rw [length_cons] at few
        have length : (acc ++ [(q, eq)]).length = acc.length + 1 := length_append
        have room : ¬ (acc ++ [(q, eq)]).length ≥ MAXARGS := by omega
        dsimp only
        rw [if_neg (show Tok.word ≠ .eof by simp), if_neg (not_not_intro rfl), if_neg room]
        refine wp_call (parseredirs_complete line inside₂ simple after follow) ?_
        rintro _ v ⟨inside₃, vs, rs, read, left, after', begins, rfl, rfl, each, simple'⟩
        refine wp_mono (ih inside₃ simple' begins after' (by omega)) ?_ fun _ no => no
        rintro _ x ⟨inside₄, new, rs', ends, rfl, words, each'⟩
        refine ⟨inside₄, (q, eq) :: new, rs ++ rs', ends, ?_, .cons word words, rel_append each each'⟩
        rw [append_assoc, append_assoc]
        rfl

theorem parseamps_complete {cmd : Cmd (Nat × Nat)} {n : Nat} (inside : Inside start es s)
    (here : toks mem es s = List.replicate n (.sym .amp) ++ rest) (other : ¬ Starts ['&'] rest = true) :
    wp (parseamps mem es fuel cmd) (fun c t => Inside start es t ∧ toks mem es t = rest ∧
      c = Cmd.back^[n] cmd) (· = .fuel) s := by
  induction n generalizing s cmd fuel with
  | zero =>
    cases fuel with
    | zero => exact rfl
    | succ fuel => exact wp_skip line inside (by decide) here other fun t inside' here' => ⟨inside', here', rfl⟩
  | succ n ih =>
    cases fuel with
    | zero => exact rfl
    | succ fuel => exact wp_take line inside (by decide) here (by decide) fun _ _ u inside₂ after => ih inside₂ after

end

/-- The function that parses what derives from a nonterminal. -/
def parser (mem : Bytes.Buffer) (es : Nat) : Nonterminal → Nat → Prog Nat Halt (Cmd (Nat × Nat))
  | .line => parseline mem es
  | .pipe => parsepipe mem es
  | .cmd => parseexec mem es

theorem parser_complete {mem : Bytes.Buffer} {start es s fuel : Nat} {nt : Nonterminal} {ts rest : List Token}
    {d : Cmd (List UInt8)} (line : Terminated mem start es) (inside : Inside start es s)
    (derives : Derives nt ts d) (here : toks mem es s = ts ++ rest) (follow : Follow nt rest) :
    wp (parser mem es nt fuel) (fun c t => Inside start es t ∧ toks mem es t = rest ∧
      Cmd.Rel (IsWord mem start es) c d) (· = .fuel) s := by
  induction derives generalizing s fuel rest with
  | @line ts c n _ ih =>
    cases fuel with
    | zero => exact rfl
    | succ fuel =>
      rw [append_assoc] at here
      refine wp_call (ih inside here (follow_amps (follow.mono (by decide)) n)) ?_
      rintro _ t ⟨inside', after, rel⟩
      refine wp_call (parseamps_complete line inside' after (follow.not_starts (by decide))) ?_
      rintro _ u ⟨inside₂, after', rfl⟩
      refine wp_skip line inside₂ (by decide) after' (follow.not_starts (by decide)) fun v inside₃ after₂ => ?_
      exact ⟨inside₃, after₂, rel.backs n⟩
  | @list ts c us d n _ _ ih ih' =>
    cases fuel with
    | zero => exact rfl
    | succ fuel =>
      simp only [append_assoc, cons_append] at here
      refine wp_call (ih inside here (follow_amps (follow_sym (by decide)) n)) ?_
      rintro _ t ⟨inside', after, rel⟩
      refine wp_call (parseamps_complete line inside' after (Bool.eq_false_iff.mp rfl)) ?_
      rintro _ u ⟨inside₂, after', rfl⟩
      refine wp_take line inside₂ (by decide) after' (by decide) fun _ _ x inside₄ after₂ => ?_
      refine wp_call (ih' inside₄ after₂ follow) ?_
      rintro _ y ⟨inside₅, after₃, rel'⟩
      exact ⟨inside₅, after₃, (rel.backs n).list rel'⟩
  | @pipe ts c _ ih =>
    cases fuel with
    | zero => exact rfl
    | succ fuel =>
      refine wp_call (ih inside here (follow.mono (by decide))) ?_
      rintro _ t ⟨inside', after, rel⟩
      refine wp_skip line inside' (by decide) after (follow.not_starts (by decide)) fun u inside₂ after' => ?_
      exact ⟨inside₂, after', rel⟩
  | @pipes ts c us d _ _ ih ih' =>
    cases fuel with
    | zero => exact rfl
    | succ fuel =>
      rw [append_assoc] at here
      refine wp_call (ih inside here (follow_sym (by decide))) ?_
      rintro _ t ⟨inside', after, rel⟩
      refine wp_take line inside' (by decide) after (by decide) fun _ _ x inside₃ after' => ?_
      refine wp_call (ih' inside₃ after' follow) ?_
      rintro _ y ⟨inside₄, after₂, rel'⟩
      exact ⟨inside₄, after₂, rel.pipe rel'⟩
  | @block ts c us rs _ simple ih =>
    cases fuel with
    | zero => exact rfl
    | succ fuel =>
      simp only [append_assoc, cons_append] at here
      refine wp_peek line inside (by decide) (fun t inside' same _ => ?_) fun t _ _ other => ?_
      · cases fuel with
        | zero => exact rfl
        | succ fuel =>
          refine wp_take line inside' (by decide) (same.trans here) (by decide) fun _ _ v inside₃ after => ?_
          refine wp_call (ih inside₃ after (follow_sym (by decide))) ?_
          rintro c' x ⟨inside₄, after', rel⟩
          refine wp_take line inside₄ (by decide) after' (by decide) fun _ _ z inside₆ after₂ => ?_
          refine wp_call (parseredirs_complete line inside₆ simple after₂ follow) ?_
          rintro _ z' ⟨inside₇, vs, new, read, left, after₃, begins, rfl, rfl, each, simple'⟩
          -- without words, nothing is left
          rcases begins with rfl | ⟨w, vs, rfl⟩
          · cases simple'
            rw [append_nil]
            exact ⟨inside₇, after₃, rel.wrap each⟩
          · cases simple'
      · rw [here] at other
        exact absurd (starts_lparen.mpr ⟨_, rfl⟩) other
  | @simple ts argv ws simple few =>
    cases fuel with
    | zero => exact rfl
    | succ fuel =>
      refine wp_peek line inside (by decide) (fun t _ _ starts => ?_) fun t inside' same _ => ?_
      · obtain ⟨vs, first⟩ := starts_lparen.mp starts
        rw [here] at first
        cases simple with
        | nil =>
          rw [nil_append] at first
          rw [first] at follow
          exact absurd (show Sym.lparen ∈ Nonterminal.cmd.follow from follow) (by decide)
        | word => cases first
        | redir _ known =>
          cases first
          cases known
      · rw [← same] at here
        refine wp_call (parseredirs_complete line inside' simple here follow) ?_
        rintro _ u ⟨inside₂, us, new, read, left, after, begins, rfl, rfl, each, simple'⟩
        refine wp_call (parseargs_complete line inside₂ simple' begins after follow
          (by rw [length_nil, Nat.zero_add]; exact few)) ?_
        rintro _ v ⟨inside₃, argv', rs, ends, rfl, words, each'⟩
        exact ⟨inside₃, ends, (Cmd.Rel.exec words).wrap (rel_append each each')⟩

/-! Strings -/

def Cmd.words {α : Type} : Cmd α → List α
  | .exec argv => argv
  | .redir cmd file _ _ => cmd.words ++ [file]
  | .pipe left right => left.words ++ right.words
  | .list left right => left.words ++ right.words
  | .back cmd => cmd.words

structure IsString (mem : Bytes.Buffer) (p : Nat) (w : List UInt8) : Prop where
  text : segment mem p (p + w.length) = w
  chars : ∀ c ∈ w, c ≠ 0
  nul : mem (p + w.length) = 0

section

variable {α β : Type} {R S : α → β → Prop} {c : Cmd α} {d e : Cmd β}

theorem Cmd.Rel.imp (h : Cmd.Rel R c d) (each : ∀ p ∈ c.words, ∀ w, R p w → S p w) : Cmd.Rel S c d := by
  induction h with
  | exec words =>
    refine .exec ?_
    induction words with
    | nil => exact .nil
    | cons first _ ih =>
      exact .cons (each _ mem_cons_self _ first) (ih fun p member => each p (mem_cons_of_mem _ member))
  | redir _ file ih =>
    exact .redir (ih fun p member => each p (mem_append_left _ member))
      (each _ (mem_append_right _ mem_cons_self) _ file)
  | pipe _ _ ih ih' =>
    exact .pipe (ih fun p member => each p (mem_append_left _ member))
      (ih' fun p member => each p (mem_append_right _ member))
  | list _ _ ih ih' =>
    exact .list (ih fun p member => each p (mem_append_left _ member))
      (ih' fun p member => each p (mem_append_right _ member))
  | back _ ih => exact .back (ih each)

theorem Cmd.Rel.words (h : Cmd.Rel R c d) : List.Forall₂ R c.words d.words := by
  induction h with
  | exec words => exact words
  | redir _ file ih => exact rel_append ih (.cons file .nil)
  | pipe _ _ ih ih' => exact rel_append ih ih'
  | list _ _ ih ih' => exact rel_append ih ih'
  | back _ ih => exact ih

theorem Cmd.Rel.word (h : Cmd.Rel R c d) {p : α} (member : p ∈ c.words) : ∃ w, R p w := by
  generalize c.words = ps, d.words = ws, h.words = words at member
  induction words with
  | nil => cases member
  | cons first _ ih => grind

theorem Cmd.Rel.unique (only : ∀ p v w, R p v → R p w → v = w) (h : Cmd.Rel R c d) (k : Cmd.Rel R c e) :
    d = e := by
  have unique : Relator.RightUnique R := fun p v w => only p v w
  induction h generalizing e with
  | exec words =>
    cases k with
    | exec words' => rw [right_unique_forall₂' unique words words']
  | redir _ file ih =>
    cases k with
    | redir sub file' => rw [ih sub, only _ _ _ file file']
  | pipe _ _ ih ih' =>
    cases k with
    | pipe left right => rw [ih left, ih' right]
  | list _ _ ih ih' =>
    cases k with
    | list left right => rw [ih left, ih' right]
  | back _ ih =>
    cases k with
    | back sub => rw [ih sub]

end

theorem nulterminate_apply (c : Cmd (Nat × Nat)) (mem : Bytes.Buffer) (i : Nat) :
    nulterminate c mem i = if i ∈ c.words.map Prod.snd then 0 else mem i := by
  have put : ∀ (mem : Bytes.Buffer) (e : Nat), Function.update mem e 0 i = if i = e then 0 else mem i := by
    intro mem e
    rw [Function.update_apply]
  induction c generalizing mem with
  | exec argv =>
    unfold nulterminate Cmd.words
    induction argv generalizing mem with
    | nil => rfl
    | cons p argv ih =>
      rw [foldl_cons, ih, put, map_cons]
      by_cases here : i = p.2
      · simp [here]
      · simp only [here, if_false, mem_cons, false_or]
  | redir c file mode fd ih =>
    rw [nulterminate, put, ih, Cmd.words, map_append]
    by_cases here : i = file.2
    · simp [here]
    · simp only [here, if_false, mem_append, map_cons, map_nil, mem_singleton, or_false]
  | pipe l r ihl ihr =>
    rw [nulterminate, ihr, ihl, Cmd.words, map_append]
    by_cases here : i ∈ r.words.map Prod.snd
    · rw [if_pos here, if_pos (mem_append_right _ here)]
    · rw [if_neg here]
      simp only [mem_append, here, or_false]
  | list l r ihl ihr =>
    rw [nulterminate, ihr, ihl, Cmd.words, map_append]
    by_cases here : i ∈ r.words.map Prod.snd
    · rw [if_pos here, if_pos (mem_append_right _ here)]
    · rw [if_neg here]
      simp only [mem_append, here, or_false]
  | back c ih => exact ih mem

section

variable {mem : Bytes.Buffer} {start es s : Nat} {c : Cmd (Nat × Nat)} {d : Cmd (List UInt8)}

theorem nulterminate_spec (line : Terminated mem start es) (rel : Cmd.Rel (IsWord mem start es) c d) :
    Cmd.Rel (fun p w => IsString (nulterminate c mem) p.1 w) c d ∧
      ∀ i, i < start ∨ es < i → nulterminate c mem i = mem i := by
  have ends : ∀ i ∈ c.words.map Prod.snd,
      start ≤ i ∧ i ≤ es ∧ (i < es → isPlain (mem i) = false) := by
    intro i member
    obtain ⟨p, word, rfl⟩ := mem_map.mp member
    obtain ⟨w, is⟩ := rel.word word
    have bounds := is.bounds
    exact ⟨by omega, bounds.2.2, is.stop⟩
  refine ⟨rel.imp fun p member w is => ?_, fun i outside => ?_⟩
  · have bounds := is.bounds
    have length : w.length = p.2 - p.1 := by
      rw [← is.text, length_segment]
    have stop : p.1 + w.length = p.2 := by omega
    have same : ∀ i, p.1 ≤ i → i < p.2 → mem i = nulterminate c mem i := by
      intro i low high
      rw [nulterminate_apply, if_neg]
      intro found
      have clash := (ends i found).2.2 (by omega)
      rw [is.plain i low high] at clash
      cases clash
    refine ⟨?_, fun b char => ?_, ?_⟩
    · rw [stop, ← segment_congr same, is.text]
    · rw [← is.text] at char
      obtain ⟨i, low, high, rfl⟩ := mem_segment char
      exact line.line i (by omega) (by omega)
    · rw [stop, nulterminate_apply, if_pos (mem_map_of_mem member)]
  · rw [nulterminate_apply, if_neg]
    intro found
    have := ends i found
    omega

theorem Terminated.ends (line : Terminated mem start es) (inside : Inside start es s) :
    skip mem isSpace es s = es ↔ toks mem es s = [] := by
  have space := line.not_space inside
  have inside' : Inside start es (skip mem isSpace es s) := inside_skip inside
  rw [← toks_skip inside]
  constructor
  · intro ends
    rw [ends, toks, segment_empty (Nat.le_refl es)]
    rfl
  · intro none
    by_contra more
    rw [toks, segment_cons (Nat.lt_of_le_of_ne inside'.2 more)] at none
    rcases lex_head space (segment mem (skip mem isSpace es s + 1) es) with ⟨k, ts, eq, -⟩ | ⟨-, w, ts, eq⟩
    · rw [eq] at none
      cases none
    · rw [eq] at none
      cases none

/-- What `parsecmd` has to return for a line: the command that derives from it, with its words as
strings, or a panic if there is none. -/
def Parsed (mem : Bytes.Buffer) (start es : Nat) : Except Halt (Cmd (Nat × Nat) × Bytes.Buffer) → Prop
  | .ok (c, mem') => ∃ d, (∀ e, Derives .line (lex (segment mem start es)) e ↔ e = d) ∧
      Cmd.Rel (fun p w => IsString mem' p.1 w) c d ∧ ∀ i, i < start ∨ es < i → mem' i = mem i
  | .error halt => (∃ msg, halt = .panic msg) ∧ ∀ d, ¬ Derives .line (lex (segment mem start es)) d

/-- `parsecmd` returns the command of the line, or panics if the line has none. -/
theorem parsecmd_spec (line : Terminated mem start es) :
    ∃ bound, ∀ fuel, bound ≤ fuel → Parsed mem start es (parsecmd fuel mem start es) := by
  refine ⟨4 * (toks mem es start).length + 4, fun fuel enough => ?_⟩
  have inside : Inside start es start := ⟨Nat.le_refl start, line.le⟩
  have sound := (calls line fuel).line start inside enough
  have complete : ∀ d, Derives .line (toks mem es start) d →
      wp (parseline mem es fuel) (fun c t => Inside start es t ∧ toks mem es t = [] ∧
        Cmd.Rel (IsWord mem start es) c d) (· = .fuel) start := fun d derives =>
    parser_complete line inside derives (append_nil _).symm trivial
  unfold parsecmd
  cases ran : parseline mem es fuel start with
  | error halt =>
    rw [run_bind_error ran]
    have deep := wp_error sound ran
    constructor
    · cases halt with
      | panic msg => exact ⟨msg, rfl⟩
      | fuel => exact absurd rfl deep
    · intro d derives
      have tooDeep := wp_error (complete d derives) ran
      exact deep tooDeep
  | ok result =>
    obtain ⟨c, t⟩ := result
    rw [run_bind ran]
    obtain ⟨inside', ts, d, split, derives, rel⟩ := wp_ok sound ran
    change Parsed mem start es (if skip mem isSpace es t ≠ es then _ else _)
    by_cases ends : skip mem isSpace es t = es
    · rw [if_neg (not_not_intro ends)]
      have none := (line.ends inside').mp ends
      rw [none, append_nil] at split
      obtain ⟨strings, frame⟩ := nulterminate_spec line rel
      refine ⟨d, fun e => ⟨fun derives' => ?_, ?_⟩, strings, frame⟩
      · exact (wp_ok (complete e derives') ran).2.2.unique
          (fun p v w first second => first.text.symm.trans second.text) rel
      · rintro rfl
        exact (congrArg (Derives .line · e) split).mpr derives
    · rw [if_pos ends]
      refine ⟨⟨_, rfl⟩, fun e derives' => ends ?_⟩
      exact (line.ends inside').mpr (wp_ok (complete e derives') ran).2.1

def listing : Bytes.Buffer := fun i => (['l', 's', '>', 'f'].map ch).getD i 0

theorem parsecmd_spec_listing :
    ∃ bound, ∀ fuel, bound ≤ fuel → Parsed listing 0 4 (parsecmd fuel listing 0 4) :=
  parsecmd_spec ⟨by decide, fun i _ high => (by decide : ∀ i < 4, listing i ≠ 0) i high, by decide⟩

example : (parsecmd 20 listing 0 4).map (fun r => (r.1, (List.range 5).map r.2)) =
    .ok (.redir (.exec [(0, 2)]) (3, 4) 0x601 1, [ch 'l', ch 's', 0, ch 'f', 0]) := by decide +kernel

end

end UvaOs.Shell
