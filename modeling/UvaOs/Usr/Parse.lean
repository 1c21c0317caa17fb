import UvaOs.Usr.Lex

/-! `parsecmd` returns the command that derives from the line, or panics. -/
namespace UvaOs.Shell

open Prog Scan List

/-! Two commands of one shape -/

structure Redir.Rel {α β : Type} (R : α → β → Prop) (x : Redir α) (y : Redir β) : Prop where
  file : R x.file y.file
  mode : x.mode = y.mode
  fd : x.fd = y.fd

/-- The commands have the same shape, and corresponding words are related. -/
inductive Cmd.Rel {α β : Type} (R : α → β → Prop) : Cmd α → Cmd β → Prop
  | exec {a b} : List.Forall₂ R a b → Rel R (.exec a) (.exec b)
  | redir {c d f g} {mode fd : Nat} : Rel R c d → R f g → Rel R (.redir c f mode fd) (.redir d g mode fd)
  | pipe {a b c d} : Rel R a c → Rel R b d → Rel R (.pipe a b) (.pipe c d)
  | list {a b c d} : Rel R a c → Rel R b d → Rel R (.list a b) (.list c d)
  | back {c d} : Rel R c d → Rel R (.back c) (.back d)

section

variable {α β : Type} {R : α → β → Prop} {c : Cmd α} {d : Cmd β}

theorem Cmd.Rel.wrap {rs : List (Redir α)} {ws : List (Redir β)} (h : Cmd.Rel R c d)
    (each : List.Forall₂ (Redir.Rel R) rs ws) : Cmd.Rel R (c.wrap rs) (d.wrap ws) := by
  induction each generalizing c d with
  | nil => exact h
  | cons first _ ih =>
    obtain ⟨file, mode, fd⟩ := first
    refine ih ?_
    dsimp only
    rw [mode, fd]
    exact h.redir file

theorem Cmd.Rel.backs (h : Cmd.Rel R c d) (n : Nat) : Cmd.Rel R (Cmd.back^[n] c) (Cmd.back^[n] d) := by
  induction n with
  | zero => exact h
  | succ n ih =>
    rw [Function.iterate_succ_apply', Function.iterate_succ_apply']
    exact ih.back

end

/-! The grammar -/

section

variable {ts us : List Token} {argv argv' : List (List UInt8)} {rs rs' : List (Redir (List UInt8))}

theorem Simple.append (h : Simple ts argv rs) (k : Simple us argv' rs') :
    Simple (ts ++ us) (argv ++ argv') (rs ++ rs') := by
  induction h with
  | nil => exact k
  | word _ ih => exact ih.word
  | redir _ known ih => exact ih.redir known

/-- What may come after a part of a line that is complete. -/
def Nonterminal.follow : Nonterminal → List Sym
  | .line => [.rparen]
  | .pipe => [.rparen, .semi, .amp]
  | .cmd => [.rparen, .semi, .amp, .bar]

def Follow (nt : Nonterminal) : List Token → Prop
  | [] => True
  | .sym k :: _ => k ∈ nt.follow
  | .word _ :: _ => False

theorem starts_iff {cs : List Char} {P : Sym → Prop}
    (known : ∀ k, (cs.map ch).contains k.first = true ↔ P k) :
    Starts cs ts = true ↔ ∃ k us, ts = .sym k :: us ∧ P k := by
  constructor
  · intro starts
    match ts with
    | .sym k :: us => exact ⟨k, us, rfl, (known k).mp starts⟩
  · rintro ⟨k, us, rfl, holds⟩
    exact (known k).mpr holds

theorem starts_one {c : Char} {k : Sym} (only : ∀ j, ([c].map ch).contains j.first = true ↔ j = k) :
    Starts [c] ts = true ↔ ∃ us, ts = .sym k :: us := by
  rw [starts_iff only]
  constructor
  · rintro ⟨_, us, same, rfl⟩
    exact ⟨us, same⟩
  · rintro ⟨us, same⟩
    exact ⟨k, us, same, rfl⟩

theorem starts_amp : Starts ['&'] ts = true ↔ ∃ us, ts = .sym .amp :: us :=
  starts_one fun j => by cases j <;> decide

theorem starts_semi : Starts [';'] ts = true ↔ ∃ us, ts = .sym .semi :: us :=
  starts_one fun j => by cases j <;> decide

theorem starts_bar : Starts ['|'] ts = true ↔ ∃ us, ts = .sym .bar :: us :=
  starts_one fun j => by cases j <;> decide

theorem starts_lparen : Starts ['('] ts = true ↔ ∃ us, ts = .sym .lparen :: us :=
  starts_one fun j => by cases j <;> decide

theorem starts_rparen : Starts [')'] ts = true ↔ ∃ us, ts = .sym .rparen :: us :=
  starts_one fun j => by cases j <;> decide

theorem starts_redir :
    Starts ['<', '>'] ts = true ↔ ∃ k us, ts = .sym k :: us ∧ ∃ r, redirection k = some r :=
  starts_iff fun k => by cases k <;> simp [redirection] <;> decide

theorem starts_follow :
    Starts ['|', ')', '&', ';'] ts = true ↔ ∃ k us, ts = .sym k :: us ∧ k ∈ Nonterminal.cmd.follow :=
  starts_iff fun k => by cases k <;> decide

end

/-! Rules for the two functions that move the cursor -/

section

variable {mem : Bytes.Buffer} {start es s : Nat} {α : Type} {Q : α → Nat → Prop} {E : Halt → Prop}
  (line : Terminated mem start es)

include line

variable {ts : List Token} {f : Tok × Nat × Nat → Prog Nat Halt α}

section

variable (inside : Inside start es s)
include inside

theorem wp_peek {cs : List Char} {A B : Prog Nat Halt α}
    (listed : cs.all fun c => (symbolOf (ch c)).isSome)
    (yes : ∀ t, Inside start es t → toks mem es t = toks mem es s → Starts cs (toks mem es s) = true →
      wp A Q E t)
    (no : ∀ t, Inside start es t → toks mem es t = toks mem es s → ¬ Starts cs (toks mem es s) = true →
      wp B Q E t) :
    wp (peek mem es cs >>= fun b => if b = true then A else B) Q E s := by
  refine wp_call (peek_spec line inside (all_eq_true.mp listed) E) ?_
  rintro b t ⟨rfl, inside', same⟩
  split
  · rename_i starts
    exact yes t inside' same starts
  · rename_i other
    exact no t inside' same other

theorem wp_sym {k : Sym} (here : toks mem es s = .sym k :: ts)
    (next : ∀ q eq t, Inside start es t → toks mem es t = ts → wp (f (.sym k, q, eq)) Q E t) :
    wp (gettoken mem es >>= f) Q E s := by
  refine wp_call (gettoken_spec line inside E) ?_
  rintro ⟨tok, q, eq⟩ t ⟨inside', reads⟩
  rw [here] at reads
  obtain ⟨rfl, rest⟩ := reads
  exact next q eq t inside' rest

theorem wp_word {w : List UInt8} (here : toks mem es s = .word w :: ts)
    (next : ∀ p t, IsWord mem start es p w → Inside start es t → toks mem es t = ts →
      wp (f (.word, p)) Q E t) :
    wp (gettoken mem es >>= f) Q E s := by
  refine wp_call (gettoken_spec line inside E) ?_
  rintro ⟨tok, p⟩ t ⟨inside', reads⟩
  rw [here] at reads
  obtain ⟨rfl, word, rest⟩ := reads
  exact next p t word inside' rest

theorem wp_eof (here : toks mem es s = [])
    (next : ∀ q eq t, Inside start es t → toks mem es t = [] → wp (f (.eof, q, eq)) Q E t) :
    wp (gettoken mem es >>= f) Q E s := by
  refine wp_call (gettoken_spec line inside E) ?_
  rintro ⟨tok, q, eq⟩ t ⟨inside', reads⟩
  rw [here] at reads
  obtain ⟨rfl, rest⟩ := reads
  exact next q eq t inside' rest

end

end

/-! What is returned derives from the tokens read, and the calls are not too deep. -/

section

variable {mem : Bytes.Buffer} {start es s fuel : Nat} (line : Terminated mem start es)

include line

section

variable (inside : Inside start es s) (enough : (toks mem es s).length < fuel)
include inside enough

theorem parseredirs_sound {acc : List (Redir (Nat × Nat))} :
    wp (parseredirs mem es fuel acc) (fun rs t => Inside start es t ∧ ∃ ts new ws,
      toks mem es s = ts ++ toks mem es t ∧ rs = acc ++ new ∧
      List.Forall₂ (Redir.Rel (IsWord mem start es)) new ws ∧ Simple ts [] ws) (· ≠ .fuel) s := by
  induction fuel generalizing s acc with
  | zero => omega
  | succ fuel ih =>
    unfold parseredirs
    refine wp_peek line inside (by decide) (fun t inside' same starts => ?_) fun t inside' same _ => ?_
    · obtain ⟨k, ts, here, ⟨mode, fd⟩, known⟩ := starts_redir.mp starts
      refine wp_sym line inside' (same.trans here) fun _ _ u inside₂ rest => ?_
      rw [here, length_cons] at enough
      dsimp only
      cases ts with
      | nil =>
        refine wp_eof line inside₂ rest fun _ _ v inside₃ rest' => ?_
        exact fun same => nomatch same
      | cons token ts =>
        cases token with
        | sym j =>
          refine wp_sym line inside₂ rest fun _ _ v inside₃ rest' => ?_
          exact fun same => nomatch same
        | word w =>
          refine wp_word line inside₂ rest fun p v word inside₃ rest' => ?_
          simp only [ne_eq, not_true_eq_false, if_false, known]
          have shorter : (toks mem es v).length < fuel := by grind
          refine wp_mono (ih inside₃ shorter) ?_ fun _ no => no
          rintro _ x ⟨inside₄, us, new, ws, split, rfl, each, simple⟩
          refine ⟨inside₄, .sym k :: .word w :: us, ⟨p, mode, fd⟩ :: new, ⟨w, mode, fd⟩ :: ws, ?_, ?_,
            .cons ⟨word, rfl, rfl⟩ each, simple.redir known⟩
          · rw [here, ← rest', split]
            rfl
          · exact append_assoc ..
    · exact ⟨inside', [], [], [], same.symm, (append_nil acc).symm, .nil, .nil⟩

theorem parseargs_sound {acc : List (Nat × Nat)} {racc : List (Redir (Nat × Nat))} (few : acc.length < MAXARGS) :
    wp (parseargs mem es fuel acc racc) (fun r t => Inside start es t ∧ ∃ ts argv new ws rs,
      toks mem es s = ts ++ toks mem es t ∧ r = (acc ++ argv, racc ++ rs) ∧
      (acc ++ argv).length < MAXARGS ∧ List.Forall₂ (IsWord mem start es) argv new ∧
      List.Forall₂ (Redir.Rel (IsWord mem start es)) rs ws ∧ Simple ts new ws) (· ≠ .fuel) s := by
  induction fuel generalizing s acc racc with
  | zero => omega
  | succ fuel ih =>
    unfold parseargs
    have none : ∀ t, Inside start es t → toks mem es t = toks mem es s →
        Inside start es t ∧ ∃ ts argv new ws rs, toks mem es s = ts ++ toks mem es t ∧
          (acc, racc) = (acc ++ argv, racc ++ rs) ∧ (acc ++ argv).length < MAXARGS ∧
          List.Forall₂ (IsWord mem start es) argv new ∧
          List.Forall₂ (Redir.Rel (IsWord mem start es)) rs ws ∧ Simple ts new ws := by
      intro t inside' same
      refine ⟨inside', [], [], [], [], [], same.symm, ?_, ?_, .nil, .nil, .nil⟩
      · rw [append_nil, append_nil]
      · rwa [append_nil]
    refine wp_peek line inside (by decide) (fun t inside' same _ => none t inside' same)
      fun t inside' same _ => ?_
    cases here : toks mem es s with
    | nil =>
      refine wp_eof line inside' (same.trans here) fun _ _ u inside₂ rest => ?_
      rw [← here]
      exact none u inside₂ (rest.trans here.symm)
    | cons token ts =>
      cases token with
      | sym k =>
        refine wp_sym line inside' (same.trans here) fun _ _ u inside₂ rest => ?_
        exact fun same => nomatch same
      | word w =>
        refine wp_word line inside' (same.trans here) fun p u word inside₂ rest => ?_
        rw [here, length_cons] at enough
        dsimp only
        rw [if_neg nofun, if_neg (not_not_intro rfl)]
        split
        · exact fun same => nomatch same
        · rename_i room
          have shorter : (toks mem es u).length < fuel := by
            rw [rest]
            omega
          refine wp_call (parseredirs_sound line inside₂ shorter) ?_
          rintro _ v ⟨inside₃, us, rs, ws, split, rfl, each, simple⟩
          have shorter' : (toks mem es v).length < fuel := by
            rw [split, length_append] at shorter
            omega
          refine wp_mono (ih inside₃ shorter' (Nat.lt_of_not_le room)) ?_ fun _ no => no
          rintro _ x ⟨inside₄, vs, argv, new, ws', rs', split', rfl, few', words, each', simple'⟩
          refine ⟨inside₄, .word w :: (us ++ vs), p :: argv, w :: new, ws ++ ws', rs ++ rs', ?_, ?_, ?_,
            .cons word words, rel_append each each', (simple.append simple').word⟩
          · rw [← rest, split, split', cons_append, append_assoc]
          · rw [append_assoc, append_assoc]
            rfl
          · rw [append_assoc] at few'
            exact few'

theorem parseamps_sound {cmd : Cmd (Nat × Nat)} :
    wp (parseamps mem es fuel cmd) (fun c t => Inside start es t ∧ ∃ n,
      toks mem es s = List.replicate n (.sym .amp) ++ toks mem es t ∧ c = Cmd.back^[n] cmd)
      (· ≠ .fuel) s := by
  induction fuel generalizing s cmd with
  | zero => omega
  | succ fuel ih =>
    unfold parseamps
    refine wp_peek line inside (by decide) (fun t inside' same starts => ?_) fun t inside' same _ => ?_
    · obtain ⟨ts, here⟩ := starts_amp.mp starts
      refine wp_sym line inside' (same.trans here) fun _ _ u inside₂ rest => ?_
      have shorter : (toks mem es u).length < fuel := by grind
      refine wp_mono (ih inside₂ shorter) ?_ fun _ no => no
      rintro _ v ⟨inside₃, n, split, rfl⟩
      refine ⟨inside₃, n + 1, ?_, rfl⟩
      rw [here, ← rest, split]
      rfl
    · exact ⟨inside', 0, same.symm, rfl⟩

end

end

def Derived (mem : Bytes.Buffer) (start es : Nat) (nt : Nonterminal) (s : Nat) (c : Cmd (Nat × Nat)) (t : Nat) :
    Prop :=
  Inside start es t ∧ ∃ ts d, toks mem es s = ts ++ toks mem es t ∧ Derives nt ts d ∧
    Cmd.Rel (IsWord mem start es) c d

section

variable {mem : Bytes.Buffer} {start es : Nat} (line : Terminated mem start es)

/- A cycle of calls reads the parenthesis of a block. -/
structure Calls (mem : Bytes.Buffer) (start es fuel : Nat) : Prop where
  line : ∀ s, Inside start es s → 4 * (toks mem es s).length + 4 ≤ fuel →
    wp (parseline mem es fuel) (Derived mem start es .line s) (· ≠ .fuel) s
  pipe : ∀ s, Inside start es s → 4 * (toks mem es s).length + 3 ≤ fuel →
    wp (parsepipe mem es fuel) (Derived mem start es .pipe s) (· ≠ .fuel) s
  exec : ∀ s, Inside start es s → 4 * (toks mem es s).length + 2 ≤ fuel →
    wp (parseexec mem es fuel) (Derived mem start es .cmd s) (· ≠ .fuel) s
  block : ∀ s, Inside start es s → 4 * (toks mem es s).length + 1 ≤ fuel →
    wp (parseblock mem es fuel) (Derived mem start es .cmd s) (· ≠ .fuel) s

section

variable {s fuel : Nat} (calls : Calls mem start es fuel)

include line calls

section

variable (inside : Inside start es s)
include inside

theorem Calls.parseline (enough : 4 * (toks mem es s).length + 4 ≤ fuel + 1) :
    wp (Shell.parseline mem es (fuel + 1)) (Derived mem start es .line s) (· ≠ .fuel) s := by
  unfold Shell.parseline
  refine wp_call (calls.pipe s inside (by omega)) ?_
  rintro c t ⟨inside', ts, d, split, derives, rel⟩
  have length := congrArg List.length split
  rw [length_append] at length
  refine wp_call (parseamps_sound line inside' (by omega)) ?_
  rintro _ u ⟨inside₂, n, split', rfl⟩
  rw [split', ← append_assoc] at split
  refine wp_peek line inside₂ (by decide) (fun v inside₃ same starts => ?_) fun v inside₃ same _ => ?_
  · obtain ⟨us, here⟩ := starts_semi.mp starts
    refine wp_sym line inside₃ (same.trans here) fun _ _ x inside₄ rest => ?_
    rw [here, ← rest] at split
    have length' := congrArg List.length split
    simp only [length_append, length_cons] at length'
    refine wp_call (calls.line x inside₄ (by omega)) ?_
    rintro right y ⟨inside₅, vs, e, split₂, derives', rel'⟩
    rw [split₂] at split
    refine ⟨inside₅, _, _, ?_, .list n derives derives', (rel.backs n).list rel'⟩
    rw [split]
    simp only [append_assoc, cons_append]
  · rw [← same] at split
    exact ⟨inside₃, _, _, split, .line n derives, rel.backs n⟩

theorem Calls.parsepipe (enough : 4 * (toks mem es s).length + 3 ≤ fuel + 1) :
    wp (Shell.parsepipe mem es (fuel + 1)) (Derived mem start es .pipe s) (· ≠ .fuel) s := by
  unfold Shell.parsepipe
  refine wp_call (calls.exec s inside (by omega)) ?_
  rintro c t ⟨inside', ts, d, split, derives, rel⟩
  refine wp_peek line inside' (by decide) (fun u inside₂ same starts => ?_) fun u inside₂ same _ => ?_
  · obtain ⟨us, here⟩ := starts_bar.mp starts
    refine wp_sym line inside₂ (same.trans here) fun _ _ x inside₃ rest => ?_
    rw [here, ← rest] at split
    have length := congrArg List.length split
    simp only [length_append, length_cons] at length
    refine wp_call (calls.pipe x inside₃ (by omega)) ?_
    rintro right y ⟨inside₄, vs, e, split', derives', rel'⟩
    rw [split'] at split
    refine ⟨inside₄, _, _, ?_, .pipes derives derives', rel.pipe rel'⟩
    rw [split]
    simp only [append_assoc, cons_append]
  · rw [← same] at split
    exact ⟨inside₂, _, _, split, .pipe derives, rel⟩

theorem Calls.parseblock (enough : 4 * (toks mem es s).length + 1 ≤ fuel + 1) :
    wp (Shell.parseblock mem es (fuel + 1)) (Derived mem start es .cmd s) (· ≠ .fuel) s := by
  unfold Shell.parseblock
  refine wp_peek line inside (by decide) (fun t inside' same starts => ?_) fun t inside' same _ => ?_
  · obtain ⟨us, here⟩ := starts_lparen.mp starts
    refine wp_sym line inside' (same.trans here) fun _ _ u inside₂ rest => ?_
    rw [← rest] at here
    have length := congrArg List.length here
    rw [length_cons] at length
    refine wp_call (calls.line u inside₂ (by omega)) ?_
    rintro c v ⟨inside₃, ts, d, split, derives, rel⟩
    refine wp_peek line inside₃ (by decide) (fun x inside₄ same' starts' => ?_) fun x inside₄ same' _ => ?_
    · obtain ⟨vs, here'⟩ := starts_rparen.mp starts'
      refine wp_sym line inside₄ (same'.trans here') fun _ _ y inside₅ rest' => ?_
      rw [here', ← rest'] at split
      have length' := congrArg List.length split
      simp only [length_append, length_cons] at length'
      refine wp_call (parseredirs_sound line inside₅ (by omega)) ?_
      rintro _ z ⟨inside₆, ws, rs, words, split', rfl, each, simple⟩
      rw [split'] at split
      refine ⟨inside₆, _, _, ?_, .block derives simple, rel.wrap each⟩
      rw [here, split]
      simp only [append_assoc, cons_append]
    · exact fun same => nomatch same
  · exact fun same => nomatch same

theorem Calls.parseexec (enough : 4 * (toks mem es s).length + 2 ≤ fuel + 1) :
    wp (Shell.parseexec mem es (fuel + 1)) (Derived mem start es .cmd s) (· ≠ .fuel) s := by
  unfold Shell.parseexec
  refine wp_peek line inside (by decide) (fun t inside' same starts => ?_) fun t inside' same _ => ?_
  · have block := calls.block t inside' (by rw [same]; omega)
    unfold Derived at block ⊢
    rwa [same] at block
  · rw [← same] at enough
    refine wp_call (parseredirs_sound line inside' (by omega)) ?_
    rintro _ u ⟨inside₂, ts, rs, ws, split, rfl, each, simple⟩
    have length := congrArg List.length split
    rw [length_append] at length
    refine wp_call (parseargs_sound line inside₂ (by omega) (by decide)) ?_
    rintro _ v ⟨inside₃, us, argv, words, ws', rs', split', rfl, few, each', eachRedir, simple'⟩
    rw [same, split'] at split
    refine ⟨inside₃, ts ++ us, _, ?_, .simple (simple.append simple') ?_,
      (Cmd.Rel.exec each').wrap (rel_append each eachRedir)⟩
    · rw [split, append_assoc]
    · rw [nil_append, ← each'.length_eq]
      exact few

end

end

include line in
theorem calls (fuel : Nat) : Calls mem start es fuel := by
  induction fuel with
  | zero =>
    constructor
    all_goals
      intro s inside enough
      omega
  | succ fuel ih =>
    exact ⟨fun _ => ih.parseline line, fun _ => ih.parsepipe line, fun _ => ih.parseexec line,
      fun _ => ih.parseblock line⟩

end

end UvaOs.Shell
