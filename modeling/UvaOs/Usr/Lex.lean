import UvaOs.Usr.Shell

/-! `gettoken` and `peek` read the tokens of the rest of the line. -/
namespace UvaOs.Shell

open Prog Scan List

/-! Characters -/

variable {k : Sym} {c : UInt8}

theorem isSpace_symbol (space : isSpace c = true) : symbolOf c = none := by
  have member : c ∈ whitespace := contains_iff_mem.mp space
  have all : whitespace.all (fun d => (symbolOf d).isNone) = true := by decide
  exact Option.isNone_iff_eq_none.mp (all_eq_true.mp all c member)

theorem isSpace_of_symbol (known : symbolOf c = some k) : isSpace c = false := by
  refine Bool.eq_false_iff.mpr fun space => ?_
  rw [isSpace_symbol space] at known
  cases known

theorem symbolOf_mem (known : symbolOf c = some k) : (c, k) ∈ symbols := by
  obtain ⟨before, after, same, -⟩ := lookup_eq_some_iff.mp known
  rw [same]
  exact mem_append_right _ mem_cons_self

theorem isPlain_iff : isPlain c = true ↔ isSpace c = false ∧ symbolOf c = none := by
  unfold isPlain
  rw [Bool.and_eq_true, Bool.not_eq_true', Option.isNone_iff_eq_none]

def Sym.first : Sym → UInt8
  | .bar => ch '|'
  | .lparen => ch '('
  | .rparen => ch ')'
  | .semi => ch ';'
  | .amp => ch '&'
  | .lt => ch '<'
  | .gt => ch '>'
  | .append => ch '>'

theorem first_eq (known : symbolOf c = some k) : k.first = c := by
  have all : ∀ p ∈ symbols, p.2.first = p.1 := by decide
  exact all _ (symbolOf_mem known)

/-! `lex` -/

theorem lex_space (space : isSpace c = true) (cs : List UInt8) : lex (c :: cs) = lex cs := by
  rw [lex.eq_def]
  exact if_pos space

theorem lex_dropWhile (cs : List UInt8) : lex (cs.dropWhile isSpace) = lex cs := by
  induction cs with
  | nil => rfl
  | cons c cs ih =>
    grind [isSpace, dropWhile_cons_of_pos, lex_space, dropWhile_cons_of_neg]

theorem lex_symbol (known : symbolOf c = some k) (single : k ≠ .gt) (cs : List UInt8) :
    lex (c :: cs) = .sym k :: lex cs := by
  rw [lex.eq_def]
  dsimp only
  rw [if_neg (by rw [isSpace_of_symbol known]; exact Bool.false_ne_true), known]
  cases k with
  | gt => exact absurd rfl single
  | _ => rfl

theorem lex_append (known : symbolOf c = some .gt) (cs : List UInt8) :
    lex (c :: ch '>' :: cs) = .sym .append :: lex cs := by
  rw [lex.eq_def]
  dsimp only
  rw [if_neg (by rw [isSpace_of_symbol known]; exact Bool.false_ne_true), known]
  exact if_pos rfl

theorem lex_gt (known : symbolOf c = some .gt) {cs : List UInt8} (single : cs.head? ≠ some (ch '>')) :
    lex (c :: cs) = .sym .gt :: lex cs := by
  rw [lex.eq_def]
  dsimp only
  rw [if_neg (by rw [isSpace_of_symbol known]; exact Bool.false_ne_true), known]
  cases cs with
  | nil => rfl
  | cons d ds => exact if_neg fun same => single (congrArg some same)

theorem lex_plain (plain : isPlain c = true) (cs : List UInt8) : lex (c :: cs) =
      match cs.head?.any isPlain, lex cs with
      | true, .word w :: ts => .word (c :: w) :: ts
      | _, ts => .word [c] :: ts := by
  obtain ⟨space, symbol⟩ := isPlain_iff.mp plain
  rw [lex.eq_def]
  dsimp only
  rw [if_neg (by rw [space]; exact Bool.false_ne_true), symbol] <;> rfl

theorem lex_word {w rest : List UInt8} (some_ : w ≠ []) (plain : ∀ c ∈ w, isPlain c = true)
    (stop : rest.head?.any isPlain = false) : lex (w ++ rest) = .word w :: lex rest := by
  induction w with
  | nil => exact absurd rfl some_
  | cons c w ih =>
    rw [cons_append, lex_plain (plain c mem_cons_self)]
    cases w with
    | nil =>
      rw [nil_append, stop]
    | cons d w => grind

theorem lex_head (space : isSpace c = false) (cs : List UInt8) :
    (∃ k ts, lex (c :: cs) = .sym k :: ts ∧ k.first = c) ∨
      (symbolOf c = none ∧ ∃ w ts, lex (c :: cs) = .word w :: ts) := by
  cases known : symbolOf c with
  | none =>
    right
    rw [lex_plain (isPlain_iff.mpr ⟨space, known⟩)]
    split
    · exact ⟨rfl, _, _, rfl⟩
    · exact ⟨rfl, _, _, rfl⟩
  | some k =>
    left
    by_cases gt : k = .gt
    · subst gt
      by_cases double : cs.head? = some (ch '>')
      · obtain ⟨ds, rfl⟩ := head?_eq_some_iff.mp double
        exact ⟨.append, lex ds, lex_append known ds, (first_eq known : Sym.gt.first = c)⟩
      · exact ⟨.gt, lex cs, lex_gt known double, first_eq known⟩
    · exact ⟨k, lex cs, lex_symbol known gt cs, first_eq known⟩

theorem lex_concat (space : isSpace c = true) (cs : List UInt8) : lex (cs ++ [c]) = lex cs := by
  have one : lex [c] = [] := lex_space space []
  have edge : ([c] : List UInt8).head?.any isPlain = false := by grind [isPlain]
  have notGt : ([c] : List UInt8).head? ≠ some (ch '>') := by
    intro same
    rw [Option.some.inj same] at space
    cases space
  induction size : cs.length using Nat.strong_induction_on generalizing cs with
  | _ n ih =>
    cases cs with
    | nil => exact one
    | cons d cs =>
      have rest := ih _ (size ▸ Nat.lt_succ_self cs.length) cs rfl
      rw [cons_append]
      by_cases blank : isSpace d = true
      · rw [lex_space blank, lex_space blank, rest]
      · cases known : symbolOf d with
        | none =>
          have plain : isPlain d = true := isPlain_iff.mpr ⟨Bool.eq_false_iff.mpr blank, known⟩
          rw [lex_plain plain, lex_plain plain, rest]
          cases cs with
          | nil => rw [nil_append, edge]; rfl
          | cons e cs => rfl
        | some k =>
          by_cases gt : k = .gt
          · subst gt
            cases cs with
            | nil => rw [nil_append, lex_gt known notGt, lex_gt known (by decide), one]; rfl
            | cons e cs =>
              by_cases double : e = ch '>'
              · subst double
                have further := ih _ (size ▸ Nat.lt_succ_of_lt (Nat.lt_succ_self cs.length)) cs rfl
                rw [cons_append, lex_append known, lex_append known, further]
              · grind [Option.some.inj, lex_gt]
          · rw [lex_symbol known gt, lex_symbol known gt, rest]

/-! The line in memory -/

structure Terminated (mem : Bytes.Buffer) (start es : Nat) : Prop where
  le : start ≤ es
  line : ∀ i, start ≤ i → i < es → mem i ≠ 0
  nul : mem es = 0

def Inside (start es s : Nat) : Prop := start ≤ s ∧ s ≤ es

def toks (mem : Bytes.Buffer) (es s : Nat) : List Token := lex (segment mem s es)

structure IsWord (mem : Bytes.Buffer) (start es : Nat) (p : Nat × Nat) (w : List UInt8) : Prop where
  bounds : start ≤ p.1 ∧ p.1 < p.2 ∧ p.2 ≤ es
  text : segment mem p.1 p.2 = w
  plain : ∀ i, p.1 ≤ i → i < p.2 → isPlain (mem i) = true
  stop : p.2 < es → isPlain (mem p.2) = false

/-- What `gettoken` returns where the tokens are `ts`, when those after it are `us`. -/
def Reads (mem : Bytes.Buffer) (start es : Nat) (r : Tok × Nat × Nat) (us : List Token) : List Token → Prop
  | [] => r.1 = .eof ∧ us = []
  | .sym k :: ts => r.1 = .sym k ∧ us = ts
  | .word w :: ts => r.1 = .word ∧ IsWord mem start es r.2 w ∧ us = ts

/-- The first token starts with one of the characters. -/
def Starts (cs : List Char) : List Token → Bool
  | .sym k :: _ => (cs.map ch).contains k.first
  | _ => false

section

variable {mem : Bytes.Buffer} {start es s : Nat}

theorem inside_skip {p : UInt8 → Bool} (inside : Inside start es s) : Inside start es (skip mem p es s) := by
  have spec := skip_spec (f := mem) (p := p) inside.2
  exact ⟨Nat.le_trans inside.1 spec.1, spec.2.1⟩

theorem toks_skip (inside : Inside start es s) : toks mem es (skip mem isSpace es s) = toks mem es s := by
  unfold toks
  rw [segment_skip inside.2, lex_dropWhile]

section

variable (line : Terminated mem start es)
include line

theorem Terminated.zero_iff (inside : Inside start es s) : mem s = 0 ↔ s = es := by
  constructor
  · intro nul
    by_contra other
    exact line.line s inside.1 (Nat.lt_of_le_of_ne inside.2 other) nul
  · rintro rfl
    exact line.nul

theorem Terminated.not_space (inside : Inside start es s) :
    isSpace (mem (skip mem isSpace es s)) = false := by
  have spec := skip_spec (f := mem) (p := isSpace) inside.2
  rcases Nat.eq_or_lt_of_le spec.2.1 with ends | more
  · rw [ends, line.nul]
    rfl
  · exact spec.2.2.2 more

theorem Terminated.token {q : Nat} (inside : Inside start es q)
    (space : isSpace (mem q) = false) : Inside start es (tokenAt mem es q).2 ∧
      Reads mem start es ((tokenAt mem es q).1, q, (tokenAt mem es q).2)
        (toks mem es (tokenAt mem es q).2) (toks mem es q) := by
  unfold tokenAt
  by_cases nul : mem q = 0
  · obtain rfl := (line.zero_iff inside).mp nul
    have none : toks mem q q = [] := by
      unfold toks
      rw [segment_empty (Nat.le_refl q)]
      rfl
    simp only [if_pos nul, none]
    exact ⟨inside, rfl, rfl⟩
  · have more : q < es := Nat.lt_of_le_of_ne inside.2 fun ends => nul ((line.zero_iff inside).mpr ends)
    have next : Inside start es (q + 1) := ⟨Nat.le_succ_of_le inside.1, more⟩
    have here : toks mem es q = lex (mem q :: segment mem (q + 1) es) := by
      unfold toks
      rw [segment_cons more]
    simp only [if_neg nul]
    cases known : symbolOf (mem q) with
    | none =>
      have plain : isPlain (mem q) = true := isPlain_iff.mpr ⟨space, known⟩
      obtain ⟨low, high, all, stop⟩ := skip_spec (f := mem) (p := isPlain) inside.2
      have longer : q < skip mem isPlain es q := by grind
      have word : IsWord mem start es (q, skip mem isPlain es q)
          (segment mem q (skip mem isPlain es q)) := ⟨⟨inside.1, longer, high⟩, rfl, all, stop⟩
      have split : toks mem es q =
          .word (segment mem q (skip mem isPlain es q)) :: toks mem es (skip mem isPlain es q) := by
        unfold toks
        rw [← segment_append low high]
        refine lex_word ?_ ?_ ?_
        · rw [segment_cons longer]
          exact cons_ne_nil _ _
        · grind [mem_segment]
        · rcases Nat.eq_or_lt_of_le high with ends | before
          · rw [ends, segment_empty (Nat.le_refl es)]
            rfl
          · rw [segment_cons before]
            exact stop before
      rw [split]
      exact ⟨⟨Nat.le_trans inside.1 low, high⟩, rfl, word, rfl⟩
    | some k =>
      by_cases gt : k = .gt
      · subst gt
        dsimp only
        by_cases double : mem (q + 1) = ch '>'
        · have second : q + 1 < es := by
            refine Nat.lt_of_le_of_ne more fun ends => ?_
            rw [(line.zero_iff next).mpr ends] at double
            exact absurd double (by decide)
          rw [if_pos double, here, segment_cons second, double, lex_append known]
          exact ⟨⟨Nat.le_succ_of_le next.1, second⟩, rfl, rfl⟩
        · have single : (segment mem (q + 1) es).head? ≠ some (ch '>') := by
            rcases Nat.eq_or_lt_of_le (Nat.succ_le_of_lt more) with ends | second
            · rw [segment_empty (Nat.le_of_eq ends.symm)]
              exact nofun
            · grind [segment_cons, Option.some.inj]
          rw [if_neg double, here, lex_gt known single]
          exact ⟨next, rfl, rfl⟩
      · rw [here, lex_symbol known gt]
        cases k with
        | gt => exact absurd rfl gt
        | _ => exact ⟨next, rfl, rfl⟩

theorem gettoken_spec (inside : Inside start es s) (E : Halt → Prop) : wp (gettoken mem es)
      (fun r t => Inside start es t ∧ Reads mem start es r (toks mem es t) (toks mem es s)) E s := by
  obtain ⟨after, reads⟩ := line.token (inside_skip inside) (line.not_space inside)
  refine ⟨inside_skip after, ?_⟩
  change Reads mem start es _ (toks mem es (skip mem isSpace es (tokenAt mem es _).2)) _
  rw [toks_skip after, ← toks_skip inside]
  exact reads

theorem peek_spec (inside : Inside start es s) {cs : List Char}
    (listed : ∀ c ∈ cs, (symbolOf (ch c)).isSome) (E : Halt → Prop) : wp (peek mem es cs)
      (fun b t => b = Starts cs (toks mem es s) ∧ Inside start es t ∧ toks mem es t = toks mem es s) E s := by
  refine ⟨?_, inside_skip inside, toks_skip inside⟩
  have inside' : Inside start es (skip mem isSpace es s) := inside_skip inside
  have space := line.not_space inside
  rw [← toks_skip inside]
  generalize skip mem isSpace es s = q at inside' space
  by_cases nul : mem q = 0
  · obtain rfl := (line.zero_iff inside').mp nul
    rw [nul, toks, segment_empty (Nat.le_refl q)]
    rfl
  · have more : q < es := Nat.lt_of_le_of_ne inside'.2 fun ends => nul ((line.zero_iff inside').mpr ends)
    rw [bne_iff_ne.mpr nul, Bool.true_and, toks, segment_cons more]
    rcases lex_head space (segment mem (q + 1) es) with ⟨k, ts, eq, first⟩ | ⟨plain, w, ts, eq⟩
    · rw [eq, Starts, first]
    · rw [eq]
      refine Bool.eq_false_iff.mpr fun found => ?_
      obtain ⟨c, member, same⟩ := mem_map.mp (contains_iff_mem.mp found)
      have known := listed c member
      rw [same, plain] at known
      cases known

end

end

end UvaOs.Shell
