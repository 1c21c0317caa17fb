import UvaOs.Procfs.Control

/-! What `procfs_parse_usercontent` makes of the text that was written. -/
namespace UvaOs.Procfs

open List

def Content.text (st : Content) : List UInt8 := st.ubuf.take st.usize

/- The decimal numbers of a text behind the digits of `cur`. -/
def numbers : Option Nat → List UInt8 → List Nat
  | cur, [] => cur.toList
  | cur, c :: s =>
    if isDigit c then numbers (some (cur.getD 0 * 10 + (c.toNat - 48))) s
    else cur.toList ++ numbers none s

abbrev LineEnd (c : UInt8) : Prop := c = 10 ∨ c = 0

def firstLine : List UInt8 → List UInt8
  | [] => []
  | c :: s => if LineEnd c then [] else c :: firstLine s

/- The text up to the first line end that does not stand right behind a digit. -/
def scanned (digit : Bool) : List UInt8 → List UInt8
  | [] => []
  | c :: s => if LineEnd c ∧ digit = false then [] else c :: scanned (isDigit c) s

def Closed (text : List UInt8) : Prop := ∀ c ∈ text.getLast?, isDigit c = false

/-- Whether the loop of `procfs_parse_usercontent` reads behind the text: `atoi` and the loop over
the digits read on to a character that is not a digit. -/
def overreads : Nat → List UInt8 → Nat → Bool
  | 0, _, _ => false
  | _ + 1, [], _ => false
  | fuel + 1, c :: s, nargs =>
    if LineEnd c then false
    else if isDigit c then
      match s.dropWhile isDigit with
      | [] => true
      | _ :: s => nargs < PROCFS_MAX_ARGS && overreads fuel s (nargs + 1)
    else overreads fuel s nargs

variable {c : UInt8} {ds : List UInt8} {digit : Bool}

theorem not_lineEnd (here : isDigit c = true) : ¬ LineEnd c := by
  rintro (rfl | rfl) <;> cases here

theorem scanned_cons (goes : ¬ LineEnd c) (s : List UInt8) :
    scanned digit (c :: s) = c :: scanned (isDigit c) s := if_neg fun is => goes is.1

theorem numbers_behind (n : Nat) (digits : ∀ d ∈ ds, isDigit d = true) (s : List UInt8) :
    numbers (some n) (ds ++ s) =
      numbers (some (ds.foldl (fun n c => n * 10 + (c.toNat - 48)) n)) s := by
  induction ds generalizing n with
  | nil => rfl
  | cons d ds ih =>
    rw [cons_append, numbers, if_pos (digits d mem_cons_self)]
    exact ih _ fun e mem => digits e (mem_cons_of_mem _ mem)

theorem numbers_append {rest : List UInt8} (stop : ∀ c ∈ rest.head?, isDigit c = false)
    (cur : Option Nat) (s : List UInt8) :
    numbers cur (s ++ rest) = numbers cur s ++ numbers none rest := by
  induction s generalizing cur with
  | nil =>
    cases rest with
    | nil => simp [numbers]
    | cons c rest => simp [numbers, stop c rfl]
  | cons c s ih =>
    rw [cons_append, numbers, numbers]
    split
    · exact ih _
    · rw [ih, append_assoc]

theorem scanned_digits (digits : ∀ d ∈ ds, isDigit d = true) (s : List UInt8) :
    scanned true (ds ++ s) = ds ++ scanned true s := by
  induction ds with
  | nil => rfl
  | cons d ds ih =>
    have here := digits d mem_cons_self
    rw [cons_append, scanned_cons (not_lineEnd here), here,
      ih fun e mem => digits e (mem_cons_of_mem _ mem), cons_append]

theorem scanned_firstLine (text : List UInt8) : ∃ rest,
    scanned digit text = firstLine text ++ rest ∧ ∀ c ∈ rest.head?, isDigit c = false := by
  induction text generalizing digit with
  | nil => exact ⟨[], rfl, nofun⟩
  | cons c s ih =>
    rw [firstLine]
    split
    · rename_i last
      refine ⟨scanned digit (c :: s), rfl, ?_⟩
      rw [scanned]
      split
      · exact nofun
      · rintro _ ⟨⟩
        exact Bool.eq_false_iff.mpr fun is => not_lineEnd is last
    · rename_i goes
      obtain ⟨rest, eq, stop⟩ := @ih (isDigit c)
      exact ⟨rest, by rw [scanned_cons goes, eq, cons_append], stop⟩

theorem closed_cons (stop : isDigit c = false) (s r : List UInt8) : Closed (s ++ c :: r) ↔ Closed r := by
  unfold Closed
  rw [getLast?_append, getLast?_cons]
  cases r.getLast? with
  | none => simp [stop]
  | some d => simp

theorem parse_iff (text junk : List UInt8) {fuel : Nat} {args out : List (BitVec 32)}
    (turns : text.length ≤ fuel) (few : args.length ≤ PROCFS_MAX_ARGS) :
    overreads fuel text args.length = false ∧
      parseArgs fuel text.length (text ++ junk) args = some out ↔
    Closed (scanned false text) ∧
      args.length + (numbers none (scanned false text)).length ≤ PROCFS_MAX_ARGS ∧
      args ++ (numbers none (scanned false text)).map (BitVec.ofNat 32) = out := by
  induction fuel generalizing text args with
  | zero =>
    obtain rfl := eq_nil_of_length_eq_zero (Nat.le_zero.mp turns)
    simp [overreads, parseArgs, scanned, numbers, Closed, few]
  | succ fuel ih =>
    cases text with
    | nil => simp [overreads, parseArgs, scanned, numbers, Closed, few]
    | cons c s =>
      by_cases last : LineEnd c
      · simp [overreads, scanned, parseArgs, numbers, Closed, few, last]
      rw [overreads, if_neg last, scanned_cons last]
      by_cases here : isDigit c = true
      · -- the number that starts here, and what stands behind it
        have digits : ∀ d ∈ s.takeWhile isDigit, isDigit d = true := fun d => mem_takeWhile_imp
        have split_ := takeWhile_append_dropWhile (p := isDigit) (l := s)
        have stop := head?_dropWhile_not isDigit s
        rw [if_pos here, here, numbers, if_pos here]
        generalize s.takeWhile isDigit = ds at digits split_
        generalize s.dropWhile isDigit = rest at split_ stop ⊢
        subst split_
        rw [scanned_digits digits, numbers_behind _ digits]
        have run : ∀ d ∈ c :: ds, isDigit d = true := forall_mem_cons.mpr ⟨here, digits⟩
        cases rest with
        | nil =>
          refine iff_of_false (fun ran => Bool.false_ne_true ran.1.symm) fun ok => ?_
          have open_ := ok.1 _ (getLast?_eq_getLast_of_ne_nil (cons_ne_nil c _))
          rw [run _ (by simp [scanned])] at open_
          cases open_
        | cons e rest =>
          replace stop : isDigit e = false := by simpa using stop
          have after : scanned true (e :: rest) = e :: scanned false rest := by simp [scanned, stop]
          have closed := closed_cons stop (c :: ds) (scanned false rest)
          have length : (c :: (ds ++ e :: rest)).length = (c :: ds).length + 1 + rest.length := by
            simp only [length_cons, length_append]
            omega
          have text : c :: (ds ++ e :: rest) ++ junk = c :: ds ++ e :: (rest ++ junk) := by simp
          rw [cons_append] at closed
          rw [length] at turns ⊢
          rw [after, closed, numbers, if_neg (by simp [stop]), text,
            parseArgs_digits stop run _ (cons_ne_nil c ds)]
          by_cases room : args.length < PROCFS_MAX_ARGS
          · have tail := @ih rest (args ++ [BitVec.ofNat 32 (value (c :: ds))]) (by omega)
              (by rw [length_append]; exact room)
            rw [length_append, length_singleton, append_assoc] at tail
            simpa [room, Nat.not_le.mpr room, Nat.add_assoc, Nat.add_comm 1, value] using tail
          · simp [Nat.not_lt.mp room]
            omega
      · have stop := Bool.eq_false_iff.mpr here
        have tail := @ih s args (Nat.le_of_succ_le_succ turns) few
        rw [if_neg here, length_cons, cons_append, parseArgs, if_neg last, if_neg here, tail,
          stop, ← closed_cons stop [], numbers, if_neg here]
        rfl

theorem toInt_ofNat (n : Nat) : ((BitVec.ofNat 32 n).toInt = n ↔ n < 2 ^ 31) ∧
    ((BitVec.ofNat 32 n).toInt = 0 ↔ n % 2 ^ 32 = 0) := by
  rw [BitVec.toInt_eq_toNat_cond, BitVec.toNat_ofNat]
  split <;> omega

theorem arguments_iff {a b : List Nat} (few : (a ++ b).length ≤ PROCFS_MAX_ARGS) :
    (∀ i < PROCFS_MAX_ARGS, (((a ++ b).map (BitVec.ofNat 32)).getD i 0).toInt = a.getD i 0) ↔
      (∀ n ∈ a, n < 2 ^ 31) ∧ ∀ n ∈ b, n % 2 ^ 32 = 0 := by
  rw [length_append] at few
  constructor
  · intro all
    constructor
    · intro n mem
      obtain ⟨i, lt, rfl⟩ := getElem_of_mem mem
      have here := all i (by omega)
      rw [getD_eq_getElem _ _ lt] at here
      exact (toInt_ofNat _).1.mp (by simpa [lt, getElem?_append] using here)
    · intro n mem
      obtain ⟨i, lt, rfl⟩ := getElem_of_mem mem
      have here := all (a.length + i) (by omega)
      exact (toInt_ofNat _).2.mp (by simpa [lt] using here)
  · rintro ⟨small, zero⟩ i -
    rcases Nat.lt_or_ge i a.length with lt | ge
    · rw [getD_eq_getElem a _ lt]
      simpa [lt, getElem?_append] using (toInt_ofNat _).1.mpr (small _ (getElem_mem lt))
    · rw [getD_eq_default a _ ge]
      obtain ⟨j, rfl⟩ := Nat.exists_eq_add_of_le ge
      rcases Nat.lt_or_ge j b.length with lt | none
      · simpa [lt] using (toInt_ofNat _).2.mpr (zero _ (getElem_mem lt))
      · simp [none]

/-- The content is parsed without a store behind `args` or a read behind the text, and the
arguments are the numbers of the first line and zeros. -/
def Parses (st : Content) : Prop :=
  ∃ args, (overreads st.usize st.text 0 = false ∧ procfsParseUsercontent st = some args) ∧
    ∀ i < PROCFS_MAX_ARGS, (args.getD i 0).toInt = (numbers none (firstLine st.text)).getD i 0

/-- A line end right behind a digit does not end the line. -/
theorem usercontent_parsed (st : Content) (fits : st.usize ≤ st.ubuf.length) : Parses st ↔
    (Closed (scanned false st.text) ∧
      (numbers none (scanned false st.text)).length ≤ PROCFS_MAX_ARGS) ∧
    (∀ n ∈ numbers none (firstLine st.text), n < 2 ^ 31) ∧
    ∀ n ∈ numbers none ((scanned false st.text).drop (firstLine st.text).length), n % 2 ^ 32 = 0 := by
  obtain ⟨rest, eq, stop⟩ := @scanned_firstLine false st.text
  have both := numbers_append stop none (firstLine st.text)
  have parsed := fun args => @parse_iff st.text (st.ubuf.drop st.usize) _ [] args
    (Nat.le_refl _) (Nat.zero_le _)
  have size : st.text.length = st.usize := length_take_of_le fits
  have whole : st.text ++ st.ubuf.drop st.usize = st.ubuf := take_append_drop ..
  rw [eq, both, length_nil, Nat.zero_add, size, whole] at parsed
  rw [eq, drop_left, both, Parses]
  constructor
  · rintro ⟨args, ran, exact_⟩
    obtain ⟨closed, few, rfl⟩ := (parsed args).mp ran
    exact ⟨⟨closed, few⟩, (arguments_iff few).mp exact_⟩
  · rintro ⟨⟨closed, few⟩, exact_⟩
    exact ⟨_, (parsed _).mpr ⟨closed, few, rfl⟩, (arguments_iff few).mpr exact_⟩

theorem usercontent_parsed_line : Parses (procfsWrite (procfsInitState []) [49, 32, 10]) :=
  (usercontent_parsed _ (by decide)).mpr ⟨⟨by rintro c ⟨⟩; rfl, by decide⟩, by decide, by decide⟩

/- A number right before the end of the line, so that the next line is read as well; nine
numbers; a text that ends in a number. -/
theorem usercontent_misread :
    procfsParseUsercontent (procfsWrite (procfsInitState []) [49, 10, 50, 10]) = some [1, 2] ∧
    procfsParseUsercontent (procfsWrite (procfsInitState [])
      ((List.replicate 9 [49, 32]).flatten ++ [10])) = none ∧
    overreads 1 [55] 0 = true := by
  decide +kernel

end UvaOs.Procfs
