import Mathlib

/-! The control lines of /proc/fbctl, /proc/fbctl0 and /proc/sbctl: the printers of
usr/libc-simple/uio.c and usr/libc-os/io.c on one side, `procfs_write` and
`procfs_parse_usercontent` of kernel/file.c on the other.

An `int` is a 32-bit word; the arithmetic of the kernel's `atoi` wraps. -/
namespace UvaOs.Procfs

open List

def PROCFS_MAX_ARGS : Nat := 8
def MAX_PROCFS_SIZE : Nat := 256
def LINESIZE : Nat := 128

def digit (d : Nat) : UInt8 := UInt8.ofNat (48 + d)

def decimal (n : Nat) : List UInt8 :=
  if n = 0 then [digit 0] else (Nat.digits 10 n).reverse.map digit

/-- `%d`. -/
def printInt (a : BitVec 32) : List UInt8 :=
  if a.toInt < 0 then 45 :: decimal a.toInt.natAbs else decimal a.toInt.natAbs

def printLine : List (BitVec 32) → List UInt8
  | [] => [10]
  | [a] => printInt a ++ [10]
  | a :: rest => printInt a ++ 32 :: printLine rest

/-- The part of `struct procfs_state` that a write uses. -/
structure Content where
  ubuf : List UInt8
  usize : Nat
  uoff : Nat

/-- `procfs_init_state`, on a page that may hold anything. -/
def procfsInitState (page : List UInt8) : Content := ⟨page, 0, 0⟩

/-- `procfs_write` of a readable user buffer. -/
def procfsWrite (st : Content) (src : List UInt8) : Content :=
  let len := min src.length (MAX_PROCFS_SIZE - st.uoff)
  { ubuf := st.ubuf.take st.uoff ++ src.take len ++ st.ubuf.drop (st.uoff + len)
    usize := max st.usize (st.uoff + len)
    uoff := st.uoff + len }

def isDigit (c : UInt8) : Bool := 48 ≤ c && c ≤ 57

/-- `atoi` of the kernel's string.c. -/
def atoi (s : List UInt8) : BitVec 32 :=
  (s.takeWhile isDigit).foldl (fun n c => n * 10 + BitVec.ofNat 32 c.toNat - 48) 0

/-- The loop of `procfs_parse_usercontent`: `s` is the buffer from the pointer on, `len`
the bytes before `buf + len`. `none` is a store behind the end of `args`. -/
def parseArgs : Nat → Nat → List UInt8 → List (BitVec 32) → Option (List (BitVec 32))
  | 0, _, _, args => some args
  | _ + 1, 0, _, args => some args
  | _ + 1, _ + 1, [], args => some args
  | fuel + 1, len + 1, c :: s, args =>
    if c = 10 ∨ c = 0 then some args
    else if isDigit c then
      if PROCFS_MAX_ARGS ≤ args.length then none
      else
        -- the loop's own `s++` steps over the character behind the number
        let skipped := min (len + 1) ((c :: s).takeWhile isDigit).length
        parseArgs fuel (len - skipped) (s.drop skipped) (args ++ [atoi (c :: s)])
    else parseArgs fuel len s args

def procfsParseUsercontent (st : Content) : Option (List (BitVec 32)) :=
  parseArgs st.usize st.usize st.ubuf []

/-- Print the line into a buffer of `size` characters, write it to the file just opened
and close the file. `none` is a line that runs over its buffer. -/
def config (size : Nat) (page : List UInt8) (args : List (BitVec 32)) :
    Option (List (BitVec 32)) :=
  if size < (printLine args).length + 1 then none
  else procfsParseUsercontent (procfsWrite (procfsInitState page) (printLine args))

def configFbctl (page : List UInt8) (w d vw vh offx offy : BitVec 32) :
    Option (List (BitVec 32)) :=
  config LINESIZE page [w, d, vw, vh, offx, offy]

def configFbctl0 (page : List UInt8) (cmd x y w h zorder trans : BitVec 32) :
    Option (List (BitVec 32)) :=
  config 64 page [cmd, x, y, w, h, zorder, trans]

def configSbctl (page : List UInt8) (cmd arg1 arg2 arg3 : BitVec 32) :
    Option (List (BitVec 32)) :=
  config 64 page [cmd, arg1, arg2, arg3]

theorem isDigit_digit {d : Nat} (small : d < 10) : isDigit (digit d) = true := by
  interval_cases d <;> decide

theorem digit_value {d : Nat} (small : d < 10) : (digit d).toNat = 48 + d := by
  interval_cases d <;> decide

theorem decimal_ne_nil (n : Nat) : decimal n ≠ [] := by
  unfold decimal
  split
  · exact cons_ne_nil _ _
  · rename_i positive
    simp [Nat.digits_ne_nil_iff_ne_zero.mpr positive]

theorem decimal_isDigit (n : Nat) : ∀ c ∈ decimal n, isDigit c = true := by
  intro c printed
  unfold decimal at printed
  split at printed
  · rw [mem_singleton.mp printed]
    rfl
  · obtain ⟨d, isPlace, rfl⟩ := mem_map.mp printed
    exact isDigit_digit (Nat.digits_lt_base (by decide) (mem_reverse.mp isPlace))

def value (ds : List UInt8) : Nat := ds.foldl (fun n c => n * 10 + (c.toNat - 48)) 0

theorem foldl_digits (ds : List UInt8) (digits : ∀ c ∈ ds, isDigit c = true) (n : Nat) :
    ds.foldl (fun n c => n * 10 + BitVec.ofNat 32 c.toNat - 48) (BitVec.ofNat 32 n) =
      BitVec.ofNat 32 (ds.foldl (fun n c => n * 10 + (c.toNat - 48)) n) := by
  induction ds generalizing n with
  | nil => rfl
  | cons d ds ih =>
    have place : BitVec.ofNat 32 n * 10 + BitVec.ofNat 32 d.toNat - 48 =
        BitVec.ofNat 32 (n * 10 + (d.toNat - 48)) := by
      have low : 48 ≤ d.toNat :=
        UInt8.le_iff_toNat_le.mp (of_decide_eq_true (Bool.and_eq_true_iff.mp (digits d mem_cons_self)).1)
      apply BitVec.eq_of_toNat_eq
      have ten : (10 : BitVec 32).toNat = 10 := rfl
      have base : (48 : BitVec 32).toNat = 48 := rfl
      simp only [BitVec.toNat_sub, BitVec.toNat_add, BitVec.toNat_mul, BitVec.toNat_ofNat, ten, base]
      omega
    rw [foldl_cons, place, foldl_cons]
    exact ih (fun e mem => digits e (mem_cons_of_mem _ mem)) _

theorem value_decimal (n : Nat) : value (decimal n) = n := by
  unfold decimal
  split
  · rename_i zero
    subst zero
    decide
  · rw [value, foldl_map, foldl_reverse]
    conv_rhs => rw [← Nat.ofDigits_digits 10 n, Nat.ofDigits_eq_foldr]
    refine foldr_ext _ _ _ fun d mem m => ?_
    rw [digit_value (Nat.digits_lt_base (by decide) mem), Nat.add_sub_cancel_left, Nat.cast_id]
    ring

section Number

variable {c : UInt8} {ds : List UInt8} (stop : isDigit c = false)
  (digits : ∀ d ∈ ds, isDigit d = true) (s : List UInt8)

include stop digits

theorem takeWhile_digits : (ds ++ c :: s).takeWhile isDigit = ds := by
  rw [takeWhile_append_of_pos digits, takeWhile_cons_of_neg (by simp [stop]),
    append_nil]

theorem atoi_digits : atoi (ds ++ c :: s) = BitVec.ofNat 32 (value ds) := by
  rw [atoi, takeWhile_digits stop digits]
  exact foldl_digits ds digits 0

theorem parseArgs_digits {fuel len : Nat} {args : List (BitVec 32)} (some_ : ds ≠ []) :
    parseArgs (fuel + 1) (ds.length + 1 + len) (ds ++ c :: s) args =
      if PROCFS_MAX_ARGS ≤ args.length then none
      else parseArgs fuel len s (args ++ [BitVec.ofNat 32 (value ds)]) := by
  have taken := takeWhile_digits stop digits s
  have read := atoi_digits stop digits s
  cases ds with
  | nil => exact absurd rfl some_
  | cons d ds =>
    have first : isDigit d = true := digits d mem_cons_self
    have goes_on : ¬ (d = 10 ∨ d = 0) := by
      rintro (rfl | rfl) <;> cases first
    have length : (d :: ds).length + 1 + len = (ds.length + 1 + len) + 1 := by
      rw [length_cons]
      omega
    have skipped : min (ds.length + 1 + len + 1) (d :: ds).length = ds.length + 1 := by
      rw [length_cons]
      omega
    have behind : (ds ++ c :: s).drop (ds.length + 1) = s := by
      simp [drop_append]
    rw [length, cons_append, parseArgs, if_neg goes_on, if_pos first]
    rw [cons_append] at taken read
    rw [taken, read, skipped]
    simp only [behind, Nat.add_sub_cancel_left]

end Number

theorem parseArgs_decimal {c : UInt8} (stop : isDigit c = false) (n : Nat) (s : List UInt8)
    {fuel len : Nat} {args : List (BitVec 32)} (room : args.length < PROCFS_MAX_ARGS) :
    parseArgs (fuel + 1) ((decimal n).length + 1 + len) (decimal n ++ c :: s) args =
      parseArgs fuel len s (args ++ [BitVec.ofNat 32 n]) := by
  rw [parseArgs_digits stop (decimal_isDigit n) s (decimal_ne_nil n), if_neg (by omega), value_decimal]

/-- The number that `procfs_parse_usercontent` makes of a printed argument. -/
def unsigned (a : BitVec 32) : BitVec 32 := BitVec.ofNat 32 a.toInt.natAbs

theorem parseArgs_printInt {c : UInt8} (stop : isDigit c = false) (a : BitVec 32)
    (s : List UInt8) (fuel len : Nat) (args : List (BitVec 32))
    (room : args.length < PROCFS_MAX_ARGS) (turns : (printInt a).length ≤ fuel) :
    ∃ left, fuel ≤ left + (printInt a).length ∧
      parseArgs (fuel + 1) ((printInt a).length + 1 + len) (printInt a ++ c :: s) args =
        parseArgs left len s (args ++ [unsigned a]) := by
  unfold printInt at turns ⊢
  split
  · rename_i negative
    rw [if_pos negative, length_cons] at turns
    obtain ⟨left, rfl⟩ := Nat.exists_eq_add_of_le' (Nat.le_trans (Nat.succ_le_succ (Nat.zero_le _)) turns)
    refine ⟨left, by rw [length_cons]; omega, ?_⟩
    rw [length_cons, cons_append, Nat.add_right_comm _ 1 1, Nat.add_right_comm _ 1 len,
      parseArgs, if_neg (by decide), if_neg (by decide)]
    exact parseArgs_decimal stop _ s room
  · have some_digit := length_pos_of_ne_nil (decimal_ne_nil a.toInt.natAbs)
    exact ⟨fuel, by omega, parseArgs_decimal stop _ s room⟩

theorem printLine_cons (a b : BitVec 32) (rest : List (BitVec 32)) :
    printLine (a :: b :: rest) = printInt a ++ 32 :: printLine (b :: rest) := rfl

theorem parseArgs_printLine (a : BitVec 32) (rest : List (BitVec 32)) (junk : List UInt8)
    {fuel : Nat} {args : List (BitVec 32)}
    (room : args.length + (rest.length + 1) ≤ PROCFS_MAX_ARGS)
    (turns : (printLine (a :: rest)).length ≤ fuel) :
    parseArgs fuel (printLine (a :: rest)).length (printLine (a :: rest) ++ junk) args =
      some (args ++ (a :: rest).map unsigned) := by
  induction rest generalizing a fuel args with
  | nil =>
    have length : (printLine [a]).length = (printInt a).length + 1 + 0 := by
      simp [printLine]
    have text : printLine [a] ++ junk = printInt a ++ 10 :: junk := by
      simp [printLine]
    rw [length] at turns ⊢
    obtain ⟨more, rfl⟩ := Nat.exists_eq_add_of_le' (Nat.le_trans (Nat.le_add_left 1 _) turns)
    obtain ⟨left, -, run⟩ :=
      parseArgs_printInt (c := 10) rfl a junk more 0 args (by omega) (by omega)
    rw [text, run]
    cases left <;> rfl
  | cons b rest ih =>
    have length : (printLine (a :: b :: rest)).length =
        (printInt a).length + 1 + (printLine (b :: rest)).length := by
      simp only [printLine_cons, length_append, length_cons]
      omega
    have text : printLine (a :: b :: rest) ++ junk =
        printInt a ++ 32 :: (printLine (b :: rest) ++ junk) := by
      simp [printLine_cons]
    rw [length] at turns ⊢
    obtain ⟨more, rfl⟩ := Nat.exists_eq_add_of_le' (Nat.le_trans (by omega : 1 ≤ _) turns)
    rw [length_cons] at room
    obtain ⟨left, enough, run⟩ := parseArgs_printInt (c := 32) rfl a (printLine (b :: rest) ++ junk)
      more (printLine (b :: rest)).length args (by omega) (by omega)
    rw [text, run, ih b (by rw [length_append]; simp only [length_singleton]; omega)
      (by omega)]
    simp

/-- The characters of the printed arguments, without what separates them. -/
def width (args : List (BitVec 32)) : Nat := (args.map (fun a => (printInt a).length)).sum

theorem natAbs_toInt_le (a : BitVec 32) : a.toInt.natAbs ≤ 2 ^ 31 := by
  have below : -2 ^ 31 ≤ a.toInt := BitVec.le_toInt a
  have above : a.toInt < 2 ^ 31 := BitVec.toInt_lt
  omega

theorem printInt_length_le (a : BitVec 32) : (printInt a).length ≤ 11 := by
  have digits : (decimal a.toInt.natAbs).length ≤ 10 := by
    unfold decimal
    split
    · decide
    · rw [length_map, length_reverse, Nat.digits_length_le_iff (by decide)]
      exact Nat.lt_of_le_of_lt (natAbs_toInt_le a) (by decide)
  unfold printInt
  split
  · rw [length_cons]
    omega
  · omega

theorem width_le (args : List (BitVec 32)) : width args ≤ 11 * args.length := by
  induction args with
  | nil => exact Nat.le_refl 0
  | cons a args ih =>
    grind [printInt_length_le, width, length_cons]

theorem printLine_length (a : BitVec 32) (rest : List (BitVec 32)) :
    (printLine (a :: rest)).length = width (a :: rest) + (rest.length + 1) := by
  induction rest generalizing a with
  | nil => simp [printLine, width]
  | cons b rest ih =>
    grind [printLine_cons, length_append, length_cons, width]

theorem config_eq (size : Nat) (page : List UInt8) (a : BitVec 32) (rest : List (BitVec 32))
    (few : rest.length + 1 ≤ PROCFS_MAX_ARGS) : config size page (a :: rest) =
      if size < width (a :: rest) + (rest.length + 1) + 1 then none
      else some ((a :: rest).map unsigned) := by
  have length := printLine_length a rest
  have short : (printLine (a :: rest)).length ≤ MAX_PROCFS_SIZE := by
    grind [width_le, length_cons, PROCFS_MAX_ARGS, MAX_PROCFS_SIZE]
  have written : procfsWrite (procfsInitState page) (printLine (a :: rest)) =
      ⟨printLine (a :: rest) ++ page.drop (printLine (a :: rest)).length,
        (printLine (a :: rest)).length, (printLine (a :: rest)).length⟩ := by
    simp [procfsWrite, procfsInitState, Nat.min_eq_left short]
  have parsed := parseArgs_printLine a rest (page.drop (printLine (a :: rest)).length)
    (show ([] : List (BitVec 32)).length + _ ≤ _ by simpa using few) (Nat.le_refl _)
  rw [← length]
  simp only [config, written, procfsParseUsercontent, parsed, nil_append]

/-- The numbers whose sign the parser does not miss. -/
def Survives (a : BitVec 32) : Prop := 0 ≤ a.toInt ∨ a = BitVec.intMin 32

instance (a : BitVec 32) : Decidable (Survives a) := inferInstanceAs (Decidable (_ ∨ _))

theorem unsigned_eq_iff (a : BitVec 32) : unsigned a = a ↔ Survives a := by
  have range : a.toNat < 2 ^ 32 := a.isLt
  have least : a = BitVec.intMin 32 ↔ a.toNat = 2 ^ 31 :=
    ⟨fun is => by rw [is]; rfl, fun is => BitVec.eq_of_toNat_eq is⟩
  have same : unsigned a = a ↔ a.toInt.natAbs % 2 ^ 32 = a.toNat := by
    rw [unsigned, ← BitVec.toNat_inj, BitVec.toNat_ofNat]
  rw [Survives, least, same, BitVec.toInt_eq_toNat_cond]
  split <;> omega

theorem map_unsigned_eq_iff (args : List (BitVec 32)) :
    args.map unsigned = args ↔ ∀ a ∈ args, Survives a := by
  conv_lhs => rhs; rw [← map_id args]
  rw [map_inj_left]
  exact forall₂_congr fun a _ => unsigned_eq_iff a

theorem config_eq_some_iff (size : Nat) (page : List UInt8) (a : BitVec 32)
    (rest : List (BitVec 32)) (few : rest.length + 1 ≤ PROCFS_MAX_ARGS) :
    config size page (a :: rest) = some (a :: rest) ↔
      (∀ b ∈ a :: rest, Survives b) ∧ width (a :: rest) + (rest.length + 1) + 1 ≤ size := by
  rw [config_eq size page a rest few, ← map_unsigned_eq_iff]
  split
  · grind
  · rename_i fits
    rw [Option.some_inj, and_iff_left (Nat.not_lt.mp fits)]

/- Which control messages arrive as they were sent. -/
theorem control_arguments_arrive (page : List UInt8) :
    (∀ w d vw vh offx offy, configFbctl page w d vw vh offx offy = some [w, d, vw, vh, offx, offy] ↔
      ∀ a ∈ [w, d, vw, vh, offx, offy], Survives a) ∧
    (∀ cmd x y w h zorder trans,
      configFbctl0 page cmd x y w h zorder trans = some [cmd, x, y, w, h, zorder, trans] ↔
      (∀ a ∈ [cmd, x, y, w, h, zorder, trans], Survives a) ∧
        width [cmd, x, y, w, h, zorder, trans] ≤ 56) ∧
    (∀ cmd arg1 arg2 arg3, configSbctl page cmd arg1 arg2 arg3 = some [cmd, arg1, arg2, arg3] ↔
      ∀ a ∈ [cmd, arg1, arg2, arg3], Survives a) := by
  refine ⟨fun w d vw vh offx offy => ?_, fun cmd x y w h zorder trans => ?_,
    fun cmd arg1 arg2 arg3 => ?_⟩
  · have bound := width_le [w, d, vw, vh, offx, offy]
    rw [configFbctl, config_eq_some_iff _ _ _ _ (by simp [PROCFS_MAX_ARGS])]
    exact and_iff_left (Nat.le_trans (Nat.add_le_add_right bound 7) (by simp [LINESIZE]))
  · rw [configFbctl0, config_eq_some_iff _ _ _ _ (by simp [PROCFS_MAX_ARGS])]
    exact and_congr_right fun _ => Nat.add_le_add_iff_right (n := 8)
  · have bound := width_le [cmd, arg1, arg2, arg3]
    rw [configSbctl, config_eq_some_iff _ _ _ _ (by simp [PROCFS_MAX_ARGS])]
    exact and_iff_left (Nat.le_trans (Nat.add_le_add_right bound 5) (by simp))

/- FB0_CMD_CONFIG with ZORDER_BOTTOM arrives as another z-order, and seven large numbers
run over the buffer. -/
theorem zorder_bottom_loses_sign :
    configFbctl0 (List.replicate MAX_PROCFS_SIZE 0) 2 0 0 640 480 (-1) 100 =
      some [2, 0, 0, 640, 480, 1, 100] ∧
    configFbctl0 (List.replicate MAX_PROCFS_SIZE 0) 2 2147483647 2147483647 2147483647 2147483647
      2147483647 2147483647 = none := by
  decide +kernel

end UvaOs.Procfs
