import UvaOs.Lib.Bytes
import UvaOs.Lib.Prog
import UvaOs.Lib.Scan

/-! usr/sh.c: the parser of command lines, and the grammar it is for. -/
namespace UvaOs.Shell

open Prog Scan

/-! Commands -/

def MAXARGS : Nat := 10

def O_RDONLY : Nat := 0x000
def O_WRONLY : Nat := 0x001
def O_CREATE : Nat := 0x200
def O_TRUNC : Nat := 0x400

/-- The commands whose words are in `α`: pointers for the parser, texts for the grammar. -/
inductive Cmd (α : Type) where
  | exec (argv : List α)
  | redir (cmd : Cmd α) (file : α) (mode fd : Nat)
  | pipe (left right : Cmd α)
  | list (left right : Cmd α)
  | back (cmd : Cmd α)
deriving DecidableEq

/-- One redirection: the file, the mode to open it with and the descriptor it replaces. -/
structure Redir (α : Type) where
  file : α
  mode : Nat
  fd : Nat

def Cmd.wrap {α : Type} (cmd : Cmd α) (rs : List (Redir α)) : Cmd α :=
  rs.foldl (fun cmd r => .redir cmd r.file r.mode r.fd) cmd

/-! Characters -/

def ch (c : Char) : UInt8 := UInt8.ofNat c.toNat

def whitespace : List UInt8 := [' ', '\t', '\r', '\n', '\x0b'].map ch

inductive Sym where
  | bar | lparen | rparen | semi | amp | lt | gt
  | append
deriving DecidableEq

/-- What the characters of `symbols` mean, each for itself. -/
def symbols : List (UInt8 × Sym) :=
  [(ch '<', .lt), (ch '|', .bar), (ch '>', .gt), (ch '&', .amp), (ch ';', .semi), (ch '(', .lparen),
    (ch ')', .rparen)]

def isSpace (c : UInt8) : Bool := whitespace.contains c

def symbolOf (c : UInt8) : Option Sym := symbols.lookup c

def isPlain (c : UInt8) : Bool := !isSpace c && (symbolOf c).isNone

/-! The parser. A program's state is the cursor `*ps`. -/

inductive Halt where
  | panic (msg : String)
  /-- The bound on the depth of the calls is reached. -/
  | fuel
deriving DecidableEq

/-- What `gettoken` returns. -/
inductive Tok where
  | eof
  | sym (k : Sym)
  | word
deriving DecidableEq

section

variable (mem : Bytes.Buffer) (es : Nat)

/-- The switch of `gettoken`: the token at `q`, and its end. -/
def tokenAt (q : Nat) : Tok × Nat :=
  if mem q = 0 then (.eof, q)
  else match symbolOf (mem q) with
    | some .gt => if mem (q + 1) = ch '>' then (.sym .append, q + 2) else (.sym .gt, q + 1)
    | some k => (.sym k, q + 1)
    | none => (.word, skip mem isPlain es q)

/-- `*q` and `*eq` are returned with the token. -/
def gettoken : Prog Nat Halt (Tok × Nat × Nat) := fun s =>
  let q := skip mem isSpace es s
  let (ret, eq) := tokenAt mem es q
  .ok ((ret, q, eq), skip mem isSpace es eq)

def peek (toks : List Char) : Prog Nat Halt Bool := fun s =>
  let s := skip mem isSpace es s
  .ok (mem s != 0 && (toks.map ch).contains (mem s), s)

/-- How a redirection opens its file, and for which descriptor. -/
def redirection : Sym → Option (Nat × Nat)
  | .lt => some (O_RDONLY, 0)
  | .gt => some (O_WRONLY ||| O_CREATE ||| O_TRUNC, 1)
  | .append => some (O_WRONLY ||| O_CREATE, 1)
  | _ => none

/-- The redirections put around a command, after `rs` of them. -/
def parseredirs : Nat → List (Redir (Nat × Nat)) → Prog Nat Halt (List (Redir (Nat × Nat)))
  | 0, _ => stop .fuel
  | fuel + 1, rs => do
    if ← peek mem es ['<', '>'] then
      let (tok, _, _) ← gettoken mem es
      let (file, q, eq) ← gettoken mem es
      if file ≠ .word then stop (.panic "missing file for redirection")
      else
        -- the switch has no default: another token would leave `cmd` as it is
        match tok with
        | .sym k =>
          match redirection k with
          | some (mode, fd) => parseredirs fuel (rs ++ [⟨(q, eq), mode, fd⟩])
          | none => parseredirs fuel rs
        | _ => parseredirs fuel rs
    else pure rs

/-- The loop of `parseexec`. The `execcmd` at the bottom of `ret` is filled in meanwhile, so the
two are kept apart until the end. -/
def parseargs : Nat → List (Nat × Nat) → List (Redir (Nat × Nat)) →
    Prog Nat Halt (List (Nat × Nat) × List (Redir (Nat × Nat)))
  | 0, _, _ => stop .fuel
  | fuel + 1, argv, rs => do
    if ← peek mem es ['|', ')', '&', ';'] then pure (argv, rs)
    else
      let (tok, q, eq) ← gettoken mem es
      if tok = .eof then pure (argv, rs)
      else if tok ≠ .word then stop (.panic "syntax")
      else
        let argv := argv ++ [(q, eq)]
        if argv.length ≥ MAXARGS then stop (.panic "too many args")
        else
          let rs ← parseredirs mem es fuel rs
          parseargs fuel argv rs

def parseamps : Nat → Cmd (Nat × Nat) → Prog Nat Halt (Cmd (Nat × Nat))
  | 0, _ => stop .fuel
  | fuel + 1, cmd => do
    if ← peek mem es ['&'] then
      let _ ← gettoken mem es
      parseamps fuel (.back cmd)
    else pure cmd

mutual

def parseline : Nat → Prog Nat Halt (Cmd (Nat × Nat))
  | 0 => stop .fuel
  | fuel + 1 => do
    let cmd ← parsepipe fuel
    let cmd ← parseamps mem es fuel cmd
    if ← peek mem es [';'] then
      let _ ← gettoken mem es
      let right ← parseline fuel
      pure (.list cmd right)
    else pure cmd

def parsepipe : Nat → Prog Nat Halt (Cmd (Nat × Nat))
  | 0 => stop .fuel
  | fuel + 1 => do
    let cmd ← parseexec fuel
    if ← peek mem es ['|'] then
      let _ ← gettoken mem es
      let right ← parsepipe fuel
      pure (.pipe cmd right)
    else pure cmd

def parseblock : Nat → Prog Nat Halt (Cmd (Nat × Nat))
  | 0 => stop .fuel
  | fuel + 1 => do
    if ← peek mem es ['('] then
      let _ ← gettoken mem es
      let cmd ← parseline fuel
      if ← peek mem es [')'] then
        let _ ← gettoken mem es
        let rs ← parseredirs mem es fuel []
        pure (cmd.wrap rs)
      else stop (.panic "syntax - missing )")
    else stop (.panic "parseblock")

def parseexec : Nat → Prog Nat Halt (Cmd (Nat × Nat))
  | 0 => stop .fuel
  | fuel + 1 => do
    if ← peek mem es ['('] then parseblock fuel
    else
      let rs ← parseredirs mem es fuel []
      let (argv, rs) ← parseargs mem es fuel [] rs
      pure ((Cmd.exec argv).wrap rs)

end

end

def nulterminate : Cmd (Nat × Nat) → Bytes.Buffer → Bytes.Buffer
  | .exec argv, mem => argv.foldl (fun mem w => Function.update mem w.2 0) mem
  | .redir cmd file _ _, mem => Function.update (nulterminate cmd mem) file.2 0
  | .pipe left right, mem => nulterminate right (nulterminate left mem)
  | .list left right, mem => nulterminate right (nulterminate left mem)
  | .back cmd, mem => nulterminate cmd mem

def parsecmd (fuel : Nat) (mem : Bytes.Buffer) (s es : Nat) :
    Except Halt (Cmd (Nat × Nat) × Bytes.Buffer) :=
  match (parseline mem es fuel >>= fun cmd => peek mem es [] >>= fun _ => pure cmd) s with
  | .error halt => .error halt
  | .ok (cmd, s) => if s ≠ es then .error (.panic "syntax") else .ok (cmd, nulterminate cmd mem)

/-! The grammar -/

inductive Token where
  | word (w : List UInt8)
  | sym (k : Sym)
deriving DecidableEq

/-- The tokens of a line. A word is as long as it can be, and two `>` in a row are one token. -/
def lex : List UInt8 → List Token
  | [] => []
  | c :: cs =>
    if isSpace c then lex cs
    else match symbolOf c with
      | some .gt =>
        match cs with
        | [] => [.sym .gt]
        | d :: ds => if d = ch '>' then .sym .append :: lex ds else .sym .gt :: lex (d :: ds)
      | some k => .sym k :: lex cs
      | none =>
        match cs.head?.any isPlain, lex cs with
        | true, .word w :: ts => .word (c :: w) :: ts
        | _, ts => .word [c] :: ts

inductive Nonterminal where
  | line | pipe | cmd

/-- `(redir | word)*`, with the words and the redirections in the order they come in. -/
inductive Simple : List Token → List (List UInt8) → List (Redir (List UInt8)) → Prop
  | nil : Simple [] [] []
  | word {ts argv rs w} : Simple ts argv rs → Simple (.word w :: ts) (w :: argv) rs
  | redir {ts argv rs w k mode fd} : Simple ts argv rs → redirection k = some (mode, fd) →
      Simple (.sym k :: .word w :: ts) argv (⟨w, mode, fd⟩ :: rs)

/-- The commands that derive from a nonterminal, when no simple command has `MAXARGS` words:
`line ::= pipe '&'* [';' line]`, `pipe ::= cmd ['|' pipe]`, and
`cmd ::= '(' line ')' redir* | (redir | word)*`. -/
inductive Derives : Nonterminal → List Token → Cmd (List UInt8) → Prop
  | line {ts c} (n : Nat) : Derives .pipe ts c →
      Derives .line (ts ++ List.replicate n (.sym .amp)) (Cmd.back^[n] c)
  | list {ts c us d} (n : Nat) : Derives .pipe ts c → Derives .line us d →
      Derives .line (ts ++ List.replicate n (.sym .amp) ++ .sym .semi :: us) (.list (Cmd.back^[n] c) d)
  | pipe {ts c} : Derives .cmd ts c → Derives .pipe ts c
  | pipes {ts c us d} : Derives .cmd ts c → Derives .pipe us d →
      Derives .pipe (ts ++ .sym .bar :: us) (.pipe c d)
  | block {ts c us rs} : Derives .line ts c → Simple us [] rs →
      Derives .cmd (.sym .lparen :: ts ++ .sym .rparen :: us) (c.wrap rs)
  | simple {ts argv rs} : Simple ts argv rs → argv.length < MAXARGS →
      Derives .cmd ts ((Cmd.exec argv).wrap rs)

end UvaOs.Shell
