import Freedcc.Stdio

/-! The token scanner of dsl.c. -/
namespace Freedcc

/-- The DSL_TOK codes; `unknown` is 0, which also stands for the end of a line. -/
inductive Tok where
  | unknown
  | forward
  | reverse
  | stop
  | addr
  | speed
  | all
  | number
  | show
  | status
  | help
  | raw
  | hex
  | cache
  | clear
deriving DecidableEq, Repr

/-- The union of token values: an `int` of the target or a text. -/
inductive Value where
  | i (number : BitVec 16)
  | s (text : List Char)
deriving DecidableEq, Repr

def Value.number : Value → BitVec 16
  | .i number => number
  | .s _ => 0

def Value.text : Value → List Char
  | .i _ => []
  | .s text => text

structure Scanner (δ : Type) where
  flush : δ → δ
  stdin : δ
  value : Value
  seenEnd : Bool

namespace Scanner
variable {δ : Type} [Stdin δ]

abbrev Scan (δ : Type) := StateT (Scanner δ) (Except Fault)

def maxTokLen : Nat := 20

def isalpha (c : Option Char) : Bool := c.any Char.isAlpha

def isdigit (c : Option Char) : Bool := c.any Char.isDigit

def getchar : Scan δ (Option Char) := fun scanner => do
  let (c, stdin) ← Stdin.getchar scanner.stdin
  return (c, { scanner with stdin })

/-- Nothing happens to EOF. -/
def ungetc (c : Option Char) : Scan δ Unit :=
  modify fun scanner =>
    match c with
    | some c => { scanner with stdin := Stdin.ungetc c scanner.stdin }
    | none => scanner

/-- The character after a token goes back, or is the end of the input. -/
def putBack (c : Option Char) : Scan δ Unit :=
  match c with
  | none => modify fun scanner => { scanner with seenEnd := true }
  | some _ => ungetc c

def setValue (value : Value) : Scan δ Unit := modify ({ · with value })

/-- Letters and digits into `tok`, while there is room; the last character read
comes with them. -/
def scanHex : Nat → List Char → Option Char → Scan δ (List Char × Option Char)
  | 0, tok, last => return (tok, last)
  | room + 1, tok, _ => do
    let c ← getchar
    match c with
    | some letter =>
      if isalpha c || isdigit c then
        scanHex room (tok ++ [if isdigit c then letter else letter.toUpper]) c
      else return (tok, c)
    | none => return (tok, c)

def digit (c : Char) : BitVec 16 := BitVec.ofNat 16 c.toNat - BitVec.ofNat 16 '0'.toNat

/-- `int` arithmetic wraps. The first argument bounds the characters read. -/
def scanDigits : Nat → BitVec 16 → Scan δ (BitVec 16 × Option Char)
  | 0, _ => throw .awaitingInput
  | fuel + 1, number => do
    let c ← getchar
    match c with
    | some letter =>
      if isdigit c then scanDigits fuel (number * 10 + digit letter) else return (number, c)
    | none => return (number, c)

/-- `c` is a letter that has been read. The next character is read before the
room in `tok` is tested. -/
def scanLetters : Nat → List Char → Char → Scan δ (List Char × Option Char)
  | 0, tok, letter => return (tok, some letter)
  | room + 1, tok, letter => do
    let tok := tok ++ [letter.toLower]
    let c ← getchar
    match c with
    | some next => if isalpha c then scanLetters room tok next else return (tok, c)
    | none => return (tok, c)

def keyword (tok : List Char) : Tok :=
  if tok = "raw".toList then .raw
  else if tok = "forward".toList ∨ tok = "fw".toList then .forward
  else if tok = "reverse".toList ∨ tok = "rv".toList then .reverse
  else if tok = "stop".toList then .stop
  else if tok = "addr".toList ∨ tok = "ad".toList then .addr
  else if tok = "speed".toList ∨ tok = "sp".toList then .speed
  else if tok = "all".toList then .all
  else if tok = "show".toList then .show
  else if tok = "cache".toList then .cache
  else if tok = "clear".toList then .clear
  else if tok = "status".toList then .status
  else if tok = "help".toList then .help
  else .unknown

/-- After `0x`. -/
def nextHex : Scan δ Tok := do
  let (tok, c) ← scanHex maxTokLen [] (some '0')
  setValue (.s tok)
  -- the character after an odd text is dropped
  if tok.length > 0 ∧ tok.length % 2 ≠ 0 then return .unknown
  putBack c
  return .hex

def nextNumber (first : Char) : Scan δ Tok := do
  let scanner ← get
  let (number, c) ← scanDigits (Stdin.pending scanner.stdin + 1) (digit first)
  setValue (.i number)
  putBack c
  return .number

def nextKeyword (first : Char) : Scan δ Tok := do
  let (tok, c) ← scanLetters maxTokLen [] first
  setValue (.s tok)
  putBack c
  return keyword tok

/-- The scan loop; it only goes round on blanks. -/
def scanToken : Nat → Scan δ Tok
  | 0 => throw .awaitingInput
  | fuel + 1 => do
    match ← getchar with
    | none => return .unknown
    | some c =>
      if c = '0' then
        let c2 ← getchar
        if c2 = some 'x' then nextHex
        else
          ungetc c2
          nextNumber c
      else if c.isDigit then nextNumber c
      else if c.isAlpha then nextKeyword c
      else if c = ' ' ∨ c = '\t' then scanToken fuel
      else return .unknown

def nextToken : Scan δ Tok := do
  let scanner ← get
  if scanner.seenEnd then return .unknown
  scanToken (Stdin.pending scanner.stdin + 1)

/-- Static memory is zero. -/
def fresh (flush : δ → δ) (stdin : δ) : Scanner δ :=
  { flush, stdin, value := .i 0, seenEnd := false }

def reset (scanner : Scanner δ) : Scanner δ := { scanner with seenEnd := false }

end Scanner
end Freedcc
