/-! The part of stdio the scanner uses. A stream is anything that hands over
characters one by one and takes one back; end of file and read errors are both
`none`, as they are both EOF to `getchar`. -/
namespace Freedcc

/-- Why a call does not return. -/
inductive Fault where
  /-- It waits for a character that has not come yet. -/
  | awaitingInput
  /-- It follows a null pointer. -/
  | nullDereference
deriving DecidableEq, Repr

class Stdin (δ : Type) where
  getchar : δ → Except Fault (Option Char × δ)
  ungetc : Char → δ → δ
  /-- How many characters can be read without waiting. -/
  pending : δ → Nat

/-- A stream whose later characters are known. -/
structure CharStream where
  unget : Option Char
  input : List (Option Char)
deriving DecidableEq, Repr

namespace CharStream

def getchar (stream : CharStream) : Except Fault (Option Char × CharStream) :=
  match stream.unget, stream.input with
  | some c, _ => .ok (some c, { stream with unget := none })
  | none, c :: rest => .ok (c, { stream with input := rest })
  | none, [] => .error .awaitingInput

/-- A second character in a row is refused. -/
def ungetc (c : Char) (stream : CharStream) : CharStream :=
  match stream.unget with
  | some _ => stream
  | none => { stream with unget := some c }

def pending (stream : CharStream) : Nat := stream.unget.toList.length + stream.input.length

instance : Stdin CharStream := { getchar, ungetc, pending }

def ofText (text : List Char) : CharStream := { unget := none, input := text.map some }

end CharStream
end Freedcc
