import Freedcc.Frame
import Freedcc.TokenReplay

/-! The grammar documented in dsl.h, with `help` among the commands and the
clauses of a driving command in either order; what each command means; and the
token sequences on which the parser leaves it. -/
namespace Freedcc.Grammar
open Dcc

inductive Meaning where
  | dcc (frame : Fields)
  | raw (bytes : List Byte)
  | sys (cmd : SysCmd)

/-- Numbers pass through `unsigned char`. -/
def addressOf (number : BitVec 16) : BitVec 7 := (number.setWidth 8).setWidth 7

def speedOf (number : BitVec 16) : BitVec 5 := speedCode (number.setWidth 8).toNat

inductive Clauses : List Token → BitVec 7 → BitVec 5 → Prop where
  | addrSpeed : Clauses [(.addr, u), (.number, a), (.speed, v), (.number, s)]
      (addressOf a.number) (speedOf s.number)
  | speedAddr : Clauses [(.speed, v), (.number, s), (.addr, u), (.number, a)]
      (addressOf a.number) (speedOf s.number)

inductive Command : List Token → Meaning → Prop where
  | raw : Command [(.raw, u), (.hex, v)] (.raw (Parser.hexBytes v.text))
  | help : Command [(.help, u)] (.sys { type := .help, args := none })
  | showStatus : Command [(.show, u), (.status, v)] (.sys { type := .status, args := none })
  | cacheClear : Command [(.cache, u), (.clear, v)] (.sys { type := .cacheClear, args := none })
  | cacheShow : Command [(.cache, u), (.show, v), (.number, n)]
      (.sys { type := .cacheShow, args := some n.number })
  | forward (clauses : Clauses tokens address speed) :
      Command ((.forward, u) :: tokens) (.dcc (frame address true speed))
  | reverse (clauses : Clauses tokens address speed) :
      Command ((.reverse, u) :: tokens) (.dcc (frame address false speed))
  | stopAddr : Command [(.stop, u), (.addr, v), (.number, a)]
      (.dcc (frame (addressOf a.number) false (speedCode 0)))
  | stopAll : Command [(.stop, u), (.all, v)] (.dcc (frame 0 true 0x11))
  | stop : Command [(.stop, u)] (.dcc (frame 0 true 0x10))

/-- The result object says what the command means. -/
def Meaning.Told (r : Option Result) : Meaning → Prop
  | .dcc f => ∃ ref, r = some ⟨.dcc, .packet ref⟩ ∧ ref.packet = f.packet
  | .raw bytes => ∃ ref, r = some ⟨.raw, .packet ref⟩ ∧ ref.packet = ⟨bytes⟩
  | .sys cmd => r = some ⟨.sys, .cmd cmd⟩

/-- An accepting call has read, with one token of lookahead, the longest prefix
that is a command, and its result is what that command means. -/
def Sound {σ : Type} [TokenSource σ] (tokens : List Token) (null : Bool)
    (parser : Parser (Counted σ)) : Prop :=
  ∀ next, Parser.parserStart (some null) parser = .ok (true, next) →
    ∃ command rest meaning, tokens = command ++ rest ∧ Command command meaning ∧
      (∀ other more wrong, tokens = other ++ more → Command other wrong →
        other.length ≤ command.length) ∧
      meaning.Told next.result ∧ next.scanner.calls ≤ parser.scanner.calls + command.length + 1

/-! Where the parser takes tokens that it does not give back. -/

/-- A word and a number; or the word alone, which is taken all the same; or nothing. -/
inductive Clause (word : Tok) : List Token → Option Value → List Token → Prop where
  | whole : Clause word ((word, u) :: (.number, v) :: rest) (some v) rest
  | half (cut : token.1 ≠ .number) : Clause word ((word, u) :: token :: rest) none (token :: rest)
  | absent (other : token.1 ≠ word) : Clause word (token :: rest) none (token :: rest)

/-- Two clauses in this order, or as much of them as there is. -/
inductive PairFails (one two : Tok) : List Token → List Token → Prop where
  | first (none : Clause one ts none us) : PairFails one two ts us
  | second (some : Clause one ts (some v) us) (none : Clause two us none vs) :
      PairFails one two ts vs

inductive PairHolds (one two : Tok) : List Token → List Token → Prop where
  | both (first : Clause one ts (some v) us) (second : Clause two us (some w) vs) :
      PairHolds one two ts vs

/-- What the alternative for a word has taken when it gives up. -/
inductive Stray : Tok → List Token → List Token → Prop where
  | other (other : token.1 ≠ word) : Stray word (token :: rest) (token :: rest)
  | raw (cut : token.1 ≠ .hex) : Stray .raw ((.raw, u) :: token :: rest) (token :: rest)
  | show (cut : token.1 ≠ .status) : Stray .show ((.show, u) :: token :: rest) (token :: rest)
  | cache (noClear : token.1 ≠ .clear) (noShow : token.1 ≠ .show) :
      Stray .cache ((.cache, u) :: token :: rest) (token :: rest)
  | cacheShow (cut : token.1 ≠ .number) :
      Stray .cache ((.cache, u) :: (.show, v) :: token :: rest) (token :: rest)
  | drive (drives : word = .forward ∨ word = .reverse) (first : PairFails .addr .speed ts us)
      (second : PairFails .speed .addr us vs) : Stray word ((word, u) :: ts) vs

inductive Strays : List Tok → List Token → List Token → Prop where
  | nil : Strays [] ts ts
  | cons (stray : Stray word ts us) (later : Strays words us vs) : Strays (word :: words) ts vs

/-- The alternatives for other words leave the tokens as they are. -/
theorem strays_other (absent : word ∉ words) (ts : List Token) (u : Value) :
    Strays words ((word, u) :: ts) ((word, u) :: ts) := by
  induction words with
  | nil => exact .nil
  | cons other words ih =>
    have apart : word ≠ other := fun same => absent (same ▸ List.mem_cons_self)
    exact .cons (.other apart) (ih fun member => absent (List.mem_cons_of_mem _ member))

/-- Accepted with a half-read clause: the second order of the clauses starts
where the first gave up, or a stop has lost its address. -/
inductive Muddled : Tok → List Token → Prop where
  | drive (drives : word = .forward ∨ word = .reverse) (first : PairFails .addr .speed ts us)
      (taken : us ≠ ts) (second : PairHolds .speed .addr us vs) : Muddled word ((word, u) :: ts)
  | stop (cut : token.1 ≠ .number) : Muddled .stop ((.stop, u) :: (.addr, v) :: token :: rest)

/-- A command that the alternative for `word` takes as it should. -/
inductive Begins (word : Tok) : List Token → Prop where
  | command (command : Command ((word, u) :: tokens) meaning) :
      Begins word ((word, u) :: tokens ++ rest)

/-- In the order in which they are tried. -/
def alternatives : List Tok := [.raw, .help, .show, .cache, .forward, .reverse, .stop]

/-- Some alternative accepts after an earlier one has lost tokens, or accepts
with a half-read clause. -/
def Derailed (tokens : List Token) : Prop :=
  ∃ earlier word later us, alternatives = earlier ++ word :: later ∧ Strays earlier tokens us ∧
    ((us ≠ tokens ∧ Begins word us) ∨ Muddled word us)

def RawCommand (tokens : List Token) : Prop := Begins .raw tokens

end Freedcc.Grammar
