import Freedcc.Dcc
import Freedcc.Scanner

/-! The recursive descent parser of dsl.c, over any source of tokens. Memory
never runs out. -/
namespace Freedcc
open Dcc

inductive SysCmdType where
  | status
  | help
  | cacheClear
  | cacheShow
deriving DecidableEq, Repr

/-- `Sys_cmd_T`; the type fixes the function to call, `args` is null or points
to an `int`. -/
structure SysCmd where
  type : SysCmdType
  args : Option (BitVec 16)
deriving DecidableEq, Repr

inductive ResType where
  | undef
  | dcc
  | sys
  | raw
deriving DecidableEq, Repr

/-- The two pointers of `payload` share their memory, which malloc leaves as it
was: it is compared with NULL before either is stored. -/
inductive Payload where
  | garbage (null : Bool)
  | packet (packet : PacketRef)
  | cmd (cmd : SysCmd)
deriving DecidableEq, Repr

structure Result where
  type : ResType
  payload : Payload
deriving DecidableEq, Repr

/-- There is nothing to write to before a packet is stored. -/
def Result.write (change : Packet → Packet) (result : Result) : Result :=
  match result.payload with
  | .packet ref => { result with payload := .packet { ref with packet := change ref.packet } }
  | _ => result

/-- `payload.packet != NULL`. -/
def Payload.present : Payload → Bool
  | .garbage null => !null
  | _ => true

/-- What the parser uses of a scanner. -/
class TokenSource (σ : Type) where
  reset : σ → σ
  nextToken : StateT σ (Except Fault) Tok
  value : σ → Value
  flush : σ → σ

instance [Stdin δ] : TokenSource (Scanner δ) where
  reset := Scanner.reset
  nextToken := Scanner.nextToken
  value := Scanner.value
  flush scanner := { scanner with stdin := scanner.flush scanner.stdin }

/-- `DSL_parser` and its surroundings: the result is the object it points to.
Packets are numbered as they are made; `trace` lists those destroyed. -/
structure Parser (σ : Type) where
  scanner : σ
  curr : Tok
  result : Option Result
  created : Nat
  trace : Trace

namespace Parser
variable {σ : Type} [TokenSource σ]

def fresh (scanner : σ) : Parser σ :=
  { scanner, curr := .unknown, result := none, created := 0, trace := [] }

abbrev Parse (σ : Type) := StateT (Parser σ) (Except Fault)

def advance : Parse σ Unit := fun parser => do
  let (curr, scanner) ← TokenSource.nextToken parser.scanner
  return ((), { parser with scanner, curr })

theorem advance_ok {parser next : Parser σ} : advance parser = .ok ((), next) ↔
    ∃ curr scanner, TokenSource.nextToken parser.scanner = .ok (curr, scanner) ∧
      next = { parser with scanner, curr } := by
  cases read : TokenSource.nextToken parser.scanner with
  | error fault => simp [advance, read, bind, Except.bind]
  | ok pair =>
    obtain ⟨curr, scanner⟩ := pair
    simp [advance, read, bind, Except.bind, pure, Except.pure, eq_comm]

def acceptNoAdvance (tok : Tok) : Parse σ Bool := return tok = (← get).curr

omit [TokenSource σ] in
@[simp] theorem acceptNoAdvance_eq (tok : Tok) (parser : Parser σ) :
    acceptNoAdvance tok parser = .ok (tok = parser.curr, parser) := rfl

def accept (tok : Tok) : Parse σ Bool := do
  if ← acceptNoAdvance tok then
    advance
    return true
  else return false

def value : Parse σ Value := return TokenSource.value (← get).scanner

/-- With a result object, its payload becomes a new packet. -/
def makePacket (type : ResType) (packet : Packet) : Parse σ Unit :=
  modify fun parser =>
    match parser.result with
    | some _ => { parser with
        result := some { type, payload := .packet ⟨parser.created, packet⟩ }
        created := parser.created + 1 }
    | none => parser

def makeCmd (cmd : SysCmd) : Parse σ Unit :=
  modify fun parser =>
    { parser with result := parser.result.map fun _ => { type := .sys, payload := .cmd cmd } }

/-- Write to `payload.packet`. -/
def onPacket (change : Packet → Packet) : Parse σ Unit :=
  modify fun parser => { parser with result := parser.result.map (·.write change) }

def hexDigit (c : Char) : Option Nat :=
  if c.isDigit then some (c.toNat - '0'.toNat)
  else if 'A' ≤ c ∧ c ≤ 'F' then some (c.toNat - 'A'.toNat + 10)
  else none

/-- `sscanf(.., "%2hhx", &byte)` on a byte that is zero before. -/
def scanHexByte (c₁ c₂ : Char) : Byte :=
  match hexDigit c₁, hexDigit c₂ with
  | some high, some low => BitVec.ofNat 8 (16 * high + low)
  | some digit, none => BitVec.ofNat 8 digit
  | none, _ => 0

/-- The conversion loop of `DSL_grammar_raw`. -/
def hexBytes : List Char → List Byte
  | c₁ :: c₂ :: rest => scanHexByte c₁ c₂ :: hexBytes rest
  | _ => []

/-- The semantic action of `raw`. It tests `payload.packet`, which is as malloc
left it. -/
def makeRaw (text : List Char) : Parse σ Unit := do
  if (← get).result.any (·.payload.present) then makePacket .raw ⟨hexBytes text⟩

def grammarRaw : Parse σ Bool := do
  if ← accept .raw <&&> acceptNoAdvance .hex then
    makeRaw (← value).text
    advance
    return true
  else return false

def grammarHelp : Parse σ Bool := do
  if ← accept .help then
    makeCmd { type := .help, args := none }
    return true
  else return false

def grammarShow : Parse σ Bool := do
  if ← accept .show then
    if ← acceptNoAdvance .status then
      makeCmd { type := .status, args := none }
      return true
    else return false
  else return false

def grammarCache : Parse σ Bool := do
  if ← accept .cache then
    if ← acceptNoAdvance .clear then
      makeCmd { type := .cacheClear, args := none }
      return true
    else if ← acceptNoAdvance .show then
      advance
      if ← acceptNoAdvance .number then
        makeCmd { type := .cacheShow, args := some (← value).number }
        return true
      else return false
    else return false
  else return false

/-- A word and a number: `DSL_grammar_addr` and `DSL_grammar_speed` differ in the
word and in what the number is written to. -/
def grammarClause (word : Tok) (write : Packet → BitVec 16 → Packet) : Parse σ Bool := do
  if ← accept word then
    if ← acceptNoAdvance .number then
      let number := (← value).number
      onPacket (write · number)
      advance
      return true
    else return false
  else return false

def grammarAddr : Parse σ Bool :=
  grammarClause .addr fun packet number => setAddress packet (number.setWidth 8)

def grammarSpeed : Parse σ Bool :=
  grammarClause .speed fun packet number => setSpeed packet (number.setWidth 8).toNat

/-- `DSL_grammar_forward` and `DSL_grammar_reverse` differ in the keyword and in
the direction. -/
def grammarDrive (keyword : Tok) (direction : Int) : Parse σ Bool := do
  if ← accept keyword then
    makePacket .dcc baselinePacketCreate
    if ← (grammarAddr <&&> grammarSpeed) <||> (grammarSpeed <&&> grammarAddr) then
      onPacket setPreamble
      onPacket setSpeedDirectionPreamble
      onPacket (setDirection · direction)
      return true
    else return false
  else return false

def grammarForward : Parse σ Bool := grammarDrive .forward directionForward

def grammarReverse : Parse σ Bool := grammarDrive .reverse directionReverse

/-- `STOP` with no address after it. -/
def grammarStopAll : Parse σ Bool := do
  if ← accept .all then
    onPacket specialEmergencyStopPacket
    return true
  else
    onPacket specialBroadcastStopPacket
    return true

/-- A new packet, and the address clause if there is one. -/
def grammarStopAddr : Parse σ Bool := do
  makePacket .dcc baselinePacketCreate
  onPacket setPreamble
  grammarAddr

def grammarStop : Parse σ Bool := do
  if ← accept .stop then
    if ← grammarStopAddr then
      onPacket setSpeedDirectionPreamble
      onPacket (setSpeed · 0)
      return true
    else grammarStopAll
  else return false

def parseBeforeStop : Parse σ Bool :=
  grammarRaw <||> grammarHelp <||> grammarShow <||> grammarCache <||> grammarForward
    <||> grammarReverse

def parse : Parse σ Bool := parseBeforeStop <||> grammarStop

/-- What happens to the result when there was a parse error. -/
def trash (parser : Parser σ) : Parser σ :=
  match parser.result with
  | some ⟨.raw, .packet ref⟩ => { parser with trace := packetDestroy ref parser.trace, result := none }
  | some ⟨.dcc, .packet ref⟩ => { parser with trace := packetDestroy ref parser.trace, result := none }
  | _ => { parser with result := none }

/-- A fresh scan and a new result object, if one is asked for; the argument is
what malloc leaves in its payload. -/
def prepare (memory : Option Bool) (parser : Parser σ) : Parser σ :=
  { parser with
    scanner := TokenSource.reset parser.scanner
    result :=
      match memory with
      | some null => some { type := .undef, payload := .garbage null }
      | none => parser.result }

def parseTokens : Parse σ Bool := do
  advance
  parse

def parseCommand (memory : Option Bool) : Parse σ Bool := do
  modify (prepare memory)
  parseTokens

/-- After a parse error. With no result asked for, `*result` would be written
through a null pointer. -/
def parseError (memory : Option Bool) : Parse σ Bool := do
  modify fun parser => { parser with scanner := TokenSource.flush parser.scanner }
  if (← get).result.isSome && memory.isNone then throw .nullDereference
  else
    modify trash
    return false

def finishPacket : Parse σ Bool := do
  match (← get).result with
  | none => throw .nullDereference
  | some ⟨.dcc, _⟩ =>
    onPacket setChecksum
    onPacket setPacketEnd
    return true
  | some _ => return true

/-- `DSL_parser_start`; `*result` is the result the parser ends with. -/
def parserStart (memory : Option Bool) : Parse σ Bool := do
  if ← parseCommand memory then finishPacket else parseError memory

/-- What a call returns and what `*result` is then. -/
def outcome : Except Fault (Bool × Parser σ) → Option (Bool × Option Result)
  | .ok (accepted, parser) => some (accepted, parser.result)
  | .error _ => none

omit [TokenSource σ] in
theorem outcome_eq_some {call : Except Fault (Bool × Parser σ)} :
    outcome call = some (accepted, left) ↔
      ∃ next, call = .ok (accepted, next) ∧ next.result = left := by
  cases call with
  | error fault => simp [outcome]
  | ok pair =>
    obtain ⟨b, parser⟩ := pair
    simp only [outcome, Option.some.injEq, Prod.mk.injEq, Except.ok.injEq]
    constructor
    · rintro ⟨rfl, rfl⟩
      exact ⟨parser, ⟨rfl, rfl⟩, rfl⟩
    · rintro ⟨next, ⟨rfl, rfl⟩, rfl⟩
      exact ⟨rfl, rfl⟩

end Parser
end Freedcc
