import Freedcc.Parser
import Freedcc.Ring
import Freedcc.Lib.Run

/-! The computer communication of io.c: lines from the USART to the parser.
What is written back to the host is left to the device; the flags of the stream,
which nobody tests, are left out. -/
namespace Freedcc
open Dcc

/-- A byte in the USART, with the flags FE0 and DOR0. -/
structure Rx where
  c : Char
  frameError : Bool
  overrun : Bool
deriving DecidableEq, Repr

structure Io where
  /-- The character pushed back to `stdin`. -/
  unget : Option Char
  rxRing : Ring Char 50
  /-- What has not been read from the USART, the bytes to come included. -/
  wire : List Rx
  /-- How many of these have arrived. -/
  arrived : Nat

namespace Io

def ringSize : Nat := 50

/-- What `IO_getc` stores for a byte. -/
def translate (c : Char) : Char :=
  match c with
  | '\t' => ' '
  | '\r' => '\n'
  | c => c

theorem translate_return : translate '\r' = '\n' := rfl

def store (c : Char) (rest : List Rx) (io : Io) : Io :=
  { io with rxRing := io.rxRing.push (translate c), wire := rest, arrived := io.arrived - 1 }

/-- A second character in a row is refused. -/
def ungetc (c : Char) (io : Io) : Io :=
  match io.unget with
  | some _ => io
  | none => { io with unget := some c }

def pending (io : Io) : Nat := io.unget.toList.length + io.rxRing.count + io.wire.length

/-- `IO_flush`: the ring, and the bytes that have arrived. -/
def flush (io : Io) : Io :=
  { io with rxRing := io.rxRing.reset, wire := io.wire.drop io.arrived, arrived := 0 }

/-- One more byte has arrived, if there is one. -/
def receive (io : Io) : Io := { io with arrived := min (io.arrived + 1) io.wire.length }

/-- `buf` is what malloc leaves in the ring. -/
def moduleInit (buf : Vector Char 50) (wire : List Rx) : Io :=
  { unget := none, rxRing := Ring.create buf (by decide), wire, arrived := 0 }

end Io

/-- What `IO_getc` works on: the buffers, and what `IO_putc` does with a byte just stored. -/
class Usart (δ : Type) where
  io : δ → Io
  update : (Io → Io) → δ → δ
  echo : Char → δ → δ
  io_update (change : Io → Io) (device : δ) : io (update change device) = change (io device)
  io_echo (c : Char) (device : δ) : io (echo c device) = io device

namespace Usart
variable {δ : Type} [Usart δ]

/-- Poll UART until we get a line of input: whether it comes to the end of one.
Every turn waits for a byte, which stays in the USART if there is an error. -/
def poll : List Rx → δ → Except Fault (Bool × δ)
  | [], _ => .error .awaitingInput
  | rx :: rest, device =>
    if rx.frameError then
      .ok (false, update (fun io => { io with arrived := max io.arrived 1 }) device)
    else if rx.overrun then
      .ok (false, update (fun io => { io with arrived := max io.arrived 1 }) device)
    else
      let device := echo (Io.translate rx.c) (update (Io.store rx.c rest) device)
      if Io.translate rx.c = '\n' then .ok (true, device) else poll rest device

def getc (device : δ) : Except Fault (Option Char × δ) := do
  let (filled, device) ←
    if (io device).rxRing.count = 0 then poll (io device).wire device else pure (true, device)
  if filled then
    let (popped, rxRing) := (io device).rxRing.pop
    return (some popped, update (fun io => { io with rxRing }) device)
  else return (none, device)

def getchar (device : δ) : Except Fault (Option Char × δ) :=
  match (io device).unget with
  | some c => .ok (some c, update (fun io => { io with unget := none }) device)
  | none => getc device

instance : Stdin δ :=
  { getchar, ungetc := fun c => update (Io.ungetc c), pending := fun device => (io device).pending }

end Usart

namespace Io

/-- Nothing is given back. -/
instance : Usart Io :=
  { io := id, update := id, echo := fun _ io => io
    io_update := fun _ _ => rfl, io_echo := fun _ _ => rfl }

abbrev poll : List Rx → Io → Except Fault (Bool × Io) := Usart.poll

abbrev getc : Io → Except Fault (Option Char × Io) := Usart.getc

abbrev getchar : Io → Except Fault (Option Char × Io) := Usart.getchar

theorem poll_cons (rx : Rx) (rest : List Rx) (io : Io) : poll (rx :: rest) io =
    if rx.frameError then .ok (false, { io with arrived := max io.arrived 1 })
    else if rx.overrun then .ok (false, { io with arrived := max io.arrived 1 })
    else if translate rx.c = '\n' then .ok (true, io.store rx.c rest)
    else poll rest (io.store rx.c rest) := rfl

theorem getc_eq (io : Io) : io.getc = do
    let (filled, io) ← if io.rxRing.count = 0 then poll io.wire io else pure (true, io)
    if filled then return (some io.rxRing.pop.1, { io with rxRing := io.rxRing.pop.2 })
    else return (none, io) := rfl

theorem getchar_eq (io : Io) : io.getchar =
    match io.unget with
    | some c => .ok (some c, { io with unget := none })
    | none => io.getc := rfl

end Io

/-- What comes of a line: a packet is returned, a system command executed, or a
parse error told. -/
inductive Outcome where
  | packet (packet : Packet)
  | sysCmd (cmd : SysCmd)
  | parseError
  /-- The call does not return. -/
  | stuck (fault : Fault)
deriving DecidableEq, Repr

def Result.outcome (result : Result) : Option Outcome :=
  match result with
  | ⟨.raw, .packet ref⟩ => some (.packet ref.packet)
  | ⟨.dcc, .packet ref⟩ => some (.packet ref.packet)
  | ⟨.sys, .cmd cmd⟩ => some (.sysCmd cmd)
  | _ => none

/-- The parser on the stream from the host. -/
abbrev Reader (δ : Type) := Parser (Scanner δ)

namespace Reader
open Freedcc.Parser
variable {δ : Type} [Stdin δ]

def getchar : Parse (Scanner δ) (Option Char) := fun reader => do
  let (c, scanner) ← Scanner.getchar reader.scanner
  return (c, { reader with scanner })

def ungetc (c : Option Char) : Parse (Scanner δ) Unit := fun reader => do
  let ((), scanner) ← Scanner.ungetc c reader.scanner
  return ((), { reader with scanner })

/-- Blanks and newlines are passed over; any other character goes back, and a line is read. -/
def opening : Parse (Scanner δ) Bool := do
  let c ← getchar
  if c ≠ some '\n' ∧ c ≠ some ' ' then
    ungetc c
    return true
  else return false

end Reader

abbrev Station := Reader Io

namespace Station
open Freedcc.Parser Reader

/-- The call of `DSL_parser_start` and what is done with the result; the argument is
what malloc leaves in its payload. -/
def answer [TokenSource σ] (null : Bool) : Parse σ (Option Outcome) := do
  if ← parserStart (some null) then return (← get).result.bind Result.outcome
  else return some .parseError

def ioRead (null : Bool) : Parse (Scanner Io) (Option Outcome) := do
  if 0 < (← get).scanner.stdin.arrived then
    if ← opening then answer null else return none
  else return none

/-- A byte arrives, or `IO_read` is called. What arrives during a call may as well
have arrived before it: after the first test only `IO_flush` looks. -/
inductive Op where
  | receive
  | read (null : Bool)
deriving DecidableEq, Repr

def step (station : Station) : Op → Station × List Outcome
  | .receive =>
      ({ station with scanner := { station.scanner with stdin := station.scanner.stdin.receive } }, [])
  | .read null =>
      match ioRead null station with
      | .ok (outcome, next) => (next, outcome.toList)
      | .error fault => (station, [.stuck fault])

/-- `IO_module_init`, and the bytes that will be sent. -/
def start (buf : Vector Char 50) (wire : List Rx) : Station :=
  .fresh (.fresh Io.flush (Io.moduleInit buf wire))

end Station
end Freedcc
