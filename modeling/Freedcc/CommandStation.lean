import Freedcc.MainLoop
import Freedcc.Signal
import Freedcc.Sys
import Freedcc.Terminal

/-! The whole program: the loop of main.c with everything `IO_read` writes and
counts, and both interrupts. TIMER0 hands packets to the modulator, whose
values of OCR1A are what goes out on the track. -/
namespace Freedcc
open Dcc

abbrev Desk := Reader Terminal

namespace Desk
open Freedcc.Parser Reader

/-- How far a call of `IO_read` comes before it answers. -/
inductive Reading where
  /-- No byte is waiting. -/
  | nothing
  /-- A blank or a newline has been passed over. -/
  | blank
  | accepted (result : Option Result)
  | rejected
deriving DecidableEq, Repr

/-- `IO_read` with a byte waiting, up to the answer; the argument is what malloc leaves
in the payload of the result. -/
def answering [Stdin δ] (null : Bool) : Parse (Scanner δ) Reading := do
  if ← opening then
    if ← parserStart (some null) then return .accepted (← get).result
    else return .rejected
  else return .blank

def read (null : Bool) : Parse (Scanner Terminal) Reading := do
  if 0 < (← get).scanner.stdin.io.arrived then answering null else return .nothing

def print (text : List Char) (desk : Desk) : Desk :=
  { desk with scanner := { desk.scanner with stdin := desk.scanner.stdin.print text } }

def receive (desk : Desk) : Desk :=
  { desk with scanner := { desk.scanner with stdin := desk.scanner.stdin.receive } }

/-- `IO_module_init`. -/
def start (buf : Vector Char 50) (wire : List Rx) : Desk :=
  .fresh (.fresh Terminal.flush (Terminal.moduleInit buf wire))

end Desk

/-- What can be seen of the program from outside, its terminal apart. -/
inductive Effect where
  | use (use : Use)
  /-- OCR1A is given a value, for a bit of its own. -/
  | bit (value : Nat)
  /-- The assertion of `Signal_send` fails. -/
  | abort
deriving DecidableEq, Repr

structure CommandStation where
  desk : Desk
  sys : Sys
  /-- The scheduler, and how far the last `cache clear` has come. -/
  clearing : Clearing
  /-- `curr` of `Sys_cmd_cache_clear`, while it waits for `Cache_clear`. -/
  purging : Option (BitVec 16)
  signal : Signal

namespace CommandStation

inductive Op where
  | receive
  /-- `IO_read` is called, and a packet it returns is added. -/
  | read (null : Bool) (memFree : BitVec 16)
  /-- TIMER0; `late` in the second half of a bit, which then keeps its value. -/
  | timer0 (late : Bool)
  /-- TIMER1, with the level of the output pin. -/
  | timer1 (pind : Bool)
  /-- One more iteration of the loop of `Hash_reset`. -/
  | resetEntry
deriving DecidableEq, Repr

def prompt : List Char := "\rfreedcc> ".toList

def print (text : List Char) (s : CommandStation) : CommandStation :=
  { s with desk := s.desk.print text }

def account (change : Sys → Sys) (s : CommandStation) : CommandStation :=
  { s with sys := change s.sys }

def addPacket (packet : PacketRef) (s : CommandStation) : CommandStation :=
  { s with clearing := { s.clearing with scheduler := s.clearing.scheduler.addPacket packet } }

/-- `cmd->call(cmd->args)`, and the prompt after it; for `cache clear` both wait for
`Cache_clear`, which has just begun. -/
def call (platform : Platform) (memFree : BitVec 16) (cmd : SysCmd) (s : CommandStation) :
    CommandStation × List Effect :=
  let cache := s.clearing.scheduler.cache
  match cmd.type with
  | .status =>
    let text := Sys.cmdStatus platform memFree s.sys (BitVec.ofNat 16 cache.reportCurrentSize)
    ((s.print text).print prompt, [])
  | .help => ((s.print Sys.cmdHelp).print prompt, [])
  | .cacheClear =>
    ({ s with
      clearing := .start s.clearing.scheduler
      purging := some (BitVec.ofNat 16 cache.reportCurrentSize) }, [])
  | .cacheShow =>
    match cmd.args with
    | some address =>
      ((s.print (Sys.cmdCacheShow cache address)).print prompt,
        (cmd.shown cache).toList.map (.use ∘ .shown))
    | none => (s.print prompt, [])

/-- `IO_read` from the answer on, and the call of `Scheduler_add_packet` after it. The
LED only takes its time. -/
def answer (platform : Platform) (memFree : BitVec 16) (reading : Desk.Reading)
    (s : CommandStation) : CommandStation × List Effect :=
  match reading with
  | .nothing => (s, [])
  | .blank => (s.print prompt, [])
  | .rejected =>
    (((s.account Sys.parseErrIncrement).print "parse error\n\n".toList).print prompt, [])
  | .accepted result =>
    let s := s.account Sys.parseOkIncrement
    match result with
    | some ⟨.raw, .packet ref⟩ | some ⟨.dcc, .packet ref⟩ =>
      let s := (s.print "ok\n\n".toList).account (·.processDccTx ref.packet)
      ((s.print prompt).addPacket ref, [])
    | some ⟨.sys, .cmd cmd⟩ => (s.account Sys.processSysCmd).call platform memFree cmd
    | _ => (s.print prompt, [])

/-- What an event of TIMER0 makes the modulator do. -/
def modulate (late : Bool) (signal : Signal) (event : Dcc.Event) : Signal × List Effect :=
  match event with
  | .signalSend ref =>
    match signal.send ref.packet.bytes ref.packet.size with
    | some (value, sent) =>
      (sent, .use (.event event) :: if late then [] else [.bit value])
    | none => (signal, [.use (.event event), .abort])
  | _ => (signal, [.use (.event event)])

def modulateAll (late : Bool) (signal : Signal) : List Dcc.Event → Signal × List Effect
  | [] => (signal, [])
  | event :: rest =>
    let (signal, effects) := modulate late signal event
    let (signal, more) := modulateAll late signal rest
    (signal, effects ++ more)

/-- The loop waits for the end of a `cache clear`, and for ever in a call that does not
return. An interrupt during any other call may as well come before it. -/
def step (platform : Platform) (s : CommandStation) : Op → CommandStation × List Effect
  | .receive => ({ s with desk := s.desk.receive }, [])
  | .read null memFree =>
    if s.clearing.done < cacheAddrSize then (s, [])
    else
      match Desk.read null s.desk with
      | .ok (reading, desk) => answer platform memFree reading { s with desk }
      | .error _ => (s, [])
  | .timer0 late =>
    let ticked := s.clearing.step .tick
    let (signal, effects) := modulateAll late s.signal ticked.2
    ({ s with clearing := ticked.1, signal }, effects)
  | .timer1 pind =>
    let (value, signal) := s.signal.timer1CompaVect pind
    ({ s with signal }, value.toList.map .bit)
  | .resetEntry =>
    let next := s.clearing.step .resetEntry
    let s := { s with clearing := next.1 }
    let effects := next.2.map (.use ∘ .event)
    match s.purging with
    | some curr =>
      if next.1.done < cacheAddrSize then (s, effects)
      else ((({ s with purging := none }).print (Sys.cmdCacheClear curr)).print prompt, effects)
    | none => (s, effects)

/-- `main` up to its loop. The idle packet is the first to be made. -/
def start (memory : Scheduler.Memory) (buf : Vector Char 50) (wire : List Rx) : CommandStation :=
  { desk := { Desk.start buf wire with created := 1 }
    sys := Sys.init
    clearing := { scheduler := .moduleInit memory, done := cacheAddrSize }
    purging := none
    signal := Signal.moduleInit.2 }

end CommandStation
end Freedcc
