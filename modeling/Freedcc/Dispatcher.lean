import Freedcc.DeskLines

/-! The station as its user sees it: lines that are typed, orders that wait to be
sent, the stop that is held, and the rota of the locos with the last order for each.
There are no packets, no ring and no table in it. -/
namespace Freedcc
open Dcc

namespace Console

def Request.everywhere : Request → Bool
  | .drive _ _ _ => false
  | .stopOne _ => false
  | .stopAll => true
  | .stop => true

/-- The loco that hears it; an address has seven bits. -/
def Request.loco : Request → Nat
  | .drive _ address _ => address % 128
  | .stopOne address => address % 128
  | .stopAll => 0
  | .stop => 0

end Console

open Console

structure Dispatcher where
  /-- The lines that have not been read. -/
  script : List AskLine
  /-- How many bytes of them have arrived. -/
  arrived : Nat
  /-- The blanks of the last line. -/
  left : List Char
  pending : List Request
  stop : Option Request
  rota : List (Nat × Request)
  /-- How many items a `cache clear` will tell of, and the slots it has not been over. -/
  purging : Option (BitVec 16 × Nat)
  sys : Sys
  screen : List Char

namespace Dispatcher
open CommandStation (prompt)

def start (script : List AskLine) : Dispatcher :=
  { script, arrived := 0, left := [], pending := [], stop := none, rota := [], purging := none
    sys := Sys.init, screen := [] }

def print (text : List Char) (d : Dispatcher) : Dispatcher :=
  { d with screen := d.screen ++ Terminal.crlf text }

def account (change : Sys → Sys) (d : Dispatcher) : Dispatcher := { d with sys := change d.sys }

def shown (d : Dispatcher) (n : Nat) : List Char :=
  match d.rota.lookup n with
  | some request => Sys.packetDetails (BitVec.ofNat 16 n) request.frame.packet
  | none => Sys.noPacket (BitVec.ofNat 16 n)

def ask (platform : Platform) (memFree : BitVec 16) (d : Dispatcher) : Query → Dispatcher
  | .help => (d.print Sys.cmdHelp).print prompt
  | .status =>
    (d.print (Sys.cmdStatus platform memFree d.sys (BitVec.ofNat 16 d.rota.length))).print prompt
  | .cacheShow n => (d.print (d.shown n)).print prompt
  | .cacheClear =>
    { d with rota := [], purging := some (BitVec.ofNat 16 d.rota.length, cacheAddrSize) }

def answer (platform : Platform) (memFree : BitVec 16) (d : Dispatcher) : Ask → Dispatcher
  | .order request =>
    let d := (d.account Sys.parseOkIncrement).print "ok\n\n".toList
    let d := (d.account (·.processDccTx request.frame.packet)).print prompt
    { d with pending := d.pending ++ [request] }
  | .query put => ((d.account Sys.parseOkIncrement).account Sys.processSysCmd).ask platform memFree put

/-- A blank that is left, or a line to its end. -/
def read (platform : Platform) (memFree : BitVec 16) (d : Dispatcher) : Dispatcher :=
  if d.purging.isSome ∨ d.arrived = 0 then d
  else
    match d.left, d.script with
    | _ :: left, _ => { d with left }.print prompt
    | [], entry :: script =>
      let d := { d with
        script, arrived := d.arrived - entry.line.content.length, left := entry.leaves }
      (d.print entry.line.content).answer platform memFree entry.ask
    | [], [] => d

/-- Orders go first come first served; a stop for every loco is held and ends the rota;
and else the locos are served in turn. -/
def tick (d : Dispatcher) : Dispatcher × Option Request :=
  match d.pending, d.stop with
  | request :: pending, _ =>
    if request.everywhere then ({ d with pending, stop := some request, rota := [] }, some request)
    else
      ({ d with pending, stop := none, rota := Rotation.upsert request.loco request d.rota },
        some request)
  | [], some held => (d, some held)
  | [], none =>
    let served := Rotation.serve d.rota
    ({ d with rota := served.2 }, served.1)

/-- What goes out for an order, and when there is none. -/
def packet : Option Request → Packet
  | some request => request.frame.packet
  | none => Scheduler.idle.packet

def purge (d : Dispatcher) : Dispatcher :=
  match d.purging with
  | some (count, slots + 2) => { d with purging := some (count, slots + 1) }
  | some (count, _) => ({ d with purging := none }.print (Sys.cmdCacheClear count)).print prompt
  | none => d

def step (platform : Platform) (d : Dispatcher) : CommandStation.Op → Dispatcher × List Packet
  | .receive =>
    ({ d with arrived := min (d.arrived + 1) (d.script.flatMap (·.line.received)).length }, [])
  | .read _ memFree => (d.read platform memFree, [])
  | .timer0 _ => (d.tick.1, [packet d.tick.2])
  | .timer1 _ => (d, [])
  | .resetEntry => (d.purge, [])

/-- Where an order may be read: the queue has room. -/
def Takes (d : Dispatcher) : Ask → Prop
  | .order _ => d.pending.length < schedulerTxQueueLen
  | .query (.cacheShow n) =>
    n < 2 ^ 15 ∧ (n ∈ Rotation.keys d.rota ∨ d.rota.length < cacheAddrSize)
  | .query _ => True

/-- What the program is made for: no more orders wait than the queue holds, no more
locos are driven than the cache holds, and none while it is being cleared; and
`cache show` is given a small number, which is in the cache if that is full. -/
def Fit (d : Dispatcher) : CommandStation.Op → Prop
  | .read _ _ => d.purging = none → 0 < d.arrived → d.left = [] → ∀ entry ∈ d.script.head?, d.Takes entry.ask
  | .timer0 _ => ∀ request ∈ d.pending.head?, request.everywhere = false → d.purging = none ∧
      (Rotation.upsert request.loco request d.rota).length ≤ cacheAddrSize
  | _ => True

instance (d : Dispatcher) : DecidablePred d.Takes
  | .order _ => inferInstanceAs (Decidable (_ < _))
  | .query (.cacheShow _) => inferInstanceAs (Decidable (_ ∧ _))
  | .query .help => isTrue trivial
  | .query .status => isTrue trivial
  | .query .cacheClear => isTrue trivial

instance (d : Dispatcher) : DecidablePred d.Fit
  | .read _ _ => inferInstanceAs (Decidable (_ → _ → _ → _))
  | .timer0 _ => inferInstanceAs (Decidable (∀ _, _))
  | .receive => isTrue trivial
  | .timer1 _ => isTrue trivial
  | .resetEntry => isTrue trivial

/-- A tick has to do with the orders only. -/
theorem tick_eq (d : Dispatcher) : ∃ pending stop rota, d.tick.1 = { d with pending, stop, rota } := by
  unfold tick
  split
  · split
    · exact ⟨_, _, _, rfl⟩
    · exact ⟨_, _, _, rfl⟩
  · exact ⟨_, _, _, rfl⟩
  · exact ⟨_, _, _, rfl⟩

section Due
variable {d : Dispatcher} {request : Request} {rest : List Request}

theorem tick_everywhere (waits : d.pending = request :: rest) (everywhere : request.everywhere = true) :
    d.tick = ({ d with pending := rest, stop := some request, rota := [] }, some request) := by
  simp only [tick, waits, everywhere, if_true]

theorem tick_one (waits : d.pending = request :: rest) (one : request.everywhere = false) :
    d.tick = ({ d with
      pending := rest, stop := none, rota := Rotation.upsert request.loco request d.rota },
      some request) := by
  simp only [tick, waits, one, Bool.false_eq_true, if_false]

theorem tick_held (empty : d.pending = []) (held : d.stop = some request) :
    d.tick = (d, some request) := by
  simp only [tick, empty, held]

theorem tick_turn (empty : d.pending = []) (free : d.stop = none) :
    d.tick = ({ d with rota := (Rotation.serve d.rota).2 }, (Rotation.serve d.rota).1) := by
  simp only [tick, empty, free]

end Due

end Dispatcher

namespace Console

/-- A stop for every loco is what the scheduler holds. -/
theorem Request.stops (request : Request) :
    isBroadcastStop request.frame.packet = request.everywhere := by
  have table (address : BitVec 7) (direction : Bool) (step : Nat) :
      isBroadcastStop (Dcc.frame address direction (speedCode step)).packet = false := by
    apply Bool.eq_false_iff.mpr
    intro stops
    rcases (isBroadcastStop_packet stops).2 with same | same
    · exact (speedCode_ne step).1 same
    · exact (speedCode_ne step).2 same
  cases request with
  | drive direction address step => exact table _ _ _
  | stopOne address => exact table _ _ 0
  | stopAll => exact isBroadcastStop_frame 0x11 (Or.inr rfl)
  | stop => exact isBroadcastStop_frame 0x10 (Or.inl rfl)

/-- The packet is cached for the loco. -/
theorem Request.address {request : Request} {ref : PacketRef}
    (packet : ref.packet = request.frame.packet) : Cache.address ref = request.loco := by
  have byte (address : Nat) (direction : Bool) (speed : BitVec 5) :
      (Dcc.frame (Grammar.addressOf (BitVec.ofNat 16 address)) direction speed).addressByte.toNat =
        address % 128 := by
    simp only [Fields.addressByte, Dcc.frame, Grammar.addressOf, BitVec.toNat_setWidth, BitVec.toNat_ofNat]
    omega
  rw [Cache.address, packet, getAddress_packet]
  cases request with
  | drive direction address step => exact congrArg Int.ofNat (byte _ _ _)
  | stopOne address => exact congrArg Int.ofNat (byte _ _ _)
  | stopAll => rfl
  | stop => rfl

end Console
end Freedcc
