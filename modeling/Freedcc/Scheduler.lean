import Freedcc.Cache
import Freedcc.Lib.Run

/-! The packet scheduler of scheduler.c and its TIMER0 interrupt. Timer set-up
is left out; an interrupt is one atomic step, as on the target. -/
namespace Freedcc
open Dcc

abbrev schedulerTxQueueLen : Nat := 20

structure Scheduler where
  txQueue : Ring PacketRef schedulerTxQueueLen
  idlePacket : PacketRef
  stopPacket : Option PacketRef
  cache : Cache

namespace Scheduler

/-- Memory as malloc returned it to the three `create` calls. -/
structure Memory where
  txQueue : Vector PacketRef schedulerTxQueueLen
  addresses : Vector Int cacheAddrSize
  packets : Vector (Hash.Entry Int PacketRef) cacheAddrSize

def Memory.zero : Memory :=
  { txQueue := Vector.replicate _ ⟨0, ⟨[]⟩⟩
    addresses := Vector.replicate _ 0
    packets := Vector.replicate _ ⟨0, none⟩ }

/-- The packet of `Scheduler_module_init`, the first one allocated. -/
def idle : PacketRef := ⟨0, specialIdlePacket baselinePacketCreate⟩

def moduleInit (memory : Memory) : Scheduler :=
  { cache := Cache.moduleInit memory.addresses memory.packets
    txQueue := Ring.create memory.txQueue (by decide)
    idlePacket := idle
    stopPacket := none }

def addPacket (s : Scheduler) (packet : PacketRef) : Scheduler :=
  { s with txQueue := s.txQueue.push packet }

def timer0CompaVect (s : Scheduler) (trace : Trace) : Scheduler × Trace :=
  if s.txQueue.count > 0 then
    let tx := s.txQueue.pop.1
    let s := { s with txQueue := s.txQueue.pop.2 }
    let trace := trace ++ [.signalSend tx]
    let trace :=
      match s.stopPacket with
      | some stop => packetDestroy stop trace
      | none => trace
    if isBroadcastStop tx.packet then
      let cleared := s.cache.clear trace
      ({ s with stopPacket := some tx, cache := cleared.1 }, cleared.2)
    else
      let trace := trace ++ [.cacheUpdate tx]
      let updated := s.cache.update tx trace
      ({ s with stopPacket := none, cache := updated.1 }, updated.2)
  else
    match s.stopPacket with
    | some stop => (s, trace ++ [.signalSend stop])
    | none =>
      let next := s.cache.getNextPacket
      let cached := next.1.getD s.idlePacket
      ({ s with cache := next.2 }, trace ++ [.signalSend cached])

inductive Op where
  | addPacket (packet : PacketRef)
  | tick
  | cacheClear
deriving DecidableEq

def step (s : Scheduler) : Op → Scheduler × List Event
  | .addPacket packet => (s.addPacket packet, [])
  | .tick => s.timer0CompaVect []
  | .cacheClear =>
    let cleared := s.cache.clear []
    ({ s with cache := cleared.1 }, cleared.2)

/-- The packets passed to `Scheduler_add_packet`, in order. -/
def added : List Op → List PacketRef :=
  List.filterMap fun
    | .addPacket packet => some packet
    | _ => none

def sent : Event → Option PacketRef
  | .signalSend packet => some packet
  | _ => none

/-- A full queue is never pushed to. -/
def Room (s : Scheduler) : Prop := s.txQueue.count ≤ schedulerTxQueueLen

instance : DecidablePred Room := fun _ => inferInstanceAs (Decidable (_ ≤ _))

def outing : List Op :=
  [.addPacket ⟨1, setAddress baselinePacketCreate 3⟩,
    .addPacket ⟨2, setAddress baselinePacketCreate 5⟩, .tick, .tick, .tick, .tick,
    .addPacket ⟨3, specialEmergencyStopPacket baselinePacketCreate⟩]

end Scheduler
end Freedcc
