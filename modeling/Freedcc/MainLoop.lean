import Freedcc.CacheShow
import Freedcc.Io

/-! The loop of main.c over everything below it: `IO_read`, what is done with the
line, and the interrupt of TIMER0, which comes between two calls or between two
steps of a `cache clear`. -/
namespace Freedcc
open Dcc

/-- What is done with a packet. `cache show` only reads it. -/
inductive Use where
  | event (event : Dcc.Event)
  | shown (packet : PacketRef)
deriving DecidableEq, Repr

def Use.packet : Use → PacketRef
  | .event logged => logged.packet
  | .shown packet => packet

/-- The packet that `Sys_cmd_cache_show` prints. A lookup that leaves the table, where the
source has no meaning, and in a full table need not even return, is taken to find none. -/
def SysCmd.shown (cmd : SysCmd) (cache : Cache) : Option PacketRef :=
  match cmd.type, cmd.args with
  | .cacheShow, some address => (sysCmdCacheShow cache address).join
  | _, _ => none

def Parser.returned (parser : Parser σ) : Option PacketRef :=
  match parser.result with
  | some ⟨_, .packet ref⟩ => some ref
  | _ => none

structure MainLoop where
  station : Station
  /-- The scheduler, and how far the last `cache clear` has come. -/
  clearing : Clearing

namespace MainLoop

inductive Op where
  | receive
  /-- `IO_read` is called, and a packet it returns is added. -/
  | read (null : Bool)
  /-- An interrupt, or a step of `Hash_reset`. -/
  | clearing (op : Clearing.Op)
deriving DecidableEq, Repr

def addPacket (m : MainLoop) (packet : PacketRef) : MainLoop :=
  { m with clearing := { m.clearing with scheduler := m.clearing.scheduler.addPacket packet } }

/-- `cmd->call(cmd->args)`. What is left of `Cache_clear` follows. -/
def call (m : MainLoop) (cmd : SysCmd) : MainLoop × List Use :=
  match cmd.type with
  | .cacheClear => ({ m with clearing := .start m.clearing.scheduler }, [])
  | .cacheShow => (m, (cmd.shown m.clearing.scheduler.cache).toList.map .shown)
  | .status => (m, [])
  | .help => (m, [])

def handle (m : MainLoop) : Option Outcome → MainLoop × List Use
  | some (.packet _) => ((m.station.returned.map m.addPacket).getD m, [])
  | some (.sysCmd cmd) => m.call cmd
  | _ => (m, [])

/-- The loop waits for the end of a `cache clear`, and for ever in a call that does not
return. An interrupt during any other call may as well come before it. -/
def step (m : MainLoop) : Op → MainLoop × List Use
  | .receive => ({ m with station := (m.station.step .receive).1 }, [])
  | .read null =>
    if m.clearing.done < cacheAddrSize then (m, [])
    else
      match Station.ioRead null m.station with
      | .ok (outcome, station) => { m with station }.handle outcome
      | .error _ => (m, [])
  | .clearing op =>
    let next := m.clearing.step op
    ({ m with clearing := next.1 }, next.2.map .event)

def shown (m : MainLoop) (null : Bool) : Option PacketRef :=
  match Station.ioRead null m.station with
  | .ok (some (.sysCmd cmd), _) => cmd.shown m.clearing.scheduler.cache
  | _ => none

def Returns (m : MainLoop) (null : Bool) (ref : PacketRef) : Prop :=
  ∃ packet station, Station.ioRead null m.station = .ok (some (.packet packet), station) ∧
    station.returned = some ref

/-- After the three `module_init`. The idle packet is the first to be made. -/
def start (memory : Scheduler.Memory) (buf : Vector Char 50) (wire : List Rx) : MainLoop :=
  { station := { Station.start buf wire with created := 1 }
    clearing := { scheduler := .moduleInit memory, done := cacheAddrSize } }

end MainLoop

namespace Clearing
variable {c : Clearing}

@[simp] theorem step_idlePacket (c : Clearing) (op : Op) :
    (c.step op).1.scheduler.idlePacket = c.scheduler.idlePacket := by
  cases op with
  | tick => exact Scheduler.step_idlePacket c.scheduler .tick
  | resetEntry =>
    unfold step
    dsimp only
    split
    · rfl
    · rfl

theorem resetEntry_occupants {cache : Cache} {i : Fin cacheAddrSize}
    (member : packet ∈ (Hash.resetEntry Cache.callbacks (cache.packets, []) i).1.values) :
    packet ∈ cache.occupants := by
  obtain ⟨key, j, stored⟩ := (Hash.mem_values _).mp member
  rw [Hash.resetEntry_table] at stored
  split at stored
  · contradiction
  · exact (Hash.mem_values _).mpr ⟨key, j, stored⟩

/-- What is held after a step was held before. -/
theorem step_stock (member : packet ∈ (c.step op).1.scheduler.stock) :
    packet ∈ c.scheduler.stock := by
  cases op with
  | tick =>
    have kept : packet ∈ c.scheduler.stock ∨ packet ∈ Scheduler.added [.tick] :=
      Scheduler.step_stock_mem member
    rcases kept with held | new
    · exact held
    · cases new
  | resetEntry =>
    unfold step at member
    dsimp only at member
    split at member
    · rcases List.mem_append.mp member with before | cached
      · exact List.mem_append_left _ before
      · exact List.mem_append_right _ (resetEntry_occupants cached)
    · exact member

theorem step_event_mem (logged : event ∈ (c.step op).2) :
    event.packet ∈ c.scheduler.stock ∨ event = .signalSend c.scheduler.idlePacket := by
  cases op with
  | tick =>
    have ticked : event ∈ (Scheduler.step c.scheduler .tick).2 := logged
    exact Scheduler.step_event_mem ticked
  | resetEntry =>
    unfold step at logged
    dsimp only at logged
    split at logged
    · rename_i inside
      have destroyed : event ∈ (c.scheduler.cache.packets.entries[c.done].v.toList.map
          Dcc.Event.packetDestroy) := by
        simpa [Hash.resetEntry, Cache.hashEntryDestroy_eq] using logged
      obtain ⟨packet, stored, rfl⟩ := List.mem_map.mp destroyed
      apply Or.inl
      apply List.mem_append_right
      exact Hash.stored_mem_values (i := ⟨c.done, inside⟩) (Option.mem_toList.mp stored)
    · contradiction

end Clearing

namespace MainLoop
variable {m : MainLoop}

theorem shown_mem_occupants (printed : m.shown null = some packet) :
    packet ∈ m.clearing.scheduler.cache.occupants := by
  unfold shown at printed
  split at printed
  · unfold SysCmd.shown at printed
    split at printed
    · rw [Option.join_eq_some_iff] at printed
      obtain ⟨slot, -, found⟩ := Option.bind_eq_some_iff.mp printed
      exact Cache.get_mem_occupants (Option.some.inj found)
    · contradiction
  · contradiction

/-- Reading a line uses no packet but the one that is printed. -/
theorem step_read_uses (m : MainLoop) (null : Bool) : (m.step (.read null)).2 =
    if m.clearing.done < cacheAddrSize then [] else (m.shown null).toList.map .shown := by
  unfold step shown
  dsimp only
  split
  · rfl
  · cases read : Station.ioRead null m.station with
    | error fault => rfl
    | ok pair =>
      obtain ⟨outcome, station⟩ := pair
      rcases outcome with _ | packet | ⟨type, args⟩ | - | fault
      · rfl
      · rfl
      · cases type <;> rfl
      · rfl
      · rfl

/-- The idle packet and those that the scheduler holds are all of a kind. -/
structure Holds (P : PacketRef → Prop) (m : MainLoop) : Prop where
  idle : P m.clearing.scheduler.idlePacket
  stock : ∀ packet ∈ m.clearing.scheduler.stock, P packet

variable {P : PacketRef → Prop}

theorem Holds.read (holds : Holds P m) (null : Bool) (returned : ∀ ref, m.Returns null ref → P ref) :
    Holds P (m.step (.read null)).1 := by
  unfold step
  dsimp only
  split
  · exact holds
  · cases read : Station.ioRead null m.station with
    | error fault => exact holds
    | ok pair =>
      obtain ⟨outcome, station⟩ := pair
      rcases outcome with _ | packet | ⟨type, args⟩ | - | fault
      · exact ⟨holds.idle, holds.stock⟩
      · cases made : station.returned with
        | none =>
          simp only [handle, made]
          exact ⟨holds.idle, holds.stock⟩
        | some ref =>
          simp only [handle, made]
          refine ⟨holds.idle, fun other member => ?_⟩
          have kept : other ∈ m.clearing.scheduler.stock ∨ other ∈ Scheduler.added [.addPacket ref] :=
            Scheduler.step_stock_mem member
          rcases kept with before | new
          · exact holds.stock other before
          · rw [List.mem_singleton.mp new]
            exact returned ref ⟨packet, station, read, made⟩
      · cases type <;> exact ⟨holds.idle, holds.stock⟩
      · exact ⟨holds.idle, holds.stock⟩
      · exact ⟨holds.idle, holds.stock⟩

theorem Holds.clearing (holds : Holds P m) (op : Clearing.Op) :
    Holds P (m.step (.clearing op)).1 ∧ ∀ use ∈ (m.step (.clearing op)).2, P use.packet := by
  refine ⟨⟨?_, fun packet member => holds.stock packet (Clearing.step_stock member)⟩, ?_⟩
  · rw [step, Clearing.step_idlePacket]
    exact holds.idle
  · intro use member
    obtain ⟨event, logged, rfl⟩ := List.mem_map.mp member
    rcases Clearing.step_event_mem logged with held | rfl
    · exact holds.stock _ held
    · exact holds.idle

theorem holds_start (memory : Scheduler.Memory) (buf : Vector Char 50) (wire : List Rx)
    (idle : P Scheduler.idle) : Holds P (start memory buf wire) := by
  refine ⟨idle, fun packet member => ?_⟩
  rw [start, Scheduler.stock_moduleInit] at member
  cases member

end MainLoop
end Freedcc
