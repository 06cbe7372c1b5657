import Freedcc.SchedulerProofs
import Freedcc.Lib.Run

/-! Who owns a packet, over whole runs: added packets are in one place or
destroyed, and a dequeued broadcast stop ends the life of everything before it. -/
namespace Freedcc.Scheduler
open Dcc

/-- The books of a run that never overfills the queue. -/
structure Ledger (ops : List Op) (s : Scheduler) (log : Trace) : Prop where
  valid : s.cache.Valid
  idle : s.idlePacket = idle
  order : ∃ gone, added ops = gone ++ s.txQueue.contents
  books : Inventory.Books Event.packet Event.destroyed Scheduler.idle (added ops) (stock s) log

theorem ledger_empty (memory : Memory) : Ledger [] (moduleInit memory) [] := by
  refine ⟨Cache.valid_moduleInit _ _, rfl, ⟨[], rfl⟩, ?_⟩
  rw [stock_moduleInit]
  exact Inventory.books_nil

theorem Ledger.grows (ledger : Ledger ops s log) (op : Op) (room : Room (step s op).1) :
    Ledger (ops ++ [op]) (step s op).1 (log ++ (step s op).2) := by
  have more := added_append ops [op]
  refine ⟨step_valid ledger.valid op, ?_, ?_, ?_⟩
  · rw [step_idlePacket, ledger.idle]
  · obtain ⟨gone, queued⟩ := ledger.order
    obtain ⟨left, turned⟩ := step_queue s op room
    refine ⟨gone ++ left, ?_⟩
    rw [more, queued, List.append_assoc, turned, List.append_assoc]
  · rw [more]
    exact ledger.books.turn (ledger.idle ▸ step_turn s op room)

theorem ledger (memory : Memory) (room : Run.Always step Room (moduleInit memory) ops) :
    Ledger ops (Run.final step (moduleInit memory) ops) (Run.log step (moduleInit memory) ops) :=
  room.history (ledger_empty memory) fun _ _ _ op _ next ledger => ledger.grows op next

/-- How many of the scheduler's places hold a packet: positions of the transmit
queue, the stop slot, slots of the cache. -/
def places (s : Scheduler) (packet : PacketRef) : Nat :=
  s.txQueue.contents.count packet + (if s.stopPacket = some packet then 1 else 0) +
    s.cache.packets.entries.toList.countP fun entry => entry.v = some packet

theorem places_eq_count (s : Scheduler) (packet : PacketRef) :
    places s packet = (stock s).count packet := by
  have slots : s.cache.occupants.count packet =
      s.cache.packets.entries.toList.countP fun entry => entry.v = some packet := by
    rw [Cache.occupants, Hash.values, List.count, List.countP_filterMap]
    apply List.countP_congr
    intro entry _
    cases entry.v <;> simp
  have slot : s.stopPacket.toList.count packet = if s.stopPacket = some packet then 1 else 0 := by
    cases s.stopPacket <;> simp [List.count_singleton]
  simp only [places, stock, List.count_append, slot, slots]

/-- Every added packet is in exactly one place or destroyed, and nothing happens
to a packet after its destruction. -/
theorem packets_owned (memory : Memory) (ops : List Op) (distinct : (idle :: added ops).Nodup)
    (room : Run.Always step Room (moduleInit memory) ops) :
    (∀ packet ∈ added ops,
      places (Run.final step (moduleInit memory) ops) packet +
        (Run.log step (moduleInit memory) ops).count (.packetDestroy packet) = 1) ∧
    (Run.log step (moduleInit memory) ops).Pairwise
      (fun earlier later => earlier ≠ .packetDestroy later.packet) ∧
    .packetDestroy idle ∉ Run.log step (moduleInit memory) ops := by
  have books := (ledger memory room).books
  refine ⟨fun packet member => ?_, ?_, fun logged => ?_⟩
  · rw [places_eq_count, ← Inventory.count_gone Event.destroyed_eq_some]
    exact books.once (List.nodup_cons.mp distinct).2 member
  · exact (books.alive distinct).imp fun alive same => alive (Event.destroyed_eq_some.mpr same)
  · exact books.own_kept distinct (List.mem_filterMap.mpr ⟨_, logged, rfl⟩)

theorem packets_owned_outing :
    (∀ packet ∈ added outing,
      places (Run.final step (moduleInit .zero) outing) packet +
        (Run.log step (moduleInit .zero) outing).count (.packetDestroy packet) = 1) ∧
    (Run.log step (moduleInit .zero) outing).Pairwise
      (fun earlier later => earlier ≠ .packetDestroy later.packet) ∧
    .packetDestroy idle ∉ Run.log step (moduleInit .zero) outing :=
  packets_owned .zero outing (by decide +kernel) (by decide +kernel)

end Freedcc.Scheduler
