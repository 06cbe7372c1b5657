import Freedcc.CacheProofs
import Freedcc.Lib.Inventory
import Freedcc.Scheduler

/-! What one step of the scheduler does to the packets it holds: every event of
a step, and where each packet is before and after it. -/
namespace Freedcc
open Dcc

namespace Cache

abbrev occupants (cache : Cache) : List PacketRef := cache.packets.values

theorem get_mem_occupants {cache : Cache} (found : cache.get key = some packet) :
    packet ∈ cache.occupants := Hash.get_mem_values found

theorem next_mem_occupants {cache : Cache} (next : cache.getNextPacket.1 = some packet) :
    packet ∈ cache.occupants := by
  unfold getNextPacket at next
  split at next
  · contradiction
  · exact get_mem_occupants next

theorem occupants_turn (cache : Cache) : cache.getNextPacket.2.occupants = cache.occupants := by
  rw [occupants, getNextPacket_packets]

theorem occupants_of_empty {cache : Cache} (table : cache.packets.table = fun _ => none) :
    cache.occupants = [] := by
  apply List.eq_nil_iff_forall_not_mem.mpr
  intro packet member
  obtain ⟨key, i, stored⟩ := (Hash.mem_values _).mp member
  rw [table] at stored
  contradiction

/-- Storing a packet gives up the one its address was answered with. -/
theorem update_occupants (cache : Cache) (packet : PacketRef) (trace : Trace) :
    ((cache.update packet trace).1.occupants ++ (cache.get (address packet)).toList).Perm
      (cache.occupants ++ [packet]) :=
  Hash.values_insert_perm callbacks_decides (by decide) _ (address_nonneg packet) packet trace

theorem hashEntryDestroy_eq (entry : Hash.Entry Int PacketRef) (trace : Trace) :
    callbacks.destroy entry trace =
      ({ entry with v := none }, trace ++ entry.v.toList.map Event.packetDestroy) := by
  obtain ⟨k, v⟩ := entry
  cases v <;> simp [callbacks, hashEntryDestroy, packetDestroy]

theorem update_trace (cache : Cache) (packet : PacketRef) (trace : Trace) :
    (cache.update packet trace).2 =
      trace ++ (cache.get (address packet)).toList.map Event.packetDestroy := by
  have found : Hash.findEntry callbacks cache.packets (address packet) = some _ :=
    Hash.findEntry_eq callbacks_decides (by decide) cache.packets (address_nonneg packet)
  simp only [update, Hash.insert, get, Hash.get, found, bind, Option.bind_some,
    hashEntryDestroy_eq]
  split
  · rfl
  · rename_i free
    simp only [Option.not_isSome_iff_eq_none.mp free, Option.toList_none, List.map_nil,
      List.append_nil]

theorem callbacks_notes : callbacks.Notes (id : Trace → Trace) Event.packetDestroy := by
  intro entry trace
  rw [hashEntryDestroy_eq]
  rfl

theorem clear_trace (cache : Cache) (trace : Trace) :
    (cache.clear trace).2 = trace ++ cache.occupants.map Event.packetDestroy := by
  have noted := Hash.reset_noted callbacks_notes cache.packets trace
  simp only [id] at noted
  rw [clear, noted]

end Cache

namespace Dcc.Event

def packet : Event → PacketRef
  | .signalSend packet => packet
  | .cacheUpdate packet => packet
  | .packetDestroy packet => packet

def destroyed : Event → Option PacketRef
  | .packetDestroy packet => some packet
  | _ => none

@[simp] theorem destroyed_signalSend (packet : PacketRef) :
    destroyed (.signalSend packet) = none := rfl

@[simp] theorem destroyed_cacheUpdate (packet : PacketRef) :
    destroyed (.cacheUpdate packet) = none := rfl

@[simp] theorem destroyed_packetDestroy (packet : PacketRef) :
    destroyed (.packetDestroy packet) = some packet := rfl

theorem destroyed_eq_some {event : Event} {packet : PacketRef} :
    event.destroyed = some packet ↔ event = .packetDestroy packet := by
  cases event <;> simp [destroyed]

@[simp] theorem filterMap_destroyed (packets : List PacketRef) :
    (packets.map Event.packetDestroy).filterMap destroyed = packets := by
  rw [List.filterMap_map]
  exact List.filterMap_some

end Dcc.Event

namespace Scheduler

/-- Everything one timer tick can do. -/
inductive Ticked (s s' : Scheduler) (events : Trace) : Prop
  | dequeueStop (tx : PacketRef) (trace : Trace)
      (queue : s.txQueue.contents = tx :: s'.txQueue.contents)
      (stops : isBroadcastStop tx.packet = true)
      (stopPacket : s'.stopPacket = some tx)
      (cache : s'.cache = (s.cache.clear trace).1)
      (events : events = .signalSend tx ::
        (s.stopPacket.toList ++ s.cache.occupants).map Event.packetDestroy)
  | dequeuePacket (tx : PacketRef) (trace : Trace)
      (queue : s.txQueue.contents = tx :: s'.txQueue.contents)
      (moves : isBroadcastStop tx.packet = false)
      (stopPacket : s'.stopPacket = none)
      (cache : s'.cache = (s.cache.update tx trace).1)
      (events : events = .signalSend tx :: (s.stopPacket.toList.map Event.packetDestroy ++
        .cacheUpdate tx :: (s.cache.get (Cache.address tx)).toList.map Event.packetDestroy))
  | repeatStop (stop : PacketRef)
      (queue : s.txQueue.contents = [])
      (stored : s.stopPacket = some stop)
      (same : s' = s)
      (events : events = [.signalSend stop])
  | refresh
      (queue : s.txQueue.contents = [])
      (stored : s.stopPacket = none)
      (turned : s' = { s with cache := s.cache.getNextPacket.2 })
      (events : events = [.signalSend (s.cache.getNextPacket.1.getD s.idlePacket)])

theorem ticked (s : Scheduler) : Ticked s (step s .tick).1 (step s .tick).2 := by
  by_cases pending : s.txQueue.count > 0
  · have queue := Ring.contents_pop s.txQueue pending
    cases stops : isBroadcastStop s.txQueue.pop.1.packet with
    | true =>
      cases stored : s.stopPacket <;>
        exact .dequeueStop s.txQueue.pop.1 _
          (by simpa [step, timer0CompaVect, pending, stops] using queue) stops
          (by simp [step, timer0CompaVect, pending, stops, stored])
          (by simp [step, timer0CompaVect, pending, stops, stored]; rfl)
          (by simp [step, timer0CompaVect, pending, stops, stored, packetDestroy, Cache.clear_trace])
    | false =>
      cases stored : s.stopPacket <;>
        exact .dequeuePacket s.txQueue.pop.1 _
          (by simpa [step, timer0CompaVect, pending, stops] using queue) stops
          (by simp [step, timer0CompaVect, pending, stops, stored])
          (by simp [step, timer0CompaVect, pending, stops, stored]; rfl)
          (by simp [step, timer0CompaVect, pending, stops, stored, packetDestroy, Cache.update_trace])
  · have queue : s.txQueue.contents = [] := (Ring.contents_eq_nil _).mpr (by omega)
    cases stored : s.stopPacket with
    | some stop =>
      exact .repeatStop stop queue stored (by simp [step, timer0CompaVect, pending, stored])
        (by simp [step, timer0CompaVect, pending, stored])
    | none =>
      exact .refresh queue stored (by simp [step, timer0CompaVect, pending, stored])
        (by simp [step, timer0CompaVect, pending, stored])

@[simp] theorem step_idlePacket (s : Scheduler) (op : Op) :
    (step s op).1.idlePacket = s.idlePacket := by
  cases op with
  | addPacket packet => rfl
  | tick =>
    simp only [step, timer0CompaVect]
    repeat' split
    all_goals rfl
  | cacheClear => rfl

theorem step_valid (valid : s.cache.Valid) (op : Op) : (step s op).1.cache.Valid := by
  cases op with
  | addPacket packet => exact valid
  | cacheClear => exact Cache.valid_clear _ _
  | tick =>
    rcases s.ticked with ⟨tx, trace, -, -, -, cache, -⟩ | ⟨tx, trace, -, -, -, cache, -⟩ |
      ⟨stop, -, -, same, -⟩ | ⟨-, -, turned, -⟩
    · rw [cache]
      exact Cache.valid_clear _ _
    · rw [cache]
      exact valid.update tx trace
    · rw [same]
      exact valid
    · rw [turned]
      exact valid.getNextPacket

/-- The packets in the scheduler's hands: queued, held as the stop packet, cached. -/
def stock (s : Scheduler) : List PacketRef :=
  s.txQueue.contents ++ s.stopPacket.toList ++ s.cache.occupants

theorem stock_moduleInit (memory : Memory) : stock (moduleInit memory) = [] := by
  have cache : (moduleInit memory).cache.occupants = [] :=
    Cache.occupants_of_empty (Hash.table_create memory.packets)
  simp only [stock, cache]
  rfl

/-- Packets are neither made nor lost: each is handed on or destroyed. -/
theorem step_stock (s : Scheduler) (op : Op) (room : Room (step s op).1) :
    (stock (step s op).1 ++ (step s op).2.filterMap Event.destroyed).Perm
      (stock s ++ added [op]) := by
  cases op with
  | addPacket packet =>
    have queue : (s.txQueue.push packet).contents = s.txQueue.contents ++ [packet] :=
      Ring.contents_push _ _ room
    simp only [step, addPacket, stock, queue, added, List.filterMap_nil, List.filterMap_cons,
      List.append_nil, List.append_assoc]
    exact (List.Perm.append_left _ (List.perm_append_comm.trans (by simp)))
  | cacheClear =>
    have emptied := Cache.occupants_of_empty (Cache.clear_table s.cache [])
    simp [step, stock, emptied, Cache.clear_trace, added, List.filterMap_map, Function.comp_def]
  | tick =>
    rcases s.ticked with ⟨tx, trace, queue, -, stop, cache, events⟩ |
      ⟨tx, trace, queue, -, stop, cache, events⟩ | ⟨stop, -, -, same, events⟩ |
      ⟨-, -, turned, events⟩
    · have emptied := Cache.occupants_of_empty (Cache.clear_table s.cache trace)
      simp only [stock, queue, stop, cache, emptied, events, added, List.filterMap_cons,
        Event.destroyed_signalSend, Event.filterMap_destroyed, Option.toList_some,
        List.filterMap_nil, List.append_nil, List.append_assoc, List.cons_append]
      exact List.perm_middle
    · have moved := (Cache.update_occupants s.cache tx trace).append_left
        ((step s .tick).1.txQueue.contents ++ s.stopPacket.toList)
      simp only [stock, queue, stop, cache, events, added, List.filterMap_cons,
        List.filterMap_append, Event.destroyed_signalSend, Event.destroyed_cacheUpdate,
        Event.filterMap_destroyed, Option.toList_none, List.filterMap_nil, List.append_nil,
        List.append_assoc, List.cons_append] at moved ⊢
      -- the packet an update gives up stands where the table stands after it
      refine (List.Perm.append_left _ (List.perm_append_comm_assoc _ _ _)).trans (moved.trans ?_)
      rw [← List.append_assoc, ← List.append_assoc, List.append_assoc _ _ s.cache.occupants]
      exact List.perm_append_comm
    · rw [same, events]
      simp [added, List.filterMap_cons]
    · have kept := s.cache.occupants_turn
      rw [turned, events]
      simp [stock, kept, added, List.filterMap_cons]

/-- What is held after a step was held before or is new, even if the queue overflows. -/
theorem step_stock_mem (member : packet ∈ stock (step s op).1) :
    packet ∈ stock s ∨ packet ∈ added [op] := by
  simp only [stock, List.mem_append, Option.mem_toList] at member ⊢
  cases op with
  | addPacket new =>
    rcases member with (queued | held) | cached
    · rcases Ring.mem_contents_push s.txQueue new queued with rfl | old
      · exact Or.inr List.mem_cons_self
      · exact Or.inl (Or.inl (Or.inl old))
    · exact Or.inl (Or.inl (Or.inr held))
    · exact Or.inl (Or.inr cached)
  | cacheClear =>
    have emptied : (step s .cacheClear).1.cache.occupants = [] :=
      Cache.occupants_of_empty (Cache.clear_table s.cache [])
    rw [emptied] at member
    rcases member with before | cached
    · exact Or.inl (Or.inl before)
    · cases cached
  | tick =>
    apply Or.inl
    rcases s.ticked with ⟨tx, trace, queue, -, stop, cache, -⟩ |
      ⟨tx, trace, queue, -, stop, cache, -⟩ | ⟨stop, -, -, same, -⟩ | ⟨-, -, turned, -⟩
    · rw [stop, cache, Cache.occupants_of_empty (Cache.clear_table s.cache trace)] at member
      rcases member with (queued | held) | cached
      · exact Or.inl (Or.inl (queue ▸ List.mem_cons_of_mem tx queued))
      · exact Or.inl (Or.inl (queue ▸ Option.some.inj held ▸ List.mem_cons_self))
      · cases cached
    · rw [stop, cache] at member
      rcases member with (queued | held) | cached
      · exact Or.inl (Or.inl (queue ▸ List.mem_cons_of_mem tx queued))
      · cases held
      · have moved := (Cache.update_occupants s.cache tx trace).subset (List.mem_append_left _ cached)
        rcases List.mem_append.mp moved with before | new
        · exact Or.inr before
        · exact Or.inl (Or.inl (queue ▸ List.mem_singleton.mp new ▸ List.mem_cons_self))
    · rwa [same] at member
    · rw [turned] at member
      rcases member with before | cached
      · exact Or.inl before
      · exact Or.inr (s.cache.occupants_turn ▸ cached)

theorem added_append (xs ys : List Op) : added (xs ++ ys) = added xs ++ added ys :=
  List.filterMap_append

/-- A step only touches packets in the scheduler's hands, and sends the idle packet. -/
theorem step_event_mem (logged : event ∈ (step s op).2) :
    event.packet ∈ stock s ∨ event = .signalSend s.idlePacket := by
  cases op with
  | addPacket packet => simp [step] at logged
  | cacheClear =>
    simp only [step, Cache.clear_trace, List.nil_append, List.mem_map] at logged
    obtain ⟨packet, member, rfl⟩ := logged
    exact Or.inl (List.mem_append_right _ member)
  | tick =>
    rcases s.ticked with ⟨tx, trace, queue, -, -, -, events⟩ |
      ⟨tx, trace, queue, -, -, -, events⟩ | ⟨stop, -, stored, -, events⟩ | ⟨-, -, -, events⟩
    · rw [events] at logged
      simp only [List.mem_cons, List.mem_map] at logged
      apply Or.inl
      rcases logged with rfl | ⟨packet, member, rfl⟩
      · simp [stock, queue, Event.packet]
      · rw [stock, List.append_assoc]
        exact List.mem_append_right _ member
    · rw [events] at logged
      simp only [List.mem_cons, List.mem_append, List.mem_map, Option.mem_toList] at logged
      apply Or.inl
      rcases logged with rfl | ⟨packet, member, rfl⟩ | rfl | ⟨packet, found, rfl⟩
      · simp [stock, queue, Event.packet]
      · simp [stock, member, Event.packet]
      · simp [stock, queue, Event.packet]
      · exact List.mem_append_right _ (Cache.get_mem_occupants found)
    · rw [events, List.mem_singleton] at logged
      subst logged
      exact Or.inl (by simp [stock, stored, Event.packet])
    · rw [events, List.mem_singleton] at logged
      subst logged
      cases next : s.cache.getNextPacket.1 with
      | none => exact Or.inr rfl
      | some packet =>
        exact Or.inl (List.mem_append_right _ (Cache.next_mem_occupants next))

/-- No event of a run comes after the destruction of its packet. -/
abbrev Alive : Event → Event → Prop := Inventory.Alive Event.packet Event.destroyed

theorem alive_destroys {packets : List PacketRef} (distinct : packets.Nodup) :
    (packets.map Event.packetDestroy).Pairwise Alive := by
  refine List.pairwise_map.mpr (distinct.imp ?_)
  intro a b other same
  exact other (Option.some.inj same)

/-- Within a step nothing is used after its destruction. -/
theorem step_alive (distinct : (stock s).Nodup) : (step s op).2.Pairwise Alive := by
  cases op with
  | addPacket packet => exact .nil
  | cacheClear =>
    simp only [step, Cache.clear_trace, List.nil_append]
    exact alive_destroys (List.nodup_append.mp distinct).2.1
  | tick =>
    rcases s.ticked with ⟨tx, trace, queue, -, -, -, events⟩ |
      ⟨tx, trace, queue, -, -, -, events⟩ | ⟨stop, -, stored, -, events⟩ | ⟨-, -, -, events⟩
    · rw [events]
      rw [stock, List.append_assoc] at distinct
      refine List.pairwise_cons.mpr ⟨?_, alive_destroys (List.nodup_append.mp distinct).2.1⟩
      simp [Alive]
    · rw [events]
      rw [stock, queue, List.append_assoc, List.nodup_append] at distinct
      obtain ⟨-, held, apart⟩ := distinct
      obtain ⟨-, -, elsewhere⟩ := List.nodup_append.mp held
      have other : ∀ packet ∈ s.stopPacket.toList, packet ≠ tx := fun packet member same =>
        apart tx List.mem_cons_self packet (List.mem_append_left _ member) same.symm
      have older : ∀ packet ∈ s.stopPacket.toList,
          ∀ old ∈ (s.cache.get (Cache.address tx)).toList, packet ≠ old := by
        intro packet member old found
        apply elsewhere packet member old
        exact Cache.get_mem_occupants (Option.mem_toList.mp found)
      cases stop : s.stopPacket <;> cases found : s.cache.get (Cache.address tx) <;>
        simp_all [Event.packet]
    · rw [events]
      exact List.pairwise_singleton _ _
    · rw [events]
      exact List.pairwise_singleton _ _

/-- A step on the books. -/
theorem step_turn (s : Scheduler) (op : Op) (room : Room (step s op).1) :
    Inventory.Turn Event.packet Event.destroyed s.idlePacket (stock s) (added [op])
      (stock (step s op).1) (step s op).2 := by
  refine ⟨step_stock s op room, fun event logged => ?_, step_alive⟩
  refine (step_event_mem logged).imp_right ?_
  rintro rfl
  rfl

/-- The queue is first in, first out. -/
theorem step_queue (s : Scheduler) (op : Op) (room : Room (step s op).1) :
    ∃ gone, s.txQueue.contents ++ added [op] = gone ++ (step s op).1.txQueue.contents := by
  cases op with
  | addPacket packet => exact ⟨[], (Ring.contents_push _ _ room).symm⟩
  | cacheClear => exact ⟨[], List.append_nil _⟩
  | tick =>
    rcases s.ticked with ⟨tx, trace, queue, -, -, -, -⟩ | ⟨tx, trace, queue, -, -, -, -⟩ |
      ⟨stop, -, -, same, -⟩ | ⟨-, -, turned, -⟩
    · exact ⟨[tx], by simp [queue, added]⟩
    · exact ⟨[tx], by simp [queue, added]⟩
    · exact ⟨[], by simp [same, added]⟩
    · exact ⟨[], by simp [turned, added]⟩

end Scheduler
end Freedcc
