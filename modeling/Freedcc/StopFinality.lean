import Freedcc.Ownership

/-! A dequeued broadcast stop is final: the transmit queue, the cache ring, stale
keys, an earlier stop packet and an overloaded table all lose what came before. -/
namespace Freedcc.Scheduler
open Dcc

/-- None of these ticks finds a pending packet. -/
def Quiet (s : Scheduler) : List Op → Prop
  | [] => True
  | op :: rest => (op = .tick → s.txQueue.count = 0) ∧ Quiet (step s op).1 rest

theorem step_stopPacket (quiet : op = .tick → s.txQueue.count = 0)
    (stored : s.stopPacket = some stop) : (step s op).1.stopPacket = some stop := by
  cases op with
  | addPacket packet => exact stored
  | cacheClear => exact stored
  | tick =>
    have queue := (Ring.contents_eq_nil _).mpr (quiet rfl)
    rcases s.ticked with ⟨tx, trace, pending, -, -, -, -⟩ | ⟨tx, trace, pending, -, -, -, -⟩ |
      ⟨other, -, -, same, -⟩ | ⟨-, missing, -, -⟩
    · rw [queue] at pending
      contradiction
    · rw [queue] at pending
      contradiction
    · rw [same]
      exact stored
    · rw [missing] at stored
      contradiction

theorem quiet_stopPacket {ops : List Op} (stored : s.stopPacket = some stop) (quiet : Quiet s ops) :
    (Run.final step s ops).stopPacket = some stop := by
  induction ops generalizing s with
  | nil => exact stored
  | cons op rest ih => exact ih (step_stopPacket quiet.1 stored) quiet.2

theorem quiet_append : Quiet s (xs ++ ys) ↔ Quiet s xs ∧ Quiet (Run.final step s xs) ys := by
  induction xs generalizing s with
  | nil => simp [Quiet, Run.final]
  | cons op rest ih => simp only [List.cons_append, Quiet, ih, Run.final, and_assoc]

/-- With nothing pending the stop packet is what a tick sends. -/
theorem tick_repeats (stored : s.stopPacket = some stop) (empty : s.txQueue.count = 0) :
    (step s .tick).2 = [.signalSend stop] := by
  simp [step, timer0CompaVect, empty, stored]

/-- A packet the scheduler does not hold is not heard of until it is added. -/
theorem untouched {ops : List Op} (valid : s.cache.Valid)
    (room : Run.Always step Room s ops) (absent : packet ∉ s.idlePacket :: stock s ++ added ops) :
    ∀ event ∈ Run.log step s ops, event.packet ≠ packet := by
  induction ops generalizing s with
  | nil => simp [Run.log]
  | cons op rest ih =>
    have more := added_append [op] rest
    rw [List.singleton_append] at more
    rw [more, List.cons_append, List.mem_cons, List.mem_append, List.mem_append, not_or, not_or,
      not_or] at absent
    obtain ⟨unidle, unstocked, unadded, later⟩ := absent
    obtain ⟨-, roomLater⟩ := Run.always_cons.mp room
    intro event logged
    rcases List.mem_append.mp logged with now | future
    · rcases step_event_mem now with member | rfl
      · exact fun same => unstocked (same ▸ member)
      · exact fun same => unidle same.symm
    · refine ih (step_valid valid op) roomLater ?_ event future
      have moved := (step_stock s op roomLater.first).subset
      rw [step_idlePacket, List.cons_append, List.mem_cons, List.mem_append, not_or, not_or]
      refine ⟨unidle, fun member => ?_, later⟩
      rcases List.mem_append.mp (moved (List.mem_append_left _ member)) with old | new
      · exact unstocked old
      · exact unadded new

/-- Dequeuing a broadcast stop leaves it and the packets queued behind it. -/
theorem tick_stops (head : s.txQueue.contents = stop :: pending)
    (stops : isBroadcastStop stop.packet = true) :
    stock (step s .tick).1 = pending ++ [stop] ∧ (step s .tick).1.stopPacket = some stop ∧
      (step s .tick).2.filterMap sent = [stop] := by
  rcases s.ticked with ⟨tx, trace, queue, -, stored, cache, events⟩ |
    ⟨tx, trace, queue, moves, -, -, -⟩ | ⟨other, queue, -, -, -⟩ | ⟨queue, -, -, -⟩
  · obtain ⟨rfl, behind⟩ := List.cons.inj (head.symm.trans queue)
    have emptied := Cache.occupants_of_empty (Cache.clear_table s.cache trace)
    refine ⟨?_, stored, ?_⟩
    · rw [stock, ← behind, stored, cache, emptied, List.append_nil]
      rfl
    · rw [events, List.filterMap_cons, List.filterMap_map]
      simp [sent, Function.comp_def]
  · obtain ⟨rfl, -⟩ := List.cons.inj (head.symm.trans queue)
    rw [stops] at moves
    contradiction
  · rw [head] at queue
    contradiction
  · rw [head] at queue
    contradiction

/-- Once a tick has dequeued a broadcast stop, no packet added before it is sent
again, and every tick before the next dequeue sends the stop. -/
theorem broadcast_stop_final (memory : Memory) (before after : List Op)
    (stop : PacketRef) (pending : List PacketRef)
    (distinct : (idle :: added (before ++ after)).Nodup)
    (room : Run.Always step Room (moduleInit memory) (before ++ .tick :: after))
    (head : (Run.final step (moduleInit memory) before).txQueue.contents = stop :: pending)
    (stops : isBroadcastStop stop.packet = true) :
    (∀ earlier later, added before = earlier ++ stop :: later → ∀ packet ∈ earlier,
      .signalSend packet ∉
        Run.log step (Run.final step (moduleInit memory) before) (.tick :: after)) ∧
    (∀ next, next ++ [.tick] <+: after →
      Quiet (Run.final step (moduleInit memory) (before ++ [.tick])) (next ++ [.tick]) →
      (step (Run.final step (moduleInit memory) (before ++ [.tick] ++ next)) .tick).2 =
        [.signalSend stop]) := by
  obtain ⟨roomBefore, roomLater⟩ := Run.always_append.mp room
  obtain ⟨-, roomAfter⟩ := Run.always_cons.mp roomLater
  have books := ledger memory roomBefore
  simp only [Run.final_append, Run.final]
  generalize Run.final step (moduleInit memory) before = s at *
  obtain ⟨left, stored, first⟩ := tick_stops head stops
  constructor
  · intro earlier later split packet member logged
    rw [added_append, split, List.append_assoc, List.cons_append] at distinct
    obtain ⟨unidle, owned⟩ := List.nodup_cons.mp distinct
    obtain ⟨-, behind, apart⟩ := List.nodup_append.mp owned
    have gone : packet ∉ stop :: (later ++ added after) :=
      fun again => apart packet member packet again rfl
    rw [List.mem_cons, List.mem_append, not_or, not_or] at gone
    have queued : pending = later := by
      obtain ⟨front, order⟩ := books.order
      have unique : stop ∉ earlier := fun again => apart stop again stop List.mem_cons_self rfl
      have last : stop ∉ later :=
        fun again => (List.nodup_cons.mp behind).1 (List.mem_append_left _ again)
      rw [split, head, List.append_cons_inj_of_notMem unique last] at order
      exact order.2.2.symm
    rcases List.mem_append.mp logged with now | future
    · have sending : packet ∈ (step s .tick).2.filterMap sent :=
        List.mem_filterMap.mpr ⟨_, now, rfl⟩
      rw [first, List.mem_singleton] at sending
      exact gone.1 sending
    · refine untouched (step_valid books.valid .tick) roomAfter ?_ _ future rfl
      rw [step_idlePacket, books.idle, left, queued]
      simp only [List.cons_append, List.mem_cons, List.mem_append, List.not_mem_nil, or_false,
        not_or]
      refine ⟨?_, ⟨gone.2.1, gone.1⟩, gone.2.2⟩
      rintro rfl
      exact unidle (List.mem_append_left _ member)
  · intro next _ quiet
    obtain ⟨before, last⟩ := quiet_append.mp quiet
    exact tick_repeats (quiet_stopPacket stored before) (last.1 rfl)

theorem broadcast_stop_final_outing :
    (∀ earlier later,
      added outing = earlier ++ ⟨3, specialEmergencyStopPacket baselinePacketCreate⟩ :: later →
      ∀ packet ∈ earlier, .signalSend packet ∉
        Run.log step (Run.final step (moduleInit .zero) outing) (.tick :: [.cacheClear, .tick])) ∧
    (∀ next, next ++ [.tick] <+: [.cacheClear, .tick] →
      Quiet (Run.final step (moduleInit .zero) (outing ++ [.tick])) (next ++ [.tick]) →
      (step (Run.final step (moduleInit .zero) (outing ++ [.tick] ++ next)) .tick).2 =
        [.signalSend ⟨3, specialEmergencyStopPacket baselinePacketCreate⟩]) :=
  broadcast_stop_final .zero outing [.cacheClear, .tick] _ [] (by decide +kernel)
    (by decide +kernel) (by decide +kernel) (by decide +kernel)

end Freedcc.Scheduler
