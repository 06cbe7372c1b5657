import Freedcc.SchedulerProofs
import Freedcc.Lib.Run

/-! What the scheduler is for: send new packets first come first served, hold a
broadcast stop, and otherwise refresh the locos in turn. The code's queue, ring,
hash table and stop pointer implement this as long as the cache is not
overloaded. -/
namespace Freedcc
open Dcc

/-- Pending packets, the stop packet being held, and the rota of locos. -/
structure Refresh where
  pending : List PacketRef
  stop : Option PacketRef
  rota : List (Int × PacketRef)

namespace Refresh

def start : Refresh := { pending := [], stop := none, rota := [] }

def tick (r : Refresh) : Refresh × PacketRef :=
  match r.pending, r.stop with
  | tx :: rest, _ =>
    if isBroadcastStop tx.packet then ({ pending := rest, stop := some tx, rota := [] }, tx)
    else ({ pending := rest, stop := none
            rota := Rotation.upsert (Cache.address tx) tx r.rota }, tx)
  | [], some stop => (r, stop)
  | [], none =>
    let served := Rotation.serve r.rota
    ({ r with rota := served.2 }, served.1.getD Scheduler.idle)

def step (r : Refresh) : Scheduler.Op → Refresh × List PacketRef
  | .addPacket packet => ({ r with pending := r.pending ++ [packet] }, [])
  | .tick => (r.tick.1, [r.tick.2])
  | .cacheClear => ({ r with rota := [] }, [])

end Refresh

namespace Scheduler

/-- A scheduler watched for the addresses dequeued since the last clear or stop. -/
structure Watch where
  scheduler : Scheduler
  recent : List Int

def Watch.start (memory : Memory) : Watch := { scheduler := moduleInit memory, recent := [] }

def Watch.step (w : Watch) (op : Op) : Watch × List Event :=
  let next := Scheduler.step w.scheduler op
  let recent :=
    match op with
    | .addPacket _ => w.recent
    | .cacheClear => []
    | .tick =>
      match w.scheduler.txQueue.contents with
      | [] => w.recent
      | tx :: _ => if isBroadcastStop tx.packet then [] else Cache.address tx :: w.recent
  ({ scheduler := next.1, recent }, next.2)

/-- No more addresses have come up than the cache has slots. -/
def Watch.Bounded (w : Watch) : Prop := w.recent.toFinset.card ≤ cacheAddrSize

instance : DecidablePred Watch.Bounded := fun _ => inferInstanceAs (Decidable (_ ≤ _))

/-- Nor is the queue overfilled. -/
def Watch.Within (w : Watch) : Prop := Room w.scheduler ∧ w.Bounded

instance : DecidablePred Watch.Within := fun _ => inferInstanceAs (Decidable (_ ≤ _ ∧ _ ≤ _))

theorem Watch.log_step (w : Watch) (ops : List Op) :
    Run.log Watch.step w ops = Run.log Scheduler.step w.scheduler ops := by
  induction ops generalizing w with
  | nil => rfl
  | cons op rest ih => exact congrArg ((Scheduler.step w.scheduler op).2 ++ ·) (ih _)

structure Refines (w : Watch) (r : Refresh) : Prop where
  queue : w.scheduler.txQueue.contents = r.pending
  stop : w.scheduler.stopPacket = r.stop
  idle : w.scheduler.idlePacket = idle
  tracks : w.scheduler.cache.Tracks r.rota
  recent : ∀ key, key ∈ w.recent ↔ key ∈ Rotation.keys r.rota

theorem refines_start (memory : Memory) : Refines (Watch.start memory) Refresh.start := by
  refine ⟨rfl, rfl, rfl, ?_, ?_⟩
  · exact Cache.tracks_of_empty (Ring.contents_create _ _) (Hash.table_create _)
  · simp [Watch.start, Refresh.start, Rotation.keys]

theorem Refines.tick (refines : Refines w r) (bound : (w.step .tick).1.Bounded) :
    Refines (w.step .tick).1 (Refresh.step r .tick).1 ∧
      (w.step .tick).2.filterMap sent = (Refresh.step r .tick).2 := by
  obtain ⟨waiting, stop, rota⟩ := r
  obtain ⟨queue, stopped, idle, tracks, recent⟩ := refines
  have kept := step_idlePacket w.scheduler .tick
  rcases w.scheduler.ticked with ⟨tx, trace, pending, stops, stored, cache, events⟩ |
    ⟨tx, trace, pending, moves, stored, cache, events⟩ | ⟨held, pending, stored, same, events⟩ |
    ⟨pending, stored, turned, events⟩
  · obtain rfl : waiting = _ := queue.symm.trans pending
    simp only [Refresh.step, Refresh.tick, stops, if_true]
    refine ⟨⟨rfl, stored, kept.trans idle, ?_, ?_⟩, ?_⟩
    · simp only [Watch.step, cache]
      exact Cache.tracks_of_empty (Ring.contents_reset _) (Cache.clear_table _ _)
    · simp [Watch.step, pending, stops, Rotation.keys]
    · simp [Watch.step, events, sent]
  · obtain rfl : waiting = _ := queue.symm.trans pending
    have next : (w.step .tick).1.recent = Cache.address tx :: w.recent := by
      simp [Watch.step, pending, moves]
    have room := (tracks.kept_iff recent tx).mp (next ▸ bound)
    simp only [Refresh.step, Refresh.tick, moves, Bool.false_eq_true, if_false]
    refine ⟨⟨rfl, stored, kept.trans idle, ?_, ?_⟩, ?_⟩
    · simp only [Watch.step, cache]
      exact tracks.update room
    · intro key
      rw [next, Rotation.mem_keys_upsert, List.mem_cons, recent]
    · simp [Watch.step, events, sent]
  · obtain rfl : waiting = [] := queue.symm.trans pending
    obtain rfl : stop = some held := stopped.symm.trans stored
    have recents : (w.step .tick).1.recent = w.recent := by simp [Watch.step, pending]
    simp only [Refresh.step, Refresh.tick]
    refine ⟨⟨?_, ?_, ?_, ?_, ?_⟩, ?_⟩
    · simp [Watch.step, same, pending]
    · simp [Watch.step, same, stored]
    · simp [Watch.step, same, idle]
    · simpa [Watch.step, same] using tracks
    · rw [recents]
      exact recent
    · simp [Watch.step, events, sent]
  · obtain rfl : waiting = [] := queue.symm.trans pending
    obtain rfl : stop = none := stopped.symm.trans stored
    have recents : (w.step .tick).1.recent = w.recent := by simp [Watch.step, pending]
    obtain ⟨served, rotated⟩ := tracks.getNextPacket
    simp only [Refresh.step, Refresh.tick]
    refine ⟨⟨?_, ?_, ?_, ?_, ?_⟩, ?_⟩
    · simp [Watch.step, turned, pending]
    · simp [Watch.step, turned, stored]
    · simp [Watch.step, turned, idle]
    · simpa [Watch.step, turned] using rotated
    · intro key
      rw [recents, recent, Rotation.mem_keys_serve]
    · simp [Watch.step, events, served, idle, sent]

theorem Refines.cacheClear (refines : Refines w r) :
    Refines (w.step .cacheClear).1 (Refresh.step r .cacheClear).1 ∧
      (w.step .cacheClear).2.filterMap sent = (Refresh.step r .cacheClear).2 := by
  obtain ⟨queue, stop, idle, tracks, recent⟩ := refines
  refine ⟨⟨queue, stop, idle, ?_, ?_⟩, ?_⟩
  · exact Cache.tracks_of_empty (Ring.contents_reset _) (Cache.clear_table _ _)
  · simp [Watch.step, Refresh.step, Rotation.keys]
  · simp [Watch.step, Scheduler.step, Cache.clear_trace, Refresh.step, sent]

theorem Refines.step (refines : Refines w r) (op : Op) (within : (w.step op).1.Within) :
    Refines (w.step op).1 (Refresh.step r op).1 ∧
      (w.step op).2.filterMap sent = (Refresh.step r op).2 := by
  cases op with
  | addPacket packet =>
    obtain ⟨queue, stop, idle, tracks, recent⟩ := refines
    refine ⟨⟨?_, stop, idle, tracks, recent⟩, rfl⟩
    exact (Ring.contents_push _ _ within.1).trans (congrArg (· ++ [packet]) queue)
  | tick => exact refines.tick within.2
  | cacheClear => exact refines.cacheClear

/-- The packets sent are those of the abstract scheduler. -/
theorem scheduler_refines (memory : Memory) (ops : List Op)
    (within : Run.Always Watch.step Watch.Within (Watch.start memory) ops) :
    (Run.log Scheduler.step (moduleInit memory) ops).filterMap sent =
      Run.log Refresh.step Refresh.start ops := by
  have simulated := Run.simulation sent (R := Refines)
    (fun w r op refines _ next => refines.step op next) (refines_start memory) within
  rw [← simulated.2, Watch.log_step]
  rfl

theorem scheduler_refines_outing :
    (Run.log Scheduler.step (moduleInit .zero) (outing ++ [.tick, .tick, .cacheClear, .tick])).filterMap
        sent =
      Run.log Refresh.step Refresh.start (outing ++ [.tick, .tick, .cacheClear, .tick]) :=
  scheduler_refines .zero _ (by decide +kernel)

end Scheduler
end Freedcc
