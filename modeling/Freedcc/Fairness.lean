import Freedcc.Refresh

/-! No loco is forgotten. Between two packets for it there are at most as many refreshes
as locos are known, however many packets for others come in between. -/
namespace Freedcc
open Dcc

namespace Refresh

/-- A stop is held for no loco. -/
def Idle (r : Refresh) : Prop := r.stop.isSome → r.rota = []

theorem idle_start : Idle start := fun _ => rfl

theorem Idle.step {r : Refresh} (idle : Idle r) (op : Scheduler.Op) : Idle (r.step op).1 := by
  obtain ⟨pending, stop, rota⟩ := r
  cases op with
  | addPacket packet => exact idle
  | cacheClear => exact fun _ => rfl
  | tick =>
    cases pending with
    | cons tx rest =>
      simp only [Refresh.step, Refresh.tick]
      split
      · exact fun _ => rfl
      · exact fun held => absurd held (by simp)
    | nil =>
      cases stop with
      | some stop => exact idle
      | none => exact fun held => absurd held (by simp [Refresh.step, Refresh.tick])

end Refresh

namespace Scheduler

/-- What may happen without a word about the loco: anything but a clear, a stop for
every loco and a packet for this one. -/
def Spares (key : Int) (s : Scheduler) : Op → Prop
  | .addPacket _ => True
  | .tick => ∀ tx ∈ s.txQueue.contents.head?,
      isBroadcastStop tx.packet = false ∧ Cache.address tx ≠ key
  | .cacheClear => False

instance (key : Int) (s : Scheduler) : DecidablePred (Spares key s)
  | .addPacket _ => isTrue trivial
  | .tick => inferInstanceAs (Decidable (∀ _, _))
  | .cacheClear => isFalse id

/-- A tick that finds no packet waiting. -/
def refreshes (s : Scheduler) : Op → Bool
  | .tick => s.txQueue.count = 0
  | _ => false

def refreshCount (s : Scheduler) : List Op → Nat
  | [] => 0
  | op :: ops => (s.refreshes op).toNat + refreshCount (step s op).1 ops

variable {w : Watch} {r : Refresh}

theorem Refines.occupant (refines : Refines w r) (member : ref ∈ w.scheduler.cache.occupants) :
    (Cache.address ref, ref) ∈ r.rota := by
  obtain ⟨key, holds⟩ := (Hash.mem_values _).mp member
  obtain rfl := refines.tracks.valid.keyed key ref holds
  exact (refines.tracks.table _ _).mp holds

theorem sent_signalSend {events : List Event} (member : ref ∈ events.filterMap sent) :
    .signalSend ref ∈ events := by
  obtain ⟨event, logged, out⟩ := List.mem_filterMap.mp member
  cases event with
  | signalSend other =>
    obtain rfl := Option.some.inj out
    exact logged
  | cacheUpdate | packetDestroy => contradiction

/-- What is lost of an overfilled queue does not show in the rota. -/
theorem Refines.queued (refines : Refines w r) (op : Op) (bound : (w.step op).1.Bounded) :
    ∃ pending, Refines (w.step op).1 { (r.step op).1 with pending } ∧
      (w.step op).2.filterMap sent = (r.step op).2 := by
  cases op with
  | addPacket packet =>
    exact ⟨_, ⟨rfl, refines.stop, refines.idle, refines.tracks, refines.recent⟩, rfl⟩
  | tick => exact ⟨_, refines.tick bound⟩
  | cacheClear => exact ⟨_, refines.cacheClear⟩

/-- The packet is sent, or one fewer is served before it if this was a refresh. -/
theorem refreshed_step (op : Op) (refines : Refines w r) (idle : r.Idle)
    (sends : (w.step op).2.filterMap sent = (r.step op).2)
    (waits : Rotation.Waits count (Cache.address ref) ref r.rota)
    (spares : Spares (Cache.address ref) w.scheduler op) :
    .signalSend ref ∈ (step w.scheduler op).2 ∨
      ∃ left, Rotation.Waits left (Cache.address ref) ref (r.step op).1.rota ∧
        count = left + (w.scheduler.refreshes op).toNat := by
  cases op with
  | addPacket packet => exact Or.inr ⟨count, waits, rfl⟩
  | cacheClear => exact absurd spares id
  | tick =>
    obtain ⟨pending, stop, rota⟩ := r
    have queue : w.scheduler.txQueue.contents = pending := refines.queue
    cases pending with
    | cons tx more =>
      obtain ⟨moves, other⟩ := spares tx (by rw [queue]; rfl)
      have filled : w.scheduler.txQueue.count ≠ 0 := by
        rw [← Ring.contents_length, queue]
        exact Nat.succ_ne_zero _
      have rota : (Refresh.step ⟨tx :: more, stop, rota⟩ .tick).1.rota =
          Rotation.upsert (Cache.address tx) tx rota := by
        simp [Refresh.step, Refresh.tick, moves]
      apply Or.inr
      exact ⟨count, rota ▸ waits.upsert other tx, by simp [refreshes, filled]⟩
    | nil =>
      have empty : w.scheduler.txQueue.count = 0 := (Ring.contents_eq_nil _).mp queue
      cases stop with
      | some held =>
        -- the loco would have to be in a rota that is empty
        obtain ⟨front, back, split, -⟩ := waits
        rw [idle rfl] at split
        simp at split
      | none =>
        cases count with
        | zero =>
          apply Or.inl
          apply sent_signalSend
          change ref ∈ (w.step .tick).2.filterMap sent
          rw [sends]
          simp [Refresh.step, Refresh.tick, waits.served]
        | succ left =>
          apply Or.inr
          exact ⟨left, waits.serve, by simp [refreshes, empty]⟩

/-- A packet that so many are served before. -/
theorem refreshed_run (ops : List Op) (refines : Refines w r) (idle : r.Idle)
    (bounded : Run.Always Watch.step Watch.Bounded w ops)
    (waits : Rotation.Waits count (Cache.address ref) ref r.rota)
    (spares : Run.Along step (Spares (Cache.address ref)) w.scheduler ops)
    (enough : count < w.scheduler.refreshCount ops) :
    .signalSend ref ∈ Run.log step w.scheduler ops := by
  induction ops generalizing w r count with
  | nil => exact absurd enough (Nat.not_lt_zero _)
  | cons op rest ih =>
    obtain ⟨-, later⟩ := Run.always_cons.mp bounded
    obtain ⟨here, spares⟩ := spares
    obtain ⟨pending, after, sends⟩ := refines.queued op later.first
    rw [Run.log, List.mem_append]
    rcases refreshed_step op refines idle sends waits here with sent | ⟨left, next, fewer⟩
    · exact Or.inl sent
    · apply Or.inr
      apply ih after (idle.step op) later next spares
      rw [refreshCount] at enough
      change left < (step w.scheduler op).1.refreshCount rest
      omega

theorem Watch.final_step (w : Watch) (ops : List Op) :
    (Run.final Watch.step w ops).scheduler = Run.final Scheduler.step w.scheduler ops := by
  induction ops generalizing w with
  | nil => rfl
  | cons op rest ih => exact ih _

theorem Refines.size (refines : Refines w r) :
    w.scheduler.cache.reportCurrentSize = r.rota.length := by
  rw [Cache.reportCurrentSize, ← Ring.contents_length, refines.tracks.ring, Rotation.keys,
    List.length_map]

/-- Whatever else is driven, as long as the cache has a slot for it: a loco is sent its
packet again before so many ticks have found nothing new to send as there are locos in
the cache, unless it is sent another, every loco is stopped or the cache is cleared. -/
theorem loco_refreshed (memory : Memory) (before after : List Op)
    (bounded : Run.Always Watch.step Watch.Bounded (Watch.start memory) (before ++ after))
    (ref : PacketRef)
    (driven : ref ∈ (Run.final step (moduleInit memory) before).cache.occupants)
    (spares : Run.Along step (Spares (Cache.address ref)) (Run.final step (moduleInit memory) before)
      after)
    (enough : (Run.final step (moduleInit memory) before).cache.reportCurrentSize ≤
      (Run.final step (moduleInit memory) before).refreshCount after) :
    .signalSend ref ∈ Run.log step (Run.final step (moduleInit memory) before) after := by
  obtain ⟨first, later⟩ := Run.always_append.mp bounded
  have kept : Run.Always Watch.step (fun w => ∃ r : Refresh, Refines w r ∧ r.Idle)
      (Watch.start memory) before := by
    apply first.invariant (I := fun w => ∃ r : Refresh, Refines w r ∧ r.Idle)
    · rintro w op - next ⟨r, refines, idle⟩
      obtain ⟨pending, after, -⟩ := refines.queued op next
      exact ⟨_, after, idle.step op⟩
    · exact ⟨_, refines_start memory, Refresh.idle_start⟩
  obtain ⟨r, refines, idle⟩ := kept.last
  have same : (Run.final Watch.step (Watch.start memory) before).scheduler =
      Run.final step (moduleInit memory) before := Watch.final_step _ before
  rw [← same] at driven spares enough ⊢
  obtain ⟨count, below, waits⟩ := Rotation.waits_of_mem (refines.occupant driven)
  rw [refines.size] at enough
  exact refreshed_run after refines idle later waits spares (Nat.lt_of_lt_of_le below enough)

/-- Loco 3 is refreshed in spite of an order for loco 5. -/
theorem loco_refreshed_outing :
    .signalSend ⟨1, setAddress baselinePacketCreate 3⟩ ∈
      Run.log step (Run.final step (moduleInit .zero)
        [.addPacket ⟨1, setAddress baselinePacketCreate 3⟩, .tick])
          [.addPacket ⟨2, setAddress baselinePacketCreate 5⟩, .tick, .tick] :=
  loco_refreshed .zero [.addPacket ⟨1, setAddress baselinePacketCreate 3⟩, .tick]
    [.addPacket ⟨2, setAddress baselinePacketCreate 5⟩, .tick, .tick] (by decide +kernel)
    ⟨1, setAddress baselinePacketCreate 3⟩ (by decide +kernel) (by decide +kernel) (by decide +kernel)

end Scheduler
end Freedcc
