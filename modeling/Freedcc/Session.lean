import Freedcc.Dispatcher
import Freedcc.Listening

/-! A session at the desk. The program does what the station of its user does: it
writes the same on the screen and sends the same to the track. -/
namespace Freedcc
open Dcc Console OpenAddressing

namespace Cache

abbrev orders (rota : List (Nat × Request)) : List (Int × Packet) :=
  Rotation.view Int.ofNat (·.frame.packet) rota

theorem orders_upsert (request : Request) (rota : List (Nat × Request)) :
    orders (Rotation.upsert request.loco request rota) =
      Rotation.upsert (Int.ofNat request.loco) request.frame.packet (orders rota) :=
  Rotation.view_upsert Int.ofNat_injective _ _ _

theorem mem_orders {rota : List (Nat × Request)} : (key, packet) ∈ orders rota ↔
    ∃ n request, (n, request) ∈ rota ∧ key = Int.ofNat n ∧ packet = request.frame.packet := by
  simp only [orders, Rotation.view, List.mem_map, Prod.exists, Prod.map_apply, Prod.mk.injEq]
  constructor
  · rintro ⟨n, request, member, rfl, rfl⟩
    exact ⟨n, request, member, rfl, rfl⟩
  · rintro ⟨n, request, member, rfl, rfl⟩
    exact ⟨n, request, member, rfl, rfl⟩

theorem mem_view_packet {refs : List (Int × PacketRef)} :
    (key, packet) ∈ Rotation.view id (·.packet) refs ↔ ∃ ref, (key, ref) ∈ refs ∧ packet = ref.packet := by
  simp only [Rotation.view, List.mem_map, Prod.exists, Prod.map_apply, Prod.mk.injEq, id]
  constructor
  · rintro ⟨n, ref, member, rfl, rfl⟩
    exact ⟨ref, member, rfl⟩
  · rintro ⟨ref, member, rfl⟩
    exact ⟨key, ref, member, rfl, rfl⟩

/-- The cache against a rota of orders when `Hash_reset` has been over `done` slots. -/
inductive Shows (cache : Cache) : Nat → List (Nat × Request) → Prop where
  | whole {refs : List (Int × PacketRef)} {rota : List (Nat × Request)} (tracks : cache.Tracks refs)
      (same : Rotation.view id (·.packet) refs = orders rota) : Shows cache cacheAddrSize rota
  | emptying {done : Nat} (busy : done < cacheAddrSize) (ring : cache.addresses.contents = [])
      (low : ∀ s : Fin cacheAddrSize, s.val < done → cache.packets.table s = none) :
      Shows cache done []

variable {cache : Cache} {done : Nat} {rota : List (Nat × Request)}

theorem shows_empty (within : done ≤ cacheAddrSize) (ring : cache.addresses.contents = [])
    (low : ∀ s : Fin cacheAddrSize, s.val < done → cache.packets.table s = none) :
    cache.Shows done [] := by
  rcases Nat.lt_or_eq_of_le within with busy | rfl
  · exact .emptying busy ring low
  · exact .whole (tracks_of_empty ring (funext fun s => low s s.isLt)) rfl

theorem Shows.within (shows : cache.Shows done rota) : done ≤ cacheAddrSize := by
  cases shows with
  | whole => exact Nat.le_refl _
  | emptying busy => exact Nat.le_of_lt busy

theorem Shows.clear (shows : cache.Shows done rota) (trace : Trace) :
    (cache.clear trace).1.Shows done [] := by
  apply shows_empty shows.within (Ring.contents_reset _)
  rw [clear_table]
  exact fun _ _ => rfl

/-- Fewer locos than slots leave one free. -/
theorem Tracks.not_full {refs : List (Int × PacketRef)} (tracks : cache.Tracks refs)
    (room : refs.length < cacheAddrSize) : ¬ Full cache.packets.table := by
  intro full
  have slots := tracks.valid.settled.card_le full (Rotation.keys refs).toFinset
    (fun key stored => List.mem_toFinset.mpr (tracks.present.mp stored))
  rw [List.toFinset_card_of_nodup tracks.distinct, Rotation.keys, List.length_map,
    Fintype.card_fin] at slots
  omega

theorem Shows.update (shows : cache.Shows cacheAddrSize rota) {request : Request} {ref : PacketRef}
    (packet : ref.packet = request.frame.packet)
    (room : (Rotation.upsert request.loco request rota).length ≤ cacheAddrSize) (trace : Trace) :
    (cache.update ref trace).1.Shows cacheAddrSize (Rotation.upsert request.loco request rota) := by
  generalize all : cacheAddrSize = size at shows room ⊢
  cases shows with
  | emptying busy => exact absurd (all ▸ busy) (Nat.lt_irrefl _)
  | @whole refs _ tracks same =>
    have address : address ref = Int.ofNat request.loco := Request.address packet
    have view : Rotation.view id (·.packet) (Rotation.upsert (Cache.address ref) ref refs) =
        orders (Rotation.upsert request.loco request rota) := by
      rw [Rotation.view_upsert Function.injective_id, same, orders_upsert, packet, address]
      rfl
    refine .whole (tracks.update ?_) view
    by_cases known : Cache.address ref ∈ Rotation.keys refs
    · exact Or.inr (tracks.present.mpr known)
    · apply Or.inl
      apply tracks.not_full
      have length := congrArg List.length view
      rw [Rotation.length_view, Rotation.length_view, Rotation.length_upsert, if_neg known] at length
      omega

theorem Shows.turn (shows : cache.Shows done rota) :
    cache.getNextPacket.1.map (·.packet) = (Rotation.serve rota).1.map (·.frame.packet) ∧
      cache.getNextPacket.2.Shows done (Rotation.serve rota).2 := by
  cases shows with
  | @whole refs _ tracks same =>
    obtain ⟨served, turned⟩ := tracks.getNextPacket
    have both : Rotation.serve (Rotation.view id (·.packet) refs) = Rotation.serve (orders rota) :=
      congrArg Rotation.serve same
    rw [Rotation.serve_view, Rotation.serve_view, Prod.mk.injEq] at both
    rw [served]
    exact ⟨both.1, .whole turned both.2⟩
  | emptying busy ring low =>
    rw [getNextPacket_empty ((Ring.contents_eq_nil _).mp ring)]
    exact ⟨rfl, .emptying busy ring low⟩

theorem Shows.size (shows : cache.Shows cacheAddrSize rota) : cache.reportCurrentSize = rota.length := by
  generalize all : cacheAddrSize = size at shows
  cases shows with
  | emptying busy => exact absurd (all ▸ busy) (Nat.lt_irrefl _)
  | whole tracks same =>
    have length := congrArg List.length same
    rw [Rotation.length_view, Rotation.length_view] at length
    rw [reportCurrentSize, ← Ring.contents_length, tracks.ring, Rotation.keys, List.length_map, length]

/-- `cache clear` begins with the ring. -/
theorem Shows.start (cache : Cache) : Shows { cache with addresses := cache.addresses.reset } 0 [] :=
  .emptying (by decide) (Ring.contents_reset _) fun s below => absurd below (Nat.not_lt_zero _)

theorem Shows.resetEntry (shows : cache.Shows done rota) (inside : done < cacheAddrSize) :
    rota = [] ∧ Shows { cache with packets :=
      (Hash.resetEntry callbacks (cache.packets, []) ⟨done, inside⟩).1 } (done + 1) [] := by
  cases shows with
  | whole => exact absurd inside (Nat.lt_irrefl _)
  | emptying busy ring low =>
    refine ⟨rfl, shows_empty inside ring fun s below => ?_⟩
    rw [Hash.resetEntry_table]
    by_cases here : s = ⟨done, inside⟩
    · exact if_pos here
    · rw [if_neg here]
      have apart : s.val ≠ done := fun same => here (Fin.ext same)
      exact low s (by omega)

theorem toInt_small (small : n < 2 ^ 15) : (BitVec.ofNat 16 n).toInt = n := by
  have kept : (BitVec.ofNat 16 n).toNat = n := by
    rw [BitVec.toNat_ofNat]
    omega
  rw [BitVec.toInt_eq_toNat_of_lt (by omega), kept]

section Told
variable {refs : List (Int × PacketRef)} (same : Rotation.view id (·.packet) refs = orders rota)
include same

/-- The locos with orders have packets, and `cache show` is safe where one slot is free. -/
theorem Tracks.answerable (tracks : cache.Tracks refs) (small : n < 2 ^ 15)
    (answerable : n ∈ Rotation.keys rota ∨ rota.length < cacheAddrSize) : cache.Answerable n := by
  rcases answerable with known | room
  · obtain ⟨pair, member, rfl⟩ := List.mem_map.mp known
    have here : (Int.ofNat pair.1, pair.2.frame.packet) ∈ orders rota :=
      mem_orders.mpr ⟨_, _, member, rfl, rfl⟩
    rw [← same] at here
    obtain ⟨ref, stored, -⟩ := mem_view_packet.mp here
    exact Or.inl (tracks.valid.cached.mpr ⟨ref, (tracks.table _ _).mpr stored⟩)
  · by_cases cached : Cached cache n
    · exact Or.inl cached
    · have length := congrArg List.length same
      rw [Rotation.length_view, Rotation.length_view] at length
      have free := (not_full_iff cache).mp (tracks.not_full (length ▸ room))
      apply Or.inr
      rw [toInt_small small]
      exact ⟨Or.inl (Int.natCast_nonneg n), cached, free⟩

/-- The packet in the table is that of the order in the rota. -/
theorem lookup_told {n : Nat} {reported : Option PacketRef}
    (told : ∀ ref, reported = some ref ↔ ((n : Int), ref) ∈ refs) :
    reported.map (·.packet) = (rota.lookup n).map (·.frame.packet) := by
  cases found : rota.lookup n with
  | some request =>
    obtain ⟨before, after, split, -⟩ := List.lookup_eq_some_iff.mp found
    have here : (Int.ofNat n, request.frame.packet) ∈ orders rota :=
      mem_orders.mpr ⟨n, request, by simp [split], rfl, rfl⟩
    rw [← same] at here
    obtain ⟨ref, stored, packet⟩ := mem_view_packet.mp here
    rw [(told ref).mpr stored, Option.map_some, Option.map_some, packet]
  | none =>
    cases reported with
    | none => rfl
    | some ref =>
      have here : ((n : Int), ref.packet) ∈ Rotation.view id (·.packet) refs :=
        mem_view_packet.mpr ⟨ref, (told ref).mp rfl, rfl⟩
      rw [same] at here
      obtain ⟨m, request, member, key, -⟩ := mem_orders.mp here
      have other := List.lookup_eq_none_iff.mp found _ member
      rw [Int.ofNat_inj.mp key] at other
      simp at other

end Told

/-- `cache show` tells of the last order for the loco. -/
theorem Shows.shown (shows : cache.Shows cacheAddrSize rota) (small : n < 2 ^ 15)
    (answerable : n ∈ Rotation.keys rota ∨ rota.length < cacheAddrSize) :
    (sysCmdCacheShow cache (BitVec.ofNat 16 n)).join.map (·.packet) =
      (rota.lookup n).map (·.frame.packet) := by
  generalize all : cacheAddrSize = size at shows answerable
  cases shows with
  | emptying busy => exact absurd (all ▸ busy) (Nat.lt_irrefl _)
  | @whole refs _ tracks same =>
    obtain ⟨reported, shown, truth⟩ :=
      (tracks.valid.truthful_iff n).mpr (tracks.answerable same small answerable)
    rw [shown, Option.join_some]
    apply lookup_told same
    intro ref
    rw [truth, tracks.valid.holds, tracks.table]

/-- The answer of `cache show`. -/
theorem Shows.answers {d : Dispatcher} (shows : cache.Shows cacheAddrSize d.rota)
    (small : n < 2 ^ 15)
    (answerable : n ∈ Rotation.keys d.rota ∨ d.rota.length < cacheAddrSize) :
    Sys.cmdCacheShow cache (BitVec.ofNat 16 n) = d.shown n := by
  have same := shows.shown small answerable
  unfold Sys.cmdCacheShow Dispatcher.shown
  cases found : (sysCmdCacheShow cache (BitVec.ofNat 16 n)).join with
  | none =>
    rw [found, Option.map_none] at same
    rw [Option.map_eq_none_iff.mp same.symm]
  | some ref =>
    rw [found, Option.map_some] at same
    obtain ⟨request, driven, packet⟩ := Option.map_eq_some_iff.mp same.symm
    rw [driven]
    exact congrArg (Sys.packetDetails _) packet.symm

end Cache

namespace Scheduler

/-- The scheduler against the orders of the user. -/
structure Serves (s : Scheduler) (done : Nat) (pending : List Request) (stop : Option Request)
    (rota : List (Nat × Request)) : Prop where
  queue : s.txQueue.contents.map (·.packet) = pending.map (·.frame.packet)
  stop : s.stopPacket.map (·.packet) = stop.map (·.frame.packet)
  idle : s.idlePacket = idle
  cache : s.cache.Shows done rota

variable {s : Scheduler} {d : Dispatcher} {done : Nat}

theorem Serves.add (serves : s.Serves done d.pending d.stop d.rota) {ref : PacketRef} {request : Request}
    (packet : ref.packet = request.frame.packet) (room : d.pending.length < schedulerTxQueueLen) :
    (s.addPacket ref).Serves done (d.pending ++ [request]) d.stop d.rota := by
  have count : s.txQueue.count < schedulerTxQueueLen := by
    have length := congrArg List.length serves.queue
    rw [List.length_map, List.length_map, Ring.contents_length] at length
    omega
  refine ⟨?_, serves.stop, serves.idle, serves.cache⟩
  have pushed : (s.addPacket ref).txQueue.contents = s.txQueue.contents ++ [ref] :=
    Ring.contents_push _ _ count
  rw [pushed, List.map_append, List.map_append, serves.queue, List.map_singleton, packet]
  rfl

/-- The first packet that waits is that of the first order that waits. -/
theorem Serves.due {pending : List Request} {stop : Option Request} {rota : List (Nat × Request)}
    (serves : s.Serves done pending stop rota) (waits : s.txQueue.contents = tx :: more) :
    ∃ request rest, pending = request :: rest ∧ request.frame.packet = tx.packet ∧
      more.map (·.packet) = rest.map (·.frame.packet) ∧
      request.everywhere = isBroadcastStop tx.packet := by
  have queue := serves.queue
  rw [waits, List.map_cons] at queue
  obtain ⟨request, rest, split, packet, behind⟩ := List.map_eq_cons_iff.mp queue.symm
  exact ⟨request, rest, split, packet, behind.symm, by rw [← packet, request.stops]⟩

theorem Serves.none_due {pending : List Request} {stop : Option Request}
    {rota : List (Nat × Request)} (serves : s.Serves done pending stop rota)
    (empty : s.txQueue.contents = []) : pending = [] := by
  have queue := serves.queue
  rw [empty] at queue
  exact List.map_eq_nil_iff.mp queue.symm

/-- With nothing to refresh it is the idle packet. -/
theorem refresh_packet {next : Option PacketRef} {due : Option Request}
    (same : next.map (·.packet) = due.map (·.frame.packet)) :
    (next.getD Scheduler.idle).packet = Dispatcher.packet due := by
  cases due with
  | none =>
    rw [Option.map_none, Option.map_eq_none_iff] at same
    rw [same]
    rfl
  | some request =>
    obtain ⟨ref, rfl, packet⟩ := Option.map_eq_some_iff.mp same
    exact packet

/-- A tick sends the packet of the order that is due. -/
theorem Serves.tick (serves : s.Serves done d.pending d.stop d.rota)
    (fit : ∀ request ∈ d.pending.head?, request.everywhere = false → done = cacheAddrSize ∧
      (Rotation.upsert request.loco request d.rota).length ≤ cacheAddrSize) :
    (step s .tick).1.Serves done d.tick.1.pending d.tick.1.stop d.tick.1.rota ∧
      ((step s .tick).2.filterMap sent).map (·.packet) = [Dispatcher.packet d.tick.2] := by
  have idle : (step s .tick).1.idlePacket = Scheduler.idle := (step_idlePacket s .tick).trans serves.idle
  rcases s.ticked with ⟨tx, trace, waits, stops, stored, turned, events⟩ |
    ⟨tx, trace, waits, moves, stored, turned, events⟩ | ⟨held, empty, stored, same, events⟩ |
    ⟨empty, stored, turned, events⟩
  · obtain ⟨request, rest, pending, packet, behind, everywhere⟩ := serves.due waits
    rw [Dispatcher.tick_everywhere pending (everywhere.trans stops), events, Dispatcher.packet, packet]
    constructor
    · apply Serves.mk behind _ idle
      · rw [turned]
        exact serves.cache.clear trace
      · rw [stored]
        exact congrArg some packet.symm
    · simp [sent]
  · obtain ⟨request, rest, pending, packet, behind, everywhere⟩ := serves.due waits
    have one := everywhere.trans moves
    obtain ⟨whole, room⟩ := fit request (by rw [pending]; rfl) one
    subst whole
    rw [Dispatcher.tick_one pending one, events, Dispatcher.packet, packet]
    constructor
    · apply Serves.mk behind _ idle
      · rw [turned]
        exact serves.cache.update packet.symm room trace
      · rw [stored]
        rfl
    · simp [sent]
  · have stop := serves.stop
    rw [stored] at stop
    obtain ⟨request, holding, packet⟩ := Option.map_eq_some_iff.mp stop.symm
    rw [Dispatcher.tick_held (serves.none_due empty) holding, same, events, Dispatcher.packet, packet]
    exact ⟨serves, rfl⟩
  · have stop := serves.stop
    rw [stored] at stop
    have free : d.stop = none := Option.map_eq_none_iff.mp stop.symm
    obtain ⟨served, rotated⟩ := serves.cache.turn
    rw [Dispatcher.tick_turn (serves.none_due empty) free, turned, events, serves.idle]
    constructor
    · exact ⟨serves.queue, serves.stop, rfl, rotated⟩
    · rw [← refresh_packet served]
      rfl

end Scheduler

namespace CommandStation
open Terminal

def Effect.packet (effect : Effect) : Option Packet := effect.sent.map (·.packet)

def Purges (purging : Option (BitVec 16)) (done : Nat) : Option (BitVec 16 × Nat) → Prop
  | none => purging = none ∧ done = cacheAddrSize
  | some (count, slots) => purging = some count ∧ 0 < slots ∧ done + slots = cacheAddrSize

/-- The program against the station of its user. -/
structure Serves (s : CommandStation) (d : Dispatcher) : Prop where
  desk : s.desk.Awaits d.script d.arrived d.left d.screen
  arrived : d.arrived ≤ (d.script.flatMap (·.line.received)).length
  blank : ∀ c ∈ d.left, c = ' ' ∨ c = '\n'
  sys : s.sys = d.sys
  scheduler : s.clearing.scheduler.Serves s.clearing.done d.pending d.stop d.rota
  purging : Purges s.purging s.clearing.done d.purging

variable {platform : Platform} {s : CommandStation} {d : Dispatcher}

theorem serves_start (memory : Scheduler.Memory) (buf : Vector Char 50) (script : List AskLine) :
    Serves (start memory buf (script.flatMap (·.line.received))) (.start script) := by
  have device : (Desk.start buf (script.flatMap (·.line.received))).Awaits script 0 [] [] :=
    ⟨rfl, rfl, rfl, rfl, rfl⟩
  have empty : (Scheduler.moduleInit memory).cache.Shows cacheAddrSize [] :=
    .whole (Cache.tracks_of_empty (Ring.contents_create _ _) (Hash.table_create _)) rfl
  exact ⟨⟨device.left, device.wire, device.arrived, device.printed, device.flush⟩, Nat.zero_le _,
    by simp [Dispatcher.start], rfl, ⟨rfl, rfl, rfl, empty⟩, rfl, rfl⟩

theorem Serves.print (serves : Serves s d) (text : List Char) : Serves (s.print text) (d.print text) :=
  ⟨serves.desk.print text, serves.arrived, serves.blank, serves.sys, serves.scheduler, serves.purging⟩

theorem Serves.account (serves : Serves s d) (change : Sys → Sys) :
    Serves (s.account change) (d.account change) :=
  ⟨serves.desk, serves.arrived, serves.blank, congrArg change serves.sys, serves.scheduler, serves.purging⟩

theorem Serves.receive (serves : Serves s d) :
    Serves (s.step platform .receive).1 (d.step platform .receive).1 :=
  ⟨serves.desk.receive, Nat.min_le_right _ _, serves.blank, serves.sys, serves.scheduler, serves.purging⟩

/-- What the user's station is doing when the loop of the program is free. -/
theorem Serves.free (serves : Serves s d) (free : d.purging = none) :
    s.clearing.done = cacheAddrSize := by
  have purging := serves.purging
  rw [free] at purging
  exact purging.2

theorem Serves.call (serves : Serves s d) (free : d.purging = none) (put : Query)
    (takes : d.Takes (.query put)) (memFree : BitVec 16) :
    Serves (s.call platform memFree put.cmd).1 (d.ask platform memFree put) ∧
      (s.call platform memFree put.cmd).2.filterMap Effect.packet = [] := by
  have shows := serves.scheduler.cache
  rw [serves.free free] at shows
  cases put with
  | help => exact ⟨(serves.print _).print _, rfl⟩
  | status =>
    have same : Sys.cmdStatus platform memFree s.sys
          (BitVec.ofNat 16 s.clearing.scheduler.cache.reportCurrentSize) =
        Sys.cmdStatus platform memFree d.sys (BitVec.ofNat 16 d.rota.length) := by
      rw [serves.sys, shows.size]
    have told := (serves.print (Sys.cmdStatus platform memFree d.sys
      (BitVec.ofNat 16 d.rota.length))).print prompt
    rw [← same] at told
    refine ⟨?_, rfl⟩
    rw [Dispatcher.ask, ← same]
    exact told
  | cacheClear =>
    refine ⟨⟨serves.desk, serves.arrived, serves.blank, serves.sys, ?_, ?_⟩, rfl⟩
    · exact ⟨serves.scheduler.queue, serves.scheduler.stop, serves.scheduler.idle, .start _⟩
    · refine ⟨congrArg some ?_, by decide, Nat.zero_add _⟩
      exact congrArg (BitVec.ofNat 16) shows.size
  | cacheShow n =>
    have same := shows.answers takes.1 takes.2
    have told := (serves.print (d.shown n)).print prompt
    rw [← same] at told
    constructor
    · rw [Dispatcher.ask, ← same]
      exact told
    · apply List.filterMap_eq_nil_iff.mpr
      intro effect member
      obtain ⟨ref, -, rfl⟩ := List.mem_map.mp member
      rfl

theorem Serves.answer (serves : Serves s d) (free : d.purging = none) (asked : Ask)
    (takes : d.Takes asked) (told : asked.Told result) (memFree : BitVec 16) :
    Serves (s.answer platform memFree (.accepted result)).1 (d.answer platform memFree asked) ∧
      (s.answer platform memFree (.accepted result)).2.filterMap Effect.packet = [] := by
  cases asked with
  | order request =>
    obtain ⟨⟨number, packet⟩, rfl, rfl⟩ := told
    have counted := (((serves.account Sys.parseOkIncrement).print "ok\n\n".toList).account
      (·.processDccTx request.frame.packet)).print prompt
    exact ⟨⟨counted.desk, counted.arrived, counted.blank, counted.sys, counted.scheduler.add rfl takes,
      counted.purging⟩, rfl⟩
  | query put =>
    subst told
    exact ((serves.account Sys.parseOkIncrement).account Sys.processSysCmd).call free put takes memFree

theorem Serves.read (serves : Serves s d) (null : Bool) (memFree : BitVec 16)
    (fit : d.Fit (.read null memFree)) :
    Serves (s.step platform (.read null memFree)).1 (d.read platform memFree) ∧
      (s.step platform (.read null memFree)).2.filterMap Effect.packet = [] := by
  cases busy : d.purging with
  | some purge =>
    have purging := serves.purging
    rw [busy] at purging
    have inside : s.clearing.done < cacheAddrSize := by
      obtain ⟨-, positive, whole⟩ := purging
      omega
    have waits : d.read platform memFree = d := by simp [Dispatcher.read, busy]
    rw [waits, step, if_pos inside]
    exact ⟨serves, rfl⟩
  | none =>
    have outside : ¬ s.clearing.done < cacheAddrSize := by
      rw [serves.free busy]
      exact Nat.lt_irrefl _
    rw [step, if_neg outside]
    have idle : ¬ d.purging.isSome := by simp [busy]
    cases serves.desk.reads serves.arrived serves.blank null with
    | nothing none read =>
      have waits : d.read platform memFree = d := by simp [Dispatcher.read, none]
      rw [read, waits]
      exact ⟨serves, rfl⟩
    | @blank c more next waiting held read after =>
      have goes : ¬ (d.purging.isSome ∨ d.arrived = 0) := not_or.mpr ⟨idle, Nat.ne_of_gt waiting⟩
      have passed : d.read platform memFree = { d with left := more }.print prompt := by
        rw [Dispatcher.read, if_neg goes, held]
      have moved : Serves { s with desk := next } { d with left := more } :=
        ⟨after, serves.arrived, fun c member => serves.blank c (by simp [held, member]),
          serves.sys, serves.scheduler, serves.purging⟩
      rw [read, passed]
      exact ⟨moved.print prompt, rfl⟩
    | @line entry rest result next waiting held lines read told after =>
      have goes : ¬ (d.purging.isSome ∨ d.arrived = 0) := not_or.mpr ⟨idle, Nat.ne_of_gt waiting⟩
      have passed : d.read platform memFree = ({ d with
          script := rest, arrived := d.arrived - entry.line.content.length
          left := entry.leaves }.print entry.line.content).answer platform memFree entry.ask := by
        rw [Dispatcher.read, if_neg goes, held, lines]
      have moved : Serves { s with desk := next } ({ d with
          script := rest, arrived := d.arrived - entry.line.content.length
          left := entry.leaves }.print entry.line.content) := by
        refine ⟨after, ?_, entry.leaves_blank, serves.sys, serves.scheduler, serves.purging⟩
        have within := serves.arrived
        rw [lines, List.flatMap_cons, List.length_append, SentLine.received_length] at within
        have shorter : d.arrived - entry.line.content.length ≤
            (rest.flatMap (·.line.received)).length := by omega
        exact shorter
      rw [read, passed]
      exact moved.answer busy entry.ask (fit busy waiting held entry (by simp [lines])) told memFree

theorem modulateAll_packets (late : Bool) (signal : Signal) (events : List Dcc.Event) :
    (modulateAll late signal events).2.filterMap Effect.packet =
      (events.filterMap Scheduler.sent).map (·.packet) := by
  rw [← modulateAll_sent late signal events, List.map_filterMap]
  rfl

theorem Serves.timer0 (serves : Serves s d) (late : Bool) (fit : d.Fit (.timer0 late)) :
    Serves (s.step platform (.timer0 late)).1 d.tick.1 ∧
      (s.step platform (.timer0 late)).2.filterMap Effect.packet = [Dispatcher.packet d.tick.2] := by
  obtain ⟨scheduler, sends⟩ := serves.scheduler.tick fun request due one =>
    ⟨serves.free (fit request due one).1, (fit request due one).2⟩
  obtain ⟨pending, stop, rota, same⟩ := d.tick_eq
  constructor
  · rw [same] at scheduler ⊢
    exact ⟨serves.desk, serves.arrived, serves.blank, serves.sys, scheduler, serves.purging⟩
  · rw [← sends]
    exact modulateAll_packets late s.signal _

theorem resetEntry_silent (s : CommandStation) :
    ((s.clearing.step .resetEntry).2.map (Effect.use ∘ .event)).filterMap Effect.packet = [] := by
  have sends := (unheard_events _ (resetEntry_sends s.clearing)).2.1
  apply List.filterMap_eq_nil_iff.mpr
  intro effect member
  rw [Effect.packet, List.filterMap_eq_nil_iff.mp sends effect member]
  rfl

/-- Without a `cache clear` there is nothing to empty. -/
theorem resetEntry_free (free : s.purging = none) (whole : s.clearing.done = cacheAddrSize) :
    s.step platform .resetEntry = (s, []) := by
  have still : s.clearing.step .resetEntry = (s.clearing, []) := by
    simp only [Clearing.step, whole, Nat.lt_irrefl, dite_false]
  have sweeps := step_resetEntry platform s
  generalize s.step platform .resetEntry = next at sweeps ⊢
  cases sweeps with
  | more =>
    rw [still]
    rfl
  | last curr purging =>
    rw [free] at purging
    contradiction

/-- One more slot is empty. -/
theorem Serves.sweeps {purging : Option (BitVec 16)} {purge : Option (BitVec 16 × Nat)}
    (serves : Serves s d) (inside : s.clearing.done < cacheAddrSize)
    (purges : Purges purging (s.clearing.done + 1) purge) :
    Serves { s with clearing := (s.clearing.step .resetEntry).1, purging }
      { d with purging := purge } := by
  obtain ⟨empty, swept⟩ := serves.scheduler.cache.resetEntry inside
  have gone : (s.clearing.step .resetEntry).1.done = s.clearing.done + 1 ∧
      (s.clearing.step .resetEntry).1.scheduler.Serves (s.clearing.done + 1) d.pending d.stop d.rota := by
    rw [Clearing.step, dif_pos inside, empty]
    exact ⟨rfl, serves.scheduler.queue, serves.scheduler.stop, serves.scheduler.idle, swept⟩
  constructor
  · exact serves.desk
  · exact serves.arrived
  · exact serves.blank
  · exact serves.sys
  · rw [gone.1]
    exact gone.2
  · rw [gone.1]
    exact purges

theorem Serves.resetEntry (serves : Serves s d) :
    Serves (s.step platform .resetEntry).1 d.purge ∧
      (s.step platform .resetEntry).2.filterMap Effect.packet = [] := by
  have purging := serves.purging
  cases busy : d.purging with
  | none =>
    rw [busy] at purging
    have waits : d.purge = d := by simp only [Dispatcher.purge, busy]
    rw [resetEntry_free purging.1 purging.2, waits]
    exact ⟨serves, rfl⟩
  | some purge =>
    obtain ⟨count, slots⟩ := purge
    rw [busy] at purging
    obtain ⟨begun, positive, whole⟩ := purging
    have inside : s.clearing.done < cacheAddrSize := by omega
    have further : (s.clearing.step .resetEntry).1.done = s.clearing.done + 1 := by
      rw [Clearing.step, dif_pos inside]
    rcases slots with _ | _ | slots
    · exact absurd positive (Nat.lt_irrefl 0)
    · have last : ¬ s.clearing.done + 1 < cacheAddrSize := by omega
      have ends : d.purge =
          ({ d with purging := none }.print (Sys.cmdCacheClear count)).print prompt := by
        simp only [Dispatcher.purge, busy]
      have swept : Serves { s with clearing := (s.clearing.step .resetEntry).1, purging := none }
          { d with purging := none } := serves.sweeps inside ⟨rfl, whole⟩
      rw [ends, step]
      simp only [begun, further, if_neg last]
      exact ⟨(swept.print _).print _, resetEntry_silent s⟩
    · have more : s.clearing.done + 1 < cacheAddrSize := by omega
      have waits : d.purge = { d with purging := some (count, slots + 1) } := by
        simp only [Dispatcher.purge, busy]
      have swept : Serves
          { s with clearing := (s.clearing.step .resetEntry).1, purging := some count }
          { d with purging := some (count, slots + 1) } :=
        serves.sweeps inside ⟨rfl, Nat.succ_pos _, by omega⟩
      rw [waits, step]
      simp only [begun, further, if_pos more]
      exact ⟨swept, resetEntry_silent s⟩

/-- No raw packets come of what is typed. -/
theorem Serves.framing (serves : Serves s d) (op : Op) : Framing s op := by
  cases op with
  | read null memFree =>
    intro _ desk ref accepted
    cases serves.desk.reads serves.arrived serves.blank null with
    | nothing none read => cases read.symm.trans accepted
    | blank waiting held read after => cases read.symm.trans accepted
    | @line entry rest result next waiting held lines read told after =>
      cases read.symm.trans accepted
      cases asked : entry.ask with
      | order request =>
        rw [asked] at told
        obtain ⟨ref, same, -⟩ := told
        cases same
      | query put =>
        rw [asked] at told
        cases told
  | receive | timer0 | timer1 | resetEntry => trivial

/-- Whatever happens, where the program is made for it, it does what the station of its
user does. -/
theorem Serves.step (serves : Serves s d) (op : Op) (fit : d.Fit op) :
    Serves (s.step platform op).1 (d.step platform op).1 ∧
      (s.step platform op).2.filterMap Effect.packet = (d.step platform op).2 := by
  cases op with
  | receive => exact ⟨serves.receive, rfl⟩
  | read null memFree => exact serves.read null memFree fit
  | timer0 late => exact serves.timer0 late fit
  | timer1 pind =>
    refine ⟨⟨serves.desk, serves.arrived, serves.blank, serves.sys, serves.scheduler, serves.purging⟩, ?_⟩
    apply List.filterMap_eq_nil_iff.mpr
    intro effect member
    obtain ⟨value, -, rfl⟩ := List.mem_map.mp member
    rfl
  | resetEntry => exact serves.resetEntry

section Runs
variable (platform : Platform) (memory : Scheduler.Memory) (buf : Vector Char 50)
  (script : List AskLine) (ops : List Op)
  (fit : Run.Along (Dispatcher.step platform) Dispatcher.Fit (.start script) ops)
include fit

theorem run_serves :
    let wire := script.flatMap (·.line.received)
    Serves (Run.final (step platform) (start memory buf wire) ops)
        (Run.final (Dispatcher.step platform) (.start script) ops) ∧
      (Run.log (step platform) (start memory buf wire) ops).filterMap Effect.packet =
        Run.log (Dispatcher.step platform) (.start script) ops :=
  fit.simulated Effect.packet (fun _ _ op fit serves => serves.step op fit)
    (serves_start memory buf script)

/-- Whatever the order of bytes, calls, ticks and bits: where the program is made for it,
it sends the packets for the orders that were typed, and the screen shows what the user is
to be told. -/
theorem session_refines :
    ((Run.log (step platform) (start memory buf (script.flatMap (·.line.received))) ops).filterMap
        Effect.sent).map (·.packet) = Run.log (Dispatcher.step platform) (.start script) ops ∧
      (Run.final (step platform) (start memory buf (script.flatMap (·.line.received)))
          ops).desk.scanner.stdin.printed =
        (Run.final (Dispatcher.step platform) (.start script) ops).screen := by
  obtain ⟨serves, sends⟩ := run_serves platform memory buf script ops fit
  refine ⟨?_, serves.desk.printed⟩
  rw [List.map_filterMap]
  exact sends

/-- The receiver on the track hears the orders of the user, in order, and all of them
whenever the last packet is out. -/
theorem session_heard (shared : Bool) (paced : Paced bitsPerTick ops) :
    let wire := script.flatMap (·.line.received)
    let heard := Track.receive shared (Signal.moduleInit.1 ::
      (Run.log (step platform) (start memory buf wire) ops).filterMap Effect.value)
    let orders := (Run.log (Dispatcher.step platform) (.start script) ops).map Track.content
    heard <+: orders ∧
      ((Run.final (step platform) (start memory buf wire) ops).signal.ShiftedOut → heard = orders) := by
  obtain ⟨-, sends⟩ := run_serves platform memory buf script ops fit
  have framing : Run.Along (step platform) Framing
      (start memory buf (script.flatMap (·.line.received))) ops :=
    fit.carried (fun _ _ op fit serves => ⟨serves.framing op, (serves.step op fit).1⟩)
      (serves_start memory buf script)
  obtain ⟨count, airs, -⟩ := run_heard ops (heard_start shared memory buf _) paced framing
  have same : ((Run.log (step platform) (start memory buf (script.flatMap (·.line.received)))
      ops).filterMap Effect.sent).map (fun ref => Track.content ref.packet) =
        (Run.log (Dispatcher.step platform) (.start script) ops).map Track.content := by
    rw [← sends, List.map_filterMap, List.map_filterMap]
    apply List.filterMap_congr
    intro effect _
    rw [Effect.packet, Option.map_map]
    rfl
  rw [List.nil_append] at airs
  dsimp only
  rw [← same]
  exact ⟨airs.heard, airs.received⟩

end Runs

section Outing
open Scanner

theorem drive_asked : AskText (.order (.drive directionForward 3 5))
    ("fw".toList ++ (([' '] ++ ("ad".toList ++ ([' '] ++ "3".toList))) ++
      ([' '] ++ ("sp".toList ++ ([' '] ++ "5".toList))))) := by
  have addr : AddrText 3 ([' '] ++ ("ad".toList ++ ([' '] ++ "3".toList))) :=
    .clause gap_one ⟨"ad", by simp, by decide⟩ gap_one ⟨0, rfl⟩
  have speed : SpeedText 5 ([' '] ++ ("sp".toList ++ ([' '] ++ "5".toList))) :=
    .clause gap_one ⟨"sp", by simp, by decide⟩ gap_one ⟨0, rfl⟩
  exact .order (.forward ⟨"fw", by simp, by decide⟩ (.addrSpeed addr speed))

theorem show_asked : AskText (.query (.cacheShow 3))
    ("cache".toList ++ ([' '] ++ ("show".toList ++ ([' '] ++ "3".toList)))) :=
  .query (.cacheShow ⟨"cache", by simp, by decide⟩ gap_one ⟨"show", by simp, by decide⟩ gap_one
    ⟨by simp, by simp, by simp [Nat.ofDigitChars]⟩)

theorem stop_asked : AskText (.order .stop) "stop".toList :=
  .order (.stop ⟨"stop", by simp, by decide⟩)

/-- Short enough for a line, and only one. -/
structure Typed (text : String) : Prop where
  single : text.toList.all (fun c => Io.translate c != '\n') = true
  fits : text.toList.length < Io.ringSize

def lineOf {ask : Ask} {body : List Char} (asked : AskText ask body) {text : String}
    (typed : Typed text) (same : text.toList.map Io.translate = body) : AskLine :=
  { ask, line := Station.typedLine text typed.single typed.fits, body, trail := [], asked
    blanks := blanks_nil, content := (SentLine.content_eq _).trans (congrArg (· ++ ['\n']) same) }

theorem drive_typed : Typed "fw ad 3 sp 5" := ⟨by decide, by decide⟩

theorem drive_same : "fw ad 3 sp 5".toList.map Io.translate =
    "fw".toList ++ (([' '] ++ ("ad".toList ++ ([' '] ++ "3".toList))) ++
      ([' '] ++ ("sp".toList ++ ([' '] ++ "5".toList)))) := by decide

theorem show_typed : Typed "cache show 3" := ⟨by decide, by decide⟩

theorem show_same : "cache show 3".toList.map Io.translate =
    "cache".toList ++ ([' '] ++ ("show".toList ++ ([' '] ++ "3".toList))) := by decide

theorem stop_typed : Typed "stop" := ⟨by decide, by decide⟩

theorem stop_same : "stop".toList.map Io.translate = "stop".toList := by decide

def outing : List AskLine :=
  [lineOf drive_asked drive_typed drive_same, lineOf show_asked show_typed show_same,
    lineOf stop_asked stop_typed stop_same]

def bits : List Op := List.replicate 40 (.timer1 true)

def outingOps : List Op :=
  [.receive, .read false 0, .timer0 false] ++ bits ++ [.receive, .read false 0, .timer0 true] ++ bits ++
    [.receive, .read false 0, .read false 0, .timer0 false] ++ bits

def outingStart : CommandStation :=
  start .zero (.replicate 50 ' ') (outing.flatMap (·.line.received))

/-- The newline after `cache show 3` takes a call of its own. -/
theorem session_refines_outing :
    ((Run.log (step quietPlatform) outingStart outingOps).filterMap Effect.sent).map (·.packet) =
        [⟨[0xFF, 0xF0, 0x19, 0x90, 0xCF]⟩, ⟨[0xFF, 0xF0, 0x19, 0x90, 0xCF]⟩,
          ⟨[0xFF, 0xF0, 0x01, 0xC0, 0xE1]⟩] := by
  obtain ⟨sends, -⟩ := session_refines quietPlatform .zero (.replicate 50 ' ') outing outingOps
    (by decide +kernel)
  exact sends.trans (by decide +kernel)

theorem session_heard_outing : Track.receive false (Signal.moduleInit.1 ::
    (Run.log (step quietPlatform) outingStart outingOps).filterMap Effect.value) =
      [[3, 100, 103], [3, 100, 103], [0, 112, 112]] := by
  obtain ⟨-, whole⟩ := session_heard quietPlatform .zero (.replicate 50 ' ') outing outingOps
    (by decide +kernel) false (by decide)
  exact (whole (by decide +kernel)).trans (by decide +kernel)

end Outing

end CommandStation
end Freedcc
