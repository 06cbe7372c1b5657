import Freedcc.StopFinality
import Freedcc.CommandText

/-! Stops that every decoder obeys, and what the refresh sends after them. Only
the two special packets silence it; a stop for address 0 is one more entry of
the cache. -/
namespace Freedcc.Scheduler
open Dcc Console OpenAddressing

def AtRest (packet : PacketRef) : Prop := getSpeedStep packet.packet = 0

/-- The slot that answers for a key when a packet for address 0 has been stored:
where the key is found, unless its own entry stands where 0 is stored. -/
def answerSlot (cache : Cache) (key : Int) : Fin cacheAddrSize :=
  if (cache.packets.table (locate Cache.order cache.packets.table 0)).map Prod.fst = some key then
    lastProbe Cache.order key
  else locate Cache.order cache.packets.table key

/-- Every other address in the rotation is answered from the slot that the packet
for address 0 goes to, or by a packet at rest. -/
def Settles (cache : Cache) : Prop :=
  ∀ key ∈ cache.addresses.contents, key ≠ 0 →
    answerSlot cache key = locate Cache.order cache.packets.table 0 ∨
      ∀ k packet, cache.packets.table (answerSlot cache key) = some (k, packet) → AtRest packet

/-- Every address in the rotation is answered by a packet at rest. -/
def Calm (cache : Cache) : Prop :=
  ∀ key ∈ cache.addresses.contents, ∀ packet, cache.get key = some packet → AtRest packet

section Answers
variable {cache : Cache} {trace : Trace}

theorem calm_of_empty (empty : cache.addresses.contents = []) : Calm cache := by
  intro key member
  rw [empty] at member
  contradiction

/-- The update leaves the addresses, with 0 among them. -/
theorem mem_update_addresses (valid : cache.Valid) (everybody : Cache.address packet = 0)
    (other : key ≠ 0) : key ∈ (cache.update packet trace).1.addresses.contents ↔
      key ∈ cache.addresses.contents := by
  by_cases unseen : cache.get (Cache.address packet) = none
  · have room := ((valid.get_eq_none (Cache.address_nonneg packet)).mp unseen).2
    rw [Cache.update_addresses_new cache packet trace unseen,
      Ring.contents_push _ _ (valid.room room), List.mem_append, List.mem_singleton, everybody]
    simp [other]
  · rw [Cache.update_addresses_known cache packet trace unseen]

theorem get_update (valid : cache.Valid) (everybody : Cache.address packet = 0)
    (member : key ∈ cache.addresses.contents) (other : key ≠ 0) :
    (cache.update packet trace).1.get key =
      if answerSlot cache key = locate Cache.order cache.packets.table 0 then some packet
      else (cache.packets.table (answerSlot cache key)).map Prod.snd := by
  have sought : Full cache.packets.table ∨ Present cache.packets.table key :=
    valid.agree.imp_right fun agree => (agree key).mp member
  rw [Cache.get_eq _ (valid.nonneg member), Cache.update_table, everybody,
    valid.settled.locate_insert (Cache.order_covers 0) sought other]
  change (OpenAddressing.insert Cache.order cache.packets.table 0 packet
    (answerSlot cache key)).map Prod.snd = _
  split
  · rename_i same
    rw [same, insert_located]
    rfl
  · rename_i apart
    rw [insert_elsewhere _ apart]

theorem calm_update_iff (valid : cache.Valid) (everybody : Cache.address packet = 0)
    (rest : AtRest packet) : Calm (cache.update packet trace).1 ↔ Settles cache := by
  constructor
  · intro calm key member other
    by_cases same : answerSlot cache key = locate Cache.order cache.packets.table 0
    · exact Or.inl same
    · refine Or.inr fun k stored found => calm key
        ((mem_update_addresses valid everybody other).mpr member) stored ?_
      rw [get_update valid everybody member other, if_neg same, found]
      rfl
  · intro settles key member stored found
    by_cases other : key = 0
    · have holds : Holds (cache.update packet trace).1.packets.table key packet := by
        rw [Cache.update_table, other, ← everybody]
        exact ⟨_, insert_located _ _⟩
      rw [(valid.update packet trace).get_present holds] at found
      exact Option.some.inj found ▸ rest
    · have before := (mem_update_addresses valid everybody other).mp member
      rw [get_update valid everybody before other] at found
      rcases settles key before other with same | answered
      · rw [if_pos same] at found
        exact Option.some.inj found ▸ rest
      · split at found
        · exact Option.some.inj found ▸ rest
        · obtain ⟨⟨k, _⟩, held, rfl⟩ := Option.map_eq_some_iff.mp found
          exact answered k _ held

end Answers

/-! Runs in which no further packet is dequeued. -/

/-- Whatever a tick would repeat is at rest. -/
structure Resting (s : Scheduler) : Prop where
  idle : AtRest s.idlePacket
  stop : ∀ stop, s.stopPacket = some stop → AtRest stop
  cache : s.stopPacket = none → Calm s.cache
  valid : s.cache.Valid

theorem calm_getNextPacket {cache : Cache} (valid : cache.Valid) (calm : Calm cache) :
    Calm cache.getNextPacket.2 ∧ ∀ packet, cache.getNextPacket.1 = some packet → AtRest packet := by
  have turned := Cache.getNextPacket_perm valid.bounded
  have packets := Cache.getNextPacket_packets cache
  constructor
  · intro key member packet found
    apply calm key (turned.mem_iff.mp member) packet
    rwa [Cache.get, packets] at found
  · intro packet served
    cases split : cache.addresses.contents with
    | nil =>
      rw [Cache.getNextPacket_empty ((Ring.contents_eq_nil _).mp split)] at served
      contradiction
    | cons key rest =>
      rw [(Cache.getNextPacket_turn valid.bounded split).1] at served
      exact calm key (split ▸ List.mem_cons_self) packet served

theorem Resting.step (resting : Resting s) (quiet : op = .tick → s.txQueue.count = 0) :
    Resting (step s op).1 ∧ ∀ packet ∈ (step s op).2.filterMap sent, AtRest packet := by
  cases op with
  | addPacket packet =>
    exact ⟨⟨resting.idle, resting.stop, resting.cache, resting.valid⟩, by simp [Scheduler.step]⟩
  | cacheClear =>
    refine ⟨⟨resting.idle, resting.stop, fun _ => ?_, Cache.valid_clear _ _⟩, ?_⟩
    · exact calm_of_empty (Ring.contents_reset _)
    · simp [Scheduler.step, Cache.clear_trace, sent]
  | tick =>
    have queue := (Ring.contents_eq_nil _).mpr (quiet rfl)
    rcases s.ticked with ⟨tx, trace, pending, -, -, -, -⟩ | ⟨tx, trace, pending, -, -, -, -⟩ |
      ⟨stop, -, stored, same, events⟩ | ⟨-, stored, turned, events⟩
    · rw [queue] at pending
      contradiction
    · rw [queue] at pending
      contradiction
    · rw [same, events]
      refine ⟨resting, ?_⟩
      simp only [List.filterMap_cons, sent, List.filterMap_nil, List.mem_singleton, forall_eq]
      exact resting.stop stop stored
    · obtain ⟨calm, served⟩ := calm_getNextPacket resting.valid (resting.cache stored)
      rw [turned, events]
      refine ⟨⟨resting.idle, resting.stop, fun _ => calm, resting.valid.getNextPacket⟩, ?_⟩
      simp only [List.filterMap_cons, sent, List.filterMap_nil, List.mem_singleton, forall_eq]
      cases next : s.cache.getNextPacket.1 with
      | none => exact resting.idle
      | some packet => exact served packet next

theorem Resting.run {ops : List Op} (resting : Resting s) (quiet : Quiet s ops) :
    ∀ packet ∈ (Run.log Scheduler.step s ops).filterMap sent, AtRest packet := by
  induction ops generalizing s with
  | nil => simp [Run.log]
  | cons op ops ih =>
    obtain ⟨next, now⟩ := resting.step quiet.1
    intro packet member
    rw [Run.log, List.filterMap_append, List.mem_append] at member
    exact member.elim (now packet) (ih next quiet.2 packet)

/-- With a packet pending there is no quiet tick. -/
theorem busy_quiet {ops : List Op} (busy : 0 < s.txQueue.count) (quiet : Quiet s ops) :
    (Run.log step s ops).filterMap sent = [] := by
  induction ops generalizing s with
  | nil => rfl
  | cons op ops ih =>
    rw [Run.log, List.filterMap_append]
    cases op with
    | addPacket packet => exact ih (Nat.succ_pos _) quiet.2
    | cacheClear =>
      have none : (Scheduler.step s .cacheClear).2.filterMap sent = [] := by
        simp [Scheduler.step, Cache.clear_trace, sent]
      rw [none]
      exact ih busy quiet.2
    | tick => exact absurd (quiet.1 rfl) (by omega)

theorem tick_refreshes (empty : s.txQueue.count = 0) (missing : s.stopPacket = none) :
    step s .tick = ({ s with cache := s.cache.getNextPacket.2 },
      [.signalSend (s.cache.getNextPacket.1.getD s.idlePacket)]) := by
  simp [step, timer0CompaVect, empty, missing]

/-- The rotation comes round to every address. -/
theorem refresh_reaches (valid : s.cache.Valid) (empty : s.txQueue.count = 0)
    (missing : s.stopPacket = none) (split : s.cache.addresses.contents = front ++ key :: back)
    (answer : s.cache.get key = some packet) :
    Quiet s (List.replicate (front.length + 1) .tick) ∧
      packet ∈ (Run.log step s (List.replicate (front.length + 1) .tick)).filterMap sent := by
  have turn := tick_refreshes empty missing
  induction front generalizing s back with
  | nil =>
    rw [(Cache.getNextPacket_turn valid.bounded split).1, answer] at turn
    refine ⟨⟨fun _ => empty, trivial⟩, ?_⟩
    simp [Run.log, turn, sent]
  | cons first front ih =>
    rw [List.cons_append] at split
    obtain ⟨-, turned, -⟩ := Cache.getNextPacket_turn valid.bounded split
    have rotated : s.cache.getNextPacket.2.addresses.contents = front ++ key :: (back ++ [first]) := by
      rw [turned, List.append_assoc, List.cons_append]
    have kept : s.cache.getNextPacket.2.get key = some packet := by
      rwa [Cache.get, Cache.getNextPacket_packets]
    obtain ⟨quiet, member⟩ := ih (s := { s with cache := s.cache.getNextPacket.2 })
      valid.getNextPacket empty missing rotated kept (tick_refreshes empty missing)
    rw [List.length_cons, List.replicate_succ]
    refine ⟨⟨fun _ => empty, ?_⟩, ?_⟩
    · rw [turn]
      exact quiet
    · rw [Run.log, turn, List.filterMap_append]
      exact List.mem_append_right _ member

/-! The packets of the stop commands. -/

def Stops : Request → Prop
  | .drive _ _ _ => False
  | _ => True

def ParsedStop (packet : Packet) : Prop :=
  ∃ (request : Request) (text : List Char) (rest : List (Option Char)) (null : Bool)
    (parser next : Parser (Scanner CharStream)) (ref : PacketRef),
    Stops request ∧ CommandLine request text ∧
    parser.scanner.stdin = ⟨none, text.map some ++ rest⟩ ∧
    Parser.parserStart (some null) parser = .ok (true, next) ∧
    next.result = some ⟨.dcc, .packet ref⟩ ∧ ref.packet = packet

theorem parsedStop_of_line {request : Request} (stops : Stops request)
    (line : CommandLine request text) : ParsedStop request.frame.packet := by
  have fresh : (Scanner.fresh id ⟨none, text.map some ++ []⟩ : Scanner CharStream).stdin =
      ⟨none, text.map some ++ []⟩ := rfl
  obtain ⟨next, ref, accepted, result, packet, -⟩ :=
    command_line_parsed line false (p := .fresh (.fresh id ⟨none, text.map some ++ []⟩)) fresh
  exact ⟨request, text, [], false, _, next, ref, stops, line, fresh, accepted, result, packet⟩

theorem ParsedStop.request (parsed : ParsedStop packet) :
    ∃ request, Stops request ∧ packet = request.frame.packet := by
  obtain ⟨request, text, rest, null, parser, next, ref, stops, line, fresh, accepted, result, rfl⟩ :=
    parsed
  obtain ⟨other, again, run, same, made, -⟩ := command_line_parsed line null fresh
  obtain ⟨-, rfl⟩ := Prod.mk.inj (Except.ok.inj (run.symm.trans accepted))
  rw [same, Option.some.injEq, Result.mk.injEq, Payload.packet.injEq] at result
  exact ⟨request, stops, result.2 ▸ made⟩

theorem ParsedStop.atRest (parsed : ParsedStop packet) : getSpeedStep packet = 0 := by
  obtain ⟨request, stops, rfl⟩ := parsed.request
  rw [getSpeedStep_packet]
  cases request with
  | drive => exact False.elim stops
  | stopOne => exact stepOf_speedCode 0
  | stopAll => decide
  | stop => decide

/-- Of every reachable state, however many packets are pending. -/
theorem reachable (memory : Memory) (ops : List Op) :
    (Run.final step (moduleInit memory) ops).idlePacket = idle ∧
      (Run.final step (moduleInit memory) ops).cache.Valid := by
  have all : Run.Always step (fun s => s.idlePacket = idle ∧ s.cache.Valid) (moduleInit memory) ops :=
    Run.always_of_invariant
      (fun s op holds => ⟨(step_idlePacket s op).trans holds.1, step_valid holds.2 op⟩)
      ⟨rfl, Cache.valid_moduleInit _ _⟩
  exact all.last

/-- With nothing pending and no stop packet held, what is sent is at rest as long as
every address is answered by a packet at rest. -/
theorem kept_iff_calm {s : Scheduler} (valid : s.cache.Valid) (idle : AtRest s.idlePacket)
    (empty : s.txQueue.count = 0) (stored : s.stopPacket = none) :
    (∀ after, Quiet s after → ∀ packet ∈ (Run.log step s after).filterMap sent, AtRest packet) ↔
      Calm s.cache := by
  constructor
  · intro kept key member packet found
    obtain ⟨front, back, split⟩ := List.append_of_mem member
    obtain ⟨quiet, sending⟩ := refresh_reaches valid empty stored split found
    exact kept _ quiet packet sending
  · intro calm after quiet
    have resting : Resting s := by
      constructor
      · exact idle
      · rw [stored]
        simp
      · exact fun _ => calm
      · exact valid
    exact resting.run quiet

/-- After the tick that dequeues a stop for every decoder, what is sent until the
next dequeue is at rest: exactly if the packet is one of the two special ones, or
another is pending behind it, or the cache answers for every other address with a
packet at rest. -/
theorem stop_kept_iff (memory : Memory) (before : List Op) (stop : PacketRef)
    (pending : List PacketRef) (parsed : ParsedStop stop.packet)
    (everybody : getAddress stop.packet = 0)
    (head : (Run.final step (moduleInit memory) before).txQueue.contents = stop :: pending) :
    (∀ after, Quiet (Run.final step (moduleInit memory) (before ++ [.tick])) after →
      ∀ packet ∈ (Run.log step (Run.final step (moduleInit memory) (before ++ [.tick]))
        after).filterMap sent, getSpeedStep packet.packet = 0) ↔
      isBroadcastStop stop.packet = true ∨ pending ≠ [] ∨
        Settles (Run.final step (moduleInit memory) before).cache := by
  obtain ⟨idle, valid⟩ := reachable memory before
  simp only [Run.final_append, Run.final]
  generalize Run.final step (moduleInit memory) before = s at *
  have address : Cache.address stop = 0 := by rw [Cache.address, everybody]; rfl
  have stopRest : AtRest stop := parsed.atRest
  have idleRest : AtRest s.idlePacket := by
    rw [idle, AtRest]
    decide
  rcases s.ticked with ⟨tx, trace, queue, special, stored, cache, -⟩ |
    ⟨tx, trace, queue, special, stored, cache, -⟩ | ⟨other, queue, -, -, -⟩ | ⟨queue, -, -, -⟩
  · obtain ⟨rfl, -⟩ := List.cons.inj (head.symm.trans queue)
    refine iff_of_true ?_ (Or.inl special)
    have resting : Resting (step s .tick).1 := by
      constructor
      · rwa [step_idlePacket]
      · rintro other same
        rw [stored] at same
        exact Option.some.inj same ▸ stopRest
      · rw [stored]
        simp
      · exact step_valid valid .tick
    exact fun after quiet => resting.run quiet
  · obtain ⟨rfl, behind⟩ := List.cons.inj (head.symm.trans queue)
    rw [special]
    simp only [Bool.false_eq_true, false_or]
    by_cases busy : pending = []
    · have calm : Calm (s.cache.update stop trace).1 ↔ Settles s.cache :=
        calm_update_iff valid address stopRest
      rw [← cache] at calm
      simp only [busy, ne_eq, not_true_eq_false, false_or, ← calm]
      have empty : (step s .tick).1.txQueue.count = 0 := by
        rw [← Ring.contents_eq_nil, ← behind, busy]
      have idleKept : AtRest (step s .tick).1.idlePacket := by rwa [step_idlePacket]
      exact kept_iff_calm (step_valid valid .tick) idleKept empty stored
    · refine iff_of_true ?_ (Or.inl busy)
      intro after quiet packet member
      have waiting : 0 < (step s .tick).1.txQueue.count := by
        rw [← Ring.contents_length, ← behind]
        exact List.length_pos_iff.mpr busy
      rw [busy_quiet waiting quiet] at member
      contradiction
  · rw [head] at queue
    contradiction
  · rw [head] at queue
    contradiction

def drivenThen (request : Request) : List Op :=
  [.addPacket ⟨1, (frame 3 true (speedCode 5)).packet⟩, .tick,
    .addPacket ⟨2, request.frame.packet⟩]

theorem stop_kept_iff_stop : isBroadcastStop Request.stop.frame.packet = true ∧ ∀ after,
    Quiet (Run.final step (moduleInit .zero) (drivenThen .stop ++ [.tick])) after →
      ∀ packet ∈ (Run.log step (Run.final step (moduleInit .zero) (drivenThen .stop ++ [.tick]))
        after).filterMap sent, getSpeedStep packet.packet = 0 := by
  have word : Spells ["stop"] "stop".toList := ⟨"stop", by simp, by decide⟩
  have line : CommandLine .stop _ := .line Scanner.blanks_nil (.stop word) Scanner.blanks_nil
  have special : isBroadcastStop Request.stop.frame.packet = true := by decide
  refine ⟨special, (stop_kept_iff .zero (drivenThen .stop) ⟨2, Request.stop.frame.packet⟩ []
    (parsedStop_of_line trivial line) (by decide) ?_).mpr (Or.inl special)⟩
  decide +kernel

/-- `stop addr 0` only adds address 0 to the rotation: loco 3 is driven on. -/
theorem stop_undone_zero : ParsedStop (Request.stopOne 0).frame.packet ∧
    getAddress (Request.stopOne 0).frame.packet = 0 ∧
    (Run.final step (moduleInit .zero) (drivenThen (.stopOne 0))).txQueue.contents =
      [⟨2, (Request.stopOne 0).frame.packet⟩] ∧
    ¬ ∀ after, Quiet (Run.final step (moduleInit .zero) (drivenThen (.stopOne 0) ++ [.tick])) after →
      ∀ packet ∈ (Run.log step (Run.final step (moduleInit .zero)
        (drivenThen (.stopOne 0) ++ [.tick])) after).filterMap sent,
          getSpeedStep packet.packet = 0 := by
  have gap : Gap [' '] := ⟨by simp, by simp [Scanner.Blanks]⟩
  have stop : Spells ["stop"] "stop".toList := ⟨"stop", by simp, by decide⟩
  have word : Spells ["addr", "ad"] "addr".toList := ⟨"addr", by simp, by decide⟩
  have addr : AddrText 0 _ := .clause gap word gap ⟨0, rfl⟩
  have line : CommandLine (.stopOne 0) _ :=
    .line Scanner.blanks_nil (.stopOne stop addr) Scanner.blanks_nil
  refine ⟨parsedStop_of_line trivial line, by decide, by decide +kernel, fun kept => ?_⟩
  have moving : ⟨1, (frame 3 true (speedCode 5)).packet⟩ ∈ (Run.log step
      (Run.final step (moduleInit .zero) (drivenThen (.stopOne 0) ++ [.tick])) [.tick]).filterMap
        sent := by decide +kernel
  have still := kept [.tick] ⟨fun _ => by decide +kernel, trivial⟩ _ moving
  exact absurd still (by decide)

end Freedcc.Scheduler
