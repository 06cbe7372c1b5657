import Freedcc.Erasure
import Freedcc.SignalTiming
import Freedcc.TrackSignal

/-! What a receiver on the track hears of the whole program: the packets that
TIMER0 has sent, whatever comes over the line from the host. -/
namespace Freedcc

def Effect.value : Effect → Option Nat
  | .bit value => some value
  | _ => none

def Effect.sent : Effect → Option Dcc.PacketRef
  | .use (.event (.signalSend ref)) => some ref
  | _ => none

namespace Track
open Dcc BitFraming

/-- The bits that are out and those still to come carry the packets sent so far. -/
structure Airs (shared : Bool) (effects : List Effect) (signal : Signal) : Prop where
  sound : signal.Sound
  line : ∃ frames, Carries (s92 shared) frames
      ((Signal.moduleInit.1 :: effects.filterMap Effect.value).map Signal.isOne ++ signal.queue) ∧
    frames.map (·.map ofBits) = (effects.filterMap Effect.sent).map fun ref => content ref.packet
  whole : .abort ∉ effects

variable {shared : Bool} {effects more : List Effect} {signal : Signal}

theorem airs_start (shared : Bool) : Airs shared [] Signal.moduleInit.2 := by
  refine ⟨Signal.sound_moduleInit, ⟨[], ?_, rfl⟩, by simp⟩
  have idle : Signal.moduleInit.2.queue = [] := by decide
  rw [idle, List.append_nil]
  exact Carries.ones 1

/-- Nothing of it concerns the track. -/
theorem Airs.quiet (airs : Airs shared effects signal) (values : more.filterMap Effect.value = [])
    (sends : more.filterMap Effect.sent = []) (whole : .abort ∉ more) :
    Airs shared (effects ++ more) signal := by
  obtain ⟨sound, line, fine⟩ := airs
  refine ⟨sound, ?_, ?_⟩
  · rw [List.filterMap_append, List.filterMap_append, values, sends, List.append_nil,
      List.append_nil]
    exact line
  · exact fun member => (List.mem_append.mp member).elim fine whole

theorem Airs.timer1 (airs : Airs shared effects signal) (pind : Bool) :
    Airs shared (effects ++ (signal.timer1CompaVect pind).1.toList.map .bit)
      (signal.timer1CompaVect pind).2 := by
  cases pind with
  | false => exact airs.quiet rfl rfl (by simp [Signal.timer1CompaVect])
  | true =>
    obtain ⟨value, next, step, kept, one, rest⟩ := Signal.timer1CompaVect_high airs.sound
    obtain ⟨frames, carries, words⟩ := airs.line
    rw [step]
    refine ⟨kept, ⟨frames, ?_, ?_⟩, ?_⟩
    · have values : (effects ++ [Effect.bit value]).filterMap Effect.value =
          effects.filterMap Effect.value ++ [value] := by
        rw [List.filterMap_append]
        rfl
      rw [Option.toList_some, List.map_singleton, values, ← List.cons_append, List.map_append,
        List.map_singleton, one, rest, List.append_assoc]
      cases left : signal.queue with
      | nil =>
        rw [left, List.append_nil] at carries
        exact carries.idle
      | cons b others =>
        rw [left] at carries
        exact carries
    · rw [List.filterMap_append, words]
      simp [Effect.sent]
    · simp [airs.whole]

/-- A frame is sent when the one before it is out. In the second half of a bit it loses
its first bit. -/
theorem Airs.send (airs : Airs shared effects signal) (out : signal.ShiftedOut) (late : Bool)
    {ref : PacketRef} (framed : Framed ref.packet address instruction) :
    ∃ value next, signal.send ref.packet.bytes ref.packet.size = some (value, next) ∧
      next.queue.length = 39 ∧
      Airs shared (effects ++ .use (.event (.signalSend ref)) :: if late then [] else [.bit value])
        next := by
  have filled : 0 < ref.packet.size := by rw [framed.size]; decide
  have fits : ref.packet.size ≤ Signal.maxBytes := by rw [framed.size]; decide
  obtain ⟨value, next, sending, sound, bits⟩ := Signal.send_queue filled fits signal
  obtain ⟨frames, carries, words⟩ := airs.line
  rw [(Signal.queue_eq_nil airs.sound).mpr out, List.append_nil] at carries
  rw [framed.bits] at bits
  have length : next.queue.length = 39 := by
    have whole := congrArg List.length bits
    simp only [baselineFrame, List.length_cons, List.length_append, List.length_replicate,
      length_byteBits, List.length_nil] at whole
    omega
  have sent : (frames ++ [(burst 12 address instruction).words]).map (·.map ofBits) =
      ((effects.filterMap Effect.sent) ++ [ref]).map fun ref => content ref.packet := by
    rw [List.map_append, words, List.map_append, List.map_singleton, List.map_singleton,
      framed.content]
    simp [burst, ofBits_byteBits]
  refine ⟨value, next, sending, length, ?_⟩
  cases late with
  | true =>
    have tail : next.queue = (burst 11 address instruction).line := by
      rw [← tail_baselineFrame, ← bits, List.tail_cons]
    refine ⟨sound, ⟨frames ++ [(burst 12 address instruction).words], ?_, ?_⟩, ?_⟩
    · have same : (burst 12 address instruction).words = (burst 11 address instruction).words := rfl
      have values : (effects ++ [Effect.use (.event (.signalSend ref))]).filterMap Effect.value =
          effects.filterMap Effect.value := by
        rw [List.filterMap_append]
        exact List.append_nil _
      rw [if_pos rfl, values, same, tail]
      exact carries.burst (burst_fits shared (by omega : 10 ≤ 11) address instruction)
    · rw [List.filterMap_append]
      exact sent
    · simp [airs.whole]
  | false =>
    refine ⟨sound, ⟨frames ++ [(burst 12 address instruction).words], ?_, ?_⟩, ?_⟩
    · have out := carries.burst (burst_fits shared (by omega : 10 ≤ 12) address instruction)
      rw [line_burst, ← bits] at out
      have values : (effects ++ [Effect.use (.event (.signalSend ref)), .bit value]).filterMap Effect.value =
          effects.filterMap Effect.value ++ [value] := by
        rw [List.filterMap_append]
        rfl
      rw [if_neg Bool.false_ne_true, values, ← List.cons_append, List.map_append, List.append_assoc]
      exact out
    · rw [List.filterMap_append]
      exact sent
    · simp [airs.whole]

/-- What is heard so far is the beginning of it. -/
theorem Airs.heard (airs : Airs shared effects signal) :
    receive shared (Signal.moduleInit.1 :: effects.filterMap Effect.value) <+:
      (effects.filterMap Effect.sent).map fun ref => content ref.packet := by
  obtain ⟨frames, carries, words⟩ := airs.line
  have whole := carries.received 0
  rw [Receiver.frames_append] at whole
  rw [← words, ← whole, List.map_append]
  exact List.prefix_append _ _

theorem Airs.received (airs : Airs shared effects signal) (out : signal.ShiftedOut) :
    receive shared (Signal.moduleInit.1 :: effects.filterMap Effect.value) =
      (effects.filterMap Effect.sent).map fun ref => content ref.packet := by
  obtain ⟨frames, carries, words⟩ := airs.line
  rw [(Signal.queue_eq_nil airs.sound).mpr out, List.append_nil] at carries
  rw [receive, carries.received, words]

end Track

namespace Scheduler
open Dcc

/-- A tick sends one packet, and nothing else that it does can be heard. -/
theorem tick_sends (s : Scheduler) : ∃ ref rest, (step s .tick).2 = .signalSend ref :: rest ∧
    rest.filterMap sent = [] := by
  have destroys (packets : List PacketRef) : (packets.map Event.packetDestroy).filterMap sent = [] := by
    rw [List.filterMap_map]
    exact List.filterMap_none packets
  rcases s.ticked with ⟨tx, _, _, _, _, _, events⟩ | ⟨tx, _, _, _, _, _, events⟩ |
    ⟨stop, _, _, _, events⟩ | ⟨_, _, _, events⟩
  · exact ⟨tx, _, events, destroys _⟩
  · refine ⟨tx, _, events, ?_⟩
    rw [List.filterMap_append, List.filterMap_cons_none rfl, destroys, destroys, List.append_nil]
  · exact ⟨stop, [], events, rfl⟩
  · exact ⟨_, [], events, rfl⟩

end Scheduler

namespace CommandStation
open Dcc PartialProgram Track

/-- A raw packet that is handed over is a frame, as all the others are. -/
def Framing (s : CommandStation) : Op → Prop
  | .read null _ => ¬ s.clearing.done < cacheAddrSize → ∀ desk ref, Desk.read null s.desk =
      .ok (.accepted (some ⟨.raw, .packet ref⟩), desk) → ∃ address instruction,
        Framed ref.packet address instruction
  | _ => True

/-- However long the bits are, so many are started from one tick to the next. -/
def bitsPerTick : Nat := Scheduler.tickCycles / Signal.bitCycles Signal.halfPeriod0

/-- TIMER1 keeps up: it starts as many bits between two ticks; `count` are those since
the last. -/
def Paced (count : Nat) : List Op → Prop
  | [] => True
  | .timer0 _ :: ops => bitsPerTick ≤ count ∧ Paced 0 ops
  | .timer1 true :: ops => Paced (count + 1) ops
  | _ :: ops => Paced count ops

instance Paced.decide : (count : Nat) → (ops : List Op) → Decidable (Paced count ops)
  | _, [] => .isTrue trivial
  | count, .timer0 _ :: ops =>
    have := Paced.decide 0 ops
    inferInstanceAs (Decidable (bitsPerTick ≤ count ∧ Paced 0 ops))
  | count, .timer1 true :: ops => Paced.decide (count + 1) ops
  | count, .timer1 false :: ops => Paced.decide count ops
  | count, .receive :: ops => Paced.decide count ops
  | count, .read _ _ :: ops => Paced.decide count ops
  | count, .resetEntry :: ops => Paced.decide count ops

/-- All packets in the hands of the scheduler are of a kind. -/
def Held (P : PacketRef → Prop) (s : CommandStation) : Prop :=
  ∀ ref ∈ s.clearing.scheduler.idlePacket :: s.clearing.scheduler.stock, P ref

variable {P : PacketRef → Prop} {s : CommandStation} {platform : Platform}

theorem Held.clearing (held : Held P s) (op : Clearing.Op) :
    Held P { s with clearing := (s.clearing.step op).1 } := by
  intro ref member
  rcases List.mem_cons.mp member with same | stored
  · apply held
    rw [same, Clearing.step_idlePacket]
    exact List.mem_cons_self
  · exact held ref (List.mem_cons_of_mem _ (Clearing.step_stock stored))

theorem Held.event {event : Event} (held : Held P s) (op : Clearing.Op) (logged : event ∈ (s.clearing.step op).2) :
    P event.packet := by
  rcases Clearing.step_event_mem logged with stored | rfl
  · exact held _ (List.mem_cons_of_mem _ stored)
  · exact held _ List.mem_cons_self

theorem Held.addPacket (held : Held P s) (kind : P ref) : Held P (s.addPacket ref) := by
  intro other member
  rcases List.mem_cons.mp member with same | stored
  · exact held other (List.mem_cons.mpr (Or.inl same))
  · have kept : other ∈ s.clearing.scheduler.stock ∨ other ∈ Scheduler.added [.addPacket ref] :=
      Scheduler.step_stock_mem stored
    rcases kept with old | new
    · exact held other (List.mem_cons_of_mem _ old)
    · rw [List.mem_singleton.mp new]
      exact kind

variable (platform) in
/-- A call can be heard of only by the packet that it hands over. -/
theorem Held.answer (held : Held P s) (memFree : BitVec 16) (reading : Desk.Reading)
    (given : ∀ type ref, type = .raw ∨ type = .dcc →
      reading = .accepted (some ⟨type, .packet ref⟩) → P ref) :
    Held P (s.answer platform memFree reading).1 ∧
      (s.answer platform memFree reading).1.signal = s.signal ∧
      ∀ effect ∈ (s.answer platform memFree reading).2, ∃ ref, effect = .use (.shown ref) := by
  have quiet : ∀ effect ∈ ([] : List Effect), ∃ ref, effect = .use (.shown ref) := by simp
  have obeyed := obeyed platform memFree reading s
  generalize s.answer platform memFree reading = next at obeyed ⊢
  cases obeyed with
  | nothing | blank | rejected | mute => exact ⟨held, rfl, quiet⟩
  | packet type ref kind =>
    have told : Held P ((((s.account Sys.parseOkIncrement).print "ok\n\n".toList).account
        (·.processDccTx ref.packet)).print prompt) := held
    exact ⟨told.addPacket (given type ref kind rfl), rfl, quiet⟩
  | cmd cmd =>
    have called := called platform memFree cmd
      ((s.account Sys.parseOkIncrement).account Sys.processSysCmd)
    generalize CommandStation.call platform memFree cmd _ = next at called ⊢
    cases called with
    | prints text other =>
      refine ⟨held, rfl, fun effect member => ?_⟩
      obtain ⟨ref, -, rfl⟩ := List.mem_map.mp member
      exact ⟨ref, rfl⟩
    | clears | mute => exact ⟨held, rfl, quiet⟩

/-- What a receiver hears is what has been sent, and all of it is in good order. -/
structure Heard (shared : Bool) (count : Nat) (effects : List Effect) (s : CommandStation) : Prop where
  airs : Airs shared effects s.signal
  left : s.signal.queue.length ≤ bitsPerTick - count
  held : Held (fun ref => ∃ address instruction, Framed ref.packet address instruction) s
  checks : ∀ ref ∈ effects.filterMap Effect.sent, Checks (content ref.packet)

theorem heard_start (shared : Bool) (memory : Scheduler.Memory) (buf : Vector Char 50)
    (wire : List Rx) : Heard shared bitsPerTick [] (start memory buf wire) := by
  refine ⟨airs_start shared, ?_, ?_, by simp⟩
  · have idle : Signal.moduleInit.2.queue = [] := by decide
    exact Nat.le_of_eq ((congrArg List.length idle).trans (Nat.sub_self _).symm)
  · intro ref member
    have stock : (start memory buf wire).clearing.scheduler.stock = [] :=
      Scheduler.stock_moduleInit memory
    rw [stock, List.mem_singleton] at member
    subst member
    exact (Source.idle rfl).framed

variable {shared : Bool} {count : Nat} {effects : List Effect}

theorem Heard.quiet (heard : Heard shared count effects s) {next : CommandStation}
    {more : List Effect} (signal : next.signal = s.signal)
    (values : more.filterMap Effect.value = []) (sends : more.filterMap Effect.sent = [])
    (whole : .abort ∉ more)
    (held : Held (fun ref => ∃ address instruction, Framed ref.packet address instruction) next) :
    Heard shared count (effects ++ more) next := by
  refine ⟨?_, ?_, held, ?_⟩
  · rw [signal]
    exact heard.airs.quiet values sends whole
  · rw [signal]
    exact heard.left
  · rw [List.filterMap_append, sends, List.append_nil]
    exact heard.checks

theorem modulateAll_quiet (late : Bool) (signal : Signal) (events : List Event)
    (quiet : events.filterMap Scheduler.sent = []) :
    modulateAll late signal events = (signal, events.map (.use ∘ .event)) := by
  induction events with
  | nil => rfl
  | cons event rest ih =>
    cases event with
    | signalSend ref => contradiction
    | cacheUpdate ref =>
      simp only [modulateAll, modulate, ih quiet]
      rfl
    | packetDestroy ref =>
      simp only [modulateAll, modulate, ih quiet]
      rfl

/-- What is sent does not depend on the modulator. -/
theorem modulateAll_sent (late : Bool) (signal : Signal) (events : List Event) :
    (modulateAll late signal events).2.filterMap Effect.sent = events.filterMap Scheduler.sent := by
  induction events generalizing signal with
  | nil => rfl
  | cons event rest ih =>
    rw [modulateAll, List.filterMap_append, ih]
    cases event with
    | signalSend ref =>
      cases sending : signal.send ref.packet.bytes ref.packet.size with
      | none => simp [modulate, sending, Effect.sent, Scheduler.sent]
      | some pair => cases late <;> simp [modulate, sending, Effect.sent, Scheduler.sent]
    | cacheUpdate ref => rfl
    | packetDestroy ref => rfl

/-- Events that are no transmissions have no part in what is heard. -/
theorem unheard_events (events : List Event) (quiet : events.filterMap Scheduler.sent = []) :
    (events.map (Effect.use ∘ .event)).filterMap Effect.value = [] ∧
      (events.map (Effect.use ∘ .event)).filterMap Effect.sent = [] ∧
      .abort ∉ events.map (Effect.use ∘ .event) := by
  refine ⟨?_, ?_, by simp⟩
  · rw [List.filterMap_map]
    exact List.filterMap_none events
  · rw [List.filterMap_map, ← quiet]
    apply List.filterMap_congr
    intro event _
    cases event <;> rfl

theorem Heard.timer0 (heard : Heard shared count effects s) (enough : bitsPerTick ≤ count)
    (late : Bool) : Heard shared 0 (effects ++ (s.step platform (.timer0 late)).2)
      (s.step platform (.timer0 late)).1 := by
  obtain ⟨ref, rest, events, quiet⟩ := s.clearing.scheduler.tick_sends
  have ticked : (s.clearing.step .tick).2 = .signalSend ref :: rest := events
  have sent : .signalSend ref ∈ (s.clearing.step .tick).2 := by
    rw [ticked]
    exact List.mem_cons_self
  obtain ⟨address, instruction, framed⟩ : ∃ address instruction,
      Framed ref.packet address instruction := heard.held.event .tick sent
  have out : s.signal.ShiftedOut := by
    apply (Signal.queue_eq_nil heard.airs.sound).mp
    apply List.length_eq_zero_iff.mp
    have left := heard.left
    rw [Nat.sub_eq_zero_of_le enough] at left
    exact Nat.le_zero.mp left
  obtain ⟨value, next, sending, length, airs⟩ := heard.airs.send out late framed
  obtain ⟨values, sends, whole⟩ := unheard_events rest quiet
  have modulated : modulateAll late s.signal (.signalSend ref :: rest) =
      (next, (.use (.event (.signalSend ref)) :: if late then [] else [.bit value]) ++
        rest.map (.use ∘ .event)) := by
    simp only [modulateAll, modulate, sending, modulateAll_quiet late next rest quiet]
  have same : effects ++ (s.step platform (.timer0 late)).2 =
      (effects ++ .use (.event (.signalSend ref)) :: if late then [] else [.bit value]) ++
        rest.map (.use ∘ .event) := by
    rw [List.append_assoc, step, ticked, modulated]
  have signal : (s.step platform (.timer0 late)).1.signal = next := by
    rw [step, ticked, modulated]
  refine ⟨?_, ?_, heard.held.clearing .tick, ?_⟩
  · rw [same, signal]
    exact airs.quiet values sends whole
  · rw [signal, length]
    decide
  · rw [same, List.filterMap_append, sends, List.append_nil, List.filterMap_append]
    intro other member
    rcases List.mem_append.mp member with old | new
    · exact heard.checks other old
    · have only : other ∈ [ref] := by
        cases late <;> exact new
      rw [List.mem_singleton.mp only]
      exact framed.checks

theorem Heard.timer1 (heard : Heard shared count effects s) (pind : Bool) :
    Heard shared (count + pind.toNat) (effects ++ (s.step platform (.timer1 pind)).2)
      (s.step platform (.timer1 pind)).1 := by
  refine ⟨heard.airs.timer1 pind, ?_, heard.held, ?_⟩
  · have left := heard.left
    cases pind with
    | false => exact left
    | true =>
      obtain ⟨value, next, loaded, -, -, rest⟩ := Signal.timer1CompaVect_high heard.airs.sound
      have signal : (s.step platform (.timer1 true)).1.signal = next := by rw [step, loaded]
      rw [signal, rest, List.length_tail, Bool.toNat_true]
      omega
  · have sends : (s.step platform (.timer1 pind)).2.filterMap Effect.sent = [] := by
      rw [step]
      generalize s.signal.timer1CompaVect pind = loaded
      obtain ⟨value, signal⟩ := loaded
      cases value <;> rfl
    rw [List.filterMap_append, sends, List.append_nil]
    exact heard.checks

theorem Heard.read (heard : Heard shared count effects s) (null : Bool) (memFree : BitVec 16)
    (framing : Framing s (.read null memFree)) :
    Heard shared count (effects ++ (s.step platform (.read null memFree)).2)
      (s.step platform (.read null memFree)).1 := by
  have still : Heard shared count (effects ++ []) s := heard.quiet rfl rfl rfl (by simp) heard.held
  have step := step_read platform memFree null s
  generalize s.step platform (.read null memFree) = next at step ⊢
  cases step with
  | busy | stuck => exact still
  | @answers reading desk free read =>
    have given : ∀ type ref, type = .raw ∨ type = .dcc →
        reading = .accepted (some ⟨type, .packet ref⟩) →
        ∃ address instruction, Framed ref.packet address instruction := by
      rintro type ref kind rfl
      obtain ⟨called, accepted, result⟩ := Desk.read_accepted read
      rcases kind with rfl | rfl
      · exact framing free desk ref read
      · exact (Source.parsed accepted result rfl).framed
    have held : Held (fun ref => ∃ address instruction, Framed ref.packet address instruction)
        { s with desk } := heard.held
    obtain ⟨after, signal, shown⟩ := held.answer platform memFree reading given
    have unheard {α : Type} {observe : Effect → Option α} (blind : ∀ ref, observe (.use (.shown ref)) = none) :
        (({ s with desk } : CommandStation).answer platform memFree reading).2.filterMap observe = [] := by
      apply List.filterMap_eq_nil_iff.mpr
      intro effect member
      obtain ⟨ref, rfl⟩ := shown effect member
      exact blind ref
    refine heard.quiet signal (unheard fun _ => rfl) (unheard fun _ => rfl) (fun member => ?_) after
    obtain ⟨ref, other⟩ := shown _ member
    contradiction

/-- `Hash_reset` sends nothing. -/
theorem resetEntry_sends (c : Clearing) : (c.step .resetEntry).2.filterMap Scheduler.sent = [] := by
  simp only [Clearing.step]
  split
  · simp only [Hash.resetEntry, Cache.hashEntryDestroy_eq, List.nil_append, List.filterMap_map]
    exact List.filterMap_none _
  · rfl

theorem Heard.resetEntry (heard : Heard shared count effects s) :
    Heard shared count (effects ++ (s.step platform .resetEntry).2)
      (s.step platform .resetEntry).1 := by
  obtain ⟨values, sends, whole⟩ := unheard_events _ (resetEntry_sends s.clearing)
  have held := heard.held.clearing .resetEntry
  have sweeps := step_resetEntry platform s
  generalize s.step platform .resetEntry = next at sweeps ⊢
  cases sweeps with
  | more | last => exact heard.quiet rfl values sends whole held

theorem run_heard (ops : List Op) (heard : Heard shared count effects s)
    (paced : Paced count ops) (framing : Run.Along (step platform) Framing s ops) :
    ∃ count', Heard shared count' (effects ++ Run.log (step platform) s ops)
      (Run.final (step platform) s ops) := by
  induction ops generalizing s count effects with
  | nil =>
    refine ⟨count, ?_⟩
    rw [Run.log, List.append_nil]
    exact heard
  | cons op rest ih =>
    obtain ⟨first, later⟩ := framing
    have next : ∃ count', Heard shared count' (effects ++ (s.step platform op).2)
        (s.step platform op).1 ∧ Paced count' rest := by
      cases op with
      | receive =>
        have still : Heard shared count (effects ++ []) { s with desk := s.desk.receive } :=
          heard.quiet rfl rfl rfl (by simp) heard.held
        exact ⟨count, still, paced⟩
      | read null memFree => exact ⟨count, heard.read null memFree first, paced⟩
      | timer0 late => exact ⟨0, heard.timer0 paced.1 late, paced.2⟩
      | timer1 pind =>
        refine ⟨count + pind.toNat, heard.timer1 pind, ?_⟩
        cases pind <;> exact paced
      | resetEntry => exact ⟨count, heard.resetEntry, paced⟩
    obtain ⟨count', after, paced'⟩ := next
    rw [Run.log, Run.final, ← List.append_assoc]
    exact ih after paced' later

/-- Whatever the host sends, and in whatever order bytes, ticks and bits come: a receiver
hears no packet but those sent, in order, and all of them whenever the last one is out;
each checks, and `Signal_send` never fails. -/
theorem track_hears (shared : Bool) (platform : Platform) (memory : Scheduler.Memory)
    (buf : Vector Char 50) (wire : List Rx) (ops : List Op) (paced : Paced bitsPerTick ops)
    (framing : Run.Along (step platform) Framing (start memory buf wire) ops) :
    let log := Run.log (step platform) (start memory buf wire) ops
    let heard := receive shared (Signal.moduleInit.1 :: log.filterMap Effect.value)
    let sent := (log.filterMap Effect.sent).map fun ref => content ref.packet
    heard <+: sent ∧
      ((Run.final (step platform) (start memory buf wire) ops).signal.ShiftedOut → heard = sent) ∧
      (∀ bytes ∈ heard, Checks bytes) ∧ .abort ∉ log := by
  obtain ⟨count, airs, -, -, checks⟩ := run_heard ops (heard_start shared memory buf wire) paced framing
  rw [List.nil_append] at airs checks
  have initial : receive shared (Signal.moduleInit.1 ::
      (Run.log (step platform) (start memory buf wire) ops).filterMap Effect.value) <+:
      ((Run.log (step platform) (start memory buf wire) ops).filterMap Effect.sent).map
        fun ref => content ref.packet := airs.heard
  refine ⟨initial, airs.received, fun bytes member => ?_, airs.whole⟩
  obtain ⟨ref, sent, rfl⟩ := List.mem_map.mp (initial.subset member)
  exact checks ref sent

def typing (text : String) : CommandStation :=
  start .zero (.replicate 50 ' ')
    (text.toList.map fun c => { c, frameError := false, overrun := false })

def quietPlatform : Platform := { percent := fun _ _ => [] }

def oneLine : List Op :=
  [.receive, .read false 0, .timer0 false] ++ List.replicate 40 (.timer1 true)

def noRaw : Except Fault (Desk.Reading × Desk) → Bool
  | .ok (.accepted (some result), _) => result.type != .raw
  | _ => true

theorem track_hears_stop : receive false (Signal.moduleInit.1 ::
    (Run.log (step quietPlatform) (typing "stop\r") oneLine).filterMap Effect.value) =
      [[0x00, 0x70, 0x70]] := by
  have waits (s : CommandStation) (count : Nat) :
      Run.Along (step quietPlatform) Framing s (List.replicate count (.timer1 true)) := by
    induction count generalizing s with
    | zero => trivial
    | succ count ih => exact ⟨trivial, ih _⟩
  have driving : noRaw (Desk.read false
      (Run.final (step quietPlatform) (typing "stop\r") [.receive]).desk) = true := by
    decide +kernel
  have framing : Run.Along (step quietPlatform) Framing (typing "stop\r") oneLine := by
    refine Run.along_append.mpr ⟨⟨trivial, fun _ desk ref read => ?_, trivial, trivial⟩, waits _ _⟩
    rw [Run.final, Run.final, read] at driving
    contradiction
  obtain ⟨-, whole, -, -⟩ := track_hears false quietPlatform .zero (.replicate 50 ' ') _ oneLine
    (by decide) framing
  exact (whole (by decide +kernel)).trans (by decide +kernel)

end CommandStation
end Freedcc
