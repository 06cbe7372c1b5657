import Freedcc.Lib.BitFraming
import Freedcc.ParserFrames
import Freedcc.Signal

/-! What an S-9.2 receiver makes of the track signal: the packets that were
sent, whatever 1 bits stand between them, and also where `Signal_send` was
called in the second half of a bit. -/
namespace Freedcc.Track
open Dcc Freedcc.Parser BitFraming

/-- The packets that reach the track on their own: the idle packet, and those
the parser hands over. -/
inductive Source (packet : Packet) : Prop where
  | idle (same : packet = specialIdlePacket baselinePacketCreate)
  | parsed {δ : Type} [Stdin δ] {null : Bool} {parser next : Parser (Scanner δ)} {ref : PacketRef}
      (accepted : parserStart (some null) parser = .ok (true, next))
      (result : next.result = some ⟨.dcc, .packet ref⟩) (same : packet = ref.packet)

/-- One call of `Signal_send` and the interrupts after it, each with the level
of the output pin. In the second half of a bit (`late`) the first bit of the
packet is only the rest of the bit before it. -/
structure Transmission where
  packet : Packet
  source : Source packet
  late : Bool
  pins : List Bool

/-- The values of OCR1A that make a bit of their own. -/
def Transmission.own (t : Transmission) (value : Nat) (values : List Nat) : List Nat :=
  if t.late then values else value :: values

/-- `none` when an assertion of `Signal_send` fails. -/
def transmit (signal : Signal) : List Transmission → Option (List Nat)
  | [] => some []
  | t :: rest => do
      let (value, sent) ← signal.send t.packet.bytes t.packet.size
      let (values, signal) := sent.interrupts t.pins
      let later ← transmit signal rest
      return t.own value values ++ later

/-- Every packet is shifted out before the next one, and at the end. -/
def Paced (signal : Signal) : List Transmission → Prop
  | [] => True
  | t :: rest => ∀ sent ∈ signal.send t.packet.bytes t.packet.size,
      (sent.2.interrupts t.pins).2.ShiftedOut ∧ Paced (sent.2.interrupts t.pins).2 rest

instance Paced.decide : (signal : Signal) → (transmissions : List Transmission) →
    Decidable (Paced signal transmissions)
  | _, [] => .isTrue trivial
  | signal, t :: rest =>
      have (sent : Nat × Signal) := Paced.decide (sent.2.interrupts t.pins).2 rest
      inferInstanceAs (Decidable (∀ sent ∈ signal.send t.packet.bytes t.packet.size,
        (sent.2.interrupts t.pins).2.ShiftedOut ∧ Paced (sent.2.interrupts t.pins).2 rest))

/-- From `Signal_module_init` on; `before` are the interrupts before the first packet. -/
def broadcast (before : List Bool) (transmissions : List Transmission) : Option (List Nat) := do
  let (value, signal) := Signal.moduleInit
  let (values, signal) := signal.interrupts before
  let later ← transmit signal transmissions
  return value :: values ++ later

/-- The baseline packets of S-9.2. Whether the end bit of a packet is also a
preamble bit of the next one is left to the receiver. -/
def s92 (shared : Bool) : Format := { preamble := 10, width := 8, carried := shared.toNat }

def ofBits (bits : Word) : Byte := bits.foldl BitVec.shiftConcat 0

/-- The bytes of the packets that a receiver hears. -/
def receive (shared : Bool) (values : List Nat) : List (List Byte) :=
  ((Receiver.waiting 0).frames (s92 shared) (values.map Signal.isOne)).map (·.map ofBits)

/-- Address, instruction and error byte. The idle packet is the one to the
address of no decoder. -/
def content (packet : Packet) : List Byte :=
  if packet = specialIdlePacket baselinePacketCreate then [0xFF, 0x00, 0xFF]
  else [getAddress packet, getSpeedAndDirection packet,
    getAddress packet ^^^ getSpeedAndDirection packet]

def Checks (bytes : List Byte) : Prop := bytes.foldl (· ^^^ ·) 0 = 0

theorem ofBits_byteBits : ∀ byte : Byte, ofBits (byteBits byte) = byte := by decide

def burst (ones : Nat) (address instruction : Byte) : Burst :=
  { ones, words := [address, instruction, address ^^^ instruction].map byteBits }

theorem burst_fits (shared : Bool) {ones : Nat} (enough : 10 ≤ ones) (address instruction : Byte) :
    (burst ones address instruction).Fits (s92 shared) := by
  constructor
  · exact enough
  · simp [burst]
  · simp only [burst, List.forall_mem_map]
    exact fun byte _ => length_byteBits byte

theorem line_burst (address instruction : Byte) :
    (burst 12 address instruction).line = baselineFrame address instruction := by
  simp [Burst.line, burst, spaced, baselineFrame]

/-- Without its first bit a frame still has eleven preamble bits. -/
theorem tail_baselineFrame (address instruction : Byte) :
    (baselineFrame address instruction).tail = (burst 11 address instruction).line := by
  simp [Burst.line, burst, spaced, baselineFrame, List.replicate_succ]

/-- Five bytes that spell a frame of what they carry. -/
structure Framed (packet : Packet) (address instruction : Byte) : Prop where
  size : packet.size = baselineLen
  bits : packet.bits = baselineFrame address instruction
  content : content packet = [address, instruction, address ^^^ instruction]

theorem Framed.checks {packet : Packet} (framed : Framed packet address instruction) :
    Checks (Track.content packet) := by
  rw [framed.content, Checks]
  simp

theorem Source.framed {packet : Packet} (source : Source packet) :
    ∃ address instruction, Framed packet address instruction := by
  cases source with
  | idle same =>
    subst same
    exact ⟨0xFF, 0x00, by decide, by decide, by decide⟩
  | parsed accepted result same =>
    obtain ⟨ref, address, direction, speed, -, -, payload, written, -⟩ :=
      parserStart_written accepted result
    cases payload
    subst same
    rw [written]
    refine ⟨_, _, rfl, bits_frame address direction speed, ?_⟩
    have driven : (frame address direction speed).packet ≠
        specialIdlePacket baselinePacketCreate := by
      have short : ∀ a : BitVec 7, (0xF0 : Byte) ||| a.setWidth 8 >>> 5 ≠ 0xF7 := by decide
      intro same
      have byte : (frame address direction speed).byte1 = 0xF7 := congrArg (Packet.byte · 1) same
      exact short address byte
    rw [content, if_neg driven, getAddress_packet, getSpeedAndDirection_packet]

/-- What a receiver hears of one transmission. -/
theorem transmission_heard (t : Transmission) (signal : Signal) :
    ∃ value sent address instruction,
      signal.send t.packet.bytes t.packet.size = some (value, sent) ∧ sent.Sound ∧
      Framed t.packet address instruction ∧
      ((sent.interrupts t.pins).2.ShiftedOut →
        (sent.interrupts t.pins).2.Sound ∧ ∃ ones filler, 10 ≤ ones ∧
          (t.own value (sent.interrupts t.pins).1).map Signal.isOne =
            (burst ones address instruction).line ++ List.replicate filler true) := by
  obtain ⟨address, instruction, framed⟩ := t.source.framed
  have filled : 0 < t.packet.size := by rw [framed.size]; decide
  have fits : t.packet.size ≤ Signal.maxBytes := by rw [framed.size]; decide
  obtain ⟨value, sent, sending, sound, bits⟩ := Signal.send_queue filled fits signal
  refine ⟨value, sent, address, instruction, sending, sound, framed, fun done => ?_⟩
  have kept := (Signal.interrupts_queue sound t.pins).1
  obtain ⟨filler, heard⟩ := Signal.interrupts_shiftedOut sound t.pins done
  rw [framed.bits] at bits
  simp only [Transmission.own]
  cases t.late with
  | true =>
    have tail : sent.queue = (burst 11 address instruction).line := by
      rw [← tail_baselineFrame, ← bits, List.tail_cons]
    refine ⟨kept, 11, filler, by omega, ?_⟩
    rw [if_pos rfl, heard, tail]
  | false =>
    refine ⟨kept, 12, filler, by omega, ?_⟩
    rw [if_neg Bool.false_ne_true, List.map_cons, heard, ← List.cons_append, bits, line_burst]

theorem transmit_cons {t : Transmission} {first : Nat} {sent : Signal}
    (sending : signal.send t.packet.bytes t.packet.size = some (first, sent))
    (rest : transmit (sent.interrupts t.pins).2 transmissions = some later) :
    transmit signal (t :: transmissions) =
      some (t.own first (sent.interrupts t.pins).1 ++ later) := by
  simp only [transmit, sending, rest, Option.bind_eq_bind, Option.bind_some, Option.pure_def]

/-- Paced transmissions make bursts of the packets' bytes. -/
theorem transmit_heard (shared : Bool) {signal : Signal} (sound : signal.Sound)
    (transmissions : List Transmission) (paced : Paced signal transmissions) :
    ∃ values, ∃ bursts : List (Burst × Nat), transmit signal transmissions = some values ∧
      values.map Signal.isOne =
        bursts.flatMap (fun sent => sent.1.line ++ List.replicate sent.2 true) ∧
      (∀ sent ∈ bursts, sent.1.Fits (s92 shared)) ∧
      bursts.map (fun sent => sent.1.words.map ofBits) =
        transmissions.map fun t => content t.packet := by
  induction transmissions generalizing signal with
  | nil => exact ⟨[], [], rfl, rfl, by simp, rfl⟩
  | cons t rest ih =>
    obtain ⟨value, sent, address, instruction, sending, -, framed, complete⟩ :=
      transmission_heard t signal
    obtain ⟨done, others⟩ := paced (value, sent) sending
    obtain ⟨kept, ones, filler, enough, heard⟩ := complete done
    obtain ⟨values, bursts, later, line, fits, words⟩ := ih kept others
    refine ⟨_, (burst ones address instruction, filler) :: bursts, transmit_cons sending later,
      ?_, ?_, ?_⟩
    · rw [List.map_append, heard, line, List.flatMap_cons]
    · rintro sent (_ | ⟨_, member⟩)
      · exact burst_fits shared enough address instruction
      · exact fits sent member
    · have first : (burst ones address instruction).words.map ofBits = content t.packet := by
        simp [burst, framed.content, ofBits_byteBits]
      rw [List.map_cons, words, first, List.map_cons]

/-- The signal is uniquely decodable: a receiver hears the packets that were
sent, in order and nothing else, and every one of them checks. -/
theorem signal_decodable (shared : Bool) (before : List Bool) (transmissions : List Transmission)
    (paced : Paced (Signal.moduleInit.2.interrupts before).2 transmissions) :
    ∃ values, broadcast before transmissions = some values ∧
      receive shared values = transmissions.map (fun t => content t.packet) ∧
      ∀ bytes ∈ receive shared values, Checks bytes := by
  have idle : Signal.moduleInit.2.queue = [] := by decide
  obtain ⟨sound, filler, quiet⟩ := Signal.interrupts_queue Signal.sound_moduleInit before
  rw [idle, List.nil_append] at quiet
  obtain ⟨-, ones, -⟩ := List.append_eq_replicate_iff.mp quiet
  obtain ⟨values, bursts, sending, line, fits, words⟩ :=
    transmit_heard shared sound transmissions paced
  have heard : receive shared (Signal.moduleInit.1 :: (Signal.moduleInit.2.interrupts before).1 ++
      values) = transmissions.map fun t => content t.packet := by
    have first : Signal.isOne Signal.moduleInit.1 = true := by decide
    have passes (count : Nat) : (Receiver.waiting 0).Passes (s92 shared)
        (List.replicate count true) (.waiting (0 + count)) := Receiver.waiting_ones 0 count
    rw [receive, List.cons_append, List.map_cons, List.map_append, first, ones, line,
      ← List.cons_append, ← List.replicate_succ,
      (passes _).frames, Receiver.frames_bursts bursts fits, List.map_map]
    exact words
  refine ⟨_, ?_, heard, ?_⟩
  · simp only [broadcast, sending, Option.bind_eq_bind, Option.bind_some]
    rfl
  · rw [heard, List.forall_mem_map]
    intro t member
    obtain ⟨address, instruction, framed⟩ := t.source.framed
    exact framed.checks

theorem source_stopAll : Source (frame 0 true 0x11).packet := by
  obtain ⟨next, accepted, result⟩ := outcome_eq_some.mp outcome_stopAll
  exact .parsed accepted result rfl

def idleAndStop : List Transmission :=
  let pins := List.replicate 40 true
  [{ packet := _, source := .idle rfl, late := false, pins },
    { packet := _, source := source_stopAll, late := true, pins }]

theorem signal_decodable_stop : ∃ values, broadcast [true] idleAndStop = some values ∧
    receive false values = [[0xFF, 0x00, 0xFF], [0x00, 0x71, 0x71]] := by
  obtain ⟨values, sending, heard, -⟩ := signal_decodable false [true] idleAndStop (by decide)
  exact ⟨values, sending, heard.trans (by decide)⟩

end Freedcc.Track
