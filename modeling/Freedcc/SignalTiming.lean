import Freedcc.RawPackets
import Freedcc.Serialiser
import Mathlib.Data.Bool.Count

/-! The time a packet needs on the track, in CPU cycles, against the time from one
tick of TIMER0 to the next, when `Signal_send` starts on another packet. -/
namespace Freedcc

namespace Scheduler

/-- `SCHEDULER_FLUSH_PERIOD`, at a prescaler of 1024. -/
def flushPeriod : Nat := 124

def tickCycles : Nat := (flushPeriod + 1) * 1024

end Scheduler

namespace Signal
open Dcc Freedcc.Parser

/-- A bit with this value of OCR1A: two halves, each ending with the compare match. -/
def bitCycles (value : Nat) : Nat := 2 * (value + 1)

def shiftTime (packet : Packet) : Nat := (packet.bits.map fun bit => bitCycles (halfPeriod bit)).sum

def zeroBits (packet : Packet) : Nat := packet.bits.count false

/-- How many 0 bits there may be in the longer packets, by the number of bytes. -/
def zerosAllowed : List (Nat × Nat) := [(5, 39), (6, 30), (7, 21), (8, 12), (9, 3)]

/-- At most four bytes, or few 0 bits. -/
def Brief (packet : Packet) : Prop :=
  packet.size ≤ 4 ∨ ∃ entry ∈ zerosAllowed, packet.size = entry.1 ∧ zeroBits packet ≤ entry.2

instance (packet : Packet) : Decidable (Brief packet) :=
  inferInstanceAs (Decidable (packet.size ≤ 4 ∨
    ∃ entry ∈ zerosAllowed, packet.size = entry.1 ∧ zeroBits packet ≤ entry.2))

/-- A 0 bit takes 1530 cycles longer than a 1 bit. -/
theorem cycles_eq (bits : List Bool) :
    (bits.map fun bit => bitCycles (halfPeriod bit)).sum =
      1706 * bits.length + 1530 * bits.count false := by
  induction bits with
  | nil => rfl
  | cons bit bits ih =>
    rw [List.map_cons, List.sum_cons, ih, List.length_cons]
    cases bit with
    | true =>
      rw [List.count_cons_of_ne (by decide), show bitCycles (halfPeriod true) = 1706 from rfl]
      omega
    | false =>
      rw [List.count_cons_self, show bitCycles (halfPeriod false) = 1706 + 1530 from rfl]
      omega

theorem shiftTime_eq (packet : Packet) :
    shiftTime packet = 13648 * packet.size + 1530 * zeroBits packet := by
  rw [shiftTime, cycles_eq, bits_length, zeroBits]
  omega

theorem zeroBits_le (packet : Packet) : zeroBits packet ≤ 8 * packet.size := by
  rw [← bits_length]
  exact List.count_le_length

theorem brief_iff {packet : Packet} (short : packet.size ≤ 10) :
    shiftTime packet ≤ Scheduler.tickCycles ↔ Brief packet := by
  have zeros := zeroBits_le packet
  have period : Scheduler.tickCycles = 128000 := rfl
  rw [shiftTime_eq, period, Brief]
  simp only [zerosAllowed, List.mem_cons, List.not_mem_nil, or_false, exists_eq_or_imp,
    exists_eq_left]
  omega

/-- Every packet that drives has a 1 bit. -/
theorem frame_brief (address : BitVec 7) (direction : Bool) (speed : BitVec 5) :
    Brief (frame address direction speed).packet := by
  refine Or.inr ⟨(5, 39), by simp [zerosAllowed], rfl, ?_⟩
  have ones : 12 ≤ (frame address direction speed).packet.bits.count true := by
    rw [bits_frame, baselineFrame]
    simp only [List.append_assoc, List.count_append, List.count_replicate_self]
    exact Nat.le_add_right _ _
  have both := List.count_false_add_count_true (frame address direction speed).packet.bits
  have length := bits_length (frame address direction speed).packet
  have size : (frame address direction speed).packet.size = 5 := rfl
  change zeroBits _ ≤ 39
  rw [zeroBits]
  omega

theorem stream_length (bits : List Bool) : stream bits bits.length = bits.map halfPeriod := by
  induction bits with
  | nil => rfl
  | cons bit bits ih =>
    rw [List.length_cons, stream_succ, List.headD_cons, List.tail_cons, ih, List.map_cons]

/-- Each interrupt that finds the pin high takes one bit off the queue. -/
theorem interrupts_drop {signal : Signal} (sound : signal.Sound) (pins : List Bool) :
    (signal.interrupts pins).2.queue = signal.queue.drop (pins.count true) := by
  induction pins generalizing signal with
  | nil => rfl
  | cons pind pins ih =>
    cases pind with
    | false => exact ih sound
    | true =>
      obtain ⟨value, next, step, kept, -, rest⟩ := timer1CompaVect_high sound
      rw [List.count_cons_self, ← List.drop_tail, ← rest, ← ih kept]
      simp only [interrupts, step]

/-- The modulator has let the last bit out after that time, whatever it was doing before. -/
theorem send_shifts {packet : Packet} (filled : 0 < packet.size) (fits : packet.size ≤ maxBytes)
    (before : Signal) : ∃ value sent, before.send packet.bytes packet.size = some (value, sent) ∧
      ∀ pins, pins.count true + 1 = 8 * packet.size →
        ((value :: (sent.interrupts pins).1).map bitCycles).sum = shiftTime packet ∧
          (sent.interrupts pins).2.ShiftedOut := by
  obtain ⟨value, sent, sending, sound, bits⟩ := send_queue filled fits before
  refine ⟨value, sent, sending, fun pins enough => ?_⟩
  have first := send_value fits sending
  rw [← bits_length, ← bits, List.length_cons, Nat.succ_inj] at enough
  constructor
  · have values : value :: (sent.interrupts pins).1 = packet.bits.map halfPeriod := by
      rw [interrupts_stream sound, enough, stream_length, ← bits, List.map_cons, ← first]
    rw [values, List.map_map]
    rfl
  · apply (queue_eq_nil (interrupts_queue sound pins).1).mp
    rw [interrupts_drop sound, enough, List.drop_length]

/-- A packet is shifted out before the next tick exactly if it is short or has few
0 bits; one that drives always is. The time is what the modulator takes for it. -/
theorem packet_fits_tick_iff {δ : Type} [Stdin δ] (null : Bool) (parser next : Parser (Scanner δ))
    (type : ResType) (ref : PacketRef) (accepted : parserStart (some null) parser = .ok (true, next))
    (result : next.result = some ⟨type, .packet ref⟩) (kind : type = .dcc ∨ type = .raw) :
    (shiftTime ref.packet ≤ Scheduler.tickCycles ↔ Brief ref.packet) ∧
      (type = .dcc → Brief ref.packet) ∧
      (0 < ref.packet.size → ∀ before : Signal, ∃ value sent,
        before.send ref.packet.bytes ref.packet.size = some (value, sent) ∧
          ∀ pins, pins.count true + 1 = 8 * ref.packet.size →
            ((value :: (sent.interrupts pins).1).map bitCycles).sum = shiftTime ref.packet ∧
              (sent.interrupts pins).2.ShiftedOut) := by
  have drives : type = .dcc → ∃ address direction speed,
      ref.packet = (frame address direction speed).packet := by
    rintro rfl
    obtain ⟨ref', address, direction, speed, -, -, same, written, -⟩ :=
      parserStart_written accepted result
    cases same
    exact ⟨address, direction, speed, written⟩
  have size : ref.packet.size ≤ 10 := by
    rcases kind with driving | rfl
    · obtain ⟨address, direction, speed, written⟩ := drives driving
      rw [written]
      change 5 ≤ 10
      omega
    · exact (parserStart_raw accepted result).size
  refine ⟨brief_iff size, fun driving => ?_, fun filled before => ?_⟩
  · obtain ⟨address, direction, speed, written⟩ := drives driving
    rw [written]
    exact frame_brief address direction speed
  · exact send_shifts filled (Nat.le_trans size (by decide)) before

theorem outcome_sparse : outcome (parserStart (some false) (typed "raw 0x0000000000\n")) =
    some (true, some ⟨.raw, .packet ⟨0, ⟨[0, 0, 0, 0, 0]⟩⟩⟩) := by
  decide +kernel

theorem packet_fits_tick_stop : shiftTime (frame 0 true 0x11).packet ≤ Scheduler.tickCycles := by
  obtain ⟨next, accepted, result⟩ := outcome_eq_some.mp outcome_stopAll
  obtain ⟨fits, brief, -⟩ := packet_fits_tick_iff false _ next .dcc _ accepted result (Or.inl rfl)
  exact fits.mpr (brief rfl)

/-- Five bytes of 0 bits are accepted, and take longer than a tick. -/
theorem sparse_cut_short : ∃ next ref,
    parserStart (some false) (typed "raw 0x0000000000\n") = .ok (true, next) ∧
      next.result = some ⟨.raw, .packet ref⟩ ∧ Scheduler.tickCycles < shiftTime ref.packet := by
  obtain ⟨next, accepted, result⟩ := outcome_eq_some.mp outcome_sparse
  exact ⟨next, _, accepted, result, by decide⟩

end Signal
end Freedcc
