import Freedcc.Signal

/-! The bit serialiser over runs of any length: what OCR1A is given is the packet,
bit by bit, and then 1 bits for ever, and no byte outside of the packet is read.
For the latter the functions are written again with every access checked. -/
namespace Freedcc.Signal
open Dcc

/-- `bytes[cur_byte] & (1 << cur_bit)`, inside the packet and inside the byte. -/
def currentChecked (signal : Signal) : Option Byte :=
  if signal.curByte < signal.size ∧ signal.curBit < 8 then some signal.current else none

/-- One iteration of the copying loop. -/
def copyChecked (bytes : List Byte) (buffer : Vector Byte 15) (i : Nat) :
    Option (Vector Byte 15) := do
  let byte ← bytes[i]?
  if i < 15 then some (buffer.setIfInBounds i byte) else none

def sendChecked (bytes : List Byte) (size : Nat) (signal : Signal) : Option (Nat × Signal) :=
  if size ≤ maxBytes then do
    let buffer ← (List.range size).foldlM (copyChecked bytes) signal.bytes
    let signal := { bytes := buffer, size, curByte := 0, curBit := 7 : Signal }
    let bit ← signal.currentChecked
    return (generateBit bit, { signal with curBit := signal.curBit - 1 })
  else none

def timer1CompaVectChecked (pind : Bool) (signal : Signal) : Option (Option Nat × Signal) :=
  if !pind then some (none, signal)
  else if signal.curByte < signal.size ∧ 0 < signal.curBit then do
    let bit ← signal.currentChecked
    return (some (generateBit bit), { signal with curBit := signal.curBit - 1 })
  else if signal.curByte + 1 < signal.size ∧ signal.curBit = 0 then do
    let bit ← signal.currentChecked
    return (some (generateBit bit), { signal with curByte := signal.curByte + 1, curBit := 7 })
  else if signal.curByte + 1 = signal.size ∧ signal.curBit = 0 then do
    let bit ← signal.currentChecked
    return (some (generateBit bit), { signal with curByte := signal.curByte + 1 })
  else some (some (generateBit 1), signal)

def interruptsChecked (signal : Signal) : List Bool → Option (List Nat × Signal)
  | [] => some ([], signal)
  | pind :: rest => do
    let (value, signal) ← signal.timer1CompaVectChecked pind
    let (values, signal) ← signal.interruptsChecked rest
    return (value.toList ++ values, signal)

def halfPeriod (bit : Bool) : Nat := if bit then halfPeriod1 else halfPeriod0

theorem generateBit_eq (bit : Byte) : generateBit bit = halfPeriod (isOne (generateBit bit)) := by
  rw [isOne_generateBit]
  by_cases zero : bit = 0
  · subst zero
    rfl
  · have other : (bit != 0) = true := bne_iff_ne.mpr zero
    rw [generateBit, if_neg zero, other]
    rfl

section Checks
variable {signal : Signal}

theorem currentChecked_eq (inside : signal.curByte < signal.size) (bit : signal.curBit < 8) :
    signal.currentChecked = some signal.current := if_pos ⟨inside, bit⟩

/-- Every branch that reads a byte is taken inside of the packet. -/
theorem timer1CompaVectChecked_eq (sound : signal.Sound) (pind : Bool) :
    signal.timer1CompaVectChecked pind = some (signal.timer1CompaVect pind) := by
  unfold timer1CompaVectChecked timer1CompaVect
  cases pind with
  | false => rfl
  | true =>
    simp only [Bool.not_true, Bool.false_eq_true, if_false]
    split
    · rename_i busy
      rw [currentChecked_eq busy.1 sound.bit]
      rfl
    split
    · rename_i boundary
      have inside : signal.curByte < signal.size := Nat.lt_of_succ_lt boundary.1
      rw [currentChecked_eq inside sound.bit]
      rfl
    split
    · rename_i last
      have inside : signal.curByte < signal.size := Nat.lt_of_succ_le (Nat.le_of_eq last.1)
      rw [currentChecked_eq inside sound.bit]
      rfl
    · rfl

theorem timer1CompaVect_sound (sound : signal.Sound) (pind : Bool) :
    (signal.timer1CompaVect pind).2.Sound := by
  cases pind with
  | false => exact sound
  | true =>
    obtain ⟨value, next, step, kept, -⟩ := timer1CompaVect_high sound
    rw [step]
    exact kept

theorem interruptsChecked_eq (sound : signal.Sound) (pins : List Bool) :
    signal.interruptsChecked pins = some (signal.interrupts pins) := by
  induction pins generalizing signal with
  | nil => rfl
  | cons pind pins ih =>
    have later := ih (timer1CompaVect_sound sound pind)
    simp only [interruptsChecked, timer1CompaVectChecked_eq sound, Option.bind_eq_bind,
      Option.bind_some, later, interrupts]
    rfl

theorem copyChecked_eq {bytes : List Byte} (buffer : Vector Byte 15) (size : Nat)
    (given : size ≤ bytes.length) (fits : size ≤ 15) :
    (List.range size).foldlM (copyChecked bytes) buffer =
      some ((List.range size).foldl
        (fun (buffer : Vector Byte 15) i => buffer.setIfInBounds i (bytes.getD i 0)) buffer) := by
  induction size with
  | zero => rfl
  | succ size ih =>
    have inside : size < bytes.length := given
    have short : size < 15 := fits
    rw [List.range_succ, List.foldlM_append, ih (Nat.le_of_succ_le given) (Nat.le_of_succ_le fits),
      List.foldl_append]
    simp [copyChecked, inside, short]

theorem sendChecked_eq {bytes : List Byte} (filled : 0 < bytes.length)
    (fits : bytes.length ≤ maxBytes) (signal : Signal) :
    signal.sendChecked bytes bytes.length = signal.send bytes bytes.length := by
  unfold sendChecked send
  rw [if_pos fits, if_pos fits, copyChecked_eq _ _ (Nat.le_refl _) fits]
  simp only [Option.bind_eq_bind, Option.bind_some]
  rw [currentChecked_eq filled (Nat.lt_succ_self 7)]
  rfl

end Checks

section Values
variable {signal : Signal}

theorem bits_length (packet : Packet) : packet.bits.length = 8 * packet.size := by
  simp [Packet.bits, Packet.size, List.length_flatMap, length_byteBits, Nat.mul_comm]

theorem send_value {bytes : List Byte} {size : Nat} {next : Signal} (fits : size ≤ maxBytes)
    (sending : Signal.send bytes size signal = some (value, next)) :
    value = halfPeriod (isOne value) := by
  rw [send, if_pos fits] at sending
  obtain ⟨rfl, -⟩ := Prod.mk.inj (Option.some.inj sending)
  exact generateBit_eq _

theorem timer1CompaVect_value (value : Nat) (loads : (signal.timer1CompaVect true).1 = some value) :
    value = halfPeriod (isOne value) := by
  have generated : ∃ bit, generateBit bit = value := by
    simp only [timer1CompaVect, Bool.not_true, Bool.false_eq_true, if_false] at loads
    split at loads
    · exact ⟨_, Option.some.inj loads⟩
    split at loads
    · exact ⟨_, Option.some.inj loads⟩
    split at loads
    · exact ⟨_, Option.some.inj loads⟩
    · exact ⟨_, Option.some.inj loads⟩
  obtain ⟨bit, rfl⟩ := generated
  exact generateBit_eq bit

def stream (bits : List Bool) (count : Nat) : List Nat :=
  (List.range count).map fun i => halfPeriod (bits.getD i true)

theorem stream_succ (bits : List Bool) (count : Nat) :
    stream bits (count + 1) = halfPeriod (bits.headD true) :: stream bits.tail count := by
  rw [stream, List.range_succ_eq_map, List.map_cons, List.map_map]
  cases bits with
  | nil => rfl
  | cons bit bits => rfl

/-- As many bits are loaded as interrupts find the pin high. -/
theorem interrupts_stream (sound : signal.Sound) (pins : List Bool) :
    (signal.interrupts pins).1 = stream signal.queue (pins.count true) := by
  induction pins generalizing signal with
  | nil => rfl
  | cons pind pins ih =>
    cases pind with
    | false => exact ih sound
    | true =>
      obtain ⟨value, next, step, kept, one, rest⟩ := timer1CompaVect_high sound
      have loaded : value = halfPeriod (isOne value) := timer1CompaVect_value value (by rw [step])
      rw [List.count_cons_self, stream_succ, ← rest, ← ih kept, ← one, ← loaded]
      simp only [interrupts, step]
      rfl

end Values

/-- From one `Signal_send` to the next, whatever was being sent before: the bits
of the packet in order and then 1 bits, one for each interrupt that finds the pin
high; the others change nothing, and every access stays inside. -/
theorem packet_serialised (packet : Packet) (filled : 0 < packet.size)
    (fits : packet.size ≤ maxBytes) (before : Signal) :
    ∃ value sent, before.sendChecked packet.bytes packet.size = some (value, sent) ∧
      before.send packet.bytes packet.size = some (value, sent) ∧
      packet.bits.length = 8 * packet.size ∧
      ∀ pins, value :: (sent.interrupts pins).1 = stream packet.bits (pins.count true + 1) ∧
        sent.interruptsChecked pins = some (sent.interrupts pins) ∧
        (sent.interrupts pins).2.curBit < 8 ∧
        (sent.interrupts pins).2.timer1CompaVect false = (none, (sent.interrupts pins).2) := by
  obtain ⟨value, sent, sending, sound, bits⟩ := send_queue filled fits before
  have checked : before.sendChecked packet.bytes packet.size = some (value, sent) :=
    (sendChecked_eq filled fits before).trans sending
  have first := send_value fits sending
  refine ⟨value, sent, checked, sending, bits_length packet, fun pins => ⟨?_, ?_, ?_, rfl⟩⟩
  · rw [interrupts_stream sound, ← bits, stream_succ, List.headD_cons, ← first]
    rfl
  · exact interruptsChecked_eq sound pins
  · exact (interrupts_queue sound pins).1.bit

/-- A one-byte packet, while another is on its way. -/
theorem packet_serialised_byte : ∃ value sent,
    send [0xA5] 1 { bytes := .replicate 15 0xFF, size := 7, curByte := 3, curBit := 5 } =
      some (value, sent) ∧
    value :: (sent.interrupts [true, true, false, true, true, true, true, true, false, true]).1 =
      [852, 1617, 852, 1617, 1617, 852, 1617, 852, 852] := by
  obtain ⟨value, sent, -, sending, -, runs⟩ := packet_serialised ⟨[0xA5]⟩ (by decide) (by decide)
    { bytes := .replicate 15 0xFF, size := 7, curByte := 3, curBit := 5 }
  refine ⟨value, sent, sending, ?_⟩
  rw [(runs _).1]
  decide

end Freedcc.Signal
