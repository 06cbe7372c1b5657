import Freedcc.Frame

/-! The signal modulation of signal.c. OCR1A holds the length of half a bit; the
signal is the sequence of values it is given. The differences and decrements of
the `int`s are written so that none goes below zero. -/
namespace Freedcc
open Dcc

structure Signal where
  bytes : Vector Byte 15
  size : Nat
  curByte : Nat
  curBit : Nat
deriving DecidableEq, Repr

namespace Signal

/-- 58 microseconds. -/
def halfPeriod1 : Nat := 852
/-- 110 microseconds. -/
def halfPeriod0 : Nat := 1617
def maxBytes : Nat := 15

/-- The value OCR1A is given. If it's not zero, then it must be a one. -/
def generateBit (bit : Byte) : Nat := if bit = 0 then halfPeriod0 else halfPeriod1

def byte (signal : Signal) (i : Nat) : Byte := signal.bytes[i]?.getD 0

/-- `bytes[cur_byte] & (1 << cur_bit)`. -/
def current (signal : Signal) : Byte :=
  signal.byte signal.curByte &&& ((1 : Byte) <<< signal.curBit)

def moduleInit : Nat × Signal :=
  (generateBit 1, { bytes := .replicate 15 0x00, size := 0, curByte := 0, curBit := 0 })

/-- `none` when the assertion fails. -/
def send (bytes : List Byte) (size : Nat) (signal : Signal) : Option (Nat × Signal) :=
  if size ≤ maxBytes then
    let buffer := (List.range size).foldl
      (fun (buffer : Vector Byte 15) i => buffer.setIfInBounds i (bytes.getD i 0)) signal.bytes
    let signal := { bytes := buffer, size, curByte := 0, curBit := 7 : Signal }
    some (generateBit (signal.current),
      { signal with curBit := signal.curBit - 1 })
  else none

/-- `pind` is whether the output pin is high. In the second half of a bit OCR1A
is left alone. -/
def timer1CompaVect (pind : Bool) (signal : Signal) : Option Nat × Signal :=
  if !pind then (none, signal)
  else if signal.curByte < signal.size ∧ 0 < signal.curBit then
    (some (generateBit signal.current),
      { signal with curBit := signal.curBit - 1 })
  else if signal.curByte + 1 < signal.size ∧ signal.curBit = 0 then
    (some (generateBit signal.current),
      { signal with curByte := signal.curByte + 1, curBit := 7 })
  else if signal.curByte + 1 = signal.size ∧ signal.curBit = 0 then
    (some (generateBit signal.current),
      { signal with curByte := signal.curByte + 1 })
  else (some (generateBit 1), signal)

def interrupts (signal : Signal) : List Bool → List Nat × Signal
  | [] => ([], signal)
  | pind :: rest =>
      let (value, signal) := signal.timer1CompaVect pind
      let (values, signal) := signal.interrupts rest
      (value.toList ++ values, signal)

def ShiftedOut (signal : Signal) : Prop := signal.size ≤ signal.curByte

instance (signal : Signal) : Decidable signal.ShiftedOut :=
  inferInstanceAs (Decidable (signal.size ≤ signal.curByte))

/-- A value of OCR1A as a receiver takes it. -/
def isOne (value : Nat) : Bool := value == halfPeriod1

/-- The bits of a byte from one on down. -/
def lowBits (byte : Byte) (count : Nat) : List Bool := (byteBits byte).drop (8 - count)

theorem isOne_generateBit (bit : Byte) : isOne (generateBit bit) = (bit != 0) := by
  by_cases zero : bit = 0
  · simp [isOne, generateBit, zero, halfPeriod0, halfPeriod1]
  · have other : (bit != 0) = true := bne_iff_ne.mpr zero
    rw [generateBit, if_neg zero, other]
    rfl

theorem masked_ne_zero (byte : Byte) {bit : Nat} (inside : bit < 8) :
    (byte &&& ((1 : Byte) <<< bit) != 0) = byte.getLsbD bit := by
  have power : ∀ bit < 8, ((1 : Byte) <<< bit) ≠ 0 := by decide
  have masked : byte &&& ((1 : Byte) <<< bit) =
      if byte.getLsbD bit then (1 : Byte) <<< bit else 0 := BitVec.and_twoPow byte bit
  rw [masked]
  cases byte.getLsbD bit with
  | false => rfl
  | true => exact bne_iff_ne.mpr (power bit inside)

theorem lowBits_succ (byte : Byte) (bit : Nat) (inside : bit < 8) :
    lowBits byte (bit + 1) = isOne (generateBit (byte &&& ((1 : Byte) <<< bit))) :: lowBits byte bit := by
  have place : 8 - (bit + 1) < (byteBits byte).length := by
    rw [length_byteBits]
    omega
  have next : 8 - (bit + 1) + 1 = 8 - bit := by omega
  have index : 8 - 1 - (8 - (bit + 1)) = bit := by omega
  have small : 8 - (bit + 1) < 8 := by omega
  rw [isOne_generateBit, masked_ne_zero byte inside, lowBits, lowBits,
    List.drop_eq_getElem_cons place, next]
  simp only [byteBits, List.getElem_map, List.getElem_range, BitVec.getMsbD, small, decide_true,
    Bool.true_and, index]

@[simp] theorem lowBits_zero (byte : Byte) : lowBits byte 0 = [] := rfl

def queue (signal : Signal) : List Bool :=
  if signal.curByte < signal.size then
    lowBits (signal.byte signal.curByte) (signal.curBit + 1) ++
      ((signal.bytes.toList.take signal.size).drop (signal.curByte + 1)).flatMap byteBits
  else []

/-- In every state there is, the indices are inside a byte and inside the buffer. -/
structure Sound (signal : Signal) : Prop where
  bit : signal.curBit < 8
  size : signal.size ≤ maxBytes

variable {signal : Signal}

theorem sound_moduleInit : moduleInit.2.Sound := ⟨by decide, by decide⟩

theorem queue_eq_nil (sound : signal.Sound) : signal.queue = [] ↔ signal.ShiftedOut := by
  by_cases busy : signal.curByte < signal.size
  · simp [queue, busy, lowBits_succ _ _ sound.bit, ShiftedOut]
  · simp only [queue, busy, if_false, ShiftedOut, true_iff]
    omega

/-- The bits after those of one byte begin with those of the next. -/
theorem queue_boundary (sound : signal.Sound) (inside : signal.curByte + 1 < signal.size) :
    queue { signal with curByte := signal.curByte + 1, curBit := 7 } =
      ((signal.bytes.toList.take signal.size).drop (signal.curByte + 1)).flatMap byteBits := by
  have bound : signal.curByte + 1 < 15 := Nat.lt_of_lt_of_le inside sound.size
  have length : signal.curByte + 1 < (signal.bytes.toList.take signal.size).length := by
    simp only [List.length_take, Vector.length_toList]
    omega
  have here : (signal.bytes.toList.take signal.size)[signal.curByte + 1] =
      signal.byte (signal.curByte + 1) := by
    simp [byte, bound]
  rw [List.drop_eq_getElem_cons length, List.flatMap_cons, here]
  simp only [queue, inside, if_true]
  rfl

/-- At the start of a bit the interrupt takes the head of the queue, or a 1 when
there is nothing left. -/
theorem timer1CompaVect_high (sound : signal.Sound) :
    ∃ value next, signal.timer1CompaVect true = (some value, next) ∧ next.Sound ∧
      isOne value = signal.queue.headD true ∧ next.queue = signal.queue.tail := by
  have head : lowBits (signal.byte signal.curByte) (signal.curBit + 1) =
      isOne (generateBit signal.current) :: lowBits (signal.byte signal.curByte) signal.curBit :=
    lowBits_succ _ _ sound.bit
  by_cases busy : signal.curByte < signal.size
  · have read : isOne (generateBit signal.current) = signal.queue.headD true := by
      simp [queue, busy, head]
    by_cases more : 0 < signal.curBit
    · have lower : signal.curBit - 1 + 1 = signal.curBit := by omega
      let next := { signal with curBit := signal.curBit - 1 }
      refine ⟨generateBit signal.current, next, by simp [timer1CompaVect, busy, more, next], ?_, read, ?_⟩
      · exact ⟨Nat.lt_of_le_of_lt (Nat.sub_le _ _) sound.bit, sound.size⟩
      · simp only [queue, next, busy, if_true, head, lower]
        rfl
    · have last : signal.curBit = 0 := by omega
      have rest : signal.queue.tail =
          ((signal.bytes.toList.take signal.size).drop (signal.curByte + 1)).flatMap byteBits := by
        rw [last, lowBits_zero] at head
        simp [queue, busy, last, head]
      by_cases boundary : signal.curByte + 1 < signal.size
      · let next := { signal with curByte := signal.curByte + 1, curBit := 7 }
        have step : signal.timer1CompaVect true = (some (generateBit signal.current), next) := by
          simp [timer1CompaVect, last, boundary, next]
        have bit : next.curBit < 8 := Nat.lt_succ_self 7
        exact ⟨_, next, step, ⟨bit, sound.size⟩, read, (queue_boundary sound boundary).trans rest.symm⟩
      · have final : signal.curByte + 1 = signal.size := by omega
        let next := { signal with curByte := signal.curByte + 1 }
        have step : signal.timer1CompaVect true = (some (generateBit signal.current), next) := by
          simp [timer1CompaVect, last, final, next]
        refine ⟨_, next, step, ⟨sound.bit, sound.size⟩, read, ?_⟩
        rw [rest]
        simp [queue, next, final]
  · have past : ¬ signal.curByte + 1 < signal.size := by omega
    have beyond : signal.curByte + 1 ≠ signal.size := by omega
    refine ⟨generateBit 1, signal, by simp [timer1CompaVect, busy, past, beyond], sound, ?_, ?_⟩
    · simp only [queue, busy, if_false]
      rfl
    · simp [queue, busy]

/-- Whatever the interrupts, the bits shifted out and those left are the queue,
and 1 bits after it. -/
theorem interrupts_queue (sound : signal.Sound) (pins : List Bool) :
    (signal.interrupts pins).2.Sound ∧
      ∃ filler, (signal.interrupts pins).1.map isOne ++ (signal.interrupts pins).2.queue =
        signal.queue ++ List.replicate filler true := by
  induction pins generalizing signal with
  | nil => exact ⟨sound, 0, by simp [interrupts]⟩
  | cons pind pins ih =>
    cases pind with
    | false => exact ih sound
    | true =>
      obtain ⟨value, next, step, kept, one, rest⟩ := timer1CompaVect_high sound
      obtain ⟨last, filler, same⟩ := ih kept
      rw [rest] at same
      simp only [interrupts, step, Option.toList_some, List.cons_append, List.nil_append,
        List.map_cons, one, same]
      refine ⟨last, ?_⟩
      cases signal.queue with
      | nil => exact ⟨filler + 1, rfl⟩
      | cons b left => exact ⟨filler, rfl⟩

theorem interrupts_shiftedOut (sound : signal.Sound) (pins : List Bool)
    (done : (signal.interrupts pins).2.ShiftedOut) :
    ∃ filler, (signal.interrupts pins).1.map isOne = signal.queue ++ List.replicate filler true := by
  obtain ⟨last, filler, same⟩ := interrupts_queue sound pins
  rw [(queue_eq_nil last).mpr done, List.append_nil] at same
  exact ⟨filler, same⟩

/-- What the copying loop leaves in the buffer. -/
theorem copy_getElem (bytes : List Byte) (buffer : Vector Byte 15) (size i : Nat) (inside : i < 15) :
    ((List.range size).foldl (fun (buffer : Vector Byte 15) i =>
      buffer.setIfInBounds i (bytes.getD i 0)) buffer)[i] =
        if i < size then bytes.getD i 0 else buffer[i] := by
  induction size with
  | zero => rfl
  | succ size ih =>
    rw [List.range_succ, List.foldl_append, List.foldl_cons, List.foldl_nil,
      Vector.getElem_setIfInBounds inside, ih]
    rcases Nat.lt_trichotomy i size with earlier | rfl | later
    · rw [if_neg (Nat.ne_of_gt earlier), if_pos earlier, if_pos (Nat.lt_succ_of_lt earlier)]
    · rw [if_pos rfl, if_pos (Nat.lt_succ_self i)]
    · rw [if_neg (Nat.ne_of_lt later), if_neg (Nat.lt_asymm later), if_neg (Nat.not_lt.mpr later)]

/-- A packet is on its way with its first bit. -/
theorem send_queue {packet : Packet} (filled : 0 < packet.size)
    (fits : packet.size ≤ maxBytes) (signal : Signal) :
    ∃ value sent, signal.send packet.bytes packet.size = some (value, sent) ∧ sent.Sound ∧
      isOne value :: sent.queue = packet.bits := by
  obtain ⟨bytes⟩ := packet
  simp only [Packet.size] at filled fits
  generalize copied : (List.range bytes.length).foldl (fun (buffer : Vector Byte 15) i =>
    buffer.setIfInBounds i (bytes.getD i 0)) signal.bytes = buffer
  have content : buffer.toList.take bytes.length = bytes := by
    apply List.ext_getElem
    · simp only [List.length_take, Vector.length_toList]
      exact Nat.min_eq_left fits
    · intro i inside short
      have here := copy_getElem bytes signal.bytes bytes.length i (Nat.lt_of_lt_of_le short fits)
      subst copied
      simpa [short] using here
  let start : Signal := { bytes := buffer, size := bytes.length, curByte := 0, curBit := 7 }
  let sent : Signal := { start with curBit := 6 }
  have sending : signal.send bytes bytes.length = some (generateBit start.current, sent) := by
    rw [send, if_pos fits, copied]
    rfl
  refine ⟨_, sent, sending, ⟨show 6 < 8 by omega, fits⟩, ?_⟩
  cases bytes with
  | nil => contradiction
  | cons first rest =>
    have stored : buffer[0]? = some first := by
      have here := congrArg (·[0]?) content
      simpa using here
    have whole : start.byte 0 = first := congrArg (Option.getD · 0) stored
    have head : byteBits first = isOne (generateBit start.current) :: lowBits first 7 := by
      rw [current, whole]
      exact lowBits_succ first 7 (by omega)
    have tail : sent.queue = lowBits first 7 ++ rest.flatMap byteBits := by
      have others : (buffer.toList.take (first :: rest).length).drop 1 = rest := by rw [content]; rfl
      rw [queue, if_pos filled]
      change lowBits (start.byte 0) 7 ++ _ = _
      rw [whole]
      exact congrArg (fun bytes => lowBits first 7 ++ List.flatMap byteBits bytes) others
    rw [tail, Packet.bits, List.flatMap_cons, head, List.cons_append]

end Signal
end Freedcc
