import Freedcc.MainLoop
import Freedcc.RawPackets
import Freedcc.Serialiser

/-! The sizes of the packets that the main loop lets in, against what is read from
them afterwards: by `Signal_send`, for the cache, and for `cache show`. The
getters are written again with every access checked. -/
namespace Freedcc

namespace Dcc

def Packet.byteChecked (packet : Packet) (i : Nat) : Option Byte := packet.bytes[i]?

def getAddressChecked (packet : Packet) : Option Byte := do
  let address := ((← packet.byteChecked 1) &&& ~~~maskAddress1) <<< 5
  return address ||| (((← packet.byteChecked 2) &&& ~~~maskAddress2) >>> 3)

def getSpeedStepChecked (packet : Packet) : Option Nat := do
  let byte ← packet.byteChecked 3
  match speedSteps.findIdx? (· == (byte &&& ~~~maskSpeed3) >>> 2) with
  | some i => return i
  | none => return 0

def getDirectionChecked (packet : Packet) : Option Int := do
  let direction := ((← packet.byteChecked 3) &&& ~~~maskDirection3) >>> 7
  return if direction = 1 then directionForward else directionReverse

variable {packet : Packet}

theorem byteChecked_eq (inside : i < packet.size) : packet.byteChecked i = some (packet.byte i) := by
  have bound : i < packet.bytes.length := inside
  simp [Packet.byteChecked, Packet.byte, bound]

theorem getAddressChecked_eq (size : 3 ≤ packet.size) :
    getAddressChecked packet = some (getAddress packet) := by
  have high : 1 < packet.size := by omega
  have low : 2 < packet.size := by omega
  rw [getAddressChecked, byteChecked_eq high, byteChecked_eq low]
  rfl

theorem getSpeedStepChecked_eq (size : 4 ≤ packet.size) :
    getSpeedStepChecked packet = some (getSpeedStep packet) := by
  have inside : 3 < packet.size := size
  rw [getSpeedStepChecked, byteChecked_eq inside, getSpeedStep, Option.bind_eq_bind, Option.bind_some]
  cases speedSteps.findIdx? (· == (packet.byte 3 &&& ~~~maskSpeed3) >>> 2) with
  | none => rfl
  | some i => rfl

theorem getDirectionChecked_eq (size : 4 ≤ packet.size) :
    getDirectionChecked packet = some (getDirection packet) := by
  have inside : 3 < packet.size := size
  rw [getDirectionChecked, byteChecked_eq inside]
  rfl

end Dcc

open Dcc PartialProgram Freedcc.Parser Reader

/-- Big enough for the cache, and small enough to be sent. -/
def Dcc.Packet.Fits (packet : Packet) : Prop := 3 ≤ packet.size ∧ packet.size ≤ Signal.maxBytes

/-- Every byte that is read is in the packet, and what is sent starts with a bit of it. -/
def Use.Within : Use → Prop
  | .event (.signalSend ref) => 1 ≤ ref.packet.size ∧ ref.packet.size ≤ Signal.maxBytes ∧
      ∀ signal : Signal, (signal.sendChecked ref.packet.bytes ref.packet.size).isSome
  | .event (.cacheUpdate ref) => getAddressChecked ref.packet = some (getAddress ref.packet)
  | .event (.packetDestroy _) => True
  | .shown ref => getSpeedStepChecked ref.packet = some (getSpeedStep ref.packet) ∧
      getDirectionChecked ref.packet = some (getDirection ref.packet)

namespace Station

/-- `IO_read`, up to the action of `raw`. -/
def reachAction (null : Bool) : Parse (Scanner Io) Bool := do
  if 0 < (← get).scanner.stdin.arrived then
    if ← opening then
      modify (prepare (some null))
      advance
      reachRaw
    else return false
  else return false

/-- The digits that a call of `IO_read` converts, if it comes to the action. -/
def rawText (null : Bool) (station : Station) : Option (List Char) :=
  match reachAction null station with
  | .ok (true, last) => some (TokenSource.value last.scanner).text
  | _ => none

end Station

namespace MainLoop

/-- A `raw` packet has at least six digits, and `cache show` finds none of three bytes. -/
def Careful (m : MainLoop) : Op → Prop
  | .read null => cacheAddrSize ≤ m.clearing.done →
      (null = false → ∀ text ∈ Station.rawText null m.station, 6 ≤ text.length) ∧
        ∀ ref ∈ m.shown null, ref.packet.size ≠ 3
  | _ => True

instance (m : MainLoop) : DecidablePred (Careful m)
  | .receive => inferInstanceAs (Decidable True)
  | .read null => inferInstanceAs (Decidable (cacheAddrSize ≤ m.clearing.done →
      (null = false → ∀ text ∈ Station.rawText null m.station, 6 ≤ text.length) ∧
        ∀ ref ∈ m.shown null, ref.packet.size ≠ 3))
  | .clearing _ => inferInstanceAs (Decidable True)

end MainLoop

namespace Station
variable {null : Bool} {station next : Station}

theorem outcome_packet {result : Result} (made : result.outcome = some (.packet packet)) :
    ∃ ref, result = ⟨.raw, .packet ref⟩ ∨ result = ⟨.dcc, .packet ref⟩ := by
  obtain ⟨type, payload⟩ := result
  cases type <;> cases payload <;> simp_all [Result.outcome]

/-- A packet that is returned is one that the parser has accepted. -/
theorem ioRead_packet (read : ioRead null station = .ok (some (.packet packet), next)) :
    ∃ called ref, 0 < station.scanner.stdin.arrived ∧ opening station = .ok (true, called) ∧
      parserStart (some null) called = .ok (true, next) ∧
      (next.result = some ⟨.raw, .packet ref⟩ ∨ next.result = some ⟨.dcc, .packet ref⟩) := by
  obtain ⟨_, _, here, later⟩ := bind_ok read
  obtain ⟨rfl, rfl⟩ := get_ok.mp here
  by_cases waiting : 0 < station.scanner.stdin.arrived
  · rw [if_pos waiting] at later
    obtain ⟨begun, called, opened, later⟩ := bind_ok later
    cases begun with
    | false => cases (pure_ok.mp later).1
    | true =>
      obtain ⟨accepted, parsed, start, later⟩ := bind_ok later
      cases accepted with
      | false => cases (pure_ok.mp later).1
      | true =>
        obtain ⟨_, _, here, later⟩ := bind_ok later
        obtain ⟨rfl, rfl⟩ := get_ok.mp here
        obtain ⟨made, rfl⟩ := pure_ok.mp later
        obtain ⟨result, stored, told⟩ := Option.bind_eq_some_iff.mp made
        obtain ⟨ref, kind⟩ := outcome_packet told
        refine ⟨called, ref, waiting, opened, start, ?_⟩
        rcases kind with rfl | rfl
        · exact Or.inl stored
        · exact Or.inr stored
  · rw [if_neg waiting] at later
    cases (pure_ok.mp later).1

theorem rawText_eq {called last : Station} (waiting : 0 < station.scanner.stdin.arrived)
    (opened : opening station = .ok (true, called))
    (reach : (do advance; reachRaw) (prepare (some null) called) = .ok (true, last)) :
    rawText null station = some (TokenSource.value last.scanner).text := by
  have reached : reachAction null station = .ok (true, last) := by
    rw [reachAction, ok_bind (get_ok.mpr ⟨rfl, rfl⟩), if_pos waiting, ok_bind opened]
    exact (ok_bind (modify_ok.mpr rfl)).trans reach
  rw [rawText, reached]

end Station

namespace MainLoop
variable {m : MainLoop} {null : Bool} {ref : PacketRef}

/-- A frame has five bytes, and a raw packet half as many as there are digits. -/
theorem Returns.fits (returns : m.Returns null ref)
    (long : null = false → ∀ text ∈ Station.rawText null m.station, 6 ≤ text.length) :
    ref.packet.Fits := by
  obtain ⟨packet, station, read, returned⟩ := returns
  obtain ⟨called, made, waiting, opened, accepted, kind⟩ := Station.ioRead_packet read
  have same : station.returned = some made := by
    rcases kind with result | result <;> rw [Parser.returned, result]
  obtain rfl : made = ref := Option.some.inj (same.symm.trans returned)
  rcases kind with raw | driving
  · have short := (parserStart_raw accepted raw).size
    have enough : 3 ≤ made.packet.size := by
      apply parserStart_among (3 ≤ ·.size) accepted raw
      intro last present reach
      have digits := long present _ (Station.rawText_eq waiting opened reach)
      rw [Packet.size, hexBytes_length]
      omega
    exact ⟨enough, Nat.le_trans short (by decide)⟩
  · obtain ⟨other, address, direction, speed, -, -, same, written, -⟩ :=
      parserStart_written accepted driving
    cases same
    have size : (frame address direction speed).packet.size = baselineLen := rfl
    rw [written, Packet.Fits, size]
    decide

end MainLoop

theorem Dcc.Packet.Fits.within {event : Dcc.Event} (fits : event.packet.packet.Fits) :
    (Use.event event).Within := by
  cases event with
  | signalSend ref =>
    have filled : 0 < ref.packet.size := Nat.lt_of_lt_of_le (by decide) fits.1
    refine ⟨filled, fits.2, fun signal => ?_⟩
    obtain ⟨value, sent, sending, -, -⟩ := Signal.send_queue filled fits.2 signal
    exact Option.isSome_of_eq_some ((Signal.sendChecked_eq filled fits.2 signal).trans sending)
  | cacheUpdate ref => exact getAddressChecked_eq fits.1
  | packetDestroy ref => trivial

namespace MainLoop
variable {m : MainLoop}

theorem idle_fits : Scheduler.idle.packet.Fits := ⟨by decide, by decide⟩

theorem Holds.within (holds : Holds (·.packet.Fits) m) (op : Op) (careful : Careful m op) :
    Holds (·.packet.Fits) (m.step op).1 ∧ ∀ use ∈ (m.step op).2, use.Within := by
  cases op with
  | receive =>
    refine ⟨⟨holds.idle, holds.stock⟩, ?_⟩
    rintro use ⟨⟩
  | read null =>
    rw [step_read_uses]
    by_cases busy : m.clearing.done < cacheAddrSize
    · rw [if_pos busy, step, if_pos busy]
      exact ⟨holds, by simp⟩
    · obtain ⟨long, printed⟩ := careful (Nat.le_of_not_lt busy)
      refine ⟨holds.read null fun ref returns => returns.fits long, ?_⟩
      rw [if_neg busy]
      intro use member
      obtain ⟨ref, shown, rfl⟩ := List.mem_map.mp member
      have held : ref.packet.Fits :=
        holds.stock ref (List.mem_append_right _ (shown_mem_occupants (Option.mem_toList.mp shown)))
      have other := printed ref (Option.mem_toList.mp shown)
      have size : 4 ≤ ref.packet.size := Nat.lt_of_le_of_ne held.1 other.symm
      exact ⟨getSpeedStepChecked_eq size, getDirectionChecked_eq size⟩
  | clearing op =>
    obtain ⟨kept, used⟩ := holds.clearing op
    refine ⟨kept, fun use member => ?_⟩
    obtain ⟨event, -, rfl⟩ := List.mem_map.mp member
    exact (used _ member).within

/-- In every run in which no raw packet is too short for what reads it, every byte that
is read is in its packet. -/
theorem packets_within (memory : Scheduler.Memory) (buf : Vector Char 50) (wire : List Rx)
    (ops : List Op) (careful : Run.Along step Careful (start memory buf wire) ops) :
    ∀ use ∈ Run.log step (start memory buf wire) ops, use.Within := by
  have kept : Holds (·.packet.Fits) (Run.final step (start memory buf wire) ops) ∧
      ∀ use ∈ [] ++ Run.log step (start memory buf wire) ops, use.Within := by
    apply careful.keeps (I := fun m uses => Holds (·.packet.Fits) m ∧ ∀ use ∈ uses, use.Within)
    · rintro m op uses careful ⟨holds, within⟩
      obtain ⟨next, used⟩ := holds.within op careful
      exact ⟨next, List.forall_mem_append.mpr ⟨within, used⟩⟩
    · exact ⟨holds_start memory buf wire idle_fits, by simp⟩
  exact kept.2

def typing (text : String) : MainLoop :=
  start .zero (.replicate 50 ' ')
    (text.toList.map fun c => { c, frameError := false, overrun := false })

def readLine : List Op := [.receive, .read false, .clearing .tick]

theorem packets_within_three : (Use.event (.cacheUpdate ⟨1, ⟨[0, 0, 255]⟩⟩)).Within := by
  have careful : Run.Along step Careful (typing "raw 0x0000FF\n") readLine := by decide +kernel
  have logged : .event (.cacheUpdate ⟨1, ⟨[0, 0, 255]⟩⟩) ∈
      Run.log step (typing "raw 0x0000FF\n") readLine := by decide +kernel
  exact packets_within .zero _ _ readLine careful _ logged

/-- A packet of no bytes is sent and cached; and one of three is shown. -/
theorem short_packets_used :
    Run.log step (typing "raw 0x\n") readLine =
        [.event (.signalSend ⟨1, ⟨[]⟩⟩), .event (.cacheUpdate ⟨1, ⟨[]⟩⟩)] ∧
      ¬ (Use.event (.signalSend ⟨1, ⟨[]⟩⟩)).Within ∧ ¬ (Use.event (.cacheUpdate ⟨1, ⟨[]⟩⟩)).Within ∧
      .shown ⟨1, ⟨[0, 0, 255]⟩⟩ ∈ Run.log step (typing "raw 0x0000FF\ncache show 31\n")
        (readLine ++ readLine) ∧
      ¬ (Use.shown ⟨1, ⟨[0, 0, 255]⟩⟩).Within := by
  refine ⟨by decide +kernel, ?_, ?_, by decide +kernel, ?_⟩
  · rintro ⟨filled, -⟩
    contradiction
  · intro read
    contradiction
  · rintro ⟨read, -⟩
    contradiction

end MainLoop
end Freedcc
