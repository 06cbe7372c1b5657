import Freedcc.CommandText

/-! The numbers of a driving command on their way into the packet. The scanner
makes an `int` of each, the parser an `unsigned char` of that, and the packet
layer reduces it: an address modulo 128, a step modulo 29. Only the first of the
two moduli divides 256. -/
namespace Freedcc.Console
open Dcc Scanner Grammar Freedcc.Parser

def driven (direction : Int) (address step : Nat) : Packet :=
  let packet := setAddress baselinePacketCreate (BitVec.ofNat 8 address)
  let packet := setSpeed packet step
  let packet := setPreamble packet
  let packet := setSpeedDirectionPreamble packet
  let packet := setDirection packet direction
  setPacketEnd (setChecksum packet)

theorem driven_eq (direction : Int) (address step : Nat) : driven direction address step =
    (Dcc.frame ((BitVec.ofNat 8 address).setWidth 7) (direction ≠ 0) (speedCode step)).packet := by
  simp only [driven, ← Fields.packet_fresh, setAddress_packet, setSpeed_packet, setPreamble_packet,
    setSpeedDirectionPreamble_packet, setDirection_packet, setChecksum_packet, setPacketEnd_packet]
  rfl

/-- The call builds the packet for these numbers, each reduced once. -/
def ReducesAlike (direction : Int) (address step : Nat) (null : Bool)
    (p : Parser (Scanner CharStream)) : Prop :=
  ∃ next ref, parserStart (some null) p = .ok (true, next) ∧
    next.result = some ⟨.dcc, .packet ref⟩ ∧ (getAddress ref.packet).toNat = address % 128 ∧
    getSpeedStep ref.packet = step % maxSpeedSteps ∧ ref.packet = driven direction address step

theorem addressOf_number (address : Nat) :
    addressOf (BitVec.ofNat 16 address) = (BitVec.ofNat 8 address).setWidth 7 := by
  apply BitVec.eq_of_toNat_eq
  simp only [addressOf, BitVec.toNat_setWidth, BitVec.toNat_ofNat]
  omega

/-- A step passes through a byte unharmed if the part that is cut off is a
multiple of the modulus. -/
theorem cut_step (step : Nat) : step % 256 % 29 = step % 29 ↔ 29 ∣ step / 256 := by omega

theorem speedOf_number (step : Nat) :
    speedOf (BitVec.ofNat 16 step) = speedCode (step % 256) := by
  have byte : ((BitVec.ofNat 16 step).setWidth 8).toNat = step % 256 := by
    rw [BitVec.toNat_setWidth, BitVec.toNat_ofNat]
    omega
  rw [speedOf, byte]

/-- For a line that asks for these numbers the parser and the packet layer agree
exactly if 29 divides what the step has above its low byte. -/
theorem drive_reduces_iff (direction : Int) (address step : Nat) (text : List Char)
    (line : CommandLine (.drive direction address step) text) (rest : List (Option Char))
    (null : Bool) (p : Parser (Scanner CharStream))
    (fresh : p.scanner.stdin = ⟨none, text.map some ++ rest⟩) :
    ReducesAlike direction address step null p ↔ 29 ∣ step / 256 := by
  obtain ⟨next, ref, accepted, result, packet, -⟩ := command_line_parsed line null fresh
  have made : ref.packet = (Dcc.frame ((BitVec.ofNat 8 address).setWidth 7) (direction ≠ 0)
      (speedCode (step % 256))).packet := by
    rw [packet, Request.frame, addressOf_number, speedOf_number]
  constructor
  · rintro ⟨other, ref', again, same, -, reduced, -⟩
    rw [accepted] at again
    cases again
    rw [result] at same
    cases same
    rw [made, getSpeedStep_packet] at reduced
    exact (cut_step step).mp ((stepOf_speedCode (step % 256)).symm.trans reduced)
  · intro divides
    have kept := (cut_step step).mpr divides
    have code : speedCode (step % 256) = speedCode step := by
      simp only [speedCode, maxSpeedSteps, kept]
    refine ⟨next, ref, accepted, result, ?_, ?_, ?_⟩
    · rw [made, getAddress_packet]
      simp only [Fields.addressByte, Dcc.frame, BitVec.toNat_setWidth, BitVec.toNat_ofNat]
      omega
    · rw [made, getSpeedStep_packet]
      exact (stepOf_speedCode (step % 256)).trans kept
    · rw [made, driven_eq, code]

/-- 7429 is 29 times 256 and 5 more. -/
theorem drive_reduces_iff_laps :
    ReducesAlike directionForward 131 7429 false (typed "forward addr 131 speed 07429\n") := by
  have one : Gap [' '] := ⟨by simp, by simp [Blanks]⟩
  have addr : AddrText 131 ([' '] ++ ("addr".toList ++ ([' '] ++ "131".toList))) :=
    .clause one ⟨"addr", by simp, by decide⟩ one
      ⟨0, by simp [Nat.toDigits_of_base_le, Nat.toDigits_of_lt_base]⟩
  have speed : SpeedText 7429 ([' '] ++ ("speed".toList ++ ([' '] ++ "07429".toList))) :=
    .clause one ⟨"speed", by simp, by decide⟩ one
      ⟨1, by simp [Nat.toDigits_of_base_le, Nat.toDigits_of_lt_base]⟩
  have forward : Spells ["forward", "fw"] "forward".toList := ⟨"forward", by simp, by decide⟩
  have line := CommandLine.line blanks_nil (.forward forward (.addrSpeed addr speed)) blanks_nil
  exact (drive_reduces_iff directionForward 131 7429 _ line [] false
    (typed "forward addr 131 speed 07429\n") (by decide)).mpr (by decide)

/-- Step 0 is sent where the packet layer makes 24 of the number. -/
theorem drive_cut_256 :
    ¬ ReducesAlike directionForward 3 256 false (typed "forward addr 3 speed 256\n") := by
  rintro ⟨next, ref, accepted, result, -, step, -⟩
  have told : outcome (parserStart (some false) (typed "forward addr 3 speed 256\n")) =
      some (true, some ⟨.dcc, .packet ⟨0, ⟨[0xFF, 0xF0, 0x19, 0x80, 0xC7]⟩⟩⟩) := by decide +kernel
  have same := outcome_eq_some.mpr ⟨next, accepted, result⟩
  rw [told] at same
  cases same
  exact absurd step (by decide)

end Freedcc.Console
