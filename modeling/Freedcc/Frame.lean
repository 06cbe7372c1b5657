import Freedcc.Dcc

/-! The baseline packet as a record of independent fields, and the S-9.2 frame
they spell. Every setter of dcc.c changes one field of the record. -/
namespace Freedcc.Dcc

/-- Most significant first. -/
def byteBits (byte : Byte) : List Bool := (List.range 8).map byte.getMsbD

theorem length_byteBits (byte : Byte) : (byteBits byte).length = 8 := by simp [byteBits]

def Packet.bits (packet : Packet) : List Bool := packet.bytes.flatMap byteBits

/-- Twelve 1 bits, three bytes with a 0 before each, and a 1. -/
def baselineFrame (address instruction : Byte) : List Bool :=
  List.replicate 12 true ++ false :: byteBits address ++ false :: byteBits instruction ++
    false :: byteBits (address ^^^ instruction) ++ [true]

/-- A frame to a short address with a speed and direction instruction, 01DSSSSS. -/
def ValidFrame (packet : Packet) : Prop :=
  ∃ address instruction, packet.bits = baselineFrame address instruction ∧
    address < 128 ∧ instruction &&& 0xC0 = 0x40

def bit (mask : Byte) (on : Bool) : Byte := if on then mask else 0x00

/-- What the setters can write. -/
structure Fields where
  preamble : Bool
  address : BitVec 7
  sdPreamble : Bool
  direction : Bool
  speed : BitVec 5
  checksum : Byte
  packetEnd : Bool
deriving DecidableEq, Repr

namespace Fields

def fresh : Fields :=
  { preamble := false, address := 0, sdPreamble := false, direction := false, speed := 0
    checksum := 0, packetEnd := false }

def addressByte (f : Fields) : Byte := f.address.setWidth 8

/-- 01DSSSSS. -/
def instruction (f : Fields) : Byte := 0x40 ||| bit 0x20 f.direction ||| f.speed.setWidth 8

def byte0 (f : Fields) : Byte := bit 0xFF f.preamble

def byte1 (f : Fields) : Byte := bit 0xF0 f.preamble ||| f.addressByte >>> 5

def byte2 (f : Fields) : Byte := bit 0x01 f.sdPreamble ||| f.addressByte <<< 3

def byte3 (f : Fields) : Byte :=
  bit 0x80 f.direction ||| f.speed.setWidth 8 <<< 2 ||| f.checksum >>> 7

def byte4 (f : Fields) : Byte := bit 0x01 f.packetEnd ||| f.checksum <<< 1

def packet (f : Fields) : Packet := ⟨[f.byte0, f.byte1, f.byte2, f.byte3, f.byte4]⟩

@[simp] theorem packet_fresh : fresh.packet = baselinePacketCreate := by decide

end Fields

def speedCode (step : Nat) : BitVec 5 := (speedSteps.getD (step % maxSpeedSteps) 0).setWidth 5

theorem shiftRight_seven : ∀ c : Byte, c >>> 7 = bit 0x01 c.msb := by decide

section Setters
variable (f : Fields)

theorem setPreamble_packet : setPreamble f.packet = { f with preamble := true }.packet := by
  have ones : f.byte0 &&& maskPreamble0 ||| 0xFF = 0xFF := by simp [maskPreamble0]
  have changed : ∀ b : Bool, ∀ a : BitVec 7,
      (bit 0xF0 b ||| a.setWidth 8 >>> 5) &&& maskPreamble1 ||| (0xF0 : Byte) =
        (0xF0 : Byte) ||| a.setWidth 8 >>> 5 := by decide
  exact congrArg₂ (fun b c => Packet.mk [b, c, f.byte2, f.byte3, f.byte4]) ones
    (changed f.preamble f.address)

theorem setAddress_packet (address : Byte) :
    setAddress f.packet address = { f with address := address.setWidth 7 }.packet := by
  have high : ∀ b : Bool, ∀ a : BitVec 7,
      (bit 0xF0 b ||| a.setWidth 8 >>> 5) &&& maskAddress1 = bit 0xF0 b := by decide
  have low : ∀ b : Bool, ∀ a : BitVec 7,
      (bit 0x01 b ||| a.setWidth 8 <<< 3) &&& maskAddress2 = bit 0x01 b := by decide
  have reduced : ∀ a : Byte, a % addressMax = (a.setWidth 7).setWidth 8 := by decide
  have changed := congrArg₂ (fun (b c : Byte) => b ||| c >>> 5) (high f.preamble f.address)
    (reduced address)
  have changed' := congrArg₂ (fun (b c : Byte) => b ||| c <<< 3) (low f.sdPreamble f.address)
    (reduced address)
  exact congrArg₂ (fun b c => Packet.mk [f.byte0, b, c, f.byte3, f.byte4]) changed changed'

theorem setSpeedDirectionPreamble_packet :
    setSpeedDirectionPreamble f.packet = { f with sdPreamble := true }.packet := by
  have changed : ∀ b : Bool, ∀ a : BitVec 7,
      (bit 0x01 b ||| a.setWidth 8 <<< 3) &&& maskSdPreamble2 ||| (0x01 : Byte) =
        (0x01 : Byte) ||| a.setWidth 8 <<< 3 := by decide
  exact congrArg (fun b => Packet.mk [f.byte0, f.byte1, b, f.byte3, f.byte4])
    (changed f.sdPreamble f.address)

theorem setDirection_packet (direction : Int) :
    setDirection f.packet direction = { f with direction := direction ≠ 0 }.packet := by
  have changed : ∀ old new carry : Bool, ∀ s : BitVec 5,
      (bit 0x80 old ||| s.setWidth 8 <<< 2 ||| bit 0x01 carry) &&& maskDirection3 ||| bit 0x80 new =
        bit 0x80 new ||| s.setWidth 8 <<< 2 ||| bit 0x01 carry := by decide
  have written := changed f.direction (direction ≠ 0) f.checksum.msb f.speed
  rw [← shiftRight_seven] at written
  simp only [bit, decide_eq_true_eq] at written
  refine congrArg (fun b => Packet.mk [f.byte0, f.byte1, f.byte2, b, f.byte4]) (written.trans ?_)
  simp [Fields.byte3, bit]

theorem setSpeed_packet (step : Nat) :
    setSpeed f.packet step = { f with speed := speedCode step }.packet := by
  have index : ((step : Int).tmod maxSpeedSteps).toNat = step % maxSpeedSteps := by norm_cast
  have code : ∀ step < maxSpeedSteps,
      speedSteps.getD step 0 = ((speedSteps.getD step 0).setWidth 5).setWidth 8 := by
    decide
  have cleared : ∀ direction carry : Bool, ∀ old : BitVec 5,
      (bit 0x80 direction ||| old.setWidth 8 <<< 2 ||| bit 0x01 carry) &&& maskSpeed3 =
        bit 0x80 direction ||| bit 0x01 carry := by decide
  have changed : ∀ direction carry : Bool, ∀ old new : BitVec 5,
      (bit 0x80 direction ||| old.setWidth 8 <<< 2 ||| bit 0x01 carry) &&& maskSpeed3 |||
          new.setWidth 8 <<< 2 =
        bit 0x80 direction ||| new.setWidth 8 <<< 2 ||| bit 0x01 carry := by
    intro direction carry old new
    rw [cleared, BitVec.or_assoc, BitVec.or_comm (bit 0x01 carry), ← BitVec.or_assoc]
  have reduced : step % maxSpeedSteps < maxSpeedSteps := Nat.mod_lt step (by decide)
  have written := changed f.direction f.checksum.msb f.speed (speedCode step)
  rw [← shiftRight_seven, speedCode, ← code _ reduced, ← index] at written
  refine congrArg (fun b => Packet.mk [f.byte0, f.byte1, f.byte2, b, f.byte4]) (written.trans ?_)
  rw [index, code _ reduced]
  rfl

@[simp] theorem getAddress_packet : getAddress f.packet = f.addressByte := by
  have read : ∀ p s : Bool, ∀ a : BitVec 7,
      ((bit 0xF0 p ||| a.setWidth 8 >>> 5) &&& ~~~maskAddress1) <<< 5 |||
        ((bit 0x01 s ||| a.setWidth 8 <<< 3) &&& ~~~maskAddress2) >>> 3 =
        a.setWidth 8 := by decide
  exact read f.preamble f.sdPreamble f.address

@[simp] theorem getSpeedAndDirection_packet : getSpeedAndDirection f.packet = f.instruction := by
  have read : ∀ direction carry : Bool, ∀ s : BitVec 5,
      (0x40 : Byte) ||| ((bit 0x80 direction ||| s.setWidth 8 <<< 2 ||| bit 0x01 carry) &&&
          ~~~maskDirection3) >>> 2 |||
        ((bit 0x80 direction ||| s.setWidth 8 <<< 2 ||| bit 0x01 carry) &&& ~~~maskSpeed3) >>> 2 =
        (0x40 : Byte) ||| bit 0x20 direction ||| s.setWidth 8 := by decide
  have fields := read f.direction f.checksum.msb f.speed
  rw [← shiftRight_seven] at fields
  exact fields

theorem setChecksum_packet :
    setChecksum f.packet = { f with checksum := f.addressByte ^^^ f.instruction }.packet := by
  have high : ∀ direction carry : Bool, ∀ s : BitVec 5,
      (bit 0x80 direction ||| s.setWidth 8 <<< 2 ||| bit 0x01 carry) &&& maskChecksum3 =
        bit 0x80 direction ||| s.setWidth 8 <<< 2 := by decide
  have low : ∀ b : Bool, ∀ c : Byte, (bit 0x01 b ||| c <<< 1) &&& maskChecksum4 = bit 0x01 b := by
    decide
  have cleared := high f.direction f.checksum.msb f.speed
  rw [← shiftRight_seven] at cleared
  simp only [setChecksum, getAddress_packet, getSpeedAndDirection_packet]
  exact congrArg₂ (fun b c => Packet.mk [f.byte0, f.byte1, f.byte2,
    b ||| (f.addressByte ^^^ f.instruction) >>> 7, c ||| (f.addressByte ^^^ f.instruction) <<< 1])
    cleared (low f.packetEnd f.checksum)

theorem setPacketEnd_packet : setPacketEnd f.packet = { f with packetEnd := true }.packet := by
  have changed : ∀ b : Bool, ∀ c : Byte,
      (bit 0x01 b ||| c <<< 1) ||| (0x01 : Byte) = (0x01 : Byte) ||| c <<< 1 := by decide
  exact congrArg (fun b => Packet.mk [f.byte0, f.byte1, f.byte2, f.byte3, b])
    (changed f.packetEnd f.checksum)

end Setters

/-- The step a code stands for; 0 when it stands for none. -/
def stepOf (code : BitVec 5) : Nat := (speedSteps.findIdx? (· == code.setWidth 8)).getD 0

@[simp] theorem getSpeedStep_packet (f : Fields) : getSpeedStep f.packet = stepOf f.speed := by
  have read : ∀ direction carry : Bool, ∀ s : BitVec 5,
      ((bit 0x80 direction ||| s.setWidth 8 <<< 2 ||| bit 0x01 carry) &&& ~~~maskSpeed3) >>> 2 =
        s.setWidth 8 := by decide
  have code : (f.byte3 &&& ~~~maskSpeed3) >>> 2 = f.speed.setWidth 8 := by
    rw [Fields.byte3, shiftRight_seven]
    exact read f.direction f.checksum.msb f.speed
  have byte : f.packet.byte 3 = f.byte3 := rfl
  simp only [getSpeedStep, byte, code, stepOf]
  cases speedSteps.findIdx? (· == f.speed.setWidth 8) <;> rfl

@[simp] theorem getDirection_packet (f : Fields) :
    getDirection f.packet = if f.direction then directionForward else directionReverse := by
  have read : ∀ direction carry : Bool, ∀ s : BitVec 5,
      ((bit 0x80 direction ||| s.setWidth 8 <<< 2 ||| bit 0x01 carry) &&& ~~~maskDirection3) >>> 7 =
        bit 0x01 direction := by decide
  have code := read f.direction f.checksum.msb f.speed
  rw [← shiftRight_seven] at code
  change (f.byte3 &&& ~~~maskDirection3) >>> 7 = bit 0x01 f.direction at code
  have byte : f.packet.byte 3 = f.byte3 := rfl
  simp only [getDirection, byte, code]
  cases f.direction <;> rfl

@[simp] theorem stepOf_speedCode (step : Nat) : stepOf (speedCode step) = step % maxSpeedSteps := by
  have table : ∀ step < maxSpeedSteps, stepOf ((speedSteps.getD step 0).setWidth 5) = step := by
    decide
  exact table _ (Nat.mod_lt _ (by decide))

/-- The codes of the two broadcast stops are not in the table. -/
theorem speedCode_ne (step : Nat) : speedCode step ≠ 0x10 ∧ speedCode step ≠ 0x11 := by
  have table : ∀ step < maxSpeedSteps, (speedSteps.getD step 0).setWidth 5 ≠ 0x10#5 ∧
      (speedSteps.getD step 0).setWidth 5 ≠ 0x11#5 := by decide
  exact table _ (Nat.mod_lt _ (by decide))

/-- A broadcast stop is told by its fourth byte from every driving packet. -/
theorem isBroadcastStop_packet {f : Fields} (stops : isBroadcastStop f.packet = true) :
    f.direction = true ∧ (f.speed = 0x10 ∨ f.speed = 0x11) := by
  have read : ∀ direction carry : Bool, ∀ s : BitVec 5,
      (bit 0x80 direction ||| s.setWidth 8 <<< 2 ||| bit 0x01 carry = 0xC0 ∨
        bit 0x80 direction ||| s.setWidth 8 <<< 2 ||| bit 0x01 carry = 0xC4) →
      direction = true ∧ (s = 0x10 ∨ s = 0x11) := by decide
  have byte : f.byte3 = 0xC0 ∨ f.byte3 = 0xC4 := by
    simp only [isBroadcastStop, Bool.and_eq_true, Bool.or_eq_true, beq_iff_eq] at stops
    exact stops.1.2
  rw [Fields.byte3, shiftRight_seven] at byte
  exact read _ _ _ byte

def frame (address : BitVec 7) (direction : Bool) (speed : BitVec 5) : Fields :=
  let f : Fields := { preamble := true, address, sdPreamble := true, direction, speed
                      checksum := 0, packetEnd := true }
  { f with checksum := f.addressByte ^^^ f.instruction }

theorem specialBroadcastStopPacket_packet (f : Fields) :
    specialBroadcastStopPacket f.packet = (frame 0 true 0x10).packet := by
  have written : specialBroadcastStopPacket f.packet = ⟨[0xFF, 0xF0, 0x01, 0xC0, 0xE1]⟩ := rfl
  rw [written]
  decide

theorem specialEmergencyStopPacket_packet (f : Fields) :
    specialEmergencyStopPacket f.packet = (frame 0 true 0x11).packet := by
  have written : specialEmergencyStopPacket f.packet = ⟨[0xFF, 0xF0, 0x01, 0xC4, 0xE3]⟩ := rfl
  rw [written]
  decide

theorem isBroadcastStop_frame (speed : BitVec 5) (stops : speed = 0x10 ∨ speed = 0x11) :
    isBroadcastStop (frame 0 true speed).packet = true := by
  rcases stops with rfl | rfl <;> decide

/-- What the final `DCC_set_checksum` and `DCC_set_packet_end` leave. -/
def Fields.finish (f : Fields) : Fields :=
  { f with checksum := f.addressByte ^^^ f.instruction, packetEnd := true }

theorem finish_eq_frame {f : Fields} (preamble : f.preamble = true) (sd : f.sdPreamble = true) :
    f.finish = frame f.address f.direction f.speed := by
  obtain ⟨_, address, _, direction, speed, _, _⟩ := f
  subst preamble sd
  rfl

@[simp] theorem finish_frame (address : BitVec 7) (direction : Bool) (speed : BitVec 5) :
    (frame address direction speed).finish = frame address direction speed := rfl

theorem byteBits_eq (byte : Byte) : byteBits byte = [byte.getMsbD 0, byte.getMsbD 1, byte.getMsbD 2,
    byte.getMsbD 3, byte.getMsbD 4, byte.getMsbD 5, byte.getMsbD 6, byte.getMsbD 7] := rfl

/-- The bits of a complete frame are those of the two bytes it carries. -/
theorem bits_frame (address : BitVec 7) (direction : Bool) (speed : BitVec 5) :
    (frame address direction speed).packet.bits =
      baselineFrame (frame address direction speed).addressByte
        (frame address direction speed).instruction := by
  -- the start bits stand inside the second, third and fourth byte
  have first : ∀ a : BitVec 7,
      byteBits (0xF0 ||| a.setWidth 8 >>> 5) ++ byteBits (0x01 ||| a.setWidth 8 <<< 3) =
        List.replicate 4 true ++ false :: byteBits (a.setWidth 8) ++ [false, false, true] := by
    intro a
    simp [byteBits_eq, List.replicate_succ]
  have second : ∀ direction carry : Bool, ∀ s : BitVec 5,
      false :: true ::
          byteBits (bit 0x80 direction ||| s.setWidth 8 <<< 2 ||| bit 0x01 carry) =
        byteBits (0x40 ||| bit 0x20 direction ||| s.setWidth 8) ++ [false, carry] := by
    intro direction carry s
    cases direction <;> cases carry <;> simp [byteBits_eq, bit]
  have third : ∀ c : Byte, c.msb :: byteBits (0x01 ||| c <<< 1) = byteBits c ++ [true] := by
    intro c
    simp [byteBits_eq, BitVec.msb]
  generalize made : frame address direction speed = f
  have one : byteBits f.byte1 ++ byteBits f.byte2 =
      List.replicate 4 true ++ false :: byteBits f.addressByte ++ [false, false, true] := by
    subst made
    exact first address
  have two : false :: true :: byteBits f.byte3 =
      byteBits f.instruction ++ [false, (f.addressByte ^^^ f.instruction).msb] := by
    subst made
    rw [Fields.byte3, shiftRight_seven]
    exact second direction _ speed
  have three : (f.addressByte ^^^ f.instruction).msb :: byteBits f.byte4 =
      byteBits (f.addressByte ^^^ f.instruction) ++ [true] := by
    subst made
    exact third _
  have ones : byteBits f.byte0 = List.replicate 8 true := by
    have all : byteBits 0xFF = List.replicate 8 true := by decide
    subst made
    exact all
  calc f.packet.bits
      = byteBits f.byte0 ++ (byteBits f.byte1 ++ byteBits f.byte2) ++ byteBits f.byte3 ++
          byteBits f.byte4 := by simp [Packet.bits, Fields.packet]
    _ = List.replicate 12 true ++ false :: byteBits f.addressByte ++ false ::
          (false :: true :: byteBits f.byte3) ++ byteBits f.byte4 := by
        rw [ones, one]
        simp
    _ = List.replicate 12 true ++ false :: byteBits f.addressByte ++ false ::
          byteBits f.instruction ++ false ::
            ((f.addressByte ^^^ f.instruction).msb :: byteBits f.byte4) := by
        rw [two]
        simp
    _ = baselineFrame f.addressByte f.instruction := by
        rw [three]
        simp [baselineFrame]

theorem valid_frame (address : BitVec 7) (direction : Bool) (speed : BitVec 5) :
    ValidFrame (frame address direction speed).packet := by
  have low : ∀ a : BitVec 7, a.setWidth 8 < (128 : Byte) := by decide
  have form : ∀ direction : Bool, ∀ s : BitVec 5,
      (0x40 ||| bit 0x20 direction ||| s.setWidth 8) &&& 0xC0 = (0x40 : Byte) := by decide
  exact ⟨_, _, bits_frame address direction speed, low address, form direction speed⟩

end Freedcc.Dcc
