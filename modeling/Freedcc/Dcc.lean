import Mathlib.Data.BitVec

/-! The packets of dcc.c. `packet->size` is the length of the allocation behind
`packet->bytes`, so a packet is its byte array. Bytes are `unsigned char`;
results of shifts and masks are truncated to eight bits where C stores them. -/
namespace Freedcc.Dcc

abbrev Byte := BitVec 8

structure Packet where
  bytes : List Byte
deriving DecidableEq, Repr

def directionForward : Int := 1
def directionReverse : Int := 0
def addressMax : Byte := 128
def maxSpeedSteps : Nat := 29

def maskPreamble0 : Byte := 0x00
def maskPreamble1 : Byte := 0x0F
def maskAddress1 : Byte := 0xFC
def maskAddress2 : Byte := 0x07
def maskSdPreamble2 : Byte := 0xFC
def maskDirection3 : Byte := 0x7F
def maskSpeed3 : Byte := 0x83
def maskChecksum3 : Byte := 0xFE
def maskChecksum4 : Byte := 0x01
def baselineLen : Nat := 5

def speedSteps : List Byte :=
  [0x00, 0x02, 0x12, 0x03, 0x13, 0x04, 0x14, 0x05, 0x15, 0x06, 0x16, 0x07, 0x17, 0x08, 0x18,
    0x09, 0x19, 0x0A, 0x1A, 0x0B, 0x1B, 0x0C, 0x1C, 0x0D, 0x1D, 0x0E, 0x1E, 0x0F, 0x1F]

namespace Packet

def size (packet : Packet) : Nat := packet.bytes.length

/-- `packet->bytes[i]`. Reading past the allocation is undefined in C; it reads
zero here. -/
def byte (packet : Packet) (i : Nat) : Byte := packet.bytes.getD i 0

/-- `packet->bytes[i] op= ...`. -/
def update (packet : Packet) (i : Nat) (f : Byte → Byte) : Packet :=
  ⟨packet.bytes.modify i f⟩

end Packet

/-- calloc clears the bytes. -/
def packetCreate (size : Nat) : Packet := ⟨List.replicate size 0⟩

def baselinePacketCreate : Packet := packetCreate baselineLen

private def write (packet : Packet) (values : List Byte) : Packet :=
  values.zipIdx.foldl (fun packet (value, i) => packet.update i fun _ => value) packet

def specialResetPacket (packet : Packet) : Packet := write packet [0xFF, 0xF0, 0x00, 0x00, 0x01]

def specialIdlePacket (packet : Packet) : Packet := write packet [0xFF, 0xF7, 0xF8, 0x01, 0xFF]

def specialBroadcastStopPacket (packet : Packet) : Packet :=
  write packet [0xFF, 0xF0, 0x01, 0xC0, 0xE1]

def specialEmergencyStopPacket (packet : Packet) : Packet :=
  write packet [0xFF, 0xF0, 0x01, 0xC4, 0xE3]

def isBroadcastStop (packet : Packet) : Bool :=
  packet.size == baselineLen
    && packet.byte 0 == 0xFF && packet.byte 1 == 0xF0 && packet.byte 2 == 0x01
    && (packet.byte 3 == 0xC0 || packet.byte 3 == 0xC4)
    && (packet.byte 4 == 0xE1 || packet.byte 4 == 0xE3)

def setPreamble (packet : Packet) : Packet :=
  let packet := packet.update 0 (· &&& maskPreamble0)
  let packet := packet.update 1 (· &&& maskPreamble1)
  let packet := packet.update 0 (· ||| 0xFF)
  packet.update 1 (· ||| 0xF0)

def setAddress (packet : Packet) (address : Byte) : Packet :=
  let address := address % addressMax
  let packet := packet.update 1 (· &&& maskAddress1)
  let packet := packet.update 2 (· &&& maskAddress2)
  let packet := packet.update 1 (· ||| (address >>> 5))
  packet.update 2 (· ||| (address <<< 3))

def setSpeedDirectionPreamble (packet : Packet) : Packet :=
  let packet := packet.update 2 (· &&& maskSdPreamble2)
  packet.update 2 (· ||| 0x01)

def setDirection (packet : Packet) (direction : Int) : Packet :=
  let packet := packet.update 3 (· &&& maskDirection3)
  packet.update 3 (· ||| if direction ≠ 0 then 0x80 else 0x00)

/-- A negative `step` would index before the table; no caller passes one. -/
def setSpeed (packet : Packet) (step : Int) : Packet :=
  let step := step.tmod maxSpeedSteps
  let packet := packet.update 3 (· &&& maskSpeed3)
  packet.update 3 (· ||| (speedSteps.getD step.toNat 0 <<< 2))

def getAddress (packet : Packet) : Byte :=
  let address := (packet.byte 1 &&& ~~~maskAddress1) <<< 5
  address ||| ((packet.byte 2 &&& ~~~maskAddress2) >>> 3)

def getSpeedAndDirection (packet : Packet) : Byte :=
  let speed := 0x40 ||| ((packet.byte 3 &&& ~~~maskDirection3) >>> 2)
  speed ||| ((packet.byte 3 &&& ~~~maskSpeed3) >>> 2)

def getSpeedStep (packet : Packet) : Nat :=
  let speed := (packet.byte 3 &&& ~~~maskSpeed3) >>> 2
  match speedSteps.findIdx? (· == speed) with
  | some i => i
  | none => 0

def getDirection (packet : Packet) : Int :=
  let direction := (packet.byte 3 &&& ~~~maskDirection3) >>> 7
  if direction = 1 then directionForward else directionReverse

def setChecksum (packet : Packet) : Packet :=
  let address := getAddress packet
  let speed := getSpeedAndDirection packet
  let checksum := address ^^^ speed
  let packet := packet.update 3 (· &&& maskChecksum3)
  let packet := packet.update 4 (· &&& maskChecksum4)
  let packet := packet.update 3 (· ||| (checksum >>> 7))
  packet.update 4 (· ||| (checksum <<< 1))

def setPacketEnd (packet : Packet) : Packet := packet.update 4 (· ||| 0x1)

/-- The address read from any bytes has seven bits: the low two bits of byte 1
and the high five of byte 2. -/
theorem getAddress_lt (packet : Packet) : (getAddress packet).toNat < 128 := by
  have high : ∀ b : Byte, ((b &&& ~~~maskAddress1) <<< 5).toNat < 2 ^ 7 := by decide
  have low : ∀ b : Byte, ((b &&& ~~~maskAddress2) >>> 3).toNat < 2 ^ 7 := by decide
  simp only [getAddress, BitVec.toNat_or]
  exact Nat.or_lt_two_pow (high _) (low _)

/-- A value of type `DCC_packet_T`: which allocation it points to, and what is
there. Packets are not written after they leave the parser. -/
structure PacketRef where
  id : Nat
  packet : Packet
deriving DecidableEq, Repr

/-- What is done with packets that others can see, in order: `Signal_send`,
`Cache_update` and `DCC_packet_destroy`. -/
inductive Event where
  | signalSend (packet : PacketRef)
  | cacheUpdate (packet : PacketRef)
  | packetDestroy (packet : PacketRef)
deriving DecidableEq, Repr

abbrev Trace := List Event

/-- The memory is gone; what is left of the packet is the record of it. -/
def packetDestroy (packet : PacketRef) (trace : Trace) : Trace := trace ++ [.packetDestroy packet]

end Freedcc.Dcc
