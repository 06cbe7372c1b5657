import Freedcc.RawRoundTrip

/-! Four ways to write a packet down, two of them with `printf` alone. Each text can be
read back; those in hexadecimal are the same text only where no byte is short. -/
namespace Freedcc.Dcc
open TextBlock Freedcc.Parser

def byteDump (byte : Byte) : List Char := [7, 6, 5, 4, 3, 2, 1, 0].flatMap fun i => [bitChar byte i]

/-- `DCC_byte_dump_hex`: `"%x"`. -/
def byteDumpHex (byte : Byte) : List Char := Nat.toDigits 16 byte.toNat

/-- The loop of either dump: a blank after every byte but the last. -/
def printBytes (print : Byte → List Char) : List Byte → List Char
  | [] => []
  | byte :: rest => print byte ++ (if 0 < rest.length then [' '] else []) ++ printBytes print rest

def packetDump (packet : Packet) : List Char := printBytes byteDump packet.bytes

def packetDumpHex (packet : Packet) : List Char := printBytes byteDumpHex packet.bytes

def hexValue (c : Char) : Byte :=
  BitVec.ofNat 8 (if c.isDigit then c.toNat - '0'.toNat else c.toNat - 'a'.toNat + 10)

/-- The byte a group of hexadecimal digits stands for. -/
def readHex (group : List Char) : Byte := group.foldl (fun byte c => byte * 16 + hexValue c) 0

def readGroups (read : List Char → Byte) (text : List Char) : List Byte := (text.splitOn ' ').map read

theorem printBytes_eq (print : Byte → List Char) (bytes : List Byte) :
    printBytes print bytes = [' '].intercalate (bytes.map print) := by
  induction bytes with
  | nil => rfl
  | cons byte rest ih =>
    rw [printBytes, ih]
    cases rest with
    | nil => simp
    | cons next rest => simp

/-- No group has a blank or a NUL in it. -/
def Visible (spell : Byte → List Char) : Prop := ∀ byte, ∀ c ∈ spell byte, c ≠ ' ' ∧ c ≠ '\x00'

theorem bitText_visible : Visible bitText := by
  intro byte c digit
  obtain ⟨j, -, rfl⟩ := List.mem_map.mp digit
  rcases bitChar_cases byte j with zero | one
  · rw [zero]
    decide
  · rw [one]
    decide

theorem byteDumpHex_visible : Visible byteDumpHex := by
  have digits : ∀ byte : Byte, (byteDumpHex byte).all (fun c => c ≠ ' ' ∧ c ≠ '\x00') = true := by
    decide +kernel
  intro byte c digit
  exact of_decide_eq_true (List.all_eq_true.mp (digits byte) c digit)

theorem readHex_hexText : ∀ byte : Byte, readHex (hexText byte) = byte := by decide +kernel

theorem readHex_byteDumpHex : ∀ byte : Byte, readHex (byteDumpHex byte) = byte := by decide +kernel

/-- `"%x"` leaves the leading zero out. -/
theorem hexText_eq_iff : ∀ byte : Byte, hexText byte = byteDumpHex byte ↔ 16 ≤ byte.toNat := by
  decide +kernel

section Joined
variable {spell other : Byte → List Char} {bytes : List Byte}

theorem split_joined (visible : Visible spell) (some : bytes ≠ []) :
    ([' '].intercalate (bytes.map spell)).splitOn ' ' = bytes.map spell := by
  apply List.splitOn_intercalate
  · intro group member
    obtain ⟨byte, -, rfl⟩ := List.mem_map.mp member
    exact fun blank => (visible byte ' ' blank).1 rfl
  · simpa using some

theorem readGroups_joined (visible : Visible spell) (some : bytes ≠ []) {read : List Char → Byte}
    (reads : ∀ byte, read (spell byte) = byte) :
    readGroups read ([' '].intercalate (bytes.map spell)) = bytes := by
  rw [readGroups, split_joined visible some, List.map_map]
  conv_rhs => rw [← List.map_id bytes]
  apply List.map_congr_left
  exact fun byte _ => reads byte

/-- Two texts agree where all their groups do. -/
theorem joined_eq_iff (visible : Visible spell) (visible' : Visible other) :
    [' '].intercalate (bytes.map spell) = [' '].intercalate (bytes.map other) ↔
      ∀ byte ∈ bytes, spell byte = other byte := by
  constructor
  · intro same
    by_cases none : bytes = []
    · subst none
      simp
    · have groups := split_joined visible none
      rw [same, split_joined visible' none] at groups
      exact fun byte member => List.map_inj_left.mp groups.symm byte member
  · intro same
    rw [List.map_congr_left same]

theorem joined_plain (visible : Visible spell) : '\x00' ∉ [' '].intercalate (bytes.map spell) := by
  intro member
  rcases mem_intercalate member with blank | ⟨group, inside, digit⟩
  · contradiction
  · obtain ⟨byte, -, rfl⟩ := List.mem_map.mp inside
    exact (visible byte _ digit).2 rfl

end Joined

/-- Every dump can be read back, the binary ones are the same text, and those in hexadecimal
differ exactly where a byte has a leading zero. -/
theorem dumps_read_back (packet : Packet) (some : 1 ≤ packet.size) :
    (dump packet).string = packetDump packet ∧
      readGroups readBits (packetDump packet) = packet.bytes ∧
      readGroups readHex (hexDump packet).string = packet.bytes ∧
      readGroups readHex (packetDumpHex packet) = packet.bytes ∧
      ((hexDump packet).string = packetDumpHex packet ↔ ∀ byte ∈ packet.bytes, 16 ≤ byte.toNat) := by
  have bytes : packet.bytes ≠ [] := List.ne_nil_of_length_pos some
  have binary : packetDump packet = [' '].intercalate (packet.bytes.map bitText) :=
    printBytes_eq byteDump packet.bytes
  have short : packetDumpHex packet = [' '].intercalate (packet.bytes.map byteDumpHex) :=
    printBytes_eq byteDumpHex packet.bytes
  have dumped := ((dump_wrote packet some).1.isString (joined_plain bitText_visible)).string
  have dumped' := ((hexDump_wrote packet some).1.isString (joined_plain hexText_visible)).string
  rw [dumped, dumped', binary, short]
  refine ⟨rfl, readGroups_joined bitText_visible bytes readBits_bitText,
    readGroups_joined hexText_visible bytes readHex_hexText,
    readGroups_joined byteDumpHex_visible bytes readHex_byteDumpHex, ?_⟩
  rw [joined_eq_iff hexText_visible byteDumpHex_visible]
  exact forall₂_congr fun byte _ => hexText_eq_iff byte

/-- The idle packet, where one byte is short. -/
theorem dumps_read_back_idle : (dump ⟨[0xFF, 0xF7, 0xF8, 0x01, 0xFF]⟩).string =
      packetDump ⟨[0xFF, 0xF7, 0xF8, 0x01, 0xFF]⟩ ∧
    readGroups readHex (packetDumpHex ⟨[0xFF, 0xF7, 0xF8, 0x01, 0xFF]⟩) = [0xFF, 0xF7, 0xF8, 0x01, 0xFF] ∧
    (hexDump ⟨[0xFF, 0xF7, 0xF8, 0x01, 0xFF]⟩).string ≠
      packetDumpHex ⟨[0xFF, 0xF7, 0xF8, 0x01, 0xFF]⟩ := by
  obtain ⟨same, -, -, read, equal⟩ := dumps_read_back ⟨[0xFF, 0xF7, 0xF8, 0x01, 0xFF]⟩ (by decide)
  refine ⟨same, read, fun agree => ?_⟩
  exact absurd (equal.mp agree 0x01 (by decide)) (by decide)

end Freedcc.Dcc
