import Freedcc.Dcc
import Freedcc.Lib.TextBlock
import Mathlib.Tactic.Ring

/-! The texts `DCC_dump` and `DCC_hex_dump` write for a packet, and the blocks
they write them to. The same loop, with its own arithmetic each: the length
given to malloc, the guard and the index are separate formulas. -/
namespace Freedcc.Dcc
open TextBlock

/-- One step of the inner loop: `(byte & (1 << j)) ? '1' : '0'`. -/
def bitChar (byte : Byte) (j : Nat) : Char := if byte &&& (1 <<< j) ≠ 0 then '1' else '0'

def dumpBit (byte : Byte) (state : Nat × TextBlock) (j : Nat) : Nat × TextBlock :=
  (state.1 + 1, state.2.put state.1 (bitChar byte j))

/-- `for(j=7; j >= 0; j--)`. -/
def dumpByte (byte : Byte) (state : Nat × TextBlock) : Nat × TextBlock :=
  [7, 6, 5, 4, 3, 2, 1, 0].foldl (dumpBit byte) state

def dump (packet : Packet) : TextBlock :=
  let dumpLen : Int := packet.size * 8 + (packet.size - 2)
  let state := separated dumpByte ' ' dumpLen packet.bytes (0, malloc (dumpLen + 1))
  state.2.put state.1 '\x00'

/-- `"%02x"`. -/
def hexText (byte : Byte) : List Char :=
  [Nat.digitChar (byte.toNat / 16), Nat.digitChar (byte.toNat % 16)]

/-- `snprintf(dump + k, 3, "%02x", byte)` and `k += 2`. -/
def hexDumpByte (byte : Byte) (state : Nat × TextBlock) : Nat × TextBlock :=
  let dump := state.2.put state.1 (Nat.digitChar (byte.toNat / 16))
  let dump := dump.put (state.1 + 1) (Nat.digitChar (byte.toNat % 16))
  (state.1 + 2, dump.put (state.1 + 2) '\x00')

def hexDump (packet : Packet) : TextBlock :=
  let dumpLen : Int := packet.size * 2 + (packet.size - 1)
  (separated hexDumpByte ' ' dumpLen packet.bytes (0, malloc (dumpLen + 1))).2

def bitText (byte : Byte) : List Char := [7, 6, 5, 4, 3, 2, 1, 0].map (bitChar byte)

/-- The byte a group of binary digits stands for. -/
def readBits (group : List Char) : Byte :=
  group.foldl (fun byte c => byte * 2 + if c = '1' then 1 else 0) 0

theorem dumpByte_spells : Spells dumpByte bitText [] := by
  have bits : ∀ (byte : Byte) (js : List Nat) (text : List Char) (block : TextBlock),
      block.Wrote text → ∃ after : TextBlock,
        js.foldl (dumpBit byte) (text.length, block) =
          ((text ++ js.map (bitChar byte)).length, after) ∧
        after.Wrote (text ++ js.map (bitChar byte)) ∧ after.length = block.length := by
    intro byte js
    induction js with
    | nil =>
      intro text block wrote
      exact ⟨block, by simp, by simpa using wrote, rfl⟩
    | cons j js ih =>
      intro text block wrote
      obtain ⟨after, later, all, kept⟩ := ih _ _ (wrote.append (bitChar byte j))
      rw [List.append_assoc] at all
      refine ⟨after, ?_, all, kept⟩
      rw [List.length_append, List.length_singleton] at later
      rw [List.foldl_cons, dumpBit, later, List.append_assoc]
      rfl
  intro byte text block wrote
  obtain ⟨after, written, all, kept⟩ := bits byte [7, 6, 5, 4, 3, 2, 1, 0] text block wrote
  exact ⟨after, written, by simpa [bitText] using all, kept⟩

theorem hexDumpByte_spells : Spells hexDumpByte hexText ['\x00'] := by
  intro byte text block wrote
  have all := ((wrote.append (Nat.digitChar (byte.toNat / 16))).append
    (Nat.digitChar (byte.toNat % 16))).append '\x00'
  simp only [List.length_append, List.length_singleton, List.append_assoc] at all
  refine ⟨(hexDumpByte byte (text.length, block)).2, ?_, ?_, rfl⟩
  · rw [List.length_append]
    rfl
  · rw [List.append_assoc]
    exact all

theorem length_joined (spell : Byte → List Char) {m : Nat} (same : ∀ byte, (spell byte).length = m)
    {bytes : List Byte} (some : bytes ≠ []) :
    ([' '].intercalate (bytes.map spell)).length + 1 = bytes.length * (m + 1) := by
  induction bytes with
  | nil => exact absurd rfl some
  | cons byte rest ih =>
    cases rest with
    | nil => simp [same]
    | cons next rest =>
      have later := ih (by simp)
      simp only [List.map_cons, List.intercalate_cons_cons, List.length_append, same,
        List.length_cons, List.length_nil] at later ⊢
      rw [Nat.add_assoc, later]
      ring

/-- The loop of either dump, in a block as malloc returned it. -/
theorem separated_packet {write : Byte → Nat × TextBlock → Nat × TextBlock}
    {spell : Byte → List Char} {tail : List Char} (spells : Spells write spell tail)
    (short : tail.length ≤ 1) {m : Nat} (same : ∀ byte, (spell byte).length = m + 1)
    {packet : Packet} (some : 1 ≤ packet.size) (limit size : Int)
    (room : (packet.size * (m + 2) : Int) ≤ limit + 2) :
    ∃ after, separated write ' ' limit packet.bytes (0, malloc size) =
        (([' '].intercalate (packet.bytes.map spell)).length, after) ∧
      after.Wrote ([' '].intercalate (packet.bytes.map spell) ++ tail) ∧ after.length = size ∧
        ([' '].intercalate (packet.bytes.map spell)).length + 1 = packet.size * (m + 2) := by
  have bytes : packet.bytes ≠ [] := List.ne_nil_of_length_pos some
  have length := length_joined spell same bytes
  have visible : ∀ byte, spell byte ≠ [] := by
    intro byte none
    have empty := same byte
    rw [none] at empty
    cases empty
  have fits : (([] ++ [' '].intercalate (packet.bytes.map spell) : List Char).length : Int) ≤
      limit + 1 := by
    rw [List.nil_append]
    rw [Packet.size] at room
    have bound : ((packet.bytes.length * (m + 1 + 1) : Nat) : Int) ≤ limit + 2 := by
      exact_mod_cast room
    omega
  obtain ⟨after, written, wrote, kept⟩ := spells.separated short visible bytes
    (wrote_malloc size) fits
  rw [List.nil_append, List.length_nil] at written
  rw [List.nil_append] at wrote
  exact ⟨after, written, wrote, kept, length⟩

/-- `DCC_dump` asks for as many characters as its text has, and writes a NUL after them. -/
theorem dump_wrote (packet : Packet) (some : 1 ≤ packet.size) :
    (dump packet).Wrote ([' '].intercalate (packet.bytes.map bitText) ++ ['\x00']) ∧
      (dump packet).length = ([' '].intercalate (packet.bytes.map bitText)).length := by
  obtain ⟨after, written, wrote, kept, length⟩ := separated_packet dumpByte_spells (by simp)
    (m := 7) (fun _ => rfl) some (packet.size * 8 + (packet.size - 2))
    (packet.size * 8 + (packet.size - 2) + 1) (by omega)
  rw [List.append_nil] at wrote
  simp only [dump, written]
  refine ⟨wrote.append '\x00', ?_⟩
  simp only [length_put, kept]
  omega

/-- `DCC_hex_dump` leaves room for the NUL of the last byte. -/
theorem hexDump_wrote (packet : Packet) (some : 1 ≤ packet.size) :
    (hexDump packet).Wrote ([' '].intercalate (packet.bytes.map hexText) ++ ['\x00']) ∧
      (hexDump packet).length = ([' '].intercalate (packet.bytes.map hexText)).length + 1 := by
  obtain ⟨after, written, wrote, kept, length⟩ := separated_packet hexDumpByte_spells (by simp)
    (m := 1) (fun _ => rfl) some (packet.size * 2 + (packet.size - 1))
    (packet.size * 2 + (packet.size - 1) + 1) (by omega)
  simp only [hexDump, written]
  refine ⟨wrote, ?_⟩
  rw [kept]
  omega

/-! What the two texts say. -/

theorem readBits_bitText : ∀ byte : Byte, readBits (bitText byte) = byte := by decide +kernel

theorem bitChar_cases (byte : Byte) (j : Nat) : bitChar byte j = '0' ∨ bitChar byte j = '1' := by
  unfold bitChar
  split
  · exact Or.inr rfl
  · exact Or.inl rfl

/-- Nothing but groups of eight binary digits with single blanks between them,
one for each byte and in their order. -/
def BitGroups (bytes : List Byte) (text : List Char) : Prop :=
  ∃ groups : List (List Char), text = [' '].intercalate groups ∧
    (∀ group ∈ groups, group.length = 8 ∧ ∀ c ∈ group, c = '0' ∨ c = '1') ∧
    groups.map readBits = bytes

theorem bitGroups_intercalate (bytes : List Byte) :
    BitGroups bytes ([' '].intercalate (bytes.map bitText)) := by
  refine ⟨bytes.map bitText, rfl, ?_, ?_⟩
  · intro group member
    obtain ⟨byte, -, rfl⟩ := List.mem_map.mp member
    refine ⟨rfl, fun c digit => ?_⟩
    obtain ⟨j, -, rfl⟩ := List.mem_map.mp digit
    exact bitChar_cases byte j
  · rw [List.map_map]
    conv_rhs => rw [← List.map_id bytes]
    apply List.map_congr_left
    intro byte _
    rw [Function.comp_apply, readBits_bitText, id]

theorem mem_intercalate {separator : Char} {pieces : List (List Char)}
    (member : c ∈ [separator].intercalate pieces) : c = separator ∨ ∃ piece ∈ pieces, c ∈ piece := by
  induction pieces with
  | nil => simp at member
  | cons piece rest ih =>
    cases rest with
    | nil =>
      rw [List.intercalate_singleton] at member
      exact Or.inr ⟨piece, List.mem_cons_self, member⟩
    | cons next rest =>
      simp only [List.intercalate_cons_cons, List.mem_append, List.mem_singleton] at member
      rcases member with (first | blank) | later
      · exact Or.inr ⟨piece, List.mem_cons_self, first⟩
      · exact Or.inl blank
      · rcases ih later with blank | ⟨other, inside, here⟩
        · exact Or.inl blank
        · exact Or.inr ⟨other, List.mem_cons_of_mem _ inside, here⟩

/-- As a C string the dump is what it should be. -/
theorem dump_isString (packet : Packet) (some : 1 ≤ packet.size) :
    ∃ text, (dump packet).IsString text ∧ BitGroups packet.bytes text := by
  refine ⟨_, (dump_wrote packet some).1.isString ?_, bitGroups_intercalate packet.bytes⟩
  intro member
  rcases mem_intercalate member with blank | ⟨group, inside, digit⟩
  · exact absurd blank (by decide)
  · obtain ⟨byte, -, rfl⟩ := List.mem_map.mp inside
    obtain ⟨j, -, same⟩ := List.mem_map.mp digit
    rcases bitChar_cases byte j with zero | one
    · rw [zero] at same
      exact absurd same (by decide)
    · rw [one] at same
      exact absurd same (by decide)

/-- The dump is an exact text in a block that has room for it. -/
def DumpExact (packet : Packet) : Prop :=
  (dump packet).Inside ∧ ∃ text, (dump packet).IsString text ∧ BitGroups packet.bytes text

/-- The NUL is written just past the block, whatever the packet. -/
theorem dump_overruns (packet : Packet) (some : 1 ≤ packet.size) : ¬ DumpExact packet := by
  rintro ⟨inside, -⟩
  obtain ⟨wrote, room⟩ := dump_wrote packet some
  have last : ((dump packet).read ([' '].intercalate (packet.bytes.map bitText)).length) =
      Option.some '\x00' := by
    apply wrote.begins
    simp
  obtain ⟨w, found, -⟩ := Option.map_eq_some_iff.mp last
  have here : w.1 = ([' '].intercalate (packet.bytes.map bitText)).length := by
    simpa using List.find?_some found
  have bound := inside w (List.mem_of_find?_eq_some found)
  omega

theorem dump_overruns_one : 1 ≤ (packetCreate 1).size ∧ ¬ DumpExact (packetCreate 1) :=
  ⟨by decide, dump_overruns (packetCreate 1) (by decide)⟩

/-- Five bytes: forty-four characters are asked for, and index 44 is written. -/
theorem dump_inexact_baseline : ¬ DumpExact baselinePacketCreate := by
  rintro ⟨inside, -⟩
  exact absurd inside (by decide)

end Freedcc.Dcc
