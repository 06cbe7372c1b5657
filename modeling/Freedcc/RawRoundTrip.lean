import Freedcc.PacketDumps
import Freedcc.RawScan

/-! The bytes of a raw command, from the digits that are typed to the digits of
`DCC_hex_dump`. -/
namespace Freedcc.Parser
open Dcc Scanner PartialProgram TextBlock
variable {σ : Type} [TokenSource σ]

/-- A letter that is `d` in lower case is `d` itself or stands 32 before it. -/
theorem eq_of_toLower {c d : Char} (same : c.toLower = d) :
    c = d ∨ 65 ≤ c.toNat ∧ c.toNat ≤ 90 ∧ c.toNat + 32 = d.toNat := by
  by_cases upper : c.val ≥ 'A'.val ∧ c.val ≤ 'Z'.val
  · have lower : c.toLower = ⟨c.val + ('a'.val - 'A'.val), _⟩ := dif_pos upper
    have range : 65 ≤ c.toNat ∧ c.toNat ≤ 90 := by
      simpa [UInt32.le_iff_toNat_le] using upper
    refine Or.inr ⟨range.1, range.2, ?_⟩
    rw [← same, lower]
    change c.toNat + 32 = (c.val + 32).toNat
    simp only [UInt32.toNat_add, Char.toNat_val, UInt32.reduceToNat]
    omega
  · left
    have kept : c.toLower = c := dif_neg upper
    rw [← same, kept]

/-- A hexadecimal digit in either case is stored as one with its value. -/
theorem hexDigit_stored {c : Char} {n : Nat} (small : n < 16) (digit : c.toLower = Nat.digitChar n) :
    c.isAlphanum = true ∧ hexDigit (stored c) = some n := by
  have lower : ∀ n < 16, (Nat.digitChar n).isAlphanum = true ∧
      hexDigit (stored (Nat.digitChar n)) = some n := by decide
  have upper : ∀ n < 16, 65 ≤ (Nat.digitChar n).toNat - 32 →
      (Char.ofNat ((Nat.digitChar n).toNat - 32)).isAlphanum = true ∧
        hexDigit (stored (Char.ofNat ((Nat.digitChar n).toNat - 32))) = some n := by decide
  rcases eq_of_toLower digit with rfl | ⟨low, high, same⟩
  · exact lower n small
  · have value : (Nat.digitChar n).toNat - 32 = c.toNat := by omega
    have letter := upper n small (by omega)
    rwa [value, Char.ofNat_toNat] at letter

/-- The text of some bytes, in any mix of cases. -/
def HexSpells (bytes : List Byte) (h : List Char) : Prop :=
  h.map Char.toLower = bytes.flatMap hexText

instance (bytes : List Byte) (h : List Char) : Decidable (HexSpells bytes h) :=
  inferInstanceAs (Decidable (_ = _))

theorem HexSpells.cons {byte : Byte} (spells : HexSpells (byte :: bytes) h) :
    ∃ c₁ c₂ more, h = c₁ :: c₂ :: more ∧ c₁.toLower = Nat.digitChar (byte.toNat / 16) ∧
      c₂.toLower = Nat.digitChar (byte.toNat % 16) ∧ HexSpells bytes more := by
  rw [HexSpells, List.flatMap_cons, hexText, List.cons_append, List.cons_append,
    List.nil_append] at spells
  obtain ⟨c₁, tail, rfl, first, later⟩ := List.map_eq_cons_iff.mp spells
  obtain ⟨c₂, more, rfl, second, rest⟩ := List.map_eq_cons_iff.mp later
  exact ⟨c₁, c₂, more, rfl, first, second, rest⟩

theorem HexSpells.read (spells : HexSpells bytes h) :
    (∀ d ∈ h, Char.isAlphanum d = true) ∧ h.length = 2 * bytes.length ∧
      hexBytes (h.map stored) = bytes := by
  induction bytes generalizing h with
  | nil =>
    obtain rfl : h = [] := List.map_eq_nil_iff.mp spells
    exact ⟨by simp, rfl, rfl⟩
  | cons byte bytes ih =>
    obtain ⟨c₁, c₂, more, rfl, high, low, rest⟩ := spells.cons
    obtain ⟨alnum, length, converted⟩ := ih rest
    have bound : byte.toNat < 256 := byte.isLt
    obtain ⟨alnum₁, digit₁⟩ := hexDigit_stored (by omega) high
    obtain ⟨alnum₂, digit₂⟩ := hexDigit_stored (by omega) low
    refine ⟨?_, ?_, ?_⟩
    · intro d member
      rcases List.mem_cons.mp member with rfl | member
      · exact alnum₁
      · rcases List.mem_cons.mp member with rfl | member
        · exact alnum₂
        · exact alnum d member
    · rw [List.length_cons, List.length_cons, List.length_cons, length]
      omega
    · have whole : 16 * (byte.toNat / 16) + byte.toNat % 16 = byte.toNat := Nat.div_add_mod _ 16
      rw [List.map_cons, List.map_cons, hexBytes, converted, scanHexByte, digit₁, digit₂]
      simp only [whole, BitVec.ofNat_toNat, BitVec.setWidth_eq]

/-- Up to ten bytes are one token. At ten the buffer is full and the last digit
goes back to the stream, but it has been stored. -/
theorem HexSpells.token (spells : HexSpells bytes h) (few : bytes.length ≤ 10) {c : Option Char}
    (stop : (isalpha c || isdigit c) = false) {s : Scanner CharStream} (unended : s.seenEnd = false)
    (holds : s.stdin.contents = ('0' :: 'x' :: h).map some ++ c :: rest) :
    ∃ s', nextToken s = .ok (.hex, s') ∧ s'.value = .s (h.map stored) := by
  obtain ⟨alnum, length, -⟩ := spells.read
  have start : nextToken s = nextHex { s with stdin := ⟨none, h.map some ++ c :: rest⟩ } :=
    nextToken_hex blanks_nil unended holds
  rw [start]
  by_cases short : h.length < maxTokLen
  · have even : h.length % 2 = 0 := by omega
    rw [nextHex_read alnum stop short rfl, if_pos even]
    cases c with
    | none => exact ⟨_, rfl, rfl⟩
    | some c => exact ⟨_, rfl, rfl⟩
  · have full : h.length = maxTokLen := by
      simp only [maxTokLen] at short ⊢
      omega
    obtain ⟨front, letter, rfl⟩ : ∃ front letter, h = front ++ [letter] := by
      refine ⟨h.dropLast, h.getLast ?_, (List.dropLast_append_getLast _).symm⟩
      rintro rfl
      exact absurd full (by decide)
    exact ⟨_, nextHex_full alnum full rfl, rfl⟩

theorem hexText_visible (byte : Byte) : ∀ c ∈ hexText byte, c ≠ ' ' ∧ c ≠ '\x00' := by
  have digit : ∀ n < 16, Nat.digitChar n ≠ ' ' ∧ Nat.digitChar n ≠ '\x00' := by decide
  have bound : byte.toNat < 256 := byte.isLt
  intro c member
  rcases List.mem_pair.mp member with rfl | rfl
  · exact digit _ (by omega)
  · exact digit _ (by omega)

/-- Without its blanks the dump is the digits. -/
theorem filter_joined (bytes : List Byte) :
    ([' '].intercalate (bytes.map hexText)).filter (· ≠ ' ') = bytes.flatMap hexText := by
  have digits : ∀ byte, (hexText byte).filter (· ≠ ' ') = hexText byte := fun byte =>
    List.filter_eq_self.mpr fun c member => decide_eq_true (hexText_visible byte c member).1
  induction bytes with
  | nil => rfl
  | cons byte rest ih =>
    cases rest with
    | nil =>
      rw [List.map_cons, List.map_nil, List.intercalate_singleton, digits]
      simp
    | cons next rest =>
      rw [List.map_cons] at ih
      rw [List.map_cons, List.map_cons, List.intercalate_cons_cons, List.filter_append,
        List.filter_append, ih, digits, List.flatMap_cons]
      simp

theorem joined_noNul (bytes : List Byte) :
    '\x00' ∉ [' '].intercalate (bytes.map hexText) := by
  intro member
  rcases mem_intercalate member with blank | ⟨group, inside, digit⟩
  · exact absurd blank (by decide)
  · obtain ⟨byte, -, rfl⟩ := List.mem_map.mp inside
    exact (hexText_visible byte _ digit).2 rfl

omit [TokenSource σ] in
/-- The semantic action, where it is entered. -/
theorem makeRaw_entered (text : List Char) {p : Parser σ}
    (entered : p.result.any (·.payload.present) = true) :
    ∃ next, makeRaw text p = .ok ((), next) ∧ ∃ ref : PacketRef,
      next.result = some ⟨.raw, .packet ref⟩ ∧ ref.packet = ⟨hexBytes text⟩ := by
  obtain ⟨r, result⟩ : ∃ r, p.result = some r := by
    cases made : p.result with
    | none => simp [made] at entered
    | some r => exact ⟨r, rfl⟩
  have start : (get : Parse σ (Parser σ)) p = .ok (p, p) := get_ok.mpr ⟨rfl, rfl⟩
  rw [makeRaw, ok_bind start, if_pos entered]
  refine ⟨_, modify_ok.mpr rfl, ⟨p.created, ⟨hexBytes text⟩⟩, ?_, rfl⟩
  rw [result]

/-- One to ten bytes, typed in hexadecimal, come back from the dump of the packet. -/
theorem raw_round_trip (bytes : List Byte) (nonempty : 1 ≤ bytes.length) (few : bytes.length ≤ 10)
    (h : List Char) (spells : HexSpells bytes h) (c : Option Char)
    (stop : (isalpha c || isdigit c) = false) (rest : List (Option Char)) (s : Scanner CharStream)
    (unended : s.seenEnd = false)
    (holds : s.stdin.contents = ('0' :: 'x' :: h).map some ++ c :: rest) :
    ∃ s', nextToken s = .ok (.hex, s') ∧ ∀ p : Parser (Scanner CharStream), p.scanner = s' →
      p.result.any (·.payload.present) = true →
        ∃ next ref, makeRaw (TokenSource.value p.scanner).text p = .ok ((), next) ∧
          next.result = some ⟨.raw, .packet ref⟩ ∧ ref.packet.bytes = bytes ∧
          ref.packet.size = bytes.length ∧ (hexDump ref.packet).Inside ∧
          ∃ text, (hexDump ref.packet).IsString text ∧
            text.filter (· ≠ ' ') = h.map Char.toLower := by
  obtain ⟨s', token, value⟩ := spells.token few stop unended holds
  obtain ⟨-, -, converted⟩ := spells.read
  refine ⟨s', token, fun p same entered => ?_⟩
  have text : (TokenSource.value p.scanner).text = h.map stored := by
    rw [same]
    exact congrArg Value.text value
  obtain ⟨next, made, ref, result, packet⟩ := makeRaw_entered (h.map stored) entered
  rw [converted] at packet
  have size : 1 ≤ ref.packet.size := by rwa [packet]
  obtain ⟨wrote, room⟩ := hexDump_wrote ref.packet size
  refine ⟨next, ref, by rw [text, made], result, by rw [packet], by rw [packet]; rfl, ?_, _,
    wrote.isString (joined_noNul _), ?_⟩
  · apply wrote.inside
    rw [room, List.length_append, List.length_singleton]
    rfl
  · rw [packet, filter_joined]
    exact spells.symm

/-- Ten bytes in mixed case, which fill the buffer. -/
theorem raw_round_trip_ten : ∃ s' next ref text,
    nextToken (Scanner.fresh id (CharStream.ofText "0xfF00A5a5DEADbeef0102\n".toList)) =
        .ok (.hex, s') ∧
      makeRaw s'.value.text
        { Parser.fresh s' with result := some ⟨.undef, .garbage false⟩ } = .ok ((), next) ∧
      next.result = some ⟨.raw, .packet ref⟩ ∧
      ref.packet.bytes = [0xFF, 0x00, 0xA5, 0xA5, 0xDE, 0xAD, 0xBE, 0xEF, 0x01, 0x02] ∧
      (hexDump ref.packet).Inside ∧ (hexDump ref.packet).IsString text ∧
      text.filter (· ≠ ' ') = "ff00a5a5deadbeef0102".toList := by
  obtain ⟨s', token, stores⟩ := raw_round_trip
    [0xFF, 0x00, 0xA5, 0xA5, 0xDE, 0xAD, 0xBE, 0xEF, 0x01, 0x02] (by decide) (by decide)
    "fF00A5a5DEADbeef0102".toList (by decide) (some '\n') (by decide) []
    (Scanner.fresh id (CharStream.ofText "0xfF00A5a5DEADbeef0102\n".toList)) rfl (by decide)
  obtain ⟨next, ref, made, result, bytes, -, inside, text, string, digits⟩ :=
    stores { Parser.fresh s' with result := some ⟨.undef, .garbage false⟩ } rfl rfl
  exact ⟨s', next, ref, text, token, made, result, bytes, inside, string, digits⟩

end Freedcc.Parser
