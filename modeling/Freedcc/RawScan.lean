import Freedcc.RawPackets
import Freedcc.ScannerText

/-! The text after `0x`. The scanner takes letters and digits while there is room
for them, in upper case, and looks at their number only. -/
namespace Freedcc
open PartialProgram

namespace Scanner
variable {s : Scanner CharStream} {text : List Char}

/-- `isdigit(c) ? c : toupper(c)`. -/
def stored (c : Char) : Char := if c.isDigit then c else c.toUpper

theorem scanHex_letter {letter : Char} (alnum : letter.isAlphanum = true) (room : Nat)
    (tok : List Char) (last : Option Char) (holds : s.stdin.contents = some letter :: rest) :
    scanHex (room + 1) tok last s =
      scanHex room (tok ++ [stored letter]) (some letter) { s with stdin := ⟨none, rest⟩ } := by
  rw [scanHex, ok_bind (getchar_read holds)]
  have here : (isalpha (some letter) || isdigit (some letter)) = true := alnum
  simp only [here, if_true]
  rfl

/-- The letters and digits up to another character, while there is room. -/
theorem scanHex_read (alnum : ∀ d ∈ text, Char.isAlphanum d = true) {c : Option Char}
    (stop : (isalpha c || isdigit c) = false) (short : text.length < room) (tok : List Char)
    (last : Option Char) (holds : s.stdin.contents = text.map some ++ c :: rest) :
    scanHex room tok last s =
      .ok ((tok ++ text.map stored, c), { s with stdin := ⟨none, rest⟩ }) := by
  induction text generalizing s room tok last with
  | nil =>
    obtain ⟨room, rfl⟩ := Nat.exists_eq_add_one.mpr short
    rw [scanHex, ok_bind (getchar_read holds), List.map_nil, List.append_nil]
    cases c with
    | none => rfl
    | some c =>
      simp only [stop, Bool.false_eq_true, if_false]
      rfl
  | cons d text ih =>
    obtain ⟨room, rfl⟩ := Nat.exists_eq_add_one.mpr (Nat.zero_lt_of_lt short)
    rw [scanHex_letter (alnum d List.mem_cons_self) room tok last holds]
    rw [ih (fun d member => alnum d (List.mem_cons_of_mem _ member))
      (Nat.lt_of_succ_lt_succ short) _ _ rfl]
    simp

/-- With no more room the last letter comes with the text, and nothing is read
after it. -/
theorem scanHex_full (alnum : ∀ d ∈ text ++ [letter], Char.isAlphanum d = true) (tok : List Char)
    (last : Option Char) (holds : s.stdin.contents = (text ++ [letter]).map some ++ rest) :
    scanHex (text.length + 1) tok last s =
      .ok ((tok ++ (text ++ [letter]).map stored, some letter),
        { s with stdin := ⟨none, rest⟩ }) := by
  induction text generalizing s tok last with
  | nil =>
    rw [List.length_nil, scanHex_letter (alnum letter (by simp)) 0 tok last holds]
    rfl
  | cons d text ih =>
    rw [List.length_cons, scanHex_letter (alnum d (by simp)) _ tok last holds]
    rw [ih (fun d member => alnum d (List.mem_cons_of_mem _ member)) _ _ rfl]
    simp

/-- A text that fits is taken whole, and is a token if its length is even. -/
theorem nextHex_read (alnum : ∀ d ∈ text, Char.isAlphanum d = true) {c : Option Char}
    (stop : (isalpha c || isdigit c) = false) (short : text.length < maxTokLen)
    (holds : s.stdin.contents = text.map some ++ c :: rest) :
    nextHex s =
      if text.length % 2 = 0 then
        (do putBack c; return .hex : Scan CharStream Tok)
          { s with stdin := ⟨none, rest⟩, value := .s (text.map stored) }
      else .ok (.unknown, { s with stdin := ⟨none, rest⟩, value := .s (text.map stored) }) := by
  rw [nextHex, ok_bind (scanHex_read alnum stop short [] (some '0') holds), List.nil_append]
  by_cases even : text.length % 2 = 0
  · have pass : ¬ ((text.map stored).length > 0 ∧ (text.map stored).length % 2 ≠ 0) := by
      rw [List.length_map]
      omega
    simp only [if_pos even, if_neg pass]
    rfl
  · have odd : (text.map stored).length > 0 ∧ (text.map stored).length % 2 ≠ 0 := by
      rw [List.length_map]
      omega
    simp only [if_neg even, if_pos odd]
    rfl

/-- Twenty letters and digits are a token, and the last of them is pushed back. -/
theorem nextHex_full (alnum : ∀ d ∈ text ++ [letter], Char.isAlphanum d = true)
    (full : (text ++ [letter]).length = maxTokLen)
    (holds : s.stdin.contents = (text ++ [letter]).map some ++ rest) :
    nextHex s = .ok (.hex,
      { s with stdin := ⟨some letter, rest⟩, value := .s ((text ++ [letter]).map stored) }) := by
  have room : maxTokLen = text.length + 1 := by
    rw [← full, List.length_append, List.length_singleton]
  have read := scanHex_full alnum [] (some '0') holds
  rw [← room, List.nil_append] at read
  have pass : ¬ (((text ++ [letter]).map stored).length > 0 ∧
      ((text ++ [letter]).map stored).length % 2 ≠ 0) := by
    rw [List.length_map, full]
    decide
  rw [nextHex, ok_bind read]
  simp only [if_neg pass]
  rfl

/-- `0x` is followed by the text of a packet. -/
theorem nextToken_hex (blanks : Blanks gap) (unended : s.seenEnd = false)
    (holds : s.stdin.contents = gap.map some ++ some '0' :: some 'x' :: rest) :
    nextToken s = nextHex { s with stdin := ⟨none, rest⟩ } := by
  obtain ⟨fuel, skipped⟩ := nextToken_blanks blanks unended holds
  rw [skipped, scanToken, ok_bind (getchar_read rfl)]
  simp only [if_true]
  rw [ok_bind (getchar_read rfl)]
  rfl

def isxdigit (c : Char) : Bool := "0123456789abcdefABCDEF".toList.contains c

/-- What `raw` is documented to take. -/
structure HexText (w : List Char) : Prop where
  some : w ≠ []
  whole : w.length % 2 = 0
  fits : w.length ≤ maxTokLen
  digits : ∀ d ∈ w, isxdigit d = true

structure RawLine (w : List Char) (c : Char) (rest : List (Option Char)) (s : Scanner CharStream) :
    Prop where
  unended : s.seenEnd = false
  holds : s.stdin.contents = ("raw 0x".toList ++ w).map Option.some ++ Option.some c :: rest

variable {w : List Char} {c : Char}

theorem RawLine.read (line : RawLine w c rest s) : ∃ s₁ s₂ : Scanner CharStream,
    nextToken s = .ok (.raw, s₁) ∧ nextToken s₁ = nextHex s₂ ∧
      s₂.stdin.contents = w.map some ++ some c :: rest := by
  have holds : s.stdin.contents = ([] : List Char).map some ++ ("raw".toList.map some ++
      some ' ' :: (some '0' :: some 'x' :: (w.map some ++ some c :: rest))) := by
    rw [line.holds]
    simp
  have word : Lexeme "raw".toList (keyword ("raw".toList.map Char.toLower),
      .s ("raw".toList.map Char.toLower)) :=
    .word (List.all_eq_true.mp (by decide)) (by decide) (by decide)
  have first := nextToken_lexeme blanks_nil word (Or.inl rfl) line.unended holds
  have blank : Blanks [' '] := by simp [Blanks]
  have second := nextToken_hex blank line.unended
    (s := { s with
      stdin := ⟨some ' ', some '0' :: some 'x' :: (w.map some ++ some c :: rest)⟩
      value := .s ("raw".toList.map Char.toLower) }) rfl
  exact ⟨_, _, first, second, rfl⟩

end Scanner

namespace Parser
open Dcc Scanner

/-- For the text after `raw 0x`: the scanner makes a token of hexadecimal text
alone and consumes all of it, and no packet is made of anything else. -/
def HexOnly (w : List Char) (c : Char) (rest : List (Option Char)) : Prop :=
  (∀ s s₁ s₂ : Scanner CharStream, RawLine w c rest s → nextToken s = .ok (.raw, s₁) →
    nextToken s₁ = .ok (.hex, s₂) → HexText w ∧ s₂.stdin.contents = some c :: rest) ∧
  ∀ (p next : Parser (Scanner CharStream)) (null : Bool) (ref : PacketRef),
    RawLine w c rest (TokenSource.reset p.scanner) → parserStart (some null) p = .ok (true, next) →
    next.result = some ⟨.raw, .packet ref⟩ →
      HexText w ∧ ref.packet = ⟨hexBytes (w.map stored)⟩

variable {w : List Char} {c : Char}

theorem stop_of_alnum (stop : c.isAlphanum = false) :
    (isalpha (some c) || isdigit (some c)) = false := stop

/-- A short text of even length is consumed to its end. -/
theorem hex_read (alnum : ∀ d ∈ w, Char.isAlphanum d = true) (stop : c.isAlphanum = false)
    (short : w.length < maxTokLen) {s s₁ s₂ : Scanner CharStream} (line : RawLine w c rest s)
    (first : nextToken s = .ok (.raw, s₁)) (second : nextToken s₁ = .ok (.hex, s₂)) :
    w.length % 2 = 0 ∧ s₂.stdin.contents = some c :: rest ∧ s₂.value = .s (w.map stored) := by
  obtain ⟨t₁, t₂, raw, hex, holds⟩ := line.read
  rw [raw] at first
  cases first
  rw [hex, nextHex_read alnum (stop_of_alnum stop) short holds] at second
  by_cases even : w.length % 2 = 0
  · rw [if_pos even] at second
    cases second
    exact ⟨even, rfl, rfl⟩
  · rw [if_neg even] at second
    cases second

/-- Of an empty or short text of even length a token is made whatever it says, of
a long one always. -/
theorem hex_token (alnum : ∀ d ∈ w, Char.isAlphanum d = true) (stop : c.isAlphanum = false)
    {s : Scanner CharStream} (line : RawLine w c rest s)
    (token : maxTokLen ≤ w.length ∨ w.length % 2 = 0) : ∃ s₁ s₂,
      nextToken s = .ok (.raw, s₁) ∧ nextToken s₁ = .ok (.hex, s₂) ∧
        (maxTokLen ≤ w.length → s₂.stdin.contents ≠ some c :: rest) := by
  obtain ⟨t₁, t₂, raw, hex, holds⟩ := line.read
  by_cases short : w.length < maxTokLen
  · have even : w.length % 2 = 0 := by omega
    rw [nextHex_read alnum (stop_of_alnum stop) short holds, if_pos even] at hex
    exact ⟨t₁, _, raw, hex, fun long => absurd long (by omega)⟩
  · -- the twentieth character ends the token and goes back
    have inside : 19 < w.length := Nat.lt_of_not_le fun few => short (Nat.lt_succ_of_le few)
    have split : w = w.take 19 ++ [w[19]] ++ w.drop 20 := by
      rw [List.take_append_getElem inside, List.take_append_drop]
    have full : (w.take 19 ++ [w[19]]).length = maxTokLen := by
      rw [List.length_append, List.length_take, Nat.min_eq_left (Nat.le_of_lt inside)]
      rfl
    have front : ∀ d ∈ w.take 19 ++ [w[19]], Char.isAlphanum d = true := fun d member =>
      alnum d (by rw [split]; exact List.mem_append_left _ member)
    have taken : t₂.stdin.contents = (w.take 19 ++ [w[19]]).map some ++
        ((w.drop 20).map some ++ some c :: rest) := by
      rw [holds, ← List.append_assoc, ← List.map_append, ← split]
    rw [nextHex_full front full taken] at hex
    refine ⟨t₁, _, raw, hex, fun _ same => ?_⟩
    have longer := congrArg List.length same
    simp only [CharStream.contents, Option.toList_some, List.map_cons, List.map_nil,
      List.length_append, List.length_cons, List.length_nil] at longer
    omega

theorem HexOnly.token (only : HexOnly w c rest) (alnum : ∀ d ∈ w, Char.isAlphanum d = true)
    (stop : c.isAlphanum = false) (token : maxTokLen ≤ w.length ∨ w.length % 2 = 0) :
    HexText w ∧ w.length < maxTokLen := by
  have line : RawLine w c rest
      (Scanner.fresh id ⟨none, ("raw 0x".toList ++ w).map some ++ some c :: rest⟩) := ⟨rfl, rfl⟩
  obtain ⟨s₁, s₂, first, second, long⟩ := hex_token alnum stop line token
  obtain ⟨text, consumed⟩ := only.1 _ s₁ s₂ line first second
  exact ⟨text, Nat.lt_of_not_le fun full => long full consumed⟩

/-- Only hexadecimal text is taken exactly if there is a text, it ends before the
scanner's buffer does, and it is of odd length or hexadecimal. -/
theorem hexOnly_iff (w : List Char) (alnum : ∀ d ∈ w, Char.isAlphanum d = true) (c : Char)
    (stop : c.isAlphanum = false) (rest : List (Option Char)) : HexOnly w c rest ↔
      w ≠ [] ∧ w.length < maxTokLen ∧ (w.length % 2 = 1 ∨ ∀ d ∈ w, isxdigit d = true) := by
  constructor
  · intro only
    by_cases token : maxTokLen ≤ w.length ∨ w.length % 2 = 0
    · obtain ⟨text, short⟩ := only.token alnum stop token
      exact ⟨text.some, short, Or.inr text.digits⟩
    · have odd : w.length < maxTokLen ∧ w.length % 2 = 1 := by omega
      refine ⟨?_, odd.1, Or.inl odd.2⟩
      rintro rfl
      exact absurd odd.2 (by decide)
  · rintro ⟨some, short, text⟩
    have whole : w.length % 2 = 0 → HexText w := fun even =>
      ⟨some, even, Nat.le_of_lt short, text.resolve_left (by omega)⟩
    constructor
    · intro s s₁ s₂ line first second
      obtain ⟨even, consumed, -⟩ := hex_read alnum stop short line first second
      exact ⟨whole even, consumed⟩
    · intro p next null ref line accepted raw
      refine parserStart_among (fun packet => HexText w ∧ packet = ⟨hexBytes (w.map stored)⟩)
        accepted raw fun last _ reach => ?_
      obtain ⟨s₁, s₂, first, second, same⟩ := reachRaw_tokens reach
      obtain ⟨even, -, value⟩ := hex_read alnum stop short line first second
      have text : TokenSource.value last.scanner = .s (w.map stored) := by
        rw [same]
        exact value
      rw [text]
      exact ⟨whole even, rfl⟩

theorem hexOnly_iff_byte : HexOnly "Ff".toList '\n' [] :=
  (hexOnly_iff "Ff".toList (by simp) '\n' (by decide) []).mpr
    ⟨by decide, by decide, Or.inr (by simp [isxdigit])⟩

/-- No digits are taken, two letters that are none, and twenty digits without
their last. -/
theorem raw_takes_other : ¬ HexOnly [] '\n' [] ∧ ¬ HexOnly "ZZ".toList '\n' [] ∧
    ¬ HexOnly (List.replicate 20 '5') '\n' [] := by
  refine ⟨fun only => ?_, fun only => ?_, fun only => ?_⟩
  · exact (only.token (by simp) (by decide) (Or.inr rfl)).1.some rfl
  · have text := (only.token (by simp) (by decide) (Or.inr (by decide))).1
    exact absurd (text.digits 'Z' (by decide)) (by decide)
  · exact absurd (only.token (by simp) (by decide) (Or.inl (by decide))).2 (by decide)

end Parser
end Freedcc
