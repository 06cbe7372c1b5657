import Freedcc.TokenReplay

/-! Scanning a text: what stands in the stream, pushed back or not, and the
tokens that a line spells. -/
namespace Freedcc

namespace CharStream

/-- The characters to come; the one pushed back is the first. -/
def contents (stream : CharStream) : List (Option Char) :=
  stream.unget.toList.map some ++ stream.input

theorem pending_eq (stream : CharStream) : stream.pending = stream.contents.length := by
  simp [pending, contents]

theorem getchar_contents {stream : CharStream} (holds : stream.contents = c :: rest) :
    stream.getchar = .ok (c, ⟨none, rest⟩) := by
  obtain ⟨unget, input⟩ := stream
  cases unget with
  | none =>
    simp only [contents, Option.toList_none, List.map_nil, List.nil_append] at holds
    subst holds
    rfl
  | some first =>
    simp only [contents, Option.toList_some, List.map_cons, List.map_nil, List.singleton_append,
      List.cons.injEq] at holds
    obtain ⟨rfl, rfl⟩ := holds
    rfl

theorem getchar_nil {stream : CharStream} (holds : stream.contents = []) :
    stream.getchar = .error .awaitingInput := by
  obtain ⟨unget, input⟩ := stream
  cases unget with
  | none =>
    simp only [contents, Option.toList_none, List.map_nil, List.nil_append] at holds
    subst holds
    rfl
  | some first => simp [contents] at holds

theorem contents_getchar {stream next : CharStream} (read : stream.getchar = .ok (c, next)) :
    stream.contents = c :: next.contents := by
  cases holds : stream.contents with
  | nil =>
    rw [getchar_nil holds] at read
    contradiction
  | cons first rest =>
    rw [getchar_contents holds] at read
    cases read
    rfl

end CharStream

namespace Scanner
variable {s : Scanner CharStream} {text : List Char} {c : Char}

theorem getchar_read {c : Option Char} (holds : s.stdin.contents = c :: rest) :
    getchar s = .ok (c, { s with stdin := ⟨none, rest⟩ }) := by
  have read : (Stdin.getchar s.stdin : Except Fault _) = .ok (c, ⟨none, rest⟩) :=
    CharStream.getchar_contents holds
  simp only [getchar, read]
  rfl

open PartialProgram

/-- The digits up to the first other character. -/
theorem scanDigits_read (digits : ∀ d ∈ text, Char.isDigit d = true) (stop : Char.isDigit c = false)
    (room : text.length < fuel) (number : BitVec 16)
    (holds : s.stdin.contents = text.map some ++ some c :: rest) :
    scanDigits fuel number s = .ok ((text.foldl (fun n d => n * 10 + digit d) number, some c),
      { s with stdin := ⟨none, rest⟩ }) := by
  induction text generalizing s fuel number with
  | nil =>
    obtain ⟨fuel, rfl⟩ := Nat.exists_eq_add_one.mpr room
    rw [scanDigits, ok_bind (getchar_read holds)]
    simp only [isdigit, Option.any_some, stop, Bool.false_eq_true, if_false]
    exact pure_ok.mpr ⟨rfl, rfl⟩
  | cons d text ih =>
    obtain ⟨fuel, rfl⟩ := Nat.exists_eq_add_one.mpr (Nat.zero_lt_of_lt room)
    have here : d.isDigit = true := digits d List.mem_cons_self
    rw [scanDigits, ok_bind (getchar_read holds)]
    simp only [isdigit, Option.any_some, here, if_true, List.foldl_cons]
    apply ih (fun d member => digits d (List.mem_cons_of_mem _ member))
    · simpa using room
    · rfl

/-- The letters up to the first other character, while there is room. -/
theorem scanLetters_read (letters : ∀ d ∈ text, Char.isAlpha d = true)
    (stop : Char.isAlpha c = false) (room : text.length < limit) (tok : List Char) (letter : Char)
    (holds : s.stdin.contents = text.map some ++ some c :: rest) :
    scanLetters limit tok letter s = .ok ((tok ++ (letter :: text).map Char.toLower, some c),
      { s with stdin := ⟨none, rest⟩ }) := by
  induction text generalizing s limit tok letter with
  | nil =>
    obtain ⟨limit, rfl⟩ := Nat.exists_eq_add_one.mpr room
    rw [scanLetters, ok_bind (getchar_read holds)]
    simp only [isalpha, Option.any_some, stop, Bool.false_eq_true, if_false]
    exact pure_ok.mpr ⟨rfl, rfl⟩
  | cons d text ih =>
    obtain ⟨limit, rfl⟩ := Nat.exists_eq_add_one.mpr (Nat.zero_lt_of_lt room)
    have here : d.isAlpha = true := letters d List.mem_cons_self
    rw [scanLetters, ok_bind (getchar_read holds)]
    simp only [isalpha, Option.any_some, here, if_true]
    have later : scanLetters limit (tok ++ [letter.toLower]) d
        { s with stdin := ⟨none, text.map some ++ some c :: rest⟩ } = .ok _ :=
      ih (fun d member => letters d (List.mem_cons_of_mem _ member)) (Nat.lt_of_succ_lt_succ room)
        (tok ++ [letter.toLower]) d rfl
    simpa using later

theorem digit_eq (here : Char.isDigit c = true) : digit c = BitVec.ofNat 16 (c.toNat - '0'.toNat) := by
  have low : 48 ≤ c.toNat := (Char.isDigit_iff_toNat.mp here).1
  apply BitVec.eq_of_toNat_eq
  simp only [digit, BitVec.toNat_sub, BitVec.toNat_ofNat, Char.reduceToNat]
  omega

/-- An `int` holds the number up to multiples of 2^16. -/
theorem wrapped_digits (digits : ∀ d ∈ text, Char.isDigit d = true) (n : Nat) :
    text.foldl (fun n d => n * 10 + digit d) (BitVec.ofNat 16 n) =
      BitVec.ofNat 16 (Nat.ofDigitChars 10 text n) := by
  induction text generalizing n with
  | nil => rfl
  | cons d text ih =>
    have here := digits d List.mem_cons_self
    simp only [List.foldl_cons, Nat.ofDigitChars_cons]
    rw [← ih fun d member => digits d (List.mem_cons_of_mem _ member), digit_eq here]
    rw [BitVec.ofNat_add, BitVec.ofNat_mul, BitVec.mul_comm]
    rfl

theorem nextNumber_read (digits : ∀ d ∈ first :: text, Char.isDigit d = true)
    (stop : Char.isDigit c = false) (holds : s.stdin.contents = text.map some ++ some c :: rest) :
    nextNumber first s = .ok (.number, { s with
      stdin := ⟨some c, rest⟩
      value := .i (BitVec.ofNat 16 (Nat.ofDigitChars 10 (first :: text) 0)) }) := by
  have here := digits first List.mem_cons_self
  have later : ∀ d ∈ text, Char.isDigit d = true :=
    fun d member => digits d (List.mem_cons_of_mem _ member)
  have room : text.length < Stdin.pending s.stdin + 1 := by
    have pending : Stdin.pending s.stdin = s.stdin.contents.length := CharStream.pending_eq _
    rw [pending, holds]
    simp only [List.length_append, List.length_map, List.length_cons]
    omega
  have read := scanDigits_read later stop room (digit first) holds
  rw [digit_eq here, wrapped_digits later] at read
  have start : 10 * 0 + (first.toNat - '0'.toNat) = first.toNat - '0'.toNat := by omega
  rw [nextNumber, ok_bind (get_ok.mpr ⟨rfl, rfl⟩), digit_eq here, ok_bind read,
    Nat.ofDigitChars_cons, start]
  rfl

theorem nextKeyword_read (letters : ∀ d ∈ first :: text, Char.isAlpha d = true)
    (stop : Char.isAlpha c = false) (short : text.length < maxTokLen)
    (holds : s.stdin.contents = text.map some ++ some c :: rest) :
    nextKeyword first s = .ok (keyword ((first :: text).map Char.toLower), { s with
      stdin := ⟨some c, rest⟩, value := .s ((first :: text).map Char.toLower) }) := by
  have later : ∀ d ∈ text, Char.isAlpha d = true :=
    fun d member => letters d (List.mem_cons_of_mem _ member)
  rw [nextKeyword, ok_bind (scanLetters_read later stop short [] first holds)]
  rfl

def Blanks (text : List Char) : Prop := ∀ c ∈ text, c = ' ' ∨ c = '\t'

theorem blanks_nil : Blanks [] := by simp [Blanks]

/-- Blanks are skipped, and it makes no difference where the next character stands. -/
theorem scanToken_blanks (blanks : Blanks gap) (room : gap.length < fuel)
    (holds : s.stdin.contents = gap.map some ++ some c :: rest) :
    ∃ fuel', scanToken fuel s = scanToken (fuel' + 1) { s with stdin := ⟨none, some c :: rest⟩ } := by
  induction gap generalizing s fuel with
  | nil =>
    obtain ⟨fuel, rfl⟩ := Nat.exists_eq_add_one.mpr room
    refine ⟨fuel, ?_⟩
    rw [scanToken, ok_bind (getchar_read holds), ok_bind (getchar_read rfl)]
  | cons d gap ih =>
    obtain ⟨fuel, rfl⟩ := Nat.exists_eq_add_one.mpr (Nat.zero_lt_of_lt room)
    obtain ⟨fuel', later⟩ := ih (s := { s with stdin := ⟨none, gap.map some ++ some c :: rest⟩ })
      (fun c member => blanks c (List.mem_cons_of_mem _ member)) (Nat.lt_of_succ_lt_succ room) rfl
    refine ⟨fuel', Eq.trans ?_ later⟩
    rw [scanToken, ok_bind (getchar_read holds)]
    rcases blanks d List.mem_cons_self with rfl | rfl
    · rfl
    · rfl

/-- The next token begins at the first character that is no blank. -/
theorem nextToken_blanks (blanks : Blanks gap) (unended : s.seenEnd = false)
    (holds : s.stdin.contents = gap.map some ++ some c :: rest) :
    ∃ fuel, nextToken s = scanToken (fuel + 1) { s with stdin := ⟨none, some c :: rest⟩ } := by
  have pending : Stdin.pending s.stdin = s.stdin.contents.length := CharStream.pending_eq _
  have room : gap.length < Stdin.pending s.stdin + 1 := by
    rw [pending, holds]
    simp only [List.length_append, List.length_map, List.length_cons]
    omega
  obtain ⟨fuel, skipped⟩ := scanToken_blanks blanks room holds
  refine ⟨fuel, Eq.trans ?_ skipped⟩
  rw [nextToken, ok_bind (get_ok.mpr ⟨rfl, rfl⟩), unended]
  rfl

theorem nextToken_newline (blanks : Blanks gap) (unended : s.seenEnd = false)
    (holds : s.stdin.contents = gap.map some ++ some '\n' :: rest) :
    nextToken s = .ok (.unknown, { s with stdin := ⟨none, rest⟩ }) := by
  obtain ⟨fuel, skipped⟩ := nextToken_blanks blanks unended holds
  rw [skipped, scanToken, ok_bind (getchar_read rfl)]
  rfl

/-- What can stand after a word or a number of a line. -/
def Delimits (c : Char) : Prop := c = ' ' ∨ c = '\t' ∨ c = '\n'

theorem Delimits.noDigit (delimits : Delimits c) : c.isDigit = false := by
  rcases delimits with rfl | rfl | rfl <;> rfl

theorem Delimits.noLetter (delimits : Delimits c) : c.isAlpha = false := by
  rcases delimits with rfl | rfl | rfl <;> rfl

/-- A word of the language or a number, and its token. -/
inductive Lexeme : List Char → Token → Prop where
  | word (letters : ∀ c ∈ first :: more, Char.isAlpha c = true) (short : more.length < maxTokLen)
      (known : keyword ((first :: more).map Char.toLower) ≠ .unknown) :
      Lexeme (first :: more)
        (keyword ((first :: more).map Char.toLower), .s ((first :: more).map Char.toLower))
  | number (digits : ∀ c ∈ first :: more, Char.isDigit c = true) :
      Lexeme (first :: more) (.number, .i (BitVec.ofNat 16 (Nat.ofDigitChars 10 (first :: more) 0)))

theorem Lexeme.known (lexeme : Lexeme text token) : token.1 ≠ .unknown := by
  cases lexeme with
  | word letters short known => exact known
  | number digits => simp

theorem isAlpha_of_isDigit (here : Char.isDigit c = true) : c.isAlpha = false := by
  simp only [Char.isDigit, ge_iff_le, UInt32.le_iff_toNat_le, Bool.and_eq_true, decide_eq_true_eq,
    Char.reduceVal, UInt32.reduceToNat, Char.toNat_val] at here
  have below : ∀ letter : Char, 57 < letter.toNat → ¬ letter.val ≤ c.val := by
    intro letter above le
    have order : letter.toNat ≤ c.toNat := UInt32.le_iff_toNat_le.mp le
    omega
  have upper : c.isUpper = false := decide_eq_false fun both => below 'A' (by decide) both.1
  have lower : c.isLower = false := by
    change (decide ('a'.val ≤ c.val) && decide (c.val ≤ 'z'.val)) = false
    rw [decide_eq_false (below 'a' (by decide)), Bool.false_and]
  change (c.isUpper || c.isLower) = false
  rw [upper, lower, Bool.or_false]

/-- A token is read up to the character after it, which is pushed back. -/
theorem nextToken_lexeme (blanks : Blanks gap) (lexeme : Lexeme text token) (delimits : Delimits c)
    (unended : s.seenEnd = false)
    (holds : s.stdin.contents = gap.map some ++ (text.map some ++ some c :: rest)) :
    nextToken s = .ok (token.1, { s with stdin := ⟨some c, rest⟩, value := token.2 }) := by
  cases lexeme with
  | @word first more letters short known =>
    rw [List.map_cons, List.cons_append] at holds
    obtain ⟨fuel, skipped⟩ := nextToken_blanks blanks unended holds
    have letter : first.isAlpha = true := letters first List.mem_cons_self
    have noDigit : first.isDigit = false := by
      by_contra digit
      rw [isAlpha_of_isDigit (Bool.not_eq_false _ ▸ digit)] at letter
      contradiction
    have noZero : first ≠ '0' := by
      rintro rfl
      contradiction
    rw [skipped, scanToken, ok_bind (getchar_read rfl)]
    simp only [noZero, noDigit, letter, if_true, if_false, Bool.false_eq_true]
    exact nextKeyword_read letters delimits.noLetter short rfl
  | @number first more digits =>
    rw [List.map_cons, List.cons_append] at holds
    obtain ⟨fuel, skipped⟩ := nextToken_blanks blanks unended holds
    have digit : first.isDigit = true := digits first List.mem_cons_self
    rw [skipped, scanToken, ok_bind (getchar_read rfl)]
    by_cases zero : first = '0'
    · subst zero
      have noHex : ∃ c2 rest', more.map some ++ some c :: rest = some c2 :: rest' ∧ c2 ≠ 'x' := by
        cases more with
        | nil => exact ⟨c, rest, rfl, by rintro rfl; exact absurd delimits.noLetter (by decide)⟩
        | cons d more =>
          refine ⟨d, _, rfl, ?_⟩
          rintro rfl
          exact absurd (digits 'x' (by simp)) (by decide)
      obtain ⟨c2, rest', next, noHex⟩ := noHex
      simp only [if_true]
      rw [next, ok_bind (getchar_read rfl)]
      simp only [Option.some.injEq, noHex, if_false]
      exact nextNumber_read digits delimits.noDigit next.symm
    · simp only [zero, digit, if_true, if_false]
      exact nextNumber_read digits delimits.noDigit rfl

/-- The rest of a line, and the tokens it spells. -/
inductive Line : List Char → List Token → Prop where
  | ends (blanks : Blanks gap) : Line (gap ++ ['\n']) []
  | token (blanks : Blanks gap) (lexeme : Lexeme spelling token) (delimits : Delimits next)
      (later : Line (next :: more) tokens) :
      Line (gap ++ (spelling ++ next :: more)) (token :: tokens)

/-- A line is read to its end, and nothing is left pushed back. -/
theorem Line.delivers (line : Line text tokens) (unended : s.seenEnd = false)
    (holds : s.stdin.contents = text.map some ++ rest) :
    ∃ value, Delivers s (tokens ++ [(.unknown, value)])
      { s with stdin := ⟨none, rest⟩, value := value } := by
  induction line generalizing s with
  | ends blanks =>
    rw [List.map_append, List.append_assoc] at holds
    have read : TokenSource.nextToken s = .ok (.unknown, { s with stdin := ⟨none, rest⟩ }) :=
      nextToken_newline blanks unended holds
    exact ⟨s.value, .last read⟩
  | token blanks lexeme delimits later ih =>
    simp only [List.map_append, List.append_assoc, List.map_cons, List.cons_append] at holds
    have read : TokenSource.nextToken s = .ok (_, { s with stdin := ⟨some _, _⟩, value := _ }) :=
      nextToken_lexeme blanks lexeme delimits unended holds
    obtain ⟨value, delivers⟩ := ih (s := { s with stdin := ⟨some _, _⟩, value := _ }) unended rfl
    exact ⟨value, .token read lexeme.known delivers⟩

end Scanner
end Freedcc
