import Freedcc.DeskLines

/-! A line that is broken off by an error of the receiver. `IO_getc` reports the end of
the input, and goes on reporting it as long as nobody reads the byte; the parser takes
that for the end of the line. -/
namespace Freedcc
open PartialProgram Freedcc.Parser

namespace Scanner
variable {s t : Scanner CharStream} {text gap : List Char} {e : Option Char}

/-! Words and numbers up to the end of the input. -/

theorem scanDigits_end (digits : ∀ d ∈ text, Char.isDigit d = true) (room : text.length < fuel)
    (number : BitVec 16) (holds : s.stdin.contents = text.map some ++ none :: rest) :
    scanDigits fuel number s = .ok ((text.foldl (fun n d => n * 10 + digit d) number, none),
      { s with stdin := ⟨none, rest⟩ }) := by
  induction text generalizing s fuel number with
  | nil =>
    obtain ⟨fuel, rfl⟩ := Nat.exists_eq_add_one.mpr room
    rw [scanDigits, ok_bind (getchar_read holds)]
    exact pure_ok.mpr ⟨rfl, rfl⟩
  | cons d text ih =>
    obtain ⟨fuel, rfl⟩ := Nat.exists_eq_add_one.mpr (Nat.zero_lt_of_lt room)
    have here : d.isDigit = true := digits d List.mem_cons_self
    rw [scanDigits, ok_bind (getchar_read holds)]
    simp only [isdigit, Option.any_some, here, if_true, List.foldl_cons]
    apply ih (fun d member => digits d (List.mem_cons_of_mem _ member))
    · simpa using room
    · rfl

theorem scanLetters_end (letters : ∀ d ∈ text, Char.isAlpha d = true) (room : text.length < limit)
    (tok : List Char) (letter : Char) (holds : s.stdin.contents = text.map some ++ none :: rest) :
    scanLetters limit tok letter s = .ok ((tok ++ (letter :: text).map Char.toLower, none),
      { s with stdin := ⟨none, rest⟩ }) := by
  induction text generalizing s limit tok letter with
  | nil =>
    obtain ⟨limit, rfl⟩ := Nat.exists_eq_add_one.mpr room
    rw [scanLetters, ok_bind (getchar_read holds)]
    exact pure_ok.mpr ⟨rfl, rfl⟩
  | cons d text ih =>
    obtain ⟨limit, rfl⟩ := Nat.exists_eq_add_one.mpr (Nat.zero_lt_of_lt room)
    have here : d.isAlpha = true := letters d List.mem_cons_self
    rw [scanLetters, ok_bind (getchar_read holds)]
    simp only [isalpha, Option.any_some, here, if_true]
    have later : scanLetters limit (tok ++ [letter.toLower]) d
        { s with stdin := ⟨none, text.map some ++ none :: rest⟩ } = .ok _ :=
      ih (fun d member => letters d (List.mem_cons_of_mem _ member)) (Nat.lt_of_succ_lt_succ room)
        (tok ++ [letter.toLower]) d rfl
    simpa using later

theorem nextNumber_end (digits : ∀ d ∈ first :: text, Char.isDigit d = true)
    (holds : s.stdin.contents = text.map some ++ none :: rest) :
    nextNumber first s = .ok (.number, { s with
      stdin := ⟨none, rest⟩
      value := .i (BitVec.ofNat 16 (Nat.ofDigitChars 10 (first :: text) 0))
      seenEnd := true }) := by
  have here := digits first List.mem_cons_self
  have later : ∀ d ∈ text, Char.isDigit d = true :=
    fun d member => digits d (List.mem_cons_of_mem _ member)
  have room : text.length < Stdin.pending s.stdin + 1 := by
    have pending : Stdin.pending s.stdin = s.stdin.contents.length := CharStream.pending_eq _
    rw [pending, holds]
    simp only [List.length_append, List.length_map, List.length_cons]
    omega
  have read := scanDigits_end later room (digit first) holds
  rw [digit_eq here, wrapped_digits later] at read
  have start : 10 * 0 + (first.toNat - '0'.toNat) = first.toNat - '0'.toNat := by omega
  rw [nextNumber, ok_bind (get_ok.mpr ⟨rfl, rfl⟩), digit_eq here, ok_bind read,
    Nat.ofDigitChars_cons, start]
  rfl

theorem nextKeyword_end (letters : ∀ d ∈ first :: text, Char.isAlpha d = true)
    (short : text.length < maxTokLen) (holds : s.stdin.contents = text.map some ++ none :: rest) :
    nextKeyword first s = .ok (keyword ((first :: text).map Char.toLower), { s with
      stdin := ⟨none, rest⟩, value := .s ((first :: text).map Char.toLower), seenEnd := true }) := by
  have later : ∀ d ∈ text, Char.isAlpha d = true :=
    fun d member => letters d (List.mem_cons_of_mem _ member)
  rw [nextKeyword, ok_bind (scanLetters_end later short [] first holds)]
  rfl

theorem scanToken_end (blanks : Blanks gap) (room : gap.length < fuel)
    (holds : s.stdin.contents = gap.map some ++ none :: rest) :
    scanToken fuel s = .ok (.unknown, { s with stdin := ⟨none, rest⟩ }) := by
  induction gap generalizing s fuel with
  | nil =>
    obtain ⟨fuel, rfl⟩ := Nat.exists_eq_add_one.mpr room
    rw [scanToken, ok_bind (getchar_read holds)]
    rfl
  | cons d gap ih =>
    obtain ⟨fuel, rfl⟩ := Nat.exists_eq_add_one.mpr (Nat.zero_lt_of_lt room)
    have later : scanToken fuel { s with stdin := ⟨none, gap.map some ++ none :: rest⟩ } = .ok _ :=
      ih (fun c member => blanks c (List.mem_cons_of_mem _ member)) (Nat.lt_of_succ_lt_succ room) rfl
    rw [scanToken, ok_bind (getchar_read holds)]
    rcases blanks d List.mem_cons_self with rfl | rfl
    · exact later
    · exact later

theorem nextToken_end (blanks : Blanks gap) (unended : s.seenEnd = false)
    (holds : s.stdin.contents = gap.map some ++ none :: rest) :
    nextToken s = .ok (.unknown, { s with stdin := ⟨none, rest⟩ }) := by
  have pending : Stdin.pending s.stdin = s.stdin.contents.length := CharStream.pending_eq _
  have room : gap.length < Stdin.pending s.stdin + 1 := by
    rw [pending, holds]
    simp only [List.length_append, List.length_map, List.length_cons]
    omega
  have goes : ¬ s.seenEnd = true := by simp [unended]
  rw [nextToken, ok_bind (get_ok.mpr ⟨rfl, rfl⟩), if_neg goes]
  exact scanToken_end blanks room holds

/-- The last token is read to the end of the input; a single zero looks behind it. -/
theorem nextToken_lexeme_end (blanks : Blanks gap) (lexeme : Lexeme text token)
    (unended : s.seenEnd = false)
    (holds : s.stdin.contents = gap.map some ++ (text.map some ++ none :: none :: rest)) :
    ∃ eofs, (eofs = rest ∨ eofs = none :: rest) ∧ nextToken s = .ok (token.1, { s with
      stdin := ⟨none, eofs⟩, value := token.2, seenEnd := true }) := by
  cases lexeme with
  | @word first more letters short known =>
    rw [List.map_cons, List.cons_append] at holds
    obtain ⟨fuel, skipped⟩ := nextToken_blanks blanks unended holds
    have letter : first.isAlpha = true := letters first List.mem_cons_self
    have noDigit : first.isDigit = false := by
      by_contra digit
      rw [isAlpha_of_isDigit (Bool.not_eq_false _ ▸ digit)] at letter
      contradiction
    have noZero : first ≠ '0' := by
      rintro rfl
      contradiction
    refine ⟨none :: rest, Or.inr rfl, ?_⟩
    rw [skipped, scanToken, ok_bind (getchar_read rfl)]
    simp only [noZero, noDigit, letter, if_true, if_false, Bool.false_eq_true]
    exact nextKeyword_end letters short rfl
  | @number first more digits =>
    rw [List.map_cons, List.cons_append] at holds
    obtain ⟨fuel, skipped⟩ := nextToken_blanks blanks unended holds
    have digit : first.isDigit = true := digits first List.mem_cons_self
    rw [skipped, scanToken, ok_bind (getchar_read rfl)]
    by_cases zero : first = '0'
    · subst zero
      cases more with
      | nil =>
        refine ⟨rest, Or.inl rfl, ?_⟩
        have read : nextNumber '0' { s with stdin := ⟨none, none :: rest⟩ } = .ok _ :=
          nextNumber_end digits rfl
        simp only [if_true, List.map_nil, List.nil_append]
        rw [ok_bind (getchar_read rfl)]
        exact read
      | cons d more =>
        have noHex : d ≠ 'x' := by
          rintro rfl
          exact absurd (digits 'x' (by simp)) (by decide)
        refine ⟨none :: rest, Or.inr rfl, ?_⟩
        simp only [if_true, List.map_cons, List.cons_append]
        rw [ok_bind (getchar_read rfl)]
        simp only [Option.some.injEq, noHex, if_false]
        exact nextNumber_end digits rfl
    · refine ⟨none :: rest, Or.inr rfl, ?_⟩
      simp only [zero, digit, if_true, if_false]
      exact nextNumber_end digits rfl

theorem nextToken_seenEnd (seen : s.seenEnd = true) : nextToken s = .ok (.unknown, s) := by
  rw [nextToken, ok_bind (get_ok.mpr ⟨rfl, rfl⟩), seen]
  rfl

/-- The end of the input, told as often as it is asked for. -/
def EndsAfter (stream : CharStream) (text : List Char) (count : Nat) : Prop :=
  stream.contents = text.map some ++ List.replicate count none

theorem EndsAfter.chars {stream : CharStream} (ends : EndsAfter stream text count) :
    stream.contents.filterMap id = text := by
  rw [ends, List.filterMap_append, List.filterMap_map]
  simp

theorem EndsAfter.same {stream : CharStream} (ends : EndsAfter stream text count)
    (ends' : EndsAfter stream other count') : text = other := by
  rw [← ends.chars, ends'.chars]

theorem Lexeme.filled (lexeme : Lexeme text token) : text ≠ [] := by
  cases lexeme <;> simp

theorem Line.newline (line : Line ['\n'] tokens) : tokens = [] := by
  generalize whole : ['\n'] = text at line
  cases line with
  | ends blanks => rfl
  | token blanks lexeme delimits later =>
    have filled := List.length_pos_of_ne_nil lexeme.filled
    have length := congrArg List.length whole
    simp only [List.length_append, List.length_cons, List.length_nil] at length
    omega

theorem Heads.newline (heads : Heads ['\n'] tokens rest) (after : rest = tail ++ ['\n']) :
    tokens = [] ∧ tail = [] := by
  generalize whole : ['\n'] = text at heads
  cases heads with
  | nil =>
    have same : [] ++ ['\n'] = tail ++ ['\n'] := whole.trans after
    exact ⟨rfl, (List.append_cancel_right same).symm⟩
  | token blanks lexeme delimits later =>
    have filled := List.length_pos_of_ne_nil lexeme.filled
    have length := congrArg List.length whole
    simp only [List.length_append, List.length_cons, List.length_nil] at length
    omega

theorem ended_eofs {eofs : List (Option Char)} (kind : eofs = List.replicate count none ∨
    eofs = none :: List.replicate count none) : ∃ count', EndsAfter ⟨none, eofs⟩ [] count' := by
  rcases kind with rfl | rfl
  · exact ⟨count, rfl⟩
  · exact ⟨count + 1, rfl⟩

/-- A line without its newline is read like the line. -/
theorem Line.delivers_end (line : Line text tokens) (split : text = body ++ ['\n'])
    (unended : s.seenEnd = false) (holds : EndsAfter s.stdin body (count + 2)) :
    ∃ value last count', Delivers s (tokens ++ [(.unknown, value)]) last ∧ EndsAfter last.stdin [] count' ∧
      last.flush = s.flush := by
  induction line generalizing s body with
  | ends blanks =>
    obtain rfl := List.append_cancel_right split
    have read : TokenSource.nextToken s = .ok (.unknown, _) := nextToken_end blanks unended holds
    exact ⟨_, _, count + 1, .last read, rfl, rfl⟩
  | @token gap spelling token next more tokens blanks lexeme delimits later ih =>
    rcases List.eq_nil_or_concat' more with rfl | ⟨more, c, rfl⟩
    · -- the newline is all that is missing
      rw [← List.append_assoc] at split
      obtain ⟨rfl, newline⟩ := List.append_inj' split rfl
      obtain rfl := (List.cons.inj newline).1
      obtain rfl := later.newline
      have holds : s.stdin.contents =
          gap.map some ++ (spelling.map some ++ none :: none :: List.replicate count none) := by
        rw [holds, List.map_append, List.append_assoc]
        rfl
      obtain ⟨eofs, kind, read⟩ := nextToken_lexeme_end blanks lexeme unended holds
      obtain ⟨count', ended⟩ := ended_eofs kind
      have read : TokenSource.nextToken s = .ok (token.1, _) := read
      exact ⟨_, _, count', .token read lexeme.known (.last (nextToken_seenEnd rfl)), ended, rfl⟩
    · rw [← List.cons_append, ← List.append_assoc, ← List.append_assoc] at split
      obtain ⟨rfl, newline⟩ := List.append_inj' split rfl
      obtain rfl := (List.cons.inj newline).1
      have holds : s.stdin.contents = gap.map some ++ (spelling.map some ++
          some next :: (more.map some ++ List.replicate (count + 2) none)) := by
        rw [holds]
        simp only [List.map_append, List.map_cons, List.append_assoc, List.cons_append]
      have read : TokenSource.nextToken s = .ok (token.1, _) :=
        nextToken_lexeme blanks lexeme delimits unended holds
      obtain ⟨value, last, count', delivers, ended, flush⟩ :=
        @ih { s with stdin := ⟨some next, _⟩, value := _ } (next :: more) rfl unended rfl
      exact ⟨value, last, count', .token read lexeme.known delivers, ended, flush⟩

/-- Likewise when only the first tokens are read. -/
theorem Heads.consumed_end (heads : Heads text tokens rest) (split : text = body ++ ['\n'])
    (after : rest = tail ++ ['\n']) (unended : s.seenEnd = false)
    (holds : EndsAfter s.stdin body (count + 2)) (consumes : Consumes s tokens t) :
    ∃ count', EndsAfter t.stdin tail count' := by
  induction heads generalizing s body with
  | nil =>
    cases consumes
    obtain rfl := List.append_cancel_right (split.symm.trans after)
    exact ⟨_, holds⟩
  | @token gap spelling token next more tokens rest blanks lexeme delimits later ih =>
    generalize same : token :: tokens = all at consumes
    cases consumes with
    | nil => contradiction
    | token given consumes =>
      obtain ⟨here, rfl⟩ := List.cons.inj same
      rcases List.eq_nil_or_concat' more with rfl | ⟨more, c, rfl⟩
      · rw [← List.append_assoc] at split
        obtain ⟨rfl, newline⟩ := List.append_inj' split rfl
        obtain rfl := (List.cons.inj newline).1
        obtain ⟨rfl, rfl⟩ := later.newline after
        have holds : s.stdin.contents =
            gap.map some ++ (spelling.map some ++ none :: none :: List.replicate count none) := by
          rw [holds, List.map_append, List.append_assoc]
          rfl
        obtain ⟨eofs, kind, read⟩ := nextToken_lexeme_end blanks lexeme unended holds
        have read : TokenSource.nextToken s = .ok (token.1, _) := read
        obtain ⟨-, rfl⟩ := Prod.mk.inj (Except.ok.inj (read.symm.trans given))
        cases consumes
        exact ended_eofs kind
      · rw [← List.cons_append, ← List.append_assoc, ← List.append_assoc] at split
        obtain ⟨rfl, newline⟩ := List.append_inj' split rfl
        obtain rfl := (List.cons.inj newline).1
        have holds : s.stdin.contents = gap.map some ++ (spelling.map some ++
            some next :: (more.map some ++ List.replicate (count + 2) none)) := by
          rw [holds]
          simp only [List.map_append, List.map_cons, List.append_assoc, List.cons_append]
        have read : TokenSource.nextToken s = .ok (token.1, _) :=
          nextToken_lexeme blanks lexeme delimits unended holds
        obtain ⟨-, rfl⟩ := Prod.mk.inj (Except.ok.inj (read.symm.trans given))
        exact @ih { s with stdin := ⟨some next, _⟩, value := _ } (next :: more) rfl after unended rfl
          consumes

end Scanner

namespace Console
open Scanner Grammar

variable {asked : Ask} {text space : List Char}

/-- What stays in the stream of a line that is broken off. -/
def Ask.remains (space : List Char) : Ask → List Char
  | .order _ => []
  | .query put => put.leaves space

/-- What is asked is understood without the newline. -/
theorem AskText.parsed_end (body : AskText asked text) (trail : Blanks space) (null : Bool)
    {p : Parser (Scanner CharStream)} (holds : EndsAfter p.scanner.stdin (text ++ space) (count + 2)) :
    ∃ next count', parserStart (some null) p = .ok (true, next) ∧ asked.Told next.result ∧
      EndsAfter next.scanner.stdin (asked.remains space) count' := by
  have split : [] ++ (text ++ (space ++ ['\n'])) = (text ++ space) ++ ['\n'] := by
    rw [List.nil_append, List.append_assoc]
  have fresh : EndsAfter (TokenSource.reset p.scanner).stdin (text ++ space) (count + 2) := holds
  cases body with
  | order command =>
    obtain ⟨tokens, line, derived⟩ := (CommandLine.line blanks_nil command trail).spells
    obtain ⟨value, last, count', delivers, ended, -⟩ := line.delivers_end split rfl fresh
    obtain ⟨next, ref, accepted, result, packet, rfl⟩ := command_parsed null derived delivers
    exact ⟨next, count', accepted, ⟨ref, result, packet⟩, ended⟩
  | @query put _ query =>
    obtain ⟨tokens, heads, asks⟩ := query.spelt blanks_nil (opens_newline trail)
    have line := heads.finish (.ends trail)
    rw [List.append_nil] at line
    obtain ⟨value, last, count', delivers, ended, -⟩ := line.delivers_end split rfl fresh
    obtain ⟨next, accepted, told, ⟨rfl, same⟩ | ⟨other, consumes⟩⟩ := asks.accepted null delivers
    · refine ⟨next, count', accepted, told, ?_⟩
      rw [same]
      exact ended
    · obtain ⟨count', ended⟩ := heads.consumed_end split rfl rfl fresh consumes
      refine ⟨next, count', accepted, told, ?_⟩
      cases put with
      | help => exact absurd rfl other
      | status | cacheClear | cacheShow => exact ended

end Console

def Rx.Bad (rx : Rx) : Prop := rx.frameError = true ∨ rx.overrun = true

namespace Io
variable {io : Io} {rx : Rx} {rest : List Rx}

theorem poll_bad (bad : rx.Bad) : poll (rx :: rest) io =
    .ok (false, { io with arrived := max io.arrived 1 }) := by
  rw [poll_cons]
  rcases bad with frame | overrun
  · rw [if_pos frame]
  · rw [if_pos overrun]
    split <;> rfl

/-- The ring takes what comes before the error. -/
theorem poll_broken (bad : rx.Bad) (typed : List Char) (single : ∀ c ∈ typed, translate c ≠ '\n')
    (fits : io.rxRing.count + typed.length ≤ ringSize)
    (holds : io.wire = typed.map (fun c => ⟨c, false, false⟩) ++ rx :: rest) :
    ∃ filled, poll io.wire io = .ok (false, filled) ∧ filled.unget = io.unget ∧
      filled.wire = rx :: rest ∧ filled.arrived = max (io.arrived - typed.length) 1 ∧
      filled.rxRing.contents = io.rxRing.contents ++ typed.map translate := by
  induction typed generalizing io with
  | nil =>
    rw [holds]
    exact ⟨_, poll_bad bad, rfl, holds, rfl, (List.append_nil _).symm⟩
  | cons c typed ih =>
    have inner : translate c ≠ '\n' := single c List.mem_cons_self
    simp only [List.length_cons] at fits
    have room : io.rxRing.count < 50 := by
      have size : ringSize = 50 := rfl
      omega
    have within : (io.store c (typed.map (fun c => ⟨c, false, false⟩) ++ rx :: rest)).rxRing.count +
        typed.length ≤ ringSize := by
      change io.rxRing.count + 1 + typed.length ≤ ringSize
      omega
    obtain ⟨filled, polled, unget, wire, arrived, contents⟩ :=
      ih (fun d member => single d (List.mem_cons_of_mem _ member)) within rfl
    refine ⟨filled, ?_, unget, wire, ?_, ?_⟩
    · rw [holds, List.map_cons, List.cons_append, poll_byte, if_neg inner]
      exact polled
    · rw [arrived, List.length_cons]
      simp only [store]
      omega
    · have pushed : (io.store c (typed.map (fun c => ⟨c, false, false⟩) ++ rx :: rest)).rxRing.contents =
          io.rxRing.contents ++ [translate c] := Ring.contents_push _ _ room
      rw [contents, pushed, List.append_assoc]
      rfl

/-- With nothing left, everything before the error is fetched, and the end of the input told. -/
theorem getchar_broken (empty : io.left = []) (bad : rx.Bad) (typed : List Char)
    (single : ∀ c ∈ typed, translate c ≠ '\n') (fits : typed.length ≤ ringSize)
    (holds : io.wire = typed.map (fun c => ⟨c, false, false⟩) ++ rx :: rest) :
    ∃ next, io.getchar = .ok (none, next) ∧ next.unget = none ∧ next.left = typed.map translate ∧
      next.wire = rx :: rest ∧ next.arrived = max (io.arrived - typed.length) 1 := by
  obtain ⟨taken, drained⟩ := List.append_eq_nil_iff.mp empty
  have unget : io.unget = none := Option.toList_eq_nil_iff.mp taken
  have count := (Ring.contents_eq_nil io.rxRing).mp drained
  have room : io.rxRing.count + typed.length ≤ ringSize := by
    rw [count, Nat.zero_add]
    exact fits
  obtain ⟨filled, polled, unget', wire, arrived, contents⟩ := poll_broken bad typed single room holds
  rw [drained, List.nil_append] at contents
  refine ⟨filled, ?_, unget'.trans unget, ?_, wire, arrived⟩
  · simp only [getchar_eq, unget, getc_eq, count, if_true, polled]
    rfl
  · rw [left, unget', unget, contents]
    rfl

end Io

namespace Terminal
open Scanner
variable {t : Terminal} {rx : Rx} {rest : List Rx}

theorem getchar_broken (empty : t.left = []) (bad : rx.Bad) (typed : List Char)
    (single : ∀ c ∈ typed, Io.translate c ≠ '\n') (fits : typed.length ≤ Io.ringSize)
    (holds : t.io.wire = typed.map (fun c => ⟨c, false, false⟩) ++ rx :: rest) :
    ∃ next, t.getchar = .ok (none, next) ∧ next.io.unget = none ∧
      next.left = typed.map Io.translate ∧ next.io.wire = rx :: rest ∧
      next.io.arrived = max (t.io.arrived - typed.length) 1 ∧
      next.printed = t.printed ++ crlf (typed.map Io.translate) := by
  obtain ⟨io, got, unget, left, wire, arrived⟩ := Io.getchar_broken empty bad typed single fits holds
  obtain ⟨next, same, rfl, taken, -, split, printed⟩ := getchar_lifts got
  refine ⟨next, same, unget, left, wire, arrived, ?_⟩
  rw [holds, wire] at split
  obtain rfl := List.append_cancel_right split
  rw [printed, echo, List.map_map]
  rfl

/-- At the error itself there is nothing to read. -/
theorem getchar_bad (empty : t.left = []) (bad : rx.Bad) (wire : t.io.wire = rx :: rest)
    (waiting : 0 < t.io.arrived) :
    ∃ next, t.getchar = .ok (none, next) ∧ next.io.unget = none ∧ next.left = [] ∧
      next.io.wire = rx :: rest ∧ next.io.arrived = t.io.arrived ∧ next.printed = t.printed := by
  obtain ⟨next, got, unget, left, wire', arrived, shown⟩ :=
    getchar_broken empty bad [] (by simp) (Nat.zero_le _) wire
  refine ⟨next, got, unget, left, wire', ?_, ?_⟩
  · rw [arrived]
    exact Nat.max_eq_left waiting
  · rw [shown]
    exact List.append_nil _

/-- A stream that will deliver what is left at a terminal that has come to an error. -/
def Breaks (wire : List Rx) (arrived : Nat) (printed : List Char) (stream : CharStream)
    (t : Terminal) : Prop :=
  ∃ count, EndsAfter stream t.left count ∧ t.io.wire = wire ∧ t.io.arrived = arrived ∧
    t.printed = printed

def Broke (wire : List Rx) (arrived : Nat) (printed : List Char) (stream : CharStream)
    (t : Terminal) : Prop :=
  Breaks wire arrived printed stream t ∧ stream.unget = none ∧ t.io.unget = none

theorem breaks_feeds (bad : rx.Bad) (waiting : 0 < arrived) (printed : List Char) :
    Feeds (Breaks (rx :: rest) arrived printed) (Broke (rx :: rest) arrived printed) := by
  constructor
  · exact fun _ _ broke => broke.1
  · rintro stream t c stream' ⟨count, ends, wire, here, shown⟩ read
    cases held : t.left with
    | cons first others =>
      rw [EndsAfter, held, List.map_cons, List.cons_append] at ends
      have first' : (Stdin.getchar stream : Except Fault _) =
          .ok (some first, ⟨none, others.map some ++ List.replicate count none⟩) :=
        CharStream.getchar_contents ends
      obtain ⟨rfl, rfl⟩ := Prod.mk.inj (Except.ok.inj (first'.symm.trans read))
      obtain ⟨io, got, unget, left, wire', arrived'⟩ := Io.getchar_left held
      obtain ⟨next, same, rfl, echoes⟩ := getchar_lifts got
      have left : next.left = others := left
      refine ⟨next, same, ⟨count, ?_, wire'.trans wire, arrived'.trans here,
        (echoes.same wire').trans shown⟩, rfl, unget⟩
      rw [left]
      rfl
    | nil =>
      cases count with
      | zero =>
        have blocked : (Stdin.getchar stream : Except Fault _) = .error .awaitingInput := by
          apply CharStream.getchar_nil
          rw [ends, held]
          rfl
        rw [blocked] at read
        contradiction
      | succ count =>
        rw [EndsAfter, held] at ends
        have first' : (Stdin.getchar stream : Except Fault _) =
            .ok (none, ⟨none, List.replicate count none⟩) := CharStream.getchar_contents ends
        obtain ⟨rfl, rfl⟩ := Prod.mk.inj (Except.ok.inj (first'.symm.trans read))
        obtain ⟨next, same, unget, left, wire', arrived', printed'⟩ :=
          getchar_bad held bad wire (here ▸ waiting)
        refine ⟨next, same, ⟨count, ?_, wire', arrived'.trans here, printed'.trans shown⟩,
          rfl, unget⟩
        rw [left]
        rfl
  · rintro c ⟨unget, input⟩ ⟨⟨unget', rxRing, wire', arrived'⟩, shown'⟩ ⟨⟨count, ends, same⟩,
      given, given'⟩
    simp only at given given'
    subst given given'
    exact ⟨count, congrArg (some c :: ·) ends, same⟩
  · rintro stream t ⟨count, ends, -⟩
    have falls : ∀ (s : CharStream) c s', Stdin.getchar s = .ok (some c, s') →
        (s'.contents.filterMap id).length < (s.contents.filterMap id).length := by
      intro s c s' read
      rw [CharStream.contents_getchar read]
      exact Nat.lt_succ_self _
    apply covers_of_falls falls
    rw [ends.chars]
    change t.left.length < t.io.pending + 1
    rw [left, Io.left, List.length_append, Ring.contents_length]
    exact Nat.lt_succ_of_le (Nat.le_add_right _ _)

end Terminal

namespace Console

/-- What has come of a line before the error, the byte itself, and what follows it. -/
structure BrokenLine where
  ask : Ask
  typed : List Char
  body : List Char
  trail : List Char
  asked : AskText ask body
  blanks : Scanner.Blanks trail
  content : typed.map Io.translate = body ++ trail
  single : ∀ c ∈ typed, Io.translate c ≠ '\n'
  fits : typed.length ≤ Io.ringSize
  bad : Rx
  broken : bad.Bad
  rest : List Rx

def BrokenLine.received (line : BrokenLine) : List Rx :=
  line.typed.map (fun c => ⟨c, false, false⟩) ++ line.bad :: line.rest

/-- What stays in the stream is blank. -/
theorem BrokenLine.remains_blank (line : BrokenLine) :
    ∀ c ∈ line.ask.remains line.trail, c = ' ' ∨ c = '\n' := by
  have noTab : ∀ c ∈ line.trail, c = ' ' := by
    intro c member
    have here : c ∈ line.typed.map Io.translate := by
      rw [line.content]
      exact List.mem_append_right _ member
    obtain ⟨d, -, rfl⟩ := List.mem_map.mp here
    apply (line.blanks _ member).resolve_right
    unfold Io.translate
    split
    · decide
    · decide
    · assumption
  intro c member
  cases asked : line.ask with
  | order request =>
    rw [asked] at member
    cases member
  | query put =>
    rw [asked] at member
    cases put with
    | help => cases member
    | status | cacheClear | cacheShow => exact Or.inl (noTab c member)

end Console

namespace Scanner
variable {δ : Type} [Stdin δ] {s : Scanner δ} {stdin : δ}

theorem nextToken_none (unended : s.seenEnd = false)
    (got : (Stdin.getchar s.stdin : Except Fault _) = .ok (none, stdin)) :
    nextToken s = .ok (.unknown, { s with stdin }) := by
  have goes : ¬ s.seenEnd = true := by simp [unended]
  rw [nextToken, ok_bind (get_ok.mpr ⟨rfl, rfl⟩), if_neg goes, scanToken, ok_bind (getchar_ok.mpr ⟨stdin, got, rfl⟩)]
  rfl

end Scanner

/-- A line whose first token is no word is a parse error. -/
theorem Parser.refused {σ : Type} [TokenSource σ] {p : Parser σ} {scanner : σ}
    (token : TokenSource.nextToken (TokenSource.reset p.scanner) = .ok (.unknown, scanner))
    (null : Bool) : ∃ next, parserStart (some null) p = .ok (false, next) ∧
      next.scanner = TokenSource.flush scanner := by
  have first : advance (prepare (some null) p) =
      .ok ((), { prepare (some null) p with scanner, curr := .unknown }) :=
    advance_ok.mpr ⟨.unknown, scanner, token, rfl⟩
  have command : parseCommand (some null) p =
      .ok (false, { prepare (some null) p with scanner, curr := .unknown }) :=
    (ok_bind rfl).trans ((ok_bind first).trans (parse_unknown rfl))
  obtain ⟨next, failed, flushed, -⟩ := Grammar.parseError_total null
    { prepare (some null) p with scanner, curr := .unknown }
  exact ⟨next, (ok_bind command).trans failed, flushed⟩

namespace Desk
open Console Terminal Reader

variable {desk : Desk} {wire : List Rx} {arrived : Nat} {left printed : List Char}

/-- What has come of the line is obeyed; the byte in error stays where it is. -/
theorem Faces.read_broken {line : BrokenLine} (faces : Faces line.received arrived [] printed desk)
    (waiting : 0 < arrived) (null : Bool) :
    ∃ result next, Desk.read null desk = .ok (.accepted result, next) ∧ line.ask.Told result ∧
      Faces (line.bad :: line.rest) (max (arrived - line.typed.length) 1)
        (line.ask.remains line.trail) (printed ++ crlf (line.body ++ line.trail)) next := by
  obtain ⟨stdin, got, unget, left, wire, arrived', shown⟩ :=
    getchar_broken faces.left line.broken line.typed line.single line.fits faces.wire
  have opened : opening desk = .ok (true, moved desk stdin) := opening_end got
  have breaks : Breaks (line.bad :: line.rest) (max (arrived - line.typed.length) 1)
      (printed ++ crlf (line.body ++ line.trail))
      ⟨none, (line.body ++ line.trail).map some ++ List.replicate 2 none⟩ stdin := by
    refine ⟨2, ?_, wire, ?_, ?_⟩
    · rw [left, line.content]
      rfl
    · rw [arrived', faces.arrived]
    · rw [shown, faces.printed, line.content]
  have fresh : Scanner.EndsAfter (Parser.fresh (Scanner.fresh (δ := CharStream) id
      ⟨none, (line.body ++ line.trail).map some ++ List.replicate 2 none⟩)).scanner.stdin
      (line.body ++ line.trail) 2 := rfl
  obtain ⟨alone, count, started, told, ends⟩ := line.asked.parsed_end line.blanks null fresh
  obtain ⟨next, answered, after⟩ := accepted_streams (q := moved desk stdin)
    (breaks_feeds line.broken (Nat.lt_of_lt_of_le Nat.one_pos (Nat.le_max_right _ _)) _)
    null rfl breaks started
  obtain ⟨count', ends', wire', arrived'', shown'⟩ := after.scanner.stdin
  refine ⟨next.result, next, ?_, ?_, ?_, wire', arrived'', shown', ?_⟩
  · rw [read_waiting (faces.arrived ▸ waiting)]
    exact answering_ok.mpr (.accepted opened answered)
  · rw [after.result]
    exact Ask.Told.renumber told _
  · exact ends'.same ends
  · exact after.scanner.flush.trans faces.flush

/-- At the error itself there is nothing to read, and what has arrived is thrown away. -/
theorem Faces.read_bad (faces : Faces (rx :: rest) arrived [] printed desk) (bad : rx.Bad)
    (waiting : 0 < arrived) (null : Bool) :
    ∃ next, Desk.read null desk = .ok (.rejected, next) ∧
      Faces ((rx :: rest).drop arrived) 0 [] printed next := by
  obtain ⟨stdin, got, -, left, wire, here, shown⟩ :=
    getchar_bad faces.left bad faces.wire (faces.arrived ▸ waiting)
  obtain ⟨last, again, -, left', wire', here', shown'⟩ :=
    getchar_bad left bad wire (by rw [here, faces.arrived]; exact waiting)
  have token : TokenSource.nextToken (TokenSource.reset (moved desk stdin).scanner) =
      .ok (.unknown, (moved desk last).scanner.reset) := Scanner.nextToken_none rfl again
  obtain ⟨next, refused, scanner⟩ := refused token null
  have flushed : next.scanner.stdin = last.flush := by
    rw [scanner]
    exact congrArg (· last) faces.flush
  refine ⟨next, ?_, ?_, ?_, ?_, ?_, ?_⟩
  · rw [read_waiting (faces.arrived ▸ waiting)]
    exact answering_ok.mpr (.rejected (opening_end got) refused)
  · have unget : last.io.unget.toList = [] := (List.append_eq_nil_iff.mp left').1
    rw [flushed]
    exact (List.append_nil _).trans unget
  · rw [flushed, ← wire', ← faces.arrived, ← here, ← here']
    rfl
  · rw [flushed]
    rfl
  · rw [flushed]
    exact shown'.trans (shown.trans faces.printed)
  · rw [scanner]
    exact faces.flush

/-- What is left is passed over, a character with every call. -/
theorem Faces.read_blanks (faces : Faces wire arrived left printed desk) (waiting : 0 < arrived)
    (blank : ∀ c ∈ left, c = ' ' ∨ c = '\n') (nulls : List Bool) (each : nulls.length = left.length) :
    ∃ next, nulls.mapM Desk.read desk = .ok (List.replicate nulls.length .blank, next) ∧
      Faces wire arrived [] printed next := by
  induction nulls generalizing left desk with
  | nil =>
    obtain rfl : left = [] := List.eq_nil_of_length_eq_zero each.symm
    exact ⟨desk, rfl, faces⟩
  | cons null nulls ih =>
    cases left with
    | nil => exact absurd each (Nat.succ_ne_zero _)
    | cons c more =>
      obtain ⟨next, read, after⟩ := faces.read_left waiting (blank c List.mem_cons_self) null
      obtain ⟨last, reads, done⟩ :=
        ih after (fun d member => blank d (List.mem_cons_of_mem _ member)) (Nat.succ.inj each)
      refine ⟨last, ?_, done⟩
      rw [List.mapM_cons, ok_bind read, ok_bind reads]
      rfl

/-- A line that is broken off is obeyed as far as it has come; what is left of it is
passed over, and the error is told once. Only what arrives later is still to be read. -/
theorem broken_line_obeyed (line : BrokenLine) (faces : Faces line.received arrived [] printed desk)
    (waiting : 0 < arrived) (null last : Bool) (nulls : List Bool)
    (each : nulls.length = (line.ask.remains line.trail).length) :
    ∃ result next, (null :: (nulls ++ [last])).mapM Desk.read desk =
        .ok (.accepted result :: (List.replicate nulls.length .blank ++ [.rejected]), next) ∧
      line.ask.Told result ∧
      Faces ((line.bad :: line.rest).drop (max (arrived - line.typed.length) 1)) 0 []
        (printed ++ crlf (line.body ++ line.trail)) next := by
  have still : 0 < max (arrived - line.typed.length) 1 :=
    Nat.lt_of_lt_of_le Nat.one_pos (Nat.le_max_right _ _)
  obtain ⟨result, called, read, told, held⟩ := faces.read_broken waiting null
  obtain ⟨passed, blanks, emptied⟩ := held.read_blanks still line.remains_blank nulls each
  obtain ⟨next, refused, done⟩ := emptied.read_bad line.broken still last
  refine ⟨result, next, ?_, told, done⟩
  rw [List.mapM_cons, ok_bind read, List.mapM_append]
  simp only [bind_assoc]
  rw [ok_bind blanks, List.mapM_cons, List.mapM_nil]
  simp only [bind_assoc]
  rw [ok_bind refused]
  rfl

section Cut
open Dcc Scanner

/-- What comes before the last digit of `fw ad 3 sp 12`. -/
theorem cut_asked : AskText (.order (.drive directionForward 3 1))
    ("fw".toList ++ (([' '] ++ ("ad".toList ++ ([' '] ++ "3".toList))) ++
      ([' '] ++ ("sp".toList ++ ([' '] ++ "1".toList))))) := by
  have addr : AddrText 3 ([' '] ++ ("ad".toList ++ ([' '] ++ "3".toList))) :=
    .clause gap_one ⟨"ad", by simp, by decide⟩ gap_one ⟨0, rfl⟩
  have speed : SpeedText 1 ([' '] ++ ("sp".toList ++ ([' '] ++ "1".toList))) :=
    .clause gap_one ⟨"sp", by simp, by decide⟩ gap_one ⟨0, rfl⟩
  exact .order (.forward ⟨"fw", by simp, by decide⟩ (.addrSpeed addr speed))

theorem cut_content : "fw ad 3 sp 1".toList.map Io.translate =
    ("fw".toList ++ (([' '] ++ ("ad".toList ++ ([' '] ++ "3".toList))) ++
      ([' '] ++ ("sp".toList ++ ([' '] ++ "1".toList))))) ++ [] := by decide

theorem cut_single : ∀ c ∈ "fw ad 3 sp 1".toList, Io.translate c ≠ '\n' := by
  have all : "fw ad 3 sp 1".toList.all (fun c => Io.translate c != '\n') = true := by decide
  exact fun c member => bne_iff_ne.mp (List.all_eq_true.mp all c member)

theorem cut_fits : "fw ad 3 sp 1".toList.length ≤ Io.ringSize := by decide

def cut : BrokenLine where
  ask := .order (.drive directionForward 3 1)
  typed := "fw ad 3 sp 1".toList
  body := _
  trail := []
  asked := cut_asked
  blanks := blanks_nil
  content := cut_content
  single := cut_single
  fits := cut_fits
  bad := ⟨'2', true, false⟩
  broken := Or.inl rfl
  rest := [⟨'\r', false, false⟩]

/-- The loco runs at the first speed step, and the newline is still to be read. -/
theorem broken_line_obeyed_cut : ∃ result next,
    ([false, false] : List Bool).mapM Desk.read (start (.replicate 50 ' ') cut.received).receive =
        .ok ([.accepted result, .rejected], next) ∧
      cut.ask.Told result ∧ next.scanner.stdin.io.wire = [⟨'\r', false, false⟩] := by
  have faces : Faces cut.received 1 [] [] (start (.replicate 50 ' ') cut.received).receive :=
    ⟨rfl, rfl, rfl, rfl, rfl⟩
  obtain ⟨result, next, reads, told, faces⟩ :=
    broken_line_obeyed cut faces Nat.one_pos false false [] rfl
  exact ⟨result, next, reads, told, faces.wire⟩

end Cut

end Desk
end Freedcc
