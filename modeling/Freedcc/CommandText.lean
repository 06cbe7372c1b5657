import Freedcc.GrammarCalls
import Freedcc.ScannerText

/-! Commands as they are typed: words in any case, numbers with leading zeros and
any blanks between them, and the packets that answer them. -/
namespace Freedcc.Console
open Dcc Scanner PartialProgram Grammar Freedcc.Parser

/-- One of the words, in any letter case. -/
def Spells (words : List String) (text : List Char) : Prop :=
  ∃ word ∈ words, text.map Char.toLower = word.toList

/-- In decimal, with any number of leading zeros. -/
def Numeral (n : Nat) (text : List Char) : Prop :=
  ∃ zeros, text = List.replicate zeros '0' ++ Nat.toDigits 10 n

def Gap (text : List Char) : Prop := text ≠ [] ∧ Blanks text

/-- `addr A` or `speed S`, with the blanks before it. -/
inductive ClauseText (words : List String) (n : Nat) : List Char → Prop where
  | clause (before : Gap gap) (spells : Spells words word) (between : Gap space)
      (numeral : Numeral n digits) : ClauseText words n (gap ++ (word ++ (space ++ digits)))

def AddrText : Nat → List Char → Prop := ClauseText ["addr", "ad"]

def SpeedText : Nat → List Char → Prop := ClauseText ["speed", "sp"]

inductive ClausesText (address step : Nat) : List Char → Prop where
  | addrSpeed (addr : AddrText address text) (speed : SpeedText step more) :
      ClausesText address step (text ++ more)
  | speedAddr (speed : SpeedText step text) (addr : AddrText address more) :
      ClausesText address step (text ++ more)

/-- What a command asks for. -/
inductive Request where
  | drive (direction : Int) (address step : Nat)
  | stopOne (address : Nat)
  | stopAll
  | stop

/-- A command before the blanks and the newline that end its line. -/
inductive CommandText : Request → List Char → Prop where
  | forward (spells : Spells ["forward", "fw"] word) (clauses : ClausesText address step text) :
      CommandText (.drive directionForward address step) (word ++ text)
  | reverse (spells : Spells ["reverse", "rv"] word) (clauses : ClausesText address step text) :
      CommandText (.drive directionReverse address step) (word ++ text)
  | stopOne (spells : Spells ["stop"] word) (addr : AddrText address text) :
      CommandText (.stopOne address) (word ++ text)
  | stopAll (spells : Spells ["stop"] word) (between : Gap gap) (all : Spells ["all"] last) :
      CommandText .stopAll (word ++ (gap ++ last))
  | stop (spells : Spells ["stop"] word) : CommandText .stop word

inductive CommandLine (request : Request) : List Char → Prop where
  | line (lead : Blanks gap) (command : CommandText request text) (trail : Blanks space) :
      CommandLine request (gap ++ (text ++ (space ++ ['\n'])))

/-- Short addresses, and steps of the speed table. -/
def Request.Bounded : Request → Prop
  | .drive _ address step => address ≤ 127 ∧ step ≤ 28
  | .stopOne address => address ≤ 127
  | .stopAll => True
  | .stop => True

def Request.Answered (packet : Packet) : Request → Prop
  | .drive direction address step => getAddress packet = BitVec.ofNat 8 address ∧
      getSpeedStep packet = step ∧ getDirection packet = direction
  | .stopOne address => getAddress packet = BitVec.ofNat 8 address ∧ getSpeedStep packet = 0
  | .stopAll => packet = specialEmergencyStopPacket baselinePacketCreate
  | .stop => packet = specialBroadcastStopPacket baselinePacketCreate

def Request.frame : Request → Fields
  | .drive direction address step => Dcc.frame (addressOf (BitVec.ofNat 16 address))
      (direction ≠ 0) (speedOf (BitVec.ofNat 16 step))
  | .stopOne address => Dcc.frame (addressOf (BitVec.ofNat 16 address)) false (speedCode 0)
  | .stopAll => Dcc.frame 0 true 0x11
  | .stop => Dcc.frame 0 true 0x10

/-! The tokens of a line. -/

section Tokens

/-- Beginning with what ends the token before. -/
def Opens (text : List Char) : Prop := ∃ c more, text = c :: more ∧ Delimits c

theorem Gap.opens (gap : Gap text) (rest : List Char) : Opens (text ++ rest) := by
  obtain ⟨c, more, rfl⟩ := List.exists_cons_of_ne_nil gap.1
  refine ⟨c, more ++ rest, rfl, ?_⟩
  rcases gap.2 c List.mem_cons_self with same | same
  · exact Or.inl same
  · exact Or.inr (Or.inl same)

theorem opens_newline (blanks : Blanks space) : Opens (space ++ ['\n']) := by
  cases space with
  | nil => exact ⟨'\n', [], rfl, Or.inr (Or.inr rfl)⟩
  | cons c more => exact Gap.opens ⟨List.cons_ne_nil _ _, blanks⟩ _

/-- A text that spells these tokens wherever it stands on a line. -/
def Reads (text : List Char) (tokens : List Token) : Prop :=
  ∀ gap rest later, Blanks gap → Opens rest → Line rest later →
    Line (gap ++ (text ++ rest)) (tokens ++ later)

theorem Lexeme.reads (lexeme : Lexeme text token) : Reads text [token] := by
  rintro gap rest later blanks ⟨c, more, rfl, delimits⟩ line
  exact .token blanks lexeme delimits line

theorem Reads.after (reads : Reads text tokens) (blanks : Blanks before) :
    Reads (before ++ text) tokens := by
  intro gap rest later first opens line
  have both : Blanks (gap ++ before) := by
    intro c member
    exact (List.mem_append.mp member).elim (first c) (blanks c)
  simpa only [List.append_assoc] using reads (gap ++ before) rest later both opens line

theorem Reads.append (reads : Reads text tokens) (opens : ∀ rest, Opens (more ++ rest))
    (again : Reads more others) : Reads (text ++ more) (tokens ++ others) := by
  intro gap rest later blanks last line
  have next := again [] rest later (fun c none => absurd none List.not_mem_nil) last line
  simpa only [List.append_assoc] using reads gap (more ++ rest) (others ++ later) blanks
    (opens rest) next

theorem isAlpha_of_toLower {c : Char} (lower : c.toLower.isAlpha = true) : c.isAlpha = true := by
  by_cases upper : c.val ≥ 'A'.val ∧ c.val ≤ 'Z'.val
  · have big : c.isUpper = true := decide_eq_true upper
    change (c.isUpper || c.isLower) = true
    rw [big, Bool.true_or]
  · have same : c.toLower = c := dif_neg upper
    rwa [same] at lower

/-- A word of the language, however it is written. -/
theorem Spells.lexeme (tok : Tok) {words : List String}
    (language : ∀ word ∈ words, keyword word.toList = tok ∧ word.toList.all Char.isAlpha = true ∧
      0 < word.toList.length ∧ word.toList.length ≤ maxTokLen)
    (known : tok ≠ .unknown) (spells : Spells words text) : ∃ value, Lexeme text (tok, value) := by
  obtain ⟨word, member, same⟩ := spells
  obtain ⟨rfl, letters, some, short⟩ := language word member
  rw [← same, List.length_map] at some short
  obtain ⟨first, more, rfl⟩ := List.exists_cons_of_length_pos some
  refine ⟨.s word.toList, ?_⟩
  rw [← same] at known letters ⊢
  refine .word ?_ short known
  intro c member
  exact isAlpha_of_toLower (List.all_eq_true.mp letters c.toLower (List.mem_map_of_mem member))

theorem Spells.reads (tok : Tok) {words : List String}
    (language : ∀ word ∈ words, keyword word.toList = tok ∧ word.toList.all Char.isAlpha = true ∧
      0 < word.toList.length ∧ word.toList.length ≤ maxTokLen)
    (known : tok ≠ .unknown) (spells : Spells words text) : ∃ value, Reads text [(tok, value)] := by
  obtain ⟨value, lexeme⟩ := spells.lexeme tok language known
  exact ⟨value, Lexeme.reads lexeme⟩

theorem Numeral.reads (numeral : Numeral n text) :
    Reads text [(.number, .i (BitVec.ofNat 16 n))] := by
  obtain ⟨zeros, rfl⟩ := numeral
  have value : Nat.ofDigitChars 10 (List.replicate zeros '0' ++ Nat.toDigits 10 n) 0 = n := by
    simp [Nat.ofDigitChars_append]
  have digits : ∀ c ∈ List.replicate zeros '0' ++ Nat.toDigits 10 n, c.isDigit = true := by
    intro c member
    rcases List.mem_append.mp member with zero | digit
    · rw [List.eq_of_mem_replicate zero]
      rfl
    · exact Nat.isDigit_of_mem_toDigits (by decide) (by decide) digit
  have nonempty : List.replicate zeros '0' ++ Nat.toDigits 10 n ≠ [] :=
    List.append_ne_nil_of_right_ne_nil _ Nat.toDigits_ne_nil
  obtain ⟨first, more, same⟩ := List.exists_cons_of_ne_nil nonempty
  rw [same] at value digits ⊢
  rw [← value]
  exact Lexeme.reads (.number digits)

theorem ClauseText.opens (clause : ClauseText words n text) (rest : List Char) :
    Opens (text ++ rest) := by
  cases clause with
  | clause before =>
    rw [List.append_assoc]
    exact before.opens _

theorem ClauseText.reads (tok : Tok) {words : List String}
    (language : ∀ word ∈ words, keyword word.toList = tok ∧ word.toList.all Char.isAlpha = true ∧
      0 < word.toList.length ∧ word.toList.length ≤ maxTokLen)
    (known : tok ≠ .unknown) (clause : ClauseText words n text) :
    ∃ value, Reads text [(tok, value), (.number, .i (BitVec.ofNat 16 n))] := by
  cases clause with
  | @clause gap word space digits before spells between numeral =>
    obtain ⟨value, named⟩ := spells.reads tok language known
    have number := numeral.reads.after between.2
    exact ⟨value, (named.append (fun rest => by rw [List.append_assoc]; exact between.opens _)
      number).after before.2⟩

theorem ClausesText.reads (clauses : ClausesText address step text) :
    (∀ rest, Opens (text ++ rest)) ∧ ∃ tokens, Reads text tokens ∧
      Clauses tokens (addressOf (BitVec.ofNat 16 address)) (speedOf (BitVec.ofNat 16 step)) := by
  cases clauses with
  | addrSpeed addr speed =>
    obtain ⟨u, first⟩ := addr.reads .addr (by decide) (by simp)
    obtain ⟨v, second⟩ := speed.reads .speed (by decide) (by simp)
    refine ⟨fun rest => by rw [List.append_assoc]; exact addr.opens _, _,
      first.append speed.opens second, .addrSpeed⟩
  | speedAddr speed addr =>
    obtain ⟨u, first⟩ := addr.reads .addr (by decide) (by simp)
    obtain ⟨v, second⟩ := speed.reads .speed (by decide) (by simp)
    refine ⟨fun rest => by rw [List.append_assoc]; exact speed.opens _, _,
      second.append addr.opens first, .speedAddr⟩

theorem CommandText.reads (command : CommandText request text) :
    ∃ tokens, Reads text tokens ∧ Command tokens (.dcc request.frame) := by
  cases command with
  | forward spells clauses =>
    obtain ⟨u, word⟩ := spells.reads .forward (by decide) (by simp)
    obtain ⟨opens, tokens, reads, derived⟩ := clauses.reads
    exact ⟨_, word.append opens reads, .forward derived⟩
  | reverse spells clauses =>
    obtain ⟨u, word⟩ := spells.reads .reverse (by decide) (by simp)
    obtain ⟨opens, tokens, reads, derived⟩ := clauses.reads
    exact ⟨_, word.append opens reads, .reverse derived⟩
  | stopOne spells addr =>
    obtain ⟨u, word⟩ := spells.reads .stop (by decide) (by simp)
    obtain ⟨v, clause⟩ := addr.reads .addr (by decide) (by simp)
    exact ⟨_, word.append addr.opens clause, .stopAddr⟩
  | stopAll spells between all =>
    obtain ⟨u, word⟩ := spells.reads .stop (by decide) (by simp)
    obtain ⟨v, last⟩ := all.reads .all (by decide) (by simp)
    refine ⟨_, word.append (fun rest => ?_) (last.after between.2), .stopAll⟩
    rw [List.append_assoc]
    exact between.opens _
  | stop spells =>
    obtain ⟨u, word⟩ := spells.reads .stop (by decide) (by simp)
    exact ⟨_, word, .stop⟩

theorem CommandLine.spells (line : CommandLine request text) :
    ∃ tokens, Line text tokens ∧ Command tokens (.dcc request.frame) := by
  cases line with
  | line lead command trail =>
    obtain ⟨tokens, reads, derived⟩ := command.reads
    have spelled := reads _ _ [] lead (opens_newline trail) (.ends trail)
    rw [List.append_nil] at spelled
    exact ⟨tokens, spelled, derived⟩

theorem CommandLine.directed (line : CommandLine (.drive direction address step) text) :
    direction = directionForward ∨ direction = directionReverse := by
  cases line with
  | line lead command trail =>
    cases command with
    | forward => exact Or.inl rfl
    | reverse => exact Or.inr rfl

end Tokens

/-! The parser on the tokens of a command for a packet. -/

section Parsing

theorem command_accepts {f : Fields} (command : Command ((word, u) :: tokens) (.dcc f))
    (ended : Ended ((word, u) :: tokens ++ [(.unknown, v)])) (p : Parser Replay) (r : Result) :
    ∃ p' id g, g.finish = f ∧
      alternative word (standing p r ((word, u) :: tokens ++ [(.unknown, v)])) =
        .ok (true, standing p' (draft id g) [(.unknown, v)]) := by
  cases command with
  | forward clauses =>
    obtain ⟨id, g, finished, p', runs⟩ :=
      drive_takes p r .forward (by simp) directionForward clauses ended
    exact ⟨p', id, g, finished, runs⟩
  | reverse clauses =>
    obtain ⟨id, g, finished, p', runs⟩ :=
      drive_takes p r .reverse (by simp) directionReverse clauses ended
    exact ⟨p', id, g, finished, runs⟩
  | stopAddr =>
    obtain ⟨g, finished, runs⟩ := stopAddr_runs p r .whole ended
    exact ⟨_, _, g, finished, runs⟩
  | stopAll =>
    exact ⟨_, _, _, finish_frame _ _ _, stopAll_runs p r (.absent (by simp)) ended⟩
  | stop =>
    exact ⟨_, _, _, finish_frame _ _ _,
      stopEverybody_runs p r (.absent (by simp)) (by simp) ended⟩

/-- Every alternative has a place, and the ones before it are for other words. -/
theorem place_of_command {f : Fields} (command : Command ((word, u) :: tokens) (.dcc f)) :
    ∃ earlier later, alternatives = earlier ++ word :: later ∧ word ∉ earlier ∧ word ≠ .raw := by
  cases command with
  | forward => exact ⟨[.raw, .help, .show, .cache], [.reverse, .stop], rfl, by decide, by decide⟩
  | reverse => exact ⟨[.raw, .help, .show, .cache, .forward], [.stop], rfl, by decide, by decide⟩
  | stopAddr | stopAll | stop =>
    exact ⟨[.raw, .help, .show, .cache, .forward, .reverse], [], rfl, by decide, by decide⟩

/-- A command for a packet is accepted, and its line read to the end. -/
theorem command_parsed {σ : Type} [TokenSource σ] {f : Fields} {p : Parser σ} {last : σ}
    (null : Bool) (command : Command tokens (.dcc f))
    (delivers : Delivers (TokenSource.reset p.scanner) (tokens ++ [(.unknown, v)]) last) :
    ∃ next ref, parserStart (some null) p = .ok (true, next) ∧
      next.result = some ⟨.dcc, .packet ref⟩ ∧ ref.packet = f.packet ∧ next.scanner = last := by
  obtain ⟨word, u, rest, rfl⟩ : ∃ word u rest, tokens = (word, u) :: rest := by
    cases command <;> exact ⟨_, _, _, rfl⟩
  obtain ⟨earlier, later, split, absent, unraw⟩ := place_of_command command
  obtain ⟨parsed, r, vs, called, result, left, ⟨id, g, rfl, finished⟩, rfl⟩ := accepts_at null
    (Q := fun r vs => (∃ id g, r = draft id g ∧ g.finish = f) ∧ vs = [(.unknown, v)])
    delivers split (strays_other absent _ _) fun q r _ => by
      obtain ⟨p', id, g, finished, runs⟩ := command_accepts command delivers.ended q r
      exact ⟨p', draft id g, _, runs, List.cons_ne_nil _ _, ⟨id, g, rfl, finished⟩, rfl⟩
  have drafted : (Meaning.dcc f).Drafted (draft id g) := ⟨id, g, rfl, finished⟩
  obtain ⟨next, done, ⟨ref, told, packet⟩, scanner⟩ := finish_drafted drafted result
  exact ⟨next, ref, called.trans done, told, packet, scanner.trans (left_last left)⟩

end Parsing

section Answers

theorem addressByte_number (bounded : address ≤ 127) :
    (addressOf (BitVec.ofNat 16 address)).setWidth 8 = BitVec.ofNat 8 address := by
  apply BitVec.eq_of_toNat_eq
  simp only [addressOf, BitVec.toNat_setWidth, BitVec.toNat_ofNat]
  omega

theorem stepOf_number (bounded : step ≤ 28) :
    stepOf (speedOf (BitVec.ofNat 16 step)) = step := by
  rw [speedOf, stepOf_speedCode, BitVec.toNat_setWidth, BitVec.toNat_ofNat]
  simp only [maxSpeedSteps]
  omega

theorem Request.answered {request : Request} (bounded : request.Bounded)
    (named : ∀ direction address step, request = .drive direction address step →
      direction = directionForward ∨ direction = directionReverse) :
    request.Answered request.frame.packet := by
  cases request with
  | drive direction address step =>
    refine ⟨?_, ?_, ?_⟩
    · rw [Request.frame, getAddress_packet]
      exact addressByte_number bounded.1
    · rw [Request.frame, getSpeedStep_packet]
      exact stepOf_number bounded.2
    · rw [Request.frame, getDirection_packet]
      rcases named _ _ _ rfl with rfl | rfl <;> rfl
  | stopOne address =>
    constructor
    · rw [Request.frame, getAddress_packet]
      exact addressByte_number bounded
    · rw [Request.frame, getSpeedStep_packet]
      exact stepOf_speedCode 0
  | stopAll => exact (specialEmergencyStopPacket_packet .fresh).symm
  | stop => exact (specialBroadcastStopPacket_packet .fresh).symm

end Answers

/-- The parser starts reading where the stream stands. -/
theorem contents_reset {p : Parser (Scanner CharStream)} (fresh : p.scanner.stdin = ⟨none, input⟩) :
    (TokenSource.reset p.scanner).stdin.contents = input := by
  have kept : (TokenSource.reset p.scanner).stdin = p.scanner.stdin := rfl
  rw [kept, fresh]
  rfl

theorem command_line_parsed {request : Request} (line : CommandLine request text) (null : Bool)
    {p : Parser (Scanner CharStream)} (fresh : p.scanner.stdin = ⟨none, text.map some ++ rest⟩) :
    ∃ next ref, parserStart (some null) p = .ok (true, next) ∧
      next.result = some ⟨.dcc, .packet ref⟩ ∧ ref.packet = request.frame.packet ∧
      next.scanner.stdin = ⟨none, rest⟩ := by
  obtain ⟨tokens, spelled, command⟩ := line.spells
  obtain ⟨value, delivers⟩ := spelled.delivers rfl (contents_reset fresh)
  obtain ⟨next, ref, accepted, result, packet, scanner⟩ := command_parsed null command delivers
  exact ⟨next, ref, accepted, result, packet, by rw [scanner]⟩

/-- A command line is answered by the packet it asks for; its newline has been
read, and nothing is left pushed back. -/
theorem command_line_answered (request : Request) (bounded : request.Bounded) (text : List Char)
    (line : CommandLine request text) (rest : List (Option Char)) (null : Bool)
    (p : Parser (Scanner CharStream)) (fresh : p.scanner.stdin = ⟨none, text.map some ++ rest⟩) :
    ∃ next ref, parserStart (some null) p = .ok (true, next) ∧
      next.result = some ⟨.dcc, .packet ref⟩ ∧ request.Answered ref.packet ∧
      next.scanner.stdin = ⟨none, rest⟩ := by
  obtain ⟨next, ref, accepted, result, packet, stdin⟩ := command_line_parsed line null fresh
  refine ⟨next, ref, accepted, result, ?_, stdin⟩
  rw [packet]
  apply request.answered bounded
  rintro direction address step rfl
  exact line.directed

theorem command_line_answered_stop : ∃ next ref,
    parserStart (some false) (typed " STOP\tad 003\n") = .ok (true, next) ∧
      next.result = some ⟨.dcc, .packet ref⟩ ∧ getAddress ref.packet = 3 ∧
      next.scanner.stdin = ⟨none, []⟩ := by
  have one : Blanks [' '] := by simp [Blanks]
  have tab : Blanks ['\t'] := by simp [Blanks]
  have addr : AddrText 3 (['\t'] ++ ("ad".toList ++ ([' '] ++ "003".toList))) :=
    .clause ⟨by simp, tab⟩ ⟨"ad", by simp, by decide⟩ ⟨by simp, one⟩ ⟨2, by decide⟩
  have stop : Spells ["stop"] "STOP".toList := ⟨"stop", by simp, by decide⟩
  have line := CommandLine.line one (.stopOne stop addr) blanks_nil
  obtain ⟨next, ref, accepted, result, ⟨address, -⟩, stdin⟩ :=
    command_line_answered (.stopOne 3) (by decide : 3 ≤ 127) _ line [] false
      (typed " STOP\tad 003\n") (by decide)
  exact ⟨next, ref, accepted, result, address, stdin⟩

end Freedcc.Console
