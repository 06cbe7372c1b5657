import Freedcc.Erasure
import Freedcc.IoProofs
import Freedcc.LineIsolation
import Freedcc.SystemCommands

/-! A line at the desk: an order for the track or a query to the system, typed in any
way there is, read by one call and given back as it is read. -/
namespace Freedcc

namespace Terminal
open Io

def left (t : Terminal) : List Char := t.io.left

variable {t : Terminal}

/-- The device goes on as it does without the echo. -/
theorem getchar_lifts {io : Io} (got : t.io.getchar = .ok (c, io)) :
    ∃ next, t.getchar = .ok (c, next) ∧ next.io = io ∧ Echoes t next := by
  have same := getchar_io t
  rw [got] at same
  cases read : t.getchar with
  | error fault =>
    rw [read] at same
    contradiction
  | ok pair =>
    rw [read] at same
    obtain ⟨rfl, rfl⟩ := Prod.mk.inj (Except.ok.inj same)
    exact ⟨pair.2, rfl, rfl, getchar_echoes read⟩

/-- Nothing is given back when nothing is taken. -/
theorem Echoes.same {next : Terminal} (echoes : Echoes t next) (wire : next.io.wire = t.io.wire) :
    next.printed = t.printed := by
  obtain ⟨taken, -, split, printed⟩ := echoes
  rw [wire] at split
  obtain rfl : taken = [] := List.append_left_eq_self.mp split.symm
  rw [printed]
  exact List.append_nil _

/-- A stream that will deliver what is left at a terminal. -/
def Mirrors (wire : List Rx) (arrived : Nat) (printed : List Char) (stream : CharStream)
    (t : Terminal) : Prop :=
  Io.Mirrors wire arrived stream t.io ∧ t.printed = printed

def Mirrored (wire : List Rx) (arrived : Nat) (printed : List Char) (stream : CharStream)
    (t : Terminal) : Prop :=
  Io.Mirrored wire arrived stream t.io ∧ t.printed = printed

theorem feeds (wire : List Rx) (arrived : Nat) (printed : List Char) :
    Scanner.Feeds (Mirrors wire arrived printed) (Mirrored wire arrived printed) := by
  have device := Io.feeds wire arrived
  constructor
  · exact fun s t fed => ⟨device.related s t.io fed.1, fed.2⟩
  · rintro s t c s' ⟨mirrors, shown⟩ read
    obtain ⟨io, got, fed⟩ := device.getchar s t.io c s' mirrors read
    obtain ⟨next, same, rfl, echoes⟩ := getchar_lifts got
    have quiet : next.io.wire = t.io.wire := fed.1.2.1.trans mirrors.2.1.symm
    exact ⟨next, same, fed, (echoes.same quiet).trans shown⟩
  · exact fun c s t fed => ⟨device.ungetc c s t.io fed.1, fed.2⟩
  · exact fun s t mirrors => device.covers s t.io mirrors.1

/-- The next line is fetched and given back. -/
theorem getchar_line (empty : t.left = []) (line : TypedLine)
    (holds : t.io.wire = line.received ++ rest) :
    ∃ c more next, line.content = c :: more ∧ t.getchar = .ok (some c, next) ∧
      next.io.unget = none ∧ next.left = more ∧ next.io.wire = rest ∧
      next.io.arrived = t.io.arrived - line.content.length ∧
      next.printed = t.printed ++ crlf line.content := by
  obtain ⟨c, more, io, content, got, unget, left, wire, arrived⟩ :=
    Io.getchar_line empty line holds
  obtain ⟨next, same, rfl, taken, -, split, printed⟩ := getchar_lifts got
  refine ⟨c, more, next, content, same, unget, left, wire, arrived, ?_⟩
  rw [holds, wire] at split
  obtain rfl := List.append_cancel_right split
  rw [printed, echo, SentLine.received, List.map_map]
  rfl

end Terminal

namespace Console
open Dcc PartialProgram Scanner Grammar Freedcc.Parser

inductive Ask where
  | order (request : Request)
  | query (query : Query)

inductive AskText : Ask → List Char → Prop where
  | order {request : Request} {text : List Char} (command : CommandText request text) :
      AskText (.order request) text
  | query {put : Query} {text : List Char} (body : QueryText put text) :
      AskText (.query put) text

/-- A line on which something is asked; no blanks stand before it. -/
structure AskLine where
  ask : Ask
  line : TypedLine
  body : List Char
  trail : List Char
  asked : AskText ask body
  blanks : Blanks trail
  content : line.content = body ++ (trail ++ ['\n'])

def Ask.Told (result : Option Result) : Ask → Prop
  | .order request => ∃ ref, result = some ⟨.dcc, .packet ref⟩ ∧ ref.packet = request.frame.packet
  | .query put => result = some ⟨.sys, .cmd put.cmd⟩

/-- The numbers of the packets are of no account. -/
theorem Ask.Told.renumber {ask : Ask} {r : Option Result} (told : ask.Told r) (k : Nat) :
    ask.Told (r.map (·.renumber k)) := by
  cases ask with
  | order request =>
    obtain ⟨ref, rfl, packet⟩ := told
    exact ⟨_, rfl, packet⟩
  | query put =>
    subst told
    rfl

def AskLine.leaves (entry : AskLine) : List Char :=
  match entry.ask with
  | .order _ => []
  | .query put => put.leaves (entry.trail ++ ['\n'])

theorem Lexeme.solid {token : Token} (lexeme : Lexeme text token) (rest : List Char) :
    ∃ c more, text ++ rest = c :: more ∧ ¬ (c = ' ' ∨ c = '\n') := by
  cases lexeme with
  | @word first more letters short known =>
    refine ⟨first, more ++ rest, rfl, ?_⟩
    rintro (rfl | rfl)
    · exact absurd (letters ' ' List.mem_cons_self) (by decide)
    · exact absurd (letters '\n' List.mem_cons_self) (by decide)
  | @number first more digits =>
    refine ⟨first, more ++ rest, rfl, ?_⟩
    rintro (rfl | rfl)
    · exact absurd (digits ' ' List.mem_cons_self) (by decide)
    · exact absurd (digits '\n' List.mem_cons_self) (by decide)

/-- Every command begins with a word. -/
theorem AskText.solid (asked : AskText ask text) (rest : List Char) :
    ∃ c more, text ++ rest = c :: more ∧ ¬ (c = ' ' ∨ c = '\n') := by
  have begins {words : List String} {word : List Char} (tok : Tok) (spells : Spells words word)
      (language : ∀ word ∈ words, keyword word.toList = tok ∧ word.toList.all Char.isAlpha = true ∧
        0 < word.toList.length ∧ word.toList.length ≤ maxTokLen) (known : tok ≠ .unknown)
      (later : List Char) : ∃ c more, (word ++ later) ++ rest = c :: more ∧ ¬ (c = ' ' ∨ c = '\n') := by
    obtain ⟨value, lexeme⟩ := spells.lexeme tok language known
    rw [List.append_assoc]
    exact Lexeme.solid lexeme _
  cases asked with
  | order command =>
    cases command with
    | forward spells => exact begins .forward spells (by decide) (by simp) _
    | reverse spells => exact begins .reverse spells (by decide) (by simp) _
    | stopOne spells => exact begins .stop spells (by decide) (by simp) _
    | stopAll spells => exact begins .stop spells (by decide) (by simp) _
    | stop spells =>
      rw [← List.append_nil text]
      exact begins .stop spells (by decide) (by simp) _
  | query body =>
    cases body with
    | help spells =>
      rw [← List.append_nil text]
      exact begins .help spells (by decide) (by simp) _
    | status first => exact begins .show first (by decide) (by simp) _
    | cacheClear first => exact begins .cache first (by decide) (by simp) _
    | cacheShow first => exact begins .cache first (by decide) (by simp) _

/-- What is left of a line is blank. -/
theorem AskLine.leaves_blank (entry : AskLine) : ∀ c ∈ entry.leaves, c = ' ' ∨ c = '\n' := by
  obtain ⟨ask, line, body, trail, asked, blanks, content⟩ := entry
  have noTab : ∀ c ∈ line.content, c ≠ '\t' := by
    intro c member
    obtain ⟨d, -, rfl⟩ := List.mem_map.mp member
    unfold Io.translate
    split
    · decide
    · decide
    · assumption
  have rest : ∀ c ∈ trail ++ ['\n'], c = ' ' ∨ c = '\n' := by
    intro c member
    rcases List.mem_append.mp member with blank | last
    · have here : c ∈ line.content := by
        rw [content]
        exact List.mem_append_right _ member
      exact Or.inl ((blanks c blank).resolve_right (noTab c here))
    · exact Or.inr (List.mem_singleton.mp last)
  cases ask with
  | order request => simp [AskLine.leaves]
  | query put =>
    cases put with
    | help => simp [AskLine.leaves, Query.leaves]
    | status | cacheClear | cacheShow => exact rest

theorem gap_one : Gap [' '] := ⟨by simp, by simp [Blanks]⟩

/-- The line alone. -/
theorem AskLine.alone (entry : AskLine) (null : Bool) :
    ∃ next, parserStart (some null) (Station.alone entry.line) = .ok (true, next) ∧
      entry.ask.Told next.result ∧ next.scanner.stdin.contents = entry.leaves.map some := by
  obtain ⟨ask, line, body, trail, asked, blanks, content⟩ := entry
  cases asked with
  | order command =>
    have whole : CommandLine _ ([] ++ (body ++ (trail ++ ['\n']))) := .line blanks_nil command blanks
    have fresh : (Station.alone line).scanner.stdin =
        ⟨none, ([] ++ (body ++ (trail ++ ['\n']))).map some ++ []⟩ := by
      rw [List.nil_append, ← content, List.append_nil]
      rfl
    obtain ⟨next, ref, accepted, result, packet, stdin⟩ := command_line_parsed whole null fresh
    refine ⟨next, accepted, ⟨ref, result, packet⟩, ?_⟩
    rw [stdin]
    rfl
  | query asked =>
    have fresh : (Station.alone line).scanner.stdin.contents =
        ([] ++ (body ++ (trail ++ ['\n']))).map some ++ [] := by
      rw [List.nil_append, ← content, List.append_nil]
      rfl
    obtain ⟨tokens, spelt, asks⟩ := asked.spelt blanks_nil (opens_newline blanks)
    obtain ⟨next, accepted, told, contents⟩ := asks.parsed spelt blanks null fresh
    exact ⟨next, accepted, told, contents.trans (List.append_nil _)⟩

end Console

namespace Desk
open PartialProgram Console Freedcc.Parser Terminal Reader

/-- What is on the wire and how much of it has arrived, what is left of the line before,
and what has been printed. -/
structure Faces (wire : List Rx) (arrived : Nat) (left printed : List Char) (desk : Desk) : Prop where
  left : desk.scanner.stdin.left = left
  wire : desk.scanner.stdin.io.wire = wire
  arrived : desk.scanner.stdin.io.arrived = arrived
  printed : desk.scanner.stdin.printed = printed
  flush : desk.scanner.flush = Terminal.flush

variable {wire : List Rx} {arrived : Nat} {left printed : List Char} {desk : Desk}

theorem Faces.print (faces : Faces wire arrived left printed desk) (text : List Char) :
    Faces wire arrived left (printed ++ crlf text) (desk.print text) :=
  ⟨faces.left, faces.wire, faces.arrived, congrArg (· ++ crlf text) faces.printed, faces.flush⟩

theorem Faces.receive (faces : Faces wire arrived left printed desk) :
    Faces wire (min (arrived + 1) wire.length) left printed desk.receive := by
  refine ⟨faces.left, faces.wire, ?_, faces.printed, faces.flush⟩
  rw [← faces.arrived, ← faces.wire]
  rfl

theorem Faces.read_nothing (faces : Faces wire 0 left printed desk) (null : Bool) :
    Desk.read null desk = .ok (.nothing, desk) := by
  have idle : ¬ 0 < desk.scanner.stdin.io.arrived := by
    rw [faces.arrived]
    exact Nat.lt_irrefl 0
  exact read_idle idle null

/-- With a byte waiting, what is left of the line before is passed over first. -/
theorem Faces.read_left (faces : Faces wire arrived (c :: more) printed desk)
    (waiting : 0 < arrived) (blank : c = ' ' ∨ c = '\n') (null : Bool) :
    ∃ next, Desk.read null desk = .ok (.blank, next) ∧ Faces wire arrived more printed next := by
  obtain ⟨io, got, -, left, wire, arrived'⟩ := Io.getchar_left faces.left
  obtain ⟨stdin, same, rfl, echoes⟩ := getchar_lifts got
  have read : (Stdin.getchar desk.scanner.stdin : Except Fault _) = .ok (some c, stdin) := same
  refine ⟨moved desk stdin, ?_, ⟨left, wire.trans faces.wire, arrived'.trans faces.arrived,
    (echoes.same wire).trans faces.printed, faces.flush⟩⟩
  rw [read_waiting (faces.arrived ▸ waiting)]
  exact answering_ok.mpr (.blank (opening_blank read blank))

/-- The lines still to come, how much of them has arrived, and what is left of the
line before. -/
abbrev Awaits (script : List AskLine) : Nat → List Char → List Char → Desk → Prop :=
  Faces (script.flatMap (·.line.received))

variable {script : List AskLine}

/-- What is accepted from one stream is accepted from any that hands over the same characters. -/
theorem accepted_streams {δ ε : Type} [Stdin δ] [Stdin ε] {R F : δ → ε → Prop}
    (feeds : Scanner.Feeds R F) (null : Bool) {p p' : Parser (Scanner δ)} {q : Parser (Scanner ε)}
    (start : p.created = 0) (stdin : R p.scanner.stdin q.scanner.stdin)
    (started : parserStart (some null) p = .ok (true, p')) :
    ∃ q', parserStart (some null) q = .ok (true, q') ∧
      Alongside (Same R q.scanner.flush) q.created p' q' := by
  obtain ⟨accepted, parsed, command, finished⟩ := bind_ok started
  cases accepted with
  | true =>
    obtain ⟨parsed', command', along⟩ := command_streams feeds null start stdin command
    obtain ⟨q', finished', after⟩ := finishPacket_simulates parsed parsed' true p' along finished
    exact ⟨q', (ok_bind command').trans finished', after⟩
  | false =>
    obtain ⟨last, failed, -⟩ := Grammar.parseError_total null parsed
    obtain ⟨wrong, -⟩ := Prod.mk.inj (Except.ok.inj (failed.symm.trans finished))
    contradiction

/-- With nothing left and a byte waiting, the next line is read to its end. -/
theorem Awaits.read_line (awaits : Awaits (entry :: script) arrived [] printed desk)
    (waiting : 0 < arrived) (null : Bool) :
    ∃ result next, Desk.read null desk = .ok (.accepted result, next) ∧ entry.ask.Told result ∧
      Awaits script (arrived - entry.line.content.length) entry.leaves
        (printed ++ crlf entry.line.content) next := by
  have holds := awaits.wire
  rw [List.flatMap_cons] at holds
  obtain ⟨c, more, stdin, content, got, unget, left, wire, arrived', shown⟩ :=
    getchar_line awaits.left entry.line holds
  have solid : ¬ (c = ' ' ∨ c = '\n') := by
    obtain ⟨d, others, split, other⟩ := entry.asked.solid (entry.trail ++ ['\n'])
    rw [← entry.content, content] at split
    rw [(List.cons.inj split).1]
    exact other
  have read : (Stdin.getchar desk.scanner.stdin : Except Fault _) = .ok (some c, stdin) := got
  have opened : opening desk = .ok (true, moved desk (stdin.ungetc c)) := opening_solid read solid
  have filled : (stdin.ungetc c).io = { stdin.io with unget := some c } := by
    simp only [Terminal.ungetc, Io.ungetc, unget]
  have mirrors : Mirrors (script.flatMap (·.line.received)) (arrived - entry.line.content.length)
      (printed ++ crlf entry.line.content) (Station.alone entry.line).scanner.stdin
      (stdin.ungetc c) := by
    have begun : stdin.io.rxRing.contents = more := by
      rw [← left, Terminal.left, Io.left, unget]
      rfl
    refine ⟨⟨?_, ?_, ?_⟩, ?_⟩
    · rw [filled, Io.left, Option.toList_some, begun, List.singleton_append, ← content]
      rfl
    · rw [filled]
      exact wire
    · rw [filled, ← awaits.arrived]
      exact arrived'
    · rw [← awaits.printed]
      exact shown
  obtain ⟨alone, started, told, leaves⟩ := entry.alone null
  obtain ⟨next, answered, after⟩ := accepted_streams (q := moved desk (stdin.ungetc c))
    (Terminal.feeds _ _ _) null rfl mirrors started
  obtain ⟨⟨rest, wire', arrived''⟩, shown'⟩ := after.scanner.stdin
  refine ⟨next.result, next, ?_, ?_, ?_, wire', arrived'', shown', ?_⟩
  · rw [read_waiting (awaits.arrived ▸ waiting)]
    exact answering_ok.mpr (.accepted opened answered)
  · rw [after.result]
    exact Ask.Told.renumber told _
  · apply List.map_injective_iff.mpr (Option.some_injective _)
    exact rest.symm.trans leaves
  · exact after.scanner.flush.trans awaits.flush

inductive Reads (null : Bool) (script : List AskLine) (arrived : Nat) (left printed : List Char)
    (desk : Desk) : Prop where
  | nothing (idle : arrived = 0) (read : Desk.read null desk = .ok (.nothing, desk))
  | blank (waiting : 0 < arrived) (held : left = c :: more)
      (read : Desk.read null desk = .ok (.blank, next)) (after : Awaits script arrived more printed next)
  | line {entry : AskLine} {rest : List AskLine} {result : Option Result} {next : Desk}
      (waiting : 0 < arrived) (held : left = []) (lines : script = entry :: rest)
      (read : Desk.read null desk = .ok (.accepted result, next)) (told : entry.ask.Told result)
      (after : Awaits rest (arrived - entry.line.content.length) entry.leaves
        (printed ++ crlf entry.line.content) next)

theorem Awaits.reads (awaits : Awaits script arrived left printed desk)
    (within : arrived ≤ (script.flatMap (·.line.received)).length)
    (blank : ∀ c ∈ left, c = ' ' ∨ c = '\n') (null : Bool) : Reads null script arrived left printed desk := by
  by_cases waiting : 0 < arrived
  · cases left with
    | cons c more =>
      obtain ⟨next, read, after⟩ := Faces.read_left awaits waiting (blank c List.mem_cons_self) null
      exact .blank waiting rfl read after
    | nil =>
      cases script with
      | nil => exact absurd (Nat.lt_of_lt_of_le waiting within) (Nat.lt_irrefl 0)
      | cons entry rest =>
        obtain ⟨result, next, read, told, after⟩ := awaits.read_line waiting null
        exact .line waiting rfl rfl read told after
  · obtain rfl : arrived = 0 := Nat.eq_zero_of_not_pos waiting
    exact .nothing rfl (Faces.read_nothing awaits null)

end Desk
end Freedcc
