import Freedcc.GrammarCalls
import Freedcc.RawPackets
import Freedcc.ScannerProgress
import Freedcc.StreamReplay
import Freedcc.SyntaxCheck

/-! One parse reads at most one line and ends: it runs to its verdict on a stream
and a scanner that keep watch over what it asks of them. -/
namespace Freedcc

/-- A stream that notes whether a second character in a row has been pushed back. -/
structure Metered where
  stream : CharStream
  refused : Bool

namespace Metered

def getchar (metered : Metered) : Except Fault (Option Char × Metered) := do
  let (c, known) ← metered.stream.getchar
  return (c, { metered with stream := known })

def ungetc (c : Char) (metered : Metered) : Metered where
  stream := metered.stream.ungetc c
  refused := metered.refused || metered.stream.unget.isSome

instance : Stdin Metered where
  getchar := getchar
  ungetc := ungetc
  pending metered := metered.stream.pending

theorem getchar_ok {metered : Metered} (read : metered.stream.getchar = .ok (c, known)) :
    metered.getchar = .ok (c, { metered with stream := known }) := by
  rw [getchar, read]
  rfl

theorem views : Scanner.Views Metered.stream (·.refused = false) where
  getchar metered c known clean read := ⟨{ metered with stream := known }, getchar_ok read, rfl, clean⟩
  ungetc c metered clean free := by
    refine ⟨rfl, ?_⟩
    simp [Stdin.ungetc, ungetc, clean, free]
  pending _ := rfl

end Metered

/-- A source that gives no token after it has given `unknown`, and notes the
length of the longest text that it has put in the token buffer. -/
structure Watched (σ : Type) where
  source : σ
  ended : Bool
  longest : Nat

instance [TokenSource σ] : TokenSource (Watched σ) where
  reset watched := { watched with source := TokenSource.reset watched.source, ended := false }
  nextToken watched := do
    if watched.ended then throw .awaitingInput
    else
      let (tok, source) ← TokenSource.nextToken watched.source
      return (tok, {
        source
        ended := tok = .unknown
        longest := max watched.longest (TokenSource.value source).text.length })
  value watched := TokenSource.value watched.source
  flush watched := { watched with source := TokenSource.flush watched.source }

namespace Watched
open PartialProgram
variable {σ : Type} [TokenSource σ]

theorem nextToken_ok {s t : Watched σ} : TokenSource.nextToken s = .ok (tok, t) ↔
    s.ended = false ∧ ∃ source, TokenSource.nextToken s.source = .ok (tok, source) ∧
      t = ⟨source, tok = .unknown, max s.longest (TokenSource.value source).text.length⟩ := by
  have unfolded : TokenSource.nextToken s = (if s.ended then throw .awaitingInput
    else do
      let (tok, source) ← TokenSource.nextToken s.source
      return (tok, ⟨source, tok = .unknown,
        max s.longest (TokenSource.value source).text.length⟩)) := rfl
  rw [unfolded]
  cases s.ended with
  | true => simp [throw, throwThe, MonadExceptOf.throw]
  | false =>
    cases read : TokenSource.nextToken s.source with
    | error fault => simp [bind, Except.bind]
    | ok pair =>
      obtain ⟨first, source⟩ := pair
      simp only [bind, Except.bind, pure, Except.pure, Bool.false_eq_true, if_false, true_and,
        Except.ok.injEq, Prod.mk.injEq]
      constructor
      · rintro ⟨rfl, rfl⟩
        exact ⟨source, ⟨rfl, rfl⟩, rfl⟩
      · rintro ⟨_, ⟨rfl, rfl⟩, rfl⟩
        exact ⟨rfl, rfl⟩

/-- Watching changes nothing, as long as no token is asked for after the last. -/
theorem delivers {s u : σ} (delivers : Delivers s tokens u) (n : Nat) :
    ∃ last, Delivers (⟨s, false, n⟩ : Watched σ) tokens last := by
  induction delivers generalizing n with
  | last read => exact ⟨_, .last (nextToken_ok.mpr ⟨rfl, _, read, rfl⟩)⟩
  | @token s tok t tokens u read known later ih =>
    have watched : TokenSource.nextToken (⟨s, false, n⟩ : Watched σ) =
        .ok (tok, ⟨t, false, max n (TokenSource.value t).text.length⟩) :=
      nextToken_ok.mpr ⟨rfl, t, read, by simp [known]⟩
    obtain ⟨last, delivers⟩ := ih (max n (TokenSource.value t).text.length)
    exact ⟨last, .token watched known delivers⟩

end Watched

namespace Parser
open PartialProgram Scanner

/-- A watched scanner is in order: nothing after the newline has been read, and no
text was too long for the buffer. -/
structure InOrder (rest : List (Option Char)) (fits : Prop)
    (watched : Watched (Scanner Metered)) : Prop where
  past : Past Metered.stream (·.refused = false) rest watched.source.stdin
  ahead : watched.ended = false →
    ∃ n, Ahead Metered.stream (·.refused = false) rest n watched.source.stdin
  held : Held fits watched.source
  longest : fits → watched.longest ≤ maxTokLen

theorem nextToken_inOrder {rest : List (Option Char)} {fits : Prop} {s t : Watched (Scanner Metered)}
    (order : InOrder rest fits s) (read : TokenSource.nextToken s = .ok (tok, t)) :
    InOrder rest fits t := by
  obtain ⟨unended, source, given, rfl⟩ := Watched.nextToken_ok.mp read
  obtain ⟨n, ahead⟩ := order.ahead unended
  obtain ⟨tok', source', same, passed, later⟩ := Metered.views.lookahead.nextToken s.source ahead
  cases same.symm.trans given
  have held : Held fits source :=
    fun within => (nextToken_spelt _ _ _ order.held given).1 (Or.inl within)
  refine ⟨passed.past, fun more => ?_, held, fun within => ?_⟩
  · obtain ⟨m, -, ahead⟩ := later (by simpa using more)
    exact ⟨m, ahead⟩
  · exact Nat.max_le.mpr ⟨order.longest within, held within⟩

def watch (p : Parser (Scanner CharStream)) : Parser (Watched (Scanner Metered)) :=
  { p with scanner := {
      source := {
        flush := fun metered => { metered with stream := p.scanner.flush metered.stream }
        stdin := ⟨p.scanner.stdin, false⟩
        value := p.scanner.value
        seenEnd := p.scanner.seenEnd }
      ended := false
      longest := 0 } }

/-- At the same point, and in order. -/
def Overseen (rest : List (Option Char)) (fits : Prop) (flush : CharStream → CharStream)
    (watched : Watched (Scanner Metered)) (scanner : Scanner CharStream) : Prop :=
  Beside (fun metered stream => metered.stream = stream) Eq flush watched.source scanner ∧
    InOrder rest fits watched

theorem feeds_metered : Feeds (fun (metered : Metered) stream => metered.stream = stream)
    (fun metered stream => metered.stream = stream) where
  related _ _ same := same
  getchar := by
    rintro metered _ c metered' rfl read
    cases known : metered.stream.getchar with
    | error fault => simp [Stdin.getchar, Metered.getchar, known, bind, Except.bind] at read
    | ok pair =>
      obtain ⟨d, stream⟩ := pair
      cases (Metered.getchar_ok known).symm.trans read
      exact ⟨stream, known, rfl⟩
  ungetc := by
    rintro c metered _ rfl
    rfl
  covers := by
    rintro metered _ rfl
    exact covers_of_le (Nat.le_refl _) _

theorem overseen_follows (rest : List (Option Char)) (fits : Prop)
    (flush : CharStream → CharStream) : Follows (Overseen rest fits flush) := by
  constructor
  · rintro s scanner tok t ⟨beside, order⟩ read
    obtain ⟨-, source, given, rfl⟩ := Watched.nextToken_ok.mp read
    obtain ⟨scanner', same, beside', -⟩ := nextToken_simulates feeds_metered (fun _ => rfl) _ _ _ _
      beside given
    exact ⟨scanner', same, beside', nextToken_inOrder order read⟩
  · rintro s scanner ⟨beside, -⟩
    exact beside.value

section Line
variable (null : Bool) (p : Parser (Scanner CharStream)) (line rest : List (Option Char))
  (first : some '\n' ∉ line) (holds : p.scanner.stdin.contents = line ++ some '\n' :: rest)
include first holds

/-- The parse alone, before the result is finished off or trashed. -/
theorem command_reads_line :
    ∃ accepted parsed watched r, parseCommand (some null) p = .ok (accepted, parsed) ∧
      parsed.result = some r ∧ rest <:+ parsed.scanner.stdin.input ∧
      parseCommand (some null) (watch p) = .ok (accepted, watched) ∧
      watched.scanner.source.stdin = ⟨parsed.scanner.stdin, false⟩ ∧
      (p.scanner.value.text.length ≤ maxTokLen → watched.scanner.longest ≤ maxTokLen) := by
  have ahead : Ahead Metered.stream (·.refused = false) rest p.scanner.stdin.pending
      (TokenSource.reset (watch p).scanner).source.stdin :=
    ⟨rfl, Nat.le_refl _, line, holds, first⟩
  have order : InOrder rest (p.scanner.value.text.length ≤ maxTokLen)
      (TokenSource.reset (watch p).scanner) :=
    ⟨ahead.past, fun _ => ⟨_, ahead⟩, fun within => within, fun _ => Nat.zero_le _⟩
  obtain ⟨tokens, last, delivers⟩ := Metered.views.lookahead.delivers ahead
  obtain ⟨ended, delivers⟩ := Watched.delivers delivers 0
  obtain ⟨accepted, watched, r, command, made⟩ := Grammar.command_total (p := watch p) delivers null
  have started : Alongside (Overseen rest (p.scanner.value.text.length ≤ maxTokLen) p.scanner.flush) 0
      (prepare (some null) (watch p)) (prepare (some null) p) :=
    ⟨⟨⟨rfl, rfl, rfl, rfl⟩, order⟩, rfl, rfl, rfl⟩
  obtain ⟨parsed, command', along⟩ := parseTokens_simulates (overseen_follows _ _ _) _ _ accepted
    watched started command
  obtain ⟨⟨same, -⟩, ⟨⟨clean, unread⟩, -, -, longest⟩⟩ := along.scanner
  refine ⟨accepted, parsed, watched, r.renumber 0, command', ?_, same ▸ unread, command, ?_, longest⟩
  · rw [along.result, made]
    rfl
  · rw [← same, ← clean]

/-- So it is with no result asked for, whether the call returns or follows the null pointer. -/
theorem check_reads_line :
    ∃ accepted parsed watched, parseCommand none p = .ok (accepted, parsed) ∧
      ((∃ next, parserStart none p = .ok (accepted, next)) ∨
        parserStart none p = .error .nullDereference) ∧
      rest <:+ parsed.scanner.stdin.input ∧
      parseCommand none (watch p) = .ok (accepted, watched) ∧
      watched.scanner.source.stdin = ⟨parsed.scanner.stdin, false⟩ ∧
      (p.scanner.value.text.length ≤ maxTokLen → watched.scanner.longest ≤ maxTokLen) := by
  obtain ⟨accepted, full, overseen, r, command, -, unread, watching, clean, longest⟩ :=
    command_reads_line false p line rest first holds
  have judged := judged_of_command command
  obtain ⟨parsed, check, same⟩ := parseCommand_reads command none
  obtain ⟨watched, check', same'⟩ := parseCommand_reads watching none
  refine ⟨accepted, parsed, watched, check, ?_, same ▸ unread, check', same' ▸ same ▸ clean,
    same' ▸ longest⟩
  by_cases matched : p.result.isSome = accepted
  · obtain ⟨next, returned, -⟩ := check_returns judged p.result matched
    exact Or.inl ⟨next, returned⟩
  · exact Or.inr (check_faults judged p.result (Bool.eq_not_of_ne matched))

end Line

/-- Before a newline, a parse comes to its verdict. It has asked for no token
after the last one, has read nothing after the newline, has never had two
characters pushed back and has not written past the end of the token buffer. -/
theorem parse_reads_line (null : Bool) (p : Parser (Scanner CharStream))
    (line rest : List (Option Char)) (first : some '\n' ∉ line)
    (holds : p.scanner.stdin.contents = line ++ some '\n' :: rest) :
    ∃ accepted next parsed watched, parserStart (some null) p = .ok (accepted, next) ∧
      parseCommand (some null) p = .ok (accepted, parsed) ∧
      next.scanner = (if accepted then parsed.scanner else TokenSource.flush parsed.scanner) ∧
      rest <:+ parsed.scanner.stdin.input ∧
      parseCommand (some null) (watch p) = .ok (accepted, watched) ∧
      watched.scanner.source.stdin = ⟨parsed.scanner.stdin, false⟩ ∧
      (p.scanner.value.text.length ≤ maxTokLen → watched.scanner.longest ≤ maxTokLen) := by
  obtain ⟨accepted, parsed, watched, r, command, made, reads⟩ :=
    command_reads_line null p line rest first holds
  cases accepted with
  | true =>
    obtain ⟨next, finished, kept, -⟩ := Grammar.finish_total made
    exact ⟨true, next, parsed, watched, (ok_bind command).trans finished, command, kept, reads⟩
  | false =>
    obtain ⟨next, failed, flushed, -⟩ := Grammar.parseError_total null parsed
    exact ⟨false, next, parsed, watched, (ok_bind command).trans failed, command, flushed, reads⟩

theorem parse_reads_line_stop : ∃ accepted next parsed watched,
    parserStart (some false) (typed "stop\nhelp\n") = .ok (accepted, next) ∧
      parseCommand (some false) (typed "stop\nhelp\n") = .ok (accepted, parsed) ∧
      "help\n".toList.map some <:+ parsed.scanner.stdin.input ∧
      parseCommand (some false) (watch (typed "stop\nhelp\n")) = .ok (accepted, watched) ∧
      watched.scanner.source.stdin = ⟨parsed.scanner.stdin, false⟩ ∧
      watched.scanner.longest ≤ maxTokLen := by
  obtain ⟨accepted, next, parsed, watched, returned, command, -, unread, call, clean, longest⟩ :=
    parse_reads_line false (typed "stop\nhelp\n") ("stop".toList.map some)
      ("help\n".toList.map some) (by decide) (by decide)
  exact ⟨accepted, next, parsed, watched, returned, command, unread, call, clean,
    longest (Nat.zero_le _)⟩

end Parser
end Freedcc
