import Freedcc.CacheShow

/-! The commands for the system as they are typed, and what of their lines is left in
the stream: all but `help` are accepted with their last word not yet followed up. -/
namespace Freedcc
open PartialProgram Scanner Freedcc.Parser

/-- Tokens that a source hands over, and what it is then. -/
inductive Consumes {σ : Type} [TokenSource σ] : σ → List Token → σ → Prop where
  | nil : Consumes s [] s
  | token (read : TokenSource.nextToken s = .ok (tok, t)) (later : Consumes t tokens u) :
      Consumes s ((tok, TokenSource.value t) :: tokens) u

namespace Consumes
variable {σ : Type} [TokenSource σ] {s t u : σ}

theorem append (first : Consumes s tokens t) (last : Consumes t more u) :
    Consumes s (tokens ++ more) u := by
  induction first with
  | nil => exact last
  | token read _ ih => exact .token read (ih last)

end Consumes

namespace Scanner

/-- The first tokens of a line, and the text after them. -/
inductive Heads : List Char → List Token → List Char → Prop where
  | nil : Heads text [] text
  | token (blanks : Blanks gap) (lexeme : Lexeme spelling token) (delimits : Delimits next)
      (later : Heads (next :: more) tokens rest) :
      Heads (gap ++ (spelling ++ next :: more)) (token :: tokens) rest

namespace Heads

theorem append (first : Heads text tokens middle) (last : Heads middle more rest) :
    Heads text (tokens ++ more) rest := by
  induction first with
  | nil => exact last
  | token blanks lexeme delimits _ ih => exact .token blanks lexeme delimits (ih last)

theorem finish (first : Heads text tokens rest) (last : Line rest more) :
    Line text (tokens ++ more) := by
  induction first with
  | nil => exact last
  | token blanks lexeme delimits _ ih => exact .token blanks lexeme delimits (ih last)

/-- A scanner that has read the tokens stands before the text after them. -/
theorem consumed {s t : Scanner CharStream} (heads : Heads text tokens rest)
    (unended : s.seenEnd = false) (holds : s.stdin.contents = text.map some ++ later)
    (consumes : Consumes s tokens t) : t.stdin.contents = rest.map some ++ later := by
  induction heads generalizing s with
  | nil =>
    cases consumes
    exact holds
  | token blanks lexeme delimits _ ih =>
    simp only [List.map_append, List.append_assoc, List.map_cons, List.cons_append] at holds
    have read : TokenSource.nextToken s = .ok (_, { s with stdin := ⟨some _, _⟩, value := _ }) :=
      nextToken_lexeme blanks lexeme delimits unended holds
    generalize same : _ :: _ = all at consumes
    cases consumes with
    | nil => contradiction
    | token given later =>
      obtain ⟨rfl, rfl⟩ := Prod.mk.inj (Except.ok.inj (read.symm.trans given))
      obtain ⟨-, rfl⟩ := List.cons.inj same
      exact ih (s := { s with stdin := ⟨some _, _⟩, value := _ }) unended rfl later

end Heads
end Scanner

namespace Parser
variable {σ : Type} [TokenSource σ] {start last : σ} {tokens : List Token}

/-- Replaying tokens that a source delivers from a start on: those taken so far. -/
def Trails (start : σ) (tokens : List Token) (last : σ) (replay : Replay) (source : σ) : Prop :=
  (∃ taken, tokens = taken ++ replay.tokens ∧ Consumes start taken source) ∧
    Replays last replay source

theorem trails_follows (start : σ) (tokens : List Token) (last : σ) :
    Follows (Trails start tokens last) := by
  constructor
  · rintro ⟨rest, value⟩ source tok replay ⟨⟨taken, split, consumes⟩, replays⟩ read
    obtain ⟨source', same, next⟩ := (replays_follows last).next _ source tok replay replays read
    cases rest with
    | nil => simp [TokenSource.nextToken, Replay.nextToken] at read
    | cons token rest =>
      simp only [TokenSource.nextToken, Replay.nextToken, Except.ok.injEq, Prod.mk.injEq] at read
      obtain ⟨rfl, rfl⟩ := read
      have value : TokenSource.value source' = token.2 := next.2
      refine ⟨source', same, ⟨taken ++ [token], ?_, ?_⟩, next⟩
      · rw [split, List.append_assoc]
        rfl
      · have one := Consumes.token same .nil
        rw [value] at one
        exact consumes.append one
  · exact fun replay source trails => (replays_follows last).value replay source trails.2

end Parser

namespace Grammar
variable {σ : Type} [TokenSource σ] {p : Parser σ} {last : σ} {tokens us : List Token} (null : Bool)

/-- The alternatives that give up, and one that accepts: what is told, and where the
source is then. -/
theorem accepts_trailing {meaning : Meaning} {r : Result}
    (delivers : Delivers (TokenSource.reset p.scanner) tokens last)
    (split : alternatives = earlier ++ word :: later) (strays : Strays earlier tokens us)
    (drafted : meaning.Drafted r)
    (accepts : ∀ q s, ∃ q', alternative word (standing q s us) = .ok (true, standing q' r (token :: vs))) :
    ∃ next taken, parserStart (some null) p = .ok (true, next) ∧ meaning.Told next.result ∧
      tokens = taken ++ vs ∧ Consumes (TokenSource.reset p.scanner) taken next.scanner ∧
      (vs = [] → next.scanner = last) := by
  obtain ⟨q, s, first⟩ := strays_run strays (members_of_split split).1 delivers.ended (word :: later)
    ((prepare (some null) p).replaying tokens) (newResult null)
  obtain ⟨q', taken⟩ := accepts q s
  have runs : tryAll alternatives (opened p null tokens) = .ok (true, standing q' r (token :: vs)) := by
    rw [split]
    exact first.trans (tryAll_accepts taken later)
  obtain ⟨head, rest, rfl⟩ := List.exists_cons_of_ne_nil delivers.ended.nonempty
  have start : parseTokens ((prepare (some null) p).replaying (head :: rest)) =
      .ok (true, standing q' r (token :: vs)) := by
    rw [parseTokens, ok_bind (advance_first _ rfl), parse_tryAll]
    exact runs
  have opening : Alongside (Trails (TokenSource.reset p.scanner) (head :: rest) last) 0
      ((prepare (some null) p).replaying (head :: rest)) (prepare (some null) p) :=
    ⟨⟨⟨[], rfl, .nil⟩, Or.inr delivers, rfl⟩, rfl, by simp [replaying], rfl⟩
  obtain ⟨parsed, command, along⟩ := parseTokens_simulates (trails_follows _ _ _) _ _ _ _ opening start
  have result : parsed.result = some (r.renumber 0) := along.result
  rw [r.renumber_zero] at result
  obtain ⟨next, finished, told, scanner⟩ := finish_drafted drafted result
  obtain ⟨⟨taken, all, consumes⟩, replays, -⟩ := along.scanner
  have command' : parseCommand (some null) p = .ok (true, parsed) := (ok_bind rfl).trans command
  refine ⟨next, taken, (ok_bind command').trans finished, told, all, ?_, ?_⟩
  · rw [scanner]
    exact consumes
  · rintro rfl
    rw [scanner]
    rcases replays with ⟨-, same⟩ | delivers
    · exact same
    · cases delivers

/-- A command that is accepted with its last token not yet followed up. -/
theorem accepts_pending {cmd : SysCmd} {stop : Token}
    (delivers : Delivers (TokenSource.reset p.scanner) (tokens ++ [stop]) last)
    (split : alternatives = earlier ++ word :: later)
    (strays : Strays earlier (tokens ++ [stop]) (tokens ++ [stop]))
    (accepts : ∀ q r, alternative word (standing q r (tokens ++ [stop])) =
      .ok (true, standing q ⟨.sys, .cmd cmd⟩ [token, stop])) :
    ∃ next, parserStart (some null) p = .ok (true, next) ∧ next.result = some ⟨.sys, .cmd cmd⟩ ∧
      Consumes (TokenSource.reset p.scanner) tokens next.scanner := by
  have drafted : (Meaning.sys cmd).Drafted ⟨.sys, .cmd cmd⟩ := rfl
  obtain ⟨next, taken, accepted, told, all, consumes, -⟩ :=
    accepts_trailing null delivers split strays drafted fun q r => ⟨q, accepts q r⟩
  obtain rfl := List.append_cancel_right all
  exact ⟨next, accepted, told, consumes⟩

end Grammar
end Freedcc

namespace Freedcc.Console
open Dcc PartialProgram Scanner Grammar Freedcc.Parser

inductive Query where
  | help
  | status
  | cacheClear
  | cacheShow (n : Nat)

inductive QueryText : Query → List Char → Prop where
  | help (spells : Spells ["help"] word) : QueryText .help word
  | status (first : Spells ["show"] word) (between : Gap gap) (second : Spells ["status"] other) :
      QueryText .status (word ++ (gap ++ other))
  | cacheClear (first : Spells ["cache"] word) (between : Gap gap)
      (second : Spells ["clear"] other) : QueryText .cacheClear (word ++ (gap ++ other))
  | cacheShow (first : Spells ["cache"] word) (between : Gap gap) (second : Spells ["show"] other)
      (after : Gap space) (number : DigitString n digits) :
      QueryText (.cacheShow n) (word ++ (gap ++ (other ++ (space ++ digits))))

/-- The command that is called; its argument is an `int`. -/
def Query.cmd : Query → SysCmd
  | .help => { type := .help, args := none }
  | .status => { type := .status, args := none }
  | .cacheClear => { type := .cacheClear, args := none }
  | .cacheShow n => { type := .cacheShow, args := some (BitVec.ofNat 16 n) }

/-- What the parser leaves of a text after the command. After `help` it has looked for
one more token, and so read the line to its end; after the others it has not. -/
def Query.leaves : Query → List Char → List Char
  | .help, _ => []
  | _, rest => rest

inductive Asks : Query → List Token → Prop where
  | help : Asks .help [(.help, u)]
  | status : Asks .status [(.show, u), (.status, v)]
  | cacheClear : Asks .cacheClear [(.cache, u), (.clear, v)]
  | cacheShow : Asks (.cacheShow n) [(.cache, u), (.show, v), (.number, .i (BitVec.ofNat 16 n))]

section Words
variable {word other : List Char} {token token' : Token}

theorem spelt_word (blanks : Blanks gap) (lexeme : Lexeme word token) (opens : Opens rest) :
    Heads (gap ++ (word ++ rest)) [token] rest := by
  obtain ⟨c, more, rfl, delimits⟩ := opens
  exact .token blanks lexeme delimits .nil

theorem spelt_words (blanks : Blanks gap) (first : Lexeme word token) (between : Gap space)
    (second : Lexeme other token') (opens : Opens rest) :
    Heads (gap ++ ((word ++ (space ++ other)) ++ rest)) [token, token'] rest := by
  have one := spelt_word blanks first (between.opens (other ++ rest))
  have both := one.append (spelt_word between.2 second opens)
  simp only [List.append_assoc] at both ⊢
  exact both

end Words

section Queries
variable {query : Query} {text : List Char}

theorem QueryText.spelt (body : QueryText query text) (lead : Blanks gap) (opens : Opens rest) :
    ∃ tokens, Heads (gap ++ (text ++ rest)) tokens rest ∧ Asks query tokens := by
  cases body with
  | help spells =>
    obtain ⟨u, lexeme⟩ := spells.lexeme .help (by decide) (by simp)
    exact ⟨_, spelt_word lead lexeme opens, .help⟩
  | status first between second =>
    obtain ⟨u, one⟩ := first.lexeme .show (by decide) (by simp)
    obtain ⟨v, two⟩ := second.lexeme .status (by decide) (by simp)
    exact ⟨_, spelt_words lead one between two opens, .status⟩
  | cacheClear first between second =>
    obtain ⟨u, one⟩ := first.lexeme .cache (by decide) (by simp)
    obtain ⟨v, two⟩ := second.lexeme .clear (by decide) (by simp)
    exact ⟨_, spelt_words lead one between two opens, .cacheClear⟩
  | @cacheShow word gap' other space n digits first between second after number =>
    obtain ⟨u, one⟩ := first.lexeme .cache (by decide) (by simp)
    obtain ⟨v, two⟩ := second.lexeme .show (by decide) (by simp)
    have words := spelt_words lead one between two (after.opens (digits ++ rest))
    have all := words.append (spelt_word after.2 number.lexeme opens)
    simp only [List.append_assoc] at all ⊢
    exact ⟨_, all, .cacheShow⟩

/-- A query is accepted, and its tokens are all that has been read but after `help`. -/
theorem Asks.accepted {σ : Type} [TokenSource σ] {p : Parser σ} {last : σ} (null : Bool)
    (asks : Asks query tokens)
    (delivers : Delivers (TokenSource.reset p.scanner) (tokens ++ [(.unknown, v)]) last) :
    ∃ next, parserStart (some null) p = .ok (true, next) ∧
      next.result = some ⟨.sys, .cmd query.cmd⟩ ∧
      (query = .help ∧ next.scanner = last ∨
        query ≠ .help ∧ Consumes (TokenSource.reset p.scanner) tokens next.scanner) := by
  cases asks with
  | help =>
    have split : alternatives = [.raw] ++ .help :: [.show, .cache, .forward, .reverse, .stop] := rfl
    have drafted : (Meaning.sys Query.help.cmd).Drafted ⟨.sys, .cmd Query.help.cmd⟩ := rfl
    obtain ⟨next, -, accepted, told, -, -, read⟩ := accepts_trailing null delivers split
      (strays_other (by decide) _ _) drafted fun q r => ⟨q, help_accepts q r (.unknown, v) []⟩
    exact ⟨next, accepted, told, Or.inl ⟨rfl, read rfl⟩⟩
  | status =>
    have split : alternatives = [.raw, .help] ++ .show :: [.cache, .forward, .reverse, .stop] := rfl
    obtain ⟨next, accepted, told, consumes⟩ := accepts_pending null delivers split
      (strays_other (by decide) _ _) fun q r => show_accepts q r _
    exact ⟨next, accepted, told, Or.inr ⟨by simp, consumes⟩⟩
  | cacheClear =>
    have split : alternatives = [.raw, .help, .show] ++ .cache :: [.forward, .reverse, .stop] := rfl
    obtain ⟨next, accepted, told, consumes⟩ := accepts_pending null delivers split
      (strays_other (by decide) _ _) fun q r => cacheClear_accepts q r _
    exact ⟨next, accepted, told, Or.inr ⟨by simp, consumes⟩⟩
  | cacheShow =>
    have split : alternatives = [.raw, .help, .show] ++ .cache :: [.forward, .reverse, .stop] := rfl
    obtain ⟨next, accepted, told, consumes⟩ := accepts_pending null delivers split
      (strays_other (by decide) _ _) fun q r => cacheShow_accepts q r _
    exact ⟨next, accepted, told, Or.inr ⟨by simp, consumes⟩⟩

/-- At the head of a line, they are all that is asked for. -/
theorem Asks.parsed {line space : List Char} {p : Parser (Scanner CharStream)}
    (asks : Asks query tokens) (spelt : Heads line tokens (space ++ ['\n'])) (trail : Blanks space)
    (null : Bool) (fresh : p.scanner.stdin.contents = line.map some ++ rest) :
    ∃ next, parserStart (some null) p = .ok (true, next) ∧
      next.result = some ⟨.sys, .cmd query.cmd⟩ ∧
      next.scanner.stdin.contents = (query.leaves (space ++ ['\n'])).map some ++ rest := by
  have whole := spelt.finish (.ends trail)
  rw [List.append_nil] at whole
  have holds : (TokenSource.reset p.scanner).stdin.contents = _ := fresh
  obtain ⟨value, delivers⟩ := whole.delivers rfl holds
  obtain ⟨next, accepted, told, ⟨rfl, last⟩ | ⟨other, consumes⟩⟩ := asks.accepted null delivers
  · refine ⟨next, accepted, told, ?_⟩
    rw [last]
    rfl
  · refine ⟨next, accepted, told, ?_⟩
    rw [spelt.consumed rfl holds consumes]
    cases query with
    | help => exact absurd rfl other
    | status => rfl
    | cacheClear => rfl
    | cacheShow n => rfl

/-- However a command for the system is typed, it is understood; and what the parser has
not read of its line is what stands after the last word, for all but `help`, after which
the line is read to its end. -/
theorem query_line_answered (query : Query) (gap text space : List Char) (lead : Blanks gap)
    (body : QueryText query text) (trail : Blanks space) (rest : List (Option Char)) (null : Bool)
    (p : Parser (Scanner CharStream))
    (fresh : p.scanner.stdin.contents =
      (gap ++ (text ++ (space ++ ['\n']))).map some ++ rest) :
    ∃ next, parserStart (some null) p = .ok (true, next) ∧
      next.result = some ⟨.sys, .cmd query.cmd⟩ ∧
      next.scanner.stdin.contents = (query.leaves (space ++ ['\n'])).map some ++ rest := by
  obtain ⟨tokens, spelt, asks⟩ := body.spelt lead (opens_newline trail)
  exact asks.parsed spelt trail null fresh

end Queries

theorem query_line_answered_show : ∃ next,
    parserStart (some false) (typed "Cache\tSHOW 003 \n") = .ok (true, next) ∧
      next.result = some ⟨.sys, .cmd { type := .cacheShow, args := some 3 }⟩ ∧
      next.scanner.stdin.contents = [some ' ', some '\n'] := by
  have one : Blanks [' '] := by simp [Blanks]
  have tab : Blanks ['\t'] := by simp [Blanks]
  have number : DigitString 3 "003".toList := ⟨by simp, by simp, by simp [Nat.ofDigitChars]⟩
  have body : QueryText (.cacheShow 3)
      ("Cache".toList ++ (['\t'] ++ ("SHOW".toList ++ ([' '] ++ "003".toList)))) :=
    .cacheShow ⟨"cache", by simp, by decide⟩ ⟨by simp, tab⟩ ⟨"show", by simp, by decide⟩
      ⟨by simp, one⟩ number
  exact query_line_answered (.cacheShow 3) [] _ [' '] blanks_nil body one [] false
    (typed "Cache\tSHOW 003 \n") (by decide)

end Freedcc.Console
