import Freedcc.GrammarAccepts
import Freedcc.ParserFrames

/-! From the alternatives to the whole call of the parser. -/
namespace Freedcc.Grammar
open Dcc PartialProgram Freedcc.Parser

section Chain

/-- The alternatives of a list, one after the other. -/
def tryAll (words : List Tok) : Parse Replay Bool :=
  words.foldr (fun word later => alternative word <||> later) (pure false)

theorem parse_tryAll : (parse : Parse Replay Bool) = tryAll alternatives := by
  simp only [tryAll, alternatives, List.foldr_cons, List.foldr_nil, orM_pure_false, alternative,
    parse, parseBeforeStop, orM_assoc]

theorem Strays.ended (strays : Strays words ts us) (members : ∀ word ∈ words, word ∈ alternatives)
    (ended : Ended ts) : Ended us := by
  induction strays with
  | nil => exact ended
  | cons stray later ih =>
    have first := known_of_alternative (members _ List.mem_cons_self)
    exact ih (fun word member => members word (List.mem_cons_of_mem _ member))
      (stray.ended first ended)

/-- Alternatives that give up hand over to the next one. -/
theorem strays_run (strays : Strays words ts us)
    (members : ∀ word ∈ words, word ∈ alternatives) (ended : Ended ts) (later : List Tok)
    (p : Parser Replay) (r : Result) : ∃ p' r',
      tryAll (words ++ later) (standing p r ts) = tryAll later (standing p' r' us) := by
  induction strays generalizing p r with
  | nil => exact ⟨p, r, rfl⟩
  | @cons word _ _ words _ stray _ ih =>
    have member := members word List.mem_cons_self
    obtain ⟨p', r', first⟩ := stray_runs member stray ended p r
    obtain ⟨p'', r'', second⟩ := ih (fun word member => members word (List.mem_cons_of_mem _ member))
      (stray.ended (known_of_alternative member) ended) p' r'
    exact ⟨p'', r'', (orM_false first).trans second⟩

theorem tryAll_accepts {p q : Parser Replay} (accepts : alternative word p = .ok (true, q))
    (later : List Tok) : tryAll (word :: later) p = .ok (true, q) := orM_true accepts

/-- All give up, or one of them accepts. -/
theorem first_decided (members : ∀ word ∈ words, word ∈ alternatives) (ended : Ended ts) :
    (∃ us, Strays words ts us) ∨ ∃ earlier word later us, words = earlier ++ word :: later ∧
      Strays earlier ts us ∧ (Begins word us ∨ Muddled word us) := by
  induction words generalizing ts with
  | nil => exact Or.inl ⟨ts, .nil⟩
  | cons word words ih =>
    have member := members word List.mem_cons_self
    rcases decided member ended with ⟨us, stray⟩ | accepts
    · have rest := ih (fun word member => members word (List.mem_cons_of_mem _ member))
        (stray.ended (known_of_alternative member) ended)
      rcases rest with ⟨vs, strays⟩ | ⟨earlier, next, later, vs, rfl, strays, accepts⟩
      · exact Or.inl ⟨vs, .cons stray strays⟩
      · exact Or.inr ⟨word :: earlier, next, later, vs, rfl, .cons stray strays, accepts⟩
    · exact Or.inr ⟨[], word, words, ts, rfl, .nil, accepts⟩

end Chain

/-! What the whole call makes of it. -/

section Call
variable {σ : Type} [TokenSource σ]

/-- A new result, as `DSL_parser_start` makes it. -/
def newResult (null : Bool) : Result := ⟨.undef, .garbage null⟩

omit [TokenSource σ] in
theorem onPacket_result (change : Packet → Packet) {p : Parser σ} (result : p.result = some r) :
    onPacket change p = .ok ((), { p with result := some (r.write change) }) := by
  obtain ⟨scanner, curr, _, created, trace⟩ := p
  subst result
  rfl

omit [TokenSource σ] in
theorem finishPacket_eq (p : Parser σ) : finishPacket p = (match p.result with
    | none => throw .nullDereference
    | some ⟨.dcc, _⟩ => do
      onPacket setChecksum
      onPacket setPacketEnd
      return true
    | some _ => return true : Parse σ Bool) p := rfl

omit [TokenSource σ] in
theorem finish_drafted {meaning : Meaning} (drafted : meaning.Drafted r) {p : Parser σ}
    (result : p.result = some r) :
    ∃ next, finishPacket p = .ok (true, next) ∧ meaning.Told next.result ∧
      next.scanner = p.scanner := by
  rw [finishPacket_eq, result]
  cases meaning with
  | dcc f =>
    obtain ⟨id, g, rfl, rfl⟩ := drafted
    have checksum := onPacket_result setChecksum result
    rw [write_draft setChecksum_packet] at checksum
    have last := onPacket_result setPacketEnd (p := { p with
      result := some (draft id { g with checksum := g.addressByte ^^^ g.instruction }) }) rfl
    rw [write_draft setPacketEnd_packet] at last
    exact ⟨_, (ok_bind checksum).trans ((ok_bind last).trans rfl), ⟨_, rfl, rfl⟩, rfl⟩
  | raw bytes =>
    obtain ⟨id, rfl⟩ := drafted
    exact ⟨p, rfl, ⟨_, result, rfl⟩, rfl⟩
  | sys cmd =>
    obtain rfl := drafted
    exact ⟨p, rfl, result, rfl⟩

omit [TokenSource σ] in
theorem finish_total {p : Parser σ} (result : p.result = some r) :
    ∃ next, finishPacket p = .ok (true, next) ∧ next.scanner = p.scanner ∧
      next.result.isSome = true := by
  rw [finishPacket_eq, result]
  obtain ⟨type, payload⟩ := r
  cases type with
  | dcc => exact ⟨_, rfl, rfl, by simp only [result, Option.map_some, Option.isSome_some]⟩
  | undef | sys | raw => exact ⟨_, rfl, rfl, by rw [result]; rfl⟩

/-- Whatever went wrong, the call comes to its end, if there is nothing to trash
or a place to say so. -/
theorem parseError_returns (memory : Option Bool) (parsed : Parser σ)
    (safe : (parsed.result.isSome && memory.isNone) = false) :
    ∃ next, parseError memory parsed = .ok (false, next) ∧
      next.scanner = TokenSource.flush parsed.scanner ∧ next.result = none := by
  generalize flushed : { parsed with scanner := TokenSource.flush parsed.scanner } = q
  have result : q.result = parsed.result := by rw [← flushed]
  obtain ⟨scanner, -, -, gone⟩ := trash_eq q
  refine ⟨trash q, ?_, by rw [scanner, ← flushed], gone⟩
  rw [parseError, ok_bind (modify_ok.mpr flushed), ok_bind (get_ok.mpr ⟨rfl, rfl⟩), result, safe]
  rfl

theorem parseError_total (null : Bool) (parsed : Parser σ) :
    ∃ next, parseError (some null) parsed = .ok (false, next) ∧
      next.scanner = TokenSource.flush parsed.scanner ∧ next.result = none :=
  parseError_returns (some null) parsed (Bool.and_false _)

/-- What is left of the tokens, the first of them read. -/
def Left (last : σ) (us : List Token) (scanner : σ) : Prop :=
  ∃ token rest value, us = token :: rest ∧ Replays last { tokens := rest, value } scanner

theorem left_last {last scanner : σ} (left : Left last [token] scanner) : scanner = last := by
  obtain ⟨_, _, value, same, ⟨-, finished⟩ | delivers, -⟩ := left
  · exact finished
  · cases same
    cases delivers

variable {p : Parser σ} {last : σ} (null : Bool)

def opened (p : Parser σ) (null : Bool) (tokens : List Token) : Parser Replay :=
  standing ((prepare (some null) p).replaying tokens) (newResult null) tokens

variable {null} in
theorem call_runs (delivers : Delivers (TokenSource.reset p.scanner) tokens last)
    (runs : tryAll alternatives (opened p null tokens) = .ok (accepted, q)) :
    ∃ parsed, parseCommand (some null) p = .ok (accepted, parsed) ∧
      Alongside (Replays last) 0 q parsed := by
  obtain ⟨token, rest, rfl⟩ := List.exists_cons_of_ne_nil delivers.ended.nonempty
  have start : parseTokens ((prepare (some null) p).replaying (token :: rest)) =
      .ok (accepted, q) := by
    rw [parseTokens, ok_bind (advance_first _ rfl), parse_tryAll]
    exact runs
  obtain ⟨parsed, real, along⟩ := parseTokens_delivered delivers start
  exact ⟨parsed, (ok_bind rfl).trans real, along⟩

variable {null} in
theorem call_accepts (delivers : Delivers (TokenSource.reset p.scanner) tokens last)
    (runs : tryAll alternatives (opened p null tokens) = .ok (true, standing p' r us))
    (remains : us ≠ []) :
    ∃ parsed, parserStart (some null) p = finishPacket parsed ∧ parsed.result = some r ∧
      Left last us parsed.scanner := by
  obtain ⟨parsed, command, along⟩ := call_runs delivers runs
  obtain ⟨token, rest, rfl⟩ := List.exists_cons_of_ne_nil remains
  have result : parsed.result = some (r.renumber 0) := along.result
  rw [r.renumber_zero] at result
  exact ⟨parsed, ok_bind command, result, token, rest, _, rfl, along.scanner⟩

variable {null} in
theorem call_rejects (delivers : Delivers (TokenSource.reset p.scanner) tokens last)
    (runs : tryAll alternatives (opened p null tokens) = .ok (false, q)) :
    parserStart (some null) p ≠ .ok (true, next) := by
  intro accepted
  obtain ⟨parsed, command, -⟩ := call_runs delivers runs
  have error := (ok_bind command).symm.trans accepted
  have wrong := parseError_rejects _ parsed true next trivial error
  contradiction

theorem members_of_split (split : alternatives = earlier ++ word :: later) :
    (∀ other ∈ earlier, other ∈ alternatives) ∧ word ∈ alternatives := by
  rw [split]
  exact ⟨fun other member => List.mem_append_left _ member, by simp⟩

theorem raw_first (split : alternatives = earlier ++ .raw :: later) : earlier = [] := by
  cases earlier with
  | nil => rfl
  | cons word earlier =>
    have member : Tok.raw ∈ alternatives.tail := by
      rw [split]
      simp
    exact absurd member (by decide)

omit [TokenSource σ] in
/-- The alternatives come to a verdict, and leave a result. -/
theorem alternatives_total (ended : Ended ts) (p : Parser Replay) (r : Result) :
    ∃ accepted q r' us, tryAll alternatives (standing p r ts) = .ok (accepted, standing q r' us) ∧
      (accepted = false → Strays alternatives ts us) := by
  rcases first_decided (fun word member => member) ended with ⟨us, strays⟩ | decided
  · obtain ⟨q, r', runs⟩ := strays_run strays (fun word member => member) ended [] p r
    rw [List.append_nil] at runs
    exact ⟨false, q, r', us, runs, fun _ => strays⟩
  · obtain ⟨earlier, word, later, us, split, strays, accepts⟩ := decided
    have members := members_of_split split
    obtain ⟨q, r', first⟩ := strays_run strays members.1 ended (word :: later) p r
    have remains := strays.ended members.1 ended
    rw [split]
    rcases accepts with begins | muddled
    · obtain ⟨q', r'', vs, runs, -⟩ := begins_accepts q r' begins remains
      exact ⟨true, q', r'', vs, first.trans (tryAll_accepts runs later), nofun⟩
    · obtain ⟨q', r'', vs, runs, -⟩ := muddled_runs q r' muddled remains
      exact ⟨true, q', r'', vs, first.trans (tryAll_accepts runs later), nofun⟩

omit null in
/-- The parse of a line that comes to an end comes to a verdict. -/
theorem command_total (delivers : Delivers (TokenSource.reset p.scanner) tokens last)
    (null : Bool) : ∃ accepted parsed r,
      parseCommand (some null) p = .ok (accepted, parsed) ∧ parsed.result = some r := by
  obtain ⟨accepted, q, r, us, runs, -⟩ := alternatives_total delivers.ended
    ((prepare (some null) p).replaying tokens) (newResult null)
  obtain ⟨parsed, real, along⟩ := call_runs delivers runs
  have result : (standing q r us).result = some r := by cases us <;> rfl
  refine ⟨accepted, parsed, r.renumber 0, real, ?_⟩
  rw [along.result, result]
  rfl

/-- The alternatives that give up, and then one that accepts. -/
theorem accepts_at {Q : Result → List Token → Prop}
    (delivers : Delivers (TokenSource.reset p.scanner) tokens last)
    (split : alternatives = earlier ++ word :: later) (strays : Strays earlier tokens us)
    (accepts : ∀ q r, (word = .raw → r = newResult null) → ∃ q' r' vs,
      alternative word (standing q r us) = .ok (true, standing q' r' vs) ∧ vs ≠ [] ∧ Q r' vs) :
    ∃ parsed r vs, parserStart (some null) p = finishPacket parsed ∧ parsed.result = some r ∧
      Left last vs parsed.scanner ∧ Q r vs := by
  obtain ⟨q, r, first, fresh⟩ : ∃ q r, tryAll alternatives (opened p null tokens) =
      tryAll (word :: later) (standing q r us) ∧ (word = .raw → r = newResult null) := by
    rw [split]
    cases strays with
    | nil => exact ⟨_, newResult null, rfl, fun _ => rfl⟩
    | cons stray strays =>
      obtain ⟨q, r, first⟩ := strays_run (.cons stray strays) (members_of_split split).1
        delivers.ended (word :: later) ((prepare (some null) p).replaying tokens) (newResult null)
      refine ⟨q, r, first, ?_⟩
      rintro rfl
      exact absurd (raw_first split) (List.cons_ne_nil _ _)
  obtain ⟨q', r', vs, runs, remains, holds⟩ := accepts q r fresh
  obtain ⟨parsed, called, result, left⟩ :=
    call_accepts delivers (first.trans (tryAll_accepts runs later)) remains
  exact ⟨parsed, r', vs, called, result, left, holds⟩

end Call

end Freedcc.Grammar
