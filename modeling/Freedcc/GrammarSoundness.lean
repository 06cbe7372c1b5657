import Freedcc.GrammarCalls

/-! When an accepting parse means what the grammar says: exactly unless some
alternative has lost tokens, or `raw` was left without a packet. -/
namespace Freedcc.Grammar
open Dcc PartialProgram Freedcc.Parser

section Counting
variable {σ : Type} [TokenSource σ]

theorem replays_calls {last source : Counted σ} (replays : Replays last replay source) :
    source.calls + replay.tokens.length = last.calls := by
  obtain ⟨none, rfl⟩ | delivers := replays.1
  · simp [none]
  · exact delivers.calls.symm

theorem left_calls {last scanner : Counted σ} (left : Left last us scanner) :
    scanner.calls + us.length = last.calls + 1 := by
  obtain ⟨_, _, _, rfl, replays⟩ := left
  exact congrArg (· + 1) (replays_calls replays)

variable {p : Parser (Counted σ)} {last : Counted σ} (null : Bool)

theorem derailed_unsound (delivers : Delivers (TokenSource.reset p.scanner) tokens last)
    (derailed : Derailed tokens) : ¬ Sound tokens null p := by
  intro sound
  obtain ⟨earlier, word, later, us, split, strays, accepts⟩ := derailed
  have ended := strays.ended (members_of_split split).1 delivers.ended
  by_cases taken : us = tokens
  · subst taken
    have muddled := accepts.resolve_left fun begins => begins.1 rfl
    obtain ⟨parsed, r, vs, called, result, left, far⟩ := accepts_at null
      (Q := fun _ vs => vs.length + 2 ≤ us.length) delivers split strays
      fun q r _ => muddled_runs q r muddled ended
    obtain ⟨next, finished, same, -⟩ := finish_total result
    obtain ⟨command, rest, meaning, same', given, -, -, bound⟩ := sound next (called.trans finished)
    have short := muddled.stopped same' given
    have calls := (left_calls left).trans (congrArg (· + 1) delivers.calls)
    have start : (TokenSource.reset p.scanner).calls = p.scanner.calls := rfl
    rw [same] at bound
    omega
  · have runs : ∀ q r, ∃ q' r' vs,
        alternative word (standing q r us) = .ok (true, standing q' r' vs) ∧ vs ≠ [] := by
      intro q r
      rcases accepts with ⟨-, begins⟩ | muddled
      · exact begins_accepts q r begins ended
      · obtain ⟨q', r', vs, runs, remains, -⟩ := muddled_runs q r muddled ended
        exact ⟨q', r', vs, runs, remains⟩
    obtain ⟨parsed, r, vs, called, result, -⟩ := accepts_at null
      (Q := fun _ _ => True) delivers split strays fun q r _ => by
        obtain ⟨q', r', vs, runs, remains⟩ := runs q r
        exact ⟨q', r', vs, runs, remains, trivial⟩
    obtain ⟨next, finished, -⟩ := finish_total result
    obtain ⟨command, rest, meaning, same, given, -⟩ := sound next (called.trans finished)
    exact strays.commandless taken command rest meaning same given

theorem raw_unsound (delivers : Delivers (TokenSource.reset p.scanner) tokens last)
    (raw : RawCommand tokens) : ¬ Sound tokens true p := by
  intro sound
  have ended := delivers.ended
  obtain ⟨command⟩ := raw
  obtain ⟨token, more, rfl⟩ := List.exists_cons_of_ne_nil (command.remains ended).nonempty
  cases command with
  | raw =>
    have first : alternatives = [] ++ .raw :: alternatives.tail := rfl
    obtain ⟨parsed, r, vs, called, result, -, rfl⟩ := accepts_at true
      (Q := fun r _ => r = newResult true) delivers first .nil fun q r fresh =>
        ⟨q, r, token :: more, by rw [fresh rfl]; exact raw_accepts q _ token more,
          List.cons_ne_nil _ _, fresh rfl⟩
    obtain ⟨next, finished, -⟩ := finish_total result
    obtain ⟨_, _, meaning, -, -, -, told, -⟩ := sound next (called.trans finished)
    rw [finishPacket_noFrame ⟨_, result, by simp [newResult]⟩ finished, result] at told
    cases meaning with
    | dcc f =>
      obtain ⟨_, same, -⟩ := told
      cases same
    | raw bytes =>
      obtain ⟨_, same, -⟩ := told
      cases same
    | sys cmd => cases told

theorem proper_sound (delivers : Delivers (TokenSource.reset p.scanner) tokens last)
    (kept : ¬ Derailed tokens) (made : ¬ (null = true ∧ RawCommand tokens)) :
    Sound tokens null p := by
  intro next accepted
  have ended := delivers.ended
  rcases first_decided (fun word member => member) ended with ⟨us, strays⟩ | decided
  · obtain ⟨q, r, runs⟩ := strays_run strays (fun word member => member) ended []
      ((prepare (some null) p).replaying tokens) (newResult null)
    rw [List.append_nil] at runs
    exact absurd accepted (call_rejects delivers runs)
  · obtain ⟨earlier, word, later, us, split, strays, accepts⟩ := decided
    have proper : ¬ Muddled word us := fun muddled =>
      kept ⟨earlier, word, later, us, split, strays, Or.inr muddled⟩
    have begins := accepts.resolve_right proper
    obtain rfl : us = tokens := by
      by_contra taken
      exact kept ⟨earlier, word, later, us, split, strays, Or.inl ⟨taken, begins⟩⟩
    obtain ⟨parsed, r, vs, called, result, left, command, rest, meaning, same, given, far, drafted,
        read⟩ := accepts_at null (Q := fun r vs => ∃ command rest meaning,
      us = command ++ rest ∧ Command command meaning ∧ command.length = reach us ∧
        meaning.Drafted r ∧ rest.length ≤ vs.length) delivers split strays fun q r fresh => by
      have present : word = .raw → r.payload.present = true := by
        rintro rfl
        rw [fresh rfl]
        cases null with
        | true => exact absurd ⟨rfl, begins⟩ made
        | false => rfl
      obtain ⟨command, rest, meaning, vs, q', r', same, given, far, drafted, remains, read, runs⟩ :=
        takes q r begins proper ended present
      exact ⟨q', r', vs, runs, remains, command, rest, meaning, same, given, far, drafted, read⟩
    obtain ⟨other, finished, told, scanner⟩ := finish_drafted drafted result
    obtain ⟨-, rfl⟩ := Prod.mk.inj (Except.ok.inj ((called.trans finished).symm.trans accepted))
    refine ⟨command, rest, meaning, same, given, ?_, told, ?_⟩
    · rintro more beyond wrong rfl longer
      rw [far]
      exact longer.within beyond
    · have total := congrArg List.length same
      have calls := (left_calls left).trans (congrArg (· + 1) delivers.calls)
      have start : (TokenSource.reset p.scanner).calls = p.scanner.calls := rfl
      rw [List.length_append] at total
      rw [scanner]
      omega

end Counting

/-- An accepting call means what the grammar says of the tokens, unless the tokens
derail the parser, or begin with `RAW HEX` and malloc has left a null pointer in
the payload. -/
theorem grammar_sound_iff {δ : Type} [Stdin δ] (null : Bool) (tokens : List Token)
    (p : Parser (Counted (Scanner δ))) (last : Counted (Scanner δ))
    (delivers : Delivers (TokenSource.reset p.scanner) tokens last) :
    Sound tokens null p ↔ ¬ Derailed tokens ∧ ¬ (null = true ∧ RawCommand tokens) := by
  constructor
  · intro sound
    refine ⟨fun derailed => derailed_unsound null delivers derailed sound, ?_⟩
    rintro ⟨rfl, raw⟩
    exact raw_unsound delivers raw sound
  · rintro ⟨kept, made⟩
    exact proper_sound null delivers kept made

def counting (text : String) : Parser (Counted (Scanner CharStream)) :=
  .fresh ⟨.fresh id (.ofText text.toList), 0⟩

theorem grammar_sound_iff_stop : ∃ tokens,
    tokens = [(.stop, .s "stop".toList), (.all, .s "all".toList), (.unknown, .s "all".toList)] ∧
      (Sound tokens false (counting "stop all\n") ↔
        ¬ Derailed tokens ∧ ¬ (false = true ∧ RawCommand tokens)) := by
  have run : delivered 3 (TokenSource.reset (counting "stop all\n").scanner) =
      some [(.stop, .s "stop".toList), (.all, .s "all".toList), (.unknown, .s "all".toList)] := by
    decide +kernel
  obtain ⟨last, delivers⟩ := delivers_of_delivered run
  exact ⟨_, rfl, grammar_sound_iff false _ _ last delivers⟩

/-- `raw` has taken its word when it gives up, and `stop` goes on from there. -/
theorem grammar_unsound_raw_stop : ∃ tokens last,
    Delivers (TokenSource.reset (counting "raw stop\n").scanner) tokens last ∧
      ¬ Sound tokens false (counting "raw stop\n") := by
  have run : delivered 3 (TokenSource.reset (counting "raw stop\n").scanner) = some
      [(.raw, .s "raw".toList), (.stop, .s "stop".toList), (.unknown, .s "stop".toList)] := by
    decide +kernel
  obtain ⟨last, delivers⟩ := delivers_of_delivered run
  refine ⟨_, last, delivers, derailed_unsound false delivers ?_⟩
  have strays : Strays alternatives.dropLast
      [(.raw, .s "raw".toList), (.stop, .s "stop".toList), (.unknown, .s "stop".toList)]
      ([(.stop, .s "stop".toList)] ++ [(.unknown, .s "stop".toList)]) :=
    .cons (.raw (by simp)) (.cons (.other (by simp)) (.cons (.other (by simp))
      (.cons (.other (by simp)) (.cons (.other (by simp)) (.cons (.other (by simp)) .nil)))))
  exact ⟨_, .stop, [], _, rfl, strays, Or.inl ⟨by simp, .command .stop⟩⟩

end Freedcc.Grammar
