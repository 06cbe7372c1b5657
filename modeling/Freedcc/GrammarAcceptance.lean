import Freedcc.GrammarSoundness

/-! Which lines are accepted: those that begin with a command of the grammar, every one of
them, and those that derail the parser. All others are parse errors. -/
namespace Freedcc.Grammar
open Dcc PartialProgram Freedcc.Parser

def BeginsCommand (tokens : List Token) : Prop :=
  ∃ command rest meaning, tokens = command ++ rest ∧ Command command meaning

theorem Command.first (command : Command tokens meaning) :
    ∃ word u more, tokens = (word, u) :: more ∧ word ∈ alternatives := by
  cases command with
  | raw | help | showStatus | cacheClear | cacheShow | stopAddr | stopAll | stop =>
    exact ⟨_, _, _, rfl, by decide⟩
  | forward clauses => exact ⟨_, _, _, rfl, by decide⟩
  | reverse clauses => exact ⟨_, _, _, rfl, by decide⟩

theorem before_word (split : alternatives = earlier ++ word :: later) : word ∉ earlier := by
  have distinct : alternatives.Nodup := by decide
  rw [split] at distinct
  intro member
  exact (List.nodup_append.mp distinct).2.2 _ member _ List.mem_cons_self rfl

def Accepts (tokens : List Token) : Prop :=
  ∃ earlier word later us, alternatives = earlier ++ word :: later ∧ Strays earlier tokens us ∧
    (Begins word us ∨ Muddled word us)

theorem accepts_iff : Accepts tokens ↔ BeginsCommand tokens ∨ Derailed tokens := by
  constructor
  · rintro ⟨earlier, word, later, us, split, strays, begins | muddled⟩
    · by_cases kept : us = tokens
      · subst kept
        cases begins with
        | command command => exact Or.inl ⟨_, _, _, rfl, command⟩
      · exact Or.inr ⟨earlier, word, later, us, split, strays, Or.inl ⟨kept, begins⟩⟩
    · exact Or.inr ⟨earlier, word, later, us, split, strays, Or.inr muddled⟩
  · rintro (⟨command, rest, meaning, rfl, given⟩ | derailed)
    · obtain ⟨word, u, more, rfl, member⟩ := given.first
      obtain ⟨earlier, later, split⟩ := List.append_of_mem member
      exact ⟨earlier, word, later, _, split, strays_other (before_word split) _ _,
        Or.inl (.command given)⟩
    · obtain ⟨earlier, word, later, us, split, strays, accepts⟩ := derailed
      exact ⟨earlier, word, later, us, split, strays, accepts.imp_left And.right⟩

section Call
variable {σ : Type} [TokenSource σ] {p : Parser σ} {last : σ}

theorem call_of_accepts (delivers : Delivers (TokenSource.reset p.scanner) tokens last)
    (null : Bool) (accepts : Accepts tokens) :
    ∃ next, parserStart (some null) p = .ok (true, next) := by
  obtain ⟨earlier, word, later, us, split, strays, accepts⟩ := accepts
  have ended := strays.ended (members_of_split split).1 delivers.ended
  have runs : ∀ q r, ∃ q' r' vs,
      alternative word (standing q r us) = .ok (true, standing q' r' vs) ∧ vs ≠ [] := by
    intro q r
    rcases accepts with begins | muddled
    · exact begins_accepts q r begins ended
    · obtain ⟨q', r', vs, runs, remains, -⟩ := muddled_runs q r muddled ended
      exact ⟨q', r', vs, runs, remains⟩
  obtain ⟨parsed, r, vs, called, result, -⟩ := accepts_at null
    (Q := fun _ _ => True) delivers split strays fun q r _ => by
      obtain ⟨q', r', vs, runs, remains⟩ := runs q r
      exact ⟨q', r', vs, runs, remains, trivial⟩
  obtain ⟨next, finished, -⟩ := finish_total result
  exact ⟨next, called.trans finished⟩

theorem call_of_not_accepts (delivers : Delivers (TokenSource.reset p.scanner) tokens last)
    (null : Bool) (fails : ¬ Accepts tokens) :
    ∃ next, parserStart (some null) p = .ok (false, next) := by
  rcases first_decided (fun word member => member) delivers.ended with ⟨us, strays⟩ | accepts
  · obtain ⟨q, r, runs⟩ := strays_run strays (fun word member => member) delivers.ended []
      ((prepare (some null) p).replaying tokens) (newResult null)
    rw [List.append_nil] at runs
    obtain ⟨parsed, command, -⟩ := call_runs delivers runs
    obtain ⟨next, failed, -⟩ := parseError_total null parsed
    exact ⟨next, (ok_bind command).trans failed⟩
  · exact absurd accepts fails

/-- Every line comes to a verdict: it is accepted if it begins with a command or derails the
parser, and is a parse error otherwise. -/
theorem grammar_accepts_iff (null : Bool) (tokens : List Token) (p : Parser σ) (last : σ)
    (delivers : Delivers (TokenSource.reset p.scanner) tokens last) :
    ∃ accepted next, parserStart (some null) p = .ok (accepted, next) ∧
      (accepted = true ↔ BeginsCommand tokens ∨ Derailed tokens) := by
  by_cases accepts : Accepts tokens
  · obtain ⟨next, called⟩ := call_of_accepts delivers null accepts
    exact ⟨true, next, called, fun _ => accepts_iff.mp accepts, fun _ => rfl⟩
  · obtain ⟨next, called⟩ := call_of_not_accepts delivers null accepts
    exact ⟨false, next, called, nofun, fun begins => absurd (accepts_iff.mpr begins) accepts⟩

end Call

/-- The word is there, but no address. -/
theorem grammar_accepts_iff_half : ∃ tokens,
    tokens = [(.forward, .s "forward".toList), (.addr, .s "addr".toList), (.unknown, .s "addr".toList)] ∧
      ∃ accepted next, parserStart (some false) (counting "forward addr\n") = .ok (accepted, next) ∧
        (accepted = true ↔ BeginsCommand tokens ∨ Derailed tokens) := by
  have run : delivered 3 (TokenSource.reset (counting "forward addr\n").scanner) = some
      [(.forward, .s "forward".toList), (.addr, .s "addr".toList), (.unknown, .s "addr".toList)] := by
    decide +kernel
  obtain ⟨last, delivers⟩ := delivers_of_delivered run
  exact ⟨_, rfl, grammar_accepts_iff false _ _ last delivers⟩

end Freedcc.Grammar
