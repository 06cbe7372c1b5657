import Freedcc.GrammarCalls
import Freedcc.ParserResults

/-! `DSL_parser_start(NULL)` against the full parse. `DSL_parser.result` outlives
a call, and the code after the parse uses it whether or not one was asked for. -/
namespace Freedcc.Parser
open Dcc PartialProgram Grammar
variable {σ : Type} [TokenSource σ]

/-- Calls one after the other, whatever comes to the input between them. `held`
is whether the last call with a result object accepted, if there was one. -/
inductive Calls : Bool → Parser σ → Prop where
  | start (scanner : σ) : Calls false (fresh scanner)
  | input (scanner : σ) (calls : Calls held p) : Calls held { p with scanner }
  | full (calls : Calls held p) (returned : parserStart (some null) p = .ok (code, q)) :
      Calls code q
  | check (calls : Calls held p) (returned : parserStart none p = .ok (code, q)) : Calls held q

/-- With NULL the call returns what it would with a result object, without a
fault. Whatever an earlier call left, if it left something, is as it was, and
makes no difference. -/
def ChecksSyntax (null : Bool) (p : Parser σ) : Prop :=
  ∀ code next, parserStart (some null) p = .ok (code, next) →
    ∀ left, left.isSome = p.result.isSome →
      ∃ last, parserStart none { p with result := left } = .ok (code, last) ∧ last.result = left

/-- What `DSL_parse` makes of the tokens ahead, with nothing to store. -/
def judgement (p : Parser σ) : Option Bool :=
  match parseTokens { p with scanner := TokenSource.reset p.scanner, result := none } with
  | .ok (command, _) => some command
  | .error _ => none

/-- The same tokens ahead; the second parser has a result, or has none. -/
structure Level (held : Bool) (p q : Parser σ) : Prop where
  scanner : p.scanner = q.scanner
  curr : p.curr = q.curr
  held : q.result.isSome = held

omit [TokenSource σ] in
/-- An action that reads no token and neither makes nor destroys the result. -/
theorem level_action {held : Bool} {x : Parse σ Unit} (total : ∀ p : Parser σ,
    ∃ q, x p = .ok ((), q) ∧ q.scanner = p.scanner ∧ q.curr = p.curr ∧
      q.result.isSome = p.result.isSome) : Simulates (Level held) x x := by
  intro p q a p' level returned
  obtain ⟨_, made, scanner, curr, -⟩ := total p
  obtain ⟨q', made', scanner', curr', held'⟩ := total q
  cases made.symm.trans returned
  refine ⟨q', made', ?_, ?_, held'.trans level.held⟩
  · rw [scanner, scanner', level.scanner]
  · rw [curr, curr', level.curr]

theorem level_lockstep (held : Bool) : Lockstep (Level held : Parser σ → Parser σ → Prop) where
  curr _ _ level := level.curr
  token _ _ level := congrArg TokenSource.value level.scanner
  advances := by
    intro p q a p' level returned
    obtain ⟨curr, scanner, read, rfl⟩ := advance_ok.mp returned
    rw [level.scanner] at read
    exact ⟨_, advance_ok.mpr ⟨curr, scanner, read, rfl⟩, rfl, rfl, level.held⟩
  onPacket change := Simulates.modify fun p q level =>
    ⟨level.scanner, level.curr, Option.isSome_map.trans level.held⟩
  makePacket type packet := level_action (makePacket_total type packet)
  makeCmd cmd := Simulates.modify fun p q level =>
    ⟨level.scanner, level.curr, Option.isSome_map.trans level.held⟩

/-- Whatever is in the result, the parse goes the same way. -/
theorem parseTokens_level {held : Bool} :
    Simulates (Level held) (parseTokens : Parse σ Bool) parseTokens :=
  (level_lockstep held).parseTokens fun text => level_action (makeRaw_total text)

/-- What `judgement` says, any call finds. -/
theorem parseCommand_judged {p : Parser σ} (judged : judgement p = some command)
    (memory : Option Bool) (left : Option Result) :
    ∃ parsed, parseCommand memory { p with result := left } = .ok (command, parsed) ∧
      parsed.result.isSome = (memory.isSome || left.isSome) := by
  unfold judgement at judged
  split at judged
  · rename_i bare _ _ run
    cases judged
    have level : Level (memory.isSome || left.isSome)
        { p with scanner := TokenSource.reset p.scanner, result := none }
        (prepare memory { p with result := left }) := by
      refine ⟨rfl, rfl, ?_⟩
      cases memory <;> rfl
    obtain ⟨parsed, same, after⟩ := parseTokens_level _ _ command _ level run
    exact ⟨parsed, same, after.held⟩
  · cases judged

theorem judged_of_command {p : Parser σ} {memory : Option Bool}
    (run : parseCommand memory p = .ok (command, parsed)) : judgement p = some command := by
  have tokens : parseTokens (prepare memory p) = .ok (command, parsed) := run
  have level : Level false (prepare memory p)
      { p with scanner := TokenSource.reset p.scanner, result := none } := ⟨rfl, rfl, rfl⟩
  obtain ⟨bare, same, -⟩ := parseTokens_level _ _ command parsed level tokens
  rw [judgement, same]

/-- A call with another result object, or none, reads the same. -/
theorem parseCommand_reads {p : Parser σ} (run : parseCommand memory p = .ok (command, parsed))
    (other : Option Bool) :
    ∃ last, parseCommand other p = .ok (command, last) ∧ last.scanner = parsed.scanner := by
  have level : Level (prepare other p).result.isSome (prepare memory p) (prepare other p) :=
    ⟨rfl, rfl, rfl⟩
  obtain ⟨last, same, after⟩ := parseTokens_level _ _ command parsed level run
  exact ⟨last, same, after.scanner.symm⟩

section Checks
variable {p : Parser σ} (judged : judgement p = some command)
include judged

/-- What follows the parse goes through if a result was asked for, or if there is
one exactly when the tokens are a command: a command is finished off, and the
result of anything else is trashed. -/
theorem call_returns (memory : Option Bool) (left : Option Result)
    (matched : memory = none → left.isSome = command) :
    ∃ next, parserStart memory { p with result := left } = .ok (command, next) ∧
      next.result.isSome = command := by
  obtain ⟨parsed, run, held⟩ := parseCommand_judged judged memory left
  cases command with
  | true =>
    have present : parsed.result.isSome = true := by
      cases memory with
      | none => exact held.trans (matched rfl)
      | some null => exact held
    obtain ⟨r, result⟩ := Option.isSome_iff_exists.mp present
    obtain ⟨next, finished, -, kept⟩ := finish_total result
    exact ⟨next, (ok_bind run).trans finished, kept⟩
  | false =>
    have safe : (parsed.result.isSome && memory.isNone) = false := by
      cases memory with
      | none => exact (Bool.and_true _).trans (held.trans (matched rfl))
      | some null => exact Bool.and_false _
    obtain ⟨next, trashed, -, gone⟩ := parseError_returns memory parsed safe
    exact ⟨next, (ok_bind run).trans trashed, by rw [gone]; rfl⟩

theorem full_returns (null : Bool) :
    ∃ next, parserStart (some null) p = .ok (command, next) ∧ next.result.isSome = command :=
  call_returns judged (some null) p.result nofun

theorem check_returns (left : Option Result) (matched : left.isSome = command) :
    ∃ last, parserStart none { p with result := left } = .ok (command, last) ∧
      last.result.isSome = command :=
  call_returns judged none left fun _ => matched

/-- A command with nothing to finish off, or something to trash and no place to say so. -/
theorem check_faults (left : Option Result) (crossed : left.isSome = !command) :
    parserStart none { p with result := left } = .error .nullDereference := by
  obtain ⟨parsed, run, held⟩ := parseCommand_judged judged none left
  rw [Option.isSome_none, Bool.false_or, crossed] at held
  refine (ok_bind run).trans ?_
  cases command with
  | true =>
    have missing : parsed.result = none :=
      Option.isNone_iff_eq_none.mp (Option.isSome_eq_false_iff.mp held)
    change finishPacket parsed = _
    rw [finishPacket_eq, missing]
    rfl
  | false =>
    obtain ⟨r, result⟩ := Option.isSome_iff_exists.mp held
    change parseError none parsed = _
    rw [parseError, ok_bind (modify_ok.mpr rfl), ok_bind (get_ok.mpr ⟨rfl, rfl⟩), result]
    rfl

end Checks

/-- What is left in `DSL_parser` follows from the calls. -/
theorem Calls.present {held : Bool} {p : Parser σ} (calls : Calls held p) :
    p.result.isSome = held := by
  induction calls with
  | start scanner => rfl
  | input scanner calls ih => exact ih
  | @full held p null code q calls returned ih =>
    obtain ⟨command, parsed, run, -⟩ := bind_ok returned
    obtain ⟨next, returned', kept⟩ := full_returns (judged_of_command run) null
    rw [returned] at returned'
    cases returned'
    exact kept
  | @check held p code q calls returned ih =>
    obtain ⟨command, parsed, run, -⟩ := bind_ok returned
    have judged := judged_of_command run
    by_cases matched : p.result.isSome = command
    · obtain ⟨last, returned', kept⟩ := check_returns judged p.result matched
      cases returned.symm.trans returned'
      rw [kept, ← matched, ih]
    · cases returned.symm.trans (check_faults judged p.result (Bool.eq_not_of_ne matched))

/-- An accepted check stores what it was not asked for. -/
theorem check_stores {p : Parser σ} (accepted : parserStart none
    { p with result := some ⟨.undef, .garbage false⟩ } = .ok (true, last)) : Made last.result := by
  obtain ⟨command, parsed, run, later⟩ := bind_ok accepted
  cases command with
  | false =>
    have wrong := parseError_rejects none parsed true last trivial later
    contradiction
  | true =>
    have run' : parseCommand (some false) p = .ok (true, parsed) := run
    have full : parserStart (some false) p = .ok (true, last) := (ok_bind run').trans later
    exact parserStart_made (by simp) full

theorem checks_iff {held : Bool} {p : Parser σ} (calls : Calls held p) (null : Bool) :
    ChecksSyntax null p ↔
      ∀ command, judgement p = some command → held = false ∧ command = false := by
  constructor
  · intro checks command judged
    obtain ⟨next, full, -⟩ := full_returns judged null
    have matched : p.result.isSome = command := by
      by_contra other
      obtain ⟨last, check, -⟩ := checks command next full p.result rfl
      rw [check_faults judged p.result (Bool.eq_not_of_ne other)] at check
      cases check
    cases command with
    | true =>
      obtain ⟨last, check, same⟩ :=
        checks true next full (some ⟨.undef, .garbage false⟩) matched.symm
      have made := check_stores check
      rw [same] at made
      simp [Made] at made
    | false => exact ⟨calls.present.symm.trans matched, rfl⟩
  · intro fine code next full left held
    obtain ⟨command, parsed, run, -⟩ := bind_ok full
    have judged := judged_of_command run
    obtain ⟨rfl, rfl⟩ := fine command judged
    have absent : left.isSome = false := held.trans calls.present
    obtain ⟨next', full', -⟩ := full_returns judged null
    obtain ⟨last, check, kept⟩ := check_returns judged left absent
    rw [full'] at full
    cases full
    refine ⟨last, check, ?_⟩
    rw [Option.isNone_iff_eq_none.mp (Option.isSome_eq_false_iff.mp absent)]
    exact Option.isNone_iff_eq_none.mp (Option.isSome_eq_false_iff.mp kept)

/-- The verdict on a line is a matter of its tokens. -/
theorem judgement_strays {p : Parser σ} {last : σ}
    (delivers : Delivers (TokenSource.reset p.scanner) tokens last) :
    ∃ command, judgement p = some command ∧
      (command = false ↔ ∃ us, Strays alternatives tokens us) := by
  obtain ⟨command, q, r, us, runs, gaveUp⟩ := alternatives_total delivers.ended
    ((prepare (some false) p).replaying tokens) (newResult false)
  obtain ⟨parsed, real, -⟩ := call_runs delivers runs
  refine ⟨command, judged_of_command real, fun rejected => ⟨us, gaveUp rejected⟩, ?_⟩
  rintro ⟨vs, strays⟩
  obtain ⟨q', r', runs'⟩ := strays_run strays (fun word member => member) delivers.ended []
    ((prepare (some false) p).replaying tokens) (newResult false)
  rw [List.append_nil, runs] at runs'
  exact (pure_ok.mp runs'.symm).1.symm

/-- The call with NULL checks the syntax exactly if nothing is left of an earlier
call and the tokens are no command: all alternatives give up on them. -/
theorem syntax_check_iff {held : Bool} {p : Parser σ} (calls : Calls held p) (null : Bool) :
    (ChecksSyntax null p ↔
        ∀ command, judgement p = some command → held = false ∧ command = false) ∧
      ∀ tokens last, Delivers (TokenSource.reset p.scanner) tokens last →
        (ChecksSyntax null p ↔ held = false ∧ ∃ us, Strays alternatives tokens us) := by
  have checks := checks_iff calls null
  refine ⟨checks, fun tokens last delivers => ?_⟩
  obtain ⟨command, judged, rejects⟩ := judgement_strays delivers
  rw [checks, ← rejects]
  constructor
  · intro fine
    exact fine command judged
  · intro fine other judged'
    cases judged.symm.trans judged'
    exact fine

theorem syntax_check_iff_all : ChecksSyntax true (typed "all\n") := by
  have judged : judgement (typed "all\n") = some false := by decide +kernel
  apply (syntax_check_iff (.start _) true).1.mpr
  intro command found
  cases judged.symm.trans found
  exact ⟨rfl, rfl⟩

/-- The first call of all, with NULL and a good command. -/
theorem check_of_help_faults : Calls false (typed "help\n") ∧
    outcome (parserStart (some false) (typed "help\n")) =
      some (true, some ⟨.sys, .cmd ⟨.help, none⟩⟩) ∧
      parserStart none (typed "help\n") = .error .nullDereference ∧
        ¬ ChecksSyntax false (typed "help\n") := by
  have judged : judgement (typed "help\n") = some true := by decide +kernel
  have told : outcome (parserStart (some false) (typed "help\n")) =
      some (true, some ⟨.sys, .cmd ⟨.help, none⟩⟩) := by decide +kernel
  have faults := check_faults judged none rfl
  refine ⟨.start _, told, faults, fun checks => ?_⟩
  obtain ⟨next, full, -⟩ := full_returns judged false
  obtain ⟨last, check, -⟩ := checks true next full none rfl
  rw [faults] at check
  cases check

end Freedcc.Parser
