import Freedcc.GrammarCalls
import Freedcc.IoProofs
import Freedcc.ParserResults
import Freedcc.ScannerProgress

/-! The lines from the host one after the other: each has the outcome it has
alone, as long as nothing of an earlier line is left that can be read as one,
and nothing of a later line is lost in a flush. -/
namespace Freedcc.Station
open PartialProgram Freedcc.Parser Io Reader

def alone (line : TypedLine) : Parser (Scanner CharStream) :=
  Parser.fresh (Scanner.fresh id (CharStream.ofText line.content))

/-- What `DSL_parser_start` gives on a line alone. -/
def Gives (line : TypedLine) (outcome : Outcome) : Prop :=
  ∃ null after, answer null (alone line) = .ok (some outcome, after)

/-- The lines taken from the wire have had their outcomes, in order, and nothing
else has been answered. -/
def Isolated (lines : List TypedLine) (station : Station) (log : List Outcome) : Prop :=
  ∃ taken rest, lines = taken ++ rest ∧
    station.scanner.stdin.wire = rest.flatMap (·.received) ∧
    List.Forall₂ Gives (taken.filter (¬ ·.Blank)) log

def nextLine (io : Io) : List Char := (io.wire.map (Io.translate ·.c)).takeWhile (· ≠ '\n')

/-- What `IO_read` needs to find when a byte is waiting. -/
structure Ready (null : Bool) (station : Station) : Prop where
  /-- Only blanks and newlines are left of the lines before. -/
  left : ∀ c ∈ station.scanner.stdin.left, c = ' ' ∨ c = '\n'
  /-- No new line begins with a blank, unless it is blank. -/
  lead : station.scanner.stdin.left = [] → (nextLine station.scanner.stdin).head? = some ' ' →
    ∀ c ∈ nextLine station.scanner.stdin, c = ' '
  /-- `IO_flush` is called only when no byte is waiting. -/
  flush : ∀ called rejected, opening station = .ok (true, called) →
    parseCommand (some null) called = .ok (false, rejected) → rejected.scanner.stdin.arrived = 0
  /-- The action of `raw` does not find a null pointer. -/
  raw : ∀ called last, opening station = .ok (true, called) → null = true →
    (do advance; reachRaw) (prepare (some null) called) ≠ .ok (true, last)

def Orderly (station : Station) : Op → Prop
  | .receive => True
  | .read null => 0 < station.scanner.stdin.arrived → Ready null station

/-! The outcome of one line. -/

section Answer
variable {σ : Type} [TokenSource σ] {null : Bool} {p parsed next : Parser σ}

theorem answer_accepted (command : parseCommand (some null) p = .ok (true, parsed))
    (finished : finishPacket parsed = .ok (true, next)) :
    answer null p = .ok (next.result.bind Result.outcome, next) := by
  have started : parserStart (some null) p = .ok (true, next) := (ok_bind command).trans finished
  rw [answer, ok_bind started]
  rfl

theorem answer_rejected (command : parseCommand (some null) p = .ok (false, parsed)) :
    ∃ next, answer null p = .ok (some .parseError, next) ∧
      next.scanner = TokenSource.flush parsed.scanner := by
  obtain ⟨next, failed, scanner, -⟩ := Grammar.parseError_total null parsed
  have started : parserStart (some null) p = .ok (false, next) := (ok_bind command).trans failed
  refine ⟨next, ?_, scanner⟩
  rw [answer, ok_bind started]
  rfl

theorem outcome_renumber (k : Nat) (r : Option Result) :
    (r.map (·.renumber k)).bind Result.outcome = r.bind Result.outcome := by
  cases r with
  | none => rfl
  | some r =>
    obtain ⟨type, payload⟩ := r
    cases type <;> cases payload <;> rfl

theorem outcome_made {r : Option Result} (made : Made r) :
    ∃ outcome, r.bind Result.outcome = some outcome := by
  rcases made with ⟨ref, rfl⟩ | ⟨ref, rfl⟩ | ⟨cmd, rfl⟩ <;> exact ⟨_, rfl⟩

end Answer

section Line
variable {line : TypedLine} {null : Bool} {called : Station}

theorem alone_total (line : TypedLine) (null : Bool) : ∃ accepted parsed r,
    parseCommand (some null) (alone line) = .ok (accepted, parsed) ∧ parsed.result = some r := by
  have closed : Scanner.Closed line.content := ⟨_, line.content_eq⟩
  have holds : (TokenSource.reset (alone line).scanner).stdin.contents =
      line.content.map some ++ [] := (List.append_nil _).symm
  obtain ⟨tokens, last, delivers⟩ := closed.delivers holds
  exact Grammar.command_total delivers null

/-- A line that has just been fetched is answered as it would be alone, and the
lines after it stay on the wire. -/
theorem line_answered (left : called.scanner.stdin.left = line.content)
    (flush : ∀ rejected, parseCommand (some null) called = .ok (false, rejected) →
      rejected.scanner.stdin.arrived = 0)
    (raw : null = true →
      ¬ ∃ last, (do advance; reachRaw) (prepare (some null) called) = .ok (true, last))
    (device : called.scanner.flush = Io.flush) :
    ∃ outcome next, answer null called = .ok (some outcome, next) ∧ Gives line outcome ∧
      next.scanner.stdin.wire = called.scanner.stdin.wire ∧
      next.scanner.stdin.arrived ≤ called.scanner.stdin.arrived ∧
      next.scanner.flush = Io.flush := by
  obtain ⟨accepted, parsed, r, command, result⟩ := alone_total line null
  have mirrors : Mirrors called.scanner.stdin.wire called.scanner.stdin.arrived
      (alone line).scanner.stdin called.scanner.stdin := by
    refine ⟨?_, rfl, rfl⟩
    rw [left]
    rfl
  obtain ⟨parsed', command', along⟩ := command_streams (feeds _ _) null rfl mirrors command
  cases accepted with
  | true =>
    obtain ⟨next, finished, -⟩ := Grammar.finish_total result
    obtain ⟨next', finished', after⟩ := finishPacket_simulates parsed parsed' true next along finished
    have made := parserStart_made raw ((ok_bind command').trans finished')
    obtain ⟨outcome, told⟩ := outcome_made made
    refine ⟨outcome, next', ?_, ⟨null, next, ?_⟩, after.scanner.stdin.2.1,
      Nat.le_of_eq after.scanner.stdin.2.2, after.scanner.flush.trans device⟩
    · rw [answer_accepted command' finished', told]
    · rw [after.result, outcome_renumber] at told
      rw [answer_accepted command finished, told]
  | false =>
    obtain ⟨next, failed, -⟩ := answer_rejected command
    obtain ⟨next', failed', scanner⟩ := answer_rejected command'
    have flushed : next'.scanner = { parsed'.scanner with stdin := parsed'.scanner.stdin.flush } := by
      rw [scanner]
      change { parsed'.scanner with stdin := parsed'.scanner.flush parsed'.scanner.stdin } = _
      rw [along.scanner.flush, device]
    refine ⟨.parseError, next', failed', ⟨null, next, failed⟩, ?_, ?_, ?_⟩
    · rw [flushed]
      change parsed'.scanner.stdin.wire.drop parsed'.scanner.stdin.arrived = _
      rw [flush parsed' command', List.drop_zero]
      exact along.scanner.stdin.2.1
    · rw [flushed]
      exact Nat.zero_le _
    · rw [flushed]
      exact along.scanner.flush.trans device

end Line

/-! One call of `IO_read`. -/

section Read
variable {station : Station} (waiting : 0 < station.scanner.stdin.arrived)
include waiting

theorem ioRead_blank (null : Bool) (opened : opening station = .ok (false, next)) :
    ioRead null station = .ok (none, next) := by
  rw [ioRead, ok_bind (get_ok.mpr ⟨rfl, rfl⟩), if_pos waiting, ok_bind opened]
  rfl

theorem ioRead_answers {null : Bool} (opened : opening station = .ok (true, called))
    (answered : answer null called = .ok (told, next)) :
    ioRead null station = .ok (told, next) := by
  rw [ioRead, ok_bind (get_ok.mpr ⟨rfl, rfl⟩), if_pos waiting, ok_bind opened]
  exact answered

end Read

theorem nextLine_received {io : Io} (line : TypedLine) (holds : io.wire = line.received ++ rest) :
    nextLine io = line.text.map Io.translate := by
  have chars : io.wire.map (Io.translate ·.c) =
      line.text.map Io.translate ++ '\n' :: rest.map (Io.translate ·.c) := by
    simp [holds, SentLine.received, line.ended]
  rw [nextLine, chars, List.takeWhile_append_of_pos (by simpa using line.single)]
  simp

/-- A line that is passed over is blank. -/
theorem blank_of_lead {line : TypedLine} (content : line.content = c :: more)
    (blank : c = ' ' ∨ c = '\n') (lead : (line.text.map Io.translate).head? = some ' ' →
      ∀ c ∈ line.text.map Io.translate, c = ' ') : line.Blank := by
  intro d member
  rw [line.content_eq] at content member
  rcases List.mem_append.mp member with inner | last
  · left
    apply lead ?_ d inner
    cases text : line.text with
    | nil =>
      rw [text] at inner
      contradiction
    | cons e others =>
      rw [text, List.map_cons, List.cons_append, List.cons.injEq] at content
      have apart : Io.translate e ≠ '\n' := line.single e (text ▸ List.mem_cons_self)
      rcases blank with rfl | rfl
      · rw [List.map_cons, List.head?_cons, content.1]
      · exact absurd content.1 apart
  · exact Or.inr (List.mem_singleton.mp last)

/-- What the calls of `IO_read` keep. -/
structure Settled (lines : List TypedLine) (station : Station) (log : List Outcome) : Prop where
  isolated : Isolated lines station log
  arrived : station.scanner.stdin.arrived ≤ station.scanner.stdin.wire.length
  flush : station.scanner.flush = Io.flush

/-- A line is taken from the wire, or a character of what was left. -/
def Progress (before after : Io) : Prop :=
  after.wire.length < before.wire.length ∨
    after.wire = before.wire ∧ after.left.length < before.left.length

theorem Isolated.same {lines : List TypedLine} {station next : Station}
    (isolated : Isolated lines station log)
    (wire : next.scanner.stdin.wire = station.scanner.stdin.wire) : Isolated lines next log := by
  obtain ⟨taken, rest, split, holds, given⟩ := isolated
  exact ⟨taken, rest, split, wire.trans holds, given⟩

/-- A call passes over what is left of an earlier line. -/
theorem left_settled {lines : List TypedLine} {station : Station} (null : Bool)
    (settled : Settled lines station log) (waiting : 0 < station.scanner.stdin.arrived)
    (held : station.scanner.stdin.left = c :: more) (blank : c = ' ' ∨ c = '\n') :
    ∃ told next, ioRead null station = .ok (told, next) ∧
      Settled lines next (log ++ told.toList) ∧
      Progress station.scanner.stdin next.scanner.stdin := by
  obtain ⟨isolated, bound, flush⟩ := settled
  obtain ⟨io, got, -, left, wire, arrived⟩ := getchar_left held
  refine ⟨none, _, ioRead_blank waiting null (opening_blank got blank), ⟨?_, ?_, flush⟩, ?_⟩
  · rw [Option.toList_none, List.append_nil]
    exact isolated.same wire
  · change io.arrived ≤ io.wire.length
    rw [wire, arrived]
    exact bound
  · refine Or.inr ⟨wire, ?_⟩
    change io.left.length < _
    rw [left, held]
    exact Nat.lt_succ_self _

/-- A call that finds nothing left takes the next line. -/
theorem line_settled {lines : List TypedLine} {station : Station} {null : Bool}
    (settled : Settled lines station log) (waiting : 0 < station.scanner.stdin.arrived)
    (ready : Ready null station) (held : station.scanner.stdin.left = []) :
    ∃ told next, ioRead null station = .ok (told, next) ∧
      Settled lines next (log ++ told.toList) ∧
      Progress station.scanner.stdin next.scanner.stdin := by
  obtain ⟨⟨taken, rest, split, holds, given⟩, bound, flush⟩ := settled
  cases rest with
  | nil =>
    rw [holds] at bound
    exact absurd (Nat.lt_of_lt_of_le waiting bound) (Nat.lt_irrefl 0)
  | cons line rest =>
    rw [List.flatMap_cons] at holds
    obtain ⟨c, more, io, content, got, read, left, wire, arrived⟩ := getchar_line held line holds
    have taken_line : lines = (taken ++ [line]) ++ rest := by
      rw [split, List.append_assoc]
      rfl
    have shorter : io.wire.length < station.scanner.stdin.wire.length := by
      rw [wire, holds, List.length_append, line.received_length, content, List.length_cons]
      omega
    have fewer : io.arrived ≤ io.wire.length := by
      rw [holds, List.length_append, line.received_length] at bound
      rw [arrived, wire]
      omega
    by_cases blank : c = ' ' ∨ c = '\n'
    · have lead := ready.lead held
      rw [nextLine_received line holds] at lead
      have empty : line.Blank := blank_of_lead content blank lead
      refine ⟨none, _, ioRead_blank waiting null (opening_blank got blank),
        ⟨⟨taken ++ [line], rest, taken_line, wire, ?_⟩, fewer, flush⟩, Or.inl shorter⟩
      simpa [List.filter_append, empty] using given
    · have back : Stdin.ungetc c io = { io with unget := some c } := by
        change io.ungetc c = _
        rw [Io.ungetc, read]
      have opened : opening station = .ok (true, moved station { io with unget := some c }) :=
        back ▸ opening_solid got blank
      have solid : ¬ line.Blank := by
        intro empty
        exact blank (empty c (content ▸ List.mem_cons_self))
      have fetched : (moved station { io with unget := some c }).scanner.stdin.left =
          line.content := by
        have ring : io.rxRing.contents = more := by
          rw [← left, Io.left, read]
          rfl
        rw [content, ← ring]
        rfl
      obtain ⟨told, next, answered, gives, same, arrived', device⟩ := line_answered fetched
        (fun rejected => ready.flush _ rejected opened)
        (fun spoilt reach => Exists.elim reach fun last reached =>
          ready.raw _ last opened spoilt reached) flush
      refine ⟨some told, next, ioRead_answers waiting opened answered,
        ⟨⟨taken ++ [line], rest, taken_line, same.trans wire, ?_⟩, ?_, device⟩, Or.inl ?_⟩
      · rw [List.filter_append]
        apply List.rel_append given
        simp only [List.filter_cons, solid, not_false_eq_true, decide_true, if_true,
          List.filter_nil, Option.toList_some]
        exact .cons gives .nil
      · rw [same]
        exact Nat.le_trans arrived' fewer
      · rw [same]
        exact shorter

/-- A call that finds a byte waiting, in a state it is made for. -/
theorem read_settled {lines : List TypedLine} {station : Station} {null : Bool}
    (settled : Settled lines station log) (waiting : 0 < station.scanner.stdin.arrived)
    (ready : Ready null station) :
    ∃ told next, ioRead null station = .ok (told, next) ∧
      Settled lines next (log ++ told.toList) ∧
      Progress station.scanner.stdin next.scanner.stdin := by
  cases held : station.scanner.stdin.left with
  | cons c more =>
    have blank := ready.left c (held ▸ List.mem_cons_self)
    exact left_settled null settled waiting held blank
  | nil => exact line_settled settled waiting ready held

theorem step_settled {lines : List TypedLine} {station : Station} {op : Op}
    (orderly : Orderly station op) (settled : Settled lines station log) :
    Settled lines (step station op).1 (log ++ (step station op).2) := by
  cases op with
  | receive =>
    refine ⟨?_, Nat.min_le_right _ _, settled.flush⟩
    rw [step, List.append_nil]
    exact settled.isolated.same rfl
  | read null =>
    by_cases waiting : 0 < station.scanner.stdin.arrived
    · obtain ⟨told, next, read, after, -⟩ := read_settled settled waiting (orderly waiting)
      simp only [step, read]
      exact after
    · have read : ioRead null station = .ok (none, station) := by
        rw [ioRead, ok_bind (get_ok.mpr ⟨rfl, rfl⟩), if_neg waiting]
        rfl
      simp only [step, read, Option.toList_none, List.append_nil]
      exact settled

abbrev before (buf : Vector Char 50) (lines : List TypedLine) : Station :=
  start buf (lines.flatMap (·.received))

theorem before_settled (buf : Vector Char 50) (lines : List TypedLine) :
    Settled lines (before buf lines) [] :=
  ⟨⟨[], lines, rfl, rfl, .nil⟩, Nat.zero_le _, rfl⟩

theorem Isolated.complete {lines : List TypedLine} {station : Station}
    (isolated : Isolated lines station log) (drained : station.scanner.stdin.wire = []) :
    List.Forall₂ Gives (lines.filter (¬ ·.Blank)) log := by
  obtain ⟨taken, rest, rfl, holds, given⟩ := isolated
  cases rest with
  | nil =>
    rw [List.append_nil]
    exact given
  | cons line rest =>
    rw [drained, List.flatMap_cons] at holds
    have none := (List.append_eq_nil_iff.mp holds.symm).1
    simp [SentLine.received] at none

/-- Every run whose calls of `IO_read` find what they need keeps the lines apart:
those taken from the wire have had their own outcomes in order, all of them once
the wire is empty, and a call that finds a byte waiting brings that nearer. -/
theorem lines_isolated (buf : Vector Char 50) (lines : List TypedLine) (ops : List Op)
    (orderly : Run.Along step Orderly (before buf lines) ops) :
    Isolated lines (Run.final step (before buf lines) ops) (Run.log step (before buf lines) ops) ∧
      ((Run.final step (before buf lines) ops).scanner.stdin.wire = [] →
        List.Forall₂ Gives (lines.filter (¬ ·.Blank)) (Run.log step (before buf lines) ops)) ∧
      ∀ null, 0 < (Run.final step (before buf lines) ops).scanner.stdin.arrived →
        Ready null (Run.final step (before buf lines) ops) →
        Progress (Run.final step (before buf lines) ops).scanner.stdin
          (step (Run.final step (before buf lines) ops) (.read null)).1.scanner.stdin := by
  have settled : Settled lines (Run.final step (before buf lines) ops)
      ([] ++ Run.log step (before buf lines) ops) :=
    orderly.keeps (fun _ _ _ orderly settled => step_settled orderly settled)
      (before_settled buf lines)
  rw [List.nil_append] at settled
  refine ⟨settled.isolated, settled.isolated.complete, fun null waiting ready => ?_⟩
  obtain ⟨told, next, read, -, progress⟩ := read_settled settled waiting ready
  simp only [step, read]
  exact progress

def typedLine (text : String)
    (single : text.toList.all (fun c => Io.translate c != '\n') = true := by decide)
    (fits : text.toList.length < ringSize := by decide) : TypedLine where
  text := text.toList
  newline := '\r'
  single c member := bne_iff_ne.mp (List.all_eq_true.mp single c member)
  ended := rfl
  fits := fits

def arrivals (count : Nat) : List Op := List.replicate count .receive

theorem arrivals_orderly (station : Station) (count : Nat) :
    Run.Along step Orderly station (arrivals count) := by
  induction count generalizing station with
  | zero => trivial
  | succ count ih => exact ⟨trivial, ih _⟩

def stopTyped : Station := Run.final step (before (.replicate 50 ' ') [typedLine "stop"]) (arrivals 5)

theorem stopTyped_ready : Ready false stopTyped := by
  have accepted : outcome ((do
      if ← opening then parseCommand (some false) else return true) stopTyped) =
        some (true, some ⟨.dcc, .packet ⟨0, (Dcc.frame 0 true 0x10).packet⟩⟩) := by decide +kernel
  have fetched : stopTyped.scanner.stdin.left = [] ∧
      nextLine stopTyped.scanner.stdin = "stop".toList := by decide
  constructor
  · rw [fetched.1]
    simp
  · rw [fetched.2]
    simp
  · intro called rejected opened verdict
    rw [ok_bind opened, if_pos rfl, verdict] at accepted
    simp [outcome] at accepted
  · simp

theorem lines_isolated_stop : List.Forall₂ Gives [typedLine "stop"]
    (Run.log step (before (.replicate 50 ' ') [typedLine "stop"]) (arrivals 5 ++ [.read false])) := by
  have orderly : Run.Along step Orderly (before (.replicate 50 ' ') [typedLine "stop"])
      (arrivals 5 ++ [.read false]) :=
    Run.along_append.mpr ⟨arrivals_orderly _ 5, fun _ => stopTyped_ready, trivial⟩
  obtain ⟨-, complete, -⟩ := lines_isolated (.replicate 50 ' ') [typedLine "stop"] _ orderly
  exact complete (by decide +kernel)

/-- What stands after an accepted command is executed as a line of its own. -/
theorem leftover_executed : ¬ Isolated [typedLine "stop x help", typedLine ""]
    (Run.final step (before (.replicate 50 ' ') [typedLine "stop x help", typedLine ""])
      (arrivals 12 ++ [.read false] ++ arrivals 1 ++ [.read false, .read false]))
    (Run.log step (before (.replicate 50 ' ') [typedLine "stop x help", typedLine ""])
      (arrivals 12 ++ [.read false] ++ arrivals 1 ++ [.read false, .read false])) := by
  rintro ⟨taken, rest, split, -, given⟩
  have answers : (Run.log step (before (.replicate 50 ' ') [typedLine "stop x help", typedLine ""])
      (arrivals 12 ++ [.read false] ++ arrivals 1 ++ [.read false, .read false])).length = 2 := by
    decide +kernel
  have lines : ([typedLine "stop x help", typedLine ""].filter (¬ ·.Blank)).length = 1 := by
    decide
  rw [split, List.filter_append, List.length_append] at lines
  have same := given.length_eq
  rw [answers] at same
  omega

end Freedcc.Station
