import Freedcc.StationSteps
import Freedcc.StreamReplay

/-! The program without its output: what is printed, the counters, the LED and the
modulator have no say in what is done with the packets. -/
namespace Freedcc
open PartialProgram Scanner Freedcc.Parser Reader

namespace Scanner
variable {δ ε : Type}

/-- Two scanners at one point of streams that hand over the same characters, each with
its own way to flush. -/
def Twins (R : δ → ε → Prop) (flush : δ → δ) (flush' : ε → ε) (s : Scanner δ) (t : Scanner ε) :
    Prop :=
  Beside R Eq flush' s t ∧ Beside (flip R) Eq flush t s

variable {R : δ → ε → Prop} {flush : δ → δ} {flush' : ε → ε} {s : Scanner δ} {t : Scanner ε}

theorem Twins.swap (twins : Twins R flush flush' s t) : Twins (flip R) flush' flush t s :=
  ⟨twins.2, twins.1⟩

/-- The streams go on alike. -/
theorem Twins.stdin (twins : Twins R flush flush' s t) {stdin : δ} {stdin' : ε}
    (related : R stdin stdin') :
    Twins R flush flush' { s with stdin } { t with stdin := stdin' } :=
  ⟨⟨related, twins.1.value, twins.1.seenEnd, twins.1.flush⟩,
    ⟨related, twins.2.value, twins.2.seenEnd, twins.2.flush⟩⟩

end Scanner

namespace Desk
variable {δ ε : Type} [Stdin δ] [Stdin ε] {R F : δ → ε → Prop} {flush : δ → δ} {flush' : ε → ε}

/-- Two parsers that have made the same of the same characters. -/
def Twins (R : δ → ε → Prop) (flush : δ → δ) (flush' : ε → ε) :
    Parser (Scanner δ) → Parser (Scanner ε) → Prop :=
  Alongside (Scanner.Twins R flush flush') 0

theorem twins_follow (there : Feeds R R) (back : Feeds (flip R) (flip R)) :
    Follows (Scanner.Twins R flush flush') := by
  constructor
  · exact (follows_beside there).next.both (follows_beside back).next
  · exact fun s t twins => twins.1.value

omit [Stdin δ] [Stdin ε] in
theorem Twins.swap {p : Parser (Scanner δ)} {q : Parser (Scanner ε)}
    (twins : Twins R flush flush' p q) : Twins (flip R) flush' flush q p := by
  obtain ⟨scanner, curr, result, created⟩ := twins
  have same : q.result = p.result := by
    rw [result]
    cases p.result with
    | none => rfl
    | some r => exact congrArg some r.renumber_zero
  refine ⟨scanner.swap, curr.symm, ?_, created.symm⟩
  rw [← same]
  cases q.result with
  | none => rfl
  | some r => exact congrArg some r.renumber_zero.symm

omit [Stdin δ] [Stdin ε] in
theorem Twins.same_result {p : Parser (Scanner δ)} {q : Parser (Scanner ε)}
    (twins : Twins R flush flush' p q) : p.result = q.result := by
  rw [twins.result]
  cases p.result with
  | none => rfl
  | some r => exact congrArg some r.renumber_zero.symm

section Simulation
variable (there : Feeds R R) (back : Feeds (flip R) (flip R))
  (flushes : ∀ s t, R s t → R (flush s) (flush' t))
include there back

theorem getchar_twins : Simulates (Twins R flush flush')
    (getchar : Parse (Scanner δ) (Option Char)) getchar := by
  intro p q c p' twins returned
  cases read : Scanner.getchar p.scanner with
  | error fault => simp [Reader.getchar, read, bind, Except.bind] at returned
  | ok pair =>
    simp only [Reader.getchar, read, bind, Except.bind, pure, Except.pure, Except.ok.injEq,
      Prod.mk.injEq] at returned
    obtain ⟨rfl, rfl⟩ := returned
    obtain ⟨scanner, same, after⟩ := ((getchar_simulates there).both (getchar_simulates back))
      p.scanner q.scanner pair.1 pair.2 twins.scanner read
    refine ⟨{ q with scanner }, ?_, after, twins.curr, twins.result, twins.created⟩
    simp [Reader.getchar, same, bind, Except.bind, pure, Except.pure]

theorem ungetc_twins (c : Option Char) : Simulates (Twins R flush flush')
    (ungetc c : Parse (Scanner δ) Unit) (ungetc c) := by
  intro p q a p' twins returned
  obtain ⟨scanner, same, after⟩ := ((ungetc_simulates there c).both (ungetc_simulates back c))
    p.scanner q.scanner () _ twins.scanner rfl
  obtain rfl := (Prod.mk.inj (Except.ok.inj returned)).2
  refine ⟨{ q with scanner }, ?_, after, twins.curr, twins.result, twins.created⟩
  simp [Reader.ungetc, same, bind, Except.bind, pure, Except.pure]

theorem opening_twins : Simulates (Twins R flush flush') (opening : Parse (Scanner δ) Bool)
    opening := by
  apply Simulates.bind (getchar_twins there back)
  intro c
  apply Simulates.ite
  · exact fun _ => (ungetc_twins there back c).bind fun _ => .done _
  · exact fun _ => .done _

theorem parseCommand_twins (null : Bool) : Simulates (Twins R flush flush')
    (parseCommand (some null) : Parse (Scanner δ) Bool) (parseCommand (some null)) := by
  refine Simulates.bind (Q := fun _ => Twins R flush flush') (Simulates.modify ?_) fun _ =>
    parseTokens_simulates (twins_follow there back)
  intro p q twins
  refine ⟨⟨?_, ?_⟩, twins.curr, rfl, twins.created⟩
  · exact ⟨twins.scanner.1.stdin, twins.scanner.1.value, rfl, twins.scanner.1.flush⟩
  · exact ⟨twins.scanner.2.stdin, twins.scanner.2.value, rfl, twins.scanner.2.flush⟩

include flushes

omit there back in
theorem parseError_twins (null : Bool) : Simulates (Twins R flush flush')
    (parseError (some null) : Parse (Scanner δ) Bool) (parseError (some null)) := by
  refine Simulates.bind (Q := fun _ => Twins R flush flush') (Simulates.modify ?_) fun _ => ?_
  · intro p q twins
    have cleared : Scanner.Twins R flush flush' (TokenSource.flush p.scanner)
        (TokenSource.flush q.scanner) := by
      apply twins.scanner.stdin
      rw [twins.scanner.1.flush, twins.scanner.2.flush]
      exact flushes _ _ twins.scanner.1.stdin
    exact ⟨cleared, twins.curr, twins.result, twins.created⟩
  · refine Simulates.get fun p q twins => ?_
    rw [Option.isNone_some, Bool.and_false, Bool.and_false]
    refine Simulates.bind (Q := fun _ => Twins R flush flush') (Simulates.modify ?_) fun _ =>
      .done _
    rintro p' q' ⟨rfl, rfl⟩
    have trashed {σ : Type} (p : Parser σ) : (trash p).scanner = p.scanner ∧
        (trash p).curr = p.curr ∧ (trash p).result = none ∧ (trash p).created = p.created := by
      unfold trash
      split <;> exact ⟨rfl, rfl, rfl, rfl⟩
    obtain ⟨scanner, curr, result, created⟩ := trashed p'
    obtain ⟨scanner', curr', result', created'⟩ := trashed q'
    exact ⟨by rw [scanner, scanner']; exact twins.scanner, by rw [curr, curr']; exact twins.curr,
      by rw [result, result']; rfl, by rw [created, created']; exact twins.created⟩

theorem answering_twins (null : Bool) : Simulates (Twins R flush flush')
    (answering null : Parse (Scanner δ) Reading) (answering null) := by
  have start : Simulates (Twins R flush flush') (parserStart (some null) : Parse (Scanner δ) Bool)
      (parserStart (some null)) :=
    (parseCommand_twins there back null).cond finishPacket_simulates (parseError_twins flushes null)
  refine (opening_twins there back).cond (start.cond (Simulates.get fun p q twins => ?_)
    (.done _)) (.done _)
  rw [twins.same_result]
  apply Simulates.pure
  rintro p' q' ⟨rfl, rfl⟩
  exact twins

end Simulation
end Desk

namespace Terminal

def Hides (t : Terminal) (io : Io) : Prop := t.io = io

theorem feeds_io : Feeds Hides Hides := by
  constructor
  · exact fun _ _ hides => hides
  · rintro t _ c t' rfl read
    have read' : t.getchar = .ok (c, t') := read
    have same := getchar_io t
    rw [read'] at same
    exact ⟨t'.io, same.symm, rfl⟩
  · rintro c t _ rfl
    rfl
  · rintro t _ rfl
    exact covers_of_le (Nat.le_refl _) _

theorem io_feeds : Feeds (flip Hides) (flip Hides) := by
  constructor
  · exact fun _ _ hides => hides
  · rintro _ t c io' rfl read
    have read' : t.io.getchar = .ok (c, io') := read
    rw [← getchar_io] at read'
    cases got : t.getchar with
    | error fault =>
      rw [got] at read'
      cases read'
    | ok pair =>
      rw [got] at read'
      cases read'
      exact ⟨pair.2, got, rfl⟩
  · rintro c _ t rfl
    rfl
  · rintro _ t rfl
    exact covers_of_le (Nat.le_refl _) _

theorem flush_hides (t : Terminal) (io : Io) (hides : Hides t io) : Hides t.flush io.flush :=
  congrArg Io.flush hides

end Terminal

namespace Desk

/-- What is told of a call when nothing is printed. -/
def Reading.outcome : Reading → Option Outcome
  | .nothing => none
  | .blank => none
  | .accepted result => result.bind Result.outcome
  | .rejected => some .parseError

/-- The same parser on the device alone. -/
abbrev Hides : Desk → Station → Prop := Twins Terminal.Hides Terminal.flush Io.flush

theorem hides_start (buf : Vector Char 50) (wire : List Rx) :
    Hides { start buf wire with created := 1 } { Station.start buf wire with created := 1 } :=
  ⟨⟨⟨rfl, rfl, rfl, rfl⟩, rfl, rfl, rfl, rfl⟩, rfl, rfl, rfl⟩

variable {desk next : Desk} {station : Station} {null : Bool}

theorem Hides.stdin (hides : Hides desk station) {stdin : Terminal} {io : Io}
    (same : stdin.io = io) :
    Hides { desk with scanner := { desk.scanner with stdin } }
      { station with scanner := { station.scanner with stdin := io } } :=
  ⟨hides.scanner.stdin same, hides.curr, hides.result, hides.created⟩

theorem Hides.arrived (hides : Hides desk station) :
    desk.scanner.stdin.io = station.scanner.stdin := hides.scanner.1.stdin

/-- `IO_read` of the loop without output, up to the answer. -/
theorem ioRead_answering (waiting : 0 < station.scanner.stdin.arrived) :
    Station.ioRead null station = (answering null station).map
      fun (reading, station) => (reading.outcome, station) := by
  rw [Station.ioRead, ok_bind (get_ok.mpr ⟨rfl, rfl⟩), if_pos waiting, answering]
  cases opened : (opening : Parse (Scanner Io) Bool) station with
  | error fault => simp [bind, StateT.bind, opened, Except.bind, Except.map]
  | ok pair =>
    obtain ⟨begun, called⟩ := pair
    rw [ok_bind opened, ok_bind opened]
    cases begun with
    | false => rfl
    | true =>
      simp only [if_true, Station.answer]
      cases started : parserStart (some null) called with
      | error fault => simp [bind, StateT.bind, started, Except.bind, Except.map]
      | ok pair =>
        obtain ⟨accepted, parsed⟩ := pair
        rw [ok_bind started, ok_bind started]
        cases accepted with
        | false => rfl
        | true => rfl

/-- An accepted result is what the parser has accepted. -/
theorem read_accepted {result : Option Result}
    (read : Desk.read null desk = .ok (.accepted result, next)) :
    ∃ called : Desk, parserStart (some null) called = .ok (true, next) ∧ next.result = result := by
  by_cases waiting : 0 < desk.scanner.stdin.io.arrived
  · rw [read_waiting waiting] at read
    cases answering_ok.mp read with
    | accepted opened parsed => exact ⟨_, parsed, rfl⟩
  · rw [read_idle waiting] at read
    cases read

theorem Hides.read (hides : Hides desk station) (read : Desk.read null desk = .ok (reading, next)) :
    ∃ station', Station.ioRead null station = .ok (reading.outcome, station') ∧
      Hides next station' := by
  by_cases waiting : 0 < desk.scanner.stdin.io.arrived
  · rw [read_waiting waiting] at read
    obtain ⟨station', same, after⟩ := answering_twins Terminal.feeds_io Terminal.io_feeds
      Terminal.flush_hides null _ _ _ _ hides read
    rw [hides.arrived] at waiting
    refine ⟨station', ?_, after⟩
    rw [ioRead_answering waiting, same]
    rfl
  · rw [read_idle waiting] at read
    cases read
    rw [hides.arrived] at waiting
    refine ⟨station, ?_, hides⟩
    rw [Station.ioRead, ok_bind (get_ok.mpr ⟨rfl, rfl⟩), if_neg waiting]
    rfl

/-- One call does not return if the other does not. -/
theorem Hides.stuck (hides : Hides desk station) (stuck : Desk.read null desk = .error fault) :
    ∃ fault', Station.ioRead null station = .error fault' := by
  by_cases waiting : 0 < desk.scanner.stdin.io.arrived
  · rw [read_waiting waiting] at stuck
    rw [hides.arrived] at waiting
    rw [ioRead_answering waiting]
    cases read : answering null station with
    | error fault' => exact ⟨fault', rfl⟩
    | ok pair =>
      obtain ⟨desk', same, -⟩ := answering_twins (R := flip Terminal.Hides) Terminal.io_feeds
        Terminal.feeds_io (fun io t hides => Terminal.flush_hides t io hides) null _ _ _ _
        hides.swap read
      rw [stuck] at same
      contradiction
  · rw [read_idle waiting] at stuck
    contradiction

end Desk

def Effect.used : Effect → Option Use
  | .use used => some used
  | _ => none

theorem Effect.shown_used (printed : Option Dcc.PacketRef) :
    (printed.toList.map (Effect.use ∘ .shown)).filterMap Effect.used = printed.toList.map .shown := by
  rw [List.filterMap_map]
  exact congrFun List.filterMap_eq_map _

theorem Effect.events_used (events : List Dcc.Event) :
    (events.map (Effect.use ∘ .event)).filterMap Effect.used = events.map .event := by
  rw [List.filterMap_map]
  exact congrFun List.filterMap_eq_map _

/-- All commands but one only show. -/
theorem MainLoop.call_other (m : MainLoop) {cmd : SysCmd} (other : cmd.type ≠ .cacheClear) :
    m.call cmd = (m, (cmd.shown m.clearing.scheduler.cache).toList.map .shown) := by
  obtain ⟨type, args⟩ := cmd
  cases type with
  | cacheClear => exact absurd rfl other
  | status | help | cacheShow => rfl

namespace CommandStation

/-- What the main loop sees of it. -/
def Op.silent : Op → List MainLoop.Op
  | .receive => [.receive]
  | .read null _ => [.read null]
  | .timer0 _ => [.clearing .tick]
  | .timer1 _ => []
  | .resetEntry => [.clearing .resetEntry]

structure Hides (s : CommandStation) (m : MainLoop) : Prop where
  desk : s.desk.Hides m.station
  clearing : s.clearing = m.clearing

variable {platform : Platform} {s : CommandStation} {m : MainLoop}

theorem Hides.print (hides : Hides s m) (text : List Char) : Hides (s.print text) m :=
  ⟨hides.desk.stdin hides.desk.arrived, hides.clearing⟩

theorem Hides.account (hides : Hides s m) (change : Sys → Sys) : Hides (s.account change) m :=
  ⟨hides.desk, hides.clearing⟩

theorem Hides.addPacket (hides : Hides s m) (ref : Dcc.PacketRef) :
    Hides (s.addPacket ref) (m.addPacket ref) := by
  refine ⟨hides.desk, ?_⟩
  rw [CommandStation.addPacket, MainLoop.addPacket, hides.clearing]

theorem Hides.call (hides : Hides s m) (memFree : BitVec 16) (cmd : SysCmd) :
    Hides (s.call platform memFree cmd).1 (m.call cmd).1 ∧
      (s.call platform memFree cmd).2.filterMap Effect.used = (m.call cmd).2 := by
  have called := called platform memFree cmd s
  generalize s.call platform memFree cmd = next at called ⊢
  cases called with
  | prints text other =>
    rw [m.call_other other, hides.clearing]
    exact ⟨(hides.print _).print _, Effect.shown_used _⟩
  | clears args =>
    exact ⟨⟨hides.desk, congrArg (fun c : Clearing => Clearing.start c.scheduler) hides.clearing⟩, rfl⟩
  | mute => exact ⟨hides.print _, rfl⟩

variable (platform) in
/-- The answer is acted upon in the same way. -/
theorem Hides.answer (hides : Hides s m) (memFree : BitVec 16) (reading : Desk.Reading)
    (told : ∀ result, reading = .accepted result → m.station.result = result) :
    Hides (s.answer platform memFree reading).1 (m.handle reading.outcome).1 ∧
      (s.answer platform memFree reading).2.filterMap Effect.used = (m.handle reading.outcome).2 := by
  have obeyed := obeyed platform memFree reading s
  generalize s.answer platform memFree reading = next at obeyed ⊢
  have counted := hides.account Sys.parseOkIncrement
  cases obeyed with
  | nothing => exact ⟨hides, rfl⟩
  | blank => exact ⟨hides.print _, rfl⟩
  | rejected => exact ⟨((hides.account _).print _).print _, rfl⟩
  | packet type ref kind =>
    have returned : m.station.returned = some ref := by rw [Parser.returned, told _ rfl]
    have added : (m.handle (some (.packet ref.packet))).1 = m.addPacket ref := by
      rw [MainLoop.handle, returned]
      rfl
    rcases kind with rfl | rfl
    · exact ⟨added ▸ (((counted.print _).account _).print _).addPacket ref, rfl⟩
    · exact ⟨added ▸ (((counted.print _).account _).print _).addPacket ref, rfl⟩
  | cmd cmd => exact (counted.account _).call memFree cmd
  | mute result ignored =>
    rw [Desk.Reading.outcome, ignored]
    exact ⟨counted.print _, rfl⟩

theorem modulate_used (late : Bool) (signal : Signal) (event : Dcc.Event) :
    (modulate late signal event).2.filterMap Effect.used = [.event event] := by
  unfold modulate
  cases event with
  | signalSend ref =>
    dsimp only
    cases signal.send ref.packet.bytes ref.packet.size with
    | none => rfl
    | some sent => cases late <;> rfl
  | cacheUpdate ref => rfl
  | packetDestroy ref => rfl

theorem modulateAll_used (late : Bool) (signal : Signal) (events : List Dcc.Event) :
    (modulateAll late signal events).2.filterMap Effect.used = events.map .event := by
  induction events generalizing signal with
  | nil => rfl
  | cons event rest ih =>
    rw [modulateAll, List.filterMap_append, modulate_used, ih]
    rfl

theorem Hides.step (hides : Hides s m) (op : Op) :
    Hides (s.step platform op).1 (Run.final MainLoop.step m op.silent) ∧
      (s.step platform op).2.filterMap Effect.used = Run.log MainLoop.step m op.silent := by
  cases op with
  | receive => exact ⟨⟨hides.desk.stdin (congrArg Io.receive hides.desk.arrived), hides.clearing⟩, rfl⟩
  | read null memFree =>
    simp only [Op.silent, Run.final, Run.log, List.append_nil, MainLoop.step]
    have read := step_read platform memFree null s
    generalize s.step platform (.read null memFree) = next at read ⊢
    cases read with
    | busy waits =>
      rw [if_pos (hides.clearing ▸ waits)]
      exact ⟨hides, rfl⟩
    | stuck free read =>
      obtain ⟨fault', stuck⟩ := hides.desk.stuck read
      rw [if_neg (hides.clearing ▸ free), stuck]
      exact ⟨hides, rfl⟩
    | @answers reading desk free read =>
      obtain ⟨station, same, after⟩ := hides.desk.read read
      rw [if_neg (hides.clearing ▸ free), same]
      have next : Hides { s with desk } { m with station } := ⟨after, hides.clearing⟩
      refine next.answer platform memFree reading fun result told => ?_
      subst told
      obtain ⟨-, -, result⟩ := Desk.read_accepted read
      exact after.same_result.symm.trans result
  | timer0 late =>
    refine ⟨⟨hides.desk, ?_⟩, ?_⟩
    · exact congrArg (fun clearing => (clearing.step .tick).1) hides.clearing
    · simp only [CommandStation.step, modulateAll_used, Op.silent, Run.log, MainLoop.step,
        List.append_nil, hides.clearing]
  | timer1 pind =>
    refine ⟨⟨hides.desk, hides.clearing⟩, ?_⟩
    simp only [CommandStation.step, Op.silent, Run.log]
    cases (s.signal.timer1CompaVect pind).1 <;> rfl
  | resetEntry =>
    have next : Hides { s with clearing := (s.clearing.step .resetEntry).1 }
        (m.step (.clearing .resetEntry)).1 :=
      ⟨hides.desk, congrArg (fun clearing => (clearing.step .resetEntry).1) hides.clearing⟩
    have logged : ((s.clearing.step .resetEntry).2.map (Effect.use ∘ .event)).filterMap Effect.used =
        Run.log MainLoop.step m [.clearing .resetEntry] := by
      simp only [Effect.events_used, Run.log, MainLoop.step, List.append_nil, hides.clearing]
    have sweeps := step_resetEntry platform s
    generalize s.step platform .resetEntry = after at sweeps ⊢
    cases sweeps with
    | more => exact ⟨next, logged⟩
    | last curr =>
      have cleared : Hides { s with
          clearing := (s.clearing.step .resetEntry).1
          purging := none } (m.step (.clearing .resetEntry)).1 := ⟨next.desk, next.clearing⟩
      exact ⟨(cleared.print _).print _, logged⟩

theorem hides_start (memory : Scheduler.Memory) (buf : Vector Char 50) (wire : List Rx) :
    Hides (start memory buf wire) (MainLoop.start memory buf wire) :=
  ⟨Desk.hides_start buf wire, rfl⟩

/-- Whatever comes over the line, and whatever is printed and counted meanwhile, the
packets are used as the loop uses them that prints and counts nothing. -/
theorem output_without_effect (platform : Platform) (memory : Scheduler.Memory)
    (buf : Vector Char 50) (wire : List Rx) (ops : List Op) :
    (Run.log (step platform) (start memory buf wire) ops).filterMap Effect.used =
      Run.log MainLoop.step (MainLoop.start memory buf wire) (ops.flatMap Op.silent) := by
  have along : Run.Along (step platform) (fun _ _ => True) (start memory buf wire) ops :=
    Run.along_of_forall (fun _ _ => trivial) _ _
  exact (along.stuttering Effect.used Op.silent (fun s m op _ hides => hides.step op)
    (hides_start memory buf wire)).2

end CommandStation
end Freedcc
