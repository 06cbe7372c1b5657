import Freedcc.Frame
import Freedcc.Parser
import Freedcc.Lib.PartialProgram

/-! What any accepting parse leaves in the result, for every token sequence: the
packets that come out are complete frames, and only the branch for everybody
makes a broadcast stop. -/
namespace Freedcc.Parser
open Dcc PartialProgram
variable {σ : Type}

/-- A property of the result object and of the books. -/
abbrev Booked (P : Option Result → Nat → Trace → Prop) (parser : Parser σ) : Prop :=
  P parser.result parser.created parser.trace

/-- A property of the result object. -/
abbrev About (P : Option Result → Prop) (parser : Parser σ) : Prop := P parser.result

/-- A packet written through its fields so far. -/
def Draft (C : Fields → Prop) (r : Option Result) : Prop :=
  ∃ ref f, r = some ⟨.dcc, .packet ref⟩ ∧ ref.packet = f.packet ∧ C f

def Exists (r : Option Result) : Prop := r.isSome = true

/-- A result that `DSL_parser_start` does not finish off. -/
def NoFrame (r : Option Result) : Prop := ∃ result, r = some result ∧ result.type ≠ .dcc

/-! Reading tokens changes neither. -/

section Reading
variable {P : Option Result → Nat → Trace → Prop}

theorem advance_booked [TokenSource σ] :
    Ensures (Booked P) (advance : Parse σ Unit) fun _ => Booked P := by
  intro s a t before returned
  obtain ⟨curr, scanner, -, rfl⟩ := advance_ok.mp returned
  exact before

theorem acceptNoAdvance_booked (tok : Tok) :
    Ensures (Booked P) (acceptNoAdvance tok : Parse σ Bool) fun _ => Booked P := by
  intro s a t before returned
  cases returned
  exact before

theorem accept_booked [TokenSource σ] (tok : Tok) :
    Ensures (Booked P) (accept tok : Parse σ Bool) fun _ => Booked P :=
  (acceptNoAdvance_booked tok).cond (advance_booked.bind fun _ => .pure fun _ holds => holds)
    (.pure fun _ holds => holds)

theorem value_booked [TokenSource σ] :
    Ensures (Booked P) (value : Parse σ Value) fun _ => Booked P := by
  intro s a t before returned
  cases returned
  exact before

end Reading

section Primitives
variable {P : Option Result → Prop} {C D : Fields → Prop}

theorem Draft.exists (draft : Draft C r) : Exists r := by
  obtain ⟨ref, f, rfl, -⟩ := draft
  rfl

theorem Draft.imp (draft : Draft C r) (weaker : ∀ f, C f → D f) : Draft D r := by
  obtain ⟨ref, f, same, written, holds⟩ := draft
  exact ⟨ref, f, same, written, weaker f holds⟩

theorem advance_keeps [TokenSource σ] : Ensures (About P) (advance : Parse σ Unit) fun _ => About P :=
  advance_booked (P := fun r _ _ => P r)

theorem acceptNoAdvance_keeps (tok : Tok) :
    Ensures (About P) (acceptNoAdvance tok : Parse σ Bool) fun _ => About P :=
  acceptNoAdvance_booked (P := fun r _ _ => P r) tok

theorem accept_keeps [TokenSource σ] (tok : Tok) :
    Ensures (About P) (accept tok : Parse σ Bool) fun _ => About P :=
  accept_booked (P := fun r _ _ => P r) tok

theorem value_keeps [TokenSource σ] : Ensures (About P) (value : Parse σ Value) fun _ => About P :=
  value_booked (P := fun r _ _ => P r)

theorem makePacket_draft : Ensures (About Exists)
    (makePacket .dcc baselinePacketCreate : Parse σ Unit) fun _ => About (Draft (· = .fresh)) := by
  refine Ensures.modify fun parser before => ?_
  obtain ⟨result, same⟩ := Option.isSome_iff_exists.mp before
  exact ⟨⟨parser.created, baselinePacketCreate⟩, .fresh, by simp [same], by simp, rfl⟩

theorem onPacket_draft (write : Fields → Fields) {change : Packet → Packet}
    (written : ∀ f : Fields, change f.packet = (write f).packet) (holds : ∀ f, C f → D (write f)) :
    Ensures (About (Draft C)) (onPacket change : Parse σ Unit) fun _ => About (Draft D) := by
  apply Ensures.modify
  rintro parser ⟨ref, f, same, drafted, before⟩
  refine ⟨{ ref with packet := change ref.packet }, write f, ?_, ?_, holds f before⟩
  · simp [same, Result.write]
  · rw [drafted, written]

end Primitives

/-- Fields that no driving command makes a broadcast stop of. -/
def Drives (f : Fields) : Prop := f.speed ≠ 0x10 ∧ f.speed ≠ 0x11

def Framed (f : Fields) : Prop := f.preamble = true ∧ f.sdPreamble = true

variable [TokenSource σ]

theorem grammarClause_draft {C : Fields → Prop} {word : Tok}
    {change : Packet → BitVec 16 → Packet} {write : Fields → BitVec 16 → Fields}
    (written : ∀ f number, change f.packet number = (write f number).packet)
    (kept : ∀ f number, C f → C (write f number)) :
    Ensures (About (Draft C)) (grammarClause word change : Parse σ Bool)
      fun _ => About (Draft C) := by
  refine (accept_keeps word).cond ?_ (.pure fun _ holds => holds)
  refine (acceptNoAdvance_keeps .number).cond ?_ (.pure fun _ holds => holds)
  refine value_keeps.bind fun number => ?_
  refine (onPacket_draft (write · number.number) (written · number.number)
    fun f => kept f _).bind fun _ => ?_
  exact advance_keeps.bind fun _ => .pure fun _ holds => holds

theorem grammarAddr_draft {C : Fields → Prop}
    (kept : ∀ f address, C f → C { f with address }) :
    Ensures (About (Draft C)) (grammarAddr : Parse σ Bool) fun _ => About (Draft C) :=
  grammarClause_draft (fun f number => setAddress_packet f (number.setWidth 8)) fun f _ => kept f _

theorem grammarSpeed_draft {C : Fields → Prop}
    (kept : ∀ f step, C f → C { f with speed := speedCode step }) :
    Ensures (About (Draft C)) (grammarSpeed : Parse σ Bool) fun _ => About (Draft C) :=
  grammarClause_draft (fun f number => setSpeed_packet f (number.setWidth 8).toNat)
    fun f _ => kept f _

/-- Both orders of the clauses, complete or given up half way. -/
theorem clauses_draft : Ensures (About (Draft Drives))
    ((grammarAddr <&&> grammarSpeed) <||> (grammarSpeed <&&> grammarAddr) : Parse σ Bool)
    fun _ => About (Draft Drives) := by
  have addr := grammarAddr_draft (σ := σ) (C := Drives) fun f address holds => holds
  have speed := grammarSpeed_draft (σ := σ) (C := Drives) fun f step _ => speedCode_ne step
  exact (addr.and_keeps speed).or_keeps (speed.and_keeps addr)

/-- An alternative that accepts leaves `Q`, and one that fails leaves a result. -/
abbrev Verdict (Q : Option Result → Prop) (accepted : Bool) : Parser σ → Prop :=
  About fun r => if accepted then Q r else Exists r

omit [TokenSource σ] in
theorem makeRaw_noFrame (text : List Char) :
    Ensures (About NoFrame) (makeRaw text : Parse σ Unit) fun _ => About NoFrame := by
  refine Ensures.get fun parser made => ?_
  refine Ensures.ite (fun _ => Ensures.modify ?_) fun _ => .pure ?_
  · rintro next rfl
    obtain ⟨result, same, -⟩ := made
    exact ⟨⟨.raw, .packet ⟨next.created, ⟨hexBytes text⟩⟩⟩, by simp [same], by simp⟩
  · rintro _ rfl
    exact made

omit [TokenSource σ] in
theorem verdict_or {P : Parser σ → Prop} {Q : Option Result → Prop} {x y : Parse σ Bool}
    (first : Ensures P x (Verdict Q)) (second : Ensures (About Exists) y (Verdict Q)) :
    Ensures P (x <||> y) (Verdict Q) :=
  Ensures.or (R := About Exists)
    (first.weaken (fun _ holds => holds) fun b s holds => by cases b <;> exact holds) second

/-- A packet of a driving command before it is finished off. -/
abbrev Drafted (r : Option Result) : Prop := Draft (fun f => Framed f ∧ Drives f) r

section Alternatives
variable {Q : Option Result → Prop}

theorem grammarDrive_verdict (drafts : ∀ r, Drafted r → Q r) (keyword : Tok) (direction : Int) :
    Ensures (About Exists) (grammarDrive keyword direction : Parse σ Bool) (Verdict Q) := by
  refine (accept_keeps keyword).cond ?_ (.pure fun _ holds => holds)
  refine makePacket_draft.bind fun _ => ?_
  refine (clauses_draft.weaken ?_ fun _ _ holds => holds).cond ?_ ?_
  · intro s draft
    apply draft.imp
    rintro f rfl
    exact ⟨by decide, by decide⟩
  · refine (onPacket_draft _ (D := fun f => f.preamble = true ∧ Drives f) setPreamble_packet
      fun f holds => ⟨rfl, holds⟩).bind fun _ => ?_
    refine (onPacket_draft _ (D := fun f => Framed f ∧ Drives f) setSpeedDirectionPreamble_packet
      fun f holds => ⟨⟨holds.1, rfl⟩, holds.2⟩).bind fun _ => ?_
    refine (onPacket_draft (fun f => { f with direction := direction ≠ 0 })
      (D := fun f => Framed f ∧ Drives f) (setDirection_packet · direction)
      fun f holds => holds).bind fun _ => ?_
    exact .pure fun _ draft => drafts _ draft
  · exact .pure fun _ draft => draft.exists

variable (cmds : ∀ cmd, Q (some ⟨.sys, .cmd cmd⟩))
include cmds

omit [TokenSource σ] in
theorem makeCmd_verdict (cmd : SysCmd) :
    Ensures (About Exists) (makeCmd cmd : Parse σ Unit) fun _ => About Q := by
  refine Ensures.modify fun parser before => ?_
  obtain ⟨result, same⟩ := Option.isSome_iff_exists.mp before
  simp only [About, same, Option.map_some]
  exact cmds cmd

theorem grammarHelp_verdict :
    Ensures (About Exists) (grammarHelp : Parse σ Bool) (Verdict Q) := by
  refine (accept_keeps .help).cond ?_ (.pure fun _ holds => holds)
  exact (makeCmd_verdict cmds _).bind fun _ => .pure fun _ holds => holds

theorem grammarShow_verdict :
    Ensures (About Exists) (grammarShow : Parse σ Bool) (Verdict Q) := by
  refine (accept_keeps .show).cond ?_ (.pure fun _ holds => holds)
  refine (acceptNoAdvance_keeps .status).cond ?_ (.pure fun _ holds => holds)
  exact (makeCmd_verdict cmds _).bind fun _ => .pure fun _ holds => holds

theorem grammarCache_verdict :
    Ensures (About Exists) (grammarCache : Parse σ Bool) (Verdict Q) := by
  refine (accept_keeps .cache).cond ?_ (.pure fun _ holds => holds)
  refine (acceptNoAdvance_keeps .clear).cond ?_ ?_
  · exact (makeCmd_verdict cmds _).bind fun _ => .pure fun _ holds => holds
  refine (acceptNoAdvance_keeps .show).cond ?_ (.pure fun _ holds => holds)
  refine advance_keeps.bind fun _ => ?_
  refine (acceptNoAdvance_keeps .number).cond ?_ (.pure fun _ holds => holds)
  refine value_keeps.bind fun number => ?_
  exact (makeCmd_verdict cmds _).bind fun _ => .pure fun _ holds => holds

/-- `raw` comes first, while the result is still as it was made. -/
theorem parseBeforeStop_verdict {P : Parser σ → Prop}
    (raw : Ensures P (grammarRaw : Parse σ Bool) (Verdict Q)) (drafts : ∀ r, Drafted r → Q r) :
    Ensures P (parseBeforeStop : Parse σ Bool) (Verdict Q) :=
  verdict_or raw <| verdict_or (grammarHelp_verdict cmds) <| verdict_or (grammarShow_verdict cmds) <|
    verdict_or (grammarCache_verdict cmds) <|
    verdict_or (grammarDrive_verdict drafts _ _) (grammarDrive_verdict drafts _ _)

end Alternatives

/-- A driving packet, or nothing to be finished off. -/
def Moves (r : Option Result) : Prop := NoFrame r ∨ Drafted r

theorem NoFrame.exists (made : NoFrame r) : Exists r := by
  obtain ⟨result, rfl, -⟩ := made
  rfl

theorem grammarRaw_moves :
    Ensures (About NoFrame) (grammarRaw : Parse σ Bool) (Verdict Moves) := by
  refine ((accept_keeps .raw).and_keeps (acceptNoAdvance_keeps .hex)).cond ?_
    (.pure fun _ made => made.exists)
  refine value_keeps.bind fun text => ?_
  refine (makeRaw_noFrame _).bind fun _ => ?_
  exact advance_keeps.bind fun _ => .pure fun _ made => Or.inl made

theorem parseBeforeStop_moves :
    Ensures (About NoFrame) (parseBeforeStop : Parse σ Bool) (Verdict Moves) :=
  parseBeforeStop_verdict (fun cmd => Or.inl ⟨⟨.sys, .cmd cmd⟩, rfl, by simp⟩) grammarRaw_moves
    fun _ draft => Or.inr draft

/-- The parse up to the call of `grammarStopAll`: whether it comes to that. -/
def reachStopAll : Parse σ Bool := do
  if ← parseBeforeStop then return false
  else if ← accept .stop then return !(← grammarStopAddr)
  else return false

/-- What stops everybody is written whole. -/
def StopsAll (r : Option Result) : Prop :=
  Draft (fun f => f = frame 0 true 0x10 ∨ f = frame 0 true 0x11) r

/-- A packet that is no broadcast stop when it is finished, or none. -/
def Ordinary (r : Option Result) : Prop :=
  NoFrame r ∨ Draft (fun f => Framed f ∧ (Drives f ∨ f.direction = false)) r

theorem grammarStopAddr_draft : Ensures (About Exists) (grammarStopAddr : Parse σ Bool)
    fun _ => About (Draft fun f => f.preamble = true ∧ f.direction = false) := by
  refine makePacket_draft.bind fun _ => ?_
  refine (onPacket_draft _ (D := fun f => f.preamble = true ∧ f.direction = false)
    setPreamble_packet ?_).bind fun _ => ?_
  · rintro f rfl
    exact ⟨rfl, rfl⟩
  · exact grammarAddr_draft fun f address holds => holds

theorem grammarStopAll_stops {C : Fields → Prop} :
    Ensures (About (Draft C)) (grammarStopAll : Parse σ Bool) fun _ => About StopsAll := by
  refine (accept_keeps .all).cond ?_ ?_
  · refine (onPacket_draft (fun _ => frame 0 true 0x11)
      (D := fun f => f = frame 0 true 0x10 ∨ f = frame 0 true 0x11)
      specialEmergencyStopPacket_packet fun _ _ => Or.inr rfl).bind fun _ => ?_
    exact .pure fun _ holds => holds
  · refine (onPacket_draft (fun _ => frame 0 true 0x10)
      (D := fun f => f = frame 0 true 0x10 ∨ f = frame 0 true 0x11)
      specialBroadcastStopPacket_packet fun _ _ => Or.inl rfl).bind fun _ => ?_
    exact .pure fun _ holds => holds

omit [TokenSource σ] in
theorem stopOne_ordinary : Ensures
    (About (Draft fun f => f.preamble = true ∧ f.direction = false))
    (do
      onPacket setSpeedDirectionPreamble
      onPacket (setSpeed · 0)
      return true : Parse σ Bool)
    fun _ => About Ordinary := by
  refine (onPacket_draft _ (D := fun f => Framed f ∧ f.direction = false)
    setSpeedDirectionPreamble_packet fun f holds => ⟨⟨holds.1, rfl⟩, holds.2⟩).bind fun _ => ?_
  refine (onPacket_draft (fun f => { f with speed := speedCode 0 })
    (D := fun f => Framed f ∧ f.direction = false) (setSpeed_packet · 0)
    fun f holds => holds).bind fun _ => ?_
  exact .pure fun _ draft => Or.inr (draft.imp fun f holds => ⟨holds.1, Or.inr holds.2⟩)

/-- An accepting parse comes to `grammarStopAll`, or its packet is no broadcast stop. -/
theorem parse_result {parser next : Parser σ} (made : NoFrame parser.result)
    (accepted : parse parser = .ok (true, next)) :
    ∃ reached last, reachStopAll parser = .ok (reached, last) ∧
      if reached then StopsAll next.result else Ordinary next.result := by
  obtain ⟨early, p, before, later⟩ := bind_ok accepted
  have moves := parseBeforeStop_moves parser early p made before
  cases early with
  | true =>
    obtain ⟨-, rfl⟩ := pure_ok.mp later
    refine ⟨false, p, ok_bind before, ?_⟩
    exact moves.imp_right fun draft => draft.imp fun f holds => ⟨holds.1, Or.inl holds.2⟩
  | false =>
    obtain ⟨stop, q, word, later⟩ := bind_ok (later : grammarStop p = .ok (true, next))
    have exist := accept_keeps .stop p stop q moves word
    have reach : reachStopAll parser = _ := (ok_bind before).trans (ok_bind word)
    cases stop with
    | false =>
      obtain ⟨wrong, -⟩ := pure_ok.mp later
      contradiction
    | true =>
      obtain ⟨addr, t, head, later⟩ := bind_ok later
      have draft := grammarStopAddr_draft q addr t exist head
      refine ⟨!addr, t, reach.trans (ok_bind head), ?_⟩
      cases addr with
      | true => exact stopOne_ordinary t true next draft later
      | false => exact grammarStopAll_stops t true next draft later

omit [TokenSource σ] in
theorem trash_eq (p : Parser σ) : (trash p).scanner = p.scanner ∧ (trash p).curr = p.curr ∧
    (trash p).created = p.created ∧ (trash p).result = none := by
  unfold trash
  split
  · exact ⟨rfl, rfl, rfl, rfl⟩
  · exact ⟨rfl, rfl, rfl, rfl⟩
  · exact ⟨rfl, rfl, rfl, rfl⟩

theorem parseError_rejects (memory : Option Bool) :
    Ensures (fun _ => True) (parseError memory : Parse σ Bool) fun accepted _ => accepted = false := by
  refine Ensures.bind (R := fun _ _ => True) (.modify fun _ _ => trivial) fun _ => ?_
  refine Ensures.get fun s _ => Ensures.ite (fun _ => .throw) fun _ => ?_
  exact Ensures.bind (R := fun _ _ => True) (.modify fun _ _ => trivial) fun _ => .pure fun _ _ => rfl

/-- An accepting call is an accepting parse of a new result, finished off. -/
theorem parserStart_accepted {null : Bool} {parser next : Parser σ}
    (accepted : parserStart (some null) parser = .ok (true, next)) :
    ∃ opened parsed, advance (prepare (some null) parser) = .ok ((), opened) ∧
      opened.result = some ⟨.undef, .garbage null⟩ ∧ parse opened = .ok (true, parsed) ∧
      finishPacket parsed = .ok (true, next) := by
  obtain ⟨verdict, parsed, command, later⟩ := bind_ok accepted
  have tokens : parseTokens (prepare (some null) parser) = .ok (verdict, parsed) := command
  obtain ⟨⟨⟩, opened, first, second⟩ := bind_ok tokens
  have fresh : opened.result = some ⟨.undef, .garbage null⟩ :=
    advance_keeps (P := (· = some ⟨.undef, .garbage null⟩)) _ () opened rfl first
  cases verdict with
  | true => exact ⟨opened, parsed, first, fresh, second, later⟩
  | false =>
    have wrong := parseError_rejects _ parsed true next trivial later
    contradiction

omit [TokenSource σ] in
theorem finishPacket_noFrame {parsed next : Parser σ} (made : NoFrame parsed.result)
    (finished : finishPacket parsed = .ok (true, next)) : next = parsed := by
  obtain ⟨⟨type, payload⟩, same, other⟩ := made
  obtain ⟨_, _, read, later⟩ := bind_ok finished
  obtain ⟨rfl, rfl⟩ := get_ok.mp read
  rw [same] at later
  cases type with
  | dcc => exact absurd rfl other
  | undef => exact (pure_ok.mp later).2.symm
  | sys => exact (pure_ok.mp later).2.symm
  | raw => exact (pure_ok.mp later).2.symm

omit [TokenSource σ] in
theorem finishPacket_draft {C : Fields → Prop} :
    Ensures (About (Draft C)) (finishPacket : Parse σ Bool)
      fun _ => About (Draft fun g => ∃ f, C f ∧ g = f.finish) := by
  refine Ensures.get fun parser draft => ?_
  have result := draft
  obtain ⟨ref, f, same, -⟩ := result
  rw [same]
  refine Ensures.weaken (P := About (Draft C)) ?_ (fun _ here => here ▸ draft) fun _ _ holds => holds
  refine (onPacket_draft (fun f => { f with checksum := f.addressByte ^^^ f.instruction })
    (D := fun g => ∃ f, C f ∧ g = { f with checksum := f.addressByte ^^^ f.instruction })
    setChecksum_packet fun f holds => ⟨f, holds, rfl⟩).bind fun _ => ?_
  refine (onPacket_draft (fun f => { f with packetEnd := true })
    (D := fun g => ∃ f, C f ∧ g = f.finish) setPacketEnd_packet ?_).bind fun _ => ?_
  · rintro _ ⟨f, holds, rfl⟩
    exact ⟨f, holds, rfl⟩
  · exact .pure fun _ holds => holds

/-- The frame that is handed over, and whether `grammarStopAll` was reached for it. -/
theorem parserStart_written {δ : Type} [Stdin δ] {null : Bool} {parser next : Parser (Scanner δ)}
    {payload : Payload} (accepted : parserStart (some null) parser = .ok (true, next))
    (packet : next.result = some ⟨.dcc, payload⟩) :
    ∃ ref address direction speed reached last, payload = .packet ref ∧
      ref.packet = (frame address direction speed).packet ∧
      (do advance; reachStopAll) (prepare (some null) parser) = .ok (reached, last) ∧
      if reached then address = 0 ∧ direction = true ∧ (speed = 0x10 ∨ speed = 0x11)
      else speed ≠ 0x10 ∧ speed ≠ 0x11 ∨ direction = false := by
  obtain ⟨opened, parsed, first, fresh, second, finished⟩ := parserStart_accepted accepted
  have made : NoFrame opened.result := ⟨_, fresh, by simp⟩
  obtain ⟨reached, last, reach, outcome⟩ := parse_result made second
  have route := (ok_bind (f := fun _ => reachStopAll) first).trans reach
  cases reached with
  | true =>
    obtain ⟨ref, _, result, written, f, stops, rfl⟩ :=
      finishPacket_draft parsed true next outcome finished
    rw [packet, Option.some.injEq, Result.mk.injEq] at result
    rcases stops with rfl | rfl
    · exact ⟨ref, 0, true, 0x10, true, last, result.2, written, route, rfl, rfl, Or.inl rfl⟩
    · exact ⟨ref, 0, true, 0x11, true, last, result.2, written, route, rfl, rfl, Or.inr rfl⟩
  | false =>
    rcases outcome with made | draft
    · obtain rfl := finishPacket_noFrame made finished
      obtain ⟨result, same, other⟩ := made
      rw [packet] at same
      obtain rfl := Option.some.inj same
      exact absurd rfl other
    · obtain ⟨ref, _, result, written, f, ⟨framed, moves⟩, rfl⟩ :=
        finishPacket_draft parsed true next draft finished
      rw [packet, Option.some.injEq, Result.mk.injEq] at result
      rw [finish_eq_frame framed.1 framed.2] at written
      exact ⟨ref, _, _, _, false, last, result.2, written, route, moves⟩

/-- Whatever the characters, a packet that is handed over is a complete frame,
and it is a broadcast stop exactly if `grammarStopAll` was reached. -/
theorem parserStart_frame {δ : Type} [Stdin δ] (null : Bool) (parser next : Parser (Scanner δ))
    (payload : Payload) (accepted : parserStart (some null) parser = .ok (true, next))
    (packet : next.result = some ⟨.dcc, payload⟩) :
    ∃ ref, payload = .packet ref ∧ ValidFrame ref.packet ∧
      (isBroadcastStop ref.packet = true ↔ ∃ last,
        (do advance; reachStopAll) (prepare (some null) parser) = .ok (true, last)) := by
  obtain ⟨ref, address, direction, speed, reached, last, same, written, route, kind⟩ :=
    parserStart_written accepted packet
  refine ⟨ref, same, ?_, ?_⟩
  · rw [written]
    exact valid_frame address direction speed
  · rw [written]
    cases reached with
    | true =>
      obtain ⟨rfl, rfl, stops⟩ := kind
      exact iff_of_true (isBroadcastStop_frame speed stops) ⟨last, route⟩
    | false =>
      apply iff_of_false
      · intro stops
        have marks := isBroadcastStop_packet stops
        obtain ⟨forward, code⟩ : direction = true ∧ (speed = 0x10 ∨ speed = 0x11) := marks
        rcases kind with slow | backward
        · rcases code with code | code
          · exact slow.1 code
          · exact slow.2 code
        · rw [forward] at backward
          contradiction
      · rintro ⟨other, reached⟩
        have both := route.symm.trans reached
        simp at both

def typed (text : String) : Parser (Scanner CharStream) := .fresh (.fresh id (.ofText text.toList))

theorem outcome_stopAll : outcome (parserStart (some false) (typed "stop all\n")) =
    some (true, some ⟨.dcc, .packet ⟨0, (frame 0 true 0x11).packet⟩⟩) := by
  decide +kernel

theorem parserStart_frame_stop : ∃ next ref,
    parserStart (some false) (typed "stop all\n") = .ok (true, next) ∧
      next.result = some ⟨.dcc, .packet ref⟩ ∧ ValidFrame ref.packet := by
  obtain ⟨next, accepted, result⟩ := outcome_eq_some.mp outcome_stopAll
  obtain ⟨ref, same, valid, -⟩ := parserStart_frame false _ next _ accepted result
  cases same
  exact ⟨next, _, accepted, result, valid⟩

end Freedcc.Parser
