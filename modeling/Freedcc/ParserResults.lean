import Freedcc.ParserFrames

/-! What an accepting call hands over: a packet or a system command, unless `raw`
was left without a packet. -/
namespace Freedcc.Parser
open Dcc PartialProgram
variable {σ : Type} [TokenSource σ]

/-- Something that can be sent or executed. -/
def Made (r : Option Result) : Prop :=
  (∃ ref, r = some ⟨.dcc, .packet ref⟩) ∨ (∃ ref, r = some ⟨.raw, .packet ref⟩) ∨
    ∃ cmd, r = some ⟨.sys, .cmd cmd⟩

/-- Whether the parse comes to the semantic action of `raw`. -/
def reachRaw : Parse σ Bool := accept .raw <&&> acceptNoAdvance .hex

/-- The action of `raw` is reached after its two tokens. -/
theorem reachRaw_tokens {p last : Parser σ}
    (reach : (do advance; reachRaw) p = .ok (true, last)) :
    ∃ s₁ s₂, TokenSource.nextToken p.scanner = .ok (.raw, s₁) ∧
      TokenSource.nextToken s₁ = .ok (.hex, s₂) ∧ last.scanner = s₂ := by
  obtain ⟨⟨⟩, q, first, later⟩ := bind_ok reach
  obtain ⟨curr, s₁, read, rfl⟩ := advance_ok.mp first
  obtain ⟨accepted, r, second, third⟩ := bind_ok later
  obtain ⟨here, q, same, advanced⟩ := bind_ok second
  cases same
  cases accepted with
  | false => cases third
  | true =>
    by_cases raw : Tok.raw = curr
    · subst curr
      obtain ⟨⟨⟩, q, next, done⟩ := bind_ok advanced
      cases done
      obtain ⟨tok, s₂, again, rfl⟩ := advance_ok.mp next
      have hex : Tok.hex = tok := by
        obtain ⟨same, -⟩ := Prod.mk.inj (Except.ok.inj third)
        exact of_decide_eq_true same
      subst tok
      cases third
      exact ⟨s₁, s₂, read, again, rfl⟩
    · simp only [decide_eq_false raw, Bool.false_eq_true, if_false] at advanced
      cases advanced

/-- A new result whose memory does not spoil the action of `raw`. -/
def Unspoilt (null : Bool) (parser : Parser σ) : Prop :=
  parser.result = some ⟨.undef, .garbage null⟩ ∧
    (null = true → ¬ ∃ last, reachRaw parser = .ok (true, last))

omit [TokenSource σ] in
theorem Draft.made {C : Fields → Prop} (draft : Draft C r) : Made r := by
  obtain ⟨ref, f, rfl, -⟩ := draft
  exact Or.inl ⟨ref, rfl⟩

omit [TokenSource σ] in
/-- A packet is good enough for either verdict. -/
theorem Draft.verdict {C : Fields → Prop} {Q : Option Result → Prop} {parser : Parser σ}
    (draft : Draft C parser.result) (good : Q parser.result) (accepted : Bool) :
    Verdict Q accepted parser := by
  cases accepted with
  | true => exact good
  | false => exact draft.exists

/-- The whole command line, of which only the action of `raw` depends on how the
result was made. -/
theorem parse_verdict {P : Parser σ → Prop} {Q : Option Result → Prop}
    (raw : Ensures P (grammarRaw : Parse σ Bool) (Verdict Q))
    (drafts : ∀ (C : Fields → Prop) r, Draft C r → Q r)
    (cmds : ∀ cmd, Q (some ⟨.sys, .cmd cmd⟩)) : Ensures P (parse : Parse σ Bool) (Verdict Q) := by
  apply verdict_or (parseBeforeStop_verdict cmds raw (drafts _))
  refine (accept_keeps .stop).cond ?_ (.pure fun _ holds => holds)
  refine grammarStopAddr_draft.cond ?_ ?_
  · exact (onPacket_draft (D := fun _ => True) _ setSpeedDirectionPreamble_packet
      fun _ _ => trivial).bind fun _ => (onPacket_draft (D := fun _ => True)
        (fun f => { f with speed := speedCode 0 }) (setSpeed_packet · 0) fun _ _ => trivial).bind
          fun _ => .pure fun _ draft => drafts _ _ draft
  · exact grammarStopAll_stops.weaken (fun _ draft => draft) fun accepted _ draft =>
      draft.verdict (drafts _ _ draft) accepted

omit [TokenSource σ] in
theorem makeRaw_made (text : List Char) :
    Ensures (About (· = some ⟨.undef, .garbage false⟩)) (makeRaw text : Parse σ Unit)
      fun _ => About Made := by
  refine Ensures.get fun parser fresh => Ensures.ite (fun _ => Ensures.modify ?_) fun absent => ?_
  · rintro next rfl
    refine Or.inr (Or.inl ⟨⟨next.created, ⟨hexBytes text⟩⟩, ?_⟩)
    simp only [fresh]
  · have present : parser.result.any (·.payload.present) = true := by
      rw [show parser.result = _ from fresh]
      rfl
    exact absurd present absent

/-- `raw` gives up with a result, or its action is reached and done on a new one. -/
theorem grammarRaw_cases {null accepted : Bool} {parser next : Parser σ}
    (fresh : parser.result = some ⟨.undef, .garbage null⟩)
    (returned : grammarRaw parser = .ok (accepted, next)) :
    (accepted = false ∧ Exists next.result) ∨ ∃ last, reachRaw parser = .ok (true, last) ∧
      last.result = some ⟨.undef, .garbage null⟩ ∧
      (do makeRaw (TokenSource.value last.scanner).text; advance; return true : Parse σ Bool) last =
        .ok (accepted, next) := by
  obtain ⟨reached, last, reach, later⟩ := bind_ok returned
  have kept : last.result = some ⟨.undef, .garbage null⟩ :=
    ((accept_keeps (P := (· = some ⟨.undef, .garbage null⟩)) .raw).and_keeps
      (acceptNoAdvance_keeps .hex)) parser reached last fresh reach
  cases reached with
  | false =>
    obtain ⟨rfl, rfl⟩ := pure_ok.mp later
    exact Or.inl ⟨rfl, by rw [kept]; rfl⟩
  | true => exact Or.inr ⟨last, reach, kept, later⟩

theorem grammarRaw_made (null : Bool) :
    Ensures (Unspoilt null) (grammarRaw : Parse σ Bool) (Verdict Made) := by
  rintro parser accepted next ⟨fresh, unspoilt⟩ returned
  rcases grammarRaw_cases fresh returned with ⟨rfl, left⟩ | ⟨last, reach, kept, later⟩
  · exact left
  · cases null with
    | true => exact absurd ⟨last, reach⟩ (unspoilt rfl)
    | false =>
      have action : Ensures (About (· = some ⟨.undef, .garbage false⟩))
          (do
            makeRaw (TokenSource.value last.scanner).text
            advance
            return true : Parse σ Bool) (Verdict Made) :=
        (makeRaw_made _).bind fun _ => advance_keeps.bind fun _ => .pure fun _ made => made
      exact action last accepted next kept later

theorem parse_made (null : Bool) :
    Ensures (Unspoilt null) (parse : Parse σ Bool) (Verdict Made) :=
  parse_verdict (grammarRaw_made null) (fun _ _ draft => draft.made)
    fun cmd => Or.inr (Or.inr ⟨cmd, rfl⟩)

omit [TokenSource σ] in
theorem onPacket_dcc (change : Packet → Packet) :
    Ensures (About fun r => ∃ ref, r = some ⟨.dcc, .packet ref⟩) (onPacket change : Parse σ Unit)
      fun _ => About fun r => ∃ ref, r = some ⟨.dcc, .packet ref⟩ := by
  apply Ensures.modify
  rintro parser ⟨ref, result⟩
  refine ⟨{ ref with packet := change ref.packet }, ?_⟩
  simp only [result, Option.map_some, Result.write]

omit [TokenSource σ] in
theorem finishPacket_made :
    Ensures (About Made) (finishPacket : Parse σ Bool) fun _ => About Made := by
  refine Ensures.get fun parser made => ?_
  have same : ∀ next, next = parser → About Made next := by
    rintro next rfl
    exact made
  rcases made with ⟨ref, result⟩ | ⟨ref, result⟩ | ⟨cmd, result⟩
  · rw [result]
    refine Ensures.bind ((onPacket_dcc setChecksum).weaken ?_ fun _ _ holds => holds) fun _ => ?_
    · rintro next rfl
      exact ⟨ref, result⟩
    · exact (onPacket_dcc setPacketEnd).bind fun _ => .pure fun _ packet => Or.inl packet
  · rw [result]
    exact .pure same
  · rw [result]
    exact .pure same

/-- An accepting call hands over something that can be sent or executed. -/
theorem parserStart_made {null : Bool} {parser next : Parser σ}
    (unspoilt : null = true → ¬ ∃ last,
      (do advance; reachRaw) (prepare (some null) parser) = .ok (true, last))
    (accepted : parserStart (some null) parser = .ok (true, next)) : Made next.result := by
  obtain ⟨opened, parsed, first, fresh, second, finished⟩ := parserStart_accepted accepted
  have start : Unspoilt null opened := by
    refine ⟨fresh, fun spoilt reached => unspoilt spoilt ?_⟩
    obtain ⟨last, reach⟩ := reached
    exact ⟨last, (ok_bind first).trans reach⟩
  exact finishPacket_made parsed true next (parse_made null opened true parsed start second) finished

end Freedcc.Parser
