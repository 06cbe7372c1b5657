import Freedcc.Lockstep
import Freedcc.ParserResults

/-! A call with a result object against what malloc left in it. The type is
cleared at once; the payload is compared with NULL by the action of `raw` before
anything is stored there, and by nobody else. -/
namespace Freedcc.Parser
open Dcc PartialProgram
variable {σ : Type} [TokenSource σ]

structure Content where
  type : ResType
  packet : Option Packet
  cmd : Option SysCmd
deriving DecidableEq, Repr

def contentOf (r : Result) : Content :=
  match r.payload with
  | .garbage _ => ⟨r.type, none, none⟩
  | .packet ref => ⟨r.type, some ref.packet, none⟩
  | .cmd cmd => ⟨r.type, none, some cmd⟩

/-- What a call tells its caller, if it returns. -/
def toldBy (call : Except Fault (Bool × Parser σ)) : Option (Bool × Option Content) :=
  (outcome call).map fun answer => (answer.1, answer.2.map contentOf)

/-- The stream begins with `raw` and its digits, and there is a token after them. -/
def BeginsRaw (p : Parser σ) : Prop :=
  ∃ s₁ s₂ s₃ tok, TokenSource.nextToken (TokenSource.reset p.scanner) = .ok (.raw, s₁) ∧
    TokenSource.nextToken s₁ = .ok (.hex, s₂) ∧ TokenSource.nextToken s₂ = .ok (tok, s₃)

/-- Results that differ in what malloc left, if they differ. -/
def SameButMemory (r r' : Option Result) : Prop :=
  r = r' ∨ ∃ a b, r = some ⟨.undef, .garbage a⟩ ∧ r' = some ⟨.undef, .garbage b⟩

structure UpToMemory (p q : Parser σ) : Prop where
  scanner : p.scanner = q.scanner
  curr : p.curr = q.curr
  created : p.created = q.created
  result : SameButMemory p.result q.result

theorem SameButMemory.content (same : SameButMemory r r') : r.map contentOf = r'.map contentOf := by
  rcases same with rfl | ⟨a, b, rfl, rfl⟩
  · rfl
  · rfl

theorem SameButMemory.type (same : SameButMemory r r') :
    r.map Result.type = r'.map Result.type := by
  rcases same with rfl | ⟨a, b, rfl, rfl⟩
  · rfl
  · rfl

theorem SameButMemory.write (same : SameButMemory r r') (change : Packet → Packet) :
    SameButMemory (r.map (·.write change)) (r'.map (·.write change)) := by
  rcases same with rfl | ⟨a, b, rfl, rfl⟩
  · exact Or.inl rfl
  · exact Or.inr ⟨a, b, rfl, rfl⟩

theorem upToMemory_lockstep : Lockstep (UpToMemory : Parser σ → Parser σ → Prop) where
  curr _ _ alike := alike.curr
  token _ _ alike := congrArg TokenSource.value alike.scanner
  advances := by
    intro p q a p' alike returned
    obtain ⟨curr, scanner, read, rfl⟩ := advance_ok.mp returned
    rw [alike.scanner] at read
    exact ⟨_, advance_ok.mpr ⟨curr, scanner, read, rfl⟩, rfl, rfl, alike.created, alike.result⟩
  onPacket change := Simulates.modify fun p q alike =>
    ⟨alike.scanner, alike.curr, alike.created, alike.result.write change⟩
  makePacket type packet := by
    refine Simulates.modify fun p q alike => ?_
    obtain ⟨scanner, curr, created, result⟩ := alike
    rcases result with same | ⟨a, b, left, right⟩
    · rw [same, created]
      cases q.result with
      | none => exact ⟨scanner, curr, created, Or.inl same⟩
      | some r => exact ⟨scanner, curr, rfl, Or.inl rfl⟩
    · simp only [left, right, created]
      exact ⟨scanner, curr, rfl, Or.inl rfl⟩
  makeCmd cmd := by
    refine Simulates.modify fun p q alike => ?_
    refine ⟨alike.scanner, alike.curr, alike.created, ?_⟩
    rcases alike.result with same | ⟨a, b, left, right⟩
    · exact Or.inl (by rw [same])
    · exact Or.inl (by rw [left, right]; rfl)

omit [TokenSource σ] in
theorem makeRaw_scanner {text : List Char} {p q : Parser σ} (made : makeRaw text p = .ok ((), q)) :
    q.scanner = p.scanner := by
  obtain ⟨_, made', scanner, -⟩ := makeRaw_total text p
  rw [made] at made'
  cases made'
  exact scanner

/-- When `raw` is recognised and the call goes on, its tokens have been read. -/
theorem beginsRaw_of_accepted {p first q : Parser σ} {memory : Option Bool}
    (opened : advance (prepare memory p) = .ok ((), first))
    (accepted : grammarRaw first = .ok (true, q)) : BeginsRaw p := by
  obtain ⟨reached, last, reach, later⟩ := bind_ok accepted
  cases reached with
  | false => cases later
  | true =>
    obtain ⟨s₁, s₂, raw, hex, same⟩ := reachRaw_tokens ((ok_bind opened).trans reach)
    obtain ⟨text, _, read, later⟩ := bind_ok later
    cases read
    obtain ⟨⟨⟩, r, made, later⟩ := bind_ok later
    obtain ⟨⟨⟩, t, advanced, -⟩ := bind_ok later
    obtain ⟨tok, s₃, next, -⟩ := advance_ok.mp advanced
    rw [makeRaw_scanner made, same] at next
    exact ⟨s₁, s₂, s₃, tok, raw, hex, next⟩

/-- If `raw` is not accepted, it has done nothing but read. -/
theorem grammarRaw_upToMemory {p q p' : Parser σ} (alike : UpToMemory p q)
    (failed : grammarRaw p = .ok (false, p')) :
    ∃ q', grammarRaw q = .ok (false, q') ∧ UpToMemory p' q' := by
  obtain ⟨reached, last, reach, later⟩ := bind_ok failed
  obtain ⟨last', reach', after⟩ := upToMemory_lockstep.reachRaw p q reached last alike reach
  cases reached with
  | false =>
    obtain ⟨-, rfl⟩ := pure_ok.mp later
    exact ⟨last', ok_bind reach', after⟩
  | true =>
    obtain ⟨text, _, read, later⟩ := bind_ok later
    obtain ⟨⟨⟩, r, made, later⟩ := bind_ok later
    obtain ⟨⟨⟩, t, advanced, later⟩ := bind_ok later
    cases later

theorem parseError_upToMemory (a b : Bool) :
    Simulates UpToMemory (parseError (some a) : Parse σ Bool) (parseError (some b))
      fun _ => UpToMemory := by
  refine Simulates.bind (Simulates.modify (Q := fun _ => UpToMemory) fun p q alike => ?_) fun _ => ?_
  · exact ⟨congrArg TokenSource.flush alike.scanner, alike.curr, alike.created, alike.result⟩
  · refine Simulates.get fun p q alike => ?_
    simp only [Option.isNone_some, Bool.and_false, Bool.false_eq_true, if_false]
    refine Simulates.bind (Simulates.modify (Q := fun _ => UpToMemory) ?_) fun _ => .done _
    intro s t same
    obtain ⟨rfl, rfl⟩ : p = s ∧ q = t := ⟨same.1.symm, same.2.symm⟩
    obtain ⟨scanner, curr, created, result⟩ := trash_eq p
    obtain ⟨scanner', curr', created', result'⟩ := trash_eq q
    refine ⟨?_, ?_, ?_, Or.inl (result.trans result'.symm)⟩
    · rw [scanner, scanner', alike.scanner]
    · rw [curr, curr', alike.curr]
    · rw [created, created', alike.created]

/-- Without an accepted `raw` two calls go the same way. -/
theorem parserStart_upToMemory {p s : Parser σ} {a : Bool} (b : Bool) (other : ¬ BeginsRaw p)
    (returned : parserStart (some a) p = .ok (code, s)) :
    ∃ t, parserStart (some b) p = .ok (code, t) ∧ UpToMemory s t := by
  have start : UpToMemory (prepare (some a) p) (prepare (some b) p) :=
    ⟨rfl, rfl, rfl, Or.inr ⟨a, b, rfl, rfl⟩⟩
  obtain ⟨verdict, parsed, command, later⟩ := bind_ok returned
  have tokens : parseTokens (prepare (some a) p) = .ok (verdict, parsed) := command
  obtain ⟨⟨⟩, first, opened, parse⟩ := bind_ok tokens
  obtain ⟨first', opened', alike⟩ := upToMemory_lockstep.advances _ _ _ _ start opened
  rw [parse_eq] at parse
  obtain ⟨raw, q, tried, rest⟩ := bind_ok parse
  cases raw with
  | true => exact absurd (beginsRaw_of_accepted opened tried) other
  | false =>
    obtain ⟨q', tried', alike⟩ := grammarRaw_upToMemory alike tried
    obtain ⟨parsed', rest', alike⟩ := upToMemory_lockstep.afterRaw _ _ _ _ alike rest
    have command' : parseCommand (some b) p = .ok (verdict, parsed') := by
      have run : parseTokens (prepare (some b) p) = .ok (verdict, parsed') := by
        rw [parseTokens, ok_bind opened', parse_eq]
        exact (orM_false tried').trans rest'
      exact run
    cases verdict with
    | true =>
      obtain ⟨t, finished, alike⟩ := finishPacket_lockstep upToMemory_lockstep.onPacket
        (fun _ _ alike => alike.result.type) _ _ _ _ alike later
      exact ⟨t, (ok_bind command').trans finished, alike⟩
    | false =>
      obtain ⟨t, trashed, alike⟩ := parseError_upToMemory a b _ _ _ _ alike later
      exact ⟨t, (ok_bind command').trans trashed, alike⟩

def rawContent (null : Bool) (text : List Char) : Content :=
  if null then ⟨.undef, none, none⟩ else ⟨.raw, some ⟨hexBytes text⟩, none⟩

def readingAt (p : Parser σ) (r : Result) (scanner : σ) (curr : Tok) : Parser σ :=
  { p with scanner, curr, result := some r }

omit [TokenSource σ] in
theorem makeRaw_content (p : Parser σ) (null : Bool) (text : List Char) (scanner : σ) (curr : Tok) :
    ∃ q r, makeRaw text (readingAt p ⟨.undef, .garbage null⟩ scanner curr) =
        .ok ((), readingAt q r scanner curr) ∧
      contentOf r = rawContent null text ∧ r.type ≠ .dcc := by
  cases null with
  | false =>
    exact ⟨{ p with created := p.created + 1 }, ⟨.raw, .packet ⟨p.created, ⟨hexBytes text⟩⟩⟩,
      rfl, rfl, nofun⟩
  | true => exact ⟨p, ⟨.undef, .garbage true⟩, rfl, rfl, nofun⟩

omit [TokenSource σ] in
/-- Only loco packets are finished off. -/
theorem finishPacket_other {r : Result} (other : r.type ≠ .dcc) (scanner : σ) (curr : Tok) :
    finishPacket (readingAt p r scanner curr) = .ok (true, readingAt p r scanner curr) := by
  obtain ⟨type, payload⟩ := r
  cases type with
  | dcc => exact absurd rfl other
  | undef | sys | raw => rfl

/-- Before the token RAW, with a result as malloc left it and HEX and a further
token to come, `raw` accepts, whatever its action makes of the result. -/
theorem grammarRaw_runs (p : Parser σ) (null : Bool) (second : TokenSource.nextToken s₁ = .ok (.hex, s₂))
    (third : TokenSource.nextToken s₂ = .ok (tok, s₃)) :
    ∃ q r, grammarRaw (readingAt p ⟨.undef, .garbage null⟩ s₁ .raw) =
        .ok (true, readingAt q r s₃ tok) ∧
      contentOf r = rawContent null (TokenSource.value s₂).text ∧ r.type ≠ .dcc := by
  have word : accept .raw (readingAt p ⟨.undef, .garbage null⟩ s₁ .raw) =
      .ok (true, readingAt p ⟨.undef, .garbage null⟩ s₂ .hex) := by
    rw [accept, ok_bind (acceptNoAdvance_eq .raw _)]
    exact ok_bind (advance_ok.mpr ⟨.hex, s₂, second, rfl⟩)
  have reach : (accept .raw <&&> acceptNoAdvance .hex)
      (readingAt p ⟨.undef, .garbage null⟩ s₁ .raw) =
        .ok (true, readingAt p ⟨.undef, .garbage null⟩ s₂ .hex) := andM_true word
  have digits : value (readingAt p ⟨.undef, .garbage null⟩ s₂ .hex) =
      .ok (TokenSource.value s₂, readingAt p ⟨.undef, .garbage null⟩ s₂ .hex) := rfl
  obtain ⟨q, r, made, content, other⟩ := makeRaw_content p null (TokenSource.value s₂).text s₂ .hex
  have advanced : advance (readingAt q r s₂ .hex) = .ok ((), readingAt q r s₃ tok) :=
    advance_ok.mpr ⟨tok, s₃, third, rfl⟩
  have action : (do makeRaw (← value).text; advance; return true : Parse σ Bool)
      (readingAt p ⟨.undef, .garbage null⟩ s₂ .hex) = .ok (true, readingAt q r s₃ tok) :=
    (ok_bind digits).trans ((ok_bind made).trans (ok_bind advanced))
  refine ⟨q, r, ?_, content, other⟩
  rw [grammarRaw, ok_bind reach]
  exact action

theorem beginsRaw_told {p : Parser σ} (raw : BeginsRaw p) : ∃ text, ∀ null,
    toldBy (parserStart (some null) p) = some (true, some (rawContent null text)) := by
  obtain ⟨s₁, s₂, s₃, tok, first, second, third⟩ := raw
  refine ⟨(TokenSource.value s₂).text, fun null => ?_⟩
  obtain ⟨q, r, accepted, content, other⟩ := grammarRaw_runs p null second third
  have opened : advance (prepare (some null) p) =
      .ok ((), readingAt p ⟨.undef, .garbage null⟩ s₁ .raw) := advance_ok.mpr ⟨.raw, s₁, first, rfl⟩
  have parsed : parseTokens (prepare (some null) p) = .ok (true, readingAt q r s₃ tok) := by
    rw [parseTokens, ok_bind opened, parse_eq]
    exact orM_true accepted
  have command : parseCommand (some null) p = .ok (true, readingAt q r s₃ tok) := parsed
  have finished : parserStart (some null) p = .ok (true, readingAt q r s₃ tok) :=
    (ok_bind command).trans (finishPacket_other other s₃ tok)
  rw [finished]
  exact congrArg (fun content => some (true, some content)) content

/-- A call is independent of the memory of its result exactly if `raw` is not
what it accepts. -/
theorem parserStart_memory_iff (p : Parser σ) (a b : Bool) :
    toldBy (parserStart (some a) p) = toldBy (parserStart (some b) p) ↔ a = b ∨ ¬ BeginsRaw p := by
  constructor
  · intro same
    by_cases raw : BeginsRaw p
    · obtain ⟨text, tells⟩ := beginsRaw_told raw
      rw [tells a, tells b] at same
      left
      cases a <;> cases b <;> first | rfl | cases same
    · exact Or.inr raw
  · rintro (rfl | other)
    · rfl
    · cases left : parserStart (some a) p with
      | ok answer =>
        obtain ⟨code, s⟩ := answer
        obtain ⟨t, right, alike⟩ := parserStart_upToMemory b other left
        simp only [right, toldBy, outcome, Option.map_some, alike.result.content]
      | error fault =>
        cases right : parserStart (some b) p with
        | ok answer =>
          obtain ⟨code, s⟩ := answer
          obtain ⟨t, wrong, -⟩ := parserStart_upToMemory a other right
          rw [left] at wrong
          cases wrong
        | error fault' => rfl

/-- A result object as malloc leaves it: the number in its type, which is cleared
at once, and the address in its payload. -/
structure Malloced where
  type : Nat
  payload : Nat

def Malloced.null (memory : Malloced) : Bool := memory.payload = 0

/-- `DSL_parser_start(&result)`, where `memory` is what malloc returns. -/
def startIn (memory : Malloced) : Parse σ Bool := parserStart (some memory.null)

/-- Two calls say the same of every stream, but for an accepted `raw` with NULL
in the payload of one of them only. -/
theorem result_memory_iff (p : Parser σ) (m m' : Malloced) :
    toldBy (startIn m p) = toldBy (startIn m' p) ↔
      (m.payload = 0 ↔ m'.payload = 0) ∨ ¬ BeginsRaw p := by
  have nulls : (m.payload = 0 ↔ m'.payload = 0) ↔ m.null = m'.null := by
    simp only [Malloced.null, decide_eq_decide]
  rw [nulls]
  exact parserStart_memory_iff p m.null m'.null

/-- With NULL left in the payload, `raw 0xFF` is accepted without its packet. -/
theorem raw_depends_on_memory :
    toldBy (startIn ⟨0, 1⟩ (typed "raw 0xFF\n")) = some (true, some ⟨.raw, some ⟨[0xFF]⟩, none⟩) ∧
      toldBy (startIn ⟨0, 0⟩ (typed "raw 0xFF\n")) = some (true, some ⟨.undef, none, none⟩) := by
  decide +kernel

end Freedcc.Parser
