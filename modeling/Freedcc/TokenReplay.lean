import Freedcc.Lockstep

/-! A parse depends on nothing but the tokens: it runs the same on any two token
sources that hand over the same ones, and on a list of them. -/
namespace Freedcc
open PartialProgram

abbrev Token := Tok × Value

structure Replay where
  tokens : List Token
  value : Value

namespace Replay

def nextToken : StateT Replay (Except Fault) Tok := fun replay =>
  match replay.tokens with
  | [] => .error .awaitingInput
  | (tok, value) :: rest => .ok (tok, { tokens := rest, value })

instance : TokenSource Replay where
  reset := id
  nextToken := nextToken
  value := Replay.value
  flush := id

end Replay

/-- A source that counts the calls of `nextToken`. -/
structure Counted (σ : Type) where
  source : σ
  calls : Nat

instance [TokenSource σ] : TokenSource (Counted σ) where
  reset counted := { counted with source := TokenSource.reset counted.source }
  nextToken counted := do
    let (tok, source) ← TokenSource.nextToken counted.source
    return (tok, { source, calls := counted.calls + 1 })
  value counted := TokenSource.value counted.source
  flush counted := { counted with source := TokenSource.flush counted.source }

/-- The tokens a source delivers up to the first `unknown`, and what it is then. -/
inductive Delivers {σ : Type} [TokenSource σ] : σ → List Token → σ → Prop where
  | last (read : TokenSource.nextToken s = .ok (.unknown, t)) :
      Delivers s [(.unknown, TokenSource.value t)] t
  | token (read : TokenSource.nextToken s = .ok (tok, t)) (known : tok ≠ .unknown)
      (later : Delivers t tokens u) : Delivers s ((tok, TokenSource.value t) :: tokens) u

/-- These tokens by running the source, if there are no more than so many. -/
def delivered [TokenSource σ] : Nat → σ → Option (List Token)
  | 0, _ => none
  | bound + 1, s =>
    match TokenSource.nextToken s with
    | .error _ => none
    | .ok (.unknown, t) => some [(.unknown, TokenSource.value t)]
    | .ok (tok, t) => (delivered bound t).map ((tok, TokenSource.value t) :: ·)

theorem delivers_of_delivered [TokenSource σ] {s : σ} (run : delivered n s = some tokens) :
    ∃ last, Delivers s tokens last := by
  induction n generalizing s tokens with
  | zero => simp [delivered] at run
  | succ n ih =>
    rw [delivered] at run
    split at run
    · contradiction
    · rename_i t read
      obtain rfl := Option.some.inj run
      exact ⟨t, .last read⟩
    · rename_i tok t known read
      obtain ⟨later, rest, rfl⟩ := Option.map_eq_some_iff.mp run
      obtain ⟨last, delivers⟩ := ih rest
      exact ⟨last, .token read known delivers⟩

/-- Tokens come to an end when each that is known takes something. -/
theorem delivers_of_progress [TokenSource σ] (Good : σ → Prop) (size : σ → Nat)
    (next : ∀ s, Good s → ∃ tok t, TokenSource.nextToken s = .ok (tok, t) ∧
      (tok ≠ .unknown → Good t ∧ size t < size s)) {s : σ} (good : Good s) :
    ∃ tokens last, Delivers s tokens last := by
  generalize length : size s = n
  induction n using Nat.strong_induction_on generalizing s with
  | _ n ih =>
    obtain ⟨tok, t, read, later⟩ := next s good
    by_cases known : tok = .unknown
    · subst known
      exact ⟨_, t, .last read⟩
    · obtain ⟨good, shorter⟩ := later known
      obtain ⟨tokens, last, delivers⟩ := ih (size t) (length ▸ shorter) good rfl
      exact ⟨_, last, .token read known delivers⟩

/-- A list of tokens of which the last is the first `unknown`. -/
inductive Ended : List Token → Prop where
  | last : Ended [(.unknown, value)]
  | token (known : tok ≠ .unknown) (later : Ended rest) : Ended ((tok, value) :: rest)

theorem Delivers.ended [TokenSource σ] {s u : σ} (delivers : Delivers s tokens u) :
    Ended tokens := by
  induction delivers with
  | last read => exact .last
  | token read known later ih => exact .token known ih

theorem Ended.tail (ended : Ended ((tok, value) :: rest)) (known : tok ≠ .unknown) :
    Ended rest := by
  cases ended with
  | last => exact absurd rfl known
  | token _ later => exact later

theorem Ended.next (ended : Ended ((tok, value) :: rest)) (known : tok ≠ .unknown) :
    ∃ next more, rest = next :: more ∧ Ended (next :: more) := by
  cases ended with
  | last => exact absurd rfl known
  | token _ later =>
    cases later with
    | last => exact ⟨_, _, rfl, .last⟩
    | token known' later => exact ⟨_, _, rfl, .token known' later⟩

theorem Ended.drop {tokens : List Token} (ended : Ended (tokens ++ rest))
    (known : ∀ token ∈ tokens, token.1 ≠ .unknown) : Ended rest := by
  induction tokens with
  | nil => exact ended
  | cons token tokens ih =>
    exact ih (ended.tail (known token List.mem_cons_self))
      fun other member => known other (List.mem_cons_of_mem _ member)

theorem Ended.nonempty (ended : Ended tokens) : tokens ≠ [] := by
  rintro rfl
  cases ended

theorem Delivers.counted [TokenSource σ] {s u : σ} (delivers : Delivers s tokens u) (calls : Nat) :
    Delivers (⟨s, calls⟩ : Counted σ) tokens ⟨u, calls + tokens.length⟩ := by
  induction delivers generalizing calls with
  | @last s t read =>
    have counted : TokenSource.nextToken (⟨s, calls⟩ : Counted σ) =
        .ok (.unknown, ⟨t, calls + 1⟩) := by
      simp [TokenSource.nextToken, read, bind, Except.bind, pure, Except.pure]
    exact .last counted
  | @token s tok t tokens u read known later ih =>
    have counted : TokenSource.nextToken (⟨s, calls⟩ : Counted σ) = .ok (tok, ⟨t, calls + 1⟩) := by
      simp [TokenSource.nextToken, read, bind, Except.bind, pure, Except.pure]
    have more := ih (calls + 1)
    rw [Nat.add_right_comm] at more
    exact .token counted known more

theorem Counted.next [TokenSource σ] {s t : Counted σ}
    (read : TokenSource.nextToken s = .ok (tok, t)) : t.calls = s.calls + 1 := by
  cases first : TokenSource.nextToken s.source with
  | error fault => simp [TokenSource.nextToken, first, bind, Except.bind] at read
  | ok pair =>
    simp only [TokenSource.nextToken, first, bind, Except.bind, pure, Except.pure,
      Except.ok.injEq, Prod.mk.injEq] at read
    obtain ⟨-, rfl⟩ := read
    rfl

theorem Delivers.calls [TokenSource σ] {s u : Counted σ} (delivers : Delivers s tokens u) :
    u.calls = s.calls + tokens.length := by
  induction delivers with
  | last read => exact Counted.next read
  | token read known later ih =>
    rw [ih, Counted.next read, List.length_cons, Nat.add_right_comm, Nat.add_assoc]

/-- The same result if `k` more packets had been made before. -/
def Result.renumber (k : Nat) (result : Result) : Result :=
  match result.payload with
  | .packet ref => { result with payload := .packet { ref with id := ref.id + k } }
  | _ => result

@[simp] theorem Result.renumber_zero (result : Result) : result.renumber 0 = result := by
  obtain ⟨type, payload⟩ := result
  cases payload <;> rfl

theorem Result.renumber_write (k : Nat) (change : Dcc.Packet → Dcc.Packet) (result : Result) :
    (result.write change).renumber k = (result.renumber k).write change := by
  obtain ⟨type, payload⟩ := result
  cases payload <;> rfl

theorem Result.type_renumber (k : Nat) (result : Result) : (result.renumber k).type = result.type := by
  obtain ⟨type, payload⟩ := result
  cases payload <;> rfl

theorem Result.present_renumber (k : Nat) (result : Result) :
    (result.renumber k).payload.present = result.payload.present := by
  obtain ⟨type, payload⟩ := result
  cases payload <;> rfl

namespace Parser
variable {σ τ : Type} [TokenSource σ] [TokenSource τ]

/-- What the one source delivers, so does the other. -/
structure Follows (R : σ → τ → Prop) : Prop where
  next : Simulates R (TokenSource.nextToken : StateT σ (Except Fault) Tok) TokenSource.nextToken
  value : ∀ s t, R s t → TokenSource.value s = TokenSource.value t

/-- Two parsers at the same point, the second having made `k` packets more. -/
structure Alongside (R : σ → τ → Prop) (k : Nat) (p : Parser σ) (q : Parser τ) : Prop where
  scanner : R p.scanner q.scanner
  curr : p.curr = q.curr
  result : q.result = p.result.map (·.renumber k)
  created : q.created = p.created + k

variable {R : σ → τ → Prop} {k : Nat}

theorem advance_simulates (follows : Follows R) :
    Simulates (Alongside R k) (advance : Parse σ Unit) advance := by
  intro p q a p' related returned
  obtain ⟨curr, scanner, read, rfl⟩ := advance_ok.mp returned
  obtain ⟨scanner', same, next⟩ := follows.next _ _ curr scanner related.scanner read
  exact ⟨{ q with scanner := scanner', curr }, advance_ok.mpr ⟨_, _, same, rfl⟩,
    next, rfl, related.result, related.created⟩

section Actions

omit [TokenSource σ] [TokenSource τ]

theorem onPacket_simulates (change : Dcc.Packet → Dcc.Packet) :
    Simulates (Alongside R k) (onPacket change : Parse σ Unit) (onPacket change) := by
  refine Simulates.modify fun p q related => ?_
  obtain ⟨scanner, curr, result, created⟩ := related
  refine ⟨scanner, curr, ?_, created⟩
  rw [result]
  cases p.result with
  | none => rfl
  | some r => exact congrArg some (r.renumber_write k change).symm

theorem makePacket_simulates (type : ResType) (packet : Dcc.Packet) :
    Simulates (Alongside R k) (makePacket type packet : Parse σ Unit) (makePacket type packet) := by
  refine Simulates.modify fun p q related => ?_
  obtain ⟨scanner, curr, result, created⟩ := related
  cases made : p.result with
  | none =>
    rw [made] at result
    simp only [result, Option.map_none]
    exact ⟨scanner, curr, by rw [result, made], created⟩
  | some r =>
    rw [made] at result
    simp only [result, Option.map_some]
    exact ⟨scanner, curr, by rw [created]; rfl, by simp only [created, Nat.add_right_comm]⟩

theorem makeCmd_simulates (cmd : SysCmd) :
    Simulates (Alongside R k) (makeCmd cmd : Parse σ Unit) (makeCmd cmd) := by
  refine Simulates.modify fun p q related => ?_
  obtain ⟨scanner, curr, result, created⟩ := related
  refine ⟨scanner, curr, ?_, created⟩
  rw [result]
  cases p.result <;> rfl

theorem makeRaw_simulates (text : List Char) :
    Simulates (Alongside R k) (makeRaw text : Parse σ Unit) (makeRaw text) := by
  intro p q a p' related returned
  obtain ⟨_, _, read, later⟩ := bind_ok returned
  obtain ⟨rfl, rfl⟩ := get_ok.mp read
  have same : makeRaw text q = (if q.result.any (·.payload.present) then
    makePacket .raw ⟨hexBytes text⟩ else pure ()) q := rfl
  have present : q.result.any (·.payload.present) = p.result.any (·.payload.present) := by
    rw [related.result]
    cases p.result with
    | none => rfl
    | some r => exact r.present_renumber k
  rw [same, present]
  exact (Simulates.ite (fun _ => makePacket_simulates _ _) fun _ => .done ()) p q a p' related later

theorem finishPacket_simulates :
    Simulates (Alongside R k) (finishPacket : Parse σ Bool) finishPacket := by
  apply finishPacket_lockstep onPacket_simulates
  intro p q along
  rw [along.result, Option.map_map]
  apply Option.map_congr
  intro r _
  exact (r.type_renumber k).symm

end Actions

section Grammar
variable (follows : Follows R)
include follows

theorem alongside_lockstep : Lockstep (Alongside R k : Parser σ → Parser τ → Prop) where
  curr _ _ along := along.curr
  token p q along := follows.value p.scanner q.scanner along.scanner
  advances := advance_simulates follows
  onPacket := onPacket_simulates
  makePacket := makePacket_simulates
  makeCmd := makeCmd_simulates

theorem parse_simulates : Simulates (Alongside R k) (parse : Parse σ Bool) parse :=
  (alongside_lockstep follows).parse makeRaw_simulates

/-- The parse of a token sequence, from its first token to the verdict. -/
theorem parseTokens_simulates :
    Simulates (Alongside R k) (parseTokens : Parse σ Bool) parseTokens :=
  (alongside_lockstep follows).parseTokens makeRaw_simulates

end Grammar

def Replays (last : σ) (replay : Replay) (source : σ) : Prop :=
  ((replay.tokens = [] ∧ source = last) ∨ Delivers source replay.tokens last) ∧
    TokenSource.value source = replay.value

theorem replays_follows (last : σ) : Follows (Replays last) := by
  constructor
  · rintro ⟨tokens, value⟩ source tok replay ⟨delivers, _⟩ read
    cases tokens with
    | nil => simp [TokenSource.nextToken, Replay.nextToken] at read
    | cons token rest =>
      have given := delivers.resolve_left fun none => by simp at none
      simp only [TokenSource.nextToken, Replay.nextToken, Except.ok.injEq, Prod.mk.injEq] at read
      obtain ⟨rfl, rfl⟩ := read
      cases given with
      | last read => exact ⟨last, read, Or.inl ⟨rfl, rfl⟩, rfl⟩
      | token read known later => exact ⟨_, read, Or.inr later, rfl⟩
  · rintro replay source ⟨_, same⟩
    exact same.symm

def replaying (p : Parser σ) (tokens : List Token) : Parser Replay :=
  { p with scanner := { tokens, value := TokenSource.value p.scanner } }

/-- A parse is a function of the tokens delivered. -/
theorem parseTokens_delivered {p : Parser σ} (delivers : Delivers p.scanner tokens last)
    (replayed : parseTokens (p.replaying tokens) = .ok (accepted, q)) :
    ∃ next, parseTokens p = .ok (accepted, next) ∧ Alongside (Replays last) 0 q next :=
  parseTokens_simulates (replays_follows last) _ p accepted q
    ⟨⟨Or.inr delivers, rfl⟩, rfl, by simp [replaying], rfl⟩ replayed

/-! Replaying a list: the state at a list has its first token as the current one. -/

section Position

/-- The parser with `tokens` before it, the first of them read. -/
def facing (p : Parser Replay) : List Token → Parser Replay
  | [] => p
  | (tok, value) :: rest => { p with curr := tok, scanner := { tokens := rest, value } }

variable (p : Parser Replay)

theorem advance_first (supply : p.scanner.tokens = token :: rest) :
    advance p = .ok ((), p.facing (token :: rest)) := by
  refine advance_ok.mpr ⟨token.1, ⟨rest, token.2⟩, ?_, rfl⟩
  simp [TokenSource.nextToken, Replay.nextToken, supply]

theorem advance_at : advance (p.facing (first :: token :: rest)) = .ok ((), p.facing (token :: rest)) :=
  advance_first _ rfl

theorem acceptNoAdvance_at (tok : Tok) :
    acceptNoAdvance tok (p.facing (token :: rest)) = .ok (tok = token.1, p.facing (token :: rest)) := rfl

theorem accept_hit (value : Value) :
    accept tok (p.facing ((tok, value) :: token :: rest)) = .ok (true, p.facing (token :: rest)) := by
  rw [accept, ok_bind (acceptNoAdvance_at p tok)]
  simp only [decide_true, if_true]
  rw [ok_bind (advance_at p)]
  rfl

theorem accept_miss (other : tok ≠ token.1) :
    accept tok (p.facing (token :: rest)) = .ok (false, p.facing (token :: rest)) := by
  rw [accept, ok_bind (acceptNoAdvance_at p tok)]
  simp only [other, decide_false, Bool.false_eq_true, if_false]
  rfl

end Position
end Parser
end Freedcc
