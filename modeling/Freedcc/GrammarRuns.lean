import Freedcc.GrammarCases

/-! What the parser does on a token sequence: every alternative gives up, takes a
command as it should, or accepts in a muddle, and which of these is read off the
tokens. -/
namespace Freedcc.Grammar
open Dcc PartialProgram Freedcc.Parser

/-- With a result object, and before a list of tokens. -/
def standing (p : Parser Replay) (r : Result) (ts : List Token) : Parser Replay :=
  { p with result := some r }.facing ts

def draft (id : Nat) (f : Fields) : Result := ⟨.dcc, .packet ⟨id, f.packet⟩⟩

section Steps
variable (p : Parser Replay) (r : Result)

theorem onPacket_standing (change : Packet → Packet) (ts : List Token) :
    onPacket change (standing p r ts) = .ok ((), standing p (r.write change) ts) := by
  cases ts <;> rfl

theorem makePacket_standing (type : ResType) (packet : Packet) (ts : List Token) :
    makePacket type packet (standing p r ts) = .ok ((), standing
      { p with created := p.created + 1 } ⟨type, .packet ⟨p.created, packet⟩⟩ ts) := by
  cases ts <;> rfl

theorem makeCmd_standing (cmd : SysCmd) (ts : List Token) :
    makeCmd cmd (standing p r ts) = .ok ((), standing p ⟨.sys, .cmd cmd⟩ ts) := by
  cases ts <;> rfl

theorem advance_standing (first token : Token) (rest : List Token) :
    advance (standing p r (first :: token :: rest)) = .ok ((), standing p r (token :: rest)) :=
  advance_at _

theorem value_standing (token : Token) (rest : List Token) :
    value (standing p r (token :: rest)) = .ok (token.2, standing p r (token :: rest)) := rfl

theorem accept_standing (u : Value) (token : Token) (rest : List Token) :
    accept tok (standing p r ((tok, u) :: token :: rest)) =
      .ok (true, standing p r (token :: rest)) := accept_hit _ u

theorem accept_other (other : token.1 ≠ tok) (rest : List Token) :
    accept tok (standing p r (token :: rest)) = .ok (false, standing p r (token :: rest)) :=
  accept_miss _ other.symm

theorem acceptNoAdvance_standing (tok : Tok) (token : Token) (rest : List Token) :
    acceptNoAdvance tok (standing p r (token :: rest)) =
      .ok (tok = token.1, standing p r (token :: rest)) := rfl

theorem acceptNoAdvance_other (other : token.1 ≠ tok) (rest : List Token) :
    acceptNoAdvance tok (standing p r (token :: rest)) =
      .ok (false, standing p r (token :: rest)) := by
  rw [acceptNoAdvance_standing, decide_eq_false other.symm]

theorem hex_missing (u : Value) (cut : token.1 ≠ .hex) (rest : List Token) :
    (accept .raw <&&> acceptNoAdvance .hex) (standing p r ((.raw, u) :: token :: rest)) =
      .ok (false, standing p r (token :: rest)) :=
  (andM_true (accept_standing p r u token rest)).trans (acceptNoAdvance_other p r cut rest)

theorem write_draft {change : Packet → Packet} {write : Fields → Fields}
    (written : ∀ f : Fields, change f.packet = (write f).packet) (id : Nat) (f : Fields) :
    (draft id f).write change = draft id (write f) := by
  simp only [draft, Result.write, written]

end Steps

section Clauses
variable {word : Tok} {write : Packet → BitVec 16 → Packet}

theorem clause_fails (clause : Clause word ts none us) (p : Parser Replay) (r : Result) :
    grammarClause word write (standing p r ts) = .ok (false, standing p r us) := by
  cases clause with
  | half cut =>
    rw [grammarClause, ok_bind (accept_standing p r _ _ _)]
    simp only [if_true]
    rw [ok_bind (acceptNoAdvance_other p r cut _)]
    rfl
  | absent other =>
    rw [grammarClause, ok_bind (accept_other p r other _)]
    rfl

theorem clause_holds (clause : Clause word ts (some v) us) (known : word ≠ .unknown)
    (ended : Ended ts) (p : Parser Replay) (r : Result) :
    grammarClause word write (standing p r ts) =
      .ok (true, standing p (r.write (write · v.number)) us) := by
  cases clause with
  | whole =>
    obtain ⟨_, _, same, ended⟩ := ended.next known
    cases same
    obtain ⟨next, more, rfl, -⟩ := ended.next (by simp)
    rw [grammarClause, ok_bind (accept_standing p r _ _ _)]
    simp only [if_true]
    rw [ok_bind (acceptNoAdvance_standing p r _ _ _)]
    simp only [decide_true, if_true]
    rw [ok_bind (value_standing p r _ _), ok_bind (onPacket_standing p r _ _),
      ok_bind (advance_standing p _ _ _ _)]
    rfl

end Clauses

/-! The two orders of the clauses on a draft. -/

section Pairs

variable {one two : Tok} {write₁ write₂ : Packet → BitVec 16 → Packet}
  {fields₁ fields₂ : Fields → BitVec 16 → Fields}
  (written₁ : ∀ (f : Fields) number, write₁ f.packet number = (fields₁ f number).packet)
  (written₂ : ∀ (f : Fields) number, write₂ f.packet number = (fields₂ f number).packet)
  (known₁ : one ≠ .unknown) (known₂ : two ≠ .unknown)
include written₁ written₂ known₁ known₂

omit written₂ known₂ in
theorem pair_fails (pair : PairFails one two ts us) (ended : Ended ts) (p : Parser Replay)
    (id : Nat) (f : Fields) : ∃ g,
    (grammarClause one write₁ <&&> grammarClause two write₂) (standing p (draft id f) ts) =
      .ok (false, standing p (draft id g) us) := by
  cases pair with
  | first none =>
    exact ⟨f, andM_false (clause_fails none p (draft id f))⟩
  | second some none =>
    rename_i v _
    refine ⟨fields₁ f v.number, (andM_true (clause_holds some known₁ ended p _)).trans ?_⟩
    rw [write_draft (written₁ · v.number)]
    exact clause_fails none p _

theorem pair_holds (first : Clause one ts (some v) us) (second : Clause two us (some w) vs)
    (ended : Ended ts) (p : Parser Replay) (id : Nat) (f : Fields) :
    (grammarClause one write₁ <&&> grammarClause two write₂) (standing p (draft id f) ts) =
      .ok (true, standing p (draft id (fields₂ (fields₁ f v.number) w.number)) vs) := by
  apply (andM_true (clause_holds first known₁ ended p _)).trans
  rw [write_draft (written₁ · v.number)]
  apply (clause_holds second known₂ (first.ended known₁ ended) p _).trans
  rw [write_draft (written₂ · w.number)]

end Pairs

def alternative : Tok → Parse Replay Bool
  | .raw => grammarRaw
  | .help => grammarHelp
  | .show => grammarShow
  | .cache => grammarCache
  | .forward => grammarForward
  | .reverse => grammarReverse
  | .stop => grammarStop
  | _ => pure false

/-- An alternative whose word does not come next leaves everything as it is. -/
theorem other_runs (member : word ∈ alternatives) (other : token.1 ≠ word) (p : Parser Replay)
    (r : Result) : alternative word (standing p r (token :: rest)) =
      .ok (false, standing p r (token :: rest)) := by
  have missed := accept_other p r other rest
  simp only [alternatives, List.mem_cons, List.not_mem_nil, or_false] at member
  rcases member with rfl | rfl | rfl | rfl | rfl | rfl | rfl
  · exact (ok_bind (andM_false missed)).trans rfl
  all_goals exact (ok_bind missed).trans rfl

/-- A driving command up to its clauses. -/
theorem drive_runs (keyword : Tok) (known : keyword ≠ .unknown) (direction : Int)
    (ended : Ended ((keyword, u) :: ts)) (p : Parser Replay) (r : Result) :
    grammarDrive keyword direction (standing p r ((keyword, u) :: ts)) =
      (do
        if ← (grammarAddr <&&> grammarSpeed) <||> (grammarSpeed <&&> grammarAddr) then
          onPacket setPreamble
          onPacket setSpeedDirectionPreamble
          onPacket (setDirection · direction)
          return true
        else return false)
      (standing { p with created := p.created + 1 } (draft p.created .fresh) ts) := by
  obtain ⟨token, rest, rfl, -⟩ := ended.next known
  rw [grammarDrive, ok_bind (accept_standing p r _ _ _)]
  simp only [if_true]
  rw [ok_bind (makePacket_standing p r _ _ _)]
  rfl

/-- The fields that a number goes into. -/
def addressed (f : Fields) (number : BitVec 16) : Fields := { f with address := addressOf number }

def sped (f : Fields) (number : BitVec 16) : Fields := { f with speed := speedOf number }

theorem setAddress_number (f : Fields) (number : BitVec 16) :
    setAddress f.packet (number.setWidth 8) = (addressed f number).packet :=
  setAddress_packet f _

theorem setSpeed_number (f : Fields) (number : BitVec 16) :
    setSpeed f.packet (number.setWidth 8).toNat = (sped f number).packet :=
  setSpeed_packet f _

section Driving
variable (p : Parser Replay) (id : Nat) (f : Fields)

theorem addrSpeed_fails (pair : PairFails .addr .speed ts us) (ended : Ended ts) :
    ∃ g, (grammarAddr <&&> grammarSpeed) (standing p (draft id f) ts) =
      .ok (false, standing p (draft id g) us) :=
  pair_fails setAddress_number (by simp) pair ended p id f

theorem speedAddr_fails (pair : PairFails .speed .addr ts us) (ended : Ended ts) :
    ∃ g, (grammarSpeed <&&> grammarAddr) (standing p (draft id f) ts) =
      .ok (false, standing p (draft id g) us) :=
  pair_fails setSpeed_number (by simp) pair ended p id f

theorem addrSpeed_holds (first : Clause .addr ts (some a) us)
    (second : Clause .speed us (some s) vs) (ended : Ended ts) :
    (grammarAddr <&&> grammarSpeed) (standing p (draft id f) ts) = .ok (true,
      standing p (draft id (sped (addressed f a.number) s.number)) vs) :=
  pair_holds setAddress_number setSpeed_number (by simp) (by simp) first second ended p id f

theorem speedAddr_holds (first : Clause .speed ts (some s) us)
    (second : Clause .addr us (some a) vs) (ended : Ended ts) :
    (grammarSpeed <&&> grammarAddr) (standing p (draft id f) ts) = .ok (true,
      standing p (draft id (addressed (sped f s.number) a.number)) vs) :=
  pair_holds setSpeed_number setAddress_number (by simp) (by simp) first second ended p id f

/-- What follows the clauses makes a frame of the draft. -/
theorem drive_finishes (direction : Int) (ts : List Token) :
    (do
      onPacket setPreamble
      onPacket setSpeedDirectionPreamble
      onPacket (setDirection · direction)
      return true : Parse Replay Bool) (standing p (draft id f) ts) =
    .ok (true, standing p (draft id { f with
      preamble := true, sdPreamble := true, direction := direction ≠ 0 }) ts) := by
  have directed : ∀ f : Fields,
      setDirection f.packet direction = { f with direction := direction ≠ 0 }.packet :=
    (setDirection_packet · direction)
  rw [ok_bind (onPacket_standing p _ _ _), ok_bind (onPacket_standing p _ _ _),
    ok_bind (onPacket_standing p _ _ _), write_draft setPreamble_packet,
    write_draft setSpeedDirectionPreamble_packet,
    write_draft directed]
  rfl

end Driving

theorem stray_drive (keyword : Tok) (known : keyword ≠ .unknown) (direction : Int)
    (ended : Ended ((keyword, u) :: ts)) (first : PairFails .addr .speed ts us)
    (second : PairFails .speed .addr us vs) (p : Parser Replay) (r : Result) :
    ∃ p' r', grammarDrive keyword direction (standing p r ((keyword, u) :: ts)) =
      .ok (false, standing p' r' vs) := by
  have runs := drive_runs keyword known direction ended p r
  obtain ⟨_, _, rfl, later⟩ := ended.next known
  obtain ⟨g, one⟩ := addrSpeed_fails { p with created := p.created + 1 } p.created .fresh first later
  obtain ⟨h, two⟩ := speedAddr_fails { p with created := p.created + 1 } p.created g second
    (first.ended (by simp) (by simp) later)
  exact ⟨_, _, runs.trans ((ok_bind ((ok_bind one).trans two)).trans rfl)⟩

/-- An alternative that gives up has taken what `Stray` says. -/
theorem stray_runs (member : word ∈ alternatives) (stray : Stray word ts us) (ended : Ended ts)
    (p : Parser Replay) (r : Result) :
    ∃ p' r', alternative word (standing p r ts) = .ok (false, standing p' r' us) := by
  cases stray with
  | other other => exact ⟨p, r, other_runs member other p r⟩
  | raw cut =>
    exact ⟨p, r, (ok_bind (hex_missing p r _ cut _)).trans rfl⟩
  | «show» cut =>
    refine ⟨p, r, (ok_bind (accept_standing p r _ _ _)).trans ?_⟩
    exact (ok_bind (acceptNoAdvance_other p r cut _)).trans rfl
  | cache noClear noShow =>
    refine ⟨p, r, (ok_bind (accept_standing p r _ _ _)).trans ?_⟩
    apply (ok_bind (acceptNoAdvance_other p r noClear _)).trans
    exact (ok_bind (acceptNoAdvance_other p r noShow _)).trans rfl
  | cacheShow cut =>
    refine ⟨p, r, (ok_bind (accept_standing p r _ _ _)).trans ?_⟩
    have noClear : Tok.show ≠ .clear := by simp
    apply (ok_bind (acceptNoAdvance_other p r noClear _)).trans
    apply (ok_bind (acceptNoAdvance_standing p r .show _ _)).trans
    apply (ok_bind (advance_standing p r _ _ _)).trans
    exact (ok_bind (acceptNoAdvance_other p r cut _)).trans rfl
  | drive drives first second =>
    rcases drives with rfl | rfl
    · exact stray_drive .forward (by simp) directionForward ended first second p r
    · exact stray_drive .reverse (by simp) directionReverse ended first second p r

end Freedcc.Grammar
