import Freedcc.Parser
import Freedcc.Lib.PartialProgram

/-! Two parsers in lockstep. A relation that every primitive of the parser keeps
is kept by the whole grammar; only the semantic action of `raw`, which looks at
the result object, is asked for apart. -/
namespace Freedcc.Parser
open PartialProgram
variable {σ τ : Type} [TokenSource σ] [TokenSource τ]

/-- Related parsers see the same token, and stay related by what either does. -/
structure Lockstep (P : Parser σ → Parser τ → Prop) : Prop where
  curr : ∀ p q, P p q → p.curr = q.curr
  token : ∀ p q, P p q → TokenSource.value p.scanner = TokenSource.value q.scanner
  advances : Simulates P (advance : Parse σ Unit) advance
  onPacket : ∀ change, Simulates P (onPacket change : Parse σ Unit) (onPacket change)
  makePacket : ∀ type packet,
    Simulates P (makePacket type packet : Parse σ Unit) (makePacket type packet)
  makeCmd : ∀ cmd, Simulates P (makeCmd cmd : Parse σ Unit) (makeCmd cmd)

def parseAfterRaw : Parse σ Bool :=
  (grammarHelp <||> grammarShow <||> grammarCache <||> grammarForward <||> grammarReverse)
    <||> grammarStop

theorem parse_eq : (parse : Parse σ Bool) = (grammarRaw <||> parseAfterRaw) := by
  simp only [parse, parseBeforeStop, parseAfterRaw, orM_assoc]

namespace Lockstep
variable {P : Parser σ → Parser τ → Prop} (lock : Lockstep P)
include lock

theorem acceptNoAdvance (tok : Tok) :
    Simulates P (acceptNoAdvance tok : Parse σ Bool) (acceptNoAdvance tok) := by
  intro p q a p' related returned
  cases returned
  exact ⟨q, by rw [lock.curr p q related]; rfl, related⟩

theorem value : Simulates P (value : Parse σ Value) value := by
  intro p q a p' related returned
  cases returned
  exact ⟨q, by rw [lock.token p q related]; rfl, related⟩

theorem accept (tok : Tok) : Simulates P (accept tok : Parse σ Bool) (accept tok) :=
  (lock.acceptNoAdvance tok).cond (lock.advances.bind fun _ => .done _) (.done _)

theorem reachRaw : Simulates P (Parser.accept .raw <&&> Parser.acceptNoAdvance .hex : Parse σ Bool)
    (Parser.accept .raw <&&> Parser.acceptNoAdvance .hex) :=
  (lock.accept .raw).and (lock.acceptNoAdvance .hex)

theorem grammarRaw
    (raw : ∀ text, Simulates P (makeRaw text : Parse σ Unit) (makeRaw text)) :
    Simulates P (grammarRaw : Parse σ Bool) grammarRaw := by
  refine lock.reachRaw.cond ?_ (.done _)
  refine lock.value.bind fun _ => (raw _).bind fun _ => ?_
  exact lock.advances.bind fun _ => .done _

theorem grammarHelp : Simulates P (grammarHelp : Parse σ Bool) grammarHelp :=
  (lock.accept .help).cond ((lock.makeCmd _).bind fun _ => .done _) (.done _)

theorem grammarShow : Simulates P (grammarShow : Parse σ Bool) grammarShow := by
  refine (lock.accept .show).cond ?_ (.done _)
  refine (lock.acceptNoAdvance .status).cond ?_ (.done _)
  exact (lock.makeCmd _).bind fun _ => .done _

theorem grammarCache : Simulates P (grammarCache : Parse σ Bool) grammarCache := by
  refine (lock.accept .cache).cond ?_ (.done _)
  apply (lock.acceptNoAdvance .clear).cond ((lock.makeCmd _).bind fun _ => .done _)
  refine (lock.acceptNoAdvance .show).cond ?_ (.done _)
  refine lock.advances.bind fun _ => ?_
  refine (lock.acceptNoAdvance .number).cond ?_ (.done _)
  exact lock.value.bind fun _ => (lock.makeCmd _).bind fun _ => .done _

theorem grammarClause (word : Tok) (write : Dcc.Packet → BitVec 16 → Dcc.Packet) :
    Simulates P (grammarClause word write : Parse σ Bool) (grammarClause word write) := by
  refine (lock.accept word).cond ?_ (.done _)
  refine (lock.acceptNoAdvance .number).cond ?_ (.done _)
  refine lock.value.bind fun _ => (lock.onPacket _).bind fun _ => ?_
  exact lock.advances.bind fun _ => .done _

theorem grammarDrive (keyword : Tok) (direction : Int) :
    Simulates P (grammarDrive keyword direction : Parse σ Bool) (grammarDrive keyword direction) := by
  have clause := lock.grammarClause
  refine (lock.accept keyword).cond ?_ (.done _)
  refine (lock.makePacket _ _).bind fun _ => ?_
  refine (((clause _ _).and (clause _ _)).or ((clause _ _).and (clause _ _))).cond ?_ (.done _)
  refine (lock.onPacket _).bind fun _ => (lock.onPacket _).bind fun _ => ?_
  exact (lock.onPacket _).bind fun _ => .done _

theorem grammarStop : Simulates P (grammarStop : Parse σ Bool) grammarStop := by
  refine (lock.accept .stop).cond ?_ (.done _)
  have head : Simulates P (grammarStopAddr : Parse σ Bool) grammarStopAddr :=
    (lock.makePacket _ _).bind fun _ => (lock.onPacket _).bind fun _ => lock.grammarClause _ _
  apply head.cond
  · exact (lock.onPacket _).bind fun _ => (lock.onPacket _).bind fun _ => .done _
  · exact (lock.accept .all).cond ((lock.onPacket _).bind fun _ => .done _)
      ((lock.onPacket _).bind fun _ => .done _)

theorem afterRaw : Simulates P (parseAfterRaw : Parse σ Bool) parseAfterRaw := by
  refine Simulates.or ?_ lock.grammarStop
  exact lock.grammarHelp.or <| lock.grammarShow.or <| lock.grammarCache.or <|
    (lock.grammarDrive _ _).or (lock.grammarDrive _ _)

theorem parse (raw : ∀ text, Simulates P (makeRaw text : Parse σ Unit) (makeRaw text)) :
    Simulates P (parse : Parse σ Bool) parse := by
  rw [parse_eq, parse_eq]
  exact (lock.grammarRaw raw).or lock.afterRaw

theorem parseTokens (raw : ∀ text, Simulates P (makeRaw text : Parse σ Unit) (makeRaw text)) :
    Simulates P (parseTokens : Parse σ Bool) parseTokens :=
  lock.advances.bind fun _ => lock.parse raw

end Lockstep

section Actions
omit [TokenSource σ]

/-- Storing a result reads nothing, and makes none where there was none. -/
theorem makePacket_total (type : ResType) (packet : Dcc.Packet) (p : Parser σ) :
    ∃ q, makePacket type packet p = .ok ((), q) ∧ q.scanner = p.scanner ∧ q.curr = p.curr ∧
      q.result.isSome = p.result.isSome := by
  obtain ⟨scanner, curr, result, created, trace⟩ := p
  cases result with
  | none => exact ⟨_, rfl, rfl, rfl, rfl⟩
  | some r => exact ⟨_, rfl, rfl, rfl, rfl⟩

theorem makeRaw_total (text : List Char) (p : Parser σ) :
    ∃ q, makeRaw text p = .ok ((), q) ∧ q.scanner = p.scanner ∧ q.curr = p.curr ∧
      q.result.isSome = p.result.isSome := by
  by_cases present : p.result.any (·.payload.present) = true
  · obtain ⟨q, made, same⟩ := makePacket_total .raw ⟨hexBytes text⟩ p
    refine ⟨q, ?_, same⟩
    rw [makeRaw, ok_bind (get_ok.mpr ⟨rfl, rfl⟩), if_pos present, made]
  · refine ⟨p, ?_, rfl, rfl, rfl⟩
    rw [makeRaw, ok_bind (get_ok.mpr ⟨rfl, rfl⟩), if_neg present]
    rfl

end Actions

omit [TokenSource σ] [TokenSource τ] in
/-- Results of one type are finished off alike. -/
theorem finishPacket_lockstep {P : Parser σ → Parser τ → Prop}
    (writes : ∀ change, Simulates P (onPacket change : Parse σ Unit) (onPacket change))
    (types : ∀ p q, P p q → p.result.map Result.type = q.result.map Result.type) :
    Simulates P (finishPacket : Parse σ Bool) finishPacket := by
  refine Simulates.get fun p q related => ?_
  have here : ∀ s t, s = p ∧ t = q → P s t := by
    rintro _ _ ⟨rfl, rfl⟩
    exact related
  have finish : Simulates (fun s t => s = p ∧ t = q)
      (do onPacket Dcc.setChecksum; onPacket Dcc.setPacketEnd; return true : Parse σ Bool)
      (do onPacket Dcc.setChecksum; onPacket Dcc.setPacketEnd; return true)
      fun _ => P :=
    Simulates.bind ((writes _).weaken here fun _ _ _ along => along) fun _ =>
      Simulates.bind (writes _) fun _ => .done _
  have same := types p q related
  cases left : p.result with
  | none => exact .throw _
  | some r =>
    rw [left, Option.map_some] at same
    obtain ⟨r', right, kind⟩ := Option.map_eq_some_iff.mp same.symm
    rw [right]
    obtain ⟨type, payload⟩ := r
    obtain ⟨type', payload'⟩ := r'
    obtain rfl : type' = type := kind
    cases type' with
    | dcc => exact finish
    | undef | sys | raw => exact .pure true here

end Freedcc.Parser
