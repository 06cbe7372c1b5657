import Freedcc.GrammarRuns

/-! What an accepting alternative has read, and the result it leaves. -/
namespace Freedcc.Grammar
open Dcc PartialProgram Freedcc.Parser

/-- What an alternative leaves for a command; a packet is still to be finished. -/
def Meaning.Drafted (r : Result) : Meaning → Prop
  | .dcc f => ∃ id g, r = draft id g ∧ g.finish = f
  | .raw bytes => ∃ id, r = ⟨.raw, .packet ⟨id, ⟨bytes⟩⟩⟩
  | .sys cmd => r = ⟨.sys, .cmd cmd⟩

/-- The alternative accepts a command, having read at most one token more. -/
def Takes (word : Tok) (ts : List Token) (p : Parser Replay) (r : Result) : Prop :=
  ∃ command rest meaning us p' r', ts = command ++ rest ∧ Command command meaning ∧
    command.length = reach ts ∧ meaning.Drafted r' ∧ us ≠ [] ∧ rest.length ≤ us.length ∧
    alternative word (standing p r ts) = .ok (true, standing p' r' us)

section Accepting
variable (p : Parser Replay) (r : Result)

theorem drive_takes (keyword : Tok) (known : keyword ≠ .unknown) (direction : Int)
    (clauses : Clauses tokens address speed) (ended : Ended ((keyword, u) :: (tokens ++ rest))) :
    ∃ id g, g.finish = frame address (direction ≠ 0) speed ∧
      ∃ p', grammarDrive keyword direction (standing p r ((keyword, u) :: (tokens ++ rest))) =
        .ok (true, standing p' (draft id g) rest) := by
  have runs := drive_runs keyword known direction ended p r
  obtain ⟨_, _, split, later⟩ := ended.next known
  rw [← split] at later
  have holds : ∃ g : Fields, g.address = address ∧ g.speed = speed ∧
      ((grammarAddr <&&> grammarSpeed) <||> (grammarSpeed <&&> grammarAddr))
        (standing { p with created := p.created + 1 } (draft p.created .fresh) (tokens ++ rest)) =
          .ok (true, standing { p with created := p.created + 1 } (draft p.created g) rest) := by
    cases clauses with
    | addrSpeed =>
      have pair := addrSpeed_holds { p with created := p.created + 1 } p.created .fresh .whole
        .whole later
      exact ⟨_, rfl, rfl, orM_true pair⟩
    | @speedAddr v s u a =>
      have absent : Clause .addr ((.speed, v) :: ([(.number, s), (.addr, u), (.number, a)] ++ rest))
        none _ := .absent (by simp)
      obtain ⟨g, fails⟩ := addrSpeed_fails { p with created := p.created + 1 } p.created .fresh
        (.first absent) later
      have pair := speedAddr_holds { p with created := p.created + 1 } p.created g .whole .whole
        later
      exact ⟨_, rfl, rfl, (orM_false fails).trans pair⟩
  obtain ⟨g, rfl, rfl, pair⟩ := holds
  have finishes := drive_finishes { p with created := p.created + 1 } p.created g direction rest
  refine ⟨p.created, _, ?_, _, runs.trans ((ok_bind pair).trans finishes)⟩
  exact finish_eq_frame rfl rfl

theorem stop_runs (ended : Ended ((.stop, u) :: ts)) :
    grammarStop (standing p r ((.stop, u) :: ts)) =
      (do
        if ← grammarAddr then
          onPacket setSpeedDirectionPreamble
          onPacket (setSpeed · 0)
          return true
        else grammarStopAll)
      (standing { p with created := p.created + 1 }
        (draft p.created { Fields.fresh with preamble := true }) ts) := by
  obtain ⟨token, rest, rfl, -⟩ := ended.next (by simp)
  rw [grammarStop, ok_bind (accept_standing p r _ _ _)]
  simp only [if_true]
  have head : grammarStopAddr (standing p r (token :: rest)) = grammarAddr
      (standing { p with created := p.created + 1 }
        (draft p.created { Fields.fresh with preamble := true }) (token :: rest)) := by
    rw [grammarStopAddr, ok_bind (makePacket_standing p r _ _ _),
      ok_bind (onPacket_standing _ _ _ _)]
    have fresh : (⟨.dcc, .packet ⟨p.created, baselinePacketCreate⟩⟩ : Result) =
      draft p.created .fresh := rfl
    rw [fresh, write_draft setPreamble_packet]
  simp only [bind, StateT.bind, head]

/-! With no address the whole packet is written. -/

theorem stopAll_runs (noAddress : Clause .addr ts none ((.all, v) :: token :: rest))
    (whole : Ended ((.stop, u) :: ts)) :
    grammarStop (standing p r ((.stop, u) :: ts)) = .ok (true, standing
      { p with created := p.created + 1 } (draft p.created (frame 0 true 0x11)) (token :: rest)) := by
  refine (stop_runs p r whole).trans ((ok_bind (clause_fails noAddress _ _)).trans ?_)
  refine (ok_bind (accept_standing _ _ _ _ _)).trans ((ok_bind (onPacket_standing _ _ _ _)).trans ?_)
  rw [write_draft specialEmergencyStopPacket_packet]
  rfl

theorem stopEverybody_runs (noAddress : Clause .addr ts none (token :: rest))
    (other : token.1 ≠ .all) (whole : Ended ((.stop, u) :: ts)) :
    grammarStop (standing p r ((.stop, u) :: ts)) = .ok (true, standing
      { p with created := p.created + 1 } (draft p.created (frame 0 true 0x10)) (token :: rest)) := by
  refine (stop_runs p r whole).trans ((ok_bind (clause_fails noAddress _ _)).trans ?_)
  refine (ok_bind (accept_other _ _ other _)).trans ((ok_bind (onPacket_standing _ _ _ _)).trans ?_)
  rw [write_draft specialBroadcastStopPacket_packet]
  rfl

theorem stopAddr_runs (address : Clause .addr ts (some a) us) (whole : Ended ((.stop, u) :: ts)) :
    ∃ g, g.finish = frame (addressOf a.number) false (speedCode 0) ∧
      grammarStop (standing p r ((.stop, u) :: ts)) =
        .ok (true, standing { p with created := p.created + 1 } (draft p.created g) us) := by
  obtain ⟨_, _, rfl, ended⟩ := whole.next (by simp)
  have clause : grammarAddr (standing _ (draft _ _) _) = .ok (true, standing _ (Result.write
      (fun packet => setAddress packet (a.number.setWidth 8)) (draft _ _)) us) :=
    clause_holds address (by simp) ended { p with created := p.created + 1 }
      (draft p.created { Fields.fresh with preamble := true })
  rw [write_draft (setAddress_number · a.number)] at clause
  refine ⟨{ Fields.fresh with
      preamble := true, address := addressOf a.number, sdPreamble := true, speed := speedCode 0 },
    finish_eq_frame rfl rfl, (stop_runs p r whole).trans ((ok_bind clause).trans ?_)⟩
  refine (ok_bind (onPacket_standing _ _ _ _)).trans ((ok_bind (onPacket_standing _ _ _ _)).trans ?_)
  rw [write_draft setSpeedDirectionPreamble_packet, write_draft (setSpeed_packet · 0)]
  rfl

theorem raw_runs (token : Token) (rest : List Token) :
    grammarRaw (standing p r ((.raw, u) :: (.hex, v) :: token :: rest)) =
      (do
        makeRaw v.text
        advance
        return true) (standing p r ((.hex, v) :: token :: rest)) := by
  have found : (accept .raw <&&> acceptNoAdvance .hex)
      (standing p r ((.raw, u) :: (.hex, v) :: token :: rest)) =
        .ok (true, standing p r ((.hex, v) :: token :: rest)) :=
    andM_true (accept_standing p r u _ _)
  exact (ok_bind found).trans ((ok_bind (value_standing p r (.hex, v) (token :: rest))).trans rfl)

/-- Only what malloc left decides whether there is a packet. -/
theorem makeRaw_standing (text : List Char) (ts : List Token) :
    makeRaw text (standing p r ts) = .ok ((), if r.payload.present then standing
      { p with created := p.created + 1 } ⟨.raw, .packet ⟨p.created, ⟨hexBytes text⟩⟩⟩ ts
      else standing p r ts) := by
  have read : makeRaw text (standing p r ts) =
      (if r.payload.present then makePacket .raw ⟨hexBytes text⟩ else pure ()) (standing p r ts) := by
    cases ts <;> rfl
  rw [read]
  split
  · exact makePacket_standing p r _ _ _
  · rfl

theorem raw_accepts (token : Token) (rest : List Token) :
    grammarRaw (standing p r ((.raw, u) :: (.hex, v) :: token :: rest)) =
      .ok (true, if r.payload.present then standing { p with created := p.created + 1 }
        ⟨.raw, .packet ⟨p.created, ⟨hexBytes v.text⟩⟩⟩ (token :: rest)
        else standing p r (token :: rest)) := by
  refine (raw_runs p r token rest).trans ((ok_bind (makeRaw_standing p r _ _)).trans ?_)
  split
  · exact (ok_bind (advance_standing _ _ _ _ _)).trans rfl
  · exact (ok_bind (advance_standing _ _ _ _ _)).trans rfl

theorem help_accepts (token : Token) (rest : List Token) :
    grammarHelp (standing p r ((.help, u) :: token :: rest)) =
      .ok (true, standing p ⟨.sys, .cmd { type := .help, args := none }⟩ (token :: rest)) := by
  apply (ok_bind (accept_standing p r _ _ _)).trans
  exact (ok_bind (makeCmd_standing p r _ _)).trans rfl

theorem show_accepts (rest : List Token) :
    grammarShow (standing p r ((.show, u) :: (.status, v) :: rest)) = .ok (true,
      standing p ⟨.sys, .cmd { type := .status, args := none }⟩ ((.status, v) :: rest)) := by
  apply (ok_bind (accept_standing p r _ _ _)).trans
  apply (ok_bind (acceptNoAdvance_standing p r _ _ _)).trans
  exact (ok_bind (makeCmd_standing p r _ _)).trans rfl

theorem cacheClear_accepts (rest : List Token) :
    grammarCache (standing p r ((.cache, u) :: (.clear, v) :: rest)) = .ok (true,
      standing p ⟨.sys, .cmd { type := .cacheClear, args := none }⟩ ((.clear, v) :: rest)) := by
  apply (ok_bind (accept_standing p r _ _ _)).trans
  apply (ok_bind (acceptNoAdvance_standing p r _ _ _)).trans
  exact (ok_bind (makeCmd_standing p r _ _)).trans rfl

theorem cacheShow_accepts (rest : List Token) :
    grammarCache (standing p r ((.cache, u) :: (.show, v) :: (.number, n) :: rest)) = .ok (true,
      standing p ⟨.sys, .cmd { type := .cacheShow, args := some n.number }⟩
        ((.number, n) :: rest)) := by
  apply (ok_bind (accept_standing p r _ _ _)).trans
  apply (ok_bind (acceptNoAdvance_standing p r _ _ _)).trans
  apply (ok_bind (acceptNoAdvance_standing p r _ _ _)).trans
  apply (ok_bind (advance_standing p r _ _ _)).trans
  apply (ok_bind (acceptNoAdvance_standing p r _ _ _)).trans
  apply (ok_bind (value_standing p r _ _)).trans
  exact (ok_bind (makeCmd_standing p r _ _)).trans rfl

theorem drive_command (clauses : Clauses tokens address speed)
    (ended : Ended ((word, u) :: (tokens ++ rest))) (known : word ≠ .unknown) (direction : Int)
    (function : alternative word = grammarDrive word direction)
    (command : Command ((word, u) :: tokens) (.dcc (frame address (direction ≠ 0) speed)))
    (far : reach ((word, u) :: (tokens ++ rest)) = 5) :
    Takes word ((word, u) :: (tokens ++ rest)) p r := by
  obtain ⟨id, g, finished, p', runs⟩ := drive_takes p r word known direction clauses ended
  refine ⟨_, rest, _, rest, p', _, rfl, command, ?_, ⟨id, g, rfl, finished⟩, (command.remains ended).nonempty,
    Nat.le_refl _, ?_⟩
  · rw [far, List.length_cons, clauses.length]
  · rw [function]
    exact runs

theorem stopAddr_takes (ended : Ended ((.stop, u) :: (.addr, v) :: (.number, a) :: rest)) :
    Takes .stop ((.stop, u) :: (.addr, v) :: (.number, a) :: rest) p r := by
  have remains := (Command.stopAddr (u := u) (v := v) (a := a)).remains ended
  obtain ⟨g, finished, runs⟩ := stopAddr_runs p r .whole ended
  exact ⟨_, rest, _, _, _, _, rfl, .stopAddr, rfl, ⟨_, g, rfl, finished⟩, remains.nonempty,
    Nat.le_refl _, runs⟩

theorem stopAll_takes (ended : Ended ((.stop, u) :: (.all, v) :: rest)) :
    Takes .stop ((.stop, u) :: (.all, v) :: rest) p r := by
  have remains := (Command.stopAll (u := u) (v := v)).remains ended
  obtain ⟨token, more, rfl⟩ := List.exists_cons_of_ne_nil remains.nonempty
  have runs := stopAll_runs p r (.absent (by simp)) ended
  exact ⟨_, token :: more, _, _, _, _, rfl, .stopAll, rfl, ⟨_, _, rfl, finish_frame _ _ _⟩,
    List.cons_ne_nil _ _, Nat.le_refl _, runs⟩

theorem takes (begins : Begins word ts) (proper : ¬ Muddled word ts) (ended : Ended ts)
    (present : word = .raw → r.payload.present = true) : Takes word ts p r := by
  obtain ⟨command⟩ := begins
  rename_i u tokens meaning rest
  have remains := command.remains ended
  obtain ⟨token, more, rfl⟩ := List.exists_cons_of_ne_nil remains.nonempty
  cases command with
  | raw =>
    refine ⟨_, token :: more, _, token :: more, { p with created := p.created + 1 }, _, rfl, .raw,
      rfl, ⟨p.created, rfl⟩, List.cons_ne_nil _ _, Nat.le_refl _,
      (raw_accepts p r token more).trans ?_⟩
    rw [if_pos (present rfl)]
  | help =>
    exact ⟨_, token :: more, _, _, p, _, rfl, .help, rfl, rfl, List.cons_ne_nil _ _,
      Nat.le_refl _, help_accepts p r token more⟩
  | showStatus =>
    exact ⟨_, token :: more, _, _, p, _, rfl, .showStatus, rfl, rfl, List.cons_ne_nil _ _,
      Nat.le_succ _, show_accepts p r _⟩
  | cacheClear =>
    exact ⟨_, token :: more, _, _, p, _, rfl, .cacheClear, rfl, rfl, List.cons_ne_nil _ _,
      Nat.le_succ _, cacheClear_accepts p r _⟩
  | cacheShow =>
    exact ⟨_, token :: more, _, _, p, _, rfl, .cacheShow, rfl, rfl, List.cons_ne_nil _ _,
      Nat.le_succ _, cacheShow_accepts p r _⟩
  | forward clauses =>
    exact drive_command p r clauses ended (by simp) directionForward rfl (.forward clauses) rfl
  | reverse clauses =>
    exact drive_command p r clauses ended (by simp) directionReverse rfl (.reverse clauses) rfl
  | stopAddr =>
    exact stopAddr_takes p r ended
  | stopAll =>
    exact stopAll_takes p r ended
  | stop =>
    -- the command taken may be longer
    obtain ⟨tok, v⟩ := token
    by_cases addr : tok = .addr
    · subst addr
      obtain ⟨⟨third, a⟩, more, rfl, later⟩ := remains.next (by simp)
      by_cases number : third = .number
      · subst number
        exact stopAddr_takes p r ended
      · exact absurd (.stop number) proper
    by_cases all : tok = .all
    · subst all
      exact stopAll_takes p r ended
    · have runs := stopEverybody_runs p r (.absent addr) all ended
      exact ⟨_, (tok, v) :: more, _, _, _, _, rfl, .stop, (reach_stop addr all).symm,
        ⟨_, _, rfl, finish_frame _ _ _⟩, List.cons_ne_nil _ _, Nat.le_refl _, runs⟩

theorem Clause.shorter (clause : Clause word ts number us) : us.length ≤ ts.length := by
  cases clause with
  | whole => exact Nat.le_add_right _ 2
  | half => exact Nat.le_succ _
  | absent => exact Nat.le_refl _

theorem PairFails.shorter (pair : PairFails one two ts us) : us.length ≤ ts.length := by
  cases pair with
  | first none => exact none.shorter
  | second some none => exact none.shorter.trans some.shorter

theorem PairHolds.length (pair : PairHolds one two ts us) : ts.length = us.length + 4 := by
  cases pair with
  | both first second =>
    cases first
    cases second
    rfl

theorem PairHolds.ended (pair : PairHolds one two ts us) (first : one ≠ .unknown)
    (second : two ≠ .unknown) (ended : Ended ts) : Ended us := by
  cases pair with
  | both some again => exact again.ended second (some.ended first ended)

theorem muddled_drive (keyword : Tok) (known : keyword ≠ .unknown) (direction : Int)
    (first : PairFails .addr .speed ts us) (second : PairHolds .speed .addr us vs)
    (ended : Ended ((keyword, u) :: ts)) :
    ∃ p' r', grammarDrive keyword direction (standing p r ((keyword, u) :: ts)) =
      .ok (true, standing p' r' vs) := by
  have runs := drive_runs keyword known direction ended p r
  have later := ended.tail known
  obtain ⟨g, fails⟩ := addrSpeed_fails { p with created := p.created + 1 } p.created .fresh first later
  cases second with
  | both speed address =>
    have holds := speedAddr_holds { p with created := p.created + 1 } p.created g speed address
      (first.ended (by simp) (by simp) later)
    exact ⟨_, _, runs.trans ((ok_bind ((orM_false fails).trans holds)).trans
      (drive_finishes _ _ _ direction vs))⟩

/-- In a muddle the parser accepts all the same, two tokens on or further. -/
theorem muddled_runs (muddled : Muddled word ts) (ended : Ended ts) :
    ∃ p' r' us, alternative word (standing p r ts) = .ok (true, standing p' r' us) ∧
      us ≠ [] ∧ us.length + 2 ≤ ts.length := by
  cases muddled with
  | @drive _ ts us vs u drives first taken second =>
    have known : word ≠ .unknown := by rcases drives with rfl | rfl <;> simp
    have remains := second.ended (by simp) (by simp)
      (first.ended (by simp) (by simp) (ended.tail known))
    have far : vs.length + 2 ≤ ((word, u) :: ts).length := by
      have one := first.shorter
      have two := second.length
      simp only [List.length_cons]
      omega
    rcases drives with rfl | rfl
    · obtain ⟨p', r', runs⟩ := muddled_drive p r .forward known directionForward first second ended
      exact ⟨p', r', vs, runs, remains.nonempty, far⟩
    · obtain ⟨p', r', runs⟩ := muddled_drive p r .reverse known directionReverse first second ended
      exact ⟨p', r', vs, runs, remains.nonempty, far⟩
  | stop cut =>
    rename_i token rest u v
    obtain ⟨tok, w⟩ := token
    by_cases all : tok = .all
    · subst all
      obtain ⟨next, more, rfl, -⟩ := ((ended.tail (by simp)).tail (by simp)).next (by simp)
      exact ⟨_, _, _, stopAll_runs p r (.half cut) ended, List.cons_ne_nil _ _, Nat.le_succ _⟩
    · exact ⟨_, _, _, stopEverybody_runs p r (.half cut) all ended, List.cons_ne_nil _ _,
        Nat.le_refl _⟩

theorem begins_accepts (begins : Begins word ts) (ended : Ended ts) :
    ∃ p' r' us, alternative word (standing p r ts) = .ok (true, standing p' r' us) ∧ us ≠ [] := by
  by_cases muddled : Muddled word ts
  · obtain ⟨p', r', us, runs, remains, -⟩ := muddled_runs p r muddled ended
    exact ⟨p', r', us, runs, remains⟩
  by_cases raw : word = .raw
  · subst raw
    obtain ⟨command⟩ := begins
    have remains := command.remains ended
    obtain ⟨token, more, rfl⟩ := List.exists_cons_of_ne_nil remains.nonempty
    cases command with
    | raw =>
      rename_i u v
      have runs := raw_accepts p r (u := u) (v := v) token more
      split at runs
      · exact ⟨_, _, _, runs, List.cons_ne_nil _ _⟩
      · exact ⟨_, _, _, runs, List.cons_ne_nil _ _⟩
  · obtain ⟨_, _, _, us, p', r', -, -, -, -, remains, -, runs⟩ :=
      takes p r begins muddled ended fun same => absurd same raw
    exact ⟨p', r', us, runs, remains⟩

end Accepting

end Freedcc.Grammar
