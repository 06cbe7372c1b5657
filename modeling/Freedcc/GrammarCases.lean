import Freedcc.Grammar

/-! Reading the tokens: what every alternative would do on them, how long a
command can be, and where there is none. -/
namespace Freedcc.Grammar
open Dcc

theorem known_of_alternative (member : word ∈ alternatives) : word ≠ .unknown := by
  rintro rfl
  exact absurd member (by decide)

section Ends

theorem Clause.ended (clause : Clause word ts number us) (known : word ≠ .unknown)
    (ended : Ended ts) : Ended us := by
  cases clause with
  | whole =>
    cases ended with
    | token _ later =>
      cases later with
      | token _ later => exact later
  | half cut =>
    cases ended with
    | token _ later => exact later
  | absent other => exact ended

theorem PairFails.ended (pair : PairFails one two ts us) (first : one ≠ .unknown)
    (second : two ≠ .unknown) (ended : Ended ts) : Ended us := by
  cases pair with
  | first none => exact none.ended first ended
  | second some none => exact none.ended second (some.ended first ended)

theorem Stray.ended (stray : Stray word ts us) (known : word ≠ .unknown) (ended : Ended ts) :
    Ended us := by
  cases stray with
  | other other => exact ended
  | raw cut | «show» cut | cache cut _ =>
    cases ended with
    | token _ later => exact later
  | cacheShow cut =>
    cases ended with
    | token _ later =>
      cases later with
      | token _ later => exact later
  | drive drives first second =>
    exact second.ended (by simp) (by simp) (first.ended (by simp) (by simp) (ended.tail known))

end Ends

section Total

theorem clause_total (known : word ≠ .unknown) (ended : Ended ts) :
    ∃ number us, Clause word ts number us := by
  cases ts with
  | nil => cases ended
  | cons token rest =>
    obtain ⟨tok, u⟩ := token
    by_cases same : tok = word
    · subst same
      obtain ⟨next, more, rfl, -⟩ := ended.next known
      obtain ⟨tok', v⟩ := next
      by_cases number : tok' = .number
      · subst number
        exact ⟨_, _, .whole⟩
      · exact ⟨_, _, .half number⟩
    · exact ⟨_, _, .absent same⟩

theorem pair_total (one two : Tok) (first : one ≠ .unknown) (second : two ≠ .unknown)
    (ended : Ended ts) :
    (∃ us, PairFails one two ts us) ∨ ∃ us, PairHolds one two ts us := by
  obtain ⟨number, us, clause⟩ := clause_total first ended
  cases number with
  | none => exact Or.inl ⟨us, .first clause⟩
  | some v =>
    obtain ⟨number, vs, again⟩ := clause_total second (clause.ended first ended)
    cases number with
    | none => exact Or.inl ⟨vs, .second clause again⟩
    | some w => exact Or.inr ⟨vs, .both clause again⟩

/-- Two clauses in a row are a pair of clauses of the grammar. -/
theorem PairHolds.addrSpeed (pair : PairHolds .addr .speed ts us) :
    ∃ tokens address speed, Clauses tokens address speed ∧ ts = tokens ++ us := by
  cases pair with
  | both first second =>
    cases first
    cases second
    exact ⟨_, _, _, .addrSpeed, rfl⟩

theorem PairHolds.speedAddr (pair : PairHolds .speed .addr ts us) :
    ∃ tokens address speed, Clauses tokens address speed ∧ ts = tokens ++ us := by
  cases pair with
  | both first second =>
    cases first
    cases second
    exact ⟨_, _, _, .speedAddr, rfl⟩

def Decided (word : Tok) (ts : List Token) : Prop :=
  (∃ us, Stray word ts us) ∨ Begins word ts ∨ Muddled word ts

theorem drive_total (drives : word = .forward ∨ word = .reverse) (ended : Ended ts) :
    Decided word ((word, u) :: ts) := by
  have begins : ∀ {tokens address speed}, Clauses tokens address speed → ∀ us,
      Begins word ((word, u) :: (tokens ++ us)) := by
    intro tokens address speed clauses us
    rcases drives with rfl | rfl
    · exact .command (.forward clauses)
    · exact .command (.reverse clauses)
  rcases pair_total .addr .speed (by simp) (by simp) ended with
    ⟨us, first⟩ | ⟨us, first⟩
  · rcases pair_total .speed .addr (by simp) (by simp)
      (first.ended (by simp) (by simp) ended) with ⟨vs, second⟩ | ⟨vs, second⟩
    · exact Or.inl ⟨vs, .drive drives first second⟩
    · by_cases taken : us = ts
      · subst taken
        obtain ⟨tokens, address, speed, clauses, rfl⟩ := second.speedAddr
        exact Or.inr (Or.inl (begins clauses vs))
      · exact Or.inr (Or.inr (.drive drives first taken second))
  · obtain ⟨tokens, address, speed, clauses, rfl⟩ := first.addrSpeed
    exact Or.inr (Or.inl (begins clauses us))

theorem decided (member : word ∈ alternatives) (ended : Ended ts) : Decided word ts := by
  cases ts with
  | nil => cases ended
  | cons token rest =>
    obtain ⟨tok, u⟩ := token
    by_cases other : tok ≠ word
    · exact Or.inl ⟨_, .other other⟩
    obtain rfl : tok = word := not_not.mp other
    have known := known_of_alternative member
    have later := ended.tail known
    obtain ⟨⟨next, v⟩, more, rfl, nextEnded⟩ := ended.next known
    simp only [alternatives, List.mem_cons, List.not_mem_nil, or_false] at member
    rcases member with rfl | rfl | rfl | rfl | rfl | rfl | rfl
    · by_cases hex : next = .hex
      · subst hex
        exact Or.inr (Or.inl (.command .raw))
      · exact Or.inl ⟨_, .raw hex⟩
    · exact Or.inr (Or.inl (.command .help))
    · by_cases status : next = .status
      · subst status
        exact Or.inr (Or.inl (.command .showStatus))
      · exact Or.inl ⟨_, .show status⟩
    · by_cases clear : next = .clear
      · subst clear
        exact Or.inr (Or.inl (.command .cacheClear))
      by_cases «show» : next = .show
      · subst «show»
        obtain ⟨⟨third, w⟩, more, rfl, -⟩ := nextEnded.next (by simp)
        by_cases number : third = .number
        · subst number
          exact Or.inr (Or.inl (.command .cacheShow))
        · exact Or.inl ⟨_, .cacheShow number⟩
      · exact Or.inl ⟨_, .cache clear «show»⟩
    · exact drive_total (Or.inl rfl) later
    · exact drive_total (Or.inr rfl) later
    · by_cases addr : next = .addr
      · subst addr
        obtain ⟨⟨third, w⟩, more, rfl, -⟩ := nextEnded.next (by simp)
        by_cases number : third = .number
        · subst number
          exact Or.inr (Or.inl (.command .stopAddr))
        · exact Or.inr (Or.inr (.stop number))
      · exact Or.inr (Or.inl (.command .stop))

end Total

/-! How far a command can go. -/

/-- The length of the longest command there can be, by the first two tokens. -/
def reach : List Token → Nat
  | (.raw, _) :: _ => 2
  | (.help, _) :: _ => 1
  | (.show, _) :: _ => 2
  | (.cache, _) :: (.clear, _) :: _ => 2
  | (.cache, _) :: _ => 3
  | (.forward, _) :: _ => 5
  | (.reverse, _) :: _ => 5
  | (.stop, _) :: (.addr, _) :: _ => 3
  | (.stop, _) :: (.all, _) :: _ => 2
  | (.stop, _) :: _ => 1
  | _ => 0

theorem reach_stop (noAddr : token.1 ≠ .addr) (noAll : token.1 ≠ .all) :
    reach ((.stop, u) :: token :: rest) = 1 := by
  simp only [reach]
  split <;> simp_all

theorem Command.known (command : Command tokens meaning) : ∀ token ∈ tokens, token.1 ≠ .unknown := by
  have clausesKnown : ∀ {tokens address speed}, Clauses tokens address speed →
      ∀ token ∈ tokens, token.1 ≠ .unknown := by
    intro tokens address speed clauses
    cases clauses <;> simp
  cases command with
  | forward clauses | reverse clauses => simpa using clausesKnown clauses
  | _ => simp

/-- A command does not hold the end of the line. -/
theorem Command.remains (command : Command tokens meaning) (ended : Ended (tokens ++ rest)) :
    Ended rest := ended.drop command.known

theorem Clauses.length (clauses : Clauses tokens address speed) : tokens.length = 4 := by
  cases clauses <;> rfl

theorem Command.within (command : Command tokens meaning) (rest : List Token) :
    tokens.length ≤ reach (tokens ++ rest) := by
  cases command with
  | raw | help | showStatus | cacheClear | cacheShow | stopAddr | stopAll => exact Nat.le_refl _
  | forward clauses => exact Nat.le_of_eq (congrArg (· + 1) clauses.length)
  | reverse clauses => exact Nat.le_of_eq (congrArg (· + 1) clauses.length)
  | stop =>
    simp only [List.cons_append, List.nil_append, List.length_singleton, reach]
    split <;> simp_all

/-! Tokens that do not begin a command. -/

def Commandless (ts : List Token) : Prop :=
  ∀ command rest meaning, ts = command ++ rest → ¬ Command command meaning

theorem not_holds_of_fails (fails : PairFails one two ts us) : ¬ PairHolds one two ts vs := by
  rintro ⟨first, second⟩
  cases first
  cases second
  cases fails with
  | first none => cases none <;> contradiction
  | second some none =>
    cases some
    cases none <;> contradiction

/-- Neither order of the clauses is there. -/
theorem clauseless (drives : word = .forward ∨ word = .reverse)
    (absent : ∀ tokens rest address speed, ts = tokens ++ rest → ¬ Clauses tokens address speed) :
    Commandless ((word, u) :: ts) := by
  rintro command rest meaning split given
  cases given with
  | forward clauses =>
    obtain ⟨-, rfl⟩ := List.cons.inj split
    exact absent _ _ _ _ rfl clauses
  | reverse clauses =>
    obtain ⟨-, rfl⟩ := List.cons.inj split
    exact absent _ _ _ _ rfl clauses
  | _ => rcases drives with rfl | rfl <;> simp at split

theorem absent_of_fails (first : PairFails .addr .speed ts us)
    (second : us = ts → ∀ vs, ¬ PairHolds .speed .addr ts vs) (tokens rest : List Token)
    (address : BitVec 7) (speed : BitVec 5) (split : ts = tokens ++ rest) :
    ¬ Clauses tokens address speed := by
  intro clauses
  subst split
  cases clauses with
  | addrSpeed => exact not_holds_of_fails first (.both .whole .whole)
  | speedAddr =>
    refine second ?_ rest (.both .whole .whole)
    cases first with
    | first none =>
      cases none with
      | absent other => rfl
    | second some none => cases some

/-- An alternative that has taken tokens and given up leaves no command behind. -/
theorem Stray.commandless (stray : Stray word ts us) (taken : us ≠ ts) : Commandless ts := by
  cases stray with
  | other other => exact absurd rfl taken
  | drive drives first second =>
    refine clauseless drives (absent_of_fails first fun none vs => ?_)
    subst none
    exact not_holds_of_fails second
  | _ =>
    intro command rest meaning split given
    cases given <;> simp_all

theorem Strays.commandless (strays : Strays words ts us) (taken : us ≠ ts) : Commandless ts := by
  induction strays with
  | nil => exact absurd rfl taken
  | @cons word ts us words vs stray later ih =>
    by_cases kept : us = ts
    · subst kept
      exact ih taken
    · exact stray.commandless kept

/-- In a muddle, only an address-less `stop` can be there. -/
theorem Muddled.stopped (muddled : Muddled word ts) (split : ts = command ++ rest)
    (given : Command command meaning) : command.length = 1 := by
  cases muddled with
  | drive drives first taken second =>
    refine absurd given (clauseless drives (absent_of_fails first fun none => ?_) _ _ _ split)
    exact absurd none taken
  | stop cut => cases given <;> simp_all

end Freedcc.Grammar
