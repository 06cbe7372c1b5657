import Freedcc.GrammarCalls
import Freedcc.PacketCustody
import Freedcc.ScannerProgress

/-! Where a parse leaks: an alternative that makes a packet and gives up leaves it
to the next one, which makes another in its place. -/
namespace Freedcc.Grammar
open Dcc PartialProgram Freedcc.Parser

/-- The alternatives that make a packet as soon as they have read their word. -/
def Maker (word : Tok) : Prop := word = .forward ∨ word = .reverse ∨ word = .stop

instance : DecidablePred Maker := fun _ => inferInstanceAs (Decidable (_ ∨ _))

/-- The tokens, read up to a second maker's word, go first to one maker, which
gives up, and then to the other. -/
inductive Handover : List Token → Prop where
  | handover (order : alternatives = earlier ++ word :: (between ++ next :: later))
      (one : Maker word) (two : Maker next) (first : Strays earlier tokens ((word, u) :: us))
      (second : Strays (word :: between) ((word, u) :: us) [(next, v)]) : Handover tokens

/-- Tokens that a source supplies, one after the other. -/
inductive Supplies {σ : Type} [TokenSource σ] : σ → List Token → Prop where
  | nil : Supplies s []
  | token (read : TokenSource.nextToken s = .ok (tok, t)) (later : Supplies t tokens) :
      Supplies s ((tok, TokenSource.value t) :: tokens)

/-- The input begins with a handover. -/
def Doubles {σ : Type} [TokenSource σ] (s : σ) : Prop := ∃ tokens, Supplies s tokens ∧ Handover tokens

/-! How many packets the alternatives make on the tokens. -/

section Tallies

/-- What an alternative makes, by the token it comes to. -/
def made (word : Tok) (ts : List Token) : Nat :=
  if Maker word ∧ ts.head?.map Prod.fst = some word then 1 else 0

/-- `Strays`, with the packets counted. -/
inductive Tallies : List Tok → List Token → List Token → Nat → Prop where
  | nil : Tallies [] ts ts 0
  | cons (stray : Stray word ts us) (later : Tallies words us vs n) :
      Tallies (word :: words) ts vs (made word ts + n)

theorem Tallies.strays (tallies : Tallies words ts us n) : Strays words ts us := by
  induction tallies with
  | nil => exact .nil
  | cons stray later ih => exact .cons stray ih

theorem Strays.tallies (strays : Strays words ts us) : ∃ n, Tallies words ts us n := by
  induction strays with
  | nil => exact ⟨0, .nil⟩
  | cons stray later ih =>
    obtain ⟨n, tallies⟩ := ih
    exact ⟨_, .cons stray tallies⟩

/-- The first packet, and the maker of it. -/
theorem Tallies.maker (tallies : Tallies words ts us n) (some : 0 < n) :
    ∃ earlier word between u vs ws m, words = earlier ++ word :: between ∧ Maker word ∧
      Strays earlier ts ((word, u) :: vs) ∧ Stray word ((word, u) :: vs) ws ∧
      Tallies between ws us m ∧ n = m + 1 := by
  induction tallies with
  | nil => contradiction
  | @cons word ts us words vs n stray later ih =>
    by_cases here : Maker word ∧ ts.head?.map Prod.fst = Option.some word
    · obtain ⟨maker, head⟩ := here
      obtain ⟨⟨tok, u⟩, first, same⟩ := Option.map_eq_some_iff.mp head
      obtain ⟨rest, rfl⟩ := List.head?_eq_some_iff.mp first
      obtain rfl : tok = word := same
      refine ⟨[], tok, words, u, rest, us, n, rfl, maker, .nil, stray, later, ?_⟩
      rw [made, if_pos ⟨maker, head⟩, Nat.add_comm]
    · have none : made word ts = 0 := if_neg here
      rw [none, Nat.zero_add] at some ⊢
      obtain ⟨earlier, next, between, u, vs, ws, m, rfl, maker, strays, given, rest, total⟩ := ih some
      exact ⟨word :: earlier, next, between, u, vs, ws, m, rfl, maker, .cons stray strays, given,
        rest, total⟩

theorem Tallies.positive (tallies : Tallies (word :: words) ((word, u) :: ts) us n)
    (maker : Maker word) : 0 < n := by
  cases tallies with
  | cons stray later =>
    have one : made word ((word, u) :: ts) = 1 := if_pos ⟨maker, rfl⟩
    omega

end Tallies

/-- A handover with the tokens read to their end. -/
def HandsOver (tokens : List Token) : Prop :=
  ∃ earlier word between next later u us v vs,
    alternatives = earlier ++ word :: (between ++ next :: later) ∧ Maker word ∧ Maker next ∧
      Strays earlier tokens ((word, u) :: us) ∧
      Strays (word :: between) ((word, u) :: us) ((next, v) :: vs)

/-- Whoever comes after a maker is one. -/
theorem later_maker (order : alternatives = earlier ++ word :: (between ++ next :: later))
    (maker : Maker word) : Maker next := by
  have sorted : alternatives.Pairwise fun one two => Maker one → Maker two := by decide
  rw [order] at sorted
  have after := (List.pairwise_cons.mp (List.pairwise_append.mp sorted).2.1).1
  exact after next (by simp) maker

/-- Two packets are a handover. -/
theorem handsOver_of_tallies (tallies : Tallies words ts us n) (two : 1 < n)
    (order : alternatives = words ++ rest) : HandsOver ts := by
  obtain ⟨earlier, word, between, u, vs, ws, m, rfl, maker, strays, stray, later, rfl⟩ :=
    tallies.maker (Nat.zero_lt_of_lt two)
  obtain ⟨inner, next, after, v, xs, ys, k, rfl, again, more, -⟩ :=
    later.maker (Nat.lt_of_succ_lt_succ two)
  refine ⟨earlier, word, inner, next, after ++ rest, u, vs, v, xs, ?_, maker, again, strays,
    .cons stray more⟩
  rw [order]
  simp only [List.append_assoc, List.cons_append]

/-- One packet, and a word after it that makes another. -/
theorem handsOver_of_next (tallies : Tallies words ts ((next, v) :: us) n) (one : 0 < n)
    (order : alternatives = words ++ next :: rest) : HandsOver ts := by
  obtain ⟨earlier, word, between, u, vs, ws, m, rfl, maker, strays, stray, later, rfl⟩ :=
    tallies.maker one
  have place : alternatives = earlier ++ word :: (between ++ next :: rest) := by
    rw [order]
    simp only [List.append_assoc, List.cons_append]
  exact ⟨earlier, word, between, next, rest, u, vs, v, us, place, maker, later_maker place maker,
    strays, .cons stray later.strays⟩

/-! The packets that a replay of the tokens makes. -/

section Counts

/-- There is a result, and so many packets have been made. -/
def Count (n : Nat) (r : Option Result) (created : Nat) (_ : Trace) : Prop :=
  r.isSome = true ∧ created = n

/-- There is a result, and no fewer packets have been made. -/
def Grown (n : Nat) (r : Option Result) (created : Nat) (_ : Trace) : Prop :=
  r.isSome = true ∧ n ≤ created

theorem count_written (n : Nat) : Written (Count n) :=
  fun _ _ _ _ count => ⟨by simpa using count.1, count.2⟩

theorem count_makes (n : Nat) (type : ResType) : Makes (Count n) (Count (n + 1)) type := by
  constructor
  · intro _ _ count
    exact absurd count.1 Bool.false_ne_true
  · rintro r _ trace packet ⟨-, rfl⟩
    exact ⟨rfl, rfl⟩

theorem count_commanded (n : Nat) : Commanded (Count n) :=
  fun _ _ _ _ count => ⟨by simpa using count.1, count.2⟩

theorem grown_written (n : Nat) : Written (Grown n) :=
  fun _ _ _ _ grown => ⟨by simpa using grown.1, grown.2⟩

theorem grown_makes (n : Nat) (type : ResType) : Makes (Grown n) (Grown n) type := by
  constructor
  · intro _ _ grown
    exact absurd grown.1 Bool.false_ne_true
  · intro r created trace packet grown
    exact ⟨rfl, Nat.le_succ_of_le grown.2⟩

theorem grown_commanded (n : Nat) : Commanded (Grown n) :=
  fun _ _ _ _ grown => ⟨by simpa using grown.1, grown.2⟩

theorem alternative_grown (word : Tok) (n : Nat) :
    Ensures (Booked (Grown n)) (alternative word) fun _ => Booked (Grown n) := by
  have drive : ∀ keyword direction,
      Ensures (Booked (Grown n)) (grammarDrive keyword direction : Parse Replay Bool)
        fun _ => Booked (Grown n) := fun keyword direction =>
    (accept_booked keyword).cond (drive_booked (grown_makes n .dcc) (grown_written n) direction)
      (.pure fun _ grown => grown)
  cases word with
  | raw =>
    refine (grammarRaw_booked (grown_makes n .raw)).weaken (fun _ grown => grown) ?_
    exact fun _ _ holds => holds.elim id And.right
  | help => exact grammarHelp_booked (grown_commanded n)
  | «show» => exact grammarShow_booked (grown_commanded n)
  | cache => exact grammarCache_booked (grown_commanded n)
  | forward => exact drive _ _
  | reverse => exact drive _ _
  | stop =>
    exact (accept_booked .stop).cond (stop_booked (grown_makes n .dcc) (grown_written n))
      (.pure fun _ grown => grown)
  | _ => exact .pure fun _ grown => grown

theorem tryAll_grown (words : List Tok) (n : Nat) :
    Ensures (Booked (Grown n)) (tryAll words) fun _ => Booked (Grown n) := by
  induction words with
  | nil => exact .pure fun _ grown => grown
  | cons word words ih => exact (alternative_grown word n).or_keeps ih

/-- A maker that comes to its word makes one packet. -/
theorem maker_counts (maker : Maker word) (n : Nat) :
    Ensures (fun p => p.curr = word ∧ Booked (Count n) p) (alternative word)
      fun _ => Booked (Count (n + 1)) := by
  rcases maker with rfl | rfl | rfl
  · exact word_booked (drive_booked (count_makes n .dcc) (count_written _) _)
  · exact word_booked (drive_booked (count_makes n .dcc) (count_written _) _)
  · exact word_booked (stop_booked (count_makes n .dcc) (count_written _))

/-- The others make at most one, and none if they give up. -/
theorem other_counts (other : ¬ Maker word) (n : Nat) :
    Ensures (Booked (Count n)) (alternative word) fun accepted => Booked fun r created trace =>
      Count n r created trace ∨ accepted = true ∧ Count (n + 1) r created trace := by
  have none : ∀ {x : Parse Replay Bool},
      Ensures (Booked (Count n)) x (fun _ => Booked (Count n)) →
        Ensures (Booked (Count n)) x fun accepted => Booked fun r created trace =>
          Count n r created trace ∨ accepted = true ∧ Count (n + 1) r created trace :=
    fun counts => counts.weaken (fun _ count => count) fun _ _ => Or.inl
  cases word with
  | raw => exact grammarRaw_booked (count_makes n .raw)
  | help => exact none (grammarHelp_booked (count_commanded n))
  | «show» => exact none (grammarShow_booked (count_commanded n))
  | cache => exact none (grammarCache_booked (count_commanded n))
  | forward => exact absurd (Or.inl rfl) other
  | reverse => exact absurd (Or.inr (Or.inl rfl)) other
  | stop => exact absurd (Or.inr (Or.inr rfl)) other
  | _ => exact none (.pure fun _ count => count)

variable (p : Parser Replay) (r : Result)

theorem standing_created (ts : List Token) : (standing p r ts).created = p.created := by
  cases ts <;> rfl

theorem standing_count (ts : List Token) : Booked (Count p.created) (standing p r ts) := by
  cases ts <;> exact ⟨rfl, rfl⟩

/-- What an alternative makes, whether it gives up or not. -/
theorem alternative_counts (member : word ∈ alternatives) (nonempty : ts ≠ [])
    (runs : alternative word (standing p r ts) = .ok (accepted, q)) :
    q.created = p.created + made word ts ∨ ¬ Maker word ∧ accepted = true ∧
      q.created = p.created + 1 := by
  obtain ⟨⟨tok, u⟩, rest, rfl⟩ := List.exists_cons_of_ne_nil nonempty
  by_cases maker : Maker word
  · by_cases here : tok = word
    · subst here
      have count := maker_counts maker p.created _ _ _ ⟨rfl, standing_count p r _⟩ runs
      rw [count.2, made, if_pos ⟨maker, rfl⟩]
      exact Or.inl rfl
    · have missed : alternative word (standing p r ((tok, u) :: rest)) = _ :=
        other_runs member here p r
      cases missed.symm.trans runs
      have none : made word ((tok, u) :: rest) = 0 := by simp [made, here]
      rw [none]
      exact Or.inl (standing_created p r _)
  · have none : made word ((tok, u) :: rest) = 0 := if_neg fun both => maker both.1
    rw [none]
    exact (other_counts maker p.created _ _ _ (standing_count p r _) runs).imp (fun count => count.2)
      fun taken => ⟨maker, taken.1, taken.2.2⟩

/-- What an alternative makes before it gives up. -/
theorem stray_counts (member : word ∈ alternatives) (stray : Stray word ts us) (ended : Ended ts) :
    ∃ p' r', alternative word (standing p r ts) = .ok (false, standing p' r' us) ∧
      p'.created = p.created + made word ts := by
  obtain ⟨p', r', runs⟩ := stray_runs member stray ended p r
  refine ⟨p', r', runs, ?_⟩
  rw [← standing_created p' r' us]
  rcases alternative_counts p r member ended.nonempty runs with count | ⟨-, wrong, -⟩
  · exact count
  · contradiction

/-- What the alternatives make before they all give up. -/
theorem Tallies.counts (tallies : Tallies words ts us n)
    (members : ∀ word ∈ words, word ∈ alternatives) (ended : Ended ts) (later : List Tok) :
    ∃ p' r', tryAll (words ++ later) (standing p r ts) = tryAll later (standing p' r' us) ∧
      p'.created = p.created + n := by
  induction tallies generalizing p r with
  | nil => exact ⟨p, r, rfl, rfl⟩
  | @cons word _ _ words _ _ stray _ ih =>
    have member := members word List.mem_cons_self
    obtain ⟨p', r', first, one⟩ := stray_counts p r member stray ended
    obtain ⟨p'', r'', second, more⟩ := ih p' r'
      (fun word member => members word (List.mem_cons_of_mem _ member))
      (stray.ended (known_of_alternative member) ended)
    refine ⟨p'', r'', (orM_false first).trans second, ?_⟩
    rw [more, one, Nat.add_assoc]

end Counts

/-! What the whole command line makes. -/

section Lines
variable {p q : Parser Replay} {r : Result}

theorem accepted_word (accepts : Begins word us ∨ Muddled word us) : ∃ u vs, us = (word, u) :: vs := by
  rcases accepts with begins | muddled
  · cases begins
    exact ⟨_, _, rfl⟩
  · cases muddled with
    | drive => exact ⟨_, _, rfl⟩
    | stop => exact ⟨_, _, rfl⟩

/-- Without a handover there is at most one packet. -/
theorem single_packet (ended : Ended ts) (single : ¬ HandsOver ts)
    (runs : tryAll alternatives (standing p r ts) = .ok (accepted, q)) :
    q.created ≤ p.created + 1 := by
  rcases first_decided (fun word member => member) ended with ⟨us, strays⟩ | decided
  · obtain ⟨n, tallies⟩ := strays.tallies
    have few : n ≤ 1 := by
      by_contra two
      have whole : alternatives = alternatives ++ [] := rfl
      exact single (handsOver_of_tallies tallies (Nat.lt_of_not_le two) whole)
    obtain ⟨p', r', given, count⟩ := tallies.counts p r (fun word member => member) ended []
    rw [List.append_nil, runs] at given
    cases given
    rw [standing_created, count]
    omega
  · obtain ⟨earlier, word, later, us, split, strays, accepts⟩ := decided
    obtain ⟨n, tallies⟩ := strays.tallies
    have members := members_of_split split
    have remains := strays.ended members.1 ended
    obtain ⟨u, vs, rfl⟩ := accepted_word accepts
    have none : n = 0 := by
      by_contra some
      exact single (handsOver_of_next tallies (Nat.pos_of_ne_zero some) split)
    obtain ⟨p', r', given, count⟩ := tallies.counts p r members.1 ended (word :: later)
    obtain ⟨p'', r'', ws, taken⟩ : ∃ p'' r'' ws,
        alternative word (standing p' r' ((word, u) :: vs)) = .ok (true, standing p'' r'' ws) := by
      rcases accepts with begins | muddled
      · obtain ⟨p'', r'', ws, taken, -⟩ := begins_accepts p' r' begins remains
        exact ⟨p'', r'', ws, taken⟩
      · obtain ⟨p'', r'', ws, taken, -⟩ := muddled_runs p' r' muddled remains
        exact ⟨p'', r'', ws, taken⟩
    rw [split, given, tryAll_accepts taken] at runs
    cases runs
    have few : made word ((word, u) :: vs) ≤ 1 := by
      rw [made]
      split <;> omega
    rcases alternative_counts p' r' members.2 remains.nonempty taken with more | ⟨-, -, more⟩
    · omega
    · omega

/-- From a maker's word on, one packet more. -/
theorem next_grown (maker : Maker word) (later : List Tok) (n : Nat) :
    Ensures (fun p => p.curr = word ∧ Booked (Count n) p) (tryAll (word :: later))
      fun _ => Booked (Grown (n + 1)) := by
  refine Ensures.or (R := Booked (Grown (n + 1))) ((maker_counts maker n).weaken
    (fun _ holds => holds) fun accepted q count => ?_) (tryAll_grown later _)
  have grown : Booked (Grown (n + 1)) q := ⟨count.1, count.2.ge⟩
  cases accepted <;> exact grown

/-- A handover makes two. -/
theorem double_packets (ended : Ended ts) (twice : HandsOver ts)
    (runs : tryAll alternatives (standing p r ts) = .ok (accepted, q)) :
    p.created + 2 ≤ q.created := by
  obtain ⟨earlier, word, between, next, later, u, us, v, vs, split, one, two, first, second⟩ := twice
  obtain ⟨n, before⟩ := first.tallies
  obtain ⟨m, given⟩ := second.tallies
  have members := members_of_split split
  have inner : ∀ other ∈ word :: between, other ∈ alternatives := by
    rw [split]
    intro other member
    rcases List.mem_cons.mp member with rfl | member
    · simp
    · simp [member]
  obtain ⟨p', r', gone, count⟩ := before.counts p r members.1 ended
    (word :: (between ++ next :: later))
  obtain ⟨p'', r'', again, more⟩ := given.counts p' r' inner (first.ended members.1 ended)
    (next :: later)
  rw [split] at runs
  have last := (gone.trans again).symm.trans runs
  have grown := next_grown two later p''.created _ _ _ ⟨rfl, standing_count p'' r'' _⟩ last
  have some := given.positive one
  have enough : p''.created + 1 ≤ q.created := grown.2
  omega

end Lines

/-! What the alternatives read before they give up, whatever comes later. -/

section Reading

/-- From `ts` to `us` by way of known tokens, with no regard to what is behind the
first token of `us`. -/
def Local (R : List Token → List Token → Prop) (ts us : List Token) : Prop :=
  ∃ taken token rest, ts = taken ++ token :: rest ∧ us = token :: rest ∧
    (∀ other ∈ taken, other.1 ≠ .unknown) ∧ ∀ more, R (taken ++ token :: more) (token :: more)

variable {R S : List Token → List Token → Prop}

theorem Local.imp (near : Local R ts us) (weaker : ∀ ts us, R ts us → S ts us) : Local S ts us := by
  obtain ⟨taken, token, rest, rfl, rfl, known, all⟩ := near
  exact ⟨taken, token, rest, rfl, rfl, known, fun more => weaker _ _ (all more)⟩

theorem Local.trans (first : Local R ts us) (second : Local S us vs) :
    Local (fun ts vs => ∃ us, R ts us ∧ S us vs) ts vs := by
  obtain ⟨taken, token, rest, rfl, rfl, known, all⟩ := first
  obtain ⟨again, next, later, split, rfl, known', all'⟩ := second
  refine ⟨taken ++ again, next, later, ?_, rfl, ?_, fun more => ?_⟩
  · rw [split, List.append_assoc]
  · intro other member
    exact (List.mem_append.mp member).elim (known other) (known' other)
  · -- what the first left begins with the token it stopped at
    obtain ⟨rest', same⟩ : ∃ rest', again ++ next :: more = token :: rest' := by
      cases again with
      | nil =>
        obtain ⟨rfl, -⟩ := List.cons.inj split
        exact ⟨more, rfl⟩
      | cons head again =>
        obtain ⟨rfl, -⟩ := List.cons.inj split
        exact ⟨again ++ next :: more, rfl⟩
    refine ⟨again ++ next :: more, ?_, all' more⟩
    rw [List.append_assoc, same]
    exact all rest'

theorem Clause.near (clause : Clause word ts none us) (known : word ≠ .unknown) :
    Local (Clause word · none ·) ts us := by
  cases clause with
  | half cut => exact ⟨[(word, _)], _, _, rfl, rfl, by simpa using known, fun _ => .half cut⟩
  | absent other => exact ⟨[], _, _, rfl, rfl, by simp, fun _ => .absent other⟩

theorem PairFails.near (pair : PairFails one two ts us) (first : one ≠ .unknown)
    (second : two ≠ .unknown) : Local (PairFails one two) ts us := by
  cases pair with
  | first none => exact (none.near first).imp fun _ _ none => .first none
  | second some none =>
    cases some
    obtain ⟨taken, token, rest, rfl, rfl, known, all⟩ := none.near second
    refine ⟨(one, _) :: (.number, _) :: taken, token, rest, rfl, rfl, ?_, ?_⟩
    · simpa [first] using known
    · exact fun more => .second .whole (all more)

theorem Stray.near (stray : Stray word ts us) : Local (Stray word) ts us := by
  cases stray with
  | other other => exact ⟨[], _, _, rfl, rfl, by simp, fun _ => .other other⟩
  | raw cut => exact ⟨[(.raw, _)], _, _, rfl, rfl, by simp, fun _ => .raw cut⟩
  | «show» cut => exact ⟨[(.show, _)], _, _, rfl, rfl, by simp, fun _ => .show cut⟩
  | cache noClear noShow =>
    exact ⟨[(.cache, _)], _, _, rfl, rfl, by simp, fun _ => .cache noClear noShow⟩
  | cacheShow cut =>
    exact ⟨[(.cache, _), (.show, _)], _, _, rfl, rfl, by simp, fun _ => .cacheShow cut⟩
  | @drive _ _ _ _ u drives first second =>
    obtain ⟨taken, token, rest, rfl, rfl, known, all⟩ :=
      (first.near (by simp) (by simp)).trans (second.near (by simp) (by simp))
    refine ⟨(word, u) :: taken, token, rest, rfl, rfl, ?_, fun more => ?_⟩
    · rcases drives with rfl | rfl <;> simpa using known
    · obtain ⟨_, first, second⟩ := all more
      exact .drive drives first second

theorem Strays.near (strays : Strays words ts us) (nonempty : us ≠ []) :
    Local (Strays words) ts us := by
  induction strays with
  | nil =>
    obtain ⟨token, rest, rfl⟩ := List.exists_cons_of_ne_nil nonempty
    exact ⟨[], token, rest, rfl, rfl, by simp, fun _ => .nil⟩
  | cons stray later ih =>
    apply (stray.near.trans (ih nonempty)).imp
    rintro ts vs ⟨us, stray, later⟩
    exact .cons stray later

theorem known_of_maker (maker : Maker word) : word ≠ .unknown := by
  rcases maker with rfl | rfl | rfl <;> simp

/-- Two stretches of known tokens and a word after them. -/
theorem known_before {taken again : List Token} (known : ∀ token ∈ taken, token.1 ≠ .unknown)
    (known' : ∀ token ∈ again, token.1 ≠ .unknown) (maker : Maker word) (v : Value) :
    ∀ token ∈ taken ++ (again ++ [(word, v)]), token.1 ≠ .unknown := by
  intro token member
  simp only [List.mem_append, List.mem_singleton] at member
  rcases member with first | second | rfl
  · exact known token first
  · exact known' token second
  · exact known_of_maker maker

/-- The part of a handover that decides it. -/
theorem handover_of_handsOver (twice : HandsOver ts) : ∃ tokens rest, ts = tokens ++ rest ∧
    Handover tokens ∧ ∀ token ∈ tokens, token.1 ≠ .unknown := by
  obtain ⟨earlier, word, between, next, later, u, us, v, vs, order, one, two, first, second⟩ := twice
  obtain ⟨taken, _, _, rfl, same, known, before⟩ := first.near (List.cons_ne_nil _ _)
  obtain ⟨again, _, _, split, same', known', after⟩ := second.near (List.cons_ne_nil _ _)
  cases same
  cases same'
  obtain ⟨us', begins⟩ : ∃ us', again ++ [(next, v)] = (word, u) :: us' := by
    cases again with
    | nil =>
      obtain ⟨head, -⟩ := List.cons.inj split
      exact ⟨[], by rw [List.nil_append, head]⟩
    | cons token again =>
      obtain ⟨rfl, -⟩ := List.cons.inj split
      exact ⟨again ++ [(next, v)], rfl⟩
  have whole := after []
  refine ⟨taken ++ (again ++ [(next, v)]), vs, ?_, ?_, known_before known known' two v⟩
  · rw [split]
    simp only [List.append_assoc, List.singleton_append]
  · rw [begins] at whole ⊢
    exact .handover order one two (before us') whole

/-- It is one whatever comes later. -/
theorem handsOver_of_handover (handover : Handover tokens) :
    (∀ token ∈ tokens, token.1 ≠ .unknown) ∧ ∀ rest, HandsOver (tokens ++ rest) := by
  obtain ⟨order, one, two, first, second⟩ := handover
  rename_i earlier word between next later u us v
  obtain ⟨taken, _, _, rfl, same, known, before⟩ := first.near (List.cons_ne_nil _ _)
  obtain ⟨again, _, _, split, same', known', after⟩ := second.near (List.cons_ne_nil _ _)
  cases same
  cases same'
  constructor
  · rw [split]
    exact known_before known known' two v
  · intro rest
    have longer : again ++ (next, v) :: rest = (word, u) :: (us ++ rest) := by
      rw [← List.cons_append, split, List.append_assoc, List.singleton_append]
    have whole := after rest
    rw [longer] at whole
    refine ⟨earlier, word, between, next, later, u, us ++ rest, v, rest, order, one, two, ?_, whole⟩
    rw [List.append_assoc, List.cons_append]
    exact before (us ++ rest)

end Reading
end Freedcc.Grammar

namespace Freedcc

/-- A source that says `unknown` where another would not return. -/
structure Patient (σ : Type) where
  source : σ

instance [TokenSource σ] : TokenSource (Patient σ) where
  reset patient := ⟨TokenSource.reset patient.source⟩
  nextToken patient :=
    match TokenSource.nextToken patient.source with
    | .ok (tok, source) => .ok (tok, ⟨source⟩)
    | .error _ => .ok (.unknown, patient)
  value patient := TokenSource.value patient.source
  flush patient := ⟨TokenSource.flush patient.source⟩

namespace Patient
open PartialProgram Freedcc.Parser Grammar
variable {σ : Type} [TokenSource σ] {s t : σ}

theorem nextToken_ok (read : TokenSource.nextToken s = .ok (tok, t)) :
    TokenSource.nextToken (⟨s⟩ : Patient σ) = .ok (tok, ⟨t⟩) := by
  simp only [TokenSource.nextToken, read]

theorem nextToken_error (blocked : TokenSource.nextToken s = .error fault) :
    TokenSource.nextToken (⟨s⟩ : Patient σ) = .ok (.unknown, ⟨s⟩) := by
  simp only [TokenSource.nextToken, blocked]

theorem follows : Follows fun (s : σ) (patient : Patient σ) => patient = ⟨s⟩ := by
  constructor
  · rintro s _ tok t rfl read
    exact ⟨⟨t⟩, nextToken_ok read, rfl⟩
  · rintro s _ rfl
    rfl

/-- What is known has been supplied. -/
theorem supplied {last : Patient σ} (delivers : Delivers (⟨s⟩ : Patient σ) (tokens ++ rest) last)
    (known : ∀ token ∈ tokens, token.1 ≠ .unknown) : Supplies s tokens := by
  induction tokens generalizing s with
  | nil => exact .nil
  | cons token tokens ih =>
    have here := known token List.mem_cons_self
    have later := fun other member => known other (List.mem_cons_of_mem token member)
    rw [List.cons_append] at delivers
    generalize tokens ++ rest = all at delivers ih
    cases delivers with
    | last => exact absurd rfl here
    | token read _ delivers =>
      cases given : TokenSource.nextToken s with
      | error fault =>
        cases (nextToken_error given).symm.trans read
        exact absurd rfl here
      | ok pair =>
        obtain ⟨tok, t⟩ := pair
        cases (nextToken_ok given).symm.trans read
        exact .token given (ih delivers later)

/-- What is supplied and known comes first. -/
theorem begins {last : Patient σ} (supplies : Supplies s tokens)
    (known : ∀ token ∈ tokens, token.1 ≠ .unknown)
    (delivers : Delivers (⟨s⟩ : Patient σ) all last) : ∃ rest, all = tokens ++ rest := by
  induction supplies generalizing all with
  | nil => exact ⟨all, rfl⟩
  | @token s tok t tokens read later ih =>
    have here := nextToken_ok read
    cases delivers with
    | last read' =>
      cases here.symm.trans read'
      exact absurd rfl (known _ List.mem_cons_self)
    | token read' _ delivers =>
      cases here.symm.trans read'
      obtain ⟨rest, rfl⟩ := ih (fun token member => known token (List.mem_cons_of_mem _ member)) delivers
      exact ⟨rest, rfl⟩

/-- On a stream of characters the tokens come to an end. -/
theorem delivers (s : Scanner CharStream) :
    ∃ tokens last, Delivers (⟨s⟩ : Patient (Scanner CharStream)) tokens last := by
  refine delivers_of_progress (fun _ => True) (fun t => t.source.stdin.pending) ?_ trivial
  rintro ⟨s⟩ -
  cases read : (TokenSource.nextToken s : Except Fault (Tok × Scanner CharStream)) with
  | error fault => exact ⟨_, _, nextToken_error read, fun known => absurd rfl known⟩
  | ok pair =>
    obtain ⟨tok, t⟩ := pair
    refine ⟨tok, ⟨t⟩, nextToken_ok read, fun known => ⟨trivial, ?_⟩⟩
    exact Scanner.nextToken_takes read known

end Patient

namespace Parser
open Dcc PartialProgram Grammar

/-- A call leaks no packet unless its input begins with a handover. -/
theorem no_leak_iff (null : Bool) (p next : Parser (Scanner CharStream)) (accepted : Bool)
    (returned : parserStart (some null) p = .ok (accepted, next)) :
    NoLeak p accepted next ↔ ¬ Doubles (TokenSource.reset p.scanner) := by
  obtain ⟨parsed, command, kept, settled⟩ := parserStart_settled returned
  rw [noLeak_iff settled, kept]
  let patient : Parser (Patient (Scanner CharStream)) := { p with scanner := ⟨p.scanner⟩ }
  obtain ⟨tokens, last, delivers⟩ := Patient.delivers (TokenSource.reset p.scanner)
  -- the tokens decide how many packets are made
  obtain ⟨verdict, q, r, us, runs, -⟩ := Grammar.alternatives_total delivers.ended
    ((prepare (some null) patient).replaying tokens) (newResult null)
  obtain ⟨replayed, command', along⟩ : ∃ replayed,
      parseCommand (some null) patient = .ok (verdict, replayed) ∧ _ := call_runs delivers runs
  have started : Alongside (fun s (patient : Patient (Scanner CharStream)) => patient = ⟨s⟩) 0
      (prepare (some null) p) (prepare (some null) patient) := ⟨rfl, rfl, rfl, rfl⟩
  obtain ⟨parsed', same, beside⟩ := parseTokens_simulates Patient.follows _ _ _ _ started
    (command : parseTokens (prepare (some null) p) = .ok (accepted, parsed))
  cases (command'.symm.trans same : _)
  have counts : parsed.created = (standing q r us).created := beside.created.symm.trans along.created
  rw [counts]
  constructor
  · rintro few ⟨supplied, supplies, handover⟩
    obtain ⟨known, twice⟩ := handsOver_of_handover handover
    obtain ⟨rest, rfl⟩ := Patient.begins supplies known delivers
    have two := double_packets delivers.ended (twice rest) runs
    have more : p.created + 2 ≤ (standing q r us).created := two
    omega
  · intro single
    refine single_packet delivers.ended (fun twice => single ?_) runs
    obtain ⟨supplied, rest, rfl, handover, known⟩ := handover_of_handsOver twice
    exact ⟨supplied, Patient.supplied delivers known, handover⟩

theorem no_leak_iff_stop : ∃ next, parserStart (some false) (typed "stop all\n") = .ok (true, next) ∧
    (NoLeak (typed "stop all\n") true next ↔
      ¬ Doubles (TokenSource.reset (typed "stop all\n").scanner)) := by
  obtain ⟨next, accepted, -⟩ := outcome_eq_some.mp outcome_stopAll
  exact ⟨next, accepted, no_leak_iff false _ next true accepted⟩

/-- The packet of `forward` is lost: `stop` puts its own in the result. -/
theorem forward_leaks : ∃ next payload,
    parserStart (some false) (typed "forward stop\n") = .ok (true, next) ∧
      next.result = some ⟨.dcc, payload⟩ ∧ remaining (typed "forward stop\n") next = [0, 1] ∧
      ¬ NoLeak (typed "forward stop\n") true next := by
  have runs : (parserStart (some false) (typed "forward stop\n")).toOption.map
      (fun (accepted, next) => (accepted, next.result, remaining (typed "forward stop\n") next)) =
      some (true, some ⟨.dcc, .packet ⟨1, (frame 0 true 0x10).packet⟩⟩, [0, 1]) := by
    decide +kernel
  obtain ⟨⟨accepted, next⟩, returned, same⟩ := Option.map_eq_some_iff.mp runs
  simp only [Prod.mk.injEq] at same
  obtain ⟨rfl, result, left⟩ := same
  have call : parserStart (some false) (typed "forward stop\n") = .ok (true, next) := by
    cases given : parserStart (some false) (typed "forward stop\n") with
    | error fault => simp [given, Except.toOption] at returned
    | ok pair =>
      rw [given] at returned
      exact congrArg Except.ok (Option.some.inj returned)
  refine ⟨next, _, call, result, left, fun tight => ?_⟩
  obtain ⟨ref, -, one⟩ := tight.packet rfl _ _ result (Or.inl rfl)
  rw [left] at one
  simp at one

end Parser
end Freedcc
