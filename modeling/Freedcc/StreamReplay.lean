import Freedcc.TokenReplay

/-! A parse depends on nothing but the characters: it runs the same on any two
streams that hand over the same ones, whatever is left in the parser from
earlier calls. -/
namespace Freedcc

namespace Scanner
open PartialProgram
variable {δ ε : Type} [Stdin δ] [Stdin ε]

theorem getchar_ok {s s' : Scanner δ} {c : Option Char} : getchar s = .ok (c, s') ↔
    ∃ stdin, Stdin.getchar s.stdin = .ok (c, stdin) ∧ s' = { s with stdin } := by
  cases read : Stdin.getchar s.stdin with
  | error fault => simp [getchar, read, bind, Except.bind]
  | ok pair =>
    simp only [getchar, read, bind, Except.bind, pure, Except.pure, Except.ok.injEq, Prod.mk.injEq]
    constructor
    · rintro ⟨rfl, rfl⟩
      exact ⟨pair.2, rfl, rfl⟩
    · rintro ⟨stdin, rfl, rfl⟩
      exact ⟨rfl, rfl⟩

/-- Whoever stops after `fuel` characters of `s` does so within `more` of them, or has
come to their end before. -/
def Covers : Nat → Nat → δ → Prop
  | 0, _, _ => True
  | _ + 1, 0, _ => False
  | fuel + 1, more + 1, s => ∀ c s', Stdin.getchar s = .ok (some c, s') → Covers fuel more s'

theorem covers_of_le (enough : fuel ≤ more) (s : δ) : Covers fuel more s := by
  induction fuel generalizing more s with
  | zero => trivial
  | succ fuel ih =>
    obtain ⟨more, rfl⟩ := Nat.exists_eq_add_one.mpr (Nat.zero_lt_of_lt enough)
    exact fun _ s' _ => ih (Nat.le_of_succ_le_succ enough) s'

theorem covers_of_falls {ahead : δ → Nat}
    (falls : ∀ s c s', Stdin.getchar s = .ok (some c, s') → ahead s' < ahead s) (fuel : Nat)
    {s : δ} (few : ahead s < more) : Covers fuel more s := by
  induction fuel generalizing more s with
  | zero => trivial
  | succ fuel ih =>
    obtain ⟨more, rfl⟩ := Nat.exists_eq_add_one.mpr (Nat.zero_lt_of_lt few)
    exact fun c s' read => ih (Nat.lt_of_lt_of_le (falls s c s' read) (Nat.le_of_lt_succ few))

/-- What the one stream hands over, so does the other. `F` holds where a
character has been read and can be taken back. -/
structure Feeds (R F : δ → ε → Prop) : Prop where
  related : ∀ s t, F s t → R s t
  getchar : ∀ s t c s', R s t → Stdin.getchar s = .ok (c, s') →
    ∃ t', Stdin.getchar t = .ok (c, t') ∧ F s' t'
  ungetc : ∀ c s t, F s t → R (Stdin.ungetc c s) (Stdin.ungetc c t)
  covers : ∀ s t, R s t → Covers (Stdin.pending s + 1) (Stdin.pending t + 1) s

structure Beside (R : δ → ε → Prop) (V : Value → Value → Prop) (flush : ε → ε)
    (s : Scanner δ) (t : Scanner ε) : Prop where
  stdin : R s.stdin t.stdin
  value : V s.value t.value
  seenEnd : s.seenEnd = t.seenEnd
  flush : t.flush = flush

variable {R F : δ → ε → Prop} {V : Value → Value → Prop} {flush : ε → ε}

omit [Stdin δ] [Stdin ε] in
theorem Beside.imp {s : Scanner δ} {t : Scanner ε} (beside : Beside F V flush s t)
    (stream : ∀ s t, F s t → R s t) : Beside R V flush s t :=
  ⟨stream _ _ beside.stdin, beside.value, beside.seenEnd, beside.flush⟩

omit [Stdin δ] [Stdin ε] in
theorem Beside.eq {s : Scanner δ} {t : Scanner ε} (beside : Beside R Eq flush s t)
    (refl : ∀ v, V v v) : Beside R V flush s t :=
  ⟨beside.stdin, beside.value ▸ refl _, beside.seenEnd, beside.flush⟩

section Characters
variable (feeds : Feeds R F)
include feeds

theorem getchar_simulates : Simulates (Beside R V flush) (getchar : Scan δ (Option Char)) getchar
    fun _ => Beside F V flush := by
  intro s t c s' beside returned
  obtain ⟨stdin, read, rfl⟩ := getchar_ok.mp returned
  obtain ⟨stdin', same, fed⟩ := feeds.getchar _ _ _ _ beside.stdin read
  exact ⟨_, getchar_ok.mpr ⟨stdin', same, rfl⟩, fed, beside.value, beside.seenEnd, beside.flush⟩

theorem ungetc_simulates (c : Option Char) :
    Simulates (Beside F V flush) (ungetc c : Scan δ Unit) (ungetc c)
      fun _ => Beside R V flush := by
  refine Simulates.modify fun s t beside => ?_
  cases c with
  | none => exact beside.imp feeds.related
  | some c => exact ⟨feeds.ungetc c _ _ beside.stdin, beside.value, beside.seenEnd, beside.flush⟩

theorem putBack_simulates (c : Option Char) :
    Simulates (Beside F V flush) (putBack c : Scan δ Unit) (putBack c)
      fun _ => Beside R V flush := by
  cases c with
  | none =>
    refine Simulates.modify fun s t beside => ?_
    exact ⟨feeds.related _ _ beside.stdin, beside.value, rfl, beside.flush⟩
  | some c => exact ungetc_simulates feeds (some c)

omit feeds [Stdin δ] [Stdin ε] in
theorem setValue_simulates (value : Value) :
    Simulates (Beside R V flush) (setValue value : Scan δ Unit) (setValue value)
      fun _ => Beside R Eq flush :=
  Simulates.modify fun _ _ beside => ⟨beside.stdin, rfl, beside.seenEnd, beside.flush⟩

theorem scanHex_simulates (room : Nat) (tok : List Char) (last : Option Char) :
    Simulates (Beside F V flush) (scanHex room tok last : Scan δ _) (scanHex room tok last) := by
  induction room generalizing tok last with
  | zero => exact .done _
  | succ room ih =>
    refine Simulates.bind ((getchar_simulates feeds).weaken
      (fun _ _ beside => beside.imp feeds.related) fun _ _ _ beside => beside) fun c => ?_
    cases c with
    | none => exact .done _
    | some letter => exact .ite (fun _ => ih _ _) fun _ => .done _

theorem getchar_covers (fuel more : Nat) :
    Simulates (fun s t => Beside R V flush s t ∧ Covers (fuel + 1) (more + 1) s.stdin)
      (getchar : Scan δ (Option Char)) getchar
      fun c s t => Beside F V flush s t ∧ (c ≠ none → Covers fuel more s.stdin) := by
  rintro s t c s' ⟨beside, covers⟩ returned
  obtain ⟨t', same, after⟩ := getchar_simulates feeds s t c s' beside returned
  refine ⟨t', same, after, fun some => ?_⟩
  obtain ⟨letter, rfl⟩ := Option.ne_none_iff_exists'.mp some
  obtain ⟨stdin, read, rfl⟩ := getchar_ok.mp returned
  exact covers letter stdin read

/-- A larger bound makes no difference. -/
theorem scanDigits_simulates (fuel more : Nat) (number : BitVec 16) :
    Simulates (fun s t => Beside R V flush s t ∧ Covers fuel more s.stdin)
      (scanDigits fuel number : Scan δ _) (scanDigits more number)
      fun _ => Beside F V flush := by
  induction fuel generalizing more number with
  | zero => exact .throw _
  | succ fuel ih =>
    cases more with
    | zero => exact fun _ _ _ _ holds => holds.2.elim
    | succ more =>
      refine Simulates.bind (getchar_covers feeds fuel more) fun c => ?_
      cases c with
      | none => exact .pure _ fun _ _ holds => holds.1
      | some letter =>
        refine .ite (fun _ => ?_) fun _ => .pure _ fun _ _ holds => holds.1
        exact (ih more _).weaken
          (fun _ _ holds => ⟨holds.1.imp feeds.related, holds.2 (Option.some_ne_none _)⟩)
          fun _ _ _ beside => beside

theorem scanLetters_simulates (room : Nat) (tok : List Char) (letter : Char) :
    Simulates (Beside F V flush) (scanLetters room tok letter : Scan δ _)
      (scanLetters room tok letter) := by
  induction room generalizing tok letter with
  | zero => exact .done _
  | succ room ih =>
    refine Simulates.bind ((getchar_simulates feeds).weaken
      (fun _ _ beside => beside.imp feeds.related) fun _ _ _ beside => beside) fun c => ?_
    cases c with
    | none => exact .done _
    | some next => exact .ite (fun _ => ih _ _) fun _ => .done _

end Characters

section Tokens
variable (feeds : Feeds R F)
include feeds

/-- The value of a token replaces whatever was there. -/
theorem nextHex_simulates : Simulates (Beside F V flush) (nextHex : Scan δ Tok) nextHex
    fun _ => Beside R Eq flush := by
  refine Simulates.bind (scanHex_simulates feeds _ _ _) fun (tok, c) => ?_
  refine Simulates.bind (setValue_simulates _) fun _ => ?_
  refine .ite (fun _ => .pure _ fun _ _ beside => beside.imp feeds.related) fun _ => ?_
  exact Simulates.bind (putBack_simulates feeds c) fun _ => .done _

theorem nextNumber_simulates (first : Char) : Simulates (Beside R V flush)
    (nextNumber first : Scan δ Tok) (nextNumber first) fun _ => Beside R Eq flush := by
  refine Simulates.get fun s t beside => ?_
  have scanned : Simulates (fun s t => Beside R V flush s t ∧ Covers _ _ s.stdin) _ _ _ :=
    scanDigits_simulates feeds (Stdin.pending s.stdin + 1) (Stdin.pending t.stdin + 1) (digit first)
  refine Simulates.bind (scanned.weaken ?_ fun _ _ _ beside => beside) fun (number, c) => ?_
  · rintro _ _ ⟨rfl, rfl⟩
    exact ⟨beside, feeds.covers _ _ beside.stdin⟩
  · refine Simulates.bind (setValue_simulates _) fun _ => ?_
    exact Simulates.bind (putBack_simulates feeds c) fun _ => .done _

theorem nextKeyword_simulates (first : Char) : Simulates (Beside F V flush)
    (nextKeyword first : Scan δ Tok) (nextKeyword first) fun _ => Beside R Eq flush := by
  refine Simulates.bind (scanLetters_simulates feeds _ _ _) fun (tok, c) => ?_
  refine Simulates.bind (setValue_simulates _) fun _ => ?_
  exact Simulates.bind (putBack_simulates feeds c) fun _ => .done _

/-- The values are the same if they were, and in any case after a token. -/
abbrev Told (R : δ → ε → Prop) (V : Value → Value → Prop) (flush : ε → ε) (tok : Tok)
    (s : Scanner δ) (t : Scanner ε) : Prop :=
  Beside R V flush s t ∧ (tok ≠ .unknown → s.value = t.value)

theorem scanToken_simulates (refl : ∀ v, V v v) (fuel more : Nat) :
    Simulates (fun s t => Beside R V flush s t ∧ Covers fuel more s.stdin)
      (scanToken fuel : Scan δ Tok) (scanToken more) (Told R V flush) := by
  induction fuel generalizing more with
  | zero => exact .throw _
  | succ fuel ih =>
    obtain _ | more := more
    · exact fun _ _ _ _ holds => holds.2.elim
    have unknown (c : Option Char) : Simulates
        (fun s t => Beside F V flush s t ∧ (c ≠ none → Covers fuel more s.stdin))
        (pure .unknown : Scan δ Tok) (pure .unknown) (Told R V flush) :=
      .pure _ fun s t holds => ⟨holds.1.imp feeds.related, fun known => absurd rfl known⟩
    have told : ∀ tok s t, Beside R Eq flush s t → Told R V flush tok s t :=
      fun tok s t beside => ⟨beside.eq refl, fun _ => beside.value⟩
    refine Simulates.bind (getchar_covers feeds fuel more) fun c => ?_
    cases c with
    | none => exact unknown none
    | some c =>
      have behind : ∀ s t, Beside F V flush s t ∧ (some c ≠ none → Covers fuel more s.stdin) →
          Beside R V flush s t := fun s t holds => holds.1.imp feeds.related
      refine .ite (fun _ => ?_) fun _ => .ite (fun _ => ?_) fun _ => .ite (fun _ => ?_) fun _ =>
        .ite (fun _ => ?_) fun _ => unknown (some c)
      · refine Simulates.bind ((getchar_simulates feeds).weaken behind fun _ _ _ beside => beside)
          fun c2 => ?_
        refine .ite (fun _ => (nextHex_simulates feeds).weaken (fun _ _ beside => beside) told)
          fun _ => ?_
        exact Simulates.bind (ungetc_simulates feeds c2) fun _ =>
          (nextNumber_simulates feeds c).weaken (fun _ _ beside => beside) told
      · exact (nextNumber_simulates feeds c).weaken behind told
      · exact (nextKeyword_simulates feeds c).weaken (fun _ _ holds => holds.1) told
      · exact (ih more).weaken
          (fun s t holds => ⟨behind s t holds, holds.2 (Option.some_ne_none _)⟩) fun _ _ _ told => told

theorem nextToken_simulates (refl : ∀ v, V v v) :
    Simulates (Beside R V flush) (nextToken : Scan δ Tok) nextToken (Told R V flush) := by
  refine Simulates.get fun s t beside => ?_
  rw [beside.seenEnd]
  refine .ite (fun _ => .pure _ ?_) fun _ =>
    (scanToken_simulates feeds refl _ _).weaken ?_ fun _ _ _ told => told
  · rintro _ _ ⟨rfl, rfl⟩
    exact ⟨beside, fun known => absurd rfl known⟩
  · rintro _ _ ⟨rfl, rfl⟩
    exact ⟨beside, feeds.covers _ _ beside.stdin⟩

end Tokens

omit [Stdin δ] [Stdin ε] in
theorem Beside.reset {W : Value → Value → Prop} {s : Scanner δ} {t : Scanner ε}
    (stdin : R s.stdin t.stdin) (value : W s.value t.value) :
    Beside R W t.flush s.reset t.reset := ⟨stdin, value, rfl, rfl⟩

end Scanner

namespace Parser
open PartialProgram Scanner

section NoToken
variable {σ : Type} [TokenSource σ] {p : Parser σ}

theorem accept_unknown (none : p.curr = .unknown) (known : tok ≠ .unknown) :
    accept tok p = .ok (false, p) := by
  rw [accept, ok_bind (acceptNoAdvance_eq tok p), none]
  simp only [known, decide_false, Bool.false_eq_true, if_false]
  rfl

/-- A line without a first token is rejected at once. -/
theorem parse_unknown (none : p.curr = .unknown) : parse p = .ok (false, p) := by
  have raw : grammarRaw p = .ok (false, p) :=
    (ok_bind (andM_false (accept_unknown none (by simp)))).trans rfl
  have help : grammarHelp p = .ok (false, p) :=
    (ok_bind (accept_unknown none (by simp))).trans rfl
  have status : grammarShow p = .ok (false, p) :=
    (ok_bind (accept_unknown none (by simp))).trans rfl
  have cache : grammarCache p = .ok (false, p) :=
    (ok_bind (accept_unknown none (by simp))).trans rfl
  have drive : ∀ keyword direction, keyword ≠ .unknown →
      grammarDrive keyword direction p = .ok (false, p) := fun _ _ known =>
    (ok_bind (accept_unknown none known)).trans rfl
  have stop : grammarStop p = .ok (false, p) :=
    (ok_bind (accept_unknown none (by simp))).trans rfl
  have before : parseBeforeStop p = .ok (false, p) := by
    rw [parseBeforeStop, orM_false raw, orM_false help, orM_false status, orM_false cache]
    apply (orM_false (drive _ _ (by simp))).trans
    exact drive _ _ (by simp)
  rw [parse, orM_false before]
  exact stop

end NoToken

variable {δ ε : Type} [Stdin δ] [Stdin ε] {R F : δ → ε → Prop}

theorem follows_beside (feeds : Feeds R F) {flush : ε → ε} : Follows (Beside R Eq flush) := by
  constructor
  · exact (nextToken_simulates feeds fun _ => rfl).weaken (fun _ _ beside => beside)
      fun _ _ _ holds => holds.1
  · exact fun _ _ beside => beside.value

/-- Two scanners at the same point of streams that hand over the same characters. -/
abbrev Same (R : δ → ε → Prop) (flush : ε → ε) : Scanner δ → Scanner ε → Prop :=
  Beside R (fun _ _ => True) flush

omit [Stdin δ] [Stdin ε] in
theorem same_of_beside {flush : ε → ε} {s : Scanner δ} {t : Scanner ε}
    (beside : Beside R Eq flush s t) : Same R flush s t :=
  ⟨beside.stdin, trivial, beside.seenEnd, beside.flush⟩

/-- The verdict on the characters of a stream, and the result, are those for any
stream that hands over the same ones. -/
theorem command_streams (feeds : Feeds R F) (null : Bool) {p p' : Parser (Scanner δ)}
    {q : Parser (Scanner ε)} (start : p.created = 0) (stdin : R p.scanner.stdin q.scanner.stdin)
    (returned : parseCommand (some null) p = .ok (accepted, p')) :
    ∃ q', parseCommand (some null) q = .ok (accepted, q') ∧
      Alongside (Same R q.scanner.flush) q.created p' q' := by
  have command : parseTokens (prepare (some null) p) = .ok (accepted, p') := returned
  obtain ⟨⟨⟩, opened, first, later⟩ := bind_ok command
  obtain ⟨curr, scanner, read, rfl⟩ := advance_ok.mp first
  obtain ⟨scanner', same, beside, value⟩ := nextToken_simulates feeds (V := fun _ _ => True)
    (fun _ => trivial) _ _ curr scanner (.reset stdin trivial) read
  have opening : advance (prepare (some null) q) =
      .ok ((), { prepare (some null) q with scanner := scanner', curr }) :=
    advance_ok.mpr ⟨curr, scanner', same, rfl⟩
  have whole : ∀ {q'}, parse { prepare (some null) q with scanner := scanner', curr } =
      .ok (accepted, q') → parseCommand (some null) q = .ok (accepted, q') :=
    fun parsed => (ok_bind rfl).trans ((ok_bind opening).trans parsed)
  have created : q.created = p.created + q.created := by rw [start, Nat.zero_add]
  by_cases known : curr = .unknown
  · have rejected := (parse_unknown known).symm.trans later
    obtain ⟨rfl, rfl⟩ := Prod.mk.inj (Except.ok.inj rejected)
    exact ⟨_, whole (parse_unknown known), beside, rfl, rfl, created⟩
  · have along : Alongside (Beside R Eq q.scanner.flush) q.created
        { prepare (some null) p with scanner, curr }
        { prepare (some null) q with scanner := scanner', curr } :=
      ⟨⟨beside.stdin, value known, beside.seenEnd, beside.flush⟩, rfl, rfl, created⟩
    obtain ⟨q', parsed, after⟩ := parse_simulates (follows_beside feeds) _ _ _ _ along later
    exact ⟨q', whole parsed, same_of_beside after.scanner, after.curr, after.result,
      after.created⟩

end Parser
end Freedcc
