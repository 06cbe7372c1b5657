import Freedcc.TokenReplay

/-! Scanning any stream that can be read with one character in hand: where each
character is followed by another or by the end of the input, until a newline, the
scanner makes tokens of them, and leaves the stream as it may. -/
namespace Freedcc

namespace Scanner
open PartialProgram
variable {δ : Type} [Stdin δ]

/-- `A n` holds where there is something to read, no more than `n` characters of it, and
`T n c` where `c` has been read and can be taken back. -/
structure Lookahead (A : Nat → δ → Prop) (T : Nat → Option Char → δ → Prop) : Prop where
  getchar : ∀ n s, A n s → ∃ c t, Stdin.getchar s = .ok (c, t) ∧ T n c t
  ungetc : ∀ n c s, T n (some c) s → A n (Stdin.ungetc c s)
  ended : ∀ n s, T n none s → A n s
  inner : ∀ n c s, T n (some c) s → c ≠ '\n' → ∃ m < n, A m s
  longer : ∀ m n c s, m ≤ n → T m c s → T n c s
  pending : ∀ n s, A n s → Stdin.pending s ≤ n ∧ A (Stdin.pending s) s

section Reading
variable {A : Nat → δ → Prop} {T : Nat → Option Char → δ → Prop} {n : Nat}

/-- Where a call may leave the stream. -/
def Passed (A : Nat → δ → Prop) (T : Nat → Option Char → δ → Prop) (s : δ) : Prop :=
  ∃ n, A n s ∨ ∃ c, T n c s

/-- Behind a token there is more to read. -/
def MoreBehind (A : Nat → δ → Prop) (T : Nat → Option Char → δ → Prop) (n : Nat) (tok : Tok)
    (s : Scanner δ) : Prop :=
  Passed A T s.stdin ∧ (tok ≠ .unknown → A n s.stdin)

/-- A token takes a character. -/
def LessBehind (A : Nat → δ → Prop) (T : Nat → Option Char → δ → Prop) (n : Nat) (tok : Tok)
    (s : Scanner δ) : Prop :=
  Passed A T s.stdin ∧ (tok ≠ .unknown → ∃ m < n, A m s.stdin)

variable (look : Lookahead A T)
include look

theorem Lookahead.read : Returns (fun s => A n s.stdin) (Scanner.getchar : Scan δ (Option Char))
    fun c s => T n c s.stdin := by
  intro s holds
  obtain ⟨c, stdin, read, taken⟩ := look.getchar n s.stdin holds
  refine ⟨c, { s with stdin }, ?_, taken⟩
  simp only [Scanner.getchar, read]
  rfl

/-- Reading goes on behind any other character than a newline. -/
theorem Lookahead.further {x : Scan δ α} {Q : α → Scanner δ → Prop} (inner : c ≠ '\n')
    (later : ∀ m < n, Returns (fun s => A m s.stdin) x Q) :
    Returns (fun s => T n (some c) s.stdin) x Q := by
  intro s taken
  obtain ⟨m, less, holds⟩ := look.inner n c s.stdin taken inner
  exact later m less s holds

theorem Lookahead.back (c : Option Char) : Returns (fun s => T n c s.stdin)
    (Scanner.ungetc c : Scan δ Unit) fun _ s => A n s.stdin := by
  refine .modify fun s taken => ?_
  cases c with
  | none => exact look.ended n s.stdin taken
  | some c => exact look.ungetc n c s.stdin taken

theorem Lookahead.putBack (c : Option Char) : Returns (fun s => T n c s.stdin)
    (Scanner.putBack c : Scan δ Unit) fun _ s => A n s.stdin := by
  cases c with
  | none => exact .modify fun s taken => look.ended n s.stdin taken
  | some c => exact look.back (some c)

theorem Lookahead.scanHex (room : Nat) (tok : List Char) (last : Option Char) :
    Returns (fun s => A n s.stdin)
      (Scanner.scanHex (room + 1) tok last : Scan δ (List Char × Option Char))
      fun scanned s => T n scanned.2 s.stdin := by
  induction room generalizing n tok last with
  | zero =>
    refine look.read.bind fun c => ?_
    cases c with
    | none => exact .pure fun _ taken => taken
    | some letter => exact .ite (fun _ => .pure fun _ taken => taken) fun _ => .pure fun _ taken => taken
  | succ room ih =>
    refine look.read.bind fun c => ?_
    cases c with
    | none => exact .pure fun _ taken => taken
    | some letter =>
      refine .ite (fun inside => ?_) fun _ => .pure fun _ taken => taken
      have inner : letter ≠ '\n' := by
        rintro rfl
        contradiction
      refine look.further inner fun m less => ?_
      exact (ih _ _).weaken (fun _ holds => holds) fun _ _ taken => look.longer _ _ _ _ less.le taken

theorem Lookahead.scanLetters (room : Nat) (tok : List Char) (letter : Char) :
    Returns (fun s => A n s.stdin)
      (Scanner.scanLetters (room + 1) tok letter : Scan δ (List Char × Option Char))
      fun scanned s => T n scanned.2 s.stdin := by
  induction room generalizing n tok letter with
  | zero =>
    refine look.read.bind fun c => ?_
    cases c with
    | none => exact .pure fun _ taken => taken
    | some next => exact .ite (fun _ => .pure fun _ taken => taken) fun _ => .pure fun _ taken => taken
  | succ room ih =>
    refine look.read.bind fun c => ?_
    cases c with
    | none => exact .pure fun _ taken => taken
    | some next =>
      refine .ite (fun inside => ?_) fun _ => .pure fun _ taken => taken
      have inner : next ≠ '\n' := by
        rintro rfl
        contradiction
      refine look.further inner fun m less => ?_
      exact (ih _ _).weaken (fun _ holds => holds) fun _ _ taken => look.longer _ _ _ _ less.le taken

theorem Lookahead.scanDigits (room : n < fuel) (number : BitVec 16) :
    Returns (fun s => A n s.stdin)
      (Scanner.scanDigits fuel number : Scan δ (BitVec 16 × Option Char))
      fun scanned s => T n scanned.2 s.stdin := by
  induction fuel generalizing n number with
  | zero => exact absurd room (Nat.not_lt_zero n)
  | succ fuel ih =>
    refine look.read.bind fun c => ?_
    cases c with
    | none => exact .pure fun _ taken => taken
    | some letter =>
      refine .ite (fun inside => ?_) fun _ => .pure fun _ taken => taken
      have inner : letter ≠ '\n' := by
        rintro rfl
        contradiction
      refine look.further inner fun m less => ?_
      have shorter : m < fuel := by omega
      exact (ih shorter _).weaken (fun _ holds => holds)
        fun _ _ taken => look.longer _ _ _ _ less.le taken

omit look [Stdin δ] in
theorem MoreBehind.intro {s : Scanner δ} (holds : A n s.stdin) (tok : Tok) : MoreBehind A T n tok s :=
  ⟨⟨n, Or.inl holds⟩, fun _ => holds⟩

theorem Lookahead.nextHex : Returns (fun s => A n s.stdin) (Scanner.nextHex : Scan δ Tok)
    (MoreBehind A T n) := by
  refine (look.scanHex 19 [] (some '0')).bind fun scanned => ?_
  have set : Returns (fun s => T n scanned.2 s.stdin) (setValue (.s scanned.1) : Scan δ Unit)
      fun _ s => T n scanned.2 s.stdin := .modify fun _ taken => taken
  refine set.bind fun _ => .ite (fun _ => .pure fun _ taken => ?_) fun _ => ?_
  · exact ⟨⟨n, Or.inr ⟨scanned.2, taken⟩⟩, fun known => absurd rfl known⟩
  · exact (look.putBack _).bind fun _ => .pure fun _ holds => .intro holds _

theorem Lookahead.nextNumber (first : Char) : Returns (fun s => A n s.stdin)
    (Scanner.nextNumber first : Scan δ Tok) (MoreBehind A T n) := by
  refine Returns.get fun s holds => ?_
  obtain ⟨few, here⟩ := look.pending n s.stdin holds
  have scan : Returns (fun t => t = s)
      (Scanner.scanDigits (Stdin.pending s.stdin + 1) (digit first) : Scan δ (BitVec 16 × Option Char))
      fun scanned t => T n scanned.2 t.stdin := by
    refine (look.scanDigits (Nat.lt_succ_self _) _).weaken ?_ fun _ _ taken => look.longer _ _ _ _ few taken
    rintro t rfl
    exact here
  refine scan.bind fun scanned => ?_
  have set : Returns (fun s => T n scanned.2 s.stdin) (setValue (.i scanned.1) : Scan δ Unit)
      fun _ s => T n scanned.2 s.stdin := .modify fun _ taken => taken
  exact set.bind fun _ => (look.putBack _).bind fun _ => .pure fun _ holds => .intro holds _

theorem Lookahead.nextKeyword (first : Char) : Returns (fun s => A n s.stdin)
    (Scanner.nextKeyword first : Scan δ Tok) (MoreBehind A T n) := by
  refine (look.scanLetters 19 [] first).bind fun scanned => ?_
  have set : Returns (fun s => T n scanned.2 s.stdin) (setValue (.s scanned.1) : Scan δ Unit)
      fun _ s => T n scanned.2 s.stdin := .modify fun _ taken => taken
  exact set.bind fun _ => (look.putBack _).bind fun _ => .pure fun _ holds => .intro holds _

theorem Lookahead.scanToken (room : n < fuel) : Returns (fun s => A n s.stdin)
    (Scanner.scanToken fuel : Scan δ Tok) (LessBehind A T n) := by
  induction fuel generalizing n with
  | zero => exact absurd room (Nat.not_lt_zero n)
  | succ fuel ih =>
    have shorter {m : Nat} (less : m < n) : ∀ tok (s : Scanner δ),
        MoreBehind A T m tok s → LessBehind A T n tok s :=
      fun _ _ more => ⟨more.1, fun known => ⟨m, less, more.2 known⟩⟩
    have unknown (c : Option Char) : Returns (fun s => T n c s.stdin) (pure .unknown : Scan δ Tok)
        (LessBehind A T n) :=
      .pure fun _ taken => ⟨⟨n, Or.inr ⟨c, taken⟩⟩, fun known => absurd rfl known⟩
    refine look.read.bind fun c => ?_
    cases c with
    | none => exact unknown none
    | some c =>
      refine .ite (fun zero => ?_) fun _ => .ite (fun digit => ?_) fun _ =>
        .ite (fun letter => ?_) fun _ => .ite (fun blank => ?_) fun _ => unknown (some c)
      · have inner : c ≠ '\n' := by simp [zero]
        refine look.further inner fun m less => look.read.bind fun c2 => .ite (fun hex => ?_) fun _ => ?_
        · subst hex
          refine look.further (by decide) fun k fewer => ?_
          exact look.nextHex.weaken (fun _ holds => holds) (shorter (fewer.trans less))
        · exact (look.back c2).bind fun _ =>
            (look.nextNumber c).weaken (fun _ holds => holds) (shorter less)
      · have inner : c ≠ '\n' := by
          rintro rfl
          contradiction
        refine look.further inner fun m less => ?_
        exact (look.nextNumber c).weaken (fun _ holds => holds) (shorter less)
      · have inner : c ≠ '\n' := by
          rintro rfl
          contradiction
        refine look.further inner fun m less => ?_
        exact (look.nextKeyword c).weaken (fun _ holds => holds) (shorter less)
      · have inner : c ≠ '\n' := by rcases blank with rfl | rfl <;> decide
        refine look.further inner fun m less => ?_
        have within : m < fuel := by omega
        refine (ih within).weaken (fun _ holds => holds) fun _ _ behind => ⟨behind.1, fun known => ?_⟩
        obtain ⟨k, fewer, holds⟩ := behind.2 known
        exact ⟨k, fewer.trans less, holds⟩

theorem Lookahead.nextToken : Returns (fun s => A n s.stdin) (Scanner.nextToken : Scan δ Tok)
    (LessBehind A T n) := by
  refine Returns.get fun s holds => .ite (fun _ => .pure ?_) fun _ => ?_
  · rintro t rfl
    exact ⟨⟨n, Or.inl holds⟩, fun known => absurd rfl known⟩
  · obtain ⟨few, here⟩ := look.pending n s.stdin holds
    apply (look.scanToken (Nat.lt_succ_self (Stdin.pending s.stdin))).weaken
    · rintro t rfl
      exact here
    · rintro tok t ⟨passed, later⟩
      refine ⟨passed, fun known => ?_⟩
      obtain ⟨m, fewer, left⟩ := later known
      exact ⟨m, fewer.trans_le few, left⟩

/-- The tokens come to an end. -/
theorem Lookahead.delivers {s : Scanner δ} (holds : A n s.stdin) :
    ∃ tokens last, Delivers s tokens last := by
  refine delivers_of_progress (fun t => ∃ n, A n t.stdin) (fun t => Stdin.pending t.stdin) ?_ ⟨n, holds⟩
  rintro s ⟨n, holds⟩
  obtain ⟨-, here⟩ := look.pending n s.stdin holds
  obtain ⟨tok, t, read, -, later⟩ := look.nextToken s here
  refine ⟨tok, t, read, fun known => ?_⟩
  obtain ⟨m, fewer, left⟩ := later known
  exact ⟨⟨m, left⟩, Nat.lt_of_le_of_lt (look.pending m t.stdin left).1 fewer⟩

end Reading
end Scanner
end Freedcc
