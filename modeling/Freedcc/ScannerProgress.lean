import Freedcc.Lookahead
import Freedcc.ScannerText
import Freedcc.StreamReplay

/-! Every line comes to an end: whatever its characters, the scanner makes
tokens of them and asks for nothing after the newline. -/
namespace Freedcc.Scanner
variable {δ : Type} [Stdin δ]

/-- A stream seen as one whose characters are known. It stays clean while no
second character in a row is pushed back. -/
structure Views (view : δ → CharStream) (clean : δ → Prop) : Prop where
  getchar : ∀ s c t, clean s → (view s).getchar = .ok (c, t) →
    ∃ s', Stdin.getchar s = .ok (c, s') ∧ view s' = t ∧ clean s'
  ungetc : ∀ c s, clean s → (view s).unget = none →
    view (Stdin.ungetc c s) = (view s).ungetc c ∧ clean (Stdin.ungetc c s)
  pending : ∀ s, Stdin.pending s = (view s).pending

/-- The first newline is the one before `rest`. -/
def Upto (rest cs : List (Option Char)) : Prop :=
  ∃ line, cs = line ++ some '\n' :: rest ∧ some '\n' ∉ line

theorem Upto.tail (upto : Upto rest (c :: cs)) (inner : c ≠ some '\n') : Upto rest cs := by
  obtain ⟨line, same, first⟩ := upto
  cases line with
  | nil => exact absurd (List.cons.inj same).1 inner
  | cons d line =>
    exact ⟨line, (List.cons.inj same).2, fun member => first (List.mem_cons_of_mem d member)⟩

theorem Upto.suffix (upto : Upto rest (c :: cs)) : rest <:+ cs := by
  obtain ⟨line, same, -⟩ := upto
  cases line with
  | nil =>
    obtain ⟨-, rfl⟩ := List.cons.inj same
    exact List.suffix_refl cs
  | cons d line =>
    obtain ⟨-, rfl⟩ := List.cons.inj same
    exact ⟨line ++ [some '\n'], by simp⟩

theorem Upto.unread {stream : CharStream} (upto : Upto rest stream.contents) :
    rest <:+ stream.input := by
  obtain ⟨unget, input⟩ := stream
  cases unget with
  | none =>
    obtain ⟨line, same, -⟩ := upto
    have input : input = line ++ some '\n' :: rest := same
    exact ⟨line ++ [some '\n'], by simp [input]⟩
  | some c => exact suffix upto

section Reading
variable {view : δ → CharStream} {clean : δ → Prop} {rest : List (Option Char)} {n : Nat} {s : δ}

/-- The newline is still to come, and so are no more than `n` characters. -/
structure Ahead (view : δ → CharStream) (clean : δ → Prop) (rest : List (Option Char)) (n : Nat)
    (s : δ) : Prop where
  clean : clean s
  few : (view s).pending ≤ n
  upto : Upto rest (view s).contents

/-- A character has been read and can be taken back. -/
structure Taken (view : δ → CharStream) (clean : δ → Prop) (rest : List (Option Char)) (n : Nat)
    (c : Option Char) (s : δ) : Prop where
  clean : clean s
  free : (view s).unget = none
  few : (view s).pending < n
  upto : Upto rest (c :: (view s).input)

/-- Nothing after the newline has been read. -/
def Past (view : δ → CharStream) (clean : δ → Prop) (rest : List (Option Char)) (s : δ) : Prop :=
  clean s ∧ rest <:+ (view s).input

omit [Stdin δ] in
theorem Ahead.past (ahead : Ahead view clean rest n s) : Past view clean rest s :=
  ⟨ahead.clean, ahead.upto.unread⟩

omit [Stdin δ] in
theorem Passed.past (passed : Passed (Ahead view clean rest) (Taken view clean rest) s) :
    Past view clean rest s := by
  obtain ⟨n, ahead | ⟨c, taken⟩⟩ := passed
  · exact ahead.past
  · exact ⟨taken.clean, taken.upto.suffix⟩

omit [Stdin δ] in
/-- Reading goes on behind any other character. -/
theorem Taken.on (taken : Taken view clean rest n c s) (inner : c ≠ some '\n') :
    ∃ m < n, Ahead view clean rest m s := by
  refine ⟨_, taken.few, taken.clean, Nat.le_refl _, ?_⟩
  rw [CharStream.contents, taken.free]
  exact taken.upto.tail inner

theorem Views.lookahead (views : Views view clean) :
    Lookahead (Ahead view clean rest) (Taken view clean rest) where
  getchar n s ahead := by
    obtain ⟨line, same, first⟩ := ahead.upto
    obtain ⟨c, more, split⟩ : ∃ c more, (view s).contents = c :: more := by
      rw [same]
      exact List.exists_cons_of_ne_nil (by simp)
    obtain ⟨next, read, seen, clean'⟩ := views.getchar _ _ _ ahead.clean
      (CharStream.getchar_contents split)
    have few := ahead.few
    rw [CharStream.pending_eq, split, List.length_cons] at few
    refine ⟨c, next, read, clean', ?_, ?_, ?_⟩
    · rw [seen]
    · rw [seen]
      simpa [CharStream.pending] using Nat.lt_of_succ_le few
    · rw [seen, ← split]
      exact ahead.upto
  ungetc n c s taken := by
    obtain ⟨seen, clean'⟩ := views.ungetc c _ taken.clean taken.free
    have pushed : view (Stdin.ungetc c s) = ⟨some c, (view s).input⟩ := by
      rw [seen, CharStream.ungetc, taken.free]
    have few := taken.few
    refine ⟨clean', ?_, ?_⟩
    · rw [CharStream.pending, taken.free] at few
      rw [pushed, CharStream.pending]
      simp only [Option.toList_none, List.length_nil, Option.toList_some, List.length_singleton] at few ⊢
      omega
    · rw [pushed]
      exact taken.upto
  ended n s taken := by
    obtain ⟨m, less, ahead⟩ := taken.on (by simp)
    exact ⟨ahead.clean, ahead.few.trans less.le, ahead.upto⟩
  inner n c s taken inner := taken.on (by simpa using inner)
  longer m n c s less taken := ⟨taken.clean, taken.free, taken.few.trans_le less, taken.upto⟩
  pending n s ahead := by
    rw [views.pending]
    exact ⟨ahead.few, ahead.clean, Nat.le_refl _, ahead.upto⟩

end Reading

/-- A stream whose characters are known is its own view. -/
theorem views_id : Views (id : CharStream → CharStream) fun _ => True where
  getchar _ _ t _ read := ⟨t, read, rfl, trivial⟩
  ungetc _ _ _ _ := ⟨rfl, trivial⟩
  pending _ := rfl

theorem ahead_of_mem {stream : CharStream} (newline : some '\n' ∈ stream.contents) :
    ∃ rest, Ahead id (fun _ => True) rest stream.pending stream := by
  obtain ⟨line, rest, same, first⟩ := List.eq_append_cons_of_mem newline
  exact ⟨rest, trivial, Nat.le_refl _, line, same, first⟩

def Closed (text : List Char) : Prop := ∃ before, text = before ++ ['\n']

/-- A line delivers tokens, whatever it says. -/
theorem Closed.delivers {s : Scanner CharStream} (closed : Closed text)
    (holds : s.stdin.contents = text.map some ++ rest) : ∃ tokens last, Delivers s tokens last := by
  obtain ⟨before, rfl⟩ := closed
  have newline : some '\n' ∈ s.stdin.contents := by simp [holds]
  obtain ⟨later, ahead⟩ := ahead_of_mem newline
  exact views_id.lookahead.delivers ahead

/-! On any stream, every token takes a character. -/

/-- A stream, and the same with a newline after it. -/
def Followed (s t : CharStream) : Prop := t = { s with input := s.input ++ [some '\n'] }

theorem Followed.pending {s t : CharStream} (followed : Followed s t) : t.pending = s.pending + 1 := by
  rw [followed, CharStream.pending, CharStream.pending, List.length_append]
  rfl

theorem followed_feeds : Feeds Followed Followed where
  related _ _ followed := followed
  getchar := by
    rintro ⟨unget, input⟩ _ c s' rfl read
    cases unget with
    | some first =>
      cases read
      exact ⟨_, rfl, rfl⟩
    | none =>
      cases input with
      | nil => cases read
      | cons first input =>
        cases read
        exact ⟨_, rfl, rfl⟩
  ungetc := by
    rintro c ⟨unget, input⟩ _ rfl
    cases unget <;> rfl
  covers s t followed := by
    apply covers_of_le
    exact Nat.succ_le_succ (Nat.le_of_succ_le followed.pending.ge)

/-- With a newline at the end the token is the same, and there it takes one. -/
theorem nextToken_takes {s t : Scanner CharStream} (returned : nextToken s = .ok (tok, t))
    (known : tok ≠ .unknown) : t.stdin.pending < s.stdin.pending := by
  let closed : CharStream := { s.stdin with input := s.stdin.input ++ [some '\n'] }
  have beside : Beside Followed Eq s.flush s { s with stdin := closed } := ⟨rfl, rfl, rfl, rfl⟩
  obtain ⟨t', same, told⟩ := nextToken_simulates followed_feeds (fun _ => rfl) _ _ _ _ beside returned
  have newline : some '\n' ∈ closed.contents := by simp [closed, CharStream.contents]
  obtain ⟨rest, ahead⟩ := ahead_of_mem newline
  obtain ⟨tok', t'', again, -, later⟩ := views_id.lookahead.nextToken { s with stdin := closed } ahead
  cases again.symm.trans same
  obtain ⟨m, less, left⟩ := later known
  have few : t'.stdin.pending ≤ m := left.few
  have before : closed.pending = s.stdin.pending + 1 := Followed.pending rfl
  have after := told.1.stdin.pending
  omega

end Freedcc.Scanner
