import Freedcc.Accounting
import Freedcc.BrokenLine
import Freedcc.OneLine

/-! When a call of `IO_read` waits. It does so for the rest of a line and for nothing
else: it comes back with every line that ends or breaks off, whatever the line says, and
no call follows a null pointer. -/
namespace Freedcc
open PartialProgram

namespace Io
variable {io : Io} {wire rest : List Rx} {rx : Rx}

def Broken (wire : List Rx) : Prop := ∃ rx rest, wire = rx :: rest ∧ rx.Bad

/-- A line end or an error is still to come. -/
def Ends (wire : List Rx) : Prop := ∃ rx ∈ wire, rx.Bad ∨ translate rx.c = '\n'

theorem Broken.ends (broken : Broken wire) : Ends wire := by
  obtain ⟨rx, rest, rfl, bad⟩ := broken
  exact ⟨rx, List.mem_cons_self, Or.inl bad⟩

theorem poll_good (good : ¬ rx.Bad) : poll (rx :: rest) io =
    if translate rx.c = '\n' then .ok (true, io.store rx.c rest) else poll rest (io.store rx.c rest) := by
  obtain ⟨noFrame, noOverrun⟩ := not_or.mp good
  rw [poll_cons, if_neg noFrame, if_neg noOverrun]

/-- A full ring as well ends in what was pushed last. -/
theorem closed_push (ring : Ring Char 50) : Scanner.Closed (ring.push '\n').contents := by
  have last : (ring.push '\n').contents.getLast? = some '\n' := by
    rw [List.getLast?_eq_getElem?, Ring.contents_length, Ring.count_push, Nat.add_sub_cancel]
    exact Ring.contents_push_last ring '\n'
  exact ⟨_, (List.dropLast_append_getLast? _ last).symm⟩

/-- A line of any length is taken up to its end, or up to an error. -/
theorem poll_ends (ends : Ends wire) (holds : io.wire = wire) :
    ∃ filled next, poll wire io = .ok (filled, next) ∧ next.unget = io.unget ∧
      next.rxRing.count + next.wire.length = io.rxRing.count + wire.length ∧
      (filled = true → Scanner.Closed next.rxRing.contents) ∧ (filled = false → Broken next.wire) := by
  induction wire generalizing io with
  | nil =>
    obtain ⟨rx, member, -⟩ := ends
    cases member
  | cons rx rest ih =>
    by_cases bad : rx.Bad
    · rw [poll_bad bad]
      exact ⟨false, _, rfl, rfl, by rw [← holds], by simp, fun _ => ⟨rx, rest, holds, bad⟩⟩
    · rw [poll_good bad]
      have stored : (io.store rx.c rest).rxRing.count + (io.store rx.c rest).wire.length =
          io.rxRing.count + (rx :: rest).length := by
        simp only [store, Ring.count_push, List.length_cons]
        omega
      by_cases newline : translate rx.c = '\n'
      · rw [if_pos newline]
        refine ⟨true, _, rfl, rfl, stored, fun _ => ?_, by simp⟩
        rw [store, newline]
        exact closed_push io.rxRing
      · rw [if_neg newline]
        have later : Ends rest := by
          obtain ⟨other, member, stops⟩ := ends
          rcases List.mem_cons.mp member with rfl | member
          · exact absurd stops (not_or.mpr ⟨bad, newline⟩)
          · exact ⟨other, member, stops⟩
        have left : (io.store rx.c rest).wire = rest := rfl
        obtain ⟨filled, next, polled, unget, count, whole, broken⟩ := ih later left
        refine ⟨filled, next, polled, unget, ?_, whole, broken⟩
        rw [count, ← stored]
        rfl

/-- Otherwise it waits. -/
theorem poll_waits (open' : ¬ Ends wire) : poll wire io = .error .awaitingInput := by
  induction wire generalizing io with
  | nil => rfl
  | cons rx rest ih =>
    have good : ¬ rx.Bad := fun bad => open' ⟨rx, List.mem_cons_self, Or.inl bad⟩
    have inner : translate rx.c ≠ '\n' := fun newline => open' ⟨rx, List.mem_cons_self, Or.inr newline⟩
    rw [poll_good good, if_neg inner]
    apply ih
    rintro ⟨other, member, stops⟩
    exact open' ⟨other, List.mem_cons_of_mem _ member, stops⟩

/-- With the ring empty, the next line is fetched. -/
theorem getchar_ends (free : io.unget = none) (empty : io.rxRing.count = 0) (ends : Ends io.wire) :
    ∃ c next, io.getchar = .ok (c, next) ∧ next.unget = none ∧
      (c = none ∧ next.pending = io.pending ∧ Broken next.wire ∨
        ∃ d, c = some d ∧ next.pending + 1 = io.pending ∧ Scanner.Closed (d :: next.rxRing.contents)) := by
  obtain ⟨filled, fetched, polled, unget, count, whole, broken⟩ := poll_ends ends rfl
  rw [free] at unget
  have pending : fetched.pending = io.pending := by
    rw [Io.pending, Io.pending, unget, free, Nat.add_assoc, count, Nat.add_assoc]
  cases filled with
  | false =>
    refine ⟨none, fetched, ?_, unget, Or.inl ⟨rfl, pending, broken rfl⟩⟩
    simp only [getchar_eq, free, getc_eq, empty, if_true, polled]
    rfl
  | true =>
    have full : 0 < fetched.rxRing.count := by
      obtain ⟨before, same⟩ := whole rfl
      rw [← Ring.contents_length, same, List.length_append]
      exact Nat.succ_pos _
    refine ⟨some fetched.rxRing.pop.1, { fetched with rxRing := fetched.rxRing.pop.2 }, ?_, unget,
      Or.inr ⟨_, rfl, ?_, ?_⟩⟩
    · simp only [getchar_eq, free, getc_eq, empty, if_true, polled]
      rfl
    · rw [← pending]
      simp only [Io.pending, Ring.pop]
      omega
    · rw [← Ring.contents_pop _ full]
      exact whole rfl

theorem getchar_waits (free : io.unget = none) (empty : io.rxRing.count = 0)
    (open' : ¬ Ends io.wire) : io.getchar = .error .awaitingInput := by
  simp only [getchar_eq, free, getc_eq, empty, if_true, poll_waits open']
  rfl

end Io

namespace Terminal
open Scanner Io

/-- A line is at hand, or will be. -/
def Lined (t : Terminal) : Prop :=
  Closed t.left ∨ Broken t.io.wire ∨ t.io.rxRing.count = 0 ∧ Ends t.io.wire

def Readable (n : Nat) (t : Terminal) : Prop := t.pending ≤ n ∧ t.Lined

inductive Taken (n : Nat) : Option Char → Terminal → Prop where
  | ended {t : Terminal} (free : t.io.unget = none) (few : t.pending ≤ n) (broken : Broken t.io.wire) :
      Taken n none t
  | char {t : Terminal} {c : Char} (free : t.io.unget = none) (few : t.pending < n)
      (more : Closed (c :: t.left) ∨ Broken t.io.wire ∨ t.io.rxRing.count = 0 ∧ Ends t.io.wire) :
      Taken n (some c) t

variable {t : Terminal} {n : Nat}

theorem pending_eq (t : Terminal) : t.pending = t.left.length + t.io.wire.length := by
  rw [left, Io.left, List.length_append, Ring.contents_length]
  rfl

theorem left_ungetc (free : t.io.unget = none) (c : Char) : (t.ungetc c).left = c :: t.left := by
  simp only [ungetc, Io.ungetc, left, Io.left, free]
  rfl

theorem wire_ungetc (t : Terminal) (c : Char) : (t.ungetc c).io.wire = t.io.wire ∧
    (t.ungetc c).io.rxRing = t.io.rxRing := by
  simp only [ungetc, Io.ungetc]
  split <;> exact ⟨rfl, rfl⟩

theorem left_nil : t.left = [] ↔ t.io.unget = none ∧ t.io.rxRing.count = 0 := by
  rw [left, Io.left, List.append_eq_nil_iff, Option.toList_eq_nil_iff, Ring.contents_eq_nil]

def taken (t : Terminal) : Terminal := { t with io := { t.io with unget := none } }

theorem getchar_unget (held : t.io.unget = some c) : t.getchar = .ok (some c, t.taken) :=
  Usart.getchar_unget held

theorem getchar_waits (free : t.io.unget = none) (empty : t.io.rxRing.count = 0)
    (never : ¬ Ends t.io.wire) : t.getchar = .error .awaitingInput := by
  have same := getchar_io t
  rw [Io.getchar_waits free empty never] at same
  cases read : t.getchar with
  | error fault =>
    rw [read] at same
    exact congrArg Except.error (Except.error.inj same)
  | ok pair =>
    rw [read] at same
    contradiction

/-- A character that is at hand. -/
theorem getchar_held (held : t.left = c :: more) (readable : Readable n t) :
    ∃ next, t.getchar = .ok (some c, next) ∧ Taken n (some c) next := by
  obtain ⟨few, lined⟩ := readable
  obtain ⟨io, got, free, left, wire, -⟩ := Io.getchar_left held
  obtain ⟨next, same, rfl, -⟩ := getchar_lifts got
  have left : next.left = more := left
  refine ⟨next, same, .char free ?_ ?_⟩
  · rw [pending_eq, held, List.length_cons] at few
    rw [pending_eq, left, wire]
    omega
  · rw [left, wire, ← held]
    refine lined.imp_right (Or.imp_right fun ⟨empty, ends⟩ => ⟨?_, ends⟩)
    have short : t.left.length ≤ 1 := by
      rw [Terminal.left, Io.left, List.length_append, Ring.contents_length, empty]
      exact Option.length_toList_le
    rw [held, List.length_cons] at short
    have none : more = [] := List.eq_nil_of_length_eq_zero (by omega)
    exact (left_nil.mp (left.trans none)).2

theorem lookahead : Lookahead Readable Taken where
  getchar n t readable := by
    cases held : t.left with
    | cons c more =>
      obtain ⟨next, got, taken⟩ := getchar_held held readable
      exact ⟨some c, next, got, taken⟩
    | nil =>
      obtain ⟨few, lined⟩ := readable
      obtain ⟨free, empty⟩ := left_nil.mp held
      have ends : Ends t.io.wire := by
        rcases lined with ⟨before, same⟩ | broken | ⟨-, ends⟩
        · simp [held] at same
        · exact broken.ends
        · exact ends
      obtain ⟨c, io, got, free', ⟨rfl, pending, broken⟩ | ⟨d, rfl, pending, closed⟩⟩ :=
        getchar_ends free empty ends
      · obtain ⟨next, same, rfl, -⟩ := getchar_lifts got
        exact ⟨none, next, same, .ended free' (pending.trans_le few) broken⟩
      · obtain ⟨next, same, rfl, -⟩ := getchar_lifts got
        refine ⟨some d, next, same, .char free' (pending.trans_le few) (Or.inl ?_)⟩
        rw [left, Io.left, free']
        exact closed
  ungetc n c t taken := by
    cases taken with
    | char free few more =>
      have back := left_ungetc free c
      obtain ⟨wire, ring⟩ := wire_ungetc t c
      change (t.ungetc c).pending ≤ n ∧ (t.ungetc c).Lined
      rw [pending_eq, Lined, back, wire, ring]
      rw [pending_eq] at few
      exact ⟨by rw [List.length_cons]; omega, more⟩
  ended n t taken := by
    cases taken with
    | ended free few broken => exact ⟨few, Or.inr (Or.inl broken)⟩
  inner n c t taken inner := by
    cases taken with
    | char free few more =>
      refine ⟨t.pending, few, Nat.le_refl _, ?_⟩
      rcases more with ⟨before, same⟩ | ended
      · cases before with
        | nil => exact absurd (List.cons.inj same).1 inner
        | cons d before => exact Or.inl ⟨before, (List.cons.inj same).2⟩
      · exact Or.inr ended
  longer m n c t less taken := by
    cases taken with
    | ended free few broken => exact .ended free (few.trans less) broken
    | char free few more => exact .char free (few.trans_le less) more
  pending n t readable := ⟨readable.1, Nat.le_refl _, readable.2⟩

end Terminal

namespace Scanner
variable {δ : Type} [Stdin δ] {s : Scanner δ} {stdin : δ}

theorem getchar_error (stuck : (Stdin.getchar s.stdin : Except Fault _) = .error fault) :
    getchar s = .error fault := by
  simp only [getchar, stuck]
  rfl

/-- No token begins with such a character. -/
theorem nextToken_other (unended : s.seenEnd = false)
    (got : (Stdin.getchar s.stdin : Except Fault _) = .ok (some c, stdin))
    (other : ¬ (c.isAlpha = true ∨ c.isDigit = true ∨ c = ' ' ∨ c = '\t')) :
    nextToken s = .ok (.unknown, { s with stdin }) := by
  obtain ⟨noLetter, other⟩ := not_or.mp other
  obtain ⟨noDigit, noBlank⟩ := not_or.mp other
  have noZero : c ≠ '0' := by
    rintro rfl
    exact noDigit rfl
  have goes : ¬ s.seenEnd = true := by simp [unended]
  rw [nextToken, ok_bind (get_ok.mpr ⟨rfl, rfl⟩), if_neg goes, scanToken, ok_bind (getchar_ok.mpr ⟨stdin, got, rfl⟩)]
  simp only [if_neg noZero, if_neg noDigit, if_neg noLetter, if_neg noBlank]
  rfl

/-- Behind any other, the next is waited for. -/
theorem nextToken_waits (unended : s.seenEnd = false)
    (got : (Stdin.getchar s.stdin : Except Fault _) = .ok (some c, stdin))
    (stuck : (Stdin.getchar stdin : Except Fault _) = .error .awaitingInput)
    (goes : c.isAlpha = true ∨ c.isDigit = true ∨ c = '\t') :
    nextToken s = .error .awaitingInput := by
  have more : getchar { s with stdin } = .error .awaitingInput := getchar_error stuck
  have number (first : Char) : nextNumber first { s with stdin } = .error .awaitingInput := by
    rw [nextNumber, ok_bind (get_ok.mpr ⟨rfl, rfl⟩)]
    apply error_bind
    rw [scanDigits]
    exact error_bind more
  have keyword (first : Char) : nextKeyword first { s with stdin } = .error .awaitingInput := by
    rw [nextKeyword]
    apply error_bind
    exact error_bind more
  have unended' : ¬ s.seenEnd = true := by simp [unended]
  rw [nextToken, ok_bind (get_ok.mpr ⟨rfl, rfl⟩), if_neg unended', scanToken, ok_bind (getchar_ok.mpr ⟨stdin, got, rfl⟩)]
  by_cases zero : c = '0'
  · simp only [if_pos zero]
    exact error_bind more
  · simp only [if_neg zero]
    by_cases digit : c.isDigit = true
    · simp only [if_pos digit]
      exact number c
    · simp only [if_neg digit]
      by_cases letter : c.isAlpha = true
      · simp only [if_pos letter]
        exact keyword c
      · have tab : c = '\t' := (goes.resolve_left letter).resolve_left digit
        have blank : c = ' ' ∨ c = '\t' := Or.inr tab
        simp only [if_neg letter, if_pos blank]
        cases Stdin.pending s.stdin with
        | zero => rfl
        | succ pending =>
          rw [scanToken]
          exact error_bind more

end Scanner

namespace Parser
open PartialProgram Scanner
variable {δ : Type} [Stdin δ] {A : Nat → δ → Prop} {T : Nat → Option Char → δ → Prop}

/-- As long as tokens are asked for, there is something to read. -/
def Overlooks (A : Nat → δ → Prop) (T : Nat → Option Char → δ → Prop)
    (watched : Watched (Scanner δ)) (scanner : Scanner δ) : Prop :=
  watched.source = scanner ∧ Passed A T scanner.stdin ∧
    (watched.ended = false → ∃ n, A n scanner.stdin)

theorem overlooks_follows (look : Lookahead A T) : Follows (Overlooks A T) := by
  constructor
  · rintro s _ tok t ⟨rfl, -, more⟩ read
    obtain ⟨unended, source, given, rfl⟩ := Watched.nextToken_ok.mp read
    obtain ⟨n, holds⟩ := more unended
    obtain ⟨tok', source', same, passed, later⟩ := look.nextToken s.source holds
    obtain ⟨rfl, rfl⟩ := Prod.mk.inj (Except.ok.inj (same.symm.trans given))
    refine ⟨source', same, rfl, passed, fun goes => ?_⟩
    obtain ⟨m, -, left⟩ := later (by simpa using goes)
    exact ⟨m, left⟩
  · rintro s _ ⟨rfl, -⟩
    rfl

/-- With something to read, a parse comes to its verdict. -/
theorem command_returns (look : Lookahead A T) (null : Bool)
    (p : Parser (Scanner δ)) (holds : A n p.scanner.stdin) :
    ∃ accepted parsed r, parseCommand (some null) p = .ok (accepted, parsed) ∧
      parsed.result = some r ∧ Passed A T parsed.scanner.stdin := by
  have here : A n (TokenSource.reset p.scanner).stdin := holds
  obtain ⟨tokens, last, delivers⟩ := look.delivers here
  obtain ⟨ended, watched⟩ := Watched.delivers delivers 0
  obtain ⟨accepted, q, r, command, made⟩ := Grammar.command_total
    (p := { p with scanner := (⟨p.scanner, false, 0⟩ : Watched (Scanner δ)) }) watched null
  have started : Alongside (Overlooks A T) 0
      (prepare (some null) { p with scanner := (⟨p.scanner, false, 0⟩ : Watched (Scanner δ)) })
      (prepare (some null) p) :=
    ⟨⟨rfl, ⟨n, Or.inl here⟩, fun _ => ⟨n, here⟩⟩, rfl, rfl, rfl⟩
  obtain ⟨parsed, command', along⟩ :=
    parseTokens_simulates (overlooks_follows look) _ _ accepted q started command
  refine ⟨accepted, parsed, r.renumber 0, command', ?_, along.scanner.2.1⟩
  rw [along.result, made]
  rfl

end Parser

namespace Desk
open Scanner Freedcc.Parser Terminal Reader

section Stream
variable {δ : Type} [Stdin δ] {A : Nat → δ → Prop} {T : Nat → Option Char → δ → Prop} {n : Nat}
  {p : Parser (Scanner δ)}

theorem opening_returns (look : Lookahead A T) (holds : A n p.scanner.stdin) :
    ∃ begun next, opening p = .ok (begun, next) ∧ Passed A T next.scanner.stdin ∧
      (begun = true → A n next.scanner.stdin) := by
  obtain ⟨c, stdin, got, taken⟩ := look.getchar n _ holds
  rw [opening, ok_bind (getchar_moved got)]
  split
  · cases c with
    | none =>
      have more : A n stdin := look.ended n stdin taken
      exact ⟨true, moved p stdin, rfl, ⟨n, Or.inl more⟩, fun _ => more⟩
    | some c =>
      have more : A n (Stdin.ungetc c stdin) := look.ungetc n c stdin taken
      exact ⟨true, moved p (Stdin.ungetc c stdin), rfl, ⟨n, Or.inl more⟩, fun _ => more⟩
  · exact ⟨false, moved p stdin, rfl, ⟨n, Or.inr ⟨c, taken⟩⟩, by simp⟩

theorem parserStart_returns (look : Lookahead A T) (null : Bool) (holds : A n p.scanner.stdin) :
    ∃ accepted next, parserStart (some null) p = .ok (accepted, next) ∧
      (accepted = true → Passed A T next.scanner.stdin) := by
  obtain ⟨accepted, parsed, r, command, made, passed⟩ := command_returns look null p holds
  cases accepted with
  | false =>
    obtain ⟨next, failed, -, -⟩ := Grammar.parseError_total null parsed
    exact ⟨false, next, (ok_bind command).trans failed, by simp⟩
  | true =>
    obtain ⟨next, finished, same, -⟩ := Grammar.finish_total made
    exact ⟨true, next, (ok_bind command).trans finished, fun _ => same ▸ passed⟩

/-- With something to read, a call comes to its answer. -/
theorem answering_returns (look : Lookahead A T) (null : Bool) (holds : A n p.scanner.stdin) :
    ∃ reading next, answering null p = .ok (reading, next) ∧
      (reading ≠ .rejected → Passed A T next.scanner.stdin) := by
  obtain ⟨begun, called, opened, passed, more⟩ := opening_returns look holds
  cases begun with
  | false => exact ⟨.blank, called, answering_ok.mpr (.blank opened), fun _ => passed⟩
  | true =>
    obtain ⟨accepted, next, started, settled⟩ := parserStart_returns look null (more rfl)
    cases accepted with
    | false => exact ⟨.rejected, next, answering_ok.mpr (.rejected opened started), by simp⟩
    | true =>
      exact ⟨.accepted next.result, next, answering_ok.mpr (.accepted opened started),
        fun _ => settled rfl⟩

end Stream

/-- The ring does not hold the middle of a line, unless an error has broken it off. -/
structure Settled (desk : Desk) : Prop where
  flush : desk.scanner.flush = Terminal.flush
  line : Closed desk.scanner.stdin.left ∨ Io.Broken desk.scanner.stdin.io.wire ∨
    desk.scanner.stdin.io.rxRing.count = 0

theorem line_of_passed {t : Terminal} (passed : Passed Readable Taken t) :
    Closed t.left ∨ Io.Broken t.io.wire ∨ t.io.rxRing.count = 0 := by
  obtain ⟨n, ⟨-, lined⟩ | ⟨c, taken⟩⟩ := passed
  · exact lined.imp_right (Or.imp_right And.left)
  · cases taken with
    | ended free few broken => exact Or.inr (Or.inl broken)
    | char free few more =>
      rcases more with ⟨before, same⟩ | broken | ⟨empty, -⟩
      · cases before with
        | nil => exact Or.inr (Or.inr (left_nil.mp (List.cons.inj same).2).2)
        | cons d before => exact Or.inl ⟨before, (List.cons.inj same).2⟩
      · exact Or.inr (Or.inl broken)
      · exact Or.inr (Or.inr empty)

variable {desk next : Desk} {null : Bool}

/-- A parse error leaves the ring empty, in any case. -/
theorem Settled.after (settled : Settled desk) (read : answering null desk = .ok (reading, next))
    (passed : reading ≠ .rejected → Closed next.scanner.stdin.left ∨
      Io.Broken next.scanner.stdin.io.wire ∨ next.scanner.stdin.io.rxRing.count = 0) :
    Settled next := by
  have any : Lasts (fun _ : Terminal => True) := ⟨fun _ _ _ _ _ => trivial, fun _ _ _ => trivial⟩
  obtain ⟨flush, ⟨fine, -⟩ | ⟨-, stdin, -, flushed⟩⟩ := any.answering read trivial
  · exact ⟨flush.trans settled.flush, passed fine⟩
  · refine ⟨flush.trans settled.flush, Or.inr (Or.inr ?_)⟩
    rw [flushed, settled.flush]
    rfl

theorem Settled.read_lined (settled : Settled desk) (lined : desk.scanner.stdin.Lined) (null : Bool) :
    ∃ reading next, answering null desk = .ok (reading, next) ∧ Settled next := by
  obtain ⟨reading, next, read, passed⟩ :=
    answering_returns lookahead null (⟨Nat.le_refl _, lined⟩ : Readable _ desk.scanner.stdin)
  exact ⟨reading, next, read, settled.after read fun fine => line_of_passed (passed fine)⟩

/-- The scanner asks for what comes behind such a character. -/
def Starts (c : Char) : Prop := c.isAlpha = true ∨ c.isDigit = true ∨ c = '\t'

/-- What has been put back after a parse error may be dealt with at once. -/
theorem Settled.read_held (settled : Settled desk)
    (held : desk.scanner.stdin.io.unget = some c) (empty : desk.scanner.stdin.io.rxRing.count = 0)
    (stops : ¬ Starts c) (null : Bool) :
    ∃ reading next, answering null desk = .ok (reading, next) ∧ Settled next := by
  have got : (Stdin.getchar desk.scanner.stdin : Except Fault _) =
      .ok (some c, desk.scanner.stdin.taken) := getchar_unget held
  have kept : desk.scanner.stdin.taken.io.rxRing.count = 0 := empty
  by_cases blank : c = ' ' ∨ c = '\n'
  · have read : answering null desk = .ok (.blank, moved desk desk.scanner.stdin.taken) :=
      answering_ok.mpr (.blank (opening_blank got blank))
    exact ⟨.blank, _, read, settled.after read fun _ => Or.inr (Or.inr kept)⟩
  · obtain ⟨noLetter, others⟩ := not_or.mp stops
    obtain ⟨noDigit, noTab⟩ := not_or.mp others
    have other : ¬ (c.isAlpha = true ∨ c.isDigit = true ∨ c = ' ' ∨ c = '\t') :=
      not_or.mpr ⟨noLetter, not_or.mpr ⟨noDigit, not_or.mpr ⟨fun here => blank (Or.inl here), noTab⟩⟩⟩
    have token : TokenSource.nextToken
          (TokenSource.reset (moved desk (Stdin.ungetc c desk.scanner.stdin.taken)).scanner) =
        .ok (.unknown, (moved desk desk.scanner.stdin.taken).scanner.reset) :=
      nextToken_other rfl rfl other
    obtain ⟨next, refused, -⟩ := Parser.refused token null
    have read : answering null desk = .ok (.rejected, next) :=
      answering_ok.mpr (.rejected (opening_solid got blank) refused)
    exact ⟨.rejected, next, read, settled.after read fun fine => absurd rfl fine⟩

/-- The line has begun, or is to begin, and its end is nowhere in sight. -/
structure Waits (desk : Desk) : Prop where
  called : 0 < desk.scanner.stdin.io.arrived
  empty : desk.scanner.stdin.io.rxRing.count = 0
  never : ¬ Io.Ends desk.scanner.stdin.io.wire
  starts : ∀ c, desk.scanner.stdin.io.unget = some c → Starts c

theorem Waits.read (waits : Waits desk) (null : Bool) : Desk.read null desk = .error .awaitingInput := by
  rw [read_waiting waits.called, answering]
  cases held : desk.scanner.stdin.io.unget with
  | none =>
    have stuck : (Stdin.getchar desk.scanner.stdin : Except Fault _) = .error .awaitingInput :=
      Terminal.getchar_waits held waits.empty waits.never
    have read : getchar desk = .error .awaitingInput := by
      rw [Reader.getchar, Scanner.getchar_error stuck]
      rfl
    apply error_bind
    exact error_bind read
  | some c =>
    have starts := waits.starts c held
    have got : (Stdin.getchar desk.scanner.stdin : Except Fault _) =
        .ok (some c, desk.scanner.stdin.taken) := getchar_unget held
    have solid : ¬ (c = ' ' ∨ c = '\n') := by
      rintro (rfl | rfl)
      · exact absurd starts (by simp [Starts])
      · exact absurd starts (by simp [Starts])
    have stuck : (Stdin.getchar desk.scanner.stdin.taken : Except Fault _) = .error .awaitingInput :=
      Terminal.getchar_waits rfl waits.empty waits.never
    have token : Scanner.nextToken (prepare (some null)
        (moved desk (Stdin.ungetc c desk.scanner.stdin.taken))).scanner = .error .awaitingInput :=
      nextToken_waits rfl rfl stuck starts
    have first : advance (prepare (some null)
        (moved desk (Stdin.ungetc c desk.scanner.stdin.taken))) = .error .awaitingInput := by
      simp only [advance, TokenSource.nextToken, token]
      rfl
    rw [ok_bind (opening_solid got solid), if_pos rfl]
    apply error_bind
    apply error_bind
    exact (ok_bind rfl).trans (error_bind first)

/-- A call that waits is waiting for the rest of a line. -/
theorem Settled.read (settled : Settled desk) (null : Bool) : Waits desk ∨
    ∃ reading next, Desk.read null desk = .ok (reading, next) ∧ Settled next := by
  by_cases called : 0 < desk.scanner.stdin.io.arrived
  · rw [read_waiting called]
    rcases settled.line with closed | broken | empty
    · exact Or.inr (settled.read_lined (Or.inl closed) null)
    · exact Or.inr (settled.read_lined (Or.inr (Or.inl broken)) null)
    · by_cases ends : Io.Ends desk.scanner.stdin.io.wire
      · exact Or.inr (settled.read_lined (Or.inr (Or.inr ⟨empty, ends⟩)) null)
      · by_cases starts : ∀ c, desk.scanner.stdin.io.unget = some c → Starts c
        · exact Or.inl ⟨called, empty, ends, starts⟩
        · obtain ⟨c, held, stops⟩ := not_forall₂.mp starts
          exact Or.inr (settled.read_held held empty stops null)
  · exact Or.inr ⟨.nothing, desk, read_idle called null, settled⟩

end Desk

namespace CommandStation
open Desk
variable {platform : Platform} {s : CommandStation}

variable (platform) in
/-- Carrying out a line only prints. -/
theorem answer_settled (memFree : BitVec 16) (reading : Reading) (settled : s.desk.Settled) :
    (s.answer platform memFree reading).1.desk.Settled := by
  have as (desk : Desk) (flush : desk.scanner.flush = s.desk.scanner.flush)
      (io : desk.scanner.stdin.io = s.desk.scanner.stdin.io) : desk.Settled := by
    refine ⟨flush.trans settled.flush, ?_⟩
    have line := settled.line
    rw [Terminal.left, ← io] at line
    exact line
  have obeyed := obeyed platform memFree reading s
  generalize s.answer platform memFree reading = next at obeyed ⊢
  cases obeyed with
  | nothing => exact settled
  | blank | rejected | packet | mute => exact as _ rfl rfl
  | cmd cmd =>
    have called := called platform memFree cmd
      ((s.account Sys.parseOkIncrement).account Sys.processSysCmd)
    generalize CommandStation.call platform memFree cmd _ = next at called ⊢
    cases called with
    | prints | clears | mute => exact as _ rfl rfl

theorem step_settled (op : Op) (settled : s.desk.Settled) : (s.step platform op).1.desk.Settled := by
  cases op with
  | receive => exact ⟨settled.flush, settled.line⟩
  | timer1 pind => exact settled
  | timer0 late => exact settled
  | resetEntry =>
    have sweeps := step_resetEntry platform s
    generalize s.step platform .resetEntry = next at sweeps ⊢
    cases sweeps with
    | more => exact settled
    | last => exact ⟨settled.flush, settled.line⟩
  | read null memFree =>
    have step := step_read platform memFree null s
    generalize s.step platform (.read null memFree) = next at step ⊢
    cases step with
    | busy | stuck => exact settled
    | @answers reading desk free read =>
      apply answer_settled platform memFree reading
      rcases settled.read null with waits | ⟨other, next, same, after⟩
      · rw [waits.read null] at read
        contradiction
      · rw [same] at read
        cases read
        exact after

/-- Whatever has come over the line before: a call of `IO_read` fails to return only where it
waits for a line that has no end, and never because of a null pointer. -/
theorem read_waits_iff (platform : Platform) (memory : Scheduler.Memory) (buf : Vector Char 50)
    (wire : List Rx) (ops : List Op) (null : Bool) (fault : Fault) :
    let desk := (Run.final (step platform) (start memory buf wire) ops).desk
    Desk.read null desk = .error fault ↔ fault = .awaitingInput ∧ desk.Waits := by
  intro desk
  have settled : desk.Settled := by
    have fresh : (start memory buf wire).desk.Settled := ⟨rfl, Or.inr (Or.inr rfl)⟩
    have all : Run.Always (step platform) (·.desk.Settled) (start memory buf wire) ops :=
      Run.always_of_invariant (fun _ op => step_settled op) fresh
    exact all.last
  constructor
  · intro stuck
    rcases settled.read null with waits | ⟨reading, next, read, -⟩
    · rw [waits.read null] at stuck
      exact ⟨(Except.error.inj stuck).symm, waits⟩
    · rw [read] at stuck
      contradiction
  · rintro ⟨rfl, waits⟩
    exact waits.read null

end CommandStation
end Freedcc
