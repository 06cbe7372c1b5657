import Freedcc.Io
import Freedcc.StreamReplay
import Freedcc.ScannerText

/-! Reading the line from the host: a call either takes what is left of an
earlier line, or waits for a whole new one. -/
namespace Freedcc

/-- A line as it is sent: it ends with its first newline. -/
structure SentLine where
  text : List Char
  newline : Char
  single : ∀ c ∈ text, Io.translate c ≠ '\n'
  ended : Io.translate newline = '\n'

namespace SentLine

/-- The bytes, received without errors. -/
def received (line : SentLine) : List Rx :=
  (line.text ++ [line.newline]).map fun c => { c, frameError := false, overrun := false }

/-- The line with tab read as blank and carriage return as newline. -/
def content (line : SentLine) : List Char := (line.text ++ [line.newline]).map Io.translate

theorem content_eq (line : SentLine) : line.content = line.text.map Io.translate ++ ['\n'] := by
  rw [content, List.map_append, List.map_singleton, line.ended]

theorem content_length (line : SentLine) : line.content.length = line.text.length + 1 := by
  simp [content]

theorem received_length (line : SentLine) : line.received.length = line.content.length := by
  simp [received, content]

end SentLine

/-- A line that fits in the ring. -/
structure TypedLine extends SentLine where
  fits : text.length < Io.ringSize

namespace TypedLine

def Blank (line : TypedLine) : Prop := ∀ c ∈ line.content, c = ' ' ∨ c = '\n'

instance (line : TypedLine) : Decidable line.Blank :=
  List.decidableBAll (fun c => c = ' ' ∨ c = '\n') line.content

end TypedLine

/-! The buffers go on as they do without the echo. -/

namespace Usart
variable {δ : Type} [Usart δ]

theorem poll_io (wire : List Rx) (device : δ) :
    (poll wire device).map (fun (filled, device) => (filled, io device)) =
      Io.poll wire (io device) := by
  induction wire generalizing device with
  | nil => rfl
  | cons rx rest ih =>
    rw [poll, Io.poll_cons]
    have stored : io (echo (Io.translate rx.c) (update (Io.store rx.c rest) device)) =
        (io device).store rx.c rest := (io_echo _ _).trans (io_update _ device)
    split
    · exact congrArg (fun io => Except.ok (false, io)) (io_update _ device)
    · split
      · exact congrArg (fun io => Except.ok (false, io)) (io_update _ device)
      · dsimp only
        split
        · exact congrArg (fun io => Except.ok (true, io)) stored
        · rw [ih, stored]

theorem getc_io (device : δ) :
    (getc device).map (fun (c, device) => (c, io device)) = (io device).getc := by
  rw [getc, Io.getc_eq]
  by_cases empty : (io device).rxRing.count = 0
  · rw [if_pos empty, if_pos empty, ← poll_io]
    cases poll (io device).wire device with
    | error fault => rfl
    | ok pair =>
      obtain ⟨filled, device⟩ := pair
      cases filled with
      | true => exact congrArg (fun io => Except.ok (_, io)) (io_update _ device)
      | false => rfl
  · rw [if_neg empty, if_neg empty]
    exact congrArg (fun io => Except.ok (_, io)) (io_update _ device)

theorem getchar_unget {device : δ} (held : (io device).unget = some c) :
    getchar device = .ok (some c, update (fun io => { io with unget := none }) device) := by
  rw [getchar, held]

theorem getchar_io (device : δ) :
    (getchar device).map (fun (c, device) => (c, io device)) = (io device).getchar := by
  rw [getchar, Io.getchar_eq]
  cases (io device).unget with
  | some c => exact congrArg (fun io => Except.ok (some c, io)) (io_update _ device)
  | none => exact getc_io device

end Usart

namespace Io
open PartialProgram Scanner

/-- What is left of the lines that have been read, the character pushed back first. -/
def left (io : Io) : List Char := io.unget.toList ++ io.rxRing.contents

variable {io : Io}

/-- A byte that is received without errors. -/
theorem poll_byte (c : Char) (rest : List Rx) : poll (⟨c, false, false⟩ :: rest) io =
    if translate c = '\n' then .ok (true, io.store c rest) else poll rest (io.store c rest) := rfl

/-- The ring takes a line up to its newline. -/
theorem poll_line (text : List Char) (newline : Char) (single : ∀ c ∈ text, translate c ≠ '\n')
    (ended : translate newline = '\n') (fits : io.rxRing.count + text.length < ringSize)
    (more : List Rx) :
    ∃ filled, poll ((text ++ [newline]).map (fun c => ⟨c, false, false⟩) ++ more) io =
        .ok (true, filled) ∧ filled.unget = io.unget ∧ filled.wire = more ∧
      filled.arrived = io.arrived - (text.length + 1) ∧
      filled.rxRing.contents = io.rxRing.contents ++ (text ++ [newline]).map translate := by
  have room : io.rxRing.count < 50 := Nat.lt_of_le_of_lt (Nat.le_add_right _ _) fits
  induction text generalizing io with
  | nil =>
    refine ⟨io.store newline more, ?_, rfl, rfl, rfl, Ring.contents_push _ _ room⟩
    rw [List.nil_append, List.map_singleton, List.singleton_append, poll_byte, if_pos ended]
  | cons c text ih =>
    have inner : translate c ≠ '\n' := single c List.mem_cons_self
    simp only [List.length_cons] at fits
    have within : io.rxRing.count + 1 + text.length < ringSize := by omega
    have stored : ∀ rest, (io.store c rest).rxRing.count < 50 :=
      fun _ => Nat.lt_of_le_of_lt (Nat.le_add_right _ _) within
    obtain ⟨filled, polled, unget, wire, arrived, contents⟩ :=
      ih (fun d member => single d (List.mem_cons_of_mem _ member)) within (stored _)
    refine ⟨filled, ?_, unget, wire, ?_, ?_⟩
    · rw [List.cons_append, List.map_cons, List.cons_append, poll_byte, if_neg inner]
      exact polled
    · rw [arrived, List.length_cons]
      simp only [store]
      omega
    · have pushed : (io.store c ((text ++ [newline]).map (fun c => ⟨c, false, false⟩) ++
          more)).rxRing.contents = io.rxRing.contents ++ [translate c] :=
        Ring.contents_push _ _ room
      rw [contents, pushed, List.append_assoc]
      rfl

/-- With something left, a character is at hand. -/
theorem getchar_left (holds : io.left = c :: more) :
    ∃ next, io.getchar = .ok (some c, next) ∧ next.unget = none ∧ next.left = more ∧
      next.wire = io.wire ∧ next.arrived = io.arrived := by
  obtain ⟨unget, rxRing, wire, arrived⟩ := io
  cases unget with
  | some first =>
    simp only [left, Option.toList_some, List.singleton_append, List.cons.injEq] at holds
    obtain ⟨rfl, rfl⟩ := holds
    exact ⟨_, rfl, rfl, rfl, rfl, rfl⟩
  | none =>
    simp only [left, Option.toList_none, List.nil_append] at holds
    have filled : rxRing.count ≠ 0 := by
      intro empty
      rw [(Ring.contents_eq_nil rxRing).mpr empty] at holds
      contradiction
    have popped := Ring.contents_pop rxRing (Nat.pos_of_ne_zero filled)
    rw [holds, List.cons.injEq] at popped
    refine ⟨⟨none, rxRing.pop.2, wire, arrived⟩, ?_, rfl, popped.2.symm, rfl, rfl⟩
    simp only [getchar_eq, getc_eq, filled, if_false, popped.1]
    rfl

/-- With nothing left, the next line is fetched, and its first character is at hand. -/
theorem getchar_line (empty : io.left = []) (line : TypedLine)
    (holds : io.wire = line.received ++ rest) :
    ∃ c more next, line.content = c :: more ∧ io.getchar = .ok (some c, next) ∧
      next.unget = none ∧ next.left = more ∧ next.wire = rest ∧
      next.arrived = io.arrived - line.content.length := by
  obtain ⟨taken, drained⟩ := List.append_eq_nil_iff.mp empty
  have unget : io.unget = none := Option.toList_eq_nil_iff.mp taken
  have count := (Ring.contents_eq_nil io.rxRing).mp drained
  have room : io.rxRing.count + line.text.length < ringSize := by
    rw [count, Nat.zero_add]
    exact line.fits
  obtain ⟨filled, polled, unget', wire, arrived, contents⟩ :=
    poll_line line.text line.newline line.single line.ended room rest
  obtain ⟨c, more, split⟩ : ∃ c more, line.content = c :: more :=
    List.exists_cons_of_ne_nil (by simp [SentLine.content])
  rw [drained, List.nil_append] at contents
  have lined : filled.rxRing.contents = c :: more := contents.trans split
  have full : 0 < filled.rxRing.count := by
    rw [← Ring.contents_length, lined]
    exact Nat.succ_pos _
  have popped := Ring.contents_pop filled.rxRing full
  rw [lined, List.cons.injEq] at popped
  refine ⟨c, more, { filled with rxRing := filled.rxRing.pop.2 }, split, ?_, ?_, ?_, wire, ?_⟩
  · have whole : poll io.wire io = .ok (true, filled) := by
      rw [holds]
      exact polled
    simp only [getchar_eq, unget, getc_eq, count, if_true, whole, popped.1]
    rfl
  · exact unget'.trans unget
  · rw [left, unget', unget, popped.2]
    rfl
  · rw [line.content_length]
    exact arrived

/-- A stream that will deliver what is left, and a device that need not wait for it. -/
def Mirrors (wire : List Rx) (arrived : Nat) (stream : CharStream) (io : Io) : Prop :=
  stream.contents = io.left.map some ∧ io.wire = wire ∧ io.arrived = arrived

/-- Just after a character has been read. -/
def Mirrored (wire : List Rx) (arrived : Nat) (stream : CharStream) (io : Io) : Prop :=
  Mirrors wire arrived stream io ∧ stream.unget = none ∧ io.unget = none

theorem feeds (wire : List Rx) (arrived : Nat) :
    Feeds (Mirrors wire arrived) (Mirrored wire arrived) := by
  constructor
  · exact fun _ _ mirrored => mirrored.1
  · rintro stream io c stream' ⟨contents, same⟩ read
    cases waiting : io.left with
    | nil =>
      rw [waiting, List.map_nil] at contents
      have blocked : (Stdin.getchar stream : Except Fault _) = .error .awaitingInput :=
        CharStream.getchar_nil contents
      rw [blocked] at read
      contradiction
    | cons first more =>
      rw [waiting, List.map_cons] at contents
      have first' : (Stdin.getchar stream : Except Fault _) = .ok (some first, ⟨none, more.map some⟩) :=
        CharStream.getchar_contents contents
      obtain ⟨rfl, rfl⟩ := Prod.mk.inj (Except.ok.inj (first'.symm.trans read))
      obtain ⟨next, got, unget, left, wire', arrived'⟩ := getchar_left waiting
      refine ⟨next, got, ⟨?_, wire'.trans same.1, arrived'.trans same.2⟩, rfl, unget⟩
      rw [left]
      rfl
  · rintro c ⟨unget, input⟩ ⟨unget', rxRing, wire', arrived'⟩ ⟨⟨contents, same⟩, given, given'⟩
    simp only at given given'
    subst given given'
    exact ⟨congrArg (some c :: ·) contents, same⟩
  · rintro stream io ⟨contents, -⟩
    have length := congrArg List.length contents
    have pending : Stdin.pending stream = stream.contents.length := CharStream.pending_eq stream
    apply covers_of_le
    rw [pending, length, List.length_map, left, List.length_append, Ring.contents_length]
    exact Nat.succ_le_succ (Nat.le_add_right _ _)

end Io

/-! The first character of a call of `IO_read`. -/

namespace Reader
open PartialProgram
variable {δ : Type} [Stdin δ] {p : Parser (Scanner δ)} {stdin : δ} {c : Char}

def moved (p : Parser (Scanner δ)) (stdin : δ) : Parser (Scanner δ) :=
  { p with scanner := { p.scanner with stdin } }

theorem getchar_moved {c : Option Char}
    (got : (Stdin.getchar p.scanner.stdin : Except Fault _) = .ok (c, stdin)) :
    getchar p = .ok (c, moved p stdin) := by
  simp only [getchar, Scanner.getchar, got]
  rfl

theorem opening_end (got : (Stdin.getchar p.scanner.stdin : Except Fault _) = .ok (none, stdin)) :
    opening p = .ok (true, moved p stdin) := by
  rw [opening, ok_bind (getchar_moved got)]
  rfl

theorem opening_blank (got : (Stdin.getchar p.scanner.stdin : Except Fault _) = .ok (some c, stdin))
    (blank : c = ' ' ∨ c = '\n') : opening p = .ok (false, moved p stdin) := by
  have skips : ¬ (some c ≠ some '\n' ∧ some c ≠ some ' ') := by
    rcases blank with rfl | rfl <;> simp
  rw [opening, ok_bind (getchar_moved got), if_neg skips]
  rfl

theorem opening_solid (got : (Stdin.getchar p.scanner.stdin : Except Fault _) = .ok (some c, stdin))
    (solid : ¬ (c = ' ' ∨ c = '\n')) :
    opening p = .ok (true, moved p (Stdin.ungetc c stdin)) := by
  have goes : some c ≠ some '\n' ∧ some c ≠ some ' ' := by
    simpa [not_or, and_comm] using solid
  rw [opening, ok_bind (getchar_moved got), if_pos goes]
  rfl

end Reader
end Freedcc
