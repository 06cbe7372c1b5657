import Mathlib.Data.List.Basic

/-! Frames on a line of single bits: a run of 1 bits, then words of one width
with a 0 before each, and a 1 after the last. The receiver finds the frames
again however long the runs between them are. -/
namespace BitFraming

structure Format where
  /-- The 1 bits a frame must follow. -/
  preamble : Nat
  width : Nat
  /-- How many 1 bits of the next preamble the end bit counts for. -/
  carried : Nat

abbrev Word := List Bool

/-- What a receiver has heard: 1 bits, or the words of a frame and a part of
the next one. -/
inductive Receiver where
  | waiting (ones : Nat)
  | reading (words : List Word) (bits : Word)
deriving DecidableEq, Repr

namespace Receiver
variable (format : Format)

def next : Receiver → Bool → Receiver
  | .waiting ones, true => .waiting (ones + 1)
  | .waiting ones, false => if format.preamble ≤ ones then .reading [] [] else .waiting 0
  | .reading words bits, b =>
      if bits.length < format.width then .reading words (bits ++ [b])
      else if b then .waiting format.carried
      else .reading (words ++ [bits]) []

/-- The frame that a bit completes. -/
def completed : Receiver → Bool → Option (List Word)
  | .reading words bits, true =>
      if bits.length < format.width then none else some (words ++ [bits])
  | _, _ => none

def after (receiver : Receiver) (line : List Bool) : Receiver := line.foldl (next format) receiver

def frames (receiver : Receiver) : List Bool → List (List Word)
  | [] => []
  | b :: rest => (receiver.completed format b).toList ++ (receiver.next format b).frames rest

theorem after_append (receiver : Receiver) (line rest : List Bool) :
    receiver.after format (line ++ rest) = (receiver.after format line).after format rest :=
  List.foldl_append

theorem frames_append (receiver : Receiver) (line rest : List Bool) :
    receiver.frames format (line ++ rest) =
      receiver.frames format line ++ (receiver.after format line).frames format rest := by
  induction line generalizing receiver with
  | nil => rfl
  | cons b line ih =>
    simp only [List.cons_append, frames, ih, List.append_assoc]
    rfl

/-- A receiver that passes over some bits: where it is then, with no frame on
the way. -/
def Passes (receiver : Receiver) (line : List Bool) (target : Receiver) : Prop :=
  receiver.after format line = target ∧ receiver.frames format line = []

variable {format}

theorem Passes.append {first second third : Receiver} (head : first.Passes format line second)
    (tail : second.Passes format rest third) : first.Passes format (line ++ rest) third := by
  obtain ⟨rfl, quiet⟩ := head
  constructor
  · rw [after_append, tail.1]
  · rw [frames_append, quiet, tail.2, List.nil_append]

theorem Passes.frames {first second : Receiver} (head : first.Passes format line second) :
    first.frames format (line ++ rest) = second.frames format rest := by
  rw [frames_append, head.2, head.1, List.nil_append]

theorem waiting_ones (ones count : Nat) :
    (waiting ones).Passes format (List.replicate count true) (.waiting (ones + count)) := by
  induction count generalizing ones with
  | zero => exact ⟨rfl, rfl⟩
  | succ count ih =>
    have head : (waiting ones).Passes format [true] (.waiting (ones + 1)) := ⟨rfl, rfl⟩
    have tail := ih (ones + 1)
    rw [show ones + 1 + count = ones + (count + 1) by omega] at tail
    exact head.append tail

theorem reading_bits (words : List Word) (bits word : Word)
    (fits : bits.length + word.length ≤ format.width) :
    (reading words bits).Passes format word (.reading words (bits ++ word)) := by
  induction word generalizing bits with
  | nil => simp [Passes, after, Receiver.frames]
  | cons b word ih =>
    simp only [List.length_cons] at fits
    have short : bits.length < format.width := by omega
    have head : (reading words bits).Passes format [b] (.reading words (bits ++ [b])) := by
      constructor
      · simp [after, next, short]
      · cases b <;> simp [Receiver.frames, completed, short]
    have tail := ih (bits ++ [b]) (by simp only [List.length_append, List.length_singleton]; omega)
    rw [List.append_assoc] at tail
    exact head.append tail

end Receiver

/-- A 0 before each word. -/
def spaced (words : List Word) : List Bool := words.flatMap (false :: ·)

structure Burst where
  ones : Nat
  words : List Word

def Burst.line (burst : Burst) : List Bool :=
  List.replicate burst.ones true ++ spaced burst.words ++ [true]

/-- What a receiver of a format understands. -/
structure Burst.Fits (format : Format) (burst : Burst) : Prop where
  preamble : format.preamble ≤ burst.ones
  words : burst.words ≠ []
  width : ∀ word ∈ burst.words, word.length = format.width

namespace Receiver
variable {format : Format}

theorem reading_words (before : List Word) (bits : Word) (words : List Word)
    (full : bits.length = format.width) (width : ∀ word ∈ words, word.length = format.width) :
    ∃ earlier last, last.length = format.width ∧ earlier ++ [last] = before ++ bits :: words ∧
      (reading before bits).Passes format (spaced words) (.reading earlier last) := by
  induction words generalizing before bits with
  | nil => exact ⟨before, bits, full, rfl, rfl, rfl⟩
  | cons word words ih =>
    have fits := width word List.mem_cons_self
    have separator : (reading before bits).Passes format [false] (.reading (before ++ [bits]) []) := by
      constructor
      · simp [after, next, full]
      · rfl
    have content : (reading (before ++ [bits]) []).Passes format word _ :=
      reading_bits (before ++ [bits]) [] word (by simp [fits])
    obtain ⟨earlier, last, complete, same, tail⟩ :=
      ih (before ++ [bits]) word fits fun other member => width other (List.mem_cons_of_mem _ member)
    refine ⟨earlier, last, complete, ?_, ?_⟩
    · rw [same]
      simp
    · have whole := (separator.append content).append tail
      simpa [spaced] using whole

/-- A burst is heard as the frame it carries, and nothing of it is left over. -/
theorem frames_burst {burst : Burst} (fits : burst.Fits format) (heard : Nat) (rest : List Bool) :
    (waiting heard).frames format (burst.line ++ rest) =
      burst.words :: (waiting format.carried).frames format rest := by
  obtain ⟨ones, words⟩ := burst
  obtain ⟨preamble, some_words, width⟩ := fits
  cases words with
  | nil => contradiction
  | cons word words =>
    have fits := width word List.mem_cons_self
    have run : (waiting heard).Passes format _ _ := waiting_ones heard ones
    have start : (waiting (heard + ones)).Passes format [false] (.reading [] []) := by
      have enough : format.preamble ≤ heard + ones := Nat.le_add_left_of_le preamble
      constructor
      · simp [after, next, enough]
      · rfl
    have content : (reading [] []).Passes format word _ := reading_bits [] [] word (by simp [fits])
    obtain ⟨earlier, last, complete, same, tail⟩ :=
      reading_words [] word words fits fun other member => width other (List.mem_cons_of_mem _ member)
    have whole := ((run.append start).append content).append tail
    have split : Burst.line ⟨ones, word :: words⟩ ++ rest =
        (List.replicate ones true ++ [false] ++ word ++ spaced words) ++ true :: rest := by
      simp [Burst.line, spaced]
    rw [split, whole.frames]
    simp only [frames, completed, next, complete, Nat.lt_irrefl, if_true]
    simpa using same

/-- Bursts with any number of 1 bits before, between and after them: exactly
the frames that were sent. -/
theorem frames_bursts (bursts : List (Burst × Nat))
    (fits : ∀ sent ∈ bursts, sent.1.Fits format) (heard : Nat) :
    (waiting heard).frames format
        (bursts.flatMap fun sent => sent.1.line ++ List.replicate sent.2 true) =
      bursts.map fun sent => sent.1.words := by
  induction bursts generalizing heard with
  | nil => rfl
  | cons sent bursts ih =>
    have others := fun other member => fits other (List.mem_cons_of_mem sent member)
    rw [List.flatMap_cons, List.append_assoc, frames_burst (fits sent List.mem_cons_self),
      (waiting_ones format.carried sent.2).frames, ih others, List.map_cons]

end Receiver

/-- A line on which these frames have gone out, with any number of 1 bits around them. -/
def Carries (format : Format) (frames : List (List Word)) (line : List Bool) : Prop :=
  ∃ (ones : Nat) (bursts : List (Burst × Nat)),
    line = List.replicate ones true ++
      bursts.flatMap (fun sent => sent.1.line ++ List.replicate sent.2 true) ∧
    (∀ sent ∈ bursts, sent.1.Fits format) ∧ bursts.map (fun sent => sent.1.words) = frames

namespace Carries
variable {format : Format} {frames : List (List Word)} {line : List Bool}

theorem ones (count : Nat) : Carries format [] (List.replicate count true) :=
  ⟨count, [], (List.append_nil _).symm, by simp, rfl⟩

/-- The line is idle for one more bit. -/
theorem idle (carries : Carries format frames line) : Carries format frames (line ++ [true]) := by
  obtain ⟨count, bursts, rfl, fits, rfl⟩ := carries
  rcases List.eq_nil_or_concat bursts with rfl | ⟨before, ⟨burst, filler⟩, rfl⟩
  · refine ⟨count + 1, [], ?_, by simp, rfl⟩
    simp [List.replicate_succ']
  · refine ⟨count, before ++ [(burst, filler + 1)], ?_, ?_, ?_⟩
    · simp [List.flatMap_append, List.replicate_succ']
    · intro sent member
      rcases List.mem_append.mp member with old | new
      · exact fits sent (by simp [old])
      · rw [List.mem_singleton.mp new]
        exact fits (burst, filler) (by simp)
    · simp

/-- One more frame goes out. -/
theorem burst (carries : Carries format frames line) {burst : Burst} (fits : burst.Fits format) :
    Carries format (frames ++ [burst.words]) (line ++ burst.line) := by
  obtain ⟨count, bursts, rfl, all, rfl⟩ := carries
  refine ⟨count, bursts ++ [(burst, 0)], ?_, ?_, ?_⟩
  · simp [List.flatMap_append]
  · intro sent member
    rcases List.mem_append.mp member with old | new
    · exact all sent old
    · rw [List.mem_singleton.mp new]
      exact fits
  · simp

/-- A receiver that has heard nothing yet hears the frames. -/
theorem received (carries : Carries format frames line) (heard : Nat) :
    (Receiver.waiting heard).frames format line = frames := by
  obtain ⟨count, bursts, rfl, fits, rfl⟩ := carries
  rw [(Receiver.waiting_ones heard count).frames, Receiver.frames_bursts bursts fits]

end Carries
end BitFraming
