import Freedcc.IoProofs

/-! One line from the host, of any length: `IO_getc` stores the whole of it before
the first character is taken out, and `Ring_push` does not see a full ring. -/
namespace Freedcc

/-- The newline stands at the end only. -/
theorem SentLine.content_inner (line : SentLine) (inside : i < line.text.length) :
    line.content[i]? ≠ some '\n' := by
  rw [line.content_eq, List.getElem?_append_left (by simpa using inside), List.getElem?_map]
  intro same
  obtain ⟨c, found, newline⟩ := Option.map_eq_some_iff.mp same
  exact line.single c (List.mem_of_getElem? found) newline

namespace Io

/-- What successive calls of `IO_getc` return. -/
def getcs : Nat → Io → Except Fault (List (Option Char) × Io)
  | 0, io => .ok ([], io)
  | calls + 1, io => do
    let (c, io) ← io.getc
    let (more, io) ← getcs calls io
    return (c :: more, io)

/-- As many calls as the line has characters return these, leave the ring empty and
take nothing from the lines after it. -/
def Unaltered (line : SentLine) (io : Io) : Prop :=
  ∃ next, getcs line.content.length io = .ok (line.content.map some, next) ∧
    next.rxRing.count = 0 ∧ next.wire = io.wire.drop line.received.length

variable {io filled : Io}

theorem getc_stored (stored : 0 < io.rxRing.count) :
    io.getc = .ok (some io.rxRing.pop.1, { io with rxRing := io.rxRing.pop.2 }) := by
  simp only [getc_eq, Nat.pos_iff_ne_zero.mp stored, if_false]
  rfl

/-- With an empty ring the call goes on as if the line had been there. -/
theorem getc_polled (empty : io.rxRing.count = 0) (polled : poll io.wire io = .ok (true, filled))
    (stored : 0 < filled.rxRing.count) : io.getc = filled.getc := by
  rw [getc_stored stored, getc_eq, if_pos empty, polled]
  rfl

/-- The ring hands out what is in it, a value for each of its `count`. -/
theorem getcs_stored (io : Io) : ∃ next,
    getcs io.rxRing.count io = .ok (io.rxRing.contents.map some, next) ∧
      next.rxRing.count = 0 ∧ next.wire = io.wire := by
  generalize left : io.rxRing.count = calls
  induction calls generalizing io with
  | zero =>
    have drained := (Ring.contents_eq_nil io.rxRing).mpr left
    rw [drained]
    exact ⟨io, rfl, left, rfl⟩
  | succ calls ih =>
    have stored : 0 < io.rxRing.count := by omega
    have fewer : io.rxRing.pop.2.count = calls := by
      rw [Ring.pop, left]
      rfl
    obtain ⟨next, rest, drained, wire⟩ := ih { io with rxRing := io.rxRing.pop.2 } fewer
    refine ⟨next, ?_, drained, wire⟩
    simp only [getcs, getc_stored stored, bind, Except.bind, rest]
    rw [Ring.contents_pop io.rxRing stored, List.map_cons]
    rfl

/-- A line of any length is stored up to its newline. -/
theorem poll_stores (text : List Char) (newline : Char) (single : ∀ c ∈ text, translate c ≠ '\n')
    (ended : translate newline = '\n') (more : List Rx) (io : Io) :
    ∃ filled, poll ((text ++ [newline]).map (fun c => ⟨c, false, false⟩) ++ more) io =
        .ok (true, filled) ∧ filled.wire = more ∧
      filled.rxRing.count = io.rxRing.count + (text.length + 1) ∧
      filled.rxRing.contents[io.rxRing.count + text.length]? = some '\n' := by
  induction text generalizing io with
  | nil =>
    refine ⟨io.store newline more, ?_, rfl, rfl, ?_⟩
    · rw [List.nil_append, List.map_singleton, List.singleton_append, poll_byte, if_pos ended]
    · rw [List.length_nil, Nat.add_zero, ← ended]
      exact Ring.contents_push_last io.rxRing (translate newline)
  | cons c text ih =>
    have inner : translate c ≠ '\n' := single c List.mem_cons_self
    obtain ⟨filled, polled, wire, count, last⟩ :=
      ih (fun d member => single d (List.mem_cons_of_mem _ member))
        (io.store c ((text ++ [newline]).map (fun c => ⟨c, false, false⟩) ++ more))
    have pushed : (io.store c ((text ++ [newline]).map (fun c => ⟨c, false, false⟩) ++
        more)).rxRing.count = io.rxRing.count + 1 := rfl
    rw [pushed] at count last
    have onward : io.rxRing.count + 1 + text.length = io.rxRing.count + (c :: text).length := by
      rw [List.length_cons]
      omega
    refine ⟨filled, ?_, wire, ?_, ?_⟩
    · rw [List.cons_append, List.map_cons, List.cons_append, poll_byte, if_neg inner]
      exact polled
    · rw [count, ← Nat.add_assoc, ← Nat.add_assoc, onward]
    · rw [← onward]
      exact last

section Line
variable {line : SentLine} {rest : List Rx} (empty : io.rxRing.count = 0)
  (holds : io.wire = line.received ++ rest)
include empty holds

/-- The calls return what the ring holds once the line has been stored. -/
theorem getcs_line : ∃ filled next, poll io.wire io = .ok (true, filled) ∧
    filled.rxRing.count = line.content.length ∧
    filled.rxRing.contents[line.text.length]? = some '\n' ∧
    getcs line.content.length io = .ok (filled.rxRing.contents.map some, next) ∧
    next.rxRing.count = 0 ∧ next.wire = rest := by
  obtain ⟨filled, polled, wire, count, last⟩ :=
    poll_stores line.text line.newline line.single line.ended rest io
  rw [empty, Nat.zero_add] at count last
  have whole : poll io.wire io = .ok (true, filled) := by
    rw [holds]
    exact polled
  have length : filled.rxRing.count = line.content.length := count.trans line.content_length.symm
  have stored : 0 < filled.rxRing.count := by omega
  obtain ⟨next, drained, emptied, same⟩ := getcs_stored filled
  refine ⟨filled, next, whole, length, last, ?_, emptied, same.trans wire⟩
  -- the first call polls, the others find the ring filled
  rw [← drained, length, line.content_length]
  simp only [getcs, getc_polled empty whole stored]

theorem unaltered_of_fits (fits : line.content.length ≤ ringSize) : Unaltered line io := by
  obtain ⟨filled, next, polled, -, -, calls, emptied, wire⟩ := getcs_line empty holds
  have room : io.rxRing.count + line.text.length < ringSize := by
    rw [line.content_length] at fits
    omega
  obtain ⟨filled', polled', -, -, -, contents⟩ :=
    poll_line line.text line.newline line.single line.ended room rest
  have same : filled' = filled := by
    rw [holds] at polled
    exact (Prod.mk.inj (Except.ok.inj (polled'.symm.trans polled))).2
  have kept : filled.rxRing.contents = line.content := by
    rw [← same, contents, (Ring.contents_eq_nil io.rxRing).mpr empty, List.nil_append]
    rfl
  refine ⟨next, ?_, emptied, ?_⟩
  · rw [calls, kept]
  · rw [wire, holds, List.drop_left]

/-- The newline of a longer line is stored where an earlier character was. -/
theorem altered_of_overlong (overlong : ringSize < line.content.length) :
    ¬ Unaltered line io := by
  obtain ⟨filled, next, -, count, last, calls, -, -⟩ := getcs_line empty holds
  rintro ⟨next', returned, -, -⟩
  have contents : filled.rxRing.contents = line.content := by
    have same := (Prod.mk.inj (Except.ok.inj (calls.symm.trans returned))).1
    exact List.map_injective_iff.mpr (Option.some_injective Char) same
  rw [line.content_length] at count overlong
  have before : line.text.length - ringSize + ringSize = line.text.length :=
    Nat.sub_add_cancel (Nat.le_of_lt_succ overlong)
  have wrapped : filled.rxRing.contents[line.text.length - ringSize]? =
      filled.rxRing.contents[line.text.length - ringSize + ringSize]? :=
    Ring.contents_wrap filled.rxRing (by
      change line.text.length - ringSize + ringSize < _
      omega)
  rw [before, last, contents] at wrapped
  have inside : line.text.length - ringSize < line.text.length := by
    have positive : 0 < ringSize := by decide
    omega
  exact line.content_inner inside wrapped

/-- A line is handed on as it was sent if and only if it fits in the ring with its newline. -/
theorem line_unaltered_iff : Unaltered line io ↔ line.content.length ≤ ringSize := by
  constructor
  · intro unaltered
    by_contra long
    exact altered_of_overlong empty holds (Nat.lt_of_not_le long) unaltered
  · exact unaltered_of_fits empty holds

end Line

def awaiting (line : SentLine) : Io where
  unget := none
  rxRing := { buf := .replicate 50 ' ', count := 0, start := 49 }
  wire := line.received
  arrived := 0

theorem translate_manyA (count : Nat) : ∀ c ∈ List.replicate count 'a', translate c ≠ '\n' := by
  intro c member
  rw [List.eq_of_mem_replicate member]
  decide

def manyA (count : Nat) : SentLine where
  text := List.replicate count 'a'
  newline := '\r'
  single := translate_manyA count
  ended := translate_return

theorem line_unaltered_full : Unaltered (manyA 49) (awaiting (manyA 49)) :=
  (line_unaltered_iff rfl (List.append_nil _).symm).mpr (by decide)

theorem fifty_first_lost : (awaiting (manyA 50)).rxRing.count = 0 ∧
    (awaiting (manyA 50)).wire = (manyA 50).received ∧
    ¬ Unaltered (manyA 50) (awaiting (manyA 50)) :=
  ⟨rfl, rfl, altered_of_overlong rfl (List.append_nil _).symm (by decide)⟩

end Io
end Freedcc
