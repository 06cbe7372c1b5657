import Mathlib.Data.List.Basic
import Mathlib.Data.Nat.ModEq

/-! Circular segments of a fixed array. A segment is the list of elements met
when walking `count` places from `start` and wrapping at the end of the array.
Only the index arithmetic of bounded queues lives here; a queue supplies its
own operations and instantiates the laws. -/
namespace CircularBuffer

/-- The place `offset` steps after `start`. -/
def slot (start : Fin n) (offset : Nat) : Fin n :=
  ⟨(start + offset) % n, Nat.mod_lt _ start.pos⟩

def segment (buf : Vector α n) (start : Fin n) (count : Nat) : List α :=
  (List.range count).map fun offset => buf[slot start offset]

@[simp] theorem slot_zero (start : Fin n) : slot start 0 = start := by
  apply Fin.ext
  simp [slot, Nat.mod_eq_of_lt start.isLt]

theorem slot_slot (start : Fin n) (i j : Nat) : slot (slot start i) j = slot start (i + j) := by
  apply Fin.ext
  simp only [slot, Nat.mod_add_mod, Nat.add_assoc]

/-- Distinct offsets below one revolution name distinct places. -/
theorem slot_inj (start : Fin n) (hi : i < n) (hj : j < n) :
    slot start i = slot start j ↔ i = j := by
  constructor
  · intro same
    have h : (start + i) % n = (start + j) % n := congrArg Fin.val same
    have shifted : i % n = j % n := Nat.ModEq.add_left_cancel' start.val h
    rwa [Nat.mod_eq_of_lt hi, Nat.mod_eq_of_lt hj] at shifted
  · rintro rfl
    rfl

theorem slot_ne (start : Fin n) (hi : i < n) (hj : j < n) (different : i ≠ j) :
    slot start i ≠ slot start j := fun same => different ((slot_inj start hi hj).mp same)

/-- A place from the start on is met before the array wraps. -/
theorem slot_sub {start target : Fin n} (above : start.val ≤ target.val) :
    slot start (target.val - start.val) = target := by
  apply Fin.ext
  simp only [slot, Nat.add_sub_cancel' above, Nat.mod_eq_of_lt target.isLt]

/-- One revolution passes every place. -/
theorem slot_surjective (start target : Fin n) : ∃ offset < n, slot start offset = target := by
  have hs := start.isLt
  have ht := target.isLt
  by_cases above : start.val ≤ target.val
  · exact ⟨target - start, by omega, slot_sub above⟩
  · refine ⟨target + n - start, by omega, Fin.ext ?_⟩
    change (start.val + (target.val + n - start.val)) % n = target.val
    rw [show start.val + (target.val + n - start.val) = target.val + n by omega,
      Nat.add_mod_right, Nat.mod_eq_of_lt ht]

@[simp] theorem segment_length (buf : Vector α n) (start : Fin n) (count : Nat) :
    (segment buf start count).length = count := by
  simp [segment]

@[simp] theorem segment_zero (buf : Vector α n) (start : Fin n) : segment buf start 0 = [] := rfl

theorem mem_of_mem_segment {buf : Vector α n} {start : Fin n} (member : x ∈ segment buf start count) :
    x ∈ buf := by
  obtain ⟨offset, -, rfl⟩ := List.mem_map.mp member
  exact Vector.getElem_mem _

/-- Walking on from the first place: the head of a segment and its tail. -/
theorem segment_head (buf : Vector α n) (start : Fin n) (count : Nat) :
    segment buf start (count + 1) = buf.get start :: segment buf (slot start 1) count := by
  simp only [segment, List.range_succ_eq_map, List.map_cons, List.map_map, slot_zero]
  congr 1
  apply List.map_congr_left
  intro offset _
  simp only [Function.comp_apply, slot_slot, Nat.succ_eq_add_one, Nat.add_comm]

/-- Writing the place just past a segment that leaves room appends to it. -/
theorem segment_set_end (buf : Vector α n) (start : Fin n) (room : count < n) (value : α) :
    segment (buf.set (slot start count) value) start (count + 1) =
      segment buf start count ++ [value] := by
  simp only [segment, List.range_succ, List.map_append, List.map_cons, List.map_nil]
  congr 1
  · apply List.map_congr_left
    intro offset member
    have below : offset < count := List.mem_range.mp member
    have apart := slot_ne start (Nat.lt_trans below room) room (Nat.ne_of_lt below)
    exact Vector.getElem_set_ne _ _ (fun same => apart (Fin.ext same.symm))
  · simp

/-! Segments longer than the array pass some places again. -/

theorem segment_getElem? (buf : Vector α n) (start : Fin n) (inside : offset < count) :
    (segment buf start count)[offset]? = some buf[slot start offset] := by
  simp [segment, inside]

theorem segment_wrap (buf : Vector α n) (start : Fin n) (inside : offset + n < count) :
    (segment buf start count)[offset]? = (segment buf start count)[offset + n]? := by
  have same : slot start (offset + n) = slot start offset := by
    apply Fin.ext
    simp only [slot, ← Nat.add_assoc, Nat.add_mod_right]
  calc (segment buf start count)[offset]?
      = some buf[slot start offset] :=
        segment_getElem? buf start (Nat.lt_of_le_of_lt (Nat.le_add_right _ _) inside)
    _ = some buf[slot start (offset + n)] := congrArg (fun place => some buf[place]) same.symm
    _ = (segment buf start count)[offset + n]? := (segment_getElem? buf start inside).symm

/-- The place just past a segment, room or not. -/
theorem segment_set_last (buf : Vector α n) (start : Fin n) (count : Nat) (value : α) :
    (segment (buf.set (slot start count) value) start (count + 1))[count]? = some value := by
  rw [segment_getElem? _ _ (Nat.lt_succ_self count)]
  simp

theorem mem_segment_set (buf : Vector α n) (start : Fin n) (count : Nat) (value : α)
    (member : x ∈ segment (buf.set (slot start count) value) start (count + 1)) :
    x = value ∨ x ∈ segment buf start count := by
  simp only [segment, List.mem_map, List.mem_range] at member ⊢
  obtain ⟨offset, within, rfl⟩ := member
  by_cases same : slot start offset = slot start count
  · left
    simp [same]
  · right
    have apart : (slot start count).val ≠ (slot start offset).val :=
      fun h => same (Fin.ext h.symm)
    have inner : offset ≠ count := fun h => same (h ▸ rfl)
    refine ⟨offset, by omega, ?_⟩
    exact (Vector.getElem_set_ne _ _ apart).symm

end CircularBuffer
