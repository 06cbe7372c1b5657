import Freedcc.Lib.CircularBuffer

/-! The ring buffer of ring.c. The `size` field is fixed by `Ring_create`, so it
is an index of the type; `start` is below it by construction. The `type` field
is written once and read by nobody, and is left out. -/
namespace Freedcc

structure Ring (α : Type) (size : Nat) where
  buf : Vector α size
  count : Nat
  start : Fin size

namespace Ring
open CircularBuffer

/-- `ring->buf[(ring->start + ring->count) % ring->size] = data; ring->count++`.
There is no test for a full ring. -/
def push (ring : Ring α size) (data : α) : Ring α size :=
  { ring with
    buf := ring.buf.set ((ring.start + ring.count) % size) data (Nat.mod_lt _ ring.start.pos)
    count := ring.count + 1 }

/-- There is no test for an empty ring; every caller makes it. -/
def pop (ring : Ring α size) : α × Ring α size :=
  (ring.buf[ring.start],
    { ring with
      start := ⟨(ring.start + 1) % size, Nat.mod_lt _ ring.start.pos⟩
      count := ring.count - 1 })

def reset (ring : Ring α size) : Ring α size :=
  { ring with count := 0, start := ⟨0, ring.start.pos⟩ }

/-- `buf` is what malloc happened to return. -/
def create (buf : Vector α size) (positive : 0 < size) : Ring α size :=
  reset { buf, count := 0, start := ⟨0, positive⟩ }

/-- The queued values, oldest first. -/
def contents (ring : Ring α size) : List α := segment ring.buf ring.start ring.count

@[simp] theorem contents_length (ring : Ring α size) : ring.contents.length = ring.count :=
  segment_length _ _ _

@[simp] theorem contents_create (buf : Vector α size) (positive : 0 < size) :
    (create buf positive).contents = [] := rfl

@[simp] theorem contents_reset (ring : Ring α size) : ring.reset.contents = [] := rfl

@[simp] theorem count_push (ring : Ring α size) (data : α) :
    (ring.push data).count = ring.count + 1 := rfl

theorem contents_push (ring : Ring α size) (data : α) (room : ring.count < size) :
    (ring.push data).contents = ring.contents ++ [data] :=
  segment_set_end ring.buf ring.start room data

theorem contents_pop (ring : Ring α size) (pending : 0 < ring.count) :
    ring.contents = ring.pop.1 :: ring.pop.2.contents := by
  obtain ⟨count, same⟩ : ∃ count, ring.count = count + 1 := ⟨ring.count - 1, by omega⟩
  simp only [contents, pop, same, Nat.add_sub_cancel]
  exact segment_head ring.buf ring.start count

theorem contents_eq_nil (ring : Ring α size) : ring.contents = [] ↔ ring.count = 0 := by
  rw [← List.length_eq_zero_iff, contents_length]

theorem mem_buf_of_mem_contents {ring : Ring α size} (member : x ∈ ring.contents) : x ∈ ring.buf :=
  mem_of_mem_segment member

/-! A push without room overwrites the oldest value, and the count goes on. -/

theorem contents_push_last (ring : Ring α size) (data : α) :
    (ring.push data).contents[ring.count]? = some data :=
  segment_set_last ring.buf ring.start ring.count data

theorem mem_contents_push (ring : Ring α size) (data : α)
    (member : x ∈ (ring.push data).contents) : x = data ∨ x ∈ ring.contents :=
  mem_segment_set ring.buf ring.start ring.count data member

theorem contents_wrap (ring : Ring α size) (inside : i + size < ring.count) :
    ring.contents[i]? = ring.contents[i + size]? :=
  segment_wrap ring.buf ring.start inside

end Ring
end Freedcc
