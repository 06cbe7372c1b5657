import Freedcc.Ring
import Freedcc.Lib.Run

/-! The ring as a queue. ring.c works on the plain integers of `struct Ring_T`,
and nothing there ties `count` and `start` to the size of the buffer. A caller
that pushes only with room and pops only what is pending keeps the struct a
`Ring`, and sees a queue. -/
namespace Freedcc

/-- `struct Ring_T`, without the `type` that nobody reads. -/
structure RingStruct (α : Type) where
  buf : List α
  count : Int
  start : Int
  size : Int
deriving DecidableEq

namespace RingStruct
variable {α : Type} {size : Nat}

/-- `none` is a write outside the buffer. -/
def push (ring : RingStruct α) (data : α) : Option (RingStruct α) :=
  let i := (ring.start + ring.count).tmod ring.size
  if 0 ≤ i ∧ i < ring.buf.length then
    some { ring with buf := ring.buf.set i.toNat data, count := ring.count + 1 }
  else none

/-- `none` is a read outside the buffer. -/
def pop (ring : RingStruct α) : Option (α × RingStruct α) := do
  guard (0 ≤ ring.start)
  let popped ← ring.buf[ring.start.toNat]?
  return (popped,
    { ring with start := (ring.start + 1).tmod ring.size, count := ring.count - 1 })

def reset (ring : RingStruct α) : RingStruct α := { ring with count := 0, start := 0 }

/-- Both arguments are what malloc happened to return. -/
def create (ring : RingStruct α) (buf : Vector α size) : RingStruct α :=
  reset { ring with buf := buf.toList, size := size }

def ofRing (ring : Ring α size) : RingStruct α :=
  { buf := ring.buf.toList, count := ring.count, start := ring.start.val, size := size }

theorem push_ofRing (ring : Ring α size) (data : α) :
    (ofRing ring).push data = some (ofRing (ring.push data)) := by
  have place : ((ring.start.val : Int) + ring.count).tmod size =
      ((ring.start.val + ring.count) % size : Nat) := by norm_cast
  have inside := Nat.mod_lt (ring.start.val + ring.count) ring.start.pos
  have bound : ((ring.start.val + ring.count) % size : Nat) < (ring.buf.toList.length : Int) := by
    rw [Vector.length_toList]
    exact_mod_cast inside
  simp only [push, ofRing, place, Int.toNat_natCast, Int.natCast_nonneg, bound, and_self, if_true]
  simp [Ring.push, Vector.toList_set]

theorem pop_ofRing (ring : Ring α size) (pending : 0 < ring.count) :
    (ofRing ring).pop = some (ring.pop.1, ofRing ring.pop.2) := by
  have inside : ring.start.val < ring.buf.toList.length := by simp
  have next : ((ring.start.val : Int) + 1).tmod size = ((ring.start.val + 1) % size : Nat) := by
    norm_cast
  have fewer : (ring.count : Int) - 1 = (ring.count - 1 : Nat) := by omega
  simp [pop, ofRing, Ring.pop, guard, next, fewer]

theorem create_ofRing (ring : RingStruct α) (buf : Vector α size) (positive : 0 < size) :
    create ring buf = ofRing (Ring.create buf positive) := rfl

inductive Call (α : Type) where
  | push (data : α)
  | pop
  | reset

/-- What a call does to the struct, and the value it returns. -/
def call : Option (RingStruct α) → Call α → Option (RingStruct α) × List α
  | none, _ => (none, [])
  | some ring, .push data => (ring.push data, [])
  | some ring, .pop => (ring.pop.map Prod.snd, (ring.pop.map Prod.fst).toList)
  | some ring, .reset => (some ring.reset, [])

/-- No push on a full ring and no pop from an empty one. -/
def Minded : Option (RingStruct α) → Call α → Prop
  | some ring, .push _ => ring.count ≠ ring.size
  | some ring, .pop => ring.count ≠ 0
  | _, _ => True

instance : ∀ ring : Option (RingStruct α), DecidablePred (Minded ring)
  | some ring, .push _ => inferInstanceAs (Decidable (ring.count ≠ ring.size))
  | some ring, .pop => inferInstanceAs (Decidable (ring.count ≠ 0))
  | some _, .reset => isTrue trivial
  | none, _ => isTrue trivial

/-- A queue, oldest value first. -/
def queueCall (queue : List α) : Call α → List α × List α
  | .push data => (queue ++ [data], [])
  | .pop => (queue.tail, queue.head?.toList)
  | .reset => ([], [])

def Represents (size : Nat) (ring : Option (RingStruct α)) (queue : List α) : Prop :=
  ∃ r : Ring α size, ring = some (ofRing r) ∧ r.count ≤ size ∧ r.contents = queue

theorem Represents.call {ring : Option (RingStruct α)} (represents : Represents size ring queue)
    (op : Call α) (minded : Minded ring op) :
    Represents size (call ring op).1 (queueCall queue op).1 ∧
      (RingStruct.call ring op).2 = (queueCall queue op).2 := by
  obtain ⟨r, rfl, within, rfl⟩ := represents
  cases op with
  | push data =>
    have apart : (r.count : Int) ≠ size := minded
    have room : r.count < size := by omega
    refine ⟨⟨r.push data, push_ofRing r data, room, ?_⟩, rfl⟩
    exact Ring.contents_push r data room
  | pop =>
    have apart : (r.count : Int) ≠ 0 := minded
    have pending : 0 < r.count := by omega
    have popped := pop_ofRing r pending
    have split := Ring.contents_pop r pending
    simp only [RingStruct.call, popped, queueCall, split]
    refine ⟨⟨r.pop.2, rfl, ?_, rfl⟩, rfl⟩
    change r.count - 1 ≤ size
    omega
  | reset => exact ⟨⟨r.reset, rfl, Nat.zero_le _, rfl⟩, rfl⟩

theorem represents_create (ring : RingStruct α) (buf : Vector α size) (positive : 0 < size) :
    Represents size (some (create ring buf)) [] :=
  ⟨Ring.create buf positive, rfl, Nat.zero_le _, rfl⟩

theorem Represents.bounds {ring : Option (RingStruct α)} (represents : Represents size ring queue) :
    ∃ r, ring = some r ∧ r.size = size ∧ r.count = queue.length ∧
      (0 ≤ r.start ∧ r.start < r.size) ∧ 0 ≤ r.count ∧ r.count ≤ r.size := by
  obtain ⟨r, rfl, within, rfl⟩ := represents
  refine ⟨_, rfl, rfl, ?_, ⟨?_, ?_⟩, ?_, ?_⟩
  · rw [Ring.contents_length]
    rfl
  · exact Int.natCast_nonneg _
  · exact Int.ofNat_lt.mpr r.start.isLt
  · exact Int.natCast_nonneg _
  · exact Int.ofNat_le.mpr within

/-- Under calls that mind its count, the ring returns what a queue returns, and
all along its count is the length of the queue and its indices stay in range. -/
theorem ring_refines_queue (ring : RingStruct α) (buf : Vector α size) (positive : 0 < size)
    (calls : List (Call α)) (minded : Run.Along call Minded (some (create ring buf)) calls) :
    Run.log call (some (create ring buf)) calls = Run.log queueCall [] calls ∧
      ∀ before, before <+: calls → ∃ r, Run.final call (some (create ring buf)) before = some r ∧
        r.size = size ∧ r.count = (Run.final queueCall [] before).length ∧
        (0 ≤ r.start ∧ r.start < r.size) ∧ 0 ≤ r.count ∧ r.count ≤ r.size := by
  have created := represents_create ring buf positive
  have step : ∀ (s : Option (RingStruct α)) (queue : List α) (op : Call α), Minded s op →
      Represents size s queue → Represents size (call s op).1 (queueCall queue op).1 ∧
        (call s op).2 = (queueCall queue op).2 :=
    fun s queue op minded represents => represents.call op minded
  constructor
  · exact (minded.simulation step created).2
  · intro before shorter
    exact ((minded.initial shorter).simulation step created).1.bounds

def laps : List (Call Nat) :=
  [.push 1, .push 2, .push 3, .pop, .push 4, .pop, .pop, .push 5, .reset, .push 6, .push 7, .pop,
    .push 8, .push 9, .pop, .pop]

theorem ring_refines_queue_laps :
    Run.log call (some (create ⟨[], 7, -2, 0⟩ #v[0, 0, 0])) laps = [1, 2, 3, 6, 7, 8] ∧
      ∃ r, Run.final call (some (create ⟨[], 7, -2, 0⟩ #v[0, 0, 0])) laps = some r ∧
        r.count = 1 := by
  obtain ⟨log, all⟩ := ring_refines_queue ⟨[], 7, -2, 0⟩ #v[0, 0, 0] (by decide) laps (by decide)
  obtain ⟨r, reached, -, count, -⟩ := all laps (List.prefix_refl _)
  exact ⟨log, r, reached, count⟩

end RingStruct
end Freedcc
