import Freedcc.Frame

/-! Setters in any order on a fresh baseline packet. Each field is what its own
setter wrote last, and a checksum made after the last change completes a frame. -/
namespace Freedcc.Dcc

/-- A call of one of the setters; a step is not negative. -/
inductive Setter where
  | preamble
  | address (address : Byte)
  | speedDirectionPreamble
  | direction (direction : Int)
  | speed (step : Nat)
  | checksum
  | packetEnd
deriving DecidableEq, Repr

namespace Setter

def apply (packet : Packet) : Setter → Packet
  | .preamble => setPreamble packet
  | .address a => setAddress packet a
  | .speedDirectionPreamble => setSpeedDirectionPreamble packet
  | .direction d => setDirection packet d
  | .speed step => setSpeed packet step
  | .checksum => setChecksum packet
  | .packetEnd => setPacketEnd packet

def written (calls : List Setter) : Packet := calls.foldl apply baselinePacketCreate

/-- The last value that was set, or the one of a fresh packet. -/
def latest (read : Setter → Option α) (initial : α) (calls : List Setter) : α :=
  (calls.filterMap read).getLast?.getD initial

def address? : Setter → Option Byte
  | .address a => some a
  | _ => none

def step? : Setter → Option Nat
  | .speed step => some step
  | _ => none

def direction? : Setter → Option Int
  | .direction d => some d
  | _ => none

/-- The checksum depends on what it sets. -/
def Changes (call : Setter) : Prop :=
  call.address?.isSome ∨ call.direction?.isSome ∨ call.step?.isSome

/-- Nothing is missing for a frame, and the checksum is up to date. -/
structure Completes (calls : List Setter) : Prop where
  preamble : .preamble ∈ calls
  speedDirectionPreamble : .speedDirectionPreamble ∈ calls
  packetEnd : .packetEnd ∈ calls
  checksum : ∃ before after, calls = before ++ .checksum :: after ∧ ∀ call ∈ after, ¬ call.Changes

/-! The same on the fields. -/

def write (f : Fields) : Setter → Fields
  | .preamble => { f with preamble := true }
  | .address a => { f with address := a.setWidth 7 }
  | .speedDirectionPreamble => { f with sdPreamble := true }
  | .direction d => { f with direction := d ≠ 0 }
  | .speed step => { f with speed := speedCode step }
  | .checksum => { f with checksum := f.addressByte ^^^ f.instruction }
  | .packetEnd => { f with packetEnd := true }

theorem apply_packet (f : Fields) (call : Setter) : apply f.packet call = (write f call).packet := by
  cases call with
  | preamble => exact setPreamble_packet f
  | address a => exact setAddress_packet f a
  | speedDirectionPreamble => exact setSpeedDirectionPreamble_packet f
  | direction d => exact setDirection_packet f d
  | speed step => exact setSpeed_packet f step
  | checksum => exact setChecksum_packet f
  | packetEnd => exact setPacketEnd_packet f

theorem foldl_packet (calls : List Setter) (f : Fields) :
    calls.foldl apply f.packet = (calls.foldl write f).packet := by
  induction calls generalizing f with
  | nil => rfl
  | cons call calls ih => rw [List.foldl_cons, List.foldl_cons, apply_packet, ih]

theorem written_packet (calls : List Setter) :
    written calls = (calls.foldl write .fresh).packet := by
  rw [written, ← Fields.packet_fresh, foldl_packet]

/-- A field that one kind of call sets and the others leave alone. -/
theorem field_latest {field : Fields → α} {read : Setter → Option α}
    (sets : ∀ f call, field (write f call) = (read call).getD (field f)) (calls : List Setter)
    (f : Fields) : field (calls.foldl write f) = latest read (field f) calls := by
  induction calls using List.reverseRecOn with
  | nil => rfl
  | append_singleton calls call ih =>
    rw [List.foldl_append, List.foldl_cons, List.foldl_nil, sets, ih, latest, latest,
      List.filterMap_append]
    cases given : read call with
    | none => simp [given]
    | some value => simp [given]

/-- A field that is set for good. -/
theorem field_set {field : Fields → Bool} {setter : Setter}
    (sets : ∀ f call, field (write f call) = (decide (call = setter) || field f))
    {calls : List Setter} (member : setter ∈ calls) (f : Fields) :
    field (calls.foldl write f) = true := by
  induction calls using List.reverseRecOn with
  | nil => contradiction
  | append_singleton calls call ih =>
    rw [List.foldl_append, List.foldl_cons, List.foldl_nil, sets]
    rcases List.mem_append.mp member with earlier | last
    · rw [ih earlier, Bool.or_true]
    · simp [List.mem_singleton.mp last]

theorem address_run (calls : List Setter) (f : Fields) :
    (calls.foldl write f).address =
      latest (fun call => call.address?.map (·.setWidth 7)) f.address calls := by
  apply field_latest
  intro f call
  cases call <;> rfl

theorem speed_run (calls : List Setter) (f : Fields) :
    (calls.foldl write f).speed = latest (fun call => call.step?.map speedCode) f.speed calls := by
  apply field_latest
  intro f call
  cases call <;> rfl

theorem direction_run (calls : List Setter) (f : Fields) :
    (calls.foldl write f).direction =
      latest (fun call => call.direction?.map fun d => decide (d ≠ 0)) f.direction calls := by
  apply field_latest
  intro f call
  cases call <;> rfl

/-- What is stored of a value, and then the last one, or the last one and then what is stored. -/
theorem latest_map (read : Setter → Option α) (store : α → β) (initial : α) (calls : List Setter) :
    latest (fun call => (read call).map store) (store initial) calls =
      store (latest read initial calls) := by
  have stored : calls.filterMap (fun call => (read call).map store) =
      (calls.filterMap read).map store := by
    rw [List.map_filterMap]
  rw [latest, latest, stored, List.getLast?_map]
  cases (calls.filterMap read).getLast? <;> rfl

/-- A checksum stays right as long as nothing it depends on is set. -/
theorem checksum_kept {calls : List Setter} (unchanged : ∀ call ∈ calls, ¬ call.Changes)
    {f : Fields} (right : f.checksum = f.addressByte ^^^ f.instruction) :
    (calls.foldl write f).checksum =
      (calls.foldl write f).addressByte ^^^ (calls.foldl write f).instruction := by
  induction calls generalizing f with
  | nil => exact right
  | cons call calls ih =>
    apply ih fun other member => unchanged other (List.mem_cons_of_mem _ member)
    have inert := unchanged call List.mem_cons_self
    cases call with
    | address | direction | speed => exact absurd (by simp [Changes, address?, direction?, step?]) inert
    | checksum => rfl
    | preamble | speedDirectionPreamble | packetEnd => exact right

theorem frame_run (completes : Completes calls) (f : Fields) :
    calls.foldl write f = frame (calls.foldl write f).address (calls.foldl write f).direction
      (calls.foldl write f).speed := by
  have preamble : (calls.foldl write f).preamble = true := by
    refine field_set (fun f call => ?_) completes.preamble f
    cases call <;> rfl
  have sdPreamble : (calls.foldl write f).sdPreamble = true := by
    refine field_set (fun f call => ?_) completes.speedDirectionPreamble f
    cases call <;> rfl
  have packetEnd : (calls.foldl write f).packetEnd = true := by
    refine field_set (fun f call => ?_) completes.packetEnd f
    cases call <;> rfl
  have checksum : (calls.foldl write f).checksum =
      (calls.foldl write f).addressByte ^^^ (calls.foldl write f).instruction := by
    obtain ⟨before, after, rfl, unchanged⟩ := completes.checksum
    rw [List.foldl_append, List.foldl_cons]
    exact checksum_kept unchanged rfl
  generalize calls.foldl write f = g at *
  have finished : g.finish = g := by
    obtain ⟨⟩ := g
    simp only [Fields.finish, Fields.mk.injEq, true_and]
    exact ⟨checksum.symm, packetEnd.symm⟩
  rw [← finish_eq_frame preamble sdPreamble, finished]

/-- Each getter returns what its own setter was given last, and with everything
set and the checksum up to date the packet is a frame of these values. -/
theorem setters_independent (calls : List Setter) :
    (getAddress (written calls)).toNat = (latest address? 0 calls).toNat % 128 ∧
    getSpeedStep (written calls) = latest step? 0 calls % maxSpeedSteps ∧
    getDirection (written calls) =
      (if latest direction? 0 calls ≠ 0 then directionForward else directionReverse) ∧
    (Completes calls → (written calls).bits =
      baselineFrame (latest address? 0 calls % 128)
        (0x40 ||| (if latest direction? 0 calls ≠ 0 then 0x20 else 0x00) |||
          speedSteps.getD (latest step? 0 calls % maxSpeedSteps) 0)) := by
  have address : (calls.foldl write .fresh).address = (latest address? 0 calls).setWidth 7 := by
    rw [address_run]
    exact latest_map address? (·.setWidth 7) 0 calls
  have speed : (calls.foldl write .fresh).speed = speedCode (latest step? 0 calls) := by
    rw [speed_run]
    exact latest_map step? speedCode 0 calls
  have direction : (calls.foldl write .fresh).direction = decide (latest direction? 0 calls ≠ 0) := by
    rw [direction_run]
    exact latest_map direction? (fun d => decide (d ≠ 0)) 0 calls
  rw [written_packet]
  refine ⟨?_, ?_, ?_, fun completes => ?_⟩
  · have low : ∀ a : Byte, ((a.setWidth 7).setWidth 8).toNat = a.toNat % 128 := by decide
    rw [getAddress_packet, Fields.addressByte, address]
    exact low _
  · rw [getSpeedStep_packet, speed, stepOf_speedCode]
  · rw [getDirection_packet, direction]
    simp only [decide_eq_true_eq]
  · have low : ∀ a : Byte, (a.setWidth 7).setWidth 8 = a % 128 := by decide
    have code : ∀ step < maxSpeedSteps,
        ((speedSteps.getD step 0).setWidth 5).setWidth 8 = speedSteps.getD step 0 := by decide
    rw [frame_run completes, address, speed, direction, bits_frame]
    have first : (frame ((latest address? 0 calls).setWidth 7) (decide (latest direction? 0 calls ≠ 0))
        (speedCode (latest step? 0 calls))).addressByte = latest address? 0 calls % 128 := low _
    have second : (frame ((latest address? 0 calls).setWidth 7) (decide (latest direction? 0 calls ≠ 0))
        (speedCode (latest step? 0 calls))).instruction =
          0x40 ||| (if latest direction? 0 calls ≠ 0 then 0x20 else 0x00) |||
            speedSteps.getD (latest step? 0 calls % maxSpeedSteps) 0 := by
      rw [← code _ (Nat.mod_lt _ (by decide))]
      simp only [frame, Fields.instruction, bit, speedCode, decide_eq_true_eq]
    rw [first, second]

def shuffled : List Setter :=
  [.checksum, .packetEnd, .address 200, .direction 5, .preamble, .speed 3, .speed 30,
    .speedDirectionPreamble, .checksum]

theorem setters_independent_shuffled : (written shuffled).bits = baselineFrame 72 0x62 := by
  have completes : Completes shuffled :=
    ⟨by decide, by decide, by decide, shuffled.dropLast, [], rfl, by simp⟩
  exact (setters_independent shuffled).2.2.2 completes

end Setter
end Freedcc.Dcc
