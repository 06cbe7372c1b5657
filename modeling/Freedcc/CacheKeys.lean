import Freedcc.CacheConsistency
import Freedcc.SchedulerProofs
import Mathlib.Tactic.IntervalCases

/-! The key a packet is cached under against the address byte it carries. Twelve
preamble bits, a start bit and the byte after it: its top three bits end byte 1,
the others begin byte 2. `DCC_get_address` masks two of the three. -/
namespace Freedcc.Dcc

def firstByte (packet : Packet) : Byte :=
  ((packet.byte 1 &&& 0x07) <<< 5) ||| (packet.byte 2 >>> 3)

/-- Begins with the preamble and the start bit. -/
def Addressed (packet : Packet) : Prop :=
  5 ≤ packet.size ∧ packet.byte 0 = 0xFF ∧ packet.byte 1 &&& 0xF8 = 0xF0

instance (packet : Packet) : Decidable (Addressed packet) :=
  inferInstanceAs (Decidable (_ ∧ _ ∧ _))

/-- The top bit of the byte is lost. -/
theorem getAddress_eq (packet : Packet) : getAddress packet = firstByte packet &&& 0x7F := by
  simp only [getAddress, firstByte, maskAddress1, maskAddress2]
  apply BitVec.eq_of_getLsbD_eq
  intro i bound
  interval_cases i <;> simp

end Freedcc.Dcc

namespace Freedcc.Cache
open Dcc OpenAddressing

def HasRoom (cache : Cache) : Prop := ∃ entry ∈ cache.packets.entries, entry.v = none

theorem HasRoom.not_full {cache : Cache} (room : cache.HasRoom) : ¬ Full cache.packets.table := by
  obtain ⟨entry, member, free⟩ := room
  obtain ⟨i, bound, rfl⟩ := Vector.mem_iff_getElem.mp member
  exact fun full => full ⟨i, bound⟩ ((Hash.table_eq_none _).mpr free)

variable {cache : Cache}

/-- With room left a lookup answers for its own key only. -/
theorem Valid.own (valid : Valid cache) (room : ¬ Full cache.packets.table) {packet : PacketRef}
    (inside : 0 ≤ callbacks.lookup key) (found : cache.get key = some packet) :
    Holds cache.packets.table key packet := by
  have present : Present cache.packets.table key := by
    by_contra absent
    rw [(valid.get_eq_none inside).mpr ⟨absent, room⟩] at found
    contradiction
  obtain ⟨value, holds⟩ := present
  rw [valid.get_present holds] at found
  rwa [← Option.some.inj found]

/-- In every history, updating `other` where there is room leaves the cached
packet with the content `cached` where it is, and alive. -/
def Undisturbed (cached other : Packet) : Prop :=
  ∀ (buf : Vector Int cacheAddrSize) (memory : Vector (Hash.Entry Int PacketRef) cacheAddrSize)
    (calls : List Call) (p q : PacketRef), p.packet = cached → q.packet = other →
    let cache := (Run.final History.call (History.start buf memory) calls).cache
    cache.HasRoom → cache.get (address p) = some p →
      (cache.update q []).1.get (address p) = some p ∧
        Event.packetDestroy p ∉ (cache.update q []).2

theorem Valid.undisturbed (valid : Valid cache) (room : ¬ Full cache.packets.table)
    {p q : PacketRef} (apart : address p ≠ address q) (found : cache.get (address p) = some p) :
    (cache.update q []).1.get (address p) = some p ∧
      Event.packetDestroy p ∉ (cache.update q []).2 := by
  have holds := valid.own room (address_nonneg p) found
  constructor
  · apply (valid.update q []).get_present
    rw [update_table, valid.settled.holds_insert (Or.inl room) (order_covers _)]
    exact Or.inr ⟨apart, holds⟩
  · rw [update_trace, List.nil_append]
    intro destroyed
    obtain ⟨old, member, same⟩ := List.mem_map.mp destroyed
    obtain rfl : old = p := Event.packetDestroy.inj same
    have other := valid.own room (address_nonneg q) (Option.mem_toList.mp member)
    exact apart (valid.keyed _ _ other).symm

theorem valid_final (buf : Vector Int cacheAddrSize)
    (memory : Vector (Hash.Entry Int PacketRef) cacheAddrSize) (calls : List Call) :
    Valid (Run.final History.call (History.start buf memory) calls).cache := by
  have all : Run.Always History.call (fun h => Valid h.cache) (History.start buf memory) calls :=
    Run.always_of_invariant (fun _ c valid => valid.call c) (valid_moduleInit buf memory)
  exact all.last

theorem address_eq_iff {p q : PacketRef} :
    address p = address q ↔ firstByte p.packet &&& 0x7F = firstByte q.packet &&& 0x7F := by
  rw [← getAddress_eq, ← getAddress_eq, address, address, Int.natCast_inj, BitVec.toNat_inj]

def single (packet : PacketRef) : Cache :=
  ((moduleInit (Vector.replicate _ 0) (Vector.replicate _ ⟨0, none⟩)).update packet []).1

theorem single_table (packet : PacketRef) : (single packet).packets.table =
    OpenAddressing.insert order (fun _ => none) (address packet) packet := by
  rw [single, update_table, moduleInit, Hash.table_create]

theorem single_hasRoom (packet : PacketRef) : (single packet).HasRoom := by
  obtain ⟨slot, apart⟩ :=
    exists_ne (locate order (fun _ => none : Table (Fin cacheAddrSize) Int PacketRef) (address packet))
  have free : (single packet).packets.table slot = none := by
    rw [single_table, insert_elsewhere packet apart]
  refine ⟨(single packet).packets.entries[slot], Vector.getElem_mem _, ?_⟩
  exact (Hash.table_eq_none _).mp free

theorem single_get (packet : PacketRef) : (single packet).get (address packet) = some packet := by
  have valid : Valid (single packet) := (valid_moduleInit _ _).update packet []
  apply valid.get_present
  rw [single_table]
  exact ⟨_, insert_located (address packet) packet⟩

/-- With one key for both, the first update destroys what the other stored. -/
theorem disturbed_of_same {a b : Packet} (same : firstByte a &&& 0x7F = firstByte b &&& 0x7F) :
    ¬ Undisturbed a b := by
  intro undisturbed
  have keys : address ⟨1, b⟩ = address ⟨0, a⟩ := address_eq_iff.mpr same.symm
  obtain ⟨-, alive⟩ := undisturbed (Vector.replicate _ 0) (Vector.replicate _ ⟨0, none⟩)
    [.update ⟨0, a⟩] ⟨0, a⟩ ⟨1, b⟩ rfl rfl (single_hasRoom ⟨0, a⟩) (single_get ⟨0, a⟩)
  apply alive
  change Event.packetDestroy ⟨0, a⟩ ∈ ((single ⟨0, a⟩).update ⟨1, b⟩ []).2
  rw [update_trace, keys, single_get]
  exact List.mem_singleton_self _

/-- Entries of two packets stay apart exactly when their address bytes differ
below the top bit. -/
theorem entries_apart_iff (a b : Packet) : Undisturbed a b ∧ Undisturbed b a ↔
    firstByte a &&& 0x7F ≠ firstByte b &&& 0x7F := by
  constructor
  · rintro ⟨first, -⟩ same
    exact disturbed_of_same same first
  · intro differ
    constructor
    · rintro buf memory calls p q rfl rfl cache room found
      exact (valid_final buf memory calls).undisturbed room.not_full
        (fun same => differ (address_eq_iff.mp same)) found
    · rintro buf memory calls p q rfl rfl cache room found
      exact (valid_final buf memory calls).undisturbed room.not_full
        (fun same => differ (address_eq_iff.mp same).symm) found

/-- The address byte 0x83 against that of loco 3. -/
theorem raw_displaces_loco :
    let loco : Packet := ⟨[0xFF, 0xF0, 0x19, 0xA0, 0xD7]⟩
    let raw : Packet := ⟨[0xFF, 0xF4, 0x19, 0xA0, 0xD7]⟩
    Addressed loco ∧ Addressed raw ∧ firstByte loco = 0x03 ∧ firstByte raw = 0x83 ∧
      ¬ Undisturbed loco raw := by
  refine ⟨by decide, by decide, by decide, by decide, ?_⟩
  exact disturbed_of_same (by decide)

end Freedcc.Cache
