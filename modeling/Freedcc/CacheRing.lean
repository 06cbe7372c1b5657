import Freedcc.CacheConsistency
import Freedcc.SchedulerProofs

/-! The count of the address ring against the slots of the packet table. They
are changed by different modules and stay equal in every history, overloaded or
not: a new address takes one place in each, and every other update takes neither. -/
namespace Freedcc.Cache
open Dcc OpenAddressing

def occupied (cache : Cache) : Nat := cache.packets.entries.countP fun entry => entry.v.isSome

/-- The ring that a call hands to `Ring_push`, if it does. -/
def pushesOn (cache : Cache) : Call → Option (Ring Int cacheAddrSize)
  | .update packet => if cache.get (address packet) = none then some cache.addresses else none
  | .getNextPacket => if cache.addresses.count ≤ 0 then none else some cache.addresses.pop.2
  | .clear => none

/-- What the ring and the two report functions promise of a state. -/
structure Accounted (cache : Cache) : Prop where
  counts : cache.reportCurrentSize = cache.occupied
  bounded : cache.reportCurrentSize ≤ reportTotalSize
  room : ∀ c ring, cache.pushesOn c = some ring → ring.count < cacheAddrSize
  served : cache.getNextPacket.1 = none ↔ cache.reportCurrentSize = 0

/-- The calls push where `pushesOn` says and nowhere else. -/
theorem call_addresses (h : History) (c : Call) : (h.call c).1.cache.addresses =
    match c with
    | .update packet => ((h.cache.pushesOn c).map (·.push (address packet))).getD h.cache.addresses
    | .getNextPacket =>
      ((h.cache.pushesOn c).map (·.push h.cache.addresses.pop.1)).getD h.cache.addresses
    | .clear => h.cache.addresses.reset := by
  cases c with
  | update packet =>
    by_cases unseen : h.cache.get (address packet) = none
    · simp only [pushesOn, if_pos unseen]
      exact update_addresses_new h.cache packet h.trace unseen
    · simp only [pushesOn, if_neg unseen]
      exact update_addresses_known h.cache packet h.trace unseen
  | getNextPacket =>
    by_cases empty : h.cache.addresses.count ≤ 0
    · simp only [pushesOn, if_pos empty, History.call, Cache.getNextPacket]
      rfl
    · simp only [pushesOn, if_neg empty, History.call, Cache.getNextPacket]
      rfl
  | clear => rfl

theorem occupied_eq (cache : Cache) : cache.occupied = cache.occupants.length := by
  rw [occupied, occupants, Hash.values, List.length_filterMap_eq_countP, Vector.countP_toList]

variable {cache : Cache}

theorem occupied_of_empty (table : cache.packets.table = fun _ => none) : cache.occupied = 0 := by
  rw [occupied_eq, occupants_of_empty table, List.length_nil]

/-- A new address takes a slot; any other update overwrites one. -/
theorem occupied_update (cache : Cache) (packet : PacketRef) (trace : Trace) :
    (cache.update packet trace).1.occupied + (cache.get (address packet)).toList.length =
      cache.occupied + 1 := by
  have traded := (update_occupants cache packet trace).length_eq
  simpa only [List.length_append, List.length_singleton, ← occupied_eq] using traded

theorem update_counts (counts : cache.addresses.count = cache.occupied) (packet : PacketRef)
    (trace : Trace) : (cache.update packet trace).1.addresses.count =
      (cache.update packet trace).1.occupied := by
  have traded := occupied_update cache packet trace
  cases seen : cache.get (address packet) with
  | none =>
    rw [update_addresses_new cache packet trace seen, Ring.count_push, counts]
    simpa only [seen, Option.toList_none, List.length_nil, Nat.add_zero] using traded.symm
  | some old =>
    have known : cache.get (address packet) ≠ none := by simp [seen]
    rw [update_addresses_known cache packet trace known, counts]
    simp only [seen, Option.toList_some, List.length_singleton] at traded
    omega

theorem Valid.turn_counts (valid : Valid cache) :
    cache.getNextPacket.2.addresses.count = cache.addresses.count := by
  have turned := (getNextPacket_perm valid.bounded).length_eq
  simpa only [Ring.contents_length] using turned

/-- Valid, and as many addresses as occupied slots. -/
def Balanced (cache : Cache) : Prop := Valid cache ∧ cache.addresses.count = cache.occupied

theorem Balanced.call {h : History} (balanced : Balanced h.cache) (c : Call) :
    Balanced (h.call c).1.cache := by
  obtain ⟨valid, counts⟩ := balanced
  refine ⟨valid.call c, ?_⟩
  cases c with
  | update packet => exact update_counts counts packet h.trace
  | getNextPacket =>
    change h.cache.getNextPacket.2.addresses.count = h.cache.getNextPacket.2.occupied
    rw [valid.turn_counts, counts, occupied_eq, occupied_eq, occupants_turn]
  | clear => exact (occupied_of_empty (clear_table h.cache h.trace)).symm

theorem balanced_moduleInit (buf : Vector Int cacheAddrSize)
    (memory : Vector (Hash.Entry Int PacketRef) cacheAddrSize) : Balanced (moduleInit buf memory) :=
  ⟨valid_moduleInit buf memory, (occupied_of_empty (Hash.table_create memory)).symm⟩

/-- A pending address is answered: in a full table every probe ends on a packet,
and in one with room every address of the ring is a key. -/
theorem Valid.served (valid : Valid cache) (pending : 0 < cache.addresses.count) :
    cache.getNextPacket.1 ≠ none := by
  have split := Ring.contents_pop cache.addresses pending
  have member : cache.addresses.pop.1 ∈ cache.addresses.contents := split ▸ List.mem_cons_self
  rw [(getNextPacket_turn valid.bounded split).1, ne_eq, valid.get_eq_none (valid.nonneg member)]
  rintro ⟨absent, room⟩
  exact absent (((valid.agree.resolve_left room) _).mp member)

theorem Valid.pushes (valid : Valid cache) (c : Call) (pushed : cache.pushesOn c = some ring) :
    ring.count < cacheAddrSize := by
  cases c with
  | update packet =>
    by_cases unseen : cache.get (address packet) = none
    · simp only [pushesOn, if_pos unseen, Option.some.injEq] at pushed
      subst ring
      exact valid.room ((valid.get_eq_none (address_nonneg packet)).mp unseen).2
    · simp only [pushesOn, if_neg unseen, reduceCtorEq] at pushed
  | getNextPacket =>
    by_cases empty : cache.addresses.count ≤ 0
    · simp only [pushesOn, if_pos empty, reduceCtorEq] at pushed
    · simp only [pushesOn, if_neg empty, Option.some.injEq] at pushed
      subst ring
      have bound := valid.bounded
      change cache.addresses.count - 1 < cacheAddrSize
      omega
  | clear => simp only [pushesOn, reduceCtorEq] at pushed

theorem Balanced.accounted (balanced : Balanced cache) : Accounted cache := by
  obtain ⟨valid, counts⟩ := balanced
  refine ⟨counts, valid.bounded, fun c ring pushed => valid.pushes c pushed, ?_⟩
  constructor
  · intro nothing
    by_contra pending
    exact valid.served (Nat.pos_of_ne_zero pending) nothing
  · intro empty
    rw [getNextPacket_empty empty]

/-- In every state of every history the ring counts the occupied slots, has room
wherever it is pushed on, and comes up with a packet unless it is empty. -/
theorem ring_counts_slots (buf : Vector Int cacheAddrSize)
    (memory : Vector (Hash.Entry Int PacketRef) cacheAddrSize) (calls : List Call) :
    Run.Always History.call (fun h => Accounted h.cache) (History.start buf memory) calls := by
  have balanced : Run.Always History.call (fun h => Balanced h.cache) (History.start buf memory)
      calls :=
    Run.always_of_invariant (fun h c balanced => balanced.call c) (balanced_moduleInit buf memory)
  exact balanced.mono fun h => Balanced.accounted

end Freedcc.Cache
