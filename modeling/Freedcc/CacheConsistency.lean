import Freedcc.CacheProofs
import Freedcc.Lib.Run

/-! Ring and table of the cache over whole histories of calls. They agree exactly
as long as no more than CACHE_ADDR_SIZE addresses are updated between clears:
one more displaces an entry whose address stays in the ring, while its own
address never enters it. -/
namespace Freedcc.Cache
open Dcc OpenAddressing

inductive Call where
  | update (packet : PacketRef)
  | getNextPacket
  | clear

/-- The cache, with a record of what was given to it since the last clear. -/
structure History where
  cache : Cache
  trace : Trace
  seen : List Int
  latest : Int → Option PacketRef

def History.call (h : History) : Call → History × List Unit
  | .update packet =>
    let result := h.cache.update packet h.trace
    ({ cache := result.1
       trace := result.2
       seen := address packet :: h.seen
       latest := Function.update h.latest (address packet) (some packet) }, [])
  | .getNextPacket => ({ h with cache := h.cache.getNextPacket.2 }, [])
  | .clear =>
    let result := h.cache.clear h.trace
    ({ cache := result.1, trace := result.2, seen := [], latest := fun _ => none }, [])

def History.start (buf : Vector Int cacheAddrSize)
    (memory : Vector (Hash.Entry Int PacketRef) cacheAddrSize) : History :=
  { cache := moduleInit buf memory, trace := [], seen := [], latest := fun _ => none }

/-- Whatever is called, what holds of every reachable cache still holds. -/
theorem Valid.call {h : History} (valid : Valid h.cache) (c : Call) : Valid (h.call c).1.cache := by
  cases c with
  | update packet => exact valid.update packet h.trace
  | getNextPacket => exact valid.getNextPacket
  | clear => exact valid_clear h.cache h.trace

/-- `count` further calls of `Cache_get_next_packet`, and what they return. -/
def turns : Nat → Cache → List (Option PacketRef)
  | 0, _ => []
  | count + 1, cache => cache.getNextPacket.1 :: turns count cache.getNextPacket.2

/-- Ring and table agree, and the refresh serves each loco its own latest packet. -/
structure History.Consistent (h : History) : Prop where
  distinct : h.cache.addresses.contents.Nodup
  keys : ∀ key, key ∈ h.cache.addresses.contents ↔ Present h.cache.packets.table key
  own : ∀ key rest packet, h.cache.addresses.contents = key :: rest →
    h.cache.getNextPacket.1 = some packet → address packet = key ∧ h.latest key = some packet
  served : ∀ key packet, Holds h.cache.packets.table key packet →
    some packet ∈ turns h.cache.addresses.count h.cache

/-- At most CACHE_ADDR_SIZE addresses since the last clear. -/
def History.Fits (h : History) : Prop := h.seen.toFinset.card ≤ cacheAddrSize

structure History.Tracked (h : History) (rota : List (Int × PacketRef)) : Prop where
  tracks : Tracks h.cache rota
  seen : ∀ key, key ∈ h.seen ↔ key ∈ Rotation.keys rota
  latest : ∀ key packet, (key, packet) ∈ rota → h.latest key = some packet

theorem Tracks.turns (tracks : Tracks cache rota) (split : rota = front ++ back) :
    Cache.turns front.length cache = front.map fun pair => some pair.2 := by
  induction front generalizing cache rota back with
  | nil => rfl
  | cons pair front ih =>
    subst split
    obtain ⟨served, next⟩ := tracks.getNextPacket
    obtain ⟨key, packet⟩ := pair
    have rest := ih next (show _ = front ++ (back ++ [(key, packet)]) by simp [Rotation.serve])
    simp only [List.length_cons, Cache.turns, List.map_cons, rest, served]
    rfl

namespace History
variable {h : History}

theorem Tracked.consistent (tracked : Tracked h rota) : h.Consistent := by
  have tracks := tracked.tracks
  refine ⟨tracks.valid.distinct, ?_, ?_, ?_⟩
  · intro key
    rw [tracks.ring, tracks.present]
  · intro key rest packet split returned
    obtain ⟨served, _⟩ := tracks.getNextPacket
    cases rota with
    | nil =>
      rw [tracks.ring] at split
      contradiction
    | cons pair others =>
      obtain ⟨k, p⟩ := pair
      rw [served] at returned
      obtain rfl : p = packet := Option.some.inj returned
      rw [tracks.ring] at split
      obtain rfl : k = key := (List.cons.inj split).1
      have stored := (tracks.table k p).mpr List.mem_cons_self
      exact ⟨(tracks.valid.keyed k p stored).symm, tracked.latest k p List.mem_cons_self⟩
  · intro key packet holds
    have member := (tracks.table key packet).mp holds
    have count : h.cache.addresses.count = rota.length := by
      rw [← Ring.contents_length, tracks.ring, Rotation.keys, List.length_map]
    rw [count, tracks.turns (List.append_nil rota).symm]
    exact List.mem_map.mpr ⟨_, member, rfl⟩

theorem Tracked.update (tracked : Tracked h rota) (packet : PacketRef)
    (kept : ¬ Full h.cache.packets.table ∨ Present h.cache.packets.table (address packet)) :
    Tracked (h.call (.update packet)).1 (Rotation.upsert (address packet) packet rota) := by
  refine ⟨tracked.tracks.update kept, ?_, ?_⟩
  · intro key
    rw [Rotation.mem_keys_upsert, ← tracked.seen]
    exact List.mem_cons
  · intro key value member
    rcases (Rotation.mem_upsert tracked.tracks.distinct).mp member with ⟨rfl, rfl⟩ | ⟨other, member⟩
    · simp [call]
    · simp only [call, Function.update_of_ne other]
      exact tracked.latest key value member

theorem Tracked.getNextPacket (tracked : Tracked h rota) :
    Tracked (h.call .getNextPacket).1 (Rotation.serve rota).2 := by
  refine ⟨tracked.tracks.getNextPacket.2, ?_, ?_⟩
  · intro key
    rw [Rotation.mem_keys_serve]
    exact tracked.seen key
  · intro key packet member
    exact tracked.latest key packet ((Rotation.serve_perm rota).mem_iff.mp member)

theorem Tracked.clear : Tracked (h.call .clear).1 [] :=
  ⟨tracks_of_empty (Ring.contents_reset _) (clear_table _ _), by simp [call, Rotation.keys], by simp⟩

theorem tracked_start (buf : Vector Int cacheAddrSize)
    (memory : Vector (Hash.Entry Int PacketRef) cacheAddrSize) : Tracked (start buf memory) [] :=
  ⟨tracks_of_empty (Ring.contents_create _ _) (Hash.table_create _),
    by simp [start, Rotation.keys], by simp⟩

/-- A displaced entry: the new address is stored and does not enter the ring. -/
theorem Tracked.displaced (tracked : Tracked h rota) (packet : PacketRef)
    (full : Full h.cache.packets.table) (absent : ¬ Present h.cache.packets.table (address packet)) :
    ¬ (h.call (.update packet)).1.Consistent := by
  intro consistent
  have valid := tracked.tracks.valid
  have seen : h.cache.get (address packet) ≠ none := fun unseen =>
    ((valid.get_eq_none (address_nonneg packet)).mp unseen).2 full
  have stored : Present (h.call (.update packet)).1.cache.packets.table (address packet) := by
    refine ⟨packet, locate order h.cache.packets.table (address packet), ?_⟩
    simp only [call, update_table, insert_located]
  have member := (consistent.keys _).mpr stored
  simp only [call, update_addresses_known _ _ _ seen] at member
  rw [tracked.tracks.ring, ← tracked.tracks.present] at member
  exact absent member

theorem Tracked.fits (tracked : Tracked h rota) : h.Fits := by
  rw [Fits, tracked.tracks.card tracked.seen]
  exact tracked.tracks.length_le

/-- From a tracked history, staying consistent and staying within the bound are the same. -/
theorem Tracked.consistent_iff (tracked : Tracked h rota) (calls : List Call) :
    Run.Always call Consistent h calls ↔ Run.Always call Fits h calls := by
  have fits := tracked.fits
  induction calls generalizing h rota with
  | nil => simp only [Run.always_nil, tracked.consistent, fits]
  | cons c rest ih =>
    rw [Run.always_cons, Run.always_cons, and_iff_right tracked.consistent, and_iff_right fits]
    cases c with
    | update packet =>
      by_cases kept : ¬ Full h.cache.packets.table ∨ Present h.cache.packets.table (address packet)
      · have next := tracked.update packet kept
        exact ih next next.fits
      · have displaced := tracked.displaced packet (by tauto) (by tauto)
        have crowded := mt (tracked.tracks.kept_iff tracked.seen packet).mp kept
        exact iff_of_false (fun all => displaced all.first) (fun all => crowded all.first)
    | getNextPacket =>
      have next := tracked.getNextPacket
      exact ih next next.fits
    | clear =>
      have next : Tracked (h.call .clear).1 [] := Tracked.clear
      exact ih next next.fits

end History

/-- Ring and table of the cache stay consistent over a history of calls if and
only if the history never updates more addresses than there are slots between
two clears. -/
theorem cache_consistent_iff (buf : Vector Int cacheAddrSize)
    (memory : Vector (Hash.Entry Int PacketRef) cacheAddrSize) (calls : List Call) :
    Run.Always History.call History.Consistent (History.start buf memory) calls ↔
      Run.Always History.call History.Fits (History.start buf memory) calls :=
  (History.tracked_start buf memory).consistent_iff calls

def crowd : List Call :=
  (List.range 21).map fun n =>
    .update ⟨n, setAddress baselinePacketCreate (BitVec.ofNat 8 n)⟩

/-- The twenty-first address is stored in the table and missing from the ring. -/
theorem cache_inconsistent_crowd :
    ¬ Run.Always History.call History.Consistent
      (History.start (Vector.replicate _ 0) (Vector.replicate _ ⟨0, none⟩)) crowd := by
  intro all
  have stored : (Run.final History.call (History.start (Vector.replicate _ 0)
      (Vector.replicate _ ⟨0, none⟩)) crowd).cache.packets.table 19 =
        some (20, ⟨20, setAddress baselinePacketCreate 20⟩) := by decide +kernel
  have missing : (20 : Int) ∉ (Run.final History.call (History.start (Vector.replicate _ 0)
      (Vector.replicate _ ⟨0, none⟩)) crowd).cache.addresses.contents := by decide +kernel
  exact missing ((all.last.keys 20).mpr ⟨_, 19, stored⟩)

end Freedcc.Cache
