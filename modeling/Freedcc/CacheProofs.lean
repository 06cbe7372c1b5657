import Freedcc.Cache
import Freedcc.Lib.Rotation
import Mathlib.Data.List.Dedup

/-! What the cache keeps over every history, overloaded or not, and the rota it
implements as long as no entry has been displaced. -/
namespace Freedcc.Cache
open Dcc OpenAddressing

abbrev order : Int → Fin cacheAddrSize × List (Fin cacheAddrSize) :=
  linear (Hash.home callbacks cacheAddrSize_pos)

theorem callbacks_decides : callbacks.Decides := by
  intro a b
  simp only [callbacks, hashKeyCmp]
  split <;> simp_all

theorem address_nonneg (packet : PacketRef) : 0 ≤ callbacks.lookup (address packet) := by
  simp [callbacks, hashLookup, address]

theorem order_nodup (key : Int) : (probes order key).Nodup := linear_nodup _ key

theorem order_covers (key : Int) (s : Fin cacheAddrSize) : s ∈ probes order key :=
  linear_covers _ key s

/-- Facts of every reachable cache. Entries sit where their own address is
found. Either the table is full, when lookups stop telling old from new, or the
ring holds exactly the keys of the table. -/
structure Valid (cache : Cache) : Prop where
  settled : Settled order cache.packets.table
  keyed : ∀ key packet, Holds cache.packets.table key packet → key = address packet
  distinct : cache.addresses.contents.Nodup
  bounded : cache.addresses.count ≤ cacheAddrSize
  addressed : ∀ key ∈ cache.addresses.contents, ∃ packet, key = address packet
  agree : Full cache.packets.table ∨
    ∀ key, key ∈ cache.addresses.contents ↔ Present cache.packets.table key

variable {cache : Cache}

theorem Valid.nonneg (valid : Valid cache) (member : key ∈ cache.addresses.contents) :
    0 ≤ callbacks.lookup key := by
  obtain ⟨packet, rfl⟩ := valid.addressed key member
  exact address_nonneg packet

theorem get_eq (cache : Cache) (inside : 0 ≤ callbacks.lookup key) :
    cache.get key = (cache.packets.table (locate order cache.packets.table key)).map Prod.snd :=
  Hash.get_eq callbacks_decides _ _ inside

theorem Valid.get_present (valid : Valid cache) (holds : Holds cache.packets.table key packet) :
    cache.get key = some packet := by
  obtain ⟨s, stored⟩ := holds
  have inside := valid.keyed key packet ⟨s, stored⟩ ▸ address_nonneg packet
  rw [get_eq cache inside, valid.settled.located stored]
  rfl

/-- "Not seen yet", as `Cache_update` tests it. -/
theorem Valid.get_eq_none (valid : Valid cache) (inside : 0 ≤ callbacks.lookup key) :
    cache.get key = none ↔ ¬ Present cache.packets.table key ∧ ¬ Full cache.packets.table := by
  rw [get_eq cache inside, Option.map_eq_none_iff]
  constructor
  · intro free
    refine ⟨?_, fun full => full _ free⟩
    rintro ⟨value, s, stored⟩
    rw [valid.settled.located stored] at free
    contradiction
  · rintro ⟨absent, room⟩
    exact locate_free (order_covers key) absent room

/-- A table with room has room in the ring for one more address. -/
theorem Valid.room (valid : Valid cache) (room : ¬ Full cache.packets.table) :
    cache.addresses.count < cacheAddrSize := by
  have bound := valid.settled.length_lt room valid.distinct
    (fun key member => ((valid.agree.resolve_left room) key).mp member)
  simpa using bound

section Update
variable (cache) (packet : PacketRef) (trace : Trace)

theorem update_table : (cache.update packet trace).1.packets.table =
    OpenAddressing.insert order cache.packets.table (address packet) packet :=
  Hash.table_insert callbacks_decides (by decide) _ (address_nonneg packet) _ _

theorem update_addresses_new (unseen : cache.get (address packet) = none) :
    (cache.update packet trace).1.addresses = cache.addresses.push (address packet) := by
  simp only [get] at unseen
  simp only [update, unseen]

theorem update_addresses_known (seen : cache.get (address packet) ≠ none) :
    (cache.update packet trace).1.addresses = cache.addresses := by
  obtain ⟨old, found⟩ := Option.ne_none_iff_exists'.mp seen
  simp only [get] at found
  simp only [update, found]

end Update

theorem keyed_insert (keyed : ∀ key packet, Holds t key packet → key = address packet)
    (packet : PacketRef) : ∀ key value,
      Holds (OpenAddressing.insert order t (address packet) packet) key value → key = address value := by
  rintro key value ⟨s, stored⟩
  by_cases same : s = locate order t (address packet)
  · subst s
    rw [insert_located, Option.some.injEq, Prod.mk.injEq] at stored
    rw [← stored.1, ← stored.2]
  · rw [insert_elsewhere _ same] at stored
    exact keyed key value ⟨s, stored⟩

/-- With the key already stored, or with room for it, storing adds exactly that key. -/
theorem Valid.present_insert (valid : Valid cache)
    (kept : ¬ Full cache.packets.table ∨ Present cache.packets.table (address packet)) (key : Int) :
    Present (OpenAddressing.insert order cache.packets.table (address packet) packet) key ↔
      key = address packet ∨ Present cache.packets.table key := by
  simp only [Present, valid.settled.holds_insert kept (order_covers _)]
  constructor
  · rintro ⟨value, ⟨same, _⟩ | ⟨_, holds⟩⟩
    · exact Or.inl same
    · exact Or.inr ⟨value, holds⟩
  · rintro (same | ⟨value, holds⟩)
    · exact ⟨packet, Or.inl ⟨same, rfl⟩⟩
    · by_cases same : key = address packet
      · exact ⟨packet, Or.inl ⟨same, rfl⟩⟩
      · exact ⟨value, Or.inr ⟨same, holds⟩⟩

theorem Valid.update (valid : Valid cache) (packet : PacketRef) (trace : Trace) :
    Valid (cache.update packet trace).1 := by
  have inside := address_nonneg packet
  have settled := valid.settled.insert (order_nodup (address packet)) packet
  have keyed := keyed_insert valid.keyed packet
  by_cases unseen : cache.get (address packet) = none
  · -- a new address joins the ring and takes a free slot
    obtain ⟨absent, room⟩ := (valid.get_eq_none inside).mp unseen
    have agree := valid.agree.resolve_left room
    have fresh : address packet ∉ cache.addresses.contents := fun member => absent ((agree _).mp member)
    have contents : (cache.update packet trace).1.addresses.contents =
        cache.addresses.contents ++ [address packet] := by
      rw [update_addresses_new cache packet trace unseen, Ring.contents_push _ _ (valid.room room)]
    refine ⟨?_, ?_, ?_, ?_, ?_, Or.inr ?_⟩
    · rwa [update_table]
    · rwa [update_table]
    · rw [contents, List.nodup_append]
      refine ⟨valid.distinct, List.nodup_singleton _, ?_⟩
      rintro a member b single rfl
      exact fresh (List.mem_singleton.mp single ▸ member)
    · rw [update_addresses_new cache packet trace unseen]
      exact valid.room room
    · intro key member
      rw [contents, List.mem_append, List.mem_singleton] at member
      rcases member with member | rfl
      · exact valid.addressed key member
      · exact ⟨packet, rfl⟩
    · intro key
      rw [contents, update_table, valid.present_insert (Or.inl room), List.mem_append,
        List.mem_singleton, agree key, or_comm]
  · -- the ring stays: the key is stored already, or the table is full
    have same := update_addresses_known cache packet trace unseen
    constructor
    · rwa [update_table]
    · rwa [update_table]
    · rw [same]
      exact valid.distinct
    · rw [same]
      exact valid.bounded
    · rw [same]
      exact valid.addressed
    · rw [same, update_table]
      by_cases full : Full cache.packets.table
      · exact Or.inl (insert_full full)
      · have present : Present cache.packets.table (address packet) := by
          by_contra absent
          exact unseen ((valid.get_eq_none inside).mpr ⟨absent, full⟩)
        refine Or.inr fun key => ?_
        rw [valid.present_insert (Or.inr present), (valid.agree.resolve_left full) key]
        constructor
        · exact Or.inr
        · rintro (rfl | stored)
          · exact present
          · exact stored

section GetNext

theorem getNextPacket_empty (empty : cache.addresses.count = 0) :
    cache.getNextPacket = (none, cache) := by
  simp [getNextPacket, empty]

theorem getNextPacket_packets (cache : Cache) : cache.getNextPacket.2.packets = cache.packets := by
  unfold getNextPacket
  split <;> rfl

/-- A turn of the ring: the head is looked up and moved to the end. -/
theorem getNextPacket_turn (within : cache.addresses.count ≤ cacheAddrSize)
    (split : cache.addresses.contents = key :: rest) :
    cache.getNextPacket.1 = cache.get key ∧
      cache.getNextPacket.2.addresses.contents = rest ++ [key] ∧
      cache.getNextPacket.2.addresses.count = cache.addresses.count := by
  have pending : 0 < cache.addresses.count := by
    rw [← Ring.contents_length, split]
    exact Nat.succ_pos _
  have popped := Ring.contents_pop cache.addresses pending
  rw [split, List.cons.injEq] at popped
  obtain ⟨head, tail⟩ := popped
  have room : cache.addresses.pop.2.count < cacheAddrSize := by
    change cache.addresses.count - 1 < cacheAddrSize
    omega
  have turned := Ring.contents_push cache.addresses.pop.2 cache.addresses.pop.1 room
  simp only [getNextPacket, Nat.not_le.mpr pending, if_false]
  refine ⟨by rw [head]; rfl, by rw [turned, ← head, ← tail], ?_⟩
  change cache.addresses.count - 1 + 1 = cache.addresses.count
  omega

theorem getNextPacket_perm (within : cache.addresses.count ≤ cacheAddrSize) :
    cache.getNextPacket.2.addresses.contents.Perm cache.addresses.contents := by
  cases split : cache.addresses.contents with
  | nil => rw [getNextPacket_empty ((Ring.contents_eq_nil _).mp split), split]
  | cons key rest =>
    rw [(getNextPacket_turn within split).2.1]
    exact List.perm_append_singleton key rest

theorem Valid.getNextPacket (valid : Valid cache) : Valid cache.getNextPacket.2 := by
  have turned := getNextPacket_perm valid.bounded
  have packets := getNextPacket_packets cache
  refine ⟨?_, ?_, turned.nodup_iff.mpr valid.distinct, ?_, ?_, ?_⟩
  · rw [packets]
    exact valid.settled
  · rw [packets]
    exact valid.keyed
  · rw [← Ring.contents_length, turned.length_eq, Ring.contents_length]
    exact valid.bounded
  · intro key member
    exact valid.addressed key (turned.mem_iff.mp member)
  · rw [packets]
    refine valid.agree.imp_right fun agree key => ?_
    rw [turned.mem_iff, agree]

end GetNext

theorem absent_empty (key : Int) :
    ¬ Present (fun _ => none : Table (Fin cacheAddrSize) Int PacketRef) key := by
  rintro ⟨value, s, stored⟩
  contradiction

theorem valid_of_empty (ring : cache.addresses.contents = [])
    (table : cache.packets.table = fun _ => none) : Valid cache := by
  refine ⟨?_, ?_, ?_, ?_, ?_, Or.inr ?_⟩
  · rw [table]
    exact settled_empty
  · rw [table]
    rintro key packet ⟨s, stored⟩
    contradiction
  · rw [ring]
    exact List.nodup_nil
  · rw [(Ring.contents_eq_nil _).mp ring]
    exact Nat.zero_le _
  · rw [ring]
    simp
  · intro key
    rw [ring, table]
    simp [absent_empty]

theorem clear_table (cache : Cache) (trace : Trace) :
    (cache.clear trace).1.packets.table = fun _ => none := by
  simp only [clear, Hash.table_reset]

theorem valid_clear (cache : Cache) (trace : Trace) : Valid (cache.clear trace).1 :=
  valid_of_empty (Ring.contents_reset _) (clear_table cache trace)

theorem valid_moduleInit (buf : Vector Int cacheAddrSize)
    (memory : Vector (Hash.Entry Int PacketRef) cacheAddrSize) : Valid (moduleInit buf memory) :=
  valid_of_empty (Ring.contents_create _ _) (Hash.table_create memory)

/-! The rota of a cache none of whose entries has been displaced. -/

structure Tracks (cache : Cache) (rota : List (Int × PacketRef)) : Prop where
  valid : Valid cache
  ring : cache.addresses.contents = Rotation.keys rota
  table : ∀ key packet, Holds cache.packets.table key packet ↔ (key, packet) ∈ rota

theorem Tracks.distinct (tracks : Tracks cache rota) : (Rotation.keys rota).Nodup :=
  tracks.ring ▸ tracks.valid.distinct

theorem Tracks.present (tracks : Tracks cache rota) :
    Present cache.packets.table key ↔ key ∈ Rotation.keys rota := by
  simp [Present, tracks.table, Rotation.keys]

theorem tracks_of_empty (ring : cache.addresses.contents = [])
    (table : cache.packets.table = fun _ => none) : Tracks cache [] := by
  refine ⟨valid_of_empty ring table, ring, ?_⟩
  rw [table]
  simp [Holds]

theorem Tracks.update (tracks : Tracks cache rota)
    (kept : ¬ Full cache.packets.table ∨ Present cache.packets.table (address packet)) :
    Tracks (cache.update packet trace).1 (Rotation.upsert (address packet) packet rota) := by
  have valid := tracks.valid
  refine ⟨valid.update packet trace, ?_, ?_⟩
  · rw [Rotation.keys_upsert, ← tracks.ring]
    by_cases unseen : cache.get (address packet) = none
    · obtain ⟨absent, room⟩ := (valid.get_eq_none (address_nonneg packet)).mp unseen
      have fresh : address packet ∉ cache.addresses.contents := by
        rw [tracks.ring, ← tracks.present]
        exact absent
      rw [if_neg fresh, update_addresses_new cache packet trace unseen,
        Ring.contents_push _ _ (valid.room room)]
    · have known : address packet ∈ cache.addresses.contents := by
        rw [tracks.ring, ← tracks.present]
        by_contra absent
        have room := kept.resolve_right absent
        exact unseen ((valid.get_eq_none (address_nonneg packet)).mpr ⟨absent, room⟩)
      rw [if_pos known, update_addresses_known cache packet trace unseen]
  · intro key value
    rw [update_table, valid.settled.holds_insert kept (order_covers _),
      Rotation.mem_upsert tracks.distinct, tracks.table]

theorem Tracks.getNextPacket (tracks : Tracks cache rota) :
    cache.getNextPacket.1 = (Rotation.serve rota).1 ∧
      Tracks cache.getNextPacket.2 (Rotation.serve rota).2 := by
  have valid := tracks.valid.getNextPacket
  have same := getNextPacket_packets cache
  cases rota with
  | nil =>
    have empty := (Ring.contents_eq_nil _).mp tracks.ring
    rw [getNextPacket_empty empty]
    exact ⟨rfl, tracks⟩
  | cons pair rest =>
    obtain ⟨key, packet⟩ := pair
    obtain ⟨served, turned, _⟩ := getNextPacket_turn tracks.valid.bounded tracks.ring
    refine ⟨?_, valid, ?_, ?_⟩
    · rw [served, tracks.valid.get_present ((tracks.table key packet).mpr List.mem_cons_self)]
      rfl
    · rw [turned]
      simp [Rotation.serve, Rotation.keys]
    · intro k p
      rw [same, tracks.table, (Rotation.serve_perm _).mem_iff]

theorem Tracks.card {seen : List Int} (tracks : Tracks cache rota)
    (same : ∀ key, key ∈ seen ↔ key ∈ Rotation.keys rota) : seen.toFinset.card = rota.length := by
  have keys : seen.toFinset = (Rotation.keys rota).toFinset := by
    ext key
    simp only [List.mem_toFinset, same]
  rw [keys, List.toFinset_card_of_nodup tracks.distinct, Rotation.keys, List.length_map]

theorem Tracks.length_le (tracks : Tracks cache rota) : rota.length ≤ cacheAddrSize := by
  have bound := tracks.valid.bounded
  rwa [← Ring.contents_length, tracks.ring, Rotation.keys, List.length_map] at bound

/-- An update displaces nothing exactly when it leaves the addresses seen within
the size of the table. -/
theorem Tracks.kept_iff {seen : List Int} (tracks : Tracks cache rota)
    (same : ∀ key, key ∈ seen ↔ key ∈ Rotation.keys rota) (packet : PacketRef) :
    (address packet :: seen).toFinset.card ≤ cacheAddrSize ↔
      ¬ Full cache.packets.table ∨ Present cache.packets.table (address packet) := by
  have valid := tracks.valid
  have known : address packet ∈ seen.toFinset ↔
      Present cache.packets.table (address packet) := by
    rw [List.mem_toFinset, same, tracks.present]
  rw [List.toFinset_cons]
  by_cases present : Present cache.packets.table (address packet)
  · rw [Finset.insert_eq_of_mem (known.mpr present), tracks.card same]
    exact iff_of_true tracks.length_le (Or.inr present)
  · rw [Finset.card_insert_of_notMem (mt known.mp present), tracks.card same]
    constructor
    · intro bound
      refine Or.inl fun full => ?_
      have slots := valid.settled.card_le full (Rotation.keys rota).toFinset
        (fun key stored => List.mem_toFinset.mpr (tracks.present.mp stored))
      rw [List.toFinset_card_of_nodup tracks.distinct, Rotation.keys, List.length_map,
        Fintype.card_fin] at slots
      omega
    · rintro (room | stored)
      · have bound := valid.room room
        rw [← Ring.contents_length, tracks.ring, Rotation.keys, List.length_map] at bound
        omega
      · exact False.elim (present stored)

end Freedcc.Cache
