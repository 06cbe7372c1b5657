import Freedcc.SchedulerProofs

/-! `cache clear` from the main loop, with the interrupt of TIMER0 between its
steps. `Cache_clear` empties the ring and then the slots of the table one after
the other; the interrupt may store a packet in a slot that is still to be emptied. -/
namespace Freedcc
open Dcc OpenAddressing

/-- `Cache_clear` under way, its first step done. -/
structure Clearing where
  scheduler : Scheduler
  /-- How many slots `Hash_reset` has been over. -/
  done : Nat

namespace Clearing

inductive Op where
  | tick
  | resetEntry
deriving DecidableEq, Repr

/-- After `Ring_reset`. -/
def start (s : Scheduler) : Clearing :=
  { scheduler := { s with cache := { s.cache with addresses := s.cache.addresses.reset } }, done := 0 }

/-- A tick, or one more iteration of the loop of `Hash_reset`, as long as there is one. -/
def step (c : Clearing) : Op → Clearing × List Event
  | .tick =>
    let next := Scheduler.step c.scheduler .tick
    ({ c with scheduler := next.1 }, next.2)
  | .resetEntry =>
    if inside : c.done < cacheAddrSize then
      let cache := c.scheduler.cache
      let reset := Hash.resetEntry Cache.callbacks (cache.packets, []) ⟨c.done, inside⟩
      ({ scheduler := { c.scheduler with cache := { cache with packets := reset.1 } }
         done := c.done + 1 }, reset.2)
    else (c, [])

end Clearing

namespace Cache

abbrev home (key : Int) : Fin cacheAddrSize := Hash.home callbacks cacheAddrSize_pos key

/-- The addresses in the ring are pairwise distinct, and are the keys of the occupied slots. -/
def Agrees (cache : Cache) : Prop :=
  cache.addresses.contents.Nodup ∧
    ∀ key, key ∈ cache.addresses.contents ↔
      ∃ slot : Fin cacheAddrSize, (cache.packets.entries.get slot).v.isSome ∧
        (cache.packets.entries.get slot).k = key

/-- Where a packet for `key` is stored, the loop of `Hash_reset` will leave it, and
nothing free between its home slot and there; or it replaces what the loop will
take away in any case, or a packet for the same loco. -/
def Stays (done : Nat) (packets : Hash Int PacketRef cacheAddrSize) (key : Int) : Prop :=
  ∃ slot, Hash.findEntry callbacks packets key = some slot ∧
    if (packets.entries.get slot).v.isSome then (packets.entries.get slot).k = key ∨ done ≤ slot.val
    else (home key).val ≤ slot.val ∧ slot.val < done

end Cache

namespace Clearing

/-- What the interrupt may do during the clear. -/
def Harmless (c : Clearing) : Op → Prop
  | .tick => c.done < cacheAddrSize → ∀ tx ∈ c.scheduler.txQueue.contents.head?,
      isBroadcastStop tx.packet = false →
        Cache.Stays c.done c.scheduler.cache.packets (Cache.address tx)
  | .resetEntry => True

/-- What the interrupt may do after it, when more packets come: the table has room
for a new loco. -/
def Roomy (s : Scheduler) : Scheduler.Op → Prop
  | .tick => ∀ tx ∈ s.txQueue.contents.head?, isBroadcastStop tx.packet = false →
      ¬ Full s.cache.packets.table ∨ Present s.cache.packets.table (Cache.address tx)
  | _ => True

end Clearing

namespace Cache

/-- The ring and the slots that `Hash_reset` has been over. -/
structure Swept (done : Nat) (cache : Cache) : Prop where
  distinct : cache.addresses.contents.Nodup
  listed : ∀ key, key ∈ cache.addresses.contents ↔
    ∃ s : Fin cacheAddrSize, s.val < done ∧ ∃ packet, cache.packets.table s = some (key, packet)
  keyed : ∀ s : Fin cacheAddrSize, s.val < done → ∀ key packet,
    cache.packets.table s = some (key, packet) → key = address packet
  found : ∀ s : Fin cacheAddrSize, s.val < done → ∀ key packet,
    cache.packets.table s = some (key, packet) → locate order cache.packets.table key = s
  low : ∀ s : Fin cacheAddrSize, s.val < done → ∀ key packet,
    cache.packets.table s = some (key, packet) →
      (home key).val ≤ s.val

variable {cache : Cache}

/-- An entry in a low slot does not depend on the slots outside of its probe. -/
theorem Swept.found_of_same {done : Nat} (swept : Swept done cache) {s : Fin cacheAddrSize}
    (inside : s.val < done) (stored : cache.packets.table s = some (key, packet))
    (t : Table (Fin cacheAddrSize) Int PacketRef)
    (same : ∀ i : Fin cacheAddrSize, (home key).val ≤ i.val → i.val ≤ s.val →
      t i = cache.packets.table i) : locate order t key = s := by
  have low := swept.low s inside key packet stored
  have found := swept.found s inside key packet stored
  apply linear_locate_kept low found
  · intro i above below passed
    rwa [halts_congr (same i above (Nat.le_of_lt below))]
  · exact halts_of_stored ((same s low (Nat.le_refl _)).trans stored)

theorem swept_of_empty {done : Nat} (ring : cache.addresses.contents = [])
    (low : ∀ s : Fin cacheAddrSize, s.val < done → cache.packets.table s = none) :
    Swept done cache := by
  have none : ∀ s : Fin cacheAddrSize, s.val < done → ∀ key packet,
      cache.packets.table s ≠ some (key, packet) := by
    intro s inside key packet stored
    rw [low s inside] at stored
    contradiction
  constructor
  · rw [ring]
    exact List.nodup_nil
  · intro key
    rw [ring]
    constructor
    · intro member
      contradiction
    · rintro ⟨s, inside, packet, stored⟩
      exact absurd stored (none s inside key packet)
  · exact fun s inside key packet stored => absurd stored (none s inside key packet)
  · exact fun s inside key packet stored => absurd stored (none s inside key packet)
  · exact fun s inside key packet stored => absurd stored (none s inside key packet)

/-- One more slot is emptied. -/
theorem Swept.resetEntry {done : Nat} (swept : Swept done cache) (inside : done < cacheAddrSize)
    (next : Hash Int PacketRef cacheAddrSize)
    (table : ∀ j : Fin cacheAddrSize, next.table j =
      if j = ⟨done, inside⟩ then none else cache.packets.table j) :
    Swept (done + 1) { cache with packets := next } := by
  have kept : ∀ s : Fin cacheAddrSize, s.val < done → next.table s = cache.packets.table s := by
    intro s below
    rw [table, if_neg]
    rintro rfl
    exact Nat.lt_irrefl _ below
  have lower : ∀ s : Fin cacheAddrSize, s.val < done + 1 → ∀ pair, next.table s = some pair →
      s.val < done ∧ cache.packets.table s = some pair := by
    intro s within pair stored
    have apart : s.val ≠ done := by
      rintro rfl
      rw [table, if_pos rfl] at stored
      contradiction
    have below : s.val < done := by omega
    exact ⟨below, (kept s below).symm.trans stored⟩
  refine ⟨swept.distinct, ?_, ?_, ?_, ?_⟩
  · intro key
    apply (swept.listed key).trans
    constructor
    · rintro ⟨s, below, packet, stored⟩
      exact ⟨s, Nat.lt_succ_of_lt below, packet, (kept s below).trans stored⟩
    · rintro ⟨s, within, packet, stored⟩
      obtain ⟨below, before⟩ := lower s within _ stored
      exact ⟨s, below, packet, before⟩
  · intro s within key packet stored
    obtain ⟨below, before⟩ := lower s within _ stored
    exact swept.keyed s below key packet before
  · intro s within key packet stored
    obtain ⟨below, before⟩ := lower s within _ stored
    refine swept.found_of_same below before next.table fun i _ upto => kept i ?_
    exact Nat.lt_of_le_of_lt upto below
  · intro s within key packet stored
    obtain ⟨below, before⟩ := lower s within _ stored
    exact swept.low s below key packet before

/-- What is stored above the slots that are done is nobody's concern. -/
theorem Swept.of_same {done : Nat} (swept : Swept done cache)
    (next : Hash Int PacketRef cacheAddrSize)
    (same : ∀ s : Fin cacheAddrSize, s.val < done → next.table s = cache.packets.table s) :
    Swept done { cache with packets := next } := by
  have before : ∀ s : Fin cacheAddrSize, s.val < done → ∀ pair, next.table s = some pair →
      cache.packets.table s = some pair :=
    fun s below pair stored => (same s below).symm.trans stored
  refine ⟨swept.distinct, ?_, ?_, ?_, ?_⟩
  · intro key
    apply (swept.listed key).trans
    constructor
    · rintro ⟨s, below, packet, stored⟩
      exact ⟨s, below, packet, (same s below).trans stored⟩
    · rintro ⟨s, below, packet, stored⟩
      exact ⟨s, below, packet, before s below _ stored⟩
  · exact fun s below key packet stored => swept.keyed s below key packet (before s below _ stored)
  · intro s below key packet stored
    refine swept.found_of_same below (before s below _ stored) next.table fun i _ upto => ?_
    exact same i (Nat.lt_of_le_of_lt upto below)
  · exact fun s below key packet stored => swept.low s below key packet (before s below _ stored)

/-- A packet that is stored after its home is found where it was put. -/
theorem locate_stored {t : Table (Fin cacheAddrSize) Int PacketRef}
    (low : (home key).val ≤ (locate order t key).val) (packet : PacketRef) :
    locate order (OpenAddressing.insert order t key packet) key = locate order t key := by
  apply linear_locate_kept low rfl
  · intro i above under passed
    have apart : i ≠ locate order t key := fun same => Nat.lt_irrefl _ (same ▸ under)
    rwa [halts_congr (insert_elsewhere packet apart)]
  · exact halts_of_stored (insert_located key packet)

/-- It hides no packet that is stored in a slot that is done. -/
theorem Swept.found_beside {done : Nat} (swept : Swept done cache) {s : Fin cacheAddrSize}
    (inside : s.val < done) (before : cache.packets.table s = some (key, old))
    (other : new ≠ key) {packet : PacketRef}
    (stored : OpenAddressing.insert order cache.packets.table new packet s = some (key, old)) :
    locate order (OpenAddressing.insert order cache.packets.table new packet) key = s := by
  apply linear_locate_kept (swept.low s inside key old before) (swept.found s inside key old before)
  · intro i above under passed
    by_cases here : i = locate order cache.packets.table new
    · subst i
      unfold halts
      rw [insert_located]
      exact decide_eq_false other
    · rwa [halts_congr (insert_elsewhere packet here)]
  · exact halts_of_stored stored

/-- A packet is stored in a slot that is done, in place of nothing or of one for the same loco. -/
theorem Swept.store {done : Nat} (swept : Swept done cache) (packet : PacketRef) (next : Cache)
    (table : next.packets.table =
      OpenAddressing.insert order cache.packets.table (address packet) packet)
    (inside : (locate order cache.packets.table (address packet)).val < done)
    (low : (home (address packet)).val ≤ (locate order cache.packets.table (address packet)).val)
    (own : ∀ key old, cache.packets.table (locate order cache.packets.table (address packet)) =
      some (key, old) → key = address packet)
    (distinct : next.addresses.contents.Nodup)
    (ring : ∀ key, key ∈ next.addresses.contents ↔
      key = address packet ∨ key ∈ cache.addresses.contents) : Swept done next := by
  have here : next.packets.table (locate order cache.packets.table (address packet)) =
      some (address packet, packet) := by
    rw [table]
    exact insert_located _ _
  have elsewhere : ∀ s, s ≠ locate order cache.packets.table (address packet) →
      next.packets.table s = cache.packets.table s := by
    intro s apart
    rw [table]
    exact insert_elsewhere packet apart
  -- what is stored is the packet, or was stored before and is for another loco
  have cases : ∀ s : Fin cacheAddrSize, s.val < done → ∀ key old,
      next.packets.table s = some (key, old) →
      (s = locate order cache.packets.table (address packet) ∧ key = address packet ∧ old = packet) ∨
        (cache.packets.table s = some (key, old) ∧ address packet ≠ key) := by
    intro s below key old stored
    rw [table] at stored
    rcases insert_eq_some.mp stored with new | ⟨apart, before⟩
    · exact Or.inl new
    · refine Or.inr ⟨before, ?_⟩
      rintro rfl
      exact apart (swept.found s below _ old before).symm
  constructor
  · exact distinct
  · intro key
    rw [ring, swept.listed]
    constructor
    · rintro (rfl | ⟨s, below, old, stored⟩)
      · exact ⟨_, inside, packet, here⟩
      · by_cases same : s = locate order cache.packets.table (address packet)
        · subst s
          obtain rfl := own key old stored
          exact ⟨_, inside, packet, here⟩
        · exact ⟨s, below, old, (elsewhere s same).trans stored⟩
    · rintro ⟨s, below, old, stored⟩
      rcases cases s below key old stored with ⟨-, new, -⟩ | ⟨before, -⟩
      · exact Or.inl new
      · exact Or.inr ⟨s, below, old, before⟩
  · intro s below key old stored
    rcases cases s below key old stored with ⟨-, rfl, rfl⟩ | ⟨before, -⟩
    · rfl
    · exact swept.keyed s below key old before
  · intro s below key old stored
    rcases cases s below key old stored with ⟨rfl, rfl, rfl⟩ | ⟨before, other⟩
    · rw [table]
      exact locate_stored low old
    · rw [table] at stored ⊢
      exact swept.found_beside below before other stored
  · intro s below key old stored
    rcases cases s below key old stored with ⟨rfl, rfl, -⟩ | ⟨before, -⟩
    · exact low
    · exact swept.low s below key old before

/-- A packet replaces one that the loop will take away in any case, or one for its loco. -/
theorem Swept.replace {done : Nat} (swept : Swept done cache) (packet : PacketRef) (trace : Trace)
    (stored : cache.packets.table (locate order cache.packets.table (address packet)) =
      some (key, old))
    (leaves : key = address packet ∨
      done ≤ (locate order cache.packets.table (address packet)).val) :
    Swept done (cache.update packet trace).1 := by
  have table := update_table cache packet trace
  have known : cache.get (address packet) ≠ none := by
    rw [get_eq cache (address_nonneg packet), stored]
    simp
  have ring := update_addresses_known cache packet trace known
  by_cases above : done ≤ (locate order cache.packets.table (address packet)).val
  · have split : (cache.update packet trace).1 =
        { cache with packets := (cache.update packet trace).1.packets } := by
      rw [← ring]
    rw [split]
    apply swept.of_same
    intro s below
    rw [table]
    apply insert_elsewhere packet
    rintro rfl
    exact absurd below (Nat.not_lt.mpr above)
  · obtain rfl : key = address packet := leaves.resolve_right above
    have inside := Nat.lt_of_not_le above
    have member : address packet ∈ cache.addresses.contents :=
      (swept.listed _).mpr ⟨_, inside, old, stored⟩
    apply swept.store packet _ table inside (swept.low _ inside _ old stored)
    · intro k v again
      rw [stored, Option.some.injEq, Prod.mk.injEq] at again
      exact again.1.symm
    · rw [ring]
      exact swept.distinct
    · intro key
      rw [ring]
      constructor
      · exact Or.inr
      · rintro (rfl | listed)
        · exact member
        · exact listed

/-- A packet for a new loco takes a free slot that is done. -/
theorem Swept.occupy {done : Nat} (swept : Swept done cache) (packet : PacketRef) (trace : Trace)
    (free : cache.packets.table (locate order cache.packets.table (address packet)) = none)
    (low : (home (address packet)).val ≤ (locate order cache.packets.table (address packet)).val)
    (inside : (locate order cache.packets.table (address packet)).val < done)
    (room : address packet ∉ cache.addresses.contents → cache.addresses.count < cacheAddrSize) :
    Swept done (cache.update packet trace).1 := by
  have unseen : cache.get (address packet) = none := by
    rw [get_eq cache (address_nonneg packet), free]
    rfl
  have fresh : address packet ∉ cache.addresses.contents := by
    intro member
    obtain ⟨s, below, old, here⟩ := (swept.listed _).mp member
    rw [swept.found s below _ old here, here] at free
    contradiction
  have ring : (cache.update packet trace).1.addresses.contents =
      cache.addresses.contents ++ [address packet] := by
    rw [update_addresses_new cache packet trace unseen, Ring.contents_push _ _ (room fresh)]
  apply swept.store packet _ (update_table cache packet trace) inside low
  · intro k v again
    rw [free] at again
    contradiction
  · rw [ring]
    exact List.nodup_append.mpr ⟨swept.distinct, List.nodup_singleton _, by
      rintro a member b single rfl
      exact fresh (List.mem_singleton.mp single ▸ member)⟩
  · intro key
    rw [ring, List.mem_append, List.mem_singleton, or_comm]

/-- A tick in its place. -/
theorem Swept.update {done : Nat} (swept : Swept done cache) (packet : PacketRef) (trace : Trace)
    (stays : Stays done cache.packets (address packet))
    (room : address packet ∉ cache.addresses.contents → cache.addresses.count < cacheAddrSize) :
    Swept done (cache.update packet trace).1 := by
  obtain ⟨slot, found, leaves⟩ := stays
  rw [Hash.findEntry_eq callbacks_decides (by decide) cache.packets (address_nonneg packet),
    Option.some.injEq] at found
  subst slot
  cases stored : cache.packets.table (locate order cache.packets.table (address packet)) with
  | some pair =>
    obtain ⟨key, old⟩ := pair
    obtain ⟨same, value⟩ : (cache.packets.entries.get _).k = key ∧
        (cache.packets.entries.get _).v = some old := (Hash.table_eq_some _).mp stored
    rw [value, Option.isSome_some, if_pos rfl, same] at leaves
    exact swept.replace packet trace stored leaves
  | none =>
    have free : (cache.packets.entries.get _).v = none := (Hash.table_eq_none _).mp stored
    rw [free, Option.isSome_none, if_neg Bool.false_ne_true] at leaves
    exact swept.occupy packet trace stored leaves.1 leaves.2 room

theorem Swept.getNextPacket {done : Nat} (swept : Swept done cache)
    (bounded : cache.addresses.count ≤ cacheAddrSize) : Swept done cache.getNextPacket.2 := by
  have turned := getNextPacket_perm bounded
  have packets := getNextPacket_packets cache
  refine ⟨turned.nodup_iff.mpr swept.distinct, ?_, ?_, ?_, ?_⟩
  · intro key
    rw [turned.mem_iff, packets]
    exact swept.listed key
  · rw [packets]
    exact swept.keyed
  · rw [packets]
    exact swept.found
  · rw [packets]
    exact swept.low

/-- A rota can be read off a cache whose ring lists its table. -/
theorem Valid.tracks (valid : Valid cache)
    (agree : ∀ key, key ∈ cache.addresses.contents ↔ Present cache.packets.table key) :
    ∃ rota, Tracks cache rota := by
  have answered : ∀ key packet, Holds cache.packets.table key packet ↔
      key ∈ cache.addresses.contents ∧ (cache.get key).getD ⟨0, ⟨[]⟩⟩ = packet := by
    intro key packet
    constructor
    · intro holds
      refine ⟨(agree key).mpr ⟨packet, holds⟩, ?_⟩
      rw [valid.get_present holds, Option.getD_some]
    · rintro ⟨member, same⟩
      obtain ⟨stored, holds⟩ := (agree key).mp member
      rw [valid.get_present holds, Option.getD_some] at same
      exact same ▸ holds
  refine ⟨cache.addresses.contents.map fun key => (key, (cache.get key).getD ⟨0, ⟨[]⟩⟩),
    valid, ?_, ?_⟩
  · rw [Rotation.keys, List.map_map]
    exact (List.map_id _).symm
  · intro key packet
    rw [answered, List.mem_map]
    constructor
    · rintro ⟨member, rfl⟩
      exact ⟨key, member, rfl⟩
    · rintro ⟨k, member, same⟩
      rw [Prod.mk.injEq] at same
      obtain ⟨rfl, rfl⟩ := same
      exact ⟨member, rfl⟩

/-- When all slots are done. -/
theorem Swept.tracks (swept : Swept cacheAddrSize cache)
    (bounded : cache.addresses.count ≤ cacheAddrSize) : ∃ rota, Tracks cache rota := by
  have agree : ∀ key, key ∈ cache.addresses.contents ↔ Present cache.packets.table key := by
    intro key
    rw [swept.listed]
    constructor
    · rintro ⟨s, -, packet, stored⟩
      exact ⟨packet, s, stored⟩
    · rintro ⟨packet, s, stored⟩
      exact ⟨s, s.isLt, packet, stored⟩
  have valid : Valid cache := by
    refine ⟨?_, ?_, swept.distinct, bounded, ?_, Or.inr agree⟩
    · exact fun s key packet stored => swept.found s s.isLt key packet stored
    · rintro key packet ⟨s, stored⟩
      exact swept.keyed s s.isLt key packet stored
    · intro key member
      obtain ⟨packet, s, stored⟩ := (agree key).mp member
      exact ⟨packet, swept.keyed s s.isLt key packet stored⟩
  exact valid.tracks agree

theorem Tracks.agrees (tracks : Tracks cache rota) : Agrees cache := by
  refine ⟨tracks.valid.distinct, fun key => ?_⟩
  rw [tracks.ring, ← tracks.present]
  constructor
  · rintro ⟨packet, s, stored⟩
    obtain ⟨same, value⟩ := (Hash.table_eq_some _).mp stored
    exact ⟨s, Option.isSome_iff_exists.mpr ⟨packet, value⟩, same⟩
  · rintro ⟨s, occupied, same⟩
    obtain ⟨packet, value⟩ := Option.isSome_iff_exists.mp occupied
    exact ⟨packet, s, (Hash.table_eq_some _).mpr ⟨same, value⟩⟩

theorem mem_update_addresses {packet : PacketRef} {trace : Trace}
    (member : key ∈ (cache.update packet trace).1.addresses.contents) :
    key = address packet ∨ key ∈ cache.addresses.contents := by
  by_cases unseen : cache.get (address packet) = none
  · rw [update_addresses_new cache packet trace unseen] at member
    exact Ring.mem_contents_push _ _ member
  · rw [update_addresses_known cache packet trace unseen] at member
    exact Or.inr member

end Cache

namespace Clearing
open Cache

/-- The addresses come from packets that were in the queue when the clear began:
nothing is added to it meanwhile. -/
def Drawn (s : Scheduler) : Prop :=
  ∀ key ∈ s.cache.addresses.contents, key ∈ s.txQueue.buf.toList.map address

theorem Drawn.length_le {s : Scheduler} (drawn : Drawn s)
    (distinct : s.cache.addresses.contents.Nodup) : s.cache.addresses.count ≤ cacheAddrSize := by
  have within := (distinct.subperm drawn).length_le
  simpa using within

/-- There is room for one more of them. -/
theorem Drawn.room {s : Scheduler} (drawn : Drawn s) (distinct : s.cache.addresses.contents.Nodup)
    {tx : PacketRef} (queued : tx ∈ s.txQueue.buf)
    (fresh : address tx ∉ s.cache.addresses.contents) :
    s.cache.addresses.count < cacheAddrSize := by
  have all : ∀ key ∈ address tx :: s.cache.addresses.contents,
      key ∈ s.txQueue.buf.toList.map address := by
    rintro key (_ | ⟨_, member⟩)
    · exact List.mem_map_of_mem (Vector.mem_toList_iff.mpr queued)
    · exact drawn key member
  have within := ((List.nodup_cons.mpr ⟨fresh, distinct⟩).subperm all).length_le
  simp only [List.length_cons, Ring.contents_length, List.length_map, Vector.length_toList] at within
  exact within

theorem tick_buf (s : Scheduler) : (Scheduler.step s .tick).1.txQueue.buf = s.txQueue.buf := by
  simp only [Scheduler.step, Scheduler.timer0CompaVect]
  repeat' split
  all_goals rfl

/-- What ticks in their places keep: half way the low slots are in order, and in
the end the whole cache is. -/
structure Kept (c : Clearing) : Prop where
  drawn : Drawn c.scheduler
  swept : c.done < cacheAddrSize → Swept c.done c.scheduler.cache
  tracks : c.done = cacheAddrSize → ∃ rota, Tracks c.scheduler.cache rota
  within : c.done ≤ cacheAddrSize

theorem kept_start (s : Scheduler) : Kept (start s) := by
  have ring : (start s).scheduler.cache.addresses.contents = [] := Ring.contents_reset _
  refine ⟨?_, fun _ => ?_, ?_, Nat.zero_le _⟩
  · intro key member
    rw [ring] at member
    contradiction
  · exact swept_of_empty ring fun s below => absurd below (Nat.not_lt_zero _)
  · intro finished
    contradiction

theorem Kept.distinct {c : Clearing} (kept : Kept c) :
    c.scheduler.cache.addresses.contents.Nodup := by
  rcases Nat.lt_or_eq_of_le kept.within with under | finished
  · exact (kept.swept under).distinct
  · obtain ⟨rota, tracks⟩ := kept.tracks finished
    exact tracks.valid.distinct

/-- All locos fit that the queue can be about: none is displaced after the clear. -/
theorem Kept.roomy {c : Clearing} (kept : Kept c) (tracks : Tracks c.scheduler.cache rota)
    {tx : PacketRef} (queued : tx ∈ c.scheduler.txQueue.buf) :
    ¬ Full c.scheduler.cache.packets.table ∨
      Present c.scheduler.cache.packets.table (address tx) := by
  by_cases present : Present c.scheduler.cache.packets.table (address tx)
  · exact Or.inr present
  · left
    intro full
    have fresh : address tx ∉ c.scheduler.cache.addresses.contents := by
      rw [tracks.ring, ← tracks.present]
      exact present
    have room := kept.drawn.room kept.distinct queued fresh
    have slots := tracks.valid.settled.card_le full c.scheduler.cache.addresses.contents.toFinset
      (fun key stored => List.mem_toFinset.mpr (by
        rw [tracks.ring]
        exact tracks.present.mp stored))
    rw [List.toFinset_card_of_nodup kept.distinct, Ring.contents_length, Fintype.card_fin] at slots
    omega

theorem Kept.tick {c : Clearing} (kept : Kept c) (harmless : Harmless c .tick) :
    Kept (step c .tick).1 := by
  have buf := tick_buf c.scheduler
  have within := kept.within
  rcases c.scheduler.ticked with ⟨tx, trace, -, -, -, cache, -⟩ |
    ⟨tx, trace, queue, moves, -, cache, -⟩ | ⟨stop, -, -, same, -⟩ | ⟨-, -, turned, -⟩
  · -- everything is cleared at once
    have ring : (c.scheduler.cache.clear trace).1.addresses.contents = [] := Ring.contents_reset _
    have table := clear_table c.scheduler.cache trace
    rw [← cache] at ring table
    refine ⟨?_, fun _ => ?_, fun _ => ⟨[], tracks_of_empty ring table⟩, within⟩
    · intro key member
      rw [step, ring] at member
      contradiction
    · exact swept_of_empty ring fun s _ => congrFun table s
  · have queued : tx ∈ c.scheduler.txQueue.buf :=
      Ring.mem_buf_of_mem_contents (queue ▸ List.mem_cons_self)
    have drawn : Drawn (step c .tick).1.scheduler := by
      intro key member
      change key ∈ (Scheduler.step c.scheduler .tick).1.txQueue.buf.toList.map address
      rw [buf]
      rw [step, cache] at member
      rcases mem_update_addresses member with rfl | before
      · exact List.mem_map_of_mem (Vector.mem_toList_iff.mpr queued)
      · exact kept.drawn key before
    refine ⟨drawn, fun under => ?_, fun finished => ?_, within⟩
    · have stays := harmless under tx (by rw [queue]; rfl) moves
      have room := kept.drawn.room kept.distinct queued
      have next := (kept.swept under).update tx trace stays room
      rw [← cache] at next
      exact next
    · obtain ⟨rota, tracks⟩ := kept.tracks finished
      have next : Tracks (c.scheduler.cache.update tx trace).1 _ :=
        tracks.update (kept.roomy tracks queued)
      rw [← cache] at next
      exact ⟨_, next⟩
  · have held : (step c .tick).1 = c := by rw [step, same]
    rw [held]
    exact kept
  · have bounded := kept.drawn.length_le kept.distinct
    have cache : (step c .tick).1.scheduler.cache = c.scheduler.cache.getNextPacket.2 := by
      rw [step, turned]
    refine ⟨?_, fun under => ?_, fun finished => ?_, within⟩
    · intro key member
      change key ∈ (Scheduler.step c.scheduler .tick).1.txQueue.buf.toList.map address
      rw [buf]
      rw [cache, (getNextPacket_perm bounded).mem_iff] at member
      exact kept.drawn key member
    · rw [cache]
      exact (kept.swept under).getNextPacket bounded
    · obtain ⟨rota, tracks⟩ := kept.tracks finished
      rw [cache]
      exact ⟨_, tracks.getNextPacket.2⟩

theorem Kept.resetEntry {c : Clearing} (kept : Kept c) : Kept (step c .resetEntry).1 := by
  by_cases inside : c.done < cacheAddrSize
  · have next := (kept.swept inside).resetEntry inside _
      (Hash.resetEntry_table callbacks (c.scheduler.cache.packets, []) ⟨c.done, inside⟩)
    rw [step, dif_pos inside]
    refine ⟨kept.drawn, fun _ => next, fun finished => ?_, inside⟩
    have last : c.done + 1 = cacheAddrSize := finished
    rw [last] at next
    exact next.tracks (kept.drawn.length_le kept.distinct)
  · rw [step, dif_neg inside]
    exact kept

theorem kept_step (c : Clearing) (op : Op) (harmless : Harmless c op) (kept : Kept c) :
    Kept (step c op).1 := by
  cases op with
  | tick => exact kept.tick harmless
  | resetEntry => exact kept.resetEntry

/-- After the clear, as long as no loco is displaced. -/
theorem roomy_step (s : Scheduler) (op : Scheduler.Op) (roomy : Roomy s op)
    (tracks : ∃ rota, Tracks s.cache rota) : ∃ rota, Tracks (Scheduler.step s op).1.cache rota := by
  obtain ⟨rota, tracks⟩ := tracks
  cases op with
  | addPacket packet => exact ⟨rota, tracks⟩
  | cacheClear => exact ⟨[], tracks_of_empty (Ring.contents_reset _) (clear_table _ _)⟩
  | tick =>
    rcases s.ticked with ⟨tx, trace, -, -, -, cache, -⟩ | ⟨tx, trace, queue, moves, -, cache, -⟩ |
      ⟨stop, -, -, same, -⟩ | ⟨-, -, turned, -⟩
    · rw [cache]
      exact ⟨[], tracks_of_empty (Ring.contents_reset _) (clear_table _ _)⟩
    · rw [cache]
      exact ⟨_, tracks.update (roomy tx (by rw [queue]; rfl) moves)⟩
    · rw [same]
      exact ⟨rota, tracks⟩
    · rw [turned]
      exact ⟨_, tracks.getNextPacket.2⟩

/-- Further ticks without further packets need no condition. -/
theorem kept_ticks {c : Clearing} (kept : Kept c) (finished : c.done = cacheAddrSize) (n : Nat) :
    Kept { c with scheduler := Run.final Scheduler.step c.scheduler (List.replicate n .tick) } := by
  induction n generalizing c with
  | zero => exact kept
  | succ n ih =>
    have past : ¬ c.done < cacheAddrSize := Nat.not_lt.mpr (Nat.le_of_eq finished.symm)
    have next : Kept (step c .tick).1 := kept.tick fun under => absurd under past
    exact ih next finished

theorem kept_run {s : Scheduler} {ops : List Op}
    (harmless : Run.Along step Harmless (start s) ops) : Kept (Run.final step (start s) ops) :=
  harmless.invariant kept_step (kept_start s)

/-- Whenever the interrupt comes, if it stores its packets in their places, ring
and table agree once the clear has finished, and go on doing so. -/
theorem clear_preempted (s : Scheduler) (ops : List Op)
    (harmless : Run.Along step Harmless (start s) ops)
    (finished : (Run.final step (start s) ops).done = cacheAddrSize) :
    Agrees (Run.final step (start s) ops).scheduler.cache ∧
      (∀ n, Agrees (Run.final Scheduler.step (Run.final step (start s) ops).scheduler
        (List.replicate n .tick)).cache) ∧
      ∀ later, Run.Along Scheduler.step Roomy (Run.final step (start s) ops).scheduler later →
        Agrees (Run.final Scheduler.step (Run.final step (start s) ops).scheduler later).cache := by
  have kept := kept_run harmless
  obtain ⟨rota, tracks⟩ := kept.tracks finished
  refine ⟨tracks.agrees, fun n => ?_, fun later roomy => ?_⟩
  · obtain ⟨rota, after⟩ := (kept_ticks kept finished n).tracks finished
    exact after.agrees
  · have after : ∃ rota, Tracks
        (Run.final Scheduler.step (Run.final step (start s) ops).scheduler later).cache rota :=
      roomy.invariant roomy_step ⟨rota, tracks⟩
    obtain ⟨rota, tracks⟩ := after
    exact tracks.agrees

theorem resets_harmless (c : Clearing) (count : Nat) :
    Run.Along step Harmless c (List.replicate count .resetEntry) := by
  induction count generalizing c with
  | zero => trivial
  | succ count ih => exact ⟨trivial, ih _⟩

/-- The iterations without a tick in between are `Cache_clear`. -/
theorem uninterrupted (s : Scheduler) (trace : Trace) :
    (Run.final step (start s) (List.replicate cacheAddrSize .resetEntry)).scheduler =
      { s with cache := (s.cache.clear trace).1 } := by
  have part : ∀ n ≤ cacheAddrSize, Run.final step (start s) (List.replicate n .resetEntry) =
      { scheduler := { s with cache :=
          { addresses := s.cache.addresses.reset
            packets := (((List.finRange cacheAddrSize).take n).foldl (Hash.resetEntry callbacks)
              (s.cache.packets, trace)).1 } }
        done := n } := by
    intro n within
    induction n with
    | zero => rfl
    | succ n ih =>
      have inside : n < cacheAddrSize := within
      have next : (List.finRange cacheAddrSize).take (n + 1) =
          (List.finRange cacheAddrSize).take n ++ [⟨n, inside⟩] := by
        rw [List.take_succ_eq_append_getElem (by simpa using inside), List.getElem_finRange]
        rfl
      rw [List.replicate_succ', Run.final_append, ih (Nat.le_of_lt inside), next, List.foldl_append]
      simp only [Run.final, step, dif_pos inside, List.foldl_cons, List.foldl_nil, Hash.resetEntry,
        hashEntryDestroy_eq]
  rw [part cacheAddrSize (Nat.le_refl _), List.take_of_length_le (by simp)]
  rfl

def driven : PacketRef := ⟨1, setAddress baselinePacketCreate 3⟩

def waiting : Scheduler := Run.final Scheduler.step (Scheduler.moduleInit .zero) [.addPacket driven]

/-- It is stored when its slot has been passed. -/
theorem clear_preempted_late : Agrees (Run.final step (start waiting)
    (List.replicate 5 .resetEntry ++ .tick :: List.replicate 15 .resetEntry)).scheduler.cache := by
  have head : (Run.final step (start waiting)
      (List.replicate 5 .resetEntry)).scheduler.txQueue.contents.head? = some driven := by
    decide +kernel
  have stays : Stays 5 (Run.final step (start waiting)
      (List.replicate 5 .resetEntry)).scheduler.cache.packets (address driven) :=
    ⟨3, by decide +kernel, by decide +kernel⟩
  have harmless : Run.Along step Harmless (start waiting)
      (List.replicate 5 .resetEntry ++ .tick :: List.replicate 15 .resetEntry) := by
    refine Run.along_append.mpr ⟨resets_harmless _ 5, ?_, resets_harmless _ 15⟩
    intro _ tx member _
    obtain rfl : driven = tx := Option.some.inj (head.symm.trans member)
    exact stays
  exact (clear_preempted waiting _ harmless (by decide +kernel)).1

/-- A tick before the first slot is emptied leaves the address in the ring without its packet. -/
theorem clear_torn : waiting.cache.addresses.count < cacheAddrSize ∧
    (Run.final step (start waiting) (.tick :: List.replicate 20 .resetEntry)).done = cacheAddrSize ∧
    ¬ Agrees (Run.final step (start waiting)
      (.tick :: List.replicate 20 .resetEntry)).scheduler.cache := by
  have listed : (3 : Int) ∈ (Run.final step (start waiting)
      (.tick :: List.replicate 20 .resetEntry)).scheduler.cache.addresses.contents := by
    decide +kernel
  have emptied : ∀ slot : Fin cacheAddrSize, ¬ ((Run.final step (start waiting)
      (.tick :: List.replicate 20 .resetEntry)).scheduler.cache.packets.entries.get slot).v.isSome := by
    decide +kernel
  refine ⟨by decide, by decide +kernel, fun agrees => ?_⟩
  obtain ⟨slot, occupied, -⟩ := (agrees.2 3).mp listed
  exact emptied slot occupied

end Clearing
end Freedcc
