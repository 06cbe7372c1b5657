import Freedcc.Hash
import Freedcc.Lib.Run

/-! The hash table over whole histories of calls, for any keys, values and
callbacks: up to its capacity it is a finite map. -/
namespace Freedcc.Hash
open OpenAddressing
variable {K V W : Type} {size : Nat}

theorem entry_ext {entry : Entry K V} (k : entry.k = key) (v : entry.v = value) :
    entry = ⟨key, value⟩ := by
  rw [← k, ← v]

inductive Call (K V : Type) where
  | insert (key : K) (value : V)
  | get (key : K)
  | reset

/-- The table, with a record of what was inserted since the last reset. -/
structure History (K V W : Type) (size : Nat) where
  hash : Hash K V size
  world : W
  keys : List K
  latest : K → Option V

variable [DecidableEq K] (callbacks : Callbacks K V W)

/-- What `Hash_get` returns is logged. -/
def History.call (h : History K V W size) : Call K V → History K V W size × List (Option V)
  | .insert key value =>
    let result := h.hash.insert callbacks key value h.world
    ({ hash := result.1
       world := result.2
       keys := key :: h.keys
       latest := Function.update h.latest key (some value) }, [])
  | .get key => (h, [h.hash.get callbacks key])
  | .reset =>
    let result := h.hash.reset callbacks h.world
    ({ hash := result.1, world := result.2, keys := [], latest := fun _ => none }, [])

/-- `memory` is what malloc returned. -/
def History.start (memory : Vector (Entry K V) size) (world : W) : History K V W size :=
  { hash := create memory, world, keys := [], latest := fun _ => none }

/-- At most `size` keys since the last reset. -/
def History.Fits (h : History K V W size) : Prop := h.keys.toFinset.card ≤ size

instance : DecidablePred (@History.Fits K V W size _) :=
  fun _ => inferInstanceAs (Decidable (_ ≤ _))

/-- `Hash_get` answers as the map does, as long as a NULL can be told. -/
structure History.Maps (h : History K V W size) : Prop where
  found : ∀ key value, h.latest key = some value → h.hash.get callbacks key = some value
  absent : ∀ key, h.latest key = none → h.keys.toFinset.card < size →
    h.hash.get callbacks key = none

/-- An insertion leaves the other keys alone and destroys what it replaces, once. -/
structure History.Replaces (h : History K V W size) (key : K) (value : V) : Prop where
  others : ∀ other, other ≠ key → h.latest other ≠ none →
    (h.hash.insert callbacks key value h.world).1.get callbacks other = h.hash.get callbacks other
  destroyed : (h.hash.insert callbacks key value h.world).2 =
    match h.latest key with
    | none => h.world
    | some old => (callbacks.destroy ⟨key, some old⟩ h.world).2

/-- The table stores the map, every key where a probe finds it. -/
structure History.Stores (positive : 0 < size) (h : History K V W size) : Prop where
  settled : Settled (linear (home callbacks positive)) h.hash.table
  holds : ∀ key value, Holds h.hash.table key value ↔ h.latest key = some value
  keys : ∀ key, key ∈ h.keys ↔ h.latest key ≠ none

namespace History
variable {callbacks} {h : History K V W size} {positive : 0 < size}

theorem Stores.present (stores : h.Stores callbacks positive) (key : K) :
    Present h.hash.table key ↔ key ∈ h.keys := by
  rw [stores.keys, Option.ne_none_iff_exists']
  exact exists_congr fun value => stores.holds key value

theorem Stores.room (stores : h.Stores callbacks positive) (few : h.keys.toFinset.card < size) :
    ¬ Full h.hash.table := by
  intro full
  have slots := stores.settled.card_le full h.keys.toFinset fun key stored =>
    List.mem_toFinset.mpr ((stores.present key).mp stored)
  rw [Fintype.card_fin] at slots
  omega

theorem stores_empty (keys : h.keys = []) (latest : h.latest = fun _ => none)
    (table : h.hash.table = fun _ => none) : h.Stores callbacks positive := by
  constructor
  · rw [table]
    exact settled_empty
  · intro key value
    rw [table, latest]
    simp [Holds]
  · intro key
    rw [keys, latest]
    simp

/-- A key that fits is stored already, or there is a free slot for it. -/
theorem Stores.kept (stores : h.Stores callbacks positive) (value : V)
    (fits : (h.call callbacks (.insert key value)).1.Fits) :
    ¬ Full h.hash.table ∨ Present h.hash.table key := by
  rw [stores.present]
  by_cases known : key ∈ h.keys
  · exact Or.inr known
  · left
    apply stores.room
    have more : (key :: h.keys).toFinset.card ≤ size := fits
    rw [List.toFinset_cons, Finset.card_insert_of_notMem (by simpa using known)] at more
    omega

variable (decides : callbacks.Decides) (inside : ∀ key, 0 ≤ callbacks.lookup key)
include decides inside

theorem Stores.insert (stores : h.Stores callbacks positive) (value : V)
    (fits : (h.call callbacks (.insert key value)).1.Fits) :
    (h.call callbacks (.insert key value)).1.Stores callbacks positive := by
  have table := table_insert decides positive h.hash (inside key) value h.world
  constructor
  · simp only [call, table]
    exact stores.settled.insert (linear_nodup _ key) value
  · intro k v
    simp only [call, table]
    rw [stores.settled.holds_insert (stores.kept value fits) (linear_covers _ key), stores.holds]
    by_cases same : k = key
    · subst same
      simp [eq_comm]
    · simp [same]
  · intro k
    simp only [call, List.mem_cons, stores.keys]
    by_cases same : k = key
    · subst same
      simp
    · simp [same]

omit decides inside in
theorem Stores.reset : (h.call callbacks .reset).1.Stores callbacks positive :=
  stores_empty rfl rfl (table_reset callbacks h.hash h.world)

theorem Stores.maps (stores : h.Stores callbacks positive) : h.Maps callbacks := by
  constructor
  · intro key value latest
    obtain ⟨s, stored⟩ := (stores.holds key value).mpr latest
    rw [get_eq decides positive _ (inside key), stores.settled.located stored]
    rfl
  · intro key latest few
    have absent : ¬ Present h.hash.table key := by
      rw [stores.present, stores.keys]
      exact not_not.mpr latest
    rw [get_eq decides positive _ (inside key),
      locate_free (linear_covers _ key) absent (stores.room few)]
    rfl

/-- The entry that an insertion finds is the one it replaces. -/
theorem Stores.replaces (stores : h.Stores callbacks positive) (value : V)
    (fits : (h.call callbacks (.insert key value)).1.Fits) : h.Replaces callbacks key value := by
  have after := stores.insert decides inside value fits
  constructor
  · intro other apart known
    obtain ⟨v, latest⟩ := Option.ne_none_iff_exists'.mp known
    have kept : (h.call callbacks (.insert key value)).1.latest other = some v := by
      simp only [call, Function.update_of_ne apart, latest]
    rw [(stores.maps decides inside).found other v latest]
    exact (after.maps decides inside).found other v kept
  · have found := findEntry_eq decides positive h.hash (inside key)
    rw [insert_world found]
    generalize slot : locate (linear (home callbacks positive)) h.hash.table key = i
    cases latest : h.latest key with
    | none =>
      have absent : ¬ Present h.hash.table key := by
        rw [stores.present, stores.keys]
        exact not_not.mpr latest
      have free := locate_free (linear_covers (home callbacks positive) key) absent
        ((stores.kept value fits).resolve_right absent)
      rw [slot, table_eq_none] at free
      simp only [free]
    | some old =>
      obtain ⟨s, stored⟩ := (stores.holds key old).mpr latest
      have located := stores.settled.located stored
      rw [slot, table_eq_some] at located
      have entry : h.hash.entries[i] = ⟨key, some old⟩ := entry_ext located.1 located.2
      simp only [entry]

theorem stores_run (memory : Vector (Entry K V) size) (world : W) {calls : List (Call K V)}
    (fits : Run.Always (call callbacks) Fits (start memory world) calls) :
    Run.Always (call callbacks) (Stores callbacks positive) (start memory world) calls := by
  refine fits.invariant (fun h c _ after stores => ?_) (stores_empty rfl rfl (table_create memory))
  cases c with
  | insert key value => exact stores.insert decides inside value after
  | get key => exact stores
  | reset => exact Stores.reset

end History

/-- Up to its capacity the table is a finite map: over every history that never
inserts more different keys than there are slots between two resets, lookups find
what was inserted last, and insertions replace nothing else. -/
theorem hash_refines_map (positive : 0 < size) (callbacks : Callbacks K V W)
    (decides : callbacks.Decides) (inside : ∀ key, 0 ≤ callbacks.lookup key)
    (memory : Vector (Entry K V) size) (world : W) (calls : List (Call K V))
    (fits : Run.Always (History.call callbacks) History.Fits (History.start memory world) calls) :
    (Run.final (History.call callbacks) (History.start memory world) calls).Maps callbacks ∧
    ∀ key value, Run.Always (History.call callbacks) History.Fits (History.start memory world)
        (calls ++ [.insert key value]) →
      (Run.final (History.call callbacks) (History.start memory world) calls).Replaces
        callbacks key value := by
  have stores : History.Stores callbacks positive _ :=
    (History.stores_run decides inside memory world fits).last
  refine ⟨stores.maps decides inside, fun key value more => ?_⟩
  have after := more.last
  rw [Run.final_append] at after
  exact stores.replaces decides inside value after

def sample : Callbacks Nat String (List String) where
  lookup key := key
  cmp a b := if a = b then 0 else 1
  destroy entry gone := ({ entry with v := none }, gone ++ entry.v.toList)

def sampling : List (Call Nat String) :=
  [.insert 32 "a", .insert 10 "b", .insert 25 "c", .insert 20 "d", .insert 30 "e", .insert 32 "f"]

theorem hash_refines_map_sampling :
    (Run.final (History.call sample) (History.start (Vector.replicate 10 ⟨7, none⟩) [])
      sampling).hash.get sample 32 = some "f" := by
  have decides : sample.Decides := by
    intro a b
    simp only [sample]
    split <;> simp_all
  have maps := (hash_refines_map (by decide) sample decides (fun _ => Int.natCast_nonneg _)
    (Vector.replicate 10 ⟨7, none⟩) [] sampling (by decide)).1
  exact maps.found 32 "f" (by decide)

end Freedcc.Hash
