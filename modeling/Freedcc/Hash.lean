import Freedcc.Lib.OpenAddressing
import Mathlib.Data.List.FinRange

/-! The hash table of hash.c: linear probing over `size` entries, where a NULL
value marks an unused entry and its key is whatever was left there. The table's
callbacks are fixed by `Hash_create`; `destroy` may change the entry and acts on
a world of the caller's. -/
namespace Freedcc

structure Hash.Entry (K V : Type) where
  k : K
  v : Option V
deriving DecidableEq, Repr

structure Hash.Callbacks (K V W : Type) where
  lookup : K → Int
  cmp : K → K → Int
  destroy : Hash.Entry K V → W → Hash.Entry K V × W

structure Hash (K V : Type) (size : Nat) where
  entries : Vector (Hash.Entry K V) size
deriving DecidableEq

namespace Hash
variable {K V W : Type} {size : Nat}

/-- malloc leaves the keys as they are. -/
def create (memory : Vector (Entry K V) size) : Hash K V size :=
  ⟨memory.map fun entry => { entry with v := none }⟩

/-- The do-while loop of `Hash_find_entry` from slot `i`, with `j` the slot it
started from. Fuel `size` is enough for a start inside the table; `none` is an
access outside of it. -/
def findEntryFrom (callbacks : Callbacks K V W) (hash : Hash K V size) (key : K) (j : Int) :
    (fuel : Nat) → (i : Int) → Option (Fin size)
  | 0, _ => none
  | fuel + 1, i =>
    if inside : 0 ≤ i ∧ i < size then
      let curr : Fin size := ⟨i.toNat, by omega⟩
      if callbacks.cmp key hash.entries[curr].k = 0 ∨ hash.entries[curr].v.isNone then
        some curr
      else
        let i := (i + 1).tmod size
        if i ≠ j then findEntryFrom callbacks hash key j fuel i else some curr
    else none

def findEntry (callbacks : Callbacks K V W) (hash : Hash K V size) (key : K) :
    Option (Fin size) :=
  let j := (callbacks.lookup key).tmod size
  findEntryFrom callbacks hash key j size j

/-- NULL when the entry is unused, and also for an access outside the table. -/
def get (callbacks : Callbacks K V W) (hash : Hash K V size) (key : K) : Option V := do
  let entry ← findEntry callbacks hash key
  hash.entries[entry].v

/-- Values are not NULL. An access outside the table changes nothing here. -/
def insert (callbacks : Callbacks K V W) (hash : Hash K V size) (key : K) (value : V) (world : W) :
    Hash K V size × W :=
  match findEntry callbacks hash key with
  | none => (hash, world)
  | some i =>
    let entry := hash.entries[i]
    let (_, world) := if entry.v.isSome then callbacks.destroy entry world else (entry, world)
    (⟨hash.entries.set i { k := key, v := some value }⟩, world)

/-- One iteration of the loop of `Hash_reset`. -/
def resetEntry (callbacks : Callbacks K V W) (state : Hash K V size × W) (i : Fin size) :
    Hash K V size × W :=
  let (hash, world) := state
  let (entry, world) := callbacks.destroy hash.entries[i] world
  (⟨hash.entries.set i { entry with v := none }⟩, world)

def reset (callbacks : Callbacks K V W) (hash : Hash K V size) (world : W) : Hash K V size × W :=
  (List.finRange size).foldl (resetEntry callbacks) (hash, world)

/-- One iteration of the loop of `Hash_destroy`. -/
def destroyEntry (callbacks : Callbacks K V W) (state : Hash K V size × W) (i : Fin size) :
    Hash K V size × W :=
  let (hash, world) := state
  let (entry, world) := callbacks.destroy hash.entries[i] world
  (⟨hash.entries.set i entry⟩, world)

/-- `Hash_destroy`, after which there is no table. -/
def destroy (callbacks : Callbacks K V W) (hash : Hash K V size) (world : W) : W :=
  ((List.finRange size).foldl (destroyEntry callbacks) (hash, world)).2

/-- The pairs in use, by slot. -/
def table (hash : Hash K V size) : OpenAddressing.Table (Fin size) K V :=
  fun i => hash.entries[i].v.map fun value => (hash.entries[i].k, value)

theorem table_eq_none (hash : Hash K V size) : hash.table i = none ↔ hash.entries[i].v = none := by
  simp [table]

theorem table_eq_some (hash : Hash K V size) : hash.table i = some (key, value) ↔
    hash.entries[i].k = key ∧ hash.entries[i].v = some value := by
  simp only [table, Option.map_eq_some_iff, Prod.mk.injEq]
  constructor
  · rintro ⟨_, stored, same, rfl⟩
    exact ⟨same, stored⟩
  · rintro ⟨same, stored⟩
    exact ⟨_, stored, same, rfl⟩

@[simp] theorem table_create (memory : Vector (Entry K V) size) :
    (create memory).table = fun _ => none := by
  funext i
  simp [create, table]

/-- The values in use, by slot. -/
def values (hash : Hash K V size) : List V := hash.entries.toList.filterMap (·.v)

theorem mem_values (hash : Hash K V size) :
    value ∈ hash.values ↔ ∃ key, OpenAddressing.Holds hash.table key value := by
  simp only [values, List.mem_filterMap, Vector.mem_toList_iff, Vector.mem_iff_getElem]
  constructor
  · rintro ⟨entry, ⟨i, bound, rfl⟩, stored⟩
    exact ⟨_, ⟨i, bound⟩, (table_eq_some hash).mpr ⟨rfl, stored⟩⟩
  · rintro ⟨key, i, stored⟩
    exact ⟨_, ⟨i, i.isLt, rfl⟩, ((table_eq_some hash).mp stored).2⟩

theorem stored_mem_values {hash : Hash K V size} {i : Fin size}
    (stored : hash.entries[i].v = some value) : value ∈ hash.values :=
  (mem_values hash).mpr ⟨_, i, (table_eq_some hash).mpr ⟨rfl, stored⟩⟩

/-- A lookup answers from the table, wherever it leads. -/
theorem get_mem_values {callbacks : Callbacks K V W} {hash : Hash K V size}
    (found : get callbacks hash key = some value) : value ∈ hash.values := by
  obtain ⟨slot, -, stored⟩ := Option.bind_eq_some_iff.mp found
  exact stored_mem_values stored

private theorem filterMap_set_perm (f : α → Option β) (l : List α) (x : α) (bound : i < l.length) :
    ((l.set i x).filterMap f ++ (f l[i]).toList).Perm (l.filterMap f ++ (f x).toList) := by
  have trade : ∀ a : α, ((l.take i ++ a :: l.drop (i + 1)).filterMap f).Perm
      ((l.take i ++ l.drop (i + 1)).filterMap f ++ (f a).toList) := by
    intro a
    simp only [List.filterMap_append, List.append_assoc]
    apply List.Perm.append_left _
    cases hf : f a with
    | none => simp [hf]
    | some b => simpa [hf] using (List.perm_append_singleton b _).symm
  have old := trade l[i]
  rw [List.cons_getElem_drop_succ, List.take_append_drop] at old
  have new := trade x
  rw [← show l.set i x = l.take i ++ x :: l.drop (i + 1) by
    rw [List.set_eq_take_append_cons_drop, if_pos bound]] at new
  refine (new.append_right _).trans (.trans ?_ (old.symm.append_right _))
  simp only [List.append_assoc]
  exact List.Perm.append_left _ List.perm_append_comm

/-- Overwriting one slot trades its value for the new one. -/
theorem values_set_perm (hash : Hash K V size) (i : Fin size) (entry : Entry K V) :
    ((⟨hash.entries.set i entry⟩ : Hash K V size).values ++ hash.entries[i].v.toList).Perm
      (hash.values ++ entry.v.toList) := by
  have traded := filterMap_set_perm (fun e : Entry K V => e.v) hash.entries.toList entry
    (i := i) (by simp)
  simpa [values, Vector.toList_set] using traded

section Probing
open OpenAddressing CircularBuffer
variable [DecidableEq K] (callbacks : Callbacks K V W)

def home (positive : 0 < size) (key : K) : Fin size :=
  ⟨(callbacks.lookup key).toNat % size, Nat.mod_lt _ positive⟩

/-- `cmp` decides equality of keys. -/
def Callbacks.Decides : Prop := ∀ a b, callbacks.cmp a b = 0 ↔ a = b

variable {callbacks}

theorem halts_table (decides : callbacks.Decides) (hash : Hash K V size) (i : Fin size) :
    (callbacks.cmp key hash.entries[i].k = 0 ∨ hash.entries[i].v.isNone = true) ↔
      halts hash.table key i = true := by
  rw [halts_iff, decides, Option.isNone_iff_eq_none, table_eq_none]
  constructor
  · rintro (rfl | free)
    · cases stored : hash.entries[i].v with
      | none => exact Or.inl rfl
      | some value => exact Or.inr ⟨value, (table_eq_some hash).mpr ⟨rfl, stored⟩⟩
    · exact Or.inl free
  · rintro (free | ⟨value, stored⟩)
    · exact Or.inr free
    · exact Or.inl ((table_eq_some hash).mp stored).1.symm

/-- The loop at `offset` places from the start scans the rest of the revolution:
it stops in time exactly because the start comes round again. -/
private theorem findEntryFrom_eq (decides : callbacks.Decides) (hash : Hash K V size) (key : K)
    (start : Fin size) (fuel : Nat) (offset : Nat) (within : offset + fuel + 1 = size) :
    findEntryFrom callbacks hash key start.val (fuel + 1) (slot start offset).val =
      some (seek (halts hash.table key) (slot start offset) (tour (slot start offset) fuel)) := by
  induction fuel generalizing offset with
  | zero =>
    have bound := (slot start offset).isLt
    have back : ((slot start offset).val + 1 : Int).tmod size = start.val := by
      have wrapped : slot start (offset + 1) = start := by
        rw [show offset + 1 = size by omega]
        exact Fin.ext (by simp [slot, Nat.mod_eq_of_lt start.isLt])
      have := congrArg Fin.val (slot_slot start offset 1 ▸ wrapped)
      simp only [slot] at this ⊢
      rw [← Int.natCast_succ, ← Int.ofNat_tmod]
      exact congrArg Nat.cast this
    rw [findEntryFrom, dif_pos ⟨by omega, by omega⟩]
    simp [back, tour, seek]
  | succ fuel ih =>
    have bound := (slot start offset).isLt
    have next : ((slot start offset).val + 1 : Int).tmod size = (slot start (offset + 1)).val := by
      rw [← slot_slot start offset 1]
      simp only [slot]
      norm_cast
    have apart : ((slot start (offset + 1)).val : Int) ≠ start.val := by
      intro same
      have := (slot_inj start (i := offset + 1) (j := 0) (by omega) (by omega)).mp
        (Fin.ext (by rw [slot_zero]; omega))
      omega
    rw [findEntryFrom, dif_pos ⟨by omega, by omega⟩]
    simp only [Int.toNat_natCast, halts_table decides, next, apart, ne_eq, not_false_eq_true,
      if_true, tour, seek, slot_slot]
    rw [ih (offset + 1) (by omega)]
    split <;> rfl

/-- A probe that starts at the home slot stays inside the table. -/
theorem findEntry_of_start (decides : callbacks.Decides) (positive : 0 < size)
    (hash : Hash K V size)
    (start : (callbacks.lookup key).tmod size = (home callbacks positive key).val) :
    findEntry callbacks hash key =
      some (locate (linear (home callbacks positive)) hash.table key) := by
  have scan := findEntryFrom_eq decides hash key (home callbacks positive key)
    (size - 1) 0 (by omega)
  rw [slot_zero, Nat.sub_add_cancel positive] at scan
  simp only [findEntry, start, scan]
  rfl

/-- A key with a non-negative lookup is found without leaving the table. -/
theorem findEntry_eq (decides : callbacks.Decides) (positive : 0 < size) (hash : Hash K V size)
    (inside : 0 ≤ callbacks.lookup key) :
    findEntry callbacks hash key =
      some (locate (linear (home callbacks positive)) hash.table key) := by
  obtain ⟨n, same⟩ := Int.eq_ofNat_of_zero_le inside
  apply findEntry_of_start decides
  simp only [home, same, Int.toNat_natCast]
  norm_cast

omit [DecidableEq K] in
theorem get_of_found {slot : Fin size} (hash : Hash K V size)
    (found : findEntry callbacks hash key = some slot) :
    get callbacks hash key = (hash.table slot).map Prod.snd := by
  simp only [get, found, bind, Option.bind_some, table, Option.map_map]
  cases hash.entries[slot].v <;> rfl

theorem get_eq (decides : callbacks.Decides) (positive : 0 < size) (hash : Hash K V size)
    (inside : 0 ≤ callbacks.lookup key) :
    get callbacks hash key =
      (hash.table (locate (linear (home callbacks positive)) hash.table key)).map Prod.snd :=
  get_of_found hash (findEntry_eq decides positive hash inside)

theorem table_insert (decides : callbacks.Decides) (positive : 0 < size) (hash : Hash K V size)
    (inside : 0 ≤ callbacks.lookup key) (value : V) (world : W) :
    (insert callbacks hash key value world).1.table =
      OpenAddressing.insert (linear (home callbacks positive)) hash.table key value := by
  simp only [insert, findEntry_eq decides positive hash inside]
  funext i
  by_cases same : i = locate (linear (home callbacks positive)) hash.table key
  · subst i
    rw [insert_located]
    simp [table]
  · rw [insert_elsewhere value same]
    have apart : (locate (linear (home callbacks positive)) hash.table key).val ≠ i.val :=
      fun h => same (Fin.ext h.symm)
    simp [table, Vector.getElem_set_ne _ _ apart]

/-- Inserting adds the value and gives up the one that lookups of the key found. -/
theorem values_insert_perm (decides : callbacks.Decides) (positive : 0 < size)
    (hash : Hash K V size) (inside : 0 ≤ callbacks.lookup key) (value : V) (world : W) :
    ((insert callbacks hash key value world).1.values ++ (get callbacks hash key).toList).Perm
      (hash.values ++ [value]) := by
  have found : findEntry callbacks hash key = some _ := findEntry_eq decides positive hash inside
  simpa [insert, get, found] using values_set_perm hash
    (locate (linear (home callbacks positive)) hash.table key) ⟨key, some value⟩

end Probing

/-- `destroy` is called for the entry that is found, unless it is unused. -/
theorem insert_world {callbacks : Callbacks K V W} {hash : Hash K V size} {world : W}
    (found : findEntry callbacks hash key = some i) :
    (insert callbacks hash key value world).2 =
      match hash.entries[i].v with
      | none => world
      | some _ => (callbacks.destroy hash.entries[i] world).2 := by
  simp only [insert, found]
  cases hash.entries[i].v with
  | none => rfl
  | some old => rfl

section Reset
variable (callbacks : Callbacks K V W)

theorem resetEntry_table (state : Hash K V size × W) (i j : Fin size) :
    (resetEntry callbacks state i).1.table j = if j = i then none else state.1.table j := by
  by_cases same : j = i
  · subst j
    simp [resetEntry, table]
  · have apart : i.val ≠ j.val := fun h => same (Fin.ext h.symm)
    simp [resetEntry, table, same, Vector.getElem_set_ne _ _ apart]

theorem resetEntries_table (slots : List (Fin size)) (state : Hash K V size × W) (j : Fin size) :
    (slots.foldl (resetEntry callbacks) state).1.table j =
      if j ∈ slots then none else state.1.table j := by
  induction slots generalizing state with
  | nil => simp
  | cons i rest ih =>
    rw [List.foldl_cons, ih, resetEntry_table]
    by_cases later : j ∈ rest
    · simp [later]
    · simp [later]

@[simp] theorem table_reset (hash : Hash K V size) (world : W) :
    (reset callbacks hash world).1.table = fun _ => none := by
  funext j
  simp [reset, resetEntries_table]

end Reset

section Visits
variable (callbacks : Callbacks K V W)

/-- Either loop visits a slot and puts something back. -/
def visitEntry (putBack : Entry K V → Entry K V) (state : Hash K V size × W) (i : Fin size) :
    Hash K V size × W :=
  (⟨state.1.entries.set i (putBack (callbacks.destroy state.1.entries[i] state.2).1)⟩,
    (callbacks.destroy state.1.entries[i] state.2).2)

theorem resetEntry_visits : @resetEntry K V W size callbacks =
    visitEntry callbacks fun entry => { entry with v := none } := rfl

theorem destroyEntry_visits : @destroyEntry K V W size callbacks = visitEntry callbacks id := rfl

/-- The callback destroys the value of the entry it is given, and no other. -/
def Callbacks.Tells (callbacks : Callbacks K V W) (told : W → List V) : Prop :=
  ∀ entry world, told (callbacks.destroy entry world).2 = told world ++ entry.v.toList

theorem values_finRange (hash : Hash K V size) :
    (List.finRange size).filterMap (fun i => hash.entries[i].v) = hash.values := by
  have all : (List.finRange size).map (fun i => hash.entries[i]) = hash.entries.toList := by
    apply List.ext_getElem
    · simp
    · intro i _ _
      simp
  rw [values, ← all, List.filterMap_map]
  rfl

variable {callbacks} {told : W → List V} {E : Type} {noted : W → List E} {note : V → E}

/-- It leaves a note of it. -/
def Callbacks.Notes (callbacks : Callbacks K V W) (noted : W → List E) (note : V → E) : Prop :=
  ∀ entry world, noted (callbacks.destroy entry world).2 = noted world ++ entry.v.toList.map note

theorem Callbacks.Tells.notes (tells : callbacks.Tells told) : callbacks.Notes told id := by
  intro entry world
  rw [tells, List.map_id]

/-- What the slots hold is destroyed, slot by slot. -/
theorem visited_noted (notes : callbacks.Notes noted note) (putBack : Entry K V → Entry K V)
    (slots : List (Fin size)) (distinct : slots.Nodup) (hash : Hash K V size) (world : W) :
    noted (slots.foldl (visitEntry callbacks putBack) (hash, world)).2 =
      noted world ++ (slots.filterMap fun i => hash.entries[i].v).map note := by
  induction slots generalizing hash world with
  | nil => simp
  | cons i rest ih =>
    obtain ⟨fresh, distinct⟩ := List.nodup_cons.mp distinct
    have kept (entry : Entry K V) : (rest.filterMap fun j => (hash.entries.set i entry)[j].v) =
        rest.filterMap fun j => hash.entries[j].v := by
      apply List.filterMap_congr
      intro j member
      have apart : i.val ≠ j.val := fun same => fresh (Fin.ext same ▸ member)
      simp [Vector.getElem_set_ne _ _ apart]
    rw [List.foldl_cons, visitEntry, ih distinct, kept, notes, List.append_assoc]
    cases stored : hash.entries[i].v <;> simp only [List.filterMap_cons, stored] <;> simp

theorem reset_noted (notes : callbacks.Notes noted note) (hash : Hash K V size) (world : W) :
    noted (hash.reset callbacks world).2 = noted world ++ hash.values.map note := by
  rw [reset, resetEntry_visits, visited_noted notes _ _ (List.nodup_finRange _), values_finRange]

theorem destroy_noted (notes : callbacks.Notes noted note) (hash : Hash K V size) (world : W) :
    noted (hash.destroy callbacks world) = noted world ++ hash.values.map note := by
  rw [destroy, destroyEntry_visits, visited_noted notes _ _ (List.nodup_finRange _), values_finRange]

theorem reset_told (tells : callbacks.Tells told) (hash : Hash K V size) (world : W) :
    told (hash.reset callbacks world).2 = told world ++ hash.values := by
  rw [reset_noted tells.notes, List.map_id]

theorem destroy_told (tells : callbacks.Tells told) (hash : Hash K V size) (world : W) :
    told (hash.destroy callbacks world) = told world ++ hash.values := by
  rw [destroy_noted tells.notes, List.map_id]

end Visits
end Hash
end Freedcc
