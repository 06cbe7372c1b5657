import Freedcc.HashHistory
import Freedcc.Lib.Inventory

/-! What becomes of the values of a hash table, whatever its callbacks and however full
it gets: each is in one slot until it is destroyed, and `Hash_destroy` leaves none. -/
namespace Freedcc.Hash
variable {K V W : Type} {size : Nat}

variable {callbacks : Callbacks K V W} {told : W → List V}

theorem values_of_empty {hash : Hash K V size} (table : hash.table = fun _ => none) :
    hash.values = [] := by
  apply List.eq_nil_iff_forall_not_mem.mpr
  intro value member
  obtain ⟨key, i, stored⟩ := (mem_values _).mp member
  rw [table] at stored
  contradiction

def Call.inserted : Call K V → Option V
  | .insert _ value => some value
  | _ => none

section Whole
variable [DecidableEq K] (positive : 0 < size) (decides : callbacks.Decides)
  (inside : ∀ key, 0 ≤ callbacks.lookup key) (tells : callbacks.Tells told)
include positive decides inside tells

/-- What an insertion destroys is what lookups of the key found. -/
theorem insert_told (hash : Hash K V size) (key : K) (value : V) (world : W) :
    told (hash.insert callbacks key value world).2 = told world ++ (hash.get callbacks key).toList := by
  obtain ⟨i, found⟩ : ∃ i, findEntry callbacks hash key = some i :=
    ⟨_, findEntry_eq decides positive hash (inside key)⟩
  have got : hash.get callbacks key = hash.entries[i].v := by
    rw [get, found]
    rfl
  rw [insert_world found, got]
  cases stored : hash.entries[i].v with
  | none => exact (List.append_nil _).symm
  | some old =>
    have last := tells hash.entries[i] world
    rw [stored] at last
    exact last

/-- A call leaves the balance of what is stored, destroyed and inserted. -/
theorem call_balance (h : History K V W size) (call : Call K V) :
    ((h.call callbacks call).1.hash.values ++ told (h.call callbacks call).1.world).Perm
      (h.hash.values ++ told h.world ++ call.inserted.toList) := by
  cases call with
  | get key => exact List.append_nil _ ▸ .refl _
  | reset =>
    have empty : (h.hash.reset callbacks h.world).1.values = [] :=
      values_of_empty (table_reset callbacks h.hash h.world)
    simp only [History.call, empty, reset_told tells, Call.inserted, Option.toList_none,
      List.append_nil, List.nil_append]
    exact List.perm_append_comm
  | insert key value =>
    have traded := values_insert_perm decides positive h.hash (inside key) value h.world
    simp only [History.call, insert_told positive decides inside tells, Call.inserted,
      Option.toList_some]
    exact Inventory.balance_append (.refl _) traded

theorem run_balance (calls : List (Call K V)) (h : History K V W size) :
    ((Run.final (History.call callbacks) h calls).hash.values ++
        told (Run.final (History.call callbacks) h calls).world).Perm
      (h.hash.values ++ told h.world ++ calls.filterMap Call.inserted) := by
  induction calls generalizing h with
  | nil => exact List.append_nil _ ▸ .refl _
  | cons call rest ih =>
    apply (ih _).trans
    have first := (call_balance positive decides inside tells h call).append_right
      (rest.filterMap Call.inserted)
    apply first.trans
    rw [List.append_assoc]
    cases inserted : call.inserted <;> simp [inserted]

/-- Whatever is inserted, over capacity as well: at any time every value is stored or has been
destroyed, once, and when `Hash_destroy` returns all of them have been destroyed. -/
theorem hash_lifetime (memory : Vector (Entry K V) size) (world : W) (calls : List (Call K V)) :
    let h := Run.final (History.call callbacks) (History.start memory world) calls
    (h.hash.values ++ told h.world).Perm (told world ++ calls.filterMap Call.inserted) ∧
      (told (h.hash.destroy callbacks h.world)).Perm (told world ++ calls.filterMap Call.inserted) := by
  have empty : (create memory).values = [] := values_of_empty (table_create memory)
  have balance := run_balance positive decides inside tells calls (History.start memory world)
  simp only [History.start, empty, List.nil_append] at balance
  refine ⟨balance, ?_⟩
  rw [destroy_told tells]
  exact List.perm_append_comm.trans balance

end Whole

/-- Five keys in two slots. -/
theorem hash_lifetime_sampling :
    let h := Run.final (History.call sample)
      (History.start (Vector.replicate 2 ⟨7, none⟩) []) sampling
    (h.hash.destroy sample h.world).Perm ["a", "b", "c", "d", "e", "f"] := by
  have decides : sample.Decides := by
    intro a b
    simp only [sample]
    split <;> simp_all
  have tells : sample.Tells id := fun _ _ => rfl
  exact (hash_lifetime (by decide) decides (fun _ => Int.natCast_nonneg _) tells
    (Vector.replicate 2 ⟨7, none⟩) [] sampling).2

end Freedcc.Hash
