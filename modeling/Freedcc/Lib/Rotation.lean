import Mathlib.Data.List.Nodup

/-! Rotas: lists of keyed values that are served in turn. Storing under a known
key keeps its place, a new key joins at the end, and serving moves the head to
the end. -/
namespace Rotation
variable {K V : Type} [DecidableEq K]

def keys (rota : List (K × V)) : List K := rota.map Prod.fst

def upsert (key : K) (value : V) : List (K × V) → List (K × V)
  | [] => [(key, value)]
  | (k, v) :: rest => if k = key then (key, value) :: rest else (k, v) :: upsert key value rest

def serve : List (K × V) → Option V × List (K × V)
  | [] => (none, [])
  | (k, v) :: rest => (some v, rest ++ [(k, v)])

theorem keys_upsert (key : K) (value : V) (rota : List (K × V)) :
    keys (upsert key value rota) = if key ∈ keys rota then keys rota else keys rota ++ [key] := by
  induction rota with
  | nil => simp [upsert, keys]
  | cons pair rest ih =>
    obtain ⟨k, v⟩ := pair
    by_cases same : k = key
    · simp [upsert, keys, same]
    · have other : key ≠ k := fun h => same h.symm
      by_cases member : key ∈ rest.map Prod.fst
      · simp only [keys, member, if_true] at ih
        simp [upsert, keys, same, member, ih]
      · simp only [keys, member, if_false] at ih
        simp [upsert, keys, same, other, member, ih]

theorem mem_keys_upsert {rota : List (K × V)} :
    k ∈ keys (upsert key value rota) ↔ k = key ∨ k ∈ keys rota := by
  rw [keys_upsert]
  split
  · rename_i known
    exact (or_iff_right_of_imp fun same => same ▸ known).symm
  · rw [List.mem_append, List.mem_singleton, or_comm]

theorem mem_upsert {rota : List (K × V)} (distinct : (keys rota).Nodup) :
    (k, v) ∈ upsert key value rota ↔ (k = key ∧ v = value) ∨ (k ≠ key ∧ (k, v) ∈ rota) := by
  induction rota with
  | nil => simp [upsert]
  | cons pair rest ih =>
    obtain ⟨k', v'⟩ := pair
    obtain ⟨fresh, distinct⟩ := List.nodup_cons.mp distinct
    by_cases same : k' = key
    · subst k'
      have elsewhere : (k, v) ∈ rest → k ≠ key := by
        rintro member rfl
        exact fresh (List.mem_map.mpr ⟨_, member, rfl⟩)
      simp only [upsert, if_true, List.mem_cons, Prod.mk.injEq]
      constructor
      · rintro (here | member)
        · exact Or.inl here
        · exact Or.inr ⟨elsewhere member, Or.inr member⟩
      · rintro (here | ⟨other, ⟨equal, _⟩ | member⟩)
        · exact Or.inl here
        · exact False.elim (other equal)
        · exact Or.inr member
    · simp only [upsert, same, if_false, List.mem_cons, Prod.mk.injEq, ih distinct]
      constructor
      · rintro (⟨rfl, rfl⟩ | here | ⟨other, member⟩)
        · exact Or.inr ⟨same, Or.inl ⟨rfl, rfl⟩⟩
        · exact Or.inl here
        · exact Or.inr ⟨other, Or.inr member⟩
      · rintro (here | ⟨other, here | member⟩)
        · exact Or.inr (Or.inl here)
        · exact Or.inl here
        · exact Or.inr (Or.inr ⟨other, member⟩)

omit [DecidableEq K] in
theorem serve_perm (rota : List (K × V)) : (serve rota).2.Perm rota := by
  cases rota with
  | nil => exact .refl _
  | cons pair rest => exact List.perm_append_singleton pair rest

omit [DecidableEq K] in
theorem mem_keys_serve {rota : List (K × V)} : k ∈ keys (serve rota).2 ↔ k ∈ keys rota :=
  ((serve_perm rota).map Prod.fst).mem_iff

/-- So many are served before the value. -/
def Waits (count : Nat) (key : K) (value : V) (rota : List (K × V)) : Prop :=
  ∃ front back, rota = front ++ (key, value) :: back ∧ front.length = count

omit [DecidableEq K] in
theorem waits_of_mem {rota : List (K × V)} (member : (key, value) ∈ rota) :
    ∃ count < rota.length, Waits count key value rota := by
  obtain ⟨front, back, rfl⟩ := List.append_of_mem member
  refine ⟨front.length, ?_, front, back, rfl, rfl⟩
  rw [List.length_append, List.length_cons]
  omega

/-- Storing for another key makes nobody wait longer. -/
theorem Waits.upsert {rota : List (K × V)} (waits : Waits count key value rota) (other : k ≠ key)
    (v : V) : Waits count key value (upsert k v rota) := by
  obtain ⟨front, back, rfl, rfl⟩ := waits
  induction front with
  | nil =>
    have apart : ¬ key = k := fun same => other same.symm
    simp only [List.nil_append, Rotation.upsert, if_neg apart]
    exact ⟨[], _, rfl, rfl⟩
  | cons pair front ih =>
    obtain ⟨k', v'⟩ := pair
    by_cases same : k' = k
    · simp only [List.cons_append, Rotation.upsert, if_pos same]
      exact ⟨(k, v) :: front, back, rfl, rfl⟩
    · obtain ⟨front', back', split, length⟩ := ih
      simp only [List.cons_append, Rotation.upsert, if_neg same, split]
      exact ⟨(k', v') :: front', back', rfl, by rw [List.length_cons, length, List.length_cons]⟩

omit [DecidableEq K] in
theorem Waits.served {rota : List (K × V)} (waits : Waits 0 key value rota) :
    (serve rota).1 = some value := by
  obtain ⟨front, back, rfl, none⟩ := waits
  rw [List.length_eq_zero_iff.mp none]
  rfl

omit [DecidableEq K] in
theorem Waits.serve {rota : List (K × V)} (waits : Waits (count + 1) key value rota) :
    Waits count key value (serve rota).2 := by
  obtain ⟨front, back, rfl, length⟩ := waits
  cases front with
  | nil => contradiction
  | cons pair front =>
    refine ⟨front, back ++ [pair], ?_, Nat.succ.inj length⟩
    simp only [List.cons_append, Rotation.serve, List.append_assoc]

section Map
variable {L W : Type} [DecidableEq L] {f : K → L} {g : V → W}

/-- A rota seen through other names for keys and values. -/
def view (f : K → L) (g : V → W) (rota : List (K × V)) : List (L × W) := rota.map (Prod.map f g)

theorem view_upsert (injective : Function.Injective f) (key : K) (value : V) (rota : List (K × V)) :
    view f g (upsert key value rota) = upsert (f key) (g value) (view f g rota) := by
  induction rota with
  | nil => rfl
  | cons pair rest ih =>
    obtain ⟨k, v⟩ := pair
    by_cases same : k = key
    · simp [upsert, view, same]
    · have apart : f k ≠ f key := injective.ne same
      simp only [upsert, if_neg same, view, List.map_cons, Prod.map_apply, if_neg apart]
      exact congrArg _ ih

omit [DecidableEq K] [DecidableEq L] in
theorem serve_view (rota : List (K × V)) :
    serve (view f g rota) = ((serve rota).1.map g, view f g (serve rota).2) := by
  cases rota with
  | nil => rfl
  | cons pair rest =>
    obtain ⟨k, v⟩ := pair
    simp only [serve, view, List.map_cons, List.map_append, List.map_nil, Prod.map_apply, Option.map_some]

omit [DecidableEq K] [DecidableEq L] in
theorem length_view (rota : List (K × V)) : (view f g rota).length = rota.length :=
  List.length_map _

end Map

theorem length_upsert (key : K) (value : V) (rota : List (K × V)) :
    (upsert key value rota).length = rota.length + if key ∈ keys rota then 0 else 1 := by
  have length := congrArg List.length (keys_upsert key value rota)
  rw [keys, List.length_map] at length
  rw [length]
  split <;> simp [keys]

end Rotation
