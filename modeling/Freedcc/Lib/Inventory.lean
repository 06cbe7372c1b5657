import Mathlib.Data.List.Nodup

/-! The books of a machine that things are handed to. It has each of them in stock, or has
given it up, once; and it does nothing with a thing that it has given up. -/
namespace Inventory
variable {A U U' : Type*}

/-- What is kept and what is gone, before and after. -/
theorem balance_append {kept kept' gone gone' given more : List A}
    (before : (kept ++ gone).Perm given) (after : (kept' ++ gone').Perm (kept ++ more)) :
    (kept' ++ (gone ++ gone')).Perm (given ++ more) := by
  calc
    (kept' ++ (gone ++ gone')).Perm (kept' ++ (gone' ++ gone)) := List.perm_append_comm.append_left _
    List.Perm _ (kept' ++ gone' ++ gone) := List.append_assoc _ _ _ ▸ .refl _
    List.Perm _ (kept ++ more ++ gone) := after.append_right _
    List.Perm _ (kept ++ gone ++ more) := by
      rw [List.append_assoc, List.append_assoc]
      exact List.perm_append_comm.append_left _
    List.Perm _ (given ++ more) := before.append_right _

/-- What is gone, counted by the uses that give it up. -/
theorem count_gone [DecidableEq A] [DecidableEq U] {gone : U → Option A} {destroy : A → U}
    (parted : ∀ {use a}, gone use = some a ↔ use = destroy a) (uses : List U) (a : A) :
    (uses.filterMap gone).count a = uses.count (destroy a) := by
  rw [List.count, List.countP_filterMap, List.count]
  apply List.countP_congr
  intro use _
  rw [beq_iff_eq, ← parted]
  cases gone use <;> simp

section Definitions
variable (item : U → A) (gone : U → Option A) (own : A)

/-- A use does not come after the one that gives up its thing. -/
abbrev Alive (earlier later : U) : Prop := gone earlier ≠ some (item later)

/-- What has been handed over, what is in stock, and what has been done so far. `own` is a
thing of the machine's own. -/
structure Books (given stock : List A) (uses : List U) : Prop where
  balance : (stock ++ uses.filterMap gone).Perm given
  known : ∀ use ∈ uses, item use ∈ own :: given
  alive : (own :: given).Nodup → uses.Pairwise (Alive item gone)

/-- What a step does with the stock and with what is handed over meanwhile. -/
structure Turn (stock more stock' : List A) (uses : List U) : Prop where
  balance : (stock' ++ uses.filterMap gone).Perm (stock ++ more)
  known : ∀ use ∈ uses, item use ∈ stock ∨ item use = own
  alive : stock.Nodup → uses.Pairwise (Alive item gone)

end Definitions

variable {item : U → A} {gone : U → Option A} {own : A} {given more stock stock' : List A}
  {uses used : List U}

theorem books_nil : Books item gone own [] [] [] := ⟨.refl _, by simp, fun _ => .nil⟩

theorem turn_nil : Turn item gone own stock [] stock [] :=
  ⟨.refl _, by simp, fun _ => .nil⟩

/-- The same under another name for the uses. -/
theorem Turn.map {item' : U' → A} {gone' : U' → Option A} (turn : Turn item gone own stock more stock' uses)
    (rename : U → U') (items : ∀ use, item' (rename use) = item use)
    (gones : ∀ use, gone' (rename use) = gone use) :
    Turn item' gone' own stock more stock' (uses.map rename) := by
  have same : gone' ∘ rename = gone := funext gones
  refine ⟨?_, ?_, fun distinct => ?_⟩
  · rw [List.filterMap_map, same]
    exact turn.balance
  · intro use member
    obtain ⟨first, known, rfl⟩ := List.mem_map.mp member
    rw [items]
    exact turn.known first known
  · refine List.pairwise_map.mpr ((turn.alive distinct).imp ?_)
    intro earlier later alive
    rwa [Alive, gones, items]

theorem Books.owned (books : Books item gone own given stock uses) (distinct : given.Nodup) :
    (stock ++ uses.filterMap gone).Nodup := books.balance.nodup_iff.mpr distinct

theorem Books.stocked (books : Books item gone own given stock uses) (member : a ∈ stock) : a ∈ given :=
  books.balance.subset (List.mem_append_left _ member)

theorem Books.parted (books : Books item gone own given stock uses) (member : a ∈ uses.filterMap gone) :
    a ∈ given := books.balance.subset (List.mem_append_right _ member)

/-- The own thing is never given up. -/
theorem Books.own_kept (books : Books item gone own given stock uses) (distinct : (own :: given).Nodup) :
    own ∉ uses.filterMap gone :=
  fun member => (List.nodup_cons.mp distinct).1 (books.parted member)

/-- Each thing is in stock or gone, once. -/
theorem Books.once [DecidableEq A] (books : Books item gone own given stock uses)
    (distinct : given.Nodup) (member : a ∈ given) :
    stock.count a + (uses.filterMap gone).count a = 1 := by
  rw [← List.count_append, books.balance.count_eq]
  exact List.count_eq_one_of_mem distinct member

theorem Books.turn (books : Books item gone own given stock uses)
    (turn : Turn item gone own stock more stock' used) :
    Books item gone own (given ++ more) stock' (uses ++ used) := by
  refine ⟨?_, ?_, fun distinct => ?_⟩
  · rw [List.filterMap_append]
    exact balance_append books.balance turn.balance
  · intro use member
    rw [← List.cons_append]
    apply List.mem_append_left
    rcases List.mem_append.mp member with old | new
    · exact books.known use old
    · rcases turn.known use new with held | same
      · exact List.mem_cons_of_mem _ (books.stocked held)
      · exact same ▸ List.mem_cons_self
  · rw [← List.cons_append] at distinct
    have before := (List.nodup_append.mp distinct).1
    obtain ⟨stocked, -, apart⟩ := List.nodup_append.mp (books.owned (List.nodup_cons.mp before).2)
    refine List.pairwise_append.mpr ⟨books.alive before, turn.alive stocked, ?_⟩
    intro earlier old later new parted
    have parted : item later ∈ uses.filterMap gone := List.mem_filterMap.mpr ⟨earlier, old, parted⟩
    rcases turn.known later new with held | same
    · exact apart _ held _ parted rfl
    · exact books.own_kept before (same ▸ parted)

end Inventory
