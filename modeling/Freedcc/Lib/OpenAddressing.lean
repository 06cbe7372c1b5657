import Freedcc.Lib.CircularBuffer
import Mathlib.Data.Fintype.Card
import Mathlib.Data.Finset.Max

/-! Open addressing without deletion, for any probe order. A table maps slots to
the pair stored there. A key is located at the first slot of its probe order
that is free or holds the key, and at the last slot visited when there is none;
storing there in the latter case displaces another key. Linear probing is the
order of one revolution from the home slot. -/
namespace OpenAddressing

/-- The scan of a do-while loop over `slot :: rest`. -/
def seek (stop : S → Bool) : S → List S → S
  | slot, [] => slot
  | slot, next :: rest => if stop slot then slot else seek stop next rest

theorem seek_split (stop : S → Bool) (slot : S) (rest : List S) :
    ∃ before after, slot :: rest = before ++ seek stop slot rest :: after ∧
      (∀ s ∈ before, stop s = false) ∧ (stop (seek stop slot rest) = true ∨ after = []) := by
  induction rest generalizing slot with
  | nil => exact ⟨[], [], rfl, by simp, Or.inr rfl⟩
  | cons next rest ih =>
    by_cases halt : stop slot = true
    · exact ⟨[], next :: rest, by simp [seek, halt], by simp, Or.inl (by simp [seek, halt])⟩
    · obtain ⟨before, after, split, passed, last⟩ := ih next
      have running : stop slot = false := by simpa using halt
      have same : seek stop slot (next :: rest) = seek stop next rest := by simp [seek, running]
      rw [same]
      refine ⟨slot :: before, after, by rw [split]; rfl, ?_, last⟩
      intro s member
      rcases List.mem_cons.mp member with rfl | member
      · exact running
      · exact passed s member

theorem seek_of_split {stop : S → Bool} (split : slot :: rest = before ++ found :: after)
    (passed : ∀ s ∈ before, stop s = false) (last : stop found = true ∨ after = []) :
    seek stop slot rest = found := by
  induction before generalizing slot rest with
  | nil =>
    obtain ⟨rfl, rfl⟩ := List.cons.inj split
    cases rest with
    | nil => rfl
    | cons next rest => simp [seek, last.resolve_right (List.cons_ne_nil _ _)]
  | cons first before ih =>
    obtain ⟨rfl, tail⟩ := List.cons.inj split
    cases rest with
    | nil => simp at tail
    | cons next rest =>
      simp only [seek, passed slot List.mem_cons_self, Bool.false_eq_true, if_false]
      exact ih tail (fun s member => passed s (List.mem_cons_of_mem _ member))

theorem seek_mem (stop : S → Bool) (slot : S) (rest : List S) :
    seek stop slot rest ∈ slot :: rest := by
  obtain ⟨before, after, split, _, _⟩ := seek_split stop slot rest
  rw [split]
  simp

theorem seek_stops {stop : S → Bool} (member : s ∈ slot :: rest) (halt : stop s = true) :
    stop (seek stop slot rest) = true := by
  obtain ⟨before, after, split, passed, last | rfl⟩ := seek_split stop slot rest
  · exact last
  · rw [split, List.mem_append, List.mem_singleton] at member
    rcases member with member | rfl
    · rw [passed s member] at halt
      contradiction
    · exact halt

theorem seek_exhausted {stop : S → Bool} (none : ∀ s ∈ slot :: rest, stop s = false) :
    seek stop slot rest = (slot :: rest).getLast (List.cons_ne_nil _ _) := by
  obtain ⟨before, after, split, _, last⟩ := seek_split stop slot rest
  have running := none _ (seek_mem stop slot rest)
  obtain rfl := last.resolve_left (by simp [running])
  simp only [split, List.getLast_append_singleton]

section Table
variable {S K V : Type} [DecidableEq K]

abbrev Table (S K V : Type) := S → Option (K × V)

def Holds (t : Table S K V) (key : K) (value : V) : Prop := ∃ s, t s = some (key, value)
def Present (t : Table S K V) (key : K) : Prop := ∃ value, Holds t key value
def Full (t : Table S K V) : Prop := ∀ s, t s ≠ none

def halts (t : Table S K V) (key : K) (s : S) : Bool :=
  match t s with
  | none => true
  | some (k, _) => decide (k = key)

theorem halts_iff (t : Table S K V) :
    halts t key s = true ↔ t s = none ∨ ∃ value, t s = some (key, value) := by
  cases stored : t s with
  | none => simp [halts, stored]
  | some pair => simp [halts, stored, Prod.ext_iff]

theorem halts_of_stored {t : Table S K V} (stored : t s = some (key, value)) :
    halts t key s = true := (halts_iff t).mpr (Or.inr ⟨value, stored⟩)

theorem halts_congr {t t' : Table S K V} (same : t' s = t s) (key : K) :
    halts t' key s = halts t key s := by
  unfold halts
  rw [same]

variable (order : K → S × List S)

def probes (key : K) : List S := (order key).1 :: (order key).2

def locate (t : Table S K V) (key : K) : S := seek (halts t key) (order key).1 (order key).2

/-- Every stored key is found where it is stored. No probe of it is stopped by a
free slot, so this carries both the uniqueness of keys and the probe chains. -/
def Settled (t : Table S K V) : Prop :=
  ∀ s key value, t s = some (key, value) → locate order t key = s

variable {order} {t : Table S K V}

theorem settled_empty : Settled order (fun _ => none : Table S K V) := by
  intro s key value stored
  contradiction

theorem Settled.unique (settled : Settled order t) (left : t a = some (key, v))
    (right : t b = some (key, w)) : a = b :=
  (settled a key v left).symm.trans (settled b key w right)

theorem Settled.located (settled : Settled order t) (stored : t s = some (key, value)) :
    t (locate order t key) = some (key, value) := by
  rw [settled s key value stored, stored]

theorem locate_free (covers : ∀ s, s ∈ probes order key) (absent : ¬ Present t key)
    (room : ¬ Full t) : t (locate order t key) = none := by
  obtain ⟨s, free⟩ : ∃ s, t s = none := by simpa [Full] using room
  have stopped : halts t key (locate order t key) = true :=
    seek_stops (covers s) ((halts_iff t).mpr (Or.inl free))
  rcases (halts_iff t).mp stopped with free | ⟨value, stored⟩
  · exact free
  · exact False.elim (absent ⟨value, _, stored⟩)

theorem locate_displaced (full : Full t) (absent : ¬ Present t key) :
    locate order t key = (probes order key).getLast (List.cons_ne_nil _ _) := by
  apply seek_exhausted
  intro s _
  rw [← Bool.not_eq_true, halts_iff]
  rintro (free | ⟨value, stored⟩)
  · exact full s free
  · exact absent ⟨value, s, stored⟩

variable [DecidableEq S]

variable (order) in
def insert (t : Table S K V) (key : K) (value : V) : Table S K V :=
  Function.update t (locate order t key) (some (key, value))

theorem insert_located (key : K) (value : V) :
    insert order t key value (locate order t key) = some (key, value) := by
  simp [insert]

theorem insert_elsewhere (value : V) (apart : s ≠ locate order t key) :
    insert order t key value s = t s := by
  simp [insert, apart]

/-- What is stored after an insertion is new, or was stored there before. -/
theorem insert_eq_some : insert order t key value s = some (k, v) ↔
    (s = locate order t key ∧ k = key ∧ v = value) ∨
      (s ≠ locate order t key ∧ t s = some (k, v)) := by
  by_cases same : s = locate order t key
  · subst s
    rw [insert_located]
    simp [eq_comm]
  · rw [insert_elsewhere value same]
    simp [same]

theorem insert_full (full : Full t) : Full (insert order t key value) := by
  intro s
  by_cases same : s = locate order t key
  · simp [insert, same]
  · rw [insert_elsewhere value same]
    exact full s

/-- The stored key itself is found at its new place: the slots before it were
passed already, and no probe order repeats a slot. -/
private theorem settled_insert_new (nodup : (probes order key).Nodup) :
    locate order (insert order t key value) key = locate order t key := by
  obtain ⟨before, after, split, passed, _⟩ :=
    seek_split (halts t key) (order key).1 (order key).2
  refine seek_of_split split ?_ (Or.inl (halts_of_stored (insert_located key value)))
  intro s member
  have apart : s ≠ locate order t key := by
    rintro rfl
    unfold probes at nodup
    rw [split] at nodup
    exact (List.nodup_append.mp nodup).2.2 _ member _ List.mem_cons_self rfl
  have running := passed s member
  unfold halts at running ⊢
  rwa [insert_elsewhere value apart]

/-- A key stored elsewhere is still found there: the only slot that changed, if
its probe passes it at all, was occupied before and holds another key now. -/
private theorem settled_insert_old (settled : Settled order t) (stored : t s = some (k, v))
    (apart : s ≠ locate order t key) : locate order (insert order t key value) k = s := by
  obtain ⟨before, after, split, passed, _⟩ := seek_split (halts t k) (order k).1 (order k).2
  have found : seek (halts t k) (order k).1 (order k).2 = s := settled s k v stored
  rw [found] at split
  have kept : insert order t key value s = some (k, v) := by
    rw [insert_elsewhere value apart, stored]
  refine seek_of_split split ?_ (Or.inl (halts_of_stored kept))
  intro slot member
  by_cases changed : slot = locate order t key
  · have other : key ≠ k := by
      rintro rfl
      exact apart (settled s key v stored).symm
    rw [changed, halts, insert_located]
    simpa using other
  · have running := passed slot member
    unfold halts at running ⊢
    rwa [insert_elsewhere value changed]

theorem Settled.insert (settled : Settled order t) (nodup : (probes order key).Nodup) (value : V) :
    Settled order (OpenAddressing.insert order t key value) := by
  intro s k v stored
  by_cases same : s = locate order t key
  · subst s
    rw [insert_located, Option.some.injEq, Prod.mk.injEq] at stored
    obtain ⟨rfl, _⟩ := stored
    exact settled_insert_new nodup
  · rw [insert_elsewhere value same] at stored
    exact settled_insert_old settled stored same

theorem Settled.holds_insert (settled : Settled order t) (kept : ¬ Full t ∨ Present t key)
    (covers : ∀ s, s ∈ probes order key) (k : K) (v : V) :
    Holds (OpenAddressing.insert order t key value) k v ↔
      (k = key ∧ v = value) ∨ (k ≠ key ∧ Holds t k v) := by
  have replaced : ∀ k v, t (locate order t key) = some (k, v) → k = key := by
    intro k v stored
    by_cases present : Present t key
    · obtain ⟨w, s, found⟩ := present
      rw [settled.located found, Option.some.injEq, Prod.mk.injEq] at stored
      exact stored.1.symm
    · rw [locate_free covers present (kept.resolve_right present)] at stored
      contradiction
  constructor
  · rintro ⟨s, stored⟩
    by_cases same : s = locate order t key
    · subst s
      rw [insert_located, Option.some.injEq, Prod.mk.injEq] at stored
      exact Or.inl ⟨stored.1.symm, stored.2.symm⟩
    · rw [insert_elsewhere value same] at stored
      by_cases equal : k = key
      · subst k
        exact False.elim (same (settled s key v stored).symm)
      · exact Or.inr ⟨equal, s, stored⟩
  · rintro (⟨rfl, rfl⟩ | ⟨other, s, stored⟩)
    · exact ⟨_, insert_located k v⟩
    · refine ⟨s, ?_⟩
      rw [insert_elsewhere value, stored]
      rintro rfl
      exact other (replaced k v stored)

variable (order) in
/-- The slot a full probe ends in. -/
def lastProbe (key : K) : S := (probes order key).getLast (List.cons_ne_nil _ _)

omit [DecidableEq S] in
/-- Only in a full table is a key put where another one stands. -/
theorem full_of_displaced (covers : ∀ s, s ∈ probes order key)
    (taken : t (locate order t key) = some (k, value)) (other : k ≠ key) : Full t := by
  intro s free
  have stopped : halts t key (locate order t key) = true :=
    seek_stops (covers s) ((halts_iff t).mpr (Or.inl free))
  rw [halts, taken] at stopped
  exact other (of_decide_eq_true stopped)

/-- Where another key is found once a key has been stored: where it was, unless
the key has taken its place. -/
theorem Settled.locate_insert (settled : Settled order t)
    (covers : ∀ s, s ∈ probes order key) (sought : Full t ∨ Present t k) (other : k ≠ key)
    (value : V) : locate order (OpenAddressing.insert order t key value) k =
      if (t (locate order t key)).map Prod.fst = some k then lastProbe order k
      else locate order t k := by
  have moved : ∀ s w, OpenAddressing.insert order t key value s = some (k, w) →
      s ≠ locate order t key ∧ t s = some (k, w) := by
    intro s w stored
    have apart : s ≠ locate order t key := by
      rintro rfl
      rw [insert_located, Option.some.injEq, Prod.mk.injEq] at stored
      exact other stored.1.symm
    exact ⟨apart, by rwa [insert_elsewhere value apart] at stored⟩
  split
  · rename_i taken
    obtain ⟨⟨_, w⟩, stored, rfl⟩ := Option.map_eq_some_iff.mp taken
    apply locate_displaced (insert_full (full_of_displaced covers stored other))
    rintro ⟨v, s, again⟩
    obtain ⟨apart, before⟩ := moved s v again
    exact apart (settled.unique before stored)
  · rename_i untaken
    by_cases present : Present t k
    · obtain ⟨w, s, stored⟩ := present
      have apart : s ≠ locate order t key := by
        rintro rfl
        exact untaken (by rw [stored]; rfl)
      rw [settled_insert_old settled stored apart, settled s k w stored]
    · have full := sought.resolve_right present
      rw [locate_displaced full present, locate_displaced (insert_full full)]
      rintro ⟨v, s, again⟩
      exact present ⟨v, s, (moved s v again).2⟩

omit [DecidableEq S] in
/-- A table that is not full stores fewer keys than it has slots. -/
theorem Settled.length_lt [Fintype S] {keys : List K} (settled : Settled order t)
    (room : ¬ Full t) (distinct : keys.Nodup) (stored : ∀ key ∈ keys, Present t key) :
    keys.length < Fintype.card S := by
  obtain ⟨s, free⟩ : ∃ s, t s = none := by simpa [Full] using room
  have placed : ∀ key ∈ keys, ∃ value, t (locate order t key) = some (key, value) := by
    intro key member
    obtain ⟨value, slot, found⟩ := stored key member
    exact ⟨value, settled.located found⟩
  have distinctSlots : (keys.map (locate order t)).Nodup := by
    refine List.Nodup.map_on ?_ distinct
    intro a ha b hb same
    obtain ⟨v, left⟩ := placed a ha
    obtain ⟨w, right⟩ := placed b hb
    rw [same, right, Option.some.injEq, Prod.mk.injEq] at left
    exact left.1.symm
  have missed : s ∉ keys.map (locate order t) := by
    intro member
    obtain ⟨key, hk, rfl⟩ := List.mem_map.mp member
    obtain ⟨value, found⟩ := placed key hk
    rw [free] at found
    contradiction
  have bound := (List.nodup_cons.mpr ⟨missed, distinctSlots⟩).length_le_card
  rwa [List.length_cons, List.length_map] at bound

omit [DecidableEq S] in
/-- A full table stores as many keys as it has slots. -/
theorem Settled.card_le [Fintype S] (settled : Settled order t) (full : Full t) (keys : Finset K)
    (within : ∀ key, Present t key → key ∈ keys) : Fintype.card S ≤ keys.card := by
  have stored : ∀ s, ∃ pair, t s = some pair := fun s => Option.ne_none_iff_exists'.mp (full s)
  choose pair hpair using stored
  have inside : ∀ s ∈ Finset.univ, (pair s).1 ∈ keys :=
    fun s _ => within _ ⟨_, s, hpair s⟩
  have injective : Set.InjOn (fun s => (pair s).1) (Finset.univ : Finset S) := by
    intro a _ b _ same
    have left : t a = some ((pair a).1, (pair a).2) := hpair a
    have right : t b = some ((pair a).1, (pair b).2) := by rw [show (pair a).1 = _ from same, hpair b]
    exact settled.unique left right
  exact Finset.card_univ (α := S) ▸ Finset.card_le_card_of_injOn _ inside injective

end Table

section Linear
open CircularBuffer

/-- The `count` places after `start`. -/
def tour (start : Fin n) : Nat → List (Fin n)
  | 0 => []
  | count + 1 => slot start 1 :: tour (slot start 1) count

theorem tour_eq (start : Fin n) (count : Nat) :
    tour start count = (List.range count).map fun offset => slot start (offset + 1) := by
  induction count generalizing start with
  | zero => rfl
  | succ count ih =>
    rw [tour, ih, List.range_succ_eq_map, List.map_cons, List.map_map]
    congr 1
    apply List.map_congr_left
    intro offset _
    simp only [Function.comp_apply, slot_slot, Nat.succ_eq_add_one, Nat.add_comm, Nat.add_left_comm]

/-- One revolution from the home slot. -/
def linear (home : K → Fin n) (key : K) : Fin n × List (Fin n) :=
  (home key, tour (home key) (n - 1))

theorem linear_probes (home : K → Fin n) (key : K) :
    probes (linear home) key = (List.range n).map (slot (home key)) := by
  obtain ⟨m, rfl⟩ : ∃ m, n = m + 1 := ⟨n - 1, by have := (home key).pos; omega⟩
  simp only [probes, linear, tour_eq, Nat.add_sub_cancel, List.range_succ_eq_map, List.map_cons,
    List.map_map, slot_zero]
  rfl

theorem linear_nodup (home : K → Fin n) (key : K) : (probes (linear home) key).Nodup := by
  rw [linear_probes]
  refine List.Nodup.map_on ?_ List.nodup_range
  intro i hi j hj same
  exact (slot_inj _ (List.mem_range.mp hi) (List.mem_range.mp hj)).mp same

theorem linear_covers (home : K → Fin n) (key : K) (s : Fin n) :
    s ∈ probes (linear home) key := by
  obtain ⟨offset, below, same⟩ := slot_surjective (home key) s
  rw [linear_probes]
  exact List.mem_map.mpr ⟨offset, List.mem_range.mpr below, same⟩

theorem range_split (inside : k < n) : ∃ rest, List.range n = List.range k ++ k :: rest := by
  obtain ⟨m, rfl⟩ : ∃ m, n = k + (m + 1) := ⟨n - k - 1, by omega⟩
  rw [List.range_add, List.range_succ_eq_map, List.map_cons]
  exact ⟨_, rfl⟩

section Straight
variable {K V : Type} [DecidableEq K] {home : K → Fin n} {t : Table (Fin n) K V} {key : K}

/-- A key that is located without wrapping has passed the slots before. -/
theorem linear_passed (low : (home key).val ≤ (locate (linear home) t key).val) (i : Fin n)
    (above : (home key).val ≤ i.val) (below : i.val < (locate (linear home) t key).val) :
    halts t key i = false := by
  obtain ⟨before, after, split, passed, -⟩ :=
    seek_split (halts t key) (linear home key).1 (linear home key).2
  have order : (List.range n).map (slot (home key)) =
      before ++ locate (linear home) t key :: after := (linear_probes home key).symm.trans split
  have visited : ∀ j < n, (before ++ locate (linear home) t key :: after)[j]? =
      some (slot (home key) j) := by
    intro j inside
    rw [← order, List.getElem?_map, List.getElem?_range inside]
    rfl
  have short : before.length < n := by
    have length := congrArg List.length order
    rw [List.length_map, List.length_range, List.length_append, List.length_cons] at length
    omega
  have last := visited before.length short
  rw [List.getElem?_append_right (Nat.le_refl _), Nat.sub_self, List.getElem?_cons_zero,
    Option.some.injEq] at last
  have bound := (locate (linear home) t key).isLt
  have place : (locate (linear home) t key).val - (home key).val = before.length :=
    (slot_inj (home key) (by omega) short).mp ((slot_sub low).trans last)
  have inner : i.val - (home key).val < before.length := by omega
  apply passed
  have here := visited (i.val - (home key).val) (by omega)
  rw [List.getElem?_append_left inner, slot_sub above] at here
  exact List.mem_of_getElem? here

/-- A key is located where the slots from its home on have been passed. -/
theorem linear_locate {s : Fin n} (low : (home key).val ≤ s.val)
    (passed : ∀ i : Fin n, (home key).val ≤ i.val → i.val < s.val → halts t key i = false)
    (stops : halts t key s = true) : locate (linear home) t key = s := by
  have bound := s.isLt
  obtain ⟨rest, places⟩ := range_split (show s.val - (home key).val < n by omega)
  have split : (linear home key).1 :: (linear home key).2 =
      (List.range (s.val - (home key).val)).map (slot (home key)) ++
        s :: rest.map (slot (home key)) := by
    apply (linear_probes home key).trans
    rw [places, List.map_append, List.map_cons, slot_sub low]
  refine seek_of_split split ?_ (Or.inl stops)
  intro i member
  obtain ⟨offset, within, rfl⟩ := List.mem_map.mp member
  have inside := List.mem_range.mp within
  have value : (slot (home key) offset).val = (home key).val + offset :=
    Nat.mod_eq_of_lt (by omega)
  apply passed <;> rw [value] <;> omega

/-- It is located there still if no slot before stops the search in another table. -/
theorem linear_locate_kept {t' : Table (Fin n) K V} {s : Fin n} (low : (home key).val ≤ s.val)
    (located : locate (linear home) t key = s)
    (kept : ∀ i : Fin n, (home key).val ≤ i.val → i.val < s.val →
      halts t key i = false → halts t' key i = false)
    (stops : halts t' key s = true) : locate (linear home) t' key = s := by
  subst located
  apply linear_locate low
  · intro i above below
    exact kept i above below (linear_passed low i above below)
  · exact stops

end Straight
end Linear
end OpenAddressing
