import Mathlib.Data.List.Perm.Subperm

/-! Texts written into a block of memory character by character: where the
writes fall, and what a reader of the block finds. Nothing stops a write beyond
the length that was asked for. -/

structure TextBlock where
  length : Int
  /-- Latest first. -/
  writes : List (Nat × Char)

namespace TextBlock

def malloc (length : Int) : TextBlock := { length, writes := [] }

def put (block : TextBlock) (i : Nat) (c : Char) : TextBlock :=
  { block with writes := (i, c) :: block.writes }

/-- `none` where nothing has been written. -/
def read (block : TextBlock) (i : Nat) : Option Char :=
  (block.writes.find? (·.1 == i)).map Prod.snd

def Inside (block : TextBlock) : Prop := ∀ w ∈ block.writes, (w.1 : Int) < block.length

def Begins (block : TextBlock) (text : List Char) : Prop :=
  ∀ (i : Nat) (c : Char), text[i]? = some c → block.read i = some c

def IsString (block : TextBlock) (text : List Char) : Prop :=
  '\x00' ∉ text ∧ block.Begins (text ++ ['\x00'])

/-- The writes have spelt this text and touched nothing else. -/
structure Wrote (block : TextBlock) (text : List Char) : Prop where
  begins : block.Begins text
  within : ∀ w ∈ block.writes, w.1 < text.length

instance (block : TextBlock) : Decidable block.Inside := List.decidableBAll _ _

variable {block : TextBlock} {text : List Char}

@[simp] theorem length_put (block : TextBlock) (i : Nat) (c : Char) :
    (block.put i c).length = block.length := rfl

theorem read_put (block : TextBlock) (i j : Nat) (c : Char) :
    (block.put i c).read j = if i = j then some c else block.read j := by
  by_cases same : i = j
  · simp [read, put, same]
  · simp [read, put, same]

theorem wrote_malloc (length : Int) : (malloc length).Wrote [] :=
  ⟨by simp [Begins], by simp [malloc]⟩

/-- A write goes to the end of the text, or in place of its last character. -/
theorem Wrote.put {old : List Char} (wrote : block.Wrote (text ++ old)) (short : old.length ≤ 1)
    (c : Char) : (block.put text.length c).Wrote (text ++ [c]) := by
  constructor
  · intro i d found
    rw [read_put]
    by_cases last : i = text.length
    · subst i
      simpa using found
    · have before : i < text.length := by
        have inside := (List.getElem?_eq_some_iff.mp found).1
        simp only [List.length_append, List.length_singleton] at inside
        omega
      rw [List.getElem?_append_left before] at found
      rw [if_neg (Ne.symm last)]
      exact wrote.begins i d (by rw [List.getElem?_append_left before, found])
  · intro w member
    have bound : w = (text.length, c) ∨ w.1 < (text ++ old).length := by
      rcases List.mem_cons.mp member with here | earlier
      · exact Or.inl here
      · exact Or.inr (wrote.within w earlier)
    simp only [List.length_append, List.length_singleton] at bound ⊢
    rcases bound with rfl | bound
    · exact Nat.lt_succ_self _
    · omega

/-- One more character. -/
theorem Wrote.append (wrote : block.Wrote text) (c : Char) :
    (block.put text.length c).Wrote (text ++ [c]) := by
  have wrote' : block.Wrote (text ++ []) := by rwa [List.append_nil]
  exact wrote'.put (Nat.zero_le 1) c

theorem Wrote.inside (wrote : block.Wrote text) (room : (text.length : Int) ≤ block.length) :
    block.Inside := by
  intro w member
  have within := wrote.within w member
  omega

theorem Wrote.isString (wrote : block.Wrote (text ++ ['\x00'])) (plain : '\x00' ∉ text) :
    block.IsString text := ⟨plain, wrote.begins⟩

/-! Reading a block as a C string. -/

def stringFrom (block : TextBlock) : Nat → Nat → List Char
  | 0, _ => []
  | fuel + 1, i =>
    match block.read i with
    | some c => if c = '\x00' then [] else c :: block.stringFrom fuel (i + 1)
    | none => []

/-- The characters before the first NUL; there are no more than have been written. -/
def string (block : TextBlock) : List Char := block.stringFrom block.writes.length 0

/-- Every character of a text has taken a write of its own. -/
theorem Begins.length_le (begins : block.Begins text) : text.length ≤ block.writes.length := by
  have written : List.range text.length ⊆ block.writes.map Prod.fst := by
    intro i member
    have inside : i < text.length := List.mem_range.mp member
    have found := begins i text[i] (List.getElem?_eq_getElem inside)
    obtain ⟨w, here, -⟩ := Option.map_eq_some_iff.mp found
    have same : w.1 = i := by simpa using List.find?_some here
    exact List.mem_map.mpr ⟨w, List.mem_of_find?_eq_some here, same⟩
  have shorter := (List.subperm_of_subset List.nodup_range written).length_le
  rwa [List.length_range, List.length_map] at shorter

theorem stringFrom_eq (plain : '\x00' ∉ text) (enough : text.length < fuel) {i : Nat}
    (begins : ∀ j c, (text ++ ['\x00'])[j]? = some c → block.read (i + j) = some c) :
    block.stringFrom fuel i = text := by
  induction text generalizing fuel i with
  | nil =>
    obtain ⟨fuel, rfl⟩ := Nat.exists_eq_add_one.mpr enough
    have last : block.read i = some '\x00' := begins 0 '\x00' rfl
    rw [stringFrom, last]
    rfl
  | cons d text ih =>
    obtain ⟨fuel, rfl⟩ := Nat.exists_eq_add_one.mpr (Nat.zero_lt_of_lt enough)
    have here : block.read i = some d := begins 0 d rfl
    have other : d ≠ '\x00' := fun same => plain (same ▸ List.mem_cons_self)
    have later : block.stringFrom fuel (i + 1) = text := by
      apply ih (fun member => plain (List.mem_cons_of_mem d member))
        (Nat.lt_of_succ_lt_succ enough)
      intro j c found
      rw [Nat.add_assoc, Nat.add_comm 1 j]
      exact begins (j + 1) c found
    rw [stringFrom, here]
    simp only [other, if_false, later]

theorem IsString.string (isString : block.IsString text) : block.string = text := by
  obtain ⟨plain, begins⟩ := isString
  have enough := begins.length_le
  rw [List.length_append, List.length_singleton] at enough
  apply stringFrom_eq plain enough
  intro j c found
  rw [Nat.zero_add]
  exact begins j c found

/-! Writers of pieces, from an index on, and the loop that separates the pieces. -/

section Pieces
variable {β : Type}

/-- A piece is spelt from `k` on; `tail` is written after it and not counted. -/
def Spells (write : β → Nat × TextBlock → Nat × TextBlock) (spell : β → List Char)
    (tail : List Char) : Prop :=
  ∀ x text block, block.Wrote text → ∃ after : TextBlock,
    write x (text.length, block) = ((text ++ spell x).length, after) ∧
      after.Wrote (text ++ spell x ++ tail) ∧ after.length = block.length

/-- The pieces, with the separator before all but the first. It goes on while the
index is no further than `limit`. -/
def separated (write : β → Nat × TextBlock → Nat × TextBlock) (separator : Char) (limit : Int) :
    List β → Nat × TextBlock → Nat × TextBlock
  | [], state => state
  | x :: rest, (k, block) =>
    if (k : Int) ≤ limit then
      let (k, block) := write x (k, block)
      separated write separator limit rest
        (if rest.isEmpty then (k, block) else (k + 1, block.put k separator))
    else (k, block)

/-- With a limit it does not reach, the loop spells the pieces joined. -/
theorem Spells.separated {write : β → Nat × TextBlock → Nat × TextBlock} {spell : β → List Char}
    {tail : List Char} (spells : Spells write spell tail) (short : tail.length ≤ 1)
    (visible : ∀ x, spell x ≠ []) {separator : Char} {limit : Int} {pieces : List β}
    (some : pieces ≠ []) {text : List Char} {block : TextBlock} (wrote : block.Wrote text)
    (room : ((text ++ [separator].intercalate (pieces.map spell)).length : Int) ≤ limit + 1) :
    ∃ after : TextBlock, separated write separator limit pieces (text.length, block) =
        ((text ++ [separator].intercalate (pieces.map spell)).length, after) ∧
      after.Wrote (text ++ [separator].intercalate (pieces.map spell) ++ tail) ∧
      after.length = block.length := by
  induction pieces generalizing text block with
  | nil => exact absurd rfl some
  | cons x rest ih =>
    have positive : 0 < (spell x).length := List.length_pos_iff.mpr (visible x)
    obtain ⟨first, written, spelt, sized⟩ := spells x text block wrote
    cases rest with
    | nil =>
      simp only [List.map_cons, List.map_nil, List.intercalate_singleton] at room ⊢
      have go : (text.length : Int) ≤ limit := by
        rw [List.length_append] at room
        omega
      refine ⟨first, ?_, spelt, sized⟩
      simp only [TextBlock.separated, go, if_true, written, List.isEmpty_nil]
    | cons y rest =>
      simp only [List.map_cons, List.intercalate_cons_cons, List.append_assoc] at room ⊢
      have go : (text.length : Int) ≤ limit := by
        simp only [List.length_append] at room
        omega
      have blank := spelt.put short separator
      obtain ⟨after, later, all, kept⟩ := ih (by simp) blank (by
        simpa only [List.map_cons, List.append_assoc] using room)
      refine ⟨after, ?_, ?_, kept.trans sized⟩
      · rw [TextBlock.separated]
        simp only [go, if_true, written, List.isEmpty_cons, Bool.false_eq_true, if_false]
        have next : (text ++ spell x).length + 1 = (text ++ spell x ++ [separator]).length := by
          simp [Nat.add_assoc]
        rw [next, later]
        simp only [List.map_cons, List.append_assoc]
      · simpa only [List.map_cons, List.append_assoc] using all

end Pieces
end TextBlock
