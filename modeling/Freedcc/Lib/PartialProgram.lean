import Mathlib.Logic.Basic

/-! Programs that change a state and may fail: partial correctness, total
correctness, and simulation of one program by another. All follow the structure
of the program, with one rule for each way of building one. -/
namespace PartialProgram
variable {σ τ ε α β : Type}

/-- Started in `P`, the program ends in `Q` if it ends at all. -/
def Ensures (P : σ → Prop) (x : StateT σ (Except ε) α) (Q : α → σ → Prop) : Prop :=
  ∀ s a t, P s → x s = .ok (a, t) → Q a t

section Structure
variable {x : StateT σ (Except ε) α} {f : α → StateT σ (Except ε) β} {s : σ}

theorem bind_ok {b : β} {u : σ} (returned : (x >>= f) s = .ok (b, u)) :
    ∃ a t, x s = .ok (a, t) ∧ f a t = .ok (b, u) := by
  cases first : x s with
  | error fault =>
    simp only [bind, StateT.bind, first, Except.bind] at returned
    contradiction
  | ok pair =>
    simp only [bind, StateT.bind, first, Except.bind] at returned
    exact ⟨pair.1, pair.2, rfl, returned⟩

theorem ok_bind {a : α} {t : σ} (first : x s = .ok (a, t)) : (x >>= f) s = f a t := by
  simp only [bind, StateT.bind, first, Except.bind]

theorem error_bind {e : ε} (first : x s = .error e) : (x >>= f) s = .error e := by
  simp only [bind, StateT.bind, first, Except.bind]

section Connectives
variable {x y : StateT σ (Except ε) Bool} {t : σ}

theorem andM_true (first : x s = .ok (true, t)) : (x <&&> y) s = y t := ok_bind first

theorem andM_false (first : x s = .ok (false, t)) : (x <&&> y) s = .ok (false, t) := ok_bind first

theorem orM_true (first : x s = .ok (true, t)) : (x <||> y) s = .ok (true, t) := ok_bind first

theorem orM_false (first : x s = .ok (false, t)) : (x <||> y) s = y t := ok_bind first

theorem orM_assoc (x y z : StateT σ (Except ε) Bool) : ((x <||> y) <||> z) = (x <||> y <||> z) := by
  simp only [orM, bind_assoc]
  congr 1
  funext b
  cases b <;> simp [toBool]

theorem orM_pure_false (x : StateT σ (Except ε) Bool) : (x <||> pure false) = x := by
  refine Eq.trans ?_ (bind_pure x)
  simp only [orM]
  congr 1
  funext b
  cases b <;> rfl

end Connectives

theorem pure_ok {a b : α} {t : σ} :
    (pure a : StateT σ (Except ε) α) s = .ok (b, t) ↔ a = b ∧ s = t := by
  constructor
  · intro returned
    cases returned
    exact ⟨rfl, rfl⟩
  · rintro ⟨rfl, rfl⟩
    rfl

theorem modify_ok {change : σ → σ} {t : σ} :
    (modify change : StateT σ (Except ε) PUnit) s = .ok (⟨⟩, t) ↔ change s = t := by
  constructor
  · intro returned
    cases returned
    rfl
  · rintro rfl
    rfl

theorem get_ok {a t : σ} : (get : StateT σ (Except ε) σ) s = .ok (a, t) ↔ s = a ∧ s = t := by
  simp [get, getThe, MonadStateOf.get, StateT.get, pure, Except.pure]

end Structure

section Rules
variable {P P' : σ → Prop} {R : α → σ → Prop} {Q Q' : β → σ → Prop}

theorem Ensures.weaken {x : StateT σ (Except ε) β} (ensures : Ensures P x Q)
    (before : ∀ s, P' s → P s) (after : ∀ b s, Q b s → Q' b s) : Ensures P' x Q' :=
  fun s b t holds returned => after b t (ensures s b t (before s holds) returned)

theorem Ensures.pure {b : β} (holds : ∀ s, P s → Q b s) :
    Ensures P (pure b : StateT σ (Except ε) β) Q := by
  intro s a t before returned
  obtain ⟨rfl, rfl⟩ := pure_ok.mp returned
  exact holds _ before

theorem Ensures.bind {x : StateT σ (Except ε) α} {f : α → StateT σ (Except ε) β}
    (first : Ensures P x R) (rest : ∀ a, Ensures (R a) (f a) Q) : Ensures P (x >>= f) Q := by
  intro s b u before returned
  obtain ⟨a, t, one, two⟩ := bind_ok returned
  exact rest a t b u (first s a t before one) two

theorem Ensures.modify {change : σ → σ} {Q : PUnit → σ → Prop}
    (holds : ∀ s, P s → Q ⟨⟩ (change s)) :
    Ensures P (modify change : StateT σ (Except ε) PUnit) Q := by
  intro s a t before returned
  rw [← modify_ok.mp returned]
  exact holds s before

/-- The state read is the state at that point. -/
theorem Ensures.get {f : σ → StateT σ (Except ε) β}
    (rest : ∀ s, P s → Ensures (fun t => t = s) (f s) Q) : Ensures P (get >>= f) Q := by
  intro s b u before returned
  obtain ⟨a, t, read, returned⟩ := bind_ok returned
  obtain ⟨rfl, rfl⟩ := get_ok.mp read
  exact rest s before s b u rfl returned

theorem Ensures.ite {x y : StateT σ (Except ε) β} {c : Prop} [Decidable c]
    (yes : c → Ensures P x Q) (no : ¬ c → Ensures P y Q) : Ensures P (if c then x else y) Q := by
  split
  · exact yes ‹_›
  · exact no ‹_›

theorem Ensures.throw {e : ε} : Ensures P (throw e : StateT σ (Except ε) β) Q := by
  intro s a t _ returned
  contradiction

/-- A condition that is computed and then branched on. -/
theorem Ensures.cond {c : StateT σ (Except ε) Bool} {x y : StateT σ (Except ε) β}
    {R : Bool → σ → Prop} (test : Ensures P c R) (yes : Ensures (R true) x Q)
    (no : Ensures (R false) y Q) : Ensures P (do if ← c then x else y) Q := by
  refine test.bind fun b => ?_
  cases b with
  | true => exact yes
  | false => exact no

theorem Ensures.or {x y : StateT σ (Except ε) Bool} {Q : Bool → σ → Prop}
    {R : σ → Prop} (first : Ensures P x fun b s => if b then Q true s else R s)
    (second : Ensures R y Q) : Ensures P (x <||> y) Q := by
  refine first.bind fun b => ?_
  cases b with
  | true => exact Ensures.pure fun s holds => holds
  | false => exact second

theorem Ensures.and {x y : StateT σ (Except ε) Bool} {Q : Bool → σ → Prop}
    {R : σ → Prop} (first : Ensures P x fun b s => if b then R s else Q false s)
    (second : Ensures R y Q) : Ensures P (x <&&> y) Q := by
  refine first.bind fun b => ?_
  cases b with
  | true => exact second
  | false => exact Ensures.pure fun s holds => holds

/-- Invariants go through either connective. -/
theorem Ensures.and_keeps {x y : StateT σ (Except ε) Bool} (first : Ensures P x fun _ => P)
    (second : Ensures P y fun _ => P) : Ensures P (x <&&> y) fun _ => P :=
  Ensures.and (first.weaken (fun _ holds => holds) fun b s holds => by cases b <;> exact holds)
    second

theorem Ensures.or_keeps {x y : StateT σ (Except ε) Bool} (first : Ensures P x fun _ => P)
    (second : Ensures P y fun _ => P) : Ensures P (x <||> y) fun _ => P :=
  Ensures.or (first.weaken (fun _ holds => holds) fun b s holds => by cases b <;> exact holds)
    second

end Rules

/-- Started in `P`, the program ends, and in `Q`. -/
def Returns (P : σ → Prop) (x : StateT σ (Except ε) α) (Q : α → σ → Prop) : Prop :=
  ∀ s, P s → ∃ a t, x s = .ok (a, t) ∧ Q a t

section Total
variable {P P' : σ → Prop} {R : α → σ → Prop} {Q Q' : β → σ → Prop}

theorem Returns.weaken {x : StateT σ (Except ε) β} (returns : Returns P x Q)
    (before : ∀ s, P' s → P s) (after : ∀ b s, Q b s → Q' b s) : Returns P' x Q' := by
  intro s holds
  obtain ⟨b, t, returned, last⟩ := returns s (before s holds)
  exact ⟨b, t, returned, after b t last⟩

theorem Returns.pure {b : β} (holds : ∀ s, P s → Q b s) :
    Returns P (pure b : StateT σ (Except ε) β) Q :=
  fun s before => ⟨b, s, rfl, holds s before⟩

theorem Returns.bind {x : StateT σ (Except ε) α} {f : α → StateT σ (Except ε) β}
    (first : Returns P x R) (rest : ∀ a, Returns (R a) (f a) Q) : Returns P (x >>= f) Q := by
  intro s before
  obtain ⟨a, t, one, middle⟩ := first s before
  obtain ⟨b, u, two, last⟩ := rest a t middle
  exact ⟨b, u, (ok_bind one).trans two, last⟩

theorem Returns.modify {change : σ → σ} {Q : PUnit → σ → Prop}
    (holds : ∀ s, P s → Q ⟨⟩ (change s)) :
    Returns P (modify change : StateT σ (Except ε) PUnit) Q :=
  fun s before => ⟨⟨⟩, change s, rfl, holds s before⟩

theorem Returns.get {f : σ → StateT σ (Except ε) β}
    (rest : ∀ s, P s → Returns (fun t => t = s) (f s) Q) : Returns P (get >>= f) Q := by
  intro s before
  obtain ⟨b, t, returned, last⟩ := rest s before s rfl
  exact ⟨b, t, (ok_bind (get_ok.mpr ⟨rfl, rfl⟩)).trans returned, last⟩

theorem Returns.ite {x y : StateT σ (Except ε) β} {c : Prop} [Decidable c]
    (yes : c → Returns P x Q) (no : ¬ c → Returns P y Q) :
    Returns P (if c then x else y) Q := by
  split
  · exact yes ‹_›
  · exact no ‹_›

end Total

/-- What `x` returns, `y` returns from related states. The states are then as
`Q` says of the value; if nothing else is said, they are related as before. -/
def Simulates (R : σ → τ → Prop) (x : StateT σ (Except ε) α) (y : StateT τ (Except ε) α)
    (Q : α → σ → τ → Prop := fun _ => R) : Prop :=
  ∀ s t a s', R s t → x s = .ok (a, s') → ∃ t', y t = .ok (a, t') ∧ Q a s' t'

section Simulation
variable {R R' : σ → τ → Prop}

theorem Simulates.weaken {x : StateT σ (Except ε) α} {y : StateT τ (Except ε) α}
    {Q Q' : α → σ → τ → Prop} (simulates : Simulates R x y Q) (before : ∀ s t, R' s t → R s t)
    (after : ∀ a s t, Q a s t → Q' a s t) : Simulates R' x y Q' := by
  intro s t a s' related returned
  obtain ⟨t', same, holds⟩ := simulates s t a s' (before s t related) returned
  exact ⟨t', same, after a s' t' holds⟩

theorem Simulates.pure (a : α) {Q : α → σ → τ → Prop} (holds : ∀ s t, R s t → Q a s t) :
    Simulates R (pure a : StateT σ (Except ε) α) (pure a : StateT τ (Except ε) α) Q := by
  intro s t b s' related returned
  obtain ⟨rfl, rfl⟩ := pure_ok.mp returned
  exact ⟨t, rfl, holds _ t related⟩

theorem Simulates.bind {x : StateT σ (Except ε) α} {y : StateT τ (Except ε) α}
    {f : α → StateT σ (Except ε) β} {g : α → StateT τ (Except ε) β} {Q : α → σ → τ → Prop}
    {Q' : β → σ → τ → Prop} (first : Simulates R x y Q)
    (rest : ∀ a, Simulates (Q a) (f a) (g a) Q') : Simulates R (x >>= f) (y >>= g) Q' := by
  intro s t b s' related returned
  obtain ⟨a, u, one, two⟩ := bind_ok returned
  obtain ⟨v, same, middle⟩ := first s t a u related one
  obtain ⟨w, last, after⟩ := rest a u v b s' middle two
  exact ⟨w, (ok_bind same).trans last, after⟩

theorem Simulates.modify {f : σ → σ} {g : τ → τ} {Q : PUnit → σ → τ → Prop}
    (kept : ∀ s t, R s t → Q ⟨⟩ (f s) (g t)) :
    Simulates R (modify f : StateT σ (Except ε) PUnit) (modify g) Q := by
  intro s t a s' related returned
  obtain rfl := modify_ok.mp returned
  exact ⟨g t, rfl, kept s t related⟩

/-- Each program goes on with its own state. -/
theorem Simulates.get {f : σ → StateT σ (Except ε) β} {g : τ → StateT τ (Except ε) β}
    {Q : β → σ → τ → Prop}
    (rest : ∀ s t, R s t → Simulates (fun s' t' => s' = s ∧ t' = t) (f s) (g t) Q) :
    Simulates R (get >>= f) (get >>= g) Q := by
  intro s t b s' related returned
  obtain ⟨a, u, read, returned⟩ := bind_ok returned
  obtain ⟨rfl, rfl⟩ := get_ok.mp read
  obtain ⟨t', last, after⟩ := rest s t related s t b s' ⟨rfl, rfl⟩ returned
  exact ⟨t', (ok_bind (get_ok.mpr ⟨rfl, rfl⟩)).trans last, after⟩

theorem Simulates.throw (e : ε) {y : StateT τ (Except ε) α} {Q : α → σ → τ → Prop} :
    Simulates R (throw e) y Q := by
  intro s t a s' _ returned
  contradiction

theorem Simulates.ite {x x' : StateT σ (Except ε) α} {y y' : StateT τ (Except ε) α} {c : Prop}
    [Decidable c] {Q : α → σ → τ → Prop} (yes : c → Simulates R x y Q)
    (no : ¬ c → Simulates R x' y' Q) :
    Simulates R (if c then x else x') (if c then y else y') Q := by
  split
  · exact yes ‹_›
  · exact no ‹_›

theorem Simulates.cond {c : StateT σ (Except ε) Bool} {d : StateT τ (Except ε) Bool}
    {x x' : StateT σ (Except ε) α} {y y' : StateT τ (Except ε) α} (test : Simulates R c d)
    (yes : Simulates R x y) (no : Simulates R x' y') :
    Simulates R (do if ← c then x else x') (do if ← d then y else y') :=
  test.bind fun _ => Simulates.ite (fun _ => yes) fun _ => no

theorem Simulates.or {x x' : StateT σ (Except ε) Bool} {y y' : StateT τ (Except ε) Bool}
    (first : Simulates R x y) (second : Simulates R x' y') :
    Simulates R (x <||> x') (y <||> y') := by
  refine first.bind fun b => ?_
  cases b with
  | true => exact Simulates.pure true fun _ _ related => related
  | false => exact second

theorem Simulates.and {x x' : StateT σ (Except ε) Bool} {y y' : StateT τ (Except ε) Bool}
    (first : Simulates R x y) (second : Simulates R x' y') :
    Simulates R (x <&&> x') (y <&&> y') := by
  refine first.bind fun b => ?_
  cases b with
  | true => exact second
  | false => exact Simulates.pure false fun _ _ related => related

/-- Two programs that simulate each other end in states of which both simulations tell. -/
theorem Simulates.both {x : StateT σ (Except ε) α} {y : StateT τ (Except ε) α} {P : τ → σ → Prop}
    {Q : α → σ → τ → Prop} {Q' : α → τ → σ → Prop} (there : Simulates R x y Q)
    (back : Simulates P y x Q') :
    Simulates (fun s t => R s t ∧ P t s) x y fun a s t => Q a s t ∧ Q' a t s := by
  intro s t a s' related returned
  obtain ⟨t', same, holds⟩ := there s t a s' related.1 returned
  obtain ⟨s'', again, holds'⟩ := back t s a t' related.2 same
  cases returned.symm.trans again
  exact ⟨t', same, holds, holds'⟩

/-- The same value, whatever the states. -/
theorem Simulates.done (a : α) :
    Simulates R (Pure.pure a : StateT σ (Except ε) α) (Pure.pure a : StateT τ (Except ε) α) :=
  .pure a fun _ _ related => related

end Simulation
end PartialProgram
