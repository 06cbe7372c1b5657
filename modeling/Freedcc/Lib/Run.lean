import Mathlib.Data.List.Induction

/-! Finite runs of deterministic machines whose steps log events: invariants of
all states of a run, and forward simulations that preserve an observation. -/
namespace Run
variable {S T O E F : Type}

section Definitions
variable (step : S → O → S × List E)

def final : S → List O → S
  | s, [] => s
  | s, op :: rest => final (step s op).1 rest

def log : S → List O → List E
  | _, [] => []
  | s, op :: rest => (step s op).2 ++ log (step s op).1 rest

/-- In every state of the run, the first and the last included. -/
def Always (P : S → Prop) (s : S) (ops : List O) : Prop :=
  ∀ before, before <+: ops → P (final step s before)

/-- Every step is taken where it may be. -/
def Along (C : S → O → Prop) : S → List O → Prop
  | _, [] => True
  | s, op :: rest => C s op ∧ Along C (step s op).1 rest

end Definitions

variable {step : S → O → S × List E} {P Q : S → Prop}

theorem final_append (s : S) (xs ys : List O) :
    final step s (xs ++ ys) = final step (final step s xs) ys := by
  induction xs generalizing s with
  | nil => rfl
  | cons op rest ih => exact ih _

theorem log_append (s : S) (xs ys : List O) :
    log step s (xs ++ ys) = log step s xs ++ log step (final step s xs) ys := by
  induction xs generalizing s with
  | nil => rfl
  | cons op rest ih => simp only [List.cons_append, log, final, ih, List.append_assoc]

@[simp] theorem always_nil : Always step P s [] ↔ P s := by
  simp [Always, final]

@[simp] theorem always_cons :
    Always step P s (op :: rest) ↔ P s ∧ Always step P (step s op).1 rest := by
  constructor
  · intro all
    refine ⟨all [] (List.nil_prefix), fun before initial => ?_⟩
    exact all (op :: before) (List.cons_prefix_cons.mpr ⟨rfl, initial⟩)
  · rintro ⟨first, later⟩ before initial
    cases before with
    | nil => exact first
    | cons head before =>
      obtain ⟨rfl, shorter⟩ := List.cons_prefix_cons.mp initial
      exact later before shorter

instance decidableAlways [DecidablePred P] : ∀ s ops, Decidable (Always step P s ops)
  | s, [] => decidable_of_iff (P s) always_nil.symm
  | s, op :: rest =>
    have := decidableAlways (step s op).1 rest
    decidable_of_iff (P s ∧ Always step P (step s op).1 rest) always_cons.symm

instance decidableAlong {C : S → O → Prop} [∀ s, DecidablePred (C s)] :
    ∀ s ops, Decidable (Along step C s ops)
  | _, [] => isTrue trivial
  | s, op :: rest =>
    have := decidableAlong (C := C) (step s op).1 rest
    inferInstanceAs (Decidable (C s op ∧ Along step C (step s op).1 rest))

theorem Always.first (all : Always step P s ops) : P s := all [] List.nil_prefix

theorem Always.last (all : Always step P s ops) : P (final step s ops) := all ops (List.prefix_refl _)

theorem Always.mono (all : Always step P s ops) (weaker : ∀ s, P s → Q s) : Always step Q s ops :=
  fun before initial => weaker _ (all before initial)

theorem always_append : Always step P s (xs ++ ys) ↔
    Always step P s xs ∧ Always step P (final step s xs) ys := by
  induction xs generalizing s with
  | nil =>
    simp only [List.nil_append, always_nil, final]
    exact ⟨fun all => ⟨all.first, all⟩, fun all => all.2⟩
  | cons op rest ih => simp only [List.cons_append, always_cons, ih, final, and_assoc]

/-- What one step keeps holds all along a run, under a condition the run meets. -/
theorem Always.invariant {I : S → Prop} (all : Always step P s ops)
    (kept : ∀ s op, P s → P (step s op).1 → I s → I (step s op).1) (initial : I s) :
    Always step I s ops := by
  induction ops generalizing s with
  | nil => exact always_nil.mpr initial
  | cons op rest ih =>
    obtain ⟨first, later⟩ := always_cons.mp all
    exact always_cons.mpr ⟨initial, ih later (kept s op first later.first initial)⟩

theorem always_of_invariant (kept : ∀ s op, P s → P (step s op).1) (initial : P s) :
    Always step P s ops := by
  induction ops generalizing s with
  | nil => exact always_nil.mpr initial
  | cons op rest ih => exact always_cons.mpr ⟨initial, ih (kept s op initial)⟩

/-- A forward simulation carries the observations of one machine to the other,
as long as the run meets the condition the steps ask for. -/
theorem simulation {abstract : T → O → T × List F} (observe : E → Option F) {R : S → T → Prop}
    (simulates : ∀ s t op, R s t → P s → P (step s op).1 →
      R (step s op).1 (abstract t op).1 ∧ (step s op).2.filterMap observe = (abstract t op).2)
    (related : R s t) (all : Always step P s ops) :
    R (final step s ops) (final abstract t ops) ∧
      (log step s ops).filterMap observe = log abstract t ops := by
  induction ops generalizing s t with
  | nil => exact ⟨related, rfl⟩
  | cons op rest ih =>
    obtain ⟨first, later⟩ := always_cons.mp all
    obtain ⟨next, same⟩ := simulates s t op related first later.first
    obtain ⟨last, tail⟩ := ih next later
    exact ⟨last, by simp only [log, List.filterMap_append, same, tail]⟩

/-- A fact about the operations so far, the state reached and the events logged,
kept when a run grows by one step. -/
theorem Always.history {M : List O → S → List E → Prop} (all : Always step P s ops)
    (empty : M [] s [])
    (grows : ∀ ops t events op, P t → P (step t op).1 → M ops t events →
      M (ops ++ [op]) (step t op).1 (events ++ (step t op).2)) :
    M ops (final step s ops) (log step s ops) := by
  induction ops using List.reverseRecOn with
  | nil => exact empty
  | append_singleton ops op ih =>
    obtain ⟨before, last⟩ := always_append.mp all
    obtain ⟨first, after⟩ := always_cons.mp last
    rw [final_append, log_append]
    simpa only [final, log, List.append_nil] using grows ops _ _ op first after.first (ih before)

theorem along_append {C : S → O → Prop} : Along step C s (xs ++ ys) ↔
    Along step C s xs ∧ Along step C (final step s xs) ys := by
  induction xs generalizing s with
  | nil => simp [Along, final]
  | cons op rest ih => simp only [List.cons_append, Along, ih, final, and_assoc]

theorem Along.initial {C : S → O → Prop} (along : Along step C s ops) (shorter : before <+: ops) :
    Along step C s before := by
  obtain ⟨after, rfl⟩ := shorter
  exact (along_append.mp along).1

/-- A simulation by steps in their places: the logs are the same. -/
theorem Along.simulation {C : S → O → Prop} {abstract : T → O → T × List E} {R : S → T → Prop}
    (along : Along step C s ops)
    (simulates : ∀ s t op, C s op → R s t →
      R (step s op).1 (abstract t op).1 ∧ (step s op).2 = (abstract t op).2)
    (related : R s t) :
    R (final step s ops) (final abstract t ops) ∧ log step s ops = log abstract t ops := by
  induction ops generalizing s t with
  | nil => exact ⟨related, rfl⟩
  | cons op rest ih =>
    obtain ⟨next, same⟩ := simulates s t op along.1 related
    obtain ⟨last, tail⟩ := ih along.2 next
    exact ⟨last, by rw [log, log, same, tail]⟩

/-- The operations of another machine that a run amounts to. -/
def translated (step : S → O → S × List E) (translate : S → O → List O') : S → List O → List O' :=
  log fun s op => ((step s op).1, translate s op)

theorem translated_cons {O' : Type} (translate : S → O → List O') :
    translated step translate s (op :: rest) =
      translate s op ++ translated step translate (step s op).1 rest := rfl

theorem translated_const {O' : Type} (translate : O → List O') :
    translated step (fun _ => translate) s ops = ops.flatMap translate := by
  induction ops generalizing s with
  | nil => rfl
  | cons op rest ih => rw [translated_cons, ih, List.flatMap_cons]

/-- A simulation of a machine for which some of the operations are none at all, and
others several, as the state has it. -/
theorem Along.translated {C : S → O → Prop} {O' G : Type} {abstract : T → O' → T × List F}
    {R : S → T → Prop} (along : Along step C s ops) (observe : E → Option G)
    (observe' : F → Option G) (translate : S → O → List O')
    (simulates : ∀ s t op, C s op → R s t → R (step s op).1 (final abstract t (translate s op)) ∧
      (step s op).2.filterMap observe = (log abstract t (translate s op)).filterMap observe')
    (related : R s t) :
    R (final step s ops) (final abstract t (translated step translate s ops)) ∧
      (log step s ops).filterMap observe =
        (log abstract t (translated step translate s ops)).filterMap observe' := by
  induction ops generalizing s t with
  | nil => exact ⟨related, rfl⟩
  | cons op rest ih =>
    obtain ⟨next, same⟩ := simulates s t op along.1 related
    obtain ⟨last, tail⟩ := ih along.2 next
    rw [translated_cons, final_append, log_append, log, List.filterMap_append, List.filterMap_append,
      same, tail]
    exact ⟨last, rfl⟩

/-- Where each step is one operation of the other machine at most, its states are those
related to the states of the run. -/
theorem Along.translated_always {C : S → O → Prop} {O' : Type} {abstract : T → O' → T × List F}
    {R : S → T → Prop} {Q : T → Prop} (along : Along step C s ops) (translate : S → O → List O')
    (short : ∀ s op, (translate s op).length ≤ 1) (holds : ∀ s t, R s t → Q t)
    (simulates : ∀ s t op, C s op → R s t → R (step s op).1 (final abstract t (translate s op)))
    (related : R s t) : Always abstract Q t (Run.translated step translate s ops) := by
  induction ops generalizing s t with
  | nil => exact always_nil.mpr (holds s t related)
  | cons op rest ih =>
    have next := simulates s t op along.1 related
    rw [translated_cons, always_append]
    refine ⟨?_, ih along.2 next⟩
    have one := short s op
    generalize translate s op = ops' at next one ⊢
    rcases ops' with _ | ⟨single, _ | ⟨_, _⟩⟩
    · exact always_nil.mpr (holds s t related)
    · exact always_cons.mpr ⟨holds s t related, always_nil.mpr (holds _ _ next)⟩
    · exact absurd one (by simp)

/-- Likewise when the state is of no account. -/
theorem Along.stuttering {C : S → O → Prop} {O' : Type} {abstract : T → O' → T × List F}
    {R : S → T → Prop} (along : Along step C s ops) (observe : E → Option F) (translate : O → List O')
    (simulates : ∀ s t op, C s op → R s t → R (step s op).1 (final abstract t (translate op)) ∧
      (step s op).2.filterMap observe = log abstract t (translate op))
    (related : R s t) :
    R (final step s ops) (final abstract t (ops.flatMap translate)) ∧
      (log step s ops).filterMap observe = log abstract t (ops.flatMap translate) := by
  have whole : R (final step s ops)
        (final abstract t (Run.translated step (fun _ => translate) s ops)) ∧
      (log step s ops).filterMap observe =
        (log abstract t (Run.translated step (fun _ => translate) s ops)).filterMap some := by
    apply along.translated observe some _ _ related
    intro s t op here related
    rw [List.filterMap_some]
    exact simulates s t op here related
  rwa [translated_const, List.filterMap_some] at whole

/-- A simulation under a condition on the run of the abstract machine. -/
theorem Along.simulated {C : T → O → Prop} {abstract : T → O → T × List F} {R : S → T → Prop}
    (along : Along abstract C t ops) (observe : E → Option F)
    (simulates : ∀ s t op, C t op → R s t →
      R (step s op).1 (abstract t op).1 ∧ (step s op).2.filterMap observe = (abstract t op).2)
    (related : R s t) :
    R (final step s ops) (final abstract t ops) ∧
      (log step s ops).filterMap observe = log abstract t ops := by
  induction ops generalizing s t with
  | nil => exact ⟨related, rfl⟩
  | cons op rest ih =>
    obtain ⟨next, same⟩ := simulates s t op along.1 related
    obtain ⟨last, tail⟩ := ih along.2 next
    exact ⟨last, by rw [log, log, List.filterMap_append, same, tail]⟩

/-- Where the steps of the abstract machine are in their places, so are the others. -/
theorem Along.carried {C : T → O → Prop} {D : S → O → Prop} {abstract : T → O → T × List F}
    {R : S → T → Prop} (along : Along abstract C t ops)
    (carries : ∀ s t op, C t op → R s t → D s op ∧ R (step s op).1 (abstract t op).1)
    (related : R s t) : Along step D s ops := by
  induction ops generalizing s t with
  | nil => trivial
  | cons op rest ih =>
    obtain ⟨here, next⟩ := carries s t op along.1 related
    exact ⟨here, ih along.2 next⟩

theorem along_of_forall {C : S → O → Prop} (everywhere : ∀ s op, C s op) (s : S) (ops : List O) :
    Along step C s ops := by
  induction ops generalizing s with
  | nil => trivial
  | cons op rest ih => exact ⟨everywhere s op, ih _⟩

/-- What steps in their places keep of the state and the log holds after a run of them. -/
theorem Along.keeps {C : S → O → Prop} {I : S → List E → Prop} (along : Along step C s ops)
    (kept : ∀ s op events, C s op → I s events → I (step s op).1 (events ++ (step s op).2))
    (initial : I s events) : I (final step s ops) (events ++ log step s ops) := by
  induction ops generalizing s events with
  | nil =>
    rw [log, List.append_nil]
    exact initial
  | cons op rest ih =>
    rw [final, log, ← List.append_assoc]
    exact ih along.2 (kept s op events along.1 initial)

/-- What steps in their places keep of the state holds at the end. -/
theorem Along.invariant {C : S → O → Prop} {I : S → Prop} (along : Along step C s ops)
    (kept : ∀ s op, C s op → I s → I (step s op).1) (initial : I s) : I (final step s ops) := by
  induction ops generalizing s with
  | nil => exact initial
  | cons op rest ih => exact ih along.2 (kept s op along.1 initial)

end Run
