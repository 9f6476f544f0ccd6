import Mathlib

/-!
# Transition systems

A system is a function from states and actions to the next state, `none` where
the action is not enabled; whatever the surroundings may choose is part of the
action.  A guard restricts the runs one looks at: `Reaches` is about runs each
of whose actions meets the guard in the state it is taken in.
-/

namespace Sednl.Transition

variable {σ α : Type} {step : σ → α → Option σ} {guard : σ → α → Prop}

/-- One step, by some action that meets `guard`. -/
def Step (step : σ → α → Option σ) (guard : σ → α → Prop) (state next : σ) : Prop :=
  ∃ action, guard state action ∧ step state action = some next

def Reaches (step : σ → α → Option σ) (guard : σ → α → Prop) : σ → σ → Prop :=
  Relation.ReflTransGen (Step step guard)

def anything : σ → α → Prop :=
  fun _ _ => True

/-- The state after some actions, if each is enabled in its turn. -/
def run (step : σ → α → Option σ) : σ → List α → Option σ
  | state, [] => some state
  | state, action :: actions =>
      match step state action with
      | none => none
      | some next => run step next actions

theorem run_cons {state next : σ} {action : α} (hstep : step state action = some next)
    (actions : List α) : run step state (action :: actions) = run step next actions := by
  rw [run, hstep]

theorem run_cons_eq_some {state last : σ} {action : α} {actions : List α}
    (hrun : run step state (action :: actions) = some last) :
    ∃ next, step state action = some next ∧ run step next actions = some last := by
  rw [run] at hrun
  cases hnext : step state action with
  | none => simp [hnext] at hrun
  | some next => exact ⟨next, rfl, by simpa [hnext] using hrun⟩

theorem run_append_eq_some {state last : σ} {front back : List α}
    (hrun : run step state (front ++ back) = some last) :
    ∃ mid, run step state front = some mid ∧ run step mid back = some last := by
  induction front generalizing state with
  | nil => exact ⟨state, rfl, hrun⟩
  | cons action front ih =>
      rw [List.cons_append] at hrun
      obtain ⟨next, hnext, hrest⟩ := run_cons_eq_some hrun
      obtain ⟨mid, hfront, hback⟩ := ih hrest
      exact ⟨mid, (run_cons hnext front).trans hfront, hback⟩

/-- Each of some actions meets `guard` where it is taken. -/
def Meets (step : σ → α → Option σ) (guard : σ → α → Prop) : σ → List α → Prop
  | _, [] => True
  | state, action :: actions =>
      guard state action ∧
        match step state action with
        | none => True
        | some next => Meets step guard next actions

instance decidableMeets [∀ state action, Decidable (guard state action)] :
    (state : σ) → (actions : List α) → Decidable (Meets step guard state actions)
  | _, [] => .isTrue trivial
  | state, action :: actions =>
      have : Decidable (match step state action with
          | none => True
          | some next => Meets step guard next actions) :=
        match step state action with
        | none => .isTrue trivial
        | some next => decidableMeets next actions
      inferInstanceAs (Decidable (guard state action ∧ _))

/-- What holds at the start, and is kept by each step that meets the guard,
holds in every state reached. -/
theorem Reaches.invariant {Inv : σ → Prop} {start last : σ}
    (hkeeps : ∀ {state action next}, Inv state → guard state action →
      step state action = some next → Inv next)
    (hreaches : Reaches step guard start last) (hstart : Inv start) : Inv last := by
  induction hreaches with
  | refl => exact hstart
  | tail _ hstep ih =>
      obtain ⟨action, hguard, hnext⟩ := hstep
      exact hkeeps ih hguard hnext

/-- A weaker guard admits more runs. -/
theorem Reaches.mono {other : σ → α → Prop} {start last : σ}
    (hreaches : Reaches step guard start last)
    (hguard : ∀ state action, guard state action → other state action) :
    Reaches step other start last :=
  Relation.ReflTransGen.mono (fun state _ ⟨action, hmeets, hnext⟩ =>
    ⟨action, hguard state action hmeets, hnext⟩) _ _ hreaches

theorem Reaches.of_run {start last : σ} {actions : List α}
    (hrun : run step start actions = some last) (hmeets : Meets step guard start actions) :
    Reaches step guard start last := by
  induction actions generalizing start with
  | nil =>
      obtain rfl := Option.some.inj hrun
      exact .refl
  | cons action actions ih =>
      rw [run] at hrun
      rw [Meets] at hmeets
      cases hnext : step start action with
      | none =>
          rw [hnext] at hrun
          simp at hrun
      | some next =>
          rw [hnext] at hrun hmeets
          exact .head ⟨action, hmeets.1, hnext⟩ (ih hrun hmeets.2)

/-- Actions that meet `guard` in every state may be taken in any. -/
theorem meets_of_forall {actions : List α}
    (hguard : ∀ action ∈ actions, ∀ state, guard state action) (start : σ) :
    Meets step guard start actions := by
  induction actions generalizing start with
  | nil => trivial
  | cons action actions ih =>
      rw [Meets]
      have hactions : ∀ later ∈ actions, ∀ state, guard state later :=
        fun later hlater => hguard later (List.mem_cons_of_mem action hlater)
      cases step start action with
      | none => exact ⟨hguard action List.mem_cons_self start, trivial⟩
      | some next => exact ⟨hguard action List.mem_cons_self start, ih hactions next⟩

theorem meets_anything (start : σ) (actions : List α) : Meets step anything start actions :=
  meets_of_forall (fun _ _ _ => trivial) start

/-- Guards that agree wherever an invariant holds are met by the same actions. -/
theorem meets_iff_of_invariant {Inv : σ → Prop} {other : σ → α → Prop}
    (hkeeps : ∀ {state action next}, Inv state → step state action = some next → Inv next)
    (hiff : ∀ {state} action, Inv state → (guard state action ↔ other state action))
    {start : σ} (hstart : Inv start) (actions : List α) :
    Meets step guard start actions ↔ Meets step other start actions := by
  induction actions generalizing start with
  | nil => exact Iff.rfl
  | cons action actions ih =>
      rw [Meets, Meets, hiff action hstart]
      cases hstep : step start action with
      | none => exact Iff.rfl
      | some next => exact and_congr_right fun _ => ih (hkeeps hstart hstep)

/-- Whatever steps are taken, a state of `goal` is reached after finitely many. -/
inductive Inevitable (step : σ → α → Option σ) (goal : σ → Prop) : σ → Prop
  | here {state : σ} (hgoal : goal state) : Inevitable step goal state
  | later {state : σ} (hmoves : ∃ action next, step state action = some next)
      (hnext : ∀ action next, step state action = some next → Inevitable step goal next) :
      Inevitable step goal state

end Sednl.Transition
