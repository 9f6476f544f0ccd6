import Mathlib

/-!
# Machines that answer calls

A machine gives each call an answer and a next state.  One machine simulates
another when related states answer alike and stay related, for all calls that
meet a guard; then whole runs answer alike.
-/

namespace Sednl.Machine

variable {σ τ κ ρ : Type} {step : σ → κ → ρ × σ} {other : τ → κ → ρ × τ}
variable {guard : σ → κ → Prop} {state : σ} {front back calls : List κ}

def after (step : σ → κ → ρ × σ) (state : σ) (calls : List κ) : σ :=
  calls.foldl (fun state call => (step state call).2) state

/-- What some calls return, one after the other. -/
def answers (step : σ → κ → ρ × σ) : σ → List κ → List ρ
  | _, [] => []
  | state, call :: calls => (step state call).1 :: answers step (step state call).2 calls

/-- Each call meets `guard` where it is made. -/
def Obeys (step : σ → κ → ρ × σ) (guard : σ → κ → Prop) : σ → List κ → Prop
  | _, [] => True
  | state, call :: calls => guard state call ∧ Obeys step guard (step state call).2 calls

@[simp]
theorem after_nil (step : σ → κ → ρ × σ) (state : σ) : after step state [] = state :=
  rfl

@[simp]
theorem after_cons (step : σ → κ → ρ × σ) (state : σ) (call : κ) (calls : List κ) :
    after step state (call :: calls) = after step (step state call).2 calls :=
  rfl

theorem obeys_append :
    Obeys step guard state (front ++ back) ↔
      Obeys step guard state front ∧ Obeys step guard (after step state front) back := by
  induction front generalizing state with
  | nil => exact (iff_of_eq (true_and _)).symm
  | cons call front ih =>
      rw [List.cons_append, Obeys, Obeys, ih, and_assoc, after_cons]

/-- What each guarded call does to both machines. -/
structure Simulates (step : σ → κ → ρ × σ) (other : τ → κ → ρ × τ) (guard : σ → κ → Prop)
    (Rel : σ → τ → Prop) : Prop where
  hanswer : ∀ {state image call}, Rel state image → guard state call →
    (step state call).1 = (other image call).1
  hnext : ∀ {state image call}, Rel state image → guard state call →
    Rel (step state call).2 (other image call).2

variable {Rel : σ → τ → Prop} {image : τ}

theorem Simulates.after (hsim : Simulates step other guard Rel) (hrel : Rel state image)
    (hobeys : Obeys step guard state calls) :
    Rel (after step state calls) (after other image calls) := by
  induction calls generalizing state image with
  | nil => exact hrel
  | cons call calls ih => exact ih (hsim.hnext hrel hobeys.1) hobeys.2

theorem Simulates.answers (hsim : Simulates step other guard Rel) (hrel : Rel state image)
    (hobeys : Obeys step guard state calls) :
    answers step state calls = answers other image calls := by
  induction calls generalizing state image with
  | nil => rfl
  | cons call calls ih =>
      have hrest := ih (hsim.hnext hrel hobeys.1) hobeys.2
      rw [Machine.answers, Machine.answers, hsim.hanswer hrel hobeys.1, hrest]

/-! ## Specifications -/

/-- Calls and their answers are admitted by what a specification allows, one after
the other, and lead it to a last state. -/
inductive Admits (allows : τ → κ → ρ → τ → Prop) : τ → List κ → List ρ → τ → Prop
  | nil (spec : τ) : Admits allows spec [] [] spec
  | cons {spec next last : τ} {call : κ} {answer : ρ} {calls : List κ} {answers : List ρ}
      (hallows : allows spec call answer next) (hrest : Admits allows next calls answers last) :
      Admits allows spec (call :: calls) (answer :: answers) last

/-- What each guarded call answers and leads to is allowed. -/
def Refines (step : σ → κ → ρ × σ) (allows : τ → κ → ρ → τ → Prop) (guard : σ → κ → Prop)
    (Rel : σ → τ → Prop) : Prop :=
  ∀ {state spec call}, Rel state spec → guard state call →
    ∃ next, allows spec call (step state call).1 next ∧ Rel (step state call).2 next

theorem Refines.admits {allows : τ → κ → ρ → τ → Prop} (hrefines : Refines step allows guard Rel)
    {spec : τ} (hrel : Rel state spec) (hobeys : Obeys step guard state calls) :
    ∃ last, Admits allows spec calls (answers step state calls) last ∧
      Rel (Machine.after step state calls) last := by
  induction calls generalizing state spec with
  | nil => exact ⟨spec, .nil spec, hrel⟩
  | cons call calls ih =>
      obtain ⟨next, hallows, hnext⟩ := hrefines hrel hobeys.1
      obtain ⟨last, hadmits, hlast⟩ := ih hnext hobeys.2
      exact ⟨last, .cons hallows hadmits, hlast⟩

theorem Admits.split {allows : τ → κ → ρ → τ → Prop} {spec last : τ} {results : List ρ}
    (hadmits : Admits allows spec (front ++ back) results last) :
    ∃ mid, Admits allows spec front (results.take front.length) mid ∧
      Admits allows mid back (results.drop front.length) last := by
  induction front generalizing spec results with
  | nil => exact ⟨spec, .nil spec, hadmits⟩
  | cons call front ih =>
      cases hadmits with
      | cons hallows hrest =>
          obtain ⟨mid, hfront, hback⟩ := ih hrest
          exact ⟨mid, .cons hallows hfront, hback⟩

end Sednl.Machine
