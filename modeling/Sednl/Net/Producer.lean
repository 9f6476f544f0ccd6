import Sednl.Library.Association
import Sednl.Library.Transition

/-!
# Consumers and their producers

A consumer points to its producer, and the listener lists its consumers.
`set_producer` leaves the old producer and joins the new one in two calls that
refuse to change the list of a listener that runs.  These calls, and
`remove_producer`, are `noexcept`: what they throw ends the program.
-/

namespace Sednl.Producer

open Sednl.Association
open Sednl.Transition

inductive Life where
  | unborn
  | alive
  | destroyed
  deriving DecidableEq, Repr

inductive EventException where
  | eventConsumerRunning
  | eventListenerRunning
  | eventCollision
  deriving DecidableEq, Repr

inductive Outcome where
  | returns
  | throws (exception : EventException)
  | terminates
  deriving DecidableEq, Repr

/-- Any number of listeners and consumers: `m_consumers` and `m_producer` of all
of them, their `m_running`, and which listeners have a thread. -/
structure State where
  roster : Roster ℕ ℕ
  life : ℕ → Life
  mRunning : ℕ → Bool
  listening : ℕ → Bool
  thread : ℕ → Bool
  terminated : Bool

namespace State

/-- `EventListener::remove_consumer`; `none` where it throws. -/
def removeConsumer (state : State) (listener c : ℕ) : Option State :=
  if state.listening listener then none
  else some { state with
    roster := state.roster.setMembers listener ((state.roster.members listener).erase c) }

/-- `EventListener::add_consumer`; `none` where it throws. -/
def addConsumer (state : State) (listener c : ℕ) : Option State :=
  if state.listening listener then none
  else if c ∈ state.roster.members listener then some state
  else some { state with
    roster := state.roster.setMembers listener (state.roster.members listener ++ [c]) }

/-- `m_producer = producer`. -/
def setOwner (state : State) (c : ℕ) (producer : Option ℕ) : State :=
  { state with roster := state.roster.setOwner c producer }

/-- `EventConsumer::EventConsumer()`. -/
def construct (state : State) (c : ℕ) : State :=
  { state.setOwner c none with
    life := Function.update state.life c .alive
    mRunning := Function.update state.mRunning c false }

/-- The consumer leaves its producer, if it has one; `none` where
`remove_consumer` throws. -/
def leave (state : State) (c : ℕ) : Option State :=
  match state.roster.owner c with
  | none => some state
  | some producer => (state.removeConsumer producer c).map fun next => next.setOwner c none

def enter (state : State) (c producer : ℕ) : Outcome × State :=
  match state.addConsumer producer c with
  | none => (.terminates, state)
  | some next => (.returns, next.setOwner c (some producer))

def removeProducer (state : State) (c : ℕ) : Outcome × State :=
  if state.mRunning c then (.terminates, state)
  else
    match state.leave c with
    | none => (.terminates, state)
    | some next => (.returns, next)

def setProducer (state : State) (c producer : ℕ) : Outcome × State :=
  if state.mRunning c then (.throws .eventConsumerRunning, state)
  else
    match state.leave c with
    | none => (.terminates, state)
    | some between => between.enter c producer

def runConsumer (state : State) (c : ℕ) : Outcome × State :=
  if state.mRunning c then (.throws .eventConsumerRunning, state)
  else (.returns, { state with mRunning := Function.update state.mRunning c true })

def joinConsumer (state : State) (c : ℕ) : State :=
  { state with mRunning := Function.update state.mRunning c false }

/-- `EventConsumer::~EventConsumer`. -/
def destroy (state : State) (c : ℕ) : State :=
  { state.joinConsumer c with life := Function.update state.life c .destroyed }

/-- `EventListener::run`; `run_init` throws where consumers collide. -/
def runListener (state : State) (listener : ℕ) (collides : Bool) : Outcome × State :=
  if state.listening listener then (.throws .eventListenerRunning, state)
  else if collides then (.throws .eventCollision, state)
  else (.returns, { state with
    listening := Function.update state.listening listener true
    thread := Function.update state.thread listener true })

end State

inductive Action where
  /-- `EventConsumer()`. -/
  | construct (c : ℕ)
  /-- `EventConsumer(producer)`. -/
  | constructWith (c producer : ℕ)
  | setProducer (c producer : ℕ)
  | removeProducer (c : ℕ)
  | runConsumer (c : ℕ)
  | joinConsumer (c : ℕ)
  /-- `~EventConsumer`. -/
  | destroy (c : ℕ)
  | runListener (listener : ℕ) (collides : Bool)
  /-- `EventListener::join`, up to the join of its thread. -/
  | joinListener (listener : ℕ)
  /-- The thread of a listener joins its consumers, and ends. -/
  | finish (listener : ℕ)
  deriving DecidableEq, Repr

/-- What a call does: `none` where there is no such call, on a consumer that does
not live or a listener whose thread is about to end. -/
def call (state : State) : Action → Option (Outcome × State)
  | .construct c =>
      if state.life c = .unborn then some (.returns, state.construct c) else none
  | .constructWith c producer =>
      if state.life c = .unborn then some ((state.construct c).setProducer c producer) else none
  | .setProducer c producer =>
      if state.life c = .alive then some (state.setProducer c producer) else none
  | .removeProducer c => if state.life c = .alive then some (state.removeProducer c) else none
  | .runConsumer c => if state.life c = .alive then some (state.runConsumer c) else none
  | .joinConsumer c =>
      if state.life c = .alive then some (.returns, state.joinConsumer c) else none
  | .destroy c =>
      if state.life c = .alive then some (.returns, state.destroy c) else none
  | .runListener listener collides =>
      if state.thread listener ∧ !state.listening listener then none
      else some (state.runListener listener collides)
  | .joinListener listener =>
      some (.returns, { state with listening := Function.update state.listening listener false })
  | .finish listener =>
      if state.thread listener ∧ !state.listening listener then
        some (.returns, { state with
          mRunning := fun c =>
            if c ∈ state.roster.members listener then false else state.mRunning c
          thread := Function.update state.thread listener false })
      else none

def afterwards : Outcome × State → State
  | (.terminates, next) => { next with terminated := true }
  | (.returns, next) => next
  | (.throws _, next) => next

/-- The steps; there is none once the program has ended. -/
def step (state : State) (action : Action) : Option State :=
  if state.terminated then none else (call state action).map afterwards

/-- No consumer has been constructed, and no listener runs. -/
def State.start : State :=
  ⟨.empty, fun _ => .unborn, fun _ => false, fun _ => false, fun _ => false, false⟩

/-! ## What is to hold -/

/-- A consumer that lives is listed by its producer once and by no other
listener, one that does not live by none, a running consumer has a producer, and
the program goes on. -/
structure State.Sound (state : State) : Prop where
  hlisted : ∀ c listener, (state.roster.members listener).count c =
    if state.life c = .alive ∧ state.roster.owner c = some listener then 1 else 0
  hproducer : ∀ c, state.life c = .alive → state.mRunning c = true →
    state.roster.owner c ≠ none
  hgoes : state.terminated = false

/-- The listener that a consumer points to runs. -/
def State.ownerRuns (state : State) (c : ℕ) : Bool :=
  (state.roster.owner c).any state.listening

/-- A call is refused: it comes upon a consumer or a listener that runs. -/
def Refused (state : State) : Action → Prop
  | .constructWith _ producer => state.listening producer = true
  | .setProducer c producer =>
      state.mRunning c = true ∨ state.ownerRuns c = true ∨ state.listening producer = true
  | .removeProducer c => state.mRunning c = true ∨ state.ownerRuns c = true
  | .runConsumer c => state.mRunning c = true
  | .runListener listener _ => state.listening listener = true
  | _ => False

/-- A call that is refused reports it to its caller, and changes no association. -/
def Reports (state : State) (action : Action) : Prop :=
  Refused state action → ∃ exception next,
    call state action = some (.throws exception, next) ∧ next.roster = state.roster

/-- When a step is safe: a consumer is given to no listener that runs, and taken
from none, nor does it run when it is taken; it has a producer when it is run,
and none when it is destroyed. -/
def Safe (state : State) : Action → Prop
  | .constructWith _ producer => state.listening producer = false
  | .setProducer c producer =>
      state.mRunning c = true ∨ state.ownerRuns c = false ∧ state.listening producer = false
  | .removeProducer c => state.mRunning c = false ∧ state.ownerRuns c = false
  | .runConsumer c => state.mRunning c = true ∨ state.roster.owner c ≠ none
  | .destroy c => state.roster.owner c = none
  | _ => True

instance (state : State) : (action : Action) → Decidable (Safe state action)
  | .constructWith _ producer => inferInstanceAs (Decidable (state.listening producer = false))
  | .setProducer _ _ => inferInstanceAs (Decidable (_ ∨ _))
  | .removeProducer _ => inferInstanceAs (Decidable (_ ∧ _))
  | .runConsumer _ => inferInstanceAs (Decidable (_ ∨ _))
  | .destroy c => inferInstanceAs (Decidable (state.roster.owner c = none))
  | .construct _ | .joinConsumer _ | .runListener _ _ | .joinListener _ | .finish _ =>
      .isTrue trivial

structure Associated (state : State) : Prop where
  hroster : state.roster.Consistent Set.univ
  hlives : ∀ c listener, state.roster.owner c = some listener → state.life c = .alive
  hproducer : ∀ c, state.mRunning c = true → state.roster.owner c ≠ none
  hgoes : state.terminated = false

section Steps

variable {state next : State} {c producer : ℕ}

/-! ## The calls -/

theorem State.leave_of_runs (hruns : state.ownerRuns c = true) : state.leave c = none := by
  rw [State.ownerRuns, Option.any_eq_true_iff_get] at hruns
  obtain ⟨hsome, hlistening⟩ := hruns
  obtain ⟨listener, howner⟩ := Option.isSome_iff_exists.mp hsome
  simp only [howner, Option.get_some] at hlistening
  rw [State.leave, howner]
  change Option.map _ (state.removeConsumer listener c) = none
  rw [State.removeConsumer, if_pos hlistening, Option.map_none]

/-- A consumer leaves a producer that does not run. -/
theorem State.leave_of_quiet (hroster : state.roster.Consistent Set.univ)
    (hquiet : state.ownerRuns c = false) :
    ∃ roster, state.leave c = some { state with roster := roster } ∧
      roster.Consistent Set.univ ∧ roster.owner c = none ∧
      ∀ other, other ≠ c → roster.owner other = state.roster.owner other := by
  cases howner : state.roster.owner c with
  | none =>
      refine ⟨state.roster, ?_, hroster, howner, fun _ _ => rfl⟩
      rw [State.leave, howner]
  | some listener =>
      rw [State.ownerRuns, howner, Option.any_some] at hquiet
      refine ⟨state.roster.unlink listener c, ?_, hroster.unlink howner,
        Roster.setOwner_self _, fun _ hne => Roster.setOwner_of_ne hne _⟩
      rw [State.leave, howner]
      change Option.map _ (state.removeConsumer listener c) = _
      rw [State.removeConsumer, hquiet]
      rfl

theorem State.enter_of_runs (hruns : state.listening producer = true) :
    (state.enter c producer).1 = .terminates := by
  rw [State.enter, State.addConsumer, if_pos hruns]

/-- A consumer without a producer joins one that does not run. -/
theorem State.enter_of_quiet (hroster : state.roster.Consistent Set.univ)
    (hfree : state.roster.owner c = none) (hquiet : state.listening producer = false) :
    state.enter c producer =
      (.returns, { state with roster := state.roster.link producer c }) := by
  have hfresh : c ∉ state.roster.members producer := by
    intro hmem
    cases hfree.symm.trans (hroster.hsound producer c hmem)
  rw [State.enter, State.addConsumer, hquiet, if_neg Bool.false_ne_true, if_neg hfresh]
  rfl

/-- `set_producer` where neither listener runs. -/
theorem State.setProducer_of_quiet (hroster : state.roster.Consistent Set.univ)
    (hstopped : state.mRunning c = false) (hquiet : state.ownerRuns c = false)
    (hready : state.listening producer = false) :
    ∃ roster, state.setProducer c producer = (.returns, { state with roster := roster }) ∧
      roster.Consistent Set.univ ∧ roster.owner c = some producer ∧
      ∀ other, other ≠ c → roster.owner other = state.roster.owner other := by
  obtain ⟨roster, hleave, hbetween, hfree, hothers⟩ := State.leave_of_quiet hroster hquiet
  have henter := @State.enter_of_quiet { state with roster := roster } c producer hbetween hfree
    hready
  refine ⟨roster.link producer c, ?_, ?_, Roster.setOwner_self _, fun other hne => ?_⟩
  · rw [State.setProducer, hstopped, if_neg Bool.false_ne_true, hleave]
    exact henter
  · refine hbetween.link ?_ ?_
    · intro hmem
      cases hfree.symm.trans (hbetween.hsound producer c hmem)
    · intro other howner
      cases hfree.symm.trans howner
  · exact (Roster.setOwner_of_ne hne _).trans (hothers other hne)

/-- `set_producer` ends the program where either listener runs. -/
theorem State.setProducer_of_runs (hroster : state.roster.Consistent Set.univ)
    (hstopped : state.mRunning c = false)
    (hruns : state.ownerRuns c = true ∨ state.listening producer = true) :
    (state.setProducer c producer).1 = .terminates := by
  rw [State.setProducer, hstopped, if_neg Bool.false_ne_true]
  cases hquiet : state.ownerRuns c with
  | true => rw [State.leave_of_runs hquiet]
  | false =>
      obtain ⟨roster, hleave, _⟩ := State.leave_of_quiet hroster hquiet
      have hlistening : State.listening { state with roster := roster } producer = true :=
        hruns.resolve_left (Bool.eq_false_iff.mp hquiet)
      rw [hleave]
      exact State.enter_of_runs hlistening

theorem State.removeProducer_of_runs (hruns : state.mRunning c = true ∨ state.ownerRuns c = true) :
    (state.removeProducer c).1 = .terminates := by
  rw [State.removeProducer]
  split
  · rfl
  · rename_i hstopped
    rw [State.leave_of_runs (hruns.resolve_left hstopped)]

/-! ## The steps -/

theorem step_eq {action : Action} (hnext : step state action = some next) :
    ∃ ending, call state action = some ending ∧ next = afterwards ending := by
  obtain ⟨_, hsome⟩ := Option.ite_none_left_eq_some.mp hnext
  obtain ⟨ending, hcall, hending⟩ := Option.map_eq_some_iff.mp hsome
  exact ⟨ending, hcall, hending.symm⟩

theorem terminated_of_terminates {ending : Outcome × State} (hends : ending.1 = .terminates) :
    (afterwards ending).terminated = true := by
  obtain ⟨outcome, last⟩ := ending
  obtain rfl : outcome = .terminates := hends
  rfl

/-- Only the lists and pointers change, and those of one consumer. -/
theorem Associated.of_roster (hassociated : Associated state) {roster : Roster ℕ ℕ}
    (hroster : roster.Consistent Set.univ)
    (hothers : ∀ other, other ≠ c → roster.owner other = state.roster.owner other)
    (halive : state.life c = .alive) (hstopped : state.mRunning c = false) :
    Associated { state with roster := roster } where
  hroster := hroster
  hlives other listener howner := by
    by_cases hother : other = c
    · subst hother
      exact halive
    · exact hassociated.hlives other listener ((hothers other hother).symm.trans howner)
  hproducer other hruns := by
    by_cases hother : other = c
    · subst hother
      cases hstopped.symm.trans hruns
    · change roster.owner other ≠ none
      rw [hothers other hother]
      exact hassociated.hproducer other hruns
  hgoes := hassociated.hgoes

theorem Associated.owner_of_unborn (hassociated : Associated state)
    (hunborn : state.life c = .unborn) : state.roster.owner c = none := by
  cases howner : state.roster.owner c with
  | none => rfl
  | some listener => cases hunborn.symm.trans (hassociated.hlives c listener howner)

theorem Associated.construct (hassociated : Associated state) (hunborn : state.life c = .unborn) :
    Associated (state.construct c) ∧ (state.construct c).roster = state.roster := by
  have hsame : (state.construct c).roster = state.roster := by
    change state.roster.setOwner c none = state.roster
    rw [Roster.setOwner, ← hassociated.owner_of_unborn hunborn, Function.update_eq_self]
  refine ⟨⟨?_, fun other listener howner => ?_, fun other hruns => ?_, hassociated.hgoes⟩, hsame⟩
  · rw [hsame]
    exact hassociated.hroster
  · rw [hsame] at howner
    by_cases hother : other = c
    · subst hother
      exact Function.update_self _ _ _
    · exact (Function.update_of_ne hother _ _).trans (hassociated.hlives other listener howner)
  · rw [hsame]
    by_cases hother : other = c
    · subst hother
      cases (Function.update_self other _ _).symm.trans hruns
    · exact hassociated.hproducer other ((Function.update_of_ne hother _ _).symm.trans hruns)

theorem State.construct_alive : (state.construct c).life c = .alive :=
  Function.update_self _ _ _

theorem State.destroy_life : (state.destroy c).life c = .destroyed :=
  Function.update_self _ _ _

theorem State.construct_stopped : (state.construct c).mRunning c = false :=
  Function.update_self _ _ _

theorem Associated.construct_quiet (hassociated : Associated state)
    (hunborn : state.life c = .unborn) : (state.construct c).ownerRuns c = false := by
  rw [State.ownerRuns, (hassociated.construct hunborn).2, hassociated.owner_of_unborn hunborn]
  rfl

theorem Associated.setProducer (hassociated : Associated state) (halive : state.life c = .alive)
    (hstopped : state.mRunning c = false) (hquiet : state.ownerRuns c = false)
    (hready : state.listening producer = false) :
    Associated (afterwards (state.setProducer c producer)) := by
  obtain ⟨roster, hset, hroster, _, hothers⟩ :=
    State.setProducer_of_quiet hassociated.hroster hstopped hquiet hready
  rw [hset]
  exact hassociated.of_roster hroster hothers halive hstopped

theorem Associated.removeProducer (hassociated : Associated state) (halive : state.life c = .alive)
    (hstopped : state.mRunning c = false) (hquiet : state.ownerRuns c = false) :
    Associated (afterwards (state.removeProducer c)) := by
  obtain ⟨roster, hleave, hroster, _, hothers⟩ :=
    State.leave_of_quiet hassociated.hroster hquiet
  rw [State.removeProducer, hstopped, if_neg Bool.false_ne_true, hleave]
  exact hassociated.of_roster hroster hothers halive hstopped

/-- Some consumers are joined. -/
theorem Associated.join (hassociated : Associated state) {mRunning : ℕ → Bool}
    (hless : ∀ other, mRunning other = true → state.mRunning other = true) :
    Associated { state with mRunning := mRunning } where
  hroster := hassociated.hroster
  hlives := hassociated.hlives
  hproducer other hruns := hassociated.hproducer other (hless other hruns)
  hgoes := hassociated.hgoes

theorem Associated.joinConsumer (hassociated : Associated state) (c : ℕ) :
    Associated (state.joinConsumer c) := by
  refine hassociated.join fun other hruns => ?_
  by_cases hother : other = c
  · subst hother
    cases (Function.update_self other _ _).symm.trans hruns
  · exact (Function.update_of_ne hother _ _).symm.trans hruns

theorem Associated.destroy (hassociated : Associated state) (hfree : state.roster.owner c = none) :
    Associated (state.destroy c) where
  hroster := hassociated.hroster
  hlives other listener howner := by
    have hother : other ≠ c := by
      rintro rfl
      cases hfree.symm.trans howner
    exact (Function.update_of_ne hother _ _).trans (hassociated.hlives other listener howner)
  hproducer := (hassociated.joinConsumer c).hproducer
  hgoes := hassociated.hgoes

theorem Associated.runConsumer (hassociated : Associated state)
    (hready : state.mRunning c = true ∨ state.roster.owner c ≠ none) :
    Associated (afterwards (state.runConsumer c)) := by
  rw [State.runConsumer]
  split
  · exact hassociated
  · rename_i hstopped
    refine ⟨hassociated.hroster, hassociated.hlives, fun other hruns => ?_, hassociated.hgoes⟩
    by_cases hother : other = c
    · subst hother
      exact hready.resolve_left hstopped
    · exact hassociated.hproducer other ((Function.update_of_ne hother _ _).symm.trans hruns)

theorem Associated.runListener (hassociated : Associated state) (listener : ℕ) (collides : Bool) :
    Associated (afterwards (state.runListener listener collides)) := by
  rw [State.runListener]
  split
  · exact hassociated
  · split
    · exact hassociated
    · exact ⟨hassociated.hroster, hassociated.hlives, hassociated.hproducer, hassociated.hgoes⟩

theorem Associated.step (hassociated : Associated state) {action : Action}
    (hsafe : Safe state action) (hnext : step state action = some next) : Associated next := by
  obtain ⟨ending, hcall, rfl⟩ := step_eq hnext
  cases action with
  | construct c =>
      obtain ⟨hunborn, hsome⟩ := Option.ite_none_right_eq_some.mp hcall
      obtain rfl := Option.some.inj hsome
      exact (hassociated.construct hunborn).1
  | constructWith c producer =>
      obtain ⟨hunborn, hsome⟩ := Option.ite_none_right_eq_some.mp hcall
      obtain rfl := Option.some.inj hsome
      exact (hassociated.construct hunborn).1.setProducer State.construct_alive
        State.construct_stopped (hassociated.construct_quiet hunborn) hsafe
  | setProducer c producer =>
      obtain ⟨halive, hsome⟩ := Option.ite_none_right_eq_some.mp hcall
      obtain rfl := Option.some.inj hsome
      cases hruns : state.mRunning c with
      | true =>
          rw [State.setProducer, if_pos hruns]
          exact hassociated
      | false =>
          obtain ⟨hquiet, hready⟩ := hsafe.resolve_left (Bool.eq_false_iff.mp hruns)
          exact hassociated.setProducer halive hruns hquiet hready
  | removeProducer c =>
      obtain ⟨halive, hsome⟩ := Option.ite_none_right_eq_some.mp hcall
      obtain rfl := Option.some.inj hsome
      exact hassociated.removeProducer halive hsafe.1 hsafe.2
  | runConsumer c =>
      obtain ⟨_, hsome⟩ := Option.ite_none_right_eq_some.mp hcall
      obtain rfl := Option.some.inj hsome
      exact hassociated.runConsumer hsafe
  | joinConsumer c =>
      obtain ⟨_, hsome⟩ := Option.ite_none_right_eq_some.mp hcall
      obtain rfl := Option.some.inj hsome
      exact hassociated.joinConsumer c
  | destroy c =>
      obtain ⟨_, hsome⟩ := Option.ite_none_right_eq_some.mp hcall
      obtain rfl := Option.some.inj hsome
      exact hassociated.destroy hsafe
  | runListener listener collides =>
      obtain ⟨_, hsome⟩ := Option.ite_none_left_eq_some.mp hcall
      obtain rfl := Option.some.inj hsome
      exact hassociated.runListener listener collides
  | joinListener listener =>
      obtain rfl := Option.some.inj hcall
      exact ⟨hassociated.hroster, hassociated.hlives, hassociated.hproducer, hassociated.hgoes⟩
  | finish listener =>
      obtain ⟨_, hsome⟩ := Option.ite_none_right_eq_some.mp hcall
      obtain rfl := Option.some.inj hsome
      have hjoined := @Associated.join state hassociated
        (fun c => if c ∈ state.roster.members listener then false else state.mRunning c)
        fun other hruns => by
          split at hruns
          · cases hruns
          · exact hruns
      exact ⟨hjoined.hroster, hjoined.hlives, hjoined.hproducer, hjoined.hgoes⟩

theorem associated_start : Associated State.start where
  hroster := Roster.consistent_empty
  hlives _ _ howner := by cases howner
  hproducer _ hruns := by cases hruns
  hgoes := rfl

theorem Associated.sound (hassociated : Associated state) : state.Sound where
  hlisted c listener := by
    rw [(hassociated.hroster.hnodup listener).count]
    refine if_congr ?_ rfl rfl
    rw [hassociated.hroster.mem_iff (Set.mem_univ c)]
    exact ⟨fun howner => ⟨hassociated.hlives c listener howner, howner⟩, fun hboth => hboth.2⟩
  hproducer c _ hruns := hassociated.hproducer c hruns
  hgoes := hassociated.hgoes

/-- A call that is refused and does not end the program comes upon a consumer or
a listener that runs, and leaves all as it was. -/
theorem reports_of_safe {action : Action} (hsafe : Safe state action)
    (hnext : Producer.step state action = some next) : Reports state action := by
  obtain ⟨ending, hcall, rfl⟩ := step_eq hnext
  intro hrefused
  cases action with
  | constructWith c producer => cases hsafe.symm.trans hrefused
  | setProducer c producer =>
      obtain ⟨halive, _⟩ := Option.ite_none_right_eq_some.mp hcall
      rcases hsafe with hruns | ⟨hquiet, hready⟩
      · refine ⟨.eventConsumerRunning, state, ?_, rfl⟩
        rw [call, if_pos halive, State.setProducer, if_pos hruns]
      · rcases hrefused with hruns | hruns | hruns
        · refine ⟨.eventConsumerRunning, state, ?_, rfl⟩
          rw [call, if_pos halive, State.setProducer, if_pos hruns]
        · cases hquiet.symm.trans hruns
        · cases hready.symm.trans hruns
  | removeProducer c =>
      rcases hrefused with hruns | hruns
      · cases hsafe.1.symm.trans hruns
      · cases hsafe.2.symm.trans hruns
  | runConsumer c =>
      obtain ⟨halive, _⟩ := Option.ite_none_right_eq_some.mp hcall
      replace hrefused : state.mRunning c = true := hrefused
      refine ⟨.eventConsumerRunning, state, ?_, rfl⟩
      rw [call, if_pos halive, State.runConsumer, if_pos hrefused]
  | runListener listener collides =>
      obtain ⟨hready, _⟩ := Option.ite_none_left_eq_some.mp hcall
      replace hrefused : state.listening listener = true := hrefused
      refine ⟨.eventListenerRunning, state, ?_, rfl⟩
      rw [call, if_neg hready, State.runListener, if_pos hrefused]
  | construct c => exact hrefused.elim
  | joinConsumer c => exact hrefused.elim
  | destroy c => exact hrefused.elim
  | joinListener listener => exact hrefused.elim
  | finish listener => exact hrefused.elim

/-- A call that ends the program. -/
theorem not_sound_of_terminates {ending : Outcome × State} (hends : ending.1 = .terminates)
    (hsound : (afterwards ending).Sound) : False := by
  cases (terminated_of_terminates hends).symm.trans hsound.hgoes

theorem safe_of_sound (hassociated : Associated state) {action : Action}
    (hnext : Producer.step state action = some next) (hsound : next.Sound) :
    Safe state action := by
  obtain ⟨ending, hcall, rfl⟩ := step_eq hnext
  cases action with
  | constructWith c producer =>
      obtain ⟨hunborn, hsome⟩ := Option.ite_none_right_eq_some.mp hcall
      obtain rfl := Option.some.inj hsome
      cases hready : state.listening producer with
      | false => exact hready
      | true =>
          have hconstructed := (hassociated.construct hunborn).1
          exact (not_sound_of_terminates (State.setProducer_of_runs hconstructed.hroster
            State.construct_stopped (.inr hready)) hsound).elim
  | setProducer c producer =>
      obtain ⟨_, hsome⟩ := Option.ite_none_right_eq_some.mp hcall
      obtain rfl := Option.some.inj hsome
      by_contra hbreaks
      obtain ⟨hstopped, hruns⟩ := not_or.mp hbreaks
      refine not_sound_of_terminates
        (State.setProducer_of_runs hassociated.hroster (Bool.eq_false_iff.mpr hstopped) ?_) hsound
      by_contra hquiet
      obtain ⟨howner, hready⟩ := not_or.mp hquiet
      exact hruns ⟨Bool.eq_false_iff.mpr howner, Bool.eq_false_iff.mpr hready⟩
  | removeProducer c =>
      obtain ⟨_, hsome⟩ := Option.ite_none_right_eq_some.mp hcall
      obtain rfl := Option.some.inj hsome
      by_contra hbreaks
      refine not_sound_of_terminates (State.removeProducer_of_runs ?_) hsound
      by_contra hquiet
      obtain ⟨hstopped, howner⟩ := not_or.mp hquiet
      exact hbreaks ⟨Bool.eq_false_iff.mpr hstopped, Bool.eq_false_iff.mpr howner⟩
  | runConsumer c =>
      obtain ⟨halive, hsome⟩ := Option.ite_none_right_eq_some.mp hcall
      obtain rfl := Option.some.inj hsome
      by_contra hbreaks
      obtain ⟨hstopped, howner⟩ := not_or.mp hbreaks
      rw [State.runConsumer, if_neg hstopped] at hsound
      exact howner (hsound.hproducer c halive (Function.update_self _ _ _))
  | destroy c =>
      obtain ⟨_, hsome⟩ := Option.ite_none_right_eq_some.mp hcall
      obtain rfl := Option.some.inj hsome
      cases howner : state.roster.owner c with
      | none => exact howner
      | some listener =>
          have hcount := hsound.hlisted c listener
          have hmem := hassociated.hroster.hcomplete listener c (Set.mem_univ c) howner
          refine absurd hmem (List.count_eq_zero.mp (hcount.trans (if_neg ?_)))
          rintro ⟨hlives, _⟩
          replace hlives : (state.destroy c).life c = .alive := hlives
          rw [State.destroy_life] at hlives
          cases hlives
  | construct c => trivial
  | joinConsumer c => trivial
  | runListener listener collides => trivial
  | joinListener listener => trivial
  | finish listener => trivial

end Steps

/-- While the steps are safe, lists and pointers agree and nothing ends the
program; and a step keeps this, and reports where it is refused, if and only if
it is safe. -/
theorem sound_of_reaches {state : State} (hreaches : Reaches step Safe State.start state) :
    state.Sound ∧ ∀ action next, step state action = some next →
      (next.Sound ∧ Reports state action ↔ Safe state action) := by
  have hassociated : Associated state :=
    hreaches.invariant (fun hassociated hsafe hnext => hassociated.step hsafe hnext)
      associated_start
  refine ⟨hassociated.sound, fun action next hnext => ⟨fun hkept => ?_, fun hsafe => ?_⟩⟩
  · exact safe_of_sound hassociated hnext hkept.1
  · exact ⟨(hassociated.step hsafe hnext).sound, reports_of_safe hsafe hnext⟩

/-- A consumer changes its producer, runs, is refused a third one, is joined,
leaves, and is destroyed. -/
theorem sound_of_reaches_moved : ∃ state, Reaches step Safe State.start state ∧
    state.life 5 = .destroyed ∧ state.roster.members 1 = [6] ∧ state.mRunning 6 = true ∧
    state.Sound ∧ ∀ action next, step state action = some next →
      (next.Sound ∧ Reports state action ↔ Safe state action) := by
  have hreaches : ∃ state, Reaches step Safe State.start state ∧ state.life 5 = .destroyed ∧
      state.roster.members 1 = [6] ∧ state.mRunning 6 = true :=
    ⟨_, .of_run (rfl : run step State.start [.constructWith 5 0, .setProducer 5 1,
      .constructWith 6 1, .runConsumer 5, .runConsumer 6, .setProducer 5 2, .joinConsumer 5,
      .removeProducer 5, .destroy 5] = some _) (by decide), rfl, rfl, rfl⟩
  obtain ⟨state, hreaches, hlife, hmembers, hruns⟩ := hreaches
  exact ⟨state, hreaches, hlife, hmembers, hruns, sound_of_reaches hreaches⟩

/-- A consumer with a producer is destroyed; one without is run; a producer is
set, or removed, while its listener runs; and a producer is removed while the
consumer runs. -/
theorem not_sound_of_calls :
    (∃ state, run step State.start [.constructWith 5 0, .destroy 5] = some state ∧
      ¬ state.Sound) ∧
    (∃ state, run step State.start [.construct 5, .runConsumer 5] = some state ∧
      ¬ state.Sound) ∧
    (∃ state, run step State.start [.construct 5, .runListener 0 false, .setProducer 5 0] =
      some state ∧ state.terminated = true ∧ ¬ state.Sound) ∧
    (∃ state, run step State.start [.constructWith 5 0, .runListener 0 false,
      .removeProducer 5] = some state ∧ state.terminated = true ∧ ¬ state.Sound) ∧
    ∃ state, run step State.start [.constructWith 5 0, .runConsumer 5, .removeProducer 5] =
      some state ∧ state.terminated = true ∧ ¬ state.Sound := by
  refine ⟨⟨_, rfl, fun hsound => ?_⟩, ⟨_, rfl, fun hsound => ?_⟩, ⟨_, rfl, rfl, fun hsound => ?_⟩,
    ⟨_, rfl, rfl, fun hsound => ?_⟩, _, rfl, rfl, fun hsound => ?_⟩
  · exact absurd (hsound.hlisted 5 0) (by decide)
  · exact hsound.hproducer 5 rfl rfl rfl
  · cases hsound.hgoes
  · cases hsound.hgoes
  · cases hsound.hgoes

end Sednl.Producer
