import Sednl.Net.Attach

/-!
# What attaching and detaching report

`__attach` tells an element of another listener by the pointer it stores, and sets
that pointer before it appends to its list: when the list cannot grow, the element
points to a listener that does not hold it.  `__detach` looks at its own list first,
and an element of another listener is never in it.
-/

namespace Sednl.Admission

open Sednl.Association
open Sednl.Transition
open Sednl.Attach

section Template

variable {T : Type} [DecidableEq T]

/-- The pointer of the element leads to another listener. -/
def Elsewhere (roster : Roster T ℕ) (listener : ℕ) (elm : T) : Prop :=
  roster.owner elm ≠ none ∧ roster.owner elm ≠ some listener

/-- `attach`, on a listener that does not run, as it is documented. -/
structure AttachKept (roster : Roster T ℕ) (listener : ℕ) (elm : T) (allocates : Bool) :
    Prop where
  hrefuses : (attach false roster listener elm allocates).1 = .alreadyListened ↔
    Elsewhere roster listener elm
  hidle : elm ∈ roster.members listener →
    attach false roster listener elm allocates = (.returns, roster)
  hatomic : (attach false roster listener elm allocates).1 ≠ .returns →
    (attach false roster listener elm allocates).2 = roster

/-- `detach`, on a listener that does not run, as it is documented. -/
structure DetachKept (roster : Roster T ℕ) (listener : ℕ) (elm : T) : Prop where
  hrefuses : (detach false roster listener elm).1 = .wrongParentListener ↔
    Elsewhere roster listener elm
  hidle : roster.owner elm = none → detach false roster listener elm = (.returns, roster)
  hatomic : (detach false roster listener elm).1 ≠ .returns →
    (detach false roster listener elm).2 = roster

variable {roster : Roster T ℕ} {listener : ℕ} {elm : T} {allocates : Bool}

/-- Elements that are listed point to the listener that lists them. -/
def Listed (roster : Roster T ℕ) : Prop :=
  ∀ listener, ∀ elm ∈ roster.members listener, roster.owner elm = some listener

/-! ## The branches of the templates -/

theorem attach_of_mem (hmem : elm ∈ roster.members listener) :
    attach false roster listener elm allocates = (.returns, roster) := by
  rw [attach, if_neg Bool.false_ne_true, if_pos hmem]

theorem attach_of_elsewhere (hfresh : elm ∉ roster.members listener)
    (helsewhere : Elsewhere roster listener elm) :
    attach false roster listener elm allocates = (.alreadyListened, roster) := by
  unfold Elsewhere at helsewhere
  rw [attach, if_neg Bool.false_ne_true, if_neg hfresh, if_pos helsewhere]

theorem attach_of_here (hfresh : elm ∉ roster.members listener)
    (hhere : ¬ Elsewhere roster listener elm) :
    attach false roster listener elm allocates =
      if allocates then (.returns, roster.link listener elm)
      else (.badAlloc, roster.setOwner elm (some listener)) := by
  unfold Elsewhere at hhere
  rw [attach, if_neg Bool.false_ne_true, if_neg hfresh, if_neg hhere]

theorem detach_of_not_mem (hfresh : elm ∉ roster.members listener) :
    detach false roster listener elm = (.returns, roster) := by
  rw [detach, if_neg Bool.false_ne_true, if_neg hfresh]

theorem detach_of_mem (hmem : elm ∈ roster.members listener)
    (howner : roster.owner elm = some listener) :
    detach false roster listener elm = (.returns, roster.unlink listener elm) := by
  rw [detach, if_neg Bool.false_ne_true, if_pos hmem, if_neg (not_not.mpr howner)]

omit [DecidableEq T] in
theorem Listed.not_mem (hlisted : Listed roster)
    (howner : roster.owner elm ≠ some listener) : elm ∉ roster.members listener :=
  fun hmem => howner (hlisted listener elm hmem)

/-- A pointer is set to where it leads already. -/
theorem setOwner_eq_self {owner : Option ℕ} (howner : roster.owner elm = owner) :
    roster.setOwner elm owner = roster := by
  cases roster with
  | mk members pointers =>
      subst howner
      rw [Roster.setOwner, Function.update_eq_self]

/-! ## When they keep their word -/

theorem attachKept_of_room (hlisted : Listed roster)
    (hroom : allocates = false → roster.owner elm ≠ none) :
    AttachKept roster listener elm allocates := by
  by_cases hmem : elm ∈ roster.members listener
  · have howner := hlisted listener elm hmem
    refine ⟨?_, fun _ => attach_of_mem hmem, fun hthrows => ?_⟩
    · rw [attach_of_mem hmem]
      exact iff_of_false (by simp) fun helsewhere => helsewhere.2 howner
    · rw [attach_of_mem hmem]
  · by_cases helsewhere : Elsewhere roster listener elm
    · refine ⟨?_, fun hthere => absurd hthere hmem, fun _ => ?_⟩
      · rw [attach_of_elsewhere hmem helsewhere]
        exact iff_of_true rfl helsewhere
      · rw [attach_of_elsewhere hmem helsewhere]
    · refine ⟨?_, fun hthere => absurd hthere hmem, ?_⟩
      · rw [attach_of_here hmem helsewhere]
        cases allocates with
        | false => exact iff_of_false (by simp) helsewhere
        | true => exact iff_of_false (by simp) helsewhere
      · rw [attach_of_here hmem helsewhere]
        cases allocates with
        | true => exact fun hthrows => absurd rfl hthrows
        | false =>
            intro _
            have howner : roster.owner elm = some listener := by
              by_contra hother
              exact helsewhere ⟨hroom rfl, hother⟩
            exact setOwner_eq_self howner

/-- `attach` keeps its word unless its list cannot grow for a free element. -/
theorem attachKept_iff (hlisted : Listed roster) :
    AttachKept roster listener elm allocates ↔
      (allocates = false → roster.owner elm ≠ none) := by
  refine ⟨?_, attachKept_of_room hlisted⟩
  rintro ⟨-, -, hatomic⟩ rfl hfree
  have hfresh : elm ∉ roster.members listener := hlisted.not_mem (by rw [hfree]; simp)
  rw [attach_of_here hfresh fun helsewhere => helsewhere.1 hfree] at hatomic
  have hsame := congrFun (congrArg Roster.owner (hatomic (by simp))) elm
  rw [if_neg Bool.false_ne_true, Roster.setOwner_self, hfree] at hsame
  cases hsame

/-- `detach` keeps its word on the elements of no other listener. -/
theorem detachKept_iff (hlisted : Listed roster) :
    DetachKept roster listener elm ↔ ¬ Elsewhere roster listener elm := by
  constructor
  · rintro ⟨hrefuses, -, -⟩ helsewhere
    have hthrows := hrefuses.mpr helsewhere
    rw [detach_of_not_mem (hlisted.not_mem helsewhere.2)] at hthrows
    cases hthrows
  · intro hhere
    by_cases hmem : elm ∈ roster.members listener
    · have howner := hlisted listener elm hmem
      refine ⟨?_, fun hfree => ?_, fun hthrows => ?_⟩
      · rw [detach_of_mem hmem howner]
        exact iff_of_false (by simp) hhere
      · cases hfree.symm.trans howner
      · exact absurd (by rw [detach_of_mem hmem howner]) hthrows
    · refine ⟨?_, fun _ => detach_of_not_mem hmem, fun _ => ?_⟩
      · rw [detach_of_not_mem hmem]
        exact iff_of_false (by simp) hhere
      · rw [detach_of_not_mem hmem]

/-! ## What the calls keep -/

omit [DecidableEq T] in
theorem listed_of_consistent {mirrored : Set T} (hroster : roster.Consistent mirrored) :
    Listed roster :=
  hroster.hsound

/-- However `attach` ends, it keeps the pointers of the elements that are listed. -/
theorem attach_sound (hroster : roster.Consistent ∅) (mRunning : Bool) :
    (attach mRunning roster listener elm allocates).2.Consistent ∅ := by
  cases allocates with
  | true => exact attach_consistent hroster mRunning listener elm
  | false =>
      rw [attach]
      split
      · exact hroster
      · split
        · exact hroster
        · rename_i hfresh
          split
          · exact hroster
          · rename_i hhere
            by_cases hfree : roster.owner elm = none
            · exact hroster.setOwner hfree (Set.notMem_empty elm) _
            · have howner : roster.owner elm = some listener := by
                by_contra hother
                exact hhere ⟨hfree, hother⟩
              rw [setOwner_eq_self howner]
              exact hroster

end Template

/-- What every step keeps, also where an allocation fails. -/
structure Sound (state : State) : Prop where
  hservers : state.servers.Consistent ∅
  hconnections : state.connections.Consistent ∅
  hunborn : ∀ n, state.made ≤ n → state.connections.owner (.accepted n) = none

theorem sound_start : Sound State.start :=
  ⟨Roster.consistent_empty, Roster.consistent_empty, fun _ _ => rfl⟩

theorem Sound.step {state next : State} (hsound : Sound state) {action : Action}
    (hnext : step state action = some next) : Sound next := by
  have hkept := step_consistent (fun n => Set.notMem_empty (Connection.accepted n))
    hsound.hservers hsound.hconnections hsound.hunborn
    (fun _ => attach_sound hsound.hservers _) (fun _ => attach_sound hsound.hconnections _) hnext
  exact ⟨hkept.1, hkept.2.1, hkept.2.2⟩

/-- In every state that calls and threads can reach, whatever fails on the way, `attach`
and `detach` do what is documented with an element, exactly when no list has to grow in
vain for a free element, and when the element to detach is of no other listener. -/
theorem kept_of_reaches {state : State} (hreaches : Reaches step anything State.start state) :
    (∀ listener server allocates,
      (AttachKept state.servers listener server allocates ↔
        (allocates = false → state.servers.owner server ≠ none)) ∧
      (DetachKept state.servers listener server ↔
        ¬ Elsewhere state.servers listener server)) ∧
    ∀ listener cn allocates,
      (AttachKept state.connections listener cn allocates ↔
        (allocates = false → state.connections.owner cn ≠ none)) ∧
      (DetachKept state.connections listener cn ↔
        ¬ Elsewhere state.connections listener cn) := by
  have hsound : Sound state :=
    hreaches.invariant (fun hsound _ hnext => hsound.step hnext) sound_start
  have hservers := listed_of_consistent hsound.hservers
  have hconnections := listed_of_consistent hsound.hconnections
  exact ⟨fun _ _ _ => ⟨attachKept_iff hservers, detachKept_iff hservers⟩,
    fun _ _ _ => ⟨attachKept_iff hconnections, detachKept_iff hconnections⟩⟩

/-- Client 4 has been attached to listener 0. -/
def attached : State :=
  { State.start with connections := State.start.connections.link 0 (.client 4) }

theorem reaches_attached : Reaches step anything State.start attached :=
  .of_run (rfl : run step State.start [.attachConnection 0 (.client 4) true] = some attached)
    (meets_anything _ _)

/-- Listener 0 detaches its client; a free client is attached where the list grows. -/
theorem kept_of_reaches_attached :
    DetachKept attached.connections 0 (.client 4) ∧
      AttachKept attached.connections 1 (.client 5) true :=
  ⟨((kept_of_reaches reaches_attached).2 0 (.client 4) true).2.mpr fun helsewhere =>
      helsewhere.2 rfl,
    ((kept_of_reaches reaches_attached).2 1 (.client 5) true).1.mpr fun hfails =>
      absurd hfails (by decide)⟩

/-- Listener 1 detaches the client of listener 0, and nothing happens; a client that
no list had room for points to the listener that refused it. -/
theorem not_kept_attached :
    (detach (attached.mRunning 1) attached.connections 1 (.client 4)).1 = .returns ∧
      attached.connections.owner (.client 4) = some 0 ∧
      ¬ DetachKept attached.connections 1 (.client 4) ∧
      (attach (attached.mRunning 1) attached.connections 1 (.client 5) false).1 = .badAlloc ∧
      (attach (attached.mRunning 1) attached.connections 1 (.client 5) false).2.owner
        (.client 5) = some 1 ∧
      ¬ AttachKept attached.connections 1 (.client 5) false := by
  refine ⟨by decide, by decide, fun hkept => ?_, by decide, by decide, fun hkept => ?_⟩
  · have hthrows := hkept.hrefuses.mpr ⟨by decide, by decide⟩
    revert hthrows
    decide
  · have hsame := congrArg (fun roster => roster.owner (.client 5)) (hkept.hatomic (by decide))
    revert hsame
    decide

end Sednl.Admission
