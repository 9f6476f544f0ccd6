import Sednl.Library.Association
import Sednl.Library.Transition

/-!
# Attaching

A listener keeps a list of its servers and a list of its connections, and each
of these a pointer `m_listener`.  `__attach` and `__detach` change both, and
neither while the listener runs.  The connections that `accept_connections`
makes point to their listener and are in no list.
-/

namespace Sednl.Attach

open Sednl.Association
open Sednl.Transition

inductive Outcome where
  | returns
  | eventListenerRunning
  | alreadyListened
  | wrongParentListener
  | badAlloc
  deriving DecidableEq, Repr

section Template

variable {T : Type} [DecidableEq T]

/-- `EventListener::__attach`, on the lists of all listeners and the pointers of
all elements; `push_back` throws when it cannot allocate. -/
def attach (mRunning : Bool) (roster : Roster T ℕ) (listener : ℕ) (elm : T) (allocates : Bool) :
    Outcome × Roster T ℕ :=
  if mRunning then (.eventListenerRunning, roster)
  else if elm ∈ roster.members listener then (.returns, roster)
  else if roster.owner elm ≠ none ∧ roster.owner elm ≠ some listener then
    (.alreadyListened, roster)
  else if allocates then (.returns, roster.link listener elm)
  else (.badAlloc, roster.setOwner elm (some listener))

def detach (mRunning : Bool) (roster : Roster T ℕ) (listener : ℕ) (elm : T) :
    Outcome × Roster T ℕ :=
  if mRunning then (.eventListenerRunning, roster)
  else if elm ∈ roster.members listener then
    if roster.owner elm ≠ some listener then (.wrongParentListener, roster)
    else (.returns, roster.unlink listener elm)
  else (.returns, roster)

/-- `__attach` keeps lists and pointers in agreement, however it ends, if it can
allocate. -/
theorem attach_consistent {roster : Roster T ℕ} {mirrored : Set T}
    (hroster : roster.Consistent mirrored) (mRunning : Bool) (listener : ℕ) (elm : T) :
    (attach mRunning roster listener elm true).2.Consistent mirrored := by
  rw [attach]
  split
  · exact hroster
  · split
    · exact hroster
    · rename_i hfresh
      split
      · exact hroster
      · rename_i hfree
        refine hroster.link hfresh fun other howner => ?_
        by_contra hother
        refine hfree ⟨?_, ?_⟩
        · rw [howner]
          exact Option.some_ne_none other
        · rw [howner]
          exact fun hsame => hother (Option.some.inj hsame)

theorem detach_consistent {roster : Roster T ℕ} {mirrored : Set T}
    (hroster : roster.Consistent mirrored) (mRunning : Bool) (listener : ℕ) (elm : T) :
    (detach mRunning roster listener elm).2.Consistent mirrored := by
  rw [detach]
  split
  · exact hroster
  · split
    · split
      · exact hroster
      · rename_i howner
        exact hroster.unlink (not_not.mp howner)
    · exact hroster

/-- Where lists and pointers agree, a listed element points to its listener. -/
theorem detach_ne_wrongParentListener {roster : Roster T ℕ} {mirrored : Set T}
    (hroster : roster.Consistent mirrored) (mRunning : Bool) (listener : ℕ) (elm : T) :
    (detach mRunning roster listener elm).1 ≠ .wrongParentListener := by
  rw [detach]
  split
  · exact Outcome.noConfusion
  · split
    · rename_i hmem
      rw [if_neg (not_not.mpr (hroster.hsound listener elm hmem))]
      exact Outcome.noConfusion
    · exact Outcome.noConfusion

theorem attach_owner_of_ne {roster : Roster T ℕ} {mRunning allocates : Bool} {listener : ℕ}
    {elm other : T} (hne : other ≠ elm) :
    (attach mRunning roster listener elm allocates).2.owner other = roster.owner other := by
  rw [attach]
  split
  · rfl
  · split
    · rfl
    · split
      · rfl
      · split
        · exact Roster.setOwner_of_ne hne _
        · exact Roster.setOwner_of_ne hne _

theorem detach_owner_of_ne {roster : Roster T ℕ} {mRunning : Bool} {listener : ℕ}
    {elm other : T} (hne : other ≠ elm) :
    (detach mRunning roster listener elm).2.owner other = roster.owner other := by
  rw [detach]
  split
  · rfl
  · split
    · split
      · rfl
      · exact Roster.setOwner_of_ne hne _
    · rfl

end Template

/-! ## Runs -/

/-- A `Connection`: made by the program, or the `n`-th that listeners accept. -/
inductive Connection where
  | client (n : ℕ)
  | accepted (n : ℕ)
  deriving DecidableEq, Repr

/-- Any number of listeners, servers and connections.  `thread` says that a
listener has a thread, and `made` counts the accepted connections. -/
structure State where
  servers : Roster ℕ ℕ
  connections : Roster Connection ℕ
  mRunning : ℕ → Bool
  thread : ℕ → Bool
  made : ℕ

def State.Exists (state : State) : Connection → Prop
  | .client _ => True
  | .accepted n => n < state.made

instance (state : State) : (cn : Connection) → Decidable (state.Exists cn)
  | .client _ => .isTrue trivial
  | .accepted n => inferInstanceAs (Decidable (n < state.made))

inductive Action where
  /-- `attach(TCPServer&)`. -/
  | attachServer (listener server : ℕ) (allocates : Bool)
  /-- `attach(Connection&)`. -/
  | attachConnection (listener : ℕ) (cn : Connection) (allocates : Bool)
  /-- `detach(TCPServer&)`. -/
  | detachServer (listener server : ℕ)
  /-- `detach(Connection&)`. -/
  | detachConnection (listener : ℕ) (cn : Connection)
  /-- `run`; `starts` is false where `run_init` throws. -/
  | run (listener : ℕ) (starts : Bool)
  /-- `join`, up to the join of the thread. -/
  | join (listener : ℕ)
  /-- The thread ends. -/
  | finish (listener : ℕ)
  /-- `accept_connections` makes a connection. -/
  | accept (listener : ℕ)
  deriving DecidableEq, Repr

/-- The steps, whether a call returns or throws. -/
def step (state : State) : Action → Option State
  | .attachServer listener server allocates =>
      some { state with
        servers := (attach (state.mRunning listener) state.servers listener server allocates).2 }
  | .attachConnection listener cn allocates =>
      if state.Exists cn then
        some { state with
          connections :=
            (attach (state.mRunning listener) state.connections listener cn allocates).2 }
      else none
  | .detachServer listener server =>
      some { state with
        servers := (detach (state.mRunning listener) state.servers listener server).2 }
  | .detachConnection listener cn =>
      if state.Exists cn then
        some { state with
          connections := (detach (state.mRunning listener) state.connections listener cn).2 }
      else none
  | .run listener starts =>
      if state.mRunning listener then some state
      else if state.thread listener then none
      else if starts then
        some { state with
          mRunning := Function.update state.mRunning listener true
          thread := Function.update state.thread listener true }
      else some state
  | .join listener =>
      some { state with mRunning := Function.update state.mRunning listener false }
  | .finish listener =>
      if state.thread listener ∧ !state.mRunning listener then
        some { state with thread := Function.update state.thread listener false }
      else none
  | .accept listener =>
      if state.thread listener then
        some { state with
          connections := state.connections.setOwner (.accepted state.made) (some listener)
          made := state.made + 1 }
      else none

def State.start : State :=
  ⟨.empty, .empty, fun _ => false, fun _ => false, 0⟩

def Allocates (_ : State) : Action → Prop
  | .attachServer _ _ allocates => allocates = true
  | .attachConnection _ _ allocates => allocates = true
  | _ => True

instance (state : State) : (action : Action) → Decidable (Allocates state action)
  | .attachServer _ _ allocates => inferInstanceAs (Decidable (allocates = true))
  | .attachConnection _ _ allocates => inferInstanceAs (Decidable (allocates = true))
  | .detachServer _ _ | .detachConnection _ _ | .run _ _ | .join _ | .finish _ | .accept _ =>
      .isTrue trivial

/-- The connections that the program has made. -/
def clients : Set Connection :=
  {cn | ∃ n, cn = .client n}

structure Attached (state : State) : Prop where
  hservers : state.servers.Consistent Set.univ
  hconnections : state.connections.Consistent clients
  hunborn : ∀ n, state.made ≤ n → state.connections.owner (.accepted n) = none

theorem ne_accepted {state : State} {cn : Connection} (hexists : state.Exists cn) {n : ℕ}
    (hn : state.made ≤ n) : Connection.accepted n ≠ cn := by
  rintro rfl
  exact absurd hexists (Nat.not_lt.mpr hn)

/-- What a step does to lists and pointers, given what `attach` does to them. -/
theorem step_consistent {state next : State} {action : Action} {servers : Set ℕ}
    {connections : Set Connection} (hforeign : ∀ n, Connection.accepted n ∉ connections)
    (hservers : state.servers.Consistent servers)
    (hconnections : state.connections.Consistent connections)
    (hunborn : ∀ n, state.made ≤ n → state.connections.owner (.accepted n) = none)
    (hserver : ∀ {mRunning listener server allocates},
      action = .attachServer listener server allocates →
        (attach mRunning state.servers listener server allocates).2.Consistent servers)
    (hconnection : ∀ {mRunning listener cn allocates},
      action = .attachConnection listener cn allocates →
        (attach mRunning state.connections listener cn allocates).2.Consistent connections)
    (hnext : step state action = some next) :
    next.servers.Consistent servers ∧ next.connections.Consistent connections ∧
      ∀ n, next.made ≤ n → next.connections.owner (.accepted n) = none := by
  cases action with
  | attachServer listener server allocates =>
      obtain rfl := Option.some.inj hnext
      exact ⟨hserver rfl, hconnections, hunborn⟩
  | attachConnection listener cn allocates =>
      obtain ⟨hexists, hsome⟩ := Option.ite_none_right_eq_some.mp hnext
      obtain rfl := Option.some.inj hsome
      refine ⟨hservers, hconnection rfl, fun n hn => ?_⟩
      exact (attach_owner_of_ne (ne_accepted hexists hn)).trans (hunborn n hn)
  | detachServer listener server =>
      obtain rfl := Option.some.inj hnext
      exact ⟨detach_consistent hservers _ _ _, hconnections, hunborn⟩
  | detachConnection listener cn =>
      obtain ⟨hexists, hsome⟩ := Option.ite_none_right_eq_some.mp hnext
      obtain rfl := Option.some.inj hsome
      refine ⟨hservers, detach_consistent hconnections _ _ _, fun n hn => ?_⟩
      exact (detach_owner_of_ne (ne_accepted hexists hn)).trans (hunborn n hn)
  | run listener starts =>
      rw [Attach.step] at hnext
      split at hnext
      · obtain rfl := Option.some.inj hnext
        exact ⟨hservers, hconnections, hunborn⟩
      · split at hnext
        · cases hnext
        · split at hnext
          · obtain rfl := Option.some.inj hnext
            exact ⟨hservers, hconnections, hunborn⟩
          · obtain rfl := Option.some.inj hnext
            exact ⟨hservers, hconnections, hunborn⟩
  | join listener =>
      obtain rfl := Option.some.inj hnext
      exact ⟨hservers, hconnections, hunborn⟩
  | finish listener =>
      obtain ⟨_, hsome⟩ := Option.ite_none_right_eq_some.mp hnext
      obtain rfl := Option.some.inj hsome
      exact ⟨hservers, hconnections, hunborn⟩
  | accept listener =>
      obtain ⟨_, hsome⟩ := Option.ite_none_right_eq_some.mp hnext
      obtain rfl := Option.some.inj hsome
      have hfree := hunborn state.made le_rfl
      refine ⟨hservers, hconnections.setOwner hfree (hforeign _) _, fun n hn => ?_⟩
      have hne : Connection.accepted n ≠ .accepted state.made := by
        intro hsame
        obtain rfl := Connection.accepted.inj hsame
        exact absurd hn (Nat.not_succ_le_self _)
      exact (Roster.setOwner_of_ne hne _).trans (hunborn n ((Nat.le_succ _).trans hn))

theorem attached_start : Attached State.start where
  hservers := Roster.consistent_empty
  hconnections := Roster.consistent_empty
  hunborn _ _ := rfl

theorem Attached.step {state next : State} (hattached : Attached state) {action : Action}
    (hallocates : Allocates state action) (hnext : step state action = some next) :
    Attached next := by
  have hforeign : ∀ n, Connection.accepted n ∉ clients := by
    rintro n ⟨m, hm⟩
    cases hm
  have hkept := step_consistent hforeign hattached.hservers hattached.hconnections
    hattached.hunborn ?_ ?_ hnext
  · exact ⟨hkept.1, hkept.2.1, hkept.2.2⟩
  · rintro mRunning listener server allocates rfl
    obtain rfl : allocates = true := hallocates
    exact attach_consistent hattached.hservers _ _ _
  · rintro mRunning listener cn allocates rfl
    obtain rfl : allocates = true := hallocates
    exact attach_consistent hattached.hconnections _ _ _

/-- What a family of lists and pointers is to be: no list holds an element twice,
an element is in the list of the listener it points to and in no other, and
`__detach` never finds another parent. -/
structure Single {T : Type} [DecidableEq T] (roster : Roster T ℕ) (elements : Set T) : Prop where
  hnodup : ∀ listener, (roster.members listener).Nodup
  hmem : ∀ elm ∈ elements, ∀ listener,
    elm ∈ roster.members listener ↔ roster.owner elm = some listener
  hlisted : ∀ listener, ∀ elm ∈ roster.members listener, roster.owner elm = some listener
  hunique : ∀ elm first second, elm ∈ roster.members first → elm ∈ roster.members second →
    first = second
  hparent : ∀ mRunning listener elm,
    (detach mRunning roster listener elm).1 ≠ .wrongParentListener

theorem single_of_consistent {T : Type} [DecidableEq T] {roster : Roster T ℕ} {elements : Set T}
    (hroster : roster.Consistent elements) : Single roster elements where
  hnodup := hroster.hnodup
  hmem _ helm _ := hroster.mem_iff helm
  hlisted := hroster.hsound
  hunique _ _ _ hfirst hsecond := hroster.unique hfirst hsecond
  hparent := detach_ne_wrongParentListener hroster

/-- However calls of `attach`, `detach`, `run` and `join` end, lists and pointers
agree: for all servers, and for all connections that the program has made; one
that was accepted is in a list only if it points to that listener. -/
theorem single_of_reaches {state : State}
    (hreaches : Reaches step Allocates State.start state) :
    Single state.servers Set.univ ∧ Single state.connections clients := by
  have hattached : Attached state :=
    hreaches.invariant (fun hattached hallocates hnext => hattached.step hallocates hnext)
      attached_start
  exact ⟨single_of_consistent hattached.hservers, single_of_consistent hattached.hconnections⟩

/-- A client is attached, refused by a second listener, detached, and attached
there; the second listener runs and accepts a connection. -/
theorem single_of_reaches_moved : ∃ state, Reaches step Allocates State.start state ∧
    state.connections.members 1 = [.client 4] ∧ state.connections.members 0 = [] ∧
    state.connections.owner (.accepted 0) = some 1 ∧
    Single state.servers Set.univ ∧ Single state.connections clients := by
  have hreaches : ∃ state, Reaches step Allocates State.start state ∧
      state.connections.members 1 = [.client 4] ∧ state.connections.members 0 = [] ∧
      state.connections.owner (.accepted 0) = some 1 :=
    ⟨_, .of_run (rfl : run step State.start [.attachConnection 0 (.client 4) true,
      .attachConnection 1 (.client 4) true, .detachConnection 0 (.client 4),
      .attachConnection 1 (.client 4) true, .run 1 true, .accept 1,
      .detachConnection 1 (.client 4)] = some _) (by decide), rfl, rfl, rfl⟩
  obtain ⟨state, hreaches, hfirst, hsecond, haccepted⟩ := hreaches
  exact ⟨state, hreaches, hfirst, hsecond, haccepted, single_of_reaches hreaches⟩

end Sednl.Attach
