import Sednl.Net.Connections
import Sednl.Net.Dispatch

/-!
# Signals

The two disconnect queues of a listener and the consumers that bind them.
`close_connection` and `close_server` push and then notify the consumer that is
linked; `Connection::disconnect`, which any thread may call and which the
listener calls at its end, pushes through `tell_disconnected` and notifies
nobody.  A consumer sleeps in `wait_for` until its flag is up.
`TCPServer::disconnect` is left out, since it does not come to its push.
-/

namespace Sednl.Signal

open Sednl.Connections (findAttached findInternal)
open Sednl.Transition
open Sednl.Dispatch (Slots Links linkConsumers linkedBy_onDisconnect
  linkedBy_onServerDisconnect)

inductive Kind where
  | connection
  | server
  deriving DecidableEq, Repr

def slotFor (slots : Slots) : Kind → Bool
  | .connection => slots.onDisconnect
  | .server => slots.onServerDisconnect

/-- The consumer to wake for a queue. -/
def linkFor (links : Links) : Kind → Option ℕ
  | .connection => links.onDisconnect
  | .server => links.onServerDisconnect

/-- Where the thread of a consumer stands: no thread, at the test of `m_running`,
in `wait_for`, in `consume_events` inside the loop or after it (`last`): before
the disconnect queues, at a `pop` from one of them or in a call of its slot; or
past its end and not joined. -/
inductive Stage where
  | idle
  | checking
  | waiting
  | events (last : Bool)
  | draining (last : Bool) (kind : Kind)
  | calling (last : Bool) (kind : Kind) (entry : ℕ)
  | ended
  deriving DecidableEq, Repr

structure Consumer where
  slots : Slots
  mRunning : Bool
  wakeUp : Bool
  stage : Stage

/-- Where the thread of the listener stands: no thread, in the event loop, before
a push and before a notification, in the loop over the map at the end of
`run_imp` with the connections still to come or before a push, with an iterator
to an erased entry, with the consumers still to join, or waiting for one. -/
inductive Listening where
  | idle
  | looping
  | pushing (kind : Kind) (entry : ℕ)
  | notifying (kind : Kind)
  | closing (todo : List ℕ)
  | telling (cn : ℕ)
  | erased
  | joining (todo : List ℕ)
  | waiting (consumer : ℕ) (todo : List ℕ)
  deriving DecidableEq, Repr

/-- A listener with its servers, its connections and its consumers.  `mFd` is
`none` for an object that is not connected, and `telling` holds the connections
that other threads have found in `tell_disconnected` and not pushed yet. -/
structure State where
  mServers : List ℕ
  mConnections : List ℕ
  mInternalConnections : List (ℕ × ℕ)
  serverFd : ℕ → Option ℕ
  mFd : ℕ → Option ℕ
  mMaxQueueSize : ℕ
  queue : Kind → List ℕ
  mConsumers : List ℕ
  links : Links
  mRunning : Bool
  listening : Listening
  telling : List ℕ
  consumers : ℕ → Consumer

namespace State

def set (state : State) (i : ℕ) (consumer : Consumer) : State :=
  { state with consumers := Function.update state.consumers i consumer }

def move (state : State) (i : ℕ) (stage : Stage) : State :=
  state.set i { state.consumers i with stage := stage }

def isFull (state : State) (kind : Kind) : Bool :=
  Dispatch.isFull (state.queue kind) state.mMaxQueueSize

/-- `disconnected_event`; `push` fails when it cannot allocate. -/
def disconnectedEvent (state : State) (kind : Kind) (entry : ℕ) (allocates : Bool) : State :=
  if state.isFull kind || !allocates then state
  else { state with
    queue := Function.update state.queue kind (state.queue kind ++ [entry]) }

def unsafeDisconnect (state : State) (cn : ℕ) : State :=
  { state with mFd := Function.update state.mFd cn none }

/-- The search of `tell_disconnected`: whether the connection is found, and what
it leaves. -/
def found (state : State) (cn : ℕ) : Option State :=
  (Connections.tellDisconnected state.mConnections state.mInternalConnections cn).map
    fun entries => { state with mInternalConnections := entries }

/-- The search of `close_connection`. -/
def foundFd (state : State) (fd : ℕ) : Option (ℕ × State) :=
  match findAttached state.mConnections state.mFd fd with
  | some cn => some (cn, state)
  | none =>
      (findInternal state.mInternalConnections fd).map fun cn =>
        (cn, { state with
          mInternalConnections := state.mInternalConnections.filter (·.1 ≠ fd) })

def notify (state : State) : Option ℕ → State
  | none => state
  | some i => state.set i { state.consumers i with wakeUp := true }

end State

/-- Where `consume_events` goes on after a queue. -/
def Stage.after (last : Bool) : Kind → Stage
  | .server => .draining last .connection
  | .connection => if last then .ended else .checking

/-- The next step of `EventConsumer::run_imp`.  What it does before it comes to
the disconnect queues is left out. -/
def State.runImp (state : State) (i : ℕ) : Option State :=
  match (state.consumers i).stage with
  | .idle => none
  | .ended => none
  | .checking =>
      if (state.consumers i).mRunning then some (state.move i .waiting)
      else some (state.move i (.events true))
  | .waiting =>
      if (state.consumers i).wakeUp then
        some (state.set i { state.consumers i with wakeUp := false, stage := .events false })
      else some (state.move i .checking)
  | .events last => some (state.move i (.draining last .server))
  | .draining last kind =>
      match slotFor (state.consumers i).slots kind, state.queue kind with
      | true, entry :: entries =>
          some ({ state with queue := Function.update state.queue kind entries }.move i
            (.calling last kind entry))
      | _, _ => some (state.move i (.after last kind))
  | .calling last kind _ => some (state.move i (.draining last kind))

inductive Action where
  /-- `EventListener::run`. -/
  | runListener
  /-- `EventListener::join`, up to the join of its thread. -/
  | joinListener
  /-- `EventConsumer::run`. -/
  | runConsumer (i : ℕ)
  /-- `EventConsumer::join`, up to the join of its thread. -/
  | joinConsumer (i : ℕ)
  /-- The `join` of a consumer returns. -/
  | consumerJoined (i : ℕ)
  /-- A client connects. -/
  | connect (cn fd : ℕ)
  /-- `accept_connections` makes a connection. -/
  | accept (fd cn : ℕ)
  /-- `close_connection`, up to its push. -/
  | closeConnection (fd : ℕ)
  /-- `close_server`, up to its push. -/
  | closeServer (fd : ℕ)
  /-- The push of either. -/
  | push (allocates : Bool)
  | notify
  /-- A thread calls `Connection::disconnect`: up to the push. -/
  | tell (cn : ℕ)
  /-- The push of such a thread, and the rest of the call. -/
  | pushTold (cn : ℕ) (allocates : Bool)
  /-- The event loop sees that `m_running` is false. -/
  | leave
  /-- The loop over the map calls `disconnect` on its connection: up to the push. -/
  | tellNext
  /-- The push of that call. -/
  | pushLast (allocates : Bool)
  /-- The loop over the map is over. -/
  | beginJoins
  /-- The listener calls `join` of the next consumer. -/
  | joinNext
  /-- That `join` returns. -/
  | nextJoined
  /-- The links are cleared, and the thread ends. -/
  | release
  /-- The thread of a consumer takes a step. -/
  | consumer (i : ℕ)
  deriving DecidableEq, Repr

/-- The steps of the listener, of the consumers and of all other threads. -/
def step (state : State) : Action → Option State
  | .runListener =>
      if state.listening = .idle ∧ !state.mRunning then
        match linkConsumers (fun i => (state.consumers i).slots) state.mConsumers
            state.links with
        | none => some { state with links := .clear }
        | some links =>
            some { state with links := links, mRunning := true, listening := .looping }
      else none
  | .joinListener =>
      if state.mRunning then some { state with mRunning := false } else none
  | .runConsumer i =>
      if i ∈ state.mConsumers ∧ !(state.consumers i).mRunning ∧
          (state.consumers i).stage = .idle then
        some (state.set i { state.consumers i with
          slots := (state.consumers i).slots.clean
          mRunning := true
          stage := .checking })
      else none
  | .joinConsumer i =>
      if i ∈ state.mConsumers ∧ (state.consumers i).mRunning then
        some (state.set i { state.consumers i with mRunning := false })
      else none
  | .consumerJoined i =>
      if i ∈ state.mConsumers ∧ (state.consumers i).stage = .ended then
        some (state.move i .idle)
      else none
  | .connect cn fd => some { state with mFd := Function.update state.mFd cn (some fd) }
  | .accept fd cn =>
      if state.listening = .looping ∧ state.mInternalConnections.lookup fd = none then
        some { state with
          mFd := Function.update state.mFd cn (some fd)
          mInternalConnections := (fd, cn) :: state.mInternalConnections }
      else none
  | .closeConnection fd =>
      if state.listening = .looping then
        match state.foundFd fd with
        | none => some state
        | some (cn, rest) =>
            some { rest.unsafeDisconnect cn with listening := .pushing .connection cn }
      else none
  | .closeServer fd =>
      if state.listening = .looping then
        match state.mServers.find? fun s => state.serverFd s = some fd with
        | none => some state
        | some s => some { state with listening := .pushing .server s }
      else none
  | .push allocates =>
      match state.listening with
      | .pushing kind entry =>
          some { state.disconnectedEvent kind entry allocates with listening := .notifying kind }
      | _ => none
  | .notify =>
      match state.listening with
      | .notifying kind =>
          some { state.notify (linkFor state.links kind) with listening := .looping }
      | _ => none
  | .tell cn =>
      match state.found cn with
      | none => some (state.unsafeDisconnect cn)
      | some rest => some { rest with telling := cn :: state.telling }
  | .pushTold cn allocates =>
      if cn ∈ state.telling then
        some { (state.disconnectedEvent .connection cn allocates).unsafeDisconnect cn with
          telling := state.telling.erase cn }
      else none
  | .leave =>
      if state.listening = .looping ∧ !state.mRunning then
        some { state with listening := .closing (state.mInternalConnections.map Prod.snd) }
      else none
  | .tellNext =>
      match state.listening with
      | .closing (cn :: todo) =>
          match state.found cn with
          | none => some { state.unsafeDisconnect cn with listening := .closing todo }
          | some rest => some { rest with listening := .telling cn }
      | _ => none
  | .pushLast allocates =>
      match state.listening with
      | .telling cn =>
          some { (state.disconnectedEvent .connection cn allocates).unsafeDisconnect cn with
            listening := .erased }
      | _ => none
  | .beginJoins =>
      match state.listening with
      | .closing [] => some { state with listening := .joining state.mConsumers }
      | _ => none
  | .joinNext =>
      match state.listening with
      | .joining (i :: todo) =>
          if (state.consumers i).mRunning then
            some { state.set i { state.consumers i with mRunning := false } with
              listening := .waiting i todo }
          else some { state with listening := .joining todo }
      | _ => none
  | .nextJoined =>
      match state.listening with
      | .waiting i todo =>
          if (state.consumers i).stage = .ended then
            some { state.move i .idle with listening := .joining todo }
          else none
      | _ => none
  | .release =>
      match state.listening with
      | .joining [] =>
          some { state with
            mInternalConnections := []
            links := .clear
            listening := .idle }
      | _ => none
  | .consumer i => if i ∈ state.mConsumers then state.runImp i else none

/-! ## What a step can do -/

/-- The branches of `step` that lead to a state: what each asks for, and where
it leads. -/
inductive Branch (state : State) : Action → State → Prop where
  | collides (hready : state.listening = .idle ∧ !state.mRunning) :
      Branch state .runListener { state with links := .clear }
  | runListener {links : Links} (hready : state.listening = .idle ∧ !state.mRunning)
      (hlinks : linkConsumers (fun i => (state.consumers i).slots) state.mConsumers state.links =
        some links) :
      Branch state .runListener
        { state with links := links, mRunning := true, listening := .looping }
  | joinListener : Branch state .joinListener { state with mRunning := false }
  | runConsumer {i : ℕ} (hidle : (state.consumers i).stage = .idle) :
      Branch state (.runConsumer i) (state.set i { state.consumers i with
        slots := (state.consumers i).slots.clean
        mRunning := true
        stage := .checking })
  | joinConsumer {i : ℕ} :
      Branch state (.joinConsumer i) (state.set i { state.consumers i with mRunning := false })
  | consumerJoined {i : ℕ} (hended : (state.consumers i).stage = .ended) :
      Branch state (.consumerJoined i) (state.move i .idle)
  | connect {cn fd : ℕ} :
      Branch state (.connect cn fd) { state with mFd := Function.update state.mFd cn (some fd) }
  | accept {fd cn : ℕ} (hlooping : state.listening = .looping) :
      Branch state (.accept fd cn) { state with
        mFd := Function.update state.mFd cn (some fd)
        mInternalConnections := (fd, cn) :: state.mInternalConnections }
  | noConnection {fd : ℕ} (hlooping : state.listening = .looping) :
      Branch state (.closeConnection fd) state
  | closeConnection {fd cn : ℕ} {map : List (ℕ × ℕ)} (hlooping : state.listening = .looping) :
      Branch state (.closeConnection fd)
        { { state with mInternalConnections := map }.unsafeDisconnect cn with
          listening := .pushing .connection cn }
  | noServer {fd : ℕ} (hlooping : state.listening = .looping) :
      Branch state (.closeServer fd) state
  | closeServer {fd s : ℕ} (hlooping : state.listening = .looping) :
      Branch state (.closeServer fd) { state with listening := .pushing .server s }
  | push {kind : Kind} {entry : ℕ} {allocates : Bool}
      (hpushing : state.listening = .pushing kind entry) :
      Branch state (.push allocates)
        { state.disconnectedEvent kind entry allocates with listening := .notifying kind }
  | notify {kind : Kind} (hnotifying : state.listening = .notifying kind) :
      Branch state .notify
        { state.notify (linkFor state.links kind) with listening := .looping }
  | notFound {cn : ℕ} : Branch state (.tell cn) (state.unsafeDisconnect cn)
  | tell {cn : ℕ} {map : List (ℕ × ℕ)} :
      Branch state (.tell cn)
        { state with mInternalConnections := map, telling := cn :: state.telling }
  | pushTold {cn : ℕ} {allocates : Bool} :
      Branch state (.pushTold cn allocates)
        { (state.disconnectedEvent .connection cn allocates).unsafeDisconnect cn with
          telling := state.telling.erase cn }
  | leave (hlooping : state.listening = .looping) :
      Branch state .leave
        { state with listening := .closing (state.mInternalConnections.map Prod.snd) }
  | skipNext {cn : ℕ} {todo : List ℕ} (hclosing : state.listening = .closing (cn :: todo)) :
      Branch state .tellNext { state.unsafeDisconnect cn with listening := .closing todo }
  | tellNext {cn : ℕ} {todo : List ℕ} {map : List (ℕ × ℕ)}
      (hclosing : state.listening = .closing (cn :: todo)) :
      Branch state .tellNext
        { state with mInternalConnections := map, listening := .telling cn }
  | pushLast {cn : ℕ} {allocates : Bool} (htelling : state.listening = .telling cn) :
      Branch state (.pushLast allocates)
        { (state.disconnectedEvent .connection cn allocates).unsafeDisconnect cn with
          listening := .erased }
  | beginJoins (hclosing : state.listening = .closing []) :
      Branch state .beginJoins { state with listening := .joining state.mConsumers }
  | await {i : ℕ} {todo : List ℕ} (hjoining : state.listening = .joining (i :: todo)) :
      Branch state .joinNext { state.set i { state.consumers i with mRunning := false } with
        listening := .waiting i todo }
  | skip {i : ℕ} {todo : List ℕ} (hjoining : state.listening = .joining (i :: todo)) :
      Branch state .joinNext { state with listening := .joining todo }
  | nextJoined {i : ℕ} {todo : List ℕ} (hwaiting : state.listening = .waiting i todo)
      (hended : (state.consumers i).stage = .ended) :
      Branch state .nextJoined { state.move i .idle with listening := .joining todo }
  | release (hjoining : state.listening = .joining []) :
      Branch state .release { state with
        mInternalConnections := []
        links := .clear
        listening := .idle }
  | waits {i : ℕ} (hchecking : (state.consumers i).stage = .checking) :
      Branch state (.consumer i) (state.move i .waiting)
  | stops {i : ℕ} (hchecking : (state.consumers i).stage = .checking) :
      Branch state (.consumer i) (state.move i (.events true))
  | wakes {i : ℕ} (hwaiting : (state.consumers i).stage = .waiting) :
      Branch state (.consumer i)
        (state.set i { state.consumers i with wakeUp := false, stage := .events false })
  | timesOut {i : ℕ} (hwaiting : (state.consumers i).stage = .waiting) :
      Branch state (.consumer i) (state.move i .checking)
  | drains {i : ℕ} {last : Bool} (hevents : (state.consumers i).stage = .events last) :
      Branch state (.consumer i) (state.move i (.draining last .server))
  | pops {i entry : ℕ} {entries : List ℕ} {last : Bool} {kind : Kind}
      (hdraining : (state.consumers i).stage = .draining last kind)
      (hqueue : state.queue kind = entry :: entries) :
      Branch state (.consumer i)
        ({ state with queue := Function.update state.queue kind entries }.move i
          (.calling last kind entry))
  | passes {i : ℕ} {last : Bool} {kind : Kind}
      (hdraining : (state.consumers i).stage = .draining last kind)
      (hempty : slotFor (state.consumers i).slots kind = true → state.queue kind = []) :
      Branch state (.consumer i) (state.move i (.after last kind))
  | calls {i entry : ℕ} {last : Bool} {kind : Kind}
      (hcalling : (state.consumers i).stage = .calling last kind entry) :
      Branch state (.consumer i) (state.move i (.draining last kind))

/-- The search of `tell_disconnected` changes no more than the map. -/
theorem State.found_eq {state rest : State} {cn : ℕ} (hfound : state.found cn = some rest) :
    ∃ map, rest = { state with mInternalConnections := map } := by
  obtain ⟨entries, _, hrest⟩ := Option.map_eq_some_iff.mp hfound
  exact ⟨entries, hrest.symm⟩

theorem State.foundFd_eq {state rest : State} {fd cn : ℕ}
    (hfound : state.foundFd fd = some (cn, rest)) :
    ∃ map, rest = { state with mInternalConnections := map } := by
  rw [State.foundFd] at hfound
  split at hfound
  · obtain ⟨_, rfl⟩ := Prod.mk.inj (Option.some.inj hfound)
    exact ⟨_, rfl⟩
  · obtain ⟨_, _, hsome⟩ := Option.map_eq_some_iff.mp hfound
    obtain ⟨_, rfl⟩ := Prod.mk.inj hsome
    exact ⟨_, rfl⟩

theorem branch_of_runImp {state next : State} {i : ℕ} (hnext : state.runImp i = some next) :
    Branch state (.consumer i) next := by
  rw [State.runImp] at hnext
  split at hnext
  · cases hnext
  · cases hnext
  · rename_i hchecking
    split at hnext
    · obtain rfl := Option.some.inj hnext
      exact .waits hchecking
    · obtain rfl := Option.some.inj hnext
      exact .stops hchecking
  · rename_i hwaiting
    split at hnext
    · obtain rfl := Option.some.inj hnext
      exact .wakes hwaiting
    · obtain rfl := Option.some.inj hnext
      exact .timesOut hwaiting
  · rename_i last hevents
    obtain rfl := Option.some.inj hnext
    exact .drains hevents
  · rename_i last kind hdraining
    split at hnext
    · rename_i entry entries _ hqueue
      obtain rfl := Option.some.inj hnext
      exact .pops hdraining hqueue
    · rename_i hdone
      obtain rfl := Option.some.inj hnext
      refine .passes hdraining fun hslot => ?_
      cases hqueue : state.queue kind with
      | nil => rfl
      | cons entry entries => exact absurd hqueue (hdone entry entries hslot)
  · rename_i last kind entry hcalling
    obtain rfl := Option.some.inj hnext
    exact .calls hcalling

theorem branch_of_close {state next : State} {action : Action} {fd : ℕ}
    (haction : action = .closeConnection fd ∨ action = .closeServer fd)
    (hnext : step state action = some next) : Branch state action next := by
  rcases haction with rfl | rfl
  · obtain ⟨hlooping, hnext⟩ := Option.ite_none_right_eq_some.mp hnext
    split at hnext
    · obtain rfl := Option.some.inj hnext
      exact .noConnection hlooping
    · rename_i cn rest hfound
      obtain ⟨map, rfl⟩ := State.foundFd_eq hfound
      obtain rfl := Option.some.inj hnext
      exact .closeConnection hlooping
  · obtain ⟨hlooping, hnext⟩ := Option.ite_none_right_eq_some.mp hnext
    split at hnext
    · obtain rfl := Option.some.inj hnext
      exact .noServer hlooping
    · obtain rfl := Option.some.inj hnext
      exact .closeServer hlooping

/-- Each step takes one of the branches. -/
theorem branch_of_step {state next : State} {action : Action}
    (hnext : step state action = some next) : Branch state action next := by
  cases action with
  | runListener =>
      obtain ⟨hready, hnext⟩ := Option.ite_none_right_eq_some.mp hnext
      split at hnext
      · obtain rfl := Option.some.inj hnext
        exact .collides hready
      · rename_i links hlinks
        obtain rfl := Option.some.inj hnext
        exact .runListener hready hlinks
  | joinListener =>
      obtain ⟨_, hsome⟩ := Option.ite_none_right_eq_some.mp hnext
      obtain rfl := Option.some.inj hsome
      exact .joinListener
  | runConsumer i =>
      obtain ⟨⟨_, _, hidle⟩, hsome⟩ := Option.ite_none_right_eq_some.mp hnext
      obtain rfl := Option.some.inj hsome
      exact .runConsumer hidle
  | joinConsumer i =>
      obtain ⟨_, hsome⟩ := Option.ite_none_right_eq_some.mp hnext
      obtain rfl := Option.some.inj hsome
      exact .joinConsumer
  | consumerJoined i =>
      obtain ⟨⟨_, hended⟩, hsome⟩ := Option.ite_none_right_eq_some.mp hnext
      obtain rfl := Option.some.inj hsome
      exact .consumerJoined hended
  | connect cn fd =>
      obtain rfl := Option.some.inj hnext
      exact .connect
  | accept fd cn =>
      obtain ⟨⟨hlooping, _⟩, hsome⟩ := Option.ite_none_right_eq_some.mp hnext
      obtain rfl := Option.some.inj hsome
      exact .accept hlooping
  | closeConnection fd => exact branch_of_close (.inl rfl) hnext
  | closeServer fd => exact branch_of_close (.inr rfl) hnext
  | push allocates =>
      rw [step] at hnext
      split at hnext
      · rename_i kind entry hpushing
        obtain rfl := Option.some.inj hnext
        exact .push hpushing
      · cases hnext
  | notify =>
      rw [step] at hnext
      split at hnext
      · rename_i kind hnotifying
        obtain rfl := Option.some.inj hnext
        exact .notify hnotifying
      · cases hnext
  | tell cn =>
      rw [step] at hnext
      split at hnext
      · obtain rfl := Option.some.inj hnext
        exact .notFound
      · rename_i rest hfound
        obtain ⟨map, rfl⟩ := State.found_eq hfound
        obtain rfl := Option.some.inj hnext
        exact .tell
  | pushTold cn allocates =>
      obtain ⟨_, hsome⟩ := Option.ite_none_right_eq_some.mp hnext
      obtain rfl := Option.some.inj hsome
      exact .pushTold
  | leave =>
      obtain ⟨⟨hlooping, _⟩, hsome⟩ := Option.ite_none_right_eq_some.mp hnext
      obtain rfl := Option.some.inj hsome
      exact .leave hlooping
  | tellNext =>
      rw [step] at hnext
      split at hnext
      · rename_i cn todo hclosing
        split at hnext
        · obtain rfl := Option.some.inj hnext
          exact .skipNext hclosing
        · rename_i rest hfound
          obtain ⟨map, rfl⟩ := State.found_eq hfound
          obtain rfl := Option.some.inj hnext
          exact .tellNext hclosing
      · cases hnext
  | pushLast allocates =>
      rw [step] at hnext
      split at hnext
      · rename_i cn htelling
        obtain rfl := Option.some.inj hnext
        exact .pushLast htelling
      · cases hnext
  | beginJoins =>
      rw [step] at hnext
      split at hnext
      · rename_i hclosing
        obtain rfl := Option.some.inj hnext
        exact .beginJoins hclosing
      · cases hnext
  | joinNext =>
      rw [step] at hnext
      split at hnext
      · rename_i i todo hjoining
        split at hnext
        · obtain rfl := Option.some.inj hnext
          exact .await hjoining
        · obtain rfl := Option.some.inj hnext
          exact .skip hjoining
      · cases hnext
  | nextJoined =>
      rw [step] at hnext
      split at hnext
      · rename_i i todo hwaiting
        obtain ⟨hended, hsome⟩ := Option.ite_none_right_eq_some.mp hnext
        obtain rfl := Option.some.inj hsome
        exact .nextJoined hwaiting hended
      · cases hnext
  | release =>
      rw [step] at hnext
      split at hnext
      · rename_i hjoining
        obtain rfl := Option.some.inj hnext
        exact .release hjoining
      · cases hnext
  | consumer i =>
      obtain ⟨_, hsome⟩ := Option.ite_none_right_eq_some.mp hnext
      exact branch_of_runImp hsome

/-! ## Signals -/

namespace State

variable (state : State)

/-- A consumer of the listener with a slot for the entries of a queue. -/
def Binds (i : ℕ) (kind : Kind) : Prop :=
  i ∈ state.mConsumers ∧ slotFor (state.consumers i).slots kind = true

instance (i : ℕ) (kind : Kind) : Decidable (state.Binds i kind) :=
  inferInstanceAs (Decidable (_ ∧ _))

/-- A consumer sleeps, and its flag is down. -/
def Parked (i : ℕ) : Prop :=
  (state.consumers i).stage = .waiting ∧ (state.consumers i).wakeUp = false

/-- The listener is about to notify a consumer of a queue. -/
def Notifies (i : ℕ) (kind : Kind) : Prop :=
  state.listening = .notifying kind ∧ linkFor state.links kind = some i

/-- No consumer sleeps over a queue that it binds, with no notification to come. -/
def Signalled : Prop :=
  ∀ i kind, state.Binds i kind → state.Parked i → state.queue kind ≠ [] →
    state.Notifies i kind

def pushes (kind : Kind) (allocates : Bool) : Bool :=
  !state.isFull kind && allocates

end State

/-- The push that a step makes, if any, is followed by a notification of the
consumer that binds the queue. -/
def Signals (state next : State) : Prop :=
  ∀ i kind, state.Binds i kind → (state.queue kind).length < (next.queue kind).length →
    next.Notifies i kind

/-- When a step is safe: a call of `Connection::disconnect` pushes nothing, or no
consumer binds `on_disconnect`, or the listener itself is about to notify it. -/
def Safe (state : State) : Action → Prop
  | .pushTold _ allocates =>
      state.pushes .connection allocates = true →
        state.listening ≠ .notifying .connection → ∀ i ∈ state.mConsumers,
          (state.consumers i).slots.onDisconnect = false
  | .pushLast allocates =>
      state.pushes .connection allocates = true → ∀ i ∈ state.mConsumers,
        (state.consumers i).slots.onDisconnect = false
  | _ => True

instance (state : State) : (action : Action) → Decidable (Safe state action)
  | .pushTold _ allocates =>
      inferInstanceAs (Decidable (state.pushes .connection allocates = true → _ → _))
  | .pushLast allocates =>
      inferInstanceAs (Decidable (state.pushes .connection allocates = true → _))
  | .runListener | .joinListener | .runConsumer _ | .joinConsumer _ | .consumerJoined _
  | .connect _ _ | .accept _ _ | .closeConnection _ | .closeServer _ | .push _ | .notify
  | .tell _ | .leave | .tellNext | .beginJoins | .joinNext | .nextJoined | .release
  | .consumer _ => .isTrue trivial

/-- A listener before `run`, with nothing on its disconnect queues. -/
structure State.Starts (state : State) : Prop where
  hidle : state.listening = .idle
  hlinks : state.links = .clear
  hempty : ∀ kind, state.queue kind = []

/-! ## The trace an entry leaves -/

/-- The sweep of a consumer still comes to a queue. -/
def Stage.comesTo (kind : Kind) : Stage → Prop
  | .events _ => True
  | .draining _ place => place = kind ∨ place = .server
  | .calling _ place _ => place = kind ∨ place = .server
  | .idle | .checking | .waiting | .ended => False

structure Covered (state : State) : Prop where
  hidle : state.listening = .idle → state.links = .clear
  hlinked : state.listening ≠ .idle → ∀ i kind, state.Binds i kind →
    linkFor state.links kind = some i
  htrace : ∀ i kind, state.Binds i kind → state.queue kind ≠ [] →
    (state.consumers i).wakeUp = true ∨ state.Notifies i kind ∨
      (state.consumers i).stage.comesTo kind

theorem slotFor_clean (slots : Slots) (kind : Kind) :
    slotFor slots.clean kind = slotFor slots kind := by
  cases kind with
  | connection => rfl
  | server => rfl

/-- `run_init` links each queue to the consumer that binds it. -/
theorem linkFor_of_linkConsumers {state : State} {links : Links} {i : ℕ} {kind : Kind}
    (hlinks : linkConsumers (fun i => (state.consumers i).slots) state.mConsumers state.links =
      some links) (hbinds : state.Binds i kind) : linkFor links kind = some i := by
  cases kind with
  | connection => exact (linkedBy_onDisconnect _).sets hlinks hbinds.1 hbinds.2
  | server => exact (linkedBy_onServerDisconnect _).sets hlinks hbinds.1 hbinds.2

section Steps

variable {state next : State} {kind : Kind} {i : ℕ}

theorem State.set_self (consumer : Consumer) : (state.set i consumer).consumers i = consumer :=
  Function.update_self _ _ _

theorem State.set_of_ne {j : ℕ} (hne : j ≠ i) (consumer : Consumer) :
    (state.set i consumer).consumers j = state.consumers j :=
  Function.update_of_ne hne _ _

theorem Covered.of_same (hcovered : Covered state)
    (hconsumers : next.consumers = state.consumers)
    (hmembers : next.mConsumers = state.mConsumers) (hlinks : next.links = state.links)
    (hqueue : next.queue = state.queue)
    (hidle : next.listening = .idle ↔ state.listening = .idle)
    (hpending : ∀ i kind, state.Notifies i kind →
      next.listening = .notifying kind ∨ (state.consumers i).wakeUp = true) :
    Covered next where
  hidle hnext := hlinks.trans (hcovered.hidle (hidle.mp hnext))
  hlinked hnext i kind hbinds := by
    rw [State.Binds, hmembers, hconsumers] at hbinds
    rw [hlinks]
    exact hcovered.hlinked (fun hsame => hnext (hidle.mpr hsame)) i kind hbinds
  htrace i kind hbinds hsome := by
    rw [State.Binds, hmembers, hconsumers] at hbinds
    rw [hqueue] at hsome
    rw [hconsumers]
    rcases hcovered.htrace i kind hbinds hsome with hup | hnotifies | hcomes
    · exact .inl hup
    · rcases hpending i kind hnotifies with hnotifying | hup
      · exact .inr (.inl ⟨hnotifying, by rw [hlinks, hnotifies.2]⟩)
      · exact .inl hup
    · exact .inr (.inr hcomes)

/-- The listener goes on, with no notification left that it owes. -/
theorem Covered.listen (hcovered : Covered state) {listening : Listening}
    (hactive : listening ≠ .idle) (hbefore : state.listening ≠ .idle)
    (hpaid : ∀ i kind, state.Notifies i kind → (state.consumers i).wakeUp = true) :
    Covered { state with listening := listening } :=
  hcovered.of_same rfl rfl rfl rfl ⟨fun hidle => absurd hidle hactive,
    fun hidle => absurd hidle hbefore⟩ fun i kind hnotifies => .inr (hpaid i kind hnotifies)

theorem State.binds_set {consumer : Consumer}
    (hslots : ∀ kind, slotFor consumer.slots kind = slotFor (state.consumers i).slots kind)
    (j : ℕ) (kind : Kind) : (state.set i consumer).Binds j kind ↔ state.Binds j kind := by
  by_cases hj : j = i
  · subst hj
    rw [State.Binds, State.set_self, hslots]
    exact Iff.rfl
  · rw [State.Binds, State.set_of_ne hj]
    exact Iff.rfl

/-- A consumer changes, and does not lose the trace of an entry. -/
theorem Covered.set (hcovered : Covered state) {consumer : Consumer}
    (hslots : ∀ kind, slotFor consumer.slots kind = slotFor (state.consumers i).slots kind)
    (hkeeps : ∀ kind, slotFor (state.consumers i).slots kind = true → state.queue kind ≠ [] →
      (state.consumers i).wakeUp = true ∨ (state.consumers i).stage.comesTo kind →
      consumer.wakeUp = true ∨ consumer.stage.comesTo kind) :
    Covered (state.set i consumer) where
  hidle := hcovered.hidle
  hlinked hactive j kind hbinds :=
    hcovered.hlinked hactive j kind ((State.binds_set hslots j kind).mp hbinds)
  htrace j kind hbinds hsome := by
    have hbound := (State.binds_set hslots j kind).mp hbinds
    have htrace := hcovered.htrace j kind hbound hsome
    by_cases hj : j = i
    · subst hj
      rw [State.set_self]
      rcases htrace with hup | hnotifies | hcomes
      · exact (hkeeps kind hbound.2 hsome (.inl hup)).imp_right .inr
      · exact .inr (.inl hnotifies)
      · exact (hkeeps kind hbound.2 hsome (.inr hcomes)).imp_right .inr
    · rw [State.set_of_ne hj]
      exact htrace

/-- A consumer moves on, and still comes to the queues it has come to before. -/
theorem Covered.move (hcovered : Covered state) {stage : Stage}
    (hkeeps : ∀ kind, slotFor (state.consumers i).slots kind = true → state.queue kind ≠ [] →
      (state.consumers i).stage.comesTo kind → stage.comesTo kind) :
    Covered (state.move i stage) :=
  hcovered.set (fun _ => rfl) fun kind hslot hsome => Or.imp_right (hkeeps kind hslot hsome)

theorem State.disconnectedEvent_of_pushes {entry : ℕ} {allocates : Bool}
    (hpushes : state.pushes kind allocates = true) :
    state.disconnectedEvent kind entry allocates =
      { state with
        queue := Function.update state.queue kind (state.queue kind ++ [entry]) } := by
  rw [State.pushes, Bool.and_eq_true, Bool.not_eq_true'] at hpushes
  rw [State.disconnectedEvent, hpushes.1, hpushes.2]
  rfl

theorem State.disconnectedEvent_queue {entry : ℕ} {allocates : Bool}
    (hpushes : state.pushes kind allocates = true) :
    (state.disconnectedEvent kind entry allocates).queue kind = state.queue kind ++ [entry] := by
  rw [State.disconnectedEvent_of_pushes hpushes]
  exact Function.update_self _ _ _

theorem State.disconnectedEvent_of_not_pushes {entry : ℕ} {allocates : Bool}
    (hpushes : state.pushes kind allocates = false) :
    state.disconnectedEvent kind entry allocates = state := by
  rw [State.disconnectedEvent, if_pos]
  rw [State.pushes, Bool.and_eq_false_iff, Bool.not_eq_false'] at hpushes
  simpa using hpushes

theorem State.disconnectedEvent_listen {entry : ℕ} {allocates : Bool} (listening : Listening) :
    ({ state with listening := listening } : State).disconnectedEvent kind entry allocates =
      { state.disconnectedEvent kind entry allocates with listening := listening } := by
  unfold State.disconnectedEvent
  change (if state.isFull kind || !allocates then _ else _) = _
  split
  · rfl
  · rfl

/-- A push for which a notification is to come, or onto a queue that nobody
binds. -/
theorem Covered.disconnectedEvent (hcovered : Covered state) {entry : ℕ} {allocates : Bool}
    (hsignalled : state.pushes kind allocates = true → ∀ i, state.Binds i kind →
      state.Notifies i kind) : Covered (state.disconnectedEvent kind entry allocates) := by
  cases hpushes : state.pushes kind allocates with
  | false =>
      rw [State.disconnectedEvent_of_not_pushes hpushes]
      exact hcovered
  | true =>
      rw [State.disconnectedEvent_of_pushes hpushes]
      refine ⟨hcovered.hidle, hcovered.hlinked, fun i other hbinds hsome => ?_⟩
      by_cases hother : other = kind
      · subst hother
        exact .inr (.inl (hsignalled hpushes i hbinds))
      · replace hsome : Function.update state.queue kind _ other ≠ [] := hsome
        rw [Function.update_of_ne hother] at hsome
        exact hcovered.htrace i other hbinds hsome

/-- A `pop` makes no queue longer. -/
theorem Covered.pop (hcovered : Covered state) {entry : ℕ} {entries : List ℕ}
    (hqueue : state.queue kind = entry :: entries) :
    Covered { state with queue := Function.update state.queue kind entries } where
  hidle := hcovered.hidle
  hlinked := hcovered.hlinked
  htrace i other hbinds hsome := by
    refine hcovered.htrace i other hbinds ?_
    by_cases hother : other = kind
    · subst hother
      rw [hqueue]
      exact List.cons_ne_nil _ _
    · replace hsome : Function.update state.queue kind entries other ≠ [] := hsome
      rwa [Function.update_of_ne hother] at hsome

/-- The notification that was to come makes the flag go up. -/
theorem Covered.notify (hcovered : Covered state) (hnotifying : state.listening = .notifying kind) :
    Covered { state.notify (linkFor state.links kind) with listening := .looping } := by
  have hactive : state.listening ≠ .idle := by
    rw [hnotifying]
    exact Listening.noConfusion
  cases hlink : linkFor state.links kind with
  | none =>
      refine hcovered.listen Listening.noConfusion hactive ?_
      rintro i other ⟨hother, hset⟩
      obtain rfl := Listening.notifying.inj (hnotifying.symm.trans hother)
      cases hlink.symm.trans hset
  | some j =>
      have hwoken : Covered (state.notify (some j)) :=
        hcovered.set (fun _ => rfl) fun _ _ _ _ => .inl rfl
      refine hwoken.listen Listening.noConfusion hactive ?_
      rintro i other ⟨hother, hset⟩
      obtain rfl := Listening.notifying.inj (hnotifying.symm.trans hother)
      obtain rfl := Option.some.inj (hlink.symm.trans hset)
      rw [State.notify, State.set_self]

/-- The listener goes on from a place where it owes no notification. -/
theorem Covered.goOn (hcovered : Covered state) {before listening : Listening}
    (hplace : state.listening = before) (hactive : listening ≠ .idle) (hbefore : before ≠ .idle)
    (hquiet : ∀ kind, before ≠ .notifying kind) :
    Covered { state with listening := listening } := by
  subst hplace
  exact hcovered.listen hactive hbefore fun i kind hnotifies => absurd hnotifies.1 (hquiet kind)

theorem Covered.push (hcovered : Covered state) {entry : ℕ} {allocates : Bool}
    (hpushing : state.listening = .pushing kind entry) :
    Covered { state.disconnectedEvent kind entry allocates with
      listening := .notifying kind } := by
  have hnotifying : Covered { state with listening := .notifying kind } :=
    hcovered.goOn hpushing Listening.noConfusion Listening.noConfusion fun _ =>
      Listening.noConfusion
  have hactive : state.listening ≠ .idle := by
    rw [hpushing]
    exact Listening.noConfusion
  have hpushed : Covered
      (({ state with listening := .notifying kind } : State).disconnectedEvent kind entry
        allocates) :=
    hnotifying.disconnectedEvent fun _ i hbinds => ⟨rfl, hcovered.hlinked hactive i kind hbinds⟩
  rwa [State.disconnectedEvent_listen] at hpushed

/-- A safe push of another thread: nobody waits for it, or the listener is about
to notify. -/
theorem Covered.signalled (hcovered : Covered state) {cn : ℕ} {allocates : Bool}
    (hsafe : Safe state (.pushTold cn allocates))
    (hpushes : state.pushes .connection allocates = true)
    (hbinds : state.Binds i .connection) : state.Notifies i .connection := by
  by_cases hnotifying : state.listening = .notifying .connection
  · have hactive : state.listening ≠ .idle := by
      rw [hnotifying]
      exact Listening.noConfusion
    exact ⟨hnotifying, hcovered.hlinked hactive i .connection hbinds⟩
  · have hslot := hsafe hpushes hnotifying i hbinds.1
    exact absurd hbinds.2 (Bool.eq_false_iff.mp hslot)

theorem State.disconnectedEvent_listening {entry : ℕ} {allocates : Bool} :
    (state.disconnectedEvent kind entry allocates).listening = state.listening := by
  rw [State.disconnectedEvent]
  split
  · rfl
  · rfl

theorem State.disconnectedEvent_links {entry : ℕ} {allocates : Bool} :
    (state.disconnectedEvent kind entry allocates).links = state.links := by
  rw [State.disconnectedEvent]
  split
  · rfl
  · rfl

/-- `run_init` finds no collision. -/
theorem Covered.runListener (hcovered : Covered state) (hidle : state.listening = .idle)
    {links : Links}
    (hlinks : linkConsumers (fun i => (state.consumers i).slots) state.mConsumers state.links =
      some links) :
    Covered { state with links := links, mRunning := true, listening := .looping } where
  hidle hnext := by cases hnext
  hlinked _ _ _ hbinds := linkFor_of_linkConsumers hlinks hbinds
  htrace i kind hbinds hsome := by
    rcases hcovered.htrace i kind hbinds hsome with hup | hnotifies | hcomes
    · exact .inl hup
    · cases hidle.symm.trans hnotifies.1
    · exact .inr (.inr hcomes)

theorem Covered.release (hcovered : Covered state) {todo : List ℕ}
    (hjoining : state.listening = .joining todo) (map : List (ℕ × ℕ)) :
    Covered { state with
      mInternalConnections := map
      links := .clear
      listening := .idle } where
  hidle _ := rfl
  hlinked hactive := absurd rfl hactive
  htrace i kind hbinds hsome := by
    rcases hcovered.htrace i kind hbinds hsome with hup | hnotifies | hcomes
    · exact .inl hup
    · cases hjoining.symm.trans hnotifies.1
    · exact .inr (.inr hcomes)

theorem Covered.step (hcovered : Covered state) {action : Action} (hsafe : Safe state action)
    (hnext : step state action = some next) : Covered next := by
  have hquiet : ∀ {before : Listening}, state.listening = before →
      (∀ kind, before ≠ .notifying kind) → ∀ {listening : Listening}, ∀ i kind,
        state.Notifies i kind → listening = .notifying kind ∨
          (state.consumers i).wakeUp = true := by
    rintro before rfl hbefore listening i kind hnotifies
    exact absurd hnotifies.1 (hbefore kind)
  have hactive : ∀ {before listening : Listening}, state.listening = before →
      before ≠ .idle → listening ≠ .idle → (listening = .idle ↔ state.listening = .idle) := by
    rintro before listening rfl hbefore hafter
    exact ⟨fun hidle => absurd hidle hafter, fun hidle => absurd hidle hbefore⟩
  cases branch_of_step hnext with
  | collides hready =>
      exact hcovered.of_same rfl rfl (hcovered.hidle hready.1).symm rfl Iff.rfl
        fun _ _ hnotifies => .inl hnotifies.1
  | runListener hready hlinks => exact hcovered.runListener hready.1 hlinks
  | joinListener =>
      exact hcovered.of_same rfl rfl rfl rfl Iff.rfl fun _ _ hnotifies => .inl hnotifies.1
  | runConsumer hidle =>
      refine hcovered.set (slotFor_clean _) fun kind _ _ htrace => ?_
      rw [hidle] at htrace
      exact .inl (htrace.resolve_right id)
  | joinConsumer => exact hcovered.set (fun _ => rfl) fun _ _ _ htrace => htrace
  | consumerJoined hended =>
      refine hcovered.move fun kind _ _ hcomes => ?_
      rw [hended] at hcomes
      exact hcomes.elim
  | connect =>
      exact hcovered.of_same rfl rfl rfl rfl Iff.rfl fun _ _ hnotifies => .inl hnotifies.1
  | accept hlooping =>
      exact hcovered.of_same rfl rfl rfl rfl Iff.rfl fun _ _ hnotifies => .inl hnotifies.1
  | noConnection hlooping => exact hcovered
  | closeConnection hlooping =>
      exact hcovered.of_same rfl rfl rfl rfl
        (hactive hlooping Listening.noConfusion Listening.noConfusion)
        (hquiet hlooping fun _ => Listening.noConfusion)
  | noServer hlooping => exact hcovered
  | closeServer hlooping =>
      exact hcovered.goOn hlooping Listening.noConfusion Listening.noConfusion fun _ =>
        Listening.noConfusion
  | push hpushing => exact hcovered.push hpushing
  | notify hnotifying => exact hcovered.notify hnotifying
  | notFound =>
      exact hcovered.of_same rfl rfl rfl rfl Iff.rfl fun _ _ hnotifies => .inl hnotifies.1
  | tell =>
      exact hcovered.of_same rfl rfl rfl rfl Iff.rfl fun _ _ hnotifies => .inl hnotifies.1
  | @pushTold cn allocates =>
      have hpushed : Covered (state.disconnectedEvent .connection cn allocates) :=
        hcovered.disconnectedEvent fun hpushes i hbinds => hcovered.signalled hsafe hpushes hbinds
      exact hpushed.of_same rfl rfl rfl rfl Iff.rfl fun _ _ hnotifies => .inl hnotifies.1
  | leave hlooping =>
      exact hcovered.goOn hlooping Listening.noConfusion Listening.noConfusion fun _ =>
        Listening.noConfusion
  | skipNext hclosing =>
      exact hcovered.of_same rfl rfl rfl rfl
        (hactive hclosing Listening.noConfusion Listening.noConfusion)
        (hquiet hclosing fun _ => Listening.noConfusion)
  | tellNext hclosing =>
      exact hcovered.of_same rfl rfl rfl rfl
        (hactive hclosing Listening.noConfusion Listening.noConfusion)
        (hquiet hclosing fun _ => Listening.noConfusion)
  | @pushLast cn allocates htelling =>
      have hpushed : Covered (state.disconnectedEvent .connection cn allocates) :=
        hcovered.disconnectedEvent fun hpushes i hbinds =>
          absurd hbinds.2 (Bool.eq_false_iff.mp (hsafe hpushes i hbinds.1))
      have hplace : (state.disconnectedEvent .connection cn allocates).listening = .telling cn :=
        State.disconnectedEvent_listening.trans htelling
      have herased : Covered
          { state.disconnectedEvent .connection cn allocates with listening := .erased } :=
        hpushed.goOn hplace Listening.noConfusion Listening.noConfusion fun _ =>
          Listening.noConfusion
      exact herased.of_same rfl rfl rfl rfl Iff.rfl fun _ _ hnotifies => .inl hnotifies.1
  | beginJoins hclosing =>
      exact hcovered.goOn hclosing Listening.noConfusion Listening.noConfusion fun _ =>
        Listening.noConfusion
  | @await i todo hjoining =>
      have hstopped : Covered (state.set i { state.consumers i with mRunning := false }) :=
        hcovered.set (fun _ => rfl) fun _ _ _ htrace => htrace
      have hplace : (state.set i { state.consumers i with mRunning := false }).listening =
          .joining (i :: todo) := hjoining
      exact hstopped.goOn hplace Listening.noConfusion Listening.noConfusion fun _ =>
        Listening.noConfusion
  | skip hjoining =>
      exact hcovered.goOn hjoining Listening.noConfusion Listening.noConfusion fun _ =>
        Listening.noConfusion
  | @nextJoined i todo hwaiting hended =>
      have hidle : Covered (state.move i .idle) := by
        refine hcovered.move fun kind _ _ hcomes => ?_
        rw [hended] at hcomes
        exact hcomes.elim
      have hplace : (state.move i .idle).listening = .waiting i todo := hwaiting
      exact hidle.goOn hplace Listening.noConfusion Listening.noConfusion fun _ =>
        Listening.noConfusion
  | release hjoining => exact hcovered.release hjoining []
  | waits hchecking =>
      refine hcovered.move fun kind _ _ hcomes => ?_
      rw [hchecking] at hcomes
      exact hcomes.elim
  | stops hchecking => exact hcovered.move fun _ _ _ _ => trivial
  | wakes hwaiting => exact hcovered.set (fun _ => rfl) fun _ _ _ _ => .inr trivial
  | timesOut hwaiting =>
      refine hcovered.move fun kind _ _ hcomes => ?_
      rw [hwaiting] at hcomes
      exact hcomes.elim
  | drains hevents => exact hcovered.move fun _ _ _ _ => .inr rfl
  | pops hdraining hqueue =>
      refine (hcovered.pop hqueue).move fun other _ _ hcomes => ?_
      replace hcomes : (state.consumers _).stage.comesTo other := hcomes
      rw [hdraining] at hcomes
      exact hcomes
  | @passes i last kind hdraining hempty =>
      refine hcovered.move fun other hslot hsome hcomes => ?_
      rw [hdraining] at hcomes
      cases kind with
      | connection =>
          rcases hcomes with rfl | hserver
          · exact absurd (hempty hslot) hsome
          · cases hserver
      | server =>
          cases other with
          | connection => exact .inl rfl
          | server => exact absurd (hempty hslot) hsome
  | calls hcalling =>
      refine hcovered.move fun kind _ _ hcomes => ?_
      rw [hcalling] at hcomes
      exact hcomes

/-! ## Which steps signal -/

theorem Signals.of_queue (hqueue : next.queue = state.queue) : Signals state next := by
  intro i kind _ hlonger
  rw [hqueue] at hlonger
  exact absurd hlonger (lt_irrefl _)

theorem Signals.of_push {entry : ℕ} {allocates : Bool}
    (hqueue : next.queue = (state.disconnectedEvent kind entry allocates).queue)
    (hnotifies : state.pushes kind allocates = true → ∀ i, state.Binds i kind →
      next.Notifies i kind) : Signals state next := by
  cases hpushes : state.pushes kind allocates with
  | false =>
      rw [State.disconnectedEvent_of_not_pushes hpushes] at hqueue
      exact .of_queue hqueue
  | true =>
      rw [State.disconnectedEvent_of_pushes hpushes] at hqueue
      intro i other hbinds hlonger
      by_cases hother : other = kind
      · subst hother
        exact hnotifies hpushes i hbinds
      · rw [hqueue] at hlonger
        replace hlonger : _ < (Function.update state.queue kind _ other).length := hlonger
        rw [Function.update_of_ne hother] at hlonger
        exact absurd hlonger (lt_irrefl _)

theorem Signals.of_pop {entry : ℕ} {entries : List ℕ}
    (hbefore : state.queue kind = entry :: entries)
    (hqueue : next.queue = Function.update state.queue kind entries) : Signals state next := by
  intro i other _ hlonger
  rw [hqueue] at hlonger
  by_cases hother : other = kind
  · subst hother
    rw [Function.update_self, hbefore, List.length_cons] at hlonger
    exact absurd hlonger (Nat.not_lt.mpr (Nat.le_succ _))
  · rw [Function.update_of_ne hother] at hlonger
    exact absurd hlonger (lt_irrefl _)

/-- Where the consumer is notified of a queue it is linked to. -/
theorem Covered.notifies_of_push (hcovered : Covered state) {entry : ℕ} {allocates : Bool}
    (hpushing : state.listening = .pushing kind entry) (hbinds : state.Binds i kind) :
    State.Notifies { state.disconnectedEvent kind entry allocates with
      listening := .notifying kind } i kind := by
  have hactive : state.listening ≠ .idle := by
    rw [hpushing]
    exact Listening.noConfusion
  have hlink := hcovered.hlinked hactive i kind hbinds
  exact ⟨rfl, by rw [State.disconnectedEvent_links, hlink]⟩

theorem Covered.signals (hcovered : Covered state) {action : Action} (hsafe : Safe state action)
    (hnext : Signal.step state action = some next) : Signals state next := by
  cases branch_of_step hnext with
  | @push kind entry allocates hpushing =>
      exact .of_push rfl fun _ _ hbinds => hcovered.notifies_of_push hpushing hbinds
  | @pushTold cn allocates =>
      refine .of_push rfl fun hpushes i hbinds => ?_
      obtain ⟨hnotifying, hlink⟩ := hcovered.signalled hsafe hpushes hbinds
      exact ⟨State.disconnectedEvent_listening.trans hnotifying,
        (congrArg (linkFor · .connection) State.disconnectedEvent_links).trans hlink⟩
  | @pushLast cn allocates htelling =>
      exact .of_push rfl fun hpushes i hbinds =>
        absurd hbinds.2 (Bool.eq_false_iff.mp (hsafe hpushes i hbinds.1))
  | pops hdraining hqueue => exact .of_pop hqueue rfl
  | @notify kind hnotifying =>
      refine .of_queue ?_
      cases linkFor state.links kind with
      | none => rfl
      | some i => rfl
  | collides | runListener | joinListener | runConsumer | joinConsumer | consumerJoined | connect
  | accept | noConnection | closeConnection | noServer | closeServer | notFound | tell | leave
  | skipNext | tellNext | beginJoins | await | skip | nextJoined | release | waits | stops | wakes
  | timesOut | drains | passes | calls => exact .of_queue rfl

/-- A push that another thread makes, and that nobody is notified of. -/
theorem not_signals_of_push {cn : ℕ} {allocates : Bool}
    (hpushes : state.pushes .connection allocates = true) (hbinds : state.Binds i .connection)
    (hqueue : next.queue = (state.disconnectedEvent .connection cn allocates).queue)
    (hquiet : next.listening ≠ .notifying .connection) : ¬ Signals state next := by
  intro hsignals
  refine hquiet (hsignals i .connection hbinds ?_).1
  rw [hqueue, State.disconnectedEvent_queue hpushes, List.length_append]
  exact Nat.lt_succ_self _

theorem safe_of_signals {action : Action} (hnext : Signal.step state action = some next)
    (hsignals : Signals state next) : Safe state action := by
  cases branch_of_step hnext with
  | pushTold =>
      intro hpushes hquiet i hi
      by_contra hslot
      have hbinds : state.Binds i .connection := ⟨hi, Bool.not_eq_false _ ▸ hslot⟩
      refine not_signals_of_push hpushes hbinds rfl ?_ hsignals
      rwa [← State.disconnectedEvent_listening] at hquiet
  | @pushLast cn allocates =>
      intro hpushes i hi
      by_contra hslot
      have hbinds : state.Binds i .connection := ⟨hi, Bool.not_eq_false _ ▸ hslot⟩
      refine absurd hsignals (@not_signals_of_push state _ i cn allocates hpushes hbinds rfl ?_)
      exact Listening.noConfusion
  | collides | runListener | joinListener | runConsumer | joinConsumer | consumerJoined | connect
  | accept | noConnection | closeConnection | noServer | closeServer | push | notify | notFound
  | tell | leave | skipNext | tellNext | beginJoins | await | skip | nextJoined | release | waits
  | stops | wakes | timesOut | drains | pops | passes | calls => trivial

end Steps

theorem State.Starts.covered {state : State} (hstarts : state.Starts) : Covered state where
  hidle _ := hstarts.hlinks
  hlinked hactive := absurd hstarts.hidle hactive
  htrace _ kind _ hsome := absurd (hstarts.hempty kind) hsome

theorem Covered.signalled_state {state : State} (hcovered : Covered state) : state.Signalled := by
  intro i kind hbinds hparked hsome
  obtain ⟨hwaiting, hdown⟩ := hparked
  rcases hcovered.htrace i kind hbinds hsome with hup | hnotifies | hcomes
  · rw [hdown] at hup
    cases hup
  · exact hnotifies
  · rw [hwaiting] at hcomes
    exact hcomes.elim

/-- While no call of `Connection::disconnect` pushes an entry that a consumer
waits for, no consumer sleeps over one; and these are the pushes that nobody is
notified of. -/
theorem signalled_of_reaches {start state : State} (hstarts : start.Starts)
    (hreaches : Reaches step Safe start state) :
    state.Signalled ∧ ∀ action next, step state action = some next →
      (Signals state next ↔ Safe state action) := by
  have hcovered : Covered state :=
    hreaches.invariant (fun hcovered hsafe hnext => hcovered.step hsafe hnext) hstarts.covered
  refine ⟨hcovered.signalled_state, fun action next hnext => ⟨safe_of_signals hnext, fun hsafe =>
    hcovered.signals hsafe hnext⟩⟩

/-- A listener with a client and a server attached and one consumer, which binds
both disconnect events. -/
def oneClient : State where
  mServers := [8]
  mConnections := [1]
  mInternalConnections := []
  serverFd := fun _ => some 4
  mFd := fun _ => some 5
  mMaxQueueSize := 0
  queue := fun _ => []
  mConsumers := [0]
  links := .clear
  mRunning := false
  listening := .idle
  telling := []
  consumers := fun _ => ⟨⟨true, true, false, ⟨[], List.nodup_nil⟩⟩, false, false, .idle⟩

theorem starts_oneClient : oneClient.Starts where
  hidle := rfl
  hlinks := rfl
  hempty _ := rfl

/-- The server is closed while the consumer sleeps. -/
theorem signalled_of_reaches_closeServer : ∃ state,
    Reaches step Safe oneClient state ∧ state.queue .server = [8] ∧ state.Parked 0 ∧
      state.Signalled ∧ ∀ action next, step state action = some next →
        (Signals state next ↔ Safe state action) := by
  have hreaches : ∃ state, Reaches step Safe oneClient state ∧ state.queue .server = [8] ∧
      state.Parked 0 :=
    ⟨_, .of_run (rfl : run step oneClient
      [.runListener, .runConsumer 0, .consumer 0, .closeServer 4, .push true] = some _)
      (by decide), rfl, rfl, rfl⟩
  obtain ⟨state, hreaches, hqueue, hparked⟩ := hreaches
  exact ⟨state, hreaches, hqueue, hparked, signalled_of_reaches starts_oneClient hreaches⟩

/-- A thread disconnects the client while the consumer sleeps: the entry is on
the queue, and no notification comes. -/
theorem not_signalled_of_disconnect : oneClient.Starts ∧
    ∃ state, run step oneClient
        [.runListener, .runConsumer 0, .consumer 0, .tell 1, .pushTold 1 true] = some state ∧
      state.Binds 0 .connection ∧ state.Parked 0 ∧ state.queue .connection = [1] ∧
      state.listening = .looping ∧ ¬ state.Signalled := by
  refine ⟨starts_oneClient, _, rfl, ⟨by decide, rfl⟩, ⟨rfl, rfl⟩, rfl, rfl, fun hsignalled => ?_⟩
  have hnotifies := hsignalled 0 .connection ⟨by decide, rfl⟩ ⟨rfl, rfl⟩ (by decide)
  cases hnotifies.1

end Sednl.Signal
