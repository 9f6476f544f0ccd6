import Sednl.Net.Connections
import Sednl.Net.Dispatch

/-!
# Shutdown

The end of `run_imp`, from the moment `m_running` is seen to be false: a loop
over `m_internal_connections` that disconnects each connection, the `join` of
each consumer, and the release of the map.  `tell_disconnected` erases the entry
of a connection from the map that the loop goes over when nothing is attached,
and does not look into the map when something is.
-/

namespace Sednl.Shutdown

open Sednl.Tag
open Sednl.Transition
open Sednl.Dispatch (Slots Links linkConsumers linkedBy_onDisconnect)

/-- Where the thread of a consumer stands: no thread, at the test of
`m_running`, in `wait_for`, in `consume_events` inside the loop or after it
(`last`): before the disconnect queue, at a `pop` from it or in a call of
`m_on_disconnect_slot`; or past its end and not joined. -/
inductive Stage where
  | idle
  | checking
  | waiting
  | sweeping (last : Bool)
  | draining (last : Bool)
  | calling (last : Bool) (cn : ℕ)
  | ended
  deriving DecidableEq, Repr

/-- An `EventConsumer`, as far as disconnect events go. -/
structure Consumer where
  onDisconnect : Bool
  mRunning : Bool
  stage : Stage
  deriving DecidableEq, Repr

/-- Where the thread of the listener stands: in the loop over the map with the
entries still to come, with an iterator to an erased entry, with the consumers
still to join, waiting for one of them, or past its end. -/
inductive Task where
  | closing (todo : List (ℕ × ℕ))
  | erased
  | joining (todo : List ℕ)
  | waiting (consumer : ℕ) (todo : List ℕ)
  | ended
  deriving DecidableEq, Repr

/-- A listener that stops, with its connections, each named by a number, and its
consumers.  The last fields are a record: the accepted connections that were
connected when the loop began, the sessions it ended, those of them for which
the queue permitted a push, the pushes, all that has come onto the queue for
the consumers, the calls of `on_disconnect`, and the consumers that the listener
has found running when it came to join them. -/
structure State where
  mConnections : List ℕ
  mInternalConnections : List (ℕ × ℕ)
  connected : ℕ → Bool
  mMaxQueueSize : ℕ
  mDisconnectedQueue : List ℕ
  mConsumers : List ℕ
  consumers : ℕ → Consumer
  task : Task
  accepted : List ℕ
  closed : List ℕ
  due : List ℕ
  pushed : List ℕ
  arrived : List ℕ
  calls : List (ℕ × ℕ)
  met : ℕ → Bool

namespace State

def isFull (state : State) : Bool :=
  Dispatch.isFull state.mDisconnectedQueue state.mMaxQueueSize

/-- `disconnected_event`; `push` fails when it cannot allocate. -/
def disconnectedEvent (state : State) (cn : ℕ) (allocates : Bool) : State :=
  if state.isFull || !allocates then state
  else { state with
    mDisconnectedQueue := state.mDisconnectedQueue ++ [cn]
    pushed := state.pushed ++ [cn]
    arrived := state.arrived ++ [cn] }

def tellDisconnected (state : State) (cn : ℕ) (allocates : Bool) : State :=
  match Connections.tellDisconnected state.mConnections state.mInternalConnections cn with
  | some entries => { state with mInternalConnections := entries }.disconnectedEvent cn allocates
  | none => state

/-- `unsafe_disconnect`; `permits` says that the queue would have taken a push. -/
def unsafeDisconnect (state : State) (cn : ℕ) (permits : Bool) : State :=
  if state.connected cn then
    { state with
      connected := Function.update state.connected cn false
      closed := state.closed ++ [cn]
      due := if permits then state.due ++ [cn] else state.due }
  else state

def disconnect (state : State) (cn : ℕ) (allocates : Bool) : State :=
  (state.tellDisconnected cn allocates).unsafeDisconnect cn (!state.isFull && allocates)

def set (state : State) (i : ℕ) (consumer : Consumer) : State :=
  { state with consumers := Function.update state.consumers i consumer }

def move (state : State) (i : ℕ) (stage : Stage) : State :=
  state.set i { state.consumers i with stage := stage }

/-- The next step of `EventConsumer::run_imp`.  What it does before it comes to
the disconnect queue, and whether it is woken, is left open. -/
def runImp (state : State) (i : ℕ) (woken : Bool) : Option State :=
  match (state.consumers i).stage with
  | .idle => none
  | .ended => none
  | .checking =>
      if (state.consumers i).mRunning then some (state.move i .waiting)
      else some (state.move i (.sweeping true))
  | .waiting =>
      if woken then some (state.move i (.sweeping false)) else some (state.move i .checking)
  | .sweeping last => some (state.move i (.draining last))
  | .draining last =>
      match (state.consumers i).onDisconnect, state.mDisconnectedQueue with
      | true, cn :: cns =>
          some ({ state with mDisconnectedQueue := cns }.move i (.calling last cn))
      | _, _ => some (state.move i (if last then .ended else .checking))
  | .calling last cn =>
      some ({ state with calls := state.calls ++ [(i, cn)] }.move i (.draining last))

end State

inductive Action where
  /-- The loop calls `disconnect` on its connection, and advances. -/
  | disconnectNext (allocates : Bool)
  /-- The loop is over. -/
  | beginJoins
  /-- The listener calls `join` of the next consumer. -/
  | joinNext
  /-- That `join` returns. -/
  | nextJoined
  /-- The map is cleared, and the thread ends. -/
  | release
  /-- Another thread calls `join` of a consumer. -/
  | joinConsumer (i : ℕ)
  /-- The thread of a consumer takes a step. -/
  | consumer (i : ℕ) (woken : Bool)
  deriving DecidableEq, Repr

/-- The steps of the listener and of the consumers.  There is none once the loop
has advanced an iterator to an erased entry. -/
def step (state : State) : Action → Option State
  | .disconnectNext allocates =>
      match state.task with
      | .closing (entry :: todo) =>
          if entry ∈ (state.disconnect entry.2 allocates).mInternalConnections then
            some { state.disconnect entry.2 allocates with task := .closing todo }
          else some { state.disconnect entry.2 allocates with task := .erased }
      | _ => none
  | .beginJoins =>
      match state.task with
      | .closing [] => some { state with task := .joining state.mConsumers }
      | _ => none
  | .joinNext =>
      match state.task with
      | .joining (i :: todo) =>
          if (state.consumers i).mRunning then
            if (state.consumers i).stage = .idle then
              some { state.set i { state.consumers i with mRunning := false } with
                task := .joining todo }
            else
              some { state.set i { state.consumers i with mRunning := false } with
                task := .waiting i todo
                met := Function.update state.met i true }
          else some { state with task := .joining todo }
      | _ => none
  | .nextJoined =>
      match state.task with
      | .waiting i todo =>
          if (state.consumers i).stage = .ended then
            some { state.move i .idle with task := .joining todo }
          else none
      | _ => none
  | .release =>
      match state.task with
      | .joining [] => some { state with mInternalConnections := [], task := .ended }
      | _ => none
  | .joinConsumer i =>
      if i ∈ state.mConsumers ∧ (state.consumers i).mRunning then
        some (state.set i { state.consumers i with mRunning := false })
      else none
  | .consumer i woken =>
      if i ∈ state.mConsumers then state.runImp i woken else none

/-! ## What a step can do -/

/-- The branches of `step` that lead to a state: what each asks for, and where
it leads. -/
inductive Branch (state : State) : Action → State → Prop where
  | disconnectNext {entry : ℕ × ℕ} {todo : List (ℕ × ℕ)} {allocates : Bool}
      (hclosing : state.task = .closing (entry :: todo))
      (hstays : entry ∈ (state.disconnect entry.2 allocates).mInternalConnections) :
      Branch state (.disconnectNext allocates)
        { state.disconnect entry.2 allocates with task := .closing todo }
  | erases {entry : ℕ × ℕ} {todo : List (ℕ × ℕ)} {allocates : Bool}
      (hclosing : state.task = .closing (entry :: todo))
      (hgoes : entry ∉ (state.disconnect entry.2 allocates).mInternalConnections) :
      Branch state (.disconnectNext allocates)
        { state.disconnect entry.2 allocates with task := .erased }
  | beginJoins (hclosing : state.task = .closing []) :
      Branch state .beginJoins { state with task := .joining state.mConsumers }
  | await {i : ℕ} {todo : List ℕ} (hjoining : state.task = .joining (i :: todo))
      (hruns : (state.consumers i).mRunning = true)
      (hstarted : (state.consumers i).stage ≠ .idle) :
      Branch state .joinNext { state.set i { state.consumers i with mRunning := false } with
        task := .waiting i todo
        met := Function.update state.met i true }
  | tell {i : ℕ} {todo : List ℕ} (hjoining : state.task = .joining (i :: todo))
      (hruns : (state.consumers i).mRunning = true) (hidle : (state.consumers i).stage = .idle) :
      Branch state .joinNext { state.set i { state.consumers i with mRunning := false } with
        task := .joining todo }
  | skip {i : ℕ} {todo : List ℕ} (hjoining : state.task = .joining (i :: todo))
      (hstopped : (state.consumers i).mRunning = false) :
      Branch state .joinNext { state with task := .joining todo }
  | nextJoined {i : ℕ} {todo : List ℕ} (hwaiting : state.task = .waiting i todo)
      (hended : (state.consumers i).stage = .ended) :
      Branch state .nextJoined { state.move i .idle with task := .joining todo }
  | release (hjoining : state.task = .joining []) :
      Branch state .release { state with mInternalConnections := [], task := .ended }
  | joinConsumer {i : ℕ} (hready : i ∈ state.mConsumers ∧ (state.consumers i).mRunning) :
      Branch state (.joinConsumer i) (state.set i { state.consumers i with mRunning := false })
  | waits {i : ℕ} {woken : Bool} (hi : i ∈ state.mConsumers)
      (hchecking : (state.consumers i).stage = .checking)
      (hruns : (state.consumers i).mRunning = true) :
      Branch state (.consumer i woken) (state.move i .waiting)
  | stops {i : ℕ} {woken : Bool} (hi : i ∈ state.mConsumers)
      (hchecking : (state.consumers i).stage = .checking)
      (hstopped : (state.consumers i).mRunning = false) :
      Branch state (.consumer i woken) (state.move i (.sweeping true))
  | wakes {i : ℕ} (hi : i ∈ state.mConsumers) (hwaiting : (state.consumers i).stage = .waiting) :
      Branch state (.consumer i true) (state.move i (.sweeping false))
  | timesOut {i : ℕ} (hi : i ∈ state.mConsumers) (hwaiting : (state.consumers i).stage = .waiting) :
      Branch state (.consumer i false) (state.move i .checking)
  | drains {i : ℕ} {woken last : Bool} (hi : i ∈ state.mConsumers)
      (hsweeping : (state.consumers i).stage = .sweeping last) :
      Branch state (.consumer i woken) (state.move i (.draining last))
  | pops {i cn : ℕ} {cns : List ℕ} {woken last : Bool} (hi : i ∈ state.mConsumers)
      (hdraining : (state.consumers i).stage = .draining last)
      (hbinds : (state.consumers i).onDisconnect = true)
      (hqueue : state.mDisconnectedQueue = cn :: cns) :
      Branch state (.consumer i woken)
        ({ state with mDisconnectedQueue := cns }.move i (.calling last cn))
  | finishes {i : ℕ} {woken last : Bool} (hi : i ∈ state.mConsumers)
      (hdraining : (state.consumers i).stage = .draining last)
      (hempty : (state.consumers i).onDisconnect = true → state.mDisconnectedQueue = []) :
      Branch state (.consumer i woken) (state.move i (if last then .ended else .checking))
  | calls {i cn : ℕ} {woken last : Bool} (hi : i ∈ state.mConsumers)
      (hcalling : (state.consumers i).stage = .calling last cn) :
      Branch state (.consumer i woken)
        ({ state with calls := state.calls ++ [(i, cn)] }.move i (.draining last))

theorem branch_of_runImp {state next : State} {i : ℕ} (hi : i ∈ state.mConsumers) {woken : Bool}
    (hnext : state.runImp i woken = some next) : Branch state (.consumer i woken) next := by
  rw [State.runImp] at hnext
  split at hnext
  · cases hnext
  · cases hnext
  · rename_i hchecking
    split at hnext
    · rename_i hruns
      obtain rfl := Option.some.inj hnext
      exact .waits hi hchecking hruns
    · rename_i hstopped
      obtain rfl := Option.some.inj hnext
      exact .stops hi hchecking (Bool.eq_false_iff.mpr hstopped)
  · rename_i hwaiting
    cases woken with
    | true =>
        obtain rfl := Option.some.inj hnext
        exact .wakes hi hwaiting
    | false =>
        obtain rfl := Option.some.inj hnext
        exact .timesOut hi hwaiting
  · rename_i last hsweeping
    obtain rfl := Option.some.inj hnext
    exact .drains hi hsweeping
  · rename_i last hdraining
    split at hnext
    · rename_i cn cns hbinds hqueue
      obtain rfl := Option.some.inj hnext
      exact .pops hi hdraining hbinds hqueue
    · rename_i hdone
      obtain rfl := Option.some.inj hnext
      refine .finishes hi hdraining fun hbinds => ?_
      cases hqueue : state.mDisconnectedQueue with
      | nil => rfl
      | cons cn cns => exact absurd hqueue (hdone cn cns hbinds)
  · rename_i last cn hcalling
    obtain rfl := Option.some.inj hnext
    exact .calls hi hcalling

/-- Each step takes one of the branches. -/
theorem branch_of_step {state next : State} {action : Action}
    (hnext : step state action = some next) : Branch state action next := by
  cases action with
  | disconnectNext allocates =>
      rw [step] at hnext
      split at hnext
      · rename_i entry todo hclosing
        split at hnext
        · rename_i hstays
          obtain rfl := Option.some.inj hnext
          exact .disconnectNext hclosing hstays
        · rename_i hgoes
          obtain rfl := Option.some.inj hnext
          exact .erases hclosing hgoes
      · cases hnext
  | beginJoins =>
      rw [step] at hnext
      split at hnext
      · rename_i hclosing
        obtain rfl := Option.some.inj hnext
        exact .beginJoins hclosing
      · cases hnext
  | joinNext =>
      rw [step] at hnext
      split at hnext
      · rename_i i todo hjoining
        split at hnext
        · rename_i hruns
          split at hnext
          · rename_i hidle
            obtain rfl := Option.some.inj hnext
            exact .tell hjoining hruns hidle
          · rename_i hstarted
            obtain rfl := Option.some.inj hnext
            exact .await hjoining hruns hstarted
        · rename_i hstopped
          obtain rfl := Option.some.inj hnext
          exact .skip hjoining (Bool.eq_false_iff.mpr hstopped)
      · cases hnext
  | nextJoined =>
      rw [step] at hnext
      split at hnext
      · rename_i i todo hwaiting
        obtain ⟨hended, hsome⟩ := Option.ite_none_right_eq_some.mp hnext
        obtain rfl := Option.some.inj hsome
        exact .nextJoined hwaiting hended
      · cases hnext
  | release =>
      rw [step] at hnext
      split at hnext
      · rename_i hjoining
        obtain rfl := Option.some.inj hnext
        exact .release hjoining
      · cases hnext
  | joinConsumer i =>
      obtain ⟨hready, hsome⟩ := Option.ite_none_right_eq_some.mp hnext
      obtain rfl := Option.some.inj hsome
      exact .joinConsumer hready
  | consumer i woken =>
      obtain ⟨hi, hsome⟩ := Option.ite_none_right_eq_some.mp hnext
      exact branch_of_runImp hi hsome

/-! ## What a clean shutdown is -/

def Stage.last : Stage → Bool
  | .sweeping last => last
  | .draining last => last
  | .calling last _ => last
  | .ended => true
  | .idle | .checking | .waiting => false

/-- The connection that has been popped and not passed yet. -/
def Stage.inHand : Stage → List ℕ
  | .calling _ cn => [cn]
  | _ => []

def Task.over : Task → Bool
  | .closing _ | .erased => false
  | .joining _ | .waiting _ _ | .ended => true

/-- The iterator of the loop is sound; each accepted connection is closed once,
by the end of the loop; each close has caused one push where the queue permitted
it; and once the listener has ended, a consumer with `on_disconnect` that ran
until it was joined has been passed all that came onto the queue. -/
structure State.Clean (state : State) : Prop where
  hdefined : state.task ≠ .erased
  honce : ∀ cn, state.closed.count cn ≤ 1
  hclosed : state.task.over = true → ∀ cn ∈ state.accepted, state.closed.count cn = 1
  hpushed : ∀ cn, state.pushed.count cn = state.due.count cn
  hpassed : state.task = .ended → ∀ i ∈ state.mConsumers,
    (state.consumers i).onDisconnect = true → state.met i = true →
    state.calls = state.arrived.map (i, ·)

/-- The event loop of a listener has just ended.  Consumers may stand anywhere,
and `run_init` has found no collision. -/
structure State.Stops (state : State) : Prop where
  htask : state.task = .closing state.mInternalConnections
  haccepted : state.accepted =
    (state.mInternalConnections.map Prod.snd).filter fun cn => state.connected cn
  hattached : ∀ entry ∈ state.mInternalConnections, entry.2 ∉ state.mConnections
  hrecord : state.closed = [] ∧ state.due = [] ∧ state.pushed = [] ∧ state.calls = []
  hmet : ∀ i, state.met i = false
  hlinks : ∃ (slots : ℕ → Slots) (links : Links),
    linkConsumers slots state.mConsumers .clear = some links ∧
      ∀ i ∈ state.mConsumers, (state.consumers i).onDisconnect = (slots i).onDisconnect
  hsound : ∀ i ∈ state.mConsumers, (state.consumers i).stage.last = true →
    (state.consumers i).mRunning = false
  hcalling : ∀ i ∈ state.mConsumers, (state.consumers i).stage.inHand ≠ [] →
    (state.consumers i).onDisconnect = true
  harrived : ∀ i ∈ state.mConsumers, (state.consumers i).onDisconnect = true →
    state.arrived = (state.consumers i).stage.inHand ++ state.mDisconnectedQueue

/-- Something is attached, and the connection has been disconnected before, or
the queue does not permit a push. -/
def State.Harmless (state : State) (cn : ℕ) (allocates : Bool) : Prop :=
  state.mConnections ≠ [] ∧
    (state.connected cn = true → (!state.isFull && allocates) = false)

instance (state : State) (cn : ℕ) (allocates : Bool) :
    Decidable (state.Harmless cn allocates) :=
  inferInstanceAs (Decidable (_ ∧ _))

def Task.left : Task → List (ℕ × ℕ)
  | .closing todo => todo
  | _ => []

/-- Where the loop disconnects a connection, that is harmless. -/
def Safe (state : State) : Action → Prop
  | .disconnectNext allocates =>
      ∀ entry ∈ state.task.left.head?, state.Harmless entry.2 allocates
  | .beginJoins | .joinNext | .nextJoined | .release | .joinConsumer _ | .consumer _ _ => True

instance (state : State) : (action : Action) → Decidable (Safe state action)
  | .disconnectNext allocates =>
      inferInstanceAs (Decidable (∀ entry ∈ state.task.left.head?, state.Harmless _ allocates))
  | .beginJoins | .joinNext | .nextJoined | .release | .joinConsumer _ | .consumer _ _ =>
      .isTrue trivial

/-! ## The consumers -/

/-- The consumers that the listener has not joined yet. -/
def Task.todo : Task → List ℕ
  | .joining todo => todo
  | .waiting i todo => i :: todo
  | _ => []

/-- The consumer whose thread the listener waits for. -/
def Task.awaits : Task → Option ℕ
  | .waiting i _ => some i
  | _ => none

/-- What came onto the queue is passed on, in hand, or on the queue, in this
order; and a consumer that the listener has joined has left nothing. -/
structure Drained (state : State) : Prop where
  hsingle : ∀ i ∈ state.mConsumers, ∀ j ∈ state.mConsumers,
    (state.consumers i).onDisconnect = true → (state.consumers j).onDisconnect = true → i = j
  hsound : ∀ i ∈ state.mConsumers, (state.consumers i).stage.last = true →
    (state.consumers i).mRunning = false
  hcalling : ∀ i ∈ state.mConsumers, (state.consumers i).stage.inHand ≠ [] →
    (state.consumers i).onDisconnect = true
  htally : ∀ i ∈ state.mConsumers, (state.consumers i).onDisconnect = true →
    state.calls ++ ((state.consumers i).stage.inHand ++ state.mDisconnectedQueue).map (i, ·) =
      state.arrived.map (i, ·)
  hjoins : state.task.todo ⊆ state.mConsumers
  hawaits : ∀ i, state.task.awaits = some i → (state.consumers i).mRunning = false ∧
    ((state.consumers i).onDisconnect = true → (state.consumers i).stage = .ended →
      state.mDisconnectedQueue = [])
  hmet : ∀ i, state.met i = true → i ∈ state.mConsumers ∧ state.task.over = true ∧
    (state.task.awaits ≠ some i → (state.consumers i).onDisconnect = true →
      (state.consumers i).stage = .idle ∧ state.mDisconnectedQueue = [])

section Pieces

variable {state : State} {i : ℕ}

@[simp]
theorem State.set_self (consumer : Consumer) : (state.set i consumer).consumers i = consumer :=
  Function.update_self _ _ _

theorem State.set_of_ne {other : ℕ} (hne : other ≠ i) (consumer : Consumer) :
    (state.set i consumer).consumers other = state.consumers other :=
  Function.update_of_ne hne _ _

/-- Nothing happens to the consumers, but for a push. -/
structure Pushes (state next : State) (items : List ℕ) : Prop where
  hqueue : next.mDisconnectedQueue = state.mDisconnectedQueue ++ items
  harrived : next.arrived = state.arrived ++ items
  hcalls : next.calls = state.calls
  hconsumers : next.mConsumers = state.mConsumers
  hthreads : next.consumers = state.consumers
  hmet : next.met = state.met

theorem Pushes.refl (state : State) : Pushes state state [] :=
  ⟨(List.append_nil _).symm, (List.append_nil _).symm, rfl, rfl, rfl, rfl⟩

theorem Pushes.goOn {next : State} {items : List ℕ} (hpushes : Pushes state next items)
    (task : Task) : Pushes state { next with task := task } items :=
  ⟨hpushes.hqueue, hpushes.harrived, hpushes.hcalls, hpushes.hconsumers, hpushes.hthreads,
    hpushes.hmet⟩

theorem pushes_disconnectedEvent (state : State) (cn : ℕ) (allocates : Bool) :
    ∃ items, Pushes state (state.disconnectedEvent cn allocates) items := by
  rw [State.disconnectedEvent]
  split
  · exact ⟨[], .refl state⟩
  · exact ⟨[cn], rfl, rfl, rfl, rfl, rfl, rfl⟩

theorem pushes_tellDisconnected (state : State) (cn : ℕ) (allocates : Bool) :
    ∃ items, Pushes state (state.tellDisconnected cn allocates) items := by
  rw [State.tellDisconnected]
  split
  · rename_i entries _
    obtain ⟨items, hpushes⟩ :=
      pushes_disconnectedEvent { state with mInternalConnections := entries } cn allocates
    exact ⟨items, hpushes.hqueue, hpushes.harrived, hpushes.hcalls, hpushes.hconsumers,
      hpushes.hthreads, hpushes.hmet⟩
  · exact ⟨[], .refl state⟩

theorem pushes_disconnect (state : State) (cn : ℕ) (allocates : Bool) :
    ∃ items, Pushes state (state.disconnect cn allocates) items := by
  obtain ⟨items, hpushes⟩ := pushes_tellDisconnected state cn allocates
  refine ⟨items, ?_⟩
  rw [State.disconnect, State.unsafeDisconnect]
  split
  · exact ⟨hpushes.hqueue, hpushes.harrived, hpushes.hcalls, hpushes.hconsumers,
      hpushes.hthreads, hpushes.hmet⟩
  · exact hpushes

variable (hdrained : Drained state)

include hdrained

theorem Drained.mem_of_awaits (hawaits : state.task.awaits = some i) : i ∈ state.mConsumers := by
  apply hdrained.hjoins
  generalize state.task = task at hawaits
  cases task with
  | waiting j todo =>
      obtain rfl := Option.some.inj hawaits
      exact List.mem_cons_self
  | closing todo | erased | joining todo | ended => cases hawaits

theorem Drained.joins_tail {todo : List ℕ} (hjoining : state.task = .joining (i :: todo)) :
    todo ⊆ state.mConsumers := by
  have hjoins := hdrained.hjoins
  rw [hjoining] at hjoins
  exact fun j hj => hjoins (List.mem_cons_of_mem i hj)

/-- The loop pushes, while the listener has joined nobody. -/
theorem Drained.push {next : State} {items : List ℕ} (hpushes : Pushes state next items)
    (hbefore : state.task.over = false) (hafter : next.task.todo = [])
    (hnobody : next.task.awaits = none) : Drained next := by
  refine ⟨?_, ?_, ?_, ?_, ?_, ?_, ?_⟩
  · rw [hpushes.hconsumers, hpushes.hthreads]
    exact hdrained.hsingle
  · rw [hpushes.hconsumers, hpushes.hthreads]
    exact hdrained.hsound
  · rw [hpushes.hconsumers, hpushes.hthreads]
    exact hdrained.hcalling
  · rw [hpushes.hconsumers, hpushes.hthreads, hpushes.hqueue, hpushes.harrived, hpushes.hcalls]
    intro i hi honDisconnect
    have htally := hdrained.htally i hi honDisconnect
    rw [@List.map_append _ _ _ state.arrived, ← htally, ← List.append_assoc, List.map_append,
      List.append_assoc]
  · rw [hafter]
    exact List.nil_subset _
  · intro i hi
    rw [hnobody] at hi
    cases hi
  · intro i hi
    rw [hpushes.hmet] at hi
    obtain ⟨_, hover, _⟩ := hdrained.hmet i hi
    rw [hbefore] at hover
    cases hover

/-- Only what the listener does next changes. -/
theorem Drained.goOn {next : State} (hsame : next = { state with
      mInternalConnections := next.mInternalConnections, task := next.task })
    (htodo : next.task.todo ⊆ state.mConsumers) (hnobody : next.task.awaits = none)
    (hover : state.task.over = true → next.task.over = true)
    (hawaits : state.task.awaits = none) : Drained next := by
  rw [hsame]
  refine ⟨hdrained.hsingle, hdrained.hsound, hdrained.hcalling, hdrained.htally, htodo,
    fun i hi => ?_, fun i hi => ?_⟩
  · have hi : next.task.awaits = some i := hi
    rw [hnobody] at hi
    cases hi
  · obtain ⟨hmem, hbefore, hleft⟩ := hdrained.hmet i hi
    refine ⟨hmem, hover hbefore, fun _ => hleft ?_⟩
    rw [hawaits]
    exact (Option.some_ne_none i).symm

/-- A consumer changes, the queue and the record stay. -/
theorem Drained.set {consumer : Consumer}
    (honDisconnect : consumer.onDisconnect = (state.consumers i).onDisconnect)
    (hsound : consumer.stage.last = true → consumer.mRunning = false)
    (hhand : consumer.stage.inHand = (state.consumers i).stage.inHand)
    (hawaits : state.task.awaits = some i → consumer.mRunning = false ∧
      (consumer.onDisconnect = true → consumer.stage = .ended →
        state.mDisconnectedQueue = []))
    (hmet : state.met i = true → state.task.awaits ≠ some i →
      consumer.onDisconnect = true → consumer.stage = .idle) :
    Drained (state.set i consumer) := by
  have hsame : ∀ j, ((state.set i consumer).consumers j).onDisconnect =
      (state.consumers j).onDisconnect ∧
      ((state.set i consumer).consumers j).stage.inHand = (state.consumers j).stage.inHand := by
    intro j
    by_cases hj : j = i
    · subst hj
      rw [State.set_self]
      exact ⟨honDisconnect, hhand⟩
    · rw [State.set_of_ne hj]
      exact ⟨rfl, rfl⟩
  refine ⟨fun j hj k hk hleft hright => ?_, fun j hj hlast => ?_, fun j hj hcalling => ?_,
    fun j hj hbinds => ?_, hdrained.hjoins, fun j hj => ?_, fun j hj => ?_⟩
  · rw [(hsame j).1] at hleft
    rw [(hsame k).1] at hright
    exact hdrained.hsingle j hj k hk hleft hright
  · by_cases hji : j = i
    · subst hji
      rw [State.set_self] at hlast ⊢
      exact hsound hlast
    · rw [State.set_of_ne hji] at hlast ⊢
      exact hdrained.hsound j hj hlast
  · rw [(hsame j).2] at hcalling
    rw [(hsame j).1]
    exact hdrained.hcalling j hj hcalling
  · rw [(hsame j).1] at hbinds
    rw [(hsame j).2]
    exact hdrained.htally j hj hbinds
  · by_cases hji : j = i
    · subst hji
      rw [State.set_self]
      exact hawaits hj
    · rw [State.set_of_ne hji]
      exact hdrained.hawaits j hj
  · obtain ⟨hmem, hover, hleft⟩ := hdrained.hmet j hj
    refine ⟨hmem, hover, fun hnot hbinds => ?_⟩
    rw [(hsame j).1] at hbinds
    obtain ⟨hidle, hqueue⟩ := hleft hnot hbinds
    by_cases hji : j = i
    · subst hji
      rw [State.set_self]
      exact ⟨hmet hj hnot (honDisconnect.trans hbinds), hqueue⟩
    · rw [State.set_of_ne hji]
      exact ⟨hidle, hqueue⟩

/-- The consumer with `on_disconnect` pops, or passes on what it has popped. -/
theorem Drained.work (hi : i ∈ state.mConsumers)
    (hbinds : (state.consumers i).onDisconnect = true)
    (hactive : (state.consumers i).stage ≠ .idle) {stage : Stage} {queue : List ℕ}
    {calls : List (ℕ × ℕ)}
    (hlast : stage.last = true → (state.consumers i).stage.last = true) (hnot : stage ≠ .ended)
    (hkeep : calls ++ (stage.inHand ++ queue).map (i, ·) = state.calls ++
      ((state.consumers i).stage.inHand ++ state.mDisconnectedQueue).map (i, ·)) :
    Drained ({ state with mDisconnectedQueue := queue, calls := calls }.move i stage) := by
  have honly : ∀ j ∈ state.mConsumers,
      (({ state with mDisconnectedQueue := queue, calls := calls } : State).move i stage
        |>.consumers j).onDisconnect = true → j = i := by
    intro j hj honDisconnect
    by_contra hji
    rw [State.move, State.set_of_ne hji] at honDisconnect
    exact hji (hdrained.hsingle j hj i hi honDisconnect hbinds)
  refine ⟨fun j hj k hk hleft hright => ?_, fun j hj hlast' => ?_, fun j hj hcalling => ?_,
    fun j hj honDisconnect => ?_, hdrained.hjoins, fun j hj => ?_, fun j hj => ?_⟩
  · rw [honly j hj hleft, honly k hk hright]
  · by_cases hji : j = i
    · subst hji
      rw [State.move, State.set_self] at hlast' ⊢
      exact hdrained.hsound j hj (hlast hlast')
    · rw [State.move, State.set_of_ne hji] at hlast' ⊢
      exact hdrained.hsound j hj hlast'
  · by_cases hji : j = i
    · subst hji
      rw [State.move, State.set_self]
      exact hbinds
    · rw [State.move, State.set_of_ne hji] at hcalling ⊢
      exact hdrained.hcalling j hj hcalling
  · obtain rfl := honly j hj honDisconnect
    rw [State.move, State.set_self]
    exact hkeep.trans (hdrained.htally j hj hbinds)
  · by_cases hji : j = i
    · subst hji
      rw [State.move, State.set_self]
      exact ⟨(hdrained.hawaits j hj).1, fun _ hended => absurd hended hnot⟩
    · refine ⟨?_, fun honDisconnect => ?_⟩
      · rw [State.move, State.set_of_ne hji]
        exact (hdrained.hawaits j hj).1
      · have hmem : j ∈ state.mConsumers := hdrained.mem_of_awaits hj
        exact absurd (honly j hmem honDisconnect) hji
  · obtain ⟨hmem, hover, hleft⟩ := hdrained.hmet j hj
    refine ⟨hmem, hover, fun hawaits honDisconnect => ?_⟩
    obtain rfl := honly j hmem honDisconnect
    exact absurd (hleft hawaits hbinds).1 hactive

theorem Drained.move {stage : Stage} (hactive : (state.consumers i).stage ≠ .idle)
    (hsound : stage.last = true → (state.consumers i).mRunning = false)
    (hhand : stage.inHand = (state.consumers i).stage.inHand)
    (hended : (state.consumers i).onDisconnect = true → stage = .ended →
      state.mDisconnectedQueue = []) : Drained (state.move i stage) := by
  refine hdrained.set rfl hsound hhand (fun hawaits => ?_) fun hmet hnot hbinds => ?_
  · exact ⟨(hdrained.hawaits i hawaits).1, hended⟩
  · exact absurd ((hdrained.hmet i hmet).2.2 hnot hbinds).1 hactive

/-- The sweep of a consumer goes on, or is over. -/
theorem Drained.sweep {stage : Stage} (hi : i ∈ state.mConsumers)
    (hactive : (state.consumers i).stage ≠ .idle)
    (hlast : stage.last = true → (state.consumers i).stage.last = true)
    (hhand : stage.inHand = (state.consumers i).stage.inHand)
    (hended : (state.consumers i).onDisconnect = true → stage = .ended →
      state.mDisconnectedQueue = []) : Drained (state.move i stage) :=
  hdrained.move hactive (fun hafter => hdrained.hsound i hi (hlast hafter)) hhand hended

/-- The listener waits for a consumer that runs. -/
theorem Drained.await {todo : List ℕ} (htask : state.task = .joining (i :: todo))
    (hruns : (state.consumers i).mRunning = true) :
    Drained { state.set i { state.consumers i with mRunning := false } with
      task := .waiting i todo
      met := Function.update state.met i true } := by
  have hi : i ∈ state.mConsumers := hdrained.hjoins (by rw [htask]; exact List.mem_cons_self)
  have hnobody : state.task.awaits = none := by rw [htask]; rfl
  have htold : Drained (state.set i { state.consumers i with mRunning := false }) := by
    refine hdrained.set rfl (fun _ => rfl) rfl (fun hawaits => ?_) fun hmet hnot hbinds => ?_
    · rw [hnobody] at hawaits
      cases hawaits
    · exact ((hdrained.hmet i hmet).2.2 hnot hbinds).1
  refine ⟨htold.hsingle, htold.hsound, htold.hcalling, htold.htally, ?_, fun j hj => ?_,
    fun j hj => ?_⟩
  · have hjoins := hdrained.hjoins
    rw [htask] at hjoins
    exact hjoins
  · obtain rfl := Option.some.inj hj
    rw [State.set_self]
    refine ⟨rfl, fun _ hended => ?_⟩
    have hlast : (state.consumers i).stage.last = true := by
      have hended : (state.consumers i).stage = .ended := hended
      rw [hended]
      rfl
    rw [hdrained.hsound i hi hlast] at hruns
    cases hruns
  · by_cases hji : j = i
    · subst hji
      exact ⟨hi, rfl, fun hnot => absurd rfl hnot⟩
    · have hmet : state.met j = true := (Function.update_of_ne hji _ _).symm.trans hj
      obtain ⟨hmem, _, hleft⟩ := htold.hmet j hmet
      refine ⟨hmem, rfl, fun _ => hleft ?_⟩
      exact hnobody.trans_ne (Option.some_ne_none j).symm

/-- The thread that the listener has waited for is joined. -/
theorem Drained.nextJoined {todo : List ℕ} (htask : state.task = .waiting i todo)
    (hended : (state.consumers i).stage = .ended) :
    Drained { state.move i .idle with task := .joining todo } := by
  have hawaits : state.task.awaits = some i := by rw [htask]; rfl
  have hempty := (hdrained.hawaits i hawaits).2
  have hidle : Drained (state.move i .idle) := by
    refine hdrained.move (by simp [hended]) (fun hlast => by cases hlast) ?_ fun _ h => by cases h
    rw [hended]
    rfl
  refine ⟨hidle.hsingle, hidle.hsound, hidle.hcalling, hidle.htally, ?_, fun j hj => ?_,
    fun j hj => ?_⟩
  · have hjoins := hdrained.hjoins
    rw [htask] at hjoins
    exact fun j hj => hjoins (List.mem_cons_of_mem i hj)
  · cases hj
  · obtain ⟨hmem, _, hleft⟩ := hidle.hmet j hj
    refine ⟨hmem, rfl, fun _ hbinds => ?_⟩
    by_cases hji : j = i
    · subst hji
      rw [State.move, State.set_self] at hbinds ⊢
      exact ⟨rfl, hempty hbinds hended⟩
    · apply hleft _ hbinds
      have hawaits : (state.move i .idle).task.awaits = some i := hawaits
      rw [hawaits, ne_eq, Option.some.injEq]
      exact Ne.symm hji

/-- What a consumer has drained stays drained, whatever the loop does. -/
theorem Drained.step {action : Action} {next : State} (hnext : step state action = some next) :
    Drained next := by
  cases branch_of_step hnext with
  | @disconnectNext entry todo allocates hclosing hstays =>
      obtain ⟨items, hpushes⟩ := pushes_disconnect state entry.2 allocates
      exact hdrained.push (hpushes.goOn _) (by rw [hclosing]; rfl) rfl rfl
  | @erases entry todo allocates hclosing hgoes =>
      obtain ⟨items, hpushes⟩ := pushes_disconnect state entry.2 allocates
      exact hdrained.push (hpushes.goOn _) (by rw [hclosing]; rfl) rfl rfl
  | beginJoins hclosing =>
      exact hdrained.goOn rfl (List.Subset.refl _) rfl (fun _ => rfl) (by rw [hclosing]; rfl)
  | await hjoining hruns hstarted => exact hdrained.await hjoining hruns
  | @tell j todo hjoining hruns hidle =>
      have hnobody : state.task.awaits = none := by rw [hjoining]; rfl
      have htold : Drained (state.set j { state.consumers j with mRunning := false }) := by
        refine hdrained.set rfl (fun _ => rfl) rfl (fun hawaits => ?_) fun _ _ _ => hidle
        rw [hnobody] at hawaits
        cases hawaits
      exact htold.goOn rfl (hdrained.joins_tail hjoining) rfl (fun _ => rfl) hnobody
  | skip hjoining hstopped =>
      exact hdrained.goOn rfl (hdrained.joins_tail hjoining) rfl (fun _ => rfl)
        (by rw [hjoining]; rfl)
  | nextJoined hwaiting hended => exact hdrained.nextJoined hwaiting hended
  | release hjoining =>
      exact hdrained.goOn rfl (List.nil_subset _) rfl (fun _ => rfl) (by rw [hjoining]; rfl)
  | @joinConsumer j hready =>
      refine hdrained.set rfl (fun _ => rfl) rfl (fun hawaits => ?_) fun hmet hnot hbinds => ?_
      · exact ⟨rfl, (hdrained.hawaits j hawaits).2⟩
      · exact ((hdrained.hmet j hmet).2.2 hnot hbinds).1
  | waits hi hchecking hruns =>
      exact hdrained.move (by simp [hchecking]) (fun hlast => by cases hlast)
        (by rw [hchecking]; rfl) fun _ h => by cases h
  | stops hi hchecking hstopped =>
      exact hdrained.move (by simp [hchecking]) (fun _ => hstopped) (by rw [hchecking]; rfl)
        fun _ h => by cases h
  | wakes hi hwaiting =>
      exact hdrained.move (by simp [hwaiting]) (fun hlast => by cases hlast)
        (by rw [hwaiting]; rfl) fun _ h => by cases h
  | timesOut hi hwaiting =>
      exact hdrained.move (by simp [hwaiting]) (fun hlast => by cases hlast)
        (by rw [hwaiting]; rfl) fun _ h => by cases h
  | drains hi hsweeping =>
      refine hdrained.sweep hi (by simp [hsweeping]) (fun hlast => ?_) (by rw [hsweeping]; rfl)
        fun _ h => by cases h
      rwa [hsweeping]
  | pops hi hdraining hbinds hqueue =>
      refine hdrained.work hi hbinds (by simp [hdraining]) (fun hlast => ?_) (by simp) ?_
      · rwa [hdraining]
      · rw [hdraining, hqueue]
        rfl
  | @finishes j _ last hi hdraining hempty =>
      refine hdrained.sweep hi (by simp [hdraining]) (fun hlast => ?_) ?_ fun hbinds _ =>
        hempty hbinds
      · rw [hdraining]
        cases last with
        | false => cases hlast
        | true => rfl
      · rw [hdraining]
        cases last <;> rfl
  | @calls j cn _ last hi hcalling =>
      have hbinds : (state.consumers j).onDisconnect = true := by
        apply hdrained.hcalling j hi
        rw [hcalling]
        exact List.cons_ne_nil _ _
      refine hdrained.work hi hbinds (by simp [hcalling]) (fun hlast => ?_) (by simp) ?_
      · rwa [hcalling]
      · rw [hcalling, List.append_assoc]
        rfl

end Pieces

theorem State.Stops.drained {start : State} (hstops : start.Stops) : Drained start where
  hsingle := by
    obtain ⟨slots, links, hlinks, hsame⟩ := hstops.hlinks
    intro i hi j hj hleft hright
    rw [hsame i hi] at hleft
    rw [hsame j hj] at hright
    have hset := (linkedBy_onDisconnect slots).sets hlinks hi hleft
    rw [(linkedBy_onDisconnect slots).sets hlinks hj hright, Option.some.injEq] at hset
    exact hset.symm
  hsound := hstops.hsound
  hcalling := hstops.hcalling
  htally i hi hbinds := by
    rw [hstops.hrecord.2.2.2, hstops.harrived i hi hbinds]
    rfl
  hjoins := by
    rw [hstops.htask]
    exact List.nil_subset _
  hawaits i hi := by
    rw [hstops.htask] at hi
    cases hi
  hmet i hi := by
    rw [hstops.hmet i] at hi
    cases hi

/-! ## The loop over the map -/

/-- Each accepted connection has been closed, once, or is still to come and
connected; and no close has been due a push. -/
structure Closing (state : State) : Prop where
  hdefined : state.task ≠ .erased
  hleft : ∀ entry ∈ state.task.left,
    entry ∈ state.mInternalConnections ∧ entry.2 ∉ state.mConnections
  honce : state.closed.Nodup
  hclosed : ∀ cn ∈ state.closed, state.connected cn = false
  haccepted : ∀ cn ∈ state.accepted, cn ∈ state.closed ∨
    state.connected cn = true ∧ cn ∈ state.task.left.map Prod.snd
  hpushed : state.pushed = [] ∧ state.due = []

theorem State.Stops.closing {start : State} (hstops : start.Stops) : Closing start where
  hdefined := by
    rw [hstops.htask]
    exact Task.noConfusion
  hleft entry hentry := by
    rw [hstops.htask] at hentry
    exact ⟨hentry, hstops.hattached entry hentry⟩
  honce := by
    rw [hstops.hrecord.1]
    exact List.nodup_nil
  hclosed cn hcn := by
    rw [hstops.hrecord.1] at hcn
    cases hcn
  haccepted cn hcn := by
    rw [hstops.haccepted, List.mem_filter] at hcn
    rw [hstops.htask]
    exact .inr hcn.symm
  hpushed := ⟨hstops.hrecord.2.2.1, hstops.hrecord.2.1⟩

/-- `tell_disconnected` does not look into the map when something is attached. -/
theorem disconnect_of_attached {state : State} (hattached : state.mConnections ≠ []) {cn : ℕ}
    (hcn : cn ∉ state.mConnections) (allocates : Bool) :
    state.disconnect cn allocates =
      state.unsafeDisconnect cn (!state.isFull && allocates) := by
  have htold : state.tellDisconnected cn allocates = state := by
    rw [State.tellDisconnected, Connections.tellDisconnected_of_other hattached hcn]
  rw [State.disconnect, htold]

/-- The entry of the connection goes when nothing is attached. -/
theorem not_mem_disconnect {state : State} (hnothing : state.mConnections = [])
    {entry : ℕ × ℕ} (hentry : entry ∈ state.mInternalConnections) (allocates : Bool) :
    entry ∉ (state.disconnect entry.2 allocates).mInternalConnections := by
  have hkeeps : ∀ (state : State) (cn : ℕ) (permits : Bool),
      (state.unsafeDisconnect cn permits).mInternalConnections =
        state.mInternalConnections := by
    intro state cn permits
    rw [State.unsafeDisconnect]
    split <;> rfl
  have hpushes : ∀ (state : State) (cn : ℕ),
      (state.disconnectedEvent cn allocates).mInternalConnections =
        state.mInternalConnections := by
    intro state cn
    rw [State.disconnectedEvent]
    split <;> rfl
  have hinternal := List.mem_map_of_mem (f := Prod.snd) hentry
  rw [State.disconnect, hkeeps, State.tellDisconnected,
    Connections.tellDisconnected_of_internal hnothing hinternal]
  have hgone : entry ∉ state.mInternalConnections.filter (·.2 ≠ entry.2) := by simp
  exact (hpushes _ _).symm ▸ hgone

/-- The listener does something else than disconnect a connection, or a consumer
takes a step. -/
structure Quiet (state next : State) : Prop where
  hdefined : next.task ≠ .erased
  htask : next.task.left = state.task.left
  hmap : next.task.left ≠ [] → next.mInternalConnections = state.mInternalConnections
  hconnections : next.mConnections = state.mConnections
  hconnected : next.connected = state.connected
  haccepted : next.accepted = state.accepted
  hclosed : next.closed = state.closed
  hpushed : next.pushed = state.pushed
  hdue : next.due = state.due

theorem Closing.quiet {state next : State} (hclosing : Closing state)
    (hquiet : Quiet state next) : Closing next where
  hdefined := hquiet.hdefined
  hleft entry hentry := by
    have hsome : next.task.left ≠ [] := List.ne_nil_of_mem hentry
    rw [hquiet.hmap hsome, hquiet.hconnections]
    rw [hquiet.htask] at hentry
    exact hclosing.hleft entry hentry
  honce := by
    rw [hquiet.hclosed]
    exact hclosing.honce
  hclosed := by
    rw [hquiet.hclosed, hquiet.hconnected]
    exact hclosing.hclosed
  haccepted := by
    rw [hquiet.haccepted, hquiet.hclosed, hquiet.hconnected, hquiet.htask]
    exact hclosing.haccepted
  hpushed := by
    rw [hquiet.hpushed, hquiet.hdue]
    exact hclosing.hpushed

theorem quiet_of_step {state next : State} {action : Action} (hdefined : state.task ≠ .erased)
    (hother : ∀ allocates, action ≠ .disconnectNext allocates)
    (hnext : step state action = some next) : Quiet state next := by
  have hmove : ∀ (queue : List ℕ) (calls : List (ℕ × ℕ)) (i : ℕ) (stage : Stage), Quiet state
      ({ state with mDisconnectedQueue := queue, calls := calls }.move i stage) :=
    fun _ _ _ _ => ⟨hdefined, rfl, fun _ => rfl, rfl, rfl, rfl, rfl, rfl, rfl⟩
  cases branch_of_step hnext with
  | disconnectNext hclosing hstays => exact absurd rfl (hother _)
  | erases hclosing hgoes => exact absurd rfl (hother _)
  | beginJoins hclosing =>
      exact ⟨Task.noConfusion, by rw [hclosing]; rfl, fun _ => rfl, rfl, rfl, rfl, rfl, rfl, rfl⟩
  | await hjoining hruns hstarted =>
      exact ⟨Task.noConfusion, by rw [hjoining]; rfl, fun _ => rfl, rfl, rfl, rfl, rfl, rfl, rfl⟩
  | tell hjoining hruns hidle =>
      exact ⟨Task.noConfusion, by rw [hjoining]; rfl, fun _ => rfl, rfl, rfl, rfl, rfl, rfl, rfl⟩
  | skip hjoining hstopped =>
      exact ⟨Task.noConfusion, by rw [hjoining]; rfl, fun _ => rfl, rfl, rfl, rfl, rfl, rfl, rfl⟩
  | nextJoined hwaiting hended =>
      exact ⟨Task.noConfusion, by rw [hwaiting]; rfl, fun _ => rfl, rfl, rfl, rfl, rfl, rfl, rfl⟩
  | release hjoining =>
      exact ⟨Task.noConfusion, by rw [hjoining]; rfl, fun hsome => absurd rfl hsome, rfl, rfl, rfl,
        rfl, rfl, rfl⟩
  | joinConsumer hready => exact ⟨hdefined, rfl, fun _ => rfl, rfl, rfl, rfl, rfl, rfl, rfl⟩
  | waits hi hchecking hruns => exact hmove _ _ _ _
  | stops hi hchecking hstopped => exact hmove _ _ _ _
  | wakes hi hwaiting => exact hmove _ _ _ _
  | timesOut hi hwaiting => exact hmove _ _ _ _
  | drains hi hsweeping => exact hmove _ _ _ _
  | pops hi hdraining hbinds hqueue => exact hmove _ _ _ _
  | finishes hi hdraining hempty => exact hmove _ _ _ _
  | calls hi hcalling => exact hmove _ _ _ _

/-- The loop closes a connection that was connected, with no push due. -/
theorem Closing.close {state : State} (hclosing : Closing state) {entry : ℕ × ℕ}
    {todo : List (ℕ × ℕ)} (htask : state.task = .closing (entry :: todo))
    (hconnected : state.connected entry.2 = true) :
    Closing { state with
      connected := Function.update state.connected entry.2 false
      closed := state.closed ++ [entry.2]
      task := .closing todo } where
  hdefined := Task.noConfusion
  hleft other hother := by
    apply hclosing.hleft
    rw [htask]
    exact List.mem_cons_of_mem entry hother
  honce := by
    apply List.Nodup.append hclosing.honce (List.nodup_singleton _)
    intro cn hcn hlast
    obtain rfl := List.mem_singleton.mp hlast
    rw [hclosing.hclosed _ hcn] at hconnected
    cases hconnected
  hclosed cn hcn := by
    by_cases hsame : cn = entry.2
    · rw [hsame]
      exact Function.update_self _ _ _
    · have hbefore : cn ∈ state.closed :=
        (List.mem_append.mp hcn).resolve_right fun hlast => hsame (List.mem_singleton.mp hlast)
      exact (Function.update_of_ne hsame _ _).trans (hclosing.hclosed cn hbefore)
  haccepted cn hcn := by
    by_cases hsame : cn = entry.2
    · left
      rw [hsame]
      exact List.mem_append_right _ (List.mem_singleton_self _)
    · rcases hclosing.haccepted cn hcn with hbefore | ⟨hstill, hleft⟩
      · exact .inl (List.mem_append_left _ hbefore)
      · right
        refine ⟨(Function.update_of_ne hsame _ _).trans hstill, ?_⟩
        rw [htask] at hleft
        exact List.mem_of_ne_of_mem hsame hleft
  hpushed := hclosing.hpushed

/-- The loop finds a connection that has been disconnected before. -/
theorem Closing.pass {state : State} (hclosing : Closing state) {entry : ℕ × ℕ}
    {todo : List (ℕ × ℕ)} (htask : state.task = .closing (entry :: todo))
    (hdisconnected : state.connected entry.2 = false) :
    Closing { state with task := .closing todo } where
  hdefined := Task.noConfusion
  hleft other hother := by
    apply hclosing.hleft
    rw [htask]
    exact List.mem_cons_of_mem entry hother
  honce := hclosing.honce
  hclosed := hclosing.hclosed
  haccepted cn hcn := by
    rcases hclosing.haccepted cn hcn with hbefore | ⟨hstill, hleft⟩
    · exact .inl hbefore
    · right
      refine ⟨hstill, ?_⟩
      rw [htask] at hleft
      apply List.mem_of_ne_of_mem _ hleft
      rintro rfl
      rw [hdisconnected] at hstill
      cases hstill
  hpushed := hclosing.hpushed

/-- A harmless disconnection leaves the rest of the loop to be done. -/
theorem Closing.disconnectNext {state next : State} (hclosing : Closing state)
    {entry : ℕ × ℕ} {todo : List (ℕ × ℕ)} (htask : state.task = .closing (entry :: todo))
    {allocates : Bool} (hharmless : state.Harmless entry.2 allocates)
    (hnext : step state (.disconnectNext allocates) = some next) : Closing next := by
  have hentry := hclosing.hleft entry (by rw [htask]; exact List.mem_cons_self)
  simp only [Shutdown.step, htask, disconnect_of_attached hharmless.1 hentry.2,
    State.unsafeDisconnect] at hnext
  cases hconnected : state.connected entry.2 with
  | false =>
      simp only [hconnected, Bool.false_eq_true, if_false, if_pos hentry.1] at hnext
      obtain rfl := Option.some.inj hnext
      exact hclosing.pass htask hconnected
  | true =>
      simp only [hconnected, if_true, hharmless.2 hconnected, Bool.false_eq_true, if_false,
        if_pos hentry.1] at hnext
      obtain rfl := Option.some.inj hnext
      exact hclosing.close htask hconnected

theorem Closing.step {state next : State} (hclosing : Closing state) {action : Action}
    (hsafe : Safe state action) (hnext : step state action = some next) : Closing next := by
  by_cases hother : ∀ allocates, action ≠ .disconnectNext allocates
  · exact hclosing.quiet (quiet_of_step hclosing.hdefined hother hnext)
  · obtain ⟨allocates, hsame⟩ := not_forall.mp hother
    obtain rfl := not_not.mp hsame
    have hstep := hnext
    rw [Shutdown.step] at hnext
    split at hnext
    · rename_i entry todo htask
      have hharmless : state.Harmless entry.2 allocates := by
        apply hsafe
        rw [htask]
        rfl
      exact hclosing.disconnectNext htask hharmless hstep
    · cases hnext

/-! ## Clean shutdown -/

theorem clean_of_closing {state : State} (hclosing : Closing state) (hdrained : Drained state) :
    state.Clean where
  hdefined := hclosing.hdefined
  honce := List.nodup_iff_count_le_one.mp hclosing.honce
  hclosed hover cn hcn := by
    have hleft : state.task.left = [] := by
      cases htask : state.task with
      | closing todo | erased =>
          rw [htask] at hover
          cases hover
      | joining todo | waiting i todo | ended => rfl
    apply List.count_eq_one_of_mem hclosing.honce
    apply (hclosing.haccepted cn hcn).resolve_right
    rw [hleft]
    exact fun hstill => List.not_mem_nil hstill.2
  hpushed cn := by rw [hclosing.hpushed.1, hclosing.hpushed.2]
  hpassed hended i hi hbinds hmet := by
    have hnobody : state.task.awaits ≠ some i := by
      rw [hended]
      exact (Option.some_ne_none i).symm
    obtain ⟨hidle, hqueue⟩ := (hdrained.hmet i hmet).2.2 hnobody hbinds
    have htally := hdrained.htally i hi hbinds
    rw [hidle, hqueue] at htally
    exact (List.append_nil _).symm.trans htally

/-- A disconnection that is not harmless leaves the iterator at an erased entry,
or closes a connection without the push that is due. -/
theorem not_clean_of_not_safe {state next : State} (hclosing : Closing state) {action : Action}
    (hharmful : ¬ Safe state action) (hnext : step state action = some next) : ¬ next.Clean := by
  cases action with
  | beginJoins | joinNext | nextJoined | release | joinConsumer i | consumer i woken =>
      exact absurd trivial hharmful
  | disconnectNext allocates =>
      intro hclean
      apply hharmful
      intro entry hhead
      obtain ⟨todo, hleft⟩ : ∃ todo, state.task.left = entry :: todo :=
        List.head?_eq_some_iff.mp hhead
      have htask : state.task = .closing (entry :: todo) := by
        generalize state.task = task at hleft
        cases task with
        | closing todo => exact congrArg Task.closing hleft
        | erased | joining todo | waiting i todo | ended => cases hleft
      have hentry := hclosing.hleft entry (by rw [hleft]; exact List.mem_cons_self)
      simp only [Shutdown.step, htask] at hnext
      by_cases hattached : state.mConnections = []
      · rw [if_neg (not_mem_disconnect hattached hentry.1 allocates)] at hnext
        obtain rfl := Option.some.inj hnext
        exact absurd rfl hclean.hdefined
      · refine ⟨hattached, fun hconnected => ?_⟩
        by_contra hpermits
        rw [Bool.not_eq_false] at hpermits
        simp only [disconnect_of_attached hattached hentry.2, State.unsafeDisconnect, hconnected,
          hpermits, if_true, if_pos hentry.1] at hnext
        obtain rfl := Option.some.inj hnext
        have hcount := hclean.hpushed entry.2
        simp only [hclosing.hpushed.1, hclosing.hpushed.2] at hcount
        simp at hcount

/-- From the end of the event loop on, in every run whose disconnections have
been harmless the shutdown is clean, and it stays clean over a step exactly if
that step is harmless too. -/
theorem clean_of_reaches {start state : State} (hstops : start.Stops)
    (hreaches : Reaches step Safe start state) :
    state.Clean ∧ ∀ action next, step state action = some next →
      (next.Clean ↔ Safe state action) := by
  have hdrained : Drained state :=
    hreaches.invariant (fun hdrained _ hnext => hdrained.step hnext) hstops.drained
  have hclosing : Closing state :=
    hreaches.invariant (fun hclosing hsafe hnext => hclosing.step hsafe hnext) hstops.closing
  refine ⟨clean_of_closing hclosing hdrained, fun action next hnext => ⟨fun hclean => ?_,
    fun hsafe => ?_⟩⟩
  · by_contra hharmful
    exact not_clean_of_not_safe hclosing hharmful hnext hclean
  · exact clean_of_closing (hclosing.step hsafe hnext) (hdrained.step hnext)

/-- One accepted connection, and two consumers that run; the second has
`on_disconnect`. -/
def oneAccepted (mConnections : List ℕ) (mMaxQueueSize : ℕ) (queue : List ℕ) : State where
  mConnections
  mInternalConnections := [(5, 1)]
  connected cn := cn = 1
  mMaxQueueSize
  mDisconnectedQueue := queue
  mConsumers := [0, 1]
  consumers i := ⟨i = 1, true, .checking⟩
  task := .closing [(5, 1)]
  accepted := [1]
  closed := []
  due := []
  pushed := []
  arrived := queue
  calls := []
  met _ := false

theorem stops_oneAccepted {mConnections : List ℕ} (hfresh : 1 ∉ mConnections)
    (mMaxQueueSize : ℕ) (queue : List ℕ) :
    (oneAccepted mConnections mMaxQueueSize queue).Stops where
  htask := rfl
  haccepted := rfl
  hattached entry hentry := by
    obtain rfl := List.mem_singleton.mp hentry
    exact hfresh
  hrecord := ⟨rfl, rfl, rfl, rfl⟩
  hmet _ := rfl
  hlinks := ⟨fun i => ⟨i = 1, false, false, ⟨[], List.nodup_nil⟩⟩,
    { Links.clear with onDisconnect := some 1 }, rfl, fun _ _ => rfl⟩
  hsound i _ hlast := by cases hlast
  hcalling i _ hhand := absurd rfl hhand
  harrived _ _ _ := rfl

/-- The thread of the second consumer sees `m_running` false, passes `count`
connections on, and ends. -/
def lastSweep (count : ℕ) : List Action :=
  List.replicate (2 * count + 3) (.consumer 1 false)

def joinBoth (count : ℕ) : List Action :=
  .beginJoins :: .joinNext :: .consumer 0 false :: .consumer 0 false :: .consumer 0 false ::
    .nextJoined :: .joinNext :: List.append (lastSweep count) [.nextJoined, .release]

/-- The queue is full when the accepted connection is closed, and both that are
on it are passed on. -/
theorem clean_of_reaches_full : ∃ state,
    Reaches step Safe (oneAccepted [7, 8] 1 [7, 8]) state ∧ state.task = .ended ∧
      state.closed = [1] ∧ state.calls = [(1, 7), (1, 8)] ∧ state.Clean ∧
      ∀ action next, step state action = some next → (next.Clean ↔ Safe state action) := by
  have hreaches : ∃ state, Reaches step Safe (oneAccepted [7, 8] 1 [7, 8]) state ∧
      state.task = .ended ∧ state.closed = [1] ∧ state.calls = [(1, 7), (1, 8)] :=
    ⟨_, .of_run (rfl : run step (oneAccepted [7, 8] 1 [7, 8])
      (.disconnectNext true :: joinBoth 2) = some _) (by decide), rfl, rfl, rfl⟩
  obtain ⟨state, hreaches, hended, hclosed, hcalls⟩ := hreaches
  exact ⟨state, hreaches, hended, hclosed, hcalls,
    clean_of_reaches (stops_oneAccepted (by decide) _ _) hreaches⟩

/-- With nothing attached the loop is left with an iterator to an erased entry;
with a client attached the accepted connection is closed, the listener ends, and
`on_disconnect` has not been called. -/
theorem not_clean_of_accepted :
    ((oneAccepted [] 0 []).Stops ∧
      ∃ state, run step (oneAccepted [] 0 []) [.disconnectNext true] = some state ∧
        state.task = .erased ∧ ¬ state.Clean) ∧
    (oneAccepted [7] 0 []).Stops ∧
      ∃ state, run step (oneAccepted [7] 0 []) (.disconnectNext true :: joinBoth 0) = some state ∧
        state.task = .ended ∧ state.met 1 = true ∧ state.closed = [1] ∧ state.due = [1] ∧
        state.calls = [] ∧ ¬ state.Clean := by
  have hlost : ∀ {state : State}, state.pushed = [] → state.due = [1] → ¬ state.Clean := by
    intro state hpushed hdue hclean
    have hcount := hclean.hpushed 1
    rw [hpushed, hdue] at hcount
    exact absurd hcount (by decide)
  constructor
  · exact ⟨stops_oneAccepted (by decide) _ _, _, rfl, rfl, fun hclean => hclean.hdefined rfl⟩
  · exact ⟨stops_oneAccepted (by decide) _ _, _, rfl, rfl, rfl, rfl, rfl, rfl, hlost rfl rfl⟩

end Sednl.Shutdown
