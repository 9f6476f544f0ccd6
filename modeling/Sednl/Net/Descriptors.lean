import Sednl.Library.Handles
import Sednl.Library.Transition
import Sednl.Net.Connections

/-!
# Descriptors

Who has which descriptor: attached servers and connections, the connections
accepted, and `accept_connections` between `accept` and the connection it
creates.  The kernel hands out again what is closed, while the listener looks
its objects up by descriptor.  Four paths close one: `unsafe_disconnect`, which
forgets it, `close_server`, which does not, and two in `accept_connections`.
No lock guards `m_internal_connections`: what comes of a change of the map while
another thread is in it is not defined.
-/

namespace Sednl.Descriptors

open Sednl.Connections (findAttached findInternal)
open Sednl.Handles
open Sednl.Transition

/-- What has a descriptor: an object in its `m_fd`, or the thread of the
listener in `cfd`. -/
inductive Holder where
  | server (s : ℕ)
  | connection (cn : ℕ)
  | cfd
  deriving DecidableEq, Repr

/-- Where the thread of the listener stands: in the event loop, in the map for
`get_connection`, in `close_connection` in the search of the map and past it, in
`accept_connections` past `accept`, in `emplace` and in its handler for an
exception, in the loop at the end of `run_imp`, or past its end. -/
inductive Task where
  | idle
  | looking
  | searching (fd : ℕ)
  | found (cn : ℕ)
  | accepted
  | emplacing
  | handling (opening : Opening)
  | stopping (todo : List ℕ)
  | ended
  deriving DecidableEq, Repr

/-- The thread of the listener is in `m_internal_connections`. -/
def Task.inMap : Task → Bool
  | .looking | .searching _ | .emplacing => true
  | _ => false

/-- A listener with its servers and connections, each named by a number; `mFd`
is `none` for -1, which goes with `m_connected` being false.  `detached` are the
servers that no listener has any more, and `telling` the accepted connections
whose `disconnect` is in the map, in as many threads.  `accepted` is a record of
the connections ever created. -/
structure State where
  mServers : List ℕ
  detached : List ℕ
  mConnections : List ℕ
  mInternalConnections : List (ℕ × ℕ)
  mFd : Holder → Option Opening
  task : Task
  telling : List ℕ
  table : Table
  accepted : List ℕ

/-- Why `accept_connections` gives up what `accept` has returned before it has a
connection for it; the last is an exception. -/
inductive Refusal where
  | nonBlockingFails
  | addFails
  | newFails
  deriving DecidableEq, Repr

namespace State

def getFd (state : State) (holder : Holder) : Option ℕ :=
  (state.mFd holder).map Opening.fd

def isServer (state : State) (fd : ℕ) : Bool :=
  state.mServers.any fun s => state.getFd (.server s) == some fd

def getConnection (state : State) (fd : ℕ) : Option ℕ :=
  match findAttached state.mConnections (fun cn => state.getFd (.connection cn)) fd with
  | some cn => some cn
  | none => findInternal state.mInternalConnections fd

/-- `accept` or `connect` gives a descriptor to a holder. -/
def opened (state : State) (holder : Holder) (fd : ℕ) : State :=
  { state with
    table := state.table.opened fd
    mFd := Function.update state.mFd holder (some (state.table.opening fd)) }

/-- `unsafe_disconnect`, and `close(cfd)` before a `return`. -/
def unsafeDisconnect (state : State) (holder : Holder) : State :=
  match state.mFd holder with
  | none => state
  | some opening =>
      { state with
        table := state.table.close opening
        mFd := Function.update state.mFd holder none }

/-- `EventListener::tell_disconnected`, as far as it changes the map; the thread
leaves it. -/
def tellDisconnected (state : State) (cn : ℕ) : State :=
  { state with
    mInternalConnections :=
      (Connections.tellDisconnected state.mConnections state.mInternalConnections cn).getD
        state.mInternalConnections
    telling := if state.mConnections = [] then state.telling.erase cn else state.telling }

/-- `disconnect` of a server or of a connection.  Of a server that a listener
has it closes nothing: `tell_disconnected` calls `get_fd`, which waits for the
mutex that `disconnect` holds. -/
def disconnect (state : State) : Holder → State
  | .server s => if s ∈ state.mServers then state else state.unsafeDisconnect (.server s)
  | .connection cn => (state.tellDisconnected cn).unsafeDisconnect (.connection cn)
  | .cfd => state

/-- `close_server`: the descriptor is closed, and the server keeps it. -/
def closeServer (state : State) (fd : ℕ) : State :=
  match state.mServers.findSome? fun s => (state.mFd (.server s)).filter (·.fd == fd) with
  | none => state
  | some opening => { state with table := state.table.close opening }

/-- The search of `close_connection` among the attached connections. -/
def findConnection (state : State) (fd : ℕ) : State :=
  match findAttached state.mConnections (fun cn => state.getFd (.connection cn)) fd with
  | some cn => { state with task := .found cn }
  | none => { state with task := .searching fd }

/-- Its search of the map, and the `erase` of what it finds there. -/
def eraseConnection (state : State) (fd : ℕ) : State :=
  match findInternal state.mInternalConnections fd with
  | some cn =>
      { state with
        task := .found cn
        mInternalConnections := state.mInternalConnections.filter (·.1 ≠ fd) }
  | none => { state with task := .idle }

/-- `m_internal_connections.emplace`, which leaves an old entry in place. -/
def emplace (state : State) (fd cn : ℕ) : List (ℕ × ℕ) :=
  if state.mInternalConnections.any (·.1 == fd) then state.mInternalConnections
  else state.mInternalConnections ++ [(fd, cn)]

/-- `cn->m_fd = cfd`. -/
def give (state : State) (cn : ℕ) (opening : Opening) : State :=
  { state with
    mFd := Function.update (Function.update state.mFd .cfd none) (.connection cn) (some opening)
    accepted := state.accepted ++ [cn] }

/-- The returns of `accept_connections` that close `cfd`. -/
def refuse (state : State) : Refusal → State
  | .nonBlockingFails => { state.unsafeDisconnect .cfd with task := .idle }
  | .addFails => { state.unsafeDisconnect .cfd with task := .idle }
  | .newFails => { state.unsafeDisconnect .cfd with task := .idle }

/-- The rest of `accept_connections`, up to `on_connect`.  When `emplace` throws,
the destructor of the connection closes its descriptor before the handler does. -/
def store (state : State) (cn : ℕ) (opening : Opening) (allocates : Bool) : State :=
  if allocates then
    { state.give cn opening with
      mInternalConnections := state.emplace opening.fd cn
      task := .idle }
  else { (state.give cn opening).unsafeDisconnect (.connection cn) with task := .handling opening }

/-- Another thread than the one that disconnects `cn` is in the map. -/
def Shares (state : State) (cn : ℕ) : Prop :=
  state.task.inMap = true ∨ state.telling.erase cn ≠ []

instance (state : State) (cn : ℕ) : Decidable (state.Shares cn) :=
  inferInstanceAs (Decidable (_ ∨ _))

end State

inductive Action where
  /-- An attached server or client is connected. -/
  | connect (holder : Holder) (fd : ℕ)
  /-- A thread calls `disconnect` on an accepted connection, and its search of
  the map begins. -/
  | tell (cn : ℕ)
  /-- That `disconnect` goes on to its end; on any other object, or beside an
  attached connection, this is the whole call. -/
  | disconnect (holder : Holder) (undefined : State)
  /-- The search of `get_connection` begins, and it ends. -/
  | getConnection
  | gotConnection
  /-- A poll event with a close flag, for a server. -/
  | closeServer (fd : ℕ)
  /-- A poll event or a failed `recv` makes the listener close a connection. -/
  | closeConnection (fd : ℕ)
  | eraseConnection (undefined : State)
  | safeDisconnect
  /-- `accept` on a server returns a descriptor. -/
  | accept (s fd : ℕ)
  | refuse (refusal : Refusal)
  /-- `emplace` begins, and it ends. -/
  | emplace
  | store (cn : ℕ) (allocates : Bool) (undefined : State)
  /-- `close(cfd)` in the handler, after the destructor. -/
  | handle
  /-- The event loop sees that `m_running` is false. -/
  | stop
  /-- The next `disconnect` at the end of `run_imp`. -/
  | closeNext (undefined : State)
  | clear (undefined : State)
  /-- `EventListener::run`, once more. -/
  | run
  | detach (s : ℕ)
  | attach (s : ℕ)
  /-- An object is destroyed: a server once it is detached, an attached
  connection after it was detached, an accepted one when nobody refers to it. -/
  | destroy (holder : Holder)

/-- The objects whose `disconnect` may come to its end. -/
def State.Known (state : State) : Holder → Prop
  | .server s => s ∈ state.mServers ++ state.detached
  | .connection cn =>
      cn ∈ state.mConnections ++ state.accepted ∧
        (state.mConnections = [] → cn ∈ state.telling)
  | .cfd => False

instance (state : State) : (holder : Holder) → Decidable (state.Known holder)
  | .server s => inferInstanceAs (Decidable (s ∈ state.mServers ++ state.detached))
  | .connection cn => inferInstanceAs (Decidable (cn ∈ _ ∧ (_ → _)))
  | .cfd => .isFalse id

/-- No other thread is in the map when the step changes it. -/
def State.Alone (state : State) : Action → Prop
  | .disconnect (.connection cn) _ =>
      state.mConnections = [] → cn ∈ state.mInternalConnections.map Prod.snd → ¬ state.Shares cn
  | .eraseConnection _ =>
      state.telling = [] ∨ ∀ entry ∈ state.mInternalConnections, state.task ≠ .searching entry.1
  | .store _ _ _ => state.telling = []
  | .clear _ => state.telling = []
  | _ => True

instance (state : State) : (action : Action) → Decidable (state.Alone action)
  | .disconnect (.connection cn) _ => inferInstanceAs (Decidable (_ → _ → ¬ state.Shares cn))
  | .disconnect (.server _) _ => .isTrue trivial
  | .disconnect .cfd _ => .isTrue trivial
  | .eraseConnection _ =>
      inferInstanceAs (Decidable (_ ∨ ∀ entry ∈ state.mInternalConnections, _))
  | .store _ _ _ => inferInstanceAs (Decidable (state.telling = []))
  | .clear _ => inferInstanceAs (Decidable (state.telling = []))
  | .connect _ _ => .isTrue trivial
  | .tell _ => .isTrue trivial
  | .getConnection => .isTrue trivial
  | .gotConnection => .isTrue trivial
  | .closeServer _ => .isTrue trivial
  | .closeConnection _ => .isTrue trivial
  | .safeDisconnect => .isTrue trivial
  | .accept _ _ => .isTrue trivial
  | .refuse _ => .isTrue trivial
  | .emplace => .isTrue trivial
  | .handle => .isTrue trivial
  | .stop => .isTrue trivial
  | .closeNext _ => .isTrue trivial
  | .run => .isTrue trivial
  | .detach _ => .isTrue trivial
  | .attach _ => .isTrue trivial
  | .destroy _ => .isTrue trivial

def State.Listens (state : State) (s : ℕ) : Prop :=
  ((state.mFd (.server s)).bind fun opening => state.table.slots opening.fd).isSome

instance (state : State) (s : ℕ) : Decidable (state.Listens s) :=
  inferInstanceAs (Decidable (_ = true))

/-- The steps of the listener, and of the threads that connect, disconnect and
destroy its objects.  The kernel gives out descriptors that are not open. -/
def step (state : State) : Action → Option State
  | .connect (.server s) fd =>
      if s ∈ state.mServers ++ state.detached ∧ state.table.slots fd = none then
        some (state.opened (.server s) fd)
      else none
  | .connect (.connection cn) fd =>
      if cn ∈ state.mConnections ∧ state.table.slots fd = none then
        some (state.opened (.connection cn) fd)
      else none
  | .connect .cfd _ => none
  | .tell cn =>
      if state.mConnections = [] ∧ cn ∈ state.accepted ∧ cn ∉ state.telling then
        some { state with telling := cn :: state.telling }
      else none
  | .disconnect holder undefined =>
      if state.Known holder then
        if state.Alone (.disconnect holder undefined) then some (state.disconnect holder)
        else some undefined
      else none
  | .getConnection =>
      if state.task = .idle then some { state with task := .looking } else none
  | .gotConnection =>
      if state.task = .looking then some { state with task := .idle } else none
  | .closeServer fd =>
      if state.task = .idle then some (state.closeServer fd) else none
  | .closeConnection fd =>
      if state.task = .idle then some (state.findConnection fd) else none
  | .eraseConnection undefined =>
      match state.task with
      | .searching fd =>
          if state.Alone (.eraseConnection undefined) then some (state.eraseConnection fd)
          else some undefined
      | _ => none
  | .safeDisconnect =>
      match state.task with
      | .found cn =>
          if cn ∈ state.telling then none
          else some { state.unsafeDisconnect (.connection cn) with task := .idle }
      | _ => none
  | .accept s fd =>
      if state.task = .idle ∧ s ∈ state.mServers ∧ state.Listens s ∧
          state.table.slots fd = none then
        some { state.opened .cfd fd with task := .accepted }
      else none
  | .refuse refusal =>
      if state.task = .accepted then some (state.refuse refusal) else none
  | .emplace =>
      if state.task = .accepted then some { state with task := .emplacing } else none
  | .store cn allocates undefined =>
      match state.task, state.mFd .cfd with
      | .emplacing, some opening =>
          if cn ∈ state.mConnections ++ state.accepted then none
          else if state.Alone (.store cn allocates undefined) then
            some (state.store cn opening allocates)
          else some undefined
      | _, _ => none
  | .handle =>
      match state.task with
      | .handling opening =>
          some { state with table := state.table.close opening, task := .idle }
      | _ => none
  | .stop =>
      if state.task = .idle then
        some { state with task := .stopping (state.mInternalConnections.map Prod.snd) }
      else none
  | .closeNext undefined =>
      match state.task with
      | .stopping (cn :: todo) =>
          if state.mConnections = [] then some undefined
          else some { state.disconnect (.connection cn) with task := .stopping todo }
      | _ => none
  | .clear undefined =>
      if state.task = .stopping [] then
        if state.Alone (.clear undefined) then
          some { state with mInternalConnections := [], task := .ended }
        else some undefined
      else none
  | .run =>
      if state.task = .ended then some { state with task := .idle } else none
  | .detach s =>
      if state.task = .ended ∧ s ∈ state.mServers then
        some { state with
          mServers := state.mServers.filter (· ≠ s)
          detached := state.detached ++ [s] }
      else none
  | .attach s =>
      if state.task = .ended ∧ s ∈ state.detached then
        some { state with
          mServers := state.mServers ++ [s]
          detached := state.detached.filter (· ≠ s) }
      else none
  | .destroy (.server s) =>
      if s ∈ state.detached then
        some { state.unsafeDisconnect (.server s) with
          detached := state.detached.filter (· ≠ s) }
      else none
  | .destroy (.connection cn) =>
      if state.task = .ended ∧ cn ∈ state.mConnections then
        some { state.unsafeDisconnect (.connection cn) with
          mConnections := state.mConnections.filter (· ≠ cn) }
      else if cn ∈ state.accepted ∧ cn ∉ state.mInternalConnections.map Prod.snd ∧
          state.task ≠ .found cn ∧ cn ∉ state.telling then
        some (state.unsafeDisconnect (.connection cn))
      else none
  | .destroy .cfd => none

/-- A listener that has just been started, with nothing connected yet. -/
def State.start (mServers mConnections : List ℕ) : State where
  mServers := mServers
  detached := []
  mConnections := mConnections
  mInternalConnections := []
  mFd := fun _ => none
  task := .idle
  telling := []
  table := .empty
  accepted := []

/-! ## What a step can do -/

/-- The branches of `step` that lead to a state: what each asks for, and where
it leads. -/
inductive Branch (state : State) : Action → State → Prop where
  | connectServer {s fd : ℕ}
      (hready : s ∈ state.mServers ++ state.detached ∧ state.table.slots fd = none) :
      Branch state (.connect (.server s) fd) (state.opened (.server s) fd)
  | connect {cn fd : ℕ} (hready : cn ∈ state.mConnections ∧ state.table.slots fd = none) :
      Branch state (.connect (.connection cn) fd) (state.opened (.connection cn) fd)
  | tell {cn : ℕ} (hready : state.mConnections = [] ∧ cn ∈ state.accepted ∧
        cn ∉ state.telling) :
      Branch state (.tell cn) { state with telling := cn :: state.telling }
  | disconnect {holder : Holder} {undefined : State} (hknown : state.Known holder) :
      Branch state (.disconnect holder undefined) (state.disconnect holder)
  | getConnection (hidle : state.task = .idle) :
      Branch state .getConnection { state with task := .looking }
  | gotConnection (hlooking : state.task = .looking) :
      Branch state .gotConnection { state with task := .idle }
  | closeServer {fd : ℕ} (hidle : state.task = .idle) :
      Branch state (.closeServer fd) (state.closeServer fd)
  | closeConnection {fd : ℕ} (hidle : state.task = .idle) :
      Branch state (.closeConnection fd) (state.findConnection fd)
  | eraseConnection {fd : ℕ} {undefined : State} (hsearching : state.task = .searching fd) :
      Branch state (.eraseConnection undefined) (state.eraseConnection fd)
  | safeDisconnect {cn : ℕ} (hfound : state.task = .found cn) :
      Branch state .safeDisconnect
        { state.unsafeDisconnect (.connection cn) with task := .idle }
  | accept {s fd : ℕ} (hready : state.task = .idle ∧ s ∈ state.mServers ∧ state.Listens s ∧
        state.table.slots fd = none) :
      Branch state (.accept s fd) { state.opened .cfd fd with task := .accepted }
  | refuse {refusal : Refusal} (haccepted : state.task = .accepted) :
      Branch state (.refuse refusal) (state.refuse refusal)
  | emplace (haccepted : state.task = .accepted) :
      Branch state .emplace { state with task := .emplacing }
  | store {cn : ℕ} {opening : Opening} {allocates : Bool} {undefined : State}
      (hemplacing : state.task = .emplacing) (hcfd : state.mFd .cfd = some opening)
      (hnew : cn ∉ state.mConnections ++ state.accepted) :
      Branch state (.store cn allocates undefined) (state.store cn opening allocates)
  | handle {opening : Opening} (hhandling : state.task = .handling opening) :
      Branch state .handle { state with table := state.table.close opening, task := .idle }
  | stop (hidle : state.task = .idle) : Branch state .stop
      { state with task := .stopping (state.mInternalConnections.map Prod.snd) }
  | erases {cn : ℕ} {todo : List ℕ} {undefined : State}
      (hstopping : state.task = .stopping (cn :: todo)) (hnothing : state.mConnections = []) :
      Branch state (.closeNext undefined) undefined
  | closeNext {cn : ℕ} {todo : List ℕ} {undefined : State}
      (hstopping : state.task = .stopping (cn :: todo)) (hattached : state.mConnections ≠ []) :
      Branch state (.closeNext undefined)
        { state.disconnect (.connection cn) with task := .stopping todo }
  | clear {undefined : State} (hstopping : state.task = .stopping []) :
      Branch state (.clear undefined) { state with mInternalConnections := [], task := .ended }
  | run (hended : state.task = .ended) : Branch state .run { state with task := .idle }
  | detach {s : ℕ} (hready : state.task = .ended ∧ s ∈ state.mServers) :
      Branch state (.detach s) { state with
        mServers := state.mServers.filter (· ≠ s)
        detached := state.detached ++ [s] }
  | attach {s : ℕ} (hready : state.task = .ended ∧ s ∈ state.detached) :
      Branch state (.attach s) { state with
        mServers := state.mServers ++ [s]
        detached := state.detached.filter (· ≠ s) }
  | destroyServer {s : ℕ} (hdetached : s ∈ state.detached) :
      Branch state (.destroy (.server s)) { state.unsafeDisconnect (.server s) with
        detached := state.detached.filter (· ≠ s) }
  | destroy {cn : ℕ} (hready : state.task = .ended ∧ cn ∈ state.mConnections) :
      Branch state (.destroy (.connection cn)) { state.unsafeDisconnect (.connection cn) with
        mConnections := state.mConnections.filter (· ≠ cn) }
  | release {cn : ℕ} (hstays : ¬ (state.task = .ended ∧ cn ∈ state.mConnections))
      (hgone : cn ∈ state.accepted ∧ cn ∉ state.mInternalConnections.map Prod.snd ∧
        state.task ≠ .found cn ∧ cn ∉ state.telling) :
      Branch state (.destroy (.connection cn)) (state.unsafeDisconnect (.connection cn))
  | races {action : Action} {undefined : State} (hshared : ¬ state.Alone action) :
      Branch state action undefined

theorem branch_of_ite {state defined undefined next : State} {action : Action}
    (hbranch : Branch state action defined)
    (hnext : (if state.Alone action then some defined else some undefined) = some next) :
    Branch state action next := by
  split at hnext
  · obtain rfl := Option.some.inj hnext
    exact hbranch
  · rename_i hshared
    exact .races hshared

theorem branch_of_closeNext {state undefined next : State}
    (hnext : step state (.closeNext undefined) = some next) :
    Branch state (.closeNext undefined) next := by
  rw [step] at hnext
  split at hnext
  · rename_i cn todo hstopping
    split at hnext
    · rename_i hnothing
      obtain rfl := Option.some.inj hnext
      exact .erases hstopping hnothing
    · rename_i hattached
      obtain rfl := Option.some.inj hnext
      exact .closeNext hstopping hattached
  · cases hnext

theorem branch_of_destroy {state next : State} {holder : Holder}
    (hnext : step state (.destroy holder) = some next) :
    Branch state (.destroy holder) next := by
  cases holder with
  | server s =>
      obtain ⟨hready, hsome⟩ := Option.ite_none_right_eq_some.mp hnext
      obtain rfl := Option.some.inj hsome
      exact .destroyServer hready
  | connection cn =>
      rw [step] at hnext
      split at hnext
      · rename_i hready
        obtain rfl := Option.some.inj hnext
        exact .destroy hready
      · rename_i hstays
        obtain ⟨hgone, hsome⟩ := Option.ite_none_right_eq_some.mp hnext
        obtain rfl := Option.some.inj hsome
        exact .release hstays hgone
  | cfd => cases hnext

/-- Each step takes one of the branches. -/
theorem branch_of_step {state next : State} {action : Action}
    (hnext : step state action = some next) : Branch state action next := by
  cases action with
  | connect holder fd =>
      cases holder with
      | server s =>
          obtain ⟨hready, hsome⟩ := Option.ite_none_right_eq_some.mp hnext
          obtain rfl := Option.some.inj hsome
          exact .connectServer hready
      | connection cn =>
          obtain ⟨hready, hsome⟩ := Option.ite_none_right_eq_some.mp hnext
          obtain rfl := Option.some.inj hsome
          exact .connect hready
      | cfd => cases hnext
  | tell cn =>
      obtain ⟨hready, hsome⟩ := Option.ite_none_right_eq_some.mp hnext
      obtain rfl := Option.some.inj hsome
      exact .tell hready
  | disconnect holder undefined =>
      obtain ⟨hknown, hnext⟩ := Option.ite_none_right_eq_some.mp hnext
      exact branch_of_ite (.disconnect hknown) hnext
  | getConnection =>
      obtain ⟨hidle, hsome⟩ := Option.ite_none_right_eq_some.mp hnext
      obtain rfl := Option.some.inj hsome
      exact .getConnection hidle
  | gotConnection =>
      obtain ⟨hlooking, hsome⟩ := Option.ite_none_right_eq_some.mp hnext
      obtain rfl := Option.some.inj hsome
      exact .gotConnection hlooking
  | closeServer fd =>
      obtain ⟨hidle, hsome⟩ := Option.ite_none_right_eq_some.mp hnext
      obtain rfl := Option.some.inj hsome
      exact .closeServer hidle
  | closeConnection fd =>
      obtain ⟨hidle, hsome⟩ := Option.ite_none_right_eq_some.mp hnext
      obtain rfl := Option.some.inj hsome
      exact .closeConnection hidle
  | eraseConnection undefined =>
      rw [step] at hnext
      split at hnext
      · rename_i fd hsearching
        exact branch_of_ite (.eraseConnection hsearching) hnext
      · cases hnext
  | safeDisconnect =>
      rw [step] at hnext
      split at hnext
      · rename_i cn hfound
        obtain ⟨_, hsome⟩ := Option.ite_none_left_eq_some.mp hnext
        obtain rfl := Option.some.inj hsome
        exact .safeDisconnect hfound
      · cases hnext
  | accept s fd =>
      obtain ⟨hready, hsome⟩ := Option.ite_none_right_eq_some.mp hnext
      obtain rfl := Option.some.inj hsome
      exact .accept hready
  | refuse refusal =>
      obtain ⟨haccepted, hsome⟩ := Option.ite_none_right_eq_some.mp hnext
      obtain rfl := Option.some.inj hsome
      exact .refuse haccepted
  | emplace =>
      obtain ⟨haccepted, hsome⟩ := Option.ite_none_right_eq_some.mp hnext
      obtain rfl := Option.some.inj hsome
      exact .emplace haccepted
  | store cn allocates undefined =>
      rw [step] at hnext
      split at hnext
      · rename_i opening hemplacing hcfd
        obtain ⟨hnew, hnext⟩ := Option.ite_none_left_eq_some.mp hnext
        exact branch_of_ite (.store hemplacing hcfd hnew) hnext
      · cases hnext
  | handle =>
      rw [step] at hnext
      split at hnext
      · rename_i opening hhandling
        obtain rfl := Option.some.inj hnext
        exact .handle hhandling
      · cases hnext
  | stop =>
      obtain ⟨hidle, hsome⟩ := Option.ite_none_right_eq_some.mp hnext
      obtain rfl := Option.some.inj hsome
      exact .stop hidle
  | closeNext undefined => exact branch_of_closeNext hnext
  | clear undefined =>
      obtain ⟨hstopping, hnext⟩ := Option.ite_none_right_eq_some.mp hnext
      exact branch_of_ite (.clear hstopping) hnext
  | run =>
      obtain ⟨hended, hsome⟩ := Option.ite_none_right_eq_some.mp hnext
      obtain rfl := Option.some.inj hsome
      exact .run hended
  | detach s =>
      obtain ⟨hready, hsome⟩ := Option.ite_none_right_eq_some.mp hnext
      obtain rfl := Option.some.inj hsome
      exact .detach hready
  | attach s =>
      obtain ⟨hready, hsome⟩ := Option.ite_none_right_eq_some.mp hnext
      obtain rfl := Option.some.inj hsome
      exact .attach hready
  | destroy holder => exact branch_of_destroy hnext

/-! ## One owner -/

/-- Who answers when the listener looks a descriptor up. -/
inductive Answerer where
  | server (s : ℕ)
  | attached (cn : ℕ)
  | entry (cn : ℕ)
  deriving DecidableEq, Repr

def Answerer.holder : Answerer → Holder
  | .server s => .server s
  | .attached cn | .entry cn => .connection cn

def State.Answers (state : State) (fd : ℕ) : Answerer → Prop
  | .server s => s ∈ state.mServers ∧ state.getFd (.server s) = some fd
  | .attached cn => cn ∈ state.mConnections ∧ state.getFd (.connection cn) = some fd
  | .entry cn => (fd, cn) ∈ state.mInternalConnections

/-- No other server that `close_server` has closed still has the descriptor. -/
def State.Reserved (state : State) (holder : Holder) (fd : ℕ) : Prop :=
  ∀ s ∈ state.mServers, .server s ≠ holder → ∀ opening ∈ state.mFd (.server s),
    opening.fd = fd → opening.serial ∉ state.table.closed

instance (state : State) (holder : Holder) (fd : ℕ) : Decidable (state.Reserved holder fd) :=
  inferInstanceAs (Decidable (∀ s ∈ state.mServers, _ → ∀ opening ∈ state.mFd (.server s), _))

/-- When a step of a running listener keeps one owner for each descriptor: the
kernel gives out no descriptor that another server keeps past its close, nor the
one between the two closes of a failed `emplace`; and an accepted connection is
disconnected when nothing is attached or it has left the map. -/
def State.KeepsOwner (state : State) : Action → Prop
  | .connect holder fd => state.Reserved holder fd
  | .accept _ fd => state.Reserved .cfd fd
  | .handle => ∀ opening, state.task = .handling opening → state.table.slots opening.fd = none
  | .disconnect holder _ =>
      ∀ entry ∈ state.mInternalConnections, holder = .connection entry.2 →
        state.mConnections = []
  | .stop => False
  | _ => True

instance (state : State) : (action : Action) → Decidable (state.KeepsOwner action)
  | .connect holder fd => inferInstanceAs (Decidable (state.Reserved holder fd))
  | .accept _ fd => inferInstanceAs (Decidable (state.Reserved .cfd fd))
  | .handle =>
      match htask : state.task with
      | .handling opening =>
          decidable_of_iff (state.table.slots opening.fd = none) (by simp [State.KeepsOwner, htask])
      | .idle | .looking | .searching _ | .found _ | .accepted | .emplacing | .stopping _
      | .ended => .isTrue (by simp [State.KeepsOwner, htask])
  | .disconnect _ _ =>
      inferInstanceAs (Decidable (∀ entry ∈ state.mInternalConnections, _ → _))
  | .stop => .isFalse id
  | .tell _ => .isTrue trivial
  | .getConnection => .isTrue trivial
  | .gotConnection => .isTrue trivial
  | .closeServer _ => .isTrue trivial
  | .closeConnection _ => .isTrue trivial
  | .eraseConnection _ => .isTrue trivial
  | .safeDisconnect => .isTrue trivial
  | .refuse _ => .isTrue trivial
  | .emplace => .isTrue trivial
  | .store _ _ _ => .isTrue trivial
  | .closeNext _ => .isTrue trivial
  | .clear _ => .isTrue trivial
  | .run => .isTrue trivial
  | .detach _ => .isTrue trivial
  | .attach _ => .isTrue trivial
  | .destroy _ => .isTrue trivial

/-- When a step is safe for the owners: it keeps them, and the map is changed
while no other thread is in it. -/
def OwnerSafe (state : State) (action : Action) : Prop :=
  state.Alone action ∧ state.KeepsOwner action

instance (state : State) (action : Action) : Decidable (OwnerSafe state action) :=
  inferInstanceAs (Decidable (_ ∧ _))

/-- Who may be left with a closed descriptor. -/
def State.MayStale (state : State) (holder : Holder) : Prop :=
  ∃ s ∈ state.mServers, holder = .server s

/-- Each entry of the map is under the descriptor of its connection, which was
accepted and which nobody is about to close. -/
structure Mapped (state : State) : Prop where
  howned : Owned state.table state.mFd state.MayStale
  hentries : ∀ entry ∈ state.mInternalConnections, entry.2 ∈ state.accepted ∧
    ∃ serial, state.mFd (.connection entry.2) = some ⟨entry.1, serial⟩
  haccepted : ∀ cn ∈ state.accepted, cn ∉ state.mConnections
  hfound : ∀ cn, state.task = .found cn → cn ∉ state.mInternalConnections.map Prod.snd
  hrunning : state.task ≠ .ended ∧ ∀ todo, state.task ≠ .stopping todo

theorem State.tellDisconnected_of_ne_nil {state : State}
    (hattached : state.mConnections ≠ []) (cn : ℕ) :
    state.tellDisconnected cn = state := by
  rw [tellDisconnected, Connections.getD_tellDisconnected_of_ne_nil hattached, if_neg hattached]

theorem State.tellDisconnected_of_eq_nil {state : State}
    (hnone : state.mConnections = []) (cn : ℕ) :
    state.tellDisconnected cn = { state with
      mInternalConnections := state.mInternalConnections.filter (·.2 ≠ cn)
      telling := state.telling.erase cn } := by
  rw [tellDisconnected, Connections.getD_tellDisconnected_of_eq_nil hnone, if_pos hnone]

section Mapped

variable {state : State} (hmapped : Mapped state)

include hmapped

theorem Mapped.getFd_entry {fd cn : ℕ} (hentry : (fd, cn) ∈ state.mInternalConnections) :
    state.getFd (.connection cn) = some fd := by
  obtain ⟨_, serial, hfd⟩ := hmapped.hentries (fd, cn) hentry
  rw [State.getFd, hfd]
  rfl

theorem Mapped.single {fd : ℕ} {left right : Holder} (hleft : state.getFd left = some fd)
    (hright : state.getFd right = some fd) : left = right := by
  rw [State.getFd, Option.map_eq_some_iff] at hleft hright
  obtain ⟨opening, hopening, rfl⟩ := hleft
  obtain ⟨found, hfound, hfd⟩ := hright
  exact hmapped.howned.hone _ _ _ _ hopening hfound hfd.symm

/-- The thread of the listener goes on, and may have taken entries out of the
map. -/
theorem Mapped.goOn {task : Task} {entries : List (ℕ × ℕ)}
    (hentries : entries ⊆ state.mInternalConnections)
    (hfound : ∀ cn, task = .found cn → cn ∉ entries.map Prod.snd)
    (hrunning : task ≠ .ended ∧ ∀ todo, task ≠ .stopping todo) :
    Mapped { state with mInternalConnections := entries, task := task } where
  howned := hmapped.howned
  hentries entry hentry := hmapped.hentries entry (hentries hentry)
  haccepted := hmapped.haccepted
  hfound := hfound
  hrunning := hrunning

/-- A thread enters the map or leaves it. -/
theorem Mapped.tell (telling : List ℕ) : Mapped { state with telling := telling } where
  howned := hmapped.howned
  hentries := hmapped.hentries
  haccepted := hmapped.haccepted
  hfound := hmapped.hfound
  hrunning := hmapped.hrunning

/-- A descriptor is opened for a holder that is not in the map. -/
theorem Mapped.opened {holder : Holder} {fd : ℕ} (hslot : state.table.slots fd = none)
    (hreserved : state.Reserved holder fd) (hnew : ∀ cn ∈ state.accepted, holder ≠ .connection cn) :
    Mapped (state.opened holder fd) where
  howned := by
    apply hmapped.howned.opened hslot
    rintro _ opening hne ⟨s, hs, rfl⟩ hopening
    exact hreserved s hs hne opening hopening
  hentries entry hentry := by
    obtain ⟨haccepted, serial, hfd⟩ := hmapped.hentries entry hentry
    refine ⟨haccepted, serial, ?_⟩
    exact (Function.update_of_ne (hnew _ haccepted).symm _ _).trans hfd
  haccepted := hmapped.haccepted
  hfound := hmapped.hfound
  hrunning := hmapped.hrunning

/-- A holder that is not in the map closes its descriptor. -/
theorem Mapped.unsafeDisconnect {holder : Holder}
    (hgone : ∀ entry ∈ state.mInternalConnections, holder ≠ .connection entry.2) :
    Mapped (state.unsafeDisconnect holder) := by
  rw [State.unsafeDisconnect]
  split
  · exact hmapped
  · rename_i opening hopening
    refine ⟨hmapped.howned.close hopening, fun entry hentry => ?_, hmapped.haccepted,
      hmapped.hfound, hmapped.hrunning⟩
    obtain ⟨haccepted, serial, hfd⟩ := hmapped.hentries entry hentry
    refine ⟨haccepted, serial, ?_⟩
    exact (Function.update_of_ne (hgone entry hentry).symm _ _).trans hfd

theorem Mapped.disconnect {holder : Holder}
    (hsafe : ∀ entry ∈ state.mInternalConnections, holder = .connection entry.2 →
      state.mConnections = []) : Mapped (state.disconnect holder) := by
  cases holder with
  | server s =>
      rw [State.disconnect]
      split
      · exact hmapped
      · exact hmapped.unsafeDisconnect fun entry _ hentry => by cases hentry
  | cfd => exact hmapped
  | connection cn =>
      rw [State.disconnect]
      by_cases hnone : state.mConnections = []
      · rw [State.tellDisconnected_of_eq_nil hnone]
        have hsub : state.mInternalConnections.filter (·.2 ≠ cn) ⊆ state.mInternalConnections :=
          List.filter_sublist.subset
        have htold := (hmapped.goOn hsub
          (fun other hother hmem => hmapped.hfound other hother (List.map_subset _ hsub hmem))
          hmapped.hrunning).tell (state.telling.erase cn)
        apply htold.unsafeDisconnect
        intro entry hentry hcn
        injection hcn with hcn
        exact of_decide_eq_true (List.mem_filter.mp hentry).2 hcn.symm
      · rw [State.tellDisconnected_of_ne_nil hnone]
        apply hmapped.unsafeDisconnect
        intro entry hentry hcn
        exact hnone (hsafe entry hentry hcn)

theorem Mapped.closeServer (fd : ℕ) : Mapped (state.closeServer fd) := by
  rw [State.closeServer]
  split
  · exact hmapped
  · rename_i opening hfind
    obtain ⟨s, hs, hopening⟩ := List.exists_of_findSome?_eq_some hfind
    refine ⟨hmapped.howned.stale (Option.filter_eq_some_iff.mp hopening).1 ⟨s, hs, rfl⟩,
      hmapped.hentries, hmapped.haccepted, hmapped.hfound, hmapped.hrunning⟩

theorem Mapped.findConnection (fd : ℕ) : Mapped (state.findConnection fd) := by
  rw [State.findConnection]
  split
  · rename_i cn hfind
    apply hmapped.goOn (List.Subset.refl _)
    · intro other hother hmem
      injection hother with hother
      subst hother
      obtain ⟨entry, hentry, rfl⟩ := List.mem_map.mp hmem
      exact hmapped.haccepted _ (hmapped.hentries entry hentry).1
        (Connections.mem_of_findAttached hfind).1
    · simp
  · exact hmapped.goOn (List.Subset.refl _) (fun _ hother => by cases hother) (by simp)

theorem Mapped.eraseConnection (fd : ℕ) : Mapped (state.eraseConnection fd) := by
  rw [State.eraseConnection]
  split
  · rename_i cn hfind
    have hmem := Connections.mem_of_findInternal hfind
    apply hmapped.goOn List.filter_sublist.subset
    · intro other hother hmap
      injection hother with hother
      subst hother
      obtain ⟨entry, hentry, hcn⟩ := List.mem_map.mp hmap
      obtain ⟨hentry, hne⟩ := List.mem_filter.mp hentry
      have hleft := hmapped.getFd_entry (show (entry.1, entry.2) ∈ _ from hentry)
      have hright := hmapped.getFd_entry hmem
      rw [hcn, hright, Option.some.injEq] at hleft
      exact of_decide_eq_true hne hleft.symm
    · simp
  · exact hmapped.goOn (List.Subset.refl _) (fun _ hother => by cases hother) (by simp)

/-- The connection gets the descriptor that `accept` has returned. -/
theorem Mapped.give {cn : ℕ} {opening : Opening} (hcfd : state.mFd .cfd = some opening)
    (hnew : cn ∉ state.mConnections ++ state.accepted) (htask : state.task = .emplacing) :
    Mapped (state.give cn opening) where
  howned := by
    apply hmapped.howned.give hcfd
    rcases hmapped.howned.hopen hcfd with hopen | ⟨⟨s, _, hs⟩, _⟩
    · exact hopen
    · cases hs
  hentries entry hentry := by
    obtain ⟨haccepted, serial, hfd⟩ := hmapped.hentries entry hentry
    refine ⟨List.mem_append_left _ haccepted, serial, ?_⟩
    have hne : entry.2 ≠ cn := by
      rintro rfl
      exact hnew (List.mem_append_right _ haccepted)
    have hheld : Function.update state.mFd .cfd none (.connection entry.2) =
        some ⟨entry.1, serial⟩ := (Function.update_of_ne (by simp) _ _).trans hfd
    exact (Function.update_of_ne (by simpa using hne) _ _).trans hheld
  haccepted other hother := by
    rcases List.mem_append.mp hother with hother | hother
    · exact hmapped.haccepted other hother
    · rw [List.mem_singleton.mp hother]
      exact fun hmem => hnew (List.mem_append_left _ hmem)
  hfound other hother := by
    rw [State.give, htask] at hother
    cases hother
  hrunning := hmapped.hrunning

/-- `cfd` is closed, and nothing is stored. -/
theorem Mapped.refuse (refusal : Refusal) : Mapped (state.refuse refusal) := by
  have hclosed : Mapped { state.unsafeDisconnect .cfd with task := .idle } :=
    (hmapped.unsafeDisconnect fun entry _ hentry => by cases hentry).goOn
      (List.Subset.refl _) (fun _ hother => by cases hother) (by simp)
  cases refusal with
  | nonBlockingFails | addFails | newFails => exact hclosed

theorem Mapped.store {cn : ℕ} {opening : Opening} (hcfd : state.mFd .cfd = some opening)
    (hnew : cn ∉ state.mConnections ++ state.accepted) (htask : state.task = .emplacing)
    (allocates : Bool) : Mapped (state.store cn opening allocates) := by
  have hfresh : ∀ entry ∈ state.mInternalConnections, entry.2 ≠ cn := by
    rintro entry hentry rfl
    exact hnew (List.mem_append_right _ (hmapped.hentries entry hentry).1)
  have hgiven := hmapped.give hcfd hnew htask
  cases allocates with
  | false =>
      have hdestroyed : Mapped ((state.give cn opening).unsafeDisconnect (.connection cn)) := by
        apply hgiven.unsafeDisconnect
        intro entry hentry hcn
        injection hcn with hcn
        exact hfresh entry hentry hcn.symm
      exact hdestroyed.goOn (List.Subset.refl _) (fun _ hother => by cases hother) (by simp)
  | true =>
      refine ⟨hgiven.howned, fun entry hentry => ?_, hgiven.haccepted,
        (fun _ hother => by cases hother), by simp [State.store]⟩
      have hmem : entry ∈ state.mInternalConnections ++ [(opening.fd, cn)] := by
        rw [State.store, if_pos rfl, State.emplace] at hentry
        split at hentry
        · exact List.mem_append_left _ hentry
        · exact hentry
      rcases List.mem_append.mp hmem with hbefore | hlast
      · exact hgiven.hentries entry hbefore
      · obtain rfl := List.mem_singleton.mp hlast
        refine ⟨List.mem_append_right _ List.mem_cons_self, opening.serial, ?_⟩
        exact Function.update_self _ _ _

/-- No step gives a descriptor a second owner. -/
theorem Mapped.step {action : Action} {next : State} (hsafe : OwnerSafe state action)
    (hnext : step state action = some next) : Mapped next := by
  obtain ⟨halone, howner⟩ := hsafe
  cases branch_of_step hnext with
  | connectServer hready => exact hmapped.opened hready.2 howner fun cn _ hcn => by cases hcn
  | connect hready =>
      refine hmapped.opened hready.2 howner fun other hother hsame => ?_
      injection hsame with hsame
      subst hsame
      exact hmapped.haccepted _ hother hready.1
  | tell hready => exact hmapped.tell _
  | disconnect hknown => exact hmapped.disconnect howner
  | getConnection hidle =>
      exact hmapped.goOn (List.Subset.refl _) (fun _ hother => by cases hother) (by simp)
  | gotConnection hlooking =>
      exact hmapped.goOn (List.Subset.refl _) (fun _ hother => by cases hother) (by simp)
  | closeServer hidle => exact hmapped.closeServer _
  | closeConnection hidle => exact hmapped.findConnection _
  | eraseConnection hsearching => exact hmapped.eraseConnection _
  | @safeDisconnect cn hfound =>
      have hclosed : Mapped (state.unsafeDisconnect (.connection cn)) := by
        apply hmapped.unsafeDisconnect
        intro entry hentry hcn
        injection hcn with hcn
        exact hmapped.hfound cn hfound (List.mem_map.mpr ⟨entry, hentry, hcn.symm⟩)
      exact hclosed.goOn (List.Subset.refl _) (fun _ hother => by cases hother) (by simp)
  | @accept s fd hready =>
      have hopened : Mapped (state.opened .cfd fd) :=
        hmapped.opened hready.2.2.2 howner fun cn _ hcn => by cases hcn
      exact hopened.goOn (List.Subset.refl _) (fun _ hother => by cases hother) (by simp)
  | refuse haccepted => exact hmapped.refuse _
  | emplace haccepted =>
      exact hmapped.goOn (List.Subset.refl _) (fun _ hother => by cases hother) (by simp)
  | store hemplacing hcfd hnew => exact hmapped.store hcfd hnew hemplacing _
  | @handle opening hhandling =>
      exact ⟨hmapped.howned.again (howner opening hhandling), hmapped.hentries, hmapped.haccepted,
        (fun _ hother => by cases hother), by simp⟩
  | stop hidle => exact absurd howner id
  | erases hstopping hnothing => exact absurd hstopping (hmapped.hrunning.2 _)
  | closeNext hstopping hattached => exact absurd hstopping (hmapped.hrunning.2 _)
  | clear hstopping => exact absurd hstopping (hmapped.hrunning.2 _)
  | run hended => exact absurd hended hmapped.hrunning.1
  | detach hready => exact absurd hready.1 hmapped.hrunning.1
  | attach hready => exact absurd hready.1 hmapped.hrunning.1
  | @destroyServer s hdetached =>
      have hclosed : Mapped (state.unsafeDisconnect (.server s)) :=
        hmapped.unsafeDisconnect fun entry _ hentry => by cases hentry
      exact ⟨hclosed.howned, hclosed.hentries, hclosed.haccepted, hclosed.hfound,
        hclosed.hrunning⟩
  | destroy hready => exact absurd hready.1 hmapped.hrunning.1
  | release hstays hgone =>
      apply hmapped.unsafeDisconnect
      intro entry hentry hcn
      injection hcn with hcn
      exact hgone.2.1 (List.mem_map.mpr ⟨entry, hentry, hcn.symm⟩)
  | races hshared => exact absurd halone hshared

end Mapped

/-- What could come of a race, in runs without one. -/
def nothing : State :=
  .start [] []

/-- Two servers are connected, a client of the first is accepted and leaves, and
the next one gets its number. -/
def recycled : List Action :=
  [.connect (.server 0) 3, .connect (.server 1) 4, .connect (.connection 7) 5, .accept 0 6,
    .emplace, .store 0 true nothing, .closeConnection 6, .eraseConnection nothing,
    .safeDisconnect, .accept 1 6, .emplace, .store 1 true nothing]

/-- When a step closes nothing twice: `close_server` finds no server, `emplace`
throws no exception, and the listener stops with an empty map or with something
attached. -/
def State.ClosesOnce (state : State) : Action → Prop
  | .closeServer fd => state.isServer fd = false
  | .store _ allocates _ => allocates = true
  | .stop => state.mInternalConnections = [] ∨ state.mConnections ≠ []
  | _ => True

instance (state : State) : (action : Action) → Decidable (state.ClosesOnce action)
  | .closeServer fd => inferInstanceAs (Decidable (state.isServer fd = false))
  | .store _ allocates _ => inferInstanceAs (Decidable (allocates = true))
  | .stop => inferInstanceAs (Decidable (_ ∨ _))
  | .connect _ _ => .isTrue trivial
  | .tell _ => .isTrue trivial
  | .disconnect _ _ => .isTrue trivial
  | .getConnection => .isTrue trivial
  | .gotConnection => .isTrue trivial
  | .closeConnection _ => .isTrue trivial
  | .eraseConnection _ => .isTrue trivial
  | .safeDisconnect => .isTrue trivial
  | .accept _ _ => .isTrue trivial
  | .refuse _ => .isTrue trivial
  | .emplace => .isTrue trivial
  | .handle => .isTrue trivial
  | .closeNext _ => .isTrue trivial
  | .clear _ => .isTrue trivial
  | .run => .isTrue trivial
  | .detach _ => .isTrue trivial
  | .attach _ => .isTrue trivial
  | .destroy _ => .isTrue trivial

/-- When a step is safe for what it closes: the map is changed while no other
thread is in it, too. -/
def CloseSafe (state : State) (action : Action) : Prop :=
  state.Alone action ∧ state.ClosesOnce action

instance (state : State) (action : Action) : Decidable (CloseSafe state action) :=
  inferInstanceAs (Decidable (_ ∧ _))

structure Ledgered (state : State) : Prop where
  hledger : Ledger state.table state.mFd
  hhandling : ∀ opening, state.task ≠ .handling opening
  hstopping : ∀ cn todo, state.task = .stopping (cn :: todo) → state.mConnections ≠ []

theorem State.closeServer_of_not_isServer {state : State} {fd : ℕ}
    (hserver : state.isServer fd = false) : state.closeServer fd = state := by
  rw [closeServer]
  split
  · rfl
  · rename_i opening hfind
    obtain ⟨s, hs, hopening⟩ := List.exists_of_findSome?_eq_some hfind
    obtain ⟨hheld, hfd⟩ := Option.filter_eq_some_iff.mp hopening
    have hnot := List.any_eq_false.mp hserver s hs
    rw [getFd, hheld, Option.map_some, beq_iff_eq.mp hfd] at hnot
    exact absurd (beq_self_eq_true _) hnot

/-- The listener goes to a place where it has nothing to close. -/
theorem Ledgered.of_ledger {next : State} (hledger : Ledger next.table next.mFd)
    (hhandling : ∀ opening, next.task ≠ .handling opening)
    (hstopping : ∀ cn todo, next.task ≠ .stopping (cn :: todo)) : Ledgered next :=
  ⟨hledger, hhandling, fun cn todo hstops => absurd hstops (hstopping cn todo)⟩

section Ledgered

variable {state : State} (hledgered : Ledgered state)

include hledgered

/-- The holders and the table change, and the listener goes on. -/
theorem Ledgered.goOn {next : State} (hledger : Ledger next.table next.mFd)
    (htask : next.task = state.task ∨
      (∀ opening, next.task ≠ .handling opening) ∧ ∀ cn todo, next.task ≠ .stopping (cn :: todo))
    (hconnections : next.mConnections = state.mConnections ∨ next.task = .ended) :
    Ledgered next := by
  refine ⟨hledger, fun opening hopening => ?_, fun cn todo hstopping => ?_⟩
  · rcases htask with hsame | ⟨hhandling, _⟩
    · exact hledgered.hhandling opening (hsame ▸ hopening)
    · exact hhandling opening hopening
  · rcases htask with hsame | ⟨_, hstops⟩
    · rcases hconnections with hconnections | hended
      · rw [hconnections]
        exact hledgered.hstopping cn todo (hsame ▸ hstopping)
      · cases hended.symm.trans hstopping
    · exact absurd hstopping (hstops cn todo)

theorem Ledgered.unsafeDisconnect (holder : Holder) :
    Ledger (state.unsafeDisconnect holder).table (state.unsafeDisconnect holder).mFd ∧
      (state.unsafeDisconnect holder).task = state.task ∧
      (state.unsafeDisconnect holder).mConnections = state.mConnections := by
  rw [State.unsafeDisconnect]
  split
  · exact ⟨hledgered.hledger, rfl, rfl⟩
  · rename_i opening hopening
    exact ⟨hledgered.hledger.close hopening, rfl, rfl⟩

theorem Ledgered.disconnect (holder : Holder) :
    Ledger (state.disconnect holder).table (state.disconnect holder).mFd ∧
      (state.disconnect holder).task = state.task ∧
      (state.disconnect holder).mConnections = state.mConnections := by
  cases holder with
  | server s =>
      rw [State.disconnect]
      split
      · exact ⟨hledgered.hledger, rfl, rfl⟩
      · exact hledgered.unsafeDisconnect (.server s)
  | cfd => exact ⟨hledgered.hledger, rfl, rfl⟩
  | connection cn =>
      have htold : Ledgered (state.tellDisconnected cn) :=
        ⟨hledgered.hledger, hledgered.hhandling, hledgered.hstopping⟩
      exact htold.unsafeDisconnect (.connection cn)

/-- No step closes an opening a second time. -/
theorem Ledgered.step {action : Action} {next : State} (hsafe : CloseSafe state action)
    (hnext : step state action = some next) : Ledgered next := by
  obtain ⟨halone, honce⟩ := hsafe
  cases branch_of_step hnext with
  | connectServer hready =>
      exact hledgered.goOn (hledgered.hledger.opened hready.2 _) (.inl rfl) (.inl rfl)
  | connect hready =>
      exact hledgered.goOn (hledgered.hledger.opened hready.2 _) (.inl rfl) (.inl rfl)
  | tell hready => exact hledgered.goOn hledgered.hledger (.inl rfl) (.inl rfl)
  | @disconnect holder _ hknown =>
      obtain ⟨hledger, htask, hconnections⟩ := hledgered.disconnect holder
      exact hledgered.goOn hledger (.inl htask) (.inl hconnections)
  | getConnection hidle => exact .of_ledger hledgered.hledger nofun nofun
  | gotConnection hlooking => exact .of_ledger hledgered.hledger nofun nofun
  | closeServer hidle =>
      rw [State.closeServer_of_not_isServer honce]
      exact hledgered
  | closeConnection hidle =>
      rw [State.findConnection]
      split
      · exact .of_ledger hledgered.hledger nofun nofun
      · exact .of_ledger hledgered.hledger nofun nofun
  | eraseConnection hsearching =>
      rw [State.eraseConnection]
      split
      · exact .of_ledger hledgered.hledger nofun nofun
      · exact .of_ledger hledgered.hledger nofun nofun
  | @safeDisconnect cn hfound =>
      exact .of_ledger (hledgered.unsafeDisconnect (.connection cn)).1 nofun nofun
  | accept hready =>
      exact .of_ledger (hledgered.hledger.opened hready.2.2.2 _) nofun nofun
  | @refuse refusal haccepted =>
      have hledger := (hledgered.unsafeDisconnect .cfd).1
      cases refusal with
      | nonBlockingFails | addFails | newFails => exact .of_ledger hledger nofun nofun
  | emplace haccepted => exact .of_ledger hledgered.hledger nofun nofun
  | @store cn opening allocates _ hemplacing hcfd hnew =>
      obtain rfl : allocates = true := honce
      exact .of_ledger (hledgered.hledger.give hcfd _) nofun nofun
  | @handle opening hhandling => exact absurd hhandling (hledgered.hhandling opening)
  | stop hidle =>
      refine ⟨hledgered.hledger, (fun opening hopening => by cases hopening),
        fun cn todo htodo hnone => ?_⟩
      rcases honce with hempty | hattached
      · rw [hempty] at htodo
        cases htodo
      · exact hattached hnone
  | @erases cn todo _ hstopping hnothing =>
      exact absurd hnothing (hledgered.hstopping cn todo hstopping)
  | @closeNext cn todo _ hstopping hattached =>
      obtain ⟨hledger, _, hconnections⟩ := hledgered.disconnect (.connection cn)
      refine ⟨hledger, (fun opening hopening => by cases hopening), fun _ _ _ => ?_⟩
      exact hconnections.trans_ne hattached
  | clear hstopping => exact .of_ledger hledgered.hledger nofun nofun
  | run hended => exact .of_ledger hledgered.hledger nofun nofun
  | detach hready => exact hledgered.goOn hledgered.hledger (.inl rfl) (.inl rfl)
  | attach hready => exact hledgered.goOn hledgered.hledger (.inl rfl) (.inl rfl)
  | @destroyServer s hdetached =>
      obtain ⟨hledger, htask, hconnections⟩ := hledgered.unsafeDisconnect (.server s)
      exact hledgered.goOn hledger (.inl htask) (.inl hconnections)
  | @destroy cn hready =>
      obtain ⟨hledger, htask, _⟩ := hledgered.unsafeDisconnect (.connection cn)
      exact hledgered.goOn hledger (.inl htask) (.inr (htask.trans hready.1))
  | @release cn hstays hgone =>
      obtain ⟨hledger, htask, hconnections⟩ := hledgered.unsafeDisconnect (.connection cn)
      exact hledgered.goOn hledger (.inl htask) (.inl hconnections)
  | races hshared => exact absurd halone hshared

end Ledgered

end Sednl.Descriptors
