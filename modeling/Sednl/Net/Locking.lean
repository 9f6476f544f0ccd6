import Sednl.Library.Completion
import Sednl.Net.Attach
import Sednl.Net.Dispatch
import Sednl.Net.Outgoing

/-!
# The mutexes

Each server and each connection has a mutex `m_mutex`, taken by `disconnect`,
`send`, the accesses to user data and, for an instant, by `get_fd`.  The functions
of a listener call `get_fd` on what they search through, and `disconnect` calls back
into the listener while it holds the mutex.  The queues, the descriptors of the
consumers and the `m_running` flags have mutexes of their own.  Each function is a
program over all of these.

A mutex of a socket may be held when another is taken, never the other way round, so
that all calls come to their end.  A wait for a thread is not a wait for a mutex and
is left out; callbacks run with no mutex held, and what they call is an operation of
its own.
-/

namespace Sednl.Locking

open Sednl.Association
open Sednl.Locks
open Sednl.Ring
open Sednl.Tag
open Sednl.Transition
open Sednl.Dispatch (Links Queue Entry)
open Sednl.Outgoing (ulong)

inductive Socket where
  | server (n : ℕ)
  | connection (n : ℕ)
  deriving DecidableEq, Repr

inductive UserDataType where
  | none
  | string
  | int
  | char
  | float
  | double
  | ptr
  deriving DecidableEq, Repr

inductive Flag where
  | listener (n : ℕ)
  | consumer (n : ℕ)
  deriving DecidableEq, Repr

inductive Mutex where
  | socket (socket : Socket)
  | queue (listener : ℕ) (queue : Queue)
  | descriptor (consumer : ℕ)
  | running (flag : Flag)
  deriving DecidableEq, Repr

/-- What the functions read and write: the lists of the listeners with the pointers
into them, the maps of the accepted connections, the queues and the fields of the
sockets; `mFd` is `none` for one that is not connected. -/
structure World where
  servers : Roster ℕ ℕ
  connections : Roster ℕ ℕ
  consumers : Roster ℕ ℕ
  mInternalConnections : ℕ → List (ℕ × ℕ)
  mFd : Socket → Option ℕ
  mDataType : ℕ → UserDataType
  mRunning : Flag → Bool
  queue : ℕ → Queue → List Entry
  mMaxQueueSize : ℕ → ℕ
  links : ℕ → Links
  wakeUp : ℕ → Bool

/-- The reads that are told apart: that of `m_listener` in `TCPServer::disconnect`,
and all others. -/
inductive Read where
  | serverListener (server : ℕ)
  | other
  deriving DecidableEq, Repr

abbrev Code : Type :=
  Program World Mutex Read

/-! ## Flags, queues and descriptors -/

/-- `SafeType::operator T`. -/
def readRunning (flag : Flag) (rest : Bool → Code) : Code :=
  .lock (.running flag)
    (.read .other fun world => .unlock (.running flag) (rest (world.mRunning flag)))

/-- `SafeType::operator=`. -/
def setRunning (flag : Flag) (value : Bool) (rest : Code) : Code :=
  .lock (.running flag)
    (.write (fun world => { world with mRunning := Function.update world.mRunning flag value })
      (.unlock (.running flag) rest))

def World.setQueue (world : World) (listener : ℕ) (queue : Queue) (entries : List Entry) : World :=
  { world with
    queue := Function.update world.queue listener
      (Function.update (world.queue listener) queue entries) }

def size (listener : ℕ) (queue : Queue) (rest : ℕ → Code) : Code :=
  .lock (.queue listener queue) (.read .other fun world =>
    .unlock (.queue listener queue) (rest (world.queue listener queue).length))

/-- `SafeQueue::push`; it returns `false` where it cannot allocate. -/
def push (listener : ℕ) (queue : Queue) (entry : Entry) (allocates : Bool)
    (rest : Bool → Code) : Code :=
  .lock (.queue listener queue)
    (.write (fun world =>
        if allocates then world.setQueue listener queue (world.queue listener queue ++ [entry])
        else world)
      (.unlock (.queue listener queue) (rest allocates)))

/-- `SafeQueue::pop`; it returns `false`, with the entry still queued, where the
copy throws. -/
def pop (listener : ℕ) (queue : Queue) (allocates : Bool) (rest : Option Entry → Code) : Code :=
  .lock (.queue listener queue) (.read .other fun world =>
    match world.queue listener queue with
    | [] => .unlock (.queue listener queue) (rest none)
    | entry :: entries =>
        if allocates then
          .write (fun world => world.setQueue listener queue entries)
            (.unlock (.queue listener queue) (rest (some entry)))
        else .unlock (.queue listener queue) (rest none))

/-- `is_full`; the size is not asked for where there is no bound. -/
def isFull (listener : ℕ) (queue : Queue) (rest : Bool → Code) : Code :=
  .read .other fun world =>
    if 0 < world.mMaxQueueSize listener then
      size listener queue fun count => rest (world.mMaxQueueSize listener < count)
    else rest false

def notify (link : Option ℕ) (rest : Code) : Code :=
  match link with
  | none => rest
  | some consumer =>
      .lock (.descriptor consumer)
        (.write (fun world => { world with wakeUp := Function.update world.wakeUp consumer true })
          (.unlock (.descriptor consumer) rest))

def disconnectedEvent (listener : ℕ) (queue : Queue) (entry : Entry) (allocates : Bool)
    (rest : Code) : Code :=
  isFull listener queue fun full =>
    if full then rest else push listener queue entry allocates fun _ => rest

/-! ## Sockets -/

def getFd (socket : Socket) (rest : Option ℕ → Code) : Code :=
  .lock (.socket socket)
    (.read .other fun world => .unlock (.socket socket) (rest (world.mFd socket)))

def unsafeDisconnect (socket : Socket) (rest : Code) : Code :=
  .write (fun world => { world with mFd := Function.update world.mFd socket none }) rest

def safeDisconnect (socket : Socket) (rest : Code) : Code :=
  .lock (.socket socket) (unsafeDisconnect socket (.unlock (.socket socket) rest))

def World.eraseInternal (world : World) (listener : ℕ) (found : ℕ × ℕ → Bool) : World :=
  { world with
    mInternalConnections := Function.update world.mInternalConnections listener
      ((world.mInternalConnections listener).eraseP found) }

/-- `EventListener::tell_disconnected(Connection*)`: it looks through the accepted
connections only if none is attached, and wakes nobody. -/
def tellDisconnected (listener cn : ℕ) (allocates : Bool) (rest : Code) : Code :=
  .read .other fun world =>
    if world.connections.members listener ≠ [] then
      if cn ∈ world.connections.members listener then
        disconnectedEvent listener .disconnected (.connection cn) allocates rest
      else rest
    else if (world.mInternalConnections listener).any (·.2 = cn) then
      .write (fun world => world.eraseInternal listener (·.2 = cn))
        (disconnectedEvent listener .disconnected (.connection cn) allocates rest)
    else rest

/-- `EventListener::tell_disconnected(TCPServer*)`: it calls `get_fd`. -/
def tellServerDisconnected (listener server : ℕ) (allocates : Bool) (rest : Code) : Code :=
  getFd (.server server) fun _ =>
    disconnectedEvent listener .serverDisconnected (.server server) allocates
      (.read .other fun world => notify (world.links listener).onServerDisconnect rest)

def disconnectConnection (cn : ℕ) (allocates : Bool) (rest : Code) : Code :=
  .lock (.socket (.connection cn)) (.read .other fun world =>
    match world.connections.owner cn with
    | none => unsafeDisconnect (.connection cn) (.unlock (.socket (.connection cn)) rest)
    | some listener =>
        tellDisconnected listener cn allocates
          (unsafeDisconnect (.connection cn) (.unlock (.socket (.connection cn)) rest)))

def disconnectServer (server : ℕ) (allocates : Bool) (rest : Code) : Code :=
  .lock (.socket (.server server)) (.read (.serverListener server) fun world =>
    match world.servers.owner server with
    | none => unsafeDisconnect (.server server) (.unlock (.socket (.server server)) rest)
    | some listener =>
        tellServerDisconnected listener server allocates
          (unsafeDisconnect (.server server) (.unlock (.socket (.server server)) rest)))

/-- The loop of `Connection::send` over `size` bytes ends with the last of the
results of `::send`: `count` is the size, or the result is 0. -/
def loopEnds (size : ℕ) : ℕ → List ℤ → Bool
  | count, [] => size = count
  | count, result :: results =>
      size ≠ count &&
        if 0 < ulong result then loopEnds size ((count + ulong result) % 2 ^ 64) results
        else results.isEmpty

/-- What a call of `Connection::send` puts, and what `::send` returns to it. -/
structure Sending where
  size : ℕ
  results : List ℤ

/-- Each round of the loop is a call of `::send` with the mutex held.  A call whose
loop goes on for ever has, at each moment, done what one with more results does. -/
def sendLoop (rest : Code) : List ℤ → Code
  | [] => rest
  | _ :: results => .read .other fun _ => sendLoop rest results

/-- `Connection::send`, whether it throws at its end or not. -/
def send (cn : ℕ) (sending : Sending) : Code :=
  .lock (.socket (.connection cn))
    (sendLoop (.unlock (.socket (.connection cn)) .done) sending.results)

/-- `Connection::get_user_data`, of any type: whether it throws or not it does no
more than read. -/
def getUserData (cn : ℕ) : Code :=
  .lock (.socket (.connection cn))
    (.read .other fun _ => .unlock (.socket (.connection cn)) .done)

/-- `Connection::set_user_data`, for data of one type. -/
def setUserData (cn : ℕ) (type : UserDataType) : Code :=
  .lock (.socket (.connection cn)) (.read .other fun world =>
    if world.mDataType cn ≠ .none ∧ world.mDataType cn ≠ type then
      .unlock (.socket (.connection cn)) .done
    else
      .write (fun world => { world with mDataType := Function.update world.mDataType cn type })
        (.unlock (.socket (.connection cn)) .done))

def releaseUserData (cn : ℕ) : Code :=
  .lock (.socket (.connection cn))
    (.write (fun world => { world with mDataType := Function.update world.mDataType cn .none })
      (.unlock (.socket (.connection cn)) .done))

/-! ## The event loop -/

/-- A search through a list of servers or of connections for a descriptor. -/
def search (socket : ℕ → Socket) (fd : ℕ) (rest : Option ℕ → Code) : List ℕ → Code
  | [] => rest none
  | n :: ns =>
      getFd (socket n) fun found =>
        if found = some fd then rest (some n) else search socket fd rest ns

def isServer (listener fd : ℕ) (rest : Bool → Code) : Code :=
  .read .other fun world =>
    search .server fd (fun found => rest found.isSome) (world.servers.members listener)

def closeServer (listener fd : ℕ) (allocates : Bool) (rest : Code) : Code :=
  .read .other fun world =>
    search .server fd
      (fun found =>
        match found with
        | none => rest
        | some server => tellServerDisconnected listener server allocates rest)
      (world.servers.members listener)

def getConnection (listener fd : ℕ) (rest : Option ℕ → Code) : Code :=
  .read .other fun world =>
    search .connection fd
      (fun found =>
        match found with
        | none =>
            .read .other fun world => rest ((world.mInternalConnections listener).lookup fd)
        | some cn => rest (some cn))
      (world.connections.members listener)

/-- The end of `close_connection`. -/
def closeFound (listener cn : ℕ) (allocates : Bool) (rest : Code) : Code :=
  safeDisconnect (.connection cn)
    (getFd (.connection cn) fun _ =>
      disconnectedEvent listener .disconnected (.connection cn) allocates
        (.read .other fun world => notify (world.links listener).onDisconnect rest))

def closeConnection (listener fd : ℕ) (allocates : Bool) (rest : Code) : Code :=
  .read .other fun world =>
    search .connection fd
      (fun found =>
        match found with
        | none =>
            .read .other fun world =>
              match (world.mInternalConnections listener).lookup fd with
              | none => rest
              | some cn =>
                  .write (fun world => world.eraseInternal listener (·.1 = fd))
                    (closeFound listener cn allocates rest)
        | some cn => closeFound listener cn allocates rest)
      (world.connections.members listener)

/-- `accept_connections`, for one connection: it is not shared yet, and no mutex
is taken. -/
def acceptConnection (listener cn fd : ℕ) : Code :=
  .write (fun world => { world with
    connections := world.connections.setOwner cn (some listener)
    mFd := Function.update world.mFd (.connection cn) (some fd)
    mInternalConnections := Function.update world.mInternalConnections listener
      ((fd, cn) :: world.mInternalConnections listener) }) .done

/-- The loop of `read_connection` over what `pick_event` gives. -/
def pushEvents (listener cn : ℕ) (rest : Code) : List (Event × Bool) → Code
  | [] => rest
  | (event, allocates) :: events =>
      isFull listener (.event event.name) fun full =>
        if full then pushEvents listener cn rest events
        else
          push listener (.event event.name) (.event ⟨cn, event⟩) allocates fun pushed =>
            if pushed then
              .read .other fun world =>
                notify ((world.links listener).notified event.name)
                  (pushEvents listener cn rest events)
            else pushEvents listener cn rest events

/-- `read_connection`, with the events its buffer gives; `closes` says that `recv`
fails or finds the end. -/
def readConnection (listener fd : ℕ) (events : List (Event × Bool)) (closes allocates : Bool) :
    Code :=
  getConnection listener fd fun found =>
    match found with
    | none => .done
    | some cn =>
        pushEvents listener cn
          (if closes then closeConnection listener fd allocates .done else .done) events

/-- An event of the poller; `read` says what `accept` gives, or `recv`. -/
inductive PollerEvent where
  | close
  | read (cn cfd : ℕ) (events : List (Event × Bool)) (closes : Bool)
  deriving DecidableEq, Repr

/-- What the event loop does with an event. -/
def handle (listener fd : ℕ) (allocates : Bool) : PollerEvent → Code
  | .close =>
      isServer listener fd fun server =>
        if server then closeServer listener fd allocates .done
        else closeConnection listener fd allocates .done
  | .read cn cfd events closes =>
      isServer listener fd fun server =>
        if server then acceptConnection listener cn cfd
        else readConnection listener fd events closes allocates

/-! ## Consumers -/

/-- `EventConsumer::join`, up to the join of its thread. -/
def joinConsumer (c : ℕ) (rest : Code) : Code :=
  readRunning (.consumer c) fun running =>
    if running then setRunning (.consumer c) false rest else rest

/-- `EventConsumer::run`, up to the start of its thread. -/
def runConsumer (c : ℕ) : Code :=
  readRunning (.consumer c) fun running =>
    if running then .done else setRunning (.consumer c) true .done

/-- `m_producer->remove_consumer(this)` and `m_producer = nullptr`; what
`remove_consumer` throws ends the program. -/
def leave (c : ℕ) (rest : Code) : Code :=
  .read .other fun world =>
    match world.consumers.owner c with
    | none => rest
    | some producer =>
        readRunning (.listener producer) fun running =>
          if running then .done
          else .write (fun world => { world with
            consumers := (world.consumers.setMembers producer
              ((world.consumers.members producer).erase c)).setOwner c none }) rest

/-- `producer.add_consumer(this)` and `m_producer = &producer`. -/
def enter (c producer : ℕ) : Code :=
  readRunning (.listener producer) fun running =>
    if running then .done
    else .write (fun world => { world with
      consumers := (world.consumers.setMembers producer
        (if c ∈ world.consumers.members producer then world.consumers.members producer
          else world.consumers.members producer ++ [c])).setOwner c (some producer) }) .done

def removeProducer (c : ℕ) : Code :=
  readRunning (.consumer c) fun running => if running then .done else leave c .done

def setProducer (c producer : ℕ) : Code :=
  readRunning (.consumer c) fun running => if running then .done else leave c (enter c producer)

/-- `cv.wait_for` with `wake_up` as its predicate, called with the mutex held: it
is released while the thread waits.  `wakes` counts how often the wait returns, by
a notification or for no reason, before the last time. -/
def waitFor (c : ℕ) (rest : Bool → Code) : ℕ → Code
  | 0 => .read .other fun world => rest (world.wakeUp c)
  | wakes + 1 =>
      .read .other fun world =>
        if world.wakeUp c then rest true
        else .unlock (.descriptor c) (.lock (.descriptor c) (waitFor c rest wakes))

/-- One round of the loop of `EventConsumer::run_imp`, up to `consume_events`. -/
def round (c wakes : ℕ) : Code :=
  readRunning (.consumer c) fun running =>
    if running then
      .lock (.descriptor c) (waitFor c
        (fun woken =>
          if woken then
            .write (fun world => { world with wakeUp := Function.update world.wakeUp c false })
              (.unlock (.descriptor c) .done)
          else .unlock (.descriptor c) .done) wakes)
    else .done

/-! ## Listeners -/

/-- The loop over the map at the end of `run_imp`. -/
def disconnectAll (allocates : Bool) (rest : Code) : List ℕ → Code
  | [] => rest
  | cn :: cns => disconnectConnection cn allocates (disconnectAll allocates rest cns)

/-- The loop over the consumers at the end of `run_imp`. -/
def joinAll (rest : Code) : List ℕ → Code
  | [] => rest
  | c :: cs => joinConsumer c (joinAll rest cs)

/-- The end of `EventListener::run_imp`. -/
def shutdown (listener : ℕ) (allocates : Bool) : Code :=
  .read .other fun world =>
    disconnectAll allocates
      (.read .other fun world =>
        joinAll
          (.write (fun world => { world with
            mInternalConnections := Function.update world.mInternalConnections listener []
            links := Function.update world.links listener .clear }) .done)
          (world.consumers.members listener))
      ((world.mInternalConnections listener).map Prod.snd)

/-- `EventListener::run`, up to the start of its thread; `links` is what `run_init`
leaves, if it does not throw. -/
def runListener (listener : ℕ) (links : Option Links) : Code :=
  readRunning (.listener listener) fun running =>
    if running then .done
    else
      match links with
      | none => .done
      | some links =>
          .write (fun world => { world with links := Function.update world.links listener links })
            (setRunning (.listener listener) true .done)

/-- `EventListener::join`, up to the join of its thread. -/
def joinListener (listener : ℕ) : Code :=
  readRunning (.listener listener) fun running =>
    if running then setRunning (.listener listener) false .done else .done

/-- A change that a listener refuses while it runs. -/
def unlessRunning (listener : ℕ) (effect : World → World) : Code :=
  readRunning (.listener listener) fun running =>
    if running then .done else .write effect .done

inductive Operation where
  | disconnectConnection (cn : ℕ) (allocates : Bool)
  | disconnectServer (server : ℕ) (allocates : Bool)
  | safeDisconnect (socket : Socket)
  | send (cn : ℕ) (sending : Sending)
  | setUserData (cn : ℕ) (type : UserDataType)
  | getUserData (cn : ℕ)
  | releaseUserData (cn : ℕ)
  | connect (socket : Socket) (fd : ℕ)
  | attachServer (listener server : ℕ) (allocates : Bool)
  | attachConnection (listener cn : ℕ) (allocates : Bool)
  | detachServer (listener server : ℕ)
  | detachConnection (listener cn : ℕ)
  | runListener (listener : ℕ) (links : Option Links)
  | joinListener (listener : ℕ)
  | loop (listener : ℕ)
  | isServer (listener fd : ℕ)
  | getConnection (listener fd : ℕ)
  | closeServer (listener fd : ℕ) (allocates : Bool)
  | closeConnection (listener fd : ℕ) (allocates : Bool)
  | handle (listener fd : ℕ) (allocates : Bool) (event : PollerEvent)
  | shutdown (listener : ℕ) (allocates : Bool)
  | setProducer (c producer : ℕ)
  | removeProducer (c : ℕ)
  | runConsumer (c : ℕ)
  | joinConsumer (c : ℕ)
  | round (c wakes : ℕ)
  | pop (listener : ℕ) (queue : Queue) (allocates : Bool)

def program : Operation → Code
  | .disconnectConnection cn allocates => Locking.disconnectConnection cn allocates .done
  | .disconnectServer server allocates => Locking.disconnectServer server allocates .done
  | .safeDisconnect socket => Locking.safeDisconnect socket .done
  | .send cn sending => Locking.send cn sending
  | .setUserData cn type => Locking.setUserData cn type
  | .getUserData cn => Locking.getUserData cn
  | .releaseUserData cn => Locking.releaseUserData cn
  | .connect socket fd =>
      .write (fun world => { world with
        mFd := Function.update world.mFd socket (some fd) }) .done
  | .attachServer listener server allocates =>
      unlessRunning listener fun world => { world with
        servers := (Attach.attach false world.servers listener server allocates).2 }
  | .attachConnection listener cn allocates =>
      unlessRunning listener fun world => { world with
        connections := (Attach.attach false world.connections listener cn allocates).2 }
  | .detachServer listener server =>
      unlessRunning listener fun world => { world with
        servers := (Attach.detach false world.servers listener server).2 }
  | .detachConnection listener cn =>
      unlessRunning listener fun world => { world with
        connections := (Attach.detach false world.connections listener cn).2 }
  | .runListener listener links => Locking.runListener listener links
  | .joinListener listener => Locking.joinListener listener
  | .loop listener => readRunning (.listener listener) fun _ => .done
  | .isServer listener fd => Locking.isServer listener fd fun _ => .done
  | .getConnection listener fd => Locking.getConnection listener fd fun _ => .done
  | .closeServer listener fd allocates => Locking.closeServer listener fd allocates .done
  | .closeConnection listener fd allocates =>
      Locking.closeConnection listener fd allocates .done
  | .handle listener fd allocates event => Locking.handle listener fd allocates event
  | .shutdown listener allocates => Locking.shutdown listener allocates
  | .setProducer c producer => Locking.setProducer c producer
  | .removeProducer c => Locking.removeProducer c
  | .runConsumer c => Locking.runConsumer c
  | .joinConsumer c => Locking.joinConsumer c .done
  | .round c wakes => Locking.round c wakes
  | .pop listener queue allocates => Locking.pop listener queue allocates fun _ => .done

/-- `TCPServer::disconnect` finds that nothing listens to the server. -/
def Unattached : Read → World → Prop
  | .serverListener server, world => world.servers.owner server = none
  | .other, _ => True

instance : (name : Read) → (world : World) → Decidable (Unattached name world)
  | .serverListener server, world =>
      inferInstanceAs (Decidable (world.servers.owner server = none))
  | .other, _ => .isTrue trivial

/-- The mutexes of the sockets come first. -/
def rank : Mutex → ℕ
  | .socket _ => 0
  | .queue _ _ | .descriptor _ | .running _ => 1

/-- A program that takes the mutexes in order. -/
def Orderly (held : Set Mutex) (code : Code) : Prop :=
  code.Careful Unattached (Above rank) held

/-! ## The order is kept -/

section Orderly

/-- At most mutexes of sockets are held. -/
def Low (held : Set Mutex) : Prop :=
  ∀ other ∈ held, rank other = 0

theorem low_empty : Low ∅ :=
  fun _ hother => absurd hother (Set.notMem_empty _)

theorem low_socket (socket : Socket) : Low (insert (.socket socket) ∅) := by
  intro other hother
  rcases hother with rfl | hnone
  · rfl
  · cases hnone

variable {held : Set Mutex} {rest : Code}

theorem orderly_read {rest : World → Code} (hrest : ∀ world, Orderly held (rest world)) :
    Orderly held (.read .other rest) :=
  .read (fun _ => trivial) hrest

/-- A section of code under a mutex that is not of a socket. -/
theorem orderly_inner (hlow : Low held) {mutex : Mutex} (hrank : rank mutex = 1)
    (hrest : Orderly (insert mutex held) rest) : Orderly held (.lock mutex rest) := by
  refine ⟨fun other hother => ?_, hrest⟩
  rw [hlow other hother, hrank]
  exact Nat.zero_lt_one

theorem orderly_unlock (hlow : Low held) {mutex : Mutex} (hrank : rank mutex = 1)
    (hrest : Orderly held rest) : Orderly (insert mutex held) (.unlock mutex rest) := by
  refine Program.Careful.locked (fun hheld => ?_) hrest
  have hzero := hlow mutex hheld
  omega

theorem orderly_readRunning (hlow : Low held) (flag : Flag) {rest : Bool → Code}
    (hrest : ∀ running, Orderly held (rest running)) :
    Orderly held (readRunning flag rest) :=
  orderly_inner hlow rfl (orderly_read fun _ => orderly_unlock hlow rfl (hrest _))

theorem orderly_setRunning (hlow : Low held) (flag : Flag) (value : Bool)
    (hrest : Orderly held rest) : Orderly held (setRunning flag value rest) :=
  orderly_inner hlow rfl (orderly_unlock hlow rfl hrest)

theorem orderly_size (hlow : Low held) (listener : ℕ) (queue : Queue) {rest : ℕ → Code}
    (hrest : ∀ count, Orderly held (rest count)) : Orderly held (size listener queue rest) :=
  orderly_inner hlow rfl (orderly_read fun _ => orderly_unlock hlow rfl (hrest _))

theorem orderly_push (hlow : Low held) (listener : ℕ) (queue : Queue) (entry : Entry)
    (allocates : Bool) {rest : Bool → Code} (hrest : ∀ pushed, Orderly held (rest pushed)) :
    Orderly held (push listener queue entry allocates rest) :=
  orderly_inner hlow rfl (orderly_unlock hlow rfl (hrest allocates))

theorem orderly_pop (hlow : Low held) (listener : ℕ) (queue : Queue) (allocates : Bool)
    {rest : Option Entry → Code} (hrest : ∀ popped, Orderly held (rest popped)) :
    Orderly held (pop listener queue allocates rest) := by
  refine orderly_inner hlow rfl (orderly_read fun world => ?_)
  split
  · exact orderly_unlock hlow rfl (hrest none)
  · split
    · exact orderly_unlock hlow rfl (hrest _)
    · exact orderly_unlock hlow rfl (hrest none)

theorem orderly_sendLoop (hrest : Orderly held rest) (results : List ℤ) :
    Orderly held (sendLoop rest results) := by
  induction results with
  | nil => exact hrest
  | cons result results ih => exact orderly_read fun _ => ih

theorem orderly_isFull (hlow : Low held) (listener : ℕ) (queue : Queue) {rest : Bool → Code}
    (hrest : ∀ full, Orderly held (rest full)) : Orderly held (isFull listener queue rest) := by
  refine orderly_read fun world => ?_
  split
  · exact orderly_size hlow listener queue fun count => hrest _
  · exact hrest false

theorem orderly_notify (hlow : Low held) (link : Option ℕ) (hrest : Orderly held rest) :
    Orderly held (notify link rest) := by
  cases link with
  | none => exact hrest
  | some consumer => exact orderly_inner hlow rfl (orderly_unlock hlow rfl hrest)

theorem orderly_disconnectedEvent (hlow : Low held) (listener : ℕ) (queue : Queue)
    (entry : Entry) (allocates : Bool) (hrest : Orderly held rest) :
    Orderly held (disconnectedEvent listener queue entry allocates rest) := by
  refine orderly_isFull hlow listener queue fun full => ?_
  split
  · exact hrest
  · exact orderly_push hlow listener queue entry allocates fun _ => hrest

/-- The mutex of a socket is taken with none held. -/
theorem orderly_socket {socket : Socket} (hrest : Orderly (insert (.socket socket) ∅) rest) :
    Orderly ∅ (.lock (.socket socket) rest) :=
  ⟨fun _ hother => absurd hother (Set.notMem_empty _), hrest⟩

theorem orderly_unlockSocket {socket : Socket} (hrest : Orderly ∅ rest) :
    Orderly (insert (.socket socket) ∅) (.unlock (.socket socket) rest) :=
  .locked (Set.notMem_empty _) hrest

theorem orderly_done : Orderly ∅ .done :=
  rfl

theorem orderly_getFd (socket : Socket) {rest : Option ℕ → Code}
    (hrest : ∀ fd, Orderly ∅ (rest fd)) : Orderly ∅ (getFd socket rest) :=
  orderly_socket (orderly_read fun _ => orderly_unlockSocket (hrest _))

theorem orderly_safeDisconnect (socket : Socket) (hrest : Orderly ∅ rest) :
    Orderly ∅ (safeDisconnect socket rest) :=
  orderly_socket (orderly_unlockSocket hrest)

theorem orderly_tellDisconnected (hlow : Low held) (listener cn : ℕ) (allocates : Bool)
    (hrest : Orderly held rest) : Orderly held (tellDisconnected listener cn allocates rest) := by
  refine orderly_read fun world => ?_
  split
  · split
    · exact orderly_disconnectedEvent hlow _ _ _ _ hrest
    · exact hrest
  · split
    · exact orderly_disconnectedEvent hlow _ _ _ _ hrest
    · exact hrest

theorem orderly_tellServerDisconnected (listener server : ℕ) (allocates : Bool)
    (hrest : Orderly ∅ rest) :
    Orderly ∅ (tellServerDisconnected listener server allocates rest) := by
  refine orderly_getFd _ fun _ => orderly_disconnectedEvent low_empty _ _ _ _ ?_
  exact orderly_read fun _ => orderly_notify low_empty _ hrest

/-- `Connection::disconnect` comes to the queue with the mutex held. -/
theorem orderly_disconnectConnection (cn : ℕ) (allocates : Bool) (hrest : Orderly ∅ rest) :
    Orderly ∅ (disconnectConnection cn allocates rest) := by
  refine orderly_socket (orderly_read fun world => ?_)
  split
  · exact orderly_unlockSocket hrest
  · exact orderly_tellDisconnected (low_socket _) _ _ _ (orderly_unlockSocket hrest)

/-- `TCPServer::disconnect` is in order while nothing listens to the server;
otherwise its call back into the listener takes the mutex again. -/
theorem orderly_disconnectServer (server : ℕ) (allocates : Bool) (hrest : Orderly ∅ rest) :
    Orderly ∅ (disconnectServer server allocates rest) := by
  refine orderly_socket fun world => ⟨fun hunattached => ?_, fun hattached => ?_⟩
  · beta_reduce
    split
    · exact orderly_unlockSocket hrest
    · rename_i howner
      cases hunattached.symm.trans howner
  · beta_reduce
    split
    · rename_i howner
      exact absurd howner hattached
    · exact ⟨.socket (.server server), Set.mem_insert _ _, _, rfl⟩

theorem orderly_search (kind : ℕ → Socket) (fd : ℕ) {rest : Option ℕ → Code}
    (hrest : ∀ found, Orderly ∅ (rest found)) (ns : List ℕ) :
    Orderly ∅ (search kind fd rest ns) := by
  induction ns with
  | nil => exact hrest none
  | cons n ns ih =>
      refine orderly_getFd _ fun found => ?_
      split
      · exact hrest (some n)
      · exact ih

theorem orderly_isServer (listener fd : ℕ) {rest : Bool → Code}
    (hrest : ∀ server, Orderly ∅ (rest server)) : Orderly ∅ (isServer listener fd rest) :=
  orderly_read fun _ => orderly_search _ fd (fun _ => hrest _) _

theorem orderly_closeServer (listener fd : ℕ) (allocates : Bool) (hrest : Orderly ∅ rest) :
    Orderly ∅ (closeServer listener fd allocates rest) := by
  refine orderly_read fun _ => orderly_search _ fd (fun found => ?_) _
  cases found with
  | none => exact hrest
  | some server => exact orderly_tellServerDisconnected listener server allocates hrest

theorem orderly_getConnection (listener fd : ℕ) {rest : Option ℕ → Code}
    (hrest : ∀ found, Orderly ∅ (rest found)) : Orderly ∅ (getConnection listener fd rest) := by
  refine orderly_read fun _ => orderly_search _ fd (fun found => ?_) _
  cases found with
  | none => exact orderly_read fun _ => hrest _
  | some cn => exact hrest _

theorem orderly_closeFound (listener cn : ℕ) (allocates : Bool) (hrest : Orderly ∅ rest) :
    Orderly ∅ (closeFound listener cn allocates rest) := by
  refine orderly_safeDisconnect _ (orderly_getFd _ fun _ =>
    orderly_disconnectedEvent low_empty _ _ _ _ ?_)
  exact orderly_read fun _ => orderly_notify low_empty _ hrest

theorem orderly_closeConnection (listener fd : ℕ) (allocates : Bool) (hrest : Orderly ∅ rest) :
    Orderly ∅ (closeConnection listener fd allocates rest) := by
  refine orderly_read fun _ => orderly_search _ fd (fun found => ?_) _
  cases found with
  | none =>
      refine orderly_read fun world => ?_
      split
      · exact hrest
      · exact orderly_closeFound listener _ allocates hrest
  | some cn => exact orderly_closeFound listener cn allocates hrest

theorem orderly_pushEvents (listener cn : ℕ) (hrest : Orderly ∅ rest)
    (events : List (Event × Bool)) : Orderly ∅ (pushEvents listener cn rest events) := by
  induction events with
  | nil => exact hrest
  | cons offered events ih =>
      refine orderly_isFull low_empty _ _ fun full => ?_
      split
      · exact ih
      · refine orderly_push low_empty _ _ _ _ fun pushed => ?_
        split
        · exact orderly_read fun _ => orderly_notify low_empty _ ih
        · exact ih

theorem orderly_readConnection (listener fd : ℕ) (events : List (Event × Bool))
    (closes allocates : Bool) :
    Orderly ∅ (readConnection listener fd events closes allocates) := by
  refine orderly_getConnection listener fd fun found => ?_
  cases found with
  | none => exact orderly_done
  | some cn =>
      refine orderly_pushEvents listener cn ?_ events
      split
      · exact orderly_closeConnection listener fd allocates orderly_done
      · exact orderly_done

theorem orderly_handle (listener fd : ℕ) (allocates : Bool) (event : PollerEvent) :
    Orderly ∅ (handle listener fd allocates event) := by
  cases event with
  | close =>
      rw [handle]
      refine orderly_isServer listener fd fun server => ?_
      split
      · exact orderly_closeServer listener fd allocates orderly_done
      · exact orderly_closeConnection listener fd allocates orderly_done
  | read cn cfd events closes =>
      rw [handle]
      refine orderly_isServer listener fd fun server => ?_
      split
      · exact orderly_done
      · exact orderly_readConnection listener fd events closes allocates

theorem orderly_joinConsumer (c : ℕ) (hrest : Orderly ∅ rest) :
    Orderly ∅ (joinConsumer c rest) := by
  refine orderly_readRunning low_empty _ fun running => ?_
  split
  · exact orderly_setRunning low_empty _ _ hrest
  · exact hrest

theorem orderly_leave (c : ℕ) (hrest : Orderly ∅ rest) : Orderly ∅ (leave c rest) := by
  refine orderly_read fun world => ?_
  split
  · exact hrest
  · refine orderly_readRunning low_empty _ fun running => ?_
    split
    · exact orderly_done
    · exact hrest

theorem orderly_enter (c producer : ℕ) : Orderly ∅ (enter c producer) := by
  refine orderly_readRunning low_empty _ fun running => ?_
  split
  · exact orderly_done
  · exact orderly_done

/-- The wait gives the mutex back and takes it again. -/
theorem orderly_waitFor (c : ℕ) {rest : Bool → Code}
    (hrest : ∀ woken, Orderly (insert (.descriptor c) ∅) (rest woken)) (wakes : ℕ) :
    Orderly (insert (.descriptor c) ∅) (waitFor c rest wakes) := by
  induction wakes with
  | zero => exact orderly_read fun _ => hrest _
  | succ wakes ih =>
      refine orderly_read fun world => ?_
      split
      · exact hrest true
      · exact orderly_unlock low_empty rfl (orderly_inner low_empty rfl ih)

theorem orderly_round (c wakes : ℕ) : Orderly ∅ (round c wakes) := by
  refine orderly_readRunning low_empty _ fun running => ?_
  split
  · refine orderly_inner low_empty rfl (orderly_waitFor c (fun woken => ?_) wakes)
    split
    · exact orderly_unlock low_empty rfl orderly_done
    · exact orderly_unlock low_empty rfl orderly_done
  · exact orderly_done

theorem orderly_disconnectAll (allocates : Bool) (hrest : Orderly ∅ rest) (cns : List ℕ) :
    Orderly ∅ (disconnectAll allocates rest cns) := by
  induction cns with
  | nil => exact hrest
  | cons cn cns ih => exact orderly_disconnectConnection cn allocates ih

theorem orderly_joinAll (hrest : Orderly ∅ rest) (cs : List ℕ) : Orderly ∅ (joinAll rest cs) := by
  induction cs with
  | nil => exact hrest
  | cons c cs ih => exact orderly_joinConsumer c ih

theorem orderly_shutdown (listener : ℕ) (allocates : Bool) :
    Orderly ∅ (shutdown listener allocates) := by
  refine orderly_read fun _ => orderly_disconnectAll allocates (orderly_read fun _ => ?_) _
  refine orderly_joinAll ?_ _
  exact orderly_done

theorem orderly_runListener (listener : ℕ) (links : Option Links) :
    Orderly ∅ (runListener listener links) := by
  refine orderly_readRunning low_empty _ fun running => ?_
  split
  · exact orderly_done
  · cases links with
    | none => exact orderly_done
    | some links => exact orderly_setRunning low_empty _ _ orderly_done

theorem orderly_joinListener (listener : ℕ) : Orderly ∅ (joinListener listener) := by
  refine orderly_readRunning low_empty _ fun running => ?_
  split
  · exact orderly_setRunning low_empty _ _ orderly_done
  · exact orderly_done

theorem orderly_setProducer (c producer : ℕ) : Orderly ∅ (setProducer c producer) := by
  refine orderly_readRunning low_empty _ fun running => ?_
  split
  · exact orderly_done
  · exact orderly_leave c (orderly_enter c producer)

theorem orderly_removeProducer (c : ℕ) : Orderly ∅ (removeProducer c) := by
  refine orderly_readRunning low_empty _ fun running => ?_
  split
  · exact orderly_done
  · exact orderly_leave c orderly_done

theorem orderly_runConsumer (c : ℕ) : Orderly ∅ (runConsumer c) := by
  refine orderly_readRunning low_empty _ fun running => ?_
  split
  · exact orderly_done
  · exact orderly_setRunning low_empty _ _ orderly_done

theorem orderly_unlessRunning (listener : ℕ) (effect : World → World) :
    Orderly ∅ (unlessRunning listener effect) := by
  refine orderly_readRunning low_empty _ fun running => ?_
  split
  · exact orderly_done
  · exact orderly_done

theorem allCareful_program : AllCareful Unattached (Above rank) program := by
  intro operation
  cases operation with
  | disconnectConnection cn allocates =>
      exact orderly_disconnectConnection cn allocates orderly_done
  | disconnectServer server allocates =>
      exact orderly_disconnectServer server allocates orderly_done
  | safeDisconnect socket => exact orderly_safeDisconnect socket orderly_done
  | setUserData cn type =>
      refine orderly_socket (orderly_read fun world => ?_)
      split
      · exact orderly_unlockSocket orderly_done
      · exact orderly_unlockSocket orderly_done
  | releaseUserData cn => exact orderly_socket (orderly_unlockSocket orderly_done)
  | send cn sending =>
      exact orderly_socket (orderly_sendLoop (orderly_unlockSocket orderly_done) _)
  | getUserData cn =>
      exact orderly_socket (orderly_read fun _ => orderly_unlockSocket orderly_done)
  | connect socket fd => exact orderly_done
  | attachServer listener | attachConnection listener | detachServer listener
  | detachConnection listener => exact orderly_unlessRunning listener _
  | runListener listener links => exact orderly_runListener listener links
  | joinListener listener => exact orderly_joinListener listener
  | loop listener => exact orderly_readRunning low_empty _ fun _ => orderly_done
  | isServer listener fd => exact orderly_isServer listener fd fun _ => orderly_done
  | getConnection listener fd => exact orderly_getConnection listener fd fun _ => orderly_done
  | closeServer listener fd allocates =>
      exact orderly_closeServer listener fd allocates orderly_done
  | closeConnection listener fd allocates =>
      exact orderly_closeConnection listener fd allocates orderly_done
  | handle listener fd allocates event => exact orderly_handle listener fd allocates event
  | shutdown listener allocates => exact orderly_shutdown listener allocates
  | setProducer c producer => exact orderly_setProducer c producer
  | removeProducer c => exact orderly_removeProducer c
  | runConsumer c => exact orderly_runConsumer c
  | joinConsumer c => exact orderly_joinConsumer c orderly_done
  | round c wakes => exact orderly_round c wakes
  | pop listener queue allocates =>
      exact orderly_pop low_empty listener queue allocates fun _ => orderly_done

end Orderly

def step (machine : Machine World Mutex Read) (action : Locks.Action Operation) :
    Option (Machine World Mutex Read) :=
  Locks.step program machine action

/-- When a step is safe: `TCPServer::disconnect` finds `m_listener` null. -/
def Safe (machine : Machine World Mutex Read) (action : Locks.Action Operation) : Prop :=
  Locks.Safe Unattached machine action

instance (machine : Machine World Mutex Read) (action : Locks.Action Operation) :
    Decidable (Safe machine action) :=
  inferInstanceAs (Decidable (Locks.Safe Unattached machine action))

/-- Whatever is attached to whom at first, no thread comes to a mutex that it
holds while `TCPServer::disconnect` is called on servers that nothing listens
to; and a call on another server takes its thread there. -/
theorem not_selfLocked_of_reaches {world : World} {machine : Machine World Mutex Read}
    (hreaches : Reaches step Safe (Machine.idle world) machine) :
    ¬ machine.SelfLocked ∧ ∀ action next, step machine action = some next →
      (¬ next.SelfLocked ↔ Safe machine action) :=
  Locks.not_selfLocked_of_allCareful (fun _ _ habove => habove.notMem) allCareful_program hreaches

/-- A server and a client with descriptors 3 and 4, the client attached to
listener 0, the server to some listener or to none. -/
def oneOfEach (mListener : Option ℕ) : World where
  servers := ⟨fun _ => [1], fun _ => mListener⟩
  connections := ⟨fun _ => [2], fun _ => some 0⟩
  consumers := .empty
  mInternalConnections _ := []
  mFd
    | .server _ => some 3
    | .connection _ => some 4
  mDataType _ := .none
  mRunning _ := true
  queue _ _ := []
  mMaxQueueSize _ := 0
  links _ := .clear
  wakeUp _ := false

/-- One thread disconnects the client and is in the middle of it, and another has
disconnected the server, which nothing listens to. -/
theorem not_selfLocked_of_reaches_unattached : ∃ machine,
    Reaches step Safe (Machine.idle (oneOfEach none)) machine ∧
      machine.owner (.socket (.connection 2)) = some 0 ∧
      machine.shared.mFd (.server 1) = none ∧
      ¬ machine.SelfLocked ∧ ∀ action next, step machine action = some next →
        (¬ next.SelfLocked ↔ Safe machine action) := by
  have hreaches : ∃ machine, Reaches step Safe (Machine.idle (oneOfEach none)) machine ∧
      machine.owner (.socket (.connection 2)) = some 0 ∧
      machine.shared.mFd (.server 1) = none :=
    ⟨_, .of_run (rfl : Transition.run step (Machine.idle (oneOfEach none))
      [.start 0 (.disconnectConnection 2 true), .start 1 (.disconnectServer 1 true), .move 0,
        .move 1, .move 1, .move 0, .move 1] = some _) (by decide), rfl, rfl⟩
  obtain ⟨machine, hreaches, howner, hfd⟩ := hreaches
  exact ⟨machine, hreaches, howner, hfd, not_selfLocked_of_reaches hreaches⟩

/-- `TCPServer::disconnect` on an attached server. -/
theorem selfLocked_of_disconnectServer : ∃ machine,
    Transition.run step (Machine.idle (oneOfEach (some 0)))
      [.start 0 (.disconnectServer 1 true), .move 0, .move 0] = some machine ∧
    machine.owner (.socket (.server 1)) = some 0 ∧ machine.SelfLocked :=
  ⟨_, rfl, rfl, 0, .socket (.server 1), rfl, _, rfl⟩

/-! ## All calls come to their end -/

/-- The loop of a `Connection::send` ends. -/
def Operation.ends : Operation → Bool
  | .send _ sending => loopEnds sending.size 0 sending.results
  | _ => true

/-- A safe step that begins no call that holds its mutex for ever. -/
def Lasting (machine : Machine World Mutex Read) : Locks.Action Operation → Prop
  | .start _ operation => operation.ends = true
  | .move thread => Safe machine (.move thread)

instance (machine : Machine World Mutex Read) :
    (action : Locks.Action Operation) → Decidable (Lasting machine action)
  | .start _ operation => inferInstanceAs (Decidable (operation.ends = true))
  | .move thread => inferInstanceAs (Decidable (Safe machine (.move thread)))

/-- In every state of a safe run of calls whose loops end, whatever calls are under way
in whatever threads come to their end and leave no mutex locked, however the threads
are scheduled; but for one that is about to find, in `TCPServer::disconnect`, that its
server has a listener. -/
theorem completed_of_reaches {world : World} {machine : Machine World Mutex Read}
    (hreaches : Reaches step Lasting (Machine.idle world) machine) :
    Inevitable Machine.move (fun last => last.Settled ∨ last.Strays Unattached) machine :=
  inevitable_of_allCareful allCareful_program (hreaches.mono fun _ action hlasting => by
    cases action with
    | start => exact trivial
    | move => exact hlasting)

/-- The thread that disconnects the client holds two mutexes; a consumer waits for
the queue, and the event loop for the client. -/
theorem completed_of_reaches_blocked : ∃ machine,
    Reaches step Lasting (Machine.idle (oneOfEach none)) machine ∧
      machine.owner (.socket (.connection 2)) = some 0 ∧
      machine.owner (.queue 0 .disconnected) = some 0 ∧
      machine.move 1 = none ∧ machine.move 2 = none ∧
      Inevitable Machine.move (fun last => last.Settled ∨ last.Strays Unattached) machine := by
  have hreaches : ∃ machine, Reaches step Lasting (Machine.idle (oneOfEach none)) machine ∧
      machine.owner (.socket (.connection 2)) = some 0 ∧
      machine.owner (.queue 0 .disconnected) = some 0 ∧
      machine.move 1 = none ∧ machine.move 2 = none :=
    ⟨_, .of_run (rfl : Transition.run step (Machine.idle (oneOfEach none))
      [.start 0 (.disconnectConnection 2 true), .start 1 (.pop 0 .disconnected true),
        .start 2 (.handle 0 4 true .close), .move 0, .move 0, .move 0, .move 0, .move 0,
        .move 2, .move 2, .move 2, .move 2, .move 2] = some _) (by decide), rfl, rfl, rfl, rfl⟩
  obtain ⟨machine, hreaches, hsocket, hqueue, hpops, hloops⟩ := hreaches
  exact ⟨machine, hreaches, hsocket, hqueue, hpops, hloops, completed_of_reaches hreaches⟩

end Sednl.Locking
