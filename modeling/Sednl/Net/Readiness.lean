import Sednl.Library.RoundRobin
import Sednl.Net.EventLoop

/-!
# Readiness

`run_imp` over epoll with `EPOLLET`.  The kernel reports a descriptor once for
each thing that happens to it, so the loop has to keep on reading or accepting
until `EAGAIN`, and must not mix up descriptors while events are left over from a
wait.  `accept_connections` leaves its loop at the first failure; the descriptors
it does that to are on record in `failed`.

Descriptors wait in the kernel's queue, and a new happening queues one that is not
there.  Which of them a call of `epoll_wait` reports, and which it leaves queued, is
the kernel's choice within what its manual says, `Documented`.
-/

namespace Sednl.Readiness

open Sednl.Transition
open Sednl.RoundRobin
open Sednl.EventLoop (EpollEvents)

/-- A socket: the clients a listening one has not handed out, or the bytes another
one has not, and what keeps up the flags of a closed one. -/
structure Socket where
  listening : Bool
  waiting : ℕ
  err : Bool
  hup : Bool
  rdhup : Bool
  deriving DecidableEq, Repr

namespace Socket

/-- What the kernel answers for a socket. -/
def events (socket : Socket) : EpollEvents :=
  ⟨0 < socket.waiting || socket.rdhup, socket.err, socket.hup, socket.rdhup⟩

def readable (socket : Socket) : Bool :=
  socket.events.isRead || socket.events.isClose

def take (socket : Socket) (count : ℕ) : Socket :=
  { socket with waiting := socket.waiting - count }

end Socket

/-- `Poller` over epoll, with what `epoll_wait` has written in `m_events`. -/
structure Poller where
  mEvents : List (ℕ × EpollEvents)
  mNbEvents : ℤ
  mIdx : ℕ

structure Event where
  fd : ℕ
  isClose : Bool
  isRead : Bool
  deriving DecidableEq, Repr

def toEvent (item : ℕ × EpollEvents) : Event :=
  ⟨item.1, item.2.isClose, item.2.isRead⟩

namespace Poller

/-- `wait_for_events`; `epoll_wait` returns -1 where it has no answer. -/
def waitForEvents (poller : Poller) : Option (List (ℕ × EpollEvents)) → Poller
  | none => { poller with mNbEvents := -1, mIdx := 0 }
  | some answer =>
      { mEvents := answer ++ poller.mEvents.drop answer.length
        mNbEvents := answer.length
        mIdx := 0 }

def nextEvent (poller : Poller) : Option Event × Poller :=
  if poller.mNbEvents ≤ poller.mIdx then (none, poller)
  else (poller.mEvents[poller.mIdx]?.map toEvent,
    { poller with mIdx := poller.mIdx + 1 })

/-- What `next_event` has not returned yet. -/
def left (poller : Poller) : List (ℕ × EpollEvents) :=
  (poller.mEvents.take poller.mNbEvents.toNat).drop poller.mIdx

end Poller

/-- Where the thread of the listener stands. -/
inductive Task where
  | idle
  | accepting (fd : ℕ)
  | reading (fd : ℕ)
  deriving DecidableEq, Repr

/-- `sockets` are the descriptors registered and open, `ready` those the kernel
has to report, and `servers` the `m_fd` of `m_servers`. -/
structure State where
  sockets : ℕ → Option Socket
  ready : List ℕ
  mPoller : Poller
  task : Task
  servers : List ℕ
  failed : List ℕ

namespace State

def set (state : State) (fd : ℕ) (socket : Option Socket) : State :=
  { state with sockets := Function.update state.sockets fd socket }

def happen (state : State) (fd : ℕ) (socket : Socket) : State :=
  { state.set fd (some socket) with
    ready := join state.ready fd
    failed := withdraw state.failed fd }

/-- `Poller::add_fd`: a socket with something to report is queued at once. -/
def addFd (state : State) (fd : ℕ) (socket : Socket) : State :=
  { state.set fd (some socket) with
    ready := if socket.readable then join state.ready fd else state.ready
    failed := withdraw state.failed fd }

/-- `close`, which takes the descriptor out of the epoll instance; `remove_fd` does
nothing. -/
def close (state : State) (fd : ℕ) : State :=
  { state.set fd none with
    ready := withdraw state.ready fd
    failed := withdraw state.failed fd }

def isServer (state : State) (fd : ℕ) : Bool :=
  fd ∈ state.servers

/-- `close_server`: the server keeps its `m_fd`. -/
def closeServer (state : State) (fd : ℕ) : State :=
  if state.isServer fd then state.close fd else state

/-- `close_connection`: an open descriptor that does not listen is one of a
connection. -/
def closeConnection (state : State) (fd : ℕ) : State :=
  match state.sockets fd with
  | some socket => if socket.listening then state else state.close fd
  | none => state

def wants (state : State) (fd : ℕ) : Bool :=
  (state.sockets fd).any Socket.readable

/-- What `epoll_wait` reports of a descriptor that has something to report. -/
def report (state : State) (fd : ℕ) : Option (ℕ × EpollEvents) :=
  (state.sockets fd).map fun socket => (fd, socket.events)

/-- What the manual says of a call of `epoll_wait` for at most `maxEvents`
descriptors that reports `answer` and leaves `ready` queued. -/
structure Documented (state : State) (maxEvents : ℕ) (answer : List (ℕ × EpollEvents))
    (ready : List ℕ) : Prop where
  hroom : answer.length ≤ maxEvents
  honce : (answer.map Prod.fst).Nodup
  hreports : ∀ item ∈ answer, item.1 ∈ state.ready ∧ state.wants item.1 = true ∧
    state.report item.1 = some item
  hqueue : ready.Sublist state.ready
  /-- Calls go round the queue: what is not reported moves up by a whole call. -/
  hround : ∀ fd ∈ state.ready, state.wants fd = true → fd ∈ answer.map Prod.fst ∨
    fd ∈ ready ∧ maxEvents + ready.idxOf fd ≤ state.ready.idxOf fd

instance (maxEvents : ℕ) (state : State) (answer : List (ℕ × EpollEvents)) (ready : List ℕ) :
    Decidable (state.Documented maxEvents answer ready) :=
  decidable_of_iff
    (answer.length ≤ maxEvents ∧ (answer.map Prod.fst).Nodup ∧
      (∀ item ∈ answer, item.1 ∈ state.ready ∧ state.wants item.1 = true ∧
        state.report item.1 = some item) ∧
      ready.Sublist state.ready ∧
      ∀ fd ∈ state.ready, state.wants fd = true → fd ∈ answer.map Prod.fst ∨
        fd ∈ ready ∧ maxEvents + ready.idxOf fd ≤ state.ready.idxOf fd)
    ⟨fun ⟨hroom, honce, hreports, hqueue, hround⟩ => ⟨hroom, honce, hreports, hqueue, hround⟩,
      fun h => ⟨h.hroom, h.honce, h.hreports, h.hqueue, h.hround⟩⟩

/-- `epoll_wait` returns. -/
def epollWait (state : State) (answer : List (ℕ × EpollEvents)) (ready : List ℕ) : State :=
  { state with
    ready := ready
    mPoller := state.mPoller.waitForEvents (some answer) }

/-- The body of the loop over `next_event`, up to the calls that take long. -/
def process (state : State) (e : Event) : State :=
  if e.isClose then
    if state.isServer e.fd then state.closeServer e.fd else state.closeConnection e.fd
  else if !e.isRead then state
  else if state.isServer e.fd then { state with task := .accepting e.fd }
  else { state with task := .reading e.fd }

end State

inductive Action where
  /-- Clients knock at a listening socket, or bytes arrive at another one. -/
  | arrive (fd count : ℕ)
  /-- The peer hangs up, or the socket fails. -/
  | hangUp (fd : ℕ) (err hup rdhup : Bool)
  /-- `epoll_wait` reports `answer`, and `ready` stays queued. -/
  | wait (answer : List (ℕ × EpollEvents)) (ready : List ℕ)
  /-- `epoll_wait` is interrupted. -/
  | waitFails
  /-- `next_event` has an event and its descriptor is looked up. -/
  | next
  /-- `accept` returns -1 with `EAGAIN`. -/
  | acceptAgain
  /-- `accept` returns -1 with another error. -/
  | acceptFails
  /-- `accept` hands a client out and `set_non_blocking`, `add_fd` or the storing of
  the connection fails; or it returns -1 with `ECONNABORTED`. -/
  | acceptDrops
  | accepts (cfd : ℕ) (socket : Socket)
  /-- `recv` returns `count` bytes. -/
  | recv (count : ℕ)
  /-- `recv` returns -1 with `EAGAIN`. -/
  | recvAgain
  /-- `recv` returns 0. -/
  | recvClosed
  /-- `recv` returns -1 with another error. -/
  | recvError
  /-- `Connection::disconnect`, by any thread. -/
  | disconnect (fd : ℕ)
  /-- `TCPServer::disconnect`, by any thread: `tell_disconnected` calls `get_fd`,
  which waits for the mutex that `disconnect` holds, and nothing is closed. -/
  | disconnectServer (fd : ℕ)

def step (maxEvents : ℕ) (state : State) : Action → Option State
  | .arrive fd count =>
      match state.sockets fd with
      | some socket =>
          if 0 < count then
            some (state.happen fd { socket with waiting := socket.waiting + count })
          else none
      | none => none
  | .hangUp fd err hup rdhup =>
      match state.sockets fd with
      | some socket =>
          if err || hup || rdhup then
            some (state.happen fd { socket with
              err := socket.err || err, hup := socket.hup || hup
              rdhup := socket.rdhup || rdhup })
          else none
      | none => none
  | .wait answer ready =>
      if state.task = .idle ∧ state.mPoller.left = [] ∧
          state.Documented maxEvents answer ready then
        some (state.epollWait answer ready)
      else none
  | .waitFails =>
      if state.task = .idle ∧ state.mPoller.left = [] then
        some { state with mPoller := state.mPoller.waitForEvents none }
      else none
  | .next =>
      if state.task = .idle then
        match state.mPoller.nextEvent with
        | (some e, mPoller) => some ({ state with mPoller := mPoller }.process e)
        | (none, _) => none
      else none
  | .acceptAgain =>
      match state.task with
      | .accepting fd =>
          match state.sockets fd with
          | some socket =>
              if socket.listening ∧ ¬ socket.readable then some { state with task := .idle }
              else none
          | none => none
      | _ => none
  | .acceptFails =>
      match state.task with
      | .accepting fd =>
          some { state with
            task := .idle
            failed := if (state.sockets fd).isSome then join state.failed fd
              else state.failed }
      | _ => none
  | .acceptDrops =>
      match state.task with
      | .accepting fd =>
          match state.sockets fd with
          | some socket =>
              if socket.listening ∧ 0 < socket.waiting then
                some { state.set fd (some (socket.take 1)) with
                  task := .idle
                  failed := join state.failed fd }
              else none
          | none => none
      | _ => none
  | .accepts cfd client =>
      match state.task with
      | .accepting fd =>
          match state.sockets fd, state.sockets cfd with
          | some socket, none =>
              if socket.listening ∧ 0 < socket.waiting ∧ ¬ client.listening then
                some ((state.set fd (some (socket.take 1))).addFd cfd client)
              else none
          | _, _ => none
      | _ => none
  | .recv count =>
      match state.task with
      | .reading fd =>
          match state.sockets fd with
          | some socket =>
              if ¬ socket.listening ∧ 0 < count ∧ count ≤ 512 ∧ count ≤ socket.waiting then
                some (state.set fd (some (socket.take count)))
              else none
          | none => none
      | _ => none
  | .recvAgain =>
      match state.task with
      | .reading fd =>
          match state.sockets fd with
          | some socket =>
              if socket.readable then none else some { state with task := .idle }
          | none => none
      | _ => none
  | .recvClosed =>
      match state.task with
      | .reading fd =>
          match state.sockets fd with
          | some socket =>
              if socket.waiting = 0 ∧ socket.events.isClose then
                some { state.closeConnection fd with task := .idle }
              else none
          | none => none
      | _ => none
  | .recvError =>
      match state.task with
      | .reading fd => some { state.closeConnection fd with task := .idle }
      | _ => none
  | .disconnect fd =>
      match state.sockets fd with
      | some socket => if socket.listening then none else some (state.close fd)
      | none => none
  | .disconnectServer fd =>
      if state.isServer fd then some state else none

/-- `run_init` on what is attached: the servers listen. -/
def State.start (attached : List (ℕ × Socket)) : State :=
  attached.foldl (fun state item => state.addFd item.1 item.2)
    { sockets := fun _ => none
      ready := []
      mPoller := ⟨[], 0, 0⟩
      task := .idle
      servers := (attached.filter fun item => item.2.listening).map Prod.fst
      failed := [] }

/-! ## What a step can do -/

section Steps

variable {maxEvents : ℕ} {state next : State} {action : Action} {fd : ℕ} {socket : Socket}

inductive Branch (maxEvents : ℕ) (state : State) : Action → State → Prop where
  | arrive {fd count : ℕ} {socket : Socket} (hsocket : state.sockets fd = some socket) :
      Branch maxEvents state (.arrive fd count)
        (state.happen fd { socket with waiting := socket.waiting + count })
  | hangUp {fd : ℕ} {err hup rdhup : Bool} {socket : Socket}
      (hsocket : state.sockets fd = some socket) :
      Branch maxEvents state (.hangUp fd err hup rdhup) (state.happen fd { socket with
        err := socket.err || err, hup := socket.hup || hup, rdhup := socket.rdhup || rdhup })
  | wait {answer : List (ℕ × EpollEvents)} {ready : List ℕ} (hidle : state.task = .idle)
      (hleft : state.mPoller.left = []) (hanswer : state.Documented maxEvents answer ready) :
      Branch maxEvents state (.wait answer ready) (state.epollWait answer ready)
  | waitFails (hidle : state.task = .idle) (hleft : state.mPoller.left = []) :
      Branch maxEvents state .waitFails
        { state with mPoller := state.mPoller.waitForEvents none }
  | next {e : Event} {mPoller : Poller} (hidle : state.task = .idle)
      (hevent : state.mPoller.nextEvent = (some e, mPoller)) :
      Branch maxEvents state .next ({ state with mPoller := mPoller }.process e)
  | acceptAgain {fd : ℕ} {socket : Socket} (htask : state.task = .accepting fd)
      (hsocket : state.sockets fd = some socket) (hnothing : ¬ socket.readable = true) :
      Branch maxEvents state .acceptAgain { state with task := .idle }
  | acceptFails {fd : ℕ} (htask : state.task = .accepting fd) :
      Branch maxEvents state .acceptFails { state with
        task := .idle
        failed := if (state.sockets fd).isSome then join state.failed fd else state.failed }
  | acceptDrops {fd : ℕ} {socket : Socket} (htask : state.task = .accepting fd)
      (hsocket : state.sockets fd = some socket) :
      Branch maxEvents state .acceptDrops { state.set fd (some (socket.take 1)) with
        task := .idle
        failed := join state.failed fd }
  | accepts {fd cfd : ℕ} {socket client : Socket} (htask : state.task = .accepting fd)
      (hsocket : state.sockets fd = some socket) (hfree : state.sockets cfd = none)
      (hclient : client.listening = false) :
      Branch maxEvents state (.accepts cfd client)
        ((state.set fd (some (socket.take 1))).addFd cfd client)
  | recv {fd count : ℕ} {socket : Socket} (htask : state.task = .reading fd)
      (hsocket : state.sockets fd = some socket) :
      Branch maxEvents state (.recv count) (state.set fd (some (socket.take count)))
  | recvAgain {fd : ℕ} {socket : Socket} (htask : state.task = .reading fd)
      (hsocket : state.sockets fd = some socket) (hnothing : ¬ socket.readable = true) :
      Branch maxEvents state .recvAgain { state with task := .idle }
  | recvClosed {fd : ℕ} (htask : state.task = .reading fd) :
      Branch maxEvents state .recvClosed { state.closeConnection fd with task := .idle }
  | recvError {fd : ℕ} (htask : state.task = .reading fd) :
      Branch maxEvents state .recvError { state.closeConnection fd with task := .idle }
  | disconnect (fd : ℕ) : Branch maxEvents state (.disconnect fd) (state.close fd)
  | disconnectServer (fd : ℕ) : Branch maxEvents state (.disconnectServer fd) state

theorem branch_of_step (hnext : step maxEvents state action = some next) :
    Branch maxEvents state action next := by
  cases action with
  | arrive fd count =>
      rw [step] at hnext
      split at hnext
      · rename_i socket hsocket
        obtain ⟨-, hsome⟩ := Option.ite_none_right_eq_some.mp hnext
        obtain rfl := Option.some.inj hsome
        exact .arrive hsocket
      · cases hnext
  | hangUp fd err hup rdhup =>
      rw [step] at hnext
      split at hnext
      · rename_i socket hsocket
        obtain ⟨-, hsome⟩ := Option.ite_none_right_eq_some.mp hnext
        obtain rfl := Option.some.inj hsome
        exact .hangUp hsocket
      · cases hnext
  | wait answer ready =>
      obtain ⟨⟨hidle, hleft, hanswer⟩, hsome⟩ := Option.ite_none_right_eq_some.mp hnext
      obtain rfl := Option.some.inj hsome
      exact .wait hidle hleft hanswer
  | waitFails =>
      obtain ⟨⟨hidle, hleft⟩, hsome⟩ := Option.ite_none_right_eq_some.mp hnext
      obtain rfl := Option.some.inj hsome
      exact .waitFails hidle hleft
  | next =>
      obtain ⟨hidle, hsome⟩ := Option.ite_none_right_eq_some.mp hnext
      split at hsome
      · rename_i e mPoller hevent
        obtain rfl := Option.some.inj hsome
        exact .next hidle hevent
      · cases hsome
  | acceptAgain =>
      rw [step] at hnext
      split at hnext
      · rename_i fd htask
        split at hnext
        · rename_i socket hsocket
          obtain ⟨⟨-, hnothing⟩, hsome⟩ := Option.ite_none_right_eq_some.mp hnext
          obtain rfl := Option.some.inj hsome
          exact .acceptAgain htask hsocket hnothing
        · cases hnext
      · cases hnext
  | acceptFails =>
      rw [step] at hnext
      split at hnext
      · rename_i fd htask
        obtain rfl := Option.some.inj hnext
        exact .acceptFails htask
      · cases hnext
  | acceptDrops =>
      rw [step] at hnext
      split at hnext
      · rename_i fd htask
        split at hnext
        · rename_i socket hsocket
          obtain ⟨-, hsome⟩ := Option.ite_none_right_eq_some.mp hnext
          obtain rfl := Option.some.inj hsome
          exact .acceptDrops htask hsocket
        · cases hnext
      · cases hnext
  | accepts cfd client =>
      rw [step] at hnext
      split at hnext
      · rename_i fd htask
        split at hnext
        · rename_i socket hsocket hfree
          obtain ⟨⟨-, -, hclient⟩, hsome⟩ := Option.ite_none_right_eq_some.mp hnext
          obtain rfl := Option.some.inj hsome
          exact .accepts htask hsocket hfree (Bool.eq_false_of_not_eq_true hclient)
        · cases hnext
      · cases hnext
  | recv count =>
      rw [step] at hnext
      split at hnext
      · rename_i fd htask
        split at hnext
        · rename_i socket hsocket
          obtain ⟨-, hsome⟩ := Option.ite_none_right_eq_some.mp hnext
          obtain rfl := Option.some.inj hsome
          exact .recv htask hsocket
        · cases hnext
      · cases hnext
  | recvAgain =>
      rw [step] at hnext
      split at hnext
      · rename_i fd htask
        split at hnext
        · rename_i socket hsocket
          obtain ⟨hnothing, hsome⟩ := Option.ite_none_left_eq_some.mp hnext
          obtain rfl := Option.some.inj hsome
          exact .recvAgain htask hsocket hnothing
        · cases hnext
      · cases hnext
  | recvClosed =>
      rw [step] at hnext
      split at hnext
      · rename_i fd htask
        split at hnext
        · obtain ⟨-, hsome⟩ := Option.ite_none_right_eq_some.mp hnext
          obtain rfl := Option.some.inj hsome
          exact .recvClosed htask
        · cases hnext
      · cases hnext
  | recvError =>
      rw [step] at hnext
      split at hnext
      · rename_i fd htask
        obtain rfl := Option.some.inj hnext
        exact .recvError htask
      · cases hnext
  | disconnect fd =>
      rw [step] at hnext
      split at hnext
      · obtain ⟨-, hsome⟩ := Option.ite_none_left_eq_some.mp hnext
        obtain rfl := Option.some.inj hsome
        exact .disconnect fd
      · cases hnext
  | disconnectServer fd =>
      obtain ⟨-, hsome⟩ := Option.ite_none_right_eq_some.mp hnext
      obtain rfl := Option.some.inj hsome
      exact .disconnectServer fd

/-! ## Events left over -/

theorem Poller.left_waitForEvents (poller : Poller) (answer : List (ℕ × EpollEvents)) :
    (poller.waitForEvents (some answer)).left = answer := by
  rw [left, waitForEvents]
  exact (List.drop_zero).trans (List.take_left' rfl)

/-- `next_event` returns what is left, in order. -/
theorem Poller.left_of_nextEvent {poller after : Poller} {e : Event}
    (hevent : poller.nextEvent = (some e, after)) :
    ∃ item, e = toEvent item ∧ poller.left = item :: after.left := by
  rw [nextEvent] at hevent
  split at hevent
  · cases hevent
  · rename_i hmore
    obtain ⟨hmapped, rfl⟩ := Prod.mk.inj hevent
    obtain ⟨item, hitem, rfl⟩ := Option.map_eq_some_iff.mp hmapped
    have hless : poller.mIdx < poller.mNbEvents.toNat := by omega
    have htaken : (poller.mEvents.take poller.mNbEvents.toNat)[poller.mIdx]? = some item := by
      rw [List.getElem?_take_of_lt hless, hitem]
    obtain ⟨hlength, hget⟩ := List.getElem?_eq_some_iff.mp htaken
    exact ⟨item, rfl, by rw [left, List.drop_eq_getElem_cons hlength, hget]; rfl⟩

theorem State.set_cases {other : ℕ} {changed : Option Socket} {found : Socket}
    (hfound : (state.set fd changed).sockets other = some found) :
    other = fd ∧ changed = some found ∨ other ≠ fd ∧ state.sockets other = some found := by
  change Function.update state.sockets fd changed other = some found at hfound
  by_cases heq : other = fd
  · subst heq
    rw [Function.update_self] at hfound
    exact .inl ⟨rfl, hfound⟩
  · rw [Function.update_of_ne heq] at hfound
    exact .inr ⟨heq, hfound⟩

def State.batch (state : State) : List ℕ :=
  state.mPoller.left.map Prod.fst

/-! ## What `epoll_wait` may answer -/

section Answers

variable {state : State} {answer : List (ℕ × EpollEvents)} {ready : List ℕ}

theorem State.left_epollWait : (state.epollWait answer ready).mPoller.left = answer :=
  Poller.left_waitForEvents state.mPoller answer

theorem State.batch_epollWait : (state.epollWait answer ready).batch = answer.map Prod.fst := by
  rw [batch, left_epollWait]

theorem State.wants_eq {fd : ℕ} : state.wants fd = true ↔
    ∃ socket, state.sockets fd = some socket ∧ socket.readable = true := by
  rw [wants, Option.any_eq_true]

/-- What is reported is what the socket shows. -/
theorem State.Documented.of_mem {maxEvents : ℕ} {item : ℕ × EpollEvents}
    (hanswer : state.Documented maxEvents answer ready) (hitem : item ∈ answer) :
    ∃ socket, state.sockets item.1 = some socket ∧ socket.readable = true ∧
      item.2 = socket.events := by
  obtain ⟨-, hwants, hreport⟩ := hanswer.hreports item hitem
  obtain ⟨socket, hsocket, hreadable⟩ := wants_eq.mp hwants
  refine ⟨socket, hsocket, hreadable, ?_⟩
  rw [report, hsocket, Option.map_some] at hreport
  exact (congrArg Prod.snd (Option.some.inj hreport)).symm

/-- What waits for a report is reported, has nothing to report, or comes nearer. -/
theorem State.Documented.nearer {maxEvents n fd : ℕ}
    (hanswer : state.Documented maxEvents answer ready) (hwithin : Within n state.ready fd)
    (hwants : state.wants fd = true) :
    fd ∈ answer.map Prod.fst ∨ maxEvents ≤ n ∧ Within (n - maxEvents) ready fd := by
  obtain ⟨hmem, hle⟩ := within_iff.mp hwithin
  refine (hanswer.hround fd hmem hwants).imp_right fun ⟨hkept, hnear⟩ => ?_
  exact ⟨by omega, within_iff.mpr ⟨hkept, by omega⟩⟩

/-- The kernel that serves its queue from the front answers as documented. -/
theorem State.documented_turn (hnodup : state.ready.Nodup) (maxEvents : ℕ) :
    state.Documented maxEvents
      ((turn state.wants maxEvents state.ready).1.filterMap state.report)
      (turn state.wants maxEvents state.ready).2 := by
  obtain ⟨hsublist, hwants⟩ := turn_served state.wants maxEvents state.ready
  have hfds : ((turn state.wants maxEvents state.ready).1.filterMap state.report).map Prod.fst =
      (turn state.wants maxEvents state.ready).1 := by
    generalize (turn state.wants maxEvents state.ready).1 = served at hwants
    induction served with
    | nil => rfl
    | cons fd served ih =>
        obtain ⟨socket, hsocket, -⟩ := wants_eq.mp (hwants fd List.mem_cons_self)
        have hreport : state.report fd = some (fd, socket.events) := by
          rw [report, hsocket, Option.map_some]
        rw [List.filterMap_cons_some hreport, List.map_cons,
          ih fun other hother => hwants other (List.mem_cons_of_mem fd hother)]
  refine ⟨(List.length_filterMap_le _ _).trans (length_turn_le _ _ _), ?_, ?_,
    (turn_suffix _ _ _).sublist, fun fd hmem hwant => ?_⟩
  · rw [hfds]
    exact hnodup.sublist hsublist
  · intro item hitem
    obtain ⟨fd, hserved, hreport⟩ := List.mem_filterMap.mp hitem
    obtain rfl : item.1 = fd := by
      rw [report] at hreport
      obtain ⟨socket, -, rfl⟩ := Option.map_eq_some_iff.mp hreport
      rfl
    exact ⟨hsublist.subset hserved, hwants _ hserved, hreport⟩
  · rw [hfds]
    refine ((within_iff.mpr ⟨hmem, Nat.le_refl _⟩).turn hwant maxEvents).imp_right ?_
    rintro ⟨hle, hwithin⟩
    obtain ⟨hkept, hnear⟩ := within_iff.mp hwithin
    exact ⟨hkept, by omega⟩

end Answers

/-- The thread of the listener reads or accepts on a descriptor. -/
def Task.On (task : Task) (fd : ℕ) : Prop :=
  task = .accepting fd ∨ task = .reading fd

/-- The loop is bound to come to a descriptor, or is at it. -/
def State.Awaited (state : State) (fd : ℕ) : Prop :=
  fd ∈ state.ready ∨ fd ∈ state.batch ∨ state.task.On fd

/-! ## No happening is lost -/

structure Watched (state : State) : Prop where
  hready : state.ready.Nodup
  hbatch : state.batch.Nodup
  hreported : ∀ item ∈ state.mPoller.left, item.2.isClose = true ∨ item.2.isRead = true
  hlistening : ∀ fd socket, state.sockets fd = some socket → socket.listening = true →
    fd ∈ state.servers
  hreading : ∀ fd, state.task = .reading fd → fd ∉ state.servers
  htask : ∀ fd, state.task.On fd → fd ∉ state.batch
  hcovered : ∀ fd socket, state.sockets fd = some socket → socket.readable = true →
    state.Awaited fd ∨ fd ∈ state.failed

namespace Watched

variable (hwatched : Watched state)
include hwatched

theorem happen (hsocket : state.sockets fd = some socket) {after : Socket}
    (hsame : after.listening = socket.listening) : Watched (state.happen fd after) where
  hready := nodup_join hwatched.hready fd
  hbatch := hwatched.hbatch
  hreported := hwatched.hreported
  hlistening other found hfound hlistens := by
    obtain ⟨rfl, hafter⟩ | ⟨-, hold⟩ := State.set_cases hfound
    · obtain rfl := Option.some.inj hafter
      exact hwatched.hlistening other socket hsocket (hsame ▸ hlistens)
    · exact hwatched.hlistening other found hold hlistens
  hreading := hwatched.hreading
  htask := hwatched.htask
  hcovered other found hfound hreadable := by
    obtain ⟨rfl, -⟩ | ⟨hne, hold⟩ := State.set_cases hfound
    · exact .inl (.inl (mem_join.mpr (.inr rfl)))
    · exact (hwatched.hcovered other found hold hreadable).imp
        (Or.imp_left fun hmem => mem_join.mpr (.inl hmem))
        fun hmem => mem_withdraw.mpr ⟨hmem, hne⟩

theorem addFd {client : Socket} (hlistens : client.listening = true → fd ∈ state.servers) :
    Watched (state.addFd fd client) where
  hready := by
    rw [State.addFd]
    split
    · exact nodup_join hwatched.hready fd
    · exact hwatched.hready
  hbatch := hwatched.hbatch
  hreported := hwatched.hreported
  hlistening other found hfound hfoundListens := by
    obtain ⟨rfl, hclient⟩ | ⟨-, hold⟩ := State.set_cases hfound
    · obtain rfl := Option.some.inj hclient
      exact hlistens hfoundListens
    · exact hwatched.hlistening other found hold hfoundListens
  hreading := hwatched.hreading
  htask := hwatched.htask
  hcovered other found hfound hreadable := by
    rw [State.Awaited, State.addFd]
    obtain ⟨rfl, hclient⟩ | ⟨hne, hold⟩ := State.set_cases hfound
    · obtain rfl := Option.some.inj hclient
      rw [if_pos hreadable]
      exact .inl (.inl (mem_join.mpr (.inr rfl)))
    · refine (hwatched.hcovered other found hold hreadable).imp
        (Or.imp_left fun hmem => ?_) fun hmem => mem_withdraw.mpr ⟨hmem, hne⟩
      split
      · exact mem_join.mpr (.inl hmem)
      · exact hmem

theorem close (fd : ℕ) : Watched (state.close fd) where
  hready := nodup_withdraw hwatched.hready fd
  hbatch := hwatched.hbatch
  hreported := hwatched.hreported
  hlistening other found hfound hlistens := by
    obtain ⟨-, hnone⟩ | ⟨-, hold⟩ := State.set_cases hfound
    · cases hnone
    · exact hwatched.hlistening other found hold hlistens
  hreading := hwatched.hreading
  htask := hwatched.htask
  hcovered other found hfound hreadable := by
    obtain ⟨-, hnone⟩ | ⟨hne, hold⟩ := State.set_cases hfound
    · cases hnone
    · exact (hwatched.hcovered other found hold hreadable).imp
        (Or.imp_left fun hmem => mem_withdraw.mpr ⟨hmem, hne⟩)
        fun hmem => mem_withdraw.mpr ⟨hmem, hne⟩

theorem closeConnection (fd : ℕ) : Watched (state.closeConnection fd) := by
  rw [State.closeConnection]
  split
  · split
    · exact hwatched
    · exact hwatched.close fd
  · exact hwatched

/-- What is taken from a socket leaves it covered while the thread is at it. -/
theorem take (hsocket : state.sockets fd = some socket) (hon : state.task.On fd) (count : ℕ) :
    Watched (state.set fd (some (socket.take count))) where
  hready := hwatched.hready
  hbatch := hwatched.hbatch
  hreported := hwatched.hreported
  hlistening other found hfound hlistens := by
    obtain ⟨rfl, htaken⟩ | ⟨-, hold⟩ := State.set_cases hfound
    · obtain rfl := Option.some.inj htaken
      exact hwatched.hlistening other socket hsocket hlistens
    · exact hwatched.hlistening other found hold hlistens
  hreading := hwatched.hreading
  htask := hwatched.htask
  hcovered other found hfound hreadable := by
    obtain ⟨rfl, -⟩ | ⟨-, hold⟩ := State.set_cases hfound
    · exact .inl (.inr (.inr hon))
    · exact hwatched.hcovered other found hold hreadable

theorem fail {failed : List ℕ} (hmore : ∀ fd ∈ state.failed, fd ∈ failed) :
    Watched { state with failed := failed } where
  hready := hwatched.hready
  hbatch := hwatched.hbatch
  hreported := hwatched.hreported
  hlistening := hwatched.hlistening
  hreading := hwatched.hreading
  htask := hwatched.htask
  hcovered other found hfound hreadable :=
    (hwatched.hcovered other found hfound hreadable).imp_right (hmore other)

/-- The thread leaves a descriptor that has nothing to report, is closed or failed. -/
theorem leave (hon : state.task.On fd)
    (hdone : ∀ socket, state.sockets fd = some socket → socket.readable = true →
      fd ∈ state.failed) : Watched { state with task := .idle } where
  hready := hwatched.hready
  hbatch := hwatched.hbatch
  hreported := hwatched.hreported
  hlistening := hwatched.hlistening
  hreading _ h := by cases h
  htask _ h := by rcases h with h | h <;> cases h
  hcovered other found hfound hreadable := by
    by_cases heq : other = fd
    · subst heq
      exact .inr (hdone found hfound hreadable)
    · refine (hwatched.hcovered other found hfound hreadable).imp_left ?_
      rintro (hmem | hmem | hother)
      · exact .inl hmem
      · exact .inr (.inl hmem)
      · refine absurd ?_ heq
        rcases hon with hon | hon <;> rcases hother with hother | hother <;>
          rw [hon] at hother <;> cases hother <;> rfl

/-- A connection that the thread stops reading is closed. -/
theorem stopReading (htask : state.task = .reading fd) :
    Watched { state.closeConnection fd with task := .idle } := by
  have hsame : (state.closeConnection fd).task = state.task := by
    rw [State.closeConnection]
    split
    · split <;> rfl
    · rfl
  refine (hwatched.closeConnection fd).leave (.inr (hsame.trans htask)) ?_
  intro found hfound
  rw [State.closeConnection] at hfound
  split at hfound
  · rename_i socket hsocket
    split at hfound
    · rename_i hlistens
      exact absurd (hwatched.hlistening fd socket hsocket hlistens)
        (hwatched.hreading fd htask)
    · obtain ⟨-, hnone⟩ | ⟨hne, -⟩ := State.set_cases hfound
      · cases hnone
      · exact absurd rfl hne
  · rename_i hnone
    exact absurd (hnone.symm.trans hfound) nofun

theorem interrupted (hleft : state.mPoller.left = []) :
    Watched { state with mPoller := state.mPoller.waitForEvents none } where
  hready := hwatched.hready
  hbatch := List.nodup_nil
  hreported _ hmem := absurd hmem List.not_mem_nil
  hlistening := hwatched.hlistening
  hreading := hwatched.hreading
  htask _ _ := List.not_mem_nil
  hcovered other found hfound hreadable := by
    refine (hwatched.hcovered other found hfound hreadable).imp_left ?_
    rintro (hmem | hmem | hon)
    · exact .inl hmem
    · rw [State.batch, hleft] at hmem
      exact absurd hmem List.not_mem_nil
    · exact .inr (.inr hon)

theorem epollWait (hidle : state.task = .idle) (hleft : state.mPoller.left = [])
    {answer : List (ℕ × EpollEvents)} {ready : List ℕ}
    (hanswer : state.Documented maxEvents answer ready) :
    Watched (state.epollWait answer ready) where
  hready := hwatched.hready.sublist hanswer.hqueue
  hbatch := by
    rw [State.batch_epollWait]
    exact hanswer.honce
  hreported item hitem := by
    rw [State.left_epollWait] at hitem
    obtain ⟨socket, hsocket, hreadable, hevents⟩ := hanswer.of_mem hitem
    rw [hevents]
    exact (Bool.or_eq_true _ _ ▸ hreadable).symm
  hlistening := hwatched.hlistening
  hreading := hwatched.hreading
  htask other hon := by
    rw [State.epollWait, hidle] at hon
    rcases hon with hon | hon <;> cases hon
  hcovered other found hfound hreadable := by
    refine (hwatched.hcovered other found hfound hreadable).imp_left ?_
    rintro (hmem | hmem | hon)
    · rw [State.Awaited, State.batch_epollWait]
      obtain hserved | hlater :=
        hanswer.hround other hmem (State.wants_eq.mpr ⟨found, hfound, hreadable⟩)
      · exact .inr (.inl hserved)
      · exact .inl hlater.1
    · rw [State.batch, hleft] at hmem
      exact absurd hmem List.not_mem_nil
    · rw [hidle] at hon
      rcases hon with hon | hon <;> cases hon

section Events

variable {mPoller : Poller} {item : ℕ × EpollEvents}
variable (hleft : state.mPoller.left = item :: mPoller.left)
include hleft

omit hwatched in
theorem batch_eq : state.batch = item.1 :: { state with mPoller := mPoller }.batch := by
  rw [State.batch, hleft, List.map_cons, State.batch]

theorem notMem_rest : item.1 ∉ { state with mPoller := mPoller }.batch :=
  (List.nodup_cons.mp (batch_eq hleft ▸ hwatched.hbatch)).1

/-- The loop is done with an event. -/
theorem drop (hdone : ∀ socket, state.sockets item.1 = some socket →
      socket.readable = true → item.1 ∈ state.ready ∨ item.1 ∈ state.failed) :
    Watched { state with mPoller := mPoller } where
  hready := hwatched.hready
  hbatch := (List.nodup_cons.mp (batch_eq hleft ▸ hwatched.hbatch)).2
  hreported other hother := hwatched.hreported other (hleft ▸ List.mem_cons_of_mem item hother)
  hlistening := hwatched.hlistening
  hreading := hwatched.hreading
  htask other hon hmem := hwatched.htask other hon
    (batch_eq hleft ▸ List.mem_cons_of_mem item.1 hmem)
  hcovered other found hfound hreadable := by
    by_cases heq : other = item.1
    · subst heq
      exact (hdone found hfound hreadable).imp_left Or.inl
    · refine (hwatched.hcovered other found hfound hreadable).imp_left ?_
      rintro (hmem | hmem | hon)
      · exact .inl hmem
      · rw [batch_eq hleft] at hmem
        exact .inr (.inl ((List.mem_cons.mp hmem).resolve_left heq))
      · exact .inr (.inr hon)

/-- The loop turns to the descriptor of an event. -/
theorem begin (hidle : state.task = .idle) {task : Task}
    (htask : task = .accepting item.1 ∨ task = .reading item.1 ∧ item.1 ∉ state.servers) :
    Watched { state with mPoller := mPoller, task := task } where
  hready := hwatched.hready
  hbatch := (List.nodup_cons.mp (batch_eq hleft ▸ hwatched.hbatch)).2
  hreported other hother := hwatched.hreported other (hleft ▸ List.mem_cons_of_mem item hother)
  hlistening := hwatched.hlistening
  hreading other hon := by
    obtain rfl | ⟨rfl, hserver⟩ := htask
    · cases hon
    · cases hon
      exact hserver
  htask other hon := by
    have heq : other = item.1 := by
      obtain rfl | ⟨rfl, -⟩ := htask <;> rcases hon with hon | hon <;> cases hon <;> rfl
    subst heq
    exact hwatched.notMem_rest hleft
  hcovered other found hfound hreadable := by
    by_cases heq : other = item.1
    · subst heq
      exact .inl (.inr (.inr (htask.imp_right And.left)))
    · refine (hwatched.hcovered other found hfound hreadable).imp_left ?_
      rintro (hmem | hmem | hon)
      · exact .inl hmem
      · rw [batch_eq hleft] at hmem
        exact .inr (.inl ((List.mem_cons.mp hmem).resolve_left heq))
      · rw [hidle] at hon
        rcases hon with hon | hon <;> cases hon

theorem process (hidle : state.task = .idle) :
    Watched ({ state with mPoller := mPoller }.process (toEvent item)) := by
  have hclosed : Watched ({ state with mPoller := mPoller }.close item.1) :=
    (hwatched.close item.1).drop hleft fun socket hsocket _ => by
      obtain ⟨-, hnone⟩ | ⟨hne, -⟩ := State.set_cases hsocket
      · cases hnone
      · exact absurd rfl hne
  rw [State.process]
  split
  · split
    · rename_i hserver
      rw [State.closeServer]
      exact (if_pos hserver).symm ▸ hclosed
    · rename_i hserver
      rw [State.closeConnection]
      split
      · rename_i socket hsocket
        split
        · rename_i hlistens
          exact absurd (decide_eq_true (hwatched.hlistening item.1 socket hsocket hlistens))
            hserver
        · exact hclosed
      · rename_i hnone
        exact hwatched.drop hleft fun socket hsocket =>
          absurd (hnone.symm.trans hsocket) nofun
  · rename_i hclose
    split
    · rename_i hread
      obtain hreported | hreported := hwatched.hreported item (hleft ▸ List.mem_cons_self)
      · exact absurd hreported hclose
      · rw [show (toEvent item).isRead = true from hreported] at hread
        cases hread
    · split
      · exact hwatched.begin hleft hidle (.inl rfl)
      · rename_i hserver
        exact hwatched.begin hleft hidle (.inr ⟨rfl, fun hmem => hserver (decide_eq_true hmem)⟩)

end Events

theorem step (hnext : step maxEvents state action = some next) : Watched next := by
  cases branch_of_step hnext with
  | arrive hsocket => exact hwatched.happen hsocket rfl
  | hangUp hsocket => exact hwatched.happen hsocket rfl
  | wait hidle hleft hanswer => exact hwatched.epollWait hidle hleft hanswer
  | waitFails _ hleft => exact hwatched.interrupted hleft
  | next hidle hevent =>
      obtain ⟨item, rfl, hleft⟩ := Poller.left_of_nextEvent hevent
      exact hwatched.process hleft hidle
  | acceptAgain htask hsocket hnothing =>
      refine hwatched.leave (.inl htask) fun found hfound hreadable => ?_
      obtain rfl := Option.some.inj (hsocket.symm.trans hfound)
      exact absurd hreadable hnothing
  | @acceptFails fd htask =>
      have hmore : ∀ other ∈ state.failed, other ∈
          if (state.sockets fd).isSome then join state.failed fd else state.failed := by
        intro other hmem
        split
        · exact mem_join.mpr (.inl hmem)
        · exact hmem
      refine (hwatched.fail hmore).leave (.inl htask) fun found hfound _ => ?_
      exact (if_pos (Option.isSome_iff_exists.mpr ⟨found, hfound⟩)).symm ▸
        mem_join.mpr (.inr rfl)
  | acceptDrops htask hsocket =>
      exact ((hwatched.take hsocket (.inl htask) 1).fail fun _ hmem =>
        mem_join.mpr (.inl hmem)).leave (.inl htask) fun _ _ _ => mem_join.mpr (.inr rfl)
  | accepts htask hsocket _ hclient =>
      exact (hwatched.take hsocket (.inl htask) 1).addFd fun hlistens => by
        rw [hclient] at hlistens
        cases hlistens
  | recv htask hsocket => exact hwatched.take hsocket (.inr htask) _
  | recvAgain htask hsocket hnothing =>
      refine hwatched.leave (.inr htask) fun found hfound hreadable => ?_
      obtain rfl := Option.some.inj (hsocket.symm.trans hfound)
      exact absurd hreadable hnothing
  | recvClosed htask => exact hwatched.stopReading htask
  | recvError htask => exact hwatched.stopReading htask
  | disconnect fd => exact hwatched.close fd
  | disconnectServer fd => exact hwatched

end Watched

theorem watched_start (attached : List (ℕ × Socket)) : Watched (.start attached) := by
  have hall : ∀ (more : List (ℕ × Socket)) {state : State}, Watched state →
      (∀ item ∈ more, item.2.listening = true → item.1 ∈ state.servers) →
      Watched (more.foldl (fun state item => state.addFd item.1 item.2) state) := by
    intro more
    induction more with
    | nil => exact fun hwatched _ => hwatched
    | cons item more ih =>
        exact fun hwatched hservers => ih
          (hwatched.addFd (hservers item List.mem_cons_self))
          fun other hother => hservers other (List.mem_cons_of_mem item hother)
  refine hall attached ?_ fun item hitem hlistens => List.mem_map.mpr
    ⟨item, List.mem_filter.mpr ⟨hitem, hlistens⟩, rfl⟩
  exact {
    hready := List.nodup_nil
    hbatch := List.nodup_nil
    hreported := fun _ hmem => absurd hmem List.not_mem_nil
    hlistening := fun _ _ hfound => by cases hfound
    hreading := fun _ h => by cases h
    htask := fun _ _ => List.not_mem_nil
    hcovered := fun _ _ hfound => by cases hfound }

theorem watched_of_reaches {attached : List (ℕ × Socket)}
    (hreaches : Reaches (step maxEvents) anything (.start attached) state) : Watched state :=
  hreaches.invariant (fun hwatched _ hnext => hwatched.step hnext) (watched_start attached)

/-- Wherever the loop comes to wait, the kernel has an answer. -/
theorem exists_wait_of_reaches {attached : List (ℕ × Socket)}
    (hreaches : Reaches (step maxEvents) anything (.start attached) state)
    (hidle : state.task = .idle) (hleft : state.mPoller.left = []) :
    ∃ answer ready next, step maxEvents state (.wait answer ready) = some next :=
  ⟨_, _, _, if_pos ⟨hidle, hleft,
    State.documented_turn (watched_of_reaches hreaches).hready maxEvents⟩⟩

/-- In every run, whatever has something to report is queued in the kernel, left
over from the last wait or in the hands of the thread; unless `accept` failed on it
and nothing has happened to it since. -/
theorem awaited_of_reaches {attached : List (ℕ × Socket)}
    (hreaches : Reaches (step maxEvents) anything (.start attached) state)
    (hsocket : state.sockets fd = some socket) (hreadable : socket.readable = true) :
    state.Awaited fd ∨ fd ∈ state.failed :=
  (watched_of_reaches hreaches).hcovered fd socket hsocket hreadable

/-! ## What a failure of accept leaves behind -/

def Leaves (fd : ℕ) (_ : State) : Action → Prop
  | .arrive other _ | .hangUp other _ _ _ | .disconnect other => other ≠ fd
  | _ => True

structure Stuck (fd : ℕ) (socket : Socket) (state : State) : Prop where
  hsocket : state.sockets fd = some socket
  hawaited : ¬ state.Awaited fd

namespace Stuck

variable (hstuck : Stuck fd socket state) {other : ℕ}
include hstuck

theorem set (hne : fd ≠ other) (changed : Option Socket) :
    Stuck fd socket (state.set other changed) where
  hsocket := (Function.update_of_ne hne _ _).trans hstuck.hsocket
  hawaited := hstuck.hawaited

theorem queue {ready failed : List ℕ} (hready : fd ∈ ready → fd ∈ state.ready) :
    Stuck fd socket { state with ready := ready, failed := failed } where
  hsocket := hstuck.hsocket
  hawaited hawaited := hstuck.hawaited (hawaited.imp_left hready)

theorem close (hne : fd ≠ other) : Stuck fd socket (state.close other) :=
  (hstuck.set hne none).queue fun hmem => (mem_withdraw.mp hmem).1

theorem happen (hne : fd ≠ other) (after : Socket) :
    Stuck fd socket (state.happen other after) :=
  (hstuck.set hne (some after)).queue fun hmem => (mem_join.mp hmem).resolve_right hne

theorem addFd (hne : fd ≠ other) (client : Socket) :
    Stuck fd socket (state.addFd other client) := by
  refine (hstuck.set hne (some client)).queue fun hmem => ?_
  split at hmem
  · exact (mem_join.mp hmem).resolve_right hne
  · exact hmem

theorem closeConnection (hne : fd ≠ other) : Stuck fd socket (state.closeConnection other) := by
  rw [State.closeConnection]
  split
  · split
    · exact hstuck
    · exact hstuck.close hne
  · exact hstuck

theorem closeServer (hne : fd ≠ other) : Stuck fd socket (state.closeServer other) := by
  rw [State.closeServer]
  split
  · exact hstuck.close hne
  · exact hstuck

theorem goOn {task : Task} {failed : List ℕ} (hon : ¬ task.On fd) :
    Stuck fd socket { state with task := task, failed := failed } where
  hsocket := hstuck.hsocket
  hawaited := by
    rintro (hmem | hmem | htask)
    · exact hstuck.hawaited (.inl hmem)
    · exact hstuck.hawaited (.inr (.inl hmem))
    · exact hon htask

theorem ne_of_on (hon : state.task.On other) : fd ≠ other :=
  fun heq => hstuck.hawaited (.inr (.inr (heq ▸ hon)))

theorem poll {mPoller : Poller} {ready : List ℕ} (hready : fd ∈ ready → fd ∈ state.ready)
    (hmem : fd ∈ mPoller.left.map Prod.fst → fd ∈ state.ready ∨ fd ∈ state.batch) :
    Stuck fd socket { state with mPoller := mPoller, ready := ready } where
  hsocket := hstuck.hsocket
  hawaited := by
    rintro (hqueued | hleft | hon)
    · exact hstuck.hawaited (.inl (hready hqueued))
    · exact hstuck.hawaited ((hmem hleft).imp_right Or.inl)
    · exact hstuck.hawaited (.inr (.inr hon))

theorem process {mPoller : Poller} {item : ℕ × EpollEvents}
    (hleft : state.mPoller.left = item :: mPoller.left) :
    Stuck fd socket ({ state with mPoller := mPoller }.process (toEvent item)) := by
  have hne : fd ≠ item.1 := fun heq => hstuck.hawaited (.inr (.inl (by
    rw [State.batch, hleft, heq]
    exact List.mem_cons_self)))
  have hpopped : Stuck fd socket { state with mPoller := mPoller } :=
    hstuck.poll id fun hmem => .inr (by
      rw [State.batch, hleft]
      exact List.mem_cons_of_mem item.1 hmem)
  rw [State.process]
  split
  · split
    · exact hpopped.closeServer hne
    · exact hpopped.closeConnection hne
  · split
    · exact hpopped
    · split
      · exact hpopped.goOn fun hon => by rcases hon with hon | hon <;> cases hon; exact hne rfl
      · exact hpopped.goOn fun hon => by rcases hon with hon | hon <;> cases hon; exact hne rfl

theorem step (hleaves : Leaves fd state action)
    (hnext : step maxEvents state action = some next) : Stuck fd socket next := by
  have hidle : ¬ Task.idle.On fd := fun hon => by rcases hon with hon | hon <;> cases hon
  cases branch_of_step hnext with
  | arrive hsocket => exact hstuck.happen (Ne.symm hleaves) _
  | hangUp hsocket => exact hstuck.happen (Ne.symm hleaves) _
  | wait _ _ hanswer =>
      refine hstuck.poll (fun hmem => hanswer.hqueue.subset hmem) fun hmem => ?_
      rw [Poller.left_waitForEvents] at hmem
      obtain ⟨item, hitem, rfl⟩ := List.mem_map.mp hmem
      exact .inl (hanswer.hreports item hitem).1
  | waitFails => exact hstuck.poll id fun hmem => absurd hmem List.not_mem_nil
  | next _ hevent =>
      obtain ⟨item, rfl, hleft⟩ := Poller.left_of_nextEvent hevent
      exact hstuck.process hleft
  | acceptAgain => exact hstuck.goOn hidle
  | acceptFails => exact hstuck.goOn hidle
  | acceptDrops htask =>
      exact (hstuck.set (hstuck.ne_of_on (.inl htask)) _).goOn hidle
  | accepts htask _ hfree =>
      refine (hstuck.set (hstuck.ne_of_on (.inl htask)) _).addFd (fun heq => ?_) _
      rw [← heq, hstuck.hsocket] at hfree
      cases hfree
  | recv htask => exact hstuck.set (hstuck.ne_of_on (.inr htask)) _
  | recvAgain => exact hstuck.goOn hidle
  | recvClosed htask =>
      exact (hstuck.closeConnection (hstuck.ne_of_on (.inr htask))).goOn hidle
  | recvError htask =>
      exact (hstuck.closeConnection (hstuck.ne_of_on (.inr htask))).goOn hidle
  | disconnect => exact hstuck.close (Ne.symm hleaves)
  | disconnectServer => exact hstuck

end Stuck

/-- The clients that wait when `accept` fails go on waiting, whatever the loop does,
until another one knocks. -/
theorem waiting_of_acceptFails {attached : List (ℕ × Socket)} {failed last : State}
    (hreaches : Reaches (step maxEvents) anything (.start attached) state)
    (htask : state.task = .accepting fd) (hready : fd ∉ state.ready)
    (hsocket : state.sockets fd = some socket)
    (hfails : step maxEvents state .acceptFails = some failed)
    (hlater : Reaches (step maxEvents) (Leaves fd) failed last) :
    last.sockets fd = some socket ∧ ¬ last.Awaited fd := by
  have hbatch := (watched_of_reaches hreaches).htask fd (.inl htask)
  have hstuck : Stuck fd socket failed := by
    cases branch_of_step hfails with
    | acceptFails =>
        refine ⟨hsocket, ?_⟩
        rintro (hmem | hmem | hon)
        · exact hready hmem
        · exact hbatch hmem
        · rcases hon with hon | hon <;> cases hon
  have hlast := hlater.invariant (fun hstuck hleaves hnext => hstuck.step hleaves hnext) hstuck
  exact ⟨hlast.hsocket, hlast.hawaited⟩

/-! ## Nothing starves -/

def Action.isWait : Action → Bool
  | .wait _ _ => true
  | _ => false

/-- A descriptor was reported, or has nothing to report any more. -/
def State.Attended (state : State) (fd : ℕ) : Prop :=
  fd ∈ state.batch ∨
    ∀ socket, state.sockets fd = some socket → socket.readable = false

theorem attended_of_close : (state.close fd).Attended fd :=
  .inr fun _ hsocket => by
    obtain ⟨-, hnone⟩ | ⟨hne, -⟩ := State.set_cases hsocket
    · cases hnone
    · exact absurd rfl hne

theorem nearer_of_close {n : ℕ} (hwithin : Within n state.ready fd) (other : ℕ) :
    (state.close other).Attended fd ∨ Within n (state.close other).ready fd := by
  by_cases heq : fd = other
  · exact .inl (heq ▸ attended_of_close)
  · exact .inr (hwithin.withdraw heq)

theorem nearer_of_closeServer {n : ℕ} (hwithin : Within n state.ready fd) (other : ℕ) :
    (state.closeServer other).Attended fd ∨ Within n (state.closeServer other).ready fd := by
  rw [State.closeServer]
  split
  · exact nearer_of_close hwithin other
  · exact .inr hwithin

theorem nearer_of_closeConnection {n : ℕ} (hwithin : Within n state.ready fd) (other : ℕ) :
    (state.closeConnection other).Attended fd ∨
      Within n (state.closeConnection other).ready fd := by
  rw [State.closeConnection]
  split
  · split
    · exact .inr hwithin
    · exact nearer_of_close hwithin other
  · exact .inr hwithin

theorem nearer_of_process {n : ℕ} (hwithin : Within n state.ready fd) (e : Event) :
    (state.process e).Attended fd ∨ Within n (state.process e).ready fd := by
  rw [State.process]
  split
  · split
    · exact nearer_of_closeServer hwithin e.fd
    · exact nearer_of_closeConnection hwithin e.fd
  · split
    · exact .inr hwithin
    · split
      · exact .inr hwithin
      · exact .inr hwithin

theorem within_addFd {n : ℕ} (hwithin : Within n state.ready fd) (cfd : ℕ) (client : Socket) :
    Within n (state.addFd cfd client).ready fd := by
  rw [State.addFd]
  split
  · exact hwithin.join cfd
  · exact hwithin

/-- A wait brings what is queued nearer, and nothing puts it back. -/
theorem nearer_of_step {n : ℕ} (hwithin : Within n state.ready fd)
    (hnext : step maxEvents state action = some next) :
    next.Attended fd ∨ if action.isWait then maxEvents ≤ n ∧
      Within (n - maxEvents) next.ready fd else Within n next.ready fd := by
  cases branch_of_step hnext with
  | arrive => exact .inr (hwithin.join _)
  | hangUp => exact .inr (hwithin.join _)
  | wait _ _ hanswer =>
      by_cases hwants : state.wants fd = true
      · obtain hserved | hnearer := hanswer.nearer hwithin hwants
        · exact .inl (.inl (by rwa [State.batch_epollWait]))
        · exact .inr hnearer
      · refine .inl (.inr fun socket hsocket => Bool.eq_false_of_not_eq_true fun hreadable => ?_)
        exact hwants (State.wants_eq.mpr ⟨socket, hsocket, hreadable⟩)
  | waitFails => exact .inr hwithin
  | @next e mPoller => exact @nearer_of_process { state with mPoller := mPoller } fd n hwithin e
  | acceptAgain => exact .inr hwithin
  | acceptFails => exact .inr hwithin
  | acceptDrops => exact .inr hwithin
  | accepts => exact .inr (within_addFd hwithin _ _)
  | recv => exact .inr hwithin
  | recvAgain => exact .inr hwithin
  | @recvClosed other => exact nearer_of_closeConnection hwithin other
  | @recvError other => exact nearer_of_closeConnection hwithin other
  | disconnect other => exact nearer_of_close hwithin other
  | disconnectServer => exact .inr hwithin

/-- What has something to report when the loop comes to wait is reported, or has
nothing more to report, within as many waits as what is queued fills. -/
theorem attended_of_waits {attached : List (ℕ × Socket)} {last : State} {actions : List Action}
    (hreaches : Reaches (step maxEvents) anything (.start attached) state)
    (hidle : state.task = .idle) (hleft : state.mPoller.left = [])
    (hsocket : state.sockets fd = some socket) (hreadable : socket.readable = true)
    (hfailed : fd ∉ state.failed) (hrun : run (step maxEvents) state actions = some last)
    (hmany : state.ready.length ≤ maxEvents * actions.countP Action.isWait) :
    ∃ front mid, front <+: actions ∧ run (step maxEvents) state front = some mid ∧
      mid.Attended fd := by
  have hawaited := (watched_of_reaches hreaches).hcovered fd socket hsocket hreadable
  have hqueued : fd ∈ state.ready := by
    rcases hawaited.resolve_right hfailed with hmem | hmem | hon
    · exact hmem
    · rw [State.batch, hleft] at hmem
      exact absurd hmem List.not_mem_nil
    · rw [hidle] at hon
      rcases hon with hon | hon <;> cases hon
  have hpos := List.length_pos_of_mem hqueued
  have hnear : state.ready.length - 1 < maxEvents * actions.countP Action.isWait := by omega
  exact exists_goal_of_turns (fun hwithin hnext => nearer_of_step hwithin hnext)
    (within_of_mem hqueued) hrun hnear

/-! ## Events left over are about open sockets -/

/-- Nobody disconnects a connection that has an event left over, no callback of the
loop itself either. -/
def Settled (state : State) : Action → Prop
  | .disconnect fd => fd ∉ state.batch
  | _ => True

/-- Each event left over is of a socket that is open, and that has hung up where the
event says so. -/
def State.Fresh (state : State) : Prop :=
  ∀ item ∈ state.mPoller.left, ∃ socket, state.sockets item.1 = some socket ∧
    (item.2.isClose = true → socket.events.isClose = true)

namespace State.Fresh

variable (hfresh : state.Fresh)
include hfresh

theorem set {changed : Option Socket} (hsame : fd ∈ state.batch → ∃ after,
      changed = some after ∧ ∀ socket, state.sockets fd = some socket →
        socket.events.isClose = true → after.events.isClose = true) :
    (state.set fd changed).Fresh := by
  intro item hitem
  obtain ⟨socket, hsocket, hclose⟩ := hfresh item hitem
  by_cases heq : item.1 = fd
  · subst heq
    obtain ⟨after, rfl, hafter⟩ := hsame (List.mem_map_of_mem hitem)
    exact ⟨after, Function.update_self _ _ _, fun h => hafter socket hsocket (hclose h)⟩
  · exact ⟨socket, (Function.update_of_ne heq _ _).trans hsocket, hclose⟩

theorem close (hout : fd ∉ state.batch) : (state.close fd).Fresh :=
  hfresh.set fun hmem => absurd hmem hout

theorem closeServer (hout : fd ∉ state.batch) : (state.closeServer fd).Fresh := by
  rw [State.closeServer]
  split
  · exact hfresh.close hout
  · exact hfresh

theorem closeConnection (hout : fd ∉ state.batch) : (state.closeConnection fd).Fresh := by
  rw [State.closeConnection]
  split
  · split
    · exact hfresh
    · exact hfresh.close hout
  · exact hfresh

theorem process {mPoller : Poller} {item : ℕ × EpollEvents} (hwatched : Watched state)
    (hleft : state.mPoller.left = item :: mPoller.left) :
    ({ state with mPoller := mPoller }.process (toEvent item)).Fresh := by
  have hout := hwatched.notMem_rest hleft
  have hrest : State.Fresh { state with mPoller := mPoller } :=
    fun other hother => hfresh other (hleft ▸ List.mem_cons_of_mem item hother)
  rw [State.process]
  split
  · split
    · exact hrest.closeServer hout
    · exact hrest.closeConnection hout
  · split
    · exact hrest
    · split
      · exact hrest
      · exact hrest

theorem step (hwatched : Watched state) (hsettled : Settled state action)
    (hnext : step maxEvents state action = some next) : next.Fresh := by
  cases branch_of_step hnext with
  | arrive hsocket =>
      refine hfresh.set fun _ => ⟨_, rfl, fun found hfound hclose => ?_⟩
      obtain rfl := Option.some.inj (hsocket.symm.trans hfound)
      exact hclose
  | hangUp hsocket =>
      refine hfresh.set fun _ => ⟨_, rfl, fun found hfound hclose => ?_⟩
      obtain rfl := Option.some.inj (hsocket.symm.trans hfound)
      simp only [Socket.events, EpollEvents.isClose, Bool.or_eq_true] at hclose ⊢
      tauto
  | wait _ _ hanswer =>
      intro item hitem
      rw [State.left_epollWait] at hitem
      obtain ⟨socket, hsocket, -, hevents⟩ := hanswer.of_mem hitem
      exact ⟨socket, hsocket, fun hclose => by rwa [hevents] at hclose⟩
  | waitFails => exact fun item hitem => absurd hitem List.not_mem_nil
  | next _ hevent =>
      obtain ⟨item, rfl, hleft⟩ := Poller.left_of_nextEvent hevent
      exact hfresh.process hwatched hleft
  | acceptAgain => exact hfresh
  | acceptFails => exact hfresh
  | acceptDrops htask hsocket =>
      exact hfresh.set fun hmem => absurd hmem (hwatched.htask _ (.inl htask))
  | accepts htask hsocket hfree =>
      refine (hfresh.set fun hmem => absurd hmem (hwatched.htask _ (.inl htask))).set
        fun hmem => ?_
      obtain ⟨item, hitem, heq⟩ := List.mem_map.mp hmem
      obtain ⟨socket, hopen, -⟩ := hfresh item hitem
      rw [heq, hfree] at hopen
      cases hopen
  | recv htask hsocket =>
      exact hfresh.set fun hmem => absurd hmem (hwatched.htask _ (.inr htask))
  | recvAgain => exact hfresh
  | recvClosed htask => exact hfresh.closeConnection (hwatched.htask _ (.inr htask))
  | recvError htask => exact hfresh.closeConnection (hwatched.htask _ (.inr htask))
  | disconnect => exact hfresh.close hsettled
  | disconnectServer => exact hfresh

end State.Fresh

/-- As long as nobody disconnects what has an event left over, a close flag that
the loop acts on is that of the very socket it closes. -/
theorem fresh_of_reaches {attached : List (ℕ × Socket)}
    (hreaches : Reaches (step maxEvents) Settled (.start attached) state) : state.Fresh := by
  have hstart : State.Fresh (.start attached) := by
    have hall : ∀ (more : List (ℕ × Socket)) {state : State}, state.mPoller.left = [] →
        (more.foldl (fun state item => state.addFd item.1 item.2) state).mPoller.left = [] := by
      intro more
      induction more with
      | nil => exact fun hleft => hleft
      | cons item more ih => exact fun hleft => ih hleft
    intro item hitem
    rw [State.start, hall attached rfl] at hitem
    exact absurd hitem List.not_mem_nil
  have hkeeps : ∀ {state : State} {action : Action} {next : State},
      Watched state ∧ state.Fresh → Settled state action →
      step maxEvents state action = some next → Watched next ∧ next.Fresh :=
    fun hboth hsettled hnext =>
      ⟨hboth.1.step hnext, hboth.2.step hboth.1 hsettled hnext⟩
  exact (hreaches.invariant hkeeps ⟨watched_start attached, hstart⟩).2

end Steps

/-! ## Two runs -/

/-- Two clients knock at a server, and the peer of a connection has hung up. -/
def attachedPair : List (ℕ × Socket) :=
  [(3, ⟨true, 2, false, false, false⟩), (5, ⟨false, 0, false, false, true⟩)]

/-- A wait that reports both. -/
def waitBoth : Action :=
  .wait [(3, ⟨true, false, false, false⟩), (5, ⟨true, false, false, true⟩)] []

/-- The loop begins with the server, and runs out of descriptors. -/
def exhausted : List Action :=
  [waitBoth, .next, .acceptFails]

/-- The same with room for one report. -/
def oneByOne : List Action :=
  [.wait [(3, ⟨true, false, false, false⟩)] [5], .next, .acceptFails,
    .wait [(5, ⟨true, false, false, true⟩)] []]

theorem awaited_of_reaches_exhausted :
    ∃ state, Reaches (step 256) anything (.start attachedPair) state ∧
      state.sockets 5 = some ⟨false, 0, false, false, true⟩ ∧
      (state.Awaited 5 ∨ 5 ∈ state.failed) := by
  have hreaches : ∃ state, Reaches (step 256) anything (.start attachedPair) state ∧
      state.sockets 5 = some ⟨false, 0, false, false, true⟩ :=
    ⟨_, .of_run (rfl : run (step 256) (.start attachedPair) exhausted = some _)
      (meets_anything _ _), rfl⟩
  obtain ⟨state, hreaches, hsocket⟩ := hreaches
  exact ⟨state, hreaches, hsocket, awaited_of_reaches hreaches hsocket rfl⟩

theorem waiting_of_acceptFails_exhausted :
    ∃ state failed last, Reaches (step 256) anything (.start attachedPair) state ∧
      step 256 state .acceptFails = some failed ∧
      run (step 256) failed [.next, .wait [] [], .wait [] []] = some last ∧
      last.sockets 3 = some ⟨true, 2, false, false, false⟩ ∧ ¬ last.Awaited 3 := by
  have hreaches : ∃ state failed last,
      Reaches (step 256) anything (.start attachedPair) state ∧
      state.task = .accepting 3 ∧ 3 ∉ state.ready ∧
      state.sockets 3 = some ⟨true, 2, false, false, false⟩ ∧
      step 256 state .acceptFails = some failed ∧
      run (step 256) failed [.next, .wait [] [], .wait [] []] = some last :=
    ⟨_, _, _, .of_run (rfl : run (step 256) (.start attachedPair) [waitBoth, .next] = some _)
      (meets_anything _ _), rfl, List.not_mem_nil, rfl, rfl, rfl⟩
  obtain ⟨state, failed, last, hreaches, htask, hready, hsocket, hfails, hrun⟩ := hreaches
  have hlater : Reaches (step 256) (Leaves 3) failed last := .of_run hrun
    (meets_of_forall (by simp [Leaves]) failed)
  exact ⟨state, failed, last, hreaches, hfails, hrun,
    waiting_of_acceptFails hreaches htask hready hsocket hfails hlater⟩

theorem attended_of_waits_oneByOne :
    ∃ last, run (step 1) (.start attachedPair) oneByOne = some last ∧
      ∃ front mid, front <+: oneByOne ∧
        run (step 1) (.start attachedPair) front = some mid ∧ mid.Attended 5 := by
  have hrun : ∃ last,
      run (step 1) (.start attachedPair) oneByOne = some last := ⟨_, rfl⟩
  obtain ⟨last, hrun⟩ := hrun
  refine ⟨last, hrun, ?_⟩
  have hreaches : Reaches (step 1) anything (.start attachedPair) (.start attachedPair) := .refl
  exact attended_of_waits hreaches rfl rfl rfl rfl List.not_mem_nil hrun (by decide)

/-- The connection is disconnected by another thread, and its descriptor is the
first client's. -/
def recycled : List Action :=
  [waitBoth, .next, .disconnect 5, .accepts 5 ⟨false, 1, false, false, false⟩,
    .accepts 6 ⟨false, 0, false, false, false⟩, .acceptAgain]

/-- The close flag left over from the old connection closes the new one, with what it
has sent. -/
theorem not_fresh_of_recycled :
    ∃ state next, run (step 256) (.start attachedPair) recycled = some state ∧
      state.sockets 5 = some ⟨false, 1, false, false, false⟩ ∧ ¬ state.Fresh ∧
      step 256 state .next = some next ∧ next.sockets 5 = none := by
  have hrun : ∃ state next,
      run (step 256) (.start attachedPair) recycled = some state ∧
      state.sockets 5 = some ⟨false, 1, false, false, false⟩ ∧
      (5, ⟨true, false, false, true⟩) ∈ state.mPoller.left ∧
      step 256 state .next = some next ∧ next.sockets 5 = none :=
    ⟨_, _, rfl, rfl, List.mem_cons_self, rfl, rfl⟩
  obtain ⟨state, next, hrun, hsocket, hleft, hnext, hclosed⟩ := hrun
  refine ⟨state, next, hrun, hsocket, fun hfresh => ?_, hnext, hclosed⟩
  obtain ⟨socket, hopen, hclose⟩ := hfresh _ hleft
  obtain rfl := Option.some.inj (hsocket.symm.trans hopen)
  cases hclose rfl

theorem fresh_of_reaches_exhausted :
    ∃ state, Reaches (step 256) Settled (.start attachedPair) state ∧
      state.mPoller.left = [(5, ⟨true, false, false, true⟩)] ∧ state.Fresh := by
  have hreaches : ∃ state, Reaches (step 256) Settled (.start attachedPair) state ∧
      state.mPoller.left = [(5, ⟨true, false, false, true⟩)] :=
    ⟨_, .of_run (rfl : run (step 256) (.start attachedPair) exhausted = some _)
      (meets_of_forall (by simp [exhausted, waitBoth, Settled]) _), rfl⟩
  obtain ⟨state, hreaches, hleft⟩ := hreaches
  exact ⟨state, hreaches, hleft, fresh_of_reaches hreaches⟩

end Sednl.Readiness
