import Sednl.Library.Transition
import Sednl.Ring.Lossless

/-!
# The event loop

`run_imp` over the epoll backend, as far as connections go: which poll event
closes a connection and which one reads it, with peers that send and close and
a kernel that reports what it likes when it likes.  A poll event with a close
flag is not read first, so what the socket still holds is lost; short of that,
a connection is closed only once its complete events are on their queues.
-/

namespace Sednl.EventLoop

open Sednl.Endian
open Sednl.Tag
open Sednl.Ring
open Sednl.Transition

/-- The flags of an `epoll_event`. -/
structure EpollEvents where
  epollin : Bool
  epollerr : Bool
  epollhup : Bool
  epollrdhup : Bool
  deriving DecidableEq, Repr

/-- `Poller::next_event`, the flag `is_close`. -/
def EpollEvents.isClose (events : EpollEvents) : Bool :=
  events.epollerr || events.epollhup || events.epollrdhup

/-- `Poller::next_event`, the flag `is_read`. -/
def EpollEvents.isRead (events : EpollEvents) : Bool :=
  events.epollin

/-- The events whose frames end within the first `received` bytes. -/
def whole : List Event → (received : ℕ) → List Event
  | [], _ => []
  | event :: events, received =>
      if event.size ≤ received then event :: whole events (received - event.size) else []

/-- A connection with its socket: the events its peer has sent, how many bytes
of their frames have reached the receive buffer, and how many `recv` has taken.
`pushed` are the events on the queues, `closed` says that the connection is
closed and its disconnect event pushed, and `promised` is how many bytes had
arrived when its last poll event was processed. -/
structure Socket where
  sent : List Event
  arrived : ℕ
  taken : ℕ
  peerClosed : Bool
  mBuffer : RingBuf
  pushed : List Event
  closed : Bool
  promised : ℕ

/-- The connections, and the one that is being read with the event of the loop. -/
structure State where
  sockets : ℕ → Option Socket
  reading : Option (ℕ × Event)

def State.set (state : State) (cn : ℕ) (socket : Socket) : State :=
  { state with sockets := Function.update state.sockets cn (some socket) }

@[simp]
theorem State.set_self (state : State) (cn : ℕ) (socket : Socket) :
    (state.set cn socket).sockets cn = some socket :=
  Function.update_self _ _ _

theorem State.set_of_ne {cn other : ℕ} (hne : other ≠ cn) (state : State)
    (socket : Socket) : (state.set cn socket).sockets other = state.sockets other :=
  Function.update_of_ne hne _ _

namespace Socket

def fresh (buf : RingBuf) : Socket where
  sent := []
  arrived := 0
  taken := 0
  peerClosed := false
  mBuffer := buf
  pushed := []
  closed := false
  promised := 0

def send (socket : Socket) (event : Event) : Socket :=
  { socket with sent := socket.sent ++ [event] }

/-- `close_connection`, with the disconnect event. -/
def close (socket : Socket) : Socket :=
  { socket with closed := true }

/-- What `recv` returns next when it returns `count` bytes. -/
def chunk (peer : Host) (socket : Socket) (count : ℕ) : List Byte :=
  ((packs peer socket.sent).drop socket.taken).take count

/-- The rest of the loop of `read_connection` after `recv`: the event number
`k` handed over is lost when its queue is full or its push fails. -/
def read (socket : Socket) (chunk : List Byte) (env : Env) (full : ℕ → Bool)
    (event : Event) : Option (Socket × Event) :=
  match socket.mBuffer.put chunk with
  | none => none
  | some (_, buf) =>
      match ((handOver env (buf.length + 1) buf event).run []).1 with
      | none => none
      | some (handed, buf, event) =>
          some ({ socket with
            taken := socket.taken + chunk.length
            mBuffer := buf
            pushed := socket.pushed ++
              (handed.zipIdx.filter fun item => !full item.2).map Prod.fst }, event)

end Socket

inductive Action where
  /-- A connection is accepted, or was attached when the loop started.  It brings its
  `m_buffer` along. -/
  | connected (cn : ℕ) (buf : RingBuf) (hbuf : buf.mSize = connectionBufferSize - 1)
  | send (cn : ℕ) (event : Event)
  | arrive (cn count : ℕ)
  | peerClose (cn : ℕ)
  /-- A poll event for the socket of a connection is processed. -/
  | poll (cn : ℕ) (events : EpollEvents)
  /-- `recv` returns `count` bytes. -/
  | recv (count : ℕ) (env : Env) (full : ℕ → Bool)
  /-- `recv` returns -1 with `EAGAIN`. -/
  | recvAgain
  /-- `recv` returns 0. -/
  | recvClosed
  /-- `recv` returns -1 with another error. -/
  | recvError

def step (peer : Host) (state : State) : Action → Option State
  | .connected cn buf _ =>
      match state.sockets cn with
      | none => some (state.set cn (.fresh buf))
      | some _ => none
  | .send cn event =>
      match state.sockets cn with
      | none => none
      | some socket =>
          if socket.closed || socket.peerClosed then none
          else some (state.set cn (socket.send event))
  | .arrive cn count =>
      match state.sockets cn with
      | none => none
      | some socket =>
          if socket.closed || socket.peerClosed then none
          else if socket.arrived + count ≤ total socket.sent then
            some (state.set cn { socket with arrived := socket.arrived + count })
          else none
  | .peerClose cn =>
      match state.sockets cn with
      | none => none
      | some socket =>
          if socket.closed then none
          else some (state.set cn { socket with peerClosed := true })
  | .poll cn events =>
      match state.reading, state.sockets cn with
      | none, some socket =>
          if socket.closed then none
          else
            let socket := { socket with promised := socket.arrived }
            if events.isClose then some (state.set cn socket.close)
            else if !events.isRead then some (state.set cn socket)
            else some { state.set cn socket with reading := some (cn, ⟨[], []⟩) }
      | _, _ => none
  | .recv count env full =>
      match state.reading with
      | none => none
      | some (cn, event) =>
          match state.sockets cn with
          | none => none
          | some socket =>
              if !socket.closed ∧ 1 ≤ count ∧ count ≤ 512 ∧
                  socket.taken + count ≤ socket.arrived then
                (socket.read (socket.chunk peer count) env full event).map fun result =>
                  { state.set cn result.1 with reading := some (cn, result.2) }
              else none
  | .recvAgain =>
      match state.reading with
      | none => none
      | some (cn, _) =>
          match state.sockets cn with
          | none => none
          | some socket =>
              if socket.taken = socket.arrived ∧ !socket.peerClosed then
                some { state with reading := none }
              else none
  | .recvClosed =>
      match state.reading with
      | none => none
      | some (cn, _) =>
          match state.sockets cn with
          | none => none
          | some socket =>
              if socket.taken = socket.arrived ∧ socket.peerClosed then
                some { state.set cn socket.close with reading := none }
              else none
  | .recvError =>
      match state.reading with
      | none => none
      | some (cn, _) =>
          match state.sockets cn with
          | none => none
          | some socket => some { state.set cn socket.close with reading := none }

def State.start : State :=
  ⟨fun _ => none, none⟩

/-- Each connection that is closed had all events on their queues that were
complete when its last poll event was processed. -/
def State.Delivered (state : State) : Prop :=
  ∀ cn socket, state.sockets cn = some socket → socket.closed = true →
    whole socket.sent socket.promised <+: socket.pushed

/-- No event is completed by the bytes that `recv` has not taken. -/
def Socket.Drained (socket : Socket) : Prop :=
  whole socket.sent socket.arrived = whole socket.sent socket.taken

/-- When a step is safe: a connection brings a buffer that was not used before, an
event that is sent can be received, a close flag, or an error of `recv`, finds no
complete event in the receive buffer, and what `recv` returns fits behind what is
pending and belongs to frames in place, with room on the queues and no allocation
failing. -/
def Safe (state : State) : Action → Prop
  | .connected _ buf _ => buf.mStart = 0 ∧ buf.mEnd = 0
  | .send _ event => event.Sendable
  | .poll cn events =>
      events.isClose = true → ∀ socket, state.sockets cn = some socket → socket.Drained
  | .recv count env full =>
      env.Allocates ∧ (∀ k, full k = false) ∧
        ∀ cn event socket, state.reading = some (cn, event) →
          state.sockets cn = some socket →
          pending socket.sent socket.taken + count ≤ connectionBufferSize - 1 ∧
            FramesAt (fun start frame => start < socket.taken + count →
              FrameInPlace (connectionBufferSize - 1) start frame) 0 socket.sent
  | .recvError =>
      ∀ cn event socket, state.reading = some (cn, event) →
        state.sockets cn = some socket → socket.Drained
  | _ => True

/-! ## Complete events -/

theorem whole_append (left right : List Event) (received : ℕ) :
    whole (left ++ right) (total left + received) = left ++ whole right received := by
  induction left with
  | nil => simp
  | cons event left ih =>
      rw [List.cons_append, whole, total_cons, if_pos (by omega), Nat.add_assoc,
        Nat.add_sub_cancel_left, ih, List.cons_append]

theorem whole_prefix {less more : ℕ} (hle : less ≤ more) (events : List Event) :
    whole events less <+: whole events more := by
  induction events generalizing less more with
  | nil => exact List.prefix_rfl
  | cons event events ih =>
      rw [whole, whole]
      by_cases hsize : event.size ≤ less
      · rw [if_pos hsize, if_pos (hsize.trans hle)]
        exact List.prefix_cons_inj event |>.mpr (ih (by omega))
      · rw [if_neg hsize]
        exact List.nil_prefix

/-- While everything is pending, nothing is complete. -/
theorem whole_of_pending {events : List Event} {received : ℕ}
    (hpending : pending events received = received) : whole events received = [] := by
  cases events with
  | nil => rfl
  | cons event events =>
      rw [whole]
      refine if_neg fun hsize => ?_
      have hthree := event.three_le_size
      have hle := pending_le events (received - event.size)
      rw [pending, if_pos hsize] at hpending
      omega

/-- Another event does not change what is pending of those before it. -/
theorem pending_snoc {events : List Event} {received : ℕ} (hle : received ≤ total events)
    (event : Event) : pending (events ++ [event]) received = pending events received := by
  induction events generalizing received with
  | nil =>
      obtain rfl := Nat.le_zero.mp hle
      have hthree := event.three_le_size
      rw [List.nil_append]
      exact if_neg (by omega)
  | cons head events ih =>
      rw [total_cons] at hle
      rw [List.cons_append, pending, pending]
      by_cases hsize : head.size ≤ received
      · rw [if_pos hsize, if_pos hsize, ih (by omega)]
      · rw [if_neg hsize, if_neg hsize]

/-- What a settled buffer has handed over is what is complete. -/
theorem settled_whole {size : ℕ} (hsize : size < 2 ^ 31) {events handed : List Event}
    {all received : List (List Byte)} {buf : RingBuf}
    (hsettled : Settled size events all received handed buf) :
    handed = whole events received.flatten.length := by
  obtain ⟨⟨hreached, _, ⟨left, rfl⟩⟩, hpending⟩ := hsettled
  obtain ⟨_, htally, _⟩ := hreached.contents_eq hsize
  have hreceived : received.flatten.length = total handed + buf.length := by omega
  rw [hreceived, pending_append] at hpending
  rw [hreceived, whole_append, whole_of_pending hpending, List.append_nil]

/-! ## The invariant -/

theorem bufferSize_lt : connectionBufferSize - 1 < 2 ^ 31 := by decide

/-- An open connection keeps up with its peer: what was taken is in its buffer
or was pushed, and only unfinished frames are left in the buffer. -/
structure Socket.Serves (peer : Host) (socket : Socket) : Prop where
  hsendable : ∀ event ∈ socket.sent, event.Sendable
  htaken : socket.taken ≤ socket.arrived
  harrived : socket.arrived ≤ total socket.sent
  hpromised : socket.promised ≤ socket.arrived
  hsettled : Settled (connectionBufferSize - 1) socket.sent
    [(packs peer socket.sent).take socket.taken, (packs peer socket.sent).drop socket.taken]
    [(packs peer socket.sent).take socket.taken] socket.pushed socket.mBuffer

def Socket.Kept (peer : Host) (socket : Socket) : Prop :=
  (socket.closed = false → socket.Serves peer) ∧
    (socket.closed = true → whole socket.sent socket.promised <+: socket.pushed)

def Kept (peer : Host) (state : State) : Prop :=
  ∀ cn socket, state.sockets cn = some socket → socket.Kept peer

section Sockets

variable {peer : Host} {socket : Socket}

theorem Socket.Serves.length_taken (hserves : socket.Serves peer) :
    [(packs peer socket.sent).take socket.taken].flatten.length = socket.taken := by
  have htaken := hserves.htaken.trans hserves.harrived
  rw [List.flatten_singleton, List.length_take, length_packs]
  omega

theorem Socket.Serves.pushed_eq (hserves : socket.Serves peer) :
    socket.pushed = whole socket.sent socket.taken := by
  have hwhole := settled_whole bufferSize_lt hserves.hsettled
  rwa [hserves.length_taken] at hwhole

/-- An open connection that serves its peer is kept. -/
theorem Socket.Serves.kept (hserves : socket.Serves peer) (hopen : socket.closed = false) :
    socket.Kept peer :=
  ⟨fun _ => hserves, fun hclosed => by simp [hopen] at hclosed⟩

/-- A drained connection may be closed. -/
theorem Socket.Serves.close (hserves : socket.Serves peer) (hdrained : socket.Drained) :
    socket.close.Kept peer := by
  refine ⟨fun h => by simp [Socket.close] at h, fun _ => ?_⟩
  calc whole socket.sent socket.promised
      <+: whole socket.sent socket.arrived := whole_prefix hserves.hpromised socket.sent
    _ = socket.pushed := by rw [hdrained, hserves.pushed_eq]

/-- So may one that is closed already. -/
theorem Socket.Kept.close (hkept : socket.Kept peer) (hdrained : socket.Drained) :
    socket.close.Kept peer := by
  cases hclosed : socket.closed with
  | false => exact (hkept.1 hclosed).close hdrained
  | true => exact ⟨fun h => by simp [Socket.close] at h, fun _ => hkept.2 hclosed⟩

theorem Socket.Serves.arrive (hserves : socket.Serves peer) {count : ℕ}
    (hcount : socket.arrived + count ≤ total socket.sent) :
    Socket.Serves peer { socket with arrived := socket.arrived + count } := by
  obtain ⟨hsendable, htaken, _, hpromised, hsettled⟩ := hserves
  exact ⟨hsendable, htaken.trans (Nat.le_add_right _ count), hcount,
    hpromised.trans (Nat.le_add_right _ count), hsettled⟩

theorem Socket.Kept.peerClose (hkept : socket.Kept peer) :
    Socket.Kept peer { socket with peerClosed := true } := by
  refine ⟨fun hopen => ?_, hkept.2⟩
  obtain ⟨hsendable, htaken, harrived, hpromised, hsettled⟩ := hkept.1 hopen
  exact ⟨hsendable, htaken, harrived, hpromised, hsettled⟩

/-- What has arrived when a poll event is processed is promised. -/
theorem Socket.Serves.promise (hserves : socket.Serves peer) :
    Socket.Serves peer { socket with promised := socket.arrived } := by
  obtain ⟨hsendable, htaken, harrived, _, hsettled⟩ := hserves
  exact ⟨hsendable, htaken, harrived, le_rfl, hsettled⟩

/-- A buffer that was not used before is one that has just been constructed. -/
theorem eq_connectionBuffer {buf : RingBuf} (hbuf : buf.mSize = connectionBufferSize - 1)
    (hunused : buf.mStart = 0 ∧ buf.mEnd = 0) :
    ∃ hdt : buf.mDt.length = connectionBufferSize, buf = connectionBuffer buf.mDt hdt := by
  obtain ⟨mSize, mDt, mStart, mEnd, hsize, hdt, hstart, hend⟩ := buf
  obtain ⟨rfl, rfl⟩ : mStart = 0 ∧ mEnd = 0 := hunused
  obtain rfl : mSize = connectionBufferSize - 1 := hbuf
  exact ⟨hdt, rfl⟩

theorem Socket.kept_fresh {buf : RingBuf} (hbuf : buf.mSize = connectionBufferSize - 1)
    (hunused : buf.mStart = 0 ∧ buf.mEnd = 0) : (Socket.fresh buf).Kept peer := by
  obtain ⟨hdt, hnew⟩ := eq_connectionBuffer hbuf hunused
  rw [hnew]
  refine ⟨fun _ => ⟨by simp [Socket.fresh], le_rfl, le_rfl, le_rfl,
    ⟨?_, ⟨[[]], rfl⟩, List.prefix_rfl⟩, rfl⟩, fun h => ?_⟩
  · exact reached_connectionBuffer hdt
  · simp [Socket.fresh] at h

theorem Socket.Serves.send (hserves : socket.Serves peer) {event : Event}
    (hevent : event.Sendable) : (socket.send event).Serves peer := by
  obtain ⟨hsendable, htaken, harrived, hpromised, ⟨hreached, _, hhanded⟩, hpending⟩ := hserves
  have hle : socket.taken ≤ (packs peer socket.sent).length := by
    rw [length_packs]
    exact htaken.trans harrived
  have hsame : (packs peer (socket.sent ++ [event])).take socket.taken =
      (packs peer socket.sent).take socket.taken := by
    rw [packs_append, List.take_append_of_le_length hle]
  refine ⟨?_, htaken, ?_, hpromised, ⟨?_, ⟨[_], rfl⟩, ?_⟩, ?_⟩
  · intro other hother
    rcases List.mem_append.mp hother with hother | hother
    · exact hsendable other hother
    · rwa [List.mem_singleton.mp hother]
  · exact harrived.trans (by rw [Socket.send, total_append]; omega)
  · rw [Socket.send, hsame]
    exact hreached
  · exact hhanded.trans (List.prefix_append socket.sent [event])
  · rw [Socket.send, hsame]
    rw [← hpending]
    refine pending_snoc ?_ event
    rw [List.flatten_singleton, List.length_take]
    omega

/-- What a read consists of. -/
theorem Socket.read_cases {chunk : List Byte} {env : Env} {full : ℕ → Bool}
    {event last : Event} {next : Socket}
    (hread : socket.read chunk env full event = some (next, last)) :
    ∃ accepted buf handed settled, socket.mBuffer.put chunk = some (accepted, buf) ∧
      ((handOver env (buf.length + 1) buf event).run []).1 = some (handed, settled, last) ∧
      next = { socket with
        taken := socket.taken + chunk.length
        mBuffer := settled
        pushed := socket.pushed ++
          (handed.zipIdx.filter fun item => !full item.2).map Prod.fst } := by
  rw [Socket.read] at hread
  split at hread
  · simp at hread
  · rename_i accepted buf hput
    split at hread
    · simp at hread
    · rename_i handed settled lastEvent hrun
      obtain ⟨rfl, rfl⟩ := Prod.mk.inj (Option.some.inj hread)
      exact ⟨accepted, buf, handed, settled, hput, hrun, rfl⟩

/-- With room on every queue all events are pushed. -/
theorem pushed_of_room {full : ℕ → Bool} (hroom : ∀ k, full k = false) (handed : List Event) :
    (handed.zipIdx.filter fun item => !full item.2).map Prod.fst = handed := by
  rw [List.filter_eq_self.mpr (by simp [hroom]), List.zipIdx_map_fst]

/-- A safe `recv` is read whole: nothing is refused, cut or lost. -/
theorem Socket.Serves.read (hserves : socket.Serves peer) {count : ℕ}
    (hcount : socket.taken + count ≤ socket.arrived) {env : Env} (hallocates : env.Allocates)
    {full : ℕ → Bool} (hroom : ∀ k, full k = false)
    (hfit : pending socket.sent socket.taken + count ≤ connectionBufferSize - 1)
    (hplaced : FramesAt (fun start frame => start < socket.taken + count →
      FrameInPlace (connectionBufferSize - 1) start frame) 0 socket.sent)
    {event last : Event} {next : Socket}
    (hread : socket.read (socket.chunk peer count) env full event = some (next, last)) :
    next.Serves peer ∧ next.closed = socket.closed := by
  have hlength := hserves.length_taken
  obtain ⟨hsendable, htaken, harrived, hpromised, ⟨hreached, _, hhanded⟩, hpending⟩ := hserves
  have hchunk : (socket.chunk peer count).length = count := by
    rw [Socket.chunk, List.length_take, List.length_drop, length_packs]
    omega
  have hsplit : (packs peer socket.sent).take socket.taken ++ socket.chunk peer count =
      (packs peer socket.sent).take (socket.taken + count) := List.take_add.symm
  -- the stream, cut before and after what is read now
  have hall : [(packs peer socket.sent).take socket.taken, socket.chunk peer count,
      (packs peer socket.sent).drop (socket.taken + count)].flatten =
        packs peer socket.sent := by
    simp only [List.flatten_cons, List.flatten_nil, List.append_nil]
    rw [← List.append_assoc, hsplit, List.take_append_drop]
  have hreceived : ([(packs peer socket.sent).take socket.taken] ++
      [socket.chunk peer count]).flatten =
        (packs peer socket.sent).take (socket.taken + count) := by
    rw [List.flatten_append, List.flatten_singleton, List.flatten_singleton, hsplit]
  obtain ⟨accepted, buf, handed, settled, hput, hrun, rfl⟩ := Socket.read_cases hread
  have hsettled : Settled (connectionBufferSize - 1) socket.sent
      [_, socket.chunk peer count, (packs peer socket.sent).drop (socket.taken + count)]
      [(packs peer socket.sent).take socket.taken] socket.pushed socket.mBuffer :=
    ⟨⟨hreached, ⟨[_, _], rfl⟩, hhanded⟩, hpending⟩
  have harriving := hsettled.put bufferSize_lt (by rw [hlength, hchunk]; exact hfit) rfl hput
  have hlast := @handOver_rule env
    (fun received handed buf => received.flatten.length = socket.taken + count ∧
      Settled (connectionBufferSize - 1) socket.sent _ received handed buf)
    (fun received handed buf => received.flatten.length = socket.taken + count ∧
      Arriving (connectionBufferSize - 1) socket.sent _ received handed buf)
    (fun hbusy hpick hfound => ⟨hbusy.1, (hbusy.2.pick bufferSize_lt hall
      hsendable (by rwa [hbusy.1]) hallocates hpick).2 hfound⟩)
    (fun hbusy hpick hfound => ⟨hbusy.1, (hbusy.2.pick bufferSize_lt hall
      hsendable (by rwa [hbusy.1]) hallocates hpick).1 hfound⟩)
    _ _ _ _ _ _ _ _ _
    ⟨by rw [hreceived, List.length_take, length_packs]; omega, harriving⟩ hrun
  obtain ⟨_, ⟨⟨hreached, _, hhanded⟩, hpending⟩⟩ := hlast
  rw [hreceived] at hreached hpending
  refine ⟨⟨hsendable, ?_, harrived, hpromised, ?_⟩, rfl⟩
  · simp only [hchunk]
    exact hcount
  · simp only [hchunk, pushed_of_room hroom]
    exact ⟨⟨by simpa using hreached, ⟨[_], rfl⟩, hhanded⟩, by simpa using hpending⟩

end Sockets

/-- Reading a chunk always comes to an end. -/
theorem Socket.read_isSome {socket : Socket}
    (hsize : socket.mBuffer.mSize = connectionBufferSize - 1) {chunk : List Byte}
    (hchunk : chunk.length ≤ 512) (env : Env) (full : ℕ → Bool) (event : Event) :
    ∃ buf pushed last, socket.read chunk env full event = some ({ socket with
        taken := socket.taken + chunk.length
        mBuffer := buf
        pushed := pushed }, last) ∧
      buf.mSize = connectionBufferSize - 1 := by
  have hroom : socket.mBuffer.mSize + 65536 < 2 ^ 32 := by
    rw [hsize]
    decide
  obtain ⟨accepted, buf, hput, hbuf⟩ := put_isSome hroom hchunk
  obtain ⟨handed, last, lastEvent, hrun, hlast⟩ := @handOver_isSome env (buf.length + 1) buf
    (by rwa [hbuf]) (Nat.lt_succ_self _) event []
  rw [Socket.read, hput]
  simp only [hrun]
  exact ⟨last, _, lastEvent, rfl, hlast.trans (hbuf.trans hsize)⟩

/-! ## What a step can do -/

/-- The branches of `step` that lead to a state: what each asks for, and where
it leads. -/
inductive Branch (peer : Host) (state : State) : Action → State → Prop where
  | connected {cn : ℕ} {buf : RingBuf} {hbuf : buf.mSize = connectionBufferSize - 1}
      (hnew : state.sockets cn = none) :
      Branch peer state (.connected cn buf hbuf) (state.set cn (.fresh buf))
  | send {cn : ℕ} {event : Event} {socket : Socket}
      (hsocket : state.sockets cn = some socket) (hopen : socket.closed = false)
      (hpeer : socket.peerClosed = false) :
      Branch peer state (.send cn event) (state.set cn (socket.send event))
  | arrive {cn count : ℕ} {socket : Socket} (hsocket : state.sockets cn = some socket)
      (hopen : socket.closed = false) (hpeer : socket.peerClosed = false)
      (hcount : socket.arrived + count ≤ total socket.sent) :
      Branch peer state (.arrive cn count)
        (state.set cn { socket with arrived := socket.arrived + count })
  | peerClose {cn : ℕ} {socket : Socket} (hsocket : state.sockets cn = some socket)
      (hopen : socket.closed = false) :
      Branch peer state (.peerClose cn) (state.set cn { socket with peerClosed := true })
  | pollClose {cn : ℕ} {events : EpollEvents} {socket : Socket} (hidle : state.reading = none)
      (hsocket : state.sockets cn = some socket) (hopen : socket.closed = false)
      (hclose : events.isClose = true) :
      Branch peer state (.poll cn events)
        (state.set cn (Socket.close { socket with promised := socket.arrived }))
  | pollIdle {cn : ℕ} {events : EpollEvents} {socket : Socket} (hidle : state.reading = none)
      (hsocket : state.sockets cn = some socket) (hopen : socket.closed = false)
      (hclose : events.isClose = false) (hread : events.isRead = false) :
      Branch peer state (.poll cn events)
        (state.set cn { socket with promised := socket.arrived })
  | pollRead {cn : ℕ} {events : EpollEvents} {socket : Socket} (hidle : state.reading = none)
      (hsocket : state.sockets cn = some socket) (hopen : socket.closed = false)
      (hclose : events.isClose = false) (hread : events.isRead = true) :
      Branch peer state (.poll cn events)
        { state.set cn { socket with promised := socket.arrived } with
          reading := some (cn, ⟨[], []⟩) }
  | recv {cn : ℕ} {event last : Event} {socket found : Socket} {count : ℕ} {env : Env}
      {full : ℕ → Bool} (hreading : state.reading = some (cn, event))
      (hsocket : state.sockets cn = some socket) (hopen : socket.closed = false)
      (hcount : 1 ≤ count ∧ count ≤ 512 ∧ socket.taken + count ≤ socket.arrived)
      (hread : socket.read (socket.chunk peer count) env full event = some (found, last)) :
      Branch peer state (.recv count env full)
        { state.set cn found with reading := some (cn, last) }
  | recvAgain {cn : ℕ} {event : Event} {socket : Socket}
      (hreading : state.reading = some (cn, event)) (hsocket : state.sockets cn = some socket)
      (htaken : socket.taken = socket.arrived) (hopen : socket.peerClosed = false) :
      Branch peer state .recvAgain { state with reading := none }
  | recvClosed {cn : ℕ} {event : Event} {socket : Socket}
      (hreading : state.reading = some (cn, event)) (hsocket : state.sockets cn = some socket)
      (htaken : socket.taken = socket.arrived) (hclosed : socket.peerClosed = true) :
      Branch peer state .recvClosed { state.set cn socket.close with reading := none }
  | recvError {cn : ℕ} {event : Event} {socket : Socket}
      (hreading : state.reading = some (cn, event)) (hsocket : state.sockets cn = some socket) :
      Branch peer state .recvError { state.set cn socket.close with reading := none }

section Inversion

variable {peer : Host} {state next : State} {cn : ℕ}

theorem branch_of_poll {events : EpollEvents}
    (hnext : step peer state (.poll cn events) = some next) :
    Branch peer state (.poll cn events) next := by
  rw [step] at hnext
  split at hnext
  · rename_i socket hidle hsocket
    split at hnext
    · cases hnext
    · rename_i hopen
      have hclosed : socket.closed = false := Bool.eq_false_iff.mpr hopen
      simp only at hnext
      split at hnext
      · rename_i hclose
        obtain rfl := Option.some.inj hnext
        exact .pollClose hidle hsocket hclosed hclose
      · rename_i hclose
        split at hnext
        · rename_i hread
          obtain rfl := Option.some.inj hnext
          exact .pollIdle hidle hsocket hclosed (Bool.eq_false_iff.mpr hclose)
            (by simpa using hread)
        · rename_i hread
          obtain rfl := Option.some.inj hnext
          exact .pollRead hidle hsocket hclosed (Bool.eq_false_iff.mpr hclose)
            (by simpa using hread)
  · cases hnext

theorem branch_of_recv {count : ℕ} {env : Env} {full : ℕ → Bool}
    (hnext : step peer state (.recv count env full) = some next) :
    Branch peer state (.recv count env full) next := by
  rw [step] at hnext
  split at hnext
  · cases hnext
  · rename_i cn event hreading
    split at hnext
    · cases hnext
    · rename_i socket hsocket
      split at hnext
      · rename_i hready
        obtain ⟨hopen, hcount⟩ := hready
        obtain ⟨⟨found, last⟩, hread, rfl⟩ := Option.map_eq_some_iff.mp hnext
        exact .recv hreading hsocket (by simpa using hopen) hcount hread
      · cases hnext

/-- Each step takes one of the branches. -/
theorem branch_of_step {action : Action} (hnext : step peer state action = some next) :
    Branch peer state action next := by
  cases action with
  | connected cn buf hbuf =>
      rw [step] at hnext
      split at hnext
      · rename_i hnew
        obtain rfl := Option.some.inj hnext
        exact .connected hnew
      · cases hnext
  | send cn event =>
      rw [step] at hnext
      split at hnext
      · cases hnext
      · rename_i socket hsocket
        obtain ⟨hopen, hsome⟩ := Option.ite_none_left_eq_some.mp hnext
        obtain rfl := Option.some.inj hsome
        obtain ⟨hclosed, hpeer⟩ := Bool.or_eq_false_iff.mp (Bool.eq_false_iff.mpr hopen)
        exact .send hsocket hclosed hpeer
  | arrive cn count =>
      rw [step] at hnext
      split at hnext
      · cases hnext
      · rename_i socket hsocket
        obtain ⟨hopen, hsome⟩ := Option.ite_none_left_eq_some.mp hnext
        obtain ⟨hcount, hsome⟩ := Option.ite_none_right_eq_some.mp hsome
        obtain rfl := Option.some.inj hsome
        obtain ⟨hclosed, hpeer⟩ := Bool.or_eq_false_iff.mp (Bool.eq_false_iff.mpr hopen)
        exact .arrive hsocket hclosed hpeer hcount
  | peerClose cn =>
      rw [step] at hnext
      split at hnext
      · cases hnext
      · rename_i socket hsocket
        obtain ⟨hopen, hsome⟩ := Option.ite_none_left_eq_some.mp hnext
        obtain rfl := Option.some.inj hsome
        exact .peerClose hsocket (Bool.eq_false_iff.mpr hopen)
  | poll cn events => exact branch_of_poll hnext
  | recv count env full => exact branch_of_recv hnext
  | recvAgain =>
      rw [step] at hnext
      split at hnext
      · cases hnext
      · rename_i cn event hreading
        split at hnext
        · cases hnext
        · rename_i socket hsocket
          obtain ⟨⟨htaken, hopen⟩, hsome⟩ := Option.ite_none_right_eq_some.mp hnext
          obtain rfl := Option.some.inj hsome
          exact .recvAgain hreading hsocket htaken (by simpa using hopen)
  | recvClosed =>
      rw [step] at hnext
      split at hnext
      · cases hnext
      · rename_i cn event hreading
        split at hnext
        · cases hnext
        · rename_i socket hsocket
          obtain ⟨⟨htaken, hclosed⟩, hsome⟩ := Option.ite_none_right_eq_some.mp hnext
          obtain rfl := Option.some.inj hsome
          exact .recvClosed hreading hsocket htaken hclosed
  | recvError =>
      rw [step] at hnext
      split at hnext
      · cases hnext
      · rename_i cn event hreading
        split at hnext
        · cases hnext
        · rename_i socket hsocket
          obtain rfl := Option.some.inj hnext
          exact .recvError hreading hsocket

end Inversion

/-! ## Runs -/

section Runs

variable {peer : Host} {state : State}

theorem kept_start : Kept peer State.start := by
  intro cn socket hsocket
  simp [State.start] at hsocket

theorem Kept.set (hkept : Kept peer state) (cn : ℕ) {socket : Socket}
    (hsocket : socket.Kept peer) : Kept peer (state.set cn socket) := by
  intro other found hfound
  by_cases hsame : other = cn
  · subst hsame
    rw [State.set_self, Option.some.injEq] at hfound
    rwa [← hfound]
  · rw [State.set_of_ne hsame] at hfound
    exact hkept other found hfound

/-- A safe step leaves each connection served, or closed with its events pushed. -/
theorem Kept.step (hkept : Kept peer state) {action : Action} {next : State}
    (hsafe : Safe state action) (hnext : step peer state action = some next) :
    Kept peer next := by
  cases branch_of_step hnext with
  | @connected cn buf hbuf hnew => exact hkept.set cn (Socket.kept_fresh hbuf hsafe)
  | @send cn event socket hsocket hopen hpeer =>
      have hserves := (hkept cn socket hsocket).1 hopen
      exact hkept.set cn ((hserves.send hsafe).kept hopen)
  | @arrive cn count socket hsocket hopen hpeer hcount =>
      have hserves := (hkept cn socket hsocket).1 hopen
      exact hkept.set cn ((hserves.arrive hcount).kept hopen)
  | @peerClose cn socket hsocket hopen =>
      exact hkept.set cn (hkept cn socket hsocket).peerClose
  | @pollClose cn events socket hidle hsocket hopen hclose =>
      have hserves := ((hkept cn socket hsocket).1 hopen).promise
      exact hkept.set cn (hserves.close (hsafe hclose socket hsocket))
  | @pollIdle cn events socket hidle hsocket hopen hclose hread =>
      have hserves := ((hkept cn socket hsocket).1 hopen).promise
      exact hkept.set cn (hserves.kept hopen)
  | @pollRead cn events socket hidle hsocket hopen hclose hread =>
      have hserves := ((hkept cn socket hsocket).1 hopen).promise
      exact hkept.set cn (hserves.kept hopen)
  | @recv cn event last socket found count env full hreading hsocket hopen hcount hread =>
      obtain ⟨hallocates, hroom, hfits⟩ := hsafe
      obtain ⟨hfit, hplaced⟩ := hfits cn event socket hreading hsocket
      obtain ⟨hserves, hsame⟩ := ((hkept cn socket hsocket).1 hopen).read hcount.2.2
        hallocates hroom hfit hplaced hread
      exact hkept.set cn (hserves.kept (hsame.trans hopen))
  | recvAgain => exact hkept
  | @recvClosed cn event socket hreading hsocket htaken hclosed =>
      have hdrained : socket.Drained := by rw [Socket.Drained, htaken]
      exact hkept.set cn ((hkept cn socket hsocket).close hdrained)
  | @recvError cn event socket hreading hsocket =>
      have hdrained := hsafe cn event socket hreading hsocket
      exact hkept.set cn ((hkept cn socket hsocket).close hdrained)

/-- In every run whose steps are safe, whatever was complete in the socket of a
connection when its last poll event was processed is on its queue before the
connection is closed. -/
theorem delivered_of_reaches (hreaches : Reaches (step peer) Safe .start state) :
    state.Delivered := by
  have hkept : Kept peer state :=
    hreaches.invariant (fun hkept hsafe hnext => hkept.step hsafe hnext) kept_start
  exact fun cn socket hsocket hclosed => (hkept cn socket hsocket).2 hclosed

/-- The loop does not get stuck on what `recv` returns. -/
theorem recv_isSome_of_reaches (hreaches : Reaches (step peer) Safe .start state)
    {cn : ℕ} {event : Event} (hreading : state.reading = some (cn, event)) {socket : Socket}
    (hsocket : state.sockets cn = some socket) (hopen : socket.closed = false) {count : ℕ}
    (hcount : 1 ≤ count ∧ count ≤ 512 ∧ socket.taken + count ≤ socket.arrived)
    (env : Env) (full : ℕ → Bool) :
    (step peer state (.recv count env full)).isSome := by
  have hkept : Kept peer state :=
    hreaches.invariant (fun hkept hsafe hnext => hkept.step hsafe hnext) kept_start
  have hserves := (hkept cn socket hsocket).1 hopen
  have hchunk : (socket.chunk peer count).length ≤ 512 :=
    (List.length_take_le count _).trans hcount.2.1
  obtain ⟨buf, pushed, last, hread, _⟩ := Socket.read_isSome
    hserves.hsettled.hreached.mSize_eq.1 hchunk env full event
  have hready : (!socket.closed) = true ∧ 1 ≤ count ∧ count ≤ 512 ∧
      socket.taken + count ≤ socket.arrived := ⟨by rw [hopen]; rfl, hcount⟩
  simp only [step, hreading, hsocket, hread, if_pos hready, Option.map_some, Option.isSome_some]

end Runs

def ping : Event :=
  ⟨[], []⟩

theorem sendable_ping : ping.Sendable :=
  Event.sendable_of_name List.not_mem_nil (Nat.zero_le _)

/-- The buffer of a connection that has just been constructed. -/
def blank : RingBuf :=
  connectionBuffer (List.replicate 4096 0) List.length_replicate

theorem mSize_blank : blank.mSize = connectionBufferSize - 1 := rfl

/-- A connection whose peer has sent the smallest event and closed, unread. -/
def unread : Socket where
  sent := [ping]
  arrived := 3
  taken := 0
  peerClosed := true
  mBuffer := blank
  pushed := []
  closed := false
  promised := 3

/-- A peer that sends an event and closes while its connection is read. -/
theorem delivered_of_reaches_closed :
    ∃ state socket, Reaches (step .little) Safe .start state ∧
      state.sockets 0 = some socket ∧ socket.closed = true ∧ socket.promised = 3 ∧
      state.Delivered := by
  have hopened : ∃ opened, opened.sockets 0 = some unread ∧
      opened.reading = some (0, ⟨[], []⟩) ∧ Reaches (step .little) Safe .start opened := by
    refine ⟨_, ?_, ?_, .of_run (rfl : run (step .little) .start
      [.connected 0 blank mSize_blank, .send 0 ping, .arrive 0 3,
        .poll 0 ⟨true, false, false, false⟩, .peerClose 0] = some _)
      ⟨⟨rfl, rfl⟩, sendable_ping, trivial, fun h => absurd h (by decide), trivial, trivial⟩⟩
    · rfl
    · rfl
  obtain ⟨opened, hsocket, hreading, hopened⟩ := hopened
  obtain ⟨buf, pushed, last, hread, _⟩ := @Socket.read_isSome unread rfl
    (unread.chunk .little 3) (by decide) .ample (fun _ => false) ⟨[], []⟩
  let taken : Socket := { unread with taken := 3, mBuffer := buf, pushed := pushed }
  have hrecv : Step (step .little) Safe opened
      { opened.set 0 taken with reading := some (0, last) } := by
    refine ⟨.recv 3 .ample fun _ => false, ?_, ?_⟩
    · refine ⟨Env.allocates_ample, fun _ => rfl, ?_⟩
      intro cn event socket hcn hfound
      obtain ⟨rfl, _⟩ : 0 = cn ∧ _ := by simpa [hreading] using hcn
      obtain rfl : unread = socket := Option.some.inj (hsocket.symm.trans hfound)
      exact ⟨by decide, by decide⟩
    · simp only [step, hreading, hsocket, hread, Option.map_some]
      rfl
  have hclosed : Step (step .little) Safe
      { opened.set 0 taken with reading := some (0, last) }
      { (opened.set 0 taken).set 0 taken.close with reading := none } := by
    refine ⟨.recvClosed, trivial, ?_⟩
    simp only [step, State.set_self]
    rfl
  have hreaches := (hopened.tail hrecv).tail hclosed
  exact ⟨_, taken.close, hreaches, State.set_self (opened.set 0 taken) 0 taken.close, rfl,
    rfl, delivered_of_reaches hreaches⟩

/-- The peer sends an event and closes; the kernel reports both at once. -/
def closedUnread : List Action :=
  [.connected 0 blank mSize_blank, .send 0 ping, .arrive 0 3, .peerClose 0,
    .poll 0 ⟨true, false, false, true⟩]

theorem not_delivered_of_closedUnread :
    ∃ state, run (step .little) .start closedUnread = some state ∧
      Reaches (step .little) anything .start state ∧ ¬ state.Delivered := by
  refine ⟨_, rfl, .of_run rfl (meets_anything _ closedUnread), fun hdelivered => ?_⟩
  have hpushed := hdelivered 0 _ rfl rfl
  exact absurd hpushed (by decide)

end Sednl.EventLoop
