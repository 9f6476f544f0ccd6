import Sednl.Net.Delivery
import Sednl.Net.Outgoing

/-!
# From `send` to the slot

The peers and the listener together: `Connection::send` puts bytes on the wire of
its connection, a few at a time; what arrives is cut anywhere; `recv` gives the
listener the bytes of the wire, and the listener does what it does in `Delivery`.
Nobody there knows what was sent.  Seen with the events whose frames are on the
wire, whole or begun, a run of both is a run of `Delivery`, so that what a slot
gets of a connection are events whose `send` has returned.
-/

namespace Sednl.Passage

open Sednl.Endian
open Sednl.Ring
open Sednl.Sharing
open Sednl.Tag
open Sednl.Transition
open Sednl.Dispatch (CnEvent Slots toCallback)
open Sednl.Delivery (handedBy ofConnection)

/-- The other ends of the connections, and the listener.  The sockets of `listener`
have no record of what was sent. -/
structure State where
  peers : ℕ → Outgoing.State
  listener : Delivery.State

def State.start (mMaxQueueSize : ℕ) (mConsumers : List ℕ) (slots : ℕ → Slots) : State where
  peers := fun _ => .start
  listener := .start mMaxQueueSize mConsumers slots

inductive Action where
  /-- The peer of a connection enters `Connection::send`, or `::send` returns there. -/
  | peer (cn : ℕ) (action : Outgoing.Action)
  /-- Bytes of the wire of a connection arrive. -/
  | arrive (cn count : ℕ)
  /-- `recv` returns `count` bytes. -/
  | recv (count : ℕ) (env : Env)
  /-- Any other step of the listener, of its kernel or of its threads. -/
  | listener (action : Delivery.Action)

namespace State

def setPeer (state : State) (cn : ℕ) (peer : Outgoing.State) : State :=
  { state with peers := Function.update state.peers cn peer }

/-- What `recv` returns next of a connection when it returns `count` bytes. -/
def chunk (state : State) (cn : ℕ) (socket : EventLoop.Socket) (count : ℕ) : List Byte :=
  ((state.peers cn).wire.drop socket.taken).take count

def setLoop (state : State) (loop : EventLoop.State) : State :=
  { state with listener := { state.listener with loop := loop } }

/-- `read_connection` after a `recv`: what the chunk has given is to be offered. -/
def given (state : State) (cn : ℕ) (socket found : EventLoop.Socket) (event : Event) : State :=
  { state with
    listener := { state.listener with
      loop := { state.listener.loop.set cn found with reading := some (cn, event) }
      handed := (found.pushed.drop socket.pushed.length).map (CnEvent.mk cn) } }

end State

def step (peer : Host) (state : State) : Action → Option State
  | .peer cn action =>
      (Outgoing.step peer (state.peers cn) action).map (state.setPeer cn)
  | .arrive cn count =>
      match state.listener.loop.sockets cn with
      | none => none
      | some socket =>
          if socket.closed || socket.peerClosed then none
          else if socket.arrived + count ≤ (state.peers cn).wire.length then
            some (state.setLoop (state.listener.loop.set cn
              { socket with arrived := socket.arrived + count }))
          else none
  | .recv count env =>
      if state.listener.Reads then
        match state.listener.loop.reading with
        | none => none
        | some (cn, event) =>
            match state.listener.loop.sockets cn with
            | none => none
            | some socket =>
                if !socket.closed ∧ 1 ≤ count ∧ count ≤ 512 ∧
                    socket.taken + count ≤ socket.arrived then
                  (socket.read (state.chunk cn socket count) env (fun _ => false) event).map
                    fun result => state.given cn socket result.1 result.2
                else none
      else none
  | .listener (.send _ _) => none
  | .listener (.arrive _ _) => none
  | .listener (.recv _ _) => none
  | .listener action =>
      (Delivery.step peer state.listener action).map fun next =>
        { state with listener := next }

/-- The events whose frames are on the wire, the last of them perhaps in part. -/
def begun (peer : Outgoing.State) : List Event :=
  peer.returned ++
    (peer.current.toList.filter fun call => !call.put.isEmpty).map Outgoing.Call.event

/-- When a step is safe: an event that is sent can be received, `::send` answers as
`Outgoing` asks, what `recv` returns fits and belongs to frames in place, no
allocation fails for it, and the threads are started and stopped in order. -/
def Safe (peer : Host) (state : State) : Action → Prop
  | .peer cn action => Outgoing.Safe peer (state.peers cn) action ∧
      ∀ event, action = .send event → event.Sendable
  | .arrive _ _ => True
  | .recv count env => env.Allocates ∧
      ∀ cn event socket, state.listener.loop.reading = some (cn, event) →
        state.listener.loop.sockets cn = some socket →
        pending (begun (state.peers cn)) socket.taken + count ≤ connectionBufferSize - 1 ∧
          FramesAt (fun start frame => start < socket.taken + count →
            FrameInPlace (connectionBufferSize - 1) start frame) 0 (begun (state.peers cn))
  | .listener action => Delivery.Safe state.listener action

/-! ## Prefixes of what is sent -/

section Prefixes

variable {events : List Event} {received : ℕ}

/-- A frame that is cut is not complete. -/
theorem whole_snoc_of_lt {event : Event} (hlt : received < total events + event.size) :
    EventLoop.whole (events ++ [event]) received = EventLoop.whole events received := by
  induction events generalizing received with
  | nil => exact if_neg (by simpa using hlt)
  | cons head events ih =>
      rw [total_cons] at hlt
      rw [List.cons_append, EventLoop.whole, EventLoop.whole]
      by_cases hsize : head.size ≤ received
      · rw [if_pos hsize, if_pos hsize, ih (by omega)]
      · rw [if_neg hsize, if_neg hsize]

/-- What is complete does not depend on what was sent later. -/
theorem whole_append_of_le (hle : received ≤ total events) (more : List Event) :
    EventLoop.whole (events ++ more) received = EventLoop.whole events received := by
  induction more generalizing events with
  | nil => rw [List.append_nil]
  | cons event more ih =>
      have hthree := event.three_le_size
      rw [← List.singleton_append, ← List.append_assoc, ih (by rw [total_append]; omega),
        whole_snoc_of_lt (by omega)]

theorem whole_prefix_self (events : List Event) (received : ℕ) :
    EventLoop.whole events received <+: events := by
  induction events generalizing received with
  | nil => exact List.prefix_rfl
  | cons event events ih =>
      rw [EventLoop.whole]
      split
      · exact (List.prefix_cons_inj event).mpr (ih _)
      · exact List.nil_prefix

/-- What is pending does not depend on what was sent later. -/
theorem pending_append_of_le (hle : received ≤ total events) (more : List Event) :
    pending (events ++ more) received = pending events received := by
  induction more generalizing events with
  | nil => rw [List.append_nil]
  | cons event more ih =>
      rw [← List.singleton_append, ← List.append_assoc, ih (by rw [total_append]; omega),
        EventLoop.pending_snoc hle]

/-- Both of two prefixes show the same bytes where both reach. -/
theorem slice_of_begins {left right : List Byte} (hbegins : left <+: right) {start count : ℕ}
    (hreach : start + count ≤ left.length) :
    (left.drop start).take count = (right.drop start).take count := by
  obtain ⟨rest, rfl⟩ := hbegins
  rw [List.drop_append_of_le_length (by omega),
    List.take_append_of_le_length (by rw [List.length_drop]; omega)]

end Prefixes

/-! ## The wire -/

section Wire

variable {host : Host} {peer next : Outgoing.State} {call : Outgoing.Call}

theorem begun_of_none (hcurrent : peer.current = none) : begun peer = peer.returned := by
  rw [begun, hcurrent]
  exact List.append_nil _

theorem begun_of_some (hcurrent : peer.current = some call) :
    begun peer = peer.returned ++ if call.put = [] then [] else [call.event] := by
  rw [begun, hcurrent, Option.toList_some, List.filter_singleton]
  congr 1
  cases call.put <;> rfl

/-- The frames of what was begun lengthen the wire. -/
theorem wire_begins (hframed : Outgoing.Framed host peer) :
    peer.wire <+: packs host (begun peer) := by
  rw [hframed.hwire, Outgoing.State.pending]
  cases hcurrent : peer.current with
  | none =>
      rw [begun_of_none hcurrent]
      simp
  | some call =>
      rw [begun_of_some hcurrent, packs_append, Option.map_some, Option.getD_some]
      refine (List.prefix_append_right_inj _).mpr ?_
      split
      · rename_i hput
        rw [hput]
        exact List.nil_prefix
      · simpa [packs] using (hframed.hopen call hcurrent).hput

/-- What is complete on the wire are the events whose call has returned. -/
theorem whole_begun (hframed : Outgoing.Framed host peer) {received : ℕ}
    (hreceived : received ≤ peer.wire.length) :
    EventLoop.whole (begun peer) received = EventLoop.whole peer.returned received := by
  rw [hframed.hwire, Outgoing.State.pending, List.length_append, length_packs] at hreceived
  cases hcurrent : peer.current with
  | none => rw [begun_of_none hcurrent]
  | some call =>
      obtain ⟨_, _, _, hput, hcut⟩ := hframed.hopen call hcurrent
      have hlt : call.put.length < call.event.size := by
        rw [← call.event.length_pack host]
        exact lt_of_le_of_ne hput.length_le fun hlength => hcut (hput.eq_of_length hlength)
      rw [hcurrent, Option.map_some, Option.getD_some] at hreceived
      rw [begun_of_some hcurrent]
      split
      · rw [List.append_nil]
      · exact whole_snoc_of_lt (by omega)

/-- What a step of a peer does to what is on the wire: at most it begins the frame
of the call that holds the mutex. -/
structure Moves (peer next : Outgoing.State) : Prop where
  hwire : peer.wire <+: next.wire
  hreturned : peer.returned <+: next.returned
  hbegun : begun next = begun peer ∨
    ∃ call, peer.current = some call ∧ begun next = begun peer ++ [call.event]

/-- A call that takes the mutex has begun nothing yet. -/
theorem moves_send (hcurrent : peer.current = none) (event : Event) :
    Moves peer { peer with current := some ⟨event, 0, []⟩ } where
  hwire := List.prefix_rfl
  hreturned := List.prefix_rfl
  hbegun := by
    rw [begun_of_none hcurrent, begun_of_some rfl, if_pos rfl]
    exact .inl (List.append_nil _)

/-- Once bytes are taken, the frame is begun. -/
theorem moves_take (hcurrent : peer.current = some call) {result : ℤ} (hresult : 0 < result)
    (hlt : result < 2 ^ 64) (around : ℕ → Byte) :
    Moves peer (peer.resume host call result around) := by
  have hpositive : 0 < Outgoing.ulong result := by
    rw [Outgoing.ulong_of_nonneg hresult.le hlt]
    omega
  have hput : (call.advance host result around).put ≠ [] := by
    intro hnil
    have hlength := congrArg List.length hnil
    rw [Outgoing.Call.advance, List.length_append, Outgoing.length_bytesFrom,
      List.length_nil] at hlength
    omega
  have hstarts : begun peer = peer.returned ++ [call.event] ∨
      begun peer ++ [call.event] = peer.returned ++ [call.event] := by
    rw [begun_of_some hcurrent]
    split
    · exact .inr (by rw [List.append_nil])
    · exact .inl rfl
  have hbegun : ∀ next, begun next = peer.returned ++ [call.event] → begun next = begun peer ∨
      ∃ call, peer.current = some call ∧ begun next = begun peer ++ [call.event] :=
    fun next hnext => hstarts.imp (fun hsame => hnext.trans hsame.symm)
      fun hsnoc => ⟨call, hcurrent, hnext.trans hsnoc.symm⟩
  rw [Outgoing.State.resume, if_pos hpositive]
  by_cases hlast : (call.event.pack host).length = (call.advance host result around).count
  · have hending : (call.advance host result around).ending host (Outgoing.ulong result) =
        .returned := if_pos hlast
    have hreturned := Outgoing.returned_append peer.ended (call.advance host result around)
      .returned none (peer.wire ++
        Outgoing.bytesFrom (call.event.pack host) around call.count result.toNat)
    rw [if_pos rfl] at hreturned
    rw [if_pos hlast, hending]
    exact ⟨List.prefix_append _ _, ⟨_, hreturned.symm⟩,
      hbegun _ ((begun_of_none rfl).trans hreturned)⟩
  · rw [if_neg hlast]
    refine ⟨List.prefix_append _ _, List.prefix_rfl, hbegun _ ((begun_of_some rfl).trans ?_)⟩
    rw [if_neg hput]
    rfl

/-- A call that gives up has begun nothing. -/
theorem moves_giveUp (hcurrent : peer.current = some call) (hput : call.put = [])
    (hloop : (call.event.pack host).length ≠ call.count) (around : ℕ → Byte) :
    Moves peer (peer.resume host call 0 around) := by
  have hending : call.ending host (Outgoing.ulong 0) = .emptySend := if_neg hloop
  have hreturned := Outgoing.returned_append peer.ended call .emptySend none peer.wire
  rw [if_neg (by decide), List.append_nil] at hreturned
  rw [Outgoing.State.resume, if_neg (by decide), hending]
  refine ⟨List.prefix_rfl, ⟨[], (List.append_nil _).trans hreturned.symm⟩, .inl ?_⟩
  rw [begun_of_none rfl, begun_of_some hcurrent, if_pos hput, List.append_nil, hreturned]
  rfl

/-- A failure puts nothing on the wire. -/
theorem moves_fail (hcurrent : peer.current = some call) {around : ℕ → Byte}
    (hopen : call.Open host) (hcount : call.count ≠ (call.event.pack host).length + 1) :
    Moves peer (peer.resume host call (-1) around) := by
  have hput : (call.advance host (-1) around).put = call.put := List.append_nil _
  have hloop : (call.event.pack host).length ≠ (call.advance host (-1) around).count := by
    have hsize := hopen.hsize
    have hlt := hopen.hcount
    unfold Outgoing.maxSize at hsize
    rw [Outgoing.Call.advance, Outgoing.ulong_neg_one]
    simp only
    omega
  rw [Outgoing.State.resume, if_pos (by decide), if_neg hloop]
  refine ⟨List.prefix_append _ _, List.prefix_rfl, .inl ?_⟩
  generalize hfailed : call.advance host (-1) around = failed at hput hloop ⊢
  have hevent : failed.event = call.event := by rw [← hfailed, Outgoing.Call.advance]
  rw [begun_of_some rfl, begun_of_some hcurrent, hput, hevent]
  rfl

theorem moves_of_step (hframed : Outgoing.Framed host peer) {action : Outgoing.Action}
    (hsafe : Outgoing.Safe host peer action)
    (hstep : Outgoing.step host peer action = some next) : Moves peer next := by
  cases action with
  | send event =>
      rw [Outgoing.step] at hstep
      split at hstep
      · rename_i hcurrent
        obtain ⟨_, hsome⟩ := Option.ite_none_right_eq_some.mp hstep
        obtain rfl := Option.some.inj hsome
        exact moves_send hcurrent event
      · cases hstep
  | result result around =>
      rw [Outgoing.step] at hstep
      split at hstep
      · cases hstep
      · rename_i call hcurrent
        obtain ⟨htake, hgiveUp, hfail⟩ := hsafe call hcurrent
        obtain ⟨hbounds, hsome⟩ := Option.ite_none_right_eq_some.mp hstep
        obtain rfl := Option.some.inj hsome
        have hopen := hframed.hopen call hcurrent
        rcases lt_trichotomy result 0 with hnegative | rfl | hpositive
        · obtain rfl : result = -1 := by omega
          exact moves_fail hcurrent hopen (hfail rfl)
        · exact moves_giveUp hcurrent (hgiveUp rfl) hopen.hloop around
        · have hasked : call.asked host < 2 ^ 64 := Nat.mod_lt _ (by norm_num)
          exact moves_take hcurrent hpositive (by omega) around

/-- The events that calls were made with. -/
def AllSendable (peer : Outgoing.State) : Prop :=
  ∀ call ∈ peer.calls, call.event.Sendable

theorem AllSendable.begun (hsendable : AllSendable peer) :
    ∀ event ∈ begun peer, event.Sendable := by
  intro event hevent
  rcases List.mem_append.mp hevent with hreturned | hcurrent
  · obtain ⟨⟨call, ending⟩, hcall, hsome⟩ := List.mem_filterMap.mp hreturned
    obtain ⟨_, hsome⟩ := Option.ite_none_right_eq_some.mp hsome
    rw [← Option.some.inj hsome]
    exact hsendable call (List.mem_append_left _ (List.mem_map_of_mem hcall))
  · obtain ⟨call, hcall, rfl⟩ := List.mem_map.mp hcurrent
    exact hsendable call (List.mem_append_right _ (List.mem_of_mem_filter hcall))

/-- A call keeps its event. -/
theorem event_of_mem_resume (hcurrent : peer.current = some call) {result : ℤ}
    {around : ℕ → Byte} {other : Outgoing.Call}
    (hother : other ∈ (peer.resume host call result around).calls) :
    ∃ found ∈ peer.calls, other.event = found.event := by
  have hcall : call ∈ peer.calls := List.mem_append_right _ (by rw [hcurrent]; exact .head _)
  have hended : ∀ {last : Outgoing.Call} {ending : Outgoing.Ending}, last.event = call.event →
      other ∈ (peer.ended ++ [(last, ending)]).map Prod.fst →
      ∃ found ∈ peer.calls, other.event = found.event := by
    intro last ending hlast hmem
    rw [List.map_append, List.mem_append] at hmem
    rcases hmem with hmem | hmem
    · exact ⟨other, List.mem_append_left _ hmem, rfl⟩
    · obtain rfl := List.mem_singleton.mp hmem
      exact ⟨call, hcall, hlast⟩
  rw [Outgoing.State.resume] at hother
  split at hother
  · simp only at hother
    split at hother
    · rw [Outgoing.State.calls, Option.toList_none, List.append_nil] at hother
      exact hended (by rw [Outgoing.Call.advance]) hother
    · rw [Outgoing.State.calls, Option.toList_some, List.mem_append] at hother
      rcases hother with hother | hother
      · exact ⟨other, List.mem_append_left _ hother, rfl⟩
      · obtain rfl := List.mem_singleton.mp hother
        exact ⟨call, hcall, rfl⟩
  · rw [Outgoing.State.calls, Option.toList_none, List.append_nil] at hother
    exact hended rfl hother

theorem AllSendable.step (hsendable : AllSendable peer) {action : Outgoing.Action}
    (hsent : ∀ event, action = .send event → event.Sendable)
    (hstep : Outgoing.step host peer action = some next) : AllSendable next := by
  cases action with
  | send event =>
      rw [Outgoing.step] at hstep
      split at hstep
      · obtain ⟨_, hsome⟩ := Option.ite_none_right_eq_some.mp hstep
        obtain rfl := Option.some.inj hsome
        intro call hcall
        rcases List.mem_append.mp hcall with hcall | hcall
        · exact hsendable call (List.mem_append_left _ hcall)
        · obtain rfl := List.mem_singleton.mp hcall
          exact hsent event rfl
      · cases hstep
  | result result around =>
      rw [Outgoing.step] at hstep
      split at hstep
      · cases hstep
      · rename_i call hcurrent
        obtain ⟨_, hsome⟩ := Option.ite_none_right_eq_some.mp hstep
        obtain rfl := Option.some.inj hsome
        intro other hother
        obtain ⟨found, hfound, hevent⟩ := event_of_mem_resume hcurrent hother
        rw [hevent]
        exact hsendable found hfound

end Wire

/-! ## Seen with what was sent -/

abbrev Events : Type :=
  List { event : Event // event.Sendable }

/-- A socket, seen with what was sent to it. -/
def toldSocket (sent : Events) (socket : EventLoop.Socket) : EventLoop.Socket :=
  { socket with sent := sent.map Subtype.val }

def toldLoop (sent : ℕ → Events) (loop : EventLoop.State) : EventLoop.State :=
  { loop with sockets := fun cn => (loop.sockets cn).map (toldSocket (sent cn)) }

/-- The listener, seen with what was sent to each of its connections. -/
def told (sent : ℕ → Events) (listener : Delivery.State) : Delivery.State :=
  { listener with loop := toldLoop sent listener.loop }

section Told

variable {peer : Host} {sent : ℕ → Events} {loop next : EventLoop.State}
  {listener : Delivery.State}

theorem toldLoop_sockets {cn : ℕ} {socket : EventLoop.Socket}
    (hsocket : loop.sockets cn = some socket) :
    (toldLoop sent loop).sockets cn = some (toldSocket (sent cn) socket) := by
  change Option.map _ (loop.sockets cn) = _
  rw [hsocket, Option.map_some]

theorem toldLoop_set (cn : ℕ) (socket : EventLoop.Socket) (events : Events) :
    toldLoop (Function.update sent cn events) (loop.set cn socket) =
      (toldLoop sent loop).set cn (toldSocket events socket) := by
  rw [toldLoop, EventLoop.State.set, EventLoop.State.set, EventLoop.State.mk.injEq]
  refine ⟨funext fun other => ?_, rfl⟩
  by_cases hother : other = cn
  · subst hother
    simp only [Function.update_self, Option.map_some]
  · simp only [Function.update_of_ne hother, toldLoop]

theorem toldLoop_set_self (cn : ℕ) (socket : EventLoop.Socket) :
    toldLoop sent (loop.set cn socket) =
      (toldLoop sent loop).set cn (toldSocket (sent cn) socket) := by
  rw [← toldLoop_set, Function.update_eq_self]

theorem toldLoop_reading : (toldLoop sent loop).reading = loop.reading := rfl

theorem toldLoop_set_at (cn : ℕ) (socket : EventLoop.Socket) (reading : Option (ℕ × Event)) :
    toldLoop sent { loop.set cn socket with reading := reading } =
      { (toldLoop sent loop).set cn (toldSocket (sent cn) socket) with reading := reading } := by
  rw [← toldLoop_set_self]
  rfl

/-- A step that neither sends, nor brings nor takes bytes, nor adds a connection. -/
def Quiet : EventLoop.Action → Prop
  | .peerClose _ | .poll _ _ | .recvAgain | .recvClosed | .recvError => True
  | .connected _ _ _ | .send _ _ | .arrive _ _ | .recv _ _ _ => False

/-- Such a step does not depend on what was sent. -/
theorem step_toldLoop {action : EventLoop.Action} (hquiet : Quiet action)
    (hnext : EventLoop.step peer loop action = some next) :
    EventLoop.step peer (toldLoop sent loop) action = some (toldLoop sent next) := by
  cases EventLoop.branch_of_step hnext with
  | peerClose hsocket hopen =>
      rw [EventLoop.step, toldLoop_sockets hsocket, toldLoop_set_self]
      simp [toldSocket, hopen]
  | pollClose hidle hsocket hopen hclose =>
      rw [EventLoop.step, toldLoop_sockets hsocket, toldLoop_set_self]
      simp [toldSocket, toldLoop, hidle, hopen, hclose, EventLoop.Socket.close]
  | pollIdle hidle hsocket hopen hclose hread =>
      rw [EventLoop.step, toldLoop_sockets hsocket, toldLoop_set_self]
      simp [toldSocket, toldLoop, hidle, hopen, hclose, hread]
  | pollRead hidle hsocket hopen hclose hread =>
      rw [EventLoop.step, toldLoop_sockets hsocket, toldLoop_reading, hidle, toldLoop_set_at]
      simp [toldSocket, hopen, hclose, hread]
  | recvAgain hreading hsocket htaken hopen =>
      rw [EventLoop.step, toldLoop_reading, hreading]
      simp only [toldLoop_sockets hsocket]
      exact if_pos ⟨htaken, by simpa [toldSocket] using hopen⟩
  | recvClosed hreading hsocket htaken hclosed =>
      rw [EventLoop.step, toldLoop_reading, hreading, toldLoop_set_at]
      simp only [toldLoop_sockets hsocket]
      exact if_pos ⟨htaken, hclosed⟩
  | recvError hreading hsocket =>
      rw [EventLoop.step, toldLoop_reading, hreading, toldLoop_set_at]
      simp only [toldLoop_sockets hsocket]
      rfl
  | _ => cases hquiet

theorem advance_told {next : Delivery.State} {action : EventLoop.Action} (hquiet : Quiet action)
    (hnext : listener.advance peer action = some next) :
    (told sent listener).advance peer action = some (told sent next) := by
  obtain ⟨loop, hstep, rfl⟩ := Option.map_eq_some_iff.mp hnext
  exact Option.map_eq_some_iff.mpr ⟨toldLoop sent loop, step_toldLoop hquiet hstep, rfl⟩

/-- Nor does one that waits until all was offered. -/
theorem reads_told {next : Delivery.State} {action : EventLoop.Action} (hquiet : Quiet action)
    (hnext : (if listener.Reads then listener.advance peer action else none) = some next) :
    (if (told sent listener).Reads then (told sent listener).advance peer action else none) =
      some (told sent next) := by
  obtain ⟨hreads, hadvance⟩ := Option.ite_none_right_eq_some.mp hnext
  exact (if_pos hreads).trans (advance_told hquiet hadvance)

theorem proceed_told {next : Delivery.State} {action : Dispatch.Action}
    (hnext : listener.proceed action = some next) :
    (told sent listener).proceed action = some (told sent next) := by
  obtain ⟨queues, hstep, rfl⟩ := Option.map_eq_some_iff.mp hnext
  exact Option.map_eq_some_iff.mpr ⟨queues, hstep, rfl⟩

theorem told_closeAll (sent : ℕ → Events) (listener : Delivery.State) :
    told sent listener.closeAll = (told sent listener).closeAll := by
  rw [told, Delivery.State.closeAll, Delivery.State.closeAll, Delivery.State.mk.injEq]
  refine ⟨?_, rfl, rfl, rfl, rfl, rfl⟩
  rw [toldLoop, EventLoop.State.mk.injEq]
  refine ⟨funext fun cn => ?_, rfl⟩
  change Option.map _ (Option.map _ (listener.loop.sockets cn)) =
    Option.map _ (Option.map _ (listener.loop.sockets cn))
  rw [Option.map_map, Option.map_map]
  refine congrArg (Option.map · _) (funext fun socket => ?_)
  change toldSocket _ (if listener.internal cn then _ else _) =
    if listener.internal cn then _ else _
  split <;> rfl

/-- The steps of the listener that do not depend on what was sent. -/
def QuietListener : Delivery.Action → Prop
  | .send _ _ | .arrive _ _ | .recv _ _ | .connected _ _ _ _ => False
  | _ => True

/-- What such a step does to the sockets. -/
inductive Sockets (peer : Host) (listener : Delivery.State) : Delivery.State → Prop
  | moves {next : Delivery.State} {moved : EventLoop.Action} (hquiet : Quiet moved)
      (hstep : EventLoop.step peer listener.loop moved = some next.loop) :
      Sockets peer listener next
  | stays {next : Delivery.State} (hloop : next.loop = listener.loop) :
      Sockets peer listener next
  | ends {middle : Delivery.State} (hloop : middle.loop = listener.loop) :
      Sockets peer listener middle.closeAll

theorem sockets_of_advance {next : Delivery.State} {action : EventLoop.Action}
    (hnext : listener.advance peer action = some next) (hquiet : Quiet action) :
    Sockets peer listener next := by
  obtain ⟨loop, hstep, rfl⟩ := Option.map_eq_some_iff.mp hnext
  exact .moves hquiet hstep

theorem loop_of_proceed {next : Delivery.State} {action : Dispatch.Action}
    (hnext : listener.proceed action = some next) : next.loop = listener.loop := by
  obtain ⟨queues, _, rfl⟩ := Option.map_eq_some_iff.mp hnext
  rfl

theorem sockets_of_step {next : Delivery.State} {action : Delivery.Action}
    (hquiet : QuietListener action)
    (hnext : Delivery.step peer listener action = some next) : Sockets peer listener next := by
  cases action with
  | peerClose cn => exact sockets_of_advance hnext trivial
  | poll cn events =>
      exact sockets_of_advance (Option.ite_none_right_eq_some.mp hnext).2 trivial
  | recvAgain => exact sockets_of_advance (Option.ite_none_right_eq_some.mp hnext).2 trivial
  | recvClosed => exact sockets_of_advance (Option.ite_none_right_eq_some.mp hnext).2 trivial
  | recvError => exact sockets_of_advance (Option.ite_none_right_eq_some.mp hnext).2 trivial
  | offer =>
      rw [Delivery.step] at hnext
      split at hnext
      · cases hnext
      · obtain ⟨middle, hproceed, rfl⟩ := Option.map_eq_some_iff.mp hnext
        have hloop := loop_of_proceed hproceed
        exact .stays hloop
  | threads action =>
      cases action with
      | pick item => cases hnext
      | leave =>
          obtain ⟨_, hnext⟩ := Option.ite_none_right_eq_some.mp hnext
          obtain ⟨middle, hproceed, rfl⟩ := Option.map_eq_some_iff.mp hnext
          exact .ends (loop_of_proceed hproceed)
      | _ => exact .stays (loop_of_proceed hnext)
  | _ => cases hquiet

theorem step_told {next : Delivery.State} {action : Delivery.Action}
    (hquiet : QuietListener action)
    (hnext : Delivery.step peer listener action = some next) :
    Delivery.step peer (told sent listener) action = some (told sent next) := by
  cases action with
  | peerClose cn => exact advance_told trivial hnext
  | poll cn events => exact reads_told trivial hnext
  | recvAgain => exact reads_told trivial hnext
  | recvClosed => exact reads_told trivial hnext
  | recvError => exact reads_told trivial hnext
  | offer =>
      rw [Delivery.step] at hnext
      split at hnext
      · cases hnext
      · rename_i item items hhanded
        obtain ⟨middle, hproceed, rfl⟩ := Option.map_eq_some_iff.mp hnext
        have hsame : (told sent listener).handed = item :: items := hhanded
        rw [Delivery.step, hsame]
        exact Option.map_eq_some_iff.mpr ⟨_, proceed_told hproceed, rfl⟩
  | threads action =>
      cases action with
      | pick item => cases hnext
      | leave =>
          obtain ⟨hready, hnext⟩ := Option.ite_none_right_eq_some.mp hnext
          obtain ⟨middle, hproceed, rfl⟩ := Option.map_eq_some_iff.mp hnext
          rw [told_closeAll]
          exact (if_pos hready).trans
            (Option.map_eq_some_iff.mpr ⟨_, proceed_told hproceed, rfl⟩)
      | _ => exact proceed_told hnext
  | _ => cases hquiet

theorem set_eq_self {cn : ℕ} {socket : EventLoop.Socket}
    (hsocket : loop.sockets cn = some socket) : loop.set cn socket = loop := by
  rw [EventLoop.State.set, ← hsocket, Function.update_eq_self]

theorem send_toldSocket (events : Events) (socket : EventLoop.Socket)
    (event : { event : Event // event.Sendable }) :
    (toldSocket events socket).send event.1 = toldSocket (events ++ [event]) socket := by
  simp [EventLoop.Socket.send, toldSocket]

/-- More can be sent to a connection that is open at both ends. -/
theorem reaches_tell {cn : ℕ} {socket : EventLoop.Socket}
    (hsocket : listener.loop.sockets cn = some socket) (hopen : socket.closed = false)
    (hpeer : socket.peerClosed = false) (sent : ℕ → Events) (more : Events) :
    Reaches (Delivery.step peer) Delivery.Safe (told sent listener)
      (told (Function.update sent cn (sent cn ++ more)) listener) := by
  induction more generalizing sent with
  | nil =>
      rw [List.append_nil, Function.update_eq_self]
      exact .refl
  | cons event more ih =>
      have hloop : EventLoop.step peer (toldLoop sent listener.loop) (.send cn event.1) =
          some (toldLoop (Function.update sent cn (sent cn ++ [event])) listener.loop) := by
        rw [← set_eq_self hsocket, toldLoop_set, set_eq_self hsocket, EventLoop.step,
          toldLoop_sockets hsocket, ← send_toldSocket]
        exact if_neg (by simp [toldSocket, hopen, hpeer])
      have hstep : Delivery.step peer (told sent listener) (.send cn event.1) =
          some (told (Function.update sent cn (sent cn ++ [event])) listener) :=
        Option.map_eq_some_iff.mpr ⟨_, hloop, rfl⟩
      have hrest := ih (Function.update sent cn (sent cn ++ [event]))
      rw [Function.update_self, Function.update_idem, List.append_assoc,
        List.singleton_append] at hrest
      exact .head ⟨.send cn event.1, event.2, hstep⟩ hrest

/-- A connection that is added was sent nothing. -/
theorem connected_told {next : Delivery.State} {internal : Bool} {cn : ℕ} {buf : RingBuf}
    {hbuf : buf.mSize = connectionBufferSize - 1}
    (hnext : Delivery.step peer listener (.connected internal cn buf hbuf) = some next) :
    next.loop = listener.loop.set cn (.fresh buf) ∧
      listener.loop.sockets cn = none ∧
      Delivery.step peer (told sent listener) (.connected internal cn buf hbuf) =
        some (told (Function.update sent cn []) next) := by
  obtain ⟨hreads, hnext⟩ := Option.ite_none_right_eq_some.mp hnext
  obtain ⟨middle, hadvance, rfl⟩ := Option.map_eq_some_iff.mp hnext
  obtain ⟨loop, hstep, rfl⟩ := Option.map_eq_some_iff.mp hadvance
  cases EventLoop.branch_of_step hstep with
  | connected hnew =>
      refine ⟨rfl, hnew, (if_pos hreads).trans (Option.map_eq_some_iff.mpr
        ⟨told (Function.update sent cn []) { listener with
          loop := listener.loop.set cn (.fresh buf) },
          Option.map_eq_some_iff.mpr ⟨_, ?_, rfl⟩, rfl⟩)⟩
      have hnone : (toldLoop sent listener.loop).sockets cn = none := by
        change Option.map _ (listener.loop.sockets cn) = none
        rw [hnew, Option.map_none]
      change EventLoop.step peer (toldLoop sent listener.loop) _ = some (toldLoop _ _)
      rw [toldLoop_set, EventLoop.step, hnone]
      rfl

theorem read_toldSocket (events : Events) {socket found : EventLoop.Socket} {chunk : List Byte}
    {env : Env} {full : ℕ → Bool} {event last : Event}
    (hread : socket.read chunk env full event = some (found, last)) :
    (toldSocket events socket).read chunk env full event =
      some (toldSocket events found, last) := by
  obtain ⟨accepted, buf, handed, settled, hput, hrun, rfl⟩ := EventLoop.Socket.read_cases hread
  rw [EventLoop.Socket.read]
  simp only [toldSocket, hput, hrun]

end Told

/-! ## What a step does -/

/-- The branches of `step` that lead to a state: what each asks for, and where
it leads. -/
inductive Branch (peer : Host) (state : State) : Action → State → Prop
  | peer {cn : ℕ} {action : Outgoing.Action} {after : Outgoing.State}
      (hstep : Outgoing.step peer (state.peers cn) action = some after) :
      Branch peer state (.peer cn action) (state.setPeer cn after)
  | arrive {cn count : ℕ} {socket : EventLoop.Socket}
      (hsocket : state.listener.loop.sockets cn = some socket) (hopen : socket.closed = false)
      (hpeer : socket.peerClosed = false)
      (hcount : socket.arrived + count ≤ (state.peers cn).wire.length) :
      Branch peer state (.arrive cn count) (state.setLoop (state.listener.loop.set cn
        { socket with arrived := socket.arrived + count }))
  | recv {cn count : ℕ} {env : Env} {event last : Event} {socket found : EventLoop.Socket}
      (hreads : state.listener.Reads)
      (hreading : state.listener.loop.reading = some (cn, event))
      (hsocket : state.listener.loop.sockets cn = some socket) (hopen : socket.closed = false)
      (hcount : 1 ≤ count ∧ count ≤ 512 ∧ socket.taken + count ≤ socket.arrived)
      (hread : socket.read (state.chunk cn socket count) env (fun _ => false) event =
        some (found, last)) :
      Branch peer state (.recv count env) (state.given cn socket found last)
  | connected {internal : Bool} {cn : ℕ} {buf : RingBuf}
      {hbuf : buf.mSize = connectionBufferSize - 1} {next : Delivery.State}
      (hstep : Delivery.step peer state.listener (.connected internal cn buf hbuf) = some next) :
      Branch peer state (.listener (.connected internal cn buf hbuf))
        { state with listener := next }
  | quiet {action : Delivery.Action} {next : Delivery.State} (hquiet : QuietListener action)
      (hstep : Delivery.step peer state.listener action = some next) :
      Branch peer state (.listener action) { state with listener := next }

theorem branch_of_step {peer : Host} {state next : State} {action : Action}
    (hnext : step peer state action = some next) : Branch peer state action next := by
  cases action with
  | peer cn action =>
      obtain ⟨after, hstep, rfl⟩ := Option.map_eq_some_iff.mp hnext
      exact .peer hstep
  | arrive cn count =>
      rw [step] at hnext
      split at hnext
      · cases hnext
      · rename_i socket hsocket
        obtain ⟨hlive, hsome⟩ := Option.ite_none_left_eq_some.mp hnext
        obtain ⟨hcount, hsome⟩ := Option.ite_none_right_eq_some.mp hsome
        obtain rfl := Option.some.inj hsome
        obtain ⟨hopen, hpeer⟩ := Bool.or_eq_false_iff.mp (Bool.eq_false_iff.mpr hlive)
        exact .arrive hsocket hopen hpeer hcount
  | recv count env =>
      obtain ⟨hreads, hnext⟩ := Option.ite_none_right_eq_some.mp hnext
      split at hnext
      · cases hnext
      · rename_i cn event hreading
        split at hnext
        · cases hnext
        · rename_i socket hsocket
          obtain ⟨⟨hopen, hcount⟩, hsome⟩ := Option.ite_none_right_eq_some.mp hnext
          obtain ⟨⟨found, last⟩, hread, rfl⟩ := Option.map_eq_some_iff.mp hsome
          exact .recv hreads hreading hsocket (by simpa using hopen) hcount hread
  | listener action =>
      cases action with
      | send cn event => cases hnext
      | arrive cn count => cases hnext
      | recv count env => cases hnext
      | connected internal cn buf hbuf =>
          obtain ⟨after, hstep, rfl⟩ := Option.map_eq_some_iff.mp hnext
          exact .connected hstep
      | _ =>
          obtain ⟨after, hstep, rfl⟩ := Option.map_eq_some_iff.mp hnext
          exact .quiet trivial hstep

/-! ## What a step keeps -/

/-- What the listener is told was sent to a connection: what was begun, but for what
comes after one end is closed. -/
structure Follows (events : Events) (socket : EventLoop.Socket) (peer : Outgoing.State) :
    Prop where
  hbegins : events.map Subtype.val <+: begun peer
  hsame : socket.closed = false → socket.peerClosed = false →
    events.map Subtype.val = begun peer
  harrived : socket.arrived ≤ peer.wire.length

/-- Seen with what was sent, the run is one of the listener that knows. -/
structure Mirrors (peer : Host) (start : Delivery.State) (state : State) (sent : ℕ → Events) :
    Prop where
  hreaches : Reaches (Delivery.step peer) Delivery.Safe start (told sent state.listener)
  hfollows : ∀ cn socket, state.listener.loop.sockets cn = some socket →
    Follows (sent cn) socket (state.peers cn)

structure Kept (peer : Host) (start : Delivery.State) (state : State) : Prop where
  hframed : ∀ cn, Outgoing.Framed peer (state.peers cn)
  hsendable : ∀ cn, AllSendable (state.peers cn)
  hhanded : ∀ cn, handedBy state.listener.loop cn <+: (state.peers cn).returned
  hmirrors : ∃ sent, Mirrors peer start state sent

section Kept

variable {peer : Host} {state : State} {sent : ℕ → Events} {mMaxQueueSize : ℕ}
  {mConsumers : List ℕ} {slots : ℕ → Slots}

theorem kept_start (peer : Host) (mMaxQueueSize : ℕ) (mConsumers : List ℕ)
    (slots : ℕ → Slots) :
    Kept peer (.start mMaxQueueSize mConsumers slots)
      (.start mMaxQueueSize mConsumers slots) where
  hframed := fun _ => Outgoing.framed_start peer
  hsendable := fun _ => by
    simp [AllSendable, State.start, Outgoing.State.start, Outgoing.State.calls]
  hhanded := fun _ => List.prefix_rfl
  hmirrors := ⟨fun _ => [], .refl, fun cn socket h => by
    simp [State.start, Delivery.State.start, EventLoop.State.start] at h⟩

/-- An open connection has handed over the events whose call has returned, as far as
their frames have come in. -/
theorem Mirrors.pushed_eq
    (hmirrors : Mirrors peer (.start mMaxQueueSize mConsumers slots) state sent)
    (hframed : ∀ cn, Outgoing.Framed peer (state.peers cn)) {cn : ℕ}
    {socket : EventLoop.Socket} (hsocket : state.listener.loop.sockets cn = some socket)
    (hopen : socket.closed = false) :
    socket.pushed = EventLoop.whole (state.peers cn).returned socket.taken := by
  obtain ⟨hbegins, _, harrived⟩ := hmirrors.hfollows cn socket hsocket
  have hserves := ((Delivery.kept_of_run hmirrors.hreaches).hsockets cn _
    (toldLoop_sockets hsocket)).hserves hopen
  have htaken : socket.taken ≤ socket.arrived := hserves.htaken
  obtain ⟨more, hmore⟩ := hbegins
  calc socket.pushed = EventLoop.whole ((sent cn).map Subtype.val) socket.taken :=
        hserves.pushed_eq
    _ = EventLoop.whole (begun (state.peers cn)) socket.taken := by
        rw [← hmore]
        exact (whole_append_of_le (htaken.trans hserves.harrived) more).symm
    _ = EventLoop.whole (state.peers cn).returned socket.taken :=
        whole_begun (hframed cn) (htaken.trans harrived)

/-- What the peer does. -/
theorem Follows.moves {events : Events} {socket : EventLoop.Socket}
    {before after : Outgoing.State} (hfollows : Follows events socket before)
    (hmoves : Moves before after) (hsame : begun after = begun before) :
    Follows events socket after := by
  refine ⟨?_, ?_, hfollows.harrived.trans hmoves.hwire.length_le⟩
  · rw [hsame]
    exact hfollows.hbegins
  · rw [hsame]
    exact hfollows.hsame

/-- A frame is begun: the listener is told, unless an end is closed. -/
theorem Mirrors.begins {start : Delivery.State} (hmirrors : Mirrors peer start state sent)
    {cn : ℕ} {after : Outgoing.State} {event : Event} (hsendable : event.Sendable)
    (hmoves : Moves (state.peers cn) after)
    (hbegun : begun after = begun (state.peers cn) ++ [event]) :
    ∃ sent, Mirrors peer start (state.setPeer cn after) sent := by
  by_cases hlive : ∃ socket, state.listener.loop.sockets cn = some socket ∧
      socket.closed = false ∧ socket.peerClosed = false
  · obtain ⟨socket, hsocket, hopen, hpeer⟩ := hlive
    obtain ⟨_, hsame, harrived⟩ := hmirrors.hfollows cn socket hsocket
    have htold : (sent cn ++ ([⟨event, hsendable⟩] : Events)).map Subtype.val = begun after := by
      rw [List.map_append, hsame hopen hpeer, hbegun]
      rfl
    refine ⟨Function.update sent cn (sent cn ++ [⟨event, hsendable⟩]),
      hmirrors.hreaches.trans (reaches_tell hsocket hopen hpeer sent _), ?_⟩
    refine (Function.forall_update_iff state.peers fun other after => ∀ found,
      state.listener.loop.sockets other = some found →
        Follows (Function.update sent cn _ other) found after).mpr
      ⟨fun found hfound => ?_, fun other hother found hfound => ?_⟩
    · obtain rfl := Option.some.inj (hsocket.symm.trans hfound)
      rw [Function.update_self]
      exact ⟨htold ▸ List.prefix_rfl, fun _ _ => htold, harrived.trans hmoves.hwire.length_le⟩
    · rw [Function.update_of_ne hother]
      exact hmirrors.hfollows other found hfound
  · refine ⟨sent, hmirrors.hreaches, ?_⟩
    refine (Function.forall_update_iff state.peers fun other after => ∀ found,
      state.listener.loop.sockets other = some found → Follows (sent other) found after).mpr
      ⟨fun found hfound => ?_, fun other _ => hmirrors.hfollows other⟩
    obtain ⟨hbegins, _, harrived⟩ := hmirrors.hfollows cn found hfound
    refine ⟨hbegins.trans ?_, fun hopen hpeer => absurd ⟨found, hfound, hopen, hpeer⟩ hlive,
      harrived.trans hmoves.hwire.length_le⟩
    rw [hbegun]
    exact List.prefix_append _ _

theorem Kept.setPeer {start : Delivery.State} (hkept : Kept peer start state) {cn : ℕ}
    {action : Outgoing.Action} (hsafe : Safe peer state (.peer cn action))
    {after : Outgoing.State} (hstep : Outgoing.step peer (state.peers cn) action = some after) :
    Kept peer start (state.setPeer cn after) := by
  obtain ⟨hframed, hsendable, hhanded, sent, hmirrors⟩ := hkept
  have hmoves := moves_of_step (hframed cn) hsafe.1 hstep
  refine ⟨?_, ?_, ?_, ?_⟩
  · exact (Function.forall_update_iff state.peers fun _ => Outgoing.Framed peer).mpr
      ⟨(hframed cn).step hsafe.1 hstep, fun other _ => hframed other⟩
  · exact (Function.forall_update_iff state.peers fun _ => AllSendable).mpr
      ⟨(hsendable cn).step hsafe.2 hstep, fun other _ => hsendable other⟩
  · exact (Function.forall_update_iff state.peers fun other after =>
      handedBy state.listener.loop other <+: after.returned).mpr
      ⟨(hhanded cn).trans hmoves.hreturned, fun other _ => hhanded other⟩
  · rcases hmoves.hbegun with hsame | ⟨call, hcurrent, hbegun⟩
    · refine ⟨sent, hmirrors.hreaches, ?_⟩
      exact (Function.forall_update_iff state.peers fun other after => ∀ socket,
        state.listener.loop.sockets other = some socket → Follows (sent other) socket after).mpr
        ⟨fun socket hsocket => (hmirrors.hfollows cn socket hsocket).moves hmoves hsame,
          fun other _ => hmirrors.hfollows other⟩
    · have hcall : call ∈ (state.peers cn).calls :=
        List.mem_append_right _ (by rw [hcurrent]; exact .head _)
      exact hmirrors.begins (hsendable cn call hcall) hmoves hbegun

/-- Sockets other than one are as they were. -/
theorem follows_set {loop : EventLoop.State} {peers : ℕ → Outgoing.State}
    (hfollows : ∀ cn socket, loop.sockets cn = some socket → Follows (sent cn) socket (peers cn))
    {cn : ℕ} {found : EventLoop.Socket} (hfound : Follows (sent cn) found (peers cn)) :
    ∀ other socket, (loop.set cn found).sockets other = some socket →
      Follows (sent other) socket (peers other) := by
  intro other socket hsocket
  by_cases hother : other = cn
  · subst hother
    rw [EventLoop.State.set_self, Option.some.injEq] at hsocket
    rwa [← hsocket]
  · rw [EventLoop.State.set_of_ne hother] at hsocket
    exact hfollows other socket hsocket

/-- What other connections have handed over is as it was. -/
theorem handed_set {loop : EventLoop.State} {peers : ℕ → Outgoing.State}
    (hhanded : ∀ cn, handedBy loop cn <+: (peers cn).returned) {cn : ℕ}
    {found : EventLoop.Socket} (hfound : found.pushed <+: (peers cn).returned) (other : ℕ) :
    handedBy (loop.set cn found) other <+: (peers other).returned := by
  by_cases hother : other = cn
  · subst hother
    rwa [Delivery.handedBy_eq (EventLoop.State.set_self loop other found)]
  · rw [handedBy, EventLoop.State.set_of_ne hother]
    exact hhanded other

/-- What arrives is on the wire. -/
theorem Kept.arrive {start : Delivery.State} (hkept : Kept peer start state) {cn count : ℕ}
    {socket : EventLoop.Socket} (hsocket : state.listener.loop.sockets cn = some socket)
    (hopen : socket.closed = false) (hpeer : socket.peerClosed = false)
    (hcount : socket.arrived + count ≤ (state.peers cn).wire.length) :
    Kept peer start (state.setLoop (state.listener.loop.set cn
      { socket with arrived := socket.arrived + count })) := by
  obtain ⟨hframed, hsendable, hhanded, sent, hmirrors⟩ := hkept
  obtain ⟨hbegins, hsame, _⟩ := hmirrors.hfollows cn socket hsocket
  have htotal : socket.arrived + count ≤ total ((sent cn).map Subtype.val) := by
    have hwire := (wire_begins (hframed cn)).length_le
    rw [length_packs, ← hsame hopen hpeer] at hwire
    exact hcount.trans hwire
  have hloop : EventLoop.step peer (toldLoop sent state.listener.loop) (.arrive cn count) =
      some (toldLoop sent (state.listener.loop.set cn
        { socket with arrived := socket.arrived + count })) := by
    rw [toldLoop_set_self, EventLoop.step, toldLoop_sockets hsocket]
    exact (if_neg (by simp [toldSocket, hopen, hpeer])).trans (if_pos htotal)
  refine ⟨hframed, hsendable, handed_set hhanded ?_, sent, ?_, ?_⟩
  · exact Delivery.handedBy_eq hsocket ▸ hhanded cn
  · exact hmirrors.hreaches.tail ⟨.arrive cn count, trivial,
      Option.map_eq_some_iff.mpr ⟨_, hloop, rfl⟩⟩
  · exact follows_set hmirrors.hfollows ⟨hbegins, hsame, hcount⟩

/-- What `recv` takes from the wire is what it takes of what was sent. -/
theorem Mirrors.chunk_eq
    (hmirrors : Mirrors peer (.start mMaxQueueSize mConsumers slots) state sent)
    (hframed : ∀ cn, Outgoing.Framed peer (state.peers cn)) {cn count : ℕ}
    {socket : EventLoop.Socket} (hsocket : state.listener.loop.sockets cn = some socket)
    (hopen : socket.closed = false) (hcount : socket.taken + count ≤ socket.arrived) :
    (toldSocket (sent cn) socket).chunk peer count = state.chunk cn socket count := by
  obtain ⟨⟨more, hmore⟩, _, harrived⟩ := hmirrors.hfollows cn socket hsocket
  have hserves := ((Delivery.kept_of_run hmirrors.hreaches).hsockets cn _
    (toldLoop_sockets hsocket)).hserves hopen
  have htotal : socket.arrived ≤ total ((sent cn).map Subtype.val) := hserves.harrived
  have hpacks : packs peer ((sent cn).map Subtype.val) <+:
      packs peer (begun (state.peers cn)) := by
    rw [← hmore, packs_append]
    exact List.prefix_append _ _
  calc (toldSocket (sent cn) socket).chunk peer count
      = ((packs peer (begun (state.peers cn))).drop socket.taken).take count :=
        slice_of_begins hpacks (by rw [length_packs]; exact hcount.trans htotal)
    _ = state.chunk cn socket count :=
        (slice_of_begins (wire_begins (hframed cn)) (hcount.trans harrived)).symm

/-- What is asked of a `recv` is what `Delivery` asks. -/
theorem Mirrors.safe_recv
    (hmirrors : Mirrors peer (.start mMaxQueueSize mConsumers slots) state sent)
    {cn count : ℕ} {env : Env} {event : Event} {socket : EventLoop.Socket}
    (hsafe : Safe peer state (.recv count env))
    (hreading : state.listener.loop.reading = some (cn, event))
    (hsocket : state.listener.loop.sockets cn = some socket) (hopen : socket.closed = false) :
    Delivery.Safe (told sent state.listener) (.recv count env) := by
  refine ⟨hsafe.1, fun _ => rfl, fun other last found hother hfound => ?_⟩
  obtain ⟨rfl, rfl⟩ := Prod.mk.inj (Option.some.inj (hreading.symm.trans hother))
  obtain rfl := Option.some.inj ((toldLoop_sockets hsocket).symm.trans hfound)
  obtain ⟨⟨more, hmore⟩, _, _⟩ := hmirrors.hfollows cn socket hsocket
  have hserves := ((Delivery.kept_of_run hmirrors.hreaches).hsockets cn _ hfound).hserves hopen
  obtain ⟨hfits, hplaced⟩ := hsafe.2 cn event socket hreading hsocket
  rw [← hmore] at hfits hplaced
  have htaken : socket.taken ≤ total ((sent cn).map Subtype.val) :=
    hserves.htaken.trans hserves.harrived
  rw [pending_append_of_le htaken] at hfits
  exact ⟨hfits, (framesAt_append.mp hplaced).1⟩

theorem Kept.recv (hkept : Kept peer (.start mMaxQueueSize mConsumers slots) state)
    {cn count : ℕ} {env : Env} {event last : Event} {socket found : EventLoop.Socket}
    (hsafe : Safe peer state (.recv count env)) (hreads : state.listener.Reads)
    (hreading : state.listener.loop.reading = some (cn, event))
    (hsocket : state.listener.loop.sockets cn = some socket) (hopen : socket.closed = false)
    (hcount : 1 ≤ count ∧ count ≤ 512 ∧ socket.taken + count ≤ socket.arrived)
    (hread : socket.read (state.chunk cn socket count) env (fun _ => false) event =
      some (found, last)) :
    Kept peer (.start mMaxQueueSize mConsumers slots) (state.given cn socket found last) := by
  obtain ⟨hframed, hsendable, hhanded, sent, hmirrors⟩ := hkept
  have hchunk := hmirrors.chunk_eq hframed hsocket hopen hcount.2.2
  have hloop : EventLoop.step peer (toldLoop sent state.listener.loop)
      (.recv count env fun _ => false) = some (toldLoop sent
        { state.listener.loop.set cn found with reading := some (cn, last) }) := by
    rw [EventLoop.step, toldLoop_reading, hreading, toldLoop_set_at]
    simp only [toldLoop_sockets hsocket]
    rw [if_pos ⟨by simpa [toldSocket] using hopen, hcount⟩, hchunk,
      read_toldSocket (sent cn) hread]
    rfl
  have hstep : Delivery.step peer (told sent state.listener) (.recv count env) =
      some (told sent (state.given cn socket found last).listener) := by
    have hknown : (told sent state.listener).loop.reading = some (cn, event) := hreading
    have hready : (told sent state.listener).Reads := hreads
    rw [Delivery.step, if_pos hready, hknown]
    refine Option.map_eq_some_iff.mpr ⟨_, Option.map_eq_some_iff.mpr ⟨_, hloop, rfl⟩, ?_⟩
    have hbefore := Delivery.handedBy_eq (@toldLoop_sockets sent _ cn socket hsocket)
    have hafter := Delivery.handedBy_eq (@toldLoop_sockets sent
      { state.listener.loop.set cn found with reading := some (cn, last) } cn found
      (EventLoop.State.set_self _ cn found))
    rw [told, Delivery.State.mk.injEq]
    refine ⟨rfl, rfl, ?_, rfl, rfl, rfl⟩
    change ((handedBy (toldLoop sent
      { state.listener.loop.set cn found with reading := some (cn, last) }) cn).drop
        (handedBy (toldLoop sent state.listener.loop) cn).length).map (CnEvent.mk cn) = _
    rw [hbefore, hafter]
    rfl
  have hfound : (state.given cn socket found last).listener.loop.sockets cn = some found :=
    EventLoop.State.set_self _ cn found
  have hnext : Mirrors peer (.start mMaxQueueSize mConsumers slots)
      (state.given cn socket found last) sent := by
    refine ⟨hmirrors.hreaches.tail ⟨.recv count env,
      hmirrors.safe_recv hsafe hreading hsocket hopen, hstep⟩, follows_set hmirrors.hfollows ?_⟩
    obtain ⟨_, _, _, _, _, _, rfl⟩ := EventLoop.Socket.read_cases hread
    obtain ⟨hbegins, hsame, harrived⟩ := hmirrors.hfollows cn socket hsocket
    exact ⟨hbegins, hsame, harrived⟩
  have hstill : found.closed = false := by
    obtain ⟨_, _, _, _, _, _, rfl⟩ := EventLoop.Socket.read_cases hread
    exact hopen
  refine ⟨hframed, hsendable, handed_set hhanded ?_, sent, hnext⟩
  rw [hnext.pushed_eq hframed hfound hstill]
  exact whole_prefix_self _ _

/-- A step that does not depend on what was sent brings nothing and opens nothing. -/
theorem follows_of_quiet {loop next : EventLoop.State} {peers : ℕ → Outgoing.State}
    (hfollows : ∀ cn socket, loop.sockets cn = some socket → Follows (sent cn) socket (peers cn))
    {action : EventLoop.Action} (hquiet : Quiet action)
    (hnext : EventLoop.step peer loop action = some next) :
    ∀ cn socket, next.sockets cn = some socket → Follows (sent cn) socket (peers cn) := by
  cases EventLoop.branch_of_step hnext with
  | @peerClose cn socket hsocket hopen =>
      obtain ⟨hbegins, _, harrived⟩ := hfollows cn socket hsocket
      exact follows_set hfollows ⟨hbegins, nofun, harrived⟩
  | @pollClose cn events socket hidle hsocket hopen hclose =>
      obtain ⟨hbegins, _, harrived⟩ := hfollows cn socket hsocket
      exact follows_set hfollows ⟨hbegins, nofun, harrived⟩
  | @pollIdle cn events socket hidle hsocket hopen hclose hread =>
      obtain ⟨hbegins, hsame, harrived⟩ := hfollows cn socket hsocket
      exact follows_set hfollows ⟨hbegins, hsame, harrived⟩
  | @pollRead cn events socket hidle hsocket hopen hclose hread =>
      obtain ⟨hbegins, hsame, harrived⟩ := hfollows cn socket hsocket
      exact follows_set hfollows ⟨hbegins, hsame, harrived⟩
  | recvAgain hreading hsocket htaken hopen => exact hfollows
  | @recvClosed cn event socket hreading hsocket htaken hclosed =>
      obtain ⟨hbegins, _, harrived⟩ := hfollows cn socket hsocket
      exact follows_set hfollows ⟨hbegins, nofun, harrived⟩
  | @recvError cn event socket hreading hsocket =>
      obtain ⟨hbegins, _, harrived⟩ := hfollows cn socket hsocket
      exact follows_set hfollows ⟨hbegins, nofun, harrived⟩
  | _ => cases hquiet

theorem Follows.close {events : Events} {socket : EventLoop.Socket} {peer : Outgoing.State}
    (hfollows : Follows events socket peer) : Follows events socket.close peer :=
  ⟨hfollows.hbegins, nofun, hfollows.harrived⟩

theorem Kept.quiet {start next : Delivery.State} (hkept : Kept peer start state)
    {action : Delivery.Action} (hsafe : Delivery.Safe state.listener action)
    (hnext : Delivery.step peer state.listener action = some next)
    (hquiet : QuietListener action) : Kept peer start { state with listener := next } := by
  obtain ⟨hframed, hsendable, hhanded, sent, hreaches, hfollows⟩ := hkept
  have hsafe : Delivery.Safe (told sent state.listener) action := by
    cases action with
    | threads action => exact hsafe
    | recv count env => cases hquiet
    | _ => trivial
  have hnext' := hreaches.tail ⟨action, hsafe, step_told hquiet hnext⟩
  cases sockets_of_step hquiet hnext with
  | @moves _ moved hmoved hstep =>
      refine ⟨hframed, hsendable, fun cn => ?_, sent, hnext',
        follows_of_quiet hfollows hmoved hstep⟩
      have hsame := Delivery.handedBy_step (by rintro _ _ _ rfl; exact hmoved) hstep cn
      exact hsame ▸ hhanded cn
  | stays hloop =>
      refine ⟨hframed, hsendable, fun cn => ?_, sent, hnext', ?_⟩
      · exact hloop ▸ hhanded cn
      · exact hloop ▸ hfollows
  | @ends middle hloop =>
      refine ⟨hframed, hsendable, fun cn => ?_, sent, hnext', fun cn socket hsocket => ?_⟩
      · change handedBy middle.closeAll.loop cn <+: _
        rw [Delivery.handedBy_closeAll, hloop]
        exact hhanded cn
      · obtain ⟨found, hfound, rfl⟩ := Option.map_eq_some_iff.mp hsocket
        rw [hloop] at hfound
        split
        · exact (hfollows cn found hfound).close
        · exact hfollows cn found hfound

/-- A connection that is added is told what was begun before. -/
theorem Kept.connected {start next : Delivery.State} (hkept : Kept peer start state)
    {internal : Bool} {cn : ℕ} {buf : RingBuf} {hbuf : buf.mSize = connectionBufferSize - 1}
    (hunused : buf.mStart = 0 ∧ buf.mEnd = 0)
    (hnext : Delivery.step peer state.listener (.connected internal cn buf hbuf) = some next) :
    Kept peer start { state with listener := next } := by
  obtain ⟨hframed, hsendable, hhanded, sent, hreaches, hfollows⟩ := hkept
  obtain ⟨hloop, hnone, hstep⟩ :=
    @connected_told peer sent state.listener next internal cn buf hbuf hnext
  have hsocket : next.loop.sockets cn = some (.fresh buf) := by
    rw [hloop, EventLoop.State.set_self]
  have htold : ((begun (state.peers cn)).attachWith Event.Sendable
      (hsendable cn).begun).map Subtype.val = begun (state.peers cn) :=
    List.attachWith_map_subtype_val _
  generalize (begun (state.peers cn)).attachWith Event.Sendable _ = events at htold
  have hreaches := (hreaches.tail ⟨.connected internal cn buf hbuf, hunused, hstep⟩).trans
    (reaches_tell hsocket rfl rfl (Function.update sent cn []) events)
  rw [Function.update_self, Function.update_idem, List.nil_append] at hreaches
  refine ⟨hframed, hsendable, fun other => ?_, Function.update sent cn events, hreaches,
    fun other socket hother => ?_⟩
  · change handedBy next.loop other <+: _
    rw [hloop]
    exact handed_set hhanded List.nil_prefix other
  · change next.loop.sockets other = some socket at hother
    by_cases hsame : other = cn
    · subst hsame
      obtain rfl := Option.some.inj (hsocket.symm.trans hother)
      rw [Function.update_self]
      exact ⟨htold ▸ List.prefix_rfl, fun _ _ => htold, Nat.zero_le _⟩
    · rw [hloop, EventLoop.State.set_of_ne hsame] at hother
      rw [Function.update_of_ne hsame]
      exact hfollows other socket hother

/-- After a safe step the listener is still where a run of `Delivery` would have it,
and what it has handed over has been sent. -/
theorem Kept.step {next : State} (hkept : Kept peer (.start mMaxQueueSize mConsumers slots) state)
    {action : Action} (hsafe : Safe peer state action)
    (hnext : step peer state action = some next) :
    Kept peer (.start mMaxQueueSize mConsumers slots) next := by
  cases branch_of_step hnext with
  | peer hstep => exact hkept.setPeer hsafe hstep
  | arrive hsocket hopen hpeer hcount => exact hkept.arrive hsocket hopen hpeer hcount
  | recv hreads hreading hsocket hopen hcount hread =>
      exact hkept.recv hsafe hreads hreading hsocket hopen hcount hread
  | connected hstep => exact hkept.connected hsafe hstep
  | quiet hquiet hstep => exact hkept.quiet hsafe hstep hquiet

theorem kept_of_run
    (hreaches : Reaches (Passage.step peer) (Safe peer)
      (.start mMaxQueueSize mConsumers slots) state) :
    Kept peer (.start mMaxQueueSize mConsumers slots) state :=
  hreaches.invariant (fun hkept hsafe hnext => hkept.step hsafe hnext)
    (kept_start peer mMaxQueueSize mConsumers slots)

theorem handedBy_toldLoop (sent : ℕ → Events) (loop : EventLoop.State) (cn : ℕ) :
    handedBy (toldLoop sent loop) cn = handedBy loop cn := by
  rw [handedBy, handedBy]
  change (Option.map _ (loop.sockets cn)).elim _ _ = _
  cases loop.sockets cn <;> rfl

/-- What was read of a connection is shared out between the slot, the way to it,
and the events turned away. -/
theorem Kept.shared (hkept : Kept peer (.start mMaxQueueSize mConsumers slots) state)
    {i : ℕ} {name : List Byte} (hbinds : state.listener.queues.Binds i name) (cn : ℕ) :
    Shared ((handedBy state.listener.loop cn).filter fun event => event.name = name)
      (ofConnection cn (toCallback (.slot i name) state.listener.queues.calls ++
        state.listener.onWay i name))
      (ofConnection cn (Delivery.named name state.listener.lost)) := by
  obtain ⟨sent, hreaches, _⟩ := hkept.hmirrors
  have hshared := (Delivery.kept_of_run hreaches).shared hbinds cn
  change Shared ((handedBy (toldLoop sent state.listener.loop) cn).filter _) _ _ at hshared
  rwa [handedBy_toldLoop] at hshared

def Roomy (peer : Host) (state : State) (action : Action) : Prop :=
  Safe peer state action ∧ ∀ moved, action = .listener moved → moved.Allocates

end Kept

/-! ## A message -/

def frame : List Byte :=
  [0, 7, 112, 0, 6, 0, 7]

/-- What there is to see when the message was passed on. -/
def State.Passed (state : State) : Prop :=
  state.listener.queues.calls = [(.slot 0 [112], ⟨5, Delivery.seven.toEvent .little⟩)] ∧
    (state.peers 5).returned = [Delivery.seven.toEvent .little] ∧
    (state.peers 5).wire.length = 7 ∧
    (state.listener.loop.sockets 5).map (fun socket => (socket.taken, socket.closed)) =
      some (7, false) ∧
    0 ∈ state.listener.queues.mConsumers ∧
    ([112], true) ∈ (state.listener.queues.consumers 0).slots.mSlots.slots ∧
    state.listener.queues.met 0 = true

instance (state : State) : Decidable state.Passed :=
  inferInstanceAs (Decidable (_ ∧ _ ∧ _ ∧ _ ∧ _ ∧ _ ∧ _))

end Sednl.Passage
