import Sednl.Library.Sharing
import Sednl.Net.Dispatch
import Sednl.Net.EventLoop
import Sednl.Wire.RoundTrip
import Sednl.Wire.Written

/-!
# Delivery

The whole way of an event: the loop reads the sockets of its connections, each
event its buffer gives is offered to the queue of its name, and the consumers
pass what is queued to their slots.  The picks of one chunk are taken together,
since no other thread sees the buffer; the pushes that follow are taken one by
one.  What a slot gets of a connection is what its peer has sent under the name,
in order and unchanged, less what the queue has turned away.
-/

namespace Sednl.Delivery

open Sednl.Endian
open Sednl.Packet
open Sednl.Reader
open Sednl.Ring
open Sednl.RoundTrip
open Sednl.Sharing
open Sednl.Tag
open Sednl.Transition
open Sednl.Dispatch (CnEvent Slots toCallback)

/-- A listener: its connections, its queues and consumers, what the last chunk
has given and is still to be offered, and the connections it has accepted.  The
last two fields are a record: what the queues were offered, and what they have
turned away. -/
structure State where
  loop : EventLoop.State
  queues : Dispatch.State
  handed : List CnEvent
  internal : ℕ → Bool
  offered : List CnEvent
  lost : List CnEvent

def State.start (mMaxQueueSize : ℕ) (mConsumers : List ℕ) (slots : ℕ → Slots) : State where
  loop := .start
  queues := .start mMaxQueueSize mConsumers slots
  handed := []
  internal := fun _ => false
  offered := []
  lost := []

inductive Action where
  | send (cn : ℕ) (event : Event)
  | arrive (cn count : ℕ)
  | peerClose (cn : ℕ)
  /-- A connection is accepted, if `internal`, or was attached. -/
  | connected (internal : Bool) (cn : ℕ) (buf : RingBuf)
      (hbuf : buf.mSize = connectionBufferSize - 1)
  | poll (cn : ℕ) (events : EventLoop.EpollEvents)
  | recv (count : ℕ) (env : Env)
  | recvAgain
  | recvClosed
  | recvError
  /-- The next event of the chunk is offered to its queue. -/
  | offer
  /-- Any other step of the threads. -/
  | threads (action : Dispatch.Action)

def handedBy (loop : EventLoop.State) (cn : ℕ) : List Event :=
  (loop.sockets cn).elim [] EventLoop.Socket.pushed

def inPush (queues : Dispatch.State) : List CnEvent :=
  match queues.listening with
  | .pushing item => [item]
  | _ => []

def takes : Dispatch.Action → List CnEvent
  | .pick item => [item]
  | _ => []

/-- What a step offers to a queue, the queue being full or its push failing or not. -/
def offers (queues : Dispatch.State) : Dispatch.Action → List CnEvent
  | .pick item => if queues.isFull item.event.name then [item] else []
  | .push _ => inPush queues
  | _ => []

/-- What a step turns away: an event whose queue is full, or whose push fails. -/
def refused (queues : Dispatch.State) : Dispatch.Action → List CnEvent
  | .pick item => if queues.isFull item.event.name then [item] else []
  | .push allocates => if allocates then [] else inPush queues
  | _ => []

namespace State

/-- The thread of the listener is at a call of `next_event` or of `recv`. -/
def Reads (state : State) : Prop :=
  state.queues.listening = .looping ∧ state.handed = []

instance (state : State) : Decidable state.Reads :=
  inferInstanceAs (Decidable (_ ∧ _))

def advance (peer : Host) (state : State) (action : EventLoop.Action) : Option State :=
  (EventLoop.step peer state.loop action).map fun loop => { state with loop := loop }

def proceed (state : State) (action : Dispatch.Action) : Option State :=
  (Dispatch.step state.queues action).map fun queues =>
    { state with
      queues := queues
      offered := state.offered ++ offers state.queues action
      lost := state.lost ++ refused state.queues action }

/-- The end of the event loop: all connections it has accepted are closed. -/
def closeAll (state : State) : State :=
  { state with
    loop := { state.loop with
      sockets := fun cn => (state.loop.sockets cn).map fun socket =>
        if state.internal cn then socket.close else socket } }

end State

def step (peer : Host) (state : State) : Action → Option State
  | .send cn event => state.advance peer (.send cn event)
  | .arrive cn count => state.advance peer (.arrive cn count)
  | .peerClose cn => state.advance peer (.peerClose cn)
  | .connected internal cn buf hbuf =>
      if state.Reads then
        (state.advance peer (.connected cn buf hbuf)).map fun next =>
          { next with internal := Function.update next.internal cn internal }
      else none
  | .poll cn events => if state.Reads then state.advance peer (.poll cn events) else none
  | .recv count env =>
      if state.Reads then
        match state.loop.reading with
        | none => none
        | some (cn, _) =>
            (state.advance peer (.recv count env fun _ => false)).map fun next =>
              { next with
                handed := ((handedBy next.loop cn).drop (handedBy state.loop cn).length).map
                  (CnEvent.mk cn) }
      else none
  | .recvAgain => if state.Reads then state.advance peer .recvAgain else none
  | .recvClosed => if state.Reads then state.advance peer .recvClosed else none
  | .recvError => if state.Reads then state.advance peer .recvError else none
  | .offer =>
      match state.handed with
      | [] => none
      | item :: items =>
          (state.proceed (.pick item)).map fun next => { next with handed := items }
  | .threads (.pick _) => none
  | .threads .leave =>
      if state.handed = [] ∧ state.loop.reading.isNone then
        (state.proceed .leave).map State.closeAll
      else none
  | .threads action => state.proceed action

/-- When a step is safe: an event that is sent can be received, a connection brings a
buffer that was not used before, what `recv` returns fits, its frames are in place and
no allocation fails for it; and the threads are started and stopped in order. -/
def Safe (state : State) : Action → Prop
  | .send cn event => EventLoop.Safe state.loop (.send cn event)
  | .connected _ cn buf hbuf => EventLoop.Safe state.loop (.connected cn buf hbuf)
  | .recv count env => EventLoop.Safe state.loop (.recv count env fun _ => false)
  | .threads action => Dispatch.Safe state.queues action
  | _ => True

/-! ## What a step can do -/

/-- A step of the sockets that brings in a connection, an event or bytes. -/
def Brings : EventLoop.Action → Prop
  | .connected _ _ _ | .send _ _ | .recv _ _ _ => True
  | .arrive _ _ | .peerClose _ | .poll _ _ | .recvAgain | .recvClosed | .recvError => False

/-- The branches of `step` that lead to a state: what each asks for, and where
it leads. -/
inductive Branch (peer : Host) (state : State) : Action → State → Prop where
  | sockets {action : Action} {moved : EventLoop.Action} {loop : EventLoop.State}
      {internal : ℕ → Bool} (hmoved : ∀ count env full, moved ≠ .recv count env full)
      (hsafe : Safe state action → Brings moved → EventLoop.Safe state.loop moved)
      (hstep : EventLoop.step peer state.loop moved = some loop) :
      Branch peer state action { state with loop := loop, internal := internal }
  | recv {count cn : ℕ} {env : Env} {event : Event} {loop : EventLoop.State}
      (hreads : state.Reads) (hreading : state.loop.reading = some (cn, event))
      (hstep : EventLoop.step peer state.loop (.recv count env fun _ => false) = some loop) :
      Branch peer state (.recv count env) { state with
        loop := loop
        handed := ((handedBy loop cn).drop (handedBy state.loop cn).length).map
          (CnEvent.mk cn) }
  | offer {item : CnEvent} {items : List CnEvent} {next : State}
      (hhanded : state.handed = item :: items)
      (hproceed : state.proceed (.pick item) = some next) :
      Branch peer state .offer { next with handed := items }
  | leave {next : State} (hhanded : state.handed = [])
      (hproceed : state.proceed .leave = some next) :
      Branch peer state (.threads .leave) next.closeAll
  | threads {action : Dispatch.Action} {next : State} (hleave : action ≠ .leave)
      (hpick : ∀ item, action ≠ .pick item) (hproceed : state.proceed action = some next) :
      Branch peer state (.threads action) next

section Inversion

variable {peer : Host} {state next : State}

theorem branch_of_advance {action : Action} {moved : EventLoop.Action}
    (hquiet : ¬ Brings moved) (hnext : state.advance peer moved = some next) :
    Branch peer state action next := by
  obtain ⟨loop, hstep, rfl⟩ := Option.map_eq_some_iff.mp hnext
  refine .sockets ?_ (fun _ hbrings => absurd hbrings hquiet) hstep
  rintro count env full rfl
  exact hquiet trivial

theorem branch_of_recv {count : ℕ} {env : Env}
    (hnext : step peer state (.recv count env) = some next) :
    Branch peer state (.recv count env) next := by
  obtain ⟨hreads, hnext⟩ := Option.ite_none_right_eq_some.mp hnext
  split at hnext
  · cases hnext
  · rename_i cn event hreading
    obtain ⟨middle, hadvance, rfl⟩ := Option.map_eq_some_iff.mp hnext
    obtain ⟨loop, hstep, rfl⟩ := Option.map_eq_some_iff.mp hadvance
    exact .recv hreads hreading hstep

theorem branch_of_threads {action : Dispatch.Action}
    (hnext : step peer state (.threads action) = some next) :
    Branch peer state (.threads action) next := by
  cases action with
  | pick item => cases hnext
  | leave =>
      obtain ⟨⟨hhanded, _⟩, hnext⟩ := Option.ite_none_right_eq_some.mp hnext
      obtain ⟨middle, hproceed, rfl⟩ := Option.map_eq_some_iff.mp hnext
      exact .leave hhanded hproceed
  | _ => exact .threads (by simp) (by simp) hnext

/-- Each step takes one of the branches. -/
theorem branch_of_step {action : Action} (hnext : step peer state action = some next) :
    Branch peer state action next := by
  cases action with
  | send cn event =>
      obtain ⟨loop, hstep, rfl⟩ := Option.map_eq_some_iff.mp hnext
      refine .sockets (by simp) ?_ hstep
      exact fun hsafe _ => hsafe
  | arrive cn count => exact branch_of_advance (by simp [Brings]) hnext
  | peerClose cn => exact branch_of_advance (by simp [Brings]) hnext
  | connected internal cn buf hbuf =>
      obtain ⟨_, hnext⟩ := Option.ite_none_right_eq_some.mp hnext
      obtain ⟨middle, hadvance, rfl⟩ := Option.map_eq_some_iff.mp hnext
      obtain ⟨loop, hstep, rfl⟩ := Option.map_eq_some_iff.mp hadvance
      refine .sockets (by simp) ?_ hstep
      exact fun hsafe _ => hsafe
  | poll cn events =>
      exact branch_of_advance (by simp [Brings]) (Option.ite_none_right_eq_some.mp hnext).2
  | recv count env => exact branch_of_recv hnext
  | recvAgain =>
      exact branch_of_advance (by simp [Brings]) (Option.ite_none_right_eq_some.mp hnext).2
  | recvClosed =>
      exact branch_of_advance (by simp [Brings]) (Option.ite_none_right_eq_some.mp hnext).2
  | recvError =>
      exact branch_of_advance (by simp [Brings]) (Option.ite_none_right_eq_some.mp hnext).2
  | offer =>
      rw [step] at hnext
      split at hnext
      · cases hnext
      · rename_i item items hhanded
        obtain ⟨middle, hproceed, rfl⟩ := Option.map_eq_some_iff.mp hnext
        exact .offer hhanded hproceed
  | threads action => exact branch_of_threads hnext

end Inversion

/-! ## The sockets -/

section Sockets

variable {peer : Host} {loop next : EventLoop.State}

/-- An open connection serves its peer, and what any has handed over is a prefix
of what its peer has sent. -/
structure Sound (peer : Host) (socket : EventLoop.Socket) : Prop where
  hserves : socket.closed = false → socket.Serves peer
  hbegins : socket.pushed <+: socket.sent

def AllSound (peer : Host) (loop : EventLoop.State) : Prop :=
  ∀ cn socket, loop.sockets cn = some socket → Sound peer socket

theorem Sound.of_serves {socket : EventLoop.Socket} (hserves : socket.Serves peer) :
    Sound peer socket :=
  ⟨fun _ => hserves, hserves.hsettled.1.hhanded⟩

theorem Sound.close {socket : EventLoop.Socket} (hsound : Sound peer socket) :
    Sound peer socket.close :=
  ⟨fun h => by simp [EventLoop.Socket.close] at h, hsound.hbegins⟩

theorem AllSound.set (hsound : AllSound peer loop) (cn : ℕ) {socket : EventLoop.Socket}
    (hsocket : Sound peer socket) : AllSound peer (loop.set cn socket) := by
  intro other found hfound
  by_cases hsame : other = cn
  · subst hsame
    rw [EventLoop.State.set_self, Option.some.injEq] at hfound
    rwa [← hfound]
  · rw [EventLoop.State.set_of_ne hsame] at hfound
    exact hsound other found hfound

/-- What is brought in is safe. -/
theorem AllSound.step (hsound : AllSound peer loop) {action : EventLoop.Action}
    (hsafe : Brings action → EventLoop.Safe loop action)
    (hnext : EventLoop.step peer loop action = some next) : AllSound peer next := by
  cases EventLoop.branch_of_step hnext with
  | @connected cn buf hbuf hnew =>
      have hunused : buf.mStart = 0 ∧ buf.mEnd = 0 := hsafe trivial
      exact hsound.set cn (.of_serves ((EventLoop.Socket.kept_fresh hbuf hunused).1 rfl))
  | @send cn event socket hsocket hopen hpeer =>
      have hevent : event.Sendable := hsafe trivial
      exact hsound.set cn (.of_serves (((hsound cn socket hsocket).hserves hopen).send hevent))
  | @arrive cn count socket hsocket hopen hpeer hcount =>
      exact hsound.set cn (.of_serves (((hsound cn socket hsocket).hserves hopen).arrive hcount))
  | @peerClose cn socket hsocket hopen =>
      have hkept := ((hsound cn socket hsocket).hserves hopen).kept hopen
      exact hsound.set cn (.of_serves (hkept.peerClose.1 hopen))
  | @pollClose cn events socket hidle hsocket hopen hclose =>
      have hserves := ((hsound cn socket hsocket).hserves hopen).promise
      exact hsound.set cn (Sound.of_serves hserves).close
  | @pollIdle cn events socket hidle hsocket hopen hclose hread =>
      exact hsound.set cn (.of_serves ((hsound cn socket hsocket).hserves hopen).promise)
  | @pollRead cn events socket hidle hsocket hopen hclose hread =>
      exact hsound.set cn (.of_serves ((hsound cn socket hsocket).hserves hopen).promise)
  | @recv cn event last socket found count env full hreading hsocket hopen hcount hread =>
      obtain ⟨hallocates, hroom, hfits⟩ := hsafe trivial
      obtain ⟨hfit, hplaced⟩ := hfits cn event socket hreading hsocket
      have hserves := (hsound cn socket hsocket).hserves hopen
      exact hsound.set cn
        (.of_serves (hserves.read hcount.2.2 hallocates hroom hfit hplaced hread).1)
  | recvAgain => exact hsound
  | @recvClosed cn event socket hreading hsocket htaken hclosed =>
      exact hsound.set cn (hsound cn socket hsocket).close
  | @recvError cn event socket hreading hsocket =>
      exact hsound.set cn (hsound cn socket hsocket).close

theorem handedBy_eq {cn : ℕ} {socket : EventLoop.Socket}
    (hsocket : loop.sockets cn = some socket) : handedBy loop cn = socket.pushed := by
  rw [handedBy, hsocket, Option.elim_some]

theorem handedBy_set {cn : ℕ} {socket found : EventLoop.Socket}
    (hsocket : loop.sockets cn = some socket) (hsame : found.pushed = socket.pushed)
    (hnext : next.sockets = (loop.set cn found).sockets) (other : ℕ) :
    handedBy next other = handedBy loop other := by
  rw [handedBy, handedBy, hnext]
  by_cases hother : other = cn
  · subst hother
    rw [EventLoop.State.set_self, hsocket, Option.elim_some, Option.elim_some, hsame]
  · rw [EventLoop.State.set_of_ne hother]

/-- Only a `recv` makes a connection hand something over. -/
theorem handedBy_step {action : EventLoop.Action}
    (haction : ∀ count env full, action ≠ .recv count env full)
    (hnext : EventLoop.step peer loop action = some next) (cn : ℕ) :
    handedBy next cn = handedBy loop cn := by
  cases EventLoop.branch_of_step hnext with
  | @connected other buf hbuf hnew =>
      by_cases hother : cn = other
      · subst hother
        rw [handedBy, handedBy, EventLoop.State.set_self, hnew]
        rfl
      · rw [handedBy, handedBy, EventLoop.State.set_of_ne hother]
  | @recv _ _ _ _ _ count env full => exact absurd rfl (haction count env full)
  | recvAgain => rfl
  | send hsocket => exact handedBy_set hsocket (by rfl) rfl cn
  | arrive hsocket => exact handedBy_set hsocket (by rfl) rfl cn
  | peerClose hsocket => exact handedBy_set hsocket (by rfl) rfl cn
  | pollClose hidle hsocket => exact handedBy_set hsocket (by rfl) rfl cn
  | pollIdle hidle hsocket => exact handedBy_set hsocket (by rfl) rfl cn
  | pollRead hidle hsocket => exact handedBy_set hsocket (by rfl) rfl cn
  | recvClosed hreading hsocket => exact handedBy_set hsocket (by rfl) rfl cn
  | recvError hreading hsocket => exact handedBy_set hsocket (by rfl) rfl cn

/-- A `recv` adds to what one connection has handed over. -/
theorem handedBy_recv {count cn : ℕ} {env : Env} {event : Event} {full : ℕ → Bool}
    (hreading : loop.reading = some (cn, event))
    (hnext : EventLoop.step peer loop (.recv count env full) = some next) :
    handedBy loop cn <+: handedBy next cn ∧
      ∀ other, other ≠ cn → handedBy next other = handedBy loop other := by
  cases EventLoop.branch_of_step hnext with
  | @recv found event' last socket read count env full hfound hsocket hopen hcount hread =>
      obtain ⟨rfl, rfl⟩ := Prod.mk.inj (Option.some.inj (hreading.symm.trans hfound))
      obtain ⟨accepted, buf, handed, settled, hput, hrun, rfl⟩ :=
        EventLoop.Socket.read_cases hread
      refine ⟨?_, fun other hother => ?_⟩
      · rw [handedBy_eq hsocket, handedBy, EventLoop.State.set_self, Option.elim_some]
        exact List.prefix_append _ _
      · rw [handedBy, EventLoop.State.set_of_ne hother, handedBy]

end Sockets

/-! ## The queues -/

def named (name : List Byte) (items : List CnEvent) : List CnEvent :=
  items.filter fun item => item.event.name = name

def ofConnection (cn : ℕ) (items : List CnEvent) : List Event :=
  (items.filter fun item => item.cn = cn).map CnEvent.event

theorem named_append (name : List Byte) (left right : List CnEvent) :
    named name (left ++ right) = named name left ++ named name right :=
  List.filter_append left right

theorem ofConnection_append (cn : ℕ) (left right : List CnEvent) :
    ofConnection cn (left ++ right) = ofConnection cn left ++ ofConnection cn right := by
  rw [ofConnection, List.filter_append, List.map_append]
  rfl

theorem ofConnection_self (cn : ℕ) (events : List Event) :
    ofConnection cn (events.map (CnEvent.mk cn)) = events := by
  rw [ofConnection, List.filter_eq_self.mpr (by simp), List.map_map]
  exact List.map_id events

theorem ofConnection_of_ne {cn other : ℕ} (hne : other ≠ cn) (events : List Event) :
    ofConnection other (events.map (CnEvent.mk cn)) = [] := by
  rw [ofConnection, List.filter_eq_nil_iff.mpr (by simpa using fun _ _ => hne.symm), List.map_nil]

/-- Each queue has accepted what it was offered, less what it has turned away. -/
def Booked (queues : Dispatch.State) (offered lost : List CnEvent) : Prop :=
  ∀ name, Shared (named name offered) (queues.accepted name) (named name lost)

section Queues

variable {queues next : Dispatch.State} {offered lost : List CnEvent} {action : Dispatch.Action}

/-- A sweep does not touch what belongs to the listener. -/
theorem consume_frame (queues : Dispatch.State) (i : ℕ) (last : Bool)
    (visit : Option (List Byte)) (outcome : Dispatch.Outcome) (place : Dispatch.Place) :
    (queues.consume i last visit outcome place).accepted = queues.accepted ∧
      (queues.consume i last visit outcome place).listening = queues.listening ∧
      (queues.consume i last visit outcome place).mMaxQueueSize = queues.mMaxQueueSize ∧
      (queues.consume i last visit outcome place).missed = queues.missed := by
  cases place with
  | slots todo =>
      match todo with
      | [] => rw [Dispatch.State.consume]; split <;> exact ⟨rfl, rfl, rfl, rfl⟩
      | (_, false) :: todo => exact ⟨rfl, rfl, rfl, rfl⟩
      | (_, true) :: todo => rw [Dispatch.State.consume]; split <;> exact ⟨rfl, rfl, rfl, rfl⟩
  | call name item todo => cases outcome <;> exact ⟨rfl, rfl, rfl, rfl⟩
  | rest =>
      cases visit with
      | none => exact ⟨rfl, rfl, rfl, rfl⟩
      | some name => rw [Dispatch.State.consume]; split <;> exact ⟨rfl, rfl, rfl, rfl⟩
  | process name => rw [Dispatch.State.consume]; split <;> exact ⟨rfl, rfl, rfl, rfl⟩
  | restCall name item => cases outcome <;> exact ⟨rfl, rfl, rfl, rfl⟩

theorem notify_frame (queues : Dispatch.State) (link : Option ℕ) :
    (queues.notify link).accepted = queues.accepted ∧
      (queues.notify link).mMaxQueueSize = queues.mMaxQueueSize ∧
      (queues.notify link).missed = queues.missed := by
  cases link <;> exact ⟨rfl, rfl, rfl⟩

theorem inPush_of_pushing {item : CnEvent} (hpushing : queues.listening = .pushing item) :
    inPush queues = [item] := by
  rw [inPush, hpushing]

/-- What one step makes of the books: only a full queue and a push close an entry. -/
theorem Booked.step (hbooked : Booked queues offered lost)
    (hnext : Dispatch.step queues action = some next) :
    Booked next (offered ++ offers queues action) (lost ++ refused queues action) := by
  intro name
  rw [named_append, named_append]
  have hsame := hbooked name
  cases Dispatch.branch_of_step hnext with
  | full hlooping hfull =>
      rw [offers, refused, if_pos hfull]
      exact hsame.append_lost _
  | pick hlooping hroom =>
      rw [offers, refused, if_neg (by simp [hroom])]
      simpa [named] using hsame
  | @push item hpushing =>
      rw [offers, refused, inPush_of_pushing hpushing]
      by_cases hname : name = item.event.name
      · subst hname
        have hpushed : named item.event.name [item] = [item] := by simp [named]
        rw [hpushed, if_pos rfl]
        change Shared _ (Function.update queues.accepted _ _ _) _
        rw [Function.update_self]
        simpa [named] using hsame.append_kept [item]
      · have hother : named name [item] = [] := by simp [named, Ne.symm hname]
        rw [hother, if_pos rfl]
        change Shared _ (Function.update queues.accepted _ _ _) _
        rw [Function.update_of_ne hname]
        simpa [named] using hsame
  | pushFails hpushing =>
      rw [offers, refused, inPush_of_pushing hpushing]
      exact hsame.append_lost _
  | notify hnotifying =>
      change Shared _ ((queues.notify _).accepted name) _
      rw [(notify_frame _ _).1]
      simpa [offers, refused, named] using hsame
  | @consumes i visit outcome last place hi hconsuming =>
      rw [(consume_frame queues i last visit outcome place).1]
      simpa [offers, refused, named] using hsame
  | _ => simpa [offers, refused, named, Dispatch.State.set, Dispatch.State.move,
      Dispatch.State.miss] using hsame

/-- What a step takes in is about to be pushed, or offered already. -/
theorem inPush_step (hnext : Dispatch.step queues action = some next) :
    offers queues action ++ inPush next = inPush queues ++ takes action := by
  cases Dispatch.branch_of_step hnext with
  | full hlooping hfull => simp [takes, offers, inPush, hlooping, hfull]
  | pick hlooping hroom => simp [takes, offers, inPush, hlooping, hroom]
  | push hpushing => simp [takes, offers, inPush, hpushing]
  | pushFails hpushing => simp [takes, offers, inPush, hpushing]
  | notify hnotifying => simp [takes, offers, inPush, hnotifying]
  | @consumes i visit outcome last place hi hconsuming =>
      simp [takes, offers, inPush, (consume_frame queues i last visit outcome place).2.1]
  | runListener hready hlinks => simp [takes, offers, inPush, hready.1]
  | leave hready => simp [takes, offers, inPush, hready.1]
  | await hjoining => simp [takes, offers, inPush, hjoining]
  | tell hjoining => simp [takes, offers, inPush, hjoining]
  | skip hjoining => simp [takes, offers, inPush, hjoining]
  | nextJoined hwaiting => simp [takes, offers, inPush, hwaiting]
  | release hjoining => simp [takes, offers, inPush, hjoining]
  | _ => simp [takes, offers, inPush, Dispatch.State.set, Dispatch.State.move,
      Dispatch.State.miss]

theorem takes_of_ne (hpick : ∀ item, action ≠ .pick item) : takes action = [] := by
  cases action with
  | pick item => exact absurd rfl (hpick item)
  | _ => rfl

/-- Only `leave` ends the event loop. -/
theorem reading_step (hleave : action ≠ .leave)
    (hnext : Dispatch.step queues action = some next)
    (hended : next.listening.reading = false) : queues.listening.reading = false := by
  cases Dispatch.branch_of_step hnext with
  | runListener hready hlinks => rw [hready.1]; rfl
  | leave hready => exact absurd rfl hleave
  | await hjoining => rw [hjoining]; rfl
  | tell hjoining => rw [hjoining]; rfl
  | skip hjoining => rw [hjoining]; rfl
  | nextJoined hwaiting => rw [hwaiting]; rfl
  | release hjoining => rw [hjoining]; rfl
  | @consumes i visit outcome last place hi hconsuming =>
      rwa [(consume_frame queues i last visit outcome place).2.1] at hended
  | full hlooping hfull => exact hended
  | pick hlooping hroom => simp [Dispatch.Listening.reading] at hended
  | push hpushing => simp [Dispatch.Listening.reading] at hended
  | pushFails hpushing => simp [Dispatch.Listening.reading] at hended
  | notify hnotifying => simp [Dispatch.Listening.reading] at hended
  | _ => simpa [Dispatch.State.set, Dispatch.State.move,
      Dispatch.State.miss] using hended

theorem mMaxQueueSize_step (hnext : Dispatch.step queues action = some next) :
    next.mMaxQueueSize = queues.mMaxQueueSize := by
  cases Dispatch.branch_of_step hnext with
  | notify hnotifying => exact (notify_frame queues _).2.1
  | @consumes i visit outcome last place hi hconsuming =>
      exact (consume_frame queues i last visit outcome place).2.2.1
  | _ => rfl

/-- Only a `pop` that fails makes a sweep miss a queue. -/
theorem missed_step (hpop : ∀ i, action ≠ .popFails i)
    (hnext : Dispatch.step queues action = some next) {name : List Byte}
    (hnone : queues.missed name = false) : next.missed name = false := by
  cases Dispatch.branch_of_step hnext with
  | runListener hready hlinks => rfl
  | notify hnotifying =>
      change (queues.notify _).missed name = false
      rwa [(notify_frame queues _).2.2]
  | @consumes i visit outcome last place hi hconsuming =>
      rwa [(consume_frame queues i last visit outcome place).2.2.2]
  | @misses i last other todo hi hconsuming => exact absurd rfl (hpop i)
  | @missesRest i last other hi hconsuming => exact absurd rfl (hpop i)
  | _ => exact hnone

/-- Where the queues have no bound, only a push that fails turns an event away. -/
theorem refused_of_unbounded (hbound : queues.mMaxQueueSize = 0) (haction : action ≠ .push false) :
    refused queues action = [] := by
  cases action with
  | pick item => simp [refused, Dispatch.State.isFull, Dispatch.isFull, hbound]
  | push allocates =>
      cases allocates with
      | true => rfl
      | false => exact absurd rfl haction
  | _ => rfl

end Queues

/-! ## Runs -/

/-- Each part keeps its own invariant, and what a connection has handed over was
offered to the queues, or is next to be. -/
structure Kept (peer : Host) (state : State) : Prop where
  hsockets : AllSound peer state.loop
  hqueues : Dispatch.Kept state.queues
  hbooked : Booked state.queues state.offered state.lost
  hhanded : ∀ cn, ofConnection cn (state.offered ++ inPush state.queues ++ state.handed) =
    handedBy state.loop cn
  hbusy : state.queues.listening.reading = false → state.handed = []

section Runs

variable {peer : Host} {state next : State}

theorem kept_start (peer : Host) (mMaxQueueSize : ℕ) (mConsumers : List ℕ)
    (slots : ℕ → Slots) : Kept peer (.start mMaxQueueSize mConsumers slots) where
  hsockets := fun cn socket h => by simp [State.start, EventLoop.State.start] at h
  hqueues := Dispatch.kept_start mMaxQueueSize mConsumers slots
  hbooked := fun _ => .nil
  hhanded := fun _ => rfl
  hbusy := fun _ => rfl

/-- A step of the threads, but for what it does to the list of the events handed over. -/
theorem Kept.proceed (hkept : Kept peer state) {action : Dispatch.Action}
    (hsafe : Dispatch.Safe state.queues action) (hproceed : state.proceed action = some next) :
    next.loop = state.loop ∧ next.handed = state.handed ∧ Dispatch.Kept next.queues ∧
      Booked next.queues next.offered next.lost ∧
      next.offered ++ inPush next.queues =
        state.offered ++ inPush state.queues ++ takes action ∧
      (action ≠ .leave → next.queues.listening.reading = false → state.handed = []) := by
  obtain ⟨queues, hstep, rfl⟩ := Option.map_eq_some_iff.mp hproceed
  refine ⟨rfl, rfl, hkept.hqueues.step hsafe hstep, hkept.hbooked.step hstep, ?_,
    fun hleave hended => hkept.hbusy (reading_step hleave hstep hended)⟩
  rw [List.append_assoc, inPush_step hstep, List.append_assoc]

theorem AllSound.closeAll (hsound : AllSound peer state.loop) :
    AllSound peer state.closeAll.loop := by
  intro cn socket hsocket
  obtain ⟨found, hfound, rfl⟩ := Option.map_eq_some_iff.mp hsocket
  split
  · exact (hsound cn found hfound).close
  · exact hsound cn found hfound

theorem handedBy_closeAll (state : State) (cn : ℕ) :
    handedBy state.closeAll.loop cn = handedBy state.loop cn := by
  rw [handedBy, handedBy]
  change (Option.map _ (state.loop.sockets cn)).elim _ _ = _
  cases state.loop.sockets cn with
  | none => rfl
  | some socket =>
      rw [Option.map_some, Option.elim_some, Option.elim_some]
      split <;> rfl

/-- Sockets, queues and books stay in step, whichever part moves. -/
theorem Kept.step (hkept : Kept peer state) {action : Action} (hsafe : Safe state action)
    (hnext : step peer state action = some next) : Kept peer next := by
  cases branch_of_step hnext with
  | @sockets _ moved loop internal hmoved hbrings hstep =>
      obtain ⟨hsockets, hqueues, hbooked, hhanded, hbusy⟩ := hkept
      refine ⟨hsockets.step (hbrings hsafe) hstep, hqueues, hbooked, fun cn => ?_, hbusy⟩
      rw [hhanded cn, handedBy_step hmoved hstep]
  | @recv count cn env event loop hreads hreading hstep =>
      obtain ⟨hlooping, hnone⟩ := hreads
      have hread : EventLoop.Safe state.loop (.recv count env fun _ => false) := hsafe
      refine ⟨hkept.hsockets.step (fun _ => hread) hstep, hkept.hqueues, hkept.hbooked,
        fun other => ?_, fun h => by simp [hlooping, Dispatch.Listening.reading] at h⟩
      obtain ⟨hbegins, hothers⟩ := handedBy_recv hreading hstep
      have hhanded := hkept.hhanded other
      rw [hnone, List.append_nil] at hhanded
      rw [ofConnection_append, hhanded]
      by_cases hother : other = cn
      · subst hother
        rw [ofConnection_self]
        exact List.prefix_iff_eq_append.mp hbegins
      · rw [ofConnection_of_ne hother, List.append_nil, hothers other hother]
  | @offer item items middle hhanded hproceed =>
      have hpick : Dispatch.Safe state.queues (.pick item) := trivial
      obtain ⟨hloop, _, hqueues, hbooked, htaken, hbusy⟩ := hkept.proceed hpick hproceed
      refine ⟨by rw [hloop]; exact hkept.hsockets, hqueues, hbooked, fun cn => ?_, fun hended => ?_⟩
      · have hbefore := hkept.hhanded cn
        rw [hhanded] at hbefore
        simp only [htaken, takes, hloop, ← hbefore, List.append_assoc, List.singleton_append]
      · have hempty := hbusy (by simp) hended
        rw [hhanded] at hempty
        cases hempty
  | @leave middle hhanded hproceed =>
      have hleave : Dispatch.Safe state.queues .leave := trivial
      obtain ⟨hloop, hsame, hqueues, hbooked, htaken, _⟩ := hkept.proceed hleave hproceed
      refine ⟨AllSound.closeAll (by rw [hloop]; exact hkept.hsockets), hqueues, hbooked,
        fun cn => ?_, fun _ => hsame.trans hhanded⟩
      rw [handedBy_closeAll, hloop, ← hkept.hhanded cn]
      change ofConnection cn (middle.offered ++ inPush middle.queues ++ middle.handed) = _
      rw [htaken, takes_of_ne (by simp), hsame, List.append_nil]
  | @threads moved middle hleave hpick hproceed =>
      obtain ⟨hloop, hsame, hqueues, hbooked, htaken, hbusy⟩ := hkept.proceed hsafe hproceed
      refine ⟨by rw [hloop]; exact hkept.hsockets, hqueues, hbooked, fun cn => ?_, fun hended =>
        hsame.trans (hbusy hleave hended)⟩
      rw [hloop, ← hkept.hhanded cn, htaken, takes_of_ne hpick, List.append_nil, hsame]

theorem kept_of_run {mMaxQueueSize : ℕ} {mConsumers : List ℕ} {slots : ℕ → Slots}
    (hreaches : Reaches (step peer) Safe (.start mMaxQueueSize mConsumers slots) state) :
    Kept peer state :=
  hreaches.invariant (fun hkept hsafe hnext => hkept.step hsafe hnext)
    (kept_start peer mMaxQueueSize mConsumers slots)

/-- What has left the buffers for the slot of a name and was not passed to it yet:
the item in hand, the queue, the event about to be pushed and those of the chunk. -/
def State.onWay (state : State) (i : ℕ) (name : List Byte) : List CnEvent :=
  state.queues.inHand i name ++ state.queues.mEvents name ++
    named name (inPush state.queues ++ state.handed)

theorem ofConnection_named (cn : ℕ) (name : List Byte) (items : List CnEvent) :
    ofConnection cn (named name items) =
      (ofConnection cn items).filter fun event => event.name = name := by
  rw [ofConnection, ofConnection, named, List.filter_map, List.filter_filter, List.filter_filter]
  congr 2
  funext item
  exact Bool.and_comm _ _

/-- What was read of a connection is shared out between the slot, the way to it,
and the events turned away. -/
theorem Kept.shared (hkept : Kept peer state) {i : ℕ} {name : List Byte}
    (hbinds : state.queues.Binds i name) (cn : ℕ) :
    Shared ((handedBy state.loop cn).filter fun event => event.name = name)
      (ofConnection cn (toCallback (.slot i name) state.queues.calls ++ state.onWay i name))
      (ofConnection cn (named name state.lost)) := by
  have haccepted := hkept.hqueues.htally.hexact i name hbinds
  have hshared := (hkept.hbooked name).append_kept
    (named name (inPush state.queues ++ state.handed))
  rw [← named_append, ← haccepted, ← List.append_assoc] at hshared
  have hevents := (hshared.filter fun item => item.cn = cn).map CnEvent.event
  rw [← hkept.hhanded cn, ← ofConnection_named]
  simpa only [ofConnection, State.onWay, List.append_assoc] using hevents

/-- A push and a pop find memory. -/
def Action.Allocates : Action → Prop
  | .threads (.push allocates) => allocates = true
  | .threads (.popFails _) => False
  | _ => True

def Roomy (state : State) (action : Action) : Prop :=
  Safe state action ∧ action.Allocates

/-- Nothing has a bound, and nothing was turned away or given up. -/
structure State.Unrefused (state : State) : Prop where
  hbound : state.queues.mMaxQueueSize = 0
  hlost : state.lost = []
  hmissed : ∀ name, state.queues.missed name = false

theorem State.Unrefused.proceed (hunrefused : state.Unrefused) {action : Dispatch.Action}
    (hpush : action ≠ .push false) (hpop : ∀ i, action ≠ .popFails i)
    (hproceed : state.proceed action = some next) : next.Unrefused := by
  obtain ⟨queues, hstep, rfl⟩ := Option.map_eq_some_iff.mp hproceed
  obtain ⟨hbound, hlost, hmissed⟩ := hunrefused
  refine ⟨(mMaxQueueSize_step hstep).trans hbound, ?_, fun name =>
    missed_step hpop hstep (hmissed name)⟩
  rw [refused_of_unbounded hbound hpush, hlost, List.append_nil]

theorem State.Unrefused.step (hunrefused : state.Unrefused) {action : Action}
    (hroomy : Roomy state action) (hnext : step peer state action = some next) :
    next.Unrefused := by
  cases branch_of_step hnext with
  | sockets hmoved hbrings hstep =>
      exact ⟨hunrefused.hbound, hunrefused.hlost, hunrefused.hmissed⟩
  | recv hreads hreading hstep =>
      exact ⟨hunrefused.hbound, hunrefused.hlost, hunrefused.hmissed⟩
  | @offer item items middle hhanded hproceed =>
      have hmiddle := hunrefused.proceed (by simp) (by simp) hproceed
      exact ⟨hmiddle.hbound, hmiddle.hlost, hmiddle.hmissed⟩
  | @leave middle hhanded hproceed =>
      have hmiddle := hunrefused.proceed (by simp) (by simp) hproceed
      exact ⟨hmiddle.hbound, hmiddle.hlost, hmiddle.hmissed⟩
  | @threads moved middle hleave hpick hproceed =>
      refine hunrefused.proceed ?_ ?_ hproceed
      · rintro rfl
        exact Bool.false_ne_true hroomy.2
      · rintro i rfl
        exact hroomy.2

end Runs

/-! ## Values -/

/-- What a peer sends with the writers: a name and the values of its packet, which
fit in the buffer of a connection. -/
structure Message where
  name : List Byte
  values : List Value
  hname : 0 ∉ name
  hwritable : AllWritable values
  hfits : name.length + (encodeAll values).length + 3 ≤ connectionBufferSize - 1

namespace Message

/-- `Event(name, packet)`, `packet` being empty before the values are written. -/
def toEvent (host : Host) (message : Message) : Event :=
  ⟨message.name, (writeToPacket host [] message.values).2⟩

end Message

section Values

variable {peer : Host} {state : State} {mMaxQueueSize : ℕ} {mConsumers : List ℕ}
variable {slots : ℕ → Slots}

end Values

/-! ## A message -/

def seven : Message where
  name := [112]
  values := [.scalar .uint16 7]
  hname := by decide
  hwritable := by simp [AllWritable, Writable]
  hfits := by decide

/-- It is read, queued and passed on, and the consumer is joined. -/
def passed : List Action :=
  [.offer, .threads (.push true), .threads .notify, .recvAgain] ++
    List.replicate 5 (.threads (.consumer 0 none .returns)) ++
    [.threads .joinListener, .threads .leave, .threads .joinNext] ++
    List.replicate 5 (.threads (.consumer 0 none .returns)) ++
    [.threads .nextJoined, .threads .joinNext]

def State.Passed (state : State) : Prop :=
  state.queues.calls = [(.slot 0 [112], ⟨5, seven.toEvent .little⟩)] ∧
    (state.loop.sockets 5).map (fun socket => (socket.sent, socket.taken, socket.closed)) =
      some ([seven.toEvent .little], 7, false) ∧
    0 ∈ state.queues.mConsumers ∧
    ([112], true) ∈ (state.queues.consumers 0).slots.mSlots.slots ∧ state.queues.met 0 = true

instance (state : State) : Decidable state.Passed :=
  inferInstanceAs (Decidable (_ ∧ _ ∧ _ ∧ _ ∧ _))

end Sednl.Delivery
