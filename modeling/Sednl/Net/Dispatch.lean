import Sednl.Library.Transition
import Sednl.Ring.RingBuf

/-!
# Dispatch

The queues between a listener and its consumers: `run_init` links each event
name to the consumer that binds it, `read_connection` pushes and notifies, each
consumer sweeps its own queues and, with `on_event`, those that are linked to
nobody.  Each access to a queue holds its mutex, so an action is one push, one
pop or one call of a slot.  When the listener stops it joins the consumers and
clears its links.
-/

namespace Sednl.Dispatch

open Sednl.Tag
open Sednl.Ring
open Sednl.Transition

/-- `CnEvent`, with a number for the connection. -/
structure CnEvent where
  cn : ℕ
  event : Event
  deriving DecidableEq, Repr

/-- The queues of a listener: one for each name, and two for disconnects. -/
inductive Queue where
  | event (name : List Byte)
  | serverDisconnected
  | disconnected
  deriving DecidableEq, Repr

inductive Entry where
  | event (item : CnEvent)
  | server (server : ℕ)
  | connection (cn : ℕ)
  deriving DecidableEq, Repr

def Entry.queue : Entry → Queue
  | .event item => .event item.event.name
  | .server _ => .serverDisconnected
  | .connection _ => .disconnected

/-- `is_full`, which asks for more than the bound. -/
def isFull {ε : Type} (queue : List ε) (mMaxQueueSize : ℕ) : Bool :=
  0 < mMaxQueueSize && mMaxQueueSize < queue.length

/-! ## Links -/

/-- A `SlotMap`: its names in the order of iteration, `true` where the slot
holds a callback. -/
structure SlotMap where
  slots : List (List Byte × Bool)
  hnodup : (slots.map Prod.fst).Nodup

structure Slots where
  onDisconnect : Bool
  onServerDisconnect : Bool
  onEvent : Bool
  mSlots : SlotMap

/-- `EventConsumer::clean_slots`. -/
def Slots.clean (slots : Slots) : Slots :=
  { slots with
    mSlots :=
      { slots := slots.mSlots.slots.filter Prod.snd
        hnodup := slots.mSlots.hnodup.sublist (List.filter_sublist.map Prod.fst) } }

/-- The consumers to wake, `none` for a null pointer; `mLinks` is `none` at the
names that are not in the map. -/
structure Links where
  onDisconnect : Option ℕ
  onServerDisconnect : Option ℕ
  onEvent : Option ℕ
  mLinks : List Byte → Option (Option ℕ)

/-- `EventListener::clear_consumer_links`. -/
def Links.clear : Links :=
  ⟨none, none, none, fun _ => none⟩

/-- `m_links[name] = link`. -/
def Links.set (links : Links) (name : List Byte) (link : Option ℕ) : Links :=
  { links with mLinks := Function.update links.mLinks name (some link) }

/-- Whom `read_connection` notifies of an event. -/
def Links.notified (links : Links) (name : List Byte) : Option ℕ :=
  match links.mLinks name with
  | some (some i) => some i
  | _ => links.onEvent

@[simp]
theorem Links.set_self (links : Links) (name : List Byte) (link : Option ℕ) :
    (links.set name link).mLinks name = some link :=
  Function.update_self _ _ _

theorem Links.set_of_ne {name other : List Byte} (hne : other ≠ name) (links : Links)
    (link : Option ℕ) : (links.set name link).mLinks other = links.mLinks other :=
  Function.update_of_ne hne _ _

/-- `EventListener::link_consumer`; `none` is the exception `EventCollision`. -/
def linkConsumer (consumer : ℕ) (slot : Bool) (link : Option ℕ) : Option (Option ℕ) :=
  if slot then
    if link.isSome then none else some (some consumer)
  else some link

/-- The loop over the slots of a consumer in `run_init`.  It enters each name
into the map, also with an empty slot. -/
def linkSlots (consumer : ℕ) : List (List Byte × Bool) → Links → Option Links
  | [], links => some links
  | (name, slot) :: slots, links =>
      match linkConsumer consumer slot (links.mLinks name).join with
      | none => none
      | some link => linkSlots consumer slots (links.set name link)

/-- The loop over the consumers in `run_init`. -/
def linkConsumers (slots : ℕ → Slots) : List ℕ → Links → Option Links
  | [], links => some links
  | consumer :: consumers, links =>
      match linkConsumer consumer (slots consumer).onDisconnect links.onDisconnect,
        linkConsumer consumer (slots consumer).onServerDisconnect links.onServerDisconnect,
        linkConsumer consumer (slots consumer).onEvent links.onEvent with
      | some onDisconnect, some onServerDisconnect, some onEvent =>
          match linkSlots consumer (slots consumer).mSlots.slots
              ⟨onDisconnect, onServerDisconnect, onEvent, links.mLinks⟩ with
          | none => none
          | some links => linkConsumers slots consumers links
      | _, _, _ => none

/-! ## Threads -/

/-- Where `consume_events` stands: in the loop over `m_slots` with the slots
still to process, in a call of the first of them, in the loop over `m_events`,
in `process` for one of its queues, or in a call of `m_on_event_slot`.  The
disconnect queues come last and are left out. -/
inductive Place where
  | slots (todo : List (List Byte × Bool))
  | call (name : List Byte) (item : CnEvent) (todo : List (List Byte × Bool))
  | rest
  | process (name : List Byte)
  | restCall (name : List Byte) (item : CnEvent)
  deriving DecidableEq, Repr

/-- Where the thread of a consumer stands: no thread, or one that `run` is
about to create, at the test of `m_running`, in `wait_for`, in `consume_events`
inside the loop or after it (`last`), or past its end and not joined. -/
inductive Stage where
  | idle
  | starting
  | checking
  | waiting
  | consuming (last : Bool) (place : Place)
  | ended
  deriving DecidableEq, Repr

/-- `m_thread.joinable()`. -/
def Stage.joinable : Stage → Bool
  | .idle | .starting => false
  | _ => true

/-- There is a thread, or `run` is about to create one. -/
def Stage.alive : Stage → Bool
  | .idle | .ended => false
  | _ => true

/-- An `EventConsumer`; `joined` says that a `join` by another thread than the
one of the listener waits for its thread. -/
structure Consumer where
  slots : Slots
  mRunning : Bool
  wakeUp : Bool
  stage : Stage
  joined : Bool

/-- Where the thread of the listener stands: no thread, in the event loop, in
`read_connection` before a push and before a notification, and at the end of
`run_imp` with the consumers still to join or waiting for one of them. -/
inductive Listening where
  | idle
  | looping
  | pushing (item : CnEvent)
  | notifying (name : List Byte)
  | joining (todo : List ℕ)
  | waiting (consumer : ℕ) (todo : List ℕ)
  deriving DecidableEq, Repr

/-- A callback: the slot of a consumer for a name, or its `on_event` slot. -/
inductive Callback where
  | slot (consumer : ℕ) (name : List Byte)
  | onEvent (consumer : ℕ)
  deriving DecidableEq, Repr

/-- A listener with its consumers.  The last four fields are a record: what
was accepted into each queue, the calls of the callbacks, the consumers that the
listener has found running when it came to join them, and the queues of which a
`pop` has failed in a last sweep. -/
structure State where
  mMaxQueueSize : ℕ
  mConsumers : List ℕ
  mEvents : List Byte → List CnEvent
  links : Links
  mRunning : Bool
  listening : Listening
  consumers : ℕ → Consumer
  accepted : List Byte → List CnEvent
  calls : List (Callback × CnEvent)
  met : ℕ → Bool
  missed : List Byte → Bool

/-- What a callback does, as far as `slot_call` can tell. -/
inductive Outcome where
  | returns
  | throwsException
  | throwsOther
  deriving DecidableEq, Repr

namespace State

def set (state : State) (i : ℕ) (consumer : Consumer) : State :=
  { state with consumers := Function.update state.consumers i consumer }

def move (state : State) (i : ℕ) (stage : Stage) : State :=
  state.set i { state.consumers i with stage := stage }

def popped (state : State) (name : List Byte) (items : List CnEvent) : State :=
  { state with mEvents := Function.update state.mEvents name items }

/-- A `push` onto the queue of an event. -/
def pushed (state : State) (item : CnEvent) : State :=
  { state with
    mEvents := Function.update state.mEvents item.event.name
      (state.mEvents item.event.name ++ [item])
    accepted := Function.update state.accepted item.event.name
      (state.accepted item.event.name ++ [item]) }

/-- `slot_call`: whatever the callback throws is caught. -/
def slotCall (state : State) (callback : Callback) (item : CnEvent) : Outcome → State
  | .returns => { state with calls := state.calls ++ [(callback, item)] }
  | .throwsException => { state with calls := state.calls ++ [(callback, item)] }
  | .throwsOther => { state with calls := state.calls ++ [(callback, item)] }

/-- The end of `consume_events`. -/
def finish (last : Bool) : Stage :=
  if last then .ended else .checking

/-- The next step of `consume_events`.  The loop over `m_events` goes on with
the queue `visit`; which queues it sees while others are added is left open. -/
def consume (state : State) (i : ℕ) (last : Bool) (visit : Option (List Byte))
    (outcome : Outcome) : Place → State
  | .slots [] =>
      if (state.consumers i).slots.onEvent then state.move i (.consuming last .rest)
      else state.move i (finish last)
  | .slots ((_, false) :: todo) => state.move i (.consuming last (.slots todo))
  | .slots ((name, true) :: todo) =>
      match state.mEvents name with
      | [] => state.move i (.consuming last (.slots todo))
      | item :: items =>
          (state.popped name items).move i (.consuming last (.call name item todo))
  | .call name item todo =>
      (state.slotCall (.slot i name) item outcome).move i
        (.consuming last (.slots ((name, true) :: todo)))
  | .rest =>
      match visit with
      | none => state.move i (finish last)
      | some name =>
          match state.links.mLinks name with
          | none => state.move i (.consuming last (.process name))
          | some _ => state
  | .process name =>
      match state.mEvents name with
      | [] => state.move i (.consuming last .rest)
      | item :: items =>
          (state.popped name items).move i (.consuming last (.restCall name item))
  | .restCall name item =>
      (state.slotCall (.onEvent i) item outcome).move i (.consuming last (.process name))

/-- A sweep gives up a queue: `pop` returns false because the copy of the front
throws, and the items stay where they are. -/
def miss (state : State) (last : Bool) (name : List Byte) : State :=
  { state with missed := Function.update state.missed name (last || state.missed name) }

/-- A `pop` of the thread of a consumer fails, and `process` ends. -/
def popFails (state : State) (i : ℕ) : Option State :=
  match (state.consumers i).stage with
  | .consuming last (.slots ((name, true) :: todo)) =>
      some ((state.miss last name).move i (.consuming last (.slots todo)))
  | .consuming last (.process name) =>
      some ((state.miss last name).move i (.consuming last .rest))
  | _ => none

/-- The next step of `EventConsumer::run_imp`. -/
def runImp (state : State) (i : ℕ) (visit : Option (List Byte)) (outcome : Outcome) :
    Option State :=
  match (state.consumers i).stage with
  | .idle => none
  | .ended => none
  | .starting => some (state.move i .checking)
  | .checking =>
      if (state.consumers i).mRunning then some (state.move i .waiting)
      else some (state.move i
        (.consuming true (.slots (state.consumers i).slots.mSlots.slots)))
  | .waiting =>
      if (state.consumers i).wakeUp then
        some (state.set i { state.consumers i with
          wakeUp := false
          stage := .consuming false (.slots (state.consumers i).slots.mSlots.slots) })
      else some (state.move i .checking)
  | .consuming last place => some (state.consume i last visit outcome place)

def isFull (state : State) (name : List Byte) : Bool :=
  Dispatch.isFull (state.mEvents name) state.mMaxQueueSize

def notify (state : State) : Option ℕ → State
  | none => state
  | some i => state.set i { state.consumers i with wakeUp := true }

def notified (state : State) (name : List Byte) : Option ℕ :=
  state.links.notified name

end State

inductive Action where
  /-- `EventListener::run`. -/
  | runListener
  /-- `EventListener::join`, up to the join of its thread. -/
  | joinListener
  /-- `EventConsumer::run`, up to the creation of its thread. -/
  | runConsumer (i : ℕ)
  /-- `EventConsumer::join`, up to the join of its thread. -/
  | joinConsumer (i : ℕ)
  /-- The `join` of a consumer returns. -/
  | consumerJoined (i : ℕ)
  /-- `pick_event` has found an event for the connection. -/
  | pick (item : CnEvent)
  | push (allocates : Bool)
  | notify
  /-- The event loop sees that `m_running` is false. -/
  | leave
  /-- The listener calls `join` of the next consumer. -/
  | joinNext
  /-- That `join` returns. -/
  | nextJoined
  /-- The links are cleared, and the thread ends. -/
  | release
  /-- The thread of a consumer takes a step. -/
  | consumer (i : ℕ) (visit : Option (List Byte)) (outcome : Outcome)
  /-- The thread of a consumer is at a `pop`, and the copy throws. -/
  | popFails (i : ℕ)

/-- The steps of the listener, of the consumers and of the threads that start
and join them. -/
def step (state : State) : Action → Option State
  | .runListener =>
      if state.listening = .idle ∧ !state.mRunning then
        match linkConsumers (fun i => (state.consumers i).slots) state.mConsumers
            state.links with
        | none => some { state with links := .clear }
        | some links =>
            some { state with
              links := links
              mRunning := true
              listening := .looping
              met := fun _ => false
              missed := fun _ => false }
      else none
  | .joinListener =>
      if state.mRunning then some { state with mRunning := false } else none
  | .runConsumer i =>
      if i ∈ state.mConsumers ∧ !(state.consumers i).mRunning ∧
          (state.consumers i).stage = .idle then
        some (state.set i { state.consumers i with
          slots := (state.consumers i).slots.clean
          mRunning := true
          stage := .starting })
      else none
  | .joinConsumer i =>
      if i ∈ state.mConsumers ∧ (state.consumers i).mRunning then
        some (state.set i { state.consumers i with
          mRunning := false
          joined := (state.consumers i).stage.joinable })
      else none
  | .consumerJoined i =>
      if i ∈ state.mConsumers ∧ (state.consumers i).joined ∧
          (state.consumers i).stage = .ended then
        some (state.set i { state.consumers i with joined := false, stage := .idle })
      else none
  | .pick item =>
      match state.listening with
      | .looping =>
          if state.isFull item.event.name then some state
          else some { state with listening := .pushing item }
      | _ => none
  | .push allocates =>
      match state.listening with
      | .pushing item =>
          if allocates then
            some { state.pushed item with listening := .notifying item.event.name }
          else some { state with listening := .looping }
      | _ => none
  | .notify =>
      match state.listening with
      | .notifying name =>
          some { state.notify (state.notified name) with listening := .looping }
      | _ => none
  | .leave =>
      if state.listening = .looping ∧ !state.mRunning then
        some { state with listening := .joining state.mConsumers }
      else none
  | .joinNext =>
      match state.listening with
      | .joining (i :: todo) =>
          if (state.consumers i).mRunning then
            if (state.consumers i).stage.joinable then
              some { state.set i { state.consumers i with mRunning := false } with
                listening := .waiting i todo
                met := Function.update state.met i true }
            else
              some { state.set i { state.consumers i with mRunning := false } with
                listening := .joining todo }
          else some { state with listening := .joining todo }
      | _ => none
  | .nextJoined =>
      match state.listening with
      | .waiting i todo =>
          if (state.consumers i).stage = .ended then
            some { state.move i .idle with listening := .joining todo }
          else none
      | _ => none
  | .release =>
      match state.listening with
      | .joining [] => some { state with links := .clear, listening := .idle }
      | _ => none
  | .consumer i visit outcome =>
      if i ∈ state.mConsumers then state.runImp i visit outcome else none
  | .popFails i =>
      if i ∈ state.mConsumers then state.popFails i else none

/-- A listener and its consumers before any thread is started. -/
def State.start (mMaxQueueSize : ℕ) (mConsumers : List ℕ) (slots : ℕ → Slots) : State where
  mMaxQueueSize := mMaxQueueSize
  mConsumers := mConsumers
  mEvents := fun _ => []
  links := .clear
  mRunning := false
  listening := .idle
  consumers := fun i => ⟨slots i, false, false, .idle, false⟩
  accepted := fun _ => []
  calls := []
  met := fun _ => false
  missed := fun _ => false

/-- When a step is safe: a consumer is started while the listener runs, and no
thread of a consumer is left when the listener clears its links. -/
def Safe (state : State) : Action → Prop
  | .runConsumer _ => state.listening ≠ .idle
  | .release => ∀ i ∈ state.mConsumers, (state.consumers i).stage.alive = false
  | _ => True

instance (state : State) : (action : Action) → Decidable (Safe state action)
  | .runConsumer _ => inferInstanceAs (Decidable (state.listening ≠ .idle))
  | .release => inferInstanceAs (Decidable (∀ i ∈ state.mConsumers, _ = false))
  | .runListener => .isTrue trivial
  | .joinListener => .isTrue trivial
  | .joinConsumer _ => .isTrue trivial
  | .consumerJoined _ => .isTrue trivial
  | .pick _ => .isTrue trivial
  | .push _ => .isTrue trivial
  | .notify => .isTrue trivial
  | .leave => .isTrue trivial
  | .joinNext => .isTrue trivial
  | .nextJoined => .isTrue trivial
  | .consumer _ _ _ => .isTrue trivial
  | .popFails _ => .isTrue trivial

/-- A slot with a callback in a consumer of the listener. -/
def State.Binds (state : State) (i : ℕ) (name : List Byte) : Prop :=
  i ∈ state.mConsumers ∧ (name, true) ∈ (state.consumers i).slots.mSlots.slots

def toCallback (callback : Callback) (calls : List (Callback × CnEvent)) : List CnEvent :=
  (calls.filter fun call => call.1 = callback).map Prod.snd

/-- The call that the thread of consumer `i` is about to make: its item has
been popped and not yet passed. -/
def Stage.inCall (i : ℕ) : Stage → Option (Callback × CnEvent)
  | .consuming _ (.call name item _) => some (.slot i name, item)
  | .consuming _ (.restCall _ item) => some (.onEvent i, item)
  | _ => none

/-- The one item that may be between the queue `name` and its slot. -/
def State.inHand (state : State) (i : ℕ) (name : List Byte) : List CnEvent :=
  toCallback (.slot i name) ((state.consumers i).stage.inCall i).toList

/-! ## The links -/

theorem linkConsumer_of_some {consumer i : ℕ} {slot : Bool} {link : Option ℕ}
    (hlink : linkConsumer consumer slot (some i) = some link) : link = some i := by
  cases slot with
  | false => exact (Option.some.inj hlink).symm
  | true => simp [linkConsumer] at hlink

theorem linkConsumer_true {consumer : ℕ} {found link : Option ℕ}
    (hlink : linkConsumer consumer true found = some link) : link = some consumer := by
  cases found with
  | none => exact (Option.some.inj hlink).symm
  | some i => simp [linkConsumer] at hlink

theorem linkConsumer_origin {consumer i : ℕ} {slot : Bool} {link : Option ℕ}
    (hlink : linkConsumer consumer slot link = some (some i)) :
    link = some i ∨ slot = true ∧ i = consumer := by
  cases slot with
  | false => exact .inl (Option.some.inj hlink)
  | true =>
      have hset := linkConsumer_true hlink
      exact .inr ⟨rfl, Option.some.inj hset⟩

section Links

variable {name : List Byte} {links next : Links}

/-- A link that is set stays: to set it again is a collision. -/
theorem linkSlots_keeps {consumer i : ℕ} {slots : List (List Byte × Bool)}
    (hlinks : linkSlots consumer slots links = some next)
    (hset : links.mLinks name = some (some i)) : next.mLinks name = some (some i) := by
  induction slots generalizing links with
  | nil =>
      obtain rfl := Option.some.inj hlinks
      exact hset
  | cons slot slots ih =>
      obtain ⟨other, slot⟩ := slot
      rw [linkSlots] at hlinks
      split at hlinks
      · simp at hlinks
      · rename_i link hlink
        refine ih hlinks ?_
        by_cases hsame : name = other
        · subst hsame
          rw [hset, Option.join_some] at hlink
          rw [Links.set_self, linkConsumer_of_some hlink]
        · rw [Links.set_of_ne hsame, hset]

theorem linkSlots_sets {consumer : ℕ} {slots : List (List Byte × Bool)}
    (hlinks : linkSlots consumer slots links = some next) (hslot : (name, true) ∈ slots) :
    next.mLinks name = some (some consumer) := by
  induction slots generalizing links with
  | nil => simp at hslot
  | cons slot slots ih =>
      obtain ⟨other, slot⟩ := slot
      rw [linkSlots] at hlinks
      split at hlinks
      · simp at hlinks
      · rename_i link hlink
        rcases List.mem_cons.mp hslot with hhead | htail
        · obtain ⟨rfl, rfl⟩ := Prod.mk.inj hhead
          refine linkSlots_keeps hlinks ?_
          rw [Links.set_self, linkConsumer_true hlink]
        · exact ih hlinks htail

theorem linkSlots_others {consumer : ℕ} {slots : List (List Byte × Bool)}
    (hlinks : linkSlots consumer slots links = some next) :
    next.onDisconnect = links.onDisconnect ∧
      next.onServerDisconnect = links.onServerDisconnect ∧ next.onEvent = links.onEvent := by
  induction slots generalizing links with
  | nil =>
      obtain rfl := Option.some.inj hlinks
      exact ⟨rfl, rfl, rfl⟩
  | cons slot slots ih =>
      obtain ⟨other, slot⟩ := slot
      rw [linkSlots] at hlinks
      split at hlinks
      · simp at hlinks
      · have hbefore := ih hlinks
        exact hbefore

/-- What the loop over the consumers does with the first of them. -/
theorem linkConsumers_cons {slots : ℕ → Slots} {consumer : ℕ} {consumers : List ℕ}
    (hlinks : linkConsumers slots (consumer :: consumers) links = some next) :
    ∃ before middle, before.mLinks = links.mLinks ∧
      linkSlots consumer (slots consumer).mSlots.slots before = some middle ∧
      linkConsumer consumer (slots consumer).onDisconnect links.onDisconnect =
        some middle.onDisconnect ∧
      linkConsumer consumer (slots consumer).onServerDisconnect links.onServerDisconnect =
        some middle.onServerDisconnect ∧
      linkConsumer consumer (slots consumer).onEvent links.onEvent = some middle.onEvent ∧
      linkConsumers slots consumers middle = some next := by
  rw [linkConsumers] at hlinks
  split at hlinks
  · rename_i onDisconnect onServerDisconnect onEvent hdisconnect hserver hevent
    split at hlinks
    · simp at hlinks
    · rename_i middle hslots
      obtain ⟨hsameDisconnect, hsameServer, hsameEvent⟩ := linkSlots_others hslots
      refine ⟨⟨onDisconnect, onServerDisconnect, onEvent, links.mLinks⟩, middle, rfl, hslots, ?_,
        ?_, ?_, hlinks⟩
      · rw [hsameDisconnect, hdisconnect]
      · rw [hsameServer, hserver]
      · rw [hsameEvent, hevent]
  · simp at hlinks

theorem linkConsumers_keeps {slots : ℕ → Slots} {consumers : List ℕ} {i : ℕ}
    (hlinks : linkConsumers slots consumers links = some next)
    (hset : links.mLinks name = some (some i)) : next.mLinks name = some (some i) := by
  induction consumers generalizing links with
  | nil =>
      obtain rfl := Option.some.inj hlinks
      exact hset
  | cons consumer consumers ih =>
      obtain ⟨before, middle, hsame, hslots, _, _, _, hrest⟩ := linkConsumers_cons hlinks
      exact ih hrest (linkSlots_keeps hslots (hsame ▸ hset))

/-- Without a collision, each name is linked to the consumer that binds it. -/
theorem linkConsumers_sets {slots : ℕ → Slots} {consumers : List ℕ} {i : ℕ}
    (hlinks : linkConsumers slots consumers links = some next) (hi : i ∈ consumers)
    (hslot : (name, true) ∈ (slots i).mSlots.slots) : next.mLinks name = some (some i) := by
  induction consumers generalizing links with
  | nil => simp at hi
  | cons consumer consumers ih =>
      obtain ⟨before, middle, _, hslots, _, _, _, hrest⟩ := linkConsumers_cons hlinks
      rcases List.mem_cons.mp hi with rfl | hi
      · exact linkConsumers_keeps hrest (linkSlots_sets hslots hslot)
      · exact ih hrest hi

/-- A name is linked to a consumer by a slot of it. -/
theorem linkSlots_origin {consumer i : ℕ} {slots : List (List Byte × Bool)}
    (hlinks : linkSlots consumer slots links = some next)
    (hset : next.mLinks name = some (some i)) :
    links.mLinks name = some (some i) ∨ i = consumer ∧ (name, true) ∈ slots := by
  induction slots generalizing links with
  | nil =>
      obtain rfl := Option.some.inj hlinks
      exact .inl hset
  | cons slot slots ih =>
      obtain ⟨other, slot⟩ := slot
      rw [linkSlots] at hlinks
      split at hlinks
      · cases hlinks
      · rename_i link hlink
        rcases ih hlinks with hbefore | ⟨hi, hmem⟩
        · by_cases hsame : name = other
          · subst hsame
            rw [Links.set_self, Option.some.injEq] at hbefore
            subst hbefore
            rcases linkConsumer_origin hlink with hjoin | ⟨rfl, rfl⟩
            · exact .inl (Option.join_eq_some_iff.mp hjoin)
            · exact .inr ⟨rfl, List.mem_cons_self⟩
          · rw [Links.set_of_ne hsame] at hbefore
            exact .inl hbefore
        · exact .inr ⟨hi, List.mem_cons_of_mem _ hmem⟩

theorem linkConsumers_origin {slots : ℕ → Slots} {consumers : List ℕ} {i : ℕ}
    (hlinks : linkConsumers slots consumers links = some next)
    (hset : next.mLinks name = some (some i)) :
    links.mLinks name = some (some i) ∨
      i ∈ consumers ∧ (name, true) ∈ (slots i).mSlots.slots := by
  induction consumers generalizing links with
  | nil =>
      obtain rfl := Option.some.inj hlinks
      exact .inl hset
  | cons consumer consumers ih =>
      obtain ⟨before, middle, hsame, hslots, _, _, _, hrest⟩ := linkConsumers_cons hlinks
      rcases ih hrest with hmiddle | ⟨hi, hmem⟩
      · rcases linkSlots_origin hslots hmiddle with hbefore | ⟨rfl, hmem⟩
        · exact .inl (hsame ▸ hbefore)
        · exact .inr ⟨List.mem_cons_self, hmem⟩
      · exact .inr ⟨List.mem_cons_of_mem _ hi, hmem⟩

/-- A link that is set by one slot of each consumer. -/
def LinkedBy (slots : ℕ → Slots) (slot : Slots → Bool) (link : Links → Option ℕ) : Prop :=
  ∀ consumer consumers links next,
    linkConsumers slots (consumer :: consumers) links = some next →
    ∃ middle, linkConsumer consumer (slot (slots consumer)) (link links) = some (link middle) ∧
      linkConsumers slots consumers middle = some next

theorem linkedBy_onDisconnect (slots : ℕ → Slots) :
    LinkedBy slots Slots.onDisconnect Links.onDisconnect := by
  intro consumer consumers links next hlinks
  obtain ⟨_, middle, _, _, hlink, _, _, hlinks⟩ := linkConsumers_cons hlinks
  exact ⟨middle, hlink, hlinks⟩

theorem linkedBy_onServerDisconnect (slots : ℕ → Slots) :
    LinkedBy slots Slots.onServerDisconnect Links.onServerDisconnect := by
  intro consumer consumers links next hlinks
  obtain ⟨_, middle, _, _, _, hlink, _, hlinks⟩ := linkConsumers_cons hlinks
  exact ⟨middle, hlink, hlinks⟩

theorem linkedBy_onEvent (slots : ℕ → Slots) :
    LinkedBy slots Slots.onEvent Links.onEvent := by
  intro consumer consumers links next hlinks
  obtain ⟨_, middle, _, _, _, _, hlink, hlinks⟩ := linkConsumers_cons hlinks
  exact ⟨middle, hlink, hlinks⟩

section LinkedBy

variable {slots : ℕ → Slots} {slot : Slots → Bool} {link : Links → Option ℕ} {consumers : List ℕ}
variable {i : ℕ}

theorem LinkedBy.keeps (hby : LinkedBy slots slot link)
    (hlinks : linkConsumers slots consumers links = some next)
    (hset : link links = some i) : link next = some i := by
  induction consumers generalizing links with
  | nil =>
      obtain rfl := Option.some.inj hlinks
      exact hset
  | cons consumer consumers ih =>
      obtain ⟨middle, hlink, hrest⟩ := hby _ _ _ _ hlinks
      rw [hset] at hlink
      exact ih hrest (linkConsumer_of_some hlink)

theorem LinkedBy.sets (hby : LinkedBy slots slot link)
    (hlinks : linkConsumers slots consumers links = some next) (hi : i ∈ consumers)
    (hslot : slot (slots i) = true) : link next = some i := by
  induction consumers generalizing links with
  | nil => cases hi
  | cons consumer consumers ih =>
      obtain ⟨middle, hlink, hrest⟩ := hby _ _ _ _ hlinks
      rcases List.mem_cons.mp hi with rfl | hi
      · rw [hslot] at hlink
        exact hby.keeps hrest (linkConsumer_true hlink)
      · exact ih hrest hi

/-- A link is set to a consumer that has the slot. -/
theorem LinkedBy.origin (hby : LinkedBy slots slot link)
    (hlinks : linkConsumers slots consumers links = some next) (hset : link next = some i) :
    link links = some i ∨ i ∈ consumers ∧ slot (slots i) = true := by
  induction consumers generalizing links with
  | nil =>
      obtain rfl := Option.some.inj hlinks
      exact .inl hset
  | cons consumer consumers ih =>
      obtain ⟨middle, hlink, hrest⟩ := hby _ _ _ _ hlinks
      rcases ih hrest with hbefore | ⟨hi, hslot⟩
      · rw [hbefore] at hlink
        rcases linkConsumer_origin hlink with hbefore | ⟨hslot, rfl⟩
        · exact .inl hbefore
        · exact .inr ⟨List.mem_cons_self, hslot⟩
      · exact .inr ⟨List.mem_cons_of_mem _ hi, hslot⟩

end LinkedBy

end Links

/-! ## What a step can do -/

/-- The branches of `step` that lead to a state: what each asks for, and where
it leads. -/
inductive Branch (state : State) : Action → State → Prop where
  | collides (hready : state.listening = .idle ∧ !state.mRunning)
      (hlinks : linkConsumers (fun i => (state.consumers i).slots) state.mConsumers state.links =
        none) :
      Branch state .runListener { state with links := .clear }
  | runListener {links : Links} (hready : state.listening = .idle ∧ !state.mRunning)
      (hlinks : linkConsumers (fun i => (state.consumers i).slots) state.mConsumers state.links =
        some links) :
      Branch state .runListener { state with
        links := links
        mRunning := true
        listening := .looping
        met := fun _ => false
        missed := fun _ => false }
  | joinListener (hruns : state.mRunning = true) :
      Branch state .joinListener { state with mRunning := false }
  | runConsumer {i : ℕ} (hready : i ∈ state.mConsumers ∧ !(state.consumers i).mRunning ∧
        (state.consumers i).stage = .idle) :
      Branch state (.runConsumer i) (state.set i { state.consumers i with
        slots := (state.consumers i).slots.clean
        mRunning := true
        stage := .starting })
  | joinConsumer {i : ℕ} (hready : i ∈ state.mConsumers ∧ (state.consumers i).mRunning) :
      Branch state (.joinConsumer i) (state.set i { state.consumers i with
        mRunning := false
        joined := (state.consumers i).stage.joinable })
  | consumerJoined {i : ℕ} (hready : i ∈ state.mConsumers ∧ (state.consumers i).joined ∧
        (state.consumers i).stage = .ended) :
      Branch state (.consumerJoined i)
        (state.set i { state.consumers i with joined := false, stage := .idle })
  | full {item : CnEvent} (hlooping : state.listening = .looping)
      (hfull : state.isFull item.event.name = true) : Branch state (.pick item) state
  | pick {item : CnEvent} (hlooping : state.listening = .looping)
      (hroom : state.isFull item.event.name = false) :
      Branch state (.pick item) { state with listening := .pushing item }
  | push {item : CnEvent} (hpushing : state.listening = .pushing item) :
      Branch state (.push true)
        { state.pushed item with listening := .notifying item.event.name }
  | pushFails {item : CnEvent} (hpushing : state.listening = .pushing item) :
      Branch state (.push false) { state with listening := .looping }
  | notify {name : List Byte} (hnotifying : state.listening = .notifying name) :
      Branch state .notify
        { state.notify (state.notified name) with listening := .looping }
  | leave (hready : state.listening = .looping ∧ !state.mRunning) :
      Branch state .leave { state with listening := .joining state.mConsumers }
  | await {i : ℕ} {todo : List ℕ} (hjoining : state.listening = .joining (i :: todo))
      (hruns : (state.consumers i).mRunning = true)
      (hjoinable : (state.consumers i).stage.joinable = true) :
      Branch state .joinNext { state.set i { state.consumers i with mRunning := false } with
        listening := .waiting i todo
        met := Function.update state.met i true }
  | tell {i : ℕ} {todo : List ℕ} (hjoining : state.listening = .joining (i :: todo))
      (hruns : (state.consumers i).mRunning = true)
      (hnothing : (state.consumers i).stage.joinable = false) :
      Branch state .joinNext { state.set i { state.consumers i with mRunning := false } with
        listening := .joining todo }
  | skip {i : ℕ} {todo : List ℕ} (hjoining : state.listening = .joining (i :: todo))
      (hstopped : (state.consumers i).mRunning = false) :
      Branch state .joinNext { state with listening := .joining todo }
  | nextJoined {i : ℕ} {todo : List ℕ} (hwaiting : state.listening = .waiting i todo)
      (hended : (state.consumers i).stage = .ended) :
      Branch state .nextJoined { state.move i .idle with listening := .joining todo }
  | release (hjoining : state.listening = .joining []) :
      Branch state .release { state with links := .clear, listening := .idle }
  | starts {i : ℕ} {visit : Option (List Byte)} {outcome : Outcome} (hi : i ∈ state.mConsumers)
      (hstarting : (state.consumers i).stage = .starting) :
      Branch state (.consumer i visit outcome) (state.move i .checking)
  | waits {i : ℕ} {visit : Option (List Byte)} {outcome : Outcome} (hi : i ∈ state.mConsumers)
      (hchecking : (state.consumers i).stage = .checking)
      (hruns : (state.consumers i).mRunning = true) :
      Branch state (.consumer i visit outcome) (state.move i .waiting)
  | stops {i : ℕ} {visit : Option (List Byte)} {outcome : Outcome} (hi : i ∈ state.mConsumers)
      (hchecking : (state.consumers i).stage = .checking)
      (hstopped : (state.consumers i).mRunning = false) :
      Branch state (.consumer i visit outcome)
        (state.move i (.consuming true (.slots (state.consumers i).slots.mSlots.slots)))
  | wakes {i : ℕ} {visit : Option (List Byte)} {outcome : Outcome} (hi : i ∈ state.mConsumers)
      (hwaiting : (state.consumers i).stage = .waiting)
      (hup : (state.consumers i).wakeUp = true) :
      Branch state (.consumer i visit outcome) (state.set i { state.consumers i with
        wakeUp := false
        stage := .consuming false (.slots (state.consumers i).slots.mSlots.slots) })
  | timesOut {i : ℕ} {visit : Option (List Byte)} {outcome : Outcome} (hi : i ∈ state.mConsumers)
      (hwaiting : (state.consumers i).stage = .waiting)
      (hdown : (state.consumers i).wakeUp = false) :
      Branch state (.consumer i visit outcome) (state.move i .checking)
  | consumes {i : ℕ} {visit : Option (List Byte)} {outcome : Outcome} {last : Bool}
      {place : Place} (hi : i ∈ state.mConsumers)
      (hconsuming : (state.consumers i).stage = .consuming last place) :
      Branch state (.consumer i visit outcome) (state.consume i last visit outcome place)
  | misses {i : ℕ} {last : Bool} {name : List Byte} {todo : List (List Byte × Bool)}
      (hi : i ∈ state.mConsumers)
      (hconsuming : (state.consumers i).stage = .consuming last (.slots ((name, true) :: todo))) :
      Branch state (.popFails i)
        ((state.miss last name).move i (.consuming last (.slots todo)))
  | missesRest {i : ℕ} {last : Bool} {name : List Byte} (hi : i ∈ state.mConsumers)
      (hconsuming : (state.consumers i).stage = .consuming last (.process name)) :
      Branch state (.popFails i) ((state.miss last name).move i (.consuming last .rest))

theorem branch_of_popFails {state next : State} {i : ℕ} (hi : i ∈ state.mConsumers)
    (hnext : state.popFails i = some next) : Branch state (.popFails i) next := by
  rw [State.popFails] at hnext
  split at hnext
  · rename_i last name todo hconsuming
    obtain rfl := Option.some.inj hnext
    exact .misses hi hconsuming
  · rename_i last name hconsuming
    obtain rfl := Option.some.inj hnext
    exact .missesRest hi hconsuming
  · cases hnext

theorem branch_of_runImp {state next : State} {i : ℕ} (hi : i ∈ state.mConsumers)
    {visit : Option (List Byte)} {outcome : Outcome}
    (hnext : state.runImp i visit outcome = some next) :
    Branch state (.consumer i visit outcome) next := by
  rw [State.runImp] at hnext
  split at hnext
  · cases hnext
  · cases hnext
  · rename_i hstarting
    obtain rfl := Option.some.inj hnext
    exact .starts hi hstarting
  · rename_i hchecking
    split at hnext
    · rename_i hruns
      obtain rfl := Option.some.inj hnext
      exact .waits hi hchecking hruns
    · rename_i hstopped
      obtain rfl := Option.some.inj hnext
      exact .stops hi hchecking (Bool.eq_false_iff.mpr hstopped)
  · rename_i hwaiting
    split at hnext
    · rename_i hup
      obtain rfl := Option.some.inj hnext
      exact .wakes hi hwaiting hup
    · rename_i hdown
      obtain rfl := Option.some.inj hnext
      exact .timesOut hi hwaiting (Bool.eq_false_iff.mpr hdown)
  · rename_i last place hconsuming
    obtain rfl := Option.some.inj hnext
    exact .consumes hi hconsuming

theorem branch_of_joinNext {state next : State} (hnext : step state .joinNext = some next) :
    Branch state .joinNext next := by
  rw [step] at hnext
  split at hnext
  · rename_i i todo hjoining
    split at hnext
    · rename_i hruns
      split at hnext
      · rename_i hjoinable
        obtain rfl := Option.some.inj hnext
        exact .await hjoining hruns hjoinable
      · rename_i hnothing
        obtain rfl := Option.some.inj hnext
        exact .tell hjoining hruns (Bool.eq_false_iff.mpr hnothing)
    · rename_i hstopped
      obtain rfl := Option.some.inj hnext
      exact .skip hjoining (Bool.eq_false_iff.mpr hstopped)
  · cases hnext

/-- Each step takes one of the branches; what is preserved by the steps is
proved branch by branch. -/
theorem branch_of_step {state next : State} {action : Action}
    (hnext : step state action = some next) : Branch state action next := by
  cases action with
  | runListener =>
      rw [step] at hnext
      split at hnext
      · rename_i hready
        split at hnext
        · rename_i hlinks
          obtain rfl := Option.some.inj hnext
          exact .collides hready hlinks
        · rename_i links hlinks
          obtain rfl := Option.some.inj hnext
          exact .runListener hready hlinks
      · cases hnext
  | joinListener =>
      obtain ⟨hruns, hsome⟩ := Option.ite_none_right_eq_some.mp hnext
      obtain rfl := Option.some.inj hsome
      exact .joinListener hruns
  | runConsumer i =>
      obtain ⟨hready, hsome⟩ := Option.ite_none_right_eq_some.mp hnext
      obtain rfl := Option.some.inj hsome
      exact .runConsumer hready
  | joinConsumer i =>
      obtain ⟨hready, hsome⟩ := Option.ite_none_right_eq_some.mp hnext
      obtain rfl := Option.some.inj hsome
      exact .joinConsumer hready
  | consumerJoined i =>
      obtain ⟨hready, hsome⟩ := Option.ite_none_right_eq_some.mp hnext
      obtain rfl := Option.some.inj hsome
      exact .consumerJoined hready
  | pick item =>
      rw [step] at hnext
      split at hnext
      · rename_i hlooping
        split at hnext
        · rename_i hfull
          obtain rfl := Option.some.inj hnext
          exact .full hlooping hfull
        · rename_i hroom
          obtain rfl := Option.some.inj hnext
          exact .pick hlooping (Bool.eq_false_iff.mpr hroom)
      · cases hnext
  | push allocates =>
      rw [step] at hnext
      split at hnext
      · rename_i item hpushing
        cases allocates with
        | true =>
            obtain rfl := Option.some.inj hnext
            exact .push hpushing
        | false =>
            obtain rfl := Option.some.inj hnext
            exact .pushFails hpushing
      · cases hnext
  | notify =>
      rw [step] at hnext
      split at hnext
      · rename_i name hnotifying
        obtain rfl := Option.some.inj hnext
        exact .notify hnotifying
      · cases hnext
  | leave =>
      obtain ⟨hready, hsome⟩ := Option.ite_none_right_eq_some.mp hnext
      obtain rfl := Option.some.inj hsome
      exact .leave hready
  | joinNext => exact branch_of_joinNext hnext
  | nextJoined =>
      rw [step] at hnext
      split at hnext
      · rename_i i todo hwaiting
        obtain ⟨hended, hsome⟩ := Option.ite_none_right_eq_some.mp hnext
        obtain rfl := Option.some.inj hsome
        exact .nextJoined hwaiting hended
      · cases hnext
  | release =>
      rw [step] at hnext
      split at hnext
      · rename_i hjoining
        obtain rfl := Option.some.inj hnext
        exact .release hjoining
      · cases hnext
  | consumer i visit outcome =>
      obtain ⟨hi, hsome⟩ := Option.ite_none_right_eq_some.mp hnext
      exact branch_of_runImp hi hsome
  | popFails i =>
      obtain ⟨hi, hsome⟩ := Option.ite_none_right_eq_some.mp hnext
      exact branch_of_popFails hi hsome

/-! ## The invariant -/

/-- The slots of a sweep that are still to process. -/
def Place.todo : Place → List (List Byte × Bool)
  | .slots todo => todo
  | .call name _ todo => (name, true) :: todo
  | _ => []

/-- The queue that a sweep of `m_events` processes. -/
def Place.resting : Place → Option (List Byte)
  | .process name => some name
  | .restCall name _ => some name
  | _ => none

def Stage.todo : Stage → List (List Byte × Bool)
  | .consuming _ place => place.todo
  | _ => []

def Stage.resting : Stage → Option (List Byte)
  | .consuming _ place => place.resting
  | _ => none

def Stage.last : Stage → Bool
  | .consuming last _ => last
  | .ended => true
  | _ => false

def Listening.reading : Listening → Bool
  | .looping | .pushing _ | .notifying _ => true
  | _ => false

/-- The consumers that the listener has not joined yet. -/
def Listening.todo : Listening → List ℕ
  | .joining todo => todo
  | .waiting i todo => i :: todo
  | _ => []

/-- The consumer whose thread the listener waits for. -/
def Listening.awaits : Listening → Option ℕ
  | .waiting i _ => some i
  | _ => none

/-- Links and threads: while the listener runs the links are those of
`run_init`, and no thread of a consumer runs without it. -/
structure Control (state : State) : Prop where
  hlinked : state.listening ≠ .idle → ∀ {i name}, state.Binds i name →
    state.links.mLinks name = some (some i)
  halive : ∀ i ∈ state.mConsumers, (state.consumers i).stage.alive = true →
    state.listening ≠ .idle
  htodo : ∀ i ∈ state.mConsumers,
    (state.consumers i).stage.todo ⊆ (state.consumers i).slots.mSlots.slots
  hresting : ∀ i ∈ state.mConsumers, ∀ name,
    (state.consumers i).stage.resting = some name → ∀ j, ¬ state.Binds j name

/-- A call that goes to the slot of its name, where there is one. -/
def State.Right (state : State) (call : Callback × CnEvent) : Prop :=
  ∀ i, state.Binds i call.2.event.name → call.1 = .slot i call.2.event.name

/-- Items: each is in its queue, in hand, or passed to its slot, in this order. -/
structure Tally (state : State) : Prop where
  hnamed : ∀ name, ∀ item ∈ state.mEvents name, item.event.name = name
  hcalls : ∀ call ∈ state.calls, state.Right call
  hinCall : ∀ i ∈ state.mConsumers, ∀ call,
    (state.consumers i).stage.inCall i = some call → state.Right call
  hexact : ∀ i name, state.Binds i name →
    toCallback (.slot i name) state.calls ++ state.inHand i name ++ state.mEvents name =
      state.accepted name

/-- A thread in its last sweep, or whose `join` waits for it, is told to stop. -/
structure Consumer.Sound (consumer : Consumer) : Prop where
  hlast : consumer.stage.last = true → consumer.mRunning = false
  hjoined : consumer.joined = true →
    consumer.mRunning = false ∧ consumer.stage.joinable = true

/-- A slot of consumer `i` has items left, and no last sweep has given them up. -/
def State.Left (state : State) (i : ℕ) (name : List Byte) : Prop :=
  state.Binds i name ∧ state.mEvents name ≠ [] ∧ state.missed name = false

/-- A consumer that the listener waits for: its last sweep has still to come to
the slots that have items left. -/
structure Consumer.Awaited (consumer : Consumer) (left : List Byte → Prop) : Prop where
  hstopped : consumer.mRunning = false
  hjoined : consumer.joined = false
  hjoinable : consumer.stage.joinable = true
  hswept : consumer.stage.last = true → ∀ {name}, left name →
    (name, true) ∈ consumer.stage.todo

/-- Shutdown: what the listener waits for is a last sweep, and the queues of
the consumers it has joined are empty, but for those a last sweep gave up. -/
structure Drain (state : State) : Prop where
  hsound : ∀ i ∈ state.mConsumers, (state.consumers i).Sound
  hjoins : state.listening.todo ⊆ state.mConsumers
  hawaits : ∀ i, state.listening.awaits = some i →
    (state.consumers i).Awaited (state.Left i)
  hmet : ∀ i, state.met i = true → state.listening.reading = false
  hdrained : ∀ i, state.met i = true → state.listening.awaits ≠ some i →
    ∀ name, ¬ state.Left i name

structure Kept (state : State) : Prop where
  hcontrol : Control state
  htally : Tally state
  hdrain : Drain state

section Pieces

variable {state : State} {i : ℕ} {name : List Byte}

theorem toCallback_append (callback : Callback) (left right : List (Callback × CnEvent)) :
    toCallback callback (left ++ right) =
      toCallback callback left ++ toCallback callback right := by
  rw [toCallback, List.filter_append, List.map_append, toCallback, toCallback]

theorem toCallback_self (callback : Callback) (item : CnEvent) :
    toCallback callback [(callback, item)] = [item] := by
  simp [toCallback]

theorem toCallback_of_ne {callback other : Callback} (hne : other ≠ callback)
    (item : CnEvent) : toCallback callback [(other, item)] = [] := by
  simp [toCallback, hne]

theorem slotCall_eq (callback : Callback) (item : CnEvent) (outcome : Outcome) :
    state.slotCall callback item outcome =
      { state with calls := state.calls ++ [(callback, item)] } := by
  cases outcome <;> rfl

theorem Slots.mem_clean (slots : Slots) :
    (name, true) ∈ slots.clean.mSlots.slots ↔ (name, true) ∈ slots.mSlots.slots := by
  simp [Slots.clean]

@[simp]
theorem State.set_self (consumer : Consumer) :
    (state.set i consumer).consumers i = consumer :=
  Function.update_self _ _ _

theorem State.set_of_ne {other : ℕ} (hne : other ≠ i) (consumer : Consumer) :
    (state.set i consumer).consumers other = state.consumers other :=
  Function.update_of_ne hne _ _

/-- A consumer has the same slots as before, but for empty ones. -/
def Consumer.SameSlots (consumer other : Consumer) : Prop :=
  ∀ name, (name, true) ∈ consumer.slots.mSlots.slots ↔
    (name, true) ∈ other.slots.mSlots.slots

theorem State.binds_set {consumer : Consumer}
    (hslots : consumer.SameSlots (state.consumers i)) :
    (state.set i consumer).Binds = state.Binds := by
  funext j name
  rw [Binds, Binds]
  by_cases hsame : j = i
  · subst hsame
    rw [set_self, hslots name]
    rfl
  · rw [set_of_ne hsame]
    rfl

theorem Control.unique (hcontrol : Control state) (hactive : state.listening ≠ .idle)
    {j : ℕ} (hi : state.Binds i name) (hj : state.Binds j name) : j = i := by
  have hlink := (hcontrol.hlinked hactive hi).symm.trans (hcontrol.hlinked hactive hj)
  exact (Option.some.inj (Option.some.inj hlink)).symm

/-! ### A consumer changes -/

theorem Control.set (hcontrol : Control state) {consumer : Consumer}
    (hslots : consumer.SameSlots (state.consumers i))
    (halive : i ∈ state.mConsumers → consumer.stage.alive = true → state.listening ≠ .idle)
    (htodo : i ∈ state.mConsumers →
      consumer.stage.todo ⊆ consumer.slots.mSlots.slots)
    (hresting : i ∈ state.mConsumers → ∀ name, consumer.stage.resting = some name →
      ∀ j, ¬ state.Binds j name) :
    Control (state.set i consumer) where
  hlinked hactive := by
    rw [State.binds_set hslots]
    exact hcontrol.hlinked hactive
  halive j hj := by
    by_cases hsame : j = i
    · subst hsame
      rw [State.set_self]
      exact halive hj
    · rw [State.set_of_ne hsame]
      exact hcontrol.halive j hj
  htodo j hj := by
    by_cases hsame : j = i
    · subst hsame
      rw [State.set_self]
      exact htodo hj
    · rw [State.set_of_ne hsame]
      exact hcontrol.htodo j hj
  hresting j hj := by
    rw [State.binds_set hslots]
    by_cases hsame : j = i
    · subst hsame
      rw [State.set_self]
      exact hresting hj
    · rw [State.set_of_ne hsame]
      exact hcontrol.hresting j hj

theorem Tally.set (htally : Tally state) {consumer : Consumer}
    (hslots : consumer.SameSlots (state.consumers i))
    (hcall : consumer.stage.inCall i = (state.consumers i).stage.inCall i) :
    Tally (state.set i consumer) := by
  have hinCall : ∀ j, ((state.set i consumer).consumers j).stage.inCall j =
      (state.consumers j).stage.inCall j := by
    intro j
    by_cases hsame : j = i
    · subst hsame
      rw [State.set_self, hcall]
    · rw [State.set_of_ne hsame]
  refine ⟨htally.hnamed, ?_, fun j hj call hfound => ?_, fun j name hbinds => ?_⟩
  · intro call hmem j hbinds
    rw [State.binds_set hslots] at hbinds
    exact htally.hcalls call hmem j hbinds
  · rw [hinCall] at hfound
    intro k hbinds
    rw [State.binds_set hslots] at hbinds
    exact htally.hinCall j hj call hfound k hbinds
  · rw [State.binds_set hslots] at hbinds
    rw [State.inHand, hinCall]
    exact htally.hexact j name hbinds

theorem State.left_set {consumer : Consumer}
    (hslots : consumer.SameSlots (state.consumers i)) :
    (state.set i consumer).Left = state.Left := by
  funext j name
  rw [Left, binds_set hslots]
  rfl

theorem Drain.set (hdrain : Drain state) {consumer : Consumer}
    (hslots : consumer.SameSlots (state.consumers i))
    (hsound : i ∈ state.mConsumers → consumer.Sound)
    (hawaits : state.listening.awaits = some i → consumer.Awaited (state.Left i)) :
    Drain (state.set i consumer) where
  hsound j hj := by
    by_cases hsame : j = i
    · subst hsame
      rw [State.set_self]
      exact hsound hj
    · rw [State.set_of_ne hsame]
      exact hdrain.hsound j hj
  hjoins := hdrain.hjoins
  hawaits j := by
    rw [State.left_set hslots]
    by_cases hsame : j = i
    · subst hsame
      rw [State.set_self]
      exact hawaits
    · rw [State.set_of_ne hsame]
      exact hdrain.hawaits j
  hmet := hdrain.hmet
  hdrained := by
    rw [State.left_set hslots]
    exact hdrain.hdrained

theorem Consumer.sameSlots (consumer : Consumer) : consumer.SameSlots consumer :=
  fun _ => Iff.rfl

/-- A thread moves on without an access to the queues. -/
theorem Kept.move (hkept : Kept state) (hi : i ∈ state.mConsumers) {stage : Stage}
    (hactive : state.listening ≠ .idle) (hjoinable : stage.joinable = true)
    (htodo : stage.todo ⊆ (state.consumers i).slots.mSlots.slots)
    (hresting : ∀ name, stage.resting = some name → ∀ j, ¬ state.Binds j name)
    (hcall : stage.inCall i = (state.consumers i).stage.inCall i)
    (hlast : stage.last = true → (state.consumers i).mRunning = false)
    (hswept : state.listening.awaits = some i → stage.last = true →
      ∀ {name}, state.Left i name → (name, true) ∈ stage.todo) :
    Kept (state.move i stage) where
  hcontrol := hkept.hcontrol.set (Consumer.sameSlots _) (fun _ _ => hactive)
    (fun _ => htodo) fun _ => hresting
  htally := hkept.htally.set (Consumer.sameSlots _) hcall
  hdrain := by
    refine hkept.hdrain.set (Consumer.sameSlots _) (fun _ => ⟨hlast, fun hjoined => ?_⟩)
      fun hwaits => ?_
    · exact ⟨((hkept.hdrain.hsound i hi).hjoined hjoined).1, hjoinable⟩
    · obtain ⟨hstopped, hjoined, _, _⟩ := hkept.hdrain.hawaits i hwaits
      exact ⟨hstopped, hjoined, hjoinable, hswept hwaits⟩

/-! ### A queue changes -/

variable {item : CnEvent} {items : List CnEvent} {callback : Callback}

@[simp]
theorem State.popped_self : (state.popped name items).mEvents name = items :=
  Function.update_self _ _ _

theorem State.popped_of_ne {other : List Byte} (hne : other ≠ name) :
    (state.popped name items).mEvents other = state.mEvents other :=
  Function.update_of_ne hne _ _

@[simp]
theorem State.pushed_self : (state.pushed item).mEvents item.event.name =
    state.mEvents item.event.name ++ [item] :=
  Function.update_self _ _ _

theorem State.pushed_of_ne (hne : name ≠ item.event.name) :
    (state.pushed item).mEvents name = state.mEvents name :=
  Function.update_of_ne hne _ _

@[simp]
theorem State.accepted_self : (state.pushed item).accepted item.event.name =
    state.accepted item.event.name ++ [item] :=
  Function.update_self _ _ _

theorem State.accepted_of_ne (hne : name ≠ item.event.name) :
    (state.pushed item).accepted name = state.accepted name :=
  Function.update_of_ne hne _ _

/-- A call is made by the consumer whose slot it is. -/
theorem Stage.inCall_owner {stage : Stage} (hcall : stage.inCall i = some (callback, item))
    {j : ℕ} {other : List Byte} (hslot : callback = .slot j other) : j = i := by
  subst hslot
  cases stage with
  | consuming last place =>
      cases place with
      | call name item todo =>
          have hpair := Option.some.inj hcall
          exact (Callback.slot.inj (Prod.mk.inj hpair).1).1.symm
      | restCall name item =>
          have hpair := Option.some.inj hcall
          exact absurd (Prod.mk.inj hpair).1 (by simp)
      | _ => simp [Stage.inCall] at hcall
  | _ => simp [Stage.inCall] at hcall

theorem State.inHand_move {stage : Stage} :
    (state.move i stage).inHand i name = toCallback (.slot i name) (stage.inCall i).toList := by
  rw [inHand, move, set_self]

theorem State.inHand_move_of_ne {j : ℕ} (hne : j ≠ i) {stage : Stage} :
    (state.move i stage).inHand j name = state.inHand j name := by
  rw [inHand, move, set_of_ne hne, inHand]

theorem State.binds_move {stage : Stage} : (state.move i stage).Binds = state.Binds :=
  binds_set (Consumer.sameSlots _)

theorem State.move_mEvents {stage : Stage} : (state.move i stage).mEvents = state.mEvents :=
  rfl

/-- A pop takes the front of a queue in hand. -/
theorem Tally.pop (htally : Tally state) (hqueue : state.mEvents name = item :: items)
    (hbefore : (state.consumers i).stage.inCall i = none) {stage : Stage}
    (hafter : stage.inCall i = some (callback, item))
    (hslot : ∀ {j other}, callback = .slot j other → other = name)
    (hright : ∀ j, state.Binds j name → callback = .slot j name) :
    Tally ((state.popped name items).move i stage) where
  hnamed other found hfound := by
    rw [State.move_mEvents] at hfound
    by_cases hsame : other = name
    · subst hsame
      rw [State.popped_self] at hfound
      refine htally.hnamed other found ?_
      rw [hqueue]
      exact List.mem_cons_of_mem item hfound
    · rw [State.popped_of_ne hsame] at hfound
      exact htally.hnamed other found hfound
  hcalls call hcall j hbinds := by
    rw [State.binds_move] at hbinds
    exact htally.hcalls call hcall j hbinds
  hinCall j hj call hcall k hbinds := by
    rw [State.binds_move] at hbinds
    by_cases hsame : j = i
    · subst hsame
      rw [State.move, State.set_self, hafter, Option.some.injEq] at hcall
      subst hcall
      have hname : item.event.name = name :=
        htally.hnamed name item (by rw [hqueue]; exact List.mem_cons_self)
      rw [hname] at hbinds ⊢
      exact hright k hbinds
    · rw [State.move, State.set_of_ne hsame] at hcall
      exact htally.hinCall j hj call hcall k hbinds
  hexact j other hbinds := by
    rw [State.binds_move] at hbinds
    have hexact := htally.hexact j other hbinds
    rw [State.move_mEvents]
    by_cases hother : other = name
    · subst hother
      obtain rfl := hright j hbinds
      obtain rfl := Stage.inCall_owner hafter rfl
      rw [State.inHand, hbefore, Option.toList_none, hqueue] at hexact
      rw [State.inHand_move, hafter, Option.toList_some, toCallback_self, State.popped_self,
        List.append_assoc]
      rw [show toCallback _ [] = [] from rfl, List.append_nil] at hexact
      exact hexact
    · rw [State.popped_of_ne hother]
      by_cases hsame : j = i
      · subst hsame
        rw [State.inHand, hbefore] at hexact
        rw [State.inHand_move, hafter, Option.toList_some,
          toCallback_of_ne fun hcallback => hother (hslot hcallback)]
        exact hexact
      · rw [State.inHand_move_of_ne hsame]
        exact hexact

/-- A call passes on what is in hand. -/
theorem Tally.call (htally : Tally state) (hi : i ∈ state.mConsumers)
    (hbefore : (state.consumers i).stage.inCall i = some (callback, item)) {stage : Stage}
    (hafter : stage.inCall i = none) (outcome : Outcome) :
    Tally ((state.slotCall callback item outcome).move i stage) := by
  rw [slotCall_eq]
  refine ⟨htally.hnamed, fun call hcall j hbinds => ?_, fun j hj call hcall k hbinds => ?_,
    fun j name hbinds => ?_⟩
  · rw [State.binds_move] at hbinds
    rcases List.mem_append.mp hcall with hcall | hcall
    · exact htally.hcalls call hcall j hbinds
    · obtain rfl := List.mem_singleton.mp hcall
      exact htally.hinCall i hi _ hbefore j hbinds
  · rw [State.binds_move] at hbinds
    by_cases hsame : j = i
    · subst hsame
      rw [State.move, State.set_self, hafter] at hcall
      simp at hcall
    · rw [State.move, State.set_of_ne hsame] at hcall
      exact htally.hinCall j hj call hcall k hbinds
  · rw [State.binds_move] at hbinds
    have hexact := htally.hexact j name hbinds
    rw [State.move_mEvents]
    change toCallback _ (state.calls ++ [(callback, item)]) ++ _ ++ _ = _
    rw [toCallback_append]
    by_cases hsame : j = i
    · subst hsame
      rw [State.inHand, hbefore, Option.toList_some] at hexact
      rw [State.inHand_move, hafter, Option.toList_none, show toCallback _ [] = [] from rfl,
        List.append_nil]
      exact hexact
    · rw [State.inHand_move_of_ne hsame, toCallback_of_ne fun hcallback =>
        hsame (Stage.inCall_owner hbefore hcallback), List.append_nil]
      exact hexact

theorem Tally.push (htally : Tally state) (item : CnEvent) : Tally (state.pushed item) where
  hnamed name found hfound := by
    by_cases hsame : name = item.event.name
    · subst hsame
      rw [State.pushed_self] at hfound
      rcases List.mem_append.mp hfound with hfound | hfound
      · exact htally.hnamed _ found hfound
      · rw [List.mem_singleton.mp hfound]
    · rw [State.pushed_of_ne hsame] at hfound
      exact htally.hnamed name found hfound
  hcalls := htally.hcalls
  hinCall := htally.hinCall
  hexact j name hbinds := by
    have hexact := htally.hexact j name hbinds
    by_cases hsame : name = item.event.name
    · subst hsame
      rw [State.pushed_self, State.accepted_self, ← List.append_assoc, ← hexact]
      rfl
    · rw [State.pushed_of_ne hsame, State.accepted_of_ne hsame, ← hexact]
      rfl

theorem State.left_of_popped (hqueue : state.mEvents name = item :: items) {j : ℕ}
    {other : List Byte} (hleft : (state.popped name items).Left j other) :
    state.Left j other := by
  obtain ⟨hbinds, hleft, hmissed⟩ := hleft
  refine ⟨hbinds, fun hempty => ?_, hmissed⟩
  by_cases hsame : other = name
  · subst hsame
    simp [hqueue] at hempty
  · rw [State.popped_of_ne hsame] at hleft
    exact hleft hempty

theorem Drain.pop (hdrain : Drain state) (hqueue : state.mEvents name = item :: items) :
    Drain (state.popped name items) where
  hsound := hdrain.hsound
  hjoins := hdrain.hjoins
  hawaits j hwaits := by
    obtain ⟨hstopped, hjoined, hjoinable, hswept⟩ := hdrain.hawaits j hwaits
    exact ⟨hstopped, hjoined, hjoinable, fun hlast _ hleft =>
      hswept hlast (State.left_of_popped hqueue hleft)⟩
  hmet := hdrain.hmet
  hdrained j hmet hwaits other hleft :=
    hdrain.hdrained j hmet hwaits other (State.left_of_popped hqueue hleft)

theorem State.left_of_miss {last : Bool} {j : ℕ} {other : List Byte}
    (hleft : (state.miss last name).Left j other) : state.Left j other := by
  obtain ⟨hbinds, hitems, hmissed⟩ := hleft
  refine ⟨hbinds, hitems, ?_⟩
  by_cases hsame : other = name
  · subst hsame
    simp only [State.miss, Function.update_self, Bool.or_eq_false_iff] at hmissed
    exact hmissed.2
  · simpa only [State.miss, Function.update_of_ne hsame] using hmissed

/-- A `pop` that fails moves nothing. -/
theorem Kept.miss (hkept : Kept state) (last : Bool) (name : List Byte) :
    Kept (state.miss last name) := by
  obtain ⟨⟨hlinked, halive, htodo, hresting⟩, ⟨hnamed, hcalls, hinCall, hexact⟩,
    ⟨hsound, hjoins, hawaits, hmet, hdrained⟩⟩ := hkept
  refine ⟨⟨hlinked, halive, htodo, hresting⟩, ⟨hnamed, hcalls, hinCall, hexact⟩,
    ⟨hsound, hjoins, fun j hwaits => ?_, hmet, fun j hj hwaits other hleft => ?_⟩⟩
  · obtain ⟨hstopped, hjoined, hjoinable, hswept⟩ := hawaits j hwaits
    exact ⟨hstopped, hjoined, hjoinable, fun hlast _ hleft =>
      hswept hlast (State.left_of_miss hleft)⟩
  · exact hdrained j hj hwaits other (State.left_of_miss hleft)

/-! ### A sweep goes on -/

section Sweeps

variable {last : Bool} {place next : Place} (hi : i ∈ state.mConsumers)
  (hstage : (state.consumers i).stage = .consuming last place)

include hi hstage

theorem Control.active (hcontrol : Control state) : state.listening ≠ .idle :=
  hcontrol.halive i hi (by rw [hstage]; rfl)

theorem Control.sweep (hcontrol : Control state) (htodo : next.todo = place.todo)
    (hresting : next.resting = place.resting) :
    Control (state.move i (.consuming last next)) := by
  have hactive := hcontrol.active hi hstage
  refine hcontrol.set (Consumer.sameSlots _) (fun _ _ => hactive) (fun _ => ?_) fun _ => ?_
  · have hbefore := hcontrol.htodo i hi
    rw [hstage] at hbefore
    change next.todo ⊆ (state.consumers i).slots.mSlots.slots
    rw [htodo]
    exact hbefore
  · have hbefore := hcontrol.hresting i hi
    rw [hstage] at hbefore
    exact fun name hname => hbefore name (hresting.symm.trans hname)

theorem Drain.sweep (hdrain : Drain state) (htodo : next.todo = place.todo) :
    Drain (state.move i (.consuming last next)) := by
  have hsound := hdrain.hsound i hi
  refine hdrain.set (Consumer.sameSlots _) (fun _ => ⟨fun hlast => ?_, fun hjoined => ?_⟩)
    fun hwaits => ?_
  · exact hsound.hlast (by rw [hstage]; exact hlast)
  · exact ⟨(hsound.hjoined hjoined).1, rfl⟩
  · obtain ⟨hstopped, hjoined, _, hswept⟩ := hdrain.hawaits i hwaits
    rw [hstage] at hswept
    refine ⟨hstopped, hjoined, rfl, fun hlast name hleft => ?_⟩
    change (name, true) ∈ next.todo
    rw [htodo]
    exact hswept hlast hleft

theorem Kept.pop (hkept : Kept state) (hqueue : state.mEvents name = item :: items)
    (htodo : next.todo = place.todo) (hresting : next.resting = place.resting)
    (hbefore : (Stage.consuming last place).inCall i = none)
    (hafter : (Stage.consuming last next).inCall i = some (callback, item))
    (hslot : ∀ {j other}, callback = .slot j other → other = name)
    (hright : ∀ j, state.Binds j name → callback = .slot j name) :
    Kept ((state.popped name items).move i (.consuming last next)) where
  hcontrol := by
    obtain ⟨hlinked, halive, htodos, hrestings⟩ := hkept.hcontrol
    have hpopped : Control (state.popped name items) := ⟨hlinked, halive, htodos, hrestings⟩
    exact hpopped.sweep hi hstage htodo hresting
  htally := hkept.htally.pop hqueue (hstage ▸ hbefore) hafter hslot hright
  hdrain := (hkept.hdrain.pop hqueue).sweep hi hstage htodo

theorem Kept.call (hkept : Kept state) (htodo : next.todo = place.todo)
    (hresting : next.resting = place.resting)
    (hbefore : (Stage.consuming last place).inCall i = some (callback, item))
    (hafter : (Stage.consuming last next).inCall i = none) (outcome : Outcome) :
    Kept ((state.slotCall callback item outcome).move i (.consuming last next)) where
  hcontrol := by
    obtain ⟨hlinked, halive, htodos, hrestings⟩ := hkept.hcontrol
    rw [slotCall_eq]
    exact Control.sweep hi hstage ⟨hlinked, halive, htodos, hrestings⟩ htodo hresting
  htally := hkept.htally.call hi (hstage ▸ hbefore) hafter outcome
  hdrain := by
    obtain ⟨hsound, hjoins, hawaits, hmet, hdrained⟩ := hkept.hdrain
    rw [slotCall_eq]
    exact Drain.sweep hi hstage ⟨hsound, hjoins, hawaits, hmet, hdrained⟩ htodo

/-- A sweep with nothing left of the own slots is over, or goes on with the
queues of the others. -/
theorem Kept.pass (hkept : Kept state) (hnone : (Stage.consuming last place).inCall i = none)
    (htodo : place.todo = []) {stage : Stage} (hjoinable : stage.joinable = true)
    (hempty : stage.todo = [])
    (hresting : ∀ name, stage.resting = some name → ∀ j, ¬ state.Binds j name)
    (hcall : stage.inCall i = none) (hlast : stage.last = true → last = true) :
    Kept (state.move i stage) := by
  have hactive := hkept.hcontrol.active hi hstage
  refine hkept.move hi hactive hjoinable ?_ hresting ?_ (fun h => ?_) fun hwaits h name hleft => ?_
  · rw [hempty]
    exact List.nil_subset _
  · rw [hcall, hstage, hnone]
  · exact (hkept.hdrain.hsound i hi).hlast (by rw [hstage]; exact hlast h)
  · have hswept := (hkept.hdrain.hawaits i hwaits).hswept
    rw [hstage] at hswept
    rw [hempty, ← htodo]
    exact hswept (hlast h) hleft

theorem Kept.finish (hkept : Kept state)
    (hnone : (Stage.consuming last place).inCall i = none) (htodo : place.todo = []) :
    Kept (state.move i (State.finish last)) := by
  cases last with
  | false =>
      refine hkept.pass hi hstage hnone htodo rfl rfl (fun name hname => ?_) rfl id
      simp [State.finish, Stage.resting] at hname
  | true =>
      refine hkept.pass hi hstage hnone htodo rfl rfl (fun name hname => ?_) rfl id
      simp [State.finish, Stage.resting] at hname

/-- A slot with nothing to do leaves the sweep. -/
theorem Kept.skip (hkept : Kept state) {slot : List Byte × Bool}
    {todo : List (List Byte × Bool)} (hplace : place = .slots (slot :: todo))
    (hdone : last = true → slot.2 = true → ¬ state.Left i slot.1) :
    Kept (state.move i (.consuming last (.slots todo))) := by
  have hactive := hkept.hcontrol.active hi hstage
  subst hplace
  have hsubset := hkept.hcontrol.htodo i hi
  rw [hstage] at hsubset
  refine hkept.move hi hactive rfl ?_ (fun name hname => ?_) ?_ (fun h => ?_)
    fun hwaits h name hleft => ?_
  · exact fun other hother => hsubset (List.mem_cons_of_mem slot hother)
  · simp [Stage.resting, Place.resting] at hname
  · rw [hstage]
    rfl
  · exact (hkept.hdrain.hsound i hi).hlast (by rw [hstage]; exact h)
  · have hswept := (hkept.hdrain.hawaits i hwaits).hswept
    rw [hstage] at hswept
    rcases List.mem_cons.mp (hswept h hleft) with rfl | htodo
    · exact absurd hleft (hdone h rfl)
    · exact htodo

/-- A queue that a last sweep gives up is none of those it has to empty. -/
theorem Kept.misses (hkept : Kept state) {todo : List (List Byte × Bool)}
    (hplace : place = .slots ((name, true) :: todo)) :
    Kept ((state.miss last name).move i (.consuming last (.slots todo))) := by
  refine @Kept.skip (state.miss last name) i last place hi hstage (hkept.miss last name) _ _
    hplace fun hlast _ hleft => ?_
  subst hlast
  have hmissed := hleft.2.2
  simp [State.miss] at hmissed

theorem Kept.missesRest (hkept : Kept state) (hplace : place = .process name) :
    Kept ((state.miss last name).move i (.consuming last .rest)) := by
  subst hplace
  refine @Kept.pass (state.miss last name) i last (.process name) hi hstage
    (hkept.miss last name) rfl rfl _ rfl rfl (fun other hother => ?_) rfl id
  simp [Stage.resting, Place.resting] at hother

/-- Whatever `consume_events` comes to, the items stay accounted for. -/
theorem Kept.consume (hkept : Kept state) (visit : Option (List Byte)) (outcome : Outcome) :
    Kept (state.consume i last visit outcome place) := by
  have hactive := hkept.hcontrol.active hi hstage
  have htodo := hkept.hcontrol.htodo i hi
  have hresting := hkept.hcontrol.hresting i hi
  rw [hstage] at htodo hresting
  cases place with
  | slots todo =>
      cases todo with
      | nil =>
          rw [State.consume]
          split
          · refine hkept.pass hi hstage rfl rfl rfl rfl (fun name hname => ?_) rfl id
            simp [Stage.resting, Place.resting] at hname
          · exact hkept.finish hi hstage rfl rfl
      | cons slot todo =>
          obtain ⟨name, callback⟩ := slot
          cases callback with
          | false =>
              rw [State.consume]
              exact hkept.skip hi hstage rfl fun _ hcallback => nomatch hcallback
          | true =>
              rw [State.consume]
              split
              · rename_i hempty
                exact hkept.skip hi hstage rfl fun _ _ hleft => hleft.2.1 hempty
              · rename_i item items hqueue
                have hbinds : state.Binds i name := ⟨hi, htodo List.mem_cons_self⟩
                refine hkept.pop hi hstage hqueue rfl rfl rfl rfl
                  (fun hcallback => (Callback.slot.inj hcallback).2.symm) fun j hj => ?_
                rw [hkept.hcontrol.unique hactive hbinds hj]
  | call name item todo =>
      rw [State.consume]
      refine hkept.call hi hstage ?_ ?_ ?_ ?_ outcome
      all_goals rfl
  | rest =>
      cases visit with
      | none => exact hkept.finish hi hstage rfl rfl
      | some name =>
          rw [State.consume]
          split
          · rename_i hlink
            refine hkept.pass hi hstage rfl rfl rfl rfl (fun other hother j hbinds => ?_) rfl id
            obtain rfl := Option.some.inj hother
            rw [hkept.hcontrol.hlinked hactive hbinds] at hlink
            simp at hlink
          · exact hkept
  | process name =>
      rw [State.consume]
      split
      · refine hkept.pass hi hstage rfl rfl rfl rfl (fun name hname => ?_) rfl id
        simp [Stage.resting, Place.resting] at hname
      · rename_i item items hqueue
        refine hkept.pop hi hstage hqueue rfl rfl rfl rfl (fun hcallback => ?_) fun j hj => ?_
        · simp at hcallback
        · exact absurd hj (hresting name rfl j)
  | restCall name item =>
      rw [State.consume]
      refine hkept.call hi hstage ?_ ?_ ?_ ?_ outcome
      all_goals rfl

end Sweeps

/-! ### The thread of a consumer -/

/-- A thread outside `consume_events` moves on to a place outside it. -/
theorem Kept.wait (hkept : Kept state) (hi : i ∈ state.mConsumers)
    (halive : (state.consumers i).stage.alive = true)
    (hcall : (state.consumers i).stage.inCall i = none) {stage : Stage}
    (hstage : stage = .checking ∨ stage = .waiting) : Kept (state.move i stage) := by
  have hactive := hkept.hcontrol.halive i hi halive
  rcases hstage with rfl | rfl
  · exact hkept.move hi hactive rfl (List.nil_subset _) (fun name hname => by
      simp [Stage.resting] at hname) hcall.symm (by simp [Stage.last]) (by simp [Stage.last])
  · exact hkept.move hi hactive rfl (List.nil_subset _) (fun name hname => by
      simp [Stage.resting] at hname) hcall.symm (by simp [Stage.last]) (by simp [Stage.last])

/-- `m_running` is seen to be false, and the last sweep begins. -/
theorem Kept.stop (hkept : Kept state) (hi : i ∈ state.mConsumers)
    (hchecking : (state.consumers i).stage = .checking)
    (hstopped : (state.consumers i).mRunning = false) :
    Kept (state.move i (.consuming true (.slots (state.consumers i).slots.mSlots.slots))) := by
  have hactive := hkept.hcontrol.halive i hi (by rw [hchecking]; rfl)
  refine hkept.move hi hactive rfl (List.Subset.refl _) (fun name hname => ?_) ?_
    (fun _ => hstopped) fun _ _ name hleft => hleft.1.2
  · simp [Stage.resting, Place.resting] at hname
  · rw [hchecking]
    rfl

/-- The flag is taken down, and a sweep begins. -/
theorem Kept.wake (hkept : Kept state) (hi : i ∈ state.mConsumers)
    (hwaiting : (state.consumers i).stage = .waiting) :
    Kept (state.set i { state.consumers i with
      wakeUp := false
      stage := .consuming false (.slots (state.consumers i).slots.mSlots.slots) }) := by
  have hactive := hkept.hcontrol.halive i hi (by rw [hwaiting]; rfl)
  have hcall : (state.consumers i).stage.inCall i = none := by
    rw [hwaiting]
    rfl
  refine ⟨hkept.hcontrol.set (Consumer.sameSlots _) (fun _ _ => hactive)
    (fun _ => List.Subset.refl _) (fun _ name hname => ?_),
    hkept.htally.set (Consumer.sameSlots _) hcall.symm,
    hkept.hdrain.set (Consumer.sameSlots _) (fun _ => ⟨fun hlast => ?_, fun hjoined => ?_⟩)
      fun hwaits => ?_⟩
  · simp [Stage.resting, Place.resting] at hname
  · simp [Stage.last] at hlast
  · exact ⟨((hkept.hdrain.hsound i hi).hjoined hjoined).1, rfl⟩
  · obtain ⟨hstopped, hjoined, _, _⟩ := hkept.hdrain.hawaits i hwaits
    exact ⟨hstopped, hjoined, rfl, fun hlast => by simp [Stage.last] at hlast⟩

/-- The flags of a consumer change, but nothing makes it run. -/
theorem Kept.flags (hkept : Kept state) {consumer : Consumer}
    (hslots : consumer.slots = (state.consumers i).slots)
    (hstage : consumer.stage = (state.consumers i).stage)
    (hrunning : (state.consumers i).mRunning = false → consumer.mRunning = false)
    (hjoined : consumer.joined = true → (state.consumers i).joined = true ∨
      (state.consumers i).mRunning = true ∧ consumer.mRunning = false ∧
        consumer.stage.joinable = true) :
    Kept (state.set i consumer) := by
  have hsame : consumer.SameSlots (state.consumers i) := fun name => by rw [hslots]
  refine ⟨hkept.hcontrol.set hsame ?_ ?_ ?_, hkept.htally.set hsame (by rw [hstage]),
    hkept.hdrain.set hsame (fun hi => ⟨fun hlast => ?_, fun hjoins => ?_⟩) fun hwaits => ?_⟩
  · rw [hstage]
    exact hkept.hcontrol.halive i
  · rw [hstage, hslots]
    exact hkept.hcontrol.htodo i
  · rw [hstage]
    exact hkept.hcontrol.hresting i
  · rw [hstage] at hlast
    exact hrunning ((hkept.hdrain.hsound i hi).hlast hlast)
  · rcases hjoined hjoins with hbefore | ⟨_, hafter⟩
    · obtain ⟨hstopped, hjoinable⟩ := (hkept.hdrain.hsound i hi).hjoined hbefore
      exact ⟨hrunning hstopped, by rwa [hstage]⟩
    · exact hafter
  · obtain ⟨hstopped, hunjoined, hjoinable, hswept⟩ := hkept.hdrain.hawaits i hwaits
    refine ⟨hrunning hstopped, ?_, by rwa [hstage], by rwa [hstage]⟩
    rw [Bool.eq_false_iff]
    intro hjoins
    rcases hjoined hjoins with hbefore | ⟨hruns, _⟩
    · simp [hunjoined] at hbefore
    · simp [hstopped] at hruns

/-! ### The thread of the listener -/

theorem Kept.joins_tail (hkept : Kept state) {todo : List ℕ}
    (hjoining : state.listening = .joining (i :: todo)) : todo ⊆ state.mConsumers := by
  have hjoins := hkept.hdrain.hjoins
  rw [hjoining] at hjoins
  exact fun j hj => hjoins (List.mem_cons_of_mem i hj)

/-- The listener moves on while it waits for nobody. -/
theorem Kept.listen (hkept : Kept state) (hactive : state.listening ≠ .idle)
    (hwaits : state.listening.awaits = none) {listening : Listening}
    (hidle : listening ≠ .idle) (hjoins : listening.todo ⊆ state.mConsumers)
    (hawaits : listening.awaits = none)
    (hreading : listening.reading = true → state.listening.reading = true) :
    Kept { state with listening := listening } where
  hcontrol := by
    obtain ⟨hlinked, halive, htodo, hresting⟩ := hkept.hcontrol
    exact ⟨fun _ => hlinked hactive, fun _ _ _ => hidle, htodo, hresting⟩
  htally := by
    obtain ⟨hnamed, hcalls, hinCall, hexact⟩ := hkept.htally
    exact ⟨hnamed, hcalls, hinCall, hexact⟩
  hdrain := by
    obtain ⟨hsound, _, _, hmet, hdrained⟩ := hkept.hdrain
    refine ⟨hsound, hjoins, fun i hi => ?_, fun i hi => ?_, fun i hi _ => ?_⟩
    · simp [hawaits] at hi
    · rw [Bool.eq_false_iff]
      intro h
      simp [hmet i hi] at hreading
      simp [h] at hreading
    · exact hdrained i hi (by simp [hwaits])

theorem Kept.push (hkept : Kept state) (hpushing : state.listening = .pushing item) :
    Kept { state.pushed item with listening := .notifying item.event.name } where
  hcontrol := by
    obtain ⟨hlinked, halive, htodo, hresting⟩ := hkept.hcontrol
    have hactive : state.listening ≠ .idle := by simp [hpushing]
    exact ⟨fun _ => hlinked hactive, fun _ _ _ => by simp, htodo, hresting⟩
  htally := by
    obtain ⟨hnamed, hcalls, hinCall, hexact⟩ := hkept.htally.push item
    exact ⟨hnamed, hcalls, hinCall, hexact⟩
  hdrain := by
    obtain ⟨hsound, _, _, hmet, _⟩ := hkept.hdrain
    have hunmet : ∀ i, ¬ state.met i = true := fun i h => by
      have hreading := hmet i h
      simp [hpushing, Listening.reading] at hreading
    exact ⟨hsound, List.nil_subset _, fun i hi => by simp [Listening.awaits] at hi,
      fun i hi => absurd hi (hunmet i), fun i hi => absurd hi (hunmet i)⟩

/-- The listener tells a consumer to stop, and waits for its thread. -/
theorem Kept.await (hkept : Kept state) {todo : List ℕ}
    (hjoining : state.listening = .joining (i :: todo))
    (hruns : (state.consumers i).mRunning = true)
    (hjoinable : (state.consumers i).stage.joinable = true) :
    Kept { state.set i { state.consumers i with mRunning := false } with
      listening := .waiting i todo
      met := Function.update state.met i true } := by
  have hjoins := hkept.hdrain.hjoins
  rw [hjoining] at hjoins
  have hsound := hkept.hdrain.hsound i (hjoins List.mem_cons_self)
  have htold : Kept (state.set i { state.consumers i with mRunning := false }) :=
    hkept.flags rfl rfl (fun _ => rfl) .inl
  obtain ⟨⟨hlinked, halive, htodo, hresting⟩, ⟨hnamed, hcalls, hinCall, hexact⟩,
    ⟨hsounds, _, _, _, hdrained⟩⟩ := htold
  have hactive : state.listening ≠ .idle := by simp [hjoining]
  refine ⟨⟨fun _ => hlinked hactive, fun _ _ _ => by simp, htodo, hresting⟩,
    ⟨hnamed, hcalls, hinCall, hexact⟩, ⟨hsounds, hjoins, fun j hj => ?_, fun _ _ => rfl,
      fun j hj hother => ?_⟩⟩
  · obtain rfl := Option.some.inj hj
    have hlast : (state.consumers i).stage.last = false := by
      rw [Bool.eq_false_iff]
      intro hlast
      simp [hsound.hlast hlast] at hruns
    have hjoined : (state.consumers i).joined = false := by
      rw [Bool.eq_false_iff]
      intro hjoined
      simp [(hsound.hjoined hjoined).1] at hruns
    change ((state.set i { state.consumers i with mRunning := false }).consumers i).Awaited _
    rw [State.set_self]
    exact ⟨rfl, hjoined, hjoinable, fun h => by simp [hlast] at h⟩
  · have hne : j ≠ i := fun h => hother (h ▸ rfl)
    change Function.update state.met i true j = true at hj
    rw [Function.update_of_ne hne] at hj
    exact hdrained j hj (by simp [State.set, hjoining, Listening.awaits])

/-- The thread that the listener waits for has ended, its queues are empty. -/
theorem Kept.nextJoined (hkept : Kept state) {todo : List ℕ}
    (hwaiting : state.listening = .waiting i todo)
    (hended : (state.consumers i).stage = .ended) :
    Kept { state.move i .idle with listening := .joining todo } := by
  have hjoins := hkept.hdrain.hjoins
  rw [hwaiting] at hjoins
  have hactive : state.listening ≠ .idle := by simp [hwaiting]
  obtain ⟨hstopped, hjoined, _, hswept⟩ := hkept.hdrain.hawaits i (by rw [hwaiting]; rfl)
  have hempty : ∀ name, ¬ state.Left i name := fun name hleft => by
    rw [hended] at hswept
    simpa [Stage.todo] using hswept rfl hleft
  have hcontrol : Control (state.move i .idle) :=
    hkept.hcontrol.set (Consumer.sameSlots _) (fun _ h => by simp [Stage.alive] at h)
      (fun _ => List.nil_subset _) (fun _ name hname => by simp [Stage.resting] at hname)
  have htally : Tally (state.move i .idle) :=
    hkept.htally.set (Consumer.sameSlots _) (by rw [hended]; rfl)
  have hleft : (state.move i .idle).Left = state.Left := State.left_set (Consumer.sameSlots _)
  obtain ⟨hlinked, halive, htodo, hresting⟩ := hcontrol
  obtain ⟨hnamed, hcalls, hinCall, hexact⟩ := htally
  refine ⟨⟨fun _ => hlinked hactive, fun _ _ _ => by simp, htodo, hresting⟩,
    ⟨hnamed, hcalls, hinCall, hexact⟩, ⟨fun j hj => ?_, fun j hj => ?_, fun j hj => ?_,
      fun _ _ => rfl, fun j hj _ => ?_⟩⟩
  · by_cases hsame : j = i
    · subst hsame
      change ((state.move j .idle).consumers j).Sound
      rw [State.move, State.set_self]
      exact ⟨fun h => by simp [Stage.last] at h, fun h => by simp [hjoined] at h⟩
    · change ((state.move i .idle).consumers j).Sound
      rw [State.move, State.set_of_ne hsame]
      exact hkept.hdrain.hsound j hj
  · exact hjoins (List.mem_cons_of_mem i hj)
  · simp [Listening.awaits] at hj
  · change ∀ name, ¬ (state.move i .idle).Left j name
    rw [hleft]
    by_cases hsame : j = i
    · subst hsame
      exact hempty
    · exact hkept.hdrain.hdrained j hj (by simpa [hwaiting, Listening.awaits] using Ne.symm hsame)

/-- The `join` of a consumer by another thread returns. -/
theorem Kept.consumerJoined (hkept : Kept state) (hjoined : (state.consumers i).joined = true)
    (hended : (state.consumers i).stage = .ended) :
    Kept (state.set i { state.consumers i with joined := false, stage := .idle }) := by
  refine ⟨hkept.hcontrol.set (Consumer.sameSlots _) (fun _ h => ?_) (fun _ => List.nil_subset _)
    (fun _ name hname => ?_), hkept.htally.set (Consumer.sameSlots _) (by rw [hended]; rfl),
    hkept.hdrain.set (Consumer.sameSlots _) (fun _ => ⟨fun h => ?_, fun h => ?_⟩)
      fun hwaits => ?_⟩
  · simp [Stage.alive] at h
  · simp [Stage.resting] at hname
  · simp [Stage.last] at h
  · simp at h
  · have hunjoined := (hkept.hdrain.hawaits i hwaits).hjoined
    simp [hjoined] at hunjoined

theorem Kept.runConsumer (hkept : Kept state) (hactive : state.listening ≠ .idle)
    (hstage : (state.consumers i).stage = .idle) :
    Kept (state.set i { state.consumers i with
      slots := (state.consumers i).slots.clean
      mRunning := true
      stage := .starting }) := by
  have hslots : Consumer.SameSlots { state.consumers i with
      slots := (state.consumers i).slots.clean
      mRunning := true
      stage := .starting } (state.consumers i) :=
    fun _ => Slots.mem_clean _
  refine ⟨hkept.hcontrol.set hslots (fun _ _ => hactive) (fun _ => List.nil_subset _)
    (fun _ name hname => ?_), hkept.htally.set hslots (by rw [hstage]; rfl),
    hkept.hdrain.set hslots (fun hi => ⟨fun h => ?_, fun h => ?_⟩) fun hwaits => ?_⟩
  · simp [Stage.resting] at hname
  · simp [Stage.last] at h
  · have hjoinable := ((hkept.hdrain.hsound i hi).hjoined h).2
    simp [hstage, Stage.joinable] at hjoinable
  · have hjoinable := (hkept.hdrain.hawaits i hwaits).hjoinable
    simp [hstage, Stage.joinable] at hjoinable

/-- The links are made anew. -/
theorem Kept.runListener (hkept : Kept state) {links : Links}
    (hlinks : linkConsumers (fun i => (state.consumers i).slots) state.mConsumers state.links =
      some links) :
    Kept { state with
      links := links
      mRunning := true
      listening := .looping
      met := fun _ => false
      missed := fun _ => false } := by
  obtain ⟨⟨_, _, htodo, hresting⟩, ⟨hnamed, hcalls, hinCall, hexact⟩, ⟨hsound, _, _, _, _⟩⟩ :=
    hkept
  refine ⟨⟨fun _ i name hbinds => ?_, fun _ _ _ => by simp, htodo, hresting⟩,
    ⟨hnamed, hcalls, hinCall, hexact⟩, ⟨hsound, List.nil_subset _, fun i hi => ?_, fun i hi => ?_,
      fun i hi => ?_⟩⟩
  · exact linkConsumers_sets hlinks hbinds.1 hbinds.2
  · simp [Listening.awaits] at hi
  · simp at hi
  · simp at hi

/-- Without threads of consumers the links may be cleared. -/
theorem Kept.release (hkept : Kept state) (hjoining : state.listening = .joining [])
    (halone : ∀ i ∈ state.mConsumers, (state.consumers i).stage.alive = false) :
    Kept { state with links := .clear, listening := .idle } := by
  obtain ⟨⟨_, _, htodo, hresting⟩, ⟨hnamed, hcalls, hinCall, hexact⟩,
    ⟨hsound, _, _, _, hdrained⟩⟩ := hkept
  refine ⟨⟨fun h => absurd rfl h, fun i hi halive => ?_, htodo, hresting⟩,
    ⟨hnamed, hcalls, hinCall, hexact⟩, ⟨hsound, List.nil_subset _, fun i hi => ?_, fun _ _ => rfl,
      fun i hi _ => ?_⟩⟩
  · simp [halone i hi] at halive
  · simp [Listening.awaits] at hi
  · exact hdrained i hi (by simp [hjoining, Listening.awaits])

end Pieces

/-! ## Runs -/

theorem kept_start (mMaxQueueSize : ℕ) (mConsumers : List ℕ) (slots : ℕ → Slots) :
    Kept (.start mMaxQueueSize mConsumers slots) where
  hcontrol := ⟨fun h => absurd rfl h, fun i _ h => by simp [State.start, Stage.alive] at h,
    fun _ _ => List.nil_subset _, fun i _ name h => by simp [State.start, Stage.resting] at h⟩
  htally := ⟨fun name item h => by simp [State.start] at h,
    fun call h => by simp [State.start] at h,
    fun i _ call h => by simp [State.start, Stage.inCall] at h, fun _ _ _ => rfl⟩
  hdrain := ⟨fun i _ => ⟨fun h => by simp [State.start, Stage.last] at h,
    fun h => by simp [State.start] at h⟩, List.nil_subset _,
    fun i h => by simp [State.start, Listening.awaits] at h,
    fun i h => by simp [State.start] at h, fun i h => by simp [State.start] at h⟩

/-- Each branch keeps links, items and shutdown. -/
theorem Kept.step {state : State} (hkept : Kept state) {action : Action} {next : State}
    (hsafe : Safe state action) (hnext : step state action = some next) : Kept next := by
  cases branch_of_step hnext with
  | collides hready hlinks =>
      obtain ⟨⟨_, halive, htodo, hresting⟩, ⟨hnamed, hcalls, hinCall, hexact⟩, hdrain⟩ := hkept
      exact ⟨⟨fun h => absurd hready.1 h, halive, htodo, hresting⟩,
        ⟨hnamed, hcalls, hinCall, hexact⟩,
        ⟨hdrain.hsound, hdrain.hjoins, hdrain.hawaits, hdrain.hmet, hdrain.hdrained⟩⟩
  | runListener hready hlinks => exact hkept.runListener hlinks
  | joinListener hruns =>
      obtain ⟨⟨hlinked, halive, htodo, hresting⟩, ⟨hnamed, hcalls, hinCall, hexact⟩, hdrain⟩ :=
        hkept
      exact ⟨⟨hlinked, halive, htodo, hresting⟩, ⟨hnamed, hcalls, hinCall, hexact⟩,
        ⟨hdrain.hsound, hdrain.hjoins, hdrain.hawaits, hdrain.hmet, hdrain.hdrained⟩⟩
  | runConsumer hready => exact hkept.runConsumer hsafe hready.2.2
  | joinConsumer hready =>
      exact hkept.flags rfl rfl (fun _ => rfl) fun hjoinable => .inr ⟨hready.2, rfl, hjoinable⟩
  | consumerJoined hready => exact hkept.consumerJoined hready.2.1 hready.2.2
  | full hlooping hfull => exact hkept
  | pick hlooping hroom =>
      refine hkept.listen ?_ ?_ ?_ (List.nil_subset _) rfl ?_
      all_goals simp [hlooping, Listening.awaits, Listening.reading]
  | push hpushing => exact hkept.push hpushing
  | pushFails hpushing =>
      refine hkept.listen ?_ ?_ ?_ (List.nil_subset _) rfl ?_
      all_goals simp [hpushing, Listening.awaits, Listening.reading]
  | @notify name hnotifying =>
      have hwoken : ∀ link, Kept (state.notify link) ∧
          (state.notify link).listening = .notifying name := by
        intro link
        cases link with
        | none => exact ⟨hkept, hnotifying⟩
        | some i => exact ⟨hkept.flags rfl rfl id .inl, hnotifying⟩
      obtain ⟨hwoken, hstill⟩ := hwoken (state.notified name)
      refine hwoken.listen ?_ ?_ ?_ (List.nil_subset _) rfl ?_
      all_goals simp [hstill, Listening.awaits, Listening.reading]
  | leave hready =>
      refine hkept.listen ?_ ?_ ?_ (List.Subset.refl _) rfl ?_
      all_goals simp [hready.1, Listening.awaits, Listening.reading]
  | await hjoining hruns hjoinable => exact hkept.await hjoining hruns hjoinable
  | @tell i todo hjoining hruns hnothing =>
      have htold : Kept (state.set i { state.consumers i with mRunning := false }) :=
        hkept.flags rfl rfl (fun _ => rfl) .inl
      refine htold.listen ?_ ?_ ?_ (hkept.joins_tail hjoining) rfl ?_
      all_goals simp [State.set, hjoining, Listening.awaits, Listening.reading]
  | skip hjoining hstopped =>
      refine hkept.listen ?_ ?_ ?_ (hkept.joins_tail hjoining) rfl ?_
      all_goals simp [hjoining, Listening.awaits, Listening.reading]
  | nextJoined hwaiting hended => exact hkept.nextJoined hwaiting hended
  | release hjoining => exact hkept.release hjoining hsafe
  | starts hi hstarting =>
      exact hkept.wait hi (by rw [hstarting]; rfl) (by rw [hstarting]; rfl) (.inl rfl)
  | waits hi hchecking hruns =>
      exact hkept.wait hi (by rw [hchecking]; rfl) (by rw [hchecking]; rfl) (.inr rfl)
  | stops hi hchecking hstopped => exact hkept.stop hi hchecking hstopped
  | wakes hi hwaiting hup => exact hkept.wake hi hwaiting
  | timesOut hi hwaiting hdown =>
      exact hkept.wait hi (by rw [hwaiting]; rfl) (by rw [hwaiting]; rfl) (.inl rfl)
  | consumes hi hconsuming => exact hkept.consume hi hconsuming _ _
  | misses hi hconsuming => exact hkept.misses hi hconsuming rfl
  | missesRest hi hconsuming => exact hkept.missesRest hi hconsuming rfl

/-- One consumer that binds the name `p`, and one that has `on_event`. -/
def pingSlots (i : ℕ) : Slots where
  onDisconnect := false
  onServerDisconnect := false
  onEvent := i = 1
  mSlots := ⟨if i = 0 then [([112], true)] else [], by split <;> decide⟩

def ping : CnEvent :=
  ⟨5, ⟨[112], []⟩⟩

end Sednl.Dispatch
