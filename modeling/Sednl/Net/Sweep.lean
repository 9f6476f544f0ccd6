import Sednl.Net.WakeUp

/-!
# Sweeps

`consume_events` from end to end: the queues of the slots, those that `on_event`
takes, the servers and last the connections that were disconnected, while the
listener goes on pushing and other consumers pop what is theirs.  Each queue is
emptied before the next, so what was pushed before a sweep began is passed on
before the sweep calls `on_disconnect`; an event that comes later may be passed
on behind the disconnect of its connection.
-/

namespace Sednl.Sweep

open Sednl.Tag
open Sednl.Ring
open Sednl.Transition
open Sednl.Dispatch (Slots Links Queue Entry)

/-- An entry, and how many were pushed before it. -/
structure Stamped where
  entry : Entry
  stamp : ℕ
  deriving DecidableEq, Repr

/-- A callback of the consumer; `on_event` is told apart by the queue it takes. -/
inductive Callback where
  | slot (name : List Byte)
  | onEvent (name : List Byte)
  | onServerDisconnect
  | onDisconnect
  deriving DecidableEq, Repr

def Callback.queue : Callback → Queue
  | .slot name => .event name
  | .onEvent name => .event name
  | .onServerDisconnect => .serverDisconnected
  | .onDisconnect => .disconnected

/-- A call of a callback, and how many entries had been pushed when its sweep began. -/
structure Call where
  callback : Callback
  passed : Stamped
  began : ℕ
  deriving DecidableEq, Repr

/-- Where a sweep stands between two queues: in the loop over `m_slots` with the
slots still to come, in the loop over `m_events` with the names it has still to
come to, at the last two queues, or at its end. -/
inductive Place where
  | slots (todo : List (List Byte × Bool))
  | rest (due : List (List Byte))
  | server
  | connection
  | done
  deriving DecidableEq, Repr

/-- Where the thread stands: outside `consume_events`, between two queues, at the
next `pop` of `process`, or in a call with what it has popped. -/
inductive Stage where
  | idle
  | between (place : Place)
  | draining (callback : Callback) (place : Place)
  | calling (callback : Callback) (popped : Stamped) (place : Place)
  deriving DecidableEq, Repr

/-- A listener and one consumer of it.  `names` are those in `m_events`; `pushes`
counts what was pushed, `began` says how much of it before the sweep, and
`closings` are the disconnects of connections that were pushed. -/
structure State where
  mMaxQueueSize : ℕ
  slots : Slots
  links : Links
  queue : Queue → List Stamped
  names : List (List Byte)
  stage : Stage
  pushes : ℕ
  began : ℕ
  closings : List (ℕ × ℕ)
  calls : List Call

namespace State

def isFull (state : State) (queue : Queue) : Bool :=
  Dispatch.isFull (state.queue queue) state.mMaxQueueSize

/-- `m_events[name]` enters the name into the map. -/
def touch (state : State) (name : List Byte) : State :=
  { state with names := WakeUp.touch name state.names }

def touchQueue (state : State) : Queue → State
  | .event name => state.touch name
  | .serverDisconnected => state
  | .disconnected => state

/-- A disconnect of a connection, if an entry is one. -/
def closing (entry : Entry) (stamp : ℕ) : List (ℕ × ℕ) :=
  match entry with
  | .connection cn => [(cn, stamp)]
  | _ => []

/-- The listener pushes an entry that finds room. -/
def pushed (state : State) (entry : Entry) : State :=
  { state with
    queue := Function.update state.queue entry.queue
      (state.queue entry.queue ++ [⟨entry, state.pushes⟩])
    pushes := state.pushes + 1
    closings := state.closings ++ closing entry state.pushes }

def popped (state : State) (queue : Queue) (entries : List Stamped) : State :=
  { state with queue := Function.update state.queue queue entries }

def move (state : State) (stage : Stage) : State :=
  { state with stage := stage }

/-- `slot_call`, whatever the callback does. -/
def slotCall (state : State) (callback : Callback) (popped : Stamped) : State :=
  { state with calls := state.calls ++ [⟨callback, popped, state.began⟩] }

/-- A sweep between two queues: `visit` is where the loop over `m_events` goes on. -/
def goOn (state : State) (visit : Option (List Byte)) : Place → Option State
  | .slots [] =>
      if state.slots.onEvent then some (state.move (.between (.rest state.names)))
      else some (state.move (.between .server))
  | .slots ((_, false) :: todo) => some (state.move (.between (.slots todo)))
  | .slots ((name, true) :: todo) =>
      some ((state.touch name).move (.draining (.slot name) (.slots todo)))
  | .rest due =>
      match visit with
      | none => if due = [] then some (state.move (.between .server)) else none
      | some name =>
          if state.names.contains name then
            if (state.links.mLinks name).isNone then
              some (state.move (.draining (.onEvent name) (.rest (due.erase name))))
            else some (state.move (.between (.rest (due.erase name))))
          else none
  | .server =>
      if state.slots.onServerDisconnect then
        some (state.move (.draining .onServerDisconnect .connection))
      else some (state.move (.between .connection))
  | .connection =>
      if state.slots.onDisconnect then some (state.move (.draining .onDisconnect .done))
      else some (state.move (.between .done))
  | .done => some (state.move .idle)

end State

inductive Action where
  /-- The listener, or a thread that disconnects, comes to a push. -/
  | push (entry : Entry) (allocates : Bool)
  /-- Another consumer pops. -/
  | other (queue : Queue)
  /-- The consumer calls `consume_events`. -/
  | begin
  /-- The sweep goes on. -/
  | sweep (visit : Option (List Byte))
  /-- The sweep is at a `pop`, and the copy of the front throws. -/
  | popFails

def step (state : State) : Action → Option State
  | .push entry allocates =>
      if state.isFull entry.queue || !allocates then some (state.touchQueue entry.queue)
      else some ((state.touchQueue entry.queue).pushed entry)
  | .other queue => some (state.popped queue (state.queue queue).tail)
  | .begin =>
      match state.stage with
      | .idle =>
          some { state with
            stage := .between (.slots state.slots.mSlots.slots)
            began := state.pushes }
      | _ => none
  | .sweep visit =>
      match state.stage with
      | .idle => none
      | .between place => state.goOn visit place
      | .draining callback place =>
          match state.queue callback.queue with
          | [] => some (state.move (.between place))
          | entry :: entries =>
              some ((state.popped callback.queue entries).move (.calling callback entry place))
      | .calling callback popped place =>
          some ((state.slotCall callback popped).move (.draining callback place))
  | .popFails =>
      match state.stage with
      | .draining _ place => some (state.move (.between place))
      | _ => none

def State.start (mMaxQueueSize : ℕ) (slots : Slots) (links : Links) : State where
  mMaxQueueSize := mMaxQueueSize
  slots := slots
  links := links
  queue := fun _ => []
  names := []
  stage := .idle
  pushes := 0
  began := 0
  closings := []
  calls := []

/-- No event of a connection is pushed after its disconnect: the event loop reads
nothing from a connection it has closed, and no other thread disconnects one that
the loop is reading.  And each `pop` has the memory it needs, so that a sweep
leaves no queue before it is empty. -/
def Orderly (state : State) : Action → Prop
  | .push (.event item) _ => ∀ stamp, (item.cn, stamp) ∉ state.closings
  | .popFails => False
  | _ => True

/-! ## The invariant -/

/-- The names whose events the consumer takes. -/
def State.Takes (state : State) (name : List Byte) : Prop :=
  (name, true) ∈ state.slots.mSlots.slots ∨
    state.slots.onEvent = true ∧ state.links.mLinks name = none

/-- The queue of a name holds nothing from before a time. -/
def State.Clean (state : State) (time : ℕ) (name : List Byte) : Prop :=
  ∀ found ∈ state.queue (.event name), time ≤ found.stamp

/-- The queues a sweep has passed when it stands at a place. -/
def State.Past (state : State) (name : List Byte) : Place → Prop
  | .slots todo => (name, true) ∈ state.slots.mSlots.slots ∧ (name, true) ∉ todo
  | .rest due => (name, true) ∈ state.slots.mSlots.slots ∨ name ∉ due
  | .server | .connection | .done => True

def State.Passed (state : State) (name : List Byte) : Stage → Prop
  | .idle => False
  | .between place => state.Past name place
  | .draining callback place => callback.queue ≠ .event name ∧ state.Past name place
  | .calling callback _ place => callback.queue ≠ .event name ∧ state.Past name place

/-- What the thread has popped and not passed on. -/
def Stage.inHand : Stage → List Stamped
  | .calling _ popped _ => [popped]
  | _ => []

/-- A place belongs to a sweep of the consumer. -/
def State.SoundPlace (state : State) : Place → Prop
  | .slots todo => todo ⊆ state.slots.mSlots.slots
  | .rest _ => state.slots.onEvent = true
  | .server | .connection | .done => True

/-- A callback is one of the consumer, and a disconnect comes when all else is past. -/
def State.SoundCallback (state : State) (place : Place) : Callback → Prop
  | .slot name => (name, true) ∈ state.slots.mSlots.slots
  | .onEvent name => state.slots.onEvent = true ∧ state.links.mLinks name = none
  | .onServerDisconnect => place = .connection
  | .onDisconnect => place = .done

def State.Sound (state : State) : Stage → Prop
  | .idle => True
  | .between place => state.SoundPlace place
  | .draining callback place => state.SoundPlace place ∧ state.SoundCallback place callback
  | .calling callback popped place =>
      state.SoundPlace place ∧ state.SoundCallback place callback ∧
        popped.entry.queue = callback.queue

def Closes : Entry → Prop
  | .event _ => False
  | .server _ | .connection _ => True

/-- An entry that was pushed and not passed on. -/
def State.Waits (state : State) (found : Stamped) : Prop :=
  found ∈ state.stage.inHand ∨ ∃ queue, found ∈ state.queue queue

/-- What the queues hold was pushed onto them, before now. -/
structure Queues (state : State) : Prop where
  hbegan : state.began ≤ state.pushes
  hentries : ∀ queue, ∀ found ∈ state.queue queue, found.entry.queue = queue
  hstamps : ∀ found, state.Waits found → found.stamp < state.pushes
  hcalled : ∀ call ∈ state.calls, call.began ≤ state.pushes
  hnames : ∀ name, state.queue (.event name) ≠ [] → name ∈ state.names

structure Closings (state : State) : Prop where
  hlast : ∀ cn stamp, (cn, stamp) ∈ state.closings → ∀ found item, state.Waits found →
    found.entry = .event item → item.cn = cn → found.stamp < stamp
  hwaits : ∀ found cn, state.Waits found → found.entry = .connection cn →
    (cn, found.stamp) ∈ state.closings
  hcalls : ∀ call ∈ state.calls, ∀ cn, call.passed.entry = .connection cn →
    (cn, call.passed.stamp) ∈ state.closings

/-- Nothing older than its sweep is left behind a disconnect that was passed on. -/
def State.Behind (state : State) (call : Call) : Prop :=
  (∀ name, state.Takes name → state.Clean call.began name) ∧
    ∀ found ∈ state.stage.inHand, ¬ Closes found.entry → call.began ≤ found.stamp

/-- What holds of two calls in the order they were made. -/
def Ordered (earlier later : Call) : Prop :=
  (Closes earlier.passed.entry → ¬ Closes later.passed.entry →
    earlier.began ≤ later.passed.stamp) ∧
  ∀ cn item, earlier.passed.entry = .connection cn → later.passed.entry = .event item →
    item.cn = cn → earlier.began ≤ earlier.passed.stamp

structure Kept (state : State) : Prop where
  hqueues : Queues state
  hclosings : Closings state
  hsound : state.Sound state.stage
  hclean : ∀ name, state.Takes name → state.Passed name state.stage →
    state.Clean state.began name
  hbehind : ∀ call ∈ state.calls, Closes call.passed.entry → state.Behind call
  hordered : state.calls.Pairwise Ordered

/-! ## What a step can do -/

/-- What a sweep does between two queues: it enters a name or not, and comes to a
stage with nothing in hand; what it has passed it had passed before, or is not
in the map. -/
theorem goOn_cases {state next : State} {visit : Option (List Byte)} {place : Place}
    (hsound : state.SoundPlace place) (hnext : state.goOn visit place = some next) :
    ∃ stage, (next = state.move stage ∨ ∃ name, next = (state.touch name).move stage) ∧
      stage.inHand = [] ∧ state.Sound stage ∧
      ∀ name, state.Takes name → state.Passed name stage →
        state.Past name place ∨ name ∉ state.names := by
  cases place with
  | slots todo =>
      match todo with
      | [] =>
          rw [State.goOn] at hnext
          split at hnext
          · rename_i hslot
            obtain rfl := Option.some.inj hnext
            refine ⟨_, .inl rfl, rfl, hslot, fun name _ hpassed => ?_⟩
            exact hpassed.imp (fun hbound => ⟨hbound, List.not_mem_nil⟩) id
          · rename_i hslot
            obtain rfl := Option.some.inj hnext
            refine ⟨_, .inl rfl, rfl, trivial, fun name htakes _ => .inl ?_⟩
            exact ⟨htakes.resolve_right fun h => hslot h.1, List.not_mem_nil⟩
      | (other, false) :: todo =>
          obtain rfl := Option.some.inj hnext
          refine ⟨_, .inl rfl, rfl, fun slot hslot => hsound (List.mem_cons_of_mem _ hslot),
            fun name _ hpassed => .inl ⟨hpassed.1, ?_⟩⟩
          simpa using hpassed.2
      | (other, true) :: todo =>
          obtain rfl := Option.some.inj hnext
          refine ⟨_, .inr ⟨other, rfl⟩, rfl,
            ⟨fun slot hslot => hsound (List.mem_cons_of_mem _ hslot), hsound List.mem_cons_self⟩,
            fun name _ hpassed => .inl ⟨hpassed.2.1, ?_⟩⟩
          have hne : name ≠ other := fun h => hpassed.1 (h ▸ rfl)
          simpa [hne] using hpassed.2.2
  | rest due =>
      cases visit with
      | none =>
          obtain ⟨hdue, hsome⟩ := Option.ite_none_right_eq_some.mp hnext
          obtain rfl := Option.some.inj hsome
          exact ⟨_, .inl rfl, rfl, trivial, fun name _ _ => .inl (.inr (by simp [hdue]))⟩
      | some other =>
          obtain ⟨_, hvisit⟩ := Option.ite_none_right_eq_some.mp hnext
          split at hvisit
          · rename_i hlink
            obtain rfl := Option.some.inj hvisit
            refine ⟨_, .inl rfl, rfl, ⟨hsound, hsound, Option.isNone_iff_eq_none.mp hlink⟩,
              fun name _ hpassed => .inl ?_⟩
            have hne : name ≠ other := fun h => hpassed.1 (h ▸ rfl)
            exact hpassed.2.imp id fun hdue hmem => hdue ((List.mem_erase_of_ne hne).mpr hmem)
          · rename_i hlink
            obtain rfl := Option.some.inj hvisit
            refine ⟨_, .inl rfl, rfl, hsound, fun name htakes hpassed => .inl ?_⟩
            rcases htakes with hbound | ⟨_, hunlinked⟩
            · exact .inl hbound
            · have hne : name ≠ other := fun h => by simp [← h, hunlinked] at hlink
              exact hpassed.imp id fun hdue hmem => hdue ((List.mem_erase_of_ne hne).mpr hmem)
  | server =>
      rw [State.goOn] at hnext
      split at hnext <;> obtain rfl := Option.some.inj hnext
      · exact ⟨_, .inl rfl, rfl, ⟨trivial, rfl⟩, fun _ _ _ => .inl trivial⟩
      · exact ⟨_, .inl rfl, rfl, trivial, fun _ _ _ => .inl trivial⟩
  | connection =>
      rw [State.goOn] at hnext
      split at hnext <;> obtain rfl := Option.some.inj hnext
      · exact ⟨_, .inl rfl, rfl, ⟨trivial, rfl⟩, fun _ _ _ => .inl trivial⟩
      · exact ⟨_, .inl rfl, rfl, trivial, fun _ _ _ => .inl trivial⟩
  | done =>
      obtain rfl := Option.some.inj hnext
      exact ⟨_, .inl rfl, rfl, trivial, fun _ _ hpassed => hpassed.elim⟩

section Pieces

variable {state : State}

theorem Kept.touch (hkept : Kept state) (name : List Byte) : Kept (state.touch name) := by
  obtain ⟨⟨hbegan, hentries, hstamps, hcalled, hnames⟩, ⟨hlast, hwaits, hcalls⟩, hsound, hclean,
    hbehind, hordered⟩ := hkept
  refine ⟨⟨hbegan, hentries, hstamps, hcalled, fun other hother => ?_⟩, ⟨hlast, hwaits, hcalls⟩,
    hsound, hclean, hbehind, hordered⟩
  exact WakeUp.subset_touch name state.names (hnames other hother)

theorem Kept.touchQueue (hkept : Kept state) (queue : Queue) : Kept (state.touchQueue queue) := by
  cases queue with
  | event name => exact hkept.touch name
  | serverDisconnected => exact hkept
  | disconnected => exact hkept

theorem touchQueue_mem {queue : Queue} {name : List Byte} (hqueue : queue = .event name) :
    name ∈ (state.touchQueue queue).names := by
  subst hqueue
  exact WakeUp.mem_touch name state.names

/-- Queues may lose entries. -/
theorem Kept.shrink (hkept : Kept state) {queue : Queue → List Stamped}
    (hqueue : ∀ q, ∀ found ∈ queue q, found ∈ state.queue q) :
    Kept { state with queue := queue } := by
  obtain ⟨⟨hbegan, hentries, hstamps, hcalled, hnames⟩, ⟨hlast, hwaits, hcalls⟩, hsound, hclean,
    hbehind, hordered⟩ := hkept
  have hfound : ∀ found, State.Waits { state with queue := queue } found → state.Waits found :=
    fun found => Or.imp id fun ⟨q, hq⟩ => ⟨q, hqueue q found hq⟩
  refine ⟨⟨hbegan, fun q found hq => hentries q found (hqueue q found hq),
    fun found h => hstamps found (hfound found h), hcalled, fun name hne => hnames name ?_⟩,
    ⟨fun cn stamp hcn found item h => hlast cn stamp hcn found item (hfound found h),
      fun found cn h => hwaits found cn (hfound found h), hcalls⟩, hsound,
    fun name htakes hpassed found hq => hclean name htakes hpassed found (hqueue _ found hq),
    fun call hcall hcloses => ?_, hordered⟩
  · obtain ⟨found, hmem⟩ := List.exists_mem_of_ne_nil _ hne
    exact List.ne_nil_of_mem (hqueue _ found hmem)
  · obtain ⟨hold, hhand⟩ := hbehind call hcall hcloses
    exact ⟨fun name htakes found hq => hold name htakes found (hqueue _ found hq), hhand⟩

/-- A sweep goes on with nothing in hand. -/
theorem Kept.move (hkept : Kept state) {stage : Stage} (hhand : stage.inHand = [])
    (hsound : state.Sound stage)
    (hclean : ∀ name, state.Takes name → state.Passed name stage →
      state.Clean state.began name) : Kept (state.move stage) := by
  obtain ⟨⟨hbegan, hentries, hstamps, hcalled, hnames⟩, ⟨hlast, hwaits, hcalls⟩, _, _, hbehind,
    hordered⟩ := hkept
  have hfound : ∀ found, (state.move stage).Waits found → state.Waits found := by
    rintro found (hmem | hqueue)
    · rw [State.move, hhand] at hmem
      cases hmem
    · exact .inr hqueue
  refine ⟨⟨hbegan, hentries, fun found h => hstamps found (hfound found h), hcalled, hnames⟩,
    ⟨fun cn stamp hcn found item h => hlast cn stamp hcn found item (hfound found h),
      fun found cn h => hwaits found cn (hfound found h), hcalls⟩, hsound, hclean,
    fun call hcall hcloses => ⟨(hbehind call hcall hcloses).1, fun found hmem => ?_⟩, hordered⟩
  rw [State.move, hhand] at hmem
  cases hmem

/-- What is pushed comes after all that was pushed. -/
theorem Kept.pushed (hkept : Kept state) {entry : Entry} {allocates : Bool}
    (hname : ∀ name, entry.queue = .event name → name ∈ state.names)
    (horderly : Orderly state (.push entry allocates)) : Kept (state.pushed entry) := by
  obtain ⟨⟨hbegan, hentries, hstamps, hcalled, hnames⟩, ⟨hlast, hwaits, hcalls⟩, hsound, hclean,
    hbehind, hordered⟩ := hkept
  have hqueue : ∀ q, ∀ found ∈ (state.pushed entry).queue q,
      found ∈ state.queue q ∨ q = entry.queue ∧ found = ⟨entry, state.pushes⟩ := by
    intro q found hfound
    by_cases hsame : q = entry.queue
    · subst hsame
      change found ∈ Function.update state.queue _ _ _ at hfound
      rw [Function.update_self] at hfound
      exact (List.mem_append.mp hfound).imp id fun h => ⟨rfl, List.mem_singleton.mp h⟩
    · change found ∈ Function.update state.queue _ _ _ at hfound
      rw [Function.update_of_ne hsame] at hfound
      exact .inl hfound
  have hfound : ∀ found, (state.pushed entry).Waits found →
      state.Waits found ∨ found = ⟨entry, state.pushes⟩ := by
    rintro found (hhand | ⟨q, hq⟩)
    · exact .inl (.inl hhand)
    · exact (hqueue q found hq).imp (fun h => .inr ⟨q, h⟩) And.right
  refine ⟨⟨hbegan.trans (Nat.le_succ _), fun q found hq => ?_, fun found h => ?_,
    fun call hcall => (hcalled call hcall).trans (Nat.le_succ _), fun name hne => ?_⟩,
    ⟨fun cn stamp hcn found item h hitem hsame => ?_, fun found cn h hitem => ?_,
      fun call hcall cn hitem => List.mem_append_left _ (hcalls call hcall cn hitem)⟩, hsound,
    fun name htakes hpassed found hq => ?_, fun call hcall hcloses => ?_, hordered⟩
  · rcases hqueue q found hq with hold | ⟨rfl, rfl⟩
    · exact hentries q found hold
    · rfl
  · rcases hfound found h with hold | rfl
    · exact (hstamps found hold).trans (Nat.lt_succ_self _)
    · exact Nat.lt_succ_self _
  · by_cases hsame : Queue.event name = entry.queue
    · exact hname name hsame.symm
    · change Function.update state.queue _ _ _ ≠ [] at hne
      rw [Function.update_of_ne hsame] at hne
      exact hnames name hne
  · rcases List.mem_append.mp hcn with hold | hnew
    · rcases hfound found h with hbefore | rfl
      · exact hlast cn stamp hold found item hbefore hitem hsame
      · subst hitem hsame
        exact absurd hold (horderly stamp)
    · cases entry with
      | connection other =>
          obtain ⟨rfl, rfl⟩ := Prod.mk.inj (List.mem_singleton.mp hnew)
          rcases hfound found h with hbefore | rfl
          · exact hstamps found hbefore
          · cases hitem
      | event other => cases hnew
      | server other => cases hnew
  · rcases hfound found h with hold | rfl
    · exact List.mem_append_left _ (hwaits found cn hold hitem)
    · subst hitem
      exact List.mem_append_right _ (List.mem_singleton_self _)
  · rcases hqueue _ found hq with hold | ⟨_, rfl⟩
    · exact hclean name htakes hpassed found hold
    · exact hbegan
  · obtain ⟨hold, hhand⟩ := hbehind call hcall hcloses
    refine ⟨fun name htakes found hq => ?_, hhand⟩
    rcases hqueue _ found hq with hbefore | ⟨_, rfl⟩
    · exact hold name htakes found hbefore
    · exact hcalled call hcall

/-- An event comes from a queue that the consumer takes. -/
theorem State.SoundCallback.takes {place : Place} {callback : Callback}
    (hsound : state.SoundCallback place callback) {entry : Entry}
    (hqueue : entry.queue = callback.queue) (hcloses : ¬ Closes entry) :
    ∃ name, callback.queue = .event name ∧ state.Takes name := by
  cases callback with
  | slot name => exact ⟨name, rfl, .inl hsound⟩
  | onEvent name => exact ⟨name, rfl, .inr hsound⟩
  | onServerDisconnect =>
      cases entry with
      | event item => cases hqueue
      | _ => exact absurd trivial hcloses
  | onDisconnect =>
      cases entry with
      | event item => cases hqueue
      | _ => exact absurd trivial hcloses

/-- The thread takes an entry into its hand. -/
theorem Kept.pop (hkept : Kept state) {callback : Callback} {place : Place}
    (hstage : state.stage = .draining callback place) {found : Stamped} {entries : List Stamped}
    (hqueue : state.queue callback.queue = found :: entries) :
    Kept ((state.popped callback.queue entries).move (.calling callback found place)) := by
  have hhead : found ∈ state.queue callback.queue := hqueue ▸ List.mem_cons_self
  have hless : ∀ q, ∀ other ∈ (state.popped callback.queue entries).queue q,
      other ∈ state.queue q := by
    intro q other hother
    by_cases hsame : q = callback.queue
    · subst hsame
      change other ∈ Function.update state.queue _ _ _ at hother
      rw [Function.update_self] at hother
      exact hqueue ▸ List.mem_cons_of_mem found hother
    · change other ∈ Function.update state.queue _ _ _ at hother
      rwa [Function.update_of_ne hsame] at hother
  have hsound := hkept.hsound
  have hpassed := hkept.hclean
  rw [hstage] at hsound hpassed
  have hkind := hkept.hqueues.hentries _ found hhead
  have hwaits : ∀ other, State.Waits
      ((state.popped callback.queue entries).move (.calling callback found place)) other →
      state.Waits other := by
    rintro other (hhand | ⟨q, hq⟩)
    · obtain rfl := List.mem_singleton.mp hhand
      exact .inr ⟨_, hhead⟩
    · exact .inr ⟨q, hless q other hq⟩
  obtain ⟨⟨hbegan, hentries, hstamps, hcalled, hnames⟩, ⟨hlast, hclosings, hcalls⟩, _, _, hbehind,
    hordered⟩ := hkept.shrink hless
  refine ⟨⟨hbegan, hentries, fun other h => hkept.hqueues.hstamps other (hwaits other h), hcalled,
    hnames⟩, ⟨fun cn stamp hcn other item h => hkept.hclosings.hlast cn stamp hcn other item
      (hwaits other h), fun other cn h => hkept.hclosings.hwaits other cn (hwaits other h), hcalls⟩,
    ⟨hsound.1, hsound.2, hkind⟩, fun name htakes hpast other hother =>
      hpassed name htakes hpast other (hless _ other hother), fun call hcall hcloses =>
      ⟨(hbehind call hcall hcloses).1, fun other hother hevent => ?_⟩, hordered⟩
  obtain rfl := List.mem_singleton.mp hother
  obtain ⟨name, hname, htakes⟩ := hsound.2.takes hkind hevent
  exact (hkept.hbehind call hcall hcloses).1 name htakes other (hname ▸ hhead)

/-- What is in hand is passed on. -/
theorem Kept.call (hkept : Kept state) {callback : Callback} {popped : Stamped} {place : Place}
    (hstage : state.stage = .calling callback popped place) :
    Kept ((state.slotCall callback popped).move (.draining callback place)) := by
  have hhand : popped ∈ state.stage.inHand := by
    rw [hstage]
    exact List.mem_singleton_self popped
  have hsound := hkept.hsound
  have hpassed := hkept.hclean
  rw [hstage] at hsound hpassed
  obtain ⟨hplace, hcallback, hkind⟩ := hsound
  obtain ⟨hqueues, hclosings, _, _, hbehind, hordered⟩ := hkept
  have hwaits : ∀ other, State.Waits
      ((state.slotCall callback popped).move (.draining callback place)) other →
      state.Waits other := by
    rintro other (hmem | hq)
    · cases hmem
    · exact .inr hq
  have hcalls : ∀ call ∈ state.calls ++ [⟨callback, popped, state.began⟩],
      call ∈ state.calls ∨ call = ⟨callback, popped, state.began⟩ := fun call hcall =>
    (List.mem_append.mp hcall).imp id List.mem_singleton.mp
  refine ⟨⟨hqueues.hbegan, hqueues.hentries, fun other h => hqueues.hstamps other (hwaits other h),
    fun call hcall => ?_, hqueues.hnames⟩, ⟨fun cn stamp hcn other item h =>
      hclosings.hlast cn stamp hcn other item (hwaits other h), fun other cn h =>
      hclosings.hwaits other cn (hwaits other h), fun call hcall cn hitem => ?_⟩,
    ⟨hplace, hcallback⟩, hpassed, fun call hcall hcloses => ?_, ?_⟩
  · rcases hcalls call hcall with hold | rfl
    · exact hqueues.hcalled call hold
    · exact hqueues.hbegan
  · rcases hcalls call hcall with hold | rfl
    · exact hclosings.hcalls call hold cn hitem
    · exact hclosings.hwaits popped cn (.inl hhand) hitem
  · rcases hcalls call hcall with hold | rfl
    · exact ⟨(hbehind call hold hcloses).1, fun other hother => by cases hother⟩
    · refine ⟨fun name htakes => hpassed name htakes ⟨fun hsame => ?_, ?_⟩,
        fun other hother => by cases hother⟩
      · cases hentry : popped.entry with
        | event item => simp [hentry, Closes] at hcloses
        | server other => simp [hentry, Entry.queue, hsame] at hkind
        | connection other => simp [hentry, Entry.queue, hsame] at hkind
      · cases callback with
        | slot name =>
            cases hentry : popped.entry with
            | event item => simp [hentry, Closes] at hcloses
            | _ => simp [hentry, Entry.queue, Callback.queue] at hkind
        | onEvent name =>
            cases hentry : popped.entry with
            | event item => simp [hentry, Closes] at hcloses
            | _ => simp [hentry, Entry.queue, Callback.queue] at hkind
        | onServerDisconnect =>
            have hend : place = .connection := hcallback
            rw [hend]
            trivial
        | onDisconnect =>
            have hend : place = .done := hcallback
            rw [hend]
            trivial
  · refine List.pairwise_append.mpr ⟨hordered, List.pairwise_singleton _ _,
      fun earlier hearlier later hlater => ?_⟩
    obtain rfl := List.mem_singleton.mp hlater
    have hfirst : Closes earlier.passed.entry → ¬ Closes popped.entry →
        earlier.began ≤ popped.stamp := fun hcloses hevent =>
      (hbehind earlier hearlier hcloses).2 popped hhand hevent
    refine ⟨hfirst, fun cn item hconnection hevent hsame => ?_⟩
    have hbegan := hfirst (by rw [hconnection]; trivial) (by rw [hevent]; exact id)
    have hclosed := hclosings.hcalls earlier hearlier cn hconnection
    have hstamp := hclosings.hlast cn _ hclosed popped item (.inl hhand) hevent hsame
    omega

/-- A sweep begins with everything still to pass. -/
theorem Kept.begin (hkept : Kept state) :
    Kept { state with
      stage := .between (.slots state.slots.mSlots.slots)
      began := state.pushes } := by
  obtain ⟨⟨_, hentries, hstamps, hcalled, hnames⟩, ⟨hlast, hwaits, hcalls⟩, _, _, hbehind,
    hordered⟩ := hkept
  have hfound : ∀ found, State.Waits { state with
      stage := .between (.slots state.slots.mSlots.slots)
      began := state.pushes } found → state.Waits found := by
    rintro found (hmem | hqueue)
    · cases hmem
    · exact .inr hqueue
  refine ⟨⟨le_rfl, hentries, fun found h => hstamps found (hfound found h), hcalled, hnames⟩,
    ⟨fun cn stamp hcn found item h => hlast cn stamp hcn found item (hfound found h),
      fun found cn h => hwaits found cn (hfound found h), hcalls⟩, List.Subset.refl _,
    fun name _ hpassed => absurd hpassed.1 hpassed.2,
    fun call hcall hcloses => ⟨(hbehind call hcall hcloses).1, fun found hmem => ?_⟩, hordered⟩
  cases hmem

end Pieces

/-! ## Runs -/

section Runs

variable {state next : State}

theorem kept_start (mMaxQueueSize : ℕ) (slots : Slots) (links : Links) :
    Kept (.start mMaxQueueSize slots links) := by
  have hwaits : ∀ found, ¬ (State.start mMaxQueueSize slots links).Waits found := by
    rintro found (h | ⟨q, h⟩) <;> cases h
  exact ⟨⟨le_rfl, nofun, fun found h => absurd h (hwaits found), nofun,
    fun name h => absurd rfl h⟩, ⟨nofun, fun found cn h => absurd h (hwaits found), nofun⟩,
    trivial, fun name _ hpassed => hpassed.elim, nofun, .nil⟩

/-- Pushes, pops and calls keep the order of the calls made so far. -/
theorem Kept.step (hkept : Kept state) {action : Action} (horderly : Orderly state action)
    (hnext : step state action = some next) : Kept next := by
  cases action with
  | push entry allocates =>
      rw [Sweep.step] at hnext
      split at hnext
      · obtain rfl := Option.some.inj hnext
        exact hkept.touchQueue entry.queue
      · obtain rfl := Option.some.inj hnext
        have hsame : Orderly (state.touchQueue entry.queue) (.push entry allocates) := by
          cases entry <;> exact horderly
        exact (hkept.touchQueue entry.queue).pushed (fun name hname => touchQueue_mem hname) hsame
  | other queue =>
      obtain rfl := Option.some.inj hnext
      refine hkept.shrink fun q found hfound => ?_
      by_cases hsame : q = queue
      · subst hsame
        rw [Function.update_self] at hfound
        exact List.mem_of_mem_tail hfound
      · rwa [Function.update_of_ne hsame] at hfound
  | begin =>
      rw [Sweep.step] at hnext
      split at hnext
      · obtain rfl := Option.some.inj hnext
        exact hkept.begin
      · cases hnext
  | popFails => exact absurd horderly id
  | sweep visit =>
      rw [Sweep.step] at hnext
      split at hnext
      · cases hnext
      · rename_i place hstage
        have hsound := hkept.hsound
        have hpassed := hkept.hclean
        rw [hstage] at hsound hpassed
        obtain ⟨stage, hmoved, hhand, hstill, hpast⟩ := goOn_cases hsound hnext
        have hclean : ∀ name, state.Takes name → state.Passed name stage →
            state.Clean state.began name := fun name htakes hdone => by
          rcases hpast name htakes hdone with hbefore | habsent
          · exact hpassed name htakes hbefore
          · intro found hfound
            exact absurd (hkept.hqueues.hnames name (List.ne_nil_of_mem hfound)) habsent
        rcases hmoved with rfl | ⟨name, rfl⟩
        · exact hkept.move hhand hstill hclean
        · exact (hkept.touch name).move hhand hstill hclean
      · rename_i callback place hstage
        split at hnext
        · rename_i hempty
          obtain rfl := Option.some.inj hnext
          have hsound := hkept.hsound
          have hpassed := hkept.hclean
          rw [hstage] at hsound hpassed
          refine hkept.move rfl hsound.1 fun name htakes hpast => ?_
          by_cases hsame : callback.queue = .event name
          · intro found hfound
            rw [hsame] at hempty
            rw [hempty] at hfound
            cases hfound
          · exact hpassed name htakes ⟨hsame, hpast⟩
        · rename_i entry entries hqueue
          obtain rfl := Option.some.inj hnext
          exact hkept.pop hstage hqueue
      · rename_i callback popped place hstage
        obtain rfl := Option.some.inj hnext
        exact hkept.call hstage

/-- In every run, an event that is passed on behind a call of `on_disconnect` or
`on_server_disconnect` was pushed after the sweep of that call began; and an event
of a connection comes behind its disconnect only if that was pushed while its sweep
was running. -/
theorem ordered_of_reaches {mMaxQueueSize : ℕ} {slots : Slots} {links : Links}
    (hreaches : Reaches step Orderly (.start mMaxQueueSize slots links) state) :
    state.calls.Pairwise Ordered := by
  have hkept : Kept state := hreaches.invariant
    (fun hkept horderly hnext => hkept.step horderly hnext) (kept_start _ _ _)
  exact hkept.hordered

end Runs

def byeSlots : Slots :=
  ⟨true, false, false, ⟨[([112], true)], by decide⟩⟩

/-- A connection sends an event and closes while a sweep is past the queue of the
event; the next sweep passes the event on behind the disconnect. -/
def overtaken : List Action :=
  [.begin, .sweep none, .sweep none, .push (.event ⟨5, ⟨[112], []⟩⟩) true,
    .push (.connection 5) true] ++ List.replicate 7 (.sweep none) ++
    .begin :: List.replicate 3 (.sweep none)

theorem ordered_of_reaches_overtaken :
    ∃ state, Reaches step Orderly (.start 0 byeSlots Links.clear) state ∧
      state.calls = [⟨.onDisconnect, ⟨.connection 5, 1⟩, 0⟩,
        ⟨.slot [112], ⟨.event ⟨5, ⟨[112], []⟩⟩, 0⟩, 2⟩] ∧
      state.calls.Pairwise Ordered := by
  have hrun : (run step (.start 0 byeSlots Links.clear) overtaken).map State.calls =
      some [⟨.onDisconnect, ⟨.connection 5, 1⟩, 0⟩,
        ⟨.slot [112], ⟨.event ⟨5, ⟨[112], []⟩⟩, 0⟩, 2⟩] := by
    decide +kernel
  obtain ⟨state, hrun, hcalls⟩ := Option.map_eq_some_iff.mp hrun
  have hmeets : Meets step Orderly (.start 0 byeSlots Links.clear) overtaken := by
    refine ⟨trivial, trivial, trivial, nofun, trivial, ?_⟩
    exact meets_of_forall (by simp [Orderly]) _
  have hreaches := Reaches.of_run hrun hmeets
  exact ⟨state, hreaches, hcalls, ordered_of_reaches hreaches⟩

end Sednl.Sweep
