import Sednl.Net.Dispatch

/-!
# The bound on the queues

`max_queue_size` bounds the queues of a listener.  Each producer looks at the
size of a queue with `is_full` and pushes afterwards; the mutex of the queue is
free in between, and `is_full` lets a push through as long as the size is not
above the bound.  The listener fills all queues, and any thread that calls
`Connection::disconnect` fills the queue of disconnected connections.
-/

namespace Sednl.QueueBound

open Sednl.Tag
open Sednl.Transition
open Sednl.Dispatch (Queue Entry)

/-- The queues of a listener, the entry for which the listener has passed the
test of `is_full`, and the connections for which other threads have. -/
structure State where
  mMaxQueueSize : ℕ
  entries : Queue → List Entry
  pushing : Option Entry
  telling : List ℕ

namespace State

def isFull (state : State) (queue : Queue) : Bool :=
  Dispatch.isFull (state.entries queue) state.mMaxQueueSize

/-- `SafeQueue::push`; it fails when it cannot allocate. -/
def push (state : State) (entry : Entry) (allocates : Bool) : State :=
  if allocates then
    { state with
      entries := Function.update state.entries entry.queue
        (state.entries entry.queue ++ [entry]) }
  else state

end State

inductive Action where
  /-- `is_full`, in `read_connection` or `disconnected_event` of the listener. -/
  | check (entry : Entry)
  /-- The push after it. -/
  | push (allocates : Bool)
  /-- `is_full`, in a call of `Connection::disconnect` by another thread. -/
  | checkTold (cn : ℕ)
  /-- The push after it. -/
  | pushTold (cn : ℕ) (allocates : Bool)
  /-- A consumer pops from a queue. -/
  | pop (queue : Queue)
  deriving DecidableEq, Repr

/-- The steps of the producers and of the consumers.  The entry is lost where
the queue is full. -/
def step (state : State) : Action → Option State
  | .check entry =>
      match state.pushing with
      | none =>
          if state.isFull entry.queue then some state
          else some { state with pushing := some entry }
      | some _ => none
  | .push allocates =>
      match state.pushing with
      | none => none
      | some entry => some { state.push entry allocates with pushing := none }
  | .checkTold cn =>
      if state.isFull .disconnected then some state
      else some { state with telling := cn :: state.telling }
  | .pushTold cn allocates =>
      if cn ∈ state.telling then
        some { state.push (.connection cn) allocates with telling := state.telling.erase cn }
      else none
  | .pop queue =>
      some { state with
        entries := Function.update state.entries queue (state.entries queue).tail }

/-! ## The bound -/

/-- The pushes onto a queue that have passed the test. -/
def State.pending (state : State) (queue : Queue) : ℕ :=
  (if state.pushing.map Entry.queue = some queue then 1 else 0) +
    if queue = .disconnected then state.telling.length else 0

def State.Bounded (state : State) : Prop :=
  ∀ queue, (state.entries queue).length ≤ state.mMaxQueueSize

/-- There is room for one more entry, besides those that are under way. -/
def State.hasRoom (state : State) (queue : Queue) : Bool :=
  (state.entries queue).length + state.pending queue < state.mMaxQueueSize

/-- When a step is safe: a test that lets a push through finds room for it. -/
def Safe (state : State) : Action → Prop
  | .check entry => state.isFull entry.queue = true ∨ state.hasRoom entry.queue = true
  | .checkTold _ => state.isFull .disconnected = true ∨ state.hasRoom .disconnected = true
  | .push _ | .pushTold _ _ | .pop _ => True

instance (state : State) : (action : Action) → Decidable (Safe state action)
  | .check _ => inferInstanceAs (Decidable (_ ∨ _))
  | .checkTold _ => inferInstanceAs (Decidable (_ ∨ _))
  | .push _ | .pushTold _ _ | .pop _ => .isTrue trivial

/-- The pushes that are under way are made, and nothing else. -/
def Pushing (_ : State) : Action → Prop
  | .push _ | .pushTold _ _ => True
  | .check _ | .checkTold _ | .pop _ => False

/-- A listener with a bound, its queues empty. -/
structure State.Starts (state : State) : Prop where
  hmax : 0 < state.mMaxQueueSize
  hempty : ∀ queue, state.entries queue = []
  hpushing : state.pushing = none
  htelling : state.telling = []

/-- What the steps keep: there is room for all that is under way. -/
def Roomy (state : State) : Prop :=
  ∀ queue, (state.entries queue).length + state.pending queue ≤ state.mMaxQueueSize

section Steps

variable {state next : State} {queue : Queue} {entry : Entry}

theorem State.push_entries_self :
    ((state.push entry true).entries entry.queue).length =
      (state.entries entry.queue).length + 1 := by
  change (Function.update state.entries entry.queue _ entry.queue).length = _
  rw [Function.update_self, List.length_append, List.length_singleton]

theorem State.push_entries_of_ne (hne : queue ≠ entry.queue) (allocates : Bool) :
    (state.push entry allocates).entries queue = state.entries queue := by
  cases allocates with
  | true => exact Function.update_of_ne hne _ _
  | false => rfl

/-- A push makes its queue longer by at most one. -/
theorem State.length_push_le (allocates : Bool) :
    ((state.push entry allocates).entries entry.queue).length ≤
      (state.entries entry.queue).length + 1 := by
  cases allocates with
  | true => exact State.push_entries_self.le
  | false => exact Nat.le_succ _

theorem State.pending_check (hfree : state.pushing = none) :
    State.pending { state with pushing := some entry } queue =
      state.pending queue + if entry.queue = queue then 1 else 0 := by
  rw [State.pending, State.pending, hfree, Option.map_some, Option.map_none,
    if_neg (Option.some_ne_none queue).symm, Nat.zero_add, Nat.add_comm]
  simp only [Option.some.injEq]

theorem State.pending_push (hpushing : state.pushing = some entry) :
    state.pending queue =
      State.pending { state with pushing := none } queue +
        if entry.queue = queue then 1 else 0 := by
  have hfree : State.pushing { state with pushing := none } = none := rfl
  rw [← State.pending_check hfree, ← hpushing]

theorem State.pending_checkTold (cn : ℕ) :
    State.pending { state with telling := cn :: state.telling } queue =
      state.pending queue + if queue = .disconnected then 1 else 0 := by
  rw [State.pending, State.pending, List.length_cons]
  by_cases hqueue : queue = .disconnected
  · rw [if_pos hqueue, if_pos hqueue, if_pos hqueue, Nat.add_assoc]
  · rw [if_neg hqueue, if_neg hqueue, if_neg hqueue, Nat.add_zero]

theorem State.pending_pushTold {cn : ℕ} (hcn : cn ∈ state.telling) :
    state.pending queue =
      State.pending { state with telling := state.telling.erase cn } queue +
        if queue = .disconnected then 1 else 0 := by
  rw [State.pending, State.pending, List.length_erase_of_mem hcn]
  by_cases hqueue : queue = .disconnected
  · rw [if_pos hqueue, if_pos hqueue, if_pos hqueue, Nat.add_assoc,
      Nat.sub_add_cancel (List.length_pos_of_mem hcn)]
  · rw [if_neg hqueue, if_neg hqueue, if_neg hqueue, Nat.add_zero]

theorem State.lengthened_le (allocates : Bool) (queue : Queue) :
    ((state.push entry allocates).entries queue).length ≤
      (state.entries queue).length + if entry.queue = queue then 1 else 0 := by
  by_cases hqueue : queue = entry.queue
  · subst hqueue
    rw [if_pos rfl]
    exact State.length_push_le allocates
  · rw [State.push_entries_of_ne hqueue, if_neg (Ne.symm hqueue), Nat.add_zero]

theorem State.lt_of_hasRoom (hroom : state.hasRoom queue = true) :
    (state.entries queue).length + state.pending queue < state.mMaxQueueSize :=
  of_decide_eq_true hroom

theorem Roomy.check (hroomy : Roomy state) (hfree : state.pushing = none)
    (hroom : state.hasRoom entry.queue = true) :
    Roomy { state with pushing := some entry } := by
  intro queue
  rw [State.pending_check hfree]
  split
  · rename_i hqueue
    subst hqueue
    exact State.lt_of_hasRoom hroom
  · exact hroomy queue

theorem Roomy.checkTold (hroomy : Roomy state) (hroom : state.hasRoom .disconnected = true)
    (cn : ℕ) : Roomy { state with telling := cn :: state.telling } := by
  intro queue
  rw [State.pending_checkTold]
  split
  · rename_i hqueue
    subst hqueue
    exact State.lt_of_hasRoom hroom
  · exact hroomy queue

theorem Roomy.push (hroomy : Roomy state) (hpushing : state.pushing = some entry)
    (allocates : Bool) : Roomy { state.push entry allocates with pushing := none } := by
  intro queue
  have hbefore := hroomy queue
  rw [State.pending_push hpushing, ← Nat.add_assoc, Nat.add_right_comm] at hbefore
  have hlonger := @State.lengthened_le state entry allocates queue
  have hpending : State.pending { state.push entry allocates with pushing := none } queue =
      State.pending { state with pushing := none } queue := by
    cases allocates with
    | true => rfl
    | false => rfl
  have hsame : State.mMaxQueueSize { state.push entry allocates with pushing := none } =
      state.mMaxQueueSize := by
    cases allocates with
    | true => rfl
    | false => rfl
  rw [hpending, hsame]
  exact (Nat.add_le_add_right hlonger _).trans hbefore

theorem Roomy.pushTold (hroomy : Roomy state) {cn : ℕ} (hcn : cn ∈ state.telling)
    (allocates : Bool) :
    Roomy { state.push (.connection cn) allocates with telling := state.telling.erase cn } := by
  intro queue
  have hbefore := hroomy queue
  rw [State.pending_pushTold hcn, ← Nat.add_assoc, Nat.add_right_comm] at hbefore
  have hlonger := @State.lengthened_le state (.connection cn) allocates queue
  have hpending : State.pending
      { state.push (.connection cn) allocates with telling := state.telling.erase cn } queue =
      State.pending { state with telling := state.telling.erase cn } queue := by
    cases allocates with
    | true => rfl
    | false => rfl
  have hsame : State.mMaxQueueSize
      { state.push (.connection cn) allocates with telling := state.telling.erase cn } =
      state.mMaxQueueSize := by
    cases allocates with
    | true => rfl
    | false => rfl
  have hqueue : (if Entry.queue (.connection cn) = queue then 1 else 0) =
      if queue = .disconnected then 1 else 0 :=
    if_congr eq_comm rfl rfl
  rw [hqueue] at hlonger
  rw [hpending, hsame]
  exact (Nat.add_le_add_right hlonger _).trans hbefore

theorem Roomy.pop (hroomy : Roomy state) (popped : Queue) :
    Roomy { state with
      entries := Function.update state.entries popped (state.entries popped).tail } := by
  intro queue
  refine le_trans (Nat.add_le_add_right ?_ _) (hroomy queue)
  change (Function.update state.entries popped _ queue).length ≤ _
  by_cases hqueue : queue = popped
  · subst hqueue
    rw [Function.update_self, List.length_tail]
    exact Nat.sub_le _ _
  · rw [Function.update_of_ne hqueue]

theorem Roomy.step (hroomy : Roomy state) {action : Action} (hsafe : Safe state action)
    (hnext : step state action = some next) : Roomy next := by
  cases action with
  | check entry =>
      rw [QueueBound.step] at hnext
      split at hnext
      · rename_i hfree
        split at hnext
        · obtain rfl := Option.some.inj hnext
          exact hroomy
        · rename_i hopen
          obtain rfl := Option.some.inj hnext
          exact hroomy.check hfree (hsafe.resolve_left hopen)
      · cases hnext
  | push allocates =>
      rw [QueueBound.step] at hnext
      split at hnext
      · cases hnext
      · rename_i entry hpushing
        obtain rfl := Option.some.inj hnext
        exact hroomy.push hpushing allocates
  | checkTold cn =>
      rw [QueueBound.step] at hnext
      split at hnext
      · obtain rfl := Option.some.inj hnext
        exact hroomy
      · rename_i hopen
        obtain rfl := Option.some.inj hnext
        exact hroomy.checkTold (hsafe.resolve_left hopen) cn
  | pushTold cn allocates =>
      obtain ⟨hcn, hsome⟩ := Option.ite_none_right_eq_some.mp hnext
      obtain rfl := Option.some.inj hsome
      exact hroomy.pushTold hcn allocates
  | pop queue =>
      obtain rfl := Option.some.inj hnext
      exact hroomy.pop queue

theorem Roomy.bounded (hroomy : Roomy state) : state.Bounded :=
  fun queue => (Nat.le_add_right _ _).trans (hroomy queue)

theorem State.Starts.roomy (hstarts : state.Starts) : Roomy state := by
  intro queue
  rw [hstarts.hempty, State.pending, hstarts.hpushing, hstarts.htelling]
  simp

/-! ## The pushes that are under way -/

theorem safe_of_pushing {action : Action} (hpushing : Pushing state action) :
    Safe state action := by
  cases action with
  | push allocates => trivial
  | pushTold cn allocates => trivial
  | check entry => exact hpushing.elim
  | checkTold cn => exact hpushing.elim
  | pop queue => exact hpushing.elim

/-- All pushes of other threads go through. -/
theorem exists_told (queue : Queue) : ∃ last, Reaches step Pushing state last ∧
    last.pushing = state.pushing ∧ last.telling = [] ∧ last.mMaxQueueSize = state.mMaxQueueSize ∧
    (last.entries queue).length = (state.entries queue).length +
      if queue = .disconnected then state.telling.length else 0 := by
  obtain ⟨mMaxQueueSize, entries, pushing, telling⟩ := state
  induction telling generalizing entries with
  | nil => exact ⟨_, .refl, rfl, rfl, rfl, by simp⟩
  | cons cn telling ih =>
      obtain ⟨last, hreaches, hpushing, htelling, hmax, hlength⟩ :=
        ih (State.push ⟨mMaxQueueSize, entries, pushing, telling⟩ (.connection cn) true).entries
      refine ⟨last, .head ⟨.pushTold cn true, trivial, ?_⟩ hreaches, hpushing, htelling, hmax, ?_⟩
      · rw [QueueBound.step, if_pos List.mem_cons_self, List.erase_cons_head]
        rfl
      · rw [hlength]
        by_cases hqueue : queue = .disconnected
        · subst hqueue
          have hpush := @State.push_entries_self ⟨mMaxQueueSize, entries, pushing, telling⟩
            (.connection cn)
          rw [if_pos rfl, if_pos rfl, List.length_cons, Nat.add_comm telling.length,
            ← Nat.add_assoc]
          exact congrArg (· + telling.length) hpush
        · have hpush := @State.push_entries_of_ne ⟨mMaxQueueSize, entries, pushing, telling⟩ queue
            (.connection cn) hqueue true
          rw [if_neg hqueue, if_neg hqueue]
          exact congrArg List.length hpush

/-- The queue grows by all the pushes onto it that are under way. -/
theorem exists_pushed (queue : Queue) : ∃ last, Reaches step Pushing state last ∧
    last.mMaxQueueSize = state.mMaxQueueSize ∧
    (last.entries queue).length = (state.entries queue).length + state.pending queue := by
  obtain ⟨last, hreaches, hpushing, _, hmax, hlength⟩ := @exists_told state queue
  have hcount : (state.entries queue).length + state.pending queue =
      (last.entries queue).length +
        if last.pushing.map Entry.queue = some queue then 1 else 0 := by
    rw [State.pending, hlength, hpushing, Nat.add_assoc]
    exact congrArg _ (Nat.add_comm _ _)
  rw [hcount]
  cases hentry : last.pushing with
  | none =>
      refine ⟨last, hreaches, hmax, ?_⟩
      rw [Option.map_none, if_neg (Option.some_ne_none queue).symm, Nat.add_zero]
  | some entry =>
      have hstep : step last (.push true) =
          some { last.push entry true with pushing := none } := by
        rw [QueueBound.step, hentry]
      refine ⟨_, hreaches.tail ⟨.push true, trivial, hstep⟩, hmax, ?_⟩
      by_cases hqueue : queue = entry.queue
      · subst hqueue
        rw [Option.map_some, if_pos rfl]
        exact State.push_entries_self
      · have hne : ¬ Option.map Entry.queue (some entry) = some queue := fun hsame =>
          hqueue (Option.some.inj hsame).symm
        rw [if_neg hne]
        exact congrArg List.length (State.push_entries_of_ne hqueue true)

/-- Where there is no room for what is under way, the pushes break the bound. -/
theorem not_bounded_of_not_roomy (hroomy : ¬ Roomy state) :
    ∃ last, Reaches step Pushing state last ∧ ¬ last.Bounded := by
  rw [Roomy, not_forall] at hroomy
  obtain ⟨queue, hroomy⟩ := hroomy
  obtain ⟨last, hreaches, hmax, hlength⟩ := @exists_pushed state queue
  refine ⟨last, hreaches, fun hbounded => hroomy ?_⟩
  rw [← hlength, ← hmax]
  exact hbounded queue

theorem safe_of_roomy {action : Action} (hnext : step state action = some next)
    (hroomy : Roomy next) : Safe state action := by
  cases action with
  | check entry =>
      rw [QueueBound.step] at hnext
      split at hnext
      · rename_i hfree
        split at hnext
        · rename_i hfull
          exact .inl hfull
        · obtain rfl := Option.some.inj hnext
          have hroom := hroomy entry.queue
          rw [State.pending_check hfree, if_pos rfl] at hroom
          exact .inr (decide_eq_true hroom)
      · cases hnext
  | checkTold cn =>
      rw [QueueBound.step] at hnext
      split at hnext
      · rename_i hfull
        exact .inl hfull
      · obtain rfl := Option.some.inj hnext
        have hroom := hroomy .disconnected
        rw [State.pending_checkTold, if_pos rfl] at hroom
        exact .inr (decide_eq_true hroom)
  | push allocates => trivial
  | pushTold cn allocates => trivial
  | pop queue => trivial

end Steps

/-- While each test that lets a push through finds room for it, no queue grows
over the bound; and a test that does not is followed by pushes that break it. -/
theorem bounded_of_reaches {start state : State} (hstarts : start.Starts)
    (hreaches : Reaches step Safe start state) :
    state.Bounded ∧ ∀ action next, step state action = some next →
      ((∀ last, Reaches step Pushing next last → last.Bounded) ↔ Safe state action) := by
  have hroomy : Roomy state :=
    hreaches.invariant (fun hroomy hsafe hnext => hroomy.step hsafe hnext) hstarts.roomy
  refine ⟨hroomy.bounded, fun action next hnext => ⟨fun hbounded => ?_, fun hsafe last hlast => ?_⟩⟩
  · by_contra hunsure
    have hfull : ¬ Roomy next := fun hroomy => hunsure (safe_of_roomy hnext hroomy)
    obtain ⟨last, hlast, hbroken⟩ := not_bounded_of_not_roomy hfull
    exact hbroken (hbounded last hlast)
  · have hlasts : Roomy last :=
      hlast.invariant (fun hroomy hpushing hnext => hroomy.step (safe_of_pushing hpushing) hnext)
        (hroomy.step hsafe hnext)
    exact hlasts.bounded

/-- A listener with bound `mMaxQueueSize` that has received nothing. -/
def fresh (mMaxQueueSize : ℕ) : State :=
  ⟨mMaxQueueSize, fun _ => [], none, []⟩

theorem starts_fresh {mMaxQueueSize : ℕ} (hmax : 0 < mMaxQueueSize) :
    (fresh mMaxQueueSize).Starts :=
  ⟨hmax, fun _ => rfl, rfl, rfl⟩

/-- An event with an empty name. -/
def someEvent : Entry :=
  .event ⟨1, [], []⟩

/-- The queue of an event is driven to its bound, and drained by one. -/
theorem bounded_of_reaches_fresh : ∃ state, Reaches step Safe (fresh 2) state ∧
    (state.entries someEvent.queue).length = 1 ∧ state.Bounded ∧
    ∀ action next, step state action = some next →
      ((∀ last, Reaches step Pushing next last → last.Bounded) ↔ Safe state action) := by
  have hreaches : ∃ state, Reaches step Safe (fresh 2) state ∧
      (state.entries someEvent.queue).length = 1 :=
    ⟨_, .of_run (rfl : run step (fresh 2) [.check someEvent, .push true, .check someEvent,
      .push true, .pop someEvent.queue] = some _) (by decide), rfl⟩
  obtain ⟨state, hreaches, hlength⟩ := hreaches
  exact ⟨state, hreaches, hlength, bounded_of_reaches (starts_fresh (by decide)) hreaches⟩

/-- With the bound 1, the listener pushes two events onto one queue; and two
threads that both look at the empty queue of disconnected connections push onto
it in turn. -/
theorem not_bounded_of_events : (fresh 1).Starts ∧
    (∃ state, run step (fresh 1) [.check someEvent, .push true, .check someEvent, .push true] =
      some state ∧ (state.entries someEvent.queue).length = 2 ∧ ¬ state.Bounded) ∧
    ∃ state, run step (fresh 1) [.checkTold 1, .checkTold 2, .pushTold 1 true, .pushTold 2 true] =
      some state ∧ (state.entries .disconnected).length = 2 ∧ ¬ state.Bounded := by
  refine ⟨starts_fresh (by decide), ⟨_, rfl, rfl, fun hbounded => ?_⟩, _, rfl, rfl,
    fun hbounded => ?_⟩
  · exact absurd (hbounded someEvent.queue) (by decide)
  · exact absurd (hbounded .disconnected) (by decide)

end Sednl.QueueBound
