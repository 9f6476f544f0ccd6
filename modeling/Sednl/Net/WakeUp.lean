import Sednl.Net.Dispatch

/-!
# No lost wake-up

One run of the listener, from its event loop on, with the sweeps of `on_event`
followed queue by queue: `m_events` grows while they run, and each ends only
once it has come to all queues it has found.  The steps are those of
`Dispatch`.  An event that waits in a queue has left a trace: its notification
is to come, or the flag of its consumer is up, or a sweep of that consumer still
comes to its queue.
-/

namespace Sednl.WakeUp

open Sednl.Tag
open Sednl.Ring
open Sednl.Transition
open Sednl.Dispatch

/-! ## The steps -/

/-- `m_events[name]` enters the name into the map. -/
def touch (name : List Byte) (names : List (List Byte)) : List (List Byte) :=
  if name ∈ names then names else names ++ [name]

/-- A run of the listener: the state, the names in `m_events`, and for each
consumer those its sweep of `m_events` has still to come to. -/
structure Watch where
  state : State
  names : List (List Byte)
  due : ℕ → List (List Byte)

/-- The names a step enters into `m_events`. -/
def Watch.entered (watch : Watch) : Action → List (List Byte)
  | .pick item => touch item.event.name watch.names
  | .consumer i _ _ =>
      match (watch.state.consumers i).stage with
      | .consuming _ (.slots ((name, true) :: _)) => touch name watch.names
      | _ => watch.names
  | _ => watch.names

/-- What is left of the sweeps of `m_events`: one that starts has all names to
come to, and one that comes to a queue has one less. -/
def Watch.left (watch : Watch) : Action → ℕ → List (List Byte)
  | .consumer i visit _ =>
      match (watch.state.consumers i).stage, visit with
      | .consuming _ (.slots []), _ => Function.update watch.due i watch.names
      | .consuming _ .rest, some name =>
          Function.update watch.due i ((watch.due i).erase name)
      | _, _ => watch.due
  | _ => watch.due

/-- The steps of `Dispatch` in one run of the listener in which each `pop` has
the memory it needs: a sweep of `m_events` comes to names that are in the map, in
any order, and ends when none of those it has found is left. -/
def Watch.Allows (watch : Watch) : Action → Prop
  | .runListener => False
  | .popFails _ => False
  | .consumer i visit _ =>
      ∀ last, (watch.state.consumers i).stage = .consuming last .rest →
        match visit with
        | none => watch.due i = []
        | some name => name ∈ watch.names
  | _ => True

instance (watch : Watch) : (action : Action) → Decidable (watch.Allows action)
  | .runListener => .isFalse id
  | .popFails _ => .isFalse id
  | .joinListener => .isTrue trivial
  | .runConsumer _ => .isTrue trivial
  | .joinConsumer _ => .isTrue trivial
  | .consumerJoined _ => .isTrue trivial
  | .pick _ => .isTrue trivial
  | .push _ => .isTrue trivial
  | .notify => .isTrue trivial
  | .leave => .isTrue trivial
  | .joinNext => .isTrue trivial
  | .nextJoined => .isTrue trivial
  | .release => .isTrue trivial
  | .consumer i visit outcome =>
      match hstage : (watch.state.consumers i).stage with
      | .consuming last .rest =>
          match visit with
          | none => decidable_of_iff (watch.due i = []) (by simp [Watch.Allows, hstage])
          | some name => decidable_of_iff (name ∈ watch.names) (by simp [Watch.Allows, hstage])
      | .consuming _ (.slots _) => .isTrue (by simp [Watch.Allows, hstage])
      | .consuming _ (.call _ _ _) => .isTrue (by simp [Watch.Allows, hstage])
      | .consuming _ (.process _) => .isTrue (by simp [Watch.Allows, hstage])
      | .consuming _ (.restCall _ _) => .isTrue (by simp [Watch.Allows, hstage])
      | .idle | .starting | .checking | .waiting | .ended =>
          .isTrue (by simp [Watch.Allows, hstage])

def Watch.step (watch : Watch) (action : Action) : Option Watch :=
  if watch.Allows action then
    (Dispatch.step watch.state action).map fun next =>
      ⟨next, watch.entered action, watch.left action⟩
  else none

/-- `run_init` has linked the consumers, and nothing has been received.  Their
threads may have been started before. -/
structure Watch.Started (watch : Watch) : Prop where
  hlinks : linkConsumers (fun i => (watch.state.consumers i).slots) watch.state.mConsumers
    .clear = some watch.state.links
  hlistening : watch.state.listening = .looping
  hempty : ∀ name, watch.state.mEvents name = []
  haccepted : ∀ name, watch.state.accepted name = []
  hcalls : watch.state.calls = []
  hinCall : ∀ i, (watch.state.consumers i).stage.inCall i = none

/-- The steps of a watched run are steps of `Dispatch`. -/
theorem Watch.step_state {watch next : Watch} {action : Action}
    (hstep : watch.step action = some next) :
    Dispatch.step watch.state action = some next.state := by
  rw [Watch.step] at hstep
  split at hstep
  · obtain ⟨state, hstate, rfl⟩ := Option.map_eq_some_iff.mp hstep
    exact hstate
  · cases hstep

/-! ## The trace an event leaves -/

/-- The queue of a name is linked to a consumer: through the name, or through
`on_event` for a name that is not in `m_links`. -/
def Linked (state : State) (i : ℕ) (name : List Byte) : Prop :=
  state.links.mLinks name = some (some i) ∨
    state.links.mLinks name = none ∧ state.links.onEvent = some i

/-- The listener has pushed an event and is about to notify a consumer. -/
def Notifies (state : State) (i : ℕ) : Prop :=
  ∃ name, state.listening = .notifying name ∧ state.notified name = some i

/-- A sweep still comes to the queue of a name that is not linked. -/
def comesTo (due : List (List Byte)) (name : List Byte) : Stage → Prop
  | .consuming _ (.slots _) | .consuming _ (.call _ _ _) => True
  | .consuming _ .rest => name ∈ due
  | .consuming _ (.process visited) | .consuming _ (.restCall visited _) =>
      visited = name ∨ name ∈ due
  | _ => False

/-- A sweep of a consumer still comes to the queue of a name linked to it. -/
def Watch.Sweeps (watch : Watch) (i : ℕ) (name : List Byte) : Prop :=
  if watch.state.links.mLinks name = none then
    comesTo (watch.due i) name (watch.state.consumers i).stage
  else (name, true) ∈ (watch.state.consumers i).stage.todo

/-- The trace of an event that waits for a consumer. -/
def Watch.Traced (watch : Watch) (i : ℕ) (name : List Byte) : Prop :=
  (watch.state.consumers i).wakeUp = true ∨ Notifies watch.state i ∨ watch.Sweeps i name

structure Awake (watch : Watch) : Prop where
  hslots : ∀ {i name}, watch.state.links.mLinks name = some (some i) →
    (name, true) ∈ (watch.state.consumers i).slots.mSlots.slots
  honEvent : ∀ {i}, watch.state.links.onEvent = some i →
    (watch.state.consumers i).slots.onEvent = true
  hpushing : ∀ item, watch.state.listening = .pushing item → item.event.name ∈ watch.names
  hnames : ∀ name, watch.state.mEvents name ≠ [] → name ∈ watch.names
  htraced : ∀ i name, Linked watch.state i name → watch.state.mEvents name ≠ [] →
    watch.Traced i name

theorem Linked.notified {state : State} {i : ℕ} {name : List Byte}
    (hlinked : Linked state i name) : state.notified name = some i := by
  rw [State.notified, Links.notified]
  rcases hlinked with hlink | ⟨hlink, honEvent⟩
  · rw [hlink]
  · rw [hlink, honEvent]

theorem subset_touch (name : List Byte) (names : List (List Byte)) :
    names ⊆ touch name names := by
  rw [touch]
  split
  · exact List.Subset.refl _
  · exact List.subset_append_left _ _

theorem mem_touch (name : List Byte) (names : List (List Byte)) : name ∈ touch name names := by
  rw [touch]
  split
  · assumption
  · simp

theorem Watch.Sweeps.consuming {watch : Watch} {i : ℕ} {name : List Byte}
    (hsweeps : watch.Sweeps i name) :
    ∃ last place, (watch.state.consumers i).stage = .consuming last place := by
  rw [Watch.Sweeps] at hsweeps
  generalize (watch.state.consumers i).stage = stage at hsweeps
  cases stage with
  | consuming last place => exact ⟨last, place, rfl⟩
  | idle | starting | checking | waiting | ended => simp [comesTo, Stage.todo] at hsweeps

theorem Watch.sweeps_linked {watch : Watch} {i : ℕ} {name : List Byte} {stage : Stage}
    (hlink : watch.state.links.mLinks name = some (some i))
    (hstage : (watch.state.consumers i).stage = stage) :
    watch.Sweeps i name ↔ (name, true) ∈ stage.todo := by
  rw [Watch.Sweeps, hstage, if_neg (hlink.trans_ne (Option.some_ne_none _))]

theorem Watch.sweeps_unlinked {watch : Watch} {i : ℕ} {name : List Byte} {stage : Stage}
    {due : List (List Byte)} (hlink : watch.state.links.mLinks name = none)
    (hstage : (watch.state.consumers i).stage = stage) (hdue : watch.due i = due) :
    watch.Sweeps i name ↔ comesTo due name stage := by
  rw [Watch.Sweeps, hstage, hdue, if_pos hlink]

theorem Watch.Sweeps.of_same {watch next : Watch} {i : ℕ} {name : List Byte}
    (hsweeps : watch.Sweeps i name) (hlinks : next.state.links = watch.state.links)
    (hstage : (next.state.consumers i).stage = (watch.state.consumers i).stage)
    (hdue : next.due i = watch.due i) : next.Sweeps i name := by
  rwa [Watch.Sweeps, hlinks, hstage, hdue]

theorem State.set_same (state : State) (i : ℕ) : state.set i (state.consumers i) = state := by
  rw [State.set, Function.update_eq_self]

section Steps

variable {watch : Watch}

/-! ## The listener, and threads that start and end -/

/-- Only where the listener stands changes. -/
theorem Awake.listen (hawake : Awake watch) {listening : Listening}
    (hpushing : ∀ item, listening = .pushing item → item.event.name ∈ watch.names)
    (hnotified : ∀ i, Notifies watch.state i → (watch.state.consumers i).wakeUp = true) :
    Awake ⟨{ watch.state with listening := listening }, watch.names, watch.due⟩ where
  hslots := hawake.hslots
  honEvent := hawake.honEvent
  hpushing := hpushing
  hnames := hawake.hnames
  htraced i name hlinked hqueue := by
    rcases hawake.htraced i name hlinked hqueue with hwake | hpending | hsweeps
    · exact .inl hwake
    · exact .inl (hnotified i hpending)
    · exact .inr (.inr hsweeps)

/-- The listener has nothing to notify, and nothing to push. -/
theorem Awake.goOn (hawake : Awake watch) {listening : Listening}
    (hquiet : ∀ name, watch.state.listening ≠ .notifying name)
    (hidle : ∀ item, listening ≠ .pushing item) :
    Awake ⟨{ watch.state with listening := listening }, watch.names, watch.due⟩ := by
  refine hawake.listen (fun item hitem => absurd hitem (hidle item)) ?_
  rintro i ⟨name, hname, _⟩
  exact absurd hname (hquiet name)

/-- A consumer changes outside of its sweeps. -/
theorem Awake.set (hawake : Awake watch) {j : ℕ} {consumer : Consumer}
    (hslots : consumer.SameSlots (watch.state.consumers j))
    (honEvent : consumer.slots.onEvent = (watch.state.consumers j).slots.onEvent)
    (hwake : (watch.state.consumers j).wakeUp = true → consumer.wakeUp = true)
    (hstage : ∀ last place, (watch.state.consumers j).stage = .consuming last place →
      consumer.stage = .consuming last place) :
    Awake ⟨watch.state.set j consumer, watch.names, watch.due⟩ where
  hslots := by
    intro i name hlink
    by_cases hi : i = j
    · subst hi
      rw [State.set_self]
      exact (hslots name).mpr (hawake.hslots hlink)
    · rw [State.set_of_ne hi]
      exact hawake.hslots hlink
  honEvent := by
    intro i hlink
    by_cases hi : i = j
    · subst hi
      rw [State.set_self]
      exact honEvent.trans (hawake.honEvent hlink)
    · rw [State.set_of_ne hi]
      exact hawake.honEvent hlink
  hpushing := hawake.hpushing
  hnames := hawake.hnames
  htraced i name hlinked hqueue := by
    have htraced := hawake.htraced i name hlinked hqueue
    by_cases hi : i = j
    · subst hi
      rcases htraced with hup | hpending | hsweeps
      · refine .inl ?_
        rw [State.set_self]
        exact hwake hup
      · exact .inr (.inl hpending)
      · obtain ⟨last, place, hplace⟩ := hsweeps.consuming
        refine .inr (.inr (hsweeps.of_same rfl ?_ rfl))
        rw [State.set_self, hstage last place hplace, hplace]
    · rw [Watch.Traced, Watch.Sweeps, State.set_of_ne hi]
      exact htraced

/-- An event is pushed, and its notification is to come. -/
theorem Awake.push (hawake : Awake watch) {item : CnEvent}
    (hpushing : watch.state.listening = .pushing item) :
    Awake ⟨{ watch.state.pushed item with listening := .notifying item.event.name },
      watch.names, watch.due⟩ := by
  have hsame : ∀ name, name ≠ item.event.name →
      (watch.state.pushed item).mEvents name = watch.state.mEvents name :=
    fun name hname => State.pushed_of_ne hname
  refine ⟨hawake.hslots, hawake.honEvent, fun other hother => ?_, fun name hqueue => ?_,
    fun i name hlinked hqueue => ?_⟩
  · cases hother
  · by_cases hname : name = item.event.name
    · rw [hname]
      exact hawake.hpushing item hpushing
    · exact hawake.hnames name (hsame name hname ▸ hqueue)
  · by_cases hname : name = item.event.name
    · subst hname
      exact .inr (.inl ⟨_, rfl, hlinked.notified⟩)
    · rcases hawake.htraced i name hlinked (hsame name hname ▸ hqueue) with
        hwake | ⟨_, hnotifying, _⟩ | hsweeps
      · exact .inl hwake
      · rw [hpushing] at hnotifying
        cases hnotifying
      · exact .inr (.inr hsweeps)

theorem Awake.notify (hawake : Awake watch) {name : List Byte}
    (hnotifying : watch.state.listening = .notifying name) :
    Awake ⟨{ watch.state.notify (watch.state.notified name) with listening := .looping },
      watch.names, watch.due⟩ := by
  have hwoken : ∀ i, Notifies watch.state i → watch.state.notified name = some i := by
    rintro i ⟨other, hother, hnotified⟩
    obtain rfl : name = other := by
      rw [hnotifying] at hother
      injection hother
    exact hnotified
  cases hlink : watch.state.notified name with
  | none =>
      refine hawake.listen ?_ ?_
      · intro item hitem
        cases hitem
      · intro i hpending
        have hnone := hwoken i hpending
        rw [hlink] at hnone
        cases hnone
  | some j =>
      have hset : Awake ⟨watch.state.notify (some j), watch.names, watch.due⟩ :=
        hawake.set (fun _ => Iff.rfl) rfl (fun _ => rfl) (fun _ _ hstage => hstage)
      refine hset.listen ?_ ?_
      · intro item hitem
        cases hitem
      · intro i hpending
        have hsome := hwoken i hpending
        rw [hlink, Option.some.injEq] at hsome
        subst hsome
        rw [State.notify, State.set_self]

/-! ## The thread of a consumer -/

theorem Awake.enter (hawake : Awake watch) {names : List (List Byte)}
    (hnames : watch.names ⊆ names) : Awake ⟨watch.state, names, watch.due⟩ where
  hslots := hawake.hslots
  honEvent := hawake.honEvent
  hpushing item hitem := hnames (hawake.hpushing item hitem)
  hnames name hqueue := hnames (hawake.hnames name hqueue)
  htraced := hawake.htraced

theorem Awake.popped (hawake : Awake watch) {name : List Byte} {item : CnEvent}
    {items : List CnEvent} (hqueue : watch.state.mEvents name = item :: items) :
    Awake ⟨watch.state.popped name items, watch.names, watch.due⟩ := by
  have hleft : ∀ other, (watch.state.popped name items).mEvents other ≠ [] →
      watch.state.mEvents other ≠ [] := by
    intro other hother
    by_cases hname : other = name
    · rw [hname, hqueue]
      exact List.cons_ne_nil _ _
    · rwa [State.popped_of_ne hname] at hother
  exact ⟨hawake.hslots, hawake.honEvent, hawake.hpushing,
    fun other hother => hawake.hnames other (hleft other hother),
    fun i other hlinked hother => hawake.htraced i other hlinked (hleft other hother)⟩

theorem Awake.slotCall (hawake : Awake watch) (callback : Callback) (item : CnEvent)
    (outcome : Outcome) :
    Awake ⟨watch.state.slotCall callback item outcome, watch.names, watch.due⟩ := by
  rw [slotCall_eq]
  exact ⟨hawake.hslots, hawake.honEvent, hawake.hpushing, hawake.hnames, hawake.htraced⟩

/-- A consumer moves on, and comes to what its sweep had still to come to. -/
theorem Awake.move (hawake : Awake watch) {j : ℕ} {stage : Stage} {left : List (List Byte)}
    (htodo : ∀ name, watch.state.links.mLinks name = some (some j) →
      watch.state.mEvents name ≠ [] → (name, true) ∈ (watch.state.consumers j).stage.todo →
      (name, true) ∈ stage.todo)
    (hrest : ∀ name, watch.state.links.mLinks name = none →
      watch.state.links.onEvent = some j → watch.state.mEvents name ≠ [] →
      comesTo (watch.due j) name (watch.state.consumers j).stage → comesTo left name stage) :
    Awake ⟨watch.state.move j stage, watch.names, Function.update watch.due j left⟩ := by
  have hsame : ∀ i, ((watch.state.move j stage).consumers i).slots =
      (watch.state.consumers i).slots ∧
      ((watch.state.move j stage).consumers i).wakeUp = (watch.state.consumers i).wakeUp := by
    intro i
    by_cases hi : i = j
    · rw [hi, State.move, State.set_self]
      exact ⟨rfl, rfl⟩
    · rw [State.move, State.set_of_ne hi]
      exact ⟨rfl, rfl⟩
  constructor
  · intro i name hlink
    rw [(hsame i).1]
    exact hawake.hslots hlink
  · intro i hlink
    rw [(hsame i).1]
    exact hawake.honEvent hlink
  · exact hawake.hpushing
  · exact hawake.hnames
  · intro i name hlinked hqueue
    rcases hawake.htraced i name hlinked hqueue with hwake | hpending | hbefore
    · refine .inl ?_
      rw [(hsame i).2]
      exact hwake
    · exact .inr (.inl hpending)
    · refine .inr (.inr ?_)
      by_cases hi : i = j
      · subst hi
        have hstage : ((watch.state.move i stage).consumers i).stage = stage := by
          rw [State.move, State.set_self]
        have hleft : Function.update watch.due i left i = left := Function.update_self _ _ _
        rcases hlinked with hlink | ⟨hlink, honEvent⟩
        · apply (Watch.sweeps_linked hlink hstage).mpr
          have htodos := (@Watch.sweeps_linked watch i name _ hlink rfl).mp hbefore
          exact htodo name hlink hqueue htodos
        · apply (Watch.sweeps_unlinked hlink hstage hleft).mpr
          have hcomes := (@Watch.sweeps_unlinked watch i name _ _ hlink rfl rfl).mp hbefore
          exact hrest name hlink honEvent hqueue hcomes
      · refine hbefore.of_same rfl ?_ ?_
        · rw [State.move, State.set_of_ne hi]
        · exact Function.update_of_ne hi _ _

theorem Awake.moveOn (hawake : Awake watch) {j : ℕ} {stage : Stage}
    (htodo : ∀ name, watch.state.links.mLinks name = some (some j) →
      watch.state.mEvents name ≠ [] → (name, true) ∈ (watch.state.consumers j).stage.todo →
      (name, true) ∈ stage.todo)
    (hrest : ∀ name, watch.state.links.mLinks name = none →
      watch.state.links.onEvent = some j → watch.state.mEvents name ≠ [] →
      comesTo (watch.due j) name (watch.state.consumers j).stage →
      comesTo (watch.due j) name stage) :
    Awake ⟨watch.state.move j stage, watch.names, watch.due⟩ := by
  have hmove : Awake ⟨watch.state.move j stage, watch.names,
      Function.update watch.due j (watch.due j)⟩ := hawake.move htodo hrest
  rwa [Function.update_eq_self] at hmove

/-- The sweep of `m_slots` is over. -/
theorem Awake.slotsDone (hawake : Awake watch) {i : ℕ} {last : Bool}
    (hstage : (watch.state.consumers i).stage = .consuming last (.slots []))
    (visit : Option (List Byte)) (outcome : Outcome) :
    Awake ⟨watch.state.consume i last visit outcome (.slots []), watch.names,
      Function.update watch.due i watch.names⟩ := by
  rw [State.consume]
  split
  · apply hawake.move
    · intro name _ _ htodo
      rwa [hstage] at htodo
    · intro name _ _ hqueue _
      exact hawake.hnames name hqueue
  · rename_i honEvent
    apply hawake.move
    · intro name _ _ htodo
      rw [hstage] at htodo
      cases htodo
    · intro name _ hlink
      exact absurd (hawake.honEvent hlink) honEvent

theorem Awake.slotsNext (hawake : Awake watch) {i : ℕ} {last slot : Bool} {name : List Byte}
    {todo : List (List Byte × Bool)}
    (hstage : (watch.state.consumers i).stage = .consuming last (.slots ((name, slot) :: todo)))
    (hqueue : slot = true → watch.state.mEvents name = []) :
    Awake ⟨watch.state.move i (.consuming last (.slots todo)), watch.names, watch.due⟩ := by
  apply hawake.moveOn
  · intro other _ hother htodo
    rw [hstage] at htodo
    rcases List.mem_cons.mp htodo with hhead | htail
    · obtain ⟨rfl, rfl⟩ := Prod.mk.inj hhead
      exact absurd (hqueue rfl) hother
    · exact htail
  · intro other _ _ _ _
    trivial

/-- The sweep of `m_events` comes to a queue. -/
theorem Awake.visit (hawake : Awake watch) {i : ℕ} {last : Bool} {name : List Byte}
    (hstage : (watch.state.consumers i).stage = .consuming last .rest) (outcome : Outcome) :
    Awake ⟨watch.state.consume i last (some name) outcome .rest, watch.names,
      Function.update watch.due i ((watch.due i).erase name)⟩ := by
  have hsame : ∀ other, other ≠ name → other ∈ watch.due i → other ∈ (watch.due i).erase name :=
    fun other hother hdue => (List.mem_erase_of_ne hother).mpr hdue
  have htodos : ∀ other, (other, true) ∉ (watch.state.consumers i).stage.todo := by
    rw [hstage]
    intro other htodo
    cases htodo
  cases hlink : watch.state.links.mLinks name with
  | none =>
      rw [State.consume, hlink]
      apply hawake.move
      · intro other _ _ htodo
        exact absurd htodo (htodos other)
      · intro other _ _ _ hcomes
        rw [hstage] at hcomes
        by_cases hother : other = name
        · exact .inl hother.symm
        · exact .inr (hsame other hother hcomes)
  | some link =>
      have hstill : watch.state.move i (.consuming last .rest) = watch.state := by
        rw [State.move, ← hstage]
        exact State.set_same watch.state i
      rw [State.consume, hlink]
      have hmove : Awake ⟨watch.state.move i (.consuming last .rest), watch.names,
          Function.update watch.due i ((watch.due i).erase name)⟩ := by
        apply hawake.move
        · intro other _ _ htodo
          exact absurd htodo (htodos other)
        · intro other hnone _ _ hcomes
          rw [hstage] at hcomes
          apply hsame other _ hcomes
          rintro rfl
          rw [hlink] at hnone
          cases hnone
      rwa [hstill] at hmove

theorem Awake.consume (hawake : Awake watch) {i : ℕ} {last : Bool} {place : Place}
    (hstage : (watch.state.consumers i).stage = .consuming last place)
    {visit : Option (List Byte)} {outcome : Outcome}
    (hallows : watch.Allows (.consumer i visit outcome)) :
    Awake ⟨watch.state.consume i last visit outcome place,
      watch.entered (.consumer i visit outcome), watch.left (.consumer i visit outcome)⟩ := by
  unfold Watch.entered Watch.left
  simp only [hstage]
  cases place with
  | slots todo =>
      cases todo with
      | nil => exact hawake.slotsDone hstage visit outcome
      | cons slot todo =>
          obtain ⟨name, slot⟩ := slot
          cases slot with
          | false => exact hawake.slotsNext hstage fun hslot => absurd hslot Bool.false_ne_true
          | true =>
              have hentered := hawake.enter (subset_touch name watch.names)
              cases hqueue : watch.state.mEvents name with
              | nil =>
                  rw [State.consume, hqueue]
                  exact hentered.slotsNext hstage fun _ => hqueue
              | cons item items =>
                  rw [State.consume, hqueue]
                  apply (hentered.popped hqueue).moveOn
                  · intro other _ _ htodo
                    rwa [State.popped, hstage] at htodo
                  · intro other _ _ _ _
                    trivial
  | call name item todo =>
      rw [State.consume]
      apply (hawake.slotCall (.slot i name) item outcome).moveOn
      · intro other _ _ htodo
        rwa [slotCall_eq, hstage] at htodo
      · intro other _ _ _ _
        trivial
  | rest =>
      cases visit with
      | none =>
          have hdue : watch.due i = [] := hallows last hstage
          rw [State.consume]
          apply hawake.moveOn
          · intro other _ _ htodo
            rw [hstage] at htodo
            cases htodo
          · intro other _ _ _ hcomes
            rw [hstage, comesTo, hdue] at hcomes
            cases hcomes
      | some name => exact hawake.visit hstage outcome
  | process name =>
      cases hqueue : watch.state.mEvents name with
      | nil =>
          rw [State.consume, hqueue]
          apply hawake.moveOn
          · intro other _ _ htodo
            rwa [hstage] at htodo
          · intro other _ _ hother hcomes
            rw [hstage] at hcomes
            rcases hcomes with rfl | hdue
            · exact absurd hqueue hother
            · exact hdue
      | cons item items =>
          rw [State.consume, hqueue]
          apply (hawake.popped hqueue).moveOn
          · intro other _ _ htodo
            rwa [State.popped, hstage] at htodo
          · intro other _ _ _ hcomes
            rwa [State.popped, hstage] at hcomes
  | restCall name item =>
      rw [State.consume]
      apply (hawake.slotCall (.onEvent i) item outcome).moveOn
      · intro other _ _ htodo
        rwa [slotCall_eq, hstage] at htodo
      · intro other _ _ _ hcomes
        rwa [slotCall_eq, hstage] at hcomes

/-- A consumer that is not in a sweep moves on. -/
theorem Awake.moveStill (hawake : Awake watch) {i : ℕ} {stage : Stage}
    (hstill : ∀ last place, (watch.state.consumers i).stage ≠ .consuming last place) :
    Awake ⟨watch.state.move i stage, watch.names, watch.due⟩ :=
  hawake.set (fun _ => Iff.rfl) rfl id fun last place hstage => absurd hstage (hstill last place)

/-- The flag is taken down, and a sweep begins. -/
theorem Awake.wake (hawake : Awake watch) {i : ℕ} :
    Awake ⟨watch.state.set i { watch.state.consumers i with
      wakeUp := false
      stage := .consuming false (.slots (watch.state.consumers i).slots.mSlots.slots) },
      watch.names, watch.due⟩ where
  hslots := by
    intro j name hlink
    by_cases hj : j = i
    · subst hj
      rw [State.set_self]
      exact hawake.hslots hlink
    · rw [State.set_of_ne hj]
      exact hawake.hslots hlink
  honEvent := by
    intro j hlink
    by_cases hj : j = i
    · subst hj
      rw [State.set_self]
      exact hawake.honEvent hlink
    · rw [State.set_of_ne hj]
      exact hawake.honEvent hlink
  hpushing := hawake.hpushing
  hnames := hawake.hnames
  htraced j name hlinked hqueue := by
    by_cases hj : j = i
    · subst hj
      refine .inr (.inr ?_)
      rcases hlinked with hlink | ⟨hlink, _⟩
      · apply (Watch.sweeps_linked hlink (congrArg Consumer.stage (State.set_self _))).mpr
        exact hawake.hslots hlink
      · apply (Watch.sweeps_unlinked hlink (congrArg Consumer.stage (State.set_self _)) rfl).mpr
        trivial
    · rw [Watch.Traced, Watch.Sweeps, State.set_of_ne hj]
      exact hawake.htraced j name hlinked hqueue

/-- A step of a thread that is not in a sweep leaves the record as it is. -/
theorem Awake.unvisited {next : State} (hawake : Awake ⟨next, watch.names, watch.due⟩) {i : ℕ}
    (hstill : ∀ last place, (watch.state.consumers i).stage ≠ .consuming last place)
    {visit : Option (List Byte)} {outcome : Outcome} :
    Awake ⟨next, watch.entered (.consumer i visit outcome),
      watch.left (.consumer i visit outcome)⟩ := by
  unfold Watch.entered Watch.left
  cases hstage : (watch.state.consumers i).stage with
  | consuming last place => exact absurd hstage (hstill last place)
  | idle | starting | checking | waiting | ended => simpa only [hstage] using hawake

/-! ## Runs -/

theorem Watch.Started.awake (hstarted : watch.Started) : Awake watch where
  hslots hlink := by
    rcases linkConsumers_origin hstarted.hlinks hlink with hclear | ⟨_, hslot⟩
    · cases hclear
    · exact hslot
  honEvent hlink := by
    rcases (linkedBy_onEvent _).origin hstarted.hlinks hlink with hclear | ⟨_, hslot⟩
    · cases hclear
    · exact hslot
  hpushing item hpushing := by
    rw [hstarted.hlistening] at hpushing
    cases hpushing
  hnames name hqueue := absurd (hstarted.hempty name) hqueue
  htraced _ name _ hqueue := absurd (hstarted.hempty name) hqueue

/-- No step wipes out the trace of an event that waits. -/
theorem Awake.step (hawake : Awake watch) {action : Action} {next : Watch}
    (hnext : watch.step action = some next) : Awake next := by
  rw [Watch.step] at hnext
  split at hnext
  · rename_i hallows
    obtain ⟨after, hstep, rfl⟩ := Option.map_eq_some_iff.mp hnext
    cases branch_of_step hstep with
    | collides hready hlinks => exact absurd hallows id
    | runListener hready hlinks => exact absurd hallows id
    | misses hi hconsuming => exact absurd hallows id
    | missesRest hi hconsuming => exact absurd hallows id
    | joinListener hruns =>
        exact ⟨hawake.hslots, hawake.honEvent, hawake.hpushing, hawake.hnames, hawake.htraced⟩
    | runConsumer hready =>
        refine hawake.set (fun name => Slots.mem_clean _) rfl id fun last place hstage => ?_
        rw [hready.2.2] at hstage
        cases hstage
    | joinConsumer hready =>
        exact hawake.set (fun _ => Iff.rfl) rfl id fun _ _ hstage => hstage
    | consumerJoined hready =>
        refine hawake.set (fun _ => Iff.rfl) rfl id fun last place hstage => ?_
        rw [hready.2.2] at hstage
        cases hstage
    | @full item hlooping hfull => exact hawake.enter (subset_touch item.event.name watch.names)
    | @pick item hlooping hroom =>
        have hentered := hawake.enter (subset_touch item.event.name watch.names)
        refine hentered.listen (fun other hother => ?_) fun i hnotifies => ?_
        · obtain rfl : item = other := by injection hother
          exact mem_touch item.event.name watch.names
        · obtain ⟨name, hname, _⟩ := hnotifies
          rw [hlooping] at hname
          cases hname
    | push hpushing => exact hawake.push hpushing
    | pushFails hpushing => exact hawake.goOn (by simp [hpushing]) (by simp)
    | notify hnotifying => exact hawake.notify hnotifying
    | leave hready => exact hawake.goOn (by simp [hready.1]) (by simp)
    | @await i todo hjoining hruns hjoinable =>
        have htold : Awake ⟨watch.state.set i { watch.state.consumers i with mRunning := false },
            watch.names, watch.due⟩ :=
          hawake.set (fun _ => Iff.rfl) rfl id fun _ _ hstage => hstage
        have hwaiting := @Awake.goOn _ htold (.waiting i todo) (by simp [State.set, hjoining])
          (by simp)
        exact ⟨hwaiting.hslots, hwaiting.honEvent, hwaiting.hpushing, hwaiting.hnames,
          hwaiting.htraced⟩
    | @tell i todo hjoining hruns hnothing =>
        have htold : Awake ⟨watch.state.set i { watch.state.consumers i with mRunning := false },
            watch.names, watch.due⟩ :=
          hawake.set (fun _ => Iff.rfl) rfl id fun _ _ hstage => hstage
        exact htold.goOn (by simp [State.set, hjoining]) (by simp)
    | skip hjoining hstopped => exact hawake.goOn (by simp [hjoining]) (by simp)
    | @nextJoined i todo hwaiting hended =>
        have hidle : Awake ⟨watch.state.move i .idle, watch.names, watch.due⟩ :=
          hawake.moveStill fun last place => by simp [hended]
        exact hidle.goOn (by simp [State.move, State.set, hwaiting]) (by simp)
    | release hjoining =>
        refine ⟨?_, ?_, ?_, hawake.hnames, ?_⟩
        · intro i name hlink
          cases hlink
        · intro i hlink
          cases hlink
        · intro item hpushing
          cases hpushing
        · rintro i name (hlink | ⟨_, hlink⟩)
          · cases hlink
          · cases hlink
    | @starts i _ _ hi hstarting =>
        have hstill : ∀ last place, (watch.state.consumers i).stage ≠ .consuming last place := by
          simp [hstarting]
        exact (hawake.moveStill hstill).unvisited hstill
    | @waits i _ _ hi hchecking hruns =>
        have hstill : ∀ last place, (watch.state.consumers i).stage ≠ .consuming last place := by
          simp [hchecking]
        exact (hawake.moveStill hstill).unvisited hstill
    | @stops i _ _ hi hchecking hstopped =>
        have hstill : ∀ last place, (watch.state.consumers i).stage ≠ .consuming last place := by
          simp [hchecking]
        exact (hawake.moveStill hstill).unvisited hstill
    | wakes hi hwaiting hup =>
        exact hawake.wake.unvisited (by simp [hwaiting])
    | @timesOut i _ _ hi hwaiting hdown =>
        have hstill : ∀ last place, (watch.state.consumers i).stage ≠ .consuming last place := by
          simp [hwaiting]
        exact (hawake.moveStill hstill).unvisited hstill
    | consumes hi hconsuming => exact hawake.consume hconsuming hallows
  · cases hnext

/-- Who waits without a flag and without a notification to come has nothing to
do. -/
theorem Awake.drained (hawake : Awake watch) {i : ℕ} {name : List Byte}
    (hwaiting : (watch.state.consumers i).stage = .waiting)
    (hdown : (watch.state.consumers i).wakeUp = false) (hnone : ¬ Notifies watch.state i)
    (hlinked : Linked watch.state i name) : watch.state.mEvents name = [] := by
  by_contra hqueue
  rcases hawake.htraced i name hlinked hqueue with hup | hpending | hsweeps
  · rw [hdown] at hup
    cases hup
  · exact hnone hpending
  · obtain ⟨last, place, hconsuming⟩ := hsweeps.consuming
    rw [hwaiting] at hconsuming
    cases hconsuming

end Steps

/-- In every run of the listener, under every interleaving with its consumers:
where a consumer waits, its flag is down and no notification of it is to come,
the queues linked to it are empty. -/
theorem empty_of_waiting {start watch : Watch} (hstarted : start.Started)
    (hreaches : Reaches Watch.step anything start watch) {i : ℕ}
    (hwaiting : (watch.state.consumers i).stage = .waiting)
    (hdown : (watch.state.consumers i).wakeUp = false) (hnone : ¬ Notifies watch.state i)
    {name : List Byte} (hlinked : Linked watch.state i name) :
    watch.state.mEvents name = [] := by
  have hawake : Awake watch :=
    hreaches.invariant (fun hawake _ hnext => hawake.step hnext) hstarted.awake
  exact hawake.drained hwaiting hdown hnone hlinked

/-- `run_init` of a listener whose threads are not started. -/
theorem Watch.started_of_runListener {mMaxQueueSize : ℕ} {mConsumers : List ℕ}
    {slots : ℕ → Slots} {state : State}
    (hstep : Dispatch.step (.start mMaxQueueSize mConsumers slots) .runListener = some state)
    (hlooping : state.listening = .looping) : (⟨state, [], fun _ => []⟩ : Watch).Started := by
  rw [Dispatch.step] at hstep
  split at hstep
  · split at hstep
    · obtain rfl := Option.some.inj hstep
      cases hlooping
    · rename_i links hlinks
      obtain rfl := Option.some.inj hstep
      exact ⟨hlinks, rfl, fun _ => rfl, fun _ => rfl, rfl, fun _ => rfl⟩
  · cases hstep

/-- The consumer that binds `p` is woken, passes the event on, and waits. -/
theorem empty_of_waiting_pinged :
    ∃ start watch, start.Started ∧ Reaches Watch.step anything start watch ∧
      watch.state.accepted [112] = [ping] ∧ (watch.state.consumers 0).stage = .waiting ∧
      (watch.state.consumers 0).wakeUp = false ∧ ¬ Notifies watch.state 0 ∧
      Linked watch.state 0 [112] ∧ watch.state.mEvents [112] = [] := by
  obtain ⟨state, hstep⟩ : ∃ state,
      Dispatch.step (.start 0 [0, 1] pingSlots) .runListener = some state := ⟨_, rfl⟩
  have hrun : ∃ watch, run Watch.step ⟨state, [], fun _ => []⟩
      [.runConsumer 0, .consumer 0 none .returns, .consumer 0 none .returns, .pick ping,
        .push true, .notify, .consumer 0 none .returns, .consumer 0 none .returns,
        .consumer 0 none .returns, .consumer 0 none .returns, .consumer 0 none .returns,
        .consumer 0 none .returns] = some watch ∧ watch.state.accepted [112] = [ping] ∧
      (watch.state.consumers 0).stage = .waiting ∧ (watch.state.consumers 0).wakeUp = false ∧
      watch.state.listening = .looping ∧
      watch.state.links.mLinks [112] = some (some 0) ∧ state.listening = .looping := by
    obtain rfl := Option.some.inj hstep
    exact ⟨_, rfl, rfl, rfl, rfl, rfl, rfl, rfl⟩
  obtain ⟨watch, hrun, haccepted, hwaiting, hdown, hlooping, hlink, hstart⟩ := hrun
  have hstarted := Watch.started_of_runListener hstep hstart
  have hreaches := Reaches.of_run hrun (meets_anything _ _)
  have hnone : ¬ Notifies watch.state 0 := by
    rintro ⟨name, hnotifying, _⟩
    rw [hlooping] at hnotifying
    cases hnotifying
  exact ⟨_, watch, hstarted, hreaches, haccepted, hwaiting, hdown, hnone, .inl hlink,
    empty_of_waiting hstarted hreaches hwaiting hdown hnone (.inl hlink)⟩

end Sednl.WakeUp
