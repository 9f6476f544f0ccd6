import Sednl.Net.WakeUp

/-!
# Catch-all routing

Who receives an event whose name is bound, and who the others.  `link_consumer`,
`read_connection` and `consume_events` each decide on their own whether a name
is bound: by the slot, by a link that is not null, and by the mere presence of
the name in `m_links`.  They differ on a name that has been bound and whose slot
is empty.
-/

namespace Sednl.Routing

open Sednl.Tag
open Sednl.Ring
open Sednl.Transition
open Sednl.Dispatch
open Sednl.WakeUp

/-! ## Calls before `run` -/

/-- What is called on a consumer.  A null function pointer leaves a slot empty
(`callable` is `false`), and a `run` of the consumer itself cleans its slots. -/
inductive SlotCall where
  | bind (name : List Byte)
  | setFunction (name : List Byte) (callable : Bool)
  | reset (name : List Byte)
  | setOnEvent (callable : Bool)
  | resetOnEvent
  | cleanSlots
  deriving DecidableEq, Repr

/-- The entry of a name in `m_slots`: `none` where it is not in the map. -/
def SlotCall.entry (name : List Byte) (entry : Option Bool) : SlotCall → Option Bool
  | .bind other => if other = name then some (entry.getD false) else entry
  | .setFunction other callable => if other = name then some callable else entry
  | .reset other => if other = name then some false else entry
  | .setOnEvent _ => entry
  | .resetOnEvent => entry
  | .cleanSlots => entry.filter id

def SlotCall.onEvent (slot : Bool) : SlotCall → Bool
  | .setOnEvent callable => callable
  | .resetOnEvent => false
  | _ => slot

def entryOf (history : List SlotCall) (name : List Byte) : Option Bool :=
  history.foldl (fun entry call => call.entry name entry) none

def onEventOf (history : List SlotCall) : Bool :=
  history.foldl (fun slot call => call.onEvent slot) false

/-- The slots of a consumer after some calls, in whatever order its map has
them. -/
structure Makes (history : List SlotCall) (slots : Slots) : Prop where
  hentry : ∀ name slot, (name, slot) ∈ slots.mSlots.slots ↔ entryOf history name = some slot
  honEvent : slots.onEvent = onEventOf history

theorem entryOf_concat (history : List SlotCall) (call : SlotCall) (name : List Byte) :
    entryOf (history ++ [call]) name = call.entry name (entryOf history name) := by
  rw [entryOf, List.foldl_append]
  rfl

def SlotCall.names : SlotCall → List (List Byte)
  | .bind name => [name]
  | .setFunction name _ => [name]
  | .reset name => [name]
  | .setOnEvent _ => []
  | .resetOnEvent => []
  | .cleanSlots => []

/-- The slots after some calls, in the order of the names. -/
def made (history : List SlotCall) : Slots where
  onDisconnect := false
  onServerDisconnect := false
  onEvent := onEventOf history
  mSlots :=
    { slots := ((history.flatMap SlotCall.names).dedup.filter fun name =>
        (entryOf history name).isSome).map fun name => (name, (entryOf history name).getD false)
      hnodup := by
        rw [List.map_map]
        have hself : (Prod.fst ∘ fun name => (name, (entryOf history name).getD false)) = id := rfl
        rw [hself, List.map_id]
        exact (List.nodup_dedup _).filter _ }

theorem SlotCall.entry_none {name : List Byte} {call : SlotCall} (hnew : name ∉ call.names) :
    call.entry name none = none := by
  cases call with
  | bind other | setFunction other _ | reset other =>
      rw [SlotCall.names, List.mem_singleton] at hnew
      rw [SlotCall.entry, if_neg (Ne.symm hnew)]
  | setOnEvent callable => rfl
  | resetOnEvent => rfl
  | cleanSlots => rfl

theorem entryOf_eq_none {history : List SlotCall} {name : List Byte}
    (hnew : name ∉ history.flatMap SlotCall.names) : entryOf history name = none := by
  induction history using List.reverseRecOn with
  | nil => rfl
  | append_singleton history call ih =>
      rw [List.flatMap_append, List.mem_append, not_or] at hnew
      rw [List.flatMap_singleton] at hnew
      rw [entryOf_concat, ih hnew.1, SlotCall.entry_none hnew.2]

theorem makes_made (history : List SlotCall) : Makes history (made history) where
  hentry name slot := by
    rw [made]
    simp only [List.mem_map, List.mem_filter, List.mem_dedup, Prod.mk.injEq]
    constructor
    · rintro ⟨other, ⟨_, hsome⟩, rfl, rfl⟩
      obtain ⟨slot, hslot⟩ := Option.isSome_iff_exists.mp hsome
      rw [hslot, Option.getD_some]
    · intro hslot
      refine ⟨name, ⟨?_, ?_⟩, rfl, ?_⟩
      · by_contra hnew
        rw [entryOf_eq_none hnew] at hslot
        cases hslot
      · rw [hslot, Option.isSome_some]
      · rw [hslot, Option.getD_some]
  honEvent := rfl

/-! ## What `run_init` makes of the slots -/

section Links

variable {name : List Byte} {links next : Links} {slots : ℕ → Slots} {consumers : List ℕ} {i : ℕ}

/-- Each name of a consumer is entered into `m_links`, and none is removed. -/
theorem linkSlots_enters {consumer : ℕ} {slots : List (List Byte × Bool)}
    (hlinks : linkSlots consumer slots links = some next) :
    next.mLinks name ≠ none ↔ links.mLinks name ≠ none ∨ ∃ slot, (name, slot) ∈ slots := by
  induction slots generalizing links with
  | nil =>
      obtain rfl := Option.some.inj hlinks
      simp
  | cons slot slots ih =>
      obtain ⟨other, slot⟩ := slot
      rw [linkSlots] at hlinks
      split at hlinks
      · cases hlinks
      · rename_i link _
        rw [ih hlinks]
        by_cases hsame : name = other
        · subst hsame
          rw [Links.set_self]
          exact ⟨fun _ => .inr ⟨slot, List.mem_cons_self⟩, fun _ => .inl (Option.some_ne_none _)⟩
        · rw [Links.set_of_ne hsame]
          simp only [List.mem_cons, Prod.mk.injEq, hsame, false_and, false_or]

theorem linkConsumers_enters (hlinks : linkConsumers slots consumers links = some next) :
    next.mLinks name ≠ none ↔
      links.mLinks name ≠ none ∨
        ∃ i ∈ consumers, ∃ slot, (name, slot) ∈ (slots i).mSlots.slots := by
  induction consumers generalizing links with
  | nil =>
      obtain rfl := Option.some.inj hlinks
      simp
  | cons consumer consumers ih =>
      obtain ⟨before, middle, hsame, hslots, _, _, _, hrest⟩ := linkConsumers_cons hlinks
      rw [ih hrest, linkSlots_enters hslots, hsame, or_assoc]
      simp only [List.mem_cons, exists_eq_or_imp]

theorem mLinks_eq_none (hlinks : linkConsumers slots consumers .clear = some links) :
    links.mLinks name = none ↔
      ∀ i ∈ consumers, ∀ slot, (name, slot) ∉ (slots i).mSlots.slots := by
  rw [← not_iff_not]
  apply (linkConsumers_enters hlinks).trans
  simp only [Links.clear, ne_eq, not_true_eq_false, false_or]
  push Not
  rfl

theorem mLinks_eq_some (hlinks : linkConsumers slots consumers .clear = some links) :
    links.mLinks name = some (some i) ↔
      i ∈ consumers ∧ (name, true) ∈ (slots i).mSlots.slots := by
  constructor
  · intro hset
    rcases linkConsumers_origin hlinks hset with hclear | hslot
    · cases hclear
    · exact hslot
  · rintro ⟨hi, hslot⟩
    exact linkConsumers_sets hlinks hi hslot

theorem onEvent_eq_some (hlinks : linkConsumers slots consumers .clear = some links) :
    links.onEvent = some i ↔ i ∈ consumers ∧ (slots i).onEvent = true := by
  constructor
  · intro hset
    rcases (linkedBy_onEvent _).origin hlinks hset with hclear | hslot
    · cases hclear
    · exact hslot
  · rintro ⟨hi, hslot⟩
    exact (linkedBy_onEvent _).sets hlinks hi hslot

end Links

/-! ## Where an event goes -/

/-- Consumer `i` binds the name with a slot that is not empty. -/
def Takes (mConsumers : List ℕ) (histories : ℕ → List SlotCall) (i : ℕ) (name : List Byte) :
    Prop :=
  i ∈ mConsumers ∧ entryOf (histories i) name = some true

/-- The callback for the events of a name: the slot of the consumer that binds
it, and `on_event` where no consumer does. -/
def Goes (mConsumers : List ℕ) (histories : ℕ → List SlotCall) (name : List Byte) :
    Callback → Prop
  | .slot i other => other = name ∧ Takes mConsumers histories i name
  | .onEvent i =>
      (i ∈ mConsumers ∧ onEventOf (histories i) = true) ∧
        ∀ j, ¬ Takes mConsumers histories j name

/-- Some consumer has an empty slot for the name, and none binds it. -/
def Hollow (mConsumers : List ℕ) (histories : ℕ → List SlotCall) (name : List Byte) : Prop :=
  (∃ i ∈ mConsumers, entryOf (histories i) name = some false) ∧
    ∀ i, ¬ Takes mConsumers histories i name

/-- Consumer `i` processes the queue of the name: `PROCESS_MESSAGES` for a slot,
or the test of `m_links` in the sweep for `on_event`. -/
def Processes (state : State) (i : ℕ) (name : List Byte) : Prop :=
  i ∈ state.mConsumers ∧
    ((name, true) ∈ (state.consumers i).slots.mSlots.slots ∨
      (state.consumers i).slots.onEvent = true ∧ state.links.mLinks name = none)

def passed (callback : Callback) (name : List Byte) (calls : List (Callback × CnEvent)) :
    List CnEvent :=
  (toCallback callback calls).filter fun item => item.event.name = name

def owner : Callback → ℕ
  | .slot i _ => i
  | .onEvent i => i

/-- What the routing is for: whom `read_connection` notifies is who processes
the queue; each call is one of the callback for its name; and once the consumer
of a callback waits, all events accepted for it have been passed to it. -/
structure Routed (mConsumers : List ℕ) (histories : ℕ → List SlotCall) (state : State) :
    Prop where
  hagrees : state.listening ≠ .idle → ∀ name i,
    state.notified name = some i ↔ Processes state i name
  hcalls : ∀ call ∈ state.calls, Goes mConsumers histories call.2.event.name call.1
  hpassed : ∀ name callback, Goes mConsumers histories name callback →
    (state.consumers (owner callback)).stage = .waiting →
    (state.consumers (owner callback)).wakeUp = false → ¬ Notifies state (owner callback) →
    passed callback name state.calls = state.accepted name

/-! ## What stays -/

/-- What `run_init` has made of the calls. -/
structure Linkage (mConsumers : List ℕ) (histories : ℕ → List SlotCall) (links : Links) :
    Prop where
  hnone : ∀ name, links.mLinks name = none ↔
    ∀ i ∈ mConsumers, entryOf (histories i) name = none
  hsome : ∀ {name i}, links.mLinks name = some (some i) ↔ Takes mConsumers histories i name
  honEvent : ∀ {i}, links.onEvent = some i ↔ i ∈ mConsumers ∧ onEventOf (histories i) = true

/-- What a run keeps of the slots and of the links. -/
structure Frozen (mConsumers : List ℕ) (histories : ℕ → List SlotCall) (links : Links)
    (state : State) : Prop where
  hconsumers : state.mConsumers = mConsumers
  hslots : ∀ i ∈ mConsumers, ∀ name,
    (name, true) ∈ (state.consumers i).slots.mSlots.slots ↔
      entryOf (histories i) name = some true
  honEvent : ∀ i ∈ mConsumers,
    (state.consumers i).slots.onEvent = onEventOf (histories i)
  hlinks : state.listening ≠ .idle → state.links = links

section Static

variable {mConsumers : List ℕ} {histories : ℕ → List SlotCall} {links : Links} {state : State}
variable {name : List Byte}

theorem linkage_of_makes {slots : ℕ → Slots}
    (hmakes : ∀ i ∈ mConsumers, Makes (histories i) (slots i))
    (hlinks : linkConsumers slots mConsumers .clear = some links) :
    Linkage mConsumers histories links where
  hnone name := by
    rw [mLinks_eq_none hlinks]
    apply forall₂_congr
    intro i hi
    simp only [(hmakes i hi).hentry, Option.eq_none_iff_forall_ne_some, ne_eq]
  hsome := by
    intro name i
    rw [mLinks_eq_some hlinks]
    apply and_congr_right
    intro hi
    exact (hmakes i hi).hentry name true
  honEvent := by
    intro i
    rw [onEvent_eq_some hlinks]
    apply and_congr_right
    intro hi
    rw [(hmakes i hi).honEvent]

theorem Linkage.takes_unique (hlinkage : Linkage mConsumers histories links) {i j : ℕ}
    (hi : Takes mConsumers histories i name) (hj : Takes mConsumers histories j name) :
    i = j := by
  have hlink := (hlinkage.hsome.mpr hi).symm.trans (hlinkage.hsome.mpr hj)
  rwa [Option.some.injEq, Option.some.injEq] at hlink

/-- There is at most one callback for a name. -/
theorem Linkage.goes_unique (hlinkage : Linkage mConsumers histories links)
    {callback other : Callback} (hgoes : Goes mConsumers histories name callback)
    (hother : Goes mConsumers histories name other) : callback = other := by
  cases callback with
  | slot i slot =>
      obtain ⟨rfl, hi⟩ := hgoes
      cases other with
      | slot j slot =>
          obtain ⟨rfl, hj⟩ := hother
          rw [hlinkage.takes_unique hi hj]
      | onEvent j => exact absurd hi (hother.2 i)
  | onEvent i =>
      cases other with
      | slot j slot => exact absurd hother.2 (hgoes.2 j)
      | onEvent j =>
          have hlink := (hlinkage.honEvent.mpr hgoes.1).symm.trans (hlinkage.honEvent.mpr hother.1)
          rw [Option.some.inj hlink]

theorem Frozen.binds_iff (hfrozen : Frozen mConsumers histories links state) (i : ℕ) :
    state.Binds i name ↔ Takes mConsumers histories i name := by
  rw [State.Binds, hfrozen.hconsumers]
  apply and_congr_right
  intro hi
  exact hfrozen.hslots i hi name

theorem Frozen.processes_iff (hfrozen : Frozen mConsumers histories links state)
    (hactive : state.listening ≠ .idle) (i : ℕ) :
    Processes state i name ↔ Takes mConsumers histories i name ∨
      (i ∈ mConsumers ∧ onEventOf (histories i) = true) ∧ links.mLinks name = none := by
  rw [Processes, hfrozen.hconsumers, hfrozen.hlinks hactive, and_or_left, and_assoc]
  apply or_congr
  · apply and_congr_right
    intro hi
    exact hfrozen.hslots i hi name
  · apply and_congr_right
    intro hi
    rw [hfrozen.honEvent i hi]

/-- A hollow name has a null link. -/
theorem Linkage.hollow_iff (hlinkage : Linkage mConsumers histories links) :
    Hollow mConsumers histories name ↔ links.mLinks name = some none := by
  constructor
  · rintro ⟨⟨j, hj, hentry⟩, hnobody⟩
    cases hlink : links.mLinks name with
    | none =>
        rw [(hlinkage.hnone name).mp hlink j hj] at hentry
        cases hentry
    | some link =>
        cases link with
        | none => rfl
        | some k => exact absurd (hlinkage.hsome.mp hlink) (hnobody k)
  · intro hlink
    have hnobody : ∀ j, ¬ Takes mConsumers histories j name := by
      intro j htakes
      rw [hlinkage.hsome.mpr htakes] at hlink
      cases hlink
    have hentered : ¬ ∀ j ∈ mConsumers, entryOf (histories j) name = none := by
      rw [← hlinkage.hnone, hlink]
      exact Option.some_ne_none _
    push Not at hentered
    obtain ⟨j, hj, hentry⟩ := hentered
    obtain ⟨slot, hslot⟩ := Option.ne_none_iff_exists'.mp hentry
    refine ⟨⟨j, hj, ?_⟩, hnobody⟩
    cases slot with
    | false => exact hslot
    | true => exact absurd ⟨hj, hslot⟩ (hnobody j)

/-- For a name that is not hollow, producer and consumers agree. -/
theorem Frozen.agrees (hlinkage : Linkage mConsumers histories links)
    (hfrozen : Frozen mConsumers histories links state) (hactive : state.listening ≠ .idle)
    (hnot : ∀ i, links.onEvent = some i → ¬ Hollow mConsumers histories name) (i : ℕ) :
    state.notified name = some i ↔ Processes state i name := by
  rw [hfrozen.processes_iff hactive, State.notified, Links.notified, hfrozen.hlinks hactive,
    ← hlinkage.hsome, ← hlinkage.honEvent]
  cases hlink : links.mLinks name with
  | none => simp
  | some link =>
      cases link with
      | some j => simp
      | none =>
          have hnone : links.onEvent ≠ some i := fun honEvent =>
            hnot i honEvent (hlinkage.hollow_iff.mpr hlink)
          simpa using hnone

/-- For a hollow name, `read_connection` wakes a consumer that does not process
the queue. -/
theorem Frozen.disagrees (hlinkage : Linkage mConsumers histories links)
    (hfrozen : Frozen mConsumers histories links state) (hactive : state.listening ≠ .idle)
    (hhollow : Hollow mConsumers histories name) {i : ℕ} (honEvent : links.onEvent = some i) :
    state.notified name = some i ∧ ¬ Processes state i name := by
  have hlink := hlinkage.hollow_iff.mp hhollow
  rw [hfrozen.processes_iff hactive, State.notified, Links.notified, hfrozen.hlinks hactive,
    ← hlinkage.hsome, hlink]
  exact ⟨honEvent, by simp⟩

end Static

/-! ## What a step does -/

/-- Where a sweep stands, unless it is between two slots. -/
def handles : Stage → Option Place
  | .consuming _ (.slots _) => none
  | .consuming _ place => some place
  | _ => none

/-- A step that moves no event. -/
structure Quiet (state next : State) : Prop where
  hconsumers : next.mConsumers = state.mConsumers
  hslots : ∀ i, (next.consumers i).SameSlots (state.consumers i)
  honEvent : ∀ i, (next.consumers i).slots.onEvent = (state.consumers i).slots.onEvent
  hlinks : next.listening ≠ .idle → state.listening ≠ .idle ∧ next.links = state.links
  hqueues : next.mEvents = state.mEvents
  haccepted : next.accepted = state.accepted
  hcalls : next.calls = state.calls
  hhandles : ∀ i, handles (next.consumers i).stage = handles (state.consumers i).stage

theorem Stage.inCall_of_handles {stage other : Stage} (hsame : handles stage = handles other)
    (i : ℕ) : stage.inCall i = other.inCall i := by
  have hplace : ∀ stage : Stage, stage.inCall i =
      (handles stage).bind fun place => (Stage.consuming false place).inCall i := by
    intro stage
    cases stage with
    | consuming last place => cases place <;> rfl
    | idle | starting | checking | waiting | ended => rfl
  rw [hplace, hplace, hsame]

section Quiet

variable {state : State}

theorem Quiet.of_listening {listening : Listening}
    (hactive : listening ≠ .idle → state.listening ≠ .idle) :
    Quiet state { state with listening := listening } :=
  ⟨rfl, fun _ _ => Iff.rfl, fun _ => rfl, fun h => ⟨hactive h, rfl⟩, rfl, rfl, rfl, fun _ => rfl⟩

theorem Quiet.of_set {i : ℕ} {consumer : Consumer}
    (hslots : consumer.SameSlots (state.consumers i))
    (honEvent : consumer.slots.onEvent = (state.consumers i).slots.onEvent)
    (hhandles : handles consumer.stage = handles (state.consumers i).stage) :
    Quiet state (state.set i consumer) := by
  have hall : ∀ j, ((state.set i consumer).consumers j).SameSlots (state.consumers j) ∧
      ((state.set i consumer).consumers j).slots.onEvent = (state.consumers j).slots.onEvent ∧
      handles ((state.set i consumer).consumers j).stage = handles (state.consumers j).stage := by
    intro j
    by_cases hj : j = i
    · subst hj
      rw [State.set_self]
      exact ⟨hslots, honEvent, hhandles⟩
    · rw [State.set_of_ne hj]
      exact ⟨fun _ => Iff.rfl, rfl, rfl⟩
  exact ⟨rfl, fun j => (hall j).1, fun j => (hall j).2.1, fun h => ⟨h, rfl⟩, rfl, rfl, rfl,
    fun j => (hall j).2.2⟩

theorem Quiet.trans {middle next : State} (hfirst : Quiet state middle)
    (hsecond : Quiet middle next) : Quiet state next where
  hconsumers := hsecond.hconsumers.trans hfirst.hconsumers
  hslots i name := (hsecond.hslots i name).trans (hfirst.hslots i name)
  honEvent i := (hsecond.honEvent i).trans (hfirst.honEvent i)
  hlinks hactive := by
    obtain ⟨hmiddle, hlinks⟩ := hsecond.hlinks hactive
    obtain ⟨hstart, hbefore⟩ := hfirst.hlinks hmiddle
    exact ⟨hstart, hlinks.trans hbefore⟩
  hqueues := hsecond.hqueues.trans hfirst.hqueues
  haccepted := hsecond.haccepted.trans hfirst.haccepted
  hcalls := hsecond.hcalls.trans hfirst.hcalls
  hhandles i := (hsecond.hhandles i).trans (hfirst.hhandles i)

theorem Quiet.notify (link : Option ℕ) : Quiet state (state.notify link) := by
  cases link with
  | none => exact .of_listening id
  | some i => exact .of_set (fun _ => Iff.rfl) rfl rfl

/-- Once the listener runs, a step moves no event, or it is a push, or a
consumer goes on with its sweep. -/
theorem step_cases {action : Action} {next : State} (hrun : action ≠ .runListener)
    (hpop : ∀ i, action ≠ .popFails i)
    (hstep : Dispatch.step state action = some next) :
    Quiet state next ∨
      (∃ item, state.listening = .pushing item ∧
        next = { state.pushed item with listening := .notifying item.event.name }) ∨
      ∃ i last place visit outcome, i ∈ state.mConsumers ∧
        (state.consumers i).stage = .consuming last place ∧
        next = state.consume i last visit outcome place := by
  cases branch_of_step hstep with
  | collides hready hlinks => exact absurd rfl hrun
  | runListener hready hlinks => exact absurd rfl hrun
  | @misses i last name todo hi hconsuming => exact absurd rfl (hpop i)
  | @missesRest i last name hi hconsuming => exact absurd rfl (hpop i)
  | joinListener hruns =>
      exact .inl ⟨rfl, fun _ _ => Iff.rfl, fun _ => rfl, fun h => ⟨h, rfl⟩, rfl, rfl, rfl,
        fun _ => rfl⟩
  | runConsumer hready =>
      refine .inl (.of_set (fun name => Slots.mem_clean _) rfl ?_)
      rw [hready.2.2]
      rfl
  | joinConsumer hready => exact .inl (.of_set (fun _ => Iff.rfl) rfl rfl)
  | consumerJoined hready =>
      refine .inl (.of_set (fun _ => Iff.rfl) rfl ?_)
      rw [hready.2.2]
      rfl
  | full hlooping hfull => exact .inl (.of_listening id)
  | pick hlooping hroom => exact .inl (.of_listening fun _ => by simp [hlooping])
  | @push item hpushing => exact .inr (.inl ⟨item, hpushing, rfl⟩)
  | pushFails hpushing => exact .inl (.of_listening fun _ => by simp [hpushing])
  | @notify name hnotifying =>
      have hwoken : Quiet state (state.notify (state.notified name)) := .notify _
      refine .inl (hwoken.trans (.of_listening fun _ => ?_))
      have hsame : (state.notify (state.notified name)).listening = state.listening := by
        cases state.notified name <;> rfl
      simp [hsame, hnotifying]
  | leave hready => exact .inl (.of_listening fun _ => by simp [hready.1])
  | @await i todo hjoining hruns hjoinable =>
      have htold : Quiet state (state.set i { state.consumers i with mRunning := false }) :=
        .of_set (fun _ => Iff.rfl) rfl rfl
      exact .inl ⟨rfl, htold.hslots, htold.honEvent, fun _ => ⟨by simp [hjoining], rfl⟩, rfl, rfl,
        rfl, htold.hhandles⟩
  | @tell i todo hjoining hruns hnothing =>
      have htold : Quiet state (state.set i { state.consumers i with mRunning := false }) :=
        .of_set (fun _ => Iff.rfl) rfl rfl
      exact .inl (htold.trans (.of_listening fun _ => by simp [State.set, hjoining]))
  | skip hjoining hstopped => exact .inl (.of_listening fun _ => by simp [hjoining])
  | @nextJoined i todo hwaiting hended =>
      have hidle : Quiet state (state.move i .idle) := by
        refine .of_set (fun _ => Iff.rfl) rfl ?_
        rw [hended]
        rfl
      exact .inl (hidle.trans (.of_listening fun _ => by simp [State.move, State.set, hwaiting]))
  | release hjoining =>
      exact .inl ⟨rfl, fun _ _ => Iff.rfl, fun _ => rfl, fun h => absurd rfl h, rfl, rfl, rfl,
        fun _ => rfl⟩
  | starts hi hstarting => exact .inl (.of_set (fun _ => Iff.rfl) rfl (by rw [hstarting]; rfl))
  | waits hi hchecking hruns => exact .inl (.of_set (fun _ => Iff.rfl) rfl (by rw [hchecking]; rfl))
  | stops hi hchecking hstopped =>
      exact .inl (.of_set (fun _ => Iff.rfl) rfl (by rw [hchecking]; rfl))
  | wakes hi hwaiting hup => exact .inl (.of_set (fun _ => Iff.rfl) rfl (by rw [hwaiting]; rfl))
  | timesOut hi hwaiting hdown =>
      exact .inl (.of_set (fun _ => Iff.rfl) rfl (by rw [hwaiting]; rfl))
  | @consumes i visit outcome last place hi hconsuming =>
      exact .inr (.inr ⟨i, last, place, visit, outcome, hi, hconsuming, rfl⟩)

end Quiet

/-! ## The invariant -/

/-- In the sweep for `on_event`. -/
def rests : Place → Bool
  | .rest | .process _ | .restCall _ _ => true
  | .slots _ | .call _ _ _ => false

/-- The event in hand of consumer `i` for `on_event`. -/
def caught (state : State) (i : ℕ) (name : List Byte) : List CnEvent :=
  passed (.onEvent i) name ((state.consumers i).stage.inCall i).toList

/-- Calls are of the right callback, and for an event that goes to `on_event`:
it is in its queue, in hand, or passed on, in this order. -/
structure Caught (mConsumers : List ℕ) (histories : ℕ → List SlotCall) (state : State) :
    Prop where
  hrests : ∀ i ∈ mConsumers, ∀ place, handles (state.consumers i).stage = some place →
    rests place = true → onEventOf (histories i) = true
  hcalls : ∀ call ∈ state.calls, Goes mConsumers histories call.2.event.name call.1
  hinCall : ∀ i ∈ mConsumers, ∀ call, (state.consumers i).stage.inCall i = some call →
    Goes mConsumers histories call.2.event.name call.1
  hexact : ∀ i name, Goes mConsumers histories name (.onEvent i) →
    passed (.onEvent i) name state.calls ++ caught state i name ++ state.mEvents name =
      state.accepted name

theorem passed_append (callback : Callback) (name : List Byte)
    (left right : List (Callback × CnEvent)) :
    passed callback name (left ++ right) =
      passed callback name left ++ passed callback name right := by
  rw [passed, toCallback_append, List.filter_append, passed, passed]

theorem passed_self (callback : Callback) (item : CnEvent) :
    passed callback item.event.name [(callback, item)] = [item] := by
  rw [passed, toCallback_self]
  simp

theorem passed_of_ne {callback other : Callback} {name : List Byte} {item : CnEvent}
    (hne : other ≠ callback ∨ item.event.name ≠ name) :
    passed callback name [(other, item)] = [] := by
  rw [passed, List.filter_eq_nil_iff]
  intro found hfound
  by_cases hother : other = callback
  · subst hother
    rw [toCallback_self, List.mem_singleton] at hfound
    subst hfound
    simpa using hne
  · rw [toCallback_of_ne hother] at hfound
    cases hfound

theorem owner_inCall {stage : Stage} {i : ℕ} {callback : Callback} {item : CnEvent}
    (hcall : stage.inCall i = some (callback, item)) : owner callback = i := by
  cases stage with
  | consuming last place =>
      cases place with
      | call name event todo =>
          obtain ⟨rfl, _⟩ := Prod.mk.inj (Option.some.inj hcall)
          rfl
      | restCall name event =>
          obtain ⟨rfl, _⟩ := Prod.mk.inj (Option.some.inj hcall)
          rfl
      | slots todo => cases hcall
      | rest => cases hcall
      | process name => cases hcall
  | idle | starting | checking | waiting | ended => cases hcall

section Steps

variable {mConsumers : List ℕ} {histories : ℕ → List SlotCall} {links : Links}
variable {state next : State} {i : ℕ} {name : List Byte}

theorem caught_move {stage : Stage} :
    caught (state.move i stage) i name = passed (.onEvent i) name (stage.inCall i).toList := by
  rw [caught, State.move, State.set_self]

theorem caught_move_of_ne {j : ℕ} (hj : j ≠ i) {stage : Stage} :
    caught (state.move i stage) j name = caught state j name := by
  rw [caught, State.move, State.set_of_ne hj, caught]

theorem Frozen.of_quiet (hfrozen : Frozen mConsumers histories links state)
    (hquiet : Quiet state next) : Frozen mConsumers histories links next where
  hconsumers := hquiet.hconsumers.trans hfrozen.hconsumers
  hslots i hi name := (hquiet.hslots i name).trans (hfrozen.hslots i hi name)
  honEvent i hi := (hquiet.honEvent i).trans (hfrozen.honEvent i hi)
  hlinks hactive := by
    obtain ⟨hbefore, hlinks⟩ := hquiet.hlinks hactive
    exact hlinks.trans (hfrozen.hlinks hbefore)

theorem Caught.of_quiet (hcaught : Caught mConsumers histories state)
    (hquiet : Quiet state next) : Caught mConsumers histories next where
  hrests i hi place hplace := hcaught.hrests i hi place ((hquiet.hhandles i).symm.trans hplace)
  hcalls := by
    rw [hquiet.hcalls]
    exact hcaught.hcalls
  hinCall i hi call hcall := by
    rw [Stage.inCall_of_handles (hquiet.hhandles i)] at hcall
    exact hcaught.hinCall i hi call hcall
  hexact i name hgoes := by
    rw [caught, Stage.inCall_of_handles (hquiet.hhandles i), hquiet.hcalls, hquiet.hqueues,
      hquiet.haccepted]
    exact hcaught.hexact i name hgoes

theorem Caught.push (hcaught : Caught mConsumers histories state) (item : CnEvent)
    (listening : Listening) :
    Caught mConsumers histories { state.pushed item with listening := listening } where
  hrests := hcaught.hrests
  hcalls := hcaught.hcalls
  hinCall := hcaught.hinCall
  hexact i name hgoes := by
    have hexact := hcaught.hexact i name hgoes
    have hsame : (state.pushed item).accepted name =
        passed (.onEvent i) name state.calls ++ caught state i name ++
          (state.pushed item).mEvents name := by
      by_cases hname : name = item.event.name
      · subst hname
        rw [State.pushed_self, State.accepted_self, ← hexact, List.append_assoc]
      · rw [State.pushed_of_ne hname, State.accepted_of_ne hname, hexact]
    exact hsame.symm

theorem Frozen.push (hfrozen : Frozen mConsumers histories links state) {item : CnEvent}
    (hpushing : state.listening = .pushing item) :
    Frozen mConsumers histories links
      { state.pushed item with listening := .notifying item.event.name } :=
  ⟨hfrozen.hconsumers, hfrozen.hslots, hfrozen.honEvent,
    fun _ => hfrozen.hlinks (by simp [hpushing])⟩

/-! ### A sweep -/

theorem Frozen.move (hfrozen : Frozen mConsumers histories links state) (stage : Stage) :
    Frozen mConsumers histories links (state.move i stage) := by
  have hsame : ∀ j, ((state.move i stage).consumers j).slots = (state.consumers j).slots := by
    intro j
    by_cases hj : j = i
    · rw [hj, State.move, State.set_self]
    · rw [State.move, State.set_of_ne hj]
  refine ⟨hfrozen.hconsumers, fun j hj name => ?_, fun j hj => ?_, hfrozen.hlinks⟩
  · rw [hsame]
    exact hfrozen.hslots j hj name
  · rw [hsame]
    exact hfrozen.honEvent j hj

theorem Frozen.popped (hfrozen : Frozen mConsumers histories links state) (name : List Byte)
    (items : List CnEvent) : Frozen mConsumers histories links (state.popped name items) :=
  ⟨hfrozen.hconsumers, hfrozen.hslots, hfrozen.honEvent, hfrozen.hlinks⟩

theorem Frozen.slotCall (hfrozen : Frozen mConsumers histories links state)
    (callback : Callback) (item : CnEvent) (outcome : Outcome) :
    Frozen mConsumers histories links (state.slotCall callback item outcome) := by
  rw [slotCall_eq]
  exact ⟨hfrozen.hconsumers, hfrozen.hslots, hfrozen.honEvent, hfrozen.hlinks⟩

theorem Frozen.consume (hfrozen : Frozen mConsumers histories links state) (last : Bool)
    (visit : Option (List Byte)) (outcome : Outcome) (place : Place) :
    Frozen mConsumers histories links (state.consume i last visit outcome place) := by
  fun_cases State.consume
  all_goals first
    | exact hfrozen.move _
    | exact (hfrozen.popped _ _).move _
    | exact (hfrozen.slotCall _ _ _).move _
    | exact hfrozen

theorem Caught.move (hcaught : Caught mConsumers histories state) {stage : Stage}
    (hrests : i ∈ mConsumers → ∀ place, handles stage = some place → rests place = true →
      onEventOf (histories i) = true)
    (hcall : stage.inCall i = (state.consumers i).stage.inCall i) :
    Caught mConsumers histories (state.move i stage) where
  hrests j hj := by
    by_cases hsame : j = i
    · subst hsame
      rw [State.move, State.set_self]
      exact hrests hj
    · rw [State.move, State.set_of_ne hsame]
      exact hcaught.hrests j hj
  hcalls := hcaught.hcalls
  hinCall j hj := by
    by_cases hsame : j = i
    · subst hsame
      rw [State.move, State.set_self, hcall]
      exact hcaught.hinCall j hj
    · rw [State.move, State.set_of_ne hsame]
      exact hcaught.hinCall j hj
  hexact j name hgoes := by
    have hhand : caught (state.move i stage) j name = caught state j name := by
      by_cases hsame : j = i
      · subst hsame
        rw [caught_move, hcall, caught]
      · exact caught_move_of_ne hsame
    rw [hhand]
    exact hcaught.hexact j name hgoes

/-- A consumer pops an event that goes to a callback of it. -/
theorem Caught.pop (hlinkage : Linkage mConsumers histories links)
    (hcaught : Caught mConsumers histories state) {item : CnEvent} {items : List CnEvent}
    (hqueue : state.mEvents name = item :: items) (hname : item.event.name = name)
    (hnone : (state.consumers i).stage.inCall i = none) {stage : Stage} {callback : Callback}
    (hgoes : Goes mConsumers histories name callback)
    (hcall : stage.inCall i = some (callback, item))
    (hrests : i ∈ mConsumers → ∀ place, handles stage = some place → rests place = true →
      onEventOf (histories i) = true) :
    Caught mConsumers histories ((state.popped name items).move i stage) where
  hrests j hj := by
    by_cases hsame : j = i
    · subst hsame
      rw [State.move, State.set_self]
      exact hrests hj
    · rw [State.move, State.set_of_ne hsame]
      exact hcaught.hrests j hj
  hcalls := hcaught.hcalls
  hinCall j hj call hfound := by
    by_cases hsame : j = i
    · subst hsame
      rw [State.move, State.set_self, hcall] at hfound
      obtain rfl := Option.some.inj hfound
      rwa [hname]
    · rw [State.move, State.set_of_ne hsame] at hfound
      exact hcaught.hinCall j hj call hfound
  hexact j other hother := by
    have hexact := hcaught.hexact j other hother
    by_cases hqueued : other = name
    · subst hqueued
      obtain rfl := hlinkage.goes_unique hgoes hother
      obtain rfl : j = i := owner_inCall hcall
      have hempty : caught state j other = [] := by
        rw [caught, hnone]
        rfl
      have hhand : caught ((state.popped other items).move j stage) j other = [item] := by
        rw [caught_move, hcall, Option.toList_some, ← hname, passed_self]
      have hleft : ((state.popped other items).move j stage).mEvents other = items :=
        State.popped_self
      rw [hempty, hqueue, List.append_nil] at hexact
      rw [hhand, hleft, List.append_assoc]
      exact hexact
    · have hhand : caught ((state.popped name items).move i stage) j other =
          caught state j other := by
        by_cases hsame : j = i
        · subst hsame
          rw [caught_move, hcall, caught, hnone]
          exact passed_of_ne (.inr (hname.trans_ne (Ne.symm hqueued)))
        · exact caught_move_of_ne hsame
      have hleft : ((state.popped name items).move i stage).mEvents other =
          state.mEvents other := State.popped_of_ne hqueued
      rw [hhand, hleft]
      exact hexact

/-- The event in hand is passed on. -/
theorem Caught.call (hcaught : Caught mConsumers histories state) (hi : i ∈ mConsumers)
    {item : CnEvent} {callback : Callback}
    (hcall : (state.consumers i).stage.inCall i = some (callback, item)) {stage : Stage}
    (hnone : stage.inCall i = none) (outcome : Outcome)
    (hrests : ∀ place, handles stage = some place → rests place = true →
      onEventOf (histories i) = true) :
    Caught mConsumers histories ((state.slotCall callback item outcome).move i stage) := by
  rw [slotCall_eq]
  constructor
  · intro j hj
    by_cases hsame : j = i
    · subst hsame
      rw [State.move, State.set_self]
      exact hrests
    · rw [State.move, State.set_of_ne hsame]
      exact hcaught.hrests j hj
  · intro call hfound
    rcases List.mem_append.mp hfound with hbefore | hlast
    · exact hcaught.hcalls call hbefore
    · rw [List.mem_singleton.mp hlast]
      exact hcaught.hinCall i hi _ hcall
  · intro j hj call hfound
    by_cases hsame : j = i
    · subst hsame
      rw [State.move, State.set_self, hnone] at hfound
      cases hfound
    · rw [State.move, State.set_of_ne hsame] at hfound
      exact hcaught.hinCall j hj call hfound
  · intro j other hother
    have hexact := hcaught.hexact j other hother
    have hmoved : passed (.onEvent j) other (state.calls ++ [(callback, item)]) ++
        caught (({ state with calls := state.calls ++ [(callback, item)] } : State).move i stage)
          j other = passed (.onEvent j) other state.calls ++ caught state j other := by
      rw [passed_append]
      by_cases hsame : j = i
      · subst hsame
        rw [caught_move, hnone, caught, hcall, Option.toList_some, Option.toList_none,
          List.append_assoc]
        exact congrArg _ (List.append_nil _)
      · have hnot : callback ≠ .onEvent j := by
          rintro rfl
          exact hsame (owner_inCall hcall)
        rw [passed_of_ne (.inl hnot), List.append_nil, caught_move_of_ne hsame]
        rfl
    exact (congrArg (· ++ state.mEvents other) hmoved).trans hexact

/-- A consumer that goes through `m_events` has an `on_event` slot. -/
theorem Caught.onEvent_of_rests (hcaught : Caught mConsumers histories state)
    (hi : i ∈ mConsumers) {last : Bool} {place : Place}
    (hstage : (state.consumers i).stage = .consuming last place) (hrests : rests place = true) :
    onEventOf (histories i) = true := by
  refine hcaught.hrests i hi place ?_ hrests
  rw [hstage]
  cases place with
  | slots todo => cases hrests
  | call name item todo | rest | process name | restCall name item => rfl

/-- A sweep goes on. -/
theorem Caught.consume (hlinkage : Linkage mConsumers histories links)
    (hfrozen : Frozen mConsumers histories links state) (hkept : Kept state)
    (hcaught : Caught mConsumers histories state) (hi : i ∈ mConsumers) {last : Bool}
    {place : Place} (hstage : (state.consumers i).stage = .consuming last place)
    (visit : Option (List Byte)) (outcome : Outcome) :
    Caught mConsumers histories (state.consume i last visit outcome place) := by
  have hmem : i ∈ state.mConsumers := by
    rw [hfrozen.hconsumers]
    exact hi
  have hcontrol := hkept.hcontrol
  have hfinish : ∀ place, handles (State.finish last) = some place → rests place = true →
      onEventOf (histories i) = true := by
    intro place hplace
    cases last <;> cases hplace
  cases place with
  | slots todo =>
      cases todo with
      | nil =>
          rw [State.consume]
          split
          · rename_i honEvent
            refine hcaught.move (fun _ _ _ _ => ?_) ?_
            · rw [← hfrozen.honEvent i hi, honEvent]
            · rw [hstage]
              rfl
          · refine hcaught.move (fun _ => hfinish) ?_
            rw [hstage]
            cases last <;> rfl
      | cons slot todo =>
          obtain ⟨name, slot⟩ := slot
          have hskip : Caught mConsumers histories
              (state.move i (.consuming last (.slots todo))) := by
            refine hcaught.move (fun _ place hplace => by cases hplace) ?_
            rw [hstage]
            rfl
          cases slot with
          | false => exact hskip
          | true =>
              cases hqueue : state.mEvents name with
              | nil =>
                  rw [State.consume, hqueue]
                  exact hskip
              | cons item items =>
                  have hslot : (name, true) ∈ (state.consumers i).slots.mSlots.slots := by
                    apply hcontrol.htodo i hmem
                    rw [hstage]
                    exact List.mem_cons_self
                  have hgoes : Goes mConsumers histories name (.slot i name) :=
                    ⟨rfl, hi, (hfrozen.hslots i hi name).mp hslot⟩
                  have hname := hkept.htally.hnamed name item (by simp [hqueue])
                  rw [State.consume, hqueue]
                  refine hcaught.pop hlinkage hqueue hname ?_ hgoes rfl fun _ place hplace => ?_
                  · rw [hstage]
                    rfl
                  · obtain rfl := Option.some.inj hplace
                    exact fun hrests => by cases hrests
  | call name item todo =>
      rw [State.consume]
      refine hcaught.call hi ?_ rfl outcome fun place hplace => by cases hplace
      rw [hstage]
      rfl
  | rest =>
      have hrests : onEventOf (histories i) = true := hcaught.onEvent_of_rests hi hstage rfl
      cases visit with
      | none =>
          rw [State.consume]
          refine hcaught.move (fun _ => hfinish) ?_
          rw [hstage]
          cases last <;> rfl
      | some name =>
          rw [State.consume]
          split
          · refine hcaught.move (fun _ _ _ _ => hrests) ?_
            rw [hstage]
            rfl
          · exact hcaught
  | process name =>
      have hrests : onEventOf (histories i) = true := hcaught.onEvent_of_rests hi hstage rfl
      cases hqueue : state.mEvents name with
      | nil =>
          rw [State.consume, hqueue]
          refine hcaught.move (fun _ _ _ _ => hrests) ?_
          rw [hstage]
          rfl
      | cons item items =>
          have hgoes : Goes mConsumers histories name (.onEvent i) := by
            refine ⟨⟨hi, hrests⟩, fun j htakes => ?_⟩
            apply hcontrol.hresting i hmem name _ j ((hfrozen.binds_iff j).mpr htakes)
            rw [hstage]
            rfl
          have hname := hkept.htally.hnamed name item (by simp [hqueue])
          rw [State.consume, hqueue]
          refine hcaught.pop hlinkage hqueue hname ?_ hgoes rfl fun _ _ _ _ => hrests
          rw [hstage]
          rfl
  | restCall name item =>
      rw [State.consume]
      refine hcaught.call hi ?_ rfl outcome fun place hplace hrests => ?_
      · rw [hstage]
        rfl
      · exact hcaught.onEvent_of_rests hi hstage rfl

end Steps

/-! ## Runs -/

section Runs

variable {mMaxQueueSize : ℕ} {mConsumers : List ℕ} {histories : ℕ → List SlotCall}
variable {slots : ℕ → Slots} {links : Links}

/-- What a run of the listener keeps. -/
structure Runs (mConsumers : List ℕ) (histories : ℕ → List SlotCall) (links : Links)
    (watch : Watch) : Prop where
  hfrozen : Frozen mConsumers histories links watch.state
  hcaught : Caught mConsumers histories watch.state
  hkept : Kept watch.state
  hawake : Awake watch

/-- Quiet steps, pushes and sweeps keep who catches what. -/
theorem Runs.step (hlinkage : Linkage mConsumers histories links) {watch next : Watch}
    (hruns : Runs mConsumers histories links watch) {action : Action}
    (hsafe : Safe watch.state action) (hnext : watch.step action = some next) :
    Runs mConsumers histories links next := by
  have hstate := Watch.step_state hnext
  have hrun : action ≠ .runListener := by
    rintro rfl
    cases hnext
  have hpop : ∀ i, action ≠ .popFails i := by
    rintro i rfl
    cases hnext
  refine ⟨?_, ?_, hruns.hkept.step hsafe hstate, hruns.hawake.step hnext⟩
  · rcases step_cases hrun hpop hstate with hquiet | ⟨item, hpushing, hpush⟩ |
      ⟨i, last, place, visit, outcome, _, _, hconsume⟩
    · exact hruns.hfrozen.of_quiet hquiet
    · rw [hpush]
      exact hruns.hfrozen.push hpushing
    · rw [hconsume]
      exact hruns.hfrozen.consume last visit outcome place
  · rcases step_cases hrun hpop hstate with hquiet | ⟨item, hpushing, hpush⟩ |
      ⟨i, last, place, visit, outcome, hi, hstage, hconsume⟩
    · exact hruns.hcaught.of_quiet hquiet
    · rw [hpush]
      exact hruns.hcaught.push item _
    · rw [hconsume]
      rw [hruns.hfrozen.hconsumers] at hi
      exact hruns.hcaught.consume hlinkage hruns.hfrozen hruns.hkept hi hstage visit outcome

/-- `run_init` establishes what a run keeps. -/
theorem runs_of_runListener (hmakes : ∀ i ∈ mConsumers, Makes (histories i) (slots i))
    {state : State}
    (hstep : Dispatch.step (.start mMaxQueueSize mConsumers slots) .runListener = some state)
    (hlooping : state.listening = .looping) :
    Linkage mConsumers histories state.links ∧
      Runs mConsumers histories state.links ⟨state, [], fun _ => []⟩ := by
  have hsafe : Dispatch.Safe (.start mMaxQueueSize mConsumers slots) .runListener := trivial
  have hkept : Kept state := (kept_start mMaxQueueSize mConsumers slots).step hsafe hstep
  have hstarted := Watch.started_of_runListener hstep hlooping
  rw [Dispatch.step] at hstep
  split at hstep
  · split at hstep
    · obtain rfl := Option.some.inj hstep
      cases hlooping
    · rename_i links hlinks
      obtain rfl := Option.some.inj hstep
      refine ⟨linkage_of_makes hmakes hlinks, ⟨rfl, fun i hi name => ?_, fun i hi => ?_,
        fun _ => rfl⟩, ⟨fun i _ place hplace => ?_, fun call hcall => ?_, fun i _ call hcall => ?_,
        fun _ _ _ => rfl⟩, hkept, hstarted.awake⟩
      · exact (hmakes i hi).hentry name true
      · exact (hmakes i hi).honEvent
      · cases hplace
      · cases hcall
      · cases hcall
  · cases hstep

/-- The queue of a name is linked to the consumer of the callback that is to get
the events of that name. -/
theorem Runs.linked (hlinkage : Linkage mConsumers histories links) {watch : Watch}
    (hruns : Runs mConsumers histories links watch)
    (hnot : ∀ i name, links.onEvent = some i → ¬ Hollow mConsumers histories name)
    (hactive : watch.state.listening ≠ .idle) {name : List Byte} {callback : Callback}
    (hgoes : Goes mConsumers histories name callback) :
    Linked watch.state (owner callback) name := by
  rw [Linked, hruns.hfrozen.hlinks hactive]
  cases callback with
  | slot i other =>
      obtain ⟨rfl, htakes⟩ := hgoes
      exact .inl (hlinkage.hsome.mpr htakes)
  | onEvent i =>
      have honEvent := hlinkage.honEvent.mpr hgoes.1
      refine .inr ⟨?_, honEvent⟩
      cases hlink : links.mLinks name with
      | none => rfl
      | some link =>
          cases link with
          | none => exact absurd (hlinkage.hollow_iff.mpr hlink) (hnot i name honEvent)
          | some j => exact absurd (hlinkage.hsome.mp hlink) (hgoes.2 j)

/-- A slot is called with the events of its own name only. -/
theorem Caught.passed_slot {state : State} (hcaught : Caught mConsumers histories state) (i : ℕ)
    (name : List Byte) :
    passed (.slot i name) name state.calls = toCallback (.slot i name) state.calls := by
  rw [passed, List.filter_eq_self]
  intro item hitem
  rw [toCallback, List.mem_map] at hitem
  obtain ⟨call, hcall, rfl⟩ := hitem
  obtain ⟨hcall, hslot⟩ := List.mem_filter.mp hcall
  have hgoes := hcaught.hcalls call hcall
  rw [of_decide_eq_true hslot] at hgoes
  exact decide_eq_true hgoes.1.symm

/-- Without a hollow name, or without `on_event`, events are routed. -/
theorem Runs.routed (hlinkage : Linkage mConsumers histories links) {watch : Watch}
    (hruns : Runs mConsumers histories links watch)
    (hnot : ∀ i name, links.onEvent = some i → ¬ Hollow mConsumers histories name) :
    Routed mConsumers histories watch.state where
  hagrees hactive name i :=
    hruns.hfrozen.agrees hlinkage hactive (fun j honEvent => hnot j name honEvent) i
  hcalls := hruns.hcaught.hcalls
  hpassed name callback hgoes hwaiting hdown hnone := by
    have hi : owner callback ∈ mConsumers := by
      cases callback with
      | slot i other => exact hgoes.2.1
      | onEvent i => exact hgoes.1.1
    have hactive : watch.state.listening ≠ .idle := by
      apply hruns.hkept.hcontrol.halive (owner callback)
      · rw [hruns.hfrozen.hconsumers]
        exact hi
      · rw [hwaiting]
        rfl
    have hempty := hruns.hawake.drained hwaiting hdown hnone
      (hruns.linked hlinkage hnot hactive hgoes)
    cases callback with
    | slot i other =>
        obtain ⟨rfl, htakes⟩ := hgoes
        have hexact := hruns.hkept.htally.hexact i other
          ((hruns.hfrozen.binds_iff i).mpr htakes)
        have hhand : watch.state.inHand i other = [] := by
          rw [State.inHand]
          rw [owner] at hwaiting
          rw [hwaiting]
          rfl
        rw [hhand, hempty, List.append_nil, List.append_nil] at hexact
        rw [hruns.hcaught.passed_slot i other, hexact]
    | onEvent i =>
        have hexact := hruns.hcaught.hexact i name hgoes
        have hhand : caught watch.state i name = [] := by
          rw [caught]
          rw [owner] at hwaiting
          rw [hwaiting]
          rfl
        rwa [hhand, hempty, List.append_nil, List.append_nil] at hexact

end Runs

/-- For any consumers without a collision, and whatever has been called on them
before `run`: in all runs of the listener whose steps are safe the events are
routed if and only if no consumer has `on_event` or no name is hollow. -/
theorem routed_iff {mMaxQueueSize : ℕ} {mConsumers : List ℕ} {histories : ℕ → List SlotCall}
    {slots : ℕ → Slots} (hmakes : ∀ i ∈ mConsumers, Makes (histories i) (slots i))
    {state : State}
    (hstep : Dispatch.step (.start mMaxQueueSize mConsumers slots) .runListener = some state)
    (hlooping : state.listening = .looping) :
    (∀ watch, Reaches Watch.step (fun watch => Safe watch.state) ⟨state, [], fun _ => []⟩ watch →
        Routed mConsumers histories watch.state) ↔
      ∀ i ∈ mConsumers, onEventOf (histories i) = true → ∀ name,
        ¬ Hollow mConsumers histories name := by
  obtain ⟨hlinkage, hstart⟩ := runs_of_runListener hmakes hstep hlooping
  constructor
  · intro hrouted i hi honEvent name hhollow
    have hactive : state.listening ≠ .idle := by simp [hlooping]
    have hlink := hlinkage.honEvent.mpr ⟨hi, honEvent⟩
    obtain ⟨hnotified, hskips⟩ := hstart.hfrozen.disagrees hlinkage hactive hhollow hlink
    exact hskips (((hrouted _ .refl).hagrees hactive name i).mp hnotified)
  · intro hnot watch hreaches
    have hruns : Runs mConsumers histories state.links watch :=
      hreaches.invariant (fun hruns hsafe hnext => hruns.step hlinkage hsafe hnext) hstart
    apply hruns.routed hlinkage
    intro i name honEvent
    obtain ⟨hi, hslot⟩ := hlinkage.honEvent.mp honEvent
    exact hnot i hi hslot name

/-- One consumer binds `p`, and one has `on_event`. -/
def boundHistories (i : ℕ) : List SlotCall :=
  if i = 0 then [.bind [112], .setFunction [112] true] else [.setOnEvent true]

/-- One consumer mentions `p` and sets no function, and one has `on_event`. -/
def hollowHistories (i : ℕ) : List SlotCall :=
  if i = 0 then [.bind [112]] else [.setOnEvent true]

theorem routed_iff_bound :
    ∃ state, Dispatch.step (.start 0 [0, 1] fun i => made (boundHistories i)) .runListener =
        some state ∧ state.listening = .looping ∧
      (∀ i ∈ [0, 1], onEventOf (boundHistories i) = true → ∀ name,
        ¬ Hollow [0, 1] boundHistories name) ∧
      ∀ watch, Reaches Watch.step (fun watch => Safe watch.state) ⟨state, [], fun _ => []⟩ watch →
        Routed [0, 1] boundHistories watch.state := by
  have hnot : ∀ i ∈ [0, 1], onEventOf (boundHistories i) = true → ∀ name,
      ¬ Hollow [0, 1] boundHistories name := by
    rintro _ _ _ name ⟨⟨i, hi, hentry⟩, _⟩
    simp only [List.mem_cons, List.not_mem_nil, or_false] at hi
    rcases hi with rfl | rfl
    · rw [boundHistories, if_pos rfl, entryOf] at hentry
      simp only [List.foldl, SlotCall.entry] at hentry
      split at hentry
      · cases hentry
      · cases hentry
    · cases hentry
  obtain ⟨state, hstep, hlooping⟩ : ∃ state, Dispatch.step
      (.start 0 [0, 1] fun i => made (boundHistories i)) .runListener = some state ∧
      state.listening = .looping := ⟨_, rfl, rfl⟩
  exact ⟨state, hstep, hlooping, hnot,
    (routed_iff (fun i _ => makes_made _) hstep hlooping).mpr hnot⟩

/-- The consumer with `on_event` is woken for an event that nobody binds, leaves
it in its queue, and waits. -/
theorem not_routed_of_hollow :
    ∃ state watch, Dispatch.step (.start 0 [0, 1] fun i => made (hollowHistories i))
        .runListener = some state ∧ state.listening = .looping ∧
      Reaches Watch.step (fun watch => Safe watch.state) ⟨state, [], fun _ => []⟩ watch ∧
      Goes [0, 1] hollowHistories [112] (.onEvent 1) ∧
      watch.state.notified [112] = some 1 ∧ (watch.state.consumers 1).stage = .waiting ∧
      watch.state.accepted [112] = [ping] ∧ watch.state.mEvents [112] = [ping] ∧
      watch.state.calls = [] ∧ ¬ Routed [0, 1] hollowHistories watch.state := by
  obtain ⟨state, hstep⟩ : ∃ state, Dispatch.step
      (.start 0 [0, 1] fun i => made (hollowHistories i)) .runListener = some state := ⟨_, rfl⟩
  have hrun : ∃ watch, Reaches Watch.step (fun watch => Safe watch.state)
      ⟨state, [], fun _ => []⟩ watch ∧ state.listening = .looping ∧
      watch.state.listening = .looping ∧ watch.state.notified [112] = some 1 ∧
      (watch.state.consumers 1).stage = .waiting ∧ (watch.state.consumers 1).wakeUp = false ∧
      watch.state.accepted [112] = [ping] ∧ watch.state.mEvents [112] = [ping] ∧
      watch.state.calls = [] := by
    obtain rfl := Option.some.inj hstep
    exact ⟨_, .of_run (rfl : run Watch.step _ [.runConsumer 1, .consumer 1 none .returns,
      .consumer 1 none .returns, .pick ping, .push true, .notify, .consumer 1 none .returns,
      .consumer 1 none .returns, .consumer 1 (some [112]) .returns, .consumer 1 none .returns,
      .consumer 1 none .returns] = some _) (by decide), rfl, rfl, rfl, rfl, rfl, rfl, rfl, rfl⟩
  obtain ⟨watch, hreaches, hstart, hlooping, hnotified, hwaiting, hdown, haccepted, hqueue,
    hcalls⟩ := hrun
  have hgoes : Goes [0, 1] hollowHistories [112] (.onEvent 1) := by
    refine ⟨⟨by decide, rfl⟩, ?_⟩
    rintro j ⟨hj, hentry⟩
    simp only [List.mem_cons, List.not_mem_nil, or_false] at hj
    rcases hj with rfl | rfl
    · cases hentry
    · cases hentry
  refine ⟨state, watch, hstep, hstart, hreaches, hgoes, hnotified, hwaiting, haccepted, hqueue,
    hcalls, fun hrouted => ?_⟩
  have hnone : ¬ Notifies watch.state 1 := by
    rintro ⟨name, hnotifying, _⟩
    rw [hlooping] at hnotifying
    cases hnotifying
  have hpassed := hrouted.hpassed [112] (.onEvent 1) hgoes hwaiting hdown hnone
  rw [hcalls, haccepted] at hpassed
  cases hpassed

end Sednl.Routing
