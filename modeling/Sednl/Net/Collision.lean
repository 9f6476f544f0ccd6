import Sednl.Net.Dispatch

/-!
# Collisions

`run_init` goes over the consumers of a listener and links each name and each
special event to the one consumer with a slot for it; a second one is a
collision, and `link_consumer` then clears all links before it throws.  A
listener runs, stops and fails to run any number of times, while consumers come
and go and slots are set.
-/

namespace Sednl.Collision

open Sednl.Tag
open Sednl.Transition
open Sednl.Dispatch

inductive Key where
  | disconnect
  | serverDisconnect
  | event
  | named (name : List Byte)
  deriving DecidableEq, Repr

def Bound (slots : Slots) : Key → Prop
  | .disconnect => slots.onDisconnect = true
  | .serverDisconnect => slots.onServerDisconnect = true
  | .event => slots.onEvent = true
  | .named name => (name, true) ∈ slots.mSlots.slots

instance (slots : Slots) : (key : Key) → Decidable (Bound slots key)
  | .disconnect => inferInstanceAs (Decidable (slots.onDisconnect = true))
  | .serverDisconnect => inferInstanceAs (Decidable (slots.onServerDisconnect = true))
  | .event => inferInstanceAs (Decidable (slots.onEvent = true))
  | .named name => inferInstanceAs (Decidable ((name, true) ∈ slots.mSlots.slots))

/-- The consumer a link points to; the null pointer and a missing entry of
`m_links` are one here. -/
def linkAt (links : Links) : Key → Option ℕ
  | .disconnect => links.onDisconnect
  | .serverDisconnect => links.onServerDisconnect
  | .event => links.onEvent
  | .named name => (links.mLinks name).join

/-! ## What the loop over the consumers does -/

section Links

variable {slots : ℕ → Slots} {consumers : List ℕ} {links next : Links} {key : Key} {i : ℕ}

/-- Without a collision, each slot with a callback is linked to. -/
theorem linkAt_sets (hlinks : linkConsumers slots consumers links = some next)
    (hi : i ∈ consumers) (hbound : Bound (slots i) key) : linkAt next key = some i := by
  cases key with
  | disconnect => exact (linkedBy_onDisconnect slots).sets hlinks hi hbound
  | serverDisconnect => exact (linkedBy_onServerDisconnect slots).sets hlinks hi hbound
  | event => exact (linkedBy_onEvent slots).sets hlinks hi hbound
  | named name => rw [linkAt, linkConsumers_sets hlinks hi hbound, Option.join_some]

/-- A link is set by a slot with a callback. -/
theorem linkAt_origin (hlinks : linkConsumers slots consumers links = some next)
    (hset : linkAt next key = some i) :
    linkAt links key = some i ∨ i ∈ consumers ∧ Bound (slots i) key := by
  cases key with
  | disconnect => exact (linkedBy_onDisconnect slots).origin hlinks hset
  | serverDisconnect => exact (linkedBy_onServerDisconnect slots).origin hlinks hset
  | event => exact (linkedBy_onEvent slots).origin hlinks hset
  | named name =>
      rcases linkConsumers_origin hlinks (Option.join_eq_some_iff.mp hset) with hbefore | hslot
      · exact .inl (Option.join_eq_some_iff.mpr hbefore)
      · exact .inr hslot

/-- `link_consumer` throws where the slot and the link are both set. -/
theorem linkConsumer_eq_none {consumer : ℕ} {slot : Bool} {link : Option ℕ} :
    linkConsumer consumer slot link = none ↔ slot = true ∧ link.isSome = true := by
  cases slot with
  | false => simp [linkConsumer]
  | true => cases link with
    | none => simp [linkConsumer]
    | some i => simp [linkConsumer]

/-- The loop over the slots of a consumer throws only for a name that was linked
before: the names of one consumer are not the same. -/
theorem linked_of_linkSlots {consumer : ℕ} {slots : List (List Byte × Bool)}
    (hnodup : (slots.map Prod.fst).Nodup) (hlinks : linkSlots consumer slots links = none) :
    ∃ name, (name, true) ∈ slots ∧ (links.mLinks name).join.isSome = true := by
  induction slots generalizing links with
  | nil => cases hlinks
  | cons slot slots ih =>
      obtain ⟨name, slot⟩ := slot
      rw [List.map_cons, List.nodup_cons] at hnodup
      rw [linkSlots] at hlinks
      split at hlinks
      · rename_i hthrows
        obtain ⟨rfl, hsome⟩ := linkConsumer_eq_none.mp hthrows
        exact ⟨name, List.mem_cons_self, hsome⟩
      · rename_i link hlink
        obtain ⟨other, hother, hsome⟩ := ih hnodup.2 hlinks
        have hne : other ≠ name := by
          rintro rfl
          exact hnodup.1 (List.mem_map.mpr ⟨_, hother, rfl⟩)
        rw [Links.set_of_ne hne] at hsome
        exact ⟨other, List.mem_cons_of_mem _ hother, hsome⟩

/-- The loop over the consumers throws at the first of them, which has a slot
that was linked before, or goes on. -/
theorem linkConsumers_cons_none {consumer : ℕ}
    (hlinks : linkConsumers slots (consumer :: consumers) links = none) :
    (∃ key, Bound (slots consumer) key ∧ (linkAt links key).isSome = true) ∨
      ∃ middle, linkConsumers slots [consumer] links = some middle ∧
        linkConsumers slots consumers middle = none := by
  rw [linkConsumers] at hlinks
  split at hlinks
  · rename_i onDisconnect onServerDisconnect onEvent hdisconnect hserver hevent
    split at hlinks
    · rename_i hslots
      obtain ⟨name, hname, hsome⟩ := linked_of_linkSlots (slots consumer).mSlots.hnodup hslots
      exact .inl ⟨.named name, hname, hsome⟩
    · rename_i middle hslots
      refine .inr ⟨middle, ?_, hlinks⟩
      simp only [linkConsumers, hdisconnect, hserver, hevent, hslots]
  · rename_i hthrows
    refine .inl ?_
    cases hdisconnect : linkConsumer consumer (slots consumer).onDisconnect links.onDisconnect with
    | none =>
        obtain ⟨hbound, hsome⟩ := linkConsumer_eq_none.mp hdisconnect
        exact ⟨.disconnect, hbound, hsome⟩
    | some onDisconnect =>
        cases hserver : linkConsumer consumer (slots consumer).onServerDisconnect
            links.onServerDisconnect with
        | none =>
            obtain ⟨hbound, hsome⟩ := linkConsumer_eq_none.mp hserver
            exact ⟨.serverDisconnect, hbound, hsome⟩
        | some onServerDisconnect =>
            cases hevent : linkConsumer consumer (slots consumer).onEvent links.onEvent with
            | none =>
                obtain ⟨hbound, hsome⟩ := linkConsumer_eq_none.mp hevent
                exact ⟨.event, hbound, hsome⟩
            | some onEvent => exact absurd hevent (hthrows _ _ _ hdisconnect hserver)

/-- Where the loop throws, some slot was linked before the loop, or two of the
consumers have it. -/
theorem shared_of_linkConsumers (hnodup : consumers.Nodup)
    (hlinks : linkConsumers slots consumers links = none) :
    ∃ key, ∃ i ∈ consumers, Bound (slots i) key ∧
      ((linkAt links key).isSome = true ∨ ∃ j ∈ consumers, j ≠ i ∧ Bound (slots j) key) := by
  induction consumers generalizing links with
  | nil => cases hlinks
  | cons consumer consumers ih =>
      rw [List.nodup_cons] at hnodup
      rcases linkConsumers_cons_none hlinks with ⟨key, hbound, hsome⟩ | ⟨middle, hhead, hrest⟩
      · exact ⟨key, consumer, List.mem_cons_self, hbound, .inl hsome⟩
      · obtain ⟨key, i, hi, hbound, hshared⟩ := ih hnodup.2 hrest
        refine ⟨key, i, List.mem_cons_of_mem _ hi, hbound, ?_⟩
        rcases hshared with hsome | ⟨j, hj, hne, hother⟩
        · obtain ⟨owner, hset⟩ := Option.isSome_iff_exists.mp hsome
          rcases linkAt_origin hhead hset with hbefore | ⟨howner, hother⟩
          · exact .inl (hbefore ▸ rfl)
          · obtain rfl := List.mem_singleton.mp howner
            refine .inr ⟨owner, List.mem_cons_self, ?_, hother⟩
            rintro rfl
            exact hnodup.1 hi
        · exact .inr ⟨j, List.mem_cons_of_mem _ hj, hne, hother⟩

end Links

/-! ## Runs of a listener -/

/-- A listener and the slots of all consumers; `thread` says that there is a
thread, from `run` to the end of `run_imp`. -/
structure State where
  mConsumers : List ℕ
  slots : ℕ → Slots
  links : Links
  mRunning : Bool
  thread : Bool

/-- How `EventListener::run` ends. -/
inductive Outcome where
  | returns
  | eventListenerRunning
  | pollerAddFailed
  | eventCollision
  deriving DecidableEq, Repr

/-- `EventListener::run`; the poller is made and filled before consumers are
linked. -/
def State.run (state : State) (accepts : Bool) : Outcome × State :=
  if state.mRunning then (.eventListenerRunning, state)
  else if !accepts then (.pollerAddFailed, state)
  else
    match linkConsumers state.slots state.mConsumers state.links with
    | none => (.eventCollision, { state with links := .clear })
    | some links => (.returns, { state with links := links, mRunning := true, thread := true })

inductive Action where
  /-- `EventListener::run`, where no thread of an earlier run is about to end. -/
  | run (accepts : Bool)
  /-- `EventListener::join`, up to the join of its thread. -/
  | join
  /-- The thread clears the links, and ends. -/
  | finish
  /-- `add_consumer`. -/
  | addConsumer (i : ℕ)
  /-- `remove_consumer`. -/
  | removeConsumer (i : ℕ)
  /-- Callbacks of a consumer are set or unset, or its empty slots removed. -/
  | setSlots (i : ℕ) (slots : Slots)

/-- The steps; there is none where `add_consumer` or `remove_consumer` throws. -/
def step (state : State) : Action → Option State
  | .run accepts =>
      if state.thread ∧ !state.mRunning then none else some (state.run accepts).2
  | .join => if state.mRunning then some { state with mRunning := false } else none
  | .finish =>
      if state.thread ∧ !state.mRunning then
        some { state with links := .clear, thread := false }
      else none
  | .addConsumer i =>
      if state.mRunning then none
      else if i ∈ state.mConsumers then some state
      else some { state with mConsumers := state.mConsumers ++ [i] }
  | .removeConsumer i =>
      if state.mRunning then none
      else some { state with mConsumers := state.mConsumers.erase i }
  | .setSlots i slots => some { state with slots := Function.update state.slots i slots }

def State.start (slots : ℕ → Slots) : State :=
  ⟨[], slots, .clear, false, false⟩

def State.Idle (state : State) : Prop :=
  state.mRunning = false ∧ state.thread = false

/-- Two different consumers have a slot with a callback for the same thing. -/
def State.Collides (state : State) : Prop :=
  ∃ key, ∃ i ∈ state.mConsumers, ∃ j ∈ state.mConsumers,
    i ≠ j ∧ Bound (state.slots i) key ∧ Bound (state.slots j) key

structure Sound (state : State) : Prop where
  hnodup : state.mConsumers.Nodup
  hthread : state.mRunning = true → state.thread = true
  hclear : state.thread = false → state.links = .clear

theorem linkAt_clear (key : Key) : linkAt .clear key = none := by
  cases key with
  | disconnect => rfl
  | serverDisconnect => rfl
  | event => rfl
  | named name => rfl

section Steps

variable {state next : State}

theorem Sound.run (hsound : Sound state) (accepts : Bool) :
    Sound (state.run accepts).2 := by
  rw [State.run]
  split
  · exact hsound
  · split
    · exact hsound
    · split
      · exact ⟨hsound.hnodup, hsound.hthread, fun _ => rfl⟩
      · exact ⟨hsound.hnodup, fun _ => rfl, fun hnone => by cases hnone⟩

theorem Sound.step (hsound : Sound state) {action : Action}
    (hnext : step state action = some next) : Sound next := by
  cases action with
  | run accepts =>
      rw [Collision.step] at hnext
      split at hnext
      · cases hnext
      · obtain rfl := Option.some.inj hnext
        exact hsound.run accepts
  | join =>
      obtain ⟨_, hsome⟩ := Option.ite_none_right_eq_some.mp hnext
      obtain rfl := Option.some.inj hsome
      exact ⟨hsound.hnodup, fun hruns => (Bool.false_ne_true hruns).elim, hsound.hclear⟩
  | finish =>
      obtain ⟨⟨_, hstopped⟩, hsome⟩ := Option.ite_none_right_eq_some.mp hnext
      obtain rfl := Option.some.inj hsome
      refine ⟨hsound.hnodup, fun hruns => ?_, fun _ => rfl⟩
      rw [Bool.not_eq_true'] at hstopped
      exact absurd (hstopped.symm.trans hruns) Bool.false_ne_true
  | addConsumer i =>
      rw [Collision.step] at hnext
      split at hnext
      · cases hnext
      · split at hnext
        · obtain rfl := Option.some.inj hnext
          exact hsound
        · rename_i hfresh
          obtain rfl := Option.some.inj hnext
          refine ⟨?_, hsound.hthread, hsound.hclear⟩
          exact List.nodup_append'.mpr ⟨hsound.hnodup, List.nodup_singleton i,
            List.disjoint_singleton.mpr hfresh⟩
  | removeConsumer i =>
      rw [Collision.step] at hnext
      split at hnext
      · cases hnext
      · obtain rfl := Option.some.inj hnext
        exact ⟨hsound.hnodup.erase i, hsound.hthread, hsound.hclear⟩
  | setSlots i slots =>
      obtain rfl := Option.some.inj hnext
      exact ⟨hsound.hnodup, hsound.hthread, hsound.hclear⟩

theorem consumers_sound_of_reaches {slots : ℕ → Slots}
    (hreaches : Reaches step anything (State.start slots) state) : Sound state :=
  hreaches.invariant (fun hsound _ hnext => hsound.step hnext)
    ⟨List.nodup_nil, fun hruns => (Bool.false_ne_true hruns).elim, fun _ => rfl⟩

/-- Without a thread no link is set, and the loop over the consumers throws where
two of them collide, and nowhere else. -/
theorem Sound.linkConsumers_eq_none (hsound : Sound state) (hthread : state.thread = false) :
    linkConsumers state.slots state.mConsumers state.links = none ↔ state.Collides := by
  rw [hsound.hclear hthread]
  constructor
  · intro hthrows
    obtain ⟨key, i, hi, hbound, hshared⟩ := shared_of_linkConsumers hsound.hnodup hthrows
    rcases hshared with hsome | ⟨j, hj, hne, hother⟩
    · rw [linkAt_clear] at hsome
      cases hsome
    · exact ⟨key, i, hi, j, hj, hne.symm, hbound, hother⟩
  · rintro ⟨key, i, hi, j, hj, hne, hbound, hother⟩
    cases hlinks : linkConsumers state.slots state.mConsumers .clear with
    | none => rfl
    | some links =>
        have hfirst := linkAt_sets hlinks hi hbound
        have hsecond := linkAt_sets hlinks hj hother
        exact absurd (Option.some.inj (hfirst.symm.trans hsecond)) hne

/-- `run` with a poller that accepts all descriptors. -/
theorem Sound.run_cases (hsound : Sound state) (hidle : state.Idle) :
    state.Collides ∧ state.run true = (.eventCollision, { state with links := .clear }) ∨
      ¬ state.Collides ∧ ∃ links,
        linkConsumers state.slots state.mConsumers .clear = some links ∧
        state.run true =
          (.returns, { state with links := links, mRunning := true, thread := true }) := by
  have hiff := hsound.linkConsumers_eq_none hidle.2
  rw [hsound.hclear hidle.2] at hiff
  cases hlinks : linkConsumers state.slots state.mConsumers .clear with
  | none =>
      refine .inl ⟨hiff.mp hlinks, ?_⟩
      rw [State.run, hidle.1, hsound.hclear hidle.2, hlinks]
      rfl
  | some links =>
      refine .inr ⟨fun hcollides => ?_, links, rfl, ?_⟩
      · rw [hiff.mpr hcollides] at hlinks
        cases hlinks
      · rw [State.run, hidle.1, hsound.hclear hidle.2, hlinks]
        rfl

theorem step_run_of_idle (hidle : state.Idle) (accepts : Bool) :
    step state (.run accepts) = some (state.run accepts).2 := by
  rw [step, hidle.2]
  rfl

end Steps

/-- `run` throws `EventCollision` exactly where two consumers collide, whatever
has happened before and in whatever order they are gone over.  It then leaves no
link set, so that once there is no collision it succeeds; and where it succeeds,
each slot with a callback is linked to its consumer. -/
theorem collision_iff_of_reaches {slots : ℕ → Slots} {state : State}
    (hreaches : Reaches step anything (State.start slots) state) (hidle : state.Idle) :
    ((state.run true).1 = .eventCollision ↔ state.Collides) ∧
      ((state.run true).1 = .eventCollision →
        (state.run true).2.mRunning = false ∧ (state.run true).2.links = .clear ∧
          ∀ later, Reaches step anything (state.run true).2 later → later.Idle →
            ¬ later.Collides → (later.run true).1 = .returns) ∧
      (¬ state.Collides → (state.run true).1 = .returns ∧
        ∀ i ∈ state.mConsumers, ∀ key, Bound (state.slots i) key →
          linkAt (state.run true).2.links key = some i) := by
  have hsound := consumers_sound_of_reaches hreaches
  have hlater : ∀ later, Reaches step anything (state.run true).2 later → later.Idle →
      ¬ later.Collides → (later.run true).1 = .returns := by
    intro later hlater hquiet hapart
    have hnext : Step step anything state (state.run true).2 :=
      ⟨.run true, trivial, step_run_of_idle hidle true⟩
    have hreached := (Relation.ReflTransGen.tail hreaches hnext).trans hlater
    rcases (consumers_sound_of_reaches hreached).run_cases hquiet with
      ⟨hcollides, _⟩ | ⟨_, links, _, hrun⟩
    · exact absurd hcollides hapart
    · rw [hrun]
  rcases hsound.run_cases hidle with ⟨hcollides, hrun⟩ | ⟨hapart, links, hlinks, hrun⟩
  · refine ⟨⟨fun _ => hcollides, fun _ => by rw [hrun]⟩, fun _ => ⟨?_, ?_, hlater⟩,
      fun hapart => absurd hcollides hapart⟩
    · rw [hrun]
      exact hidle.1
    · rw [hrun]
  · have hreturns : (state.run true).1 = .returns := by rw [hrun]
    refine ⟨⟨fun hthrows => ?_, fun hcollides => absurd hcollides hapart⟩, fun hthrows => ?_,
      fun _ => ⟨hreturns, fun i hi key hbound => ?_⟩⟩
    · cases hreturns.symm.trans hthrows
    · cases hreturns.symm.trans hthrows
    · rw [hrun]
      exact linkAt_sets hlinks hi hbound

/-- Consumers with `on_disconnect` and an empty slot for one name. -/
def alike (_ : ℕ) : Slots :=
  ⟨true, false, false, ⟨[([1], false)], List.nodup_singleton _⟩⟩

/-- A listener with some of these consumers, not running. -/
def withAlike (mConsumers : List ℕ) : State :=
  ⟨mConsumers, alike, .clear, false, false⟩

/-- Two consumers collide, the listener fails to run, one of them is removed, and
it runs. -/
theorem collision_iff_of_reaches_alike :
    Reaches step anything (State.start alike) (withAlike [0, 1]) ∧
      ((withAlike [0, 1]).run true).1 = .eventCollision ∧
      Reaches step anything ((withAlike [0, 1]).run true).2 (withAlike [1]) ∧
      ((withAlike [1]).run true).1 = .returns := by
  have hreaches : Reaches step anything (State.start alike) (withAlike [0, 1]) :=
    .of_run (rfl : run step (State.start alike) [.addConsumer 0, .addConsumer 1, .run true] =
      some _) (meets_anything _ _)
  have hremoved : Reaches step anything ((withAlike [0, 1]).run true).2 (withAlike [1]) :=
    .of_run (rfl : run step ((withAlike [0, 1]).run true).2 [.removeConsumer 0] = some _)
      (meets_anything _ _)
  have hcollides : (withAlike [0, 1]).Collides :=
    ⟨.disconnect, 0, List.mem_cons_self, 1, List.mem_cons_of_mem _ List.mem_cons_self, by decide,
      rfl, rfl⟩
  have hapart : ¬ (withAlike [1]).Collides := by
    rintro ⟨key, i, hi, j, hj, hne, _⟩
    exact hne ((List.mem_singleton.mp hi).trans (List.mem_singleton.mp hj).symm)
  obtain ⟨hiff, hthrows, _⟩ := collision_iff_of_reaches hreaches ⟨rfl, rfl⟩
  obtain ⟨_, _, hlater⟩ := hthrows (hiff.mpr hcollides)
  exact ⟨hreaches, hiff.mpr hcollides, hremoved, hlater _ hremoved ⟨rfl, rfl⟩ hapart⟩

end Sednl.Collision
