import Sednl.Net.Outgoing

/-!
# What one call of `send` reports

A single call of `Connection::send`, from the mutex to its end, against the
results `::send` gives it.  As long as none of them is -1 the loop does what it
looks like: it asks for the rest of the frame, it stops at the first 0, and it
returns once everything is out.  A -1 is stored as a positive number, and the
call goes on or returns.
-/

namespace Sednl.Transmission

open Sednl.Endian
open Sednl.Tag
open Sednl.Ring
open Sednl.Transition
open Sednl.Outgoing

/-- What `::send` returns, and the memory around the bytes of the event. -/
structure Answer where
  result : ℤ
  around : ℕ → Byte

def Answer.action (answer : Answer) : Action :=
  .result answer.result answer.around

/-- A connection with one call of `send`, after `answers` of `::send`; `none` if
they are more than the call asks for. -/
def answered (host : Host) (event : Event) (answers : List Answer) : Option State :=
  run (step host) State.start (.send event :: answers.map Answer.action)

/-- What a call may be seen doing: asking for a part of the packed event, with a
front of it on the wire, and returned exactly when all of it is. -/
structure Sound (host : Host) (event : Event) (state : State) : Prop where
  hrange : ∀ call, state.current = some call →
    call.count + call.asked host ≤ (event.pack host).length
  hbegins : state.wire <+: event.pack host
  hreturned : (∃ call, (call, Ending.returned) ∈ state.ended) ↔
    state.wire = event.pack host

def Thrown (state : State) : Prop :=
  state.current = none ∧ ∃ call ending, state.ended = [(call, ending)] ∧ ending ≠ .returned

/-- The call reports the truth about `answers`. -/
structure Truthful (host : Host) (event : Event) (answers : List Answer) : Prop where
  hsound : ∀ front state, front <+: answers → answered host event front = some state →
    Sound host event state
  hstops : ∀ front answer state, front ++ [answer] <+: answers → answer.result ≤ 0 →
    answered host event (front ++ [answer]) = some state → Thrown state

/-! ## Without failures -/

/-- Where a call stands: in its loop with what it has put, or at its end. -/
inductive Stands (host : Host) (event : Event) : State → Prop
  | sending {call : Call} (hevent : call.event = event) (hopen : call.Open host)
      (hcount : call.count = call.put.length) : Stands host event ⟨[], some call, call.put⟩
  | finished {call : Call} {ending : Ending} {wire : List Byte}
      (hbegins : wire <+: event.pack host)
      (hending : ending = .returned ↔ wire = event.pack host) :
      Stands host event ⟨[(call, ending)], none, wire⟩

section Steps

variable {host : Host} {event : Event} {state next : State} {result : ℤ}
  {around : ℕ → Byte}

theorem pack_ne_nil (host : Host) (event : Event) : event.pack host ≠ [] := by
  intro hnil
  have hlength := event.length_pack host
  have hthree := event.three_le_size
  rw [hnil, List.length_nil] at hlength
  omega

theorem ending_of_eq {host : Host} {call : Call}
    (hall : (call.event.pack host).length = call.count) (tmpCount : ℕ) :
    call.ending host tmpCount = .returned :=
  if_pos hall

/-- Inside the loop `::send` is asked for the rest of the frame. -/
theorem asked_eq {call : Call} (hopen : call.Open host)
    (hcount : call.count = call.put.length) :
    call.count + call.asked host = (call.event.pack host).length := by
  have hle := hopen.hput.length_le
  have hsize := Nat.lt_of_le_of_lt hopen.hsize maxSize_lt
  rw [Call.asked]
  omega

theorem Stands.sound (hstands : Stands host event state) : Sound host event state := by
  cases hstands with
  | @sending call hevent hopen hcount =>
      subst hevent
      refine ⟨fun other hother => ?_, hopen.hput, ?_⟩
      · obtain rfl := Option.some.inj hother
        exact (asked_eq hopen hcount).le
      · simpa using hopen.hcut
  | finished hbegins hending =>
      refine ⟨by simp, hbegins, ?_⟩
      rw [← hending]
      simp [eq_comm]

/-- Bytes are taken: the call is over when they were the last. -/
theorem Stands.take {call : Call} (hopen : call.Open host)
    (hcount : call.count = call.put.length) (hresult : 0 < result)
    (hasked : result ≤ call.asked host) :
    Stands host call.event (State.resume host ⟨[], some call, call.put⟩ call result around) := by
  obtain ⟨hput, hlength⟩ := @Call.advance_put host call result around hopen.hsize
    hopen.hput hcount hresult hasked
  have hpositive : 0 < ulong result := by
    have hmod : call.asked host < 2 ^ 64 := Nat.mod_lt _ (by norm_num)
    rw [ulong_of_nonneg hresult.le (by omega)]
    omega
  rw [State.resume, if_pos hpositive]
  by_cases hlast : (call.event.pack host).length = (call.advance host result around).count
  · have hwhole := hput.eq_of_length (hlength.symm.trans hlast.symm)
    have hending := @ending_of_eq host (call.advance host result around) hlast (ulong result)
    rw [if_pos hlast, hending]
    exact .finished hput (iff_of_true rfl hwhole)
  · have hcut : (call.advance host result around).put ≠ call.event.pack host := by
      intro hwhole
      exact hlast (by rw [hlength, hwhole])
    rw [if_neg hlast]
    exact .sending rfl (hopen.advance hlast hput hcut) hlength

/-- Nothing is taken: the call throws `EmptySend`. -/
theorem resume_zero {call : Call} (hopen : call.Open host) :
    State.resume host ⟨[], some call, call.put⟩ call 0 around =
      ⟨[(call, .emptySend)], none, call.put⟩ := by
  have hending : call.ending host (ulong 0) = .emptySend := by
    rw [Call.ending, if_neg hopen.hloop]
    rfl
  rw [State.resume, if_neg (by decide), hending]
  rfl

/-- A result that is not -1 leaves the call in its loop, or ends it, and ends it
with an exception when it is 0. -/
theorem Stands.step (hstands : Stands host event state) (hne : result ≠ -1)
    (hstep : step host state (.result result around) = some next) :
    Stands host event next ∧ (result ≤ 0 → Thrown next) := by
  rw [Outgoing.step] at hstep
  cases hstands with
  | finished _ _ => cases hstep
  | @sending call hevent hopen hcount =>
      subst hevent
      split at hstep
      · rename_i hnone
        cases hnone
      · rename_i other hother
        obtain rfl := Option.some.inj hother
        split at hstep
        · rename_i hbounds
          obtain rfl := Option.some.inj hstep
          rcases eq_or_ne result 0 with rfl | hnonzero
          · rw [resume_zero hopen]
            exact ⟨.finished hopen.hput (iff_of_false (by simp) hopen.hcut),
              fun _ => ⟨rfl, call, .emptySend, rfl, by simp⟩⟩
          · exact ⟨Stands.take hopen hcount (by omega) hbounds.2, by omega⟩
        · cases hstep

end Steps

theorem Stands.run {host : Host} {event : Event} {state last : State} {answers : List Answer}
    (hstands : Stands host event state) (hne : ∀ answer ∈ answers, answer.result ≠ -1)
    (hrun : Transition.run (Outgoing.step host) state (answers.map Answer.action) =
      some last) : Stands host event last := by
  induction answers generalizing state with
  | nil =>
      obtain rfl := Option.some.inj hrun
      exact hstands
  | cons answer answers ih =>
      obtain ⟨next, hstep, hrun⟩ := run_cons_eq_some hrun
      rw [List.forall_mem_cons] at hne
      exact ih (hstands.step hne.1 hstep).1 hne.2 hrun

/-- The call takes the mutex and packs its event. -/
theorem stands_entered {host : Host} {event : Event} {state : State}
    (hsend : step host State.start (.send event) = some state) : Stands host event state := by
  rw [step] at hsend
  simp only [State.start] at hsend
  split at hsend
  · rename_i hsize
    obtain rfl := Option.some.inj hsend
    have hnil := pack_ne_nil host event
    have hloop : (event.pack host).length ≠ 0 := mt List.eq_nil_of_length_eq_zero hnil
    exact .sending rfl ⟨hsize, by norm_num, hloop, List.nil_prefix, hnil.symm⟩ rfl
  · cases hsend

theorem stands_of_answered {host : Host} {event : Event} {state : State}
    {answers : List Answer} (hne : ∀ answer ∈ answers, answer.result ≠ -1)
    (hrun : answered host event answers = some state) : Stands host event state := by
  obtain ⟨entered, hsend, hrun⟩ := run_cons_eq_some hrun
  exact (stands_entered hsend).run hne hrun

theorem answered_concat {host : Host} {event : Event} {state : State} {front : List Answer}
    {answer : Answer} (hrun : answered host event (front ++ [answer]) = some state) :
    ∃ before, answered host event front = some before ∧
      step host before answer.action = some state := by
  rw [answered, List.map_append, ← List.cons_append] at hrun
  obtain ⟨before, hfront, hlast⟩ := run_append_eq_some hrun
  obtain ⟨next, hstep, hnil⟩ := run_cons_eq_some hlast
  obtain rfl := Option.some.inj hnil
  exact ⟨before, hfront, hstep⟩

theorem answered_of_prefix {host : Host} {event : Event} {state : State}
    {front answers : List Answer} (hfront : front <+: answers)
    (hrun : answered host event answers = some state) :
    ∃ mid, answered host event front = some mid := by
  obtain ⟨back, rfl⟩ := hfront
  rw [answered, List.map_append, ← List.cons_append] at hrun
  obtain ⟨mid, hmid, -⟩ := run_append_eq_some hrun
  exact ⟨mid, hmid⟩

/-! ## A failure -/

/-- A result that is stored as a positive number does not end the call, or lets
it return. -/
theorem not_thrown_resume {host : Host} {state : State} {call : Call} {result : ℤ}
    {around : ℕ → Byte} (hpositive : 0 < ulong result) :
    ¬ Thrown (state.resume host call result around) := by
  rintro ⟨hcurrent, other, ending, hended, hthrown⟩
  rw [State.resume, if_pos hpositive] at hcurrent hended
  simp only at hcurrent hended
  split at hended
  · rename_i hlast
    have hending := @ending_of_eq host (call.advance host result around) hlast (ulong result)
    have hpair := congrArg List.getLast? hended
    rw [List.getLast?_concat, List.getLast?_singleton, hending, Option.some.injEq,
      Prod.mk.injEq] at hpair
    exact hthrown hpair.2.symm
  · rename_i hmore
    rw [if_neg hmore] at hcurrent
    cases hcurrent

/-- A -1 moves `count` and never throws. -/
theorem not_thrown_of_failure {host : Host} {state next : State} {around : ℕ → Byte}
    (hstep : step host state (.result (-1) around) = some next) : ¬ Thrown next := by
  have hpositive : 0 < ulong (-1) := by
    rw [ulong_neg_one]
    norm_num
  rw [step] at hstep
  split at hstep
  · cases hstep
  · split at hstep
    · obtain rfl := Option.some.inj hstep
      exact not_thrown_resume hpositive
    · cases hstep

/-- For every event and all results `::send` can give it, a call of `send` asks
only for parts of the packed event, puts a front of it on the wire, throws at
the first result that is not positive, and returns exactly when everything is
out, if and only if none of the results is -1. -/
theorem truthful_iff (host : Host) {event : Event} {answers : List Answer} {state : State}
    (hrun : answered host event answers = some state) :
    Truthful host event answers ↔ ∀ answer ∈ answers, answer.result ≠ -1 := by
  constructor
  · rintro htruthful ⟨result, around⟩ hanswer rfl
    obtain ⟨front, back, rfl⟩ := List.append_of_mem hanswer
    have hfront : front ++ [⟨-1, around⟩] <+: front ++ ⟨-1, around⟩ :: back :=
      ⟨back, by simp⟩
    obtain ⟨next, hnext⟩ := answered_of_prefix hfront hrun
    obtain ⟨before, -, hstep⟩ := answered_concat hnext
    exact not_thrown_of_failure hstep
      (htruthful.hstops front _ next hfront (by norm_num) hnext)
  · intro hne
    constructor
    · intro front mid hfront hmid
      exact (stands_of_answered (fun answer hanswer => hne answer (hfront.subset hanswer))
        hmid).sound
    · intro front answer next hfront hresult hnext
      obtain ⟨before, hbefore, hstep⟩ := answered_concat hnext
      have hstands : Stands host event before := stands_of_answered
        (fun answer hanswer => hne answer (hfront.subset (List.mem_append_left _ hanswer)))
        hbefore
      have hlast := hne answer (hfront.subset (List.mem_append_right _ (by simp)))
      exact (hstands.step hlast hstep).2 hresult

/-- The frame `00 03 00` goes out in two parts. -/
theorem truthful_iff_ping :
    Truthful .little ping [⟨1, fun _ => 0⟩, ⟨2, fun _ => 0⟩] := by
  have hrun : answered .little ping [⟨1, fun _ => 0⟩, ⟨2, fun _ => 0⟩] =
      some ⟨[(⟨ping, 3, [0, 3, 0]⟩, .returned)], none, [0, 3, 0]⟩ := by decide +kernel
  exact (truthful_iff .little hrun).mpr (by decide)

/-- `::send` takes a byte, fails, and takes three: the call returns, with the
first byte on the wire twice. -/
theorem not_truthful_of_failure :
    ∃ state, answered .little ping [⟨1, fun _ => 0⟩, ⟨-1, fun _ => 0⟩, ⟨3, fun _ => 0⟩] =
        some state ∧ state.wire = [0, 0, 3, 0] ∧
      (∃ call, state.ended = [(call, .returned)]) ∧
      ¬ Truthful .little ping [⟨1, fun _ => 0⟩, ⟨-1, fun _ => 0⟩, ⟨3, fun _ => 0⟩] := by
  have hrun : answered .little ping [⟨1, fun _ => 0⟩, ⟨-1, fun _ => 0⟩, ⟨3, fun _ => 0⟩] =
      some ⟨[(⟨ping, 3, [0, 0, 3, 0]⟩, .returned)], none, [0, 0, 3, 0]⟩ := by
    decide +kernel
  refine ⟨_, hrun, rfl, ⟨_, rfl⟩, ?_⟩
  intro htruthful
  have hbegins := (htruthful.hsound _ _ List.prefix_rfl hrun).hbegins
  have hpack : ping.pack .little = [0, 3, 0] := by decide
  rw [hpack] at hbegins
  simp at hbegins

end Sednl.Transmission
