import Sednl.Library.Transition
import Sednl.Ring.Receive

/-!
# Sending events

`Connection::send` over a kernel that takes a few bytes, takes none, or fails.
The loop keeps what `::send` returns in an `unsigned long`, so a failure is a
positive number like any other: it moves `count` one byte back and is never
reported.  What is on the wire is still whole frames, and a part of one, as
long as nothing is taken after a failure and nothing ends a frame half way.
-/

namespace Sednl.Outgoing

open Sednl.Endian
open Sednl.Tag
open Sednl.Ring
open Sednl.Transition

/-- What `::send` returns, as the `unsigned long` it is stored in. -/
def ulong (result : ℤ) : ℕ :=
  (result % 2 ^ 64).toNat

inductive Ending where
  | returned
  /-- `NetworkExceptionT::EmptySend`. -/
  | emptySend
  /-- `NetworkExceptionT::SendFailed`. -/
  | sendFailed
  deriving DecidableEq, Repr

/-- A call of `Connection::send` in its loop, with the bytes `::send` has taken
from it. -/
structure Call where
  event : Event
  count : ℕ
  put : List Byte
  deriving DecidableEq, Repr

/-- A connection: its calls in the order they took the mutex, and all bytes
put on the wire. -/
structure State where
  ended : List (Call × Ending)
  current : Option Call
  wire : List Byte
  deriving DecidableEq, Repr

def State.start : State :=
  ⟨[], none, []⟩

inductive Action where
  | send (event : Event)
  /-- `::send` returns; `around` is the memory around the bytes of the event. -/
  | result (result : ℤ) (around : ℕ → Byte)

def maxSize : ℕ := 2 ^ 63 - 1

/-- `length` bytes from `data_ptr + count`, which may lie outside the data. -/
def bytesFrom (data : List Byte) (around : ℕ → Byte) (count length : ℕ) : List Byte :=
  (List.range length).map fun i =>
    data.getD ((count + i) % 2 ^ 64) (around ((count + i) % 2 ^ 64))

namespace Call

/-- `data.size() - count`. -/
def asked (host : Host) (call : Call) : ℕ :=
  ((call.event.pack host).length + (2 ^ 64 - call.count)) % 2 ^ 64

/-- What follows the loop. -/
def ending (host : Host) (call : Call) (tmpCount : ℕ) : Ending :=
  if (call.event.pack host).length = call.count then .returned
  else if tmpCount = 0 then .emptySend
  else .sendFailed

/-- `count += tmp_count`. -/
def advance (host : Host) (call : Call) (result : ℤ) (around : ℕ → Byte) : Call :=
  { call with
    count := (call.count + ulong result) % 2 ^ 64
    put := call.put ++ bytesFrom (call.event.pack host) around call.count result.toNat }

end Call

/-- From one `::send` to the next one, or to the end of the call. -/
def State.resume (host : Host) (state : State) (call : Call) (result : ℤ)
    (around : ℕ → Byte) : State :=
  if 0 < ulong result then
    let next := call.advance host result around
    let wire := state.wire ++
      bytesFrom (call.event.pack host) around call.count result.toNat
    if (call.event.pack host).length = next.count then
      ⟨state.ended ++ [(next, next.ending host (ulong result))], none, wire⟩
    else ⟨state.ended, some next, wire⟩
  else ⟨state.ended ++ [(call, call.ending host (ulong result))], none, state.wire⟩

/-- A call starts once no other holds the mutex; `::send` takes at most the
bytes it was asked to. -/
def step (host : Host) (state : State) : Action → Option State
  | .send event =>
      match state.current with
      | none =>
          if (event.pack host).length ≤ maxSize then
            some { state with current := some ⟨event, 0, []⟩ }
          else none
      | some _ => none
  | .result result around =>
      match state.current with
      | none => none
      | some call =>
          if -1 ≤ result ∧ result ≤ call.asked host then
            some (state.resume host call result around)
          else none

/-! ## Frames on the wire -/

def State.returned (state : State) : List Event :=
  state.ended.filterMap fun call =>
    if call.2 = .returned then some call.1.event else none

def State.calls (state : State) : List Call :=
  state.ended.map Prod.fst ++ state.current.toList

/-- The wire holds the frames of the calls that returned, in order, and then at
most a part of one frame; a call that reports an empty send has put nothing. -/
structure State.Intact (host : Host) (state : State) : Prop where
  hwire : ∃ cut, state.wire = packs host state.returned ++ cut ∧
    (cut = [] ∨ ∃ call ∈ state.calls,
      cut <+: call.event.pack host ∧ cut ≠ call.event.pack host)
  hempty : ∀ call, (call, Ending.emptySend) ∈ state.ended → call.put = []

/-- When a result of `::send` is safe: it takes bytes only while `count` is the
number of bytes already put, it is 0 only when there are none, and when it is
-1, `count` does not move onto the size of the data. -/
def Safe (host : Host) (state : State) : Action → Prop
  | .send _ => True
  | .result result _ => ∀ call, state.current = some call →
      (0 < result → call.count = call.put.length) ∧
      (result = 0 → call.put = []) ∧
      (result = -1 → call.count ≠ (call.event.pack host).length + 1)

instance decidableSafe (host : Host) (state : State) :
    (action : Action) → Decidable (Safe host state action)
  | .send _ => .isTrue trivial
  | .result result _ =>
      decidable_of_iff (∀ call ∈ state.current.toList,
          (0 < result → call.count = call.put.length) ∧ (result = 0 → call.put = []) ∧
          (result = -1 → call.count ≠ (call.event.pack host).length + 1))
        (by simp [Safe])

/-! ## The loop -/

@[simp]
theorem length_bytesFrom (data : List Byte) (around : ℕ → Byte) (count length : ℕ) :
    (bytesFrom data around count length).length = length := by
  simp [bytesFrom]

/-- Inside the data, `::send` is shown the data. -/
theorem bytesFrom_eq {data : List Byte} {around : ℕ → Byte} {count length : ℕ}
    (hlength : count + length ≤ data.length) (hsize : data.length < 2 ^ 64) :
    bytesFrom data around count length = (data.drop count).take length := by
  apply List.ext_getElem
  · simp only [length_bytesFrom, List.length_take, List.length_drop]
    omega
  · intro i hleft _
    rw [length_bytesFrom] at hleft
    have hmod : (count + i) % 2 ^ 64 = count + i := Nat.mod_eq_of_lt (by omega)
    rw [List.getElem_take, List.getElem_drop]
    simp only [bytesFrom, List.getElem_map, List.getElem_range, hmod]
    exact List.getD_eq_getElem _ _ (by omega)

theorem ulong_of_nonneg {result : ℤ} (hresult : 0 ≤ result) (hlt : result < 2 ^ 64) :
    ulong result = result.toNat := by
  rw [ulong, Int.emod_eq_of_lt hresult hlt]

theorem ulong_neg_one : ulong (-1) = 2 ^ 64 - 1 := rfl

theorem Call.advance_count_lt (host : Host) (call : Call) (result : ℤ)
    (around : ℕ → Byte) : (call.advance host result around).count < 2 ^ 64 :=
  Nat.mod_lt _ (by norm_num)

/-- Bytes that are taken where the loop stands lengthen the part of the frame
that is out. -/
theorem Call.advance_put {host : Host} {call : Call} {result : ℤ} {around : ℕ → Byte}
    (hsize : (call.event.pack host).length ≤ maxSize)
    (hput : call.put <+: call.event.pack host) (hcount : call.count = call.put.length)
    (hresult : 0 < result) (hasked : result ≤ call.asked host) :
    (call.advance host result around).put <+: call.event.pack host ∧
      (call.advance host result around).count =
        (call.advance host result around).put.length := by
  have hle : call.count ≤ (call.event.pack host).length := by
    rw [hcount]
    exact hput.length_le
  unfold maxSize at hsize
  unfold Call.asked at hasked
  have htaken : call.count + result.toNat ≤ (call.event.pack host).length := by omega
  have hbytes := @bytesFrom_eq _ around call.count result.toNat htaken (by omega)
  have hfront : call.put = (call.event.pack host).take call.count := by
    rw [hcount]
    exact List.prefix_iff_eq_take.mp hput
  constructor
  · rw [Call.advance, hbytes]
    nth_rewrite 1 [hfront]
    rw [← List.take_add]
    exact List.take_prefix _ _
  · rw [Call.advance, ulong_of_nonneg hresult.le (by omega), Nat.mod_eq_of_lt (by omega),
      List.length_append, length_bytesFrom, hcount]

/-- What the loop leaves is never taken for a failure. -/
theorem State.sendFailed_notMem_resume {host : Host} {state : State} {call other : Call}
    {result : ℤ} {around : ℕ → Byte} (hbefore : (other, Ending.sendFailed) ∉ state.ended) :
    (other, Ending.sendFailed) ∉ (state.resume host call result around).ended := by
  have hending : ∀ (call : Call) (tmpCount : ℕ),
      tmpCount = 0 ∨ (call.event.pack host).length = call.count →
      call.ending host tmpCount ≠ .sendFailed := by
    intro call tmpCount hstop
    rw [Call.ending]
    split
    · simp
    · rename_i hloop
      rw [if_pos (hstop.resolve_right hloop)]
      simp
  have hnotMem : ∀ (call : Call) (tmpCount : ℕ),
      tmpCount = 0 ∨ (call.event.pack host).length = call.count →
      (other, Ending.sendFailed) ∉ state.ended ++ [(call, call.ending host tmpCount)] := by
    intro call tmpCount hstop hmem
    rcases List.mem_append.mp hmem with hmem | hmem
    · exact hbefore hmem
    · exact hending call tmpCount hstop (Prod.mk.inj (List.mem_singleton.mp hmem)).2.symm
  rw [State.resume]
  split
  · simp only
    split
    · rename_i hlast
      exact hnotMem _ _ (.inr hlast)
    · exact hbefore
  · rename_i hzero
    exact hnotMem _ _ (.inl (Nat.eq_zero_of_not_pos hzero))

/-! ## Runs -/

/-- What the call that holds the mutex has put on the wire. -/
def State.pending (state : State) : List Byte :=
  (state.current.map Call.put).getD []

/-- The call that holds the mutex is inside its frame. -/
structure Call.Open (host : Host) (call : Call) : Prop where
  hsize : (call.event.pack host).length ≤ maxSize
  hcount : call.count < 2 ^ 64
  hloop : (call.event.pack host).length ≠ call.count
  hput : call.put <+: call.event.pack host
  hcut : call.put ≠ call.event.pack host

theorem Call.Open.advance {host : Host} {call : Call} {result : ℤ} {around : ℕ → Byte}
    (hopen : call.Open host)
    (hloop : (call.event.pack host).length ≠ (call.advance host result around).count)
    (hput : (call.advance host result around).put <+: call.event.pack host)
    (hcut : (call.advance host result around).put ≠ call.event.pack host) :
    (call.advance host result around).Open host :=
  ⟨hopen.hsize, call.advance_count_lt host result around, hloop, hput, hcut⟩

structure Framed (host : Host) (state : State) : Prop where
  hwire : state.wire = packs host state.returned ++ state.pending
  hempty : ∀ call, (call, Ending.emptySend) ∈ state.ended → call.put = []
  hopen : ∀ call, state.current = some call → call.Open host

theorem Framed.intact {host : Host} {state : State} (hframed : Framed host state) :
    state.Intact host := by
  refine ⟨⟨state.pending, hframed.hwire, ?_⟩, hframed.hempty⟩
  cases hcurrent : state.current with
  | none => exact .inl (by simp [State.pending, hcurrent])
  | some call =>
      have hopen := hframed.hopen call hcurrent
      have hcut : state.pending = call.put := by simp [State.pending, hcurrent]
      rw [hcut]
      exact .inr ⟨call, by simp [State.calls, hcurrent], hopen.hput, hopen.hcut⟩

theorem framed_start (host : Host) : Framed host State.start where
  hwire := rfl
  hempty := by simp [State.start]
  hopen := by simp [State.start]

section Steps

variable {host : Host} {state : State} {call : Call}

theorem returned_append (ended : List (Call × Ending)) (call : Call) (ending : Ending)
    (current : Option Call) (wire : List Byte) :
    State.returned ⟨ended ++ [(call, ending)], current, wire⟩ =
      State.returned ⟨ended, none, []⟩ ++
        if ending = .returned then [call.event] else [] := by
  rw [State.returned, List.filterMap_append]
  congr 1
  by_cases hending : ending = .returned
  · simp [hending]
  · simp [hending]

/-- A call enters its loop with the whole frame before it. -/
theorem Framed.send (hframed : Framed host state) (hcurrent : state.current = none)
    {event : Event} (hsize : (event.pack host).length ≤ maxSize) :
    Framed host { state with current := some ⟨event, 0, []⟩ } where
  hwire := by
    have hwire := hframed.hwire
    rw [State.pending, hcurrent] at hwire
    exact hwire
  hempty := hframed.hempty
  hopen := by
    intro call hcall
    obtain rfl := Option.some.inj hcall
    have hthree : 3 ≤ (event.pack host).length := by
      rw [Event.length_pack]
      exact event.three_le_size
    have hne : [] ≠ event.pack host := by
      intro hnil
      rw [← hnil] at hthree
      simp at hthree
    have hloop : (event.pack host).length ≠ 0 := by omega
    exact ⟨hsize, by norm_num, hloop, List.nil_prefix, hne⟩

/-- Bytes are taken where the loop stands. -/
theorem Framed.take (hframed : Framed host state) (hcurrent : state.current = some call)
    {result : ℤ} {around : ℕ → Byte} (hcount : call.count = call.put.length)
    (hresult : 0 < result) (hasked : result ≤ call.asked host) :
    Framed host (state.resume host call result around) := by
  have hopen := hframed.hopen call hcurrent
  have hlt : result < 2 ^ 64 := by
    have hmod : call.asked host < 2 ^ 64 := Nat.mod_lt _ (by norm_num)
    omega
  have hpositive : 0 < ulong result := by
    rw [ulong_of_nonneg hresult.le hlt]
    omega
  obtain ⟨hput, hlength⟩ := @Call.advance_put host call result around hopen.hsize
    hopen.hput hcount hresult hasked
  have hwire : state.wire ++ bytesFrom (call.event.pack host) around call.count
      result.toNat = packs host state.returned ++ (call.advance host result around).put := by
    have hbefore := hframed.hwire
    rw [State.pending, hcurrent] at hbefore
    rw [hbefore, List.append_assoc]
    rfl
  rw [State.resume, if_pos hpositive]
  by_cases hlast : (call.event.pack host).length = (call.advance host result around).count
  · have hwhole : (call.advance host result around).put = call.event.pack host :=
      hput.eq_of_length (hlength.symm.trans hlast.symm)
    have hending : (call.advance host result around).ending host (ulong result) = .returned :=
      if_pos hlast
    rw [if_pos hlast, hending]
    refine ⟨?_, ?_, by simp⟩
    · rw [returned_append, if_pos rfl, packs_append, State.pending, hwire, hwhole]
      simp [packs, State.returned, Call.advance]
    · intro other hother
      rcases List.mem_append.mp hother with hother | hother
      · exact hframed.hempty other hother
      · simp at hother
  · rw [if_neg hlast]
    refine ⟨hwire, hframed.hempty, ?_⟩
    intro next hnext
    obtain rfl := Option.some.inj hnext
    apply hopen.advance hlast hput
    intro hwhole
    exact hlast (by rw [hlength, hwhole])

/-- Nothing is taken and the call gives up: it has put nothing. -/
theorem Framed.giveUp (hframed : Framed host state) (hcurrent : state.current = some call)
    {around : ℕ → Byte} (hput : call.put = []) :
    Framed host (state.resume host call 0 around) := by
  have hending : call.ending host (ulong 0) = .emptySend := by
    rw [Call.ending, if_neg (hframed.hopen call hcurrent).hloop]
    rfl
  rw [State.resume, if_neg (by decide), hending]
  refine ⟨?_, ?_, by simp⟩
  · have hwire := hframed.hwire
    rw [State.pending, hcurrent] at hwire
    rw [returned_append, if_neg (by decide), List.append_nil, State.pending, hwire]
    simp [hput, State.returned]
  · intro other hother
    rcases List.mem_append.mp hother with hother | hother
    · exact hframed.hempty other hother
    · obtain ⟨rfl, _⟩ := Prod.mk.inj (List.mem_singleton.mp hother)
      exact hput

/-- `::send` fails: the loop goes on, one byte further back. -/
theorem Framed.fail (hframed : Framed host state) (hcurrent : state.current = some call)
    {around : ℕ → Byte} (hcount : call.count ≠ (call.event.pack host).length + 1) :
    Framed host (state.resume host call (-1) around) := by
  have hopen := hframed.hopen call hcurrent
  have hsize := hopen.hsize
  have hlt := hopen.hcount
  unfold maxSize at hsize
  have hloop : (call.event.pack host).length ≠ (call.advance host (-1) around).count := by
    rw [Call.advance, ulong_neg_one]
    simp only
    omega
  have hput : (call.advance host (-1) around).put = call.put := List.append_nil _
  rw [State.resume, if_pos (by decide), if_neg hloop]
  refine ⟨?_, hframed.hempty, ?_⟩
  · have hwire := hframed.hwire
    rw [State.pending, hcurrent] at hwire
    simpa [State.pending, State.returned, hput, bytesFrom] using hwire
  · intro next hnext
    obtain rfl := Option.some.inj hnext
    apply hopen.advance hloop
    · rw [hput]
      exact hopen.hput
    · rw [hput]
      exact hopen.hcut

theorem Framed.step (hframed : Framed host state) {action : Action} {next : State}
    (hsafe : Safe host state action) (hstep : step host state action = some next) :
    Framed host next := by
  cases action with
  | send event =>
      rw [Outgoing.step] at hstep
      split at hstep
      · rename_i hcurrent
        split at hstep
        · rename_i hsize
          obtain rfl := Option.some.inj hstep
          exact hframed.send hcurrent hsize
        · cases hstep
      · cases hstep
  | result result around =>
      rw [Outgoing.step] at hstep
      split at hstep
      · cases hstep
      · rename_i call hcurrent
        obtain ⟨htake, hgiveUp, hfail⟩ := hsafe call hcurrent
        split at hstep
        · rename_i hbounds
          obtain rfl := Option.some.inj hstep
          rcases lt_trichotomy result 0 with hnegative | rfl | hpositive
          · obtain rfl : result = -1 := by omega
            exact hframed.fail hcurrent (hfail rfl)
          · exact hframed.giveUp hcurrent (hgiveUp rfl)
          · exact hframed.take hcurrent (htake hpositive) hpositive hbounds.2
        · cases hstep

end Steps

/-- In every run in which `::send` takes nothing after a failure, and no 0 and
no failure ends a call that has put bytes, the wire holds whole frames in the
order of the calls and at most a part of one more, and empty sends put nothing. -/
theorem intact_of_reaches (host : Host) {state : State}
    (hreaches : Reaches (step host) (Safe host) State.start state) :
    state.Intact host :=
  (hreaches.invariant (fun hframed hsafe hstep => hframed.step hsafe hstep)
    (framed_start host)).intact

/-- An event with an empty name and no packet, the frame `00 03 00`. -/
def ping : Event := ⟨[], []⟩

/-- The frame goes out in two parts, then `::send` fails on the next one for
good. -/
theorem intact_of_reaches_ping :
    State.Intact .little ⟨[(⟨ping, 3, [0, 3, 0]⟩, .returned)],
      some ⟨ping, 2 ^ 64 - 1, []⟩, [0, 3, 0]⟩ := by
  have hrun : run (step .little) .start [.send ping, .result 1 fun _ => 0,
      .result 2 fun _ => 0, .send ping, .result (-1) fun _ => 0] =
      some ⟨[(⟨ping, 3, [0, 3, 0]⟩, .returned)], some ⟨ping, 2 ^ 64 - 1, []⟩,
        [0, 3, 0]⟩ := by decide +kernel
  have hmeets : Meets (step .little) (Safe .little) .start [.send ping,
      .result 1 fun _ => 0, .result 2 fun _ => 0, .send ping,
      .result (-1) fun _ => 0] := by decide +kernel
  exact intact_of_reaches .little (.of_run hrun hmeets)

/-- After one byte `::send` fails once, and the loop sends that byte again; or
`::send` takes nothing more, and the send that put the byte is called empty. -/
theorem not_intact_of_failure :
    (∃ state, run (step .little) .start [.send ping, .result 1 fun _ => 0,
        .result (-1) fun _ => 0, .result 3 fun _ => 0] = some state ∧
      state.wire = [0, 0, 3, 0] ∧ ¬ state.Intact .little) ∧
    ∃ state, run (step .little) .start [.send ping, .result 1 fun _ => 0,
        .result 0 fun _ => 0] = some state ∧
      state.wire = [0] ∧ ¬ state.Intact .little := by
  constructor
  · refine ⟨⟨[(⟨ping, 3, [0, 0, 3, 0]⟩, .returned)], none, [0, 0, 3, 0]⟩,
      by decide +kernel, rfl, ?_⟩
    intro hintact
    obtain ⟨cut, hwire, _⟩ := hintact.hwire
    have hpacks : packs .little [ping] = [0, 3, 0] := by decide
    change [0, 0, 3, 0] = packs .little [ping] ++ cut at hwire
    rw [hpacks] at hwire
    simp at hwire
  · refine ⟨⟨[(⟨ping, 1, [0]⟩, .emptySend)], none, [0]⟩, by decide +kernel, rfl, ?_⟩
    intro hintact
    have hput := hintact.hempty ⟨ping, 1, [0]⟩ (List.mem_singleton_self _)
    simp at hput

/-! ## Failures are not reported -/

/-- Nothing that is stored as positive or zero is -1, so `SendFailed` is never
thrown, whatever `::send` returns. -/
theorem sendFailed_notMem (host : Host) {state : State}
    (hreaches : Reaches (step host) anything State.start state) (call : Call) :
    (call, Ending.sendFailed) ∉ state.ended := by
  have hkeeps : ∀ {state : State} {action : Action} {next : State},
      (call, Ending.sendFailed) ∉ state.ended → anything state action →
      step host state action = some next → (call, Ending.sendFailed) ∉ next.ended := by
    intro state action next hbefore _ hstep
    cases action with
    | send event =>
        rw [step] at hstep
        split at hstep
        · split at hstep
          · obtain rfl := Option.some.inj hstep
            exact hbefore
          · cases hstep
        · cases hstep
    | result result around =>
        rw [step] at hstep
        split at hstep
        · cases hstep
        · split at hstep
          · obtain rfl := Option.some.inj hstep
            exact State.sendFailed_notMem_resume hbefore
          · cases hstep
  exact @Reaches.invariant _ _ _ _ (fun state => (call, Ending.sendFailed) ∉ state.ended)
    _ _ hkeeps hreaches (by simp [State.start])

/-! ## A kernel with room -/

theorem maxSize_lt : maxSize < 2 ^ 64 := by norm_num [maxSize]

section Room

variable (host : Host) {event : Event} (around : ℕ → Byte)

theorem asked_fresh (hsize : event.size < 2 ^ 64) :
    (⟨event, 0, []⟩ : Call).asked host = event.size := by
  rw [Call.asked, Event.length_pack, Nat.sub_zero, Nat.add_mod_right]
  exact Nat.mod_eq_of_lt hsize

theorem bytesFrom_pack (hsize : event.size < 2 ^ 64) :
    bytesFrom (event.pack host) around 0 event.size = event.pack host := by
  have hlength := event.length_pack host
  rw [bytesFrom_eq (by rw [hlength, Nat.zero_add]) (by rwa [hlength]), List.drop_zero,
    List.take_of_length_le hlength.le]

theorem resume_whole (hsize : event.size < 2 ^ 64) :
    State.resume host ⟨[], some ⟨event, 0, []⟩, []⟩ ⟨event, 0, []⟩ event.size around =
      ⟨[(⟨event, event.size, event.pack host⟩, .returned)], none, event.pack host⟩ := by
  have hpositive : 0 < event.size := Nat.lt_of_lt_of_le (by norm_num) event.three_le_size
  have hcast : (event.size : ℤ) < 2 ^ 64 := by norm_cast
  have hulong : ulong event.size = event.size := by
    rw [ulong_of_nonneg (Int.natCast_nonneg _) hcast, Int.toNat_natCast]
  have hnext : (⟨event, 0, []⟩ : Call).advance host event.size around =
      ⟨event, event.size, event.pack host⟩ := by
    rw [Call.advance, hulong, Int.toNat_natCast, bytesFrom_pack host around hsize,
      Nat.zero_add, Nat.mod_eq_of_lt hsize, List.nil_append]
  have hlast : (event.pack host).length =
      (⟨event, event.size, event.pack host⟩ : Call).count := event.length_pack host
  have hending : (⟨event, event.size, event.pack host⟩ : Call).ending host event.size =
      .returned := if_pos hlast
  rw [State.resume, hulong, if_pos hpositive, hnext]
  simp only [Int.toNat_natCast, bytesFrom_pack host around hsize]
  rw [if_pos hlast, hending]
  rfl

theorem step_send (hsize : event.size ≤ maxSize) :
    step host .start (.send event) = some ⟨[], some ⟨event, 0, []⟩, []⟩ := by
  have hle : (event.pack host).length ≤ maxSize := by rwa [Event.length_pack]
  rw [step]
  simp only [State.start]
  rw [if_pos hle]

theorem step_result (hlt : event.size < 2 ^ 64) :
    step host ⟨[], some ⟨event, 0, []⟩, []⟩ (.result event.size around) =
      some ⟨[(⟨event, event.size, event.pack host⟩, .returned)], none,
        event.pack host⟩ := by
  have hbounds : (-1 : ℤ) ≤ event.size ∧
      (event.size : ℤ) ≤ (⟨event, 0, []⟩ : Call).asked host := by
    rw [asked_fresh host hlt]
    exact ⟨le_trans (by norm_num) (Int.natCast_nonneg _), le_rfl⟩
  rw [step]
  simp only
  rw [if_pos hbounds, resume_whole host around hlt]

/-- A kernel with room takes the whole frame at once, and `send` returns. -/
theorem run_whole (hsize : event.size ≤ maxSize) :
    run (step host) .start [.send event, .result event.size around] =
      some ⟨[(⟨event, event.size, event.pack host⟩, .returned)], none,
        event.pack host⟩ := by
  have hlt : event.size < 2 ^ 64 := Nat.lt_of_le_of_lt hsize maxSize_lt
  rw [run_cons (step_send host hsize), run_cons (step_result host around hlt), run]

end Room

end Sednl.Outgoing
