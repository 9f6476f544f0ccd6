import Sednl.Ring.Placement

/-!
# Allocations that fail in `pick_event`

An allocation that fails makes `pick_event` return false.  While the name or the
packet grows nothing has been committed yet, and the buffer keeps its head frame.
The copy of both into an event comes last, behind the assignment of the new start:
when that copy fails, the frame is gone.
-/

namespace Sednl.Ring

open Sednl.Endian
open Sednl.Memory
open Sednl.Tag
open Sednl.Word
open Sednl.Circular
open Sednl.Grammar

/-- The same environment, when no allocation fails. -/
def Env.spared (env : Env) : Env :=
  { env with allocs := { env.allocs with
      name := fun _ => true, packet := fun _ => true, event := true, hname := fun _ _ => rfl } }

theorem Env.spared_name (env : Env) : env.spared.allocs.name = fun _ => true := rfl

theorem Env.spared_packet (env : Env) : env.spared.allocs.packet = fun _ => true := rfl

theorem Env.allocates_spared (env : Env) : env.spared.Allocates :=
  ⟨fun _ => rfl, fun _ => rfl, rfl⟩

/-- The same environment, when `stray` lies past the array of the buffer. -/
def Env.over (env : Env) (stray : ℕ → Byte) : Env :=
  { env with wild := fun _ => stray }

/-- A call that returns false because of an allocation, that is, one that would do
something else if none failed, leaves the buffer and the event as they are. -/
def Atomic (env : Env) (buf : RingBuf) (event : Event) : Prop :=
  ∀ picked clean, ((pickEvent env buf event).run []).1 = some picked →
    ((pickEvent env.spared buf event).run []).1 = some clean →
    picked.found = false → picked.result ≠ clean.result →
    picked.buf.mStart = buf.mStart ∧ picked.buf.mEnd = buf.mEnd ∧
      picked.buf.contents = buf.contents ∧ picked.event = event

/-! ## The byte loops when an allocation fails -/

/-- A byte loop that holds `held` bytes: `made` is what it comes to, `clean` what it
would come to if no allocation failed. -/
inductive Fills (alloc : ℕ → Bool) (held : ℕ) (clean made : Cursor × List ℕ) : Prop
  | whole (hsame : made = clean)
      (halloc : ∀ k, held ≤ k → k < clean.1.bytes.length → alloc k = true) :
      Fills alloc held clean made
  | starved (hok : made.1.ok = false) {k : ℕ} (hheld : held ≤ k)
      (hk : k < clean.1.bytes.length) (halloc : alloc k = false) :
      Fills alloc held clean made

section Loops

variable {memory : Region Byte} {alloc : ℕ → Bool}

theorem Fills.pushed {held : ℕ} {clean made : Cursor × List ℕ}
    (hfills : Fills alloc (held + 1) clean made) (halloc : alloc held = true) :
    Fills alloc held clean made := by
  cases hfills with
  | whole hsame hall =>
      refine .whole hsame fun k hheld hk => ?_
      rcases Nat.eq_or_lt_of_le hheld with rfl | hlt
      · exact halloc
      · exact hall k hlt hk
  | starved hok hheld hk hfail => exact .starved hok (Nat.le_of_succ_le hheld) hk hfail

theorem le_length_takeName (remaining dtIdx : ℕ) (name : List Byte) (counters log : List ℕ) :
    name.length ≤
      ((takeName memory alloc remaining dtIdx name counters).run log).1.bytes.length := by
  induction remaining generalizing dtIdx name counters log with
  | zero => exact le_rfl
  | succ remaining ih =>
      rw [takeName_run]
      split
      · exact le_rfl
      · split
        · refine le_trans ?_ (ih _ _ _ _)
          rw [List.length_append]
          exact Nat.le_add_right _ _
        · exact le_rfl

theorem le_length_takePacket (remaining dtIdx : ℕ) (packet : List Byte)
    (counters log : List ℕ) :
    packet.length ≤
      ((takePacket memory alloc remaining dtIdx packet counters).run log).1.bytes.length := by
  induction remaining generalizing dtIdx packet counters log with
  | zero => exact le_rfl
  | succ remaining ih =>
      rw [takePacket_run]
      split
      · refine le_trans ?_ (ih _ _ _ _)
        rw [List.length_append]
        exact Nat.le_add_right _ _
      · exact le_rfl

theorem takeName_fills (remaining dtIdx : ℕ) (name : List Byte) (counters log : List ℕ) :
    Fills alloc name.length
      ((takeName memory (fun _ => true) remaining dtIdx name counters).run log)
      ((takeName memory alloc remaining dtIdx name counters).run log) := by
  induction remaining generalizing dtIdx name counters log with
  | zero => exact .whole rfl fun k hheld hk => absurd hk (not_lt.mpr hheld)
  | succ remaining ih =>
      rw [takeName_run, takeName_run, if_pos rfl]
      by_cases hbyte : memory.value log dtIdx = 0
      · rw [if_pos hbyte, if_pos hbyte]
        exact .whole rfl fun k hheld hk => absurd hk (not_lt.mpr hheld)
      · rw [if_neg hbyte, if_neg hbyte]
        have hlonger := @le_length_takeName memory (fun _ => true) remaining (u32 (dtIdx + 1))
          (name ++ [memory.value (dtIdx :: log) dtIdx]) ((remaining + 1) :: counters)
          (dtIdx :: dtIdx :: log)
        have hrest := ih (u32 (dtIdx + 1)) (name ++ [memory.value (dtIdx :: log) dtIdx])
          ((remaining + 1) :: counters) (dtIdx :: dtIdx :: log)
        rw [List.length_append, List.length_singleton] at hlonger hrest
        cases halloc : alloc name.length with
        | true =>
            rw [if_pos rfl]
            exact hrest.pushed halloc
        | false =>
            rw [if_neg Bool.false_ne_true]
            exact .starved rfl le_rfl hlonger halloc

theorem takePacket_fills (remaining dtIdx : ℕ) (packet : List Byte)
    (counters log : List ℕ) :
    Fills alloc packet.length
      ((takePacket memory (fun _ => true) remaining dtIdx packet counters).run log)
      ((takePacket memory alloc remaining dtIdx packet counters).run log) := by
  induction remaining generalizing dtIdx packet counters log with
  | zero => exact .whole rfl fun k hheld hk => absurd hk (not_lt.mpr hheld)
  | succ remaining ih =>
      rw [takePacket_run, takePacket_run, if_pos rfl]
      have hlonger := @le_length_takePacket memory (fun _ => true) remaining (u32 (dtIdx + 1))
        (packet ++ [memory.value log dtIdx]) ((remaining + 1) :: counters) (dtIdx :: log)
      have hrest := ih (u32 (dtIdx + 1)) (packet ++ [memory.value log dtIdx])
        ((remaining + 1) :: counters) (dtIdx :: log)
      rw [List.length_append, List.length_singleton] at hlonger hrest
      cases halloc : alloc packet.length with
      | true =>
          rw [if_pos rfl]
          exact hrest.pushed halloc
      | false =>
          rw [if_neg Bool.false_ne_true]
          exact .starved rfl le_rfl hlonger halloc

end Loops

/-! ## A call when an allocation fails -/

/-- Every byte of the name and of the packet finds room. -/
def Env.Stores (env : Env) (picked : Event) : Prop :=
  (∀ k < picked.name.length, env.allocs.name k = true) ∧
    ∀ k < picked.packet.length, env.allocs.packet k = true

/-- What a call comes to, against what it comes to if no allocation fails: the same,
nothing, or a frame that is removed without its event. -/
inductive Versus (env : Env) (buf : RingBuf) (event : Event)
    (clean made : Option (Bool × Event × RingBuf)) : Prop
  | same (hsame : made = clean)
      (hcopy : ∀ picked next, clean = some (true, picked, next) →
        env.allocs.copies picked = true) :
      Versus env buf event clean made
  | starved (hmade : made = some (false, event, buf))
      (hstores : ∀ picked next, clean = some (true, picked, next) → ¬ env.Stores picked) :
      Versus env buf event clean made
  | lost {picked : Event} {next : RingBuf} (hclean : clean = some (true, picked, next))
      (hmade : made = some (false, event, next)) (hstores : env.Stores picked)
      (hcopy : env.allocs.copies picked = false) :
      Versus env buf event clean made

/-- The end of a call, behind the loop over the packet. -/
def packetResult (env : Env) (buf : RingBuf) (event : Event) (name : List Byte)
    (packet : Cursor) : Option (Bool × Event × RingBuf) :=
  if packet.ok && env.validPacket packet.bytes then
    (buf.startAt packet.dtIdx).map fun next =>
      if env.allocs.copies ⟨name, packet.bytes⟩ then (true, ⟨name, packet.bytes⟩, next)
      else (false, event, next)
  else some (false, event, buf)

/-- The end of a call, behind the loop over the name. -/
def nameResult (env : Env) (memory : Region Byte) (buf : RingBuf) (event : Event)
    (packetLength : ℕ) (name : Cursor × List ℕ) : Option (Bool × Event × RingBuf) :=
  if name.1.ok then
    if name.1.remaining = 0 then
      (buf.startAt (u32 (buf.mStart + packetLength))).map fun next => (false, event, next)
    else ((pickPacket env memory buf event name.1).run name.2).1.map Picked.result
  else some (false, event, buf)

section Calls

variable {env : Env} {memory : Region Byte} {buf : RingBuf} {event : Event}

theorem pickPacket_result (name : Cursor) (log : List ℕ) :
    ((pickPacket env memory buf event name).run log).1.map Picked.result =
      packetResult env buf event name.bytes
        ((takePacket memory env.allocs.packet name.nextByte.remaining name.nextByte.dtIdx []
          name.nextByte.counters).run log).1 := by
  unfold pickPacket
  generalize name.nextByte = jumped
  rw [Probe.run_bind, Probe.run_ite, packetResult]
  generalize ((takePacket memory env.allocs.packet jumped.remaining jumped.dtIdx []
    jumped.counters).run log) = outcome
  obtain ⟨packet, later⟩ := outcome
  split
  · cases buf.startAt packet.dtIdx with
    | none => rfl
    | some next =>
        simp only [Probe.run_ite, Option.map_some]
        split
        · rfl
        · rfl
  · rfl

theorem versus_of_false {clean made : Option (Bool × Event × RingBuf)} (hsame : made = clean)
    (hfalse : ∀ picked next, clean ≠ some (true, picked, next)) :
    Versus env buf event clean made :=
  .same hsame fun picked next hclean => absurd hclean (hfalse picked next)

theorem packetResult_versus {name : List Byte} {packet : Cursor}
    (hname : ∀ k < name.length, env.allocs.name k = true)
    (hpacket : ∀ k < packet.bytes.length, env.allocs.packet k = true) :
    Versus env buf event (packetResult env.spared buf event name packet)
      (packetResult env buf event name packet) := by
  have hvalid : env.spared.validPacket packet.bytes = env.validPacket packet.bytes := rfl
  rw [packetResult, packetResult, hvalid]
  split
  · cases buf.startAt packet.dtIdx with
    | none => exact versus_of_false rfl (by simp)
    | some next =>
        simp only [Option.map_some]
        rw [if_pos (env.allocates_spared.copies _)]
        cases hcopy : env.allocs.copies ⟨name, packet.bytes⟩ with
        | true =>
            refine .same rfl fun picked last hclean => ?_
            rw [Option.some.injEq, Prod.mk.injEq, Prod.mk.injEq] at hclean
            rwa [← hclean.2.1]
        | false => exact .lost rfl rfl ⟨hname, hpacket⟩ hcopy
  · exact versus_of_false rfl (by simp)

theorem packetResult_found {name : List Byte} {packet : Cursor} {picked : Event}
    {next : RingBuf}
    (hfound : packetResult env buf event name packet = some (true, picked, next)) :
    picked = ⟨name, packet.bytes⟩ := by
  rw [packetResult] at hfound
  split at hfound
  · obtain ⟨last, -, hpair⟩ := Option.map_eq_some_iff.mp hfound
    split at hpair
    · rw [Prod.mk.injEq, Prod.mk.injEq] at hpair
      exact hpair.2.1.symm
    · simp at hpair
  · simp at hfound

theorem Fills.packet_versus {name : List Byte} {clean made : Cursor × List ℕ}
    (hfills : Fills env.allocs.packet 0 clean made)
    (hname : ∀ k < name.length, env.allocs.name k = true) :
    Versus env buf event (packetResult env.spared buf event name clean.1)
      (packetResult env buf event name made.1) := by
  cases hfills with
  | whole hsame halloc =>
      rw [hsame]
      exact packetResult_versus hname fun k hk => halloc k (Nat.zero_le k) hk
  | starved hok _ hk halloc =>
      refine .starved ?_ fun picked next hfound hstores => ?_
      · rw [packetResult, hok, Bool.false_and, if_neg Bool.false_ne_true]
      · rw [packetResult_found hfound] at hstores
        rw [hstores.2 _ hk] at halloc
        cases halloc

theorem pickPacket_versus {name : Cursor}
    (hname : ∀ k < name.bytes.length, env.allocs.name k = true) (log : List ℕ) :
    Versus env buf event
      (((pickPacket env.spared memory buf event name).run log).1.map Picked.result)
      (((pickPacket env memory buf event name).run log).1.map Picked.result) := by
  have hfills := @takePacket_fills memory env.allocs.packet name.nextByte.remaining
    name.nextByte.dtIdx [] name.nextByte.counters log
  rw [List.length_nil] at hfills
  rw [pickPacket_result, pickPacket_result, Env.spared_packet]
  exact hfills.packet_versus hname

/-- The name of what is found is what the loop over the name has read. -/
theorem pickPacket_found {name : Cursor} {picked : Event} {next : RingBuf} {log : List ℕ}
    (hfound : ((pickPacket env memory buf event name).run log).1.map Picked.result =
      some (true, picked, next)) : picked.name = name.bytes := by
  rw [pickPacket_result] at hfound
  rw [packetResult_found hfound]

theorem pickFrame_result (packetLength : ℕ) (log : List ℕ) :
    ((pickFrame env memory buf event packetLength).run log).1.map Picked.result =
      (buf.round (buf.mStart + 2)).bind fun dtIdx =>
        nameResult env memory buf event packetLength
          ((takeName memory env.allocs.name (packetLength - 2) dtIdx [] []).run log) := by
  unfold pickFrame
  cases buf.round (buf.mStart + 2) with
  | none => rfl
  | some dtIdx =>
      rw [Option.bind_some, nameResult]
      simp only
      rw [Probe.run_bind, Probe.run_ite]
      generalize (takeName memory env.allocs.name (packetLength - 2) dtIdx [] []).run log = name
      split
      · rw [Probe.run_ite]
        split
        · cases buf.startAt (u32 (buf.mStart + packetLength)) with
          | none => rfl
          | some next => rfl
        · rfl
      · rfl

theorem nameResult_found {packetLength : ℕ} {name : Cursor × List ℕ} {picked : Event}
    {next : RingBuf}
    (hfound : nameResult env memory buf event packetLength name = some (true, picked, next)) :
    picked.name = name.1.bytes := by
  rw [nameResult] at hfound
  split at hfound
  · split at hfound
    · obtain ⟨last, -, hpair⟩ := Option.map_eq_some_iff.mp hfound
      simp at hpair
    · exact pickPacket_found hfound
  · simp at hfound

theorem Fills.name_versus {packetLength : ℕ} {clean made : Cursor × List ℕ}
    (hfills : Fills env.allocs.name 0 clean made) :
    Versus env buf event (nameResult env.spared memory buf event packetLength clean)
      (nameResult env memory buf event packetLength made) := by
  cases hfills with
  | whole hsame halloc =>
      subst hsame
      rw [nameResult, nameResult]
      split
      · split
        · exact versus_of_false rfl (by simp)
        · exact pickPacket_versus (fun k hk => halloc k (Nat.zero_le k) hk) _
      · exact versus_of_false rfl (by simp)
  | starved hok _ hk halloc =>
      refine .starved ?_ fun picked next hfound hstores => ?_
      · rw [nameResult, hok, if_neg Bool.false_ne_true]
      · rw [← nameResult_found hfound] at hk
        rw [hstores.1 _ hk] at halloc
        cases halloc

theorem pickFrame_versus (packetLength : ℕ) (log : List ℕ) :
    Versus env buf event
      (((pickFrame env.spared memory buf event packetLength).run log).1.map Picked.result)
      (((pickFrame env memory buf event packetLength).run log).1.map Picked.result) := by
  rw [pickFrame_result, pickFrame_result, Env.spared_name]
  cases buf.round (buf.mStart + 2) with
  | none =>
      rw [Option.bind_none, Option.bind_none]
      exact versus_of_false rfl (by simp)
  | some dtIdx =>
      have hfills := @takeName_fills memory env.allocs.name (packetLength - 2) dtIdx [] [] log
      rw [List.length_nil] at hfills
      rw [Option.bind_some, Option.bind_some]
      exact hfills.name_versus

/-- However allocations fail, a call does what it would do without
failures, or nothing, or it loses the frame. -/
theorem pickFrom_versus (log : List ℕ) :
    Versus env buf event
      (((pickFrom env.spared memory buf event).run log).1.map Picked.result)
      (((pickFrom env memory buf event).run log).1.map Picked.result) := by
  rw [pickFrom_run, pickFrom_run]
  split
  · exact versus_of_false rfl (by simp [Picked.result])
  · rw [show env.spared.host = env.host from rfl]
    simp only
    split
    · exact versus_of_false rfl (by simp [Picked.result])
    · exact pickFrame_versus _ _

end Calls

/-! ## The frame a call sees -/

theorem startAt_mStart {buf next : RingBuf} {pos : ℕ} (hnext : buf.startAt pos = some next) :
    next.mStart = pos % u32 (buf.mSize + 1) := by
  rw [RingBuf.startAt] at hnext
  split at hnext
  · cases hnext
  · obtain rfl := Option.some.inj hnext
    rfl

/-- Where the start does not move, nothing does. -/
theorem RingBuf.Restarted.eq_of_mStart {buf next : RingBuf} (hnext : buf.Restarted next)
    (hstart : next.mStart = buf.mStart) : next = buf := by
  rcases hnext with rfl | ⟨pos, hpos⟩
  · rfl
  · rw [RingBuf.startAt] at hpos
    split at hpos
    · cases hpos
    · obtain rfl := Option.some.inj hpos
      cases buf
      simpa using hstart

/-- What a read of the array finds, `stray` lying past it. -/
def RingBuf.cell (buf : RingBuf) (stray : ℕ → Byte) (index : ℕ) : Byte :=
  (buf.mDt[index]?).getD (stray index)

/-- The length of the head frame, as it is read. -/
def cellNeed (buf : RingBuf) (stray : ℕ → Byte) : ℕ :=
  max 3 (beValue [buf.cell stray buf.mStart, buf.cell stray (u32 (buf.mStart + 1))])

/-- What follows the length of the head frame, as it is read. -/
def cellBody (buf : RingBuf) (stray : ℕ → Byte) : List Byte :=
  (List.range (cellNeed buf stray - 2)).map fun k =>
    buf.cell stray (u32 ((buf.mStart + 2) % (buf.mSize + 1) + k))

/-- The head frame, as it is read, is whole and ends its name, its packet is valid,
the name and the packet find room, and the start behind it is another one. -/
structure Delivers (env : Env) (buf : RingBuf) (stray : ℕ → Byte) : Prop where
  hroom : buf.mSize + 1 < 2 ^ 32
  htwo : 2 ≤ buf.length
  hwhole : cellNeed buf stray ≤ buf.length
  hzero : 0 ∈ cellBody buf stray
  hvalid : WellFormed (bodyPacket (cellBody buf stray))
  hstores : env.Stores ⟨bodyName (cellBody buf stray), bodyPacket (cellBody buf stray)⟩
  hmoves : u32 ((buf.mStart + 2) % (buf.mSize + 1) + (cellNeed buf stray - 2)) %
    (buf.mSize + 1) ≠ buf.mStart

section Seen

variable {env : Env} {buf : RingBuf} {stray : ℕ → Byte}

theorem cellNeed_le (buf : RingBuf) (stray : ℕ → Byte) : cellNeed buf stray ≤ 65535 := by
  have hvalue :=
    beValue_lt [buf.cell stray buf.mStart, buf.cell stray (u32 (buf.mStart + 1))]
  simp only [List.length_cons, List.length_nil] at hvalue
  unfold cellNeed
  omega

@[simp]
theorem length_cellBody (buf : RingBuf) (stray : ℕ → Byte) :
    (cellBody buf stray).length = cellNeed buf stray - 2 := by
  rw [cellBody, List.length_map, List.length_range]

theorem value_over (log : List ℕ) (index : ℕ) :
    (buf.memory (env.over stray)).value log index = buf.cell stray index := rfl

theorem showsAround_cellBody :
    ShowsAround (buf.memory (env.over stray)) ((buf.mStart + 2) % (buf.mSize + 1))
      (cellBody buf stray) := by
  intro offset byte hbyte log
  rw [cellBody, List.getElem?_map, Option.map_eq_some_iff] at hbyte
  obtain ⟨k, hk, rfl⟩ := hbyte
  obtain ⟨_, rfl⟩ := List.getElem?_eq_some_iff.mp hk
  rw [List.getElem_range]
  exact value_over log _

/-- Without failures, a call by the frame it sees. -/
theorem pickEvent_clean (hroom : buf.mSize + 1 < 2 ^ 32) (event : Event) (log : List ℕ) :
    ((pickEvent (env.over stray).spared buf event).run log).1.map Picked.result =
      if buf.length < 2 ∨ buf.length < cellNeed buf stray then some (false, event, buf)
      else if 0 ∈ cellBody buf stray then
        if WellFormed (bodyPacket (cellBody buf stray)) then
          (buf.startAt (u32 ((buf.mStart + 2) % (buf.mSize + 1) +
            (cellNeed buf stray - 2)))).map fun next =>
            (true, ⟨bodyName (cellBody buf stray), bodyPacket (cellBody buf stray)⟩, next)
        else some (false, event, buf)
      else (buf.startAt (u32 (buf.mStart + cellNeed buf stray))).map fun next =>
        (false, event, next) := by
  have hneed := cellNeed_le buf stray
  have hload := (env.over stray).spared.host.ntoh_load
    [buf.cell stray buf.mStart, buf.cell stray (u32 (buf.mStart + 1))]
  simp only [List.length_cons, List.length_nil] at hload
  have hvalid := validPacket_eq (env.over stray).spared
    (@length_bodyPacket_le (cellBody buf stray) (by rw [length_cellBody]; omega))
  have hmemory : buf.memory (env.over stray).spared = buf.memory (env.over stray) := rfl
  rw [pickEvent, hmemory, pickFrom_run]
  by_cases hshort : buf.length < 2
  · rw [if_pos hshort, if_pos (.inl hshort)]
    rfl
  · rw [if_neg hshort, value_over, value_over, hload]
    simp only
    rw [show max 3 (beValue [buf.cell stray buf.mStart,
      buf.cell stray (u32 (buf.mStart + 1))]) = cellNeed buf stray from rfl]
    by_cases hcut : buf.length < cellNeed buf stray
    · rw [if_pos hcut, if_pos (.inr hcut)]
      rfl
    · rw [if_neg hcut, if_neg (not_or.mpr ⟨hshort, hcut⟩),
        pickFrame_around (env.over stray).allocates_spared hroom rfl showsAround_cellBody
          (by rw [length_cellBody]; omega) event (length_cellBody buf stray).symm]
      simp only [length_cellBody, hvalid, decide_eq_true_eq]

/-- A buffer without a modulus finds nothing. -/
theorem room_of_found {memory : Region Byte} {event picked : Event} {next : RingBuf}
    {log : List ℕ}
    (hfound : ((pickFrom env memory buf event).run log).1.map Picked.result =
      some (true, picked, next)) : buf.mSize + 1 < 2 ^ 32 := by
  by_contra hroom
  have hlt := buf.hsize
  have hmodulus : u32 (buf.mSize + 1) = 0 := by
    unfold u32
    omega
  rw [pickFrom_run] at hfound
  split at hfound
  · simp [Picked.result] at hfound
  · simp only at hfound
    split at hfound
    · simp [Picked.result] at hfound
    · simp [pickFrame, RingBuf.round, hmodulus] at hfound

/-- What is found comes from the frame that is seen. -/
theorem delivers_of_found {event picked : Event} {next : RingBuf}
    (hfound : ((pickEvent (env.over stray).spared buf event).run []).1.map Picked.result =
      some (true, picked, next)) (hstores : env.Stores picked)
    (hmoves : next.mStart ≠ buf.mStart) : Delivers env buf stray := by
  have hroom := room_of_found hfound
  rw [pickEvent_clean hroom] at hfound
  split at hfound
  · simp at hfound
  · rename_i hwhole
    obtain ⟨htwo, hwhole⟩ := not_or.mp hwhole
    split at hfound
    · rename_i hzero
      split at hfound
      · rename_i hvalid
        obtain ⟨last, hlast, hpair⟩ := Option.map_eq_some_iff.mp hfound
        rw [Prod.mk.injEq, Prod.mk.injEq] at hpair
        obtain ⟨-, rfl, rfl⟩ := hpair
        rw [startAt_mStart hlast, RingBuf.modulus_eq hroom] at hmoves
        exact ⟨hroom, not_lt.mp htwo, not_lt.mp hwhole, hzero, hvalid, hstores, hmoves⟩
      · simp at hfound
    · obtain ⟨last, -, hpair⟩ := Option.map_eq_some_iff.mp hfound
      simp at hpair

theorem Delivers.found (hdelivers : Delivers env buf stray) (event : Event) :
    ∃ next, ((pickEvent (env.over stray).spared buf event).run []).1.map Picked.result =
        some (true, ⟨bodyName (cellBody buf stray), bodyPacket (cellBody buf stray)⟩, next) ∧
      next.mStart ≠ buf.mStart := by
  obtain ⟨hroom, htwo, hwhole, hzero, hvalid, -, hmoves⟩ := hdelivers
  obtain ⟨next, hnext⟩ := RingBuf.startAt_isSome hroom
    (u32 ((buf.mStart + 2) % (buf.mSize + 1) + (cellNeed buf stray - 2)))
  refine ⟨next, ?_, ?_⟩
  · rw [pickEvent_clean hroom, if_neg (not_or.mpr ⟨not_lt.mpr htwo, not_lt.mpr hwhole⟩),
      if_pos hzero, if_pos hvalid, hnext]
    rfl
  · rwa [startAt_mStart hnext, RingBuf.modulus_eq hroom]

end Seen

/-- For every buffer, whatever lies around its array and whichever allocations fail,
a call that fails for want of memory changes nothing, if and only if it is not the
copy of a frame into an event that fails. -/
theorem atomic_iff (env : Env) (buf : RingBuf) (stray : ℕ → Byte) (event : Event) :
    Atomic (env.over stray) buf event ↔
      (Delivers env buf stray →
        env.allocs.copies
          ⟨bodyName (cellBody buf stray), bodyPacket (cellBody buf stray)⟩ = true) := by
  have hversus := @pickFrom_versus (env.over stray) (buf.memory (env.over stray)) buf event []
  constructor
  · intro hatomic hdelivers
    obtain ⟨next, hclean, hmoves⟩ := hdelivers.found event
    change Versus _ _ _ (((pickEvent (env.over stray).spared buf event).run []).1.map _)
      (((pickEvent (env.over stray) buf event).run []).1.map _) at hversus
    rw [hclean] at hversus
    cases hversus with
    | same _ hcopy => exact hcopy _ _ rfl
    | starved _ hstores => exact absurd hdelivers.hstores (hstores _ _ rfl)
    | lost hfound hmade _ _ =>
        cases hfound
        obtain ⟨picked, hpicked, hresult⟩ := Option.map_eq_some_iff.mp hmade
        obtain ⟨clean, hrun, hcleanResult⟩ := Option.map_eq_some_iff.mp hclean
        have hkept := (hatomic picked clean hpicked hrun (congrArg Prod.fst hresult)
          (by rw [hresult, hcleanResult]; simp)).1
        have hbuf : picked.buf = next := congrArg (fun result => result.2.2) hresult
        exact absurd (hbuf ▸ hkept) hmoves
  · intro hcopy picked clean hpicked hclean _ hdiffers
    rw [← pickEvent] at hversus
    change Versus _ _ _ (((pickEvent (env.over stray).spared buf event).run []).1.map _) _
      at hversus
    rw [hpicked, hclean] at hversus
    cases hversus with
    | same hsame _ => exact absurd (Option.some.inj hsame) hdiffers
    | starved hmade _ =>
        obtain ⟨-, rfl, rfl⟩ : picked.found = false ∧ picked.event = event ∧
            picked.buf = buf := by simpa [Picked.result] using hmade
        exact ⟨rfl, rfl, rfl, rfl⟩
    | @lost found next hfound hmade hstores hfails =>
        have hkept : next.mStart = buf.mStart := by
          by_contra hmoves
          have hdelivers := @delivers_of_found env buf stray event found next
            (by rw [hclean]; exact hfound) hstores hmoves
          obtain ⟨last, hlast, -⟩ := hdelivers.found event
          rw [hclean, hfound, Option.some.injEq, Prod.mk.injEq, Prod.mk.injEq] at hlast
          rw [hlast.2.1] at hfails
          cases (hcopy hdelivers).symm.trans hfails
        have hsame : next = buf := by
          have hbuf : clean.buf = next :=
            congrArg (fun result => result.2.2) (Option.some.inj hfound)
          rw [pickEvent] at hclean
          rw [← hbuf] at hkept ⊢
          exact (pickFrom_restarted hclean).eq_of_mStart hkept
        obtain ⟨-, hevent, hbuf⟩ : picked.found = false ∧ picked.event = event ∧
            picked.buf = next := by simpa [Picked.result] using hmade
        rw [hbuf, hsame]
        exact ⟨rfl, rfl, rfl, hevent⟩

/-- An environment in which only the copy into an event fails. -/
def Env.copyless : Env :=
  { Env.ample with allocs := { Env.ample.allocs with event := false } }

/-- A frame that is found without failures, and given up with one. -/
theorem not_atomic_of_moved {env : Env} {buf : RingBuf} {event : Event} {start : ℕ}
    {contents : List Byte}
    (hmade : ((pickEvent env buf event).run []).1.map
      (fun picked => (picked.found, picked.buf.mStart, picked.buf.contents)) =
        some (false, start, contents))
    (hclean : ((pickEvent env.spared buf event).run []).1.map Picked.found = some true)
    (hstart : start ≠ buf.mStart) : ¬ Atomic env buf event := by
  intro hatomic
  obtain ⟨picked, hpicked, hparts⟩ := Option.map_eq_some_iff.mp hmade
  obtain ⟨clean, hcleanRun, hcleanFound⟩ := Option.map_eq_some_iff.mp hclean
  rw [Prod.mk.injEq, Prod.mk.injEq] at hparts
  obtain ⟨hfound, rfl, -⟩ := hparts
  have hdiffers : picked.result ≠ clean.result := by
    intro hsame
    have hboth : picked.found = clean.found := congrArg Prod.fst hsame
    rw [hfound, hcleanFound] at hboth
    cases hboth
  exact hstart (hatomic picked clean hpicked hcleanRun hfound hdiffers).1

/-- The frame `00 05 00 01 2a` is whole, and the copy of its packet fails: the frame
is gone. -/
theorem not_atomic_of_copy :
    ∃ buf, (RingBuf.new 8 [0, 0, 0, 0, 0, 0, 0, 0, 0] (by decide) (by decide)).put
          [0, 5, 0, 1, 42] = some (true, buf) ∧
      buf.contents = [0, 5, 0, 1, 42] ∧
      ((pickEvent .copyless buf ⟨[], []⟩).run []).1.map
        (fun picked => (picked.found, picked.buf.mStart, picked.buf.contents)) =
          some (false, 5, []) ∧
      ¬ Atomic .copyless buf ⟨[], []⟩ := by
  refine ⟨_, rfl, by decide +kernel, by decide +kernel, ?_⟩
  exact @not_atomic_of_moved _ _ _ 5 [] (by decide +kernel) (by decide +kernel) (by decide)

end Sednl.Ring
