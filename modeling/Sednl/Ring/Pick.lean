import Sednl.Ring.RingBuf

/-!
# What `pick_event` makes of a frame

When the bytes it reads are known, `pick_event` is a function of them:
`frameResult` says which, and `pickEvent_inPlace` that a buffer whose head
frame does not straddle the end of the array shows it its own contents.  Which
cells are read does not depend on what they hold.
-/

namespace Sednl.Ring

open Sednl.Endian
open Sednl.Memory
open Sednl.Tag
open Sednl.Word
open Sednl.Circular
open Sednl.Grammar

/-- Every read of `memory` from `start` on, whenever it happens, finds `bytes`. -/
def Shows (memory : Region Byte) (start : ℕ) (bytes : List Byte) : Prop :=
  ∀ offset byte, bytes[offset]? = some byte →
    ∀ log, memory.value log (start + offset) = byte

/-- The same, for reads through a 32-bit index that may go around. -/
def ShowsAround (memory : Region Byte) (start : ℕ) (bytes : List Byte) : Prop :=
  ∀ offset byte, bytes[offset]? = some byte →
    ∀ log, memory.value log (u32 (start + offset)) = byte

structure Env.Allocates (env : Env) : Prop where
  hname : ∀ k, env.allocs.name k = true
  hpacket : ∀ k, env.allocs.packet k = true
  hevent : env.allocs.event = true

theorem Env.Allocates.copies {env : Env} (hallocates : env.Allocates) (event : Event) :
    env.allocs.copies event = true := by
  rw [Allocs.copies, hallocates.hevent, Bool.true_or]

/-- The name of a frame with this body: what precedes its first NUL. -/
def bodyName (body : List Byte) : List Byte :=
  body.takeWhile (· ≠ 0)

/-- The packet of a frame with this body: what follows its first NUL. -/
def bodyPacket (body : List Byte) : List Byte :=
  body.drop ((bodyName body).length + 1)

/-- What `pick_event` returns, the event and the buffer after it. -/
def Picked.result (picked : Picked) : Bool × Event × RingBuf :=
  (picked.found, picked.event, picked.buf)

/-- The result on a whole frame, by its body: dropped when the name does not
end, left where it is when the packet is not valid, picked otherwise. -/
def frameResult (env : Env) (buf : RingBuf) (event : Event) (packetLength dtIdx : ℕ)
    (body : List Byte) : Option (Bool × Event × RingBuf) :=
  if 0 ∈ body then
    if env.validPacket (bodyPacket body) then
      (buf.startAt (dtIdx + body.length)).map fun next =>
        (true, ⟨bodyName body, bodyPacket body⟩, next)
    else some (false, event, buf)
  else (buf.startAt (u32 (buf.mStart + packetLength))).map fun next =>
    (false, event, next)

/-! ## Bodies -/

section Body

variable {body : List Byte}

theorem bodyName_eq_self (hbody : 0 ∉ body) : bodyName body = body := by
  rw [bodyName, List.takeWhile_eq_self_iff]
  intro byte hbyte
  have hne : byte ≠ 0 := fun h => hbody (h ▸ hbyte)
  simpa using hne

/-- A terminated body is its name, a NUL and its packet. -/
theorem bodyName_append (hbody : 0 ∈ body) :
    bodyName body ++ 0 :: bodyPacket body = body := by
  obtain ⟨chars, rest, rfl, hchars⟩ := List.eq_append_cons_of_mem hbody
  have hname : bodyName (chars ++ 0 :: rest) = chars := by
    rw [bodyName, List.takeWhile_append_of_pos]
    · simp
    · intro char hchar
      have hne : char ≠ 0 := fun h => hchars (h ▸ hchar)
      simpa using hne
  rw [bodyPacket, hname, ← List.drop_drop, List.drop_left]
  rfl

theorem bodyName_eq {name packet : List Byte} (hname : 0 ∉ name) :
    bodyName (name ++ 0 :: packet) = name ∧ bodyPacket (name ++ 0 :: packet) = packet := by
  have heq : bodyName (name ++ 0 :: packet) = name := by
    rw [bodyName, List.takeWhile_append_of_pos]
    · simp
    · intro char hchar
      have hne : char ≠ 0 := fun h => hname (h ▸ hchar)
      simpa using hne
  refine ⟨heq, ?_⟩
  rw [bodyPacket, heq, ← List.drop_drop, List.drop_left]
  rfl

end Body

/-! ## The byte loops on known bytes -/

section Loops

variable {memory : Region Byte} {alloc : ℕ → Bool}

theorem Shows.head {start : ℕ} {byte : Byte} {bytes : List Byte}
    (hshows : Shows memory start (byte :: bytes)) (log : List ℕ) :
    memory.value log start = byte :=
  hshows 0 byte rfl log

theorem Shows.tail {start : ℕ} {byte : Byte} {bytes : List Byte}
    (hshows : Shows memory start (byte :: bytes)) : Shows memory (start + 1) bytes := by
  intro offset found hfound log
  rw [Nat.add_assoc, Nat.add_comm 1]
  exact hshows (offset + 1) found hfound log

theorem Shows.around {start : ℕ} {bytes : List Byte} (hshows : Shows memory start bytes)
    (hindex : start + bytes.length < 2 ^ 32) : ShowsAround memory start bytes := by
  intro offset byte hbyte log
  obtain ⟨hoffset, _⟩ := List.getElem?_eq_some_iff.mp hbyte
  rw [u32_of_lt (by omega)]
  exact hshows offset byte hbyte log

theorem u32_add_one_add (index k : ℕ) : u32 (u32 (index + 1) + k) = u32 (index + (k + 1)) := by
  rw [u32_u32_add, Nat.add_assoc, Nat.add_comm 1]

theorem ShowsAround.head {start : ℕ} {byte : Byte} {bytes : List Byte}
    (hshows : ShowsAround memory start (byte :: bytes)) (hindex : start < 2 ^ 32)
    (log : List ℕ) : memory.value log start = byte := by
  have hvalue := hshows 0 byte rfl log
  rwa [Nat.add_zero, u32_of_lt hindex] at hvalue

theorem ShowsAround.tail {start : ℕ} {byte : Byte} {bytes : List Byte}
    (hshows : ShowsAround memory start (byte :: bytes)) :
    ShowsAround memory (u32 (start + 1)) bytes := by
  intro offset found hfound log
  rw [u32_add_one_add]
  exact hshows (offset + 1) found hfound log

theorem ShowsAround.drop {start : ℕ} {bytes : List Byte}
    (hshows : ShowsAround memory start bytes) (k : ℕ) :
    ShowsAround memory (u32 (start + k)) (bytes.drop k) := by
  intro offset found hfound log
  rw [List.getElem?_drop] at hfound
  rw [u32_u32_add, Nat.add_assoc]
  exact hshows (k + offset) found hfound log

theorem takeName_around (halloc : ∀ k, alloc k = true) {body : List Byte} {dtIdx : ℕ}
    (hshows : ShowsAround memory dtIdx body) (hindex : dtIdx < 2 ^ 32)
    (name : List Byte) (counters log : List ℕ) :
    ∃ counters', ((takeName memory alloc body.length dtIdx name counters).run log).1 =
      ⟨true, body.length - (bodyName body).length, u32 (dtIdx + (bodyName body).length),
        name ++ bodyName body, counters'⟩ := by
  induction body generalizing dtIdx name counters log with
  | nil => exact ⟨counters, by simp [takeName, bodyName, u32_of_lt hindex]⟩
  | cons byte body ih =>
      rw [List.length_cons, takeName_run, hshows.head hindex, hshows.head hindex,
        if_pos (halloc name.length)]
      by_cases hbyte : byte = 0
      · rw [if_pos hbyte]
        refine ⟨counters, ?_⟩
        simp [bodyName, hbyte, u32_of_lt hindex]
      · obtain ⟨counters', hrest⟩ := ih hshows.tail (u32_lt _) (name ++ [byte])
          ((body.length + 1) :: counters) (dtIdx :: dtIdx :: log)
        have hname : bodyName (byte :: body) = byte :: bodyName body := by
          simp [bodyName, hbyte]
        rw [if_neg hbyte, hrest, hname, List.length_cons, u32_add_one_add]
        refine ⟨counters', ?_⟩
        rw [Nat.add_sub_add_right, List.append_assoc, List.singleton_append]

theorem takePacket_around (halloc : ∀ k, alloc k = true) {body : List Byte} {dtIdx : ℕ}
    (hshows : ShowsAround memory dtIdx body) (hindex : dtIdx < 2 ^ 32)
    (packet : List Byte) (counters log : List ℕ) :
    ∃ counters', ((takePacket memory alloc body.length dtIdx packet counters).run
      log).1 = ⟨true, 0, u32 (dtIdx + body.length), packet ++ body, counters'⟩ := by
  induction body generalizing dtIdx packet counters log with
  | nil => exact ⟨counters, by simp [takePacket, u32_of_lt hindex]⟩
  | cons byte body ih =>
      obtain ⟨counters', hrest⟩ := ih hshows.tail (u32_lt _) (packet ++ [byte])
        ((body.length + 1) :: counters) (dtIdx :: log)
      rw [List.length_cons, takePacket_run, hshows.head hindex, if_pos (halloc packet.length),
        hrest, u32_add_one_add]
      refine ⟨counters', ?_⟩
      rw [List.append_assoc, List.singleton_append]

end Loops

/-! ## A whole frame -/

section Frame

variable {memory : Region Byte} {env : Env} {buf : RingBuf}

/-- A whole frame, by the bytes its 32-bit indices find. -/
theorem pickFrame_around (hallocates : env.Allocates) (hroom : buf.mSize + 1 < 2 ^ 32)
    {body : List Byte} {dtIdx : ℕ} (hdtIdx : dtIdx = (buf.mStart + 2) % (buf.mSize + 1))
    (hshows : ShowsAround memory dtIdx body) (hbody : body.length < 2 ^ 32) (event : Event)
    {packetLength : ℕ} (hlength : packetLength - 2 = body.length) (log : List ℕ) :
    ((pickFrame env memory buf event packetLength).run log).1.map Picked.result =
      if 0 ∈ body then
        if env.validPacket (bodyPacket body) then
          (buf.startAt (u32 (dtIdx + body.length))).map fun next =>
            (true, ⟨bodyName body, bodyPacket body⟩, next)
        else some (false, event, buf)
      else (buf.startAt (u32 (buf.mStart + packetLength))).map fun next =>
        (false, event, next) := by
  have hindex : dtIdx < 2 ^ 32 := by
    have hlt : (buf.mStart + 2) % (buf.mSize + 1) < buf.mSize + 1 :=
      Nat.mod_lt _ (Nat.succ_pos _)
    omega
  obtain ⟨counters, hname⟩ := takeName_around hallocates.hname hshows hindex [] [] log
  rw [List.nil_append] at hname
  rw [pickFrame, RingBuf.round_eq hroom, ← hdtIdx, hlength]
  simp only [Probe.run_bind, hname, if_true]
  generalize ((takeName memory env.allocs.name body.length dtIdx [] []).run log).2 = later
  by_cases hzero : 0 ∈ body
  · have hparts := congrArg List.length (bodyName_append hzero)
    rw [List.length_append, List.length_cons] at hparts
    have hdec : dec32 (body.length - (bodyName body).length) = (bodyPacket body).length := by
      rw [dec32_of_pos (by omega) (by omega)]
      omega
    have hstep : u32 (u32 (dtIdx + (bodyName body).length) + 1) =
        u32 (dtIdx + ((bodyName body).length + 1)) := by
      rw [u32_u32_add, Nat.add_assoc]
    have hpacketShows := hshows.drop ((bodyName body).length + 1)
    obtain ⟨counters', hpacket⟩ := takePacket_around hallocates.hpacket hpacketShows
      (u32_lt _) [] ((body.length - (bodyName body).length) :: counters) later
    rw [if_neg (by omega), if_pos hzero]
    have hlast : u32 (u32 (dtIdx + ((bodyName body).length + 1)) +
        (bodyPacket body).length) = u32 (dtIdx + body.length) := by
      rw [u32_u32_add]
      exact congrArg u32 (by omega)
    rw [← bodyPacket, List.nil_append, hlast] at hpacket
    simp only [pickPacket, Cursor.nextByte, hdec, hstep, Probe.run_bind, hpacket,
      Bool.true_and]
    by_cases hvalid : env.validPacket (bodyPacket body) = true
    · rw [if_pos hvalid, if_pos hvalid]
      cases buf.startAt (u32 (dtIdx + body.length)) with
      | none => rfl
      | some next =>
          simp only [hallocates.copies, if_true]
          rfl
    · rw [if_neg hvalid, if_neg hvalid]
      rfl
  · have hall : bodyName body = body := bodyName_eq_self hzero
    rw [if_pos (by rw [hall]; omega), if_neg hzero]
    cases buf.startAt (u32 (buf.mStart + packetLength)) with
    | none => rfl
    | some next => rfl

theorem pickFrame_shows (hallocates : env.Allocates) (hroom : buf.mSize + 1 < 2 ^ 32)
    {body : List Byte} {dtIdx : ℕ} (hdtIdx : dtIdx = (buf.mStart + 2) % (buf.mSize + 1))
    (hshows : Shows memory dtIdx body) (hindex : dtIdx + body.length < 2 ^ 32)
    (event : Event) {packetLength : ℕ} (hlength : packetLength - 2 = body.length)
    (log : List ℕ) :
    ((pickFrame env memory buf event packetLength).run log).1.map Picked.result =
      frameResult env buf event packetLength dtIdx body := by
  rw [pickFrame_around hallocates hroom hdtIdx (hshows.around hindex) (by omega) event
    hlength log, u32_of_lt hindex, frameResult]

end Frame

/-! ## Which cells are read -/

section Reads

variable {memory : Region Byte} {alloc : ℕ → Bool}

/-- The name loop reads from where it starts, in order, one cell past each
character it keeps. -/
theorem takeName_reads (halloc : ∀ k, alloc k = true) (remaining : ℕ) {dtIdx : ℕ}
    (hindex : dtIdx < 2 ^ 32) (name : List Byte) (counters log : List ℕ) :
    ∃ taken, taken ≤ remaining ∧
      ((takeName memory alloc remaining dtIdx name counters).run log).1.remaining =
        remaining - taken ∧
      ((takeName memory alloc remaining dtIdx name counters).run log).1.dtIdx =
        u32 (dtIdx + taken) ∧
      ((takeName memory alloc remaining dtIdx name counters).run log).1.ok = true ∧
      ∀ index, index ∈ ((takeName memory alloc remaining dtIdx name counters).run log).2 ↔
        index ∈ log ∨ ∃ k, k < remaining ∧ k ≤ taken ∧ index = u32 (dtIdx + k) := by
  induction remaining generalizing dtIdx name counters log with
  | zero =>
      refine ⟨0, le_rfl, rfl, (u32_of_lt hindex).symm, rfl, fun index => ?_⟩
      simp [takeName]
  | succ remaining ih =>
      have hself : u32 dtIdx = dtIdx := u32_of_lt hindex
      rw [takeName_run]
      by_cases hbyte : memory.value log dtIdx = 0
      · rw [if_pos hbyte]
        refine ⟨0, Nat.zero_le _, rfl, hself.symm, rfl, fun index => ?_⟩
        simp only [List.mem_cons]
        constructor
        · rintro (rfl | hmem)
          · exact .inr ⟨0, by omega, le_rfl, hself.symm⟩
          · exact .inl hmem
        · rintro (hmem | ⟨k, _, hk, rfl⟩)
          · exact .inr hmem
          · obtain rfl := Nat.le_zero.mp hk
            exact .inl hself
      · rw [if_neg hbyte, if_pos (halloc name.length)]
        obtain ⟨taken, hle, hremaining, hdtIdx, hok, hreads⟩ := @ih (u32 (dtIdx + 1))
          (u32_lt _) (name ++ [memory.value (dtIdx :: log) dtIdx])
          ((remaining + 1) :: counters) (dtIdx :: dtIdx :: log)
        refine ⟨taken + 1, by omega, by rw [hremaining]; omega, ?_, hok, fun index => ?_⟩
        · rw [hdtIdx, u32_add_one_add]
        · rw [hreads]
          simp only [List.mem_cons]
          constructor
          · rintro ((rfl | rfl | hmem) | ⟨k, hk, hkt, rfl⟩)
            · exact .inr ⟨0, by omega, by omega, hself.symm⟩
            · exact .inr ⟨0, by omega, by omega, hself.symm⟩
            · exact .inl hmem
            · exact .inr ⟨k + 1, by omega, by omega, u32_add_one_add dtIdx k⟩
          · rintro (hmem | ⟨k, hk, hkt, rfl⟩)
            · exact .inl (.inr (.inr hmem))
            · cases k with
              | zero => exact .inl (.inl hself)
              | succ k =>
                  exact .inr ⟨k, by omega, by omega, (u32_add_one_add dtIdx k).symm⟩

theorem takePacket_reads (halloc : ∀ k, alloc k = true) (remaining : ℕ) {dtIdx : ℕ}
    (hindex : dtIdx < 2 ^ 32) (packet : List Byte) (counters log : List ℕ) (index : ℕ) :
    index ∈ ((takePacket memory alloc remaining dtIdx packet counters).run log).2 ↔
      index ∈ log ∨ ∃ k, k < remaining ∧ index = u32 (dtIdx + k) := by
  induction remaining generalizing dtIdx packet counters log with
  | zero => simp [takePacket]
  | succ remaining ih =>
      have hself : u32 dtIdx = dtIdx := u32_of_lt hindex
      rw [takePacket_run, if_pos (halloc packet.length), ih (u32_lt _)]
      simp only [List.mem_cons]
      constructor
      · rintro ((rfl | hmem) | ⟨k, hk, rfl⟩)
        · exact .inr ⟨0, by omega, hself.symm⟩
        · exact .inl hmem
        · exact .inr ⟨k + 1, by omega, u32_add_one_add dtIdx k⟩
      · rintro (hmem | ⟨k, hk, rfl⟩)
        · exact .inl (.inr hmem)
        · cases k with
          | zero => exact .inl (.inl hself)
          | succ k => exact .inr ⟨k, by omega, (u32_add_one_add dtIdx k).symm⟩

/-- Whatever it finds there, `pick_event` reads every byte of a whole frame
behind the length, at consecutive 32-bit indices, and no other. -/
theorem pickFrame_reads {env : Env} (hallocates : env.Allocates) {buf : RingBuf}
    (hroom : buf.mSize + 1 < 2 ^ 32) (event : Event) {packetLength : ℕ}
    (hlength : packetLength < 2 ^ 32) (log : List ℕ) (index : ℕ) :
    index ∈ ((pickFrame env memory buf event packetLength).run log).2 ↔
      index ∈ log ∨ ∃ k, k < packetLength - 2 ∧
        index = u32 ((buf.mStart + 2) % (buf.mSize + 1) + k) := by
  have hdt : (buf.mStart + 2) % (buf.mSize + 1) < buf.mSize + 1 :=
    Nat.mod_lt _ (Nat.succ_pos _)
  obtain ⟨taken, hle, hremaining, hdtIdx, hok, hreads⟩ := @takeName_reads memory
    env.allocs.name hallocates.hname (packetLength - 2)
    ((buf.mStart + 2) % (buf.mSize + 1)) (by omega) [] [] log
  rw [pickFrame, RingBuf.round_eq hroom]
  simp only [Probe.run_bind, hok, if_true]
  generalize (takeName memory env.allocs.name (packetLength - 2)
    ((buf.mStart + 2) % (buf.mSize + 1)) [] []).run log = name
    at hremaining hdtIdx hreads ⊢
  generalize (buf.mStart + 2) % (buf.mSize + 1) = dtIdx at hdt hdtIdx hreads ⊢
  by_cases hzero : name.1.remaining = 0
  · rw [if_pos hzero]
    have hall : taken = packetLength - 2 := by omega
    obtain ⟨next, hnext⟩ := RingBuf.startAt_isSome hroom (u32 (buf.mStart + packetLength))
    rw [hnext]
    refine (hreads index).trans ?_
    constructor
    · rintro (hmem | ⟨k, hk, _, heq⟩)
      · exact .inl hmem
      · exact .inr ⟨k, hk, heq⟩
    · rintro (hmem | ⟨k, hk, heq⟩)
      · exact .inl hmem
      · exact .inr ⟨k, hk, by omega, heq⟩
  · rw [if_neg hzero]
    have hdec : dec32 name.1.remaining = packetLength - 2 - taken - 1 := by
      rw [dec32_of_pos (by omega) (by omega), hremaining]
    have hstep : u32 (name.1.dtIdx + 1) = u32 (dtIdx + (taken + 1)) := by
      rw [hdtIdx, u32_u32_add, Nat.add_assoc]
    have hpacket := @takePacket_reads memory env.allocs.packet hallocates.hpacket
      (packetLength - 2 - taken - 1) (u32 (dtIdx + (taken + 1))) (u32_lt _) []
      (name.1.remaining :: name.1.counters) name.2 index
    have hlater : ((pickPacket env memory buf event name.1).run name.2).2 =
        ((takePacket memory env.allocs.packet (packetLength - 2 - taken - 1)
          (u32 (dtIdx + (taken + 1))) [] (name.1.remaining :: name.1.counters)).run
          name.2).2 := by
      simp only [pickPacket, Cursor.nextByte, hdec, hstep, Probe.run_bind]
      generalize (takePacket memory env.allocs.packet (packetLength - 2 - taken - 1)
        (u32 (dtIdx + (taken + 1))) [] (name.1.remaining :: name.1.counters)).run
        name.2 = packet
      obtain ⟨next, hnext⟩ := RingBuf.startAt_isSome hroom packet.1.dtIdx
      rw [hnext]
      simp only [Probe.run_ite]
      split
      · split <;> rfl
      · rfl
    rw [hlater, hpacket, hreads]
    constructor
    · rintro ((hmem | ⟨k, hk, _, heq⟩) | ⟨k, hk, heq⟩)
      · exact .inl hmem
      · exact .inr ⟨k, hk, heq⟩
      · refine .inr ⟨taken + 1 + k, by omega, heq.trans ?_⟩
        rw [u32_u32_add, Nat.add_assoc]
    · rintro (hmem | ⟨k, hk, heq⟩)
      · exact .inl (.inl hmem)
      · by_cases htaken : k ≤ taken
        · exact .inl (.inr ⟨k, hk, htaken, heq⟩)
        · refine .inr ⟨k - (taken + 1), by omega, heq.trans ?_⟩
          rw [u32_u32_add, Nat.add_assoc, Nat.add_sub_cancel' (by omega)]

end Reads

end Sednl.Ring
