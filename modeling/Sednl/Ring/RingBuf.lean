import Sednl.Library.Circular
import Sednl.Wire.Acceptance

/-!
# The receive buffer

`RingBuf` as the source computes it: an array with one cell to spare, two
32-bit indices kept inside it by the type, and `pick_event`, which reads the
array through indices it does not reduce.  What such a read returns, which
allocation fails and what the validator finds past a packet come from an
environment.  `none` stands for a remainder by zero.
-/

namespace Sednl.Ring

open Sednl.Endian
open Sednl.Memory
open Sednl.Tag
open Sednl.Word
open Sednl.Circular
open Sednl.Grammar
open Sednl.Validator

/-- An event: a name, and the bytes of a packet. -/
structure Event where
  name : List Byte
  packet : List Byte
  deriving DecidableEq, Repr

/-- `RingBuf`, with what its constructor and methods keep of the indices. -/
structure RingBuf where
  mSize : ℕ
  mDt : List Byte
  mStart : ℕ
  mEnd : ℕ
  hsize : mSize < 2 ^ 32
  hdt : mDt.length = u32 (mSize + 1)
  hstart : mStart ≤ mSize
  hend : mEnd ≤ mSize

namespace RingBuf

/-- The constructor, on an array whose bytes are whatever they were. -/
def new (size : ℕ) (dt : List Byte) (hsize : size < 2 ^ 32)
    (hdt : dt.length = u32 (size + 1)) : RingBuf where
  mSize := size
  mDt := dt
  mStart := 0
  mEnd := 0
  hsize := hsize
  hdt := hdt
  hstart := Nat.zero_le _
  hend := Nat.zero_le _

def length (buf : RingBuf) : ℕ :=
  if buf.mStart ≤ buf.mEnd then buf.mEnd - buf.mStart
  else u32 (u32 (u32 (buf.mSize + 1) + (2 ^ 32 - buf.mStart)) + buf.mEnd)

def reset (buf : RingBuf) : RingBuf :=
  { buf with mStart := buf.mEnd, hstart := buf.hend }

def round (buf : RingBuf) (pos : ℕ) : Option ℕ :=
  if u32 (buf.mSize + 1) = 0 then none else some (pos % u32 (buf.mSize + 1))

theorem mod_le (buf : RingBuf) (hmodulus : u32 (buf.mSize + 1) ≠ 0) (pos : ℕ) :
    pos % u32 (buf.mSize + 1) ≤ buf.mSize := by
  have hlt := Nat.mod_lt pos (Nat.pos_of_ne_zero hmodulus)
  have hle := u32_le (buf.mSize + 1)
  omega

/-- `m_start = ROUND(pos)`. -/
def startAt (buf : RingBuf) (pos : ℕ) : Option RingBuf :=
  if hmodulus : u32 (buf.mSize + 1) = 0 then none
  else some { buf with
    mStart := pos % u32 (buf.mSize + 1)
    hstart := buf.mod_le hmodulus pos }

def putByte (buf : RingBuf) (byte : Byte) : Option RingBuf :=
  if hmodulus : u32 (buf.mSize + 1) = 0 then none
  else some { buf with
    mDt := buf.mDt.set buf.mEnd byte
    mEnd := u32 (buf.mEnd + 1) % u32 (buf.mSize + 1)
    hdt := by rw [List.length_set]; exact buf.hdt
    hend := buf.mod_le hmodulus _ }

def putBytes : List Byte → RingBuf → Option RingBuf
  | [], buf => some buf
  | byte :: bytes, buf => (buf.putByte byte).bind (putBytes bytes)

/-- `RingBuf::put`; the argument `length` is an `unsigned int`. -/
def put (buf : RingBuf) (string : List Byte) : Option (Bool × RingBuf) :=
  if u32 (buf.length + string.length) > buf.mSize then some (false, buf)
  else (putBytes string buf).map fun buf => (true, buf)

/-- The bytes held, from the oldest: `length()` cells around the array. -/
def contents (buf : RingBuf) : List Byte :=
  window buf.mDt buf.mStart buf.length

end RingBuf

/-! ## Picking an event -/

/-- Which allocations of `pick_event` succeed: each character pushed to the
name, each byte pushed to the packet, and the copy into an event.  The first
`inside` characters of a string lie in the string itself. -/
structure Allocs where
  inside : ℕ
  name : ℕ → Bool
  packet : ℕ → Bool
  event : Bool
  hname : ∀ k < inside, name k = true

/-- Whether `Event(name, packet)` can be built: what is empty, and a name that lies
inside its string, is copied without an allocation. -/
def Allocs.copies (allocs : Allocs) (event : Event) : Bool :=
  allocs.event || decide (event.name.length ≤ allocs.inside) && event.packet.isEmpty

/-- What a call of `pick_event` depends on besides the buffer. -/
structure Env where
  host : Host
  /-- What a read past the array of the buffer returns. -/
  wild : List ℕ → ℕ → Byte
  /-- What a read past the packet returns to the validator. -/
  packetWild : List ℕ → ℕ → Byte
  allocs : Allocs

/-- An environment in which nothing fails and stray reads return zero. -/
def Env.ample : Env :=
  ⟨.little, fun _ _ => 0, fun _ _ => 0, ⟨0, fun _ => true, fun _ => true, true, fun _ _ => rfl⟩⟩

/-- The locals of the byte loops: `ok` unless an allocation failed, and the
values `remaining` had each time `NEXT_BYTE` decremented it, latest first. -/
structure Cursor where
  ok : Bool
  remaining : ℕ
  dtIdx : ℕ
  bytes : List Byte
  counters : List ℕ

def Cursor.nextByte (cursor : Cursor) : Cursor :=
  { cursor with
    remaining := dec32 cursor.remaining
    dtIdx := u32 (cursor.dtIdx + 1)
    counters := cursor.remaining :: cursor.counters }

def takeName (memory : Region Byte) (alloc : ℕ → Bool) :
    (remaining dtIdx : ℕ) → (name : List Byte) → (counters : List ℕ) → Probe Cursor
  | 0, dtIdx, name, counters => pure ⟨true, 0, dtIdx, name, counters⟩
  | remaining + 1, dtIdx, name, counters => do
      let byte ← memory.read dtIdx
      if byte ≠ 0 then do
        let byte ← memory.read dtIdx
        if alloc name.length then
          takeName memory alloc remaining (u32 (dtIdx + 1)) (name ++ [byte])
            ((remaining + 1) :: counters)
        else pure ⟨false, remaining + 1, dtIdx, name, counters⟩
      else pure ⟨true, remaining + 1, dtIdx, name, counters⟩

def takePacket (memory : Region Byte) (alloc : ℕ → Bool) :
    (remaining dtIdx : ℕ) → (packet : List Byte) → (counters : List ℕ) → Probe Cursor
  | 0, dtIdx, packet, counters => pure ⟨true, 0, dtIdx, packet, counters⟩
  | remaining + 1, dtIdx, packet, counters => do
      let byte ← memory.read dtIdx
      if alloc packet.length then
        takePacket memory alloc remaining (u32 (dtIdx + 1)) (packet ++ [byte])
          ((remaining + 1) :: counters)
      else pure ⟨false, remaining + 1, dtIdx, packet, counters⟩

def Env.validPacket (env : Env) (packet : List Byte) : Bool :=
  ((isValid env.host ⟨packet, env.packetWild⟩ (packet.length + 2)).run []).1 == some true

/-- What `pick_event` returns and leaves in its argument and in the buffer. -/
structure Picked where
  found : Bool
  event : Event
  buf : RingBuf
  counters : List ℕ

/-- The part of `pick_event` after the name. -/
def pickPacket (env : Env) (memory : Region Byte) (buf : RingBuf) (event : Event)
    (name : Cursor) : Probe (Option Picked) := do
  let jumped := name.nextByte
  let packet ← takePacket memory env.allocs.packet jumped.remaining jumped.dtIdx []
    jumped.counters
  if packet.ok && env.validPacket packet.bytes then
    match buf.startAt packet.dtIdx with
    | none => pure none
    | some next =>
        if env.allocs.copies ⟨name.bytes, packet.bytes⟩ then
          pure (some ⟨true, ⟨name.bytes, packet.bytes⟩, next, packet.counters⟩)
        else pure (some ⟨false, event, next, packet.counters⟩)
  else pure (some ⟨false, event, buf, packet.counters⟩)

/-- The part of `pick_event` after the length. -/
def pickFrame (env : Env) (memory : Region Byte) (buf : RingBuf) (event : Event)
    (packetLength : ℕ) : Probe (Option Picked) :=
  match buf.round (buf.mStart + 2) with
  | none => pure none
  | some dtIdx => do
      let name ← takeName memory env.allocs.name (packetLength - 2) dtIdx [] []
      if name.ok then
        if name.remaining = 0 then
          match buf.startAt (u32 (buf.mStart + packetLength)) with
          | none => pure none
          | some next => pure (some ⟨false, event, next, name.counters⟩)
        else pickPacket env memory buf event name
      else pure (some ⟨false, event, buf, name.counters⟩)

/-- `RingBuf::pick_event`, its byte reads answered by `memory`. -/
def pickFrom (env : Env) (memory : Region Byte) (buf : RingBuf) (event : Event) :
    Probe (Option Picked) :=
  if buf.length < 2 then pure (some ⟨false, event, buf, []⟩)
  else do
    let byte0 ← memory.read buf.mStart
    let byte1 ← memory.read (u32 (buf.mStart + 1))
    let declared := env.host.ntoh 2 (env.host.load [byte0, byte1])
    let packetLength := if declared < 3 then 3 else declared
    if buf.length < packetLength then pure (some ⟨false, event, buf, []⟩)
    else pickFrame env memory buf event packetLength

/-- The memory `pick_event` reads: the array, and what lies past it. -/
def RingBuf.memory (buf : RingBuf) (env : Env) : Region Byte :=
  ⟨buf.mDt, env.wild⟩

def pickEvent (env : Env) (buf : RingBuf) (event : Event) : Probe (Option Picked) :=
  pickFrom env (buf.memory env) buf event

/-! ## One round of the byte loops, and the test on the length -/

section Runs

variable {memory : Region Byte} {alloc : ℕ → Bool}

theorem takeName_run (remaining dtIdx : ℕ) (name : List Byte) (counters log : List ℕ) :
    (takeName memory alloc (remaining + 1) dtIdx name counters).run log =
      if memory.value log dtIdx = 0 then
        (⟨true, remaining + 1, dtIdx, name, counters⟩, dtIdx :: log)
      else if alloc name.length then
        (takeName memory alloc remaining (u32 (dtIdx + 1))
          (name ++ [memory.value (dtIdx :: log) dtIdx]) ((remaining + 1) :: counters)).run
          (dtIdx :: dtIdx :: log)
      else (⟨false, remaining + 1, dtIdx, name, counters⟩, dtIdx :: dtIdx :: log) := by
  simp only [takeName, Region.run_read_bind, Probe.run_ite, Probe.run_pure, ne_eq, ite_not]

theorem takePacket_run (remaining dtIdx : ℕ) (packet : List Byte)
    (counters log : List ℕ) :
    (takePacket memory alloc (remaining + 1) dtIdx packet counters).run log =
      if alloc packet.length then
        (takePacket memory alloc remaining (u32 (dtIdx + 1))
          (packet ++ [memory.value log dtIdx]) ((remaining + 1) :: counters)).run
          (dtIdx :: log)
      else (⟨false, remaining + 1, dtIdx, packet, counters⟩, dtIdx :: log) := by
  simp only [takePacket, Region.run_read_bind, Probe.run_ite, Probe.run_pure]

theorem pickFrom_run (env : Env) (buf : RingBuf) (event : Event) (log : List ℕ) :
    (pickFrom env memory buf event).run log =
      if buf.length < 2 then (some ⟨false, event, buf, []⟩, log)
      else
        let declared := env.host.ntoh 2 (env.host.load [memory.value log buf.mStart,
          memory.value (buf.mStart :: log) (u32 (buf.mStart + 1))])
        if buf.length < max 3 declared then
          (some ⟨false, event, buf, []⟩, u32 (buf.mStart + 1) :: buf.mStart :: log)
        else (pickFrame env memory buf event (max 3 declared)).run
          (u32 (buf.mStart + 1) :: buf.mStart :: log) := by
  have hmax : ∀ declared : ℕ, (if declared < 3 then 3 else declared) = max 3 declared := by
    intro declared
    split <;> omega
  simp only [pickFrom, Region.run_read_bind, Probe.run_ite, Probe.run_pure, hmax]

end Runs

/-! ## The indices -/

namespace RingBuf

variable {buf : RingBuf}

theorem length_eq (buf : RingBuf) :
    buf.length = distance (buf.mSize + 1) buf.mStart buf.mEnd := by
  have hsize := buf.hsize
  have hstart := buf.hstart
  have hend := buf.hend
  unfold length distance
  split
  · rfl
  · simp only [u32]
    omega

theorem length_le (buf : RingBuf) : buf.length ≤ buf.mSize := by
  have hlt := distance_lt (Nat.lt_succ_of_le buf.hstart) (Nat.lt_succ_of_le buf.hend)
  rw [length_eq]
  exact Nat.le_of_lt_succ hlt

@[simp]
theorem length_contents (buf : RingBuf) : buf.contents.length = buf.length :=
  length_window _ _ _

@[simp]
theorem contents_reset (buf : RingBuf) : buf.reset.contents = [] := by
  rw [contents, length_eq]
  simp [reset]

variable (hroom : buf.mSize + 1 < 2 ^ 32)

include hroom

theorem modulus_eq : u32 (buf.mSize + 1) = buf.mSize + 1 :=
  u32_of_lt hroom

theorem length_mDt : buf.mDt.length = buf.mSize + 1 :=
  buf.hdt.trans (modulus_eq hroom)

theorem round_eq (pos : ℕ) : buf.round pos = some (pos % (buf.mSize + 1)) := by
  simp [round, modulus_eq hroom]

theorem startAt_isSome (pos : ℕ) : ∃ next, buf.startAt pos = some next := by
  have hmodulus : ¬ u32 (buf.mSize + 1) = 0 := by
    rw [modulus_eq hroom]
    omega
  exact ⟨_, dif_neg hmodulus⟩

/-- Moving the start forward inside the contents removes a prefix. -/
theorem startAt_add {k : ℕ} (hk : k ≤ buf.length) :
    ∃ next, buf.startAt (buf.mStart + k) = some next ∧ next.mSize = buf.mSize ∧
      next.contents = buf.contents.drop k := by
  have hmodulus : ¬ u32 (buf.mSize + 1) = 0 := by
    rw [modulus_eq hroom]
    omega
  rw [startAt, dif_neg hmodulus]
  refine ⟨_, rfl, rfl, ?_⟩
  rw [contents, contents, drop_window hk, length_eq]
  simp only [modulus_eq hroom]
  rw [distance_add (Nat.lt_succ_of_le buf.hstart) (Nat.lt_succ_of_le buf.hend)
    (by rwa [length_eq] at hk), ← length_eq, ← length_mDt hroom, window_mod]

/-- One round of the loop of `put` appends its byte while a cell is free. -/
theorem putByte_eq (byte : Byte) (hfree : buf.length < buf.mSize) :
    ∃ next, buf.putByte byte = some next ∧ next.mSize = buf.mSize ∧
      next.contents = buf.contents ++ [byte] := by
  have hmodulus : ¬ u32 (buf.mSize + 1) = 0 := by
    rw [modulus_eq hroom]
    omega
  have hstart : buf.mStart < buf.mSize + 1 := Nat.lt_succ_of_le buf.hstart
  have hend : buf.mEnd < buf.mSize + 1 := Nat.lt_succ_of_le buf.hend
  have hstop := add_distance hstart hend
  have hlast : u32 (buf.mEnd + 1) = buf.mEnd + 1 := u32_of_lt (by omega)
  rw [length_eq] at hfree
  rw [putByte, dif_neg hmodulus]
  refine ⟨_, rfl, rfl, ?_⟩
  rw [contents, contents, length_eq, length_eq]
  simp only [modulus_eq hroom, hlast]
  rw [distance_succ hstart hend (by omega)]
  have hset := @window_set Byte _ buf.mDt buf.mStart
    (distance (buf.mSize + 1) buf.mStart buf.mEnd)
    (by rw [length_mDt hroom]; exact hstart) (by rw [length_mDt hroom]; omega) byte
  rwa [length_mDt hroom, hstop] at hset

end RingBuf

end Sednl.Ring
