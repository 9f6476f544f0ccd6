import Sednl.Library.Transition
import Sednl.Ring.Starved

/-!
# Thirty-two bits of the receive buffer

The sum that `put` compares with the size, and the modulus `m_size + 1`, are
computed in an `unsigned int`.  The modulus is zero for one size only, and then
the first byte put divides by it.  The sum wraps for strings that are too long
by a whole `2 ^ 32`, which `put` then accepts.
-/

namespace Sednl.Overflow

open Sednl.Endian
open Sednl.Memory
open Sednl.Ring
open Sednl.Tag
open Sednl.Transition
open Sednl.Word

/-- A call of a method of `RingBuf`, with what it depends on; the length given to
`put` is an `unsigned int`. -/
inductive Call where
  | put (string : List Byte) (hlength : string.length < 2 ^ 32)
  | reset
  | pick (env : Env) (memory : Region Byte) (event : Event) (log : List ℕ)

/-- The buffer after a call; there is none after a division by zero. -/
def step (buf : RingBuf) : Call → Option RingBuf
  | .put string _ => (buf.put string).map Prod.snd
  | .reset => some buf.reset
  | .pick env memory event log =>
      ((pickFrom env memory buf event).run log).1.map Picked.buf

/-- A call that divides by nothing, and if it puts, that accepts no more than fits and
keeps what is held. -/
structure Safe (buf : RingBuf) (call : Call) : Prop where
  hdefined : step buf call ≠ none
  hput : ∀ {string hlength next}, call = .put string hlength →
    buf.put string = some (true, next) →
    buf.length + string.length ≤ buf.mSize ∧ next.contents = buf.contents ++ string

/-- A string that `put` handles without wrapping. -/
def Bounded (buf : RingBuf) : Call → Prop
  | .put string _ =>
      (buf.mSize = 2 ^ 32 - 1 → string = []) ∧ buf.length + string.length < 2 ^ 32
  | .reset => True
  | .pick .. => True

/-! ## One call -/

section Calls

variable {buf : RingBuf}

theorem modulus_eq_zero_iff (buf : RingBuf) :
    u32 (buf.mSize + 1) = 0 ↔ buf.mSize = 2 ^ 32 - 1 := by
  have hsize := buf.hsize
  unfold u32
  omega

theorem room_of_ne (hsize : buf.mSize ≠ 2 ^ 32 - 1) : buf.mSize + 1 < 2 ^ 32 := by
  have hlt := buf.hsize
  omega

theorem putBytes_isSome (hsize : buf.mSize ≠ 2 ^ 32 - 1) (string : List Byte) :
    ∃ next, RingBuf.putBytes string buf = some next := by
  induction string generalizing buf with
  | nil => exact ⟨buf, rfl⟩
  | cons byte string ih =>
      have hmodulus := mt (modulus_eq_zero_iff buf).mp hsize
      rw [RingBuf.putBytes, RingBuf.putByte, dif_neg hmodulus]
      exact ih hsize

/-- With `m_size + 1 = 0` the first byte is the last thing `put` does. -/
theorem put_eq_none (hsize : buf.mSize = 2 ^ 32 - 1) {string : List Byte}
    (hstring : string ≠ []) : buf.put string = none := by
  obtain ⟨byte, rest, rfl⟩ := List.exists_cons_of_ne_nil hstring
  have hfits : ¬ u32 (buf.length + (byte :: rest).length) > buf.mSize := by
    have hlt := u32_lt (buf.length + (byte :: rest).length)
    omega
  rw [RingBuf.put, if_neg hfits, RingBuf.putBytes, RingBuf.putByte,
    dif_pos ((modulus_eq_zero_iff buf).mpr hsize)]
  rfl

/-- A sum that wraps is smaller than what is held already. -/
theorem put_of_wrap (hsize : buf.mSize ≠ 2 ^ 32 - 1) {string : List Byte}
    (hlength : string.length < 2 ^ 32) (hwrap : 2 ^ 32 ≤ buf.length + string.length) :
    ∃ next, buf.put string = some (true, next) := by
  obtain ⟨next, hnext⟩ := putBytes_isSome hsize string
  have hfits : ¬ u32 (buf.length + string.length) > buf.mSize := by
    have hle := buf.length_le
    have hlt := buf.hsize
    unfold u32
    omega
  exact ⟨next, by rw [RingBuf.put, if_neg hfits, hnext]; rfl⟩

theorem put_nil (buf : RingBuf) : buf.put [] = some (true, buf) := by
  have hle := buf.length_le
  have hlt := u32_le (buf.length + 0)
  rw [RingBuf.put, if_neg (by simpa using hlt.trans hle)]
  rfl

theorem pickPacket_isSome (hsize : buf.mSize ≠ 2 ^ 32 - 1) (env : Env)
    (memory : Region Byte) (event : Event) (name : Cursor) (log : List ℕ) :
    ((pickPacket env memory buf event name).run log).1.isSome := by
  rw [← Option.isSome_map, pickPacket_result, packetResult]
  split
  · obtain ⟨next, hnext⟩ := RingBuf.startAt_isSome (room_of_ne hsize)
      ((takePacket memory env.allocs.packet name.nextByte.remaining name.nextByte.dtIdx []
        name.nextByte.counters).run log).1.dtIdx
    rw [hnext]
    rfl
  · rfl

theorem pickFrame_isSome (hsize : buf.mSize ≠ 2 ^ 32 - 1) (env : Env)
    (memory : Region Byte) (event : Event) (packetLength : ℕ) (log : List ℕ) :
    ((pickFrame env memory buf event packetLength).run log).1.isSome := by
  obtain ⟨next, hnext⟩ :=
    RingBuf.startAt_isSome (room_of_ne hsize) (u32 (buf.mStart + packetLength))
  rw [pickFrame, RingBuf.round_eq (room_of_ne hsize)]
  simp only [hnext, Probe.run_bind, Probe.run_ite]
  split
  · split
    · rfl
    · exact pickPacket_isSome hsize env memory event _ _
  · rfl

/-- `pick_event` divides by the modulus only. -/
theorem pickFrom_isSome (hsize : buf.mSize ≠ 2 ^ 32 - 1) (env : Env) (memory : Region Byte)
    (event : Event) (log : List ℕ) :
    ((pickFrom env memory buf event).run log).1.isSome := by
  rw [pickFrom_run]
  split
  · rfl
  · simp only
    split
    · rfl
    · exact pickFrame_isSome hsize env memory event _ _

end Calls

/-! ## Runs -/

/-- A buffer whose modulus is zero holds nothing. -/
def Blocked (buf : RingBuf) : Prop :=
  buf.mSize = 2 ^ 32 - 1 → buf.length = 0

theorem blocked_new (size : ℕ) (dt : List Byte) (hsize : size < 2 ^ 32)
    (hdt : dt.length = u32 (size + 1)) : Blocked (.new size dt hsize hdt) :=
  fun _ => rfl

section Steps

variable {buf next : RingBuf} {call : Call}

theorem Blocked.put (hblocked : Blocked buf) {string : List Byte} {accepted : Bool}
    (hput : buf.put string = some (accepted, next)) : Blocked next := by
  intro hsize
  rw [RingBuf.put] at hput
  split at hput
  · obtain ⟨-, rfl⟩ := Prod.mk.inj (Option.some.inj hput)
    exact hblocked hsize
  · obtain ⟨last, hbytes, hlast⟩ := Option.map_eq_some_iff.mp hput
    obtain ⟨-, rfl⟩ := Prod.mk.inj hlast
    obtain ⟨hsame, hunchanged⟩ := putBytes_mSize hbytes
    rw [hunchanged ((modulus_eq_zero_iff buf).mpr (hsame ▸ hsize))]
    exact hblocked (hsame ▸ hsize)

theorem Blocked.pick (hblocked : Blocked buf) {env : Env} {memory : Region Byte}
    {event : Event} {log : List ℕ} {picked : Picked}
    (hpick : ((pickFrom env memory buf event).run log).1 = some picked) :
    Blocked picked.buf := by
  intro hsize
  have hbefore := hblocked ((pickFrom_restarted hpick).kept.1 ▸ hsize)
  rw [pickFrom_run, if_pos (by omega)] at hpick
  rwa [← Option.some.inj hpick]

theorem Blocked.step (hblocked : Blocked buf) (hstep : step buf call = some next) :
    Blocked next := by
  cases call with
  | put string hlength =>
      obtain ⟨⟨accepted, last⟩, hput, rfl⟩ := Option.map_eq_some_iff.mp hstep
      exact hblocked.put hput
  | reset =>
      obtain rfl := Option.some.inj hstep
      intro _
      rw [← buf.reset.length_contents, buf.contents_reset]
      rfl
  | pick env memory event log =>
      obtain ⟨picked, hpick, rfl⟩ := Option.map_eq_some_iff.mp hstep
      exact hblocked.pick hpick

end Steps

section Safety

variable {buf : RingBuf}

theorem safe_reset (buf : RingBuf) : Safe buf .reset :=
  ⟨by simp [step], fun hcall => by cases hcall⟩

theorem safe_pick (hblocked : Blocked buf) (env : Env) (memory : Region Byte)
    (event : Event) (log : List ℕ) : Safe buf (.pick env memory event log) := by
  refine ⟨?_, fun hcall => by cases hcall⟩
  rw [step]
  by_cases hsize : buf.mSize = 2 ^ 32 - 1
  · rw [pickFrom_run, if_pos (by rw [hblocked hsize]; norm_num)]
    simp
  · obtain ⟨picked, hpick⟩ :=
      Option.isSome_iff_exists.mp (pickFrom_isSome hsize env memory event log)
    simp [hpick]

/-- What `put` does with a string whose sum does not wrap. -/
theorem safe_put_of_bounded {string : List Byte} {hlength : string.length < 2 ^ 32}
    (hbounded : Bounded buf (.put string hlength)) : Safe buf (.put string hlength) := by
  obtain ⟨hmodulus, hsum⟩ := hbounded
  by_cases hsize : buf.mSize = 2 ^ 32 - 1
  · obtain rfl := hmodulus hsize
    refine ⟨by simp [step, put_nil], fun hcall hput => ?_⟩
    obtain rfl := (Call.put.inj hcall).symm
    rw [put_nil, Option.some.injEq, Prod.mk.injEq] at hput
    obtain ⟨-, rfl⟩ := hput
    exact ⟨buf.length_le, (List.append_nil _).symm⟩
  · by_cases hfits : buf.length + string.length ≤ buf.mSize
    · obtain ⟨last, hlast, -, hcontents⟩ := put_of_le (room_of_ne hsize) hfits
      refine ⟨by simp [step, hlast], fun hcall hput => ?_⟩
      obtain rfl := (Call.put.inj hcall).symm
      rw [hlast, Option.some.injEq, Prod.mk.injEq] at hput
      obtain ⟨-, rfl⟩ := hput
      exact ⟨hfits, hcontents⟩
    · have hfull := put_of_lt hsum (not_le.mp hfits)
      refine ⟨by simp [step, hfull], fun hcall hput => ?_⟩
      obtain rfl := (Call.put.inj hcall).symm
      rw [hfull] at hput
      simp at hput

theorem bounded_of_safe_put {string : List Byte} {hlength : string.length < 2 ^ 32}
    (hblocked : Blocked buf) (hsafe : Safe buf (.put string hlength)) :
    Bounded buf (.put string hlength) := by
  constructor
  · intro hsize
    by_contra hstring
    exact hsafe.hdefined (by rw [step, put_eq_none hsize hstring]; rfl)
  · by_contra hwrap
    have hsize : buf.mSize ≠ 2 ^ 32 - 1 := by
      intro hsize
      have hempty := hblocked hsize
      omega
    obtain ⟨next, hput⟩ := put_of_wrap hsize hlength (not_lt.mp hwrap)
    have hfits := (hsafe.hput rfl hput).1
    have hlt := buf.hsize
    omega

theorem safe_iff_bounded (hblocked : Blocked buf) (call : Call) :
    Safe buf call ↔ Bounded buf call := by
  cases call with
  | put string hlength => exact ⟨bounded_of_safe_put hblocked, safe_put_of_bounded⟩
  | reset => exact iff_of_true (safe_reset buf) trivial
  | pick env memory event log =>
      exact iff_of_true (safe_pick hblocked env memory event log) trivial

end Safety

/-- For every size and all calls since construction, none of them divides by
zero, accepts more than fits or loses a byte, if and only if each string put is
empty when the size is `2 ^ 32 - 1` and never as long as to carry the length held
past 32 bits. -/
theorem safe_iff (size : ℕ) (dt : List Byte) (hsize : size < 2 ^ 32)
    (hdt : dt.length = u32 (size + 1)) (calls : List Call) :
    Meets step Safe (.new size dt hsize hdt) calls ↔
      Meets step Bounded (.new size dt hsize hdt) calls :=
  @meets_iff_of_invariant _ _ step Safe Blocked Bounded
    (fun hblocked hstep => Blocked.step hblocked hstep)
    (fun call hblocked => safe_iff_bounded hblocked call) _
    (blocked_new size dt hsize hdt) calls

theorem safe_iff_three :
    Meets step Safe (.new 3 [0, 0, 0, 0] (by decide) (by decide))
      [.put [7, 9] (by decide), .put [8, 8] (by decide), .reset] := by
  refine (safe_iff 3 [0, 0, 0, 0] (by decide) (by decide) _).mpr ?_
  exact ⟨⟨by decide, by decide⟩, ⟨by decide, by decide⟩, trivial, trivial⟩

theorem put_replicate {buf : RingBuf} (hsize : buf.mSize ≠ 2 ^ 32 - 1) {count : ℕ}
    (hcount : count < 2 ^ 32) (hwrap : 2 ^ 32 ≤ buf.length + count) (byte : Byte) :
    ∃ next, buf.put (List.replicate count byte) = some (true, next) :=
  put_of_wrap hsize (by rwa [List.length_replicate]) (by rwa [List.length_replicate])

/-- One byte is put into a buffer of `2 ^ 32 - 1`; and a buffer of three bytes that
holds one accepts `2 ^ 32 - 1` more. -/
theorem not_safe_of_wrap :
    (RingBuf.new (2 ^ 32 - 1) [] (by decide) (by decide)).put [7] = none ∧
      ∃ buf next, (RingBuf.new 3 [0, 0, 0, 0] (by decide) (by decide)).put [7] =
          some (true, buf) ∧
        buf.length = 1 ∧ buf.mSize = 3 ∧
        buf.put (List.replicate (2 ^ 32 - 1) 0) = some (true, next) := by
  refine ⟨put_eq_none rfl (by simp), ?_⟩
  obtain ⟨buf, hput, hsize, hcontents⟩ := @put_of_le
    (RingBuf.new 3 [0, 0, 0, 0] (by decide) (by decide)) (by decide) [7] (by decide)
  have hone : buf.length = 1 := by
    rw [← buf.length_contents, hcontents]
    rfl
  have hthree : buf.mSize = 3 := hsize
  obtain ⟨next, hnext⟩ := @put_replicate buf (by omega) (2 ^ 32 - 1) (by norm_num)
    (by rw [hone]; norm_num) 0
  exact ⟨buf, next, hput, hone, hthree, hnext⟩

end Sednl.Overflow
