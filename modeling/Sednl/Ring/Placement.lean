import Sednl.Ring.Fifo
import Sednl.Ring.Pick

/-!
# Where the head frame sits

`pick_event` means to depend on the contents of the buffer only.  It does when
the head frame is in place, that is when the indices it does not reduce stay
inside the array; otherwise it reads past it.  One more condition concerns
buffers of nearly `2 ^ 32` bytes, where the drop of a frame is computed in 32
bits.
-/

namespace Sednl.Ring

open Sednl.Endian
open Sednl.Memory
open Sednl.Tag
open Sednl.Word
open Sednl.Circular
open Sednl.Grammar

namespace RingBuf

/-- The length of the head frame: the one it declares, and never less than 3. -/
def need (buf : RingBuf) : ℕ :=
  max 3 (beValue (buf.contents.take 2))

def body (buf : RingBuf) : List Byte :=
  (buf.contents.drop 2).take (buf.need - 2)

/-- The head frame is not cut by the end of the array, or just behind its
length; a length alone only has to be whole. -/
def InPlace (buf : RingBuf) : Prop :=
  buf.length < 2 ∨ buf.mStart + 1 ≤ buf.mSize ∧
    (buf.length < buf.need ∨ buf.mStart + buf.need ≤ buf.mSize + 1 ∨
      buf.mStart + 2 = buf.mSize + 1)

/-- A whole head frame without a NUL, dropped by a sum that does not fit. -/
def DropWraps (buf : RingBuf) : Prop :=
  2 ≤ buf.length ∧ buf.need ≤ buf.length ∧ 0 ∉ buf.body ∧
    2 ^ 32 ≤ buf.mStart + buf.need

/-- A cell of the array that holds a byte of the contents. -/
def Holds (buf : RingBuf) (index : ℕ) : Prop :=
  ∃ offset < buf.length, index = (buf.mStart + offset) % (buf.mSize + 1)

theorem need_le (buf : RingBuf) : buf.need ≤ 65535 := by
  have hvalue := beValue_lt (buf.contents.take 2)
  have hlength : (buf.contents.take 2).length ≤ 2 := List.length_take_le _ _
  have hpow : 256 ^ (buf.contents.take 2).length ≤ 256 ^ 2 :=
    Nat.pow_le_pow_right (by norm_num) hlength
  unfold need
  omega

theorem three_le_need (buf : RingBuf) : 3 ≤ buf.need :=
  le_max_left _ _

theorem length_body {buf : RingBuf} (hwhole : buf.need ≤ buf.length) :
    buf.body.length = buf.need - 2 := by
  rw [body, List.length_take, List.length_drop, length_contents]
  omega

end RingBuf

section Contents

variable {buf : RingBuf} {env : Env} (hroom : buf.mSize + 1 < 2 ^ 32)

include hroom

/-- A stretch of contents that the end of the array does not cut is what the
array shows there. -/
theorem shows_contents {offset count : ℕ} (hcount : offset + count ≤ buf.length)
    (hplace : (buf.mStart + offset) % (buf.mSize + 1) + count ≤ buf.mSize + 1) :
    Shows (buf.memory env) ((buf.mStart + offset) % (buf.mSize + 1))
      ((buf.contents.drop offset).take count) := by
  intro k byte hbyte log
  have hk : k < count := by
    by_contra h
    rw [List.getElem?_eq_none (by rw [List.length_take]; omega)] at hbyte
    simp at hbyte
  have hmod : (buf.mStart + (offset + k)) % (buf.mSize + 1) =
      (buf.mStart + offset) % (buf.mSize + 1) + k := by
    rw [← Nat.add_assoc, ← Nat.mod_add_mod, Nat.mod_eq_of_lt (by omega)]
  have hlt : (buf.mStart + offset) % (buf.mSize + 1) + k < buf.mDt.length := by
    rw [RingBuf.length_mDt hroom]
    omega
  rw [List.getElem?_take_of_lt hk, List.getElem?_drop, RingBuf.contents,
    getElem?_window (by omega), RingBuf.length_mDt hroom, hmod, Option.some.injEq,
    List.getD_eq_getElem _ _ hlt] at hbyte
  apply Region.value_of_getElem?
  rw [RingBuf.memory, List.getElem?_eq_getElem hlt, hbyte]

/-- The two bytes of the length, where they should be. -/
theorem shows_header (hlength : 2 ≤ buf.length) (hheader : buf.mStart + 1 ≤ buf.mSize) :
    ∃ high low, buf.contents.take 2 = [high, low] ∧
      Shows (buf.memory env) buf.mStart [high, low] := by
  have hzero : (buf.mStart + 0) % (buf.mSize + 1) = buf.mStart :=
    Nat.mod_eq_of_lt (by omega)
  have hshows := @shows_contents buf env hroom 0 2 (by omega) (by rw [hzero]; omega)
  rw [hzero, List.drop_zero] at hshows
  obtain ⟨high, low, hbytes⟩ : ∃ high low, buf.contents.take 2 = [high, low] := by
    apply List.length_eq_two.mp
    rw [List.length_take, RingBuf.length_contents]
    omega
  exact ⟨high, low, hbytes, hbytes ▸ hshows⟩

theorem pickEvent_run (hlength : 2 ≤ buf.length) (hheader : buf.mStart + 1 ≤ buf.mSize)
    (event : Event) (log : List ℕ) :
    (pickEvent env buf event).run log =
      if buf.length < buf.need then
        (some ⟨false, event, buf, []⟩, (buf.mStart + 1) :: buf.mStart :: log)
      else (pickFrame env (buf.memory env) buf event buf.need).run
        ((buf.mStart + 1) :: buf.mStart :: log) := by
  obtain ⟨high, low, hbytes, hshows⟩ := @shows_header buf env hroom hlength hheader
  have hsecond : u32 (buf.mStart + 1) = buf.mStart + 1 := u32_of_lt (by omega)
  have hload := env.host.ntoh_load [high, low]
  rw [List.length_cons, List.length_cons, List.length_nil] at hload
  rw [pickEvent, pickFrom_run, if_neg (by omega), hsecond, hshows.head, hshows.tail.head,
    hload]
  simp only [RingBuf.need, hbytes]

end Contents

/-- `pick_event` as a function of the contents. -/
def pickResult (env : Env) (buf : RingBuf) (event : Event) :
    Option (Bool × Event × RingBuf) :=
  if buf.length < 2 ∨ buf.length < buf.need then some (false, event, buf)
  else frameResult env buf event buf.need ((buf.mStart + 2) % (buf.mSize + 1)) buf.body

theorem body_end_le {buf : RingBuf} (hplace : buf.InPlace) (hlength : 2 ≤ buf.length)
    (hwhole : buf.need ≤ buf.length) :
    (buf.mStart + 2) % (buf.mSize + 1) + (buf.need - 2) ≤ buf.mSize + 1 := by
  have hthree := buf.three_le_need
  have hsize := buf.length_le
  rcases hplace with hshort | ⟨_, hcut | hfits | hsplit⟩
  · omega
  · omega
  · rw [Nat.mod_eq_of_lt (by omega)]
    omega
  · rw [hsplit, Nat.mod_self]
    omega

section InPlace

variable {buf : RingBuf} {env : Env} (hallocates : env.Allocates)
  (hroom : buf.mSize + 1 < 2 ^ 32)

include hallocates hroom

/-- In place, `pick_event` computes its result from the contents. -/
theorem pickEvent_inPlace (hplace : buf.InPlace) (event : Event) (log : List ℕ) :
    ((pickEvent env buf event).run log).1.map Picked.result =
      pickResult env buf event := by
  rw [pickResult]
  by_cases hshort : buf.length < 2
  · rw [if_pos (.inl hshort), pickEvent, pickFrom_run, if_pos hshort]
    rfl
  · have hheader : buf.mStart + 1 ≤ buf.mSize := by
      rcases hplace with h | h
      · exact absurd h hshort
      · exact h.1
    rw [pickEvent_run hroom (by omega) hheader]
    by_cases hcut : buf.length < buf.need
    · rw [if_pos hcut, if_pos (.inr hcut)]
      rfl
    · have hend := body_end_le hplace (by omega) (by omega)
      have hbody := RingBuf.length_body (not_lt.mp hcut)
      have hthree := buf.three_le_need
      have hshows := @shows_contents buf env hroom 2 (buf.need - 2) (by omega) hend
      rw [if_neg hcut, if_neg (by omega)]
      exact pickFrame_shows hallocates hroom rfl hshows (by rw [← RingBuf.body]; omega)
        event hbody.symm _

theorem pickEvent_reads (hplace : buf.InPlace) (event : Event) (log : List ℕ)
    {index : ℕ} (hindex : index ∈ ((pickEvent env buf event).run log).2) :
    index ∈ log ∨ buf.Holds index := by
  by_cases hshort : buf.length < 2
  · rw [pickEvent, pickFrom_run, if_pos hshort] at hindex
    exact .inl hindex
  · have hheader : buf.mStart + 1 ≤ buf.mSize := by
      rcases hplace with h | h
      · exact absurd h hshort
      · exact h.1
    have hlog : index ∈ (buf.mStart + 1) :: buf.mStart :: log →
        index ∈ log ∨ buf.Holds index := by
      intro hmem
      rcases List.mem_cons.mp hmem with rfl | hmem
      · exact .inr ⟨1, by omega, (Nat.mod_eq_of_lt (by omega)).symm⟩
      · rcases List.mem_cons.mp hmem with rfl | hmem
        · exact .inr ⟨0, by omega, (Nat.mod_eq_of_lt (by omega)).symm⟩
        · exact .inl hmem
    rw [pickEvent_run hroom (by omega) hheader] at hindex
    by_cases hcut : buf.length < buf.need
    · rw [if_pos hcut] at hindex
      exact hlog hindex
    · rw [if_neg hcut, pickFrame_reads hallocates hroom event
        (by have := buf.need_le; omega)] at hindex
      rcases hindex with hmem | ⟨k, hk, rfl⟩
      · exact hlog hmem
      · have hend := body_end_le hplace (by omega) (by omega)
        have hmod : (buf.mStart + (2 + k)) % (buf.mSize + 1) =
            (buf.mStart + 2) % (buf.mSize + 1) + k := by
          rw [← Nat.add_assoc, ← Nat.mod_add_mod, Nat.mod_eq_of_lt (by omega)]
        refine .inr ⟨2 + k, by omega, ?_⟩
        rw [u32_of_lt (by omega), hmod]

/-- Out of place, the first cell past the array is read. -/
theorem pickEvent_reads_past (hplace : ¬ buf.InPlace) (event : Event) (log : List ℕ) :
    buf.mSize + 1 ∈ ((pickEvent env buf event).run log).2 := by
  have hstart := buf.hstart
  rw [RingBuf.InPlace, not_or, not_and] at hplace
  obtain ⟨hlength, hrest⟩ := hplace
  by_cases hheader : buf.mStart + 1 ≤ buf.mSize
  · obtain ⟨hwhole, hcut⟩ := not_or.mp (hrest hheader)
    obtain ⟨hcut, hsplit⟩ := not_or.mp hcut
    rw [pickEvent_run hroom (by omega) hheader, if_neg hwhole,
      pickFrame_reads hallocates hroom event (by have := buf.need_le; omega)]
    refine .inr ⟨buf.mSize - 1 - buf.mStart, by omega, ?_⟩
    rw [Nat.mod_eq_of_lt (show buf.mStart + 2 < buf.mSize + 1 by omega),
      u32_of_lt (by omega)]
    omega
  · have hlast : u32 (buf.mStart + 1) = buf.mSize + 1 := by
      rw [u32_of_lt (by omega)]
      omega
    rw [pickEvent, pickFrom_run, if_neg hlength, hlast]
    simp only
    split
    · simp
    · rw [pickFrame_reads hallocates hroom event (by
        have := env.host.ntoh_lt 2 (env.host.load [(buf.memory env).value log buf.mStart,
          (buf.memory env).value (buf.mStart :: log) (buf.mSize + 1)])
        omega)]
      exact .inl (by simp)

end InPlace

/-! ## Two buffers with the same contents -/

/-- What `pick_event` should do, by the contents alone: what it returns, the
event and the contents after it. -/
def pickContents (contents : List Byte) (event : Event) : Bool × Event × List Byte :=
  let need := max 3 (beValue (contents.take 2))
  let body := (contents.drop 2).take (need - 2)
  if contents.length < 2 ∨ contents.length < need then (false, event, contents)
  else if 0 ∈ body then
    if WellFormed (bodyPacket body) then
      (true, ⟨bodyName body, bodyPacket body⟩, contents.drop need)
    else (false, event, contents)
  else (false, event, contents.drop need)

/-- Packets that fit in a frame are validated by the grammar. -/
theorem validPacket_eq (env : Env) {packet : List Byte} (hlength : packet.length ≤ 65532) :
    env.validPacket packet = decide (WellFormed packet) := by
  have hrun := (@Validation.isValid_run env.host ⟨packet, env.packetWild⟩
    (by simp only [Region.size]; omega) (packet.length + 2) le_rfl
    (Acceptance.tame_of_length hlength)).1
  rw [Env.validPacket, hrun]
  simp [wellFormed_iff_scan]

theorem length_bodyPacket_le {body : List Byte} (hlength : body.length ≤ 65533) :
    (bodyPacket body).length ≤ 65532 := by
  rw [bodyPacket, List.length_drop]
  omega

theorem pickContents_eq (buf : RingBuf) (event : Event) :
    pickContents buf.contents event =
      if buf.length < 2 ∨ buf.length < buf.need then (false, event, buf.contents)
      else if 0 ∈ buf.body then
        if WellFormed (bodyPacket buf.body) then
          (true, ⟨bodyName buf.body, bodyPacket buf.body⟩, buf.contents.drop buf.need)
        else (false, event, buf.contents)
      else (false, event, buf.contents.drop buf.need) := by
  rw [pickContents, RingBuf.length_contents]
  rfl

section Alike

variable {buf : RingBuf} {env : Env} (hroom : buf.mSize + 1 < 2 ^ 32)

include hroom

theorem pickResult_eq (hwraps : ¬ buf.DropWraps) (event : Event) :
    ∃ next, pickResult env buf event = some ((pickContents buf.contents event).1,
        (pickContents buf.contents event).2.1, next) ∧
      next.contents = (pickContents buf.contents event).2.2 := by
  rw [pickResult, pickContents_eq]
  by_cases hcut : buf.length < 2 ∨ buf.length < buf.need
  · rw [if_pos hcut, if_pos hcut]
    exact ⟨buf, rfl, rfl⟩
  · obtain ⟨htwo, hwhole⟩ := not_or.mp hcut
    have hneed := buf.need_le
    have hbody := RingBuf.length_body (not_lt.mp hwhole)
    rw [if_neg hcut, if_neg hcut, frameResult]
    by_cases hzero : 0 ∈ buf.body
    · rw [if_pos hzero, if_pos hzero, validPacket_eq env (length_bodyPacket_le (by omega))]
      by_cases hwell : WellFormed (bodyPacket buf.body)
      · obtain ⟨next, hnext, _, hcontents⟩ := @startAt_frame buf hroom buf.need
          ((buf.mStart + 2) % (buf.mSize + 1) + buf.body.length) (not_lt.mp hwhole) (by
            rw [hbody, Nat.mod_add_mod, Nat.add_assoc,
              Nat.add_sub_cancel' (by have := buf.three_le_need; omega)])
        simp only [hwell, decide_true, if_true, hnext, Option.map_some]
        exact ⟨next, rfl, hcontents⟩
      · simp only [hwell, decide_false, Bool.false_eq_true, if_false]
        exact ⟨buf, rfl, rfl⟩
    · have hsum : buf.mStart + buf.need < 2 ^ 32 := by
        by_contra h
        exact hwraps ⟨by omega, by omega, hzero, by omega⟩
      obtain ⟨next, hnext, _, hcontents⟩ := @startAt_frame buf hroom buf.need
        (u32 (buf.mStart + buf.need)) (not_lt.mp hwhole) (by rw [u32_of_lt hsum])
      rw [if_neg hzero, if_neg hzero, hnext]
      exact ⟨next, rfl, hcontents⟩

/-- A sum that does not fit drops too few bytes, by what the array lacks of `2 ^ 32`. -/
theorem startAt_wraps {packetLength : ℕ} (hwhole : packetLength ≤ buf.length)
    (hsum : 2 ^ 32 ≤ buf.mStart + packetLength) :
    ∃ next, buf.startAt (u32 (buf.mStart + packetLength)) = some next ∧
      next.contents = buf.contents.drop (packetLength - (2 ^ 32 - (buf.mSize + 1))) := by
  have hstart := buf.hstart
  have hlength := buf.length_le
  have hdrop : u32 (buf.mStart + packetLength) = buf.mStart + packetLength - 2 ^ 32 := by
    simp only [u32]
    omega
  have hmod : (buf.mStart + packetLength - 2 ^ 32) % (buf.mSize + 1) =
      (buf.mStart + (packetLength - (2 ^ 32 - (buf.mSize + 1)))) % (buf.mSize + 1) := by
    rw [show buf.mStart + (packetLength - (2 ^ 32 - (buf.mSize + 1))) =
      buf.mStart + packetLength - 2 ^ 32 + (buf.mSize + 1) by omega, Nat.add_mod_right]
  obtain ⟨next, hnext, _, hcontents⟩ := @startAt_frame buf hroom
    (packetLength - (2 ^ 32 - (buf.mSize + 1))) (u32 (buf.mStart + packetLength)) (by omega)
    (by rw [hdrop, hmod])
  exact ⟨next, hnext, hcontents⟩

theorem pickResult_of_dropWraps (hplace : buf.InPlace) (hwraps : buf.DropWraps)
    (event : Event) :
    buf.mStart + 2 = buf.mSize + 1 ∧
      ∃ next, pickResult env buf event = some (false, event, next) ∧
        next.contents = buf.contents.drop (buf.need - (2 ^ 32 - (buf.mSize + 1))) := by
  obtain ⟨htwo, hwhole, hzero, hsum⟩ := hwraps
  have hneed := buf.need_le
  have hsplit : buf.mStart + 2 = buf.mSize + 1 := by
    rcases hplace with h | ⟨_, h | h | h⟩ <;> omega
  obtain ⟨next, hnext, hcontents⟩ := startAt_wraps hroom hwhole hsum
  refine ⟨hsplit, next, ?_, hcontents⟩
  rw [pickResult, if_neg (by omega), frameResult, if_neg hzero, hnext]
  rfl

end Alike

/-- The two buffers answer alike whatever lies past their arrays, and read only
cells that hold their contents. -/
def AnswerAlike (left right : RingBuf) : Prop :=
  ∀ leftEnv rightEnv : Env, leftEnv.Allocates → rightEnv.Allocates → ∀ event : Event,
    ∃ pickedLeft pickedRight,
      ((pickEvent leftEnv left event).run []).1 = some pickedLeft ∧
      ((pickEvent rightEnv right event).run []).1 = some pickedRight ∧
      pickedLeft.found = pickedRight.found ∧
      pickedLeft.event = pickedRight.event ∧
      pickedLeft.buf.contents = pickedRight.buf.contents ∧
      (∀ index ∈ ((pickEvent leftEnv left event).run []).2, left.Holds index) ∧
      ∀ index ∈ ((pickEvent rightEnv right event).run []).2, right.Holds index

theorem AnswerAlike.symm {left right : RingBuf} (halike : AnswerAlike left right) :
    AnswerAlike right left := by
  intro rightEnv leftEnv hrightEnv hleftEnv event
  obtain ⟨answerLeft, answerRight, hrunLeft, hrunRight, hfound, hevent, hcontents,
    hreadsLeft, hreadsRight⟩ := halike leftEnv rightEnv hleftEnv hrightEnv event
  exact ⟨answerRight, answerLeft, hrunRight, hrunLeft, hfound.symm, hevent.symm,
    hcontents.symm, hreadsRight, hreadsLeft⟩

theorem Env.allocates_ample : Env.ample.Allocates :=
  ⟨fun _ => rfl, fun _ => rfl, rfl⟩

section Answers

variable {left right : RingBuf} (hleft : left.mSize + 1 < 2 ^ 32)
  (hright : right.mSize + 1 < 2 ^ 32)

theorem pickEvent_answer {buf next : RingBuf} {env : Env} (hallocates : env.Allocates)
    (hroom : buf.mSize + 1 < 2 ^ 32) (hplace : buf.InPlace) {event picked : Event}
    {found : Bool} (hresult : pickResult env buf event = some (found, picked, next)) :
    ∃ answer, ((pickEvent env buf event).run []).1 = some answer ∧
      answer.found = found ∧ answer.event = picked ∧ answer.buf = next := by
  have hrun := pickEvent_inPlace hallocates hroom hplace event []
  rw [hresult] at hrun
  obtain ⟨answer, hanswer, hparts⟩ := Option.map_eq_some_iff.mp hrun
  simp only [Picked.result, Prod.mk.injEq] at hparts
  exact ⟨answer, hanswer, hparts⟩

include hleft hright

/-- Results that agree make answers that agree. -/
theorem answerAlike_of_results (hplaceLeft : left.InPlace) (hplaceRight : right.InPlace)
    (hresults : ∀ leftEnv rightEnv event, ∃ found picked nextLeft nextRight,
      pickResult leftEnv left event = some (found, picked, nextLeft) ∧
      pickResult rightEnv right event = some (found, picked, nextRight) ∧
      nextLeft.contents = nextRight.contents) : AnswerAlike left right := by
  intro leftEnv rightEnv hleftEnv hrightEnv event
  obtain ⟨found, picked, nextLeft, nextRight, hresultLeft, hresultRight, hcontents⟩ :=
    hresults leftEnv rightEnv event
  obtain ⟨answerLeft, hrunLeft, rfl, rfl, rfl⟩ :=
    pickEvent_answer hleftEnv hleft hplaceLeft hresultLeft
  obtain ⟨answerRight, hrunRight, hfound, hevent, rfl⟩ :=
    pickEvent_answer hrightEnv hright hplaceRight hresultRight
  have hreadsLeft := fun index hindex =>
    (pickEvent_reads hleftEnv hleft hplaceLeft event [] hindex).resolve_left
      (List.not_mem_nil (a := index))
  have hreadsRight := fun index hindex =>
    (pickEvent_reads hrightEnv hright hplaceRight event [] hindex).resolve_left
      (List.not_mem_nil (a := index))
  exact ⟨answerLeft, answerRight, hrunLeft, hrunRight, hfound.symm, hevent.symm, hcontents,
    hreadsLeft, hreadsRight⟩

/-- Alike answers read nothing past the array, so both frames are in place. -/
theorem AnswerAlike.inPlace (halike : AnswerAlike left right) :
    left.InPlace ∧ right.InPlace := by
  obtain ⟨_, _, _, _, _, _, _, hreadsLeft, hreadsRight⟩ :=
    halike .ample .ample Env.allocates_ample Env.allocates_ample ⟨[], []⟩
  have hpast : ∀ buf : RingBuf, ¬ buf.Holds (buf.mSize + 1) := by
    rintro buf ⟨offset, _, heq⟩
    have := Nat.mod_lt (buf.mStart + offset) (show 0 < buf.mSize + 1 by omega)
    omega
  constructor
  · by_contra hplace
    exact hpast left (hreadsLeft _
      (pickEvent_reads_past Env.allocates_ample hleft hplace ⟨[], []⟩ []))
  · by_contra hplace
    exact hpast right (hreadsRight _
      (pickEvent_reads_past Env.allocates_ample hright hplace ⟨[], []⟩ []))

end Answers

section SameContents

variable {left right : RingBuf} (hsize : left.mSize = right.mSize)
  (hcontents : left.contents = right.contents)

include hcontents

theorem need_eq : left.need = right.need := by
  rw [RingBuf.need, RingBuf.need, hcontents]

theorem body_eq : left.body = right.body := by
  rw [RingBuf.body, RingBuf.body, hcontents, need_eq hcontents]

theorem length_eq_of_contents : left.length = right.length := by
  rw [← left.length_contents, ← right.length_contents, hcontents]

theorem dropWraps_iff (hstart : left.mStart = right.mStart) :
    left.DropWraps ↔ right.DropWraps := by
  rw [RingBuf.DropWraps, RingBuf.DropWraps, need_eq hcontents, body_eq hcontents,
    length_eq_of_contents hcontents, hstart]

include hsize

/-- A drop that wraps leaves more than one that does not. -/
theorem not_answerAlike_of_dropWraps (hleft : left.mSize + 1 < 2 ^ 32)
    (hplaceLeft : left.InPlace) (hplaceRight : right.InPlace) (hwraps : left.DropWraps)
    (hnot : ¬ right.DropWraps) : ¬ AnswerAlike left right := by
  intro halike
  have hright : right.mSize + 1 < 2 ^ 32 := hsize ▸ hleft
  obtain ⟨answerLeft, answerRight, hrunLeft, hrunRight, _, _, hsame, _, _⟩ :=
    halike .ample .ample Env.allocates_ample Env.allocates_ample ⟨[], []⟩
  obtain ⟨hsplit, nextLeft, hresultLeft, hdropLeft⟩ :=
    @pickResult_of_dropWraps left .ample hleft hplaceLeft hwraps ⟨[], []⟩
  obtain ⟨nextRight, hresultRight, hdropRight⟩ :=
    @pickResult_eq right .ample hright hnot ⟨[], []⟩
  obtain ⟨answer, hrun, _, _, rfl⟩ :=
    pickEvent_answer Env.allocates_ample hleft hplaceLeft hresultLeft
  obtain rfl : answerLeft = answer := Option.some.inj (hrunLeft.symm.trans hrun)
  obtain ⟨answer, hrun, _, _, rfl⟩ :=
    pickEvent_answer Env.allocates_ample hright hplaceRight hresultRight
  obtain rfl : answerRight = answer := Option.some.inj (hrunRight.symm.trans hrun)
  obtain ⟨htwo, hwhole, hzero, hsum⟩ := hwraps
  have hneed := left.need_le
  have hlength := length_eq_of_contents hcontents
  rw [hsame, hdropRight, pickContents_eq, ← hlength, ← need_eq hcontents,
    ← body_eq hcontents, if_neg (by omega), if_neg hzero, ← hcontents] at hdropLeft
  have hlengths := congrArg List.length hdropLeft
  simp only [List.length_drop, RingBuf.length_contents] at hlengths
  omega

/-- Buffers that answer alike start together, or no drop of theirs wraps. -/
theorem starts_of_answerAlike (hleft : left.mSize + 1 < 2 ^ 32) (halike : AnswerAlike left right)
    (hplaceLeft : left.InPlace) (hplaceRight : right.InPlace) :
    left.mStart = right.mStart ∨ ¬ left.DropWraps ∧ ¬ right.DropWraps := by
  have hright : right.mSize + 1 < 2 ^ 32 := hsize ▸ hleft
  by_contra hstarts
  obtain ⟨hstart, hwraps⟩ := not_or.mp hstarts
  by_cases hwrapsLeft : left.DropWraps
  · refine not_answerAlike_of_dropWraps hsize hcontents hleft hplaceLeft hplaceRight
      hwrapsLeft (fun hwrapsRight => hstart ?_) halike
    have hsplitLeft :=
      (@pickResult_of_dropWraps left .ample hleft hplaceLeft hwrapsLeft ⟨[], []⟩).1
    have hsplitRight :=
      (@pickResult_of_dropWraps right .ample hright hplaceRight hwrapsRight ⟨[], []⟩).1
    omega
  · have hwrapsRight : right.DropWraps := by
      by_contra h
      exact hwraps ⟨hwrapsLeft, h⟩
    exact not_answerAlike_of_dropWraps hsize.symm hcontents.symm hright hplaceRight
      hplaceLeft hwrapsRight hwrapsLeft halike.symm

/-- Buffers in place that start together, or whose drops do not wrap, answer alike. -/
theorem answerAlike_of_starts (hleft : left.mSize + 1 < 2 ^ 32) (hplaceLeft : left.InPlace)
    (hplaceRight : right.InPlace)
    (hstarts : left.mStart = right.mStart ∨ ¬ left.DropWraps ∧ ¬ right.DropWraps) :
    AnswerAlike left right := by
  have hright : right.mSize + 1 < 2 ^ 32 := hsize ▸ hleft
  apply answerAlike_of_results hleft hright hplaceLeft hplaceRight
  intro leftEnv rightEnv event
  by_cases hwrapsLeft : left.DropWraps
  · have hstart := hstarts.resolve_right fun h => h.1 hwrapsLeft
    have hwrapsRight := (dropWraps_iff hcontents hstart).mp hwrapsLeft
    obtain ⟨_, nextLeft, hresultLeft, hdropLeft⟩ :=
      @pickResult_of_dropWraps left leftEnv hleft hplaceLeft hwrapsLeft event
    obtain ⟨_, nextRight, hresultRight, hdropRight⟩ :=
      @pickResult_of_dropWraps right rightEnv hright hplaceRight hwrapsRight event
    refine ⟨_, _, nextLeft, nextRight, hresultLeft, hresultRight, ?_⟩
    rw [hdropLeft, hdropRight, hcontents, need_eq hcontents, hsize]
  · have hwrapsRight : ¬ right.DropWraps := by
      rcases hstarts with hstart | h
      · exact fun h => hwrapsLeft ((dropWraps_iff hcontents hstart).mpr h)
      · exact h.2
    obtain ⟨nextLeft, hresultLeft, hdropLeft⟩ :=
      @pickResult_eq left leftEnv hleft hwrapsLeft event
    obtain ⟨nextRight, hresultRight, hdropRight⟩ :=
      @pickResult_eq right rightEnv hright hwrapsRight event
    rw [hcontents] at hresultLeft hdropLeft
    exact ⟨_, _, nextLeft, nextRight, hresultLeft, hresultRight,
      hdropLeft.trans hdropRight.symm⟩

omit hsize

/-- Two empty buffers answer alike, and are in place. -/
theorem answerAlike_of_empty (hempty : left.length = 0) :
    AnswerAlike left right ∧ left.InPlace ∧ right.InPlace ∧ ¬ left.DropWraps ∧
      ¬ right.DropWraps := by
  have hright : right.length = 0 := (length_eq_of_contents hcontents).symm.trans hempty
  have hanswer : ∀ (buf : RingBuf) (env : Env) (event : Event), buf.length = 0 →
      (pickEvent env buf event).run [] = (some ⟨false, event, buf, []⟩, []) := by
    intro buf env event hbuf
    rw [pickEvent, pickFrom_run, if_pos (by omega)]
  refine ⟨?_, .inl (by omega), .inl (by omega), fun h => ?_, fun h => ?_⟩
  · intro leftEnv rightEnv _ _ event
    rw [hanswer left leftEnv event hempty, hanswer right rightEnv event hright]
    exact ⟨_, _, rfl, rfl, rfl, rfl, hcontents, by simp, by simp⟩
  · have htwo := h.1
    omega
  · have htwo := h.1
    omega

end SameContents

/-! ## Buffers that calls can reach -/

/-- A pick moves the start of the buffer, or nothing. -/
def RingBuf.Restarted (buf next : RingBuf) : Prop :=
  next = buf ∨ ∃ pos, buf.startAt pos = some next

theorem RingBuf.Restarted.kept {buf next : RingBuf} (hnext : buf.Restarted next) :
    next.mSize = buf.mSize ∧ next.mEnd = buf.mEnd := by
  rcases hnext with rfl | ⟨pos, hpos⟩
  · exact ⟨rfl, rfl⟩
  · rw [RingBuf.startAt] at hpos
    split at hpos
    · simp at hpos
    · rw [← Option.some.inj hpos]
      exact ⟨rfl, rfl⟩

section Restarted

variable {buf : RingBuf} {env : Env} {memory : Region Byte} {event : Event}
  {log : List ℕ} {picked : Picked}

theorem pickPacket_restarted {name : Cursor}
    (hpick : ((pickPacket env memory buf event name).run log).1 = some picked) :
    buf.Restarted picked.buf := by
  rw [pickPacket, Probe.run_bind, Probe.run_ite] at hpick
  split at hpick
  · split at hpick
    · simp at hpick
    · rename_i next hnext
      rw [Probe.run_ite] at hpick
      split at hpick <;> rw [← Option.some.inj hpick] <;> exact .inr ⟨_, hnext⟩
  · rw [← Option.some.inj hpick]
    exact .inl rfl

theorem pickFrame_restarted {packetLength : ℕ}
    (hpick : ((pickFrame env memory buf event packetLength).run log).1 = some picked) :
    buf.Restarted picked.buf := by
  rw [pickFrame] at hpick
  split at hpick
  · simp at hpick
  · rw [Probe.run_bind, Probe.run_ite] at hpick
    split at hpick
    · rw [Probe.run_ite] at hpick
      split at hpick
      · split at hpick
        · simp at hpick
        · rename_i next hnext
          rw [← Option.some.inj hpick]
          exact .inr ⟨_, hnext⟩
      · exact pickPacket_restarted hpick
    · rw [← Option.some.inj hpick]
      exact .inl rfl

theorem pickFrom_restarted
    (hpick : ((pickFrom env memory buf event).run log).1 = some picked) :
    buf.Restarted picked.buf := by
  rw [pickFrom_run] at hpick
  split at hpick
  · rw [← Option.some.inj hpick]
    exact .inl rfl
  · simp only at hpick
    split at hpick
    · rw [← Option.some.inj hpick]
      exact .inl rfl
    · exact pickFrame_restarted hpick

end Restarted

theorem putBytes_mSize {string : List Byte} {buf next : RingBuf}
    (hput : RingBuf.putBytes string buf = some next) :
    next.mSize = buf.mSize ∧ (u32 (buf.mSize + 1) = 0 → next = buf) := by
  induction string generalizing buf with
  | nil =>
      obtain rfl := Option.some.inj hput
      exact ⟨rfl, fun _ => rfl⟩
  | cons byte string ih =>
      rw [RingBuf.putBytes, RingBuf.putByte] at hput
      by_cases hmodulus : u32 (buf.mSize + 1) = 0
      · rw [dif_pos hmodulus] at hput
        simp at hput
      · rw [dif_neg hmodulus, Option.bind_some] at hput
        exact ⟨(ih hput).1, fun h => absurd h hmodulus⟩

/-- The capacity never changes, and a buffer without a modulus stays empty. -/
theorem Reached.mSize_eq {size : ℕ} {buf : RingBuf} {sent : List Byte} {removed : ℕ}
    (hreached : Reached size buf sent removed) :
    buf.mSize = size ∧ (u32 (size + 1) = 0 → buf.length = 0) := by
  induction hreached with
  | new dt hsize hdt => exact ⟨rfl, fun _ => rfl⟩
  | @put buf next sent string removed accepted _ hsum hput ih =>
      obtain ⟨rfl, hempty⟩ := ih
      rw [RingBuf.put] at hput
      split at hput
      · obtain ⟨_, rfl⟩ := Prod.mk.inj (Option.some.inj hput)
        exact ⟨rfl, hempty⟩
      · obtain ⟨next', hbytes, heq⟩ := Option.map_eq_some_iff.mp hput
        obtain ⟨_, rfl⟩ := Prod.mk.inj heq
        obtain ⟨hsame, hunchanged⟩ := putBytes_mSize hbytes
        exact ⟨hsame, fun hmax => by rw [hunchanged hmax]; exact hempty hmax⟩
  | @reset buf sent removed _ ih =>
      refine ⟨ih.1, fun _ => ?_⟩
      rw [← buf.reset.length_contents, buf.contents_reset]
      rfl
  | @pick buf sent removed env memory event log picked _ hpick ih =>
      refine ⟨(pickFrom_restarted hpick).kept.1.trans ih.1, fun hmax => ?_⟩
      have hlength := ih.2 hmax
      rw [pickFrom_run, if_pos (by omega)] at hpick
      rwa [← Option.some.inj hpick]

/-- Two reachable buffers of one capacity with the same contents answer alike
exactly when both head frames are in place and, unless they start together,
neither is dropped by a sum that wraps. -/
theorem answerAlike_iff {size : ℕ} {left right : RingBuf} {sentLeft sentRight : List Byte}
    {removedLeft removedRight : ℕ} (hleft : Reached size left sentLeft removedLeft)
    (hright : Reached size right sentRight removedRight)
    (hcontents : left.contents = right.contents) :
    AnswerAlike left right ↔ left.InPlace ∧ right.InPlace ∧
      (left.mStart = right.mStart ∨ ¬ left.DropWraps ∧ ¬ right.DropWraps) := by
  obtain ⟨hleftSize, hleftMax⟩ := hleft.mSize_eq
  obtain ⟨hrightSize, _⟩ := hright.mSize_eq
  by_cases hroom : size + 1 < 2 ^ 32
  · rw [← hleftSize] at hroom
    have hsize := hleftSize.trans hrightSize.symm
    constructor
    · intro halike
      obtain ⟨hplaceLeft, hplaceRight⟩ := halike.inPlace hroom (hsize ▸ hroom)
      exact ⟨hplaceLeft, hplaceRight,
        starts_of_answerAlike hsize hcontents hroom halike hplaceLeft hplaceRight⟩
    · rintro ⟨hplaceLeft, hplaceRight, hstarts⟩
      exact answerAlike_of_starts hsize hcontents hroom hplaceLeft hplaceRight hstarts
  · -- an array of 2 ^ 32 cells has no modulus: nothing was ever put
    have hmax : u32 (size + 1) = 0 := by
      have hlt := left.hsize
      simp only [u32]
      omega
    obtain ⟨halike, hplaceLeft, hplaceRight, hwraps⟩ :=
      answerAlike_of_empty hcontents (hleftMax hmax)
    exact ⟨fun _ => ⟨hplaceLeft, hplaceRight, .inr hwraps⟩, fun _ => halike⟩

/-- One frame at two places of a six-cell array, the second one against the end. -/
theorem answerAlike_iff_against_end :
    ∃ left turned right,
      (RingBuf.new 5 [0, 0, 0, 0, 0, 0] (by decide) (by decide)).put [0, 3, 0] =
        some (true, left) ∧
      (RingBuf.new 5 [0, 0, 0, 0, 0, 0] (by decide) (by decide)).put [7, 7, 7] =
        some (true, turned) ∧
      turned.reset.put [0, 3, 0] = some (true, right) ∧
      right.mStart = 3 ∧ AnswerAlike left right := by
  have hnew := @Reached.new 5 [0, 0, 0, 0, 0, 0] (by decide) (by decide)
  have hleft := @Reached.put _ _ _ _ [0, 3, 0] _ _ hnew (by decide) rfl
  have hturned := @Reached.put _ _ _ _ [7, 7, 7] _ _ hnew (by decide) rfl
  have hright := @Reached.put _ _ _ _ [0, 3, 0] _ _ hturned.reset (by decide) rfl
  refine ⟨_, _, _, rfl, rfl, rfl, rfl, (answerAlike_iff hleft hright rfl).mpr ⟨?_, ?_, ?_⟩⟩
  · exact .inr (by decide)
  · exact .inr (by decide)
  · refine .inr ⟨?_, ?_⟩
    · rintro ⟨_, _, hzero, _⟩
      exact absurd hzero (by decide)
    · rintro ⟨_, _, hzero, _⟩
      exact absurd hzero (by decide)

/-- The same frame, whose length the end of a four-cell array cuts in two. -/
theorem not_answerAlike_of_cut :
    ∃ left right,
      Reached 3 left [0, 3, 0] 0 ∧ Reached 3 right [7, 7, 7, 0, 3, 0] 3 ∧
      left.contents = right.contents ∧ ¬ AnswerAlike left right := by
  have hnew := @Reached.new 3 [0, 0, 0, 0] (by decide) (by decide)
  have hleft := @Reached.put _ _ _ _ [0, 3, 0] _ _ hnew (by decide) rfl
  have hturned := @Reached.put _ _ _ _ [7, 7, 7] _ _ hnew (by decide) rfl
  have hright := @Reached.put _ _ _ _ [0, 3, 0] _ _ hturned.reset (by decide) rfl
  refine ⟨_, _, hleft, hright, rfl, fun halike => ?_⟩
  rcases (halike.inPlace (by decide) (by decide)).2 with hshort | ⟨hheader, _⟩
  · exact absurd hshort (by decide)
  · exact absurd hheader (by decide)

end Sednl.Ring
