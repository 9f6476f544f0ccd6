import Sednl.Ring.Lossless

/-!
# Which frames are dropped

A whole head frame, whatever it contains, is meant to be removed by one call of
`pick_event`, with or without an event.  The call removes it exactly when the
frame is in place, its drop does not wrap, and its packet, if it has one, is
valid: an invalid packet stays in front of the stream.  For a frame that the end
of the array cuts, some stray bytes always make the call do something else.
-/

namespace Sednl.Ring

open Sednl.Endian
open Sednl.Memory
open Sednl.Tag
open Sednl.Word
open Sednl.Circular
open Sednl.Grammar

/-- One call of `pick_event` in which no allocation fails removes the head frame;
it stores the name and the packet when the name is terminated and the packet
valid, and otherwise returns false and leaves the event. -/
def DropsHead (buf : RingBuf) : Prop :=
  ∀ env : Env, env.Allocates → ∀ event : Event, ∃ picked,
    ((pickEvent env buf event).run []).1 = some picked ∧
    picked.buf.contents = buf.contents.drop buf.need ∧
    (picked.found, picked.event) =
      if 0 ∈ buf.body ∧ env.validPacket (bodyPacket buf.body) = true then
        (true, ⟨bodyName buf.body, bodyPacket buf.body⟩)
      else (false, event)

/-! ## Frames in place -/

section InPlace

variable {buf : RingBuf} (hroom : buf.mSize + 1 < 2 ^ 32) (htwo : 2 ≤ buf.length)
  (hwhole : buf.need ≤ buf.length)

/-- What a call returns and leaves, when it removes the head frame. -/
theorem DropsHead.result (hdrops : DropsHead buf) {env : Env} (hallocates : env.Allocates)
    (event : Event) : ∃ found picked next,
      ((pickEvent env buf event).run []).1.map Picked.result = some (found, picked, next) ∧
      next.contents = buf.contents.drop buf.need ∧
      (found, picked) =
        if 0 ∈ buf.body ∧ env.validPacket (bodyPacket buf.body) = true then
          (true, ⟨bodyName buf.body, bodyPacket buf.body⟩)
        else (false, event) := by
  obtain ⟨picked, hpick, hcontents, hanswer⟩ := hdrops env hallocates event
  exact ⟨picked.found, picked.event, picked.buf, by rw [hpick]; rfl, hcontents, hanswer⟩

include hwhole

/-- Two prefixes of the contents that leave the same rest are the same. -/
theorem eq_of_drop_eq {k : ℕ} (hk : k ≤ buf.length)
    (hdrop : buf.contents.drop k = buf.contents.drop buf.need) : k = buf.need := by
  have hlengths := congrArg List.length hdrop
  rw [List.length_drop, List.length_drop, RingBuf.length_contents] at hlengths
  omega

theorem validPacket_body (env : Env) :
    env.validPacket (bodyPacket buf.body) = true ↔ WellFormed (bodyPacket buf.body) := by
  have hneed := buf.need_le
  have hbody := RingBuf.length_body hwhole
  rw [validPacket_eq env (length_bodyPacket_le (by omega)), decide_eq_true_iff]

include hroom htwo

theorem dropsHead_of_inPlace (hplace : buf.InPlace) (hwraps : ¬ buf.DropWraps)
    (hpacket : 0 ∈ buf.body → WellFormed (bodyPacket buf.body)) : DropsHead buf := by
  intro env hallocates event
  obtain ⟨next, hresult, hcontents⟩ := @pickResult_eq buf env hroom hwraps event
  obtain ⟨answer, hrun, hfound, hevent, rfl⟩ :=
    pickEvent_answer hallocates hroom hplace hresult
  refine ⟨answer, hrun, ?_, ?_⟩
  · rw [hcontents, pickContents_eq, if_neg (by omega)]
    by_cases hzero : 0 ∈ buf.body
    · rw [if_pos hzero, if_pos (hpacket hzero)]
    · rw [if_neg hzero]
  · rw [hfound, hevent, pickContents_eq, if_neg (by omega)]
    by_cases hzero : 0 ∈ buf.body
    · have hvalid := (validPacket_body hwhole env).mpr (hpacket hzero)
      rw [if_pos hzero, if_pos (hpacket hzero), if_pos ⟨hzero, hvalid⟩]
    · rw [if_neg hzero, if_neg fun h => hzero h.1]

/-- In place, a drop that wraps and an invalid packet both leave bytes behind. -/
theorem DropsHead.of_inPlace (hdrops : DropsHead buf) (hplace : buf.InPlace) :
    ¬ buf.DropWraps ∧ (0 ∈ buf.body → WellFormed (bodyPacket buf.body)) := by
  have hthree := buf.three_le_need
  obtain ⟨found, picked, last, hrun, hcontents, _⟩ :=
    hdrops.result Env.allocates_ample ⟨[], []⟩
  rw [pickEvent_inPlace Env.allocates_ample hroom hplace] at hrun
  have hwraps : ¬ buf.DropWraps := by
    intro hwraps
    obtain ⟨_, next, hresult, hdrop⟩ :=
      @pickResult_of_dropWraps buf .ample hroom hplace hwraps ⟨[], []⟩
    cases hrun.symm.trans hresult
    have hsame := eq_of_drop_eq hwhole (by omega) (hdrop.symm.trans hcontents)
    omega
  refine ⟨hwraps, fun hzero => ?_⟩
  by_contra hpacket
  obtain ⟨next, hresult, hkept⟩ := @pickResult_eq buf .ample hroom hwraps ⟨[], []⟩
  cases hrun.symm.trans hresult
  rw [pickContents_eq, if_neg (by omega), if_pos hzero, if_neg hpacket] at hkept
  have hsame := @eq_of_drop_eq buf hwhole 0 (Nat.zero_le _) (hkept.symm.trans hcontents)
  omega

end InPlace

/-! ## Frames cut by the end of the array -/

section Cut

variable {buf : RingBuf} {stray : Byte} (hroom : buf.mSize + 1 < 2 ^ 32)

/-- The bytes behind the length that 32-bit indices find. -/
def seenBody (buf : RingBuf) (stray : Byte) (count : ℕ) : List Byte :=
  (List.range count).map fun k =>
    buf.seen stray (u32 ((buf.mStart + 2) % (buf.mSize + 1) + k))

@[simp]
theorem length_seenBody (buf : RingBuf) (stray : Byte) (count : ℕ) :
    (seenBody buf stray count).length = count := by
  rw [seenBody, List.length_map, List.length_range]

theorem showsAround_seenBody (buf : RingBuf) (stray : Byte) (count : ℕ) :
    ShowsAround (buf.memory (.straying stray)) ((buf.mStart + 2) % (buf.mSize + 1))
      (seenBody buf stray count) := by
  intro offset byte hbyte log
  rw [seenBody, List.getElem?_map, Option.map_eq_some_iff] at hbyte
  obtain ⟨k, hk, rfl⟩ := hbyte
  obtain ⟨_, rfl⟩ := List.getElem?_eq_some_iff.mp hk
  rw [List.getElem_range]
  exact value_straying log _

/-- The length of the head frame, as it is seen. -/
def seenNeed (buf : RingBuf) (stray : Byte) : ℕ :=
  max 3 (beValue [buf.seen stray buf.mStart, buf.seen stray (buf.mStart + 1)])

theorem seenNeed_le (buf : RingBuf) (stray : Byte) : seenNeed buf stray ≤ 65535 := by
  have hvalue := beValue_lt [buf.seen stray buf.mStart, buf.seen stray (buf.mStart + 1)]
  simp only [List.length_cons, List.length_nil] at hvalue
  unfold seenNeed
  omega

/-- What a call can do with a frame it sees whole: leave it, find an event in it,
or drop it for want of a NUL. -/
inductive Sees (buf : RingBuf) (stray : Byte) (event : Event) :
    Option (Bool × Event × RingBuf) → Prop
  | left : Sees buf stray event (some (false, event, buf))
  | found {next : RingBuf} (hzero : 0 ∈ seenBody buf stray (seenNeed buf stray - 2)) :
      Sees buf stray event (some (true,
        ⟨bodyName (seenBody buf stray (seenNeed buf stray - 2)),
          bodyPacket (seenBody buf stray (seenNeed buf stray - 2))⟩, next))
  | dropped {next : RingBuf} (hwhole : seenNeed buf stray ≤ buf.length)
      (hzero : 0 ∉ seenBody buf stray (seenNeed buf stray - 2))
      (hnext : buf.startAt (u32 (buf.mStart + seenNeed buf stray)) = some next) :
      Sees buf stray event (some (false, event, next))

theorem Sees.of_found {event picked : Event} {next : RingBuf}
    (hsees : Sees buf stray event (some (true, picked, next))) :
    picked.name ++ 0 :: picked.packet = seenBody buf stray (seenNeed buf stray - 2) := by
  cases hsees with
  | found hzero => exact bodyName_append hzero

theorem Sees.of_not_found {event picked : Event} {next : RingBuf}
    (hsees : Sees buf stray event (some (false, picked, next))) :
    next = buf ∨ seenNeed buf stray ≤ buf.length ∧
      0 ∉ seenBody buf stray (seenNeed buf stray - 2) ∧
      buf.startAt (u32 (buf.mStart + seenNeed buf stray)) = some next := by
  cases hsees with
  | left => exact .inl rfl
  | dropped hwhole hzero hnext => exact .inr ⟨hwhole, hzero, hnext⟩

include hroom

theorem sees_pickEvent (htwo : 2 ≤ buf.length) (event : Event) :
    Sees buf stray event
      (((pickEvent (.straying stray) buf event).run []).1.map Picked.result) := by
  have hstart := buf.hstart
  have hload := (Env.straying stray).host.ntoh_load
    [buf.seen stray buf.mStart, buf.seen stray (buf.mStart + 1)]
  simp only [List.length_cons, List.length_nil] at hload
  rw [pickEvent, pickFrom_run, if_neg (by omega), value_straying, value_straying,
    u32_of_lt (show buf.mStart + 1 < 2 ^ 32 by omega), hload]
  simp only
  rw [show max 3 (beValue [buf.seen stray buf.mStart, buf.seen stray (buf.mStart + 1)]) =
    seenNeed buf stray from rfl]
  have hneed := seenNeed_le buf stray
  by_cases hwhole : buf.length < seenNeed buf stray
  · rw [if_pos hwhole]
    exact .left
  · rw [if_neg hwhole, pickFrame_around (Env.allocates_straying stray) hroom rfl
      (showsAround_seenBody buf stray (seenNeed buf stray - 2))
      (by rw [length_seenBody]; omega) event (by rw [length_seenBody])]
    by_cases hzero : 0 ∈ seenBody buf stray (seenNeed buf stray - 2)
    · rw [if_pos hzero]
      split
      · obtain ⟨next, hnext⟩ := RingBuf.startAt_isSome hroom
          (u32 ((buf.mStart + 2) % (buf.mSize + 1) +
            (seenBody buf stray (seenNeed buf stray - 2)).length))
        rw [hnext]
        exact .found hzero
      · exact .left
    · obtain ⟨next, hnext⟩ := RingBuf.startAt_isSome hroom
        (u32 (buf.mStart + seenNeed buf stray))
      rw [if_neg hzero, hnext]
      exact .dropped (not_lt.mp hwhole) hzero hnext

/-- The start moves by the length, or by what is left of it when the sum wraps. -/
theorem startAt_u32 {packetLength : ℕ} (hwhole : packetLength ≤ buf.length)
    {next : RingBuf} (hnext : buf.startAt (u32 (buf.mStart + packetLength)) = some next) :
    ∃ k ≤ packetLength, next.contents = buf.contents.drop k ∧
      (k = packetLength ∨ k + (2 ^ 32 - (buf.mSize + 1)) = packetLength) := by
  have hstart := buf.hstart
  have hlength := buf.length_le
  by_cases hsum : buf.mStart + packetLength < 2 ^ 32
  · obtain ⟨last, hlast, _, hcontents⟩ := @startAt_frame buf hroom packetLength
      (u32 (buf.mStart + packetLength)) hwhole (by rw [u32_of_lt hsum])
    cases hnext.symm.trans hlast
    exact ⟨packetLength, le_rfl, hcontents, .inl rfl⟩
  · obtain ⟨last, hlast, hcontents⟩ := startAt_wraps hroom hwhole (not_lt.mp hsum)
    cases hnext.symm.trans hlast
    exact ⟨_, Nat.sub_le _ _, hcontents, .inr (by omega)⟩

variable (hdrops : DropsHead buf) (htwo : 2 ≤ buf.length) (hwhole : buf.need ≤ buf.length)

include hdrops htwo hwhole

/-- What a call sees of a head frame that it removes, whatever the stray byte: a
valid frame as it is, and otherwise some frame without a NUL. -/
theorem DropsHead.sees (stray : Byte) :
    (0 ∈ buf.body ∧ WellFormed (bodyPacket buf.body) →
      seenBody buf stray (seenNeed buf stray - 2) = buf.body) ∧
    (¬ (0 ∈ buf.body ∧ WellFormed (bodyPacket buf.body)) →
      0 ∉ seenBody buf stray (seenNeed buf stray - 2) ∧
        (seenNeed buf stray = buf.need ∨
          seenNeed buf stray = buf.need + (2 ^ 32 - (buf.mSize + 1)))) := by
  have hthree := buf.three_le_need
  obtain ⟨found, picked, next, hrun, hcontents, hanswer⟩ :=
    hdrops.result (Env.allocates_straying stray) ⟨[], []⟩
  have hsees := @sees_pickEvent buf stray hroom htwo ⟨[], []⟩
  rw [hrun] at hsees
  simp only [validPacket_body hwhole] at hanswer
  constructor
  · intro hvalid
    rw [if_pos hvalid, Prod.mk.injEq] at hanswer
    obtain ⟨rfl, rfl⟩ := hanswer
    exact hsees.of_found.symm.trans (bodyName_append hvalid.1)
  · intro hinvalid
    rw [if_neg hinvalid, Prod.mk.injEq] at hanswer
    obtain ⟨rfl, rfl⟩ := hanswer
    rcases hsees.of_not_found with rfl | ⟨hseen, hzero, hnext⟩
    · have hsame := @eq_of_drop_eq next hwhole 0 (Nat.zero_le _) hcontents
      omega
    · obtain ⟨k, hk, hdropped, hlength⟩ := startAt_u32 hroom hseen hnext
      have hsame := eq_of_drop_eq hwhole (hk.trans hseen) (hdropped.symm.trans hcontents)
      exact ⟨hzero, by omega⟩

/-- A frame cut behind its length holds, as it is seen, a stray byte: one that its
contents do not hold there, or a NUL. -/
theorem not_cut_of_dropsHead (hheader : buf.mStart + 1 ≤ buf.mSize)
    (hcut : buf.mSize + 1 < buf.mStart + buf.need) : buf.mStart + 2 = buf.mSize + 1 := by
  by_contra hsplit
  have hthree := buf.three_le_need
  have hbody := RingBuf.length_body hwhole
  have hneed : ∀ stray, seenNeed buf stray = buf.need := by
    intro stray
    obtain ⟨high, low, hbytes, hshows⟩ :=
      @shows_header buf (.straying stray) hroom htwo hheader
    rw [seenNeed, RingBuf.need, hbytes, ← value_straying [], ← value_straying [],
      hshows.head, hshows.tail.head]
  -- the first cell past the array is read at this offset of the body
  obtain ⟨offset, hoffset⟩ : ∃ offset, buf.mStart + 2 + offset = buf.mSize + 1 :=
    ⟨buf.mSize - 1 - buf.mStart, by omega⟩
  have hstray : ∀ stray, (seenBody buf stray (buf.need - 2))[offset]? = some stray := by
    intro stray
    have hdt : (buf.mStart + 2) % (buf.mSize + 1) = buf.mStart + 2 :=
      Nat.mod_eq_of_lt (by omega)
    rw [seenBody, List.getElem?_map, List.getElem?_range (by omega), Option.map_some, hdt,
      hoffset, u32_of_lt hroom, seen_past hroom]
  by_cases hvalid : 0 ∈ buf.body ∧ WellFormed (bodyPacket buf.body)
  · have hseen : ∀ stray, buf.body[offset]? = some stray := by
      intro stray
      have hsame := (DropsHead.sees hroom hdrops htwo hwhole stray).1 hvalid
      rw [hneed stray] at hsame
      rw [← hsame, hstray stray]
    have hboth := (hseen 0).symm.trans (hseen 1)
    cases hboth
  · have hsame := ((DropsHead.sees hroom hdrops htwo hwhole 0).2 hvalid).1
    rw [hneed 0] at hsame
    exact hsame (List.mem_of_getElem? (hstray 0))

/-- A length cut by the end of the array is seen with a stray low byte, and so as
many different lengths. -/
theorem header_of_dropsHead : buf.mStart + 1 ≤ buf.mSize := by
  by_contra hheader
  have hstart := buf.hstart
  have hlast : buf.mStart + 1 = buf.mSize + 1 := by omega
  have hseen : ∀ stray, seenNeed buf stray =
      max 3 (stray.toNat + 256 * (buf.seen 0 buf.mStart).toNat) := by
    intro stray
    have hfirst : buf.seen stray buf.mStart = buf.seen 0 buf.mStart := by
      have hlt : buf.mStart < buf.mDt.length := by
        rw [RingBuf.length_mDt hroom]
        omega
      rw [RingBuf.seen, RingBuf.seen, List.getElem?_eq_getElem hlt, Option.getD_some,
        Option.getD_some]
    rw [seenNeed, hlast, seen_past hroom, hfirst]
    simp [beValue, leValue]
  have hlengths : ∀ stray, seenNeed buf stray = buf.need ∨
      seenNeed buf stray = buf.need + (2 ^ 32 - (buf.mSize + 1)) := by
    intro stray
    by_cases hvalid : 0 ∈ buf.body ∧ WellFormed (bodyPacket buf.body)
    · have hsame := congrArg List.length
        ((DropsHead.sees hroom hdrops htwo hwhole stray).1 hvalid)
      rw [length_seenBody, RingBuf.length_body hwhole] at hsame
      have hthree := buf.three_le_need
      have hthree' : 3 ≤ seenNeed buf stray := le_max_left _ _
      exact .inl (by omega)
    · exact ((DropsHead.sees hroom hdrops htwo hwhole stray).2 hvalid).2
  -- three lengths, and only two that a removal allows
  have h253 := hlengths 253
  have h254 := hlengths 254
  have h255 := hlengths 255
  rw [hseen] at h253 h254 h255
  simp only [show (253 : Byte).toNat = 253 from rfl, show (254 : Byte).toNat = 254 from rfl,
    show (255 : Byte).toNat = 255 from rfl] at h253 h254 h255
  omega

theorem inPlace_of_dropsHead : buf.InPlace := by
  have hheader := header_of_dropsHead hroom hdrops htwo hwhole
  refine .inr ⟨hheader, ?_⟩
  by_cases hfits : buf.mStart + buf.need ≤ buf.mSize + 1
  · exact .inr (.inl hfits)
  · exact .inr (.inr (not_cut_of_dropsHead hroom hdrops htwo hwhole hheader (by omega)))

end Cut

/-! ## Buffers that calls can reach -/

/-- In every buffer that calls can reach, a whole head frame is dropped as it is
meant to be, whatever the stray bytes, exactly when it is in place, its drop does
not wrap, and its packet is valid if its name is terminated. -/
theorem dropsHead_iff {size : ℕ} {buf : RingBuf} {sent : List Byte} {removed : ℕ}
    (hreached : Reached size buf sent removed)
    (hdeclared : 3 ≤ beValue (buf.contents.take 2))
    (hwhole : beValue (buf.contents.take 2) ≤ buf.length) :
    DropsHead buf ↔ buf.InPlace ∧ ¬ buf.DropWraps ∧
      (0 ∈ buf.body → WellFormed (bodyPacket buf.body)) := by
  have hneed : buf.need ≤ buf.length := by
    rw [RingBuf.need]
    omega
  obtain ⟨hsize, hmax⟩ := hreached.mSize_eq
  have hroom : buf.mSize + 1 < 2 ^ 32 := by
    by_contra hroom
    have hlt := buf.hsize
    have hempty := hmax (by rw [← hsize, show buf.mSize + 1 = 2 ^ 32 by omega]; rfl)
    omega
  constructor
  · intro hdrops
    have hplace := inPlace_of_dropsHead hroom hdrops (by omega) hneed
    exact ⟨hplace, hdrops.of_inPlace hroom (by omega) hneed hplace⟩
  · rintro ⟨hplace, hwraps, hpacket⟩
    exact dropsHead_of_inPlace hroom (by omega) hneed hplace hwraps hpacket

/-- Behind a frame without a NUL one with a name and a packet, and the other way
round. -/
theorem dropsHead_iff_pair :
    (∃ buf, (RingBuf.new 12 (List.replicate 13 0) (by decide) (by decide)).put pair =
        some (true, buf) ∧ DropsHead buf) ∧
      ∃ buf, (RingBuf.new 12 (List.replicate 13 0) (by decide) (by decide)).put
        (pair.drop 6 ++ pair.take 6) = some (true, buf) ∧ DropsHead buf := by
  have hdrops : ∀ chunk ∈ [pair, pair.drop 6 ++ pair.take 6],
      ∃ buf, (RingBuf.new 12 (List.replicate 13 0) (by decide) (by decide)).put chunk =
        some (true, buf) ∧ DropsHead buf := by
    intro chunk hchunk
    have hput : ∃ buf, (RingBuf.new 12 (List.replicate 13 0) (by decide) (by decide)).put chunk =
        some (true, buf) ∧ buf.mSize = 12 ∧ buf.mStart = 0 ∧ buf.length = 11 ∧
          buf.need ≤ 6 ∧ 3 ≤ beValue (buf.contents.take 2) ∧
          beValue (buf.contents.take 2) ≤ 6 ∧
          (0 ∈ buf.body → WellFormed (bodyPacket buf.body)) := by
      rcases List.mem_pair.mp hchunk with rfl | rfl
      · exact ⟨_, rfl, rfl, rfl, rfl, by decide, by decide, by decide, by decide +kernel⟩
      · exact ⟨_, rfl, rfl, rfl, rfl, by decide, by decide, by decide, by decide +kernel⟩
    obtain ⟨buf, hput, hsize, hstart, hlength, hneed, hleast, hmost, hpacket⟩ := hput
    have hnew := @Reached.new 12 (List.replicate 13 0) (by decide) (by decide)
    have hshort : (RingBuf.new 12 (List.replicate 13 0) (by decide) (by decide)).length +
        chunk.length < 2 ^ 32 := by
      rcases List.mem_pair.mp hchunk with rfl | rfl <;> decide
    refine ⟨buf, hput, (dropsHead_iff (hnew.put hshort hput) hleast (by omega)).mpr
      ⟨?_, ?_, hpacket⟩⟩
    · exact .inr ⟨by omega, .inr (.inl (by omega))⟩
    · rintro ⟨_, _, _, hwraps⟩
      omega
  exact ⟨hdrops _ (.head _), hdrops _ (.tail _ (.head _))⟩

/-- A frame without a name whose packet is one unknown tag is announced as dropped
and stays. -/
theorem not_dropsHead_of_invalid :
    ∃ buf, Reached 5 buf [0, 4, 0, 0] 0 ∧ 3 ≤ beValue (buf.contents.take 2) ∧
      beValue (buf.contents.take 2) ≤ buf.length ∧ ¬ DropsHead buf := by
  have hnew := @Reached.new 5 [0, 0, 0, 0, 0, 0] (by decide) (by decide)
  have hput := @Reached.put _ _ _ _ [0, 4, 0, 0] _ _ hnew (by decide) rfl
  refine ⟨_, hput, by decide, by decide, fun hdrops => ?_⟩
  have hvalid := (hdrops.of_inPlace (by decide) (by decide) (by decide)
    (.inr (by decide))).2 (by decide)
  exact absurd hvalid (by decide +kernel)

end Sednl.Ring
