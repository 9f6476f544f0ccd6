import Sednl.Ring.RingBuf

/-!
# The receive buffer is a byte queue

What each method does to the contents, and from it what holds after any calls
since construction.  `pick_event` is followed without knowing what it reads:
its two byte loops keep the sum of the index and of `remaining`, so wherever
it stops the new start is a whole frame further or where it was.
-/

namespace Sednl.Ring

open Sednl.Endian
open Sednl.Memory
open Sednl.Tag
open Sednl.Word
open Sednl.Circular

/-! ## `put` -/

section Put

variable {buf : RingBuf} (hroom : buf.mSize + 1 < 2 ^ 32)

include hroom

theorem putBytes_eq {string : List Byte} (hfits : buf.length + string.length ≤ buf.mSize) :
    ∃ next, RingBuf.putBytes string buf = some next ∧ next.mSize = buf.mSize ∧
      next.contents = buf.contents ++ string := by
  induction string generalizing buf with
  | nil => exact ⟨buf, rfl, rfl, by simp⟩
  | cons byte string ih =>
      rw [List.length_cons] at hfits
      obtain ⟨next, hput, hsize, hcontents⟩ := RingBuf.putByte_eq hroom byte (by omega)
      have hlength : next.length = buf.length + 1 := by
        rw [← next.length_contents, hcontents]
        simp
      obtain ⟨last, hlast, hlastSize, hlastContents⟩ := @ih next (by rwa [hsize])
        (by omega)
      refine ⟨last, ?_, hlastSize.trans hsize, ?_⟩
      · rw [RingBuf.putBytes, hput]
        exact hlast
      · rw [hlastContents, hcontents, List.append_assoc, List.singleton_append]

theorem put_of_le {string : List Byte} (hfits : buf.length + string.length ≤ buf.mSize) :
    ∃ next, buf.put string = some (true, next) ∧ next.mSize = buf.mSize ∧
      next.contents = buf.contents ++ string := by
  obtain ⟨next, hput, hnext⟩ := putBytes_eq hroom hfits
  have hsum : u32 (buf.length + string.length) = buf.length + string.length :=
    u32_of_lt (by omega)
  refine ⟨next, ?_, hnext⟩
  rw [RingBuf.put, hsum, if_neg (by omega), hput]
  rfl

end Put

theorem put_of_lt {buf : RingBuf} {string : List Byte}
    (hsum : buf.length + string.length < 2 ^ 32)
    (hfull : buf.mSize < buf.length + string.length) :
    buf.put string = some (false, buf) := by
  rw [RingBuf.put, u32_of_lt hsum, if_pos hfull]

/-! ## `pick_event` -/

section Loops

variable {memory : Region Byte} {alloc : ℕ → Bool}

/-- What a byte loop keeps, whatever it reads: the index and the number of
bytes that remain move together, and a decrement finds a positive counter. -/
structure Cursor.Follows (cursor : Cursor) (remaining dtIdx : ℕ) : Prop where
  hindex : cursor.dtIdx + cursor.remaining = dtIdx + remaining
  hremaining : cursor.remaining ≤ remaining
  hcounters : ∀ counter ∈ cursor.counters, 0 < counter

theorem takeName_follows (remaining : ℕ) {dtIdx : ℕ} (hindex : dtIdx + remaining < 2 ^ 32)
    (name : List Byte) {counters : List ℕ} (hcounters : ∀ counter ∈ counters, 0 < counter)
    (log : List ℕ) :
    ((takeName memory alloc remaining dtIdx name counters).run log).1.Follows
      remaining dtIdx := by
  induction remaining generalizing dtIdx name counters log with
  | zero => exact ⟨rfl, le_rfl, hcounters⟩
  | succ remaining ih =>
      have hstep : u32 (dtIdx + 1) = dtIdx + 1 := u32_of_lt (by omega)
      rw [takeName_run]
      by_cases hbyte : memory.value log dtIdx = 0
      · rw [if_pos hbyte]
        exact ⟨rfl, le_rfl, hcounters⟩
      · rw [if_neg hbyte]
        by_cases halloc : alloc name.length = true
        · rw [if_pos halloc, hstep]
          obtain ⟨hnext, hle, hpos⟩ := @ih (dtIdx + 1) (by omega)
            (name ++ [memory.value (dtIdx :: log) dtIdx]) ((remaining + 1) :: counters)
            (by simpa using hcounters) (dtIdx :: dtIdx :: log)
          exact ⟨by omega, by omega, hpos⟩
        · rw [if_neg halloc]
          exact ⟨rfl, le_rfl, hcounters⟩

theorem takePacket_follows (remaining : ℕ) {dtIdx : ℕ}
    (hindex : dtIdx + remaining < 2 ^ 32) (packet : List Byte) {counters : List ℕ}
    (hcounters : ∀ counter ∈ counters, 0 < counter) (log : List ℕ) :
    ((takePacket memory alloc remaining dtIdx packet counters).run log).1.Follows
        remaining dtIdx ∧
      (((takePacket memory alloc remaining dtIdx packet counters).run log).1.ok = true →
        ((takePacket memory alloc remaining dtIdx packet counters).run
          log).1.remaining = 0) := by
  induction remaining generalizing dtIdx packet counters log with
  | zero => exact ⟨⟨rfl, le_rfl, hcounters⟩, fun _ => rfl⟩
  | succ remaining ih =>
      have hstep : u32 (dtIdx + 1) = dtIdx + 1 := u32_of_lt (by omega)
      rw [takePacket_run]
      by_cases halloc : alloc packet.length = true
      · rw [if_pos halloc, hstep]
        obtain ⟨⟨hnext, hle, hpos⟩, hok⟩ := @ih (dtIdx + 1) (by omega)
          (packet ++ [memory.value log dtIdx]) ((remaining + 1) :: counters)
          (by simpa using hcounters) (dtIdx :: log)
        exact ⟨⟨by omega, by omega, hpos⟩, hok⟩
      · rw [if_neg halloc]
        exact ⟨⟨rfl, le_rfl, hcounters⟩, fun h => by simp at h⟩

end Loops

/-- What a pick may do to the buffer: drop a non-empty prefix, or nothing, and
then it has found no event. -/
structure Picked.Removes (picked : Picked) (buf : RingBuf) : Prop where
  hsize : picked.buf.mSize = buf.mSize
  hcontents : ∃ k, (k = 0 ∧ picked.found = false ∨ 1 ≤ k ∧ k ≤ buf.length) ∧
    picked.buf.contents = buf.contents.drop k
  hcounters : ∀ counter ∈ picked.counters, 0 < counter

theorem Picked.removes_nothing (event : Event) (buf : RingBuf) {counters : List ℕ}
    (hcounters : ∀ counter ∈ counters, 0 < counter) :
    Picked.Removes ⟨false, event, buf, counters⟩ buf :=
  ⟨rfl, ⟨0, .inl ⟨rfl, rfl⟩, rfl⟩, hcounters⟩

/-- What a pick may do to a whole head frame: drop all of it, or nothing. -/
structure Picked.RemovesFrame (picked : Picked) (buf : RingBuf) (packetLength : ℕ) :
    Prop where
  hsize : picked.buf.mSize = buf.mSize
  hcontents : picked.found = false ∧ picked.buf.contents = buf.contents ∨
    picked.buf.contents = buf.contents.drop packetLength
  hcounters : ∀ counter ∈ picked.counters, 0 < counter

theorem Picked.RemovesFrame.removes {picked : Picked} {buf : RingBuf} {packetLength : ℕ}
    (hremoves : picked.RemovesFrame buf packetLength) (hpos : 1 ≤ packetLength)
    (hlength : packetLength ≤ buf.length) : picked.Removes buf := by
  obtain ⟨hsize, hcontents, hcounters⟩ := hremoves
  refine ⟨hsize, ?_, hcounters⟩
  rcases hcontents with ⟨hfound, hsame⟩ | hdrop
  · exact ⟨0, .inl ⟨rfl, hfound⟩, hsame⟩
  · exact ⟨packetLength, .inr ⟨hpos, hlength⟩, hdrop⟩

section Pick

variable {buf : RingBuf} {env : Env} {memory : Region Byte} {event : Event}

/-- `m_start = ROUND(dt_idx)`, when `dt_idx` is a whole frame past the start. -/
theorem startAt_frame (hroom : buf.mSize + 1 < 2 ^ 32) {packetLength pos : ℕ}
    (hlength : packetLength ≤ buf.length)
    (hpos : pos % (buf.mSize + 1) = (buf.mStart + packetLength) % (buf.mSize + 1)) :
    ∃ next, buf.startAt pos = some next ∧ next.mSize = buf.mSize ∧
      next.contents = buf.contents.drop packetLength := by
  have hmodulus : ¬ u32 (buf.mSize + 1) = 0 := by
    rw [RingBuf.modulus_eq hroom]
    omega
  have hsame : buf.startAt pos = buf.startAt (buf.mStart + packetLength) := by
    rw [RingBuf.startAt, RingBuf.startAt, dif_neg hmodulus, dif_neg hmodulus]
    simp only [RingBuf.modulus_eq hroom, hpos]
  rw [hsame]
  exact RingBuf.startAt_add hroom hlength

theorem pickPacket_removesFrame (hroom : buf.mSize + 65536 < 2 ^ 32) {packetLength dtIdx : ℕ}
    (hthree : 3 ≤ packetLength) (hbound : packetLength < 65536)
    (hlength : packetLength ≤ buf.length)
    (hdtIdx : dtIdx = (buf.mStart + 2) % (buf.mSize + 1)) {name : Cursor}
    (hname : name.Follows (packetLength - 2) dtIdx) (hremaining : name.remaining ≠ 0)
    (log : List ℕ) :
    ∃ picked, ((pickPacket env memory buf event name).run log).1 = some picked ∧
      picked.RemovesFrame buf packetLength := by
  obtain ⟨hindex, hle, hcounters⟩ := hname
  have hdt : dtIdx ≤ buf.mSize := by
    rw [hdtIdx]
    exact Nat.le_of_lt_succ (Nat.mod_lt _ (Nat.succ_pos _))
  have hdec : dec32 name.remaining = name.remaining - 1 :=
    dec32_of_pos (Nat.pos_of_ne_zero hremaining) (by omega)
  have hstep : u32 (name.dtIdx + 1) = name.dtIdx + 1 := u32_of_lt (by omega)
  obtain ⟨hpacket, hok⟩ := @takePacket_follows memory env.allocs.packet
    (name.remaining - 1) (name.dtIdx + 1) (by omega) [] (name.remaining :: name.counters)
    (by
      intro counter hcounter
      rcases List.mem_cons.mp hcounter with rfl | hcounter
      · exact Nat.pos_of_ne_zero hremaining
      · exact hcounters counter hcounter) log
  simp only [pickPacket, Cursor.nextByte, hdec, hstep, Probe.run_bind]
  generalize ((takePacket memory env.allocs.packet (name.remaining - 1) (name.dtIdx + 1)
    [] (name.remaining :: name.counters)).run log) = outcome at hpacket hok ⊢
  obtain ⟨packet, later⟩ := outcome
  by_cases hvalid : (packet.ok && env.validPacket packet.bytes) = true
  · have hdone : packet.remaining = 0 := hok (Bool.and_eq_true_iff.mp hvalid).1
    have hend := hpacket.hindex
    obtain ⟨next, hstart, hsize, hcontents⟩ := @startAt_frame buf (by omega) packetLength
      packet.dtIdx hlength (by
        rw [show packet.dtIdx = dtIdx + (packetLength - 2) by simp only at hend hdone; omega,
          hdtIdx, Nat.mod_add_mod, Nat.add_assoc, Nat.add_sub_cancel' (by omega)])
    have hremoves : ∀ found picked, Picked.RemovesFrame
        ⟨found, picked, next, packet.counters⟩ buf packetLength := fun found picked =>
      ⟨hsize, .inr hcontents, hpacket.hcounters⟩
    simp only [hvalid, if_true, hstart]
    by_cases hevent : env.allocs.copies ⟨name.bytes, packet.bytes⟩ = true
    · rw [if_pos hevent]
      exact ⟨_, rfl, hremoves true _⟩
    · rw [if_neg hevent]
      exact ⟨_, rfl, hremoves false _⟩
  · rw [if_neg hvalid]
    exact ⟨_, rfl, rfl, .inl ⟨rfl, rfl⟩, hpacket.hcounters⟩

theorem pickFrame_removesFrame (hroom : buf.mSize + 65536 < 2 ^ 32) {packetLength : ℕ}
    (hthree : 3 ≤ packetLength) (hbound : packetLength < 65536)
    (hlength : packetLength ≤ buf.length) (log : List ℕ) :
    ∃ picked, ((pickFrame env memory buf event packetLength).run log).1 = some picked ∧
      picked.RemovesFrame buf packetLength := by
  have hstart := buf.hstart
  have hdt : (buf.mStart + 2) % (buf.mSize + 1) ≤ buf.mSize :=
    Nat.le_of_lt_succ (Nat.mod_lt _ (Nat.succ_pos _))
  have hname := @takeName_follows memory env.allocs.name (packetLength - 2)
    ((buf.mStart + 2) % (buf.mSize + 1)) (by omega) [] [] (by simp) log
  rw [pickFrame, RingBuf.round_eq (by omega)]
  simp only [Probe.run_bind]
  by_cases hok : ((takeName memory env.allocs.name (packetLength - 2)
      ((buf.mStart + 2) % (buf.mSize + 1)) [] []).run log).1.ok = true
  · rw [if_pos hok]
    by_cases hremaining : ((takeName memory env.allocs.name (packetLength - 2)
        ((buf.mStart + 2) % (buf.mSize + 1)) [] []).run log).1.remaining = 0
    · obtain ⟨next, hnext, hsize, hcontents⟩ := @startAt_frame buf (by omega)
        packetLength (u32 (buf.mStart + packetLength)) hlength
        (by rw [u32_of_lt (by omega)])
      rw [if_pos hremaining, hnext]
      exact ⟨_, rfl, hsize, .inr hcontents, hname.hcounters⟩
    · rw [if_neg hremaining]
      exact pickPacket_removesFrame hroom hthree hbound hlength rfl hname hremaining _
  · rw [if_neg hok]
    exact ⟨_, rfl, rfl, .inl ⟨rfl, rfl⟩, hname.hcounters⟩

/-- Whatever it reads and whatever fails, `pick_event` drops a prefix. -/
theorem pickFrom_removes (hroom : buf.mSize + 65536 < 2 ^ 32) (log : List ℕ) :
    ∃ picked, ((pickFrom env memory buf event).run log).1 = some picked ∧
      picked.Removes buf := by
  have hnothing : Picked.Removes ⟨false, event, buf, []⟩ buf :=
    Picked.removes_nothing event buf (by simp)
  rw [pickFrom_run]
  by_cases hshort : buf.length < 2
  · rw [if_pos hshort]
    exact ⟨_, rfl, hnothing⟩
  · rw [if_neg hshort]
    generalize hdeclared : env.host.ntoh 2 (env.host.load [memory.value log buf.mStart,
      memory.value (buf.mStart :: log) (u32 (buf.mStart + 1))]) = declared
    have hbound : declared < 65536 := by
      rw [← hdeclared]
      exact env.host.ntoh_lt 2 _
    simp only
    by_cases hcut : buf.length < max 3 declared
    · rw [if_pos hcut]
      exact ⟨_, rfl, hnothing⟩
    · rw [if_neg hcut]
      obtain ⟨picked, hpick, hremoves⟩ := @pickFrame_removesFrame buf env memory event hroom
        (max 3 declared) (le_max_left _ _) (by omega) (by omega) _
      exact ⟨picked, hpick, hremoves.removes (by omega) (by omega)⟩

end Pick

/-! ## Runs -/

/-- What calls since construction can make of a buffer of `size` bytes: the
bytes that were accepted, in order, and how many have left it. -/
inductive Reached (size : ℕ) : RingBuf → (sent : List Byte) → (removed : ℕ) → Prop
  | new (dt : List Byte) (hsize : size < 2 ^ 32) (hdt : dt.length = u32 (size + 1)) :
      Reached size (.new size dt hsize hdt) [] 0
  | put {buf next : RingBuf} {sent string : List Byte} {removed : ℕ} {accepted : Bool}
      (hreached : Reached size buf sent removed)
      (hsum : buf.length + string.length < 2 ^ 32)
      (hput : buf.put string = some (accepted, next)) :
      Reached size next (if accepted then sent ++ string else sent) removed
  | reset {buf : RingBuf} {sent : List Byte} {removed : ℕ}
      (hreached : Reached size buf sent removed) :
      Reached size buf.reset sent (removed + buf.length)
  | pick {buf : RingBuf} {sent : List Byte} {removed : ℕ} (env : Env)
      (memory : Region Byte) (event : Event) (log : List ℕ) {picked : Picked}
      (hreached : Reached size buf sent removed)
      (hpick : ((pickFrom env memory buf event).run log).1 = some picked) :
      Reached size picked.buf sent (removed + (buf.length - picked.buf.length))

/-- A bounded byte queue that has accepted `sent` and given up its first
`removed` bytes: where it stands, and what each method would do next. -/
structure Fifo (buf : RingBuf) (sent : List Byte) (removed : ℕ) : Prop where
  hstart : buf.mStart ≤ buf.mSize
  hend : buf.mEnd ≤ buf.mSize
  hlength : buf.length ≤ buf.mSize
  htally : buf.length + removed = sent.length
  hcontents : buf.contents = sent.drop removed
  hput : ∀ string : List Byte, buf.length + string.length < 2 ^ 32 →
    ∃ next, buf.put string =
        some (decide (buf.length + string.length ≤ buf.mSize), next) ∧
      (buf.length + string.length ≤ buf.mSize →
        next.contents = buf.contents ++ string) ∧
      (buf.mSize < buf.length + string.length → next = buf)
  hreset : buf.reset.contents = []
  hpick : ∀ (env : Env) (memory : Region Byte) (event : Event) (log : List ℕ),
    ∃ picked, ((pickFrom env memory buf event).run log).1 = some picked ∧
      picked.Removes buf

theorem Fifo.of_contents {buf : RingBuf} {sent : List Byte} {removed : ℕ}
    (hroom : buf.mSize + 65536 < 2 ^ 32) (htally : buf.length + removed = sent.length)
    (hcontents : buf.contents = sent.drop removed) : Fifo buf sent removed where
  hstart := buf.hstart
  hend := buf.hend
  hlength := buf.length_le
  htally := htally
  hcontents := hcontents
  hput := by
    intro string hsum
    by_cases hfits : buf.length + string.length ≤ buf.mSize
    · obtain ⟨next, hput, _, hnext⟩ := put_of_le (by omega) hfits
      exact ⟨next, by rw [hput, decide_eq_true hfits], fun _ => hnext, by omega⟩
    · have hput := put_of_lt hsum (not_le.mp hfits)
      exact ⟨buf, by rw [hput, decide_eq_false hfits], fun h => absurd h hfits,
        fun _ => rfl⟩
  hreset := buf.contents_reset
  hpick := fun _ _ _ log => pickFrom_removes hroom log

/-- The run lemma: each call keeps the tally and the order of the bytes. -/
theorem Reached.contents_eq {size : ℕ} {buf : RingBuf} {sent : List Byte} {removed : ℕ}
    (hreached : Reached size buf sent removed) (hsize : size < 2 ^ 31) :
    buf.mSize = size ∧ buf.length + removed = sent.length ∧
      buf.contents = sent.drop removed := by
  induction hreached with
  | new dt hsize hdt => exact ⟨rfl, rfl, rfl⟩
  | @put buf next sent string removed accepted _ hsum hput ih =>
      obtain ⟨rfl, htally, hcontents⟩ := ih
      by_cases hfits : buf.length + string.length ≤ buf.mSize
      · obtain ⟨next', hput', hnextSize, hnext⟩ := put_of_le (by omega) hfits
        rw [hput', Option.some.injEq, Prod.mk.injEq] at hput
        obtain ⟨rfl, rfl⟩ := hput
        have hlength : next'.length = buf.length + string.length := by
          rw [← next'.length_contents, hnext]
          simp
        refine ⟨hnextSize, ?_, ?_⟩
        · rw [if_pos rfl, List.length_append]
          omega
        · rw [if_pos rfl, hnext, hcontents, List.drop_append_of_le_length (by omega)]
      · rw [put_of_lt hsum (not_le.mp hfits), Option.some.injEq, Prod.mk.injEq] at hput
        obtain ⟨rfl, rfl⟩ := hput
        exact ⟨rfl, htally, hcontents⟩
  | @reset buf sent removed _ ih =>
      obtain ⟨hbufSize, htally, hcontents⟩ := ih
      have hempty : buf.reset.length = 0 := by
        rw [← buf.reset.length_contents, buf.contents_reset]
        rfl
      refine ⟨hbufSize, by omega, ?_⟩
      rw [buf.contents_reset, eq_comm, List.drop_eq_nil_iff]
      omega
  | @pick buf sent removed env memory event log picked _ hpick ih =>
      obtain ⟨rfl, htally, hcontents⟩ := ih
      obtain ⟨picked', hpick', hremoves⟩ :=
        @pickFrom_removes buf env memory event (by omega) log
      rw [hpick, Option.some.injEq] at hpick'
      subst hpick'
      obtain ⟨hnextSize, ⟨k, hk, hdrop⟩, _⟩ := hremoves
      have hlength : picked.buf.length = buf.length - k := by
        rw [← picked.buf.length_contents, hdrop]
        simp
      refine ⟨hnextSize, by omega, ?_⟩
      rw [hdrop, hcontents, List.drop_drop]
      congr 1
      omega

/-- From construction on, a buffer of fewer than `2 ^ 31` bytes is a bounded
byte queue. -/
theorem fifo_of_reached {size : ℕ} (hsize : size < 2 ^ 31) {buf : RingBuf}
    {sent : List Byte} {removed : ℕ} (hreached : Reached size buf sent removed) :
    buf.mSize = size ∧ Fifo buf sent removed := by
  obtain ⟨rfl, htally, hcontents⟩ := hreached.contents_eq hsize
  exact ⟨rfl, .of_contents (by omega) htally hcontents⟩

/-- A frame with a name and a packet, and one without a NUL. -/
def pair : List Byte :=
  [0, 6, 112, 0, 1, 42, 0, 5, 7, 7, 7]

/-- Each frame is put and picked: the first is delivered, and the second, which ends
with the array, is dropped. -/
theorem fifo_of_reached_pair :
    ∃ buf, Reached 10 buf pair 11 ∧ buf.mStart = 0 ∧ Fifo buf pair 11 := by
  have hrun : (((RingBuf.new 10 (List.replicate 11 0) (by decide) (by decide)).put
      (pair.take 6)).bind fun first =>
        ((pickFrom .ample (first.2.memory .ample) first.2 ⟨[], []⟩).run []).1.bind fun second =>
          (second.buf.put (pair.drop 6)).bind fun third =>
            ((pickFrom .ample (third.2.memory .ample) third.2 ⟨[], []⟩).run []).1.map
              fun last => decide (first.1 = true ∧ first.2.length = 6 ∧ second.found = true ∧
                second.event.name = [112] ∧ second.buf.length = 0 ∧ third.1 = true ∧
                third.2.length = 5 ∧ last.found = false ∧ last.buf.length = 0 ∧
                last.buf.mStart = 0)) = some true := by
    decide +kernel
  obtain ⟨first, hfirst, hrun⟩ := Option.bind_eq_some_iff.mp hrun
  obtain ⟨second, hsecond, hrun⟩ := Option.bind_eq_some_iff.mp hrun
  obtain ⟨third, hthird, hrun⟩ := Option.bind_eq_some_iff.mp hrun
  obtain ⟨last, hlast, hfacts⟩ := Option.map_eq_some_iff.mp hrun
  obtain ⟨haccepts, hlength, -, -, hleft, haccepts', hlength', -, hleft', hstart⟩ :=
    of_decide_eq_true hfacts
  have hput := @Reached.put 10 _ first.2 [] (pair.take 6) 0 first.1
    (@Reached.new 10 (List.replicate 11 0) (by decide) (by decide)) (by decide) hfirst
  have hpick := hput.pick .ample _ _ [] hsecond
  have hput' := hpick.put (by rw [hleft]; decide) hthird
  have hpick' := hput'.pick .ample _ _ [] hlast
  rw [haccepts, haccepts', hlength, hleft, hlength', hleft'] at hpick'
  exact ⟨last.buf, hpick', hstart, (fifo_of_reached (by norm_num) hpick').2⟩
end Sednl.Ring
