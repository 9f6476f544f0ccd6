import Sednl.Ring.Starved
import Sednl.Ring.Wedge

/-!
# What the inner loop of `read_connection` leaves

The loop stops at the first call of `pick_event` that finds no event.  That is meant
to be the call that finds no whole frame; but a frame whose name does not end is
removed by a call that finds nothing too, and a frame with an invalid packet is not
removed at all.  Which of these ends the loop depends on the frames in the buffer,
as they are read.
-/

namespace Sednl.Ring

open Sednl.Endian
open Sednl.Memory
open Sednl.Tag
open Sednl.Word
open Sednl.Circular
open Sednl.Grammar

/-- The buffer holds less than its head frame needs. -/
def RingBuf.Short (buf : RingBuf) : Prop :=
  buf.length < 2 ∨ buf.length < buf.need

/-- The buffer without its first `k` bytes. -/
def RingBuf.behind (buf : RingBuf) (k : ℕ) : RingBuf :=
  { buf with
    mStart := (buf.mStart + k) % (buf.mSize + 1)
    hstart := Nat.le_of_lt_succ (Nat.mod_lt _ (Nat.succ_pos _)) }

/-- The frames the loop reads, `stray` lying past the array: some with an event each,
and at their end less than a whole frame, possibly behind one without a NUL. -/
inductive Drains (stray : ℕ → Byte) : RingBuf → Prop
  | stays {buf : RingBuf} (hshort : buf.Short)
      (hstays : buf.length < 2 ∨ buf.length < cellNeed buf stray ∨
        0 ∈ cellBody buf stray ∧ ¬ WellFormed (bodyPacket (cellBody buf stray))) :
      Drains stray buf
  | delivers {buf : RingBuf} (htwo : 2 ≤ buf.length) (hwhole : cellNeed buf stray ≤ buf.length)
      (hzero : 0 ∈ cellBody buf stray) (hvalid : WellFormed (bodyPacket (cellBody buf stray)))
      (hrest : Drains stray (buf.behind (cellNeed buf stray))) : Drains stray buf
  | drops {buf : RingBuf} (htwo : 2 ≤ buf.length) (hwhole : cellNeed buf stray ≤ buf.length)
      (hzero : 0 ∉ cellBody buf stray) (hrest : (buf.behind (cellNeed buf stray)).Short) :
      Drains stray buf

section Step

variable {env : Env} {stray : ℕ → Byte} {buf : RingBuf}

theorem startAt_behind (hroom : buf.mSize + 1 < 2 ^ 32) {pos k : ℕ}
    (hpos : pos % (buf.mSize + 1) = (buf.mStart + k) % (buf.mSize + 1)) :
    buf.startAt pos = some (buf.behind k) := by
  have hmodulus : ¬ u32 (buf.mSize + 1) = 0 := by
    rw [RingBuf.modulus_eq hroom]
    omega
  rw [RingBuf.startAt, dif_neg hmodulus, Option.some.injEq]
  simp only [RingBuf.behind, RingBuf.modulus_eq hroom, hpos]

theorem contents_behind (hroom : buf.mSize + 1 < 2 ^ 32) {k : ℕ} (hk : k ≤ buf.length) :
    (buf.behind k).contents = buf.contents.drop k := by
  obtain ⟨next, hnext, -, hcontents⟩ := RingBuf.startAt_add hroom hk
  rw [startAt_behind hroom rfl, Option.some.injEq] at hnext
  rw [hnext, hcontents]

theorem length_behind (hroom : buf.mSize + 1 < 2 ^ 32) {k : ℕ} (hk : k ≤ buf.length) :
    (buf.behind k).length = buf.length - k := by
  rw [← RingBuf.length_contents, contents_behind hroom hk, List.length_drop,
    RingBuf.length_contents]

/-- What one call makes of the frame it sees. -/
theorem pickEvent_behind (hroom : buf.mSize + 65536 + 65536 < 2 ^ 32) (event : Event)
    (log : List ℕ) :
    ((pickEvent (env.over stray).spared buf event).run log).1.map Picked.result =
      some (if buf.length < 2 ∨ buf.length < cellNeed buf stray then (false, event, buf)
      else if 0 ∈ cellBody buf stray then
        if WellFormed (bodyPacket (cellBody buf stray)) then
          (true, ⟨bodyName (cellBody buf stray), bodyPacket (cellBody buf stray)⟩,
            buf.behind (cellNeed buf stray))
        else (false, event, buf)
      else (false, event, buf.behind (cellNeed buf stray))) := by
  have hneed := cellNeed_le buf stray
  have hthree : 3 ≤ cellNeed buf stray := le_max_left _ _
  have hstart := buf.hstart
  have hmod : (buf.mStart + 2) % (buf.mSize + 1) < buf.mSize + 1 :=
    Nat.mod_lt _ (Nat.succ_pos _)
  have hfound : buf.startAt (u32 ((buf.mStart + 2) % (buf.mSize + 1) +
      (cellNeed buf stray - 2))) = some (buf.behind (cellNeed buf stray)) := by
    apply startAt_behind (by omega)
    rw [u32_of_lt (by omega), Nat.mod_add_mod, Nat.add_assoc, Nat.add_sub_cancel' (by omega)]
  have hdropped : buf.startAt (u32 (buf.mStart + cellNeed buf stray)) =
      some (buf.behind (cellNeed buf stray)) := by
    apply startAt_behind (by omega)
    rw [u32_of_lt (by omega)]
  rw [pickEvent_clean (by omega), hfound, hdropped]
  split
  · rfl
  · split
    · split
      · rfl
      · rfl
    · rfl

/-- A call that finds nothing ends the loop. -/
theorem handOver_of_not_found {env : Env} {fuel : ℕ} {event : Event} {log : List ℕ}
    {next : RingBuf}
    (hpick : ((pickEvent env buf event).run log).1.map Picked.result =
      some (false, event, next)) :
    ((handOver env (fuel + 1) buf event).run log).1 = some ([], next, event) := by
  obtain ⟨picked, hpicked, hresult⟩ := Option.map_eq_some_iff.mp hpick
  rw [Picked.result, Prod.mk.injEq, Prod.mk.injEq] at hresult
  obtain ⟨hfound, hevent, hbuf⟩ := hresult
  rw [handOver, Probe.run_bind, hpicked]
  simp only [hfound, hevent, hbuf, Bool.false_eq_true, if_false, Probe.run_pure]

/-- A call that finds an event hands it over, and the loop goes on. -/
theorem handOver_of_found {env : Env} {fuel : ℕ} {event found : Event} {log : List ℕ}
    {next : RingBuf}
    (hpick : ((pickEvent env buf event).run log).1.map Picked.result =
      some (true, found, next)) :
    ∃ later, ((handOver env (fuel + 1) buf event).run log).1 =
      ((handOver env fuel next found).run later).1.map
        fun (handed, last) => (found :: handed, last) := by
  obtain ⟨picked, hpicked, hresult⟩ := Option.map_eq_some_iff.mp hpick
  rw [Picked.result, Prod.mk.injEq, Prod.mk.injEq] at hresult
  obtain ⟨hfound, rfl, rfl⟩ := hresult
  refine ⟨((pickEvent env buf event).run log).2, ?_⟩
  rw [handOver, Probe.run_bind, hpicked]
  simp only [hfound, if_true]
  rfl

end Step

/-! ## Cases of `Drains` -/

section Cases

variable {stray : ℕ → Byte} {buf : RingBuf}

theorem drains_of_stays
    (hstays : buf.length < 2 ∨ buf.length < cellNeed buf stray ∨
      0 ∈ cellBody buf stray ∧ ¬ WellFormed (bodyPacket (cellBody buf stray))) :
    Drains stray buf ↔ buf.Short := by
  constructor
  · intro hdrains
    cases hdrains with
    | stays hshort _ => exact hshort
    | delivers htwo hwhole hzero hvalid _ =>
        rcases hstays with h | h | h
        · omega
        · omega
        · exact absurd hvalid h.2
    | drops htwo hwhole hzero _ =>
        rcases hstays with h | h | h
        · omega
        · omega
        · exact absurd h.1 hzero
  · exact fun hshort => .stays hshort hstays

section Whole

variable (htwo : 2 ≤ buf.length) (hwhole : cellNeed buf stray ≤ buf.length)

include htwo hwhole

theorem drains_of_delivers (hzero : 0 ∈ cellBody buf stray)
    (hvalid : WellFormed (bodyPacket (cellBody buf stray))) :
    Drains stray buf ↔ Drains stray (buf.behind (cellNeed buf stray)) := by
  constructor
  · intro hdrains
    cases hdrains with
    | stays _ hstays =>
        rcases hstays with h | h | h
        · omega
        · omega
        · exact absurd hvalid h.2
    | delivers _ _ _ _ hrest => exact hrest
    | drops _ _ hnozero _ => exact absurd hzero hnozero
  · exact .delivers htwo hwhole hzero hvalid

theorem drains_of_drops (hzero : 0 ∉ cellBody buf stray) :
    Drains stray buf ↔ (buf.behind (cellNeed buf stray)).Short := by
  constructor
  · intro hdrains
    cases hdrains with
    | stays _ hstays =>
        rcases hstays with h | h | h
        · omega
        · omega
        · exact absurd h.1 hzero
    | delivers _ _ hthere _ _ => exact absurd hthere hzero
    | drops _ _ _ hrest => exact hrest
  · exact .drops htwo hwhole hzero

end Whole

end Cases

/-- The run lemma, by induction on the fuel, which the length held bounds. -/
theorem handOver_short_iff {env : Env} {stray : ℕ → Byte} {fuel : ℕ} {buf : RingBuf}
    (hroom : buf.mSize + 65536 + 65536 < 2 ^ 32) (hfuel : buf.length < fuel) (event : Event)
    (log : List ℕ) :
    ∃ handed last lastEvent, ((handOver (env.over stray).spared fuel buf event).run log).1 =
      some (handed, last, lastEvent) ∧ (last.Short ↔ Drains stray buf) := by
  induction fuel generalizing buf event log with
  | zero => omega
  | succ fuel ih =>
      have hpick := @pickEvent_behind env stray buf hroom event log
      split at hpick
      · rename_i hcut
        refine ⟨_, _, _, handOver_of_not_found hpick, ?_⟩
        exact (drains_of_stays (hcut.imp_right .inl)).symm
      · rename_i hcut
        obtain ⟨htwo, hwhole⟩ := not_or.mp hcut
        rw [not_lt] at htwo hwhole
        split at hpick
        · rename_i hzero
          split at hpick
          · rename_i hvalid
            have hthree : 3 ≤ cellNeed buf stray := le_max_left _ _
            have hlength := @length_behind buf (by omega) _ hwhole
            obtain ⟨later, hrun⟩ := @handOver_of_found buf _ fuel event _ log _ hpick
            obtain ⟨handed, last, lastEvent, hlast, hiff⟩ :=
              @ih (buf.behind (cellNeed buf stray)) hroom (by omega) _ later
            rw [hlast] at hrun
            exact ⟨_, last, lastEvent, hrun,
              hiff.trans (drains_of_delivers htwo hwhole hzero hvalid).symm⟩
          · rename_i hvalid
            refine ⟨_, _, _, handOver_of_not_found hpick, ?_⟩
            exact (drains_of_stays (.inr (.inr ⟨hzero, hvalid⟩))).symm
        · rename_i hzero
          refine ⟨_, _, _, handOver_of_not_found hpick, ?_⟩
          exact (drains_of_drops htwo hwhole hzero).symm

theorem put_mSize {buf next : RingBuf} {string : List Byte} {accepted : Bool}
    (hput : buf.put string = some (accepted, next)) : next.mSize = buf.mSize := by
  rw [RingBuf.put] at hput
  split at hput
  · cases hput
    rfl
  · obtain ⟨last, hbytes, hlast⟩ := Option.map_eq_some_iff.mp hput
    cases hlast
    exact (putBytes_mSize hbytes).1

/-- For every state of the buffer of a connection, whatever lies past its array, and
every chunk that `put` accepts, the loop stops with less than a whole frame left, if
and only if the frames it reads are delivered one by one up to such a rest, at most
the last of them being dropped. -/
theorem handOver_drains_iff (env : Env) (stray : ℕ → Byte) {buf next : RingBuf}
    {chunk : List Byte} (hsize : buf.mSize = connectionBufferSize - 1)
    (hput : buf.put chunk = some (true, next)) (event : Event) (log : List ℕ) :
    (∃ handed last lastEvent,
        ((handOver (env.over stray).spared (next.length + 1) next event).run log).1 =
          some (handed, last, lastEvent) ∧ last.Short) ↔ Drains stray next := by
  have hnext : next.mSize = connectionBufferSize - 1 := (put_mSize hput).trans hsize
  obtain ⟨handed, last, lastEvent, hrun, hiff⟩ := @handOver_short_iff env stray
    (next.length + 1) next (by rw [hnext]; decide) (Nat.lt_succ_self _) event log
  rw [← hiff]
  constructor
  · rintro ⟨handed', last', lastEvent', hrun', hshort⟩
    cases hrun.symm.trans hrun'
    exact hshort
  · exact fun hshort => ⟨handed, last, lastEvent, hrun, hshort⟩

/-! ## A fresh buffer -/

section InPlace

variable {stray : ℕ → Byte} {buf : RingBuf} (hroom : buf.mSize + 1 < 2 ^ 32)
  (htwo : 2 ≤ buf.length)

include hroom htwo

/-- A length that the end of the array does not cut is read as it is. -/
theorem cellNeed_eq (hheader : buf.mStart + 1 ≤ buf.mSize) : cellNeed buf stray = buf.need := by
  obtain ⟨high, low, hbytes, hshows⟩ :=
    @shows_header buf (Env.ample.over stray) hroom htwo hheader
  have hsecond : u32 (buf.mStart + 1) = buf.mStart + 1 := u32_of_lt (by omega)
  rw [cellNeed, RingBuf.need, hbytes, hsecond, ← @value_over .ample buf stray [],
    ← @value_over .ample buf stray [], hshows.head, hshows.tail.head]

/-- In place, so is what follows it. -/
theorem cellBody_eq (hplace : buf.InPlace) (hwhole : buf.need ≤ buf.length) :
    cellBody buf stray = buf.body := by
  have hheader : buf.mStart + 1 ≤ buf.mSize := (hplace.resolve_left (by omega)).1
  have hthree := buf.three_le_need
  have hend := body_end_le hplace htwo hwhole
  have hshows := @shows_contents buf (Env.ample.over stray) hroom 2 (buf.need - 2) (by omega) hend
  have hlength := RingBuf.length_body hwhole
  apply List.ext_getElem
  · rw [length_cellBody, cellNeed_eq hroom htwo hheader, hlength]
  · intro k hk hbody
    have hvalue := hshows k buf.body[k] (List.getElem?_eq_getElem hbody) []
    rw [← hvalue, value_over]
    simp only [cellBody, List.getElem_map, List.getElem_range]
    rw [u32_of_lt (by omega)]

end InPlace

/-- The buffer of a fresh connection, after a first chunk. -/
theorem exists_put {dt : List Byte} (hdt : dt.length = connectionBufferSize)
    {chunk : List Byte} (hchunk : chunk.length ≤ connectionBufferSize - 1) :
    ∃ next, (connectionBuffer dt hdt).put chunk = some (true, next) ∧
      next.mSize = connectionBufferSize - 1 ∧ next.mStart = 0 ∧ next.contents = chunk := by
  have hempty : (connectionBuffer dt hdt).contents = [] := rfl
  have hlength : (connectionBuffer dt hdt).length = 0 := rfl
  obtain ⟨next, hput, hsize, hcontents⟩ := @put_of_le (connectionBuffer dt hdt)
    (by change connectionBufferSize - 1 + 1 < 2 ^ 32; decide) chunk
    (by rw [hlength, Nat.zero_add]; exact hchunk)
  exact ⟨next, hput, hsize, put_mStart hput, by rw [hcontents, hempty, List.nil_append]⟩

/-- What is read of a head frame that ends before the array does, by its contents. -/
theorem cells_eq {stray : ℕ → Byte} {buf : RingBuf}
    (hsize : buf.mSize = connectionBufferSize - 1) (htwo : 2 ≤ buf.length)
    (hwhole : buf.need ≤ buf.length) (hplace : buf.mStart + buf.need ≤ connectionBufferSize) :
    cellNeed buf stray = buf.need ∧ cellBody buf stray = buf.body := by
  have hcells : buf.mSize + 1 = connectionBufferSize := by
    rw [hsize]
    rfl
  have hroom : buf.mSize + 1 < 2 ^ 32 := by
    rw [hcells]
    decide
  have hheader : buf.mStart + 1 ≤ buf.mSize := by
    have hthree := buf.three_le_need
    omega
  refine ⟨cellNeed_eq hroom htwo hheader, cellBody_eq hroom htwo ?_ hwhole⟩
  exact .inr ⟨hheader, .inr (.inl (by omega))⟩

/-- A frame that is delivered and one without a NUL, in a fresh buffer. -/
theorem handOver_drains_iff_pair :
    ∃ next, (connectionBuffer (List.replicate 4096 0) List.length_replicate).put pair =
        some (true, next) ∧
      ∃ handed last lastEvent,
        ((handOver (Env.ample.over fun _ => 0).spared (next.length + 1) next ⟨[], []⟩).run
          []).1 = some (handed, last, lastEvent) ∧ last.Short := by
  obtain ⟨next, hput, hsize, hstart, hcontents⟩ :=
    @exists_put (List.replicate 4096 0) List.length_replicate pair (by decide)
  refine ⟨next, hput, (@handOver_drains_iff .ample (fun _ => 0) _ next pair rfl hput
    ⟨[], []⟩ []).mpr ?_⟩
  have hroom : next.mSize + 1 < 2 ^ 32 := by
    rw [hsize]
    decide
  have hlength : next.length = 11 := by
    rw [← next.length_contents, hcontents]
    rfl
  have hneed : next.need = 6 := by
    rw [RingBuf.need, hcontents]
    rfl
  have hbody : next.body = [112, 0, 1, 42] := by
    rw [RingBuf.body, hcontents, hneed]
    rfl
  obtain ⟨hcellNeed, hcellBody⟩ := @cells_eq (fun _ => 0) next hsize (by omega) (by omega)
    (by rw [hstart, hneed]; decide)
  have hrest : (next.behind 6).contents = [0, 5, 7, 7, 7] := by
    rw [contents_behind hroom (by omega), hcontents]
    rfl
  have hrestLength : (next.behind 6).length = 5 := by
    rw [← (next.behind 6).length_contents, hrest]
    rfl
  have hrestNeed : (next.behind 6).need = 5 := by
    rw [RingBuf.need, hrest]
    rfl
  have hrestBody : (next.behind 6).body = [7, 7, 7] := by
    rw [RingBuf.body, hrest, hrestNeed]
    rfl
  have hrestStart : (next.behind 6).mStart = 6 := by
    change (next.mStart + 6) % (next.mSize + 1) = 6
    rw [hstart, hsize]
    rfl
  obtain ⟨hrestCellNeed, hrestCellBody⟩ := @cells_eq (fun _ => 0) (next.behind 6) hsize
    (by omega) (by omega) (by rw [hrestStart, hrestNeed]; decide)
  have hlast : ((next.behind 6).behind 5).length < 2 := by
    rw [@length_behind (next.behind 6) hroom 5 (by omega)]
    omega
  refine .delivers (by omega) (by omega) ?_ ?_ ?_
  · rw [hcellBody, hbody]
    decide
  · rw [hcellBody, hbody]
    decide +kernel
  · rw [hcellNeed, hneed]
    refine .drops (by omega) (by omega) ?_ ?_
    · rw [hrestCellBody, hrestBody]
      decide
    · rw [hrestCellNeed, hrestNeed]
      exact .inl hlast

/-- The frame `00 03 01` has no NUL: it is dropped, and the whole frame behind it waits. -/
theorem not_short_of_drop :
    ∃ next, (connectionBuffer (List.replicate 4096 0) List.length_replicate).put
        [0, 3, 1, 0, 3, 0] = some (true, next) ∧
      ∃ last, ((handOver (Env.ample.over fun _ => 0).spared (next.length + 1) next
          ⟨[], []⟩).run []).1 = some ([], last, ⟨[], []⟩) ∧
        last.contents = [0, 3, 0] ∧ ¬ last.Short := by
  obtain ⟨next, hput, hsize, hstart, hcontents⟩ :=
    @exists_put (List.replicate 4096 0) List.length_replicate [0, 3, 1, 0, 3, 0] (by decide)
  have hlength : next.length = 6 := by
    rw [← next.length_contents, hcontents]
    rfl
  have hneed : next.need = 3 := by
    rw [RingBuf.need, hcontents]
    rfl
  have hbody : next.body = [1] := by
    rw [RingBuf.body, hcontents, hneed]
    rfl
  obtain ⟨hcellNeed, hcellBody⟩ := @cells_eq (fun _ => 0) next hsize (by omega) (by omega)
    (by rw [hstart, hneed]; decide)
  have hpick := @pickEvent_behind .ample (fun _ => 0) next (by rw [hsize]; decide) ⟨[], []⟩ []
  rw [if_neg (by omega), hcellBody, hbody, if_neg (by decide), hcellNeed, hneed] at hpick
  have hrest : (next.behind 3).contents = [0, 3, 0] := by
    rw [contents_behind (by rw [hsize]; decide) (by omega), hcontents]
    rfl
  refine ⟨next, hput, next.behind 3, handOver_of_not_found hpick, hrest, ?_⟩
  rw [RingBuf.Short, RingBuf.need, ← RingBuf.length_contents, hrest]
  decide

end Sednl.Ring
