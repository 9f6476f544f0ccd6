import Sednl.Ring.Wedge

/-!
# Buffers that cannot be told apart

Two buffers of one capacity that start at the same cell and have the same contents
answer every call alike, whatever fails and whatever lies past their arrays: the
cells that may differ hold nothing, and nothing reads them.  `read_connection` then
reads the same cells of both and hands over the same events.
-/

namespace Sednl.Ring

open Sednl.Endian
open Sednl.Memory
open Sednl.Tag
open Sednl.Word
open Sednl.Circular

/-- Two buffers that stand alike; the cells that hold nothing may differ. -/
structure Twin (left right : RingBuf) : Prop where
  hsize : left.mSize = right.mSize
  hstart : left.mStart = right.mStart
  hcontents : left.contents = right.contents

theorem Twin.symm {left right : RingBuf} (htwin : Twin left right) : Twin right left :=
  ⟨htwin.hsize.symm, htwin.hstart.symm, htwin.hcontents.symm⟩

/-! ## Loops over the same cells -/

section Loops

variable {left right : Region Byte} {alloc : ℕ → Bool}

theorem same_tail {remaining dtIdx : ℕ} (hsame : ∀ k < remaining + 1, ∀ log,
      left.value log (dtIdx + k) = right.value log (dtIdx + k)) :
    ∀ k < remaining, ∀ log, left.value log (dtIdx + 1 + k) = right.value log (dtIdx + 1 + k) := by
  intro k hk log
  rw [Nat.add_assoc, Nat.add_comm 1]
  exact hsame (k + 1) (by omega) log

theorem takeName_congr (remaining : ℕ) {dtIdx : ℕ} (hindex : dtIdx + remaining < 2 ^ 32)
    (hsame : ∀ k < remaining, ∀ log, left.value log (dtIdx + k) = right.value log (dtIdx + k))
    (name : List Byte) (counters log : List ℕ) :
    (takeName left alloc remaining dtIdx name counters).run log =
      (takeName right alloc remaining dtIdx name counters).run log := by
  induction remaining generalizing dtIdx name counters log with
  | zero => rfl
  | succ remaining ih =>
      have hstep : u32 (dtIdx + 1) = dtIdx + 1 := u32_of_lt (by omega)
      have hfirst : ∀ log, left.value log dtIdx = right.value log dtIdx :=
        hsame 0 (Nat.succ_pos _)
      rw [takeName_run, takeName_run, hfirst, hfirst, hstep]
      rw [@ih (dtIdx + 1) (by omega) (same_tail hsame)]

theorem takePacket_congr (remaining : ℕ) {dtIdx : ℕ} (hindex : dtIdx + remaining < 2 ^ 32)
    (hsame : ∀ k < remaining, ∀ log, left.value log (dtIdx + k) = right.value log (dtIdx + k))
    (packet : List Byte) (counters log : List ℕ) :
    (takePacket left alloc remaining dtIdx packet counters).run log =
      (takePacket right alloc remaining dtIdx packet counters).run log := by
  induction remaining generalizing dtIdx packet counters log with
  | zero => rfl
  | succ remaining ih =>
      have hstep : u32 (dtIdx + 1) = dtIdx + 1 := u32_of_lt (by omega)
      have hfirst : left.value log dtIdx = right.value log dtIdx :=
        hsame 0 (Nat.succ_pos _) log
      rw [takePacket_run, takePacket_run, hfirst, hstep]
      rw [@ih (dtIdx + 1) (by omega) (same_tail hsame)]

end Loops

/-! ## One call -/

/-- Two answers of `pick_event` that agree in all but the buffers' cells. -/
structure Picked.Alike (left right : Picked) : Prop where
  hfound : left.found = right.found
  hevent : left.event = right.event
  hstart : left.buf.mStart = right.buf.mStart

theorem exists_alike {left right picked : Picked} {log later : List ℕ}
    (hpick : (some left, log) = (some picked, later)) (halike : left.Alike right) :
    ∃ picked', (some right, log) = (some picked', later) ∧ picked.Alike picked' := by
  obtain ⟨hpicked, rfl⟩ := Prod.mk.inj hpick
  obtain rfl := Option.some.inj hpicked
  exact ⟨right, rfl, halike⟩

/-- A cell that holds a byte shows it. -/
theorem value_contents {buf : RingBuf} {env : Env} (hroom : buf.mSize + 1 < 2 ^ 32)
    {offset : ℕ} {byte : Byte} (hbyte : buf.contents[offset]? = some byte) (log : List ℕ) :
    (buf.memory env).value log ((buf.mStart + offset) % (buf.mSize + 1)) = byte := by
  obtain ⟨hoffset, _⟩ := List.getElem?_eq_some_iff.mp hbyte
  rw [RingBuf.length_contents] at hoffset
  have hfirst : ((buf.contents.drop offset).take 1)[0]? = some byte := by
    rw [List.getElem?_take_of_lt (Nat.succ_pos 0), List.getElem?_drop, Nat.add_zero, hbyte]
  exact @shows_contents buf env hroom offset 1 (by omega)
    (Nat.mod_lt _ (Nat.succ_pos _)) 0 byte hfirst log

section Twin

variable {left right : RingBuf} (htwin : Twin left right)

include htwin

theorem Twin.length_eq : left.length = right.length := by
  rw [← left.length_contents, ← right.length_contents, htwin.hcontents]

theorem Twin.mEnd_eq : left.mEnd = right.mEnd := by
  have hleft := add_distance (Nat.lt_succ_of_le left.hstart) (Nat.lt_succ_of_le left.hend)
  have hright := add_distance (Nat.lt_succ_of_le right.hstart) (Nat.lt_succ_of_le right.hend)
  rw [← RingBuf.length_eq] at hleft hright
  rw [← hleft, ← hright, htwin.hsize, htwin.hstart, htwin.length_eq]

variable (hroom : left.mSize + 65536 < 2 ^ 32)

include hroom

/-- A cell that holds a byte, or lies past the array, reads the same in both. -/
theorem Twin.value_eq (env : Env) {index : ℕ}
    (hindex : left.mSize < index ∨ left.Holds index) (log : List ℕ) :
    (left.memory env).value log index = (right.memory env).value log index := by
  have hsize := htwin.hsize
  rcases hindex with hpast | ⟨offset, hoffset, rfl⟩
  · have hleft : (left.memory env).size ≤ index := by
      rw [Region.size, RingBuf.memory, RingBuf.length_mDt (by omega)]
      exact hpast
    have hright : (right.memory env).size ≤ index := by
      rw [Region.size, RingBuf.memory, RingBuf.length_mDt (by omega), ← hsize]
      exact hpast
    rw [Region.value_of_le hleft, Region.value_of_le hright]
    rfl
  · obtain ⟨byte, hbyte⟩ : ∃ byte, left.contents[offset]? = some byte :=
      ⟨_, List.getElem?_eq_getElem (by rwa [RingBuf.length_contents])⟩
    have hleft := @value_contents left env (by omega) offset byte hbyte log
    rw [htwin.hcontents] at hbyte
    have hright := @value_contents right env (by omega) offset byte hbyte log
    rw [← htwin.hstart, ← hsize] at hright
    exact hleft.trans hright.symm

/-- The cells of a whole head frame behind its length. -/
theorem Twin.value_body (env : Env) {packetLength : ℕ} (hlength : packetLength ≤ left.length)
    {k : ℕ} (hk : k + 2 < packetLength) (log : List ℕ) :
    (left.memory env).value log ((left.mStart + 2) % (left.mSize + 1) + k) =
      (right.memory env).value log ((left.mStart + 2) % (left.mSize + 1) + k) := by
  apply htwin.value_eq hroom
  by_cases hpast : left.mSize < (left.mStart + 2) % (left.mSize + 1) + k
  · exact .inl hpast
  · have haround := Nat.mod_add_mod (left.mStart + 2) (left.mSize + 1) k
    rw [Nat.mod_eq_of_lt (Nat.lt_succ_of_le (not_lt.mp hpast))] at haround
    exact .inr ⟨2 + k, by omega, by rw [haround, Nat.add_assoc]⟩

theorem Twin.startAt {pos : ℕ} {next : RingBuf} (hnext : left.startAt pos = some next) :
    ∃ next', right.startAt pos = some next' ∧ next.mStart = next'.mStart := by
  have hsize := htwin.hsize
  obtain ⟨next', hnext'⟩ := @RingBuf.startAt_isSome right (by omega) pos
  refine ⟨next', hnext', ?_⟩
  rw [RingBuf.startAt] at hnext hnext'
  split at hnext
  · cases hnext
  · split at hnext'
    · cases hnext'
    · obtain rfl := Option.some.inj hnext
      obtain rfl := Option.some.inj hnext'
      simp only [hsize]

variable {env : Env} {event : Event} {log later : List ℕ} {picked : Picked}

theorem pickPacket_twin {packetLength : ℕ} (hbound : packetLength < 65536)
    (hlength : packetLength ≤ left.length) {name : Cursor}
    (hname : name.Follows (packetLength - 2) ((left.mStart + 2) % (left.mSize + 1)))
    (hremaining : name.remaining ≠ 0)
    (hpick : (pickPacket env (left.memory env) left event name).run log = (some picked, later)) :
    ∃ picked', (pickPacket env (right.memory env) right event name).run log =
      (some picked', later) ∧ picked.Alike picked' := by
  obtain ⟨hindex, hle, _⟩ := hname
  have hdt : (left.mStart + 2) % (left.mSize + 1) < left.mSize + 1 :=
    Nat.mod_lt _ (Nat.succ_pos _)
  have hdec : dec32 name.remaining = name.remaining - 1 :=
    dec32_of_pos (Nat.pos_of_ne_zero hremaining) (by omega)
  have hstep : u32 (name.dtIdx + 1) = name.dtIdx + 1 := u32_of_lt (by omega)
  have hpacket := @takePacket_congr (left.memory env) (right.memory env) env.allocs.packet
    (name.remaining - 1) (name.dtIdx + 1) (by omega) (by
      intro k hk log
      have hcell := htwin.value_body hroom env hlength
        (show packetLength - 2 - name.remaining + 1 + k + 2 < packetLength by omega) log
      rwa [show (left.mStart + 2) % (left.mSize + 1) +
        (packetLength - 2 - name.remaining + 1 + k) = name.dtIdx + 1 + k by omega] at hcell)
    [] (name.remaining :: name.counters) log
  simp only [pickPacket, Cursor.nextByte, hdec, hstep, Probe.run_bind, hpacket] at hpick ⊢
  split at hpick
  · rename_i hvalid
    rw [if_pos hvalid]
    split at hpick
    · simp at hpick
    · rename_i next hnext
      obtain ⟨next', hnext', hstart⟩ := htwin.startAt hroom hnext
      rw [hnext']
      rw [Probe.run_ite] at hpick ⊢
      split at hpick
      · rename_i hevent
        rw [if_pos hevent]
        exact exists_alike hpick ⟨rfl, rfl, hstart⟩
      · rename_i hevent
        rw [if_neg hevent]
        exact exists_alike hpick ⟨rfl, rfl, hstart⟩
  · rename_i hvalid
    rw [if_neg hvalid]
    exact exists_alike hpick ⟨rfl, rfl, htwin.hstart⟩

theorem pickFrame_twin {packetLength : ℕ} (hbound : packetLength < 65536)
    (hlength : packetLength ≤ left.length)
    (hpick : (pickFrame env (left.memory env) left event packetLength).run log =
      (some picked, later)) :
    ∃ picked', (pickFrame env (right.memory env) right event packetLength).run log =
      (some picked', later) ∧ picked.Alike picked' := by
  have hsize := htwin.hsize
  have hdt : (left.mStart + 2) % (left.mSize + 1) < left.mSize + 1 :=
    Nat.mod_lt _ (Nat.succ_pos _)
  have hname := @takeName_congr (left.memory env) (right.memory env) env.allocs.name
    (packetLength - 2) ((left.mStart + 2) % (left.mSize + 1)) (by omega)
    (fun k hk log => htwin.value_body hroom env hlength (by omega) log) [] [] log
  have hfollows := @takeName_follows (right.memory env) env.allocs.name (packetLength - 2)
    ((left.mStart + 2) % (left.mSize + 1)) (by omega) [] [] (by simp) log
  rw [pickFrame, RingBuf.round_eq (by omega)] at hpick ⊢
  rw [← htwin.hstart, ← hsize]
  simp only [Probe.run_bind, hname] at hpick ⊢
  generalize (takeName (right.memory env) env.allocs.name (packetLength - 2)
    ((left.mStart + 2) % (left.mSize + 1)) [] []).run log = outcome at hpick hfollows ⊢
  obtain ⟨name, middle⟩ := outcome
  rw [Probe.run_ite] at hpick ⊢
  split at hpick
  · rename_i hok
    rw [if_pos hok]
    rw [Probe.run_ite] at hpick ⊢
    split at hpick
    · rename_i hremaining
      rw [if_pos hremaining]
      split at hpick
      · simp at hpick
      · rename_i next hnext
        obtain ⟨next', hnext', hstart⟩ := htwin.startAt hroom hnext
        rw [hnext']
        exact exists_alike hpick ⟨rfl, rfl, hstart⟩
    · rename_i hremaining
      rw [if_neg hremaining]
      exact pickPacket_twin htwin hroom hbound hlength hfollows hremaining hpick
  · rename_i hok
    rw [if_neg hok]
    exact exists_alike hpick ⟨rfl, rfl, htwin.hstart⟩

/-- A call reads the same cells of both and returns the same. -/
theorem pickEvent_alike (hpick : (pickEvent env left event).run log = (some picked, later)) :
    ∃ picked', (pickEvent env right event).run log = (some picked', later) ∧
      picked.Alike picked' := by
  have hstart := left.hstart
  rw [pickEvent, pickFrom_run] at hpick
  rw [pickEvent, pickFrom_run, ← htwin.hstart, ← htwin.length_eq]
  by_cases hshort : left.length < 2
  · rw [if_pos hshort] at hpick ⊢
    exact exists_alike hpick ⟨rfl, rfl, htwin.hstart⟩
  · have hfirst : ∀ log, (left.memory env).value log left.mStart =
        (right.memory env).value log left.mStart := by
      refine htwin.value_eq hroom env (.inr ⟨0, by omega, ?_⟩)
      exact (Nat.mod_eq_of_lt (Nat.lt_succ_of_le hstart)).symm
    have hsecond : ∀ log, (left.memory env).value log (left.mStart + 1) =
        (right.memory env).value log (left.mStart + 1) := by
      apply htwin.value_eq hroom env
      by_cases hheader : left.mSize < left.mStart + 1
      · exact .inl hheader
      · exact .inr ⟨1, by omega, (Nat.mod_eq_of_lt (by omega)).symm⟩
    rw [if_neg hshort, hfirst, u32_of_lt (show left.mStart + 1 < 2 ^ 32 by omega), hsecond]
      at hpick
    rw [if_neg hshort, u32_of_lt (show left.mStart + 1 < 2 ^ 32 by omega)]
    generalize hdeclared : env.host.ntoh 2 (env.host.load
      [(right.memory env).value log left.mStart,
        (right.memory env).value (left.mStart :: log) (left.mStart + 1)]) = declared
      at hpick ⊢
    have hbound : declared < 65536 := by
      rw [← hdeclared]
      exact env.host.ntoh_lt 2 _
    simp only at hpick ⊢
    by_cases hcut : left.length < max 3 declared
    · rw [if_pos hcut] at hpick ⊢
      exact exists_alike hpick ⟨rfl, rfl, htwin.hstart⟩
    · rw [if_neg hcut] at hpick ⊢
      exact pickFrame_twin htwin hroom (by omega) (not_lt.mp hcut) hpick

theorem Twin.pick (hpick : (pickEvent env left event).run log = (some picked, later)) :
    ∃ picked', (pickEvent env right event).run log = (some picked', later) ∧
      picked.found = picked'.found ∧ picked.event = picked'.event ∧
      Twin picked.buf picked'.buf := by
  have hsize := htwin.hsize
  obtain ⟨picked', hpick', hfound, hevent, hstart⟩ := pickEvent_alike htwin hroom hpick
  refine ⟨picked', hpick', hfound, hevent, ?_⟩
  obtain ⟨found, hrun, hremoves⟩ :=
    @pickFrom_removes left env (left.memory env) event hroom log
  obtain rfl : picked = found := by
    rw [← pickEvent, hpick] at hrun
    exact Option.some.inj hrun
  obtain ⟨found', hrun', hremoves'⟩ :=
    @pickFrom_removes right env (right.memory env) event (by omega) log
  obtain rfl : picked' = found' := by
    rw [← pickEvent, hpick'] at hrun'
    exact Option.some.inj hrun'
  have hkept := (pickFrom_restarted hrun).kept
  have hkept' := (pickFrom_restarted hrun').kept
  have hlength : picked.buf.length = picked'.buf.length := by
    rw [RingBuf.length_eq, RingBuf.length_eq, hkept.1, hkept'.1, hkept.2, hkept'.2, hstart,
      hsize, htwin.mEnd_eq]
  obtain ⟨k, hk, hdrop⟩ := hremoves.hcontents
  obtain ⟨k', hk', hdrop'⟩ := hremoves'.hcontents
  have hlengths := congrArg List.length hdrop
  have hlengths' := congrArg List.length hdrop'
  rw [List.length_drop, RingBuf.length_contents, RingBuf.length_contents] at hlengths hlengths'
  have hwhole := htwin.length_eq
  obtain rfl : k = k' := by omega
  exact ⟨by rw [hkept.1, hkept'.1, hsize], hstart, by rw [hdrop, hdrop', htwin.hcontents]⟩

theorem Twin.put {chunk : List Byte} (hchunk : chunk.length ≤ 512) {accepted : Bool}
    {next : RingBuf} (hput : left.put chunk = some (accepted, next)) :
    ∃ next', right.put chunk = some (accepted, next') ∧ Twin next next' := by
  have hsize := htwin.hsize
  have hlength := htwin.length_eq
  have hle := left.length_le
  by_cases hfits : left.length + chunk.length ≤ left.mSize
  · obtain ⟨last, hlast, hlastSize, hcontents⟩ := put_of_le (by omega) hfits
    obtain ⟨rfl, rfl⟩ := Prod.mk.inj (Option.some.inj (hput.symm.trans hlast))
    obtain ⟨last', hlast', hlastSize', hcontents'⟩ := @put_of_le right (by omega) chunk (by omega)
    refine ⟨last', hlast', by rw [hlastSize, hlastSize', hsize], ?_, ?_⟩
    · rw [put_mStart hlast, put_mStart hlast', htwin.hstart]
    · rw [hcontents, hcontents', htwin.hcontents]
  · rw [put_of_lt (by omega) (not_le.mp hfits)] at hput
    obtain ⟨rfl, rfl⟩ := Prod.mk.inj (Option.some.inj hput)
    exact ⟨right, put_of_lt (by omega) (by omega), htwin⟩

end Twin

/-! ## Whole calls of `read_connection` -/

section Runs

variable {env : Env}

theorem handOver_twin {fuel : ℕ} {left right : RingBuf} (htwin : Twin left right)
    (hroom : left.mSize + 65536 < 2 ^ 32) {event lastEvent : Event} {log later : List ℕ}
    {handed : List Event} {last : RingBuf}
    (hrun : (handOver env fuel left event).run log = (some (handed, last, lastEvent), later)) :
    ∃ last', (handOver env fuel right event).run log =
      (some (handed, last', lastEvent), later) ∧ Twin last last' := by
  induction fuel generalizing left right event log handed with
  | zero => simp [handOver] at hrun
  | succ fuel ih =>
      obtain ⟨picked, middle, hpick, hcases⟩ := handOver_cases hrun
      obtain ⟨picked', hpick', hfound, hevent, hnext⟩ := htwin.pick hroom hpick
      rw [handOver, Probe.run_bind, hpick']
      simp only [Probe.run_ite, Probe.run_bind, Probe.run_pure, ← hfound, ← hevent]
      rcases hcases with ⟨hanswer, rfl, rfl, rfl, rfl⟩ | ⟨hanswer, rest, rfl, hrest⟩
      · rw [hanswer, if_neg Bool.false_ne_true]
        exact ⟨_, rfl, hnext⟩
      · have hsize := (pickFrom_restarted (congrArg Prod.fst hpick)).kept.1
        obtain ⟨last', hlast', hlastTwin⟩ := ih hnext (by rwa [hsize]) hrest
        refine ⟨last', ?_, hlastTwin⟩
        rw [hanswer, if_pos rfl, hlast']
        rfl

theorem readChunks_twin {chunks : List (List Byte)}
    (hchunks : ∀ chunk ∈ chunks, chunk.length ≤ 512) {left right : RingBuf}
    (htwin : Twin left right) (hroom : left.mSize + 65536 < 2 ^ 32) {event : Event}
    {log later : List ℕ} {handed : List Event} {last : RingBuf}
    (hrun : (readChunks env chunks left event).run log = (some (handed, last), later)) :
    ∃ last', (readChunks env chunks right event).run log = (some (handed, last'), later) ∧
      Twin last last' := by
  induction chunks generalizing left right event log handed with
  | nil =>
      obtain ⟨hresult, rfl⟩ := Prod.mk.inj hrun
      cases hresult
      exact ⟨right, rfl, htwin⟩
  | cons chunk chunks ih =>
      have hchunk := hchunks chunk (List.mem_cons_self ..)
      obtain ⟨accepted, next, hput, hsize⟩ := put_isSome hroom hchunk
      obtain ⟨next', hput', hnext⟩ := htwin.put hroom hchunk hput
      have hlength := hnext.length_eq
      rw [readChunks, hput] at hrun
      rw [readChunks, hput']
      simp only [Probe.run_bind] at hrun ⊢
      rw [← hlength]
      cases hhanded : (handOver env (next.length + 1) next event).run log with
      | mk answer middle =>
          rw [hhanded] at hrun
          cases answer with
          | none => simp at hrun
          | some result =>
              obtain ⟨first, settled, lastEvent⟩ := result
              obtain ⟨settled', hhanded', hsettled⟩ :=
                handOver_twin hnext (by rwa [hsize]) hhanded
              rw [hhanded']
              simp only [Probe.run_bind, Probe.run_pure] at hrun ⊢
              obtain ⟨hresult, rfl⟩ := Prod.mk.inj hrun
              obtain ⟨⟨rest, state⟩, hrest, heq⟩ := Option.map_eq_some_iff.mp hresult
              obtain ⟨rfl, rfl⟩ := Prod.mk.inj heq
              have hsettledSize : settled.mSize = next.mSize := by
                obtain ⟨_, _, _, hagain, hsame⟩ := @handOver_isSome env (next.length + 1) next
                  (by rwa [hsize]) (Nat.lt_succ_self _) event log
                rw [hhanded] at hagain
                cases hagain
                exact hsame
              obtain ⟨last', hlast', hlastTwin⟩ :=
                ih (fun chunk hmem => hchunks chunk (List.mem_cons_of_mem _ hmem)) hsettled
                  (by rwa [hsettledSize, hsize]) (Prod.ext hrest rfl)
              refine ⟨last', ?_, hlastTwin⟩
              rw [hlast']
              rfl

end Runs

end Sednl.Ring
