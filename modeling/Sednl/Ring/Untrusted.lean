import Sednl.Library.Incremental
import Sednl.Ring.Wedge

/-!
# Streams from anybody

A peer may send any bytes.  What its stream says is settled by the stream alone:
frame after frame, one without a NUL is skipped, and nothing is read behind one
whose packet is not valid.  However the bytes come in, a connection hands over
the events of its stream from the first on, with a name and a valid packet each,
as long as the frames are in place.
-/

namespace Sednl.Ring

open Sednl.Endian
open Sednl.Memory
open Sednl.Tag
open Sednl.Word
open Sednl.Circular
open Sednl.Grammar
open Sednl.Incremental
open Sednl.Transition

/-! ## What a stream says -/

/-- The head frame of a stream and what follows it: an event, or nothing for a
frame without a NUL.  A frame that is not whole, or whose packet is not valid, is
not taken. -/
def headFrame (stream : List Byte) : Option (Option Event × List Byte) :=
  if stream.length < 2 ∨ stream.length < frameLength stream then none
  else if 0 ∈ frameBody stream then
    if WellFormed (bodyPacket (frameBody stream)) then
      some (some ⟨bodyName (frameBody stream), bodyPacket (frameBody stream)⟩, nextFrame stream)
    else none
  else some (none, nextFrame stream)

def decode (stream : List Byte) : List Event :=
  (parse headFrame stream).reduceOption

section Stable

variable {stream rest : List Byte} {item : Option Event}

theorem headFrame_whole (hhead : headFrame stream = some (item, rest)) :
    2 ≤ stream.length ∧ frameLength stream ≤ stream.length ∧ rest = nextFrame stream := by
  rw [headFrame] at hhead
  split at hhead
  · cases hhead
  · rename_i hcut
    obtain ⟨htwo, hwhole⟩ := not_or.mp hcut
    refine ⟨not_lt.mp htwo, not_lt.mp hwhole, ?_⟩
    split at hhead
    · split at hhead
      · cases hhead
        rfl
      · cases hhead
    · cases hhead
      rfl

theorem three_le_frameLength (stream : List Byte) : 3 ≤ frameLength stream :=
  le_max_left _ _

/-- The length of a frame stands in its first two bytes. -/
theorem frameLength_append (htwo : 2 ≤ stream.length) (more : List Byte) :
    frameLength (stream ++ more) = frameLength stream := by
  rw [frameLength, List.take_append_of_le_length htwo, frameLength]

theorem frameBody_append (htwo : 2 ≤ stream.length)
    (hwhole : frameLength stream ≤ stream.length) (more : List Byte) :
    frameBody (stream ++ more) = frameBody stream := by
  rw [frameBody, frameLength_append htwo, List.drop_append_of_le_length htwo,
    List.take_append_of_le_length (by rw [List.length_drop]; omega), frameBody]

theorem stable_headFrame : Stable headFrame where
  hshorter := by
    intro stream item rest hhead
    obtain ⟨htwo, hwhole, rfl⟩ := headFrame_whole hhead
    have hthree := three_le_frameLength stream
    rw [nextFrame, List.length_drop]
    omega
  hmore := by
    intro stream item rest more hhead
    obtain ⟨htwo, hwhole, rfl⟩ := headFrame_whole hhead
    have hnext : nextFrame (stream ++ more) = nextFrame stream ++ more := by
      rw [nextFrame, frameLength_append htwo, List.drop_append_of_le_length hwhole, nextFrame]
    have hcut : ¬ ((stream ++ more).length < 2 ∨
        (stream ++ more).length < frameLength (stream ++ more)) := by
      rw [frameLength_append htwo, List.length_append]
      omega
    rw [headFrame, if_neg (by omega)] at hhead
    rw [headFrame, if_neg hcut, frameBody_append htwo hwhole, hnext]
    split at hhead
    · rename_i hzero
      rw [if_pos hzero]
      split at hhead
      · rename_i hvalid
        obtain ⟨rfl, _⟩ := Prod.mk.inj (Option.some.inj hhead)
        rw [if_pos hvalid]
      · cases hhead
    · rename_i hzero
      obtain ⟨rfl, _⟩ := Prod.mk.inj (Option.some.inj hhead)
      rw [if_neg hzero]

/-- What is read has a name without a NUL and a valid packet. -/
theorem headFrame_sound {event : Event} (hhead : headFrame stream = some (some event, rest)) :
    0 ∉ event.name ∧ WellFormed event.packet := by
  rw [headFrame] at hhead
  split at hhead
  · cases hhead
  · split at hhead
    · split at hhead
      · rename_i hvalid
        cases hhead
        refine ⟨fun hzero => ?_, hvalid⟩
        simpa using List.mem_takeWhile_imp hzero
      · cases hhead
    · cases hhead

theorem takes_sound {items : List (Option Event)} (htakes : Takes headFrame stream items rest)
    {event : Event} (hevent : some event ∈ items) : 0 ∉ event.name ∧ WellFormed event.packet := by
  induction htakes with
  | nothing => cases hevent
  | next htakes hhead ih =>
      rcases List.mem_append.mp hevent with hbefore | hlast
      · exact ih hbefore
      · obtain rfl := List.mem_singleton.mp hlast
        exact headFrame_sound hhead

/-- What a pick should do, by the head frame. -/
theorem pickContents_eq_headFrame (stream : List Byte) (event : Event) :
    pickContents stream event =
      match headFrame stream with
      | none => (false, event, stream)
      | some (none, rest) => (false, event, rest)
      | some (some found, rest) => (true, found, rest) := by
  rw [pickContents, headFrame, ← frameLength, ← frameBody, ← nextFrame]
  split
  · rfl
  · split
    · split <;> rfl
    · rfl

end Stable

/-! ## A connection under observation -/

/-- A connection, the bytes its buffer has accepted and the events it has handed
over. -/
structure Observed where
  receiver : Receiver
  accepted : List Byte
  handed : List Event

namespace Observed

def start (dt : List Byte) (hdt : dt.length = connectionBufferSize) : Observed :=
  ⟨.start dt hdt, [], []⟩

/-- A chunk is accepted if it fits; an event is handed over if a pick finds it. -/
def step (state : Observed) (action : Receiver.Action) : Option Observed :=
  (state.receiver.step action).map fun next =>
    match action with
    | .recv chunk =>
        if state.receiver.mBuffer.length + chunk.length ≤ connectionBufferSize - 1 then
          ⟨next, state.accepted ++ chunk, state.handed⟩
        else ⟨next, state.accepted, state.handed⟩
    | .pick _ =>
        if next.picking then ⟨next, state.accepted, state.handed ++ [next.event]⟩
        else ⟨next, state.accepted, state.handed⟩

def Allocates (_ : Observed) : Receiver.Action → Prop
  | .recv _ => True
  | .pick env => env.Allocates

end Observed

/-- Where a frame starts `sent` bytes into a stream, with `rest` from there on: its
length is not cut by the end of the array, and neither is what follows, unless it
starts with the array again. -/
def StartsInPlace (sent : ℕ) (rest : List Byte) : Prop :=
  rest.length < 2 ∨ sent % connectionBufferSize + 1 ≤ connectionBufferSize - 1 ∧
    (rest.length < frameLength rest ∨
      sent % connectionBufferSize + frameLength rest ≤ connectionBufferSize ∨
      sent % connectionBufferSize + 2 = connectionBufferSize)

/-- All frames of a stream are in place, where they start. -/
def StreamInPlace (stream : List Byte) : Prop :=
  ∀ items rest, Takes headFrame stream items rest →
    StartsInPlace (stream.length - rest.length) rest

section InPlace

variable {stream : List Byte}

/-- A part of a stream is in place if the whole is. -/
theorem StreamInPlace.of_append {more : List Byte} (hplaced : StreamInPlace (stream ++ more)) :
    StreamInPlace stream := by
  intro items rest htakes
  have hle := htakes.length_le stable_headFrame
  have hstarts := hplaced items (rest ++ more) (htakes.append stable_headFrame more)
  rw [show (stream ++ more).length - (rest ++ more).length = stream.length - rest.length by
    rw [List.length_append, List.length_append]; omega] at hstarts
  by_cases htwo : rest.length < 2
  · exact .inl htwo
  · rcases hstarts with hshort | ⟨hheader, hrest⟩
    · rw [List.length_append] at hshort
      omega
    · rw [frameLength_append (not_lt.mp htwo), List.length_append] at hrest
      refine .inr ⟨hheader, ?_⟩
      by_cases hcut : rest.length < frameLength rest
      · exact .inl hcut
      · exact .inr (hrest.resolve_left (by omega))

/-- A stream that fits in the array is in place. -/
theorem streamInPlace_of_length (hlength : stream.length ≤ connectionBufferSize - 1) :
    StreamInPlace stream := by
  intro items rest htakes
  have hle := htakes.length_le stable_headFrame
  rw [StartsInPlace, connectionBufferSize] at *
  rw [Nat.mod_eq_of_lt (by omega)]
  omega

end InPlace

/-! ## The invariant -/

/-- The buffer holds what follows the frames taken off the stream; between two
chunks nothing is left to take, or a frame was skipped. -/
structure Observed.Follows (state : Observed) (items : List (Option Event)) : Prop where
  htakes : Takes headFrame state.accepted items state.receiver.mBuffer.contents
  hhanded : state.handed = items.reduceOption
  hidle : state.receiver.picking = false →
    headFrame state.receiver.mBuffer.contents = none ∨ none ∈ items

structure Observed.Kept (state : Observed) : Prop where
  hreached : Reached (connectionBufferSize - 1) state.receiver.mBuffer state.accepted
    (state.accepted.length - state.receiver.mBuffer.length)
  hfollows : StreamInPlace state.accepted → ∃ items, state.Follows items

section Kept

variable {state next : Observed}

theorem Observed.kept_start (dt : List Byte) (hdt : dt.length = connectionBufferSize) :
    (Observed.start dt hdt).Kept where
  hreached := reached_connectionBuffer hdt
  hfollows := fun _ => ⟨[], .nothing, rfl, fun _ => .inl rfl⟩

theorem size_lt : connectionBufferSize - 1 < 2 ^ 31 := by decide

/-- A stream in place is in place in the buffer. -/
theorem Observed.Kept.inPlace (hkept : state.Kept) {items : List (Option Event)}
    (hfollows : state.Follows items) (hplaced : StreamInPlace state.accepted) :
    state.receiver.mBuffer.InPlace := by
  obtain ⟨hsize, htally, _⟩ := hkept.hreached.contents_eq size_lt
  have hstart := hkept.hreached.mStart_eq size_lt
  have hstarts := hplaced items _ hfollows.htakes
  have hneed : state.receiver.mBuffer.need =
      frameLength state.receiver.mBuffer.contents := rfl
  have hcells : connectionBufferSize - 1 + 1 = connectionBufferSize := rfl
  rw [StartsInPlace, RingBuf.length_contents] at hstarts
  rw [hcells] at hstart
  rw [RingBuf.InPlace, hstart, hneed, hsize, hcells]
  exact hstarts

/-- In place, a pick that can allocate does what the head frame says. -/
theorem pick_eq {buf : RingBuf} (hsize : buf.mSize = connectionBufferSize - 1)
    (hplace : buf.InPlace) {env : Env} (hallocates : env.Allocates) {event : Event}
    {log : List ℕ} {picked : Picked}
    (hpick : ((pickEvent env buf event).run log).1 = some picked) :
    (picked.found, picked.event, picked.buf.contents) = pickContents buf.contents event := by
  have hroom := lt_of_size hsize
  obtain ⟨next, hresult, hcontents⟩ :=
    @pickResult_eq buf env (by omega) (not_dropWraps hsize) event
  have hrun := pickEvent_inPlace hallocates (by omega) hplace event log
  rw [hpick, hresult] at hrun
  obtain ⟨hfound, hrest⟩ := Prod.mk.inj (Option.some.inj hrun)
  obtain ⟨hevent, hbuf⟩ := Prod.mk.inj hrest
  rw [hfound, hevent, hbuf, hcontents]

/-- A chunk that fits is more of the stream. -/
theorem Observed.Kept.recv (hkept : state.Kept) {chunk : List Byte}
    (hstep : state.step (.recv chunk) = some next) : next.Kept := by
  obtain ⟨receiver, hreceiver, hnext⟩ := Option.map_eq_some_iff.mp hstep
  obtain ⟨⟨hidle, hchunk⟩, hmap⟩ := Option.ite_none_right_eq_some.mp hreceiver
  obtain ⟨⟨accepted, buf⟩, hput, rfl⟩ := Option.map_eq_some_iff.mp hmap
  clear hmap
  obtain ⟨hsize, htally, _⟩ := hkept.hreached.contents_eq size_lt
  have hroom := lt_of_size hsize
  have hle := state.receiver.mBuffer.length_le
  have hreached := hkept.hreached.put (by omega) hput
  simp only at hnext
  by_cases hfits : state.receiver.mBuffer.length + chunk.length ≤ connectionBufferSize - 1
  · rw [if_pos hfits] at hnext
    subst hnext
    obtain ⟨buf', hput', _, hcontents⟩ := @put_of_le state.receiver.mBuffer (by omega) chunk
      (by omega)
    obtain ⟨rfl, rfl⟩ := Prod.mk.inj (Option.some.inj (hput.symm.trans hput'))
    have hlength := congrArg List.length hcontents
    rw [List.length_append, RingBuf.length_contents, RingBuf.length_contents] at hlength
    rw [if_pos rfl] at hreached
    refine ⟨?_, fun hplaced => ?_⟩
    · rw [show (state.accepted ++ chunk).length - buf.length =
        state.accepted.length - state.receiver.mBuffer.length by
          rw [List.length_append]; omega]
      exact hreached
    · obtain ⟨items, htakes, hhanded, _⟩ := hkept.hfollows hplaced.of_append
      refine ⟨items, ?_, hhanded, fun h => by cases h⟩
      rw [hcontents]
      exact htakes.append stable_headFrame chunk
  · rw [if_neg hfits] at hnext
    subst hnext
    rw [put_of_lt (by omega) (by omega)] at hput
    obtain ⟨rfl, rfl⟩ := Prod.mk.inj (Option.some.inj hput)
    refine ⟨hkept.hreached, fun hplaced => ?_⟩
    obtain ⟨items, htakes, hhanded, _⟩ := hkept.hfollows hplaced
    exact ⟨items, htakes, hhanded, fun h => by cases h⟩

/-- A pick takes the head frame, or finds nothing to take. -/
theorem Observed.Kept.pick (hkept : state.Kept) {env : Env} (hallocates : env.Allocates)
    (hstep : state.step (.pick env) = some next) : next.Kept := by
  obtain ⟨receiver, hreceiver, hnext⟩ := Option.map_eq_some_iff.mp hstep
  obtain ⟨_, hmap⟩ := Option.ite_none_right_eq_some.mp hreceiver
  obtain ⟨picked, hpick, rfl⟩ := Option.map_eq_some_iff.mp hmap
  obtain ⟨hsize, htally, _⟩ := hkept.hreached.contents_eq size_lt
  have hreached := hkept.hreached.pick env _ _ _ hpick
  have hbound := (hreached.contents_eq size_lt).2.1
  have hsame : next.accepted = state.accepted ∧
      next.receiver = ⟨picked.buf, picked.event, picked.found⟩ ∧
      next.handed = state.handed ++ if picked.found then [picked.event] else [] := by
    simp only at hnext
    split at hnext
    · rename_i hfound
      subst hnext
      exact ⟨rfl, rfl, by rw [if_pos hfound]⟩
    · rename_i hfound
      subst hnext
      exact ⟨rfl, rfl, by rw [if_neg hfound, List.append_nil]⟩
  obtain ⟨haccepted, hreceived, hhanded⟩ := hsame
  refine ⟨?_, fun hplaced => ?_⟩
  · rw [haccepted, hreceived]
    rwa [show state.accepted.length - state.receiver.mBuffer.length +
      (state.receiver.mBuffer.length - picked.buf.length) =
        state.accepted.length - picked.buf.length by omega] at hreached
  · rw [haccepted] at hplaced
    obtain ⟨items, hfollows⟩ := hkept.hfollows hplaced
    have heq := pick_eq hsize (hkept.inPlace hfollows hplaced) hallocates hpick
    rw [pickContents_eq_headFrame] at heq
    obtain ⟨htakes, hbefore, _⟩ := hfollows
    cases hhead : headFrame state.receiver.mBuffer.contents with
    | none =>
        rw [hhead] at heq
        obtain ⟨hfound, heq⟩ := Prod.mk.inj heq
        obtain ⟨_, hcontents⟩ := Prod.mk.inj heq
        refine ⟨items, ?_, ?_, fun _ => .inl ?_⟩
        · rwa [haccepted, hreceived, hcontents]
        · rw [hhanded, hfound, hbefore]
          exact List.append_nil _
        · rw [hreceived, hcontents, hhead]
    | some head =>
        obtain ⟨item, rest⟩ := head
        have hlast := htakes.next hhead
        rw [hhead] at heq
        cases item with
        | none =>
            obtain ⟨hfound, heq⟩ := Prod.mk.inj heq
            obtain ⟨_, hcontents⟩ := Prod.mk.inj heq
            refine ⟨items ++ [none], ?_, ?_, fun _ => .inr (by simp)⟩
            · rwa [haccepted, hreceived, hcontents]
            · rw [hhanded, hfound, hbefore, List.reduceOption_append]
              rfl
        | some event =>
            obtain ⟨hfound, heq⟩ := Prod.mk.inj heq
            obtain ⟨hevent, hcontents⟩ := Prod.mk.inj heq
            refine ⟨items ++ [some event], ?_, ?_, fun hidle => ?_⟩
            · rwa [haccepted, hreceived, hcontents]
            · rw [hhanded, hfound, hbefore, hevent, List.reduceOption_append]
              rfl
            · rw [hreceived, hfound] at hidle
              cases hidle

/-- In every run without a failing allocation, over a stream in place, what is
handed over is the beginning of what the stream says, whoever sent it and however
it came in; between two chunks it is all of it, unless a frame was skipped. -/
theorem decoded_of_reaches (dt : List Byte) (hdt : dt.length = connectionBufferSize)
    (hreaches : Reaches Observed.step Observed.Allocates (Observed.start dt hdt) state)
    (hplaced : StreamInPlace state.accepted) :
    state.handed <+: decode state.accepted ∧
      (state.receiver.picking = false → none ∉ parse headFrame state.accepted →
        state.handed = decode state.accepted) ∧
      ∀ event ∈ state.handed, 0 ∉ event.name ∧ WellFormed event.packet := by
  have hkept : state.Kept := hreaches.invariant
    (fun {before action after} hkept hguard hstep => by
      cases action with
      | recv chunk => exact hkept.recv hstep
      | pick env => exact hkept.pick hguard hstep) (Observed.kept_start dt hdt)
  obtain ⟨items, htakes, hhanded, hidle⟩ := hkept.hfollows hplaced
  have hparse := htakes.parse_eq stable_headFrame
  refine ⟨?_, fun hpicking hskips => ?_, fun event hevent => ?_⟩
  · rw [decode, hparse, List.reduceOption_append, ← hhanded]
    exact List.prefix_append _ _
  · have hnone := (hidle hpicking).resolve_right fun hskipped =>
      hskips (hparse ▸ List.mem_append_left _ hskipped)
    rw [hhanded, decode, htakes.eq_parse stable_headFrame hnone]
  · rw [hhanded] at hevent
    exact takes_sound htakes (List.reduceOption_mem_iff.mp hevent)

end Kept

/-- A frame without a NUL, and then an event without a name, cut in three. -/
def stray : List Receiver.Action :=
  [.recv [0, 3], .pick .ample, .recv [1, 0], .pick .ample, .recv [3, 0], .pick .ample,
    .pick .ample]

theorem decoded_of_reaches_stray :
    ∃ state, Reaches Observed.step Observed.Allocates
        (Observed.start (List.replicate 4096 0) List.length_replicate) state ∧
      state.accepted = [0, 3, 1, 0, 3, 0] ∧ state.handed = [⟨[], []⟩] ∧
      state.handed <+: decode [0, 3, 1, 0, 3, 0] := by
  have hrun : (run Observed.step
      (Observed.start (List.replicate 4096 0) List.length_replicate) stray).map
        (fun state => (state.accepted, state.handed)) =
      some ([0, 3, 1, 0, 3, 0], [⟨[], []⟩]) := by
    decide +kernel
  obtain ⟨state, hrun, hfacts⟩ := Option.map_eq_some_iff.mp hrun
  obtain ⟨haccepted, hhanded⟩ := Prod.mk.inj hfacts
  have hreaches : Reaches Observed.step Observed.Allocates
      (Observed.start (List.replicate 4096 0) List.length_replicate) state :=
    .of_run hrun (meets_of_forall (by simp [stray, Observed.Allocates, Env.allocates_ample]) _)
  have hplaced : StreamInPlace state.accepted :=
    streamInPlace_of_length (by rw [haccepted]; decide)
  have hdecoded := decoded_of_reaches _ _ hreaches hplaced
  exact ⟨state, hreaches, haccepted, hhanded, haccepted ▸ hdecoded.1⟩

end Sednl.Ring
