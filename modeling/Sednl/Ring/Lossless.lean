import Sednl.Ring.Receive

/-!
# Which streams arrive

A stream of frames cut into chunks is handed over unchanged, whatever lies past
the array of the buffer, exactly when no chunk is refused and no frame is cut by
the end of the array.  One way each pick is followed on the contents; the other
way no byte can be spared, so every chunk was accepted and every event was made
of a frame, and two different stray bytes cannot both be what was sent.
-/

namespace Sednl.Ring

open Sednl.Endian
open Sednl.Memory
open Sednl.Tag
open Sednl.Word
open Sednl.Circular
open Sednl.Grammar

/-! ## Where a buffer stands in its stream -/

theorem putBytes_mEnd {string : List Byte} {buf next : RingBuf}
    (hroom : buf.mSize + 1 < 2 ^ 32) (hput : RingBuf.putBytes string buf = some next) :
    next.mEnd = (buf.mEnd + string.length) % (buf.mSize + 1) := by
  induction string generalizing buf with
  | nil =>
      obtain rfl := Option.some.inj hput
      exact (Nat.mod_eq_of_lt (Nat.lt_succ_of_le buf.hend)).symm
  | cons byte string ih =>
      have hmodulus : ¬ u32 (buf.mSize + 1) = 0 := by
        rw [RingBuf.modulus_eq hroom]
        omega
      have hend := buf.hend
      rw [RingBuf.putBytes, RingBuf.putByte, dif_neg hmodulus, Option.bind_some] at hput
      have hlast := ih (by exact hroom) hput
      simp only [RingBuf.modulus_eq hroom] at hlast
      rw [hlast, u32_of_lt (show buf.mEnd + 1 < 2 ^ 32 by omega), Nat.mod_add_mod,
        List.length_cons, Nat.add_assoc, Nat.add_comm 1]

section Stands

variable {size : ℕ} {buf : RingBuf} {sent : List Byte} {removed : ℕ}

theorem Reached.mEnd_eq (hreached : Reached size buf sent removed) (hsize : size < 2 ^ 31) :
    buf.mEnd = sent.length % (size + 1) := by
  induction hreached with
  | new dt hsize hdt => exact (Nat.zero_mod _).symm
  | @put buf next sent string removed accepted hreached hsum hput ih =>
      obtain ⟨rfl, _⟩ := hreached.contents_eq hsize
      rw [RingBuf.put] at hput
      split at hput
      · obtain ⟨rfl, rfl⟩ := Prod.mk.inj (Option.some.inj hput)
        exact ih
      · obtain ⟨next', hbytes, heq⟩ := Option.map_eq_some_iff.mp hput
        obtain ⟨rfl, rfl⟩ := Prod.mk.inj heq
        rw [putBytes_mEnd (by omega) hbytes, ih, Nat.mod_add_mod, if_pos rfl,
          List.length_append]
  | reset _ ih => exact ih
  | pick env memory event log _ hpick ih =>
      rw [(pickFrom_restarted hpick).kept.2]
      exact ih

/-- The start of a buffer is the number of bytes removed, around the array. -/
theorem Reached.mStart_eq (hreached : Reached size buf sent removed)
    (hsize : size < 2 ^ 31) : buf.mStart = removed % (size + 1) := by
  have hend := hreached.mEnd_eq hsize
  obtain ⟨rfl, htally, _⟩ := hreached.contents_eq hsize
  have hstart : buf.mStart < buf.mSize + 1 := Nat.lt_succ_of_le buf.hstart
  have hdistance := add_distance hstart (Nat.lt_succ_of_le buf.hend)
  rw [← buf.length_eq, hend, ← htally, Nat.add_comm buf.length removed] at hdistance
  have hsame : buf.mStart ≡ removed [MOD buf.mSize + 1] :=
    Nat.ModEq.add_right_cancel' buf.length hdistance
  rwa [Nat.ModEq, Nat.mod_eq_of_lt hstart] at hsame

end Stands

/-! ## The conditions -/

/-- A frame that starts `sent` bytes into the stream is not cut by the end of
an array of `size + 1` cells, or just behind its length. -/
def FrameInPlace (size sent : ℕ) (event : Event) : Prop :=
  sent % (size + 1) + event.size ≤ size + 1 ∨ sent % (size + 1) + 2 = size + 1

instance (size sent : ℕ) (event : Event) : Decidable (FrameInPlace size sent event) :=
  inferInstanceAs (Decidable (_ ∨ _))

/-- Each frame of a stream, where it starts. -/
def FramesAt (holds : ℕ → Event → Prop) : (sent : ℕ) → List Event → Prop
  | _, [] => True
  | sent, event :: events =>
      holds sent event ∧ FramesAt holds (sent + event.size) events

/-- The bytes of an unfinished frame, once `received` bytes have come in. -/
def pending : List Event → (received : ℕ) → ℕ
  | [], received => received
  | event :: events, received =>
      if event.size ≤ received then pending events (received - event.size) else received

/-- Each chunk fits behind what is pending when it comes in. -/
def ChunksFit (size : ℕ) (events : List Event) :
    (received : ℕ) → (chunks : List (List Byte)) → Prop
  | _, [] => True
  | received, chunk :: chunks =>
      pending events received + chunk.length ≤ size ∧
        ChunksFit size events (received + chunk.length) chunks

instance decidableFramesAt (holds : ℕ → Event → Prop)
    [∀ sent event, Decidable (holds sent event)] :
    (sent : ℕ) → (events : List Event) → Decidable (FramesAt holds sent events)
  | _, [] => .isTrue trivial
  | sent, event :: events =>
      have := decidableFramesAt holds (sent + event.size) events
      inferInstanceAs (Decidable (holds sent event ∧ FramesAt holds _ events))

instance decidableChunksFit (size : ℕ) (events : List Event) :
    (received : ℕ) → (chunks : List (List Byte)) →
      Decidable (ChunksFit size events received chunks)
  | _, [] => .isTrue trivial
  | received, chunk :: chunks =>
      have := decidableChunksFit size events (received + chunk.length) chunks
      inferInstanceAs (Decidable (_ ≤ size ∧ ChunksFit size events _ chunks))

section Conditions

variable {holds : ℕ → Event → Prop} {size : ℕ} {events : List Event}

theorem framesAt_append {sent : ℕ} {left right : List Event} :
    FramesAt holds sent (left ++ right) ↔
      FramesAt holds sent left ∧ FramesAt holds (sent + total left) right := by
  induction left generalizing sent with
  | nil => simp [FramesAt]
  | cons event left ih =>
      rw [List.cons_append, FramesAt, FramesAt, ih, total_cons, Nat.add_assoc, and_assoc]

theorem framesAt_of_and {left right : ℕ → Event → Prop} {sent : ℕ}
    (hleft : FramesAt left sent events) (hright : FramesAt right sent events)
    (hboth : ∀ sent event, left sent event → right sent event → holds sent event) :
    FramesAt holds sent events := by
  induction events generalizing sent with
  | nil => trivial
  | cons event events ih =>
      exact ⟨hboth sent event hleft.1 hright.1, ih hleft.2 hright.2⟩

theorem chunksFit_append {received : ℕ} {left right : List (List Byte)} :
    ChunksFit size events received (left ++ right) ↔
      ChunksFit size events received left ∧
        ChunksFit size events (received + left.flatten.length) right := by
  induction left generalizing received with
  | nil => simp [ChunksFit]
  | cons chunk left ih =>
      rw [List.cons_append, ChunksFit, ChunksFit, ih, List.flatten_cons,
        List.length_append, Nat.add_assoc, and_assoc]

theorem pending_le (events : List Event) (received : ℕ) :
    pending events received ≤ received := by
  induction events generalizing received with
  | nil => exact le_rfl
  | cons event events ih =>
      rw [pending]
      split
      · exact (ih _).trans (Nat.sub_le _ _)
      · exact le_rfl

/-- What was handed over is no longer pending. -/
theorem pending_append (left right : List Event) (received : ℕ) :
    pending (left ++ right) (total left + received) = pending right received := by
  induction left with
  | nil => simp
  | cons event left ih =>
      rw [List.cons_append, pending, total_cons, if_pos (by omega), Nat.add_assoc,
        Nat.add_sub_cancel_left, ih]

theorem pending_of_lt {received : ℕ}
    (hcut : ∀ event ∈ events.head?, received < event.size) :
    pending events received = received := by
  cases events with
  | nil => rfl
  | cons event events =>
      rw [pending, if_neg (not_le.mpr (hcut event rfl))]

end Conditions

/-! ## A pick on a stream of frames -/

/-- An event as the program can send and receive it. -/
structure Event.Sendable (event : Event) : Prop where
  hname : 0 ∉ event.name
  hpacket : ∀ env : Env, env.validPacket event.packet = true
  hpack : ∀ host, (event.pack host).length ≤ connectionBufferSize - 1

theorem Event.Sendable.size_le {event : Event} (hsendable : event.Sendable) :
    event.size ≤ 4095 :=
  (event.length_pack .little).symm.le.trans (hsendable.hpack .little)

/-- An event without a packet can be sent when its name fits. -/
theorem Event.sendable_of_name {name : List Byte} (hname : 0 ∉ name)
    (hlength : name.length ≤ 4092) : (⟨name, []⟩ : Event).Sendable where
  hname := hname
  hpacket := by
    intro env
    rw [validPacket_eq env (Nat.zero_le _)]
    exact decide_eq_true ⟨[], by simp, rfl⟩
  hpack := by
    intro host
    simp only [Event.length_pack, Event.size, connectionBufferSize, List.length_nil]
    omega

section Frame

variable {event : Event} {contents rest more : List Byte} {host : Host}

theorem need_pack (hsize : event.size < 65536)
    (hstarts : contents ++ rest = event.pack host ++ more) (htwo : 2 ≤ contents.length) :
    max 3 (beValue (contents.take 2)) = event.size := by
  have hheader : contents.take 2 = beBytes 2 event.size := by
    calc contents.take 2 = (contents ++ rest).take 2 :=
          (List.take_append_of_le_length htwo).symm
      _ = (beBytes 2 event.size ++ (event.name ++ 0 :: event.packet ++ more)).take 2 := by
          rw [hstarts, Event.pack_eq, List.append_assoc]
      _ = beBytes 2 event.size := List.take_left' (length_beBytes _ _)
  rw [hheader, beValue_beBytes, Nat.mod_eq_of_lt (by omega)]
  exact max_eq_right event.three_le_size

/-- A stream of frames shows `pick_event` its first frame, once it is whole. -/
theorem pickContents_pack (hsendable : event.Sendable)
    (hstarts : contents ++ rest = event.pack host ++ more) (before : Event) :
    pickContents contents before =
      if contents.length < event.size then (false, before, contents)
      else (true, event, contents.drop event.size) := by
  have hthree := event.three_le_size
  have hsize := hsendable.size_le
  rw [pickContents]
  by_cases htwo : 2 ≤ contents.length
  · simp only [need_pack (by omega) hstarts htwo]
    by_cases hcut : contents.length < event.size
    · rw [if_pos (.inr hcut), if_pos hcut]
    · have hframe : contents.take event.size = event.pack host := by
        calc contents.take event.size = (contents ++ rest).take event.size :=
              (List.take_append_of_le_length (not_lt.mp hcut)).symm
          _ = event.pack host := by
              rw [hstarts, List.take_left' (event.length_pack host)]
      have hbody : (contents.drop 2).take (event.size - 2) =
          event.name ++ 0 :: event.packet := by
        rw [← List.drop_take, hframe, Event.pack_eq,
          List.drop_left' (length_beBytes 2 event.size)]
      obtain ⟨hname, hpacket⟩ := @bodyName_eq event.name event.packet hsendable.hname
      have hwell : WellFormed event.packet := by
        have hvalid := hsendable.hpacket .ample
        rw [validPacket_eq _ (by unfold Event.size at hsize; omega)] at hvalid
        exact of_decide_eq_true hvalid
      rw [if_neg (by omega), if_neg hcut, hbody, hname, hpacket, if_pos (by simp),
        if_pos hwell]
  · rw [if_pos (.inl (not_le.mp htwo)), if_pos (by omega)]

end Frame

/-- In place and without a drop that wraps, a pick is `pickContents`. -/
theorem pickEvent_contents {env : Env} (hallocates : env.Allocates) {buf : RingBuf}
    (hroom : buf.mSize + 1 < 2 ^ 32) (hplace : buf.InPlace) (hwraps : ¬ buf.DropWraps)
    {event : Event} {log : List ℕ} {picked : Picked}
    (hpick : ((pickEvent env buf event).run log).1 = some picked) :
    (picked.found, picked.event, picked.buf.contents) =
      pickContents buf.contents event := by
  have hrun := pickEvent_inPlace hallocates hroom hplace event log
  obtain ⟨next, hresult, hcontents⟩ := @pickResult_eq buf env hroom hwraps event
  rw [hpick, hresult, Option.map_some, Option.some.injEq, Picked.result, Prod.mk.injEq,
    Prod.mk.injEq] at hrun
  obtain ⟨hfound, hevent, rfl⟩ := hrun
  rw [hfound, hevent, hcontents]

/-! ## Streams that arrive -/

section Arrives

variable {size : ℕ} {events : List Event} {host : Host} {all : List (List Byte)}

/-- Received and handed over so far: all accepted, all handed over in order. -/
structure Arriving (size : ℕ) (events : List Event) (all : List (List Byte))
    (received : List (List Byte)) (handed : List Event) (buf : RingBuf) : Prop where
  hreached : Reached size buf received.flatten (total handed)
  hreceived : received <+: all
  hhanded : handed <+: events

/-- With nothing whole left in the buffer. -/
structure Settled (size : ℕ) (events : List Event) (all : List (List Byte))
    (received : List (List Byte)) (handed : List Event) (buf : RingBuf) : Prop
    extends Arriving size events all received handed buf where
  hpending : pending events received.flatten.length = buf.length

variable (hsize : size < 2 ^ 31)

include hsize

theorem Settled.put {received rest : List (List Byte)} {chunk : List Byte}
    (hfit : pending events received.flatten.length + chunk.length ≤ size)
    {handed : List Event} {buf next : RingBuf} {accepted : Bool}
    (hall : all = received ++ chunk :: rest)
    (hsettled : Settled size events all received handed buf)
    (hput : buf.put chunk = some (accepted, next)) :
    Arriving size events all (received ++ [chunk]) handed next := by
  obtain ⟨⟨hreached, _, hhanded⟩, hpending⟩ := hsettled
  obtain ⟨rfl, _⟩ := hreached.contents_eq hsize
  rw [hpending] at hfit
  obtain ⟨next', hput', _⟩ := put_of_le (by omega) hfit
  have hboth := hput.symm.trans hput'
  rw [Option.some.injEq, Prod.mk.injEq] at hboth
  obtain ⟨rfl, rfl⟩ := hboth
  refine ⟨?_, ⟨rest, by rw [hall]; simp⟩, hhanded⟩
  have hnext := Reached.put hreached (by omega) hput
  simpa using hnext

variable (hstream : all.flatten = packs host events)

include hstream

/-- The buffer and the chunks still to come are the frames still to hand over. -/
theorem Arriving.contents_append {received later : List (List Byte)}
    (hlater : received ++ later = all) {handed left : List Event} {buf : RingBuf}
    (hevents : handed ++ left = events)
    (harriving : Arriving size events all received handed buf) :
    buf.contents ++ later.flatten = packs host left := by
  obtain ⟨_, htally, hcontents⟩ := harriving.hreached.contents_eq hsize
  calc buf.contents ++ later.flatten
      = (received.flatten ++ later.flatten).drop (total handed) := by
        rw [hcontents, List.drop_append_of_le_length (by omega)]
    _ = packs host left := by
        rw [← List.flatten_append, hlater, hstream, ← hevents, packs_append,
          List.drop_left' (length_packs host handed)]

/-- With every event handed over a pick finds nothing. -/
theorem Arriving.pick_nil {received : List (List Byte)} {env : Env} {buf : RingBuf}
    (harriving : Arriving size events all received events buf) {event : Event}
    {log : List ℕ} {picked : Picked}
    (hpick : ((pickEvent env buf event).run log).1 = some picked) :
    picked.found = false ∧ Settled size events all received events picked.buf := by
  obtain ⟨_, htally, _⟩ := harriving.hreached.contents_eq hsize
  obtain ⟨later, hlater⟩ := harriving.hreceived
  have hempty : buf.length = 0 := by
    have hlength := congrArg List.length
      (harriving.contents_append hsize hstream hlater (List.append_nil events))
    rw [List.length_append, RingBuf.length_contents, length_packs, total_nil] at hlength
    omega
  rw [pickEvent, pickFrom_run, if_pos (by omega), Option.some.injEq] at hpick
  subst hpick
  refine ⟨rfl, harriving, ?_⟩
  calc pending events received.flatten.length
      = pending (events ++ []) (total events + buf.length) := by
        rw [List.append_nil, ← htally, Nat.add_comm]
    _ = buf.length := by
        rw [pending_append, hempty]
        rfl

variable (hsendable : ∀ event ∈ events, event.Sendable)

include hsendable

/-- What a pick shows of the next frame, if it is in place. -/
theorem Arriving.pick_cons {received : List (List Byte)}
    (hplaced : FramesAt (fun start event =>
      start < received.flatten.length → FrameInPlace size start event) 0 events)
    {env : Env} (hallocates : env.Allocates) {handed left : List Event} {frame : Event}
    (hevents : handed ++ frame :: left = events) {buf : RingBuf}
    (harriving : Arriving size events all received handed buf) {event : Event}
    {log : List ℕ} {picked : Picked}
    (hpick : ((pickEvent env buf event).run log).1 = some picked) :
    (picked.found, picked.event, picked.buf.contents) =
      if buf.length < frame.size then (false, event, buf.contents)
      else (true, frame, buf.contents.drop frame.size) := by
  obtain ⟨rfl, htally, _⟩ := harriving.hreached.contents_eq hsize
  have hstart := harriving.hreached.mStart_eq hsize
  obtain ⟨later, hlater⟩ := harriving.hreceived
  have hstarts := harriving.contents_append hsize hstream hlater hevents
  rw [packs_cons] at hstarts
  subst hevents
  have hframe := hsendable frame (by simp)
  have hframeSize := hframe.size_le
  have hinPlace := (framesAt_append.mp hplaced).2.1
  rw [Nat.zero_add] at hinPlace
  have hneed : 2 ≤ buf.length → buf.need = frame.size := fun htwo =>
    need_pack (by omega) hstarts (by rwa [RingBuf.length_contents])
  have hplace : buf.InPlace := by
    by_cases htwo : 2 ≤ buf.length
    · have hthree := frame.three_le_size
      rw [RingBuf.InPlace, hneed htwo, hstart]
      rcases hinPlace (by omega) with hinside | hsplit
      · exact .inr ⟨by omega, .inr (.inl hinside)⟩
      · exact .inr ⟨by omega, .inr (.inr hsplit)⟩
    · exact .inl (not_le.mp htwo)
  have hwraps : ¬ buf.DropWraps := by
    rintro ⟨_, _, _, hsum⟩
    have hbound := buf.hstart
    have hbound' := buf.need_le
    omega
  have hanswer := pickEvent_contents hallocates (by omega) hplace hwraps hpick
  rwa [pickContents_pack hframe hstarts, RingBuf.length_contents] at hanswer

/-- A pick takes the next frame, once it is whole and if it is in place. -/
theorem Arriving.pick {received : List (List Byte)}
    (hplaced : FramesAt (fun start event =>
      start < received.flatten.length → FrameInPlace size start event) 0 events)
    {env : Env} (hallocates : env.Allocates) {handed : List Event} {buf : RingBuf}
    (harriving : Arriving size events all received handed buf) {event : Event}
    {log : List ℕ} {picked : Picked}
    (hpick : ((pickEvent env buf event).run log).1 = some picked) :
    (picked.found = false → Settled size events all received handed picked.buf) ∧
      (picked.found = true →
        Arriving size events all received (handed ++ [picked.event]) picked.buf) := by
  obtain ⟨left, hevents⟩ := harriving.hhanded
  cases left with
  | nil =>
      obtain rfl : handed = events := by rw [← hevents, List.append_nil]
      obtain ⟨hfound, hsettled⟩ := harriving.pick_nil hsize hstream hpick
      exact ⟨fun _ => hsettled, fun h => by simp [hfound] at h⟩
  | cons frame left =>
      have hanswer := harriving.pick_cons hsize hstream hsendable hplaced hallocates hevents hpick
      obtain ⟨_, htally, _⟩ := harriving.hreached.contents_eq hsize
      have hnext := Reached.pick env (buf.memory env) event log harriving.hreached hpick
      by_cases hcut : buf.length < frame.size
      · rw [if_pos hcut, Prod.mk.injEq, Prod.mk.injEq] at hanswer
        obtain ⟨hfound, _, hsame⟩ := hanswer
        have hlength := congrArg List.length hsame
        rw [RingBuf.length_contents, RingBuf.length_contents] at hlength
        rw [hlength, Nat.sub_self, Nat.add_zero] at hnext
        refine ⟨fun _ => ⟨⟨hnext, harriving.hreceived, harriving.hhanded⟩, ?_⟩, fun h => ?_⟩
        · rw [show received.flatten.length = total handed + buf.length by omega, ← hevents,
            pending_append, pending_of_lt (by simpa using hcut), hlength]
        · simp [hfound] at h
      · rw [if_neg hcut, Prod.mk.injEq, Prod.mk.injEq] at hanswer
        obtain ⟨hfound, hevent, hdrop⟩ := hanswer
        have hlength := congrArg List.length hdrop
        rw [List.length_drop, RingBuf.length_contents, RingBuf.length_contents] at hlength
        refine ⟨fun h => by simp [hfound] at h, fun _ => ⟨?_, harriving.hreceived, left, ?_⟩⟩
        · have htotal : total (handed ++ [picked.event]) =
              total handed + (buf.length - picked.buf.length) := by
            rw [total_append, hevent, total_cons, total_nil]
            omega
          rwa [htotal]
        · rw [← hevents, hevent, List.append_assoc, List.singleton_append]

/-- Chunks that fit and frames in place arrive whole, whatever is read past the
array. -/
theorem receive_of_conditions (hplaced : FramesAt (FrameInPlace size) 0 events)
    (hfit : ChunksFit size events 0 all)
    (hchunks : ∀ chunk ∈ all, chunk.length ≤ 512) {env : Env} (hallocates : env.Allocates)
    {calls : List (List (List Byte))} (hcalls : all = calls.flatten) {buf : RingBuf}
    (hfresh : Reached size buf [] 0) :
    ∃ last, ((receive env calls buf).run []).1 = some (events, last) := by
  obtain ⟨rfl, htally, _⟩ := hfresh.contents_eq hsize
  obtain ⟨handed, last, hrun⟩ := @receive_isSome env calls (by rwa [← hcalls]) buf
    (by omega) []
  have hstart : Settled buf.mSize events all ([] : List (List (List Byte))).flatten []
      buf := by
    refine ⟨⟨hfresh, List.nil_prefix, List.nil_prefix⟩, ?_⟩
    have hnone := pending_le events 0
    simp only [List.length_nil] at htally
    simp only [List.flatten_nil, List.length_nil]
    omega
  have hbegun : ∀ received : List (List Byte), FramesAt (fun start event =>
      start < received.flatten.length → FrameInPlace buf.mSize start event) 0 events :=
    fun _ => framesAt_of_and hplaced hplaced fun _ _ hplace _ _ => hplace
  have hlast := @receive_rule env all (Settled buf.mSize events all)
    (Arriving buf.mSize events all)
    (fun {received chunk _ _ _ _ _} hall hsettled hput => by
      have hchunk := hfit
      rw [hall, chunksFit_append, ChunksFit, Nat.zero_add] at hchunk
      exact hsettled.put hsize hchunk.2.1 hall hput)
    (fun harriving hpick =>
      (harriving.pick hsize hstream hsendable (hbegun _) hallocates hpick).2)
    (fun harriving hpick =>
      (harriving.pick hsize hstream hsendable (hbegun _) hallocates hpick).1)
    calls [] [] handed buf last [] (by rw [hcalls]; rfl) hstart hrun
  obtain ⟨⟨hreached, _, ⟨left, hleft⟩⟩, hpending⟩ := hlast
  obtain ⟨_, htally, _⟩ := hreached.contents_eq hsize
  rw [List.nil_append] at hleft hreached htally
  -- all frames are in, so none of them can be pending
  have hnone : left = [] := by
    cases left with
    | nil => rfl
    | cons frame left =>
        have hthree := frame.three_le_size
        have hlength : all.flatten.length = total handed + (frame.size + total left) := by
          rw [hstream, length_packs, ← hleft, total_append, total_cons]
        rw [hlength, ← hleft, pending_append, pending, if_pos (by omega),
          Nat.add_sub_cancel_left] at hpending
        have hle := pending_le left (total left)
        omega
  rw [hnone, List.append_nil] at hleft
  exact ⟨last, by rw [hrun, hleft]⟩

end Arrives

/-! ## Streams that do not -/

/-- An environment in which nothing fails and stray reads of the buffer return `stray`. -/
def Env.straying (stray : Byte) : Env :=
  { Env.ample with wild := fun _ _ => stray }

theorem Env.allocates_straying (stray : Byte) : (Env.straying stray).Allocates :=
  ⟨fun _ => rfl, fun _ => rfl, rfl⟩

theorem frameResult_found {env : Env} {buf next : RingBuf} {event picked : Event}
    {packetLength dtIdx : ℕ} {body : List Byte}
    (hresult : frameResult env buf event packetLength dtIdx body =
      some (true, picked, next)) :
    picked.name ++ 0 :: picked.packet = body ∧
      buf.startAt (dtIdx + body.length) = some next := by
  rw [frameResult] at hresult
  split at hresult
  · rename_i hzero
    split at hresult
    · obtain ⟨_, hstart, heq⟩ := Option.map_eq_some_iff.mp hresult
      simp only [Prod.mk.injEq, true_and] at heq
      obtain ⟨rfl, rfl⟩ := heq
      exact ⟨bodyName_append hzero, hstart⟩
    · simp at hresult
  · obtain ⟨_, _, heq⟩ := Option.map_eq_some_iff.mp hresult
    simp at heq

section Stray

variable {stray : Byte} {buf : RingBuf}

/-- What index `index` of the array seems to hold. -/
def RingBuf.seen (buf : RingBuf) (stray : Byte) (index : ℕ) : Byte :=
  (buf.mDt[index]?).getD stray

theorem value_straying (log : List ℕ) (index : ℕ) :
    (buf.memory (.straying stray)).value log index = buf.seen stray index := rfl

theorem seen_past (hroom : buf.mSize + 1 < 2 ^ 32) :
    buf.seen stray (buf.mSize + 1) = stray := by
  rw [RingBuf.seen, List.getElem?_eq_none (by rw [RingBuf.length_mDt hroom]), Option.getD_none]

/-- What an event found was made of: its length is the one that was seen, and
its name and packet are the cells that follow. -/
theorem pickEvent_seen (hroom : buf.mSize + 65536 < 2 ^ 32) {event : Event} {log : List ℕ}
    {picked : Picked}
    (hpick : ((pickEvent (.straying stray) buf event).run log).1 = some picked)
    (hfound : picked.found = true) :
    picked.buf.length + picked.event.size = buf.length ∧
      max 3 (beValue [buf.seen stray buf.mStart, buf.seen stray (buf.mStart + 1)]) =
        picked.event.size ∧
      picked.event.name ++ 0 :: picked.event.packet =
        (List.range (picked.event.size - 2)).map fun k =>
          buf.seen stray ((buf.mStart + 2) % (buf.mSize + 1) + k) := by
  have hstart := buf.hstart
  rw [pickEvent, pickFrom_run] at hpick
  by_cases hshort : buf.length < 2
  · rw [if_pos hshort, Option.some.injEq] at hpick
    rw [← hpick] at hfound
    simp at hfound
  · have hload := (Env.straying stray).host.ntoh_load
      [buf.seen stray buf.mStart, buf.seen stray (buf.mStart + 1)]
    simp only [List.length_cons, List.length_nil] at hload
    rw [if_neg hshort, value_straying, value_straying,
      u32_of_lt (show buf.mStart + 1 < 2 ^ 32 by omega), hload] at hpick
    have hbound := beValue_lt [buf.seen stray buf.mStart, buf.seen stray (buf.mStart + 1)]
    simp only [List.length_cons, List.length_nil] at hbound
    generalize beValue [buf.seen stray buf.mStart, buf.seen stray (buf.mStart + 1)] =
      declared at hpick hbound
    simp only at hpick
    by_cases hcut : buf.length < max 3 declared
    · rw [if_pos hcut, Option.some.injEq] at hpick
      rw [← hpick] at hfound
      simp at hfound
    · rw [if_neg hcut] at hpick
      have hdt : (buf.mStart + 2) % (buf.mSize + 1) < buf.mSize + 1 :=
        Nat.mod_lt _ (Nat.succ_pos _)
      have hframe := @pickFrame_shows (buf.memory (.straying stray)) (.straying stray) buf
        (Env.allocates_straying stray) (by omega)
        ((List.range (max 3 declared - 2)).map fun k =>
          buf.seen stray ((buf.mStart + 2) % (buf.mSize + 1) + k)) _ rfl
        (by
          intro offset byte hbyte log
          rw [List.getElem?_map, Option.map_eq_some_iff] at hbyte
          obtain ⟨k, hk, rfl⟩ := hbyte
          obtain ⟨_, rfl⟩ := List.getElem?_eq_some_iff.mp hk
          rw [List.getElem_range]
          exact value_straying log _)
        (by rw [List.length_map, List.length_range]; omega) event (max 3 declared)
        (by rw [List.length_map, List.length_range])
        (u32 (buf.mStart + 1) :: buf.mStart :: log)
      rw [u32_of_lt (show buf.mStart + 1 < 2 ^ 32 by omega), hpick, Option.map_some,
        Picked.result, hfound] at hframe
      obtain ⟨hbody, hnext⟩ := frameResult_found hframe.symm
      have hlength := congrArg List.length hbody
      rw [List.length_append, List.length_cons, List.length_map, List.length_range]
        at hlength
      have hsize : max 3 declared = picked.event.size := by
        rw [Event.size]
        omega
      rw [hsize] at hbody hcut hnext
      rw [List.length_map, List.length_range] at hnext
      obtain ⟨next, hnext', _, hcontents⟩ := @startAt_frame buf (by omega)
        picked.event.size ((buf.mStart + 2) % (buf.mSize + 1) + (picked.event.size - 2))
        (not_lt.mp hcut) (by
          have := picked.event.three_le_size
          rw [Nat.mod_add_mod, Nat.add_assoc, Nat.add_sub_cancel' (by omega)])
      obtain rfl := Option.some.inj (hnext'.symm.trans hnext)
      have hlengths := congrArg List.length hcontents
      rw [List.length_drop, RingBuf.length_contents, RingBuf.length_contents] at hlengths
      exact ⟨by omega, hsize, hbody⟩

/-- An event found across the end of the array holds the stray byte where the
first cell past it was read. -/
theorem getElem?_pack_of_stray (hroom : buf.mSize + 65536 < 2 ^ 32) {event : Event}
    {log : List ℕ} {picked : Picked}
    (hpick : ((pickEvent (.straying stray) buf event).run log).1 = some picked)
    (hfound : picked.found = true) (hstray : 3 ≤ stray.toNat)
    (hcut : ¬ FrameInPlace buf.mSize buf.mStart picked.event) (host : Host) :
    (picked.event.pack host)[buf.mSize + 1 - buf.mStart]? = some stray := by
  have hstart := buf.hstart
  obtain ⟨_, hsize, hbody⟩ := pickEvent_seen hroom hpick hfound
  rw [FrameInPlace, Nat.mod_eq_of_lt (by omega), not_or] at hcut
  obtain ⟨hinside, hsplit⟩ := hcut
  rw [Event.pack_eq]
  by_cases hheader : buf.mStart = buf.mSize
  · rw [hheader, seen_past (by omega)] at hsize
    have hvalue : beValue [buf.seen stray buf.mSize, stray] =
        stray.toNat + 256 * (buf.seen stray buf.mSize).toNat := by
      simp [beValue, leValue]
    have hdeclared : beValue [buf.seen stray buf.mSize, stray] = picked.event.size := by
      omega
    have hbytes := beBytes_beValue [buf.seen stray buf.mSize, stray]
    rw [hdeclared] at hbytes
    simp only [List.length_cons, List.length_nil, Nat.zero_add] at hbytes
    rw [show buf.mSize + 1 - buf.mStart = 1 by omega, hbytes]
    rfl
  · have hdt : (buf.mStart + 2) % (buf.mSize + 1) = buf.mStart + 2 :=
      Nat.mod_eq_of_lt (by omega)
    have hlt : buf.mSize + 1 - buf.mStart - 2 < picked.event.size - 2 := by omega
    rw [hbody, List.getElem?_append_right (by rw [length_beBytes]; omega), length_beBytes,
      List.getElem?_map, List.getElem?_range hlt, Option.map_some, hdt,
      show buf.mStart + 2 + (buf.mSize + 1 - buf.mStart - 2) = buf.mSize + 1 by omega,
      seen_past (by omega)]

end Stray

/-- A frame in place, or one that holds `stray` where the array ends. -/
def FrameTold (size : ℕ) (host : Host) (stray : Byte) (sent : ℕ) (event : Event) : Prop :=
  FrameInPlace size sent event ∨
    (event.pack host)[size + 1 - sent % (size + 1)]? = some stray

theorem framesAt_of_told {size sent : ℕ} {events : List Event} {host : Host} {first second : Byte}
    (hfirst : FramesAt (FrameTold size host first) sent events)
    (hsecond : FramesAt (FrameTold size host second) sent events) (hne : first ≠ second) :
    FramesAt (FrameInPlace size) sent events := by
  refine framesAt_of_and hfirst hsecond ?_
  rintro sent event (hplace | hseen) (hplace' | hseen')
  · exact hplace
  · exact hplace
  · exact hplace'
  · exact absurd (Option.some.inj (hseen.symm.trans hseen')) hne

/-- No more bytes were accepted than received, and no fewer removed than the
events handed over take.  Where no byte was spared on either side, all chunks
were accepted and all events made of frames. -/
structure Accounted (size : ℕ) (events : List Event) (host : Host) (stray : Byte)
    (received : List (List Byte)) (handed : List Event) (buf : RingBuf)
    (accepted : List Byte) (removed : ℕ) : Prop where
  hreached : Reached size buf accepted removed
  haccepted : accepted.length ≤ received.flatten.length
  hremoved : total handed ≤ removed
  hspared : accepted.length = received.flatten.length → total handed = removed →
    handed <+: events →
    ChunksFit size events 0 received ∧ FramesAt (FrameTold size host stray) 0 handed

def Accounts (size : ℕ) (events : List Event) (host : Host) (stray : Byte)
    (received : List (List Byte)) (handed : List Event) (buf : RingBuf) : Prop :=
  ∃ accepted removed, Accounted size events host stray received handed buf accepted removed

section Accounts

variable {size : ℕ} {events : List Event} {host : Host} {stray : Byte}
  {received : List (List Byte)} {handed : List Event} {buf : RingBuf}
  (hsize : size < 2 ^ 31) (haccounts : Accounts size events host stray received handed buf)

include hsize haccounts

theorem Accounts.put {chunk : List Byte} (hpos : 1 ≤ chunk.length)
    (hshort : chunk.length ≤ 512) {next : RingBuf} {accepts : Bool}
    (hput : buf.put chunk = some (accepts, next)) :
    Accounts size events host stray (received ++ [chunk]) handed next := by
  obtain ⟨accepted, removed, hreached, haccepted, hremoved, hspared⟩ := haccounts
  obtain ⟨rfl, htally, _⟩ := hreached.contents_eq hsize
  have hbound := buf.length_le
  have hnext := Reached.put hreached (by omega) hput
  have hflat : (received ++ [chunk]).flatten.length =
      received.flatten.length + chunk.length := by simp
  by_cases hfits : buf.length + chunk.length ≤ buf.mSize
  · obtain ⟨next', hput', _⟩ := put_of_le (by omega) hfits
    obtain ⟨rfl, rfl⟩ := Prod.mk.inj (Option.some.inj (hput.symm.trans hput'))
    rw [if_pos rfl] at hnext
    refine ⟨_, _, hnext, by rw [List.length_append]; omega, hremoved, ?_⟩
    intro hall hsame hstarts
    rw [List.length_append] at hall
    obtain ⟨hfit, htold⟩ := hspared (by omega) hsame hstarts
    refine ⟨chunksFit_append.mpr ⟨hfit, ?_, trivial⟩, htold⟩
    -- what is pending is at most what the buffer holds
    obtain ⟨left, rfl⟩ := hstarts
    have hpending := pending_append handed left buf.length
    have hle := pending_le left buf.length
    rw [Nat.zero_add, show received.flatten.length = total handed + buf.length by omega]
    omega
  · rw [put_of_lt (by omega) (not_le.mp hfits)] at hput
    obtain ⟨rfl, rfl⟩ := Prod.mk.inj (Option.some.inj hput)
    refine ⟨_, _, hreached, by omega, hremoved, fun hall _ _ => ?_⟩
    omega

theorem Accounts.pick {event : Event} {log : List ℕ} {picked : Picked}
    (hpick : ((pickEvent (.straying stray) buf event).run log).1 = some picked)
    (hstray : 3 ≤ stray.toNat) :
    (picked.found = false → Accounts size events host stray received handed picked.buf) ∧
      (picked.found = true → Accounts size events host stray received
        (handed ++ [picked.event]) picked.buf) := by
  obtain ⟨accepted, removed, hreached, haccepted, hremoved, hspared⟩ := haccounts
  obtain ⟨rfl, htally, _⟩ := hreached.contents_eq hsize
  have hstart := hreached.mStart_eq hsize
  have hnext := Reached.pick (.straying stray) _ event log hreached hpick
  refine ⟨fun _ => ?_, fun hfound => ?_⟩
  · refine ⟨_, _, hnext, haccepted, by omega, fun hall hsame hstarts => ?_⟩
    exact hspared hall (by omega) hstarts
  · obtain ⟨htaken, _⟩ := pickEvent_seen (by omega) hpick hfound
    have htotal : total (handed ++ [picked.event]) = total handed + picked.event.size := by
      simp
    refine ⟨_, _, hnext, haccepted, by omega, fun hall hsame hstarts => ?_⟩
    obtain ⟨hfit, htold⟩ := hspared hall (by omega)
      ((List.prefix_append handed [picked.event]).trans hstarts)
    refine ⟨hfit, framesAt_append.mpr ⟨htold, ?_, trivial⟩⟩
    rw [Nat.zero_add, show total handed = removed by omega]
    by_cases hplace : FrameInPlace buf.mSize removed picked.event
    · exact .inl hplace
    · refine .inr ?_
      rw [← hstart]
      refine getElem?_pack_of_stray (by omega) hpick hfound hstray ?_ host
      rwa [FrameInPlace, hstart, Nat.mod_mod, ← FrameInPlace]

end Accounts

section Conditions

variable {size : ℕ} {events : List Event} {host : Host} {all : List (List Byte)}
  (hsize : size < 2 ^ 31) (hstream : all.flatten = packs host events)
  (hchunks : ∀ chunk ∈ all, 1 ≤ chunk.length ∧ chunk.length ≤ 512)
  {calls : List (List (List Byte))} {buf : RingBuf}

include hsize hstream hchunks

/-- From wherever the accounts stand, a stream that arrives with one stray byte:
its chunks fit, and its frames are in place or hold that byte. -/
theorem told_of_receive {stray : Byte} (hstray : 3 ≤ stray.toNat)
    {received : List (List (List Byte))} (hall : all = received.flatten ++ calls.flatten)
    {handed new : List Event} (hevents : handed ++ new = events)
    (hstart : Accounts size events host stray received.flatten handed buf) {last : RingBuf}
    (hrun : ((receive (.straying stray) calls buf).run []).1 = some (new, last)) :
    ChunksFit size events 0 all ∧ FramesAt (FrameTold size host stray) 0 events := by
  have hlast := @receive_rule (.straying stray) all (Accounts size events host stray)
    (Accounts size events host stray)
    (fun {_ chunk _ _ _ _ _} hall haccounts hput => by
      obtain ⟨hpos, hshort⟩ := hchunks chunk (by rw [hall]; simp)
      exact haccounts.put hsize hpos hshort hput)
    (fun haccounts hpick => (haccounts.pick hsize hpick hstray).2)
    (fun haccounts hpick => (haccounts.pick hsize hpick hstray).1)
    calls received handed new buf last [] hall hstart hrun
  obtain ⟨accepted, removed, hreached, haccepted, hremoved, hspared⟩ := hlast
  obtain ⟨_, htally, _⟩ := hreached.contents_eq hsize
  have hlength := congrArg List.length hstream
  rw [length_packs] at hlength
  rw [hevents] at hremoved hspared
  exact hspared (by omega) (by omega) List.prefix_rfl

variable (hcalls : all = calls.flatten) (hfresh : Reached size buf [] 0)

include hcalls hfresh

/-- A stream that arrives with one stray byte: its chunks fit, and its frames
are in place or hold that byte. -/
theorem conditions_of_straying {stray : Byte} (hstray : 3 ≤ stray.toNat) {last : RingBuf}
    (hrun : ((receive (.straying stray) calls buf).run []).1 = some (events, last)) :
    ChunksFit size events 0 all ∧ FramesAt (FrameTold size host stray) 0 events := by
  have hstart : Accounts size events host stray ([] : List (List (List Byte))).flatten []
      buf :=
    ⟨[], 0, hfresh, le_rfl, le_rfl, fun _ _ _ => ⟨trivial, trivial⟩⟩
  exact told_of_receive hsize hstream hchunks hstray (by rw [hcalls]; rfl)
    (List.nil_append events) hstart hrun

/-- Two stray bytes leave no frame out of place. -/
theorem conditions_of_receive
    (harrives : ∀ env : Env, env.Allocates →
      ∃ last, ((receive env calls buf).run []).1 = some (events, last)) :
    ChunksFit size events 0 all ∧ FramesAt (FrameInPlace size) 0 events := by
  obtain ⟨_, hfour⟩ := harrives (.straying 4) (Env.allocates_straying 4)
  obtain ⟨_, hfive⟩ := harrives (.straying 5) (Env.allocates_straying 5)
  obtain ⟨hfit, htoldFour⟩ := conditions_of_straying hsize hstream hchunks hcalls hfresh
    (by decide) hfour
  obtain ⟨_, htoldFive⟩ := conditions_of_straying hsize hstream hchunks hcalls hfresh
    (by decide) hfive
  exact ⟨hfit, framesAt_of_told htoldFour htoldFive (by decide)⟩

end Conditions

/-! ## The receive buffer of a connection -/

theorem reached_connectionBuffer {dt : List Byte} (hdt : dt.length = connectionBufferSize) :
    Reached (connectionBufferSize - 1) (connectionBuffer dt hdt) [] 0 :=
  @Reached.new (connectionBufferSize - 1) dt (by decide) hdt

/-- The frames of some events, cut into results of `recv`, are handed over as
those events whatever lies past the array exactly when each chunk fits behind
what is pending and each frame is in place. -/
theorem receive_eq_iff {host : Host} {events : List Event}
    (hsendable : ∀ event ∈ events, event.Sendable) {calls : List (List (List Byte))}
    (hchunks : ∀ chunk ∈ calls.flatten, 1 ≤ chunk.length ∧ chunk.length ≤ 512)
    (hstream : calls.flatten.flatten = packs host events) {dt : List Byte}
    (hdt : dt.length = connectionBufferSize) :
    (∀ env : Env, env.Allocates →
        ∃ last, ((receive env calls (connectionBuffer dt hdt)).run []).1 =
          some (events, last)) ↔
      ChunksFit (connectionBufferSize - 1) events 0 calls.flatten ∧
        FramesAt (FrameInPlace (connectionBufferSize - 1)) 0 events := by
  have hfresh := reached_connectionBuffer hdt
  have hsize : connectionBufferSize - 1 < 2 ^ 31 := by decide
  constructor
  · exact conditions_of_receive hsize hstream hchunks rfl hfresh
  · rintro ⟨hfit, hplaced⟩ env hallocates
    exact receive_of_conditions hsize hstream hsendable hplaced hfit
      (fun chunk hmem => (hchunks chunk hmem).2) hallocates rfl hfresh

theorem receive_eq_iff_two_chunks :
    ∃ last, ((receive .ample [[[0, 4], [97, 0]]]
        (connectionBuffer (List.replicate 4096 0) List.length_replicate)).run []).1 =
      some ([⟨[97], []⟩], last) := by
  have hsendable : ∀ event ∈ [(⟨[97], []⟩ : Event)], event.Sendable := by
    intro event hevent
    obtain rfl := List.mem_singleton.mp hevent
    exact Event.sendable_of_name (by decide) (by decide)
  exact (@receive_eq_iff .little _ hsendable _ (by decide) (by decide) _
    List.length_replicate).mpr ⟨by decide, by decide⟩ .ample Env.allocates_ample

/-- The smallest event, sent 1366 times: the last frame starts on the last cell
of the array, and the second byte of its length is read past it. -/
theorem receive_ne_of_cut :
    ∃ (events : List Event) (calls : List (List (List Byte))),
      (∀ event ∈ events, event.Sendable) ∧
      (∀ chunk ∈ calls.flatten, 1 ≤ chunk.length ∧ chunk.length ≤ 512) ∧
      calls.flatten.flatten = packs .little events ∧
      ¬ ∀ env : Env, env.Allocates →
        ∃ last, ((receive env calls
          (connectionBuffer (List.replicate 4096 0) List.length_replicate)).run []).1 =
            some (events, last) := by
  have hstream : ∀ n, (List.replicate n [[(0 : Byte), 3, 0]]).flatten.flatten =
      packs .little (List.replicate n ⟨[], []⟩) := by
    intro n
    induction n with
    | zero => rfl
    | succ n ih =>
        rw [List.replicate_succ, List.replicate_succ, packs_cons, ← ih]
        rfl
  have hchunks : ∀ chunk ∈ (List.replicate 1366 [[(0 : Byte), 3, 0]]).flatten,
      1 ≤ chunk.length ∧ chunk.length ≤ 512 := by
    intro chunk hchunk
    obtain ⟨chunks, hchunks, hmem⟩ := List.mem_flatten.mp hchunk
    obtain rfl := List.eq_of_mem_replicate hchunks
    obtain rfl := List.mem_singleton.mp hmem
    decide
  refine ⟨_, _, ?_, hchunks, hstream 1366, fun harrives => ?_⟩
  · intro event hevent
    obtain rfl := List.eq_of_mem_replicate hevent
    exact Event.sendable_of_name List.not_mem_nil (Nat.zero_le _)
  · have hplaced := (conditions_of_receive (by decide) (hstream 1366) hchunks rfl
      (reached_connectionBuffer List.length_replicate) harrives).2
    rw [List.replicate_succ'] at hplaced
    have hlast := (framesAt_append.mp hplaced).2.1
    rw [total_replicate] at hlast
    norm_num [FrameInPlace, Event.size, connectionBufferSize] at hlast

end Sednl.Ring
