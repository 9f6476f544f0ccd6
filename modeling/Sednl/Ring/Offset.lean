import Sednl.Ring.Drop
import Sednl.Ring.Twin

/-!
# What tells a buffer from a fresh one

A buffer that still holds bytes takes the length of the next frame from them, and
an empty one that starts away from the beginning of its array puts the end of the
array elsewhere in the stream.  Three streams, which a fresh buffer hands over
whatever lies past its array, between them tell either from a fresh buffer.
-/

namespace Sednl.Ring

open Sednl.Endian
open Sednl.Memory
open Sednl.Tag
open Sednl.Word
open Sednl.Circular

/-- An event with a name of `n` characters and an empty packet. -/
def named (n : ℕ) : Event :=
  ⟨List.replicate n 1, []⟩

@[simp]
theorem size_named (n : ℕ) : (named n).size = n + 3 := by
  simp [named, Event.size]

theorem sendable_named {n : ℕ} (hn : n ≤ 4092) : (named n).Sendable := by
  apply Event.sendable_of_name
  · intro hzero
    exact absurd (List.eq_of_mem_replicate hzero) (by decide)
  · rwa [List.length_replicate]

/-- A stream received one byte at a time. -/
def singles (stream : List Byte) : List (List Byte) :=
  stream.map fun byte => [byte]

@[simp]
theorem flatten_singles (stream : List Byte) : (singles stream).flatten = stream := by
  induction stream with
  | nil => rfl
  | cons byte stream ih => exact congrArg (byte :: ·) ih

theorem length_of_mem_singles {stream chunk : List Byte} (hchunk : chunk ∈ singles stream) :
    chunk.length = 1 := by
  obtain ⟨byte, _, rfl⟩ := List.mem_map.mp hchunk
  rfl

theorem pending_lt {size : ℕ} {events : List Event} (hsizes : ∀ event ∈ events, event.size ≤ size)
    {received : ℕ} (hreceived : received < total events) : pending events received < size := by
  induction events generalizing received with
  | nil => exact absurd hreceived (Nat.not_lt_zero _)
  | cons event events ih =>
      have hsize := hsizes event (List.mem_cons_self ..)
      rw [total_cons] at hreceived
      rw [pending]
      split
      · exact ih (fun later hlater => hsizes later (List.mem_cons_of_mem _ hlater)) (by omega)
      · omega

/-- Frames that fit in the buffer fit byte by byte. -/
theorem chunksFit_singles {size : ℕ} {events : List Event}
    (hsizes : ∀ event ∈ events, event.size ≤ size) {stream : List Byte} {received : ℕ}
    (hstream : received + stream.length ≤ total events) :
    ChunksFit size events received (singles stream) := by
  induction stream generalizing received with
  | nil => trivial
  | cons byte stream ih =>
      rw [List.length_cons] at hstream
      have hpending := pending_lt hsizes (show received < total events by omega)
      refine ⟨hpending, ?_⟩
      exact ih (show received + 1 + stream.length ≤ total events by omega)

/-! ## One call of `read_connection` -/

section Read

variable {env : Env}

theorem receive_singleton (chunks : List (List Byte)) (buf : RingBuf) (log : List ℕ) :
    ((receive env [chunks] buf).run log).1 = ((readConnection env chunks buf).run log).1 := by
  rw [receive, Probe.run_bind]
  cases ((readConnection env chunks buf).run log).1 with
  | none => rfl
  | some result =>
      obtain ⟨handed, last⟩ := result
      simp [receive]

/-- The first event handed over is the one that the first call found. -/
theorem handOver_cons {fuel : ℕ} {buf last : RingBuf} {event first lastEvent : Event}
    {log : List ℕ} {rest : List Event}
    (hrun : ((handOver env fuel buf event).run log).1 = some (first :: rest, last, lastEvent)) :
    ∃ picked, ((pickEvent env buf event).run log).1 = some picked ∧ picked.found = true ∧
      picked.event = first := by
  cases fuel with
  | zero => simp [handOver] at hrun
  | succ fuel =>
      obtain ⟨picked, _, hpick, ⟨_, hnil, _⟩ | ⟨hfound, _, hcons, _⟩⟩ :=
        handOver_cases (Prod.ext hrun rfl)
      · cases hnil
      · exact ⟨picked, congrArg Prod.fst hpick, hfound, (List.cons.inj hcons).1.symm⟩

/-- One chunk that makes one event: the event is found by the first call. -/
theorem readConnection_single {chunk : List Byte} {buf last : RingBuf} {event : Event}
    {log : List ℕ}
    (hrun : ((readConnection env [chunk] buf).run log).1 = some ([event], last)) :
    ∃ accepted next picked, buf.put chunk = some (accepted, next) ∧
      ((pickEvent env next ⟨[], []⟩).run log).1 = some picked ∧ picked.found = true ∧
      picked.event = event := by
  rw [readConnection, readChunks] at hrun
  cases hput : buf.put chunk with
  | none =>
      rw [hput] at hrun
      cases hrun
  | some outcome =>
      obtain ⟨accepted, next⟩ := outcome
      rw [hput] at hrun
      simp only [Probe.run_bind] at hrun
      cases hhanded : ((handOver env (next.length + 1) next ⟨[], []⟩).run log).1 with
      | none =>
          rw [hhanded] at hrun
          cases hrun
      | some result =>
          obtain ⟨handed, settled, lastEvent⟩ := result
          rw [hhanded] at hrun
          simp only [readChunks, Probe.run_bind, Probe.run_pure, Option.map_some,
            Option.some.injEq, Prod.mk.injEq, List.append_nil] at hrun
          obtain ⟨rfl, _⟩ := hrun
          obtain ⟨picked, hpicked⟩ := handOver_cons hhanded
          exact ⟨accepted, next, picked, rfl, hpicked⟩

section Fresh

variable {events : List Event} (hsendable : ∀ event ∈ events, event.Sendable)
  (hplaced : FramesAt (FrameInPlace (connectionBufferSize - 1)) 0 events)
  (hallocates : env.Allocates) {host : Host} {dt : List Byte}
  (hdt : dt.length = connectionBufferSize)

include hsendable hplaced hallocates

/-- A fresh connection hands over frames in place, in chunks that fit. -/
theorem readConnection_fresh {chunks : List (List Byte)}
    (hchunks : ∀ chunk ∈ chunks, 1 ≤ chunk.length ∧ chunk.length ≤ 512)
    (hstream : chunks.flatten = packs host events)
    (hfit : ChunksFit (connectionBufferSize - 1) events 0 chunks) :
    ∃ last, ((readConnection env chunks (connectionBuffer dt hdt)).run []).1 =
      some (events, last) := by
  have hflat : [chunks].flatten = chunks := List.flatten_singleton
  obtain ⟨last, hlast⟩ := (receive_eq_iff hsendable (by rwa [hflat])
    (by rw [hflat, hstream]) hdt).mpr ⟨by rwa [hflat], hplaced⟩ env hallocates
  exact ⟨last, by rwa [receive_singleton] at hlast⟩

theorem readConnection_singles :
    ∃ last, ((readConnection env (singles (packs host events)) (connectionBuffer dt hdt)).run
      []).1 = some (events, last) := by
  refine readConnection_fresh hsendable hplaced hallocates hdt ?_ (flatten_singles _) ?_
  · intro chunk hchunk
    rw [length_of_mem_singles hchunk]
    omega
  · refine chunksFit_singles (fun event hevent => (hsendable event hevent).size_le) ?_
    rw [length_packs, Nat.zero_add]

end Fresh

/-- A small event in one chunk. -/
theorem readConnection_named (hallocates : env.Allocates) {n : ℕ} (hn : n ≤ 509) (host : Host)
    {dt : List Byte} (hdt : dt.length = connectionBufferSize) :
    ∃ last, ((readConnection env [(named n).pack host] (connectionBuffer dt hdt)).run []).1 =
      some ([named n], last) := by
  refine @readConnection_fresh env [named n] ?_ ?_ hallocates host dt hdt _ ?_
    (by simp [packs]) ?_
  · intro event hevent
    obtain rfl := List.mem_singleton.mp hevent
    exact sendable_named (by omega)
  · refine ⟨.inl ?_, trivial⟩
    rw [size_named, Nat.zero_mod, connectionBufferSize]
    omega
  · intro chunk hchunk
    obtain rfl := List.mem_singleton.mp hchunk
    rw [Event.length_pack, size_named]
    omega
  · refine ⟨?_, trivial⟩
    have hpending := pending_le [named n] 0
    rw [Event.length_pack, size_named, connectionBufferSize]
    omega

end Read

/-! ## An empty buffer that starts elsewhere -/

section Offset

variable {size : ℕ} (hsize : size < 2 ^ 31) {before events : List Event} {host : Host}
  (hbefore : ∀ event ∈ before, event.size ≤ size)

include hsize hbefore

/-- Some calls leave a buffer empty, with the frames of `before` behind it. -/
theorem exists_reached_total : ∃ buf, Reached size buf (packs host before) (total before) := by
  induction before using List.reverseRecOn with
  | nil => exact ⟨_, @Reached.new size (List.replicate (u32 (size + 1)) 0) (by omega)
      List.length_replicate⟩
  | append_singleton before event ih =>
      obtain ⟨buf, hreached⟩ := ih fun earlier hearlier =>
        hbefore earlier (List.mem_append_left _ hearlier)
      obtain ⟨hbufSize, htally, _⟩ := hreached.contents_eq hsize
      have hevent := hbefore event (by simp)
      rw [length_packs] at htally
      obtain ⟨next, hput, _, hcontents⟩ := @put_of_le buf (by omega) (event.pack host)
        (by rw [Event.length_pack]; omega)
      have hlength := congrArg List.length hcontents
      rw [List.length_append, RingBuf.length_contents, RingBuf.length_contents,
        Event.length_pack] at hlength
      have hnext := Reached.reset (Reached.put hreached
        (by rw [Event.length_pack]; omega) hput)
      rw [if_pos rfl, show next.length = event.size by omega] at hnext
      refine ⟨next.reset, ?_⟩
      simpa [packs] using hnext

variable (hplaced : FramesAt (FrameInPlace size) 0 before)
  (hevents : ∀ event ∈ events, event.size ≤ size)

include hplaced hevents

/-- Events received byte by byte by an empty buffer, whatever the stray byte, are in
place from where it starts. -/
theorem framesAt_of_readConnection {buf : RingBuf} (hbuf : buf.mSize = size)
    (hempty : buf.length = 0) (hstart : buf.mStart = total before % (size + 1))
    (hreads : ∀ stray : Byte, ∃ last, ((readConnection (.straying stray)
      (singles (packs host events)) buf).run []).1 = some (events, last)) :
    FramesAt (FrameInPlace size) (total before) events := by
  obtain ⟨placed, hreached⟩ := @exists_reached_total size hsize before host hbefore
  obtain ⟨hplacedSize, htally, _⟩ := hreached.contents_eq hsize
  have htwin : Twin buf placed := by
    refine ⟨hbuf.trans hplacedSize.symm, ?_, ?_⟩
    · rw [hstart, hreached.mStart_eq hsize]
    · rw [length_packs] at htally
      rw [List.length_eq_zero_iff.mp (buf.length_contents.trans hempty),
        List.length_eq_zero_iff.mp (placed.length_contents.trans (by omega))]
  have hall : ∀ event ∈ before ++ events, event.size ≤ size := fun event hevent =>
    (List.mem_append.mp hevent).elim (hbefore event) (hevents event)
  have htold : ∀ stray : Byte, 3 ≤ stray.toNat →
      FramesAt (FrameTold size host stray) 0 (before ++ events) := by
    intro stray hstray
    obtain ⟨last, hlast⟩ := hreads stray
    obtain ⟨last', hlast', _⟩ := readChunks_twin
      (fun chunk hchunk => (length_of_mem_singles hchunk).le.trans (by norm_num)) htwin
      (by omega) (Prod.ext hlast rfl)
    have hrun : ((receive (.straying stray) [singles (packs host events)] placed).run []).1 =
        some (events, last') := by
      rw [receive_singleton, readConnection, hlast']
    have hstream : (singles (packs host before) ++ singles (packs host events)).flatten =
        packs host (before ++ events) := by
      rw [List.flatten_append, flatten_singles, flatten_singles, packs_append]
    have hchunks : ∀ chunk ∈ singles (packs host before) ++ singles (packs host events),
        1 ≤ chunk.length ∧ chunk.length ≤ 512 := by
      intro chunk hchunk
      have hone := (List.mem_append.mp hchunk).elim length_of_mem_singles length_of_mem_singles
      omega
    have hfit := @chunksFit_singles size (before ++ events) hall (packs host before) 0
      (by rw [length_packs, total_append]; omega)
    have hstart : Accounts size (before ++ events) host stray
        [singles (packs host before)].flatten before placed := by
      rw [List.flatten_singleton]
      refine ⟨_, _, hreached, by rw [flatten_singles], le_rfl, fun _ _ _ => ⟨hfit, ?_⟩⟩
      exact framesAt_of_and hplaced hplaced fun _ _ hinside _ => .inl hinside
    exact (told_of_receive hsize hstream hchunks hstray (by simp) rfl hstart hrun).2
  have htogether := framesAt_of_told (htold 4 (by decide)) (htold 5 (by decide)) (by decide)
  rw [framesAt_append, Nat.zero_add] at htogether
  exact htogether.2

end Offset

/-- Events in place from the beginning of the array, and from no other cell: where
they start, one of them is cut. -/
def telling : List Event :=
  [1, 4089, 2, 4088, 4091, 2].map named

theorem sendable_telling : ∀ event ∈ telling, event.Sendable := by
  intro event hevent
  obtain ⟨n, hn, rfl⟩ := List.mem_map.mp hevent
  apply sendable_named
  simp only [List.mem_cons, List.not_mem_nil, or_false] at hn
  omega

theorem framesAt_telling (sent : ℕ) :
    FramesAt (FrameInPlace (connectionBufferSize - 1)) sent telling ↔
      sent % connectionBufferSize = 0 := by
  simp only [telling, List.map_cons, List.map_nil, FramesAt, FrameInPlace, size_named,
    connectionBufferSize, Nat.reduceSub, Nat.reduceAdd, and_true]
  omega

/-- Any cell of the array comes just after some frames in place. -/
theorem exists_before {start : ℕ} (hpos : 0 < start) (hstart : start < connectionBufferSize) :
    ∃ before : List Event, (∀ event ∈ before, event.size ≤ connectionBufferSize - 1) ∧
      FramesAt (FrameInPlace (connectionBufferSize - 1)) 0 before ∧
      start = total before % connectionBufferSize := by
  rw [connectionBufferSize] at hstart ⊢
  by_cases hshort : start < 3
  -- a frame takes three bytes, so these cells come once around the array
  · refine ⟨[named 4091, named (start - 1)], ?_, ?_, ?_⟩
    · intro event hevent
      simp only [List.mem_cons, List.not_mem_nil, or_false] at hevent
      rcases hevent with rfl | rfl <;> rw [size_named] <;> omega
    · simp [FramesAt, FrameInPlace]
    · simp only [total_cons, total_nil, size_named]
      omega
  · refine ⟨[named (start - 3)], ?_, ?_, ?_⟩
    · intro event hevent
      obtain rfl := List.mem_singleton.mp hevent
      rw [size_named]
      omega
    · simp only [FramesAt, FrameInPlace, size_named, Nat.reduceSub, Nat.reduceAdd, and_true]
      omega
    · simp only [total_cons, total_nil, size_named]
      omega

/-- An empty buffer that hands over the telling events starts where a fresh one does. -/
theorem mStart_of_telling {buf : RingBuf} (hsize : buf.mSize = connectionBufferSize - 1)
    (hempty : buf.length = 0) {host : Host}
    (hreads : ∀ stray : Byte, ∃ last, ((readConnection (.straying stray)
      (singles (packs host telling)) buf).run []).1 = some (telling, last)) :
    buf.mStart = 0 := by
  by_contra hstart
  have hlt : buf.mStart < connectionBufferSize := by
    have hle := buf.hstart
    rw [hsize] at hle
    exact Nat.lt_succ_of_le hle
  obtain ⟨before, hbefore, hplaced, htotal⟩ := exists_before (Nat.pos_of_ne_zero hstart) hlt
  have htold := framesAt_of_readConnection (by decide) hbefore hplaced
    (fun event hevent => (sendable_telling event hevent).size_le) hsize hempty htotal hreads
  rw [framesAt_telling, ← htotal] at htold
  exact hstart htold

/-! ## A buffer that holds bytes -/

section Leftover

variable {buf : RingBuf} {stray : Byte} (hroom : buf.mSize + 65536 < 2 ^ 32)

include hroom

/-- The length of the head frame is seen in its first two bytes, or in the first one
and a stray one. -/
theorem seenNeed_of_take {high low : Byte} (hbytes : buf.contents.take 2 = [high, low]) :
    seenNeed buf stray =
      max 3 (beValue [high, if buf.mStart = buf.mSize then stray else low]) := by
  have hstart := buf.hstart
  have hfirst : buf.contents[0]? = some high := by
    rw [← List.getElem?_take_of_lt (show 0 < 2 by omega), hbytes]
    rfl
  have hsecond : buf.contents[1]? = some low := by
    rw [← List.getElem?_take_of_lt (show 1 < 2 by omega), hbytes]
    rfl
  have hhigh := @value_contents buf (.straying stray) (by omega) 0 high hfirst []
  have hlow := @value_contents buf (.straying stray) (by omega) 1 low hsecond []
  rw [value_straying, Nat.add_zero, Nat.mod_eq_of_lt (by omega)] at hhigh
  rw [value_straying] at hlow
  rw [seenNeed, hhigh]
  by_cases hheader : buf.mStart = buf.mSize
  · rw [if_pos hheader, hheader, seen_past (by omega)]
  · rw [Nat.mod_eq_of_lt (by omega)] at hlow
    rw [if_neg hheader, hlow]

/-- Behind at least one byte, the first byte of a chunk is at most the second of the
contents. -/
theorem take_put (hlength : 1 ≤ buf.length) {byte : Byte} {chunk : List Byte}
    (hchunk : chunk.length + 1 ≤ 512) (hsize : 512 < buf.mSize) {accepted : Bool}
    {next : RingBuf} (hput : buf.put (byte :: chunk) = some (accepted, next)) :
    next.contents.take 2 = (buf.contents ++ [byte]).take 2 := by
  have hle := buf.length_le
  by_cases hfits : buf.length + (byte :: chunk).length ≤ buf.mSize
  · obtain ⟨next', hput', _, hcontents⟩ := put_of_le (by omega) hfits
    obtain ⟨_, rfl⟩ := Prod.mk.inj (Option.some.inj (hput.symm.trans hput'))
    rw [hcontents, List.append_cons, List.take_append_of_le_length]
    rw [List.length_append, RingBuf.length_contents, List.length_singleton]
    omega
  · rw [put_of_lt (by rw [List.length_cons]; omega) (not_le.mp hfits)] at hput
    obtain ⟨_, rfl⟩ := Prod.mk.inj (Option.some.inj hput)
    rw [List.length_cons] at hfits
    rw [List.take_append_of_le_length (by rw [RingBuf.length_contents]; omega)]

/-- A buffer that holds a byte has the length of the next event already, if that is
less than 256. -/
theorem exists_size_of_leftover (hlength : 1 ≤ buf.length) (hsize : 512 < buf.mSize)
    (stray : Byte) : ∃ size, ∀ (host : Host) (event : Event), event.size < 256 →
      (∃ last, ((readConnection (.straying stray) [event.pack host] buf).run []).1 =
        some ([event], last)) → event.size = size := by
  obtain ⟨high, low, hbytes⟩ : ∃ high low, (buf.contents ++ [0]).take 2 = [high, low] := by
    apply List.length_eq_two.mp
    rw [List.length_take, List.length_append, RingBuf.length_contents, List.length_singleton]
    omega
  refine ⟨max 3 (beValue [high, if buf.mStart = buf.mSize then stray else low]), ?_⟩
  rintro host event hevent ⟨last, hrun⟩
  obtain ⟨accepted, next, picked, hput, hpick, hfound, rfl⟩ := readConnection_single hrun
  have hpack : picked.event.pack host = 0 :: (picked.event.pack host).tail := by
    have hzero : UInt8.ofNat (picked.event.size / 256) = 0 := by
      rw [Nat.div_eq_of_lt hevent]
      rfl
    rw [Event.pack_eq, beBytes, leBytes, leBytes, leBytes, hzero]
    rfl
  have htail : (picked.event.pack host).tail.length + 1 ≤ 512 := by
    have hthree := picked.event.three_le_size
    rw [List.length_tail, Event.length_pack]
    omega
  rw [hpack] at hput
  have hnextSize : next.mSize = buf.mSize := by
    obtain ⟨_, _, hput', hsame⟩ := put_isSome hroom (show (0 :: _).length ≤ 512 from htail)
    cases hput.symm.trans hput'
    exact hsame
  have hseen := (pickEvent_seen (by rwa [hnextSize]) hpick hfound).2.1
  rw [← seenNeed, @seenNeed_of_take next stray (by rwa [hnextSize]) high low
    ((take_put hroom hlength htail hsize hput).trans hbytes), hnextSize, put_mStart hput] at hseen
  exact hseen.symm

end Leftover

end Sednl.Ring
