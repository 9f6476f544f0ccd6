import Sednl.Ring.Offset

/-!
# Which chunks are refused

`read_connection` does not look at what `put` returns.  For a stream of frames it
depends on what is pending when a chunk comes in, the bytes of the frame that is not
whole yet: with up to 512 bytes more they have to fit, and a frame need not be larger
than the buffer for them not to.
-/

namespace Sednl.Ring

open Sednl.Endian
open Sednl.Tag

/-- Each chunk is accepted by the buffer that the chunks before it leave. -/
def Accepts (env : Env) (calls : List (List (List Byte))) (buf : RingBuf) : Prop :=
  ∀ before front chunk back after handed last,
    calls = before ++ (front ++ chunk :: back) :: after →
    ((receive env (before ++ [front]) buf).run []).1 = some (handed, last) →
    ∃ next, last.put chunk = some (true, next)

/-- No frame that starts before the last chunk is cut by the end of the array. -/
def PlacedBefore (size : ℕ) (events : List Event) (all : List (List Byte)) : Prop :=
  ∀ received chunk rest, all = received ++ chunk :: rest →
    FramesAt (fun start event =>
      start < received.flatten.length → FrameInPlace size start event) 0 events

section Split

variable {α : Type}

/-- An element of a flattened list stands in one of the lists. -/
theorem exists_split_of_flatten {lists : List (List α)} {received rest : List α} {value : α}
    (hflatten : lists.flatten = received ++ value :: rest) :
    ∃ before front back after, lists = before ++ (front ++ value :: back) :: after ∧
      received = (before ++ [front]).flatten := by
  induction lists generalizing received with
  | nil => simp at hflatten
  | cons list lists ih =>
      rw [List.flatten_cons] at hflatten
      rcases List.append_eq_append_iff.mp hflatten with ⟨more, rfl, hrest⟩ | ⟨more, rfl, hrest⟩
      · obtain ⟨before, front, back, after, rfl, rfl⟩ := ih hrest
        exact ⟨list :: before, front, back, after, rfl, by simp⟩
      · cases more with
        | nil =>
            obtain ⟨before, front, back, after, hlists, hnil⟩ := @ih [] hrest.symm
            exact ⟨received :: before, front, back, after, by simp [hlists],
              by rw [List.cons_append, List.flatten_cons, ← hnil, List.append_nil]⟩
        | cons head more =>
            rw [List.cons_append, List.cons.injEq] at hrest
            obtain ⟨rfl, -⟩ := hrest
            exact ⟨[], received, more, lists, rfl, by simp⟩

end Split

/-! ## Up to a chunk -/

section Chunks

variable {size : ℕ} {events : List Event} {host : Host} {all : List (List Byte)}
  (hsize : size < 2 ^ 31) (hstream : all.flatten = packs host events)
  (hsendable : ∀ event ∈ events, event.Sendable)
  (hchunks : ∀ chunk ∈ all, 1 ≤ chunk.length ∧ chunk.length ≤ 512)
  {env : Env} (hallocates : env.Allocates) {buf : RingBuf} (hfresh : Reached size buf [] 0)

include hsize hstream hsendable hallocates hfresh

/-- Chunks that fit leave what is pending, as long as the frames they begin are in
place. -/
theorem settled_of_receive {front : List (List (List Byte))} {handed : List Event}
    {last : RingBuf} (hfront : front.flatten <+: all)
    (hplaced : FramesAt (fun start event =>
      start < front.flatten.flatten.length → FrameInPlace size start event) 0 events)
    (hfit : ChunksFit size events 0 front.flatten)
    (hrun : ((receive env front buf).run []).1 = some (handed, last)) :
    Settled size events all front.flatten handed last := by
  obtain ⟨-, htally, -⟩ := hfresh.contents_eq hsize
  have hstart : Settled size events all [] [] buf := by
    refine ⟨⟨hfresh, List.nil_prefix, List.nil_prefix⟩, ?_⟩
    have hnone := pending_le events 0
    rw [List.length_nil] at htally
    rw [List.flatten_nil, List.length_nil]
    omega
  have hwithin : ∀ received : List (List Byte), received <+: front.flatten →
      FramesAt (fun start event =>
        start < received.flatten.length → FrameInPlace size start event) 0 events := by
    intro received hreceived
    obtain ⟨rest, hrest⟩ := hreceived
    refine framesAt_of_and hplaced hplaced fun start event hplace _ hlt => hplace ?_
    rw [← hrest, List.flatten_append, List.length_append]
    omega
  obtain ⟨later, hlater⟩ := hfront
  have hlast := @receive_rule env front.flatten
    (fun received handed buf => Settled size events all received handed buf ∧
      received <+: front.flatten)
    (fun received handed buf => Arriving size events all received handed buf ∧
      received <+: front.flatten)
    (fun {received chunk rest _ _ _ _} hall hsettled hput => by
      have hchunk := hfit
      rw [hall, chunksFit_append, ChunksFit, Nat.zero_add] at hchunk
      have hahead : all = received ++ chunk :: (rest ++ later) := by
        rw [← hlater, hall, List.append_assoc, List.cons_append]
      exact ⟨hsettled.1.put hsize hchunk.2.1 hahead hput, ⟨rest, by rw [hall]; simp⟩⟩)
    (fun harriving hpick => fun hfound => ⟨(harriving.1.pick hsize hstream hsendable
      (hwithin _ harriving.2) hallocates hpick).2 hfound, harriving.2⟩)
    (fun harriving hpick => fun hfound => ⟨(harriving.1.pick hsize hstream hsendable
      (hwithin _ harriving.2) hallocates hpick).1 hfound, harriving.2⟩)
    front [] [] handed buf last [] rfl ⟨hstart, List.nil_prefix⟩ hrun
  rw [List.nil_append] at hlast
  exact hlast.1

include hchunks

/-- Behind chunks that fit, `put` accepts the next one exactly when it
fits behind what is pending. -/
theorem put_iff_of_receive {front : List (List (List Byte))} {chunk : List Byte}
    {rest : List (List Byte)} (hall : all = front.flatten ++ chunk :: rest)
    (hplaced : PlacedBefore size events all) (hfit : ChunksFit size events 0 front.flatten)
    {handed : List Event} {last : RingBuf}
    (hrun : ((receive env front buf).run []).1 = some (handed, last)) :
    (∃ next, last.put chunk = some (true, next)) ↔
      pending events front.flatten.flatten.length + chunk.length ≤ size := by
  have hsettled := settled_of_receive hsize hstream hsendable hallocates hfresh
    ⟨chunk :: rest, hall.symm⟩ (hplaced _ _ _ hall) hfit hrun
  obtain ⟨rfl, -, -⟩ := hsettled.hreached.contents_eq hsize
  have hshort := (hchunks chunk (by rw [hall]; simp)).2
  have hbound := last.length_le
  rw [hsettled.hpending]
  constructor
  · rintro ⟨next, hput⟩
    by_contra hfull
    rw [put_of_lt (by omega) (not_le.mp hfull)] at hput
    cases hput
  · intro hroom
    obtain ⟨next, hput, -⟩ := put_of_le (by omega) hroom
    exact ⟨next, hput⟩

/-- The run lemma, over the chunks from the first one on. -/
theorem chunksFit_of_accepts {calls : List (List (List Byte))} (hcalls : all = calls.flatten)
    (hroom : buf.mSize + 65536 < 2 ^ 32) (hplaced : PlacedBefore size events all)
    (haccepts : Accepts env calls buf) {received rest : List (List Byte)}
    (hall : all = received ++ rest) : ChunksFit size events 0 received := by
  induction received using List.reverseRecOn generalizing rest with
  | nil => trivial
  | append_singleton received chunk ih =>
      rw [List.append_assoc, List.singleton_append] at hall
      have hfit := ih hall
      obtain ⟨before, front, back, after, hsplit, rfl⟩ :=
        exists_split_of_flatten (hcalls.symm.trans hall)
      obtain ⟨handed, last, hrun⟩ := @receive_isSome env (before ++ [front])
        (fun chunk hmem => (hchunks chunk (by rw [hall]; exact List.mem_append_left _ hmem)).2)
        buf hroom []
      have hput := (put_iff_of_receive hsize hstream hsendable hchunks hallocates hfresh hall
        hplaced hfit hrun).mp (haccepts _ _ _ _ _ _ _ hsplit hrun)
      refine chunksFit_append.mpr ⟨hfit, ?_, trivial⟩
      rwa [Nat.zero_add]

theorem accepts_of_chunksFit {calls : List (List (List Byte))} (hcalls : all = calls.flatten)
    (hplaced : PlacedBefore size events all) (hfit : ChunksFit size events 0 all) :
    Accepts env calls buf := by
  intro before front chunk back after handed last hsplit hrun
  have hall : all = (before ++ [front]).flatten ++ chunk :: (back ++ after.flatten) := by
    rw [hcalls, hsplit]
    simp
  have hchunk := hfit
  rw [hall, chunksFit_append, ChunksFit, Nat.zero_add] at hchunk
  exact (put_iff_of_receive hsize hstream hsendable hchunks hallocates hfresh hall hplaced
    hchunk.1 hrun).mpr hchunk.2.1

end Chunks

/-- The frames of some events come in as results of `recv`, none of those that start
before the last of these being cut by the end of the array: no chunk is refused, if and
only if each one fits behind the bytes of the frame that is not whole yet. -/
theorem accepts_iff {host : Host} {events : List Event}
    (hsendable : ∀ event ∈ events, event.Sendable) {calls : List (List (List Byte))}
    (hchunks : ∀ chunk ∈ calls.flatten, 1 ≤ chunk.length ∧ chunk.length ≤ 512)
    (hstream : calls.flatten.flatten = packs host events)
    (hplaced : PlacedBefore (connectionBufferSize - 1) events calls.flatten) {dt : List Byte}
    (hdt : dt.length = connectionBufferSize) {env : Env} (hallocates : env.Allocates) :
    Accepts env calls (connectionBuffer dt hdt) ↔
      ChunksFit (connectionBufferSize - 1) events 0 calls.flatten := by
  have hfresh := reached_connectionBuffer hdt
  have hsize : connectionBufferSize - 1 < 2 ^ 31 := by decide
  have hroom : (connectionBuffer dt hdt).mSize + 65536 < 2 ^ 32 := by
    change connectionBufferSize - 1 + 65536 < 2 ^ 32
    decide
  constructor
  · intro haccepts
    exact chunksFit_of_accepts hsize hstream hsendable hchunks hallocates hfresh rfl hroom
      hplaced haccepts (List.append_nil _).symm
  · exact accepts_of_chunksFit hsize hstream hsendable hchunks hallocates hfresh rfl hplaced

theorem placedBefore_of_framesAt {size : ℕ} {events : List Event}
    (hplaced : FramesAt (FrameInPlace size) 0 events) (all : List (List Byte)) :
    PlacedBefore size events all :=
  fun _ _ _ _ => framesAt_of_and hplaced hplaced fun _ _ hplace _ _ => hplace

theorem accepts_iff_two_chunks :
    Accepts .ample [[[0, 4], [97, 0]]]
      (connectionBuffer (List.replicate 4096 0) List.length_replicate) := by
  have hsendable : ∀ event ∈ [(⟨[97], []⟩ : Event)], event.Sendable := by
    intro event hevent
    obtain rfl := List.mem_singleton.mp hevent
    exact Event.sendable_of_name (by decide) (by decide)
  exact (@accepts_iff .little _ hsendable _ (by decide) (by decide)
    (placedBefore_of_framesAt (by decide) _) _ List.length_replicate _
    Env.allocates_ample).mpr (by decide)

/-- Results of `recv` of 512 bytes each. -/
def fulls (stream : List Byte) (count : ℕ) : List (List Byte) :=
  (List.range count).map fun k => (stream.drop (512 * k)).take 512

theorem flatten_fulls (stream : List Byte) (count : ℕ) :
    (fulls stream count).flatten = stream.take (512 * count) := by
  induction count with
  | zero => rfl
  | succ count ih =>
      rw [fulls, List.range_succ, List.map_append, List.flatten_append, ← fulls, ih,
        Nat.mul_add_one, List.take_add]
      simp

theorem length_of_mem_fulls {stream chunk : List Byte} {count : ℕ}
    (hcount : 512 * count ≤ stream.length) (hchunk : chunk ∈ fulls stream count) :
    chunk.length = 512 := by
  obtain ⟨k, hk, rfl⟩ := List.mem_map.mp hchunk
  rw [List.mem_range] at hk
  rw [List.length_take, List.length_drop]
  omega

/-- The frames of two events, of 4000 and 96 bytes. -/
def crowded : List Byte :=
  packs .little [named 3997, named 93]

theorem length_crowded : crowded.length = 4096 := by
  simp [crowded]

/-- The eighth chunk comes in while 3584 bytes of the first frame are pending. -/
theorem not_accepts_crowded :
    (∀ event ∈ [named 3997, named 93], event.Sendable) ∧
      (∀ chunk ∈ fulls crowded 8, chunk.length = 512) ∧
      (fulls crowded 8).flatten = packs .little [named 3997, named 93] ∧
      ¬ Accepts .ample [fulls crowded 8]
        (connectionBuffer (List.replicate 4096 0) List.length_replicate) := by
  have hsendable : ∀ event ∈ [named 3997, named 93], event.Sendable := by
    intro event hevent
    simp only [List.mem_cons, List.not_mem_nil, or_false] at hevent
    rcases hevent with rfl | rfl
    · exact sendable_named (by norm_num)
    · exact sendable_named (by norm_num)
  have hchunks : ∀ chunk ∈ fulls crowded 8, chunk.length = 512 :=
    fun chunk hchunk => length_of_mem_fulls (by rw [length_crowded]) hchunk
  have hflatten : (fulls crowded 8).flatten = packs .little [named 3997, named 93] := by
    rw [flatten_fulls, List.take_of_length_le (by rw [length_crowded])]
    rfl
  refine ⟨hsendable, hchunks, hflatten, fun haccepts => ?_⟩
  have hplaced := placedBefore_of_framesAt
    (show FramesAt (FrameInPlace (connectionBufferSize - 1)) 0 [named 3997, named 93] by
      norm_num [FramesAt, FrameInPlace, connectionBufferSize]) (fulls crowded 8)
  have hfit := @chunksFit_of_accepts (connectionBufferSize - 1) [named 3997, named 93] .little
    (fulls crowded 8) (by decide) hflatten hsendable
    (fun chunk hchunk => by rw [hchunks chunk hchunk]; decide) .ample Env.allocates_ample _
    (reached_connectionBuffer List.length_replicate) [fulls crowded 8] (by simp) (by decide)
    hplaced haccepts (fulls crowded 8) [] (List.append_nil _).symm
  have hlast : ((crowded.drop (512 * 7)).take 512).length = 512 := by
    rw [List.length_take, List.length_drop, length_crowded]
    norm_num
  have hsplit : fulls crowded 8 = fulls crowded 7 ++ [(crowded.drop (512 * 7)).take 512] := by
    rw [fulls, List.range_succ, List.map_append]
    rfl
  rw [hsplit, chunksFit_append, flatten_fulls, List.length_take, length_crowded] at hfit
  have hroom := hfit.2.1
  rw [hlast] at hroom
  norm_num [pending, connectionBufferSize] at hroom

end Sednl.Ring
