import Sednl.Library.Transition
import Sednl.Ring.Lossless

/-!
# When the receive path gets stuck

A live connection takes chunks from the kernel and picks events until a pick
finds none.  It is stuck when its buffer has no room for a chunk and picks
remove nothing: behind a frame longer than the buffer, behind an unfinished one
that leaves no room, or behind a whole one whose packet is not valid, which is
announced as dropped and stays where it is.
-/

namespace Sednl.Ring

open Sednl.Endian
open Sednl.Memory
open Sednl.Tag
open Sednl.Word
open Sednl.Circular
open Sednl.Grammar
open Sednl.Transition

/-! ## The head frame -/

/-- The length `pick_event` takes the head frame to have. -/
def frameLength (contents : List Byte) : ℕ :=
  max 3 (beValue (contents.take 2))

/-- Where `pick_event` looks for the frame after the head frame. -/
def nextFrame (contents : List Byte) : List Byte :=
  contents.drop (frameLength contents)

/-- What the head frame holds behind its length. -/
def frameBody (contents : List Byte) : List Byte :=
  (contents.drop 2).take (frameLength contents - 2)

/-- A whole head frame that a pick can take away, in an array whose first
occupied cell is `start`: it is in place, and it has no NUL or a valid packet. -/
def HeadClears (start : ℕ) (contents : List Byte) : Prop :=
  frameLength contents ≤ contents.length ∧ start + 1 ≤ connectionBufferSize - 1 ∧
    (start + frameLength contents ≤ connectionBufferSize ∨
      start + 2 = connectionBufferSize) ∧
    (0 ∈ frameBody contents → WellFormed (bodyPacket (frameBody contents)))

/-- Frames that can be taken away one after the other, until a chunk fits
behind what is left. -/
inductive Clears : (start : ℕ) → (contents : List Byte) → Prop
  | short {start : ℕ} {contents : List Byte}
      (hlength : contents.length + 512 ≤ connectionBufferSize - 1) : Clears start contents
  | frame {start : ℕ} {contents : List Byte} (hhead : HeadClears start contents)
      (hrest : Clears ((start + frameLength contents) % connectionBufferSize)
        (nextFrame contents)) : Clears start contents

/-! ## A live connection -/

/-- The buffer, the local `e` of `read_connection`, and whether its inner loop
is running. -/
structure Receiver where
  mBuffer : RingBuf
  event : Event
  picking : Bool

def Receiver.start (dt : List Byte) (hdt : dt.length = connectionBufferSize) : Receiver :=
  ⟨connectionBuffer dt hdt, ⟨[], []⟩, false⟩

inductive Receiver.Action where
  /-- `recv` returns a chunk, and it is put. -/
  | recv (chunk : List Byte)
  /-- One call of `pick_event`. -/
  | pick (env : Env)

/-- The steps of `read_connection` on an open connection. -/
def Receiver.step (state : Receiver) : Receiver.Action → Option Receiver
  | .recv chunk =>
      if !state.picking ∧ 1 ≤ chunk.length ∧ chunk.length ≤ 512 then
        (state.mBuffer.put chunk).map fun result => ⟨result.2, state.event, true⟩
      else none
  | .pick env =>
      if state.picking then
        ((pickEvent env state.mBuffer state.event).run []).1.map fun picked =>
          ⟨picked.buf, picked.event, picked.found⟩
      else none

/-- Any chunk fits, or any pick that can allocate removes a non-empty prefix. -/
def Live (buf : RingBuf) : Prop :=
  (∀ chunk : List Byte, chunk.length ≤ 512 → ∃ next, buf.put chunk = some (true, next)) ∨
    ∀ (env : Env) (event : Event) (log : List ℕ), env.Allocates →
      ∃ picked k, ((pickEvent env buf event).run log).1 = some picked ∧
        0 < k ∧ k ≤ buf.length ∧ picked.buf.contents = buf.contents.drop k

/-- A chunk that fits is safe when what the buffer then holds can be cleared. -/
def Receiver.Safe (state : Receiver) : Receiver.Action → Prop
  | .recv chunk =>
      state.mBuffer.length + chunk.length ≤ connectionBufferSize - 1 →
        Clears state.mBuffer.mStart (state.mBuffer.contents ++ chunk)
  | .pick _ => True

/-! ## Which buffers are live -/

section Live

variable {buf : RingBuf} (hsize : buf.mSize = connectionBufferSize - 1)

include hsize

theorem lt_of_size : buf.mSize + 65536 < 2 ^ 32 := by
  rw [hsize]
  norm_num [connectionBufferSize]

theorem not_dropWraps : ¬ buf.DropWraps := by
  rintro ⟨_, _, _, hsum⟩
  have hstart := buf.hstart
  have hneed := buf.need_le
  have hroom := lt_of_size hsize
  omega

theorem HeadClears.inPlace (hclears : HeadClears buf.mStart buf.contents) : buf.InPlace := by
  obtain ⟨_, hheader, hplace, _⟩ := hclears
  have hcells : buf.mSize + 1 = connectionBufferSize := by
    rw [hsize]
    rfl
  exact .inr ⟨hsize ▸ hheader, .inr (hcells ▸ hplace)⟩

/-- A head frame that clears is what a pick removes. -/
theorem HeadClears.pick (hclears : HeadClears buf.mStart buf.contents) {env : Env}
    (hallocates : env.Allocates) (event : Event) (log : List ℕ) :
    ∃ picked, ((pickEvent env buf event).run log).1 = some picked ∧
      picked.buf.contents = nextFrame buf.contents := by
  have hroom := lt_of_size hsize
  obtain ⟨next, hresult, hcontents⟩ :=
    @pickResult_eq buf env (by omega) (not_dropWraps hsize) event
  have hrun := pickEvent_inPlace hallocates (by omega) (hclears.inPlace hsize) event log
  rw [hresult] at hrun
  obtain ⟨picked, hpick, hpicked⟩ := Option.map_eq_some_iff.mp hrun
  obtain ⟨_, hrest⟩ := Prod.mk.inj hpicked
  obtain ⟨_, rfl⟩ := Prod.mk.inj hrest
  refine ⟨picked, hpick, hcontents.trans ?_⟩
  obtain ⟨hwhole, _, _, hpacket⟩ := hclears
  have hthree : 3 ≤ frameLength buf.contents := le_max_left _ _
  rw [pickContents, ← frameLength, ← frameBody]
  rw [if_neg (by omega)]
  by_cases hzero : 0 ∈ frameBody buf.contents
  · rw [if_pos hzero, if_pos (hpacket hzero)]
    rfl
  · rw [if_neg hzero]
    rfl

/-- In place, a pick that can allocate removes the head frame, or nothing when
the frame does not clear. -/
theorem pick_of_not_headClears (hplace : buf.InPlace)
    (hclears : ¬ HeadClears buf.mStart buf.contents) {env : Env}
    (hallocates : env.Allocates) (event : Event) (log : List ℕ) :
    ∃ picked, ((pickEvent env buf event).run log).1 = some picked ∧
      picked.found = false ∧ picked.buf.contents = buf.contents := by
  have hroom := lt_of_size hsize
  obtain ⟨next, hresult, hcontents⟩ :=
    @pickResult_eq buf env (by omega) (not_dropWraps hsize) event
  have hrun := pickEvent_inPlace hallocates (by omega) hplace event log
  rw [hresult] at hrun
  obtain ⟨picked, hpick, hpicked⟩ := Option.map_eq_some_iff.mp hrun
  obtain ⟨hfound, hrest⟩ := Prod.mk.inj hpicked
  obtain ⟨_, rfl⟩ := Prod.mk.inj hrest
  have hkeeps : (pickContents buf.contents event).1 = false ∧
      (pickContents buf.contents event).2.2 = buf.contents := by
    rw [pickContents, ← frameLength, ← frameBody]
    by_cases hcut : buf.contents.length < 2 ∨ buf.contents.length < frameLength buf.contents
    · rw [if_pos hcut]
      exact ⟨rfl, rfl⟩
    · rw [if_neg hcut]
      obtain ⟨htwo, hwhole⟩ := not_or.mp hcut
      have hcells : buf.mSize + 1 = connectionBufferSize := by
        rw [hsize]
        rfl
      have hplaced : buf.mStart + 1 ≤ connectionBufferSize - 1 ∧
          (buf.mStart + frameLength buf.contents ≤ connectionBufferSize ∨
            buf.mStart + 2 = connectionBufferSize) := by
        rw [← hsize, ← hcells]
        rw [RingBuf.length_contents] at htwo hwhole
        rcases hplace with hshort | ⟨hheader, hcut | hfits⟩
        · exact absurd hshort htwo
        · exact absurd hcut hwhole
        · exact ⟨hheader, hfits⟩
      have hinvalid : 0 ∈ frameBody buf.contents ∧
          ¬ WellFormed (bodyPacket (frameBody buf.contents)) := by
        by_contra hvalid
        refine hclears ⟨not_lt.mp hwhole, hplaced.1, hplaced.2, fun hzero => ?_⟩
        by_contra hpacket
        exact hvalid ⟨hzero, hpacket⟩
      rw [if_pos hinvalid.1, if_neg hinvalid.2]
      exact ⟨rfl, rfl⟩
  exact ⟨picked, hpick, hfound.trans hkeeps.1, hcontents.trans hkeeps.2⟩

/-- A buffer whose head frame is in place is live exactly when a chunk fits or
the head frame clears. -/
theorem live_iff (hplace : buf.InPlace) :
    Live buf ↔ buf.length + 512 ≤ connectionBufferSize - 1 ∨
      HeadClears buf.mStart buf.contents := by
  have hroom := lt_of_size hsize
  constructor
  · intro hlive
    by_contra hstuck
    obtain ⟨hfull, hclears⟩ := not_or.mp hstuck
    rcases hlive with hput | hpick
    · obtain ⟨next, hput⟩ := hput (List.replicate 512 0)
        List.length_replicate.le
      have hle := buf.length_le
      rw [put_of_lt (by rw [List.length_replicate]; omega)
        (by rw [List.length_replicate, hsize]; omega)] at hput
      cases hput
    · obtain ⟨picked, k, hrun, hpos, hle, hdrop⟩ :=
        hpick .ample ⟨[], []⟩ [] Env.allocates_ample
      obtain ⟨picked', hrun', _, hsame⟩ := pick_of_not_headClears hsize hplace hclears
        Env.allocates_ample ⟨[], []⟩ []
      obtain rfl := Option.some.inj (hrun.symm.trans hrun')
      have hlengths := congrArg List.length (hsame.symm.trans hdrop)
      rw [List.length_drop, RingBuf.length_contents] at hlengths
      omega
  · rintro (hfits | hclears)
    · refine .inl fun chunk hchunk => ?_
      obtain ⟨next, hput, _⟩ := @put_of_le buf (by omega) chunk (by rw [hsize]; omega)
      exact ⟨next, hput⟩
    · refine .inr fun env event log hallocates => ?_
      obtain ⟨picked, hrun, hcontents⟩ := hclears.pick hsize hallocates event log
      have hthree : 3 ≤ frameLength buf.contents := le_max_left _ _
      have hwhole := hclears.1
      rw [RingBuf.length_contents] at hwhole
      exact ⟨picked, frameLength buf.contents, hrun, by omega, hwhole, hcontents⟩

/-- Whatever its frames are, a buffer that can be cleared is live. -/
theorem Clears.live (hclears : Clears buf.mStart buf.contents) : Live buf := by
  cases hclears with
  | short hlength =>
      have hroom := lt_of_size hsize
      rw [RingBuf.length_contents] at hlength
      refine .inl fun chunk hchunk => ?_
      obtain ⟨next, hput, _⟩ := @put_of_le buf (by omega) chunk (by rw [hsize]; omega)
      exact ⟨next, hput⟩
  | frame hhead hrest => exact (live_iff hsize (hhead.inPlace hsize)).mpr (.inr hhead)

end Live

/-! ## What the steps keep -/

theorem putBytes_mStart {string : List Byte} {buf next : RingBuf}
    (hput : RingBuf.putBytes string buf = some next) : next.mStart = buf.mStart := by
  induction string generalizing buf with
  | nil =>
      obtain rfl := Option.some.inj hput
      rfl
  | cons byte string ih =>
      rw [RingBuf.putBytes, RingBuf.putByte] at hput
      split at hput
      · cases hput
      · rw [Option.bind_some] at hput
        have hlast := ih hput
        exact hlast

theorem put_mStart {buf next : RingBuf} {string : List Byte} {accepted : Bool}
    (hput : buf.put string = some (accepted, next)) : next.mStart = buf.mStart := by
  rw [RingBuf.put] at hput
  split at hput
  · cases hput
    rfl
  · obtain ⟨last, hbytes, heq⟩ := Option.map_eq_some_iff.mp hput
    cases heq
    exact putBytes_mStart hbytes

/-- A pick that removes `k` bytes moves the start by `k` around the array. -/
theorem RingBuf.Restarted.mStart_eq {buf next : RingBuf} (hnext : buf.Restarted next) {k : ℕ}
    (hlength : next.length + k = buf.length) :
    next.mStart = (buf.mStart + k) % (buf.mSize + 1) := by
  obtain ⟨hsize, hend⟩ := hnext.kept
  have hbefore := add_distance (Nat.lt_succ_of_le buf.hstart) (Nat.lt_succ_of_le buf.hend)
  have hafter := add_distance (Nat.lt_succ_of_le next.hstart) (Nat.lt_succ_of_le next.hend)
  rw [← RingBuf.length_eq, ← hlength, Nat.add_comm next.length, ← Nat.add_assoc] at hbefore
  rw [← RingBuf.length_eq, hsize, hend, ← hbefore] at hafter
  have hsame : next.mStart ≡ buf.mStart + k [MOD buf.mSize + 1] :=
    Nat.ModEq.add_right_cancel' next.length hafter
  rwa [Nat.ModEq, Nat.mod_eq_of_lt (hsize ▸ Nat.lt_succ_of_le next.hstart)] at hsame

/-- Whatever it reads and whatever fails, a pick leaves what can be cleared. -/
theorem Clears.pick {buf : RingBuf} (hsize : buf.mSize = connectionBufferSize - 1)
    (hclears : Clears buf.mStart buf.contents) {env : Env} {event : Event} {log : List ℕ}
    {picked : Picked} (hpick : ((pickEvent env buf event).run log).1 = some picked) :
    picked.buf.mSize = buf.mSize ∧ Clears picked.buf.mStart picked.buf.contents := by
  have hroom := lt_of_size hsize
  have hrestarted := pickFrom_restarted hpick
  refine ⟨hrestarted.kept.1, ?_⟩
  cases hclears with
  | short hlength =>
      obtain ⟨picked', hpick', hremoves⟩ :=
        @pickFrom_removes buf env (buf.memory env) event hroom log
      obtain rfl := Option.some.inj (hpick.symm.trans hpick')
      obtain ⟨k, _, hdrop⟩ := hremoves.hcontents
      apply Clears.short
      rw [hdrop, List.length_drop]
      omega
  | frame hhead hrest =>
      obtain ⟨hwhole, hheader, _⟩ := hhead
      have hthree : 3 ≤ frameLength buf.contents := le_max_left _ _
      have hbound : frameLength buf.contents ≤ 65535 := buf.need_le
      have hneed : buf.need = frameLength buf.contents := rfl
      rw [RingBuf.length_contents] at hwhole
      rw [pickEvent_run (by omega) (by omega) (by omega), hneed,
        if_neg (not_lt.mpr hwhole)] at hpick
      obtain ⟨picked', hpick', hremoves⟩ := @pickFrame_removesFrame buf env
        (buf.memory env) event hroom (frameLength buf.contents) hthree (by omega) hwhole _
      obtain rfl := Option.some.inj (hpick.symm.trans hpick')
      rcases hremoves.hcontents with ⟨_, hsame⟩ | hdrop
      · have hlength : picked.buf.length + 0 = buf.length := by
          rw [Nat.add_zero, ← RingBuf.length_contents, hsame, RingBuf.length_contents]
        have hstart := hrestarted.mStart_eq hlength
        rw [Nat.add_zero, Nat.mod_eq_of_lt (Nat.lt_succ_of_le buf.hstart)] at hstart
        rw [hsame, hstart]
        exact .frame ⟨by rwa [RingBuf.length_contents], hheader, ‹_›⟩ hrest
      · have hlength : picked.buf.length + frameLength buf.contents = buf.length := by
          rw [← RingBuf.length_contents, hdrop, List.length_drop, RingBuf.length_contents]
          omega
        have hcells : buf.mSize + 1 = connectionBufferSize := by
          rw [hsize]
          rfl
        rw [hdrop, hrestarted.mStart_eq hlength, hcells]
        exact hrest

/-- The buffer of a connection, clear of what could stop it. -/
structure Receiver.Clear (state : Receiver) : Prop where
  hsize : state.mBuffer.mSize = connectionBufferSize - 1
  hclears : Clears state.mBuffer.mStart state.mBuffer.contents

theorem Receiver.clear_start (dt : List Byte) (hdt : dt.length = connectionBufferSize) :
    (Receiver.start dt hdt).Clear := by
  refine ⟨rfl, .short ?_⟩
  rw [RingBuf.length_contents]
  exact show 0 + 512 ≤ 4095 by norm_num

theorem Receiver.Clear.step {state next : Receiver} {action : Receiver.Action}
    (hclear : state.Clear) (hsafe : state.Safe action)
    (hstep : state.step action = some next) : next.Clear := by
  obtain ⟨hsize, hclears⟩ := hclear
  cases action with
  | recv chunk =>
      rw [Receiver.step] at hstep
      split at hstep
      · rename_i hchunk
        obtain ⟨⟨accepted, buf⟩, hput, rfl⟩ := Option.map_eq_some_iff.mp hstep
        have hstart := put_mStart hput
        have hroom := lt_of_size hsize
        have hle := state.mBuffer.length_le
        by_cases hfits : state.mBuffer.length + chunk.length ≤ connectionBufferSize - 1
        · obtain ⟨buf', hput', hbufSize, hcontents⟩ :=
            @put_of_le state.mBuffer (by omega) chunk (by omega)
          cases hput.symm.trans hput'
          refine ⟨hbufSize.trans hsize, ?_⟩
          simp only [hstart, hcontents]
          exact hsafe hfits
        · rw [put_of_lt (by omega) (by omega)] at hput
          cases hput
          exact ⟨hsize, hclears⟩
      · cases hstep
  | pick env =>
      rw [Receiver.step] at hstep
      split at hstep
      · obtain ⟨picked, hpick, rfl⟩ := Option.map_eq_some_iff.mp hstep
        obtain ⟨hkept, hleft⟩ := hclears.pick hsize hpick
        exact ⟨hkept.trans hsize, hleft⟩
      · cases hstep

/-- As long as each chunk that fits completes or extends frames that can be
cleared, no state of a connection is stuck, whatever fails in a pick. -/
theorem live_of_reaches (dt : List Byte) (hdt : dt.length = connectionBufferSize)
    {state : Receiver}
    (hreaches : Reaches Receiver.step Receiver.Safe (Receiver.start dt hdt) state) :
    Live state.mBuffer := by
  have hclear : state.Clear := hreaches.invariant
    (fun hclear hsafe hstep => hclear.step hsafe hstep) (Receiver.clear_start dt hdt)
  exact hclear.hclears.live hclear.hsize

/-- A frame with a name and a packet arrives with one that has no NUL; the first is
delivered, and the second dropped. -/
theorem live_of_reaches_pair :
    ∃ state, Reaches Receiver.step Receiver.Safe
        (Receiver.start (List.replicate 4096 0) List.length_replicate) state ∧
      state.event = ⟨[112], [1, 42]⟩ ∧ state.mBuffer.mStart = 11 ∧ Live state.mBuffer := by
  have hrun : (run Receiver.step
      (Receiver.start (List.replicate 4096 0) List.length_replicate)
      [.recv pair, .pick .ample, .pick .ample]).map (fun state =>
        decide (state.event.name = [112] ∧ state.event.packet = [1, 42] ∧
          state.mBuffer.mStart = 11)) = some true := by
    decide +kernel
  obtain ⟨state, hrun, hfacts⟩ := Option.map_eq_some_iff.mp hrun
  obtain ⟨hname, hpacket, hstart⟩ := of_decide_eq_true hfacts
  obtain ⟨first, hrecv, hpicks⟩ := run_cons_eq_some hrun
  have hsafe : Receiver.Safe (Receiver.start (List.replicate 4096 0) List.length_replicate)
      (.recv pair) := by
    refine fun _ => .short ?_
    rw [List.length_append, RingBuf.length_contents]
    exact show 0 + 11 + 512 ≤ 4095 by norm_num
  have hafter : Reaches Receiver.step Receiver.Safe first state :=
    .of_run hpicks (meets_of_forall (by simp [Receiver.Safe]) first)
  exact ⟨state, .head ⟨_, hsafe, hrecv⟩ hafter, congrArg₂ Event.mk hname hpacket, hstart,
    live_of_reaches _ _ (.head ⟨_, hsafe, hrecv⟩ hafter)⟩
/-! ## Stuck connections -/

section Stuck

variable {buf : RingBuf} (hsize : buf.mSize = connectionBufferSize - 1)

include hsize

/-- A frame that starts with the array is in place. -/
theorem inPlace_of_mStart (hstart : buf.mStart = 0) : buf.InPlace := by
  have hle := buf.length_le
  rw [RingBuf.InPlace, hstart, hsize]
  unfold connectionBufferSize at *
  omega

end Stuck

/-- A stream whose head frame never clears fills the buffer, 512 bytes at a time. -/
theorem reaches_of_not_headClears {dt : List Byte} (hdt : dt.length = connectionBufferSize)
    {stream : List Byte} (hlength : stream.length ≤ connectionBufferSize - 1)
    (hstuck : ∀ k, ¬ HeadClears 0 (stream.take (512 * k))) (k : ℕ)
    (hk : 512 * k ≤ stream.length) :
    ∃ state, Reaches Receiver.step anything (Receiver.start dt hdt) state ∧
      state.mBuffer.mSize = connectionBufferSize - 1 ∧ state.mBuffer.mStart = 0 ∧
      state.picking = false ∧ state.mBuffer.contents = stream.take (512 * k) := by
  induction k with
  | zero => exact ⟨_, .refl, rfl, rfl, rfl, rfl⟩
  | succ k ih =>
      obtain ⟨state, hreaches, hsize, hstart, hidle, hcontents⟩ := ih (by omega)
      have hroom := lt_of_size hsize
      have hfull : state.mBuffer.length = 512 * k := by
        rw [← RingBuf.length_contents, hcontents, List.length_take]
        omega
      have hchunk : ((stream.drop (512 * k)).take 512).length = 512 := by
        rw [List.length_take, List.length_drop]
        omega
      obtain ⟨buf, hput, hbufSize, hbufContents⟩ := @put_of_le state.mBuffer (by omega)
        ((stream.drop (512 * k)).take 512) (by rw [hchunk, hfull, hsize]; omega)
      rw [hcontents, ← List.take_add, ← Nat.mul_succ] at hbufContents
      have hbufStart := (put_mStart hput).trans hstart
      have hplace := inPlace_of_mStart (hbufSize.trans hsize) hbufStart
      have hhead : ¬ HeadClears buf.mStart buf.contents := by
        rw [hbufStart, hbufContents]
        exact hstuck (k + 1)
      obtain ⟨picked, hpick, hfound, hsame⟩ := pick_of_not_headClears (hbufSize.trans hsize)
        hplace hhead Env.allocates_ample state.event []
      have hpickedStart := (pickFrom_restarted hpick).mStart_eq (k := 0) (by
        rw [Nat.add_zero, ← RingBuf.length_contents, hsame, RingBuf.length_contents])
      rw [Nat.add_zero, hbufStart, Nat.zero_mod] at hpickedStart
      have hrecv : Step Receiver.step anything state ⟨buf, state.event, true⟩ := by
        refine ⟨.recv ((stream.drop (512 * k)).take 512), trivial, ?_⟩
        rw [Receiver.step, if_pos (by rw [hidle, hchunk]; decide), hput]
        rfl
      have hdone : Step Receiver.step anything ⟨buf, state.event, true⟩
          ⟨picked.buf, picked.event, false⟩ := by
        refine ⟨.pick .ample, trivial, ?_⟩
        rw [Receiver.step, if_pos rfl, hpick, ← hfound]
        rfl
      refine ⟨_, (hreaches.tail hrecv).tail hdone, ?_, hpickedStart, rfl, ?_⟩
      · exact (pickFrom_restarted hpick).kept.1.trans (hbufSize.trans hsize)
      · exact hsame.trans hbufContents

theorem not_live_of_filled {stream : List Byte} (hlength : stream.length = 3584)
    (hstuck : ∀ k, ¬ HeadClears 0 (stream.take (512 * k))) :
    ∃ state, Reaches Receiver.step anything
        (Receiver.start (List.replicate 4096 0) List.length_replicate) state ∧
      state.mBuffer.contents = stream ∧ ¬ Live state.mBuffer := by
  obtain ⟨state, hreaches, hsize, hstart, _, hcontents⟩ := reaches_of_not_headClears
    List.length_replicate (by rw [hlength]; norm_num [connectionBufferSize]) hstuck 7
    hlength.ge
  have hall : stream.take (512 * 7) = stream := List.take_of_length_le hlength.le
  refine ⟨state, hreaches, hcontents.trans hall, fun hlive => ?_⟩
  rcases (live_iff hsize (inPlace_of_mStart hsize hstart)).mp hlive with hfits | hclears
  · rw [← RingBuf.length_contents, hcontents, hall, hlength] at hfits
    exact absurd hfits (by decide)
  · rw [hstart, hcontents] at hclears
    exact hstuck 7 hclears

/-- An event without a packet whose frame takes 5,000 bytes. -/
def long : Event :=
  ⟨List.replicate 4997 0x61, []⟩

theorem size_long : long.size = 5000 := by
  have hname : long.name.length = 4997 := List.length_replicate
  have hpacket : long.packet.length = 0 := rfl
  rw [Event.size, hname, hpacket]

theorem not_headClears_long (n : ℕ) :
    ¬ HeadClears 0 (((long.pack .little).take 3584).take n) := by
  rw [List.take_take]
  intro hclears
  have hwhole := hclears.1
  have hlength := List.length_take_le (min n 3584) (long.pack .little)
  have hthree : 3 ≤ frameLength ((long.pack .little).take (min n 3584)) := le_max_left _ _
  have hframe : frameLength ((long.pack .little).take (min n 3584)) = long.size :=
    @need_pack long _ ((long.pack .little).drop (min n 3584)) [] .little
      (by rw [size_long]; norm_num) (by rw [List.take_append_drop, List.append_nil])
      (by omega)
  rw [size_long] at hframe
  omega

/-- A whole frame without a name whose packet is one unknown tag, and more
zeros. -/
def invalid : List Byte :=
  0 :: 4 :: List.replicate 3582 0

theorem not_headClears_invalid (k : ℕ) : ¬ HeadClears 0 (invalid.take (512 * k)) := by
  cases k with
  | zero =>
      intro hclears
      exact absurd hclears.1 (by decide)
  | succ k =>
      intro hclears
      obtain ⟨more, hmore⟩ : ∃ more, min (512 * k + 510) 3582 = more + 1 + 1 :=
        ⟨min (512 * k + 510) 3582 - 2, by omega⟩
      have htake : invalid.take (512 * (k + 1)) = 0 :: 4 :: 0 :: 0 :: List.replicate more 0 := by
        rw [invalid, show 512 * (k + 1) = 512 * k + 510 + 1 + 1 by ring,
          List.take_succ_cons, List.take_succ_cons, List.take_replicate, hmore,
          List.replicate_succ, List.replicate_succ]
      have hbody : frameBody (invalid.take (512 * (k + 1))) = [0, 0] := by
        rw [htake]
        rfl
      have hwell := hclears.2.2.2
      rw [hbody] at hwell
      exact absurd (hwell (by decide)) (by decide +kernel)

/-- Seven chunks of an event that `send` transmits, or of a whole frame with an
invalid packet, fill the buffer for good. -/
theorem not_live_of_stream :
    (∃ state, Reaches Receiver.step anything
        (Receiver.start (List.replicate 4096 0) List.length_replicate) state ∧
      state.mBuffer.contents = (long.pack .little).take 3584 ∧ ¬ Live state.mBuffer) ∧
    ∃ state, Reaches Receiver.step anything
        (Receiver.start (List.replicate 4096 0) List.length_replicate) state ∧
      state.mBuffer.contents = invalid ∧ ¬ Live state.mBuffer := by
  constructor
  · apply not_live_of_filled
    · rw [List.length_take, Event.length_pack, size_long]
      norm_num
    · intro k
      exact not_headClears_long (512 * k)
  · apply not_live_of_filled
    · simp only [invalid, List.length_cons, List.length_replicate]
    · exact not_headClears_invalid

end Sednl.Ring
