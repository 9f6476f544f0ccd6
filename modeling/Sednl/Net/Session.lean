import Sednl.Library.Transition
import Sednl.Ring.Offset

/-!
# Sessions of a client

A client may connect again once it is disconnected.  `connect` sets the descriptor
and the flag, `unsafe_disconnect` clears them, and neither touches the receive buffer:
what one session leaves in it, and where it starts in its array, is what the next
session reads from.
-/

namespace Sednl.Session

open Sednl.Endian
open Sednl.Ring
open Sednl.Tag
open Sednl.Transition

/-- A `TCPClient`; `mFd` is `none` when it is -1.  `delivered` is not in the source: the
events handed over since the last connect. -/
structure Client where
  mConnected : Bool
  mFd : Option ℕ
  mBuffer : RingBuf
  delivered : List Event

namespace Client

/-- The constructor, on an array whose bytes are whatever they were. -/
def new (dt : List Byte) (hdt : dt.length = connectionBufferSize) : Client :=
  ⟨false, none, connectionBuffer dt hdt, []⟩

/-- `TCPClient::connect`, with the descriptor of the address that answers; without one
it throws. -/
def connect (client : Client) : (answer : Option ℕ) → Client
  | some fd => { client with mConnected := true, mFd := some fd, delivered := [] }
  | none => client

def unsafeDisconnect (client : Client) : Client :=
  if client.mConnected then { client with mFd := none, mConnected := false } else client

/-- `Connection::safe_disconnect`, behind its lock. -/
def safeDisconnect (client : Client) : Client :=
  client.unsafeDisconnect

/-- `Connection::disconnect`, behind its lock and after telling the listener. -/
def disconnect (client : Client) : Client :=
  client.unsafeDisconnect

end Client

/-- A call of `read_connection`: what it depends on, and the results of `recv`. -/
structure Read where
  env : Env
  chunks : List (List Byte)

inductive Action where
  /-- `connect`. -/
  | connect (answer : Option ℕ)
  /-- `read_connection`, up to where no more bytes are there. -/
  | read (read : Read)
  /-- `close_connection`, when the peer is gone. -/
  | closed
  /-- `disconnect`, by the program. -/
  | disconnect

/-- `recv` returns between one byte and a buffer of 512. -/
def Read.Possible (read : Read) : Prop :=
  ∀ chunk ∈ read.chunks, 1 ≤ chunk.length ∧ chunk.length ≤ 512

instance (read : Read) : Decidable read.Possible :=
  inferInstanceAs (Decidable (∀ chunk ∈ read.chunks, _))

def step (client : Client) : Action → Option Client
  | .connect answer => some (client.connect answer)
  | .read read =>
      if client.mConnected ∧ read.Possible then
        ((readConnection read.env read.chunks client.mBuffer).run []).1.map
          fun (handed, buf) =>
            { client with mBuffer := buf, delivered := client.delivered ++ handed }
      else none
  | .closed => some client.safeDisconnect
  | .disconnect => some client.disconnect

/-- The events that a session delivers, from its connect on. -/
def Client.delivers (client : Client) (fd : ℕ) (reads : List Read) : Option (List Event) :=
  (run step (client.connect (some fd)) (reads.map .read)).map Client.delivered

/-- The next session of the client delivers what a freshly constructed client would
deliver.  Nothing else has been received by that one, so the events are made of
bytes of the session; what its array held when it was allocated does not matter. -/
def Clean (client : Client) : Prop :=
  ∀ (fd : ℕ) (reads : List Read) (dt : List Byte) (hdt : dt.length = connectionBufferSize),
    client.delivers fd reads = (Client.new dt hdt).delivers fd reads

/-! ## What the steps keep -/

theorem readConnection_isSome {read : Read} (hpossible : read.Possible) {buf : RingBuf}
    (hsize : buf.mSize = connectionBufferSize - 1) :
    ∃ handed last, ((readConnection read.env read.chunks buf).run []).1 = some (handed, last) ∧
      last.mSize = connectionBufferSize - 1 := by
  obtain ⟨handed, last, hrun, hlast⟩ := @readChunks_isSome read.env read.chunks
    (fun chunk hchunk => (hpossible chunk hchunk).2) buf (lt_of_size hsize) ⟨[], []⟩ []
  exact ⟨handed, last, hrun, hlast.trans hsize⟩

/-- What a call of `read_connection` does to a client. -/
theorem step_read {client next : Client} {read : Read}
    (hnext : step client (.read read) = some next) :
    client.mConnected ∧ read.Possible ∧ ∃ handed buf,
      ((readConnection read.env read.chunks client.mBuffer).run []).1 = some (handed, buf) ∧
      next = { client with mBuffer := buf, delivered := client.delivered ++ handed } := by
  obtain ⟨⟨hconnected, hpossible⟩, hsome⟩ := Option.ite_none_right_eq_some.mp hnext
  obtain ⟨⟨handed, buf⟩, hrun, rfl⟩ := Option.map_eq_some_iff.mp hsome
  exact ⟨hconnected, hpossible, handed, buf, hrun, rfl⟩

theorem mBuffer_unsafeDisconnect (client : Client) :
    client.unsafeDisconnect.mBuffer = client.mBuffer := by
  unfold Client.unsafeDisconnect
  split <;> rfl

/-- Only `read_connection` touches the buffer, and it keeps its capacity. -/
theorem mSize_step {client next : Client} {action : Action}
    (hsize : client.mBuffer.mSize = connectionBufferSize - 1)
    (hnext : step client action = some next) :
    next.mBuffer.mSize = connectionBufferSize - 1 := by
  cases action with
  | connect answer =>
      obtain rfl := Option.some.inj hnext
      cases answer with
      | none => exact hsize
      | some fd => exact hsize
  | read read =>
      obtain ⟨_, hpossible, handed, buf, hrun, rfl⟩ := step_read hnext
      obtain ⟨_, _, hrun', hlast⟩ := readConnection_isSome hpossible hsize
      cases hrun.symm.trans hrun'
      exact hlast
  | closed =>
      obtain rfl := Option.some.inj hnext
      rwa [Client.safeDisconnect, mBuffer_unsafeDisconnect]
  | disconnect =>
      obtain rfl := Option.some.inj hnext
      rwa [Client.disconnect, mBuffer_unsafeDisconnect]

theorem mSize_of_reaches {dt : List Byte} {hdt : dt.length = connectionBufferSize}
    {client : Client} (hreaches : Reaches step anything (.new dt hdt) client) :
    client.mBuffer.mSize = connectionBufferSize - 1 := by
  induction hreaches with
  | refl => rfl
  | tail _ hstep ih =>
      obtain ⟨action, _, hnext⟩ := hstep
      exact mSize_step ih hnext

/-! ## Two clients side by side -/

/-- Two clients that the same calls cannot tell apart. -/
structure Alike (left right : Client) : Prop where
  hconnected : left.mConnected = right.mConnected
  hbuffer : Twin left.mBuffer right.mBuffer
  hdelivered : left.delivered = right.delivered

theorem Alike.read {left right : Client} (halike : Alike left right)
    (hsize : left.mBuffer.mSize = connectionBufferSize - 1) {read : Read} {next : Client}
    (hnext : step left (.read read) = some next) :
    ∃ next', step right (.read read) = some next' ∧ Alike next next' := by
  obtain ⟨hconnected, htwin, hdelivered⟩ := halike
  obtain ⟨hopen, hpossible, handed, buf, hrun, rfl⟩ := step_read hnext
  obtain ⟨buf', hrun', hbuf⟩ := readChunks_twin (fun chunk hchunk => (hpossible chunk hchunk).2)
    htwin (lt_of_size hsize) (Prod.ext hrun rfl)
  refine ⟨{ right with mBuffer := buf', delivered := right.delivered ++ handed }, ?_,
    hconnected, hbuf, ?_⟩
  · rw [step, if_pos ⟨hconnected ▸ hopen, hpossible⟩, readConnection, hrun']
    rfl
  · simp only [hdelivered]

theorem Alike.symm {left right : Client} (halike : Alike left right) : Alike right left :=
  ⟨halike.hconnected.symm, halike.hbuffer.symm, halike.hdelivered.symm⟩

/-- The run lemma: the same calls deliver the same events. -/
theorem Alike.delivered_eq {left right : Client} (halike : Alike left right)
    (hsize : left.mBuffer.mSize = connectionBufferSize - 1) (reads : List Read) :
    (run step left (reads.map .read)).map Client.delivered =
      (run step right (reads.map .read)).map Client.delivered := by
  induction reads generalizing left right with
  | nil => exact congrArg some halike.hdelivered
  | cons read reads ih =>
      rw [List.map_cons]
      cases hleft : step left (.read read) with
      | some next =>
          obtain ⟨next', hright, hnext⟩ := halike.read hsize hleft
          rw [run_cons hleft, run_cons hright]
          exact ih hnext (mSize_step hsize hleft)
      | none =>
          have hright : step right (.read read) = none := by
            rw [Option.eq_none_iff_forall_ne_some]
            intro next hnext
            obtain ⟨_, hsome, _⟩ := halike.symm.read (halike.hbuffer.hsize ▸ hsize) hnext
            cases hleft.symm.trans hsome
          rw [run, run, hleft, hright]

/-- A buffer as it was constructed makes a clean session. -/
theorem clean_of_start {client : Client}
    (hsize : client.mBuffer.mSize = connectionBufferSize - 1)
    (hstart : client.mBuffer.mStart = 0) (hend : client.mBuffer.mEnd = 0) : Clean client := by
  intro fd reads dt hdt
  have hempty : client.mBuffer.contents = [] := by
    rw [RingBuf.contents, RingBuf.length_eq, hstart, hend]
    rfl
  have halike : Alike (client.connect (some fd)) ((Client.new dt hdt).connect (some fd)) :=
    ⟨rfl, ⟨hsize, hstart, hempty⟩, rfl⟩
  exact halike.delivered_eq hsize reads

/-! ## Sessions that tell -/

theorem delivers_singleton (client : Client) (fd : ℕ) {read : Read}
    (hpossible : read.Possible) :
    client.delivers fd [read] =
      ((readConnection read.env read.chunks client.mBuffer).run []).1.map Prod.fst := by
  rw [Client.delivers, List.map_cons, List.map_nil, run, step, if_pos ⟨rfl, hpossible⟩]
  have hbuffer : (client.connect (some fd)).mBuffer = client.mBuffer := rfl
  rw [hbuffer]
  cases ((readConnection read.env read.chunks client.mBuffer).run []).1 with
  | none => rfl
  | some result => rfl

/-- What a clean session delivers in one call. -/
theorem Clean.read {client : Client} (hclean : Clean client) {read : Read}
    (hpossible : read.Possible) {dt : List Byte} (hdt : dt.length = connectionBufferSize)
    {events : List Event}
    (hfresh : ∃ last, ((readConnection read.env read.chunks (connectionBuffer dt hdt)).run
      []).1 = some (events, last)) :
    ∃ last, ((readConnection read.env read.chunks client.mBuffer).run []).1 =
      some (events, last) := by
  obtain ⟨last, hlast⟩ := hfresh
  have hsame := hclean 0 [read] dt hdt
  rw [delivers_singleton client 0 hpossible, delivers_singleton _ 0 hpossible] at hsame
  rw [Client.new, hlast] at hsame
  obtain ⟨⟨handed, last'⟩, hrun, rfl⟩ := Option.map_eq_some_iff.mp hsame
  exact ⟨last', hrun⟩

section Tells

variable {client : Client} (hsize : client.mBuffer.mSize = connectionBufferSize - 1)

include hsize

/-- Bytes left over in the buffer make the next session another one. -/
theorem not_clean_of_leftover (hlength : 1 ≤ client.mBuffer.length) : ¬ Clean client := by
  intro hclean
  obtain ⟨size, hsizes⟩ := exists_size_of_leftover (lt_of_size hsize) hlength
    (by rw [hsize]; decide) 0
  have hnamed : ∀ n ≤ 252, n + 3 = size := by
    intro n hn
    rw [← size_named]
    refine hsizes .little (named n) (by rw [size_named]; omega) ?_
    refine @Clean.read client hclean ⟨.straying 0, [(named n).pack .little]⟩ ?_
      (List.replicate 4096 0) List.length_replicate _
      (readConnection_named (Env.allocates_straying 0) (by omega) .little _)
    intro chunk hchunk
    obtain rfl := List.mem_singleton.mp hchunk
    rw [Event.length_pack, size_named]
    omega
  have hone := hnamed 1 (by omega)
  have htwo := hnamed 2 (by omega)
  omega

/-- So does an empty buffer that starts elsewhere in its array. -/
theorem mStart_of_clean (hempty : client.mBuffer.length = 0) (hclean : Clean client) :
    client.mBuffer.mStart = 0 := by
  refine @mStart_of_telling client.mBuffer hsize hempty .little fun stray => ?_
  refine @Clean.read client hclean ⟨.straying stray, singles (packs .little telling)⟩ ?_
    (List.replicate 4096 0) List.length_replicate _
    (readConnection_singles sendable_telling ((framesAt_telling 0).mpr rfl)
      (Env.allocates_straying stray) _)
  intro chunk hchunk
  rw [length_of_mem_singles hchunk]
  omega

end Tells

/-! ## Every history -/

/-- After any history the next session delivers what a freshly constructed client
would exactly when the buffer is as it was constructed: empty, and at the beginning
of its array. -/
theorem clean_iff {dt : List Byte} {hdt : dt.length = connectionBufferSize} {client : Client}
    (hreaches : Reaches step anything (.new dt hdt) client) :
    Clean client ↔ client.mBuffer.mStart = 0 ∧ client.mBuffer.mEnd = 0 := by
  have hsize := mSize_of_reaches hreaches
  constructor
  · intro hclean
    have hempty : client.mBuffer.length = 0 := by
      by_contra hlength
      exact not_clean_of_leftover hsize (Nat.one_le_iff_ne_zero.mpr hlength) hclean
    have hstart := mStart_of_clean hsize hempty hclean
    rw [RingBuf.length, hstart, if_pos (Nat.zero_le _)] at hempty
    exact ⟨hstart, hempty⟩
  · rintro ⟨hstart, hend⟩
    exact clean_of_start hsize hstart hend

/-- A client that is disconnected without having received anything is as new; one that
has received two frames, and taken both, is not, since its buffer goes on behind them. -/
theorem clean_iff_pair :
    (∃ client, Reaches step anything (.new (List.replicate 4096 0) List.length_replicate) client ∧
      client.mConnected = false ∧ Clean client) ∧
    ∃ client, Reaches step anything (.new (List.replicate 4096 0) List.length_replicate) client ∧
      client.mConnected = false ∧ client.mBuffer.length = 0 ∧ ¬ Clean client := by
  constructor
  · have hrun : ∃ client, run step (.new (List.replicate 4096 0) List.length_replicate)
        [.connect (some 5), .read ⟨.ample, []⟩, .disconnect] = some client ∧
        client.mConnected = false ∧ client.mBuffer.mStart = 0 ∧ client.mBuffer.mEnd = 0 :=
      ⟨_, rfl, rfl, rfl, rfl⟩
    obtain ⟨client, hrun, hclosed, hbuffer⟩ := hrun
    have hreaches := Reaches.of_run hrun (meets_anything _ _)
    exact ⟨client, hreaches, hclosed, (clean_iff hreaches).mpr hbuffer⟩
  · have hrun : (run step (.new (List.replicate 4096 0) List.length_replicate)
        [.connect (some 5), .read ⟨.ample, [pair]⟩, .closed]).map (fun client =>
          decide (client.mConnected = false ∧ client.mBuffer.length = 0 ∧
            client.mBuffer.mStart = 11)) = some true := by
      decide +kernel
    obtain ⟨client, hrun, hfacts⟩ := Option.map_eq_some_iff.mp hrun
    obtain ⟨hclosed, hempty, hstart⟩ := of_decide_eq_true hfacts
    have hreaches := Reaches.of_run hrun (meets_anything _ _)
    refine ⟨client, hreaches, hclosed, hempty, fun hclean => ?_⟩
    have hnew := ((clean_iff hreaches).mp hclean).1
    omega

/-- A client whose peer sends one byte and is gone: the next session is not clean. -/
theorem not_clean_of_one_byte :
    ∃ client, Reaches step anything (.new (List.replicate 4096 0) List.length_replicate) client ∧
      client.mConnected = false ∧ ¬ Clean client := by
  have hrun : ∃ client, run step (.new (List.replicate 4096 0) List.length_replicate)
      [.connect (some 5), .read ⟨.ample, [[0]]⟩, .closed] = some client ∧
      client.mConnected = false ∧ client.mBuffer.length = 1 :=
    ⟨_, rfl, rfl, rfl⟩
  obtain ⟨client, hrun, hclosed, hlength⟩ := hrun
  have hreaches := Reaches.of_run hrun (meets_anything _ _)
  exact ⟨client, hreaches, hclosed,
    not_clean_of_leftover (mSize_of_reaches hreaches) hlength.ge⟩

end Sednl.Session
