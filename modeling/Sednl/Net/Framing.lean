import Sednl.Library.PrefixCode
import Sednl.Wire.Written
import Sednl.Ring.Wedge
import Sednl.Net.Outgoing

/-!
# Frames that can be told apart

A frame starts with its own length, in sixteen bits.  As long as the length fits
them the frames are a prefix code, so a stream determines the bytes of each of
its frames.  It determines the events only if no name holds a NUL where
another event could end its own: the first NUL of a frame is taken for the one
behind the name.
-/

namespace Sednl.Framing

open Sednl.Endian
open Sednl.Tag
open Sednl.Grammar
open Sednl.Packet
open Sednl.Written
open Sednl.PrefixCode
open Sednl.Ring
open Sednl.Transition

/-! ## The length a frame declares -/

/-- The first two bytes of a frame are its length, and whatever follows it is
where the receiver looks for the next frame. -/
structure DeclaresItself (host : Host) (event : Event) : Prop where
  hdeclared : beValue ((event.pack host).take 2) = (event.pack host).length
  hnext : ∀ rest, nextFrame (event.pack host ++ rest) = rest

theorem beValue_pack (host : Host) (event : Event) (rest : List Byte) :
    beValue ((event.pack host ++ rest).take 2) = event.size % 65536 := by
  have hheader : (event.pack host ++ rest).take 2 = beBytes 2 event.size := by
    rw [Event.pack_eq, List.append_assoc]
    exact List.take_left' (length_beBytes 2 event.size)
  rw [hheader, beValue_beBytes]
  norm_num

theorem frameLength_pack (host : Host) {event : Event} (hsize : event.size < 65536)
    (rest : List Byte) : frameLength (event.pack host ++ rest) = event.size := by
  rw [frameLength, beValue_pack, Nat.mod_eq_of_lt hsize]
  exact max_eq_right event.three_le_size

/-- A frame declares its own length exactly when that fits sixteen bits. -/
theorem declaresItself_iff (host : Host) (event : Event) :
    DeclaresItself host event ↔ event.name.length + event.packet.length + 3 < 65536 := by
  have hsum : event.name.length + event.packet.length + 3 = event.size := by
    rw [Event.size]
    ring
  rw [hsum]
  constructor
  · intro hdeclares
    have hdeclared := hdeclares.hdeclared
    have hvalue := beValue_pack host event []
    rw [List.append_nil, hdeclared, Event.length_pack] at hvalue
    rw [hvalue]
    exact Nat.mod_lt _ (by norm_num)
  · intro hsize
    constructor
    · have hvalue := beValue_pack host event []
      rwa [List.append_nil, Nat.mod_eq_of_lt hsize, ← event.length_pack host] at hvalue
    · intro rest
      rw [nextFrame, frameLength_pack host hsize, ← event.length_pack host, List.drop_left]

/-- An event without a name, whose packet is one string of 65,531 characters. -/
def oversized : Event :=
  ⟨[], encodeAll [.string (List.replicate 65531 0x61)]⟩

theorem length_encodeAll_replicate (length : ℕ) :
    (encodeAll [.string (List.replicate length 0x61)]).length = length + 2 := by
  have htake : (List.replicate length (0x61 : Byte)).takeWhile (· ≠ 0) =
      List.replicate length 0x61 := by
    rw [List.takeWhile_eq_self_iff]
    intro byte hbyte
    rw [List.eq_of_mem_replicate hbyte]
    rfl
  simp only [encodeAll, encode, htake]
  simp

theorem size_oversized : oversized.size = 65536 := by
  have hpacket : oversized.packet.length = 65531 + 2 :=
    length_encodeAll_replicate 65531
  have hname : oversized.name.length = 0 := rfl
  rw [Event.size, hpacket, hname]

/-- The writers build it, `send` puts all of it on the wire and returns, and the
length it declares is 0. -/
theorem not_declaresItself_oversized :
    Built oversized.packet ∧
      run (Outgoing.step .little) .start
        [.send oversized, .result oversized.size fun _ => 0] =
        some ⟨[(⟨oversized, oversized.size, oversized.pack .little⟩, .returned)], none,
          oversized.pack .little⟩ ∧
      beValue ((oversized.pack .little).take 2) = 0 ∧
      ¬ DeclaresItself .little oversized := by
  have hsize := size_oversized
  refine ⟨built_encodeAll ⟨trivial, trivial⟩, ?_, ?_, ?_⟩
  · apply Outgoing.run_whole
    rw [hsize]
    norm_num [Outgoing.maxSize]
  · have hvalue := beValue_pack .little oversized []
    rwa [List.append_nil, hsize] at hvalue
  · intro hdeclares
    have hfits := (declaresItself_iff .little oversized).mp hdeclares
    rw [Event.size] at hsize
    omega

/-! ## Streams of frames -/

/-- What a frame holds behind its length. -/
def body (event : Event) : List Byte :=
  event.name ++ 0 :: event.packet

/-- An event of any name with a packet of the writers, in a frame that fits its
length.  What a write leaves behind when it throws is no packet of the writers. -/
structure Framable (event : Event) : Prop where
  hbuilt : Built event.packet
  hpack : ∀ host, (event.pack host).length ≤ 65535

theorem Framable.size_lt {event : Event} (hframable : Framable event) :
    event.size < 65536 := by
  rw [← event.length_pack .little]
  exact Nat.lt_succ_of_le (hframable.hpack .little)

theorem size_eq (event : Event) : event.size = (body event).length + 2 := by
  rw [Event.size, body, List.length_append, List.length_cons]
  ring

/-- Two frames are the same when they hold the same, up to where the name ends. -/
theorem pack_eq_pack_iff (host : Host) {left right : Event} :
    left.pack host = right.pack host ↔ body left = body right := by
  constructor
  · intro heq
    rw [Event.pack_eq, Event.pack_eq] at heq
    exact (List.append_inj heq (by rw [length_beBytes, length_beBytes])).2
  · intro heq
    rw [Event.pack_eq, Event.pack_eq, size_eq, size_eq, ← body, ← body, heq]

/-- The frames whose length fits sixteen bits. -/
def frames (host : Host) : Set (List Byte) :=
  { bytes | ∃ event : Event, event.size < 65536 ∧ event.pack host = bytes }

theorem prefixFree_frames (host : Host) : PrefixFree (frames host) := by
  apply prefixFree_of_length
  · rintro bytes ⟨event, hsize, rfl⟩ rest
    rw [Event.length_pack]
    exact frameLength_pack host hsize rest

theorem nil_notMem_frames (host : Host) : [] ∉ frames host := by
  rintro ⟨event, _, hnil⟩
  have hlength := event.length_pack host
  have hthree := event.three_le_size
  rw [hnil, List.length_nil] at hlength
  omega

theorem forall_mem_frames {host : Host} {events : List Event}
    (hframable : ∀ event ∈ events, Framable event) :
    ∀ word ∈ events.map (Event.pack host), word ∈ frames host := by
  intro word hword
  obtain ⟨event, hevent, rfl⟩ := List.mem_map.mp hword
  exact ⟨event, (hframable event hevent).size_lt, rfl⟩

/-- A stream determines what each of its frames holds. -/
theorem packs_eq_packs_iff (host : Host) {left right : List Event}
    (hleft : ∀ event ∈ left, Framable event) (hright : ∀ event ∈ right, Framable event) :
    packs host left = packs host right ↔ List.Forall₂ (fun a b => body a = body b) left right := by
  have hpointwise : List.Forall₂ (fun a b => body a = body b) left right ↔
      left.map (Event.pack host) = right.map (Event.pack host) := by
    calc List.Forall₂ (fun a b => body a = body b) left right
        ↔ List.Forall₂ (fun a b => a.pack host = b.pack host) left right := by
          simp only [pack_eq_pack_iff]
      _ ↔ List.Forall₂ (· = ·) (left.map (Event.pack host)) (right.map (Event.pack host)) := by
          rw [List.forall₂_map_left_iff, List.forall₂_map_right_iff]
      _ ↔ left.map (Event.pack host) = right.map (Event.pack host) := by
          rw [List.forall₂_eq_eq_eq]
  rw [hpointwise]
  constructor
  · exact (prefixFree_frames host).uniquelyDecodable (nil_notMem_frames host) _ _
      (forall_mem_frames hleft) (forall_mem_frames hright)
  · intro heq
    rw [packs, packs, heq]

/-- Some NUL of what the frame holds, other than the one behind the name, could
end a name too: a packet of the writers follows it, all its writes having
succeeded. -/
def Impersonable (event : Event) : Prop :=
  ∃ name packet, name ≠ event.name ∧ Built packet ∧
    name ++ 0 :: packet = event.name ++ 0 :: event.packet

theorem eq_of_name_eq {left right : Event} (hname : left.name = right.name)
    (heq : body left = body right) : left = right := by
  rw [body, body, hname] at heq
  have hpacket : left.packet = right.packet :=
    (List.cons.inj (List.append_cancel_left heq)).2
  cases left
  cases right
  simp_all

theorem eq_of_body_eq {left right : Event} (hbuilt : Built left.packet)
    (hright : ¬ Impersonable right) (heq : body left = body right) : left = right := by
  apply eq_of_name_eq _ heq
  by_contra hne
  exact hright ⟨left.name, left.packet, hne, hbuilt, heq⟩

/-- The bytes of a list of events determine it exactly when none of its events
can be impersonated by one with another name. -/
theorem packs_unambiguous_iff (host : Host) {events : List Event}
    (hframable : ∀ event ∈ events, Framable event) :
    (∀ others, (∀ event ∈ others, Framable event) →
      packs host others = packs host events → others = events) ↔
      ∀ event ∈ events, ¬ Impersonable event := by
  constructor
  · rintro hunique event hevent ⟨name, packet, hname, hbuilt, hbody⟩
    obtain ⟨front, back, rfl⟩ := List.append_of_mem hevent
    have hpack : ∀ host, (⟨name, packet⟩ : Event).pack host = event.pack host := by
      intro host
      exact (pack_eq_pack_iff host).mpr hbody
    have hother : Framable ⟨name, packet⟩ := by
      refine ⟨hbuilt, fun host => ?_⟩
      rw [hpack]
      exact (hframable event hevent).hpack host
    have hsame : front ++ ⟨name, packet⟩ :: back = front ++ event :: back := by
      apply hunique
      · intro other hmem
        rcases List.mem_append.mp hmem with hmem | hmem
        · exact hframable other (List.mem_append_left _ hmem)
        · rcases List.mem_cons.mp hmem with rfl | hmem
          · exact hother
          · exact hframable other (List.mem_append_right _ (List.mem_cons_of_mem _ hmem))
      · rw [packs_append, packs_append, packs_cons, packs_cons, hpack]
    have hhead := (List.cons.inj (List.append_cancel_left hsame)).1
    exact hname (congrArg Event.name hhead)
  · intro hnone others hothers heq
    have hbodies := (packs_eq_packs_iff host hothers hframable).mp heq
    clear heq hframable
    induction hbodies with
    | nil => rfl
    | @cons other event others events hbody _ ih =>
        have hhead := eq_of_body_eq (hothers other List.mem_cons_self).hbuilt
          (hnone event List.mem_cons_self) hbody
        have htail := ih (fun event hmem => hnone event (List.mem_cons_of_mem _ hmem))
          (fun other hmem => hothers other (List.mem_cons_of_mem _ hmem))
        rw [hhead, htail]

/-- Names without NUL are told apart, on both sides of the stream. -/
theorem packs_injective_of_notMem (host : Host) {left right : List Event}
    (hleft : ∀ event ∈ left, Framable event ∧ 0 ∉ event.name)
    (hright : ∀ event ∈ right, Framable event ∧ 0 ∉ event.name)
    (heq : packs host left = packs host right) : left = right := by
  have hbodies := (packs_eq_packs_iff host (fun event hmem => (hleft event hmem).1)
    (fun event hmem => (hright event hmem).1)).mp heq
  clear heq
  induction hbodies with
  | nil => rfl
  | @cons a b left right hbody _ ih =>
      have hsame : a.name = b.name := by
        calc a.name = bodyName (body a) :=
              (bodyName_eq (hleft a List.mem_cons_self).2).1.symm
          _ = bodyName (body b) := by rw [hbody]
          _ = b.name := (bodyName_eq (hright b List.mem_cons_self).2).1
      rw [eq_of_name_eq hsame hbody,
        ih (fun event hmem => hleft event (List.mem_cons_of_mem _ hmem))
        (fun event hmem => hright event (List.mem_cons_of_mem _ hmem))]

/-- A number behind the name `p`, and the string `h` behind the name `a`. -/
def twoEvents : List Event :=
  [⟨[0x70], encodeAll [.scalar .int8 42]⟩, ⟨[0x61], encodeAll [.string [0x68]]⟩]

/-- The second event can be impersonated, and the list be mistaken. -/
theorem packs_unambiguous_iff_two :
    ¬ ∀ others, (∀ event ∈ others, Framable event) →
      packs .little others = packs .little twoEvents → others = twoEvents := by
  have hframable : ∀ event ∈ twoEvents, Framable event := by
    intro event hevent
    rcases List.mem_pair.mp hevent with rfl | rfl
    · exact ⟨built_encodeAll ⟨trivial, trivial⟩, fun host => by rw [Event.length_pack]; decide⟩
    · exact ⟨built_encodeAll ⟨trivial, trivial⟩, fun host => by rw [Event.length_pack]; decide⟩
  intro hunique
  have hnone := (packs_unambiguous_iff .little hframable).mp hunique
  refine hnone _ (.tail _ (.head _)) ⟨[0x61, 0x00, 0x20, 0x68], encodeAll [], by decide,
    built_encodeAll trivial, by decide +kernel⟩

/-- The string `h` behind the name `a`, and no packet behind a name of those
bytes: both are seven bytes, and the same ones. -/
theorem packs_ambiguous :
    ∃ left right : Event, Framable left ∧ Framable right ∧
      left.name = [0x61] ∧ right.name = [0x61, 0x00, 0x20, 0x68] ∧ left ≠ right ∧
      packs .little [left] = packs .little [right] := by
  refine ⟨⟨[0x61], encodeAll [.string [0x68]]⟩, ⟨[0x61, 0x00, 0x20, 0x68], encodeAll []⟩,
    ⟨built_encodeAll ⟨trivial, trivial⟩, fun host => ?_⟩,
    ⟨built_encodeAll trivial, fun host => ?_⟩, rfl, rfl, by simp, by decide +kernel⟩
  · rw [Event.length_pack]
    decide
  · rw [Event.length_pack]
    decide

end Sednl.Framing
