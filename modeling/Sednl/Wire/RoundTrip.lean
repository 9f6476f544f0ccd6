import Sednl.Wire.Reader

/-!
# Written values are read back

A packet written on one host and read on another with destinations of the same
types gives the same values.  The bytes do not depend on the writing host and
the readers follow the grammar, so the proof is a walk over the value: one
built-in item at a time, headers in between.
-/

namespace Sednl.RoundTrip

open Sednl.Endian
open Sednl.Memory
open Sednl.Tag
open Sednl.Word
open Sednl.Grammar
open Sednl.Packet
open Sednl.Reader

mutual

/-- A destination of the type of a value, whatever it contains. -/
def SameType : Value → Value → Prop
  | .scalar type _, .scalar type' _ => type = type'
  | .string _, .string _ => True
  | .vector type _, .vector type' _ => type = type'
  | .object dests, .object fields => SameTypes dests fields
  | _, _ => False

def SameTypes : List Value → List Value → Prop
  | [], [] => True
  | dest :: dests, value :: values => SameType dest value ∧ SameTypes dests values
  | _, _ => False

end

theorem SameTypes.length_eq : ∀ {dests values : List Value},
    SameTypes dests values → dests.length = values.length
  | [], [], _ => rfl
  | _ :: dests, _ :: values, htypes => by
      rw [SameTypes] at htypes
      rw [List.length_cons, List.length_cons, SameTypes.length_eq htypes.2]
  | [], _ :: _, htypes => by simp [SameTypes] at htypes
  | _ :: _, [], htypes => by simp [SameTypes] at htypes

mutual

/-- What is left of a value on the wire: strings stop at their first NUL. -/
def received : Value → Value
  | .scalar type dt => .scalar type dt
  | .string dt => .string (dt.takeWhile (· ≠ 0))
  | .vector type dt => .vector type dt
  | .object fields => .object (receivedAll fields)

def receivedAll : List Value → List Value
  | [] => []
  | value :: values => received value :: receivedAll values

end

/-! ## Items of the built-in types -/

theorem ofNat_beValue_beBytes (type : Scalar) (dt : BitVec type.bits) :
    BitVec.ofNat type.bits (beValue (beBytes type.size dt.toNat)) = dt := by
  apply BitVec.eq_of_toNat_eq
  rw [BitVec.toNat_ofNat, beValue_beBytes, ← Scalar.two_pow_bits, Nat.mod_mod,
    Nat.mod_eq_of_lt dt.isLt]

theorem words_flatMap (type : Scalar) (dt : List (BitVec type.bits)) :
    words type.bits type.size dt.length
      (dt.flatMap fun elm => beBytes type.size elm.toNat) = dt := by
  induction dt with
  | nil => rfl
  | cons elm dt ih =>
      rw [List.flatMap_cons, List.length_cons, words, List.take_left' (by simp),
        List.drop_left' (by simp), ih, ofNat_beValue_beBytes]

theorem length_flatMap_beBytes {bits : ℕ} (size : ℕ) (dt : List (BitVec bits)) :
    (dt.flatMap fun elm => beBytes size elm.toNat).length = dt.length * size := by
  induction dt with
  | nil => simp
  | cons elm dt ih => simp [ih, Nat.succ_mul, Nat.add_comm]

theorem zero_notMem_takeWhile (dt : List Byte) : 0 ∉ dt.takeWhile (· ≠ 0) := by
  intro hmem
  simpa using List.mem_takeWhile_imp hmem

theorem leaf_encode_scalar (type : Scalar) (dt : BitVec type.bits) :
    Leaf (encode (.scalar type dt)) := by
  rw [encode]
  exact .scalar type.layout_tag (length_beBytes _ _)

theorem leaf_encode_string (dt : List Byte) : Leaf (encode (.string dt)) := by
  rw [encode]
  exact .string (zero_notMem_takeWhile dt)

/-- The count of a vector, as its two bytes. -/
theorem beBytes_two {length : ℕ} (hlength : length ≤ 65535) :
    ∃ high low, beBytes 2 length = [high, low] ∧ beValue [high, low] = length := by
  obtain ⟨high, low, hbytes⟩ := List.length_eq_two.mp (length_beBytes 2 length)
  refine ⟨high, low, hbytes, ?_⟩
  rw [← hbytes, beValue_beBytes]
  exact Nat.mod_eq_of_lt (by omega)

theorem leaf_encode_vector {type : Scalar} {dt : List (BitVec type.bits)}
    (hlength : dt.length ≤ 65535) : Leaf (encode (.vector type dt)) := by
  obtain ⟨high, low, hbytes, hvalue⟩ := beBytes_two hlength
  rw [encode, hbytes]
  exact .array type.layout_arrayTag ((length_flatMap_beBytes _ _).trans
    (by rw [hvalue]))

theorem payload_encode_vector {type : Scalar} {dt : List (BitVec type.bits)}
    (hlength : dt.length ≤ 65535) (dest : List (BitVec type.bits)) :
    payload (encode (.vector type dt)) (.vector type dest) = .vector type dt := by
  obtain ⟨high, low, hbytes, hvalue⟩ := beBytes_two hlength
  rw [encode, hbytes, payload, Value.vector.injEq]
  simp only [List.cons_append, List.nil_append, List.tail_cons, List.take_succ_cons,
    List.take_zero, List.drop_succ_cons, List.drop_zero, hvalue]
  exact ⟨trivial, heq_of_eq (words_flatMap type dt)⟩

theorem tag_mem_accepted (type : Scalar) (dest : BitVec type.bits) :
    type.tag ∈ accepted (.scalar type dest) := by
  cases type <;> simp [accepted, Scalar.tag]

theorem arrayTag_mem_accepted (type : Scalar) (dest : List (BitVec type.bits)) :
    type.arrayTag ∈ accepted (.vector type dest) := by
  cases type <;> simp [accepted, Scalar.arrayTag]

/-! ## Walking over a value -/

section Walk

variable {host : Host} {data : Region Byte} {idx : ℕ} {rest : List Byte}

theorem readObjectHeader_run {length : ℕ} (hpos : 1 ≤ length) (hlength : length ≤ 255)
    (hdrop : data.cells.drop idx =
      PacketType.object.toByte :: UInt8.ofNat length :: rest)
    (hidx : idx + 2 < 2 ^ 32) (log : List ℕ) :
    ((readObjectHeader data length idx).run log).1 = (.done, idx + 2) ∧
      (InBounds data.size ((readObjectHeader data length idx).run log).2 ↔
        InBounds data.size log) := by
  have hsize := Region.lt_size_of_head hdrop
  have hcount := Region.lt_size_of_head (drop_tail hdrop)
  have htoNat : (UInt8.ofNat length).toNat = length := by
    rw [UInt8.toNat_ofNat']
    omega
  have hne : UInt8.ofNat length ≠ 0 := by
    intro h
    rw [h] at htoNat
    simp at htoNat
    omega
  have hobject : PacketType.ofByte PacketType.object.toByte = some .object := rfl
  simp only [readObjectHeader, nextType, if_neg (not_le.mpr hsize), Probe.run_bind,
    Region.run_read, Region.value_head hdrop, Probe.run_pure, hobject, ne_eq,
    not_true_eq_false, if_false, u32_of_lt (show idx + 1 < 2 ^ 32 by omega),
    Region.value_head (drop_tail hdrop), hne, htoNat, u32_of_lt hidx, true_and]
  rw [inBounds_of_lt hcount, inBounds_of_lt hsize]

mutual

theorem readValue_encode : ∀ (value dest : Value), Writable value → SameType dest value →
    ∀ (idx : ℕ) (rest : List Byte) (log : List ℕ),
      data.cells.drop idx = encode value ++ rest →
      idx + (encode value).length < 2 ^ 32 →
      ((readValue host data dest idx).run log).1 =
          ⟨.done, received value, idx + (encode value).length⟩ ∧
        (InBounds data.size ((readValue host data dest idx).run log).2 ↔
          InBounds data.size log)
  | .scalar type dt, dest, _, htype, idx, rest, log, hdrop, hidx => by
      cases dest with
      | scalar type' dt' =>
          rw [SameType] at htype
          subst htype
          have hread := @readValue_of_leaf host data idx rest (.scalar type' dt') trivial _
            (leaf_encode_scalar type' dt) _ (tag_mem_accepted type' dt')
            (by rw [encode]; rfl) hdrop hidx log
          have hpayload : payload (encode (.scalar type' dt)) (.scalar type' dt') =
              received (.scalar type' dt) := by
            rw [encode, payload, received, List.tail_cons, ofNat_beValue_beBytes]
          rwa [hpayload] at hread
      | string | vector | object => simp [SameType] at htype
  | .string dt, dest, _, htype, idx, rest, log, hdrop, hidx => by
      cases dest with
      | string dt' =>
          have hread := @readValue_of_leaf host data idx rest (.string dt') trivial _
            (leaf_encode_string dt) .string (by simp [accepted])
            (by rw [encode]; rfl) hdrop hidx log
          have hpayload : payload (encode (.string dt)) (.string dt') =
              received (.string dt) := by
            rw [encode, payload, received, List.tail_cons,
              takeWhile_append_zero (zero_notMem_takeWhile dt)]
          rwa [hpayload] at hread
      | scalar | vector | object => simp [SameType] at htype
  | .vector type dt, dest, hwritable, htype, idx, rest, log, hdrop, hidx => by
      rw [Writable] at hwritable
      cases dest with
      | vector type' dt' =>
          rw [SameType] at htype
          subst htype
          have hread := @readValue_of_leaf host data idx rest (.vector type' dt') trivial _
            (leaf_encode_vector hwritable) _ (arrayTag_mem_accepted type' dt')
            (by rw [encode]; rfl) hdrop hidx log
          rwa [payload_encode_vector hwritable, ← received] at hread
      | scalar | string | object => simp [SameType] at htype
  | .object fields, dest, hwritable, htype, idx, rest, log, hdrop, hidx => by
      rw [Writable] at hwritable
      obtain ⟨hpos, hlength, hfields⟩ := hwritable
      cases dest with
      | object dests =>
          rw [SameType] at htype
          rw [encode, List.length_cons, List.length_cons] at hidx
          rw [encode, List.cons_append, List.cons_append] at hdrop
          have hargs : numberOfArgs dests = fields.length := by
            rw [numberOfArgs, htype.length_eq]
            exact Nat.mod_eq_of_lt (by omega)
          obtain ⟨hheader, hheaderLog⟩ := readObjectHeader_run hpos hlength hdrop
            (by omega) log
          obtain ⟨hvalue, hlog⟩ := readFromPacket_encodeAll fields dests hfields htype
            (idx + 2) rest ((readObjectHeader data fields.length idx).run log).2
            (drop_tail (drop_tail hdrop)) (by omega)
          simp only [readValue, Probe.run_bind, hargs, hheader, if_true,
            hvalue, Probe.run_pure, hlog, hheaderLog, received, and_true]
          rw [encode, List.length_cons, List.length_cons, Nat.add_assoc, Nat.add_comm 2]
      | scalar | string | vector => simp [SameType] at htype

theorem readFromPacket_encodeAll : ∀ (values dests : List Value), AllWritable values →
    SameTypes dests values →
    ∀ (idx : ℕ) (rest : List Byte) (log : List ℕ),
      data.cells.drop idx = encodeAll values ++ rest →
      idx + (encodeAll values).length < 2 ^ 32 →
      ((readFromPacket host data dests idx).run log).1 =
          ⟨.done, receivedAll values, idx + (encodeAll values).length⟩ ∧
        (InBounds data.size ((readFromPacket host data dests idx).run log).2 ↔
          InBounds data.size log)
  | [], dests, _, htypes, idx, rest, log, _, _ => by
      cases dests with
      | nil => simp [readFromPacket, receivedAll, encodeAll]
      | cons => simp [SameTypes] at htypes
  | value :: values, dests, hwritable, htypes, idx, rest, log, hdrop, hidx => by
      cases dests with
      | nil => simp [SameTypes] at htypes
      | cons dest dests =>
          rw [AllWritable] at hwritable
          rw [SameTypes] at htypes
          rw [encodeAll, List.append_assoc] at hdrop
          rw [encodeAll, List.length_append] at hidx
          obtain ⟨hvalue, hlog⟩ := readValue_encode value dest hwritable.1 htypes.1 idx
            (encodeAll values ++ rest) log hdrop (by omega)
          obtain ⟨hvalues, hlater⟩ := readFromPacket_encodeAll values dests
            hwritable.2 htypes.2 (idx + (encode value).length) rest
            ((readValue host data dest idx).run log).2 (Region.drop_add hdrop) (by omega)
          simp only [readFromPacket, Probe.run_bind, hvalue, if_true,
            hvalues, Probe.run_pure, hlog, hlater, receivedAll, and_true]
          rw [encodeAll, List.length_append, Nat.add_assoc]

end

end Walk

/-! ## Whole packets -/

/-- Whatever the two hosts, a packet of fewer than `2 ^ 32` bytes gives back
what was written and leaves the reader at its end. -/
theorem readFromPacket_writeToPacket (writer reader : Host)
    {values dests : List Value} (hwritable : AllWritable values)
    (htypes : SameTypes dests values)
    (hlength : (writeToPacket writer [] values).2.length < 2 ^ 32)
    (wild : List ℕ → ℕ → Byte) :
    (writeToPacket writer [] values).1 = .done ∧
      ((readFromPacket reader ⟨(writeToPacket writer [] values).2, wild⟩ dests 0).run
        []).1 =
        ⟨.done, receivedAll values, (writeToPacket writer [] values).2.length⟩ := by
  rw [writeToPacket_eq writer [] values hwritable, List.nil_append] at hlength ⊢
  have hread := (@readFromPacket_encodeAll reader ⟨encodeAll values, wild⟩ values dests
    hwritable htypes 0 [] [] (by simp) (by rw [Nat.zero_add]; exact hlength)).1
  rw [Nat.zero_add] at hread
  exact ⟨rfl, hread⟩

theorem readFromPacket_writeToPacket_object :
    (writeToPacket .little []
        [.scalar .int64 7, .object [.vector .uint16 [1, 2], .string [0x61]]]).1 = .done ∧
      ((readFromPacket .big ⟨(writeToPacket .little []
        [.scalar .int64 7, .object [.vector .uint16 [1, 2], .string [0x61]]]).2,
        fun _ _ => 0⟩ [.scalar .int64 0, .object [.vector .uint16 [], .string []]]
        0).run []).1 =
        ⟨.done, receivedAll
          [.scalar .int64 7, .object [.vector .uint16 [1, 2], .string [0x61]]],
          (writeToPacket .little []
            [.scalar .int64 7, .object [.vector .uint16 [1, 2], .string [0x61]]]).2.length⟩ :=
  readFromPacket_writeToPacket .little .big (by simp [AllWritable, Writable])
    (by simp [SameTypes, SameType]) (by decide +kernel) _

/-- The index of the reader is an `unsigned int`: past a string that ends the
packet at `2 ^ 32` it is back at the start. -/
theorem readFromPacket_string_wraps {length : ℕ} (hlength : length + 2 = 2 ^ 32)
    (wild : List ℕ → ℕ → Byte) :
    (writeToPacket .little [] [.string (List.replicate length 0x61)]).2.length = 2 ^ 32 ∧
      ((readFromPacket .little ⟨(writeToPacket .little []
        [.string (List.replicate length 0x61)]).2, wild⟩ [.string []] 0).run
        []).1.idx = 0 := by
  have hchars : (0 : Byte) ∉ List.replicate length 0x61 := by
    simp [List.mem_replicate]
  have htake : (List.replicate length (0x61 : Byte)).takeWhile (· ≠ 0) =
      List.replicate length 0x61 := by
    rw [List.takeWhile_eq_self_iff]
    intro char hchar
    simp [List.eq_of_mem_replicate hchar]
  have hwritten : (writeToPacket .little [] [.string (List.replicate length 0x61)]).2 =
      PacketType.string.toByte :: (List.replicate length 0x61 ++ 0 :: []) := by
    rw [writeToPacket_eq .little [] _ (by simp [AllWritable, Writable]), encodeAll,
      encodeAll, encode, htake]
    simp
  rw [hwritten]
  constructor
  · simp
    omega
  · have hread := (@readString_run ⟨PacketType.string.toByte ::
      (List.replicate length 0x61 ++ 0 :: []), wild⟩ 0 [] [] _ hchars rfl
      (by rw [List.length_replicate]; omega) []).1
    rw [List.length_replicate, Nat.zero_add, hlength] at hread
    simp only [readFromPacket, readValue, Probe.run_bind, hread, Probe.run_pure, if_true]
    rfl

theorem readFromPacket_does_not_end :
    (writeToPacket .little [] [.string (List.replicate (2 ^ 32 - 2) 0x61)]).2.length =
        2 ^ 32 ∧
      ((readFromPacket .little ⟨(writeToPacket .little []
        [.string (List.replicate (2 ^ 32 - 2) 0x61)]).2, fun _ _ => 0⟩ [.string []]
        0).run []).1.idx = 0 :=
  readFromPacket_string_wraps (by norm_num) _

end Sednl.RoundTrip
