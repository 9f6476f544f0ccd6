import Sednl.Wire.SocketHelp
import Sednl.Wire.Grammar

/-!
# Writing packets

The `operator<<` of a packet, type by type, on the bytes written so far.  A
write that throws leaves what it had pushed.  `encode` is the wire format the
writers are meant to produce; `writeValue_eq` is the only place that looks inside
them.
-/

namespace Sednl.Packet

open Sednl.Endian
open Sednl.Tag
open Sednl.SocketHelp
open Sednl.Grammar

inductive PacketExceptionT where
  | uInt8Expected
  | uInt16Expected
  | uInt32Expected
  | uInt64Expected
  | int8Expected
  | int16Expected
  | int32Expected
  | int64Expected
  | floatExpected
  | doubleExpected
  | stringExpected
  | objectExpected
  | arrayUInt8Expected
  | arrayUInt16Expected
  | arrayUInt32Expected
  | arrayUInt64Expected
  | arrayInt8Expected
  | arrayInt16Expected
  | arrayInt32Expected
  | arrayInt64Expected
  | arrayFloatExpected
  | arrayDoubleExpected
  | emptyObject
  | wrongSizedObject
  | wrongArray
  | unknown
  deriving DecidableEq, Repr

/-- How a call on a packet or a reader ends. -/
inductive Status where
  | done
  | threw (exception : PacketExceptionT)
  /-- An `assert` fails. -/
  | aborted
  /-- The index went all the way around without meeting a NUL. -/
  | endless
  deriving DecidableEq, Repr

/-- The arithmetic types a packet holds, floating-point ones as bit patterns. -/
inductive Scalar where
  | char
  | int8
  | int16
  | int32
  | int64
  | uint8
  | uint16
  | uint32
  | uint64
  | float
  | double
  deriving DecidableEq, Repr

namespace Scalar

def size : Scalar → ℕ
  | char | int8 | uint8 => 1
  | int16 | uint16 => 2
  | int32 | uint32 | float => 4
  | int64 | uint64 | double => 8

def bits : Scalar → ℕ
  | char | int8 | uint8 => 8
  | int16 | uint16 => 16
  | int32 | uint32 | float => 32
  | int64 | uint64 | double => 64

/-- The tag written before a value of the type. -/
def tag : Scalar → PacketType
  | char | int8 => .int8
  | int16 => .int16
  | int32 => .int32
  | int64 => .int64
  | uint8 => .uint8
  | uint16 => .uint16
  | uint32 => .uint32
  | uint64 => .uint64
  | float => .float
  | double => .double

/-- The tag written before a vector of the type. -/
def arrayTag : Scalar → PacketType
  | char | int8 => .arrayInt8
  | int16 => .arrayInt16
  | int32 => .arrayInt32
  | int64 => .arrayInt64
  | uint8 => .arrayUInt8
  | uint16 => .arrayUInt16
  | uint32 => .arrayUInt32
  | uint64 => .arrayUInt64
  | float => .arrayFloat
  | double => .arrayDouble

theorem two_pow_bits (type : Scalar) : 2 ^ type.bits = 256 ^ type.size := by
  cases type <;> rfl

theorem size_le (type : Scalar) : type.size ≤ 8 := by
  cases type <;> decide

@[simp]
theorem layout_tag (type : Scalar) : type.tag.layout = .scalar type.size := by
  cases type <;> rfl

@[simp]
theorem layout_arrayTag (type : Scalar) :
    type.arrayTag.layout = .array type.size := by
  cases type <;> rfl

end Scalar

/-- A typed C++ value: what is written, or a destination with its contents.
An object is the list of members a class serialises. -/
inductive Value where
  | scalar (type : Scalar) (dt : BitVec type.bits)
  | string (dt : List Byte)
  | vector (type : Scalar) (dt : List (BitVec type.bits))
  | object (fields : List Value)

/-! ## The writers -/

/-- How a write ends, and the bytes of the packet after it. -/
abbrev Written := Status × List Byte

def push8 (data : List Byte) (elm : BitVec 8) : List Byte :=
  data ++ [UInt8.ofNat elm.toNat]

def writeScalar (host : Host) (data : List Byte) :
    (type : Scalar) → BitVec type.bits → Written
  | .char, dt => (.done, push8 (data ++ [PacketType.int8.toByte]) dt)
  | .int8, dt => (.done, push8 (data ++ [PacketType.int8.toByte]) dt)
  | .uint8, dt => (.done, push8 (data ++ [PacketType.uint8.toByte]) dt)
  | .int16, dt => (.done, push16 host (data ++ [PacketType.int16.toByte]) dt)
  | .uint16, dt => (.done, push16 host (data ++ [PacketType.uint16.toByte]) dt)
  | .int32, dt => (.done, push32 host (data ++ [PacketType.int32.toByte]) dt)
  | .uint32, dt => (.done, push32 host (data ++ [PacketType.uint32.toByte]) dt)
  | .int64, dt => (.done, push64 host (data ++ [PacketType.int64.toByte]) dt)
  | .uint64, dt => (.done, push64 host (data ++ [PacketType.uint64.toByte]) dt)
  | .float, dt => (.done, push32 host (data ++ [PacketType.float.toByte]) dt)
  | .double, dt => (.done, push64 host (data ++ [PacketType.double.toByte]) dt)

/-- `operator<<` on a string: `c_str()` up to its first NUL. -/
def writeString (data : List Byte) (dt : List Byte) : Written :=
  (.done, data ++ [PacketType.string.toByte] ++ dt.takeWhile (· ≠ 0) ++ [0])

def writeArray {bits : ℕ} (fct : List Byte → BitVec bits → List Byte)
    (host : Host) (type : PacketType) (data : List Byte) (dt : List (BitVec bits)) :
    Written :=
  if dt.length % 2 ^ 16 ≠ dt.length then (.threw .wrongArray, data)
  else (.done, dt.foldl fct
    (push16 host (data ++ [type.toByte]) (BitVec.ofNat 16 dt.length)))

def writeVector (host : Host) (data : List Byte) :
    (type : Scalar) → List (BitVec type.bits) → Written
  | .char, dt => writeArray push8 host .arrayInt8 data dt
  | .int8, dt => writeArray push8 host .arrayInt8 data dt
  | .uint8, dt => writeArray push8 host .arrayUInt8 data dt
  | .int16, dt => writeArray (push16 host) host .arrayInt16 data dt
  | .uint16, dt => writeArray (push16 host) host .arrayUInt16 data dt
  | .int32, dt => writeArray (push32 host) host .arrayInt32 data dt
  | .uint32, dt => writeArray (push32 host) host .arrayUInt32 data dt
  | .int64, dt => writeArray (push64 host) host .arrayInt64 data dt
  | .uint64, dt => writeArray (push64 host) host .arrayUInt64 data dt
  | .float, dt => writeArray (push32 host) host .arrayFloat data dt
  | .double, dt => writeArray (push64 host) host .arrayDouble data dt

def writeObjectHeader (data : List Byte) (length : ℕ) : Written :=
  if 256 ≤ length then (.aborted, data)
  else if length = 0 then (.threw .emptyObject, data)
  else (.done, data ++ [PacketType.object.toByte, UInt8.ofNat length])

/-- `number_of_args`, an `unsigned short`. -/
def numberOfArgs (args : List Value) : ℕ :=
  args.length % 2 ^ 16

mutual

/-- `operator<<`; on a serialisable object it is `write_as_object`. -/
def writeValue (host : Host) (data : List Byte) : Value → Written
  | .scalar type dt => writeScalar host data type dt
  | .string dt => writeString data dt
  | .vector type dt => writeVector host data type dt
  | .object fields =>
      match writeObjectHeader data (numberOfArgs fields) with
      | (.done, data) => writeToPacket host data fields
      | failed => failed

/-- `write_to_packet`, which stops at the first exception. -/
def writeToPacket (host : Host) (data : List Byte) : List Value → Written
  | [] => (.done, data)
  | arg :: args =>
      match writeValue host data arg with
      | (.done, data) => writeToPacket host data args
      | failed => failed

end

/-! ## The wire format -/

mutual

def encode : Value → List Byte
  | .scalar type dt => type.tag.toByte :: beBytes type.size dt.toNat
  | .string dt => PacketType.string.toByte :: (dt.takeWhile (· ≠ 0) ++ [0])
  | .vector type dt => type.arrayTag.toByte ::
      (beBytes 2 dt.length ++ dt.flatMap fun elm => beBytes type.size elm.toNat)
  | .object fields => PacketType.object.toByte :: UInt8.ofNat fields.length ::
      encodeAll fields

def encodeAll : List Value → List Byte
  | [] => []
  | value :: values => encode value ++ encodeAll values

end

mutual

/-- A value the format has room for. -/
def Writable : Value → Prop
  | .scalar _ _ | .string _ => True
  | .vector _ dt => dt.length ≤ 65535
  | .object fields => 1 ≤ fields.length ∧ fields.length ≤ 255 ∧ AllWritable fields

def AllWritable : List Value → Prop
  | [] => True
  | value :: values => Writable value ∧ AllWritable values

end

theorem push8_eq (data : List Byte) (elm : BitVec 8) :
    push8 data elm = data ++ beBytes 1 elm.toNat := rfl

theorem tagged_eq {bits : ℕ} {fct : List Byte → BitVec bits → List Byte} {size : ℕ}
    (hfct : ∀ data elm, fct data elm = data ++ beBytes size elm.toNat)
    (data : List Byte) (tag : Byte) (dt : BitVec bits) :
    ((.done, fct (data ++ [tag]) dt) : Written) =
      (.done, data ++ tag :: beBytes size dt.toNat) := by
  rw [hfct, List.append_assoc, List.singleton_append]

theorem writeScalar_eq (host : Host) (data : List Byte) (type : Scalar)
    (dt : BitVec type.bits) :
    writeScalar host data type dt = (.done, data ++ encode (.scalar type dt)) := by
  rw [encode]
  cases type with
  | char | int8 | uint8 => exact tagged_eq push8_eq data _ dt
  | int16 | uint16 => exact tagged_eq (push16_eq host) data _ dt
  | int32 | uint32 | float => exact tagged_eq (push32_eq host) data _ dt
  | int64 | uint64 | double => exact tagged_eq (push64_eq host) data _ dt

theorem foldl_push {bits : ℕ} {fct : List Byte → BitVec bits → List Byte} {size : ℕ}
    (hfct : ∀ data elm, fct data elm = data ++ beBytes size elm.toNat)
    (data : List Byte) (dt : List (BitVec bits)) :
    dt.foldl fct data = data ++ dt.flatMap fun elm => beBytes size elm.toNat := by
  induction dt generalizing data with
  | nil => simp
  | cons elm dt ih => simp [hfct, ih]

theorem writeArray_eq {bits : ℕ} {fct : List Byte → BitVec bits → List Byte}
    {size : ℕ} (hfct : ∀ data elm, fct data elm = data ++ beBytes size elm.toNat)
    (host : Host) (type : PacketType) (data : List Byte) {dt : List (BitVec bits)}
    (hlength : dt.length ≤ 65535) :
    writeArray fct host type data dt = (.done, data ++ type.toByte ::
      (beBytes 2 dt.length ++ dt.flatMap fun elm => beBytes size elm.toNat)) := by
  have hmod : dt.length % 2 ^ 16 = dt.length := Nat.mod_eq_of_lt (by omega)
  rw [writeArray, if_neg (by simpa using hmod), foldl_push hfct, push16_eq,
    BitVec.toNat_ofNat, hmod]
  simp

theorem writeVector_eq (host : Host) (data : List Byte) (type : Scalar)
    {dt : List (BitVec type.bits)} (hlength : dt.length ≤ 65535) :
    writeVector host data type dt = (.done, data ++ encode (.vector type dt)) := by
  rw [encode]
  cases type with
  | char | int8 | uint8 => exact writeArray_eq push8_eq host _ data hlength
  | int16 | uint16 => exact writeArray_eq (push16_eq host) host _ data hlength
  | int32 | uint32 | float => exact writeArray_eq (push32_eq host) host _ data hlength
  | int64 | uint64 | double => exact writeArray_eq (push64_eq host) host _ data hlength

theorem writeObjectHeader_eq (data : List Byte) {length : ℕ} (hpos : 1 ≤ length)
    (hlength : length ≤ 255) : writeObjectHeader data length =
      (.done, data ++ [PacketType.object.toByte, UInt8.ofNat length]) := by
  rw [writeObjectHeader, if_neg (by omega), if_neg (by omega)]

mutual

/-- On every host, a writable value is written as its item. -/
theorem writeValue_eq (host : Host) (data : List Byte) :
    ∀ value, Writable value →
      writeValue host data value = (.done, data ++ encode value)
  | .scalar type dt, _ => by
      rw [writeValue, writeScalar_eq]
  | .string dt, _ => by
      rw [writeValue, writeString, encode]
      simp
  | .vector type dt, hwritable => by
      rw [Writable] at hwritable
      rw [writeValue, writeVector_eq host data type hwritable]
  | .object fields, hwritable => by
      rw [Writable] at hwritable
      obtain ⟨hpos, hlength, hfields⟩ := hwritable
      have hargs : numberOfArgs fields = fields.length := Nat.mod_eq_of_lt (by omega)
      rw [writeValue, hargs, writeObjectHeader_eq data hpos hlength]
      simp only
      rw [writeToPacket_eq host _ fields hfields, encode]
      simp

theorem writeToPacket_eq (host : Host) (data : List Byte) :
    ∀ values, AllWritable values →
      writeToPacket host data values = (.done, data ++ encodeAll values)
  | [], _ => by
      rw [writeToPacket, encodeAll, List.append_nil]
  | value :: values, hwritable => by
      rw [AllWritable] at hwritable
      rw [writeToPacket, writeValue_eq host data value hwritable.1]
      simp only
      rw [writeToPacket_eq host _ values hwritable.2, encodeAll, List.append_assoc]

end

end Sednl.Packet
