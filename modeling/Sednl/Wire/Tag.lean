import Mathlib

/-!
# Packet tags

Every element of a packet starts with one byte naming its type.  The numbers
are those of the source's `Packet::Type`; a byte that names no enumerator is
read back as `none`.
-/

namespace Sednl.Tag

abbrev Byte := UInt8

/-- `Packet::Type`. -/
inductive PacketType where
  | unknown
  | int8
  | int16
  | int32
  | int64
  | uint8
  | uint16
  | uint32
  | uint64
  | float
  | double
  | string
  | object
  | arrayInt8
  | arrayInt16
  | arrayInt32
  | arrayInt64
  | arrayUInt8
  | arrayUInt16
  | arrayUInt32
  | arrayUInt64
  | arrayFloat
  | arrayDouble
  deriving DecidableEq, Repr

namespace PacketType

def toByte : PacketType → Byte
  | unknown => 0x00
  | int8 => 0x01
  | int16 => 0x02
  | int32 => 0x03
  | int64 => 0x04
  | uint8 => 0x05
  | uint16 => 0x06
  | uint32 => 0x07
  | uint64 => 0x08
  | float => 0x10
  | double => 0x11
  | string => 0x20
  | object => 0x40
  | arrayInt8 => 0x81
  | arrayInt16 => 0x82
  | arrayInt32 => 0x83
  | arrayInt64 => 0x84
  | arrayUInt8 => 0x85
  | arrayUInt16 => 0x86
  | arrayUInt32 => 0x87
  | arrayUInt64 => 0x88
  | arrayFloat => 0x90
  | arrayDouble => 0x91

def enumerators : List PacketType :=
  [unknown, int8, int16, int32, int64, uint8, uint16, uint32, uint64, float,
    double, string, object, arrayInt8, arrayInt16, arrayInt32, arrayInt64,
    arrayUInt8, arrayUInt16, arrayUInt32, arrayUInt64, arrayFloat, arrayDouble]

/-- `static_cast<Packet::Type>`; `none` is a byte outside the enumeration,
which takes the `default` branch of every `switch`. -/
def ofByte (byte : Byte) : Option PacketType :=
  enumerators.find? fun type => type.toByte = byte

@[simp]
theorem ofByte_toByte (type : PacketType) : ofByte type.toByte = some type := by
  cases type <;> rfl

theorem ofByte_eq_some {byte : Byte} {type : PacketType} :
    ofByte byte = some type ↔ byte = type.toByte := by
  constructor
  · intro h
    simpa [eq_comm] using List.find?_some h
  · rintro rfl
    exact ofByte_toByte type

theorem toByte_injective : Function.Injective toByte := by
  intro left right heq
  simpa [heq] using (ofByte_toByte left).symm

/-- What the grammar puts after a tag. -/
inductive Layout where
  | scalar (size : ℕ)
  | string
  | object
  | array (size : ℕ)
  | reserved
  deriving DecidableEq, Repr

def layout : PacketType → Layout
  | unknown => .reserved
  | int8 | uint8 => .scalar 1
  | int16 | uint16 => .scalar 2
  | int32 | uint32 | float => .scalar 4
  | int64 | uint64 | double => .scalar 8
  | string => .string
  | object => .object
  | arrayInt8 | arrayUInt8 => .array 1
  | arrayInt16 | arrayUInt16 => .array 2
  | arrayInt32 | arrayUInt32 | arrayFloat => .array 4
  | arrayInt64 | arrayUInt64 | arrayDouble => .array 8

theorem scalar_size_bounds {type : PacketType} {size : ℕ}
    (hlayout : type.layout = .scalar size) : 1 ≤ size ∧ size ≤ 8 := by
  cases type <;> simp [layout] at hlayout <;> omega

theorem array_size_bounds {type : PacketType} {size : ℕ}
    (hlayout : type.layout = .array size) : 1 ≤ size ∧ size ≤ 8 := by
  cases type <;> simp [layout] at hlayout <;> omega

theorem layout_eq_string {type : PacketType} :
    type.layout = .string ↔ type = .string := by
  cases type <;> simp [layout]

theorem layout_eq_object {type : PacketType} :
    type.layout = .object ↔ type = .object := by
  cases type <;> simp [layout]

end PacketType

end Sednl.Tag
