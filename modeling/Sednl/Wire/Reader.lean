import Sednl.Wire.Packet

/-!
# Reading packets

The `operator>>` of a packet reader and `read_as_object`.  Nothing is checked
past the tag of an item: the readers trust the packet to be valid.  `payload`
is what an item means to a destination, and `readValue_of_leaf` is the contract of
every built-in reader on an item it accepts.
-/

namespace Sednl.Reader

open Sednl.Endian
open Sednl.Memory
open Sednl.Tag
open Sednl.Word
open Sednl.SocketHelp
open Sednl.Grammar
open Sednl.Packet

/-- How a read ends, the destination after it, and the reader's `m_idx`. -/
structure Reading (δ : Type) where
  status : Status
  dt : δ
  idx : ℕ

def exceptionByType : Option PacketType → PacketExceptionT
  | some .int8 => .int8Expected
  | some .int16 => .int16Expected
  | some .int32 => .int32Expected
  | some .int64 => .int64Expected
  | some .uint8 => .uInt8Expected
  | some .uint16 => .uInt16Expected
  | some .uint32 => .uInt32Expected
  | some .uint64 => .uInt64Expected
  | some .float => .floatExpected
  | some .double => .doubleExpected
  | some .arrayInt8 => .arrayInt8Expected
  | some .arrayInt16 => .arrayInt16Expected
  | some .arrayInt32 => .arrayInt32Expected
  | some .arrayInt64 => .arrayInt64Expected
  | some .arrayUInt8 => .arrayUInt8Expected
  | some .arrayUInt16 => .arrayUInt16Expected
  | some .arrayUInt32 => .arrayUInt32Expected
  | some .arrayUInt64 => .arrayUInt64Expected
  | some .arrayFloat => .arrayFloatExpected
  | some .arrayDouble => .arrayDoubleExpected
  | some .string => .stringExpected
  | some .object => .objectExpected
  | some .unknown | none => .unknown

/-- `type != ptype`, for each of the types a reader takes. -/
def mismatched (ptypes : List PacketType) (type : Option PacketType) : Bool :=
  ptypes.all fun ptype => type ≠ some ptype

/-- What every built-in reader does before the payload. -/
def readTag {δ : Type} (data : Region Byte) (ptypes : List PacketType) (dt : δ)
    (idx : ℕ) (payload : ℕ → Probe (Reading δ)) : Probe (Reading δ) :=
  if data.size ≤ idx then pure ⟨.done, dt, idx⟩
  else do
    let type := PacketType.ofByte (← data.read idx)
    if mismatched ptypes type then
      pure ⟨.threw (exceptionByType type), dt, idx⟩
    else payload (u32 (idx + 1))

def readItem {bits : ℕ} (fct : ℕ → Probe (BitVec bits)) (size : ℕ)
    (ptypes : List PacketType) (data : Region Byte) (dt : BitVec bits) (idx : ℕ) :
    Probe (Reading (BitVec bits)) :=
  readTag data ptypes dt idx fun idx => do
    let dt ← fct idx
    pure ⟨.done, dt, u32 (idx + size)⟩

def readScalar (host : Host) (data : Region Byte) :
    (type : Scalar) → BitVec type.bits → ℕ → Probe (Reading (BitVec type.bits))
  | .char => readItem (front8 data) 1 [.int8, .uint8] data
  | .uint8 => readItem (front8 data) 1 [.uint8] data
  | .int8 => readItem (front8 data) 1 [.int8] data
  | .uint16 => readItem (front16 host data) 2 [.uint16] data
  | .int16 => readItem (front16 host data) 2 [.int16] data
  | .uint32 => readItem (front32 host data) 4 [.uint32] data
  | .int32 => readItem (front32 host data) 4 [.int32] data
  | .uint64 => readItem (front64 host data) 8 [.uint64] data
  | .int64 => readItem (front64 host data) 8 [.int64] data
  | .float => readItem (front32 host data) 4 [.float] data
  | .double => readItem (front64 host data) 8 [.double] data

/-- The loop over the characters of a string; `none` when the index has taken
all its values without meeting a NUL. -/
def readChars (data : Region Byte) :
    ℕ → List Byte → ℕ → Probe (Option (List Byte × ℕ))
  | 0, _, _ => pure none
  | rounds + 1, out, idx => do
      let byte ← data.read idx
      if byte ≠ 0 then do
        let byte ← data.read idx
        readChars data rounds (out ++ [byte]) (u32 (idx + 1))
      else pure (some (out, u32 (idx + 1)))

def readString (data : Region Byte) (dt : List Byte) (idx : ℕ) :
    Probe (Reading (List Byte)) :=
  readTag data [.string] dt idx fun idx => do
    match ← readChars data (2 ^ 32) [] idx with
    | some (out, idx) => pure ⟨.done, out, idx⟩
    | none => pure ⟨.endless, dt, idx⟩

/-- The loop over the elements of a vector. -/
def readElements {bits : ℕ} (fct : ℕ → Probe (BitVec bits)) (size : ℕ) :
    ℕ → List (BitVec bits) → ℕ → Probe (List (BitVec bits) × ℕ)
  | 0, dt, idx => pure (dt, idx)
  | length + 1, dt, idx => do
      let t ← fct idx
      readElements fct size length (dt ++ [t]) (u32 (idx + size))

def readArray {bits : ℕ} (host : Host) (fct : ℕ → Probe (BitVec bits)) (size : ℕ)
    (ptypes : List PacketType) (data : Region Byte) (dt : List (BitVec bits))
    (idx : ℕ) : Probe (Reading (List (BitVec bits))) :=
  readTag data ptypes dt idx fun idx => do
    let length ← front16 host data idx
    let (dt, idx) ← readElements fct size length.toNat [] (u32 (idx + 2))
    pure ⟨.done, dt, idx⟩

def readVector (host : Host) (data : Region Byte) : (type : Scalar) →
    List (BitVec type.bits) → ℕ → Probe (Reading (List (BitVec type.bits)))
  | .char => readArray host (front8 data) 1 [.arrayInt8, .arrayUInt8] data
  | .uint8 => readArray host (front8 data) 1 [.arrayUInt8] data
  | .int8 => readArray host (front8 data) 1 [.arrayInt8] data
  | .uint16 => readArray host (front16 host data) 2 [.arrayUInt16] data
  | .int16 => readArray host (front16 host data) 2 [.arrayInt16] data
  | .uint32 => readArray host (front32 host data) 4 [.arrayUInt32] data
  | .int32 => readArray host (front32 host data) 4 [.arrayInt32] data
  | .uint64 => readArray host (front64 host data) 8 [.arrayUInt64] data
  | .int64 => readArray host (front64 host data) 8 [.arrayInt64] data
  | .float => readArray host (front32 host data) 4 [.arrayFloat] data
  | .double => readArray host (front64 host data) 8 [.arrayDouble] data

def nextType (data : Region Byte) (idx : ℕ) : Probe (Option PacketType) :=
  if data.size ≤ idx then pure (some .unknown)
  else do
    let byte ← data.read idx
    pure (PacketType.ofByte byte)

def readObjectHeader (data : Region Byte) (length idx : ℕ) : Probe (Status × ℕ) := do
  let type ← nextType data idx
  if type ≠ some .object then pure (.threw .objectExpected, idx)
  else do
    let objLength ← data.read (u32 (idx + 1))
    if objLength = 0 then pure (.threw .emptyObject, idx)
    else if objLength.toNat ≠ length then pure (.threw .wrongSizedObject, idx)
    else pure (.done, u32 (idx + 2))

mutual

/-- `operator>>`; on a serialisable object it is `read_as_object`, which moves
a copy of the reader and keeps it only when everything went well. -/
def readValue (host : Host) (data : Region Byte) : Value → ℕ → Probe (Reading Value)
  | .scalar type dt, idx => do
      let reading ← readScalar host data type dt idx
      pure ⟨reading.status, .scalar type reading.dt, reading.idx⟩
  | .string dt, idx => do
      let reading ← readString data dt idx
      pure ⟨reading.status, .string reading.dt, reading.idx⟩
  | .vector type dt, idx => do
      let reading ← readVector host data type dt idx
      pure ⟨reading.status, .vector type reading.dt, reading.idx⟩
  | .object fields, idx => do
      let (status, tmp) ← readObjectHeader data (numberOfArgs fields) idx
      if status = .done then do
        let reading ← readFromPacket host data fields tmp
        pure ⟨reading.status, .object reading.dt,
          if reading.status = .done then reading.idx else idx⟩
      else pure ⟨status, .object fields, idx⟩

/-- `read_from_packet`, which stops at the first exception. -/
def readFromPacket (host : Host) (data : Region Byte) :
    List Value → ℕ → Probe (Reading (List Value))
  | [], idx => pure ⟨.done, [], idx⟩
  | arg :: args, idx => do
      let reading ← readValue host data arg idx
      if reading.status = .done then do
        let rest ← readFromPacket host data args reading.idx
        pure ⟨rest.status, reading.dt :: rest.dt, rest.idx⟩
      else pure ⟨reading.status, reading.dt :: args, reading.idx⟩

end

/-! ## What an item means to a destination -/

/-- The tags a destination takes; a `char` takes both 8-bit integers. -/
def accepted : Value → List PacketType
  | .scalar .char _ => [.int8, .uint8]
  | .scalar type _ => [type.tag]
  | .string _ => [.string]
  | .vector .char _ => [.arrayInt8, .arrayUInt8]
  | .vector type _ => [type.arrayTag]
  | .object _ => [.object]

/-- The destinations handled by a reader of their own. -/
def BuiltIn : Value → Prop
  | .object _ => False
  | _ => True

/-- The first `count` words of `size` bytes. -/
def words (bits size : ℕ) : (count : ℕ) → List Byte → List (BitVec bits)
  | 0, _ => []
  | count + 1, body => BitVec.ofNat bits (beValue (body.take size)) ::
      words bits size count (body.drop size)

/-- The value of the destination's type that an item holds. -/
def payload (item : List Byte) : Value → Value
  | .scalar type _ => .scalar type (BitVec.ofNat type.bits (beValue item.tail))
  | .string _ => .string (item.tail.takeWhile (· ≠ 0))
  | .vector type _ => .vector type
      (words type.bits type.size (beValue (item.tail.take 2)) (item.drop 3))
  | .object fields => .object fields

/-! ## The readers -/

section Readers

variable {host : Host} {data : Region Byte} {idx : ℕ} {rest : List Byte}

/-- What the `__front` functions have in common. -/
def Fronts (data : Region Byte) {bits : ℕ} (fct : ℕ → Probe (BitVec bits))
    (size : ℕ) : Prop :=
  ∀ (index : ℕ) (bytes rest : List Byte) (log : List ℕ),
    data.cells.drop index = bytes ++ rest → bytes.length = size →
    index + size ≤ 2 ^ 32 →
      ((fct index).run log).1 = BitVec.ofNat bits (beValue bytes) ∧
        (InBounds data.size ((fct index).run log).2 ↔ InBounds data.size log)

theorem fronts_front8 (data : Region Byte) : Fronts data (front8 data) 1 := by
  intro index bytes rest log hdrop hlength _
  match bytes, hlength with
  | [_], _ => exact front8_run hdrop log

theorem fronts_front16 (host : Host) (data : Region Byte) :
    Fronts data (front16 host data) 2 := by
  intro index bytes rest log hdrop hlength hindex
  match bytes, hlength with
  | [_, _], _ => exact front16_run host hdrop hindex log

theorem fronts_front32 (host : Host) (data : Region Byte) :
    Fronts data (front32 host data) 4 := by
  intro index bytes rest log hdrop hlength hindex
  match bytes, hlength with
  | [_, _, _, _], _ => exact front32_run host hdrop hindex log

theorem fronts_front64 (host : Host) (data : Region Byte) :
    Fronts data (front64 host data) 8 := by
  intro index bytes rest log hdrop hlength hindex
  match bytes, hlength with
  | [_, _, _, _, _, _, _, _], _ => exact front64_run host hdrop hindex log

theorem readTag_end {δ : Type} (ptypes : List PacketType) (dt : δ)
    (payload : ℕ → Probe (Reading δ)) (hidx : data.size ≤ idx) :
    readTag data ptypes dt idx payload = pure ⟨.done, dt, idx⟩ := by
  rw [readTag, if_pos hidx]

theorem readTag_mismatch {δ : Type} {ptypes : List PacketType} {tag : Byte} (dt : δ)
    (payload : ℕ → Probe (Reading δ)) (hdrop : data.cells.drop idx = tag :: rest)
    (htag : ∀ ptype ∈ ptypes, PacketType.ofByte tag ≠ some ptype) (log : List ℕ) :
    (readTag data ptypes dt idx payload).run log =
      (⟨.threw (exceptionByType (PacketType.ofByte tag)), dt, idx⟩, idx :: log) := by
  have hidx := Region.lt_size_of_head hdrop
  rw [readTag, if_neg (not_le.mpr hidx)]
  simp only [Probe.run_bind, Region.run_read, Region.value_head hdrop]
  have hall : mismatched ptypes (PacketType.ofByte tag) = true := by
    simpa [mismatched] using htag
  rw [if_pos hall]
  rfl

theorem readTag_match {δ : Type} {ptypes : List PacketType} {tag : Byte}
    {type : PacketType} (dt : δ) (payload : ℕ → Probe (Reading δ))
    (hdrop : data.cells.drop idx = tag :: rest) (hidx : idx + 1 < 2 ^ 32)
    (htag : PacketType.ofByte tag = some type) (htype : type ∈ ptypes) (log : List ℕ) :
    (readTag data ptypes dt idx payload).run log =
      (payload (idx + 1)).run (idx :: log) := by
  have hsize := Region.lt_size_of_head hdrop
  have hstep : u32 (idx + 1) = idx + 1 := u32_of_lt hidx
  rw [readTag, if_neg (not_le.mpr hsize)]
  simp only [Probe.run_bind, Region.run_read, Region.value_head hdrop]
  have hall : ¬ mismatched ptypes (PacketType.ofByte tag) = true := by
    intro h
    simpa [htag] using List.all_eq_true.mp h type htype
  rw [if_neg hall, hstep]

theorem drop_tail {tag : Byte} (hdrop : data.cells.drop idx = tag :: rest) :
    data.cells.drop (idx + 1) = rest :=
  @Region.drop_add _ _ _ [tag] _ hdrop

theorem readItem_run {bits size : ℕ} {fct : ℕ → Probe (BitVec bits)}
    (hfct : Fronts data fct size) {ptypes : List PacketType} {type : PacketType}
    (htype : type ∈ ptypes) (dt : BitVec bits) {body : List Byte}
    (hbody : body.length = size)
    (hdrop : data.cells.drop idx = type.toByte :: (body ++ rest))
    (hidx : idx + 1 + size < 2 ^ 32) (log : List ℕ) :
    ((readItem fct size ptypes data dt idx).run log).1 =
        ⟨.done, BitVec.ofNat bits (beValue body), idx + 1 + size⟩ ∧
      (InBounds data.size ((readItem fct size ptypes data dt idx).run log).2 ↔
        InBounds data.size log) := by
  obtain ⟨hvalue, hlog⟩ := hfct (idx + 1) body rest (idx :: log) (drop_tail hdrop)
    hbody hidx.le
  rw [readItem, readTag_match dt _ hdrop (by omega) (PacketType.ofByte_toByte type)
    htype]
  simp only [Probe.run_bind, Probe.run_pure, hvalue, hlog, u32_of_lt hidx, true_and]
  exact inBounds_of_lt (Region.lt_size_of_head hdrop) log

/-- The characters before the NUL, whatever was there before. -/
theorem readChars_run {rounds : ℕ} {out chars : List Byte} (hchars : 0 ∉ chars)
    (hrounds : chars.length < rounds)
    (hdrop : data.cells.drop idx = chars ++ 0 :: rest)
    (hidx : idx + chars.length < 2 ^ 32) (log : List ℕ) :
    ((readChars data rounds out idx).run log).1 =
        some (out ++ chars, u32 (idx + chars.length + 1)) ∧
      (InBounds data.size ((readChars data rounds out idx).run log).2 ↔
        InBounds data.size log) := by
  induction chars generalizing rounds out idx log with
  | nil =>
      obtain ⟨rounds, rfl⟩ : ∃ pred, rounds = pred + 1 :=
        Nat.exists_eq_succ_of_ne_zero (by simp at hrounds; omega)
      have hlt := Region.lt_size_of_head hdrop
      simp [readChars, Region.value_head hdrop, hlt]
  | cons char chars ih =>
      obtain ⟨rounds, rfl⟩ : ∃ pred, rounds = pred + 1 :=
        Nat.exists_eq_succ_of_ne_zero (by simp at hrounds; omega)
      have hlt := Region.lt_size_of_head hdrop
      have hchar : char ≠ 0 := fun h => hchars (by simp [h])
      simp only [List.length_cons] at hrounds hidx
      have hstep : u32 (idx + 1) = idx + 1 := u32_of_lt (by omega)
      obtain ⟨hvalue, hlog⟩ := @ih (idx + 1) rounds (out ++ [char])
        (fun h => hchars (by simp [h])) (by omega) (drop_tail hdrop) (by omega)
        (idx :: idx :: log)
      simp only [readChars, Probe.run_bind, Region.run_read, Region.value_head hdrop,
        hchar, ne_eq, not_false_eq_true, if_true, hstep, hvalue, hlog]
      rw [inBounds_of_lt hlt, inBounds_of_lt hlt, List.length_cons,
        show idx + 1 + chars.length + 1 = idx + (chars.length + 1) + 1 by omega]
      simp

theorem readString_run (dt : List Byte) {chars : List Byte} (hchars : 0 ∉ chars)
    (hdrop : data.cells.drop idx = PacketType.string.toByte :: (chars ++ 0 :: rest))
    (hidx : idx + chars.length + 2 ≤ 2 ^ 32) (log : List ℕ) :
    ((readString data dt idx).run log).1 =
        ⟨.done, chars, u32 (idx + (chars.length + 2))⟩ ∧
      (InBounds data.size ((readString data dt idx).run log).2 ↔
        InBounds data.size log) := by
  obtain ⟨hvalue, hlog⟩ := @readChars_run data (idx + 1) rest (2 ^ 32) [] chars hchars
    (by omega) (drop_tail hdrop) (by omega) (idx :: log)
  rw [readString, readTag_match dt _ hdrop (by omega)
    (PacketType.ofByte_toByte .string) (by simp)]
  simp only [Probe.run_bind, hvalue, Probe.run_pure, hlog, List.nil_append]
  refine ⟨?_, inBounds_of_lt (Region.lt_size_of_head hdrop) log⟩
  rw [show idx + 1 + chars.length + 1 = idx + (chars.length + 2) by omega]

theorem readElements_run {bits size : ℕ} {fct : ℕ → Probe (BitVec bits)}
    (hfct : Fronts data fct size) {count : ℕ} {dt : List (BitVec bits)}
    {body : List Byte} (hbody : body.length = count * size)
    (hdrop : data.cells.drop idx = body ++ rest)
    (hidx : idx + count * size < 2 ^ 32) (log : List ℕ) :
    ((readElements fct size count dt idx).run log).1 =
        (dt ++ words bits size count body, idx + count * size) ∧
      (InBounds data.size ((readElements fct size count dt idx).run log).2 ↔
        InBounds data.size log) := by
  induction count generalizing dt idx body log with
  | zero => simp [readElements, words]
  | succ count ih =>
      rw [Nat.succ_mul] at hbody hidx
      have hsplit : data.cells.drop idx = body.take size ++ (body.drop size ++ rest) := by
        rw [hdrop, ← List.append_assoc, List.take_append_drop]
      have htake : (body.take size).length = size := by
        rw [List.length_take]
        omega
      have hnext := Region.drop_add hsplit
      rw [htake] at hnext
      obtain ⟨hvalue, hlog⟩ := hfct idx _ _ log hsplit htake (by omega)
      obtain ⟨hrest, hlater⟩ := @ih (idx + size) (dt ++ [BitVec.ofNat bits
        (beValue (body.take size))]) (body.drop size)
        (by rw [List.length_drop]; omega) hnext (by omega) ((fct idx).run log).2
      simp only [readElements, Probe.run_bind, hvalue,
        u32_of_lt (show idx + size < 2 ^ 32 by omega), hrest, hlater, hlog, words]
      rw [Nat.succ_mul, Nat.add_assoc, Nat.add_comm size]
      simp

theorem readArray_run {bits size : ℕ} {fct : ℕ → Probe (BitVec bits)}
    (hfct : Fronts data fct size) {ptypes : List PacketType} {type : PacketType}
    (htype : type ∈ ptypes) (dt : List (BitVec bits)) {high low : Byte}
    {body : List Byte} (hbody : body.length = beValue [high, low] * size)
    (hdrop : data.cells.drop idx = type.toByte :: high :: low :: (body ++ rest))
    (hidx : idx + 3 + beValue [high, low] * size < 2 ^ 32) (log : List ℕ) :
    ((readArray host fct size ptypes data dt idx).run log).1 =
        ⟨.done, words bits size (beValue [high, low]) body,
          idx + 3 + beValue [high, low] * size⟩ ∧
      (InBounds data.size ((readArray host fct size ptypes data dt idx).run log).2 ↔
        InBounds data.size log) := by
  have hcount : beValue [high, low] < 2 ^ 16 := by
    simpa using beValue_lt [high, low]
  have hbodyDrop : data.cells.drop (idx + 3) = body ++ rest :=
    @Region.drop_add _ _ _ [type.toByte, high, low] _ hdrop
  obtain ⟨hlength, hlog⟩ := fronts_front16 host data (idx + 1) [high, low]
    (body ++ rest) (idx :: log) (drop_tail hdrop) rfl (by omega)
  obtain ⟨hvalue, hlater⟩ := @readElements_run data (idx + 3) rest bits size fct hfct
    (beValue [high, low]) [] body hbody hbodyDrop hidx
    ((front16 host data (idx + 1)).run (idx :: log)).2
  rw [readArray, readTag_match dt _ hdrop (by omega)
    (PacketType.ofByte_toByte type) htype]
  simp only [Probe.run_bind, Probe.run_pure, hlength, BitVec.toNat_ofNat,
    Nat.mod_eq_of_lt hcount, u32_of_lt (show idx + 1 + 2 < 2 ^ 32 by omega), hvalue,
    hlater, hlog, List.nil_append, true_and]
  exact inBounds_of_lt (Region.lt_size_of_head hdrop) log

theorem readScalar_run {type : Scalar} (dt : BitVec type.bits) {found : PacketType}
    (hfound : found ∈ accepted (.scalar type dt)) {body : List Byte}
    (hbody : body.length = type.size)
    (hdrop : data.cells.drop idx = found.toByte :: (body ++ rest))
    (hidx : idx + 1 + type.size < 2 ^ 32) (log : List ℕ) :
    ((readScalar host data type dt idx).run log).1 =
        ⟨.done, BitVec.ofNat type.bits (beValue body), idx + 1 + type.size⟩ ∧
      (InBounds data.size ((readScalar host data type dt idx).run log).2 ↔
        InBounds data.size log) := by
  cases type with
  | char | int8 | uint8 =>
      exact readItem_run (fronts_front8 data) hfound dt hbody hdrop hidx log
  | int16 | uint16 =>
      exact readItem_run (fronts_front16 host data) hfound dt hbody hdrop hidx log
  | int32 | uint32 | float =>
      exact readItem_run (fronts_front32 host data) hfound dt hbody hdrop hidx log
  | int64 | uint64 | double =>
      exact readItem_run (fronts_front64 host data) hfound dt hbody hdrop hidx log

theorem readVector_run {type : Scalar} (dt : List (BitVec type.bits))
    {found : PacketType} (hfound : found ∈ accepted (.vector type dt)) {high low : Byte}
    {body : List Byte} (hbody : body.length = beValue [high, low] * type.size)
    (hdrop : data.cells.drop idx = found.toByte :: high :: low :: (body ++ rest))
    (hidx : idx + 3 + beValue [high, low] * type.size < 2 ^ 32) (log : List ℕ) :
    ((readVector host data type dt idx).run log).1 =
        ⟨.done, words type.bits type.size (beValue [high, low]) body,
          idx + 3 + beValue [high, low] * type.size⟩ ∧
      (InBounds data.size ((readVector host data type dt idx).run log).2 ↔
        InBounds data.size log) := by
  cases type with
  | char | int8 | uint8 =>
      exact readArray_run (fronts_front8 data) hfound dt hbody hdrop hidx log
  | int16 | uint16 =>
      exact readArray_run (fronts_front16 host data) hfound dt hbody hdrop hidx log
  | int32 | uint32 | float =>
      exact readArray_run (fronts_front32 host data) hfound dt hbody hdrop hidx log
  | int64 | uint64 | double =>
      exact readArray_run (fronts_front64 host data) hfound dt hbody hdrop hidx log

/-! ## The contract of the built-in readers -/

theorem mem_accepted_scalar {type : Scalar} {dt : BitVec type.bits}
    {found : PacketType} (hfound : found ∈ accepted (.scalar type dt)) :
    found.layout = .scalar type.size := by
  cases type with
  | char => fin_cases hfound <;> rfl
  | _ =>
      obtain rfl := List.mem_singleton.mp hfound
      rfl

theorem mem_accepted_vector {type : Scalar} {dt : List (BitVec type.bits)}
    {found : PacketType} (hfound : found ∈ accepted (.vector type dt)) :
    found.layout = .array type.size := by
  cases type with
  | char => fin_cases hfound <;> rfl
  | _ =>
      obtain rfl := List.mem_singleton.mp hfound
      rfl

theorem takeWhile_append_zero {chars : List Byte} (hchars : 0 ∉ chars) :
    (chars ++ [0]).takeWhile (· ≠ 0) = chars := by
  rw [List.takeWhile_append_of_pos]
  · simp
  · intro char hchar
    have hne : char ≠ 0 := fun h => hchars (h ▸ hchar)
    simpa using hne

/-- On an item it takes, a built-in reader returns the payload, moves to the
next item and reads nothing outside the data. -/
theorem readValue_of_leaf {dt : Value} (hbuiltIn : BuiltIn dt) {item : List Byte}
    (hleaf : Leaf item) {found : PacketType} (hfound : found ∈ accepted dt)
    (hhead : item.head? = some found.toByte) (hdrop : data.cells.drop idx = item ++ rest)
    (hidx : idx + item.length < 2 ^ 32) (log : List ℕ) :
    ((readValue host data dt idx).run log).1 =
        ⟨.done, payload item dt, idx + item.length⟩ ∧
      (InBounds data.size ((readValue host data dt idx).run log).2 ↔
        InBounds data.size log) := by
  obtain ⟨body, rfl⟩ := List.head?_eq_some_iff.mp hhead
  cases dt with
  | object fields => exact hbuiltIn.elim
  | scalar type dt =>
      have hbody := hleaf.body_of_scalar (mem_accepted_scalar hfound)
      rw [List.length_cons, hbody] at hidx
      obtain ⟨hvalue, hlog⟩ := @readScalar_run host data idx rest type dt found
        hfound body hbody hdrop (by omega) log
      simp only [readValue, Probe.run_bind, Probe.run_pure, hvalue, hlog, payload,
        List.tail_cons, List.length_cons, hbody, and_true]
      rw [Nat.add_assoc, Nat.add_comm 1]
  | string dt =>
      obtain rfl := List.mem_singleton.mp hfound
      obtain ⟨chars, hchars, rfl⟩ := hleaf.body_of_string
      simp only [List.length_cons, List.length_append, List.length_nil] at hidx
      obtain ⟨hvalue, hlog⟩ := @readString_run data idx rest dt chars hchars
        (by simpa using hdrop) (by omega) log
      simp only [readValue, Probe.run_bind, Probe.run_pure, hvalue, hlog, payload,
        List.tail_cons, takeWhile_append_zero hchars, and_true]
      rw [u32_of_lt (by omega)]
      simp
  | vector type dt =>
      obtain ⟨high, low, elements, rfl, hbody⟩ :=
        hleaf.body_of_array (mem_accepted_vector hfound)
      simp only [List.length_cons, hbody] at hidx
      obtain ⟨hvalue, hlog⟩ := @readVector_run host data idx rest type dt found
        hfound high low elements hbody hdrop (by omega) log
      simp only [readValue, Probe.run_bind, Probe.run_pure, hvalue, hlog, payload,
        List.tail_cons, List.length_cons, hbody, and_true]
      rw [Nat.add_assoc, Nat.add_comm 3]
      rfl

end Readers

end Sednl.Reader
