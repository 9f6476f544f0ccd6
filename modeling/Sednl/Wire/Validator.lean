import Sednl.Wire.Grammar
import Sednl.Wire.SocketHelp

/-!
# The packet validator

`Packet::valid_next_item` and `Packet::is_valid`, index by index: the position
is a 32-bit counter left on the last byte of an item, reads are not checked
against the end of the data, and what a read past the end returns is arbitrary.

The results relate the run to the flat reading of the grammar.  Until the
index leaves the data the two move together; after that the run is at the
mercy of the stray bytes, but it can only gain nine bytes per owed field, so
an index that cannot reach `2 ^ 32` never comes back.
-/

namespace Sednl.Validator

open Sednl.Endian
open Sednl.Memory
open Sednl.Tag
open Sednl.Word
open Sednl.SocketHelp
open Sednl.Grammar

/-- The returned Boolean and the final value of the reference `i`; `none` when
the fuel is used up. -/
abbrev Verdict := Option (Bool × ℕ)

/-- `while (m_data[i] != '\0' && i < size) i++;` with a bound on the rounds. -/
def skipString (data : Region Byte) (size : ℕ) : ℕ → ℕ → Probe ℕ
  | 0, i => do
      let _ ← data.read i
      pure i
  | rounds + 1, i => do
      let byte ← data.read i
      if byte ≠ 0 ∧ i < size then skipString data size rounds (u32 (i + 1)) else pure i

def validString (data : Region Byte) (size i : ℕ) : Probe Verdict := do
  let i := u32 (i + 1)
  let i ← skipString data size (size - i) i
  if i = size then pure (some (false, i)) else pure (some (true, i))

/-- The loop over the fields of an object; `next` is the recursive call. -/
def validFields (next : ℕ → Probe Verdict) : ℕ → ℕ → Probe Verdict
  | 0, i => pure (some (true, i))
  | fields + 1, i => do
      match ← next i with
      | some (true, i) => validFields next fields (u32 (i + 1))
      | verdict => pure verdict

def validObject (data : Region Byte) (next : ℕ → Probe Verdict) (i : ℕ) :
    Probe Verdict := do
  let i := u32 (i + 1)
  if data.size < i + 1 then pure (some (false, i)) else
    let length ← data.read i
    match ← validFields next length.toNat (u32 (i + 1)) with
    | some (true, i) => pure (some (true, dec32 i))
    | verdict => pure verdict

/-- The array cases, for elements of `width` bytes. -/
def validArray (host : Host) (data : Region Byte) (size width i : ℕ) :
    Probe Verdict := do
  let i := u32 (i + 1)
  if size < i + 2 then pure (some (false, i)) else
    let length ← front16 host data i
    let i := u32 (i + 2)
    pure (some (true, dec32 (u32 (i + length.toNat * width))))

/-- The `switch` of `valid_next_item`. -/
def validTagged (host : Host) (data : Region Byte) (size : ℕ)
    (next : ℕ → Probe Verdict) (i : ℕ) : Option PacketType → Probe Verdict
  | some .int8 => pure (some (true, u32 (i + 1)))
  | some .int16 => pure (some (true, u32 (i + 2)))
  | some .int32 => pure (some (true, u32 (i + 4)))
  | some .int64 => pure (some (true, u32 (i + 8)))
  | some .uint8 => pure (some (true, u32 (i + 1)))
  | some .uint16 => pure (some (true, u32 (i + 2)))
  | some .uint32 => pure (some (true, u32 (i + 4)))
  | some .uint64 => pure (some (true, u32 (i + 8)))
  | some .float => pure (some (true, u32 (i + 4)))
  | some .double => pure (some (true, u32 (i + 8)))
  | some .string => validString data size i
  | some .object => validObject data next i
  | some .arrayInt8 | some .arrayUInt8 => validArray host data size 1 i
  | some .arrayInt16 | some .arrayUInt16 => validArray host data size 2 i
  | some .arrayInt32 | some .arrayUInt32 | some .arrayFloat =>
      validArray host data size 4 i
  | some .arrayInt64 | some .arrayUInt64 | some .arrayDouble =>
      validArray host data size 8 i
  | some .unknown | none => pure (some (false, i))

def validNextItem (host : Host) (data : Region Byte) (size : ℕ) :
    ℕ → ℕ → Probe Verdict
  | 0, _ => pure none
  | fuel + 1, i => do
      let tag ← data.read i
      validTagged host data size (validNextItem host data size fuel) i
        (PacketType.ofByte tag)

def isValidLoop (host : Host) (data : Region Byte) (size : ℕ) :
    ℕ → ℕ → Probe (Option Bool)
  | 0, _ => pure none
  | fuel + 1, i =>
      if i < size then do
        match ← validNextItem host data size fuel i with
        | some (true, i) => isValidLoop host data size fuel (u32 (i + 1))
        | some (false, _) => pure (some false)
        | none => pure none
      else pure (some (decide (i = size)))

def isValid (host : Host) (data : Region Byte) (fuel : ℕ) : Probe (Option Bool) :=
  isValidLoop host data (u32 data.size) fuel 0

/-! ## The record of reads grows -/

section Grows

variable {host : Host} {data : Region Byte} {size : ℕ}

theorem front16_grows (index : ℕ) : (front16 host data index).Grows :=
  .bind (.read _ _) fun _ => .bind (.read _ _) fun _ => .pure _

theorem skipString_grows (rounds i : ℕ) :
    (skipString data size rounds i).Grows := by
  induction rounds generalizing i with
  | zero => exact .bind (.read _ _) fun _ => .pure _
  | succ rounds ih => exact .bind (.read _ _) fun _ => .ite (ih _) (.pure _)

theorem validFields_grows {next : ℕ → Probe Verdict} (hnext : ∀ i, (next i).Grows)
    (fields i : ℕ) : (validFields next fields i).Grows := by
  induction fields generalizing i with
  | zero => exact .pure _
  | succ fields ih =>
      refine .bind (hnext i) fun verdict => ?_
      split
      · exact ih _
      · exact .pure _

theorem validTagged_grows {next : ℕ → Probe Verdict} (hnext : ∀ i, (next i).Grows)
    (i : ℕ) (type : Option PacketType) :
    (validTagged host data size next i type).Grows := by
  have hstring : (validString data size i).Grows :=
    .bind (skipString_grows _ _) fun _ => .ite (.pure _) (.pure _)
  have hobject : (validObject data next i).Grows := by
    refine .ite (.pure _) (.bind (.read _ _) fun length => ?_)
    refine .bind (validFields_grows hnext _ _) fun verdict => ?_
    split <;> exact .pure _
  have harray : ∀ width, (validArray host data size width i).Grows := fun width =>
    .ite (.pure _) (.bind (front16_grows _) fun _ => .pure _)
  unfold validTagged
  split <;> first | exact .pure _ | exact hstring | exact hobject | exact harray _

theorem validNextItem_grows (fuel i : ℕ) :
    (validNextItem host data size fuel i).Grows := by
  induction fuel generalizing i with
  | zero => exact .pure _
  | succ fuel ih => exact .bind (.read _ _) fun _ => validTagged_grows ih i _

end Grows

/-! ## The cases of the switch -/

section Switch

variable {host : Host} {data : Region Byte} {size : ℕ} {next : ℕ → Probe Verdict}
  {i : ℕ}

theorem validTagged_scalar {type : PacketType} {width : ℕ}
    (hlayout : type.layout = .scalar width) :
    validTagged host data size next i (some type) =
      pure (some (true, u32 (i + width))) := by
  cases type <;> simp [PacketType.layout] at hlayout <;> subst hlayout <;> rfl

theorem validTagged_array {type : PacketType} {width : ℕ}
    (hlayout : type.layout = .array width) :
    validTagged host data size next i (some type) =
      validArray host data size width i := by
  cases type <;> simp [PacketType.layout] at hlayout <;> subst hlayout <;> rfl

theorem validTagged_reserved {type : PacketType}
    (hlayout : type.layout = .reserved) :
    validTagged host data size next i (some type) = pure (some (false, i)) := by
  cases type <;> simp [PacketType.layout] at hlayout
  rfl

end Switch

end Sednl.Validator
