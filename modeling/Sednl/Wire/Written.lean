import Sednl.Wire.RoundTrip
import Sednl.Wire.Validation

/-!
# What the writers leave behind

Every write that returns adds whole items to the packet, so a packet built from
the empty one by successful writes is well formed, and the validator accepts
it without leaving it.  The argument is the flat reading of the grammar: an
object header opens as many fields as it announces, and the members written
after it close at least that many.
-/

namespace Sednl.Written

open Sednl.Endian
open Sednl.Memory
open Sednl.Tag
open Sednl.SocketHelp
open Sednl.Grammar
open Sednl.Packet
open Sednl.Validator
open Sednl.Validation
open Sednl.RoundTrip

/-- The bytes of a packet that was empty, after writes that all succeeded. -/
def Built (bytes : List Byte) : Prop :=
  ∃ host values, writeToPacket host [] values = (.done, bytes)

/-! ## What success says about one write -/

theorem writeArray_of_length_gt {bits : ℕ} (fct : List Byte → BitVec bits → List Byte)
    (host : Host) (type : PacketType) (data : List Byte) {dt : List (BitVec bits)}
    (hlength : 65535 < dt.length) :
    writeArray fct host type data dt = (.threw .wrongArray, data) := by
  have hwraps : dt.length % 2 ^ 16 ≠ dt.length := by
    have hmod : dt.length % 2 ^ 16 < 2 ^ 16 := Nat.mod_lt _ (by norm_num)
    exact (hmod.trans_le hlength).ne
  rw [writeArray, if_pos hwraps]

/-- A vector is written only if its count fits the two bytes it is given. -/
theorem length_le_of_writeVector {host : Host} {data bytes : List Byte} {type : Scalar}
    {dt : List (BitVec type.bits)}
    (hwrite : writeVector host data type dt = (.done, bytes)) : dt.length ≤ 65535 := by
  by_contra hlength
  have hthrows : writeVector host data type dt = (.threw .wrongArray, data) := by
    cases type <;> exact writeArray_of_length_gt _ host _ data (not_le.mp hlength)
  rw [hthrows, Prod.mk.injEq] at hwrite
  cases hwrite.1

/-- A header is written only for a count its byte can hold. -/
theorem writeObjectHeader_of_done {data bytes : List Byte} {length : ℕ}
    (hwrite : writeObjectHeader data length = (.done, bytes)) :
    length < 256 ∧
      bytes = data ++ [PacketType.object.toByte, UInt8.ofNat length] := by
  unfold writeObjectHeader at hwrite
  split at hwrite
  · cases hwrite
  · rename_i hlength
    split at hwrite
    · cases hwrite
    · cases hwrite
      exact ⟨not_le.mp hlength, rfl⟩

theorem toNat_numberOfArgs {fields : List Value} (hargs : numberOfArgs fields < 256) :
    (UInt8.ofNat (numberOfArgs fields)).toNat ≤ fields.length := by
  calc (UInt8.ofNat (numberOfArgs fields)).toNat
      = numberOfArgs fields := UInt8.toNat_ofNat_of_lt' hargs
    _ ≤ fields.length := Nat.mod_le _ _

/-! ## Whole items -/

mutual

/-- A value closes one announced field; an object with more members than its
sixteen-bit count says closes more. -/
theorem Opens.writeValue {host : Host} {data bytes : List Byte} {owed : ℕ} :
    ∀ value, writeValue host data value = (.done, bytes) → Opens owed data →
      ∃ surplus, Opens (owed - (1 + surplus)) bytes
  | .scalar type dt, hwrite, hopens => by
      rw [Packet.writeValue, writeScalar_eq] at hwrite
      cases hwrite
      exact ⟨0, hopens.leaf (leaf_encode_scalar type dt)⟩
  | .string dt, hwrite, hopens => by
      rw [writeValue_eq host data (.string dt) (by simp [Writable])] at hwrite
      cases hwrite
      exact ⟨0, hopens.leaf (leaf_encode_string dt)⟩
  | .vector type dt, hwrite, hopens => by
      rw [Packet.writeValue] at hwrite
      have hlength := length_le_of_writeVector hwrite
      rw [writeVector_eq host data type hlength] at hwrite
      cases hwrite
      exact ⟨0, hopens.leaf (leaf_encode_vector hlength)⟩
  | .object fields, hwrite, hopens => by
      rw [Packet.writeValue] at hwrite
      split at hwrite
      · rename_i front hheader
        obtain ⟨hargs, rfl⟩ := writeObjectHeader_of_done hheader
        obtain ⟨surplus, hfields⟩ := Opens.writeToPacket fields hwrite
          (hopens.header (UInt8.ofNat (numberOfArgs fields)))
        have hcount := toNat_numberOfArgs hargs
        generalize (UInt8.ofNat (numberOfArgs fields)).toNat = count at hcount hfields
        have hleft : owed - 1 + count - (fields.length + surplus) =
            owed - (1 + (fields.length + surplus - count)) := by omega
        exact ⟨_, hleft ▸ hfields⟩
      · rename_i hfailed
        exact absurd hwrite (hfailed bytes)

theorem Opens.writeToPacket {host : Host} {data bytes : List Byte} {owed : ℕ} :
    ∀ values, writeToPacket host data values = (.done, bytes) → Opens owed data →
      ∃ surplus, Opens (owed - (values.length + surplus)) bytes
  | [], hwrite, hopens => by
      rw [Packet.writeToPacket] at hwrite
      cases hwrite
      exact ⟨0, by simpa using hopens⟩
  | value :: values, hwrite, hopens => by
      rw [Packet.writeToPacket] at hwrite
      split at hwrite
      · rename_i front hfront
        obtain ⟨first, hvalue⟩ := Opens.writeValue value hfront hopens
        obtain ⟨later, hvalues⟩ := Opens.writeToPacket values hwrite hvalue
        have hleft : owed - (1 + first) - (values.length + later) =
            owed - ((value :: values).length + (first + later)) := by
          rw [List.length_cons]
          omega
        exact ⟨_, hleft ▸ hvalues⟩
      · rename_i hfailed
        exact absurd hwrite (hfailed bytes)

end

/-- Writes that succeed leave a well-formed packet. -/
theorem Built.wellFormed {bytes : List Byte} (hbuilt : Built bytes) :
    WellFormed bytes := by
  obtain ⟨host, values, hwrite⟩ := hbuilt
  obtain ⟨surplus, hopens⟩ := Opens.writeToPacket values hwrite .nil
  rw [Nat.zero_sub] at hopens
  exact (wellFormed_iff_opens bytes).mpr hopens

theorem built_encodeAll {values : List Value} (hwritable : AllWritable values) :
    Built (encodeAll values) := by
  refine ⟨.little, values, ?_⟩
  rw [writeToPacket_eq .little [] values hwritable, List.nil_append]

/-! ## The validator on what was written -/

/-- Every sequence of writes that succeed, whatever the host they ran on, leaves
a packet that every receiver validates, reading no byte outside it. -/
theorem isValid_writeToPacket (writer reader : Host) {values : List Value}
    {bytes : List Byte} (hwrite : writeToPacket writer [] values = (.done, bytes))
    (hlength : bytes.length < 2 ^ 31) (wild : List ℕ → ℕ → Byte) {fuel : ℕ}
    (hfuel : bytes.length + 2 ≤ fuel) :
    ((isValid reader ⟨bytes, wild⟩ fuel).run []).1 = some true ∧
      InBounds bytes.length ((isValid reader ⟨bytes, wild⟩ fuel).run []).2 := by
  have hscan : scan 0 0 bytes = .complete :=
    (wellFormed_iff_scan bytes).mp (Built.wellFormed ⟨writer, values, hwrite⟩)
  have htame : Tame (scan 0 0 bytes) := by
    rw [hscan]
    intro stop owed hoverrun
    cases hoverrun
  have hrun := @isValid_run reader ⟨bytes, wild⟩
    (show bytes.length < 2 ^ 32 from hlength.trans (by norm_num)) fuel hfuel htame
  simp only [hscan] at hrun
  exact ⟨hrun.1, hrun.2.mpr id⟩

/-- An object of a string and an empty vector. -/
theorem isValid_writeToPacket_object :
    ((isValid .little ⟨[0x40, 0x02, 0x20, 0x61, 0x00, 0x82, 0x00, 0x00], fun _ _ => 0⟩
        10).run []).1 = some true ∧
      InBounds 8 ((isValid .little ⟨[0x40, 0x02, 0x20, 0x61, 0x00, 0x82, 0x00, 0x00],
        fun _ _ => 0⟩ 10).run []).2 :=
  @isValid_writeToPacket .big .little
    [.object [.string [0x61], .vector .int16 []]] _
    (by decide +kernel) (by decide) _ _ (by decide)

end Sednl.Written
