import Sednl.Wire.Written

/-!
# Writes that are refused

Each writer makes its check before it appends anything, so a vector that is too long
and an object of no members leave the packet as it was.  Nothing takes back what was
appended before the check: the header of the object around the part that is refused,
and the parts before it.
-/

namespace Sednl.Refused

open Sednl.Endian
open Sednl.Memory
open Sednl.Tag
open Sednl.SocketHelp
open Sednl.Packet
open Sednl.Validator
open Sednl.Written

/-- A call that writes: `packet << dt`, which is `write_as_object` on the members of an
object, or `write_to_packet(packet, args...)`. -/
inductive Call where
  | insert (dt : Value)
  | writeToPacket (args : List Value)

namespace Call

/-- What the call is given. -/
def args : Call → List Value
  | insert dt => [dt]
  | writeToPacket args => args

def perform (host : Host) (data : List Byte) : Call → Written
  | insert dt => writeValue host data dt
  | writeToPacket args => Packet.writeToPacket host data args

end Call

/-- A call that throws leaves the bytes of the packet. -/
def Kept (host : Host) (data : List Byte) (call : Call) : Prop :=
  ∀ exception bytes, call.perform host data = (.threw exception, bytes) → bytes = data

/-! ## The parts of a value -/

mutual

/-- A value and all that is in it, each object before its members: the order of the
checks. -/
def parts : Value → List Value
  | .scalar type dt => [.scalar type dt]
  | .string dt => [.string dt]
  | .vector type dt => [.vector type dt]
  | .object fields => .object fields :: partsAll fields

def partsAll : List Value → List Value
  | [] => []
  | value :: values => parts value ++ partsAll values

end

/-- The check of the part itself throws: a vector's of its length, an object's of the
number of its members. -/
def Refuses : Value → Prop
  | .scalar _ _ | .string _ => False
  | .vector _ dt => 65535 < dt.length
  | .object fields => numberOfArgs fields = 0

/-- The check of the part itself passes. -/
def Admits : Value → Prop
  | .scalar _ _ | .string _ => True
  | .vector _ dt => dt.length ≤ 65535
  | .object fields => 1 ≤ numberOfArgs fields ∧ numberOfArgs fields < 256

/-- Among these parts, one is refused after others have been admitted. -/
def Spoils (values : List Value) : Prop :=
  ∃ front part back, values = front ++ part :: back ∧ front ≠ [] ∧
    (∀ earlier ∈ front, Admits earlier) ∧ Refuses part

theorem not_admits_of_refuses : ∀ {part : Value}, Refuses part → ¬ Admits part
  | .vector _ _, hrefuses, hadmits => absurd hadmits (Nat.not_le.mpr hrefuses)
  | .object _, hrefuses, hadmits => absurd hrefuses (Nat.one_le_iff_ne_zero.mp hadmits.1)

theorem parts_ne_nil (value : Value) : parts value ≠ [] := by
  cases value <;> simp [parts]

/-- The first part that is not admitted is the first in every way to find it. -/
theorem front_eq {front back front' back' : List Value} {part part' : Value}
    (hsame : front ++ part :: back = front' ++ part' :: back')
    (hfront : ∀ earlier ∈ front, Admits earlier) (hpart : ¬ Admits part)
    (hfront' : ∀ earlier ∈ front', Admits earlier) (hpart' : ¬ Admits part') :
    front = front' ∧ part = part' := by
  induction front generalizing front' with
  | nil =>
      cases front' with
      | nil => exact ⟨rfl, (List.cons.inj hsame).1⟩
      | cons head rest =>
          obtain rfl : part = head := (List.cons.inj hsame).1
          exact absurd (hfront' part List.mem_cons_self) hpart
  | cons head rest ih =>
      cases front' with
      | nil =>
          obtain rfl : head = part' := (List.cons.inj hsame).1
          exact absurd (hfront head List.mem_cons_self) hpart'
      | cons head' rest' =>
          obtain ⟨rfl, hrest⟩ := List.cons.inj hsame
          obtain ⟨rfl, hlast⟩ := ih hrest
            (fun earlier hmem => hfront earlier (List.mem_cons_of_mem _ hmem))
            (fun earlier hmem => hfront' earlier (List.mem_cons_of_mem _ hmem))
          exact ⟨rfl, hlast⟩

/-! ## How far a write gets -/

/-- A write of some parts, on top of `data`: it appends something for each part that is
admitted, and stops at the first that is not. -/
inductive Gets (data : List Byte) (values : List Value) (written : Written) : Prop
  | through (bytes : List Byte) (hwritten : written = (.done, data ++ bytes))
      (hgrows : bytes = [] ↔ values = []) (hadmits : ∀ part ∈ values, Admits part)
  | upTo (front : List Value) (part : Value) (back : List Value)
      (hvalues : values = front ++ part :: back) (hadmits : ∀ earlier ∈ front, Admits earlier)
      (hstops : ¬ Admits part) (status : Status) (bytes : List Byte)
      (hwritten : written = (status, data ++ bytes)) (hgrows : bytes = [] ↔ front = [])
      (hstatus : status ≠ .done)
      (hthrows : (∃ exception, status = .threw exception) ↔ Refuses part)

variable {host : Host} {data : List Byte}

/-- The part itself is all that is written. -/
theorem gets_one {value : Value} {bytes : List Byte} {written : Written}
    (hparts : parts value = [value]) (hwritten : written = (.done, data ++ bytes))
    (hne : bytes ≠ []) (hadmits : Admits value) : Gets data (parts value) written := by
  refine .through bytes hwritten (iff_of_false hne (parts_ne_nil value)) fun part hmem => ?_
  rw [hparts, List.mem_singleton] at hmem
  exact hmem ▸ hadmits

/-- The first part is not admitted. -/
theorem gets_none {value : Value} {back : List Value} {status : Status}
    (hstops : ¬ Admits value) (hstatus : status ≠ .done)
    (hthrows : (∃ exception, status = .threw exception) ↔ Refuses value) :
    Gets data (value :: back) (status, data) :=
  .upTo [] value back rfl (fun _ hmem => nomatch hmem) hstops status []
    (by rw [List.append_nil]) (iff_of_true rfl rfl) hstatus hthrows

/-- Some parts have been written before. -/
theorem Gets.after {front values : List Value} {bytes : List Byte} {written : Written}
    (hgets : Gets (data ++ bytes) values written) (hfront : ∀ earlier ∈ front, Admits earlier)
    (hgrown : bytes = [] ↔ front = []) : Gets data (front ++ values) written := by
  cases hgets with
  | through later hwritten hgrows hadmits =>
      refine .through (bytes ++ later) (by rw [hwritten, List.append_assoc]) ?_ fun part hmem => ?_
      · rw [List.append_eq_nil_iff, List.append_eq_nil_iff, hgrown, hgrows]
      · exact (List.mem_append.mp hmem).elim (hfront part) (hadmits part)
  | upTo middle part back hvalues hadmits hstops status later hwritten hgrows hstatus hthrows =>
      refine .upTo (front ++ middle) part back (by rw [hvalues, List.append_assoc])
        (fun earlier hmem => ?_) hstops status (bytes ++ later)
        (by rw [hwritten, List.append_assoc]) ?_ hstatus hthrows
      · exact (List.mem_append.mp hmem).elim (hfront earlier) (hadmits earlier)
      · rw [List.append_eq_nil_iff, List.append_eq_nil_iff, hgrown, hgrows]

/-- A write that fails does not see the parts that would follow. -/
theorem Gets.before {values : List Value} {written : Written} (hgets : Gets data values written)
    (hfails : written.1 ≠ .done) (later : List Value) : Gets data (values ++ later) written := by
  cases hgets with
  | through bytes hwritten _ _ => exact absurd (congrArg Prod.fst hwritten) hfails
  | upTo front part back hvalues hadmits hstops status bytes hwritten hgrows hstatus hthrows =>
      refine .upTo front part (back ++ later) ?_ hadmits hstops status bytes hwritten hgrows
        hstatus hthrows
      rw [hvalues, List.append_assoc, List.cons_append]

theorem writeVector_of_length_gt (host : Host) (data : List Byte) {type : Scalar}
    {dt : List (BitVec type.bits)} (hlength : 65535 < dt.length) :
    writeVector host data type dt = (.threw .wrongArray, data) := by
  cases type <;> exact writeArray_of_length_gt _ host _ data hlength

theorem encode_ne_nil (value : Value) : encode value ≠ [] := by
  cases value <;> simp [encode]

mutual

theorem gets_writeValue (host : Host) (data : List Byte) :
    ∀ value, Gets data (parts value) (writeValue host data value)
  | .scalar type dt => by
      refine gets_one (by rw [parts]) ?_ (encode_ne_nil (.scalar type dt)) trivial
      rw [writeValue, writeScalar_eq]
  | .string dt =>
      gets_one (by rw [parts]) (writeValue_eq host data (.string dt) (by simp [Writable]))
        (encode_ne_nil _) trivial
  | .vector type dt => by
      by_cases hlength : dt.length ≤ 65535
      · refine gets_one (by rw [parts]) ?_ (encode_ne_nil (.vector type dt)) hlength
        rw [writeValue, writeVector_eq host data type hlength]
      · rw [writeValue, writeVector_of_length_gt host data (not_le.mp hlength), parts]
        exact gets_none hlength (by simp) (iff_of_true ⟨_, rfl⟩ (not_le.mp hlength))
  | .object fields => by
      rw [writeValue, writeObjectHeader, parts]
      by_cases hmany : 256 ≤ numberOfArgs fields
      · rw [if_pos hmany]
        refine gets_none (fun hadmits => Nat.not_lt.mpr hmany hadmits.2) (by simp)
          (iff_of_false (by simp) fun hrefuses => ?_)
        rw [Refuses] at hrefuses
        omega
      · rw [if_neg hmany]
        by_cases hempty : numberOfArgs fields = 0
        · rw [if_pos hempty]
          exact gets_none (not_admits_of_refuses hempty) (by simp) (iff_of_true ⟨_, rfl⟩ hempty)
        · rw [if_neg hempty]
          have hheader : Admits (.object fields) :=
            ⟨Nat.one_le_iff_ne_zero.mpr hempty, not_le.mp hmany⟩
          have hfront : ∀ earlier ∈ [Value.object fields], Admits earlier := fun earlier hmem =>
            List.mem_singleton.mp hmem ▸ hheader
          exact (gets_writeToPacket host _ fields).after hfront (by simp)

theorem gets_writeToPacket (host : Host) (data : List Byte) :
    ∀ values, Gets data (partsAll values) (writeToPacket host data values)
  | [] => by
      rw [writeToPacket, partsAll]
      exact .through [] (by rw [List.append_nil]) (iff_of_true rfl rfl)
        fun _ hmem => nomatch hmem
  | value :: values => by
      have hvalue := gets_writeValue host data value
      rw [writeToPacket, partsAll]
      split
      · rename_i bytes hdone
        rw [hdone] at hvalue
        cases hvalue with
        | through item hwritten hgrows hadmits =>
            obtain rfl := (Prod.mk.inj hwritten).2
            exact (gets_writeToPacket host _ values).after hadmits hgrows
        | upTo _ _ _ _ _ _ status _ hwritten _ hstatus _ =>
            exact absurd (Prod.mk.inj hwritten).1.symm hstatus
      · rename_i hfailed
        exact hvalue.before (fun hdone => hfailed _ (Prod.ext hdone rfl)) _

end

theorem gets_perform (host : Host) (data : List Byte) (call : Call) :
    Gets data (partsAll call.args) (call.perform host data) := by
  cases call with
  | insert dt =>
      rw [Call.args, partsAll, partsAll, List.append_nil]
      exact gets_writeValue host data dt
  | writeToPacket args => exact gets_writeToPacket host data args

/-- Whatever is written into whatever packet, a call that throws leaves the bytes as
they were exactly when no part is refused after another has been admitted. -/
theorem kept_iff (host : Host) (data : List Byte) (call : Call) :
    Kept host data call ↔ ¬ Spoils (partsAll call.args) := by
  constructor
  · rintro hkept ⟨front, part, back, hparts, hne, hadmits, hrefuses⟩
    have hpart := not_admits_of_refuses hrefuses
    cases gets_perform host data call with
    | through _ _ _ hall => exact hpart (hall part (by rw [hparts]; simp))
    | upTo front' part' back' hparts' hadmits' hstops status bytes hwritten hgrows _ hthrows =>
        obtain ⟨rfl, rfl⟩ := front_eq (hparts.symm.trans hparts') hadmits hpart hadmits' hstops
        obtain ⟨exception, rfl⟩ := hthrows.mpr hrefuses
        have hsame := hkept exception _ hwritten
        rw [List.append_right_eq_self] at hsame
        exact hne (hgrows.mp hsame)
  · intro hspares exception bytes hthrew
    have hgets := gets_perform host data call
    rw [hthrew] at hgets
    cases hgets with
    | through _ hwritten _ _ => cases (Prod.mk.inj hwritten).1
    | upTo front part back hparts hadmits _ status grown hwritten hgrows _ hthrows =>
        obtain ⟨rfl, rfl⟩ := Prod.mk.inj hwritten
        have hrefuses := hthrows.mp ⟨exception, rfl⟩
        have hfront : front = [] := by
          by_contra hne
          exact hspares ⟨front, part, back, hparts, hne, hadmits, hrefuses⟩
        rw [hgrows.mpr hfront, List.append_nil]

/-- One element more than a count of two bytes can say. -/
def tooLong : List (BitVec Scalar.int8.bits) :=
  List.replicate 65536 0

/-- An object of a small number and a vector that is too long. -/
def oversized : Call :=
  .insert (.object [.scalar .int8 7, .vector .int8 tooLong])

theorem perform_oversized (host : Host) :
    oversized.perform host [] = (.threw .wrongArray, [0x40, 0x02, 0x01, 0x07]) := by
  have hvector : ∀ data, writeVector host data .int8 tooLong = (.threw .wrongArray, data) :=
    fun data => writeVector_of_length_gt host data
      (by rw [tooLong, List.length_replicate]; decide)
  rw [oversized]
  generalize tooLong = dt at hvector
  have hheader : writeObjectHeader [] (numberOfArgs [.scalar .int8 7, .vector .int8 dt]) =
      (.done, [0x40, 0x02]) := rfl
  rw [Call.perform, writeValue, hheader]
  dsimp only
  rw [writeToPacket, writeValue, writeScalar_eq]
  dsimp only
  rw [writeToPacket, writeValue, hvector]
  rfl

/-- The caller that catches the exception holds a packet that is no longer valid. -/
theorem not_kept_oversized :
    oversized.perform .little [] = (.threw .wrongArray, [0x40, 0x02, 0x01, 0x07]) ∧
      ¬ Kept .little [] oversized ∧
      ((isValid .little ⟨[], fun _ _ => 0⟩ 6).run []).1 = some true ∧
      ((isValid .little ⟨[0x40, 0x02, 0x01, 0x07], fun _ _ => 0⟩ 6).run []).1 =
        some false := by
  refine ⟨perform_oversized .little, fun hkept => ?_, by decide +kernel, by decide +kernel⟩
  cases hkept _ _ (perform_oversized .little)

end Sednl.Refused
