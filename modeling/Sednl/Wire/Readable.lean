import Sednl.Wire.ReaderSafety
import Sednl.Wire.RoundTrip

/-!
# What can be read to the end

The validator and the reader walk over a packet in the same way: each token
moves a 32-bit index by a length that the token alone decides.  `skip` is that
move and `Passes` the walk.  A packet that `is_valid` accepts is one whose walk
comes to the end, whatever it meets on the way; a reader can follow the walk
unless it meets an object without fields, which no read gets past.
-/

namespace Sednl.Readable

open Sednl.Endian
open Sednl.Memory
open Sednl.Tag
open Sednl.Word
open Sednl.SocketHelp
open Sednl.Grammar
open Sednl.Packet
open Sednl.Reader
open Sednl.Validator
open Sednl.Validation
open Sednl.Acceptance
open Sednl.ReaderSafety
open Sednl.RoundTrip

/-- The index behind the token at `idx`.  A scalar or an array that announces
more than is left moves the index past the end, or around. -/
def skip (bytes : List Byte) (idx : ℕ) : Option ℕ :=
  match token (bytes.drop idx) with
  | .leaf length | .cut length => some (u32 (idx + length))
  | .header _ => some (u32 (idx + 2))
  | .unterminated | .malformed => none

/-- Going from token to token, nested ones included, leads from the first index
to the second. -/
def Passes (bytes : List Byte) : ℕ → ℕ → Prop :=
  Relation.ReflTransGen fun idx next => skip bytes idx = some next

/-- Reading from the front, one meets an object that announces zero fields. -/
def HasEmptyObject (bytes : List Byte) : Prop :=
  ∃ idx, Passes bytes 0 idx ∧ token (bytes.drop idx) = .header 0

/-- Some finite sequence of reads, each ending without an exception, brings the
reader to the end, by its own test `m_data.size() <= m_idx`.  The reads are
`operator>>` on the built-in types and `read_as_object`, by destination. -/
def ReadsThrough (host : Host) (data : Region Byte) : Prop :=
  ∃ dests, ((readFromPacket host data dests 0).run []).1.status = .done ∧
    data.size ≤ ((readFromPacket host data dests 0).run []).1.idx

/-! ## One token -/

section Tokens

variable {bytes : List Byte} {idx next : ℕ}

theorem skip_of_sized {length available : ℕ}
    (htoken : token (bytes.drop idx) = .sized length available) :
    skip bytes idx = some (u32 (idx + length)) := by
  unfold skip
  rw [htoken, Token.sized]
  by_cases hfits : length ≤ available
  · rw [if_pos hfits]
  · rw [if_neg hfits]

theorem skip_of_header {fields : ℕ} (htoken : token (bytes.drop idx) = .header fields) :
    skip bytes idx = some (u32 (idx + 2)) := by
  unfold skip
  rw [htoken]

theorem skip_scalar {type : PacketType} {size : ℕ} {body : List Byte}
    (hlayout : type.layout = .scalar size) (hdrop : bytes.drop idx = type.toByte :: body) :
    skip bytes idx = some (u32 (idx + (1 + size))) := by
  apply skip_of_sized
  rw [hdrop, token_scalar hlayout]

theorem skip_string {body : List Byte}
    (hdrop : bytes.drop idx = PacketType.string.toByte :: body) :
    skip bytes idx = if 0 ∈ body then some (u32 (idx + (2 + body.idxOf 0))) else none := by
  unfold skip
  rw [hdrop, token_string]
  by_cases hmem : 0 ∈ body
  · rw [if_pos hmem, if_pos hmem]
  · rw [if_neg hmem, if_neg hmem]

theorem skip_object {count : Byte} {body : List Byte}
    (hdrop : bytes.drop idx = PacketType.object.toByte :: count :: body) :
    skip bytes idx = some (u32 (idx + 2)) := by
  apply skip_of_header
  rw [hdrop, token_object]

theorem skip_array {type : PacketType} {size : ℕ} {high low : Byte} {body : List Byte}
    (hlayout : type.layout = .array size)
    (hdrop : bytes.drop idx = type.toByte :: high :: low :: body) :
    skip bytes idx = some (u32 (idx + (3 + beValue [high, low] * size))) := by
  apply skip_of_sized
  rw [hdrop, token_array hlayout]

/-- An array whose count is cut short leads nowhere. -/
theorem skip_array_of_short {type : PacketType} {size : ℕ} {body : List Byte}
    (hlayout : type.layout = .array size) (hdrop : bytes.drop idx = type.toByte :: body)
    (hbody : body.length < 2) : skip bytes idx = none := by
  unfold skip
  rw [hdrop]
  rcases body with _ | ⟨high, _ | ⟨low, body⟩⟩
  case nil => simp [token, hlayout]
  case cons.nil => simp [token, hlayout]
  case cons.cons => simp at hbody

theorem skip_of_le (hidx : bytes.length ≤ idx) : skip bytes idx = none := by
  unfold skip
  rw [List.drop_eq_nil_of_le hidx]
  rfl

/-- Every scalar item is of a type that has a reader. -/
theorem exists_scalar_of_layout {type : PacketType} {size : ℕ}
    (hlayout : type.layout = .scalar size) : ∃ scalar : Scalar, scalar.tag = type := by
  cases type with
  | int8 => exact ⟨.int8, rfl⟩
  | int16 => exact ⟨.int16, rfl⟩
  | int32 => exact ⟨.int32, rfl⟩
  | int64 => exact ⟨.int64, rfl⟩
  | uint8 => exact ⟨.uint8, rfl⟩
  | uint16 => exact ⟨.uint16, rfl⟩
  | uint32 => exact ⟨.uint32, rfl⟩
  | uint64 => exact ⟨.uint64, rfl⟩
  | float => exact ⟨.float, rfl⟩
  | double => exact ⟨.double, rfl⟩
  | _ => cases hlayout

theorem exists_scalar_of_arrayLayout {type : PacketType} {size : ℕ}
    (hlayout : type.layout = .array size) : ∃ scalar : Scalar, scalar.arrayTag = type := by
  cases type with
  | arrayInt8 => exact ⟨.int8, rfl⟩
  | arrayInt16 => exact ⟨.int16, rfl⟩
  | arrayInt32 => exact ⟨.int32, rfl⟩
  | arrayInt64 => exact ⟨.int64, rfl⟩
  | arrayUInt8 => exact ⟨.uint8, rfl⟩
  | arrayUInt16 => exact ⟨.uint16, rfl⟩
  | arrayUInt32 => exact ⟨.uint32, rfl⟩
  | arrayUInt64 => exact ⟨.uint64, rfl⟩
  | arrayFloat => exact ⟨.float, rfl⟩
  | arrayDouble => exact ⟨.double, rfl⟩
  | _ => cases hlayout

/-- What stands at an index that leads on: the header of an object, or an item
that some built-in reader takes. -/
theorem cases_of_skip (hskip : skip bytes idx = some next) :
    (∃ count body, bytes.drop idx = PacketType.object.toByte :: count :: body ∧
      next = u32 (idx + 2)) ∨
    ∃ found body dt, bytes.drop idx = PacketType.toByte found :: body ∧ BuiltIn dt ∧
      found ∈ accepted dt := by
  generalize hdrop : bytes.drop idx = rest
  cases front rest with
  | malformed hmalformed =>
      rw [skip, hdrop, hmalformed] at hskip
      cases hskip
  | scalar hlayout body =>
      obtain ⟨scalar, rfl⟩ := exists_scalar_of_layout hlayout
      exact .inr ⟨_, body, .scalar scalar 0, rfl, trivial, tag_mem_accepted scalar 0⟩
  | string body => exact .inr ⟨_, body, .string [], rfl, trivial, by simp [accepted]⟩
  | object count body =>
      rw [skip_object hdrop, Option.some.injEq] at hskip
      exact .inl ⟨count, body, rfl, hskip.symm⟩
  | array hlayout high low body =>
      obtain ⟨scalar, rfl⟩ := exists_scalar_of_arrayLayout hlayout
      exact .inr ⟨_, high :: low :: body, .vector scalar [], rfl, trivial,
        arrayTag_mem_accepted scalar []⟩

end Tokens

/-! ## The walk of the validator -/

/-- The walk from `pos` comes to `stop`, unless it leaves the packet before. -/
def Arrives (bytes : List Byte) (pos stop : ℕ) : Prop :=
  ∃ last, Passes bytes pos last ∧ (last = stop ∨ bytes.length ≤ last)

theorem Arrives.of_skip {bytes : List Byte} {pos stop : ℕ}
    (hskip : skip bytes pos = some stop) : Arrives bytes pos stop :=
  ⟨stop, .single hskip, .inl rfl⟩

theorem Arrives.of_le {bytes : List Byte} {pos : ℕ} (hpos : bytes.length ≤ pos)
    (stop : ℕ) : Arrives bytes pos stop :=
  ⟨pos, .refl, .inr hpos⟩

theorem Arrives.trans {bytes : List Byte} {pos mid stop : ℕ}
    (hfirst : Arrives bytes pos mid) (hrest : Arrives bytes mid stop) :
    Arrives bytes pos stop := by
  obtain ⟨last, hpasses, rfl | houtside⟩ := hfirst
  · obtain ⟨stopped, hlater, hstop⟩ := hrest
    exact ⟨stopped, Relation.ReflTransGen.trans hpasses hlater, hstop⟩
  · exact ⟨last, hpasses, .inr houtside⟩

section Validator

variable {host : Host} {data : Region Byte} {next : ℕ → Probe Verdict}

theorem lt_of_advance {verdict : Verdict} {stop : ℕ}
    (hadvance : advance verdict = some (true, stop)) : stop < 2 ^ 32 := by
  obtain ⟨i, _, hstop, _⟩ := advance_eq_some hadvance
  rw [← hstop rfl]
  exact u32_lt _

/-- A run of fields that succeeds is a first item and a run of the others. -/
theorem first_of_validFields {fields pos stop : ℕ} {log : List ℕ}
    (hrun : ((validFields next (fields + 1) pos).run log).1 = some (true, stop)) :
    ∃ mid, advance ((next pos).run log).1 = some (true, mid) ∧
      ((validFields next fields mid).run ((next pos).run log).2).1 =
        some (true, stop) := by
  simp only [validFields, Probe.run_bind] at hrun
  cases hverdict : ((next pos).run log).1 with
  | none => simp [hverdict] at hrun
  | some outcome =>
      obtain ⟨verdict, i⟩ := outcome
      cases verdict with
      | false => simp [hverdict] at hrun
      | true =>
          simp only [hverdict] at hrun
          exact ⟨u32 (i + 1), rfl, hrun⟩

theorem lt_of_validFields {fields pos stop : ℕ} {log : List ℕ} (hpos : pos < 2 ^ 32)
    (hrun : ((validFields next fields pos).run log).1 = some (true, stop)) :
    stop < 2 ^ 32 := by
  induction fields generalizing pos log with
  | zero =>
      obtain rfl : pos = stop := by simpa [validFields] using hrun
      exact hpos
  | succ fields ih =>
      obtain ⟨mid, hmid, hrest⟩ := first_of_validFields hrun
      exact ih (lt_of_advance hmid) hrest

/-- A string is accepted only with its NUL. -/
theorem mem_of_validString (hsize : data.size < 2 ^ 32) {pos stop : ℕ} {tag : Byte}
    {body : List Byte} {log : List ℕ} (hdrop : data.cells.drop pos = tag :: body)
    (hadvance : advance ((validString data data.size pos).run log).1 = some (true, stop)) :
    0 ∈ body := by
  have hpos := Region.lt_size_of_head hdrop
  have hbody : data.cells.drop (pos + 1) = body := drop_tail hdrop
  have hlength := Region.length_of_drop hbody
  by_contra hmem
  have hindex : body.idxOf 0 = body.length := List.idxOf_eq_length hmem
  obtain ⟨hvalue, _⟩ := @skipString_run data hsize (pos + 1) hpos log
  rw [hbody, hindex] at hvalue
  have hend : pos + 1 + body.length = data.size := by omega
  simp only [validString, u32_of_lt (show pos + 1 < 2 ^ 32 by omega), Probe.run_bind,
    hvalue, hend, if_true, Probe.run_pure, advance] at hadvance
  cases hadvance

/-- One item that the validator accepts, by induction on how deep it goes. -/
theorem arrives_validFields
    (hnext : ∀ pos log stop, pos < data.size →
      advance ((next pos).run log).1 = some (true, stop) → Arrives data.cells pos stop)
    {fields pos stop : ℕ} {log : List ℕ}
    (hrun : ((validFields next fields pos).run log).1 = some (true, stop)) :
    Arrives data.cells pos stop := by
  induction fields generalizing pos log with
  | zero =>
      obtain rfl : pos = stop := by simpa [validFields] using hrun
      exact ⟨pos, .refl, .inl rfl⟩
  | succ fields ih =>
      rcases Nat.lt_or_ge pos data.size with hpos | hpos
      · obtain ⟨mid, hmid, hrest⟩ := first_of_validFields hrun
        exact (hnext pos log mid hpos hmid).trans (ih hrest)
      · exact .of_le hpos stop

theorem arrives_validNextItem (hsize : data.size < 2 ^ 32) {fuel pos stop : ℕ}
    (hpos : pos < data.size) (log : List ℕ)
    (hadvance : advance ((validNextItem host data data.size fuel pos).run log).1 =
      some (true, stop)) : Arrives data.cells pos stop := by
  induction fuel generalizing pos stop log with
  | zero => simp [validNextItem, advance] at hadvance
  | succ fuel ih =>
      obtain ⟨tag, body, hdrop⟩ := Region.exists_head hpos
      simp only [validNextItem, Probe.run_bind, Region.run_read,
        Region.value_head hdrop] at hadvance
      cases htag : PacketType.ofByte tag with
      | none => simp [htag, validTagged, advance] at hadvance
      | some type =>
          obtain rfl := PacketType.ofByte_eq_some.mp htag
          rw [htag] at hadvance
          cases hlayout : type.layout with
          | reserved =>
              rw [validTagged_reserved hlayout] at hadvance
              simp [advance] at hadvance
          | scalar width =>
              rw [validTagged_scalar hlayout, Probe.run_pure, advance_scalar,
                Option.some.injEq, Prod.mk.injEq] at hadvance
              exact .of_skip (hadvance.2 ▸ skip_scalar hlayout hdrop)
          | string =>
              obtain rfl := PacketType.layout_eq_string.mp hlayout
              have hmem := mem_of_validString hsize hdrop hadvance
              have hlength := Region.length_of_drop hdrop
              have hindex := List.idxOf_lt_length_of_mem hmem
              rw [List.length_cons] at hlength
              have hstop := (validString_run hsize hdrop hmem (pos :: log)).1
              rw [validTagged] at hadvance
              rw [hadvance, Option.some.injEq, Prod.mk.injEq] at hstop
              refine .of_skip ?_
              rw [skip_string hdrop, if_pos hmem, u32_of_lt (by omega), hstop.2]
          | object =>
              obtain rfl := PacketType.layout_eq_object.mp hlayout
              rw [validTagged] at hadvance
              cases body with
              | nil =>
                  have hlength := Region.length_of_drop hdrop
                  simp only [List.length_cons, List.length_nil] at hlength
                  have hcut : data.size < u32 (pos + 1) + 1 := by
                    rw [u32_of_lt (by omega)]
                    omega
                  simp only [validObject, if_pos hcut, Probe.run_pure, advance] at hadvance
                  cases hadvance
              | cons count rest =>
                  have hlength := Region.length_of_drop hdrop
                  simp only [List.length_cons] at hlength
                  have hobject := @advance_validObject data pos (pos :: log)
                    (validNextItem host data data.size fuel) count rest hsize hdrop
                    (fun i later heq => lt_of_validFields (by omega)
                      (congrArg Prod.fst heq))
                  rw [show advance _ = _ from congrArg Prod.fst hobject] at hadvance
                  have hheader := skip_object hdrop
                  rw [u32_of_lt (by omega)] at hheader
                  exact (Arrives.of_skip hheader).trans
                    (arrives_validFields (fun pos log stop hpos => ih hpos log) hadvance)
          | array width =>
              rw [validTagged_array hlayout] at hadvance
              have hlength := Region.length_of_drop hdrop
              rw [List.length_cons] at hlength
              rcases body with _ | ⟨high, _ | ⟨low, rest⟩⟩
              case nil =>
                have hcut : data.size < u32 (pos + 1) + 2 := by
                  rw [u32_of_lt (by omega)]
                  simp at hlength
                  omega
                simp [validArray, if_pos hcut, advance] at hadvance
              case cons.nil =>
                have hcut : data.size < u32 (pos + 1) + 2 := by
                  rw [u32_of_lt (by omega)]
                  simp at hlength
                  omega
                simp [validArray, if_pos hcut, advance] at hadvance
              case cons.cons =>
                rw [(validArray_run hsize hdrop _).1, Option.some.injEq,
                  Prod.mk.injEq] at hadvance
                exact .of_skip (hadvance.2 ▸ skip_array hlayout hdrop)

/-- The walk over an accepted packet comes to its end. -/
theorem passes_isValidLoop (hsize : data.size < 2 ^ 32) {fuel pos : ℕ} (log : List ℕ)
    (hvalid : ((isValidLoop host data data.size fuel pos).run log).1 = some true) :
    ∃ last, Passes data.cells pos last ∧ data.size ≤ last := by
  induction fuel generalizing pos log with
  | zero => simp [isValidLoop] at hvalid
  | succ fuel ih =>
      rcases Nat.lt_or_ge pos data.size with hpos | hpos
      · simp only [isValidLoop, if_pos hpos, Probe.run_bind] at hvalid
        cases hverdict : ((validNextItem host data data.size fuel pos).run log).1 with
        | none => simp [hverdict] at hvalid
        | some outcome =>
            obtain ⟨verdict, i⟩ := outcome
            cases verdict with
            | false => simp [hverdict] at hvalid
            | true =>
                simp only [hverdict] at hvalid
                obtain ⟨mid, hfirst, rfl | houtside⟩ := @arrives_validNextItem host data hsize
                  fuel pos (u32 (i + 1)) hpos log (by rw [hverdict]; rfl)
                · obtain ⟨last, hlast, hend⟩ := ih _ hvalid
                  exact ⟨last, Relation.ReflTransGen.trans hfirst hlast, hend⟩
                · exact ⟨mid, hfirst, houtside⟩
      · exact ⟨pos, .refl, hpos⟩

theorem passes_isValid (hsize : data.size < 2 ^ 32) {fuel : ℕ}
    (hvalid : ((isValid host data fuel).run []).1 = some true) :
    ∃ last, Passes data.cells 0 last ∧ data.size ≤ last := by
  rw [isValid, u32_of_lt hsize] at hvalid
  exact passes_isValidLoop hsize [] hvalid

end Validator

/-! ## The walk of the reader -/

section Reader

variable {host : Host} {data : Region Byte} {idx next : ℕ}

theorem readItem_moves {bits size : ℕ} (fct : ℕ → Probe (BitVec bits))
    {ptypes : List PacketType} {type : PacketType} (htype : type ∈ ptypes)
    (dt : BitVec bits) {body : List Byte}
    (hdrop : data.cells.drop idx = type.toByte :: body) (hidx : idx + 1 < 2 ^ 32)
    (log : List ℕ) :
    ((readItem fct size ptypes data dt idx).run log).1.status = .done ∧
      ((readItem fct size ptypes data dt idx).run log).1.idx = u32 (idx + (1 + size)) := by
  rw [readItem, readTag_match dt _ hdrop hidx (PacketType.ofByte_toByte type) htype]
  simp only [Probe.run_bind, Probe.run_pure, true_and]
  rw [Nat.add_assoc]

theorem readElements_moves {bits size : ℕ} (fct : ℕ → Probe (BitVec bits)) (length : ℕ)
    (dt : List (BitVec bits)) (hidx : idx < 2 ^ 32) (log : List ℕ) :
    ((readElements fct size length dt idx).run log).1.2 = u32 (idx + length * size) := by
  induction length generalizing dt idx log with
  | zero => simp [readElements, u32_of_lt hidx]
  | succ length ih =>
      simp only [readElements, Probe.run_bind]
      rw [ih _ (u32_lt _), u32_u32_add, Nat.succ_mul, Nat.add_assoc, Nat.add_comm size]

theorem readArray_moves {bits size : ℕ} (fct : ℕ → Probe (BitVec bits))
    {ptypes : List PacketType} {type : PacketType} (htype : type ∈ ptypes)
    (dt : List (BitVec bits)) {high low : Byte} {body : List Byte}
    (hdrop : data.cells.drop idx = type.toByte :: high :: low :: body)
    (hidx : idx + 3 ≤ 2 ^ 32) (log : List ℕ) :
    ((readArray host fct size ptypes data dt idx).run log).1.status = .done ∧
      ((readArray host fct size ptypes data dt idx).run log).1.idx =
        u32 (idx + (3 + beValue [high, low] * size)) := by
  have hcount : beValue [high, low] < 2 ^ 16 := by
    simpa using beValue_lt [high, low]
  obtain ⟨hlength, _⟩ := front16_run host (drop_tail hdrop) (by omega) (idx :: log)
  rw [readArray, readTag_match dt _ hdrop (by omega) (PacketType.ofByte_toByte type) htype]
  simp only [Probe.run_bind, Probe.run_pure, hlength, BitVec.toNat_ofNat,
    Nat.mod_eq_of_lt hcount, true_and]
  rw [readElements_moves _ _ _ (u32_lt _), u32_u32_add, Nat.add_assoc idx, Nat.add_assoc]

/-- A built-in reader that takes the item moves the index behind its token, be
the item whole or not. -/
theorem readValue_moves (hsize : data.size < 2 ^ 32) {dt : Value} (hbuiltIn : BuiltIn dt)
    {found : PacketType} (hfound : found ∈ accepted dt) {body : List Byte}
    (hdrop : data.cells.drop idx = found.toByte :: body)
    (hskip : skip data.cells idx = some next) (log : List ℕ) :
    ((readValue host data dt idx).run log).1.status = .done ∧
      ((readValue host data dt idx).run log).1.idx = next := by
  have hidx := Region.lt_size_of_head hdrop
  cases dt with
  | object fields => exact hbuiltIn.elim
  | scalar type dt =>
      rw [skip_scalar (mem_accepted_scalar hfound) hdrop, Option.some.injEq] at hskip
      simp only [readValue, Probe.run_bind, Probe.run_pure, ← hskip]
      cases type <;> exact readItem_moves _ hfound dt hdrop (by omega) log
  | string dt =>
      obtain rfl := List.mem_singleton.mp hfound
      rw [skip_string hdrop] at hskip
      split at hskip
      · rename_i hmem
        obtain ⟨chars, rest, rfl, hchars⟩ := List.eq_append_cons_of_mem hmem
        have hlength := Region.length_of_drop hdrop
        simp only [List.length_cons, List.length_append] at hlength
        rw [List.idxOf_append_of_notMem hchars, List.idxOf_cons_self, Nat.add_zero,
          Option.some.injEq] at hskip
        have hread := (@readString_run data idx rest dt chars hchars hdrop (by omega) log).1
        simp only [readValue, Probe.run_bind, Probe.run_pure, hread, true_and]
        rw [← hskip, Nat.add_comm 2]
      · cases hskip
  | vector type dt =>
      have hlayout := mem_accepted_vector hfound
      have hlength := Region.length_of_drop hdrop
      rcases body with _ | ⟨high, _ | ⟨low, body⟩⟩
      case nil =>
        rw [skip_array_of_short hlayout hdrop (by simp)] at hskip
        cases hskip
      case cons.nil =>
        rw [skip_array_of_short hlayout hdrop (by simp)] at hskip
        cases hskip
      case cons.cons =>
        rw [skip_array hlayout hdrop, Option.some.injEq] at hskip
        simp only [List.length_cons] at hlength
        simp only [readValue, Probe.run_bind, Probe.run_pure, ← hskip]
        cases type <;> exact readArray_moves _ hfound dt hdrop (by omega) log

/-- The destinations are read one after the other, none throwing, whatever the
stray bytes. -/
def ReadsTo (host : Host) (data : Region Byte) : List Value → ℕ → ℕ → Prop
  | [], idx, stop => idx = stop
  | dt :: dts, idx, stop => ∃ mid,
      (∀ log, ((readValue host data dt idx).run log).1.status = .done ∧
        ((readValue host data dt idx).run log).1.idx = mid) ∧
      ReadsTo host data dts mid stop

theorem ReadsTo.run {dests : List Value} {stop : ℕ}
    (hreads : ReadsTo host data dests idx stop) (log : List ℕ) :
    ((readFromPacket host data dests idx).run log).1.status = .done ∧
      ((readFromPacket host data dests idx).run log).1.idx = stop := by
  induction dests generalizing idx log with
  | nil => exact ⟨rfl, hreads⟩
  | cons dt dts ih =>
      obtain ⟨mid, hread, hrest⟩ := hreads
      obtain ⟨hstatus, hidx⟩ := hread log
      simp only [readFromPacket, Probe.run_bind, hstatus, if_true, hidx, Probe.run_pure]
      exact ih hrest _

theorem ReadsTo.split {front rest : List Value} {stop : ℕ}
    (hreads : ReadsTo host data (front ++ rest) idx stop) :
    ∃ mid, ReadsTo host data front idx mid ∧ ReadsTo host data rest mid stop := by
  induction front generalizing idx with
  | nil => exact ⟨idx, rfl, hreads⟩
  | cons dt front ih =>
      obtain ⟨next, hread, hlater⟩ := hreads
      obtain ⟨mid, hfront, hrest⟩ := ih hlater
      exact ⟨mid, ⟨next, hread, hfront⟩, hrest⟩

/-- At the end any number of built-in reads changes nothing. -/
theorem readsTo_end (hidx : data.size ≤ idx) (count : ℕ) :
    ReadsTo host data (List.replicate count (.scalar .char 0)) idx idx := by
  induction count with
  | zero => rfl
  | succ count ih =>
      refine ⟨idx, fun log => ?_, ih⟩
      rw [@readValue_end host data idx (.scalar .char 0) trivial hidx log]
      exact ⟨rfl, rfl⟩

/-- An object is read by its header and its fields. -/
theorem readValue_object_moves (hsize : data.size < 2 ^ 32) {fields : List Value}
    {count : Byte} {body : List Byte} {stop : ℕ}
    (hdrop : data.cells.drop idx = PacketType.object.toByte :: count :: body)
    (hcount : count ≠ 0) (hlength : fields.length = count.toNat)
    (hfields : ReadsTo host data fields (idx + 2) stop) (log : List ℕ) :
    ((readValue host data (.object fields) idx).run log).1.status = .done ∧
      ((readValue host data (.object fields) idx).run log).1.idx = stop := by
  have hlt := Region.lt_size_of_head (drop_tail hdrop)
  have hbyte : count.toNat < 256 := count.toNat_lt
  have hpos : 1 ≤ fields.length := by
    rw [hlength]
    exact Nat.one_le_iff_ne_zero.mpr fun h => hcount (UInt8.toNat_inj.mp h)
  have hargs : numberOfArgs fields = fields.length := Nat.mod_eq_of_lt (by omega)
  have hsame : UInt8.ofNat fields.length = count := by
    rw [hlength, UInt8.ofNat_toNat]
  obtain ⟨hheader, _⟩ := @readObjectHeader_run data idx body fields.length hpos (by omega)
    (hsame ▸ hdrop) (by omega) log
  obtain ⟨hstatus, hidx⟩ := hfields.run
    ((readObjectHeader data fields.length idx).run log).2
  simp only [readValue, Probe.run_bind, hargs, hheader, if_true, Probe.run_pure, hstatus,
    hidx, true_and]

/-- A walk that meets no empty object is one a reader can follow, with as many
destinations as are asked for. -/
theorem readsTo_of_passes (hsize : data.size < 2 ^ 32) {pos last : ℕ}
    (hpasses : Passes data.cells pos last) (hlast : data.size ≤ last)
    (hfull : ∀ idx, Passes data.cells pos idx →
      token (data.cells.drop idx) ≠ .header 0) (owed : ℕ) :
    ∃ dests, owed ≤ dests.length ∧ ReadsTo host data dests pos last := by
  induction hpasses using Relation.ReflTransGen.head_induction_on generalizing owed with
  | refl => exact ⟨_, by simp, readsTo_end hlast owed⟩
  | @head pos mid hskip hrest ih =>
      have hlater : ∀ idx, Passes data.cells mid idx →
          token (data.cells.drop idx) ≠ .header 0 :=
        fun idx hidx => hfull idx (.head hskip hidx)
      rcases cases_of_skip hskip with ⟨count, body, hdrop, hmid⟩ |
        ⟨found, body, dt, hdrop, hbuiltIn, hfound⟩
      · have hlt := Region.lt_size_of_head (drop_tail hdrop)
        have hcount : count ≠ 0 := by
          rintro rfl
          exact hfull pos .refl (by rw [hdrop, token_object]; rfl)
        rw [u32_of_lt (by omega)] at hmid
        subst hmid
        -- The fields are the first reads of the rest of the walk.
        obtain ⟨dests, hlength, hreads⟩ := ih hlater (count.toNat + (owed - 1))
        rw [← List.take_append_drop count.toNat dests] at hreads
        obtain ⟨stop, hfields, hreads⟩ := hreads.split
        refine ⟨.object (dests.take count.toNat) :: dests.drop count.toNat, ?_, stop,
          ?_, hreads⟩
        · rw [List.length_cons, List.length_drop]
          omega
        · exact readValue_object_moves hsize hdrop hcount
            (by rw [List.length_take]; omega) hfields
      · obtain ⟨dests, hlength, hreads⟩ := ih hlater (owed - 1)
        refine ⟨dt :: dests, ?_, mid, readValue_moves hsize hbuiltIn hfound hdrop hskip,
          hreads⟩
        rw [List.length_cons]
        omega

/-! ## An empty object stops every reader -/

/-- A walk that leads to an empty object: the index stands on it, or on an
item before it. -/
def Blocked (bytes : List Byte) (idx : ℕ) : Prop :=
  ∃ stop, Passes bytes idx stop ∧ token (bytes.drop stop) = .header 0

theorem Blocked.exists_skip {bytes : List Byte} (hblocked : Blocked bytes idx) :
    ∃ next, skip bytes idx = some next := by
  obtain ⟨stop, hpasses, hempty⟩ := hblocked
  rcases hpasses.cases_head with rfl | ⟨next, hskip, _⟩
  · exact ⟨_, skip_of_header hempty⟩
  · exact ⟨next, hskip⟩

theorem Blocked.lt_length {bytes : List Byte} (hblocked : Blocked bytes idx) :
    idx < bytes.length := by
  obtain ⟨next, hskip⟩ := hblocked.exists_skip
  by_contra hidx
  rw [skip_of_le (not_lt.mp hidx)] at hskip
  cases hskip

/-- Only the empty object itself is not left behind. -/
theorem Blocked.of_skip {bytes : List Byte} (hblocked : Blocked bytes idx)
    (hskip : skip bytes idx = some next) (htoken : token (bytes.drop idx) ≠ .header 0) :
    Blocked bytes next := by
  obtain ⟨stop, hpasses, hempty⟩ := hblocked
  rcases hpasses.cases_head with rfl | ⟨mid, hmid, hrest⟩
  · exact absurd hempty htoken
  · obtain rfl := Option.some.inj (hskip.symm.trans hmid)
    exact ⟨stop, hrest, hempty⟩

theorem readObjectHeader_at_object {length : ℕ} {count : Byte} {body : List Byte}
    (hdrop : data.cells.drop idx = PacketType.object.toByte :: count :: body)
    (hidx : idx + 1 < 2 ^ 32) (log : List ℕ) :
    ((readObjectHeader data length idx).run log).1 =
      if count = 0 then (.threw .emptyObject, idx)
      else if count.toNat ≠ length then (.threw .wrongSizedObject, idx)
      else (.done, u32 (idx + 2)) := by
  have hlt := Region.lt_size_of_head hdrop
  simp only [readObjectHeader, nextType, if_neg (not_le.mpr hlt), Probe.run_bind,
    Region.run_read, Probe.run_pure, Region.value_head hdrop, PacketType.ofByte_toByte,
    ne_eq, not_true_eq_false, if_false, u32_of_lt hidx,
    Region.value_head (drop_tail hdrop), Probe.run_ite]
  split
  · rfl
  · split <;> rfl

theorem readObjectHeader_elsewhere {length : ℕ} {found : PacketType} {body : List Byte}
    (hdrop : data.cells.drop idx = found.toByte :: body) (hfound : found ≠ .object)
    (log : List ℕ) :
    ((readObjectHeader data length idx).run log).1 = (.threw .objectExpected, idx) := by
  have hlt := Region.lt_size_of_head hdrop
  have hne : (some found : Option PacketType) ≠ some .object := by simpa using hfound
  simp only [readObjectHeader, nextType, if_neg (not_le.mpr hlt), Probe.run_bind,
    Region.run_read, Probe.run_pure, Region.value_head hdrop, PacketType.ofByte_toByte,
    if_pos hne]

/-- A built-in read that succeeds before an empty object is still before it. -/
theorem blocked_of_builtIn (hsize : data.size < 2 ^ 32) {dt : Value}
    (hbuiltIn : BuiltIn dt) (hblocked : Blocked data.cells idx) (log : List ℕ)
    (hdone : ((readValue host data dt idx).run log).1.status = .done) :
    Blocked data.cells ((readValue host data dt idx).run log).1.idx := by
  obtain ⟨next, hskip⟩ := hblocked.exists_skip
  rcases cases_of_skip hskip with ⟨count, body, hdrop, _⟩ |
    ⟨found, body, taker, hdrop, htaker, htaken⟩
  · rw [readValue_mismatch hbuiltIn (object_notMem_accepted hbuiltIn) hdrop] at hdone
    cases hdone
  · by_cases hfound : found ∈ accepted dt
    · rw [(readValue_moves hsize hbuiltIn hfound hdrop hskip log).2]
      refine hblocked.of_skip hskip fun htoken => ?_
      obtain ⟨count, rest, hobject, _⟩ := exists_header_of_token htoken
      rw [hdrop, List.cons.injEq] at hobject
      obtain rfl := PacketType.toByte_injective hobject.1
      exact object_notMem_accepted htaker htaken
    · rw [readValue_mismatch hbuiltIn hfound hdrop] at hdone
      cases hdone

/-- A header that is read before an empty object is not the empty one. -/
theorem blocked_of_header (hsize : data.size < 2 ^ 32) {length : ℕ}
    (hblocked : Blocked data.cells idx) (log : List ℕ)
    (hdone : ((readObjectHeader data length idx).run log).1.1 = .done) :
    Blocked data.cells ((readObjectHeader data length idx).run log).1.2 := by
  obtain ⟨next, hskip⟩ := hblocked.exists_skip
  rcases cases_of_skip hskip with ⟨count, body, hdrop, hnext⟩ |
    ⟨found, body, taker, hdrop, htaker, htaken⟩
  · have hlt := Region.lt_size_of_head (drop_tail hdrop)
    rw [readObjectHeader_at_object hdrop (by omega)] at hdone ⊢
    split at hdone
    · cases hdone
    · rename_i hcount
      split at hdone
      · cases hdone
      · rename_i hlength
        rw [if_neg hcount, if_neg hlength, ← hnext]
        refine hblocked.of_skip hskip fun htoken => hcount ?_
        rw [hdrop, token_object, Token.header.injEq] at htoken
        exact UInt8.toNat_inj.mp htoken
  · rw [readObjectHeader_elsewhere hdrop] at hdone
    · cases hdone
    · rintro rfl
      exact object_notMem_accepted htaker htaken

mutual

/-- No read gets past an empty object. -/
theorem blocked_of_readValue (hsize : data.size < 2 ^ 32) :
    ∀ (dt : Value) (idx : ℕ), Blocked data.cells idx → ∀ log,
      ((readValue host data dt idx).run log).1.status = .done →
        Blocked data.cells ((readValue host data dt idx).run log).1.idx
  | .scalar type dt, _, hblocked, log, hdone =>
      @blocked_of_builtIn host data _ hsize (.scalar type dt) trivial hblocked log hdone
  | .string dt, _, hblocked, log, hdone =>
      @blocked_of_builtIn host data _ hsize (.string dt) trivial hblocked log hdone
  | .vector type dt, _, hblocked, log, hdone =>
      @blocked_of_builtIn host data _ hsize (.vector type dt) trivial hblocked log hdone
  | .object fields, idx, hblocked, log, hdone => by
      simp only [readValue, Probe.run_bind, Probe.run_ite] at hdone ⊢
      by_cases hheader : ((readObjectHeader data (numberOfArgs fields) idx).run
          log).1.1 = .done
      · have htmp := blocked_of_header hsize hblocked log hheader
        simp only [if_pos hheader, Probe.run_pure] at hdone ⊢
        rw [if_pos hdone]
        exact blocked_of_readFromPacket hsize fields _ htmp _ hdone
      · simp only [if_neg hheader, Probe.run_pure] at hdone
        exact absurd hdone hheader

theorem blocked_of_readFromPacket (hsize : data.size < 2 ^ 32) :
    ∀ (dests : List Value) (idx : ℕ), Blocked data.cells idx → ∀ log,
      ((readFromPacket host data dests idx).run log).1.status = .done →
        Blocked data.cells ((readFromPacket host data dests idx).run log).1.idx
  | [], _, hblocked, _, _ => hblocked
  | dt :: dts, idx, hblocked, log, hdone => by
      simp only [readFromPacket, Probe.run_bind, Probe.run_ite] at hdone ⊢
      by_cases hread : ((readValue host data dt idx).run log).1.status = .done
      · have hnext := blocked_of_readValue hsize dt idx hblocked log hread
        simp only [if_pos hread, Probe.run_pure] at hdone ⊢
        exact blocked_of_readFromPacket hsize dts _ hnext _ hdone
      · simp only [if_neg hread, Probe.run_pure] at hdone
        exact absurd hdone hread

end

theorem not_readsThrough_of_blocked (hsize : data.size < 2 ^ 32)
    (hblocked : Blocked data.cells 0) : ¬ ReadsThrough host data := by
  rintro ⟨dests, hdone, hend⟩
  have hlt := (blocked_of_readFromPacket hsize dests 0 hblocked [] hdone).lt_length
  exact absurd hend (not_le.mpr hlt)

end Reader

/-! ## An index of 32 bits -/

section Index

variable {host : Host} {data : Region Byte}

theorem readTag_idx_lt {δ : Type} {ptypes : List PacketType} {dt : δ} {idx : ℕ}
    {payload : ℕ → Probe (Reading δ)} (hidx : idx < 2 ^ 32)
    (hpayload : ∀ idx log, idx < 2 ^ 32 → ((payload idx).run log).1.idx < 2 ^ 32)
    (log : List ℕ) :
    ((readTag data ptypes dt idx payload).run log).1.idx < 2 ^ 32 := by
  simp only [readTag, Probe.run_ite]
  split
  · exact hidx
  · simp only [Probe.run_bind, Probe.run_ite]
    split
    · exact hidx
    · exact hpayload _ _ (u32_lt _)

theorem readChars_idx_lt {rounds idx stop : ℕ} {out chars : List Byte} {log : List ℕ}
    (hrun : ((readChars data rounds out idx).run log).1 = some (chars, stop)) :
    stop < 2 ^ 32 := by
  induction rounds generalizing out idx log with
  | zero => simp [readChars] at hrun
  | succ rounds ih =>
      simp only [readChars, Probe.run_bind, Probe.run_ite] at hrun
      split at hrun
      · exact ih hrun
      · simp only [Probe.run_pure, Option.some.injEq, Prod.mk.injEq] at hrun
        exact hrun.2 ▸ u32_lt _

theorem readString_idx_lt {dt : List Byte} {idx : ℕ} (hidx : idx < 2 ^ 32)
    (log : List ℕ) : ((readString data dt idx).run log).1.idx < 2 ^ 32 := by
  refine readTag_idx_lt hidx (fun idx log hidx => ?_) log
  simp only [Probe.run_bind]
  split
  · rename_i hchars
    exact readChars_idx_lt hchars
  · exact hidx

theorem readItem_idx_lt {bits size idx : ℕ} {fct : ℕ → Probe (BitVec bits)}
    {ptypes : List PacketType} {dt : BitVec bits} (hidx : idx < 2 ^ 32) (log : List ℕ) :
    ((readItem fct size ptypes data dt idx).run log).1.idx < 2 ^ 32 := by
  refine readTag_idx_lt hidx (fun idx log _ => ?_) log
  simp only [Probe.run_bind, Probe.run_pure]
  exact u32_lt _

theorem readArray_idx_lt {bits size idx : ℕ} {fct : ℕ → Probe (BitVec bits)}
    {ptypes : List PacketType} {dt : List (BitVec bits)} (hidx : idx < 2 ^ 32)
    (log : List ℕ) :
    ((readArray host fct size ptypes data dt idx).run log).1.idx < 2 ^ 32 := by
  refine readTag_idx_lt hidx (fun idx log _ => ?_) log
  simp only [Probe.run_bind, Probe.run_pure]
  rw [readElements_moves _ _ _ (u32_lt _)]
  exact u32_lt _

theorem readScalar_idx_lt {type : Scalar} {dt : BitVec type.bits} {idx : ℕ}
    (hidx : idx < 2 ^ 32) (log : List ℕ) :
    ((readScalar host data type dt idx).run log).1.idx < 2 ^ 32 := by
  cases type <;> exact readItem_idx_lt hidx log

theorem readVector_idx_lt {type : Scalar} {dt : List (BitVec type.bits)} {idx : ℕ}
    (hidx : idx < 2 ^ 32) (log : List ℕ) :
    ((readVector host data type dt idx).run log).1.idx < 2 ^ 32 := by
  cases type <;> exact readArray_idx_lt hidx log

theorem readObjectHeader_idx_lt {length idx : ℕ} (hidx : idx < 2 ^ 32) (log : List ℕ) :
    ((readObjectHeader data length idx).run log).1.2 < 2 ^ 32 := by
  simp only [readObjectHeader, Probe.run_bind, Probe.run_ite]
  split
  · exact hidx
  · split
    · exact hidx
    · split
      · exact hidx
      · exact u32_lt _

mutual

/-- `m_idx` is an `unsigned int`. -/
theorem readValue_idx_lt : ∀ (dt : Value) (idx : ℕ), idx < 2 ^ 32 → ∀ log,
    ((readValue host data dt idx).run log).1.idx < 2 ^ 32
  | .scalar _ _, _, hidx, log => readScalar_idx_lt hidx log
  | .string _, _, hidx, log => readString_idx_lt hidx log
  | .vector _ _, _, hidx, log => readVector_idx_lt hidx log
  | .object fields, idx, hidx, log => by
      have htmp := @readObjectHeader_idx_lt data (numberOfArgs fields) idx hidx log
      simp only [readValue, Probe.run_bind, Probe.run_ite]
      split
      · simp only [Probe.run_pure]
        split
        · exact readFromPacket_idx_lt fields _ htmp _
        · exact hidx
      · exact hidx

theorem readFromPacket_idx_lt : ∀ (dests : List Value) (idx : ℕ), idx < 2 ^ 32 → ∀ log,
    ((readFromPacket host data dests idx).run log).1.idx < 2 ^ 32
  | [], _, hidx, _ => hidx
  | dt :: dts, idx, hidx, log => by
      have hnext := readValue_idx_lt dt idx hidx log
      simp only [readFromPacket, Probe.run_bind, Probe.run_ite]
      split
      · exact readFromPacket_idx_lt dts _ hnext _
      · exact hnext

end

theorem not_readsThrough_of_le (hsize : 2 ^ 32 ≤ data.size) : ¬ ReadsThrough host data := by
  rintro ⟨dests, _, hend⟩
  have hlt := @readFromPacket_idx_lt host data dests 0 (by norm_num) []
  omega

end Index

/-! ## Accepted packets -/

/-- A packet that `is_valid` accepts can be read to its end exactly when its size
fits the 32-bit index and no object in it is empty.  The host that validates and
the host that reads may differ, and so may the stray bytes. -/
theorem readsThrough_iff_of_isValid (validator reader : Host) {bytes : List Byte}
    (wild wild' : List ℕ → ℕ → Byte) {fuel : ℕ}
    (hvalid : ((isValid validator ⟨bytes, wild⟩ fuel).run []).1 = some true) :
    ReadsThrough reader ⟨bytes, wild'⟩ ↔
      bytes.length < 2 ^ 32 ∧ ¬ HasEmptyObject bytes := by
  constructor
  · intro hreads
    have hsize : bytes.length < 2 ^ 32 := by
      by_contra hsize
      exact @not_readsThrough_of_le reader ⟨bytes, wild'⟩ (not_lt.mp hsize) hreads
    refine ⟨hsize, fun hempty => ?_⟩
    exact @not_readsThrough_of_blocked reader ⟨bytes, wild'⟩ hsize hempty hreads
  · rintro ⟨hsize, hfull⟩
    obtain ⟨last, hpasses, hlast⟩ := @passes_isValid validator ⟨bytes, wild⟩ hsize fuel
      hvalid
    obtain ⟨dests, _, hreads⟩ := @readsTo_of_passes reader ⟨bytes, wild'⟩ hsize 0 last
      hpasses hlast (fun idx hidx htoken => hfull ⟨idx, hidx, htoken⟩) 0
    obtain ⟨hstatus, hidx⟩ := hreads.run []
    exact ⟨dests, hstatus, hidx ▸ hlast⟩

/-- An object with a field that is an object without one. -/
def hollowPacket : List Byte :=
  [0x40, 0x02, 0x01, 0x2A, 0x40, 0x00]

theorem readsThrough_iff_of_isValid_both :
    (ReadsThrough .big ⟨wholePacket, fun _ _ => 0⟩ ↔
        wholePacket.length < 2 ^ 32 ∧ ¬ HasEmptyObject wholePacket) ∧
      (ReadsThrough .big ⟨hollowPacket, fun _ _ => 0⟩ ↔
        hollowPacket.length < 2 ^ 32 ∧ ¬ HasEmptyObject hollowPacket) :=
  ⟨@readsThrough_iff_of_isValid .little .big wholePacket (fun _ _ => 0) (fun _ _ => 0) 11
      (by decide +kernel),
    @readsThrough_iff_of_isValid .little .big hollowPacket (fun _ _ => 0) (fun _ _ => 0) 8
      (by decide +kernel)⟩

/-- The validator passes an object that announces no field; `read_object_header`
and `write_object_header` refuse it. -/
theorem not_readsThrough_empty_object :
    ((isValid .little ⟨[0x40, 0x00], fun _ _ => 0⟩ 4).run []).1 = some true ∧
      ¬ ReadsThrough .little ⟨[0x40, 0x00], fun _ _ => 0⟩ := by
  refine ⟨by decide +kernel, not_readsThrough_of_blocked (by decide) ⟨0, .refl, ?_⟩⟩
  decide +kernel

end Sednl.Readable
