import Sednl.Wire.Readable

/-!
# Printing packets

`operator<<` on a stream goes over the grammar once more, with a recursion of its own
and its own arithmetic for the header of an object.  On a packet that is well formed it
meets the items in the order of the grammar, an object before its fields, and gives each
of them one entry.
-/

namespace Sednl.Printing

open Sednl.Endian
open Sednl.Memory
open Sednl.Tag
open Sednl.Word
open Sednl.Grammar
open Sednl.Packet
open Sednl.Reader
open Sednl.Validator
open Sednl.Acceptance
open Sednl.ReaderSafety
open Sednl.RoundTrip
open Sednl.Readable

/-- What is put into the stream. -/
inductive Piece where
  | text (text : String)
  /-- `type_to_string(type) << "_" << i << " : "`. -/
  | heading (type : String) (i : ℕ)
  | data (dt : Value)

def typeToString : Option PacketType → String
  | some .int8 => "Int8"
  | some .int16 => "Int16"
  | some .int32 => "Int32"
  | some .int64 => "Int64"
  | some .uint8 => "UInt8"
  | some .uint16 => "UInt16"
  | some .uint32 => "UInt32"
  | some .uint64 => "UInt64"
  | some .float => "Float"
  | some .double => "Double"
  | some .string => "String"
  | some .object => "Object"
  | some .arrayInt8 => "ArrayInt8"
  | some .arrayInt16 => "ArrayInt16"
  | some .arrayInt32 => "ArrayInt32"
  | some .arrayInt64 => "ArrayInt64"
  | some .arrayUInt8 => "ArrayUInt8"
  | some .arrayUInt16 => "ArrayUInt16"
  | some .arrayUInt32 => "ArrayUInt32"
  | some .arrayUInt64 => "ArrayUInt64"
  | some .arrayFloat => "ArrayFloat"
  | some .arrayDouble => "ArrayDouble"
  | some .unknown | none => "Unknown"

/-- The variable `v` of each case, with nothing in it yet. -/
def destination : PacketType → Option Value
  | .int8 => some (.scalar .int8 0)
  | .int16 => some (.scalar .int16 0)
  | .int32 => some (.scalar .int32 0)
  | .int64 => some (.scalar .int64 0)
  | .uint8 => some (.scalar .uint8 0)
  | .uint16 => some (.scalar .uint16 0)
  | .uint32 => some (.scalar .uint32 0)
  | .uint64 => some (.scalar .uint64 0)
  | .float => some (.scalar .float 0)
  | .double => some (.scalar .double 0)
  | .string => some (.string [])
  | .arrayInt8 => some (.vector .int8 [])
  | .arrayInt16 => some (.vector .int16 [])
  | .arrayInt32 => some (.vector .int32 [])
  | .arrayInt64 => some (.vector .int64 [])
  | .arrayUInt8 => some (.vector .uint8 [])
  | .arrayUInt16 => some (.vector .uint16 [])
  | .arrayUInt32 => some (.vector .uint32 [])
  | .arrayUInt64 => some (.vector .uint64 [])
  | .arrayFloat => some (.vector .float [])
  | .arrayDouble => some (.vector .double [])
  | .object | .unknown => none

/-- `os << v`, which is `show_array` on a vector. -/
def showValue : Value → List Piece
  | .vector type v => .text "\x7b " ::
      (v.flatMap fun e => [.data (.scalar type e), .text ", "]) ++ [.text " \x7d"]
  | v => [.data v]

/-- What `output_one` changes: the counter, the reader's `m_idx` and the stream. -/
structure Progress where
  i : ℕ
  idx : ℕ
  os : List Piece

def Progress.put (progress : Progress) (pieces : List Piece) : Progress :=
  { progress with os := progress.os ++ pieces }

/-- How a call ends, with what it returns where it does. -/
structure Printed where
  status : Status
  ok : Bool
  progress : Progress

/-- `__show_data_case` and `__show_array_case`. -/
def showCase (host : Host) (data : Region Byte) (v : Value) (progress : Progress) :
    Probe (Option Printed) := do
  let reading ← readValue host data v progress.idx
  if reading.status = .done then
    pure (some ⟨.done, true, { progress with idx := reading.idx }.put (showValue reading.dt)⟩)
  else pure (some ⟨reading.status, false, { progress with idx := reading.idx }⟩)

/-- The loop over the fields of an object; `next` is the recursive call, `none` where it
has run out of fuel. -/
def outputFields (next : Progress → Probe (Option Printed)) :
    ℕ → Progress → Probe (Option Printed)
  | 0, progress => pure (some ⟨.done, true, progress⟩)
  | fields + 1, progress => do
      match ← next progress with
      | some ⟨.done, true, progress⟩ => outputFields next fields (progress.put [.text ", "])
      | printed => pure printed

def outputObject (data : Region Byte) (next : Progress → Probe (Option Printed))
    (progress : Progress) : Probe (Option Printed) := do
  let objLength ← data.read (u32 (progress.idx + 1))
  match ← outputFields next objLength.toNat
      ({ progress with idx := u32 (progress.idx + 2) }.put [.text "\x7b "]) with
  | some ⟨.done, true, progress⟩ => pure (some ⟨.done, true, progress.put [.text " \x7d"]⟩)
  | printed => pure printed

def outputTagged (host : Host) (data : Region Byte)
    (next : Progress → Probe (Option Printed)) (progress : Progress) :
    Option PacketType → Probe (Option Printed)
  | some .object => outputObject data next progress
  | type =>
      match type.bind destination with
      | some v => showCase host data v progress
      | none => pure (some ⟨.done, false, progress⟩)

def outputOne (host : Host) (data : Region Byte) : ℕ → Progress → Probe (Option Printed)
  | 0, _ => pure none
  | fuel + 1, progress => do
      let type ← nextType data progress.idx
      let i := progress.i + 1
      outputTagged host data (outputOne host data fuel)
        ({ progress with i := i }.put [.heading (typeToString type) i]) type

/-- `while (r)`, and what follows it. -/
def printLoop (host : Host) (data : Region Byte) : ℕ → Progress → Probe (Option Printed)
  | 0, _ => pure none
  | fuel + 1, progress =>
      if data.size ≤ progress.idx then pure (some ⟨.done, true, progress.put [.text "\x7d"]⟩)
      else do
        match ← outputOne host data fuel progress with
        | some ⟨.done, true, progress⟩ => printLoop host data fuel (progress.put [.text ", "])
        | some ⟨.done, false, progress⟩ =>
            pure (some ⟨.done, false, progress.put [.text " CORRUPTED ---"]⟩)
        | printed => pure printed

/-- `operator<<(std::ostream&, const Packet&)`. -/
def print (host : Host) (data : Region Byte) (fuel : ℕ) : Probe (Option Printed) :=
  printLoop host data fuel ⟨0, 0, [.text "\x7b "]⟩

/-! ## What is to be printed -/

/-- `bytes` are `count` items; `tags` are theirs and those of the items in them, each
object before its fields. -/
inductive Lists : ℕ → List Byte → List PacketType → Prop
  | nil : Lists 0 [] []
  | leaf {count : ℕ} {type : PacketType} {body bytes : List Byte} {tags : List PacketType}
      (hleaf : Leaf (type.toByte :: body)) (hrest : Lists count bytes tags) :
      Lists (count + 1) (type.toByte :: body ++ bytes) (type :: tags)
  | object {count : ℕ} {announced : Byte} {fields bytes : List Byte}
      {inner tags : List PacketType} (hfields : Lists announced.toNat fields inner)
      (hrest : Lists count bytes tags) :
      Lists (count + 1) (PacketType.object.toByte :: announced :: fields ++ bytes)
        (.object :: inner ++ tags)

/-- The type and the number of each entry. -/
def headings (os : List Piece) : List (String × ℕ) :=
  os.filterMap fun piece =>
    match piece with
    | .heading type i => some (type, i)
    | _ => none

/-- The entries of some items, the first of which has the number `i`. -/
def numbered (i : ℕ) (tags : List PacketType) : List (String × ℕ) :=
  (tags.map fun type => typeToString (some type)).zipIdx i

def corrupted : Piece :=
  .text " CORRUPTED ---"

/-- The packet is printed to its end: no exception, no marker, one entry for each item. -/
structure Prints (host : Host) (data : Region Byte) (fuel : ℕ) (printed : Printed) : Prop where
  hreturns : ((print host data fuel).run []).1 = some printed
  hstatus : printed.status = .done
  hend : printed.progress.idx = data.size
  hmarker : corrupted ∉ printed.progress.os
  hentries : ∃ count tags, Lists count data.cells tags ∧
    headings printed.progress.os = numbered 1 tags
  hinside : InBounds data.size ((print host data fuel).run []).2

/-! ## Grammar -/

theorem Lists.append {count more : ℕ} {front bytes : List Byte} {inner tags : List PacketType}
    (hfront : Lists count front inner) (hbytes : Lists more bytes tags) :
    Lists (count + more) (front ++ bytes) (inner ++ tags) := by
  induction hfront with
  | nil => simpa using hbytes
  | leaf hleaf _ ih =>
      rw [Nat.add_right_comm, List.append_assoc, List.cons_append]
      exact .leaf hleaf ih
  | object hfields _ _ ih =>
      rw [Nat.add_right_comm, List.append_assoc, List.append_assoc]
      exact .object hfields ih

theorem exists_lists_of_items {items : List (List Byte)}
    (hitems : ∀ item ∈ items, ∃ tags, Lists 1 item tags) :
    ∃ tags, Lists items.length items.flatten tags := by
  induction items with
  | nil => exact ⟨[], .nil⟩
  | cons item items ih =>
      obtain ⟨tags, hitem⟩ := hitems item List.mem_cons_self
      obtain ⟨more, hrest⟩ := ih fun other hmem => hitems other (List.mem_cons_of_mem _ hmem)
      refine ⟨tags ++ more, ?_⟩
      rw [List.length_cons, List.flatten_cons, Nat.add_comm]
      exact hitem.append hrest

theorem exists_lists_of_item {item : List Byte} (hitem : Item item) :
    ∃ tags, Lists 1 item tags := by
  induction hitem with
  | @leaf item hleaf =>
      obtain ⟨type, body, rfl, _⟩ := exists_head_of_leaf hleaf
      exact ⟨[type], by simpa using Lists.leaf hleaf .nil⟩
  | @object fields count hcount _ ih =>
      obtain ⟨inner, hinner⟩ := exists_lists_of_items ih
      rw [hcount] at hinner
      exact ⟨.object :: inner, by simpa using Lists.object hinner .nil⟩

/-- A packet that is well formed has its list of items. -/
theorem exists_lists_of_wellFormed {bytes : List Byte} (hwell : WellFormed bytes) :
    ∃ count tags, Lists count bytes tags := by
  obtain ⟨items, hitems, rfl⟩ := hwell
  obtain ⟨tags, hlists⟩ := exists_lists_of_items fun item hmem =>
    exists_lists_of_item (hitems item hmem)
  exact ⟨_, tags, hlists⟩

/-- Each item takes two bytes, so the `int` that counts them does not overflow. -/
theorem Lists.length_tags {count : ℕ} {bytes : List Byte} {tags : List PacketType}
    (hlists : Lists count bytes tags) : 2 * tags.length ≤ bytes.length := by
  induction hlists with
  | nil => exact le_rfl
  | @leaf _ type body _ _ hleaf _ ih =>
      have hbody : 0 < body.length := by
        rcases hleaf.body_cases with hscalar | ⟨_, chars, _, rfl⟩ | ⟨_, _, _, _, _, rfl, _⟩
        · exact (PacketType.scalar_size_bounds hscalar).1
        · simp
        · simp
      simp only [List.length_append, List.length_cons]
      omega
  | object _ _ ihfields ih =>
      simp only [List.length_append, List.length_cons]
      omega

theorem numbered_append (i : ℕ) (front back : List PacketType) :
    numbered i (front ++ back) = numbered i front ++ numbered (i + front.length) back := by
  rw [numbered, List.map_append, List.zipIdx_append, List.length_map]
  rfl

theorem headings_append (front back : List Piece) :
    headings (front ++ back) = headings front ++ headings back :=
  List.filterMap_append

/-! ## One step of the printer -/

/-- What printing some items of `size` bytes changes. -/
structure Advances (progress last : Progress) (size : ℕ) (tags : List PacketType) : Prop where
  hi : last.i = progress.i + tags.length
  hidx : last.idx = progress.idx + size
  hos : ∃ more, last.os = progress.os ++ more ∧
    headings more = numbered (progress.i + 1) tags ∧ corrupted ∉ more

section Steps

variable {progress mid last : Progress} {size more : ℕ} {tags others : List PacketType}

theorem Advances.trans (hfirst : Advances progress mid size tags)
    (hrest : Advances mid last more others) :
    Advances progress last (size + more) (tags ++ others) := by
  obtain ⟨front, hfront, hheadings, hmarker⟩ := hfirst.hos
  obtain ⟨back, hback, hlater, hclean⟩ := hrest.hos
  refine ⟨?_, ?_, front ++ back, ?_, ?_, ?_⟩
  · rw [hrest.hi, hfirst.hi, List.length_append, Nat.add_assoc]
  · rw [hrest.hidx, hfirst.hidx, Nat.add_assoc]
  · rw [hback, hfront, List.append_assoc]
  · rw [headings_append, hheadings, hlater, hfirst.hi, numbered_append, Nat.add_right_comm]
  · rw [List.mem_append]
    exact fun hmem => hmem.elim hmarker hclean

/-- Pieces that are neither an entry nor the marker. -/
theorem advances_put {pieces : List Piece} (hheadings : headings pieces = [])
    (hmarker : corrupted ∉ pieces) : Advances progress (progress.put pieces) 0 [] :=
  ⟨rfl, rfl, pieces, rfl, hheadings, hmarker⟩

theorem advances_refl : Advances progress progress 0 [] :=
  ⟨rfl, rfl, [], (List.append_nil _).symm, rfl, List.not_mem_nil⟩

theorem advances_text {text : String} (hmarker : text ≠ " CORRUPTED ---") :
    Advances progress (progress.put [.text text]) 0 [] := by
  refine advances_put rfl fun hmem => hmarker ?_
  exact (Piece.text.inj (List.mem_singleton.mp hmem)).symm

/-- The entry of an item, and the step over some of its bytes. -/
theorem advances_heading (type : PacketType) (i : ℕ) (hi : i = progress.i + 1) :
    Advances progress
      ({ progress with i := i }.put [.heading (typeToString (some type)) i]) 0 [type] := by
  subst hi
  exact ⟨rfl, rfl, _, rfl, rfl, by simp [corrupted]⟩

theorem advances_idx (size : ℕ) :
    Advances progress { progress with idx := progress.idx + size } size [] :=
  ⟨rfl, rfl, [], (List.append_nil _).symm, rfl, List.not_mem_nil⟩

theorem headings_showValue (v : Value) : headings (showValue v) = [] := by
  cases v with
  | vector type v =>
      have helements : ∀ v : List (BitVec type.bits),
          headings (v.flatMap fun e => [.data (.scalar type e), .text ", "]) = [] := by
        intro v
        induction v with
        | nil => rfl
        | cons e v ih => exact ih
      rw [showValue, List.cons_append]
      exact (headings_append _ _).trans (by rw [helements]; rfl)
  | _ => rfl

theorem corrupted_notMem_showValue (v : Value) : corrupted ∉ showValue v := by
  cases v with
  | vector type v => simp [showValue, corrupted]
  | _ => simp [showValue, corrupted]

end Steps

/-! ## The printer on the items -/

section Printer

variable {host : Host} {data : Region Byte} {fuel : ℕ} {rest : List Byte}
  {progress : Progress}

/-- A call returns true, past `size` bytes that it has printed as these items. -/
def Shows (data : Region Byte) (probe : Probe (Option Printed)) (progress : Progress)
    (size : ℕ) (tags : List PacketType) : Prop :=
  ∀ log, ∃ last, (probe.run log).1 = some ⟨.done, true, last⟩ ∧
    Advances progress last size tags ∧
    (InBounds data.size (probe.run log).2 ↔ InBounds data.size log)

/-- `output_one` prints the item. -/
def ShowsOne (host : Host) (data : Region Byte) (item : List Byte) (tags : List PacketType) :
    Prop :=
  ∀ {fuel progress rest}, item.length ≤ fuel → data.cells.drop progress.idx = item ++ rest →
    Shows data (outputOne host data fuel progress) progress item.length tags

/-- The loop over the fields of an object prints the items. -/
def ShowsAll (host : Host) (data : Region Byte) (count : ℕ) (bytes : List Byte)
    (tags : List PacketType) : Prop :=
  ∀ {fuel progress rest}, bytes.length ≤ fuel → data.cells.drop progress.idx = bytes ++ rest →
    Shows data (outputFields (outputOne host data fuel) count progress) progress bytes.length
      tags

theorem destination_of_leaf {type : PacketType} {body : List Byte}
    (hleaf : Leaf (type.toByte :: body)) :
    ∃ v, destination type = some v ∧ BuiltIn v ∧ type ∈ accepted v := by
  have hlayout : type.layout ≠ .reserved ∧ type.layout ≠ .object := by
    rcases hleaf.body_cases with hscalar | ⟨rfl, _⟩ | ⟨_, _, _, _, harray, _⟩
    · simp [hscalar]
    · simp [PacketType.layout]
    · simp [harray]
  cases type with
  | unknown => exact absurd rfl hlayout.1
  | object => exact absurd rfl hlayout.2
  | _ => exact ⟨_, rfl, trivial, List.mem_singleton_self _⟩

theorem outputTagged_of_destination {next : Progress → Probe (Option Printed)}
    {type : PacketType} {v : Value} (hdestination : destination type = some v) :
    outputTagged host data next progress (some type) = showCase host data v progress := by
  cases type with
  | object => cases hdestination
  | _ => rw [outputTagged, Option.bind_some, hdestination]; simp

theorem shows_showCase (hsize : data.size < 2 ^ 32) {type : PacketType} {body : List Byte}
    (hleaf : Leaf (type.toByte :: body)) {v : Value} (hbuiltIn : BuiltIn v)
    (haccepted : type ∈ accepted v)
    (hdrop : data.cells.drop progress.idx = type.toByte :: body ++ rest) :
    Shows data (showCase host data v progress) progress (type.toByte :: body).length [] := by
  intro log
  have hlength := Region.length_of_drop hdrop
  rw [List.length_append] at hlength
  have hlt := Region.lt_size_of_head hdrop
  obtain ⟨hvalue, hlog⟩ := @readValue_of_leaf host data progress.idx rest v hbuiltIn _ hleaf
    type haccepted rfl hdrop (by omega) log
  simp only [showCase, Probe.run_bind, hvalue, if_true, Probe.run_pure, Option.some.injEq,
    Printed.mk.injEq, true_and, exists_eq_left']
  have hshown := @advances_put { progress with idx := progress.idx + (type.toByte :: body).length }
    _ (headings_showValue (payload (type.toByte :: body) v)) (corrupted_notMem_showValue _)
  exact ⟨(@advances_idx progress (type.toByte :: body).length).trans hshown, hlog⟩

/-- The start of `output_one`, on the tag it finds. -/
theorem outputOne_head {type : PacketType} {body : List Byte}
    (hdrop : data.cells.drop progress.idx = type.toByte :: body) (log : List ℕ) :
    (outputOne host data (fuel + 1) progress).run log =
      (outputTagged host data (outputOne host data fuel)
        ({ progress with i := progress.i + 1 }.put
          [.heading (typeToString (some type)) (progress.i + 1)]) (some type)).run
        (progress.idx :: log) := by
  have hlt := Region.lt_size_of_head hdrop
  simp only [outputOne, nextType, if_neg (not_le.mpr hlt), Probe.run_bind, Region.run_read,
    Region.value_head hdrop, Probe.run_pure, PacketType.ofByte_toByte]

/-- `output_one` gives the item its entry, and goes on with the case of its tag. -/
theorem shows_outputOne {type : PacketType} {body : List Byte} {size : ℕ}
    {inner : List PacketType} (hdrop : data.cells.drop progress.idx = type.toByte :: body)
    (htagged : ∀ {start : Progress}, start.idx = progress.idx →
      Shows data (outputTagged host data (outputOne host data fuel) start (some type)) start
        size inner) :
    Shows data (outputOne host data (fuel + 1) progress) progress size (type :: inner) := by
  intro log
  rw [outputOne_head hdrop]
  have hheading := @advances_heading progress type _ rfl
  obtain ⟨last, hrun, hadvances, hlog⟩ := @htagged ({ progress with i := progress.i + 1 }.put
    [.heading (typeToString (some type)) (progress.i + 1)]) rfl (progress.idx :: log)
  refine ⟨last, hrun, ?_, hlog.trans (inBounds_of_lt (Region.lt_size_of_head hdrop) log)⟩
  simpa using hheading.trans hadvances

theorem showsOne_leaf (hsize : data.size < 2 ^ 32) {type : PacketType} {body : List Byte}
    (hleaf : Leaf (type.toByte :: body)) : ShowsOne host data (type.toByte :: body) [type] := by
  intro fuel progress rest hfuel hdrop
  obtain ⟨fuel, rfl⟩ : ∃ pred, fuel = pred + 1 :=
    Nat.exists_eq_succ_of_ne_zero (by rw [List.length_cons] at hfuel; omega)
  obtain ⟨v, hdestination, hbuiltIn, haccepted⟩ := destination_of_leaf hleaf
  refine shows_outputOne hdrop fun hidx => ?_
  rw [outputTagged_of_destination hdestination]
  exact shows_showCase hsize hleaf hbuiltIn haccepted (by rw [hidx, hdrop])

theorem shows_outputObject (hsize : data.size < 2 ^ 32)
    {next : Progress → Probe (Option Printed)} {announced : Byte} {fields : List Byte}
    {inner : List PacketType}
    (hdrop : data.cells.drop progress.idx =
      PacketType.object.toByte :: announced :: fields ++ rest)
    (hfields : Shows data (outputFields next announced.toNat
        ({ progress with idx := progress.idx + 2 }.put [.text "\x7b "]))
      ({ progress with idx := progress.idx + 2 }.put [.text "\x7b "]) fields.length inner) :
    Shows data (outputObject data next progress) progress (2 + fields.length) inner := by
  intro log
  have hcount := drop_tail hdrop
  have hlt := Region.lt_size_of_head hcount
  obtain ⟨mid, hrun, hinner, hlog⟩ := hfields ((progress.idx + 1) :: log)
  refine ⟨mid.put [.text " \x7d"], ?_, ?_, ?_⟩
  · simp only [outputObject, Probe.run_bind, Region.run_read,
      u32_of_lt (show progress.idx + 1 < 2 ^ 32 by omega),
      u32_of_lt (show progress.idx + 2 < 2 ^ 32 by omega), Region.value_head hcount, hrun,
      Probe.run_pure]
  · have hopen := (@advances_idx progress 2).trans (@advances_text _ "\x7b " (by decide))
    have hclose := (hopen.trans hinner).trans (@advances_text _ " \x7d" (by decide))
    simpa using hclose
  · simp only [outputObject, Probe.run_bind, Region.run_read,
      u32_of_lt (show progress.idx + 1 < 2 ^ 32 by omega),
      u32_of_lt (show progress.idx + 2 < 2 ^ 32 by omega), Region.value_head hcount, hrun,
      Probe.run_pure]
    exact hlog.trans (inBounds_of_lt hlt log)

theorem showsOne_object (hsize : data.size < 2 ^ 32) {announced : Byte} {fields : List Byte}
    {inner : List PacketType} (hfields : ShowsAll host data announced.toNat fields inner) :
    ShowsOne host data (PacketType.object.toByte :: announced :: fields) (.object :: inner) := by
  intro fuel progress rest hfuel hdrop
  obtain ⟨fuel, rfl⟩ : ∃ pred, fuel = pred + 1 :=
    Nat.exists_eq_succ_of_ne_zero (by rw [List.length_cons] at hfuel; omega)
  simp only [List.length_cons] at hfuel
  have hbody := @Region.drop_add _ data progress.idx [PacketType.object.toByte, announced] _ hdrop
  have hlength : (PacketType.object.toByte :: announced :: fields).length = 2 + fields.length := by
    rw [List.length_cons, List.length_cons]
    omega
  rw [hlength]
  refine shows_outputOne hdrop fun {start} hidx => ?_
  refine @shows_outputObject data rest start hsize _ announced fields inner (by rw [hidx, hdrop]) ?_
  exact hfields (by omega) (by rw [Progress.put, hidx]; exact hbody)

theorem showsAll_cons {item bytes : List Byte} {count : ℕ} {inner tags : List PacketType}
    (hitem : ShowsOne host data item inner) (hrest : ShowsAll host data count bytes tags) :
    ShowsAll host data (count + 1) (item ++ bytes) (inner ++ tags) := by
  intro fuel progress rest hfuel hdrop log
  rw [List.length_append] at hfuel
  rw [List.append_assoc] at hdrop
  obtain ⟨mid, hrun, hfirst, hlog⟩ := @hitem fuel progress _ (by omega) hdrop log
  have hcomma := hfirst.trans (@advances_text mid ", " (by decide))
  have hnext : data.cells.drop (mid.put [.text ", "]).idx = bytes ++ rest := by
    rw [Progress.put, hfirst.hidx]
    exact Region.drop_add hdrop
  obtain ⟨last, hlast, hlater, hinside⟩ := @hrest fuel (mid.put [.text ", "]) rest (by omega)
    hnext ((outputOne host data fuel progress).run log).2
  refine ⟨last, ?_, ?_, ?_⟩
  · simp only [outputFields, Probe.run_bind, hrun, hlast]
  · simpa using hcomma.trans hlater
  · simp only [outputFields, Probe.run_bind, hrun]
    exact hinside.trans hlog

/-- The loop over the fields of an object prints what the grammar lists. -/
theorem showsAll_of_lists (hsize : data.size < 2 ^ 32) {count : ℕ} {bytes : List Byte}
    {tags : List PacketType} (hlists : Lists count bytes tags) :
    ShowsAll host data count bytes tags := by
  induction hlists with
  | nil => exact fun _ _ log => ⟨_, rfl, advances_refl, Iff.rfl⟩
  | leaf hleaf _ ih => exact showsAll_cons (showsOne_leaf hsize hleaf) ih
  | object _ _ ihfields ih => exact showsAll_cons (showsOne_object hsize ihfields) ih

/-- One more turn of `while (r)`. -/
theorem printLoop_item {item body : List Byte} {inner tags : List PacketType} {size : ℕ}
    (hitem : ShowsOne host data item inner) (hfuel : item.length ≤ fuel) (hpos : item ≠ [])
    (hdrop : data.cells.drop progress.idx = item ++ body)
    (hrest : ∀ {mid : Progress}, mid.idx = progress.idx + item.length →
      Shows data (printLoop host data fuel mid) mid size tags) :
    Shows data (printLoop host data (fuel + 1) progress) progress (item.length + size)
      (inner ++ tags) := by
  intro log
  have hlt : progress.idx < data.size := by
    by_contra hidx
    have hnil := List.drop_eq_nil_of_le (not_lt.mp hidx)
    exact hpos (List.append_eq_nil_iff.mp (hdrop.symm.trans hnil)).1
  obtain ⟨mid, hrun, hfirst, hlog⟩ := hitem hfuel hdrop log
  obtain ⟨last, hlast, hlater, hinside⟩ := @hrest (mid.put [.text ", "]) hfirst.hidx
    ((outputOne host data fuel progress).run log).2
  have hcomma := hfirst.trans (@advances_text mid ", " (by decide))
  refine ⟨last, ?_, by simpa using hcomma.trans hlater, ?_⟩
  · simp only [printLoop, if_neg (not_le.mpr hlt), Probe.run_bind, hrun, hlast]
  · simp only [printLoop, if_neg (not_le.mpr hlt), Probe.run_bind, hrun]
    exact hinside.trans hlog

/-- The loop prints what is left of the packet. -/
theorem shows_printLoop (hsize : data.size < 2 ^ 32) {count : ℕ} {bytes : List Byte}
    {tags : List PacketType} (hlists : Lists count bytes tags) (hfuel : bytes.length < fuel)
    (hidx : progress.idx + bytes.length = data.size)
    (hdrop : data.cells.drop progress.idx = bytes) :
    Shows data (printLoop host data fuel progress) progress bytes.length tags := by
  induction hlists generalizing fuel progress with
  | nil =>
      obtain ⟨fuel, rfl⟩ : ∃ pred, fuel = pred + 1 :=
        Nat.exists_eq_succ_of_ne_zero hfuel.ne'
      intro log
      have hend : data.size ≤ progress.idx := hidx.ge
      rw [printLoop, if_pos hend]
      exact ⟨_, rfl, advances_text (by decide), Iff.rfl⟩
  | @leaf count type body bytes tags hleaf _ ih =>
      obtain ⟨fuel, rfl⟩ : ∃ pred, fuel = pred + 1 :=
        Nat.exists_eq_succ_of_ne_zero (Nat.ne_zero_of_lt hfuel)
      simp only [List.length_append, List.length_cons] at hfuel hidx ⊢
      refine printLoop_item (showsOne_leaf hsize hleaf) (by rw [List.length_cons]; omega)
        (List.cons_ne_nil _ _) hdrop fun {mid} hmid => ih (by omega) ?_ ?_
      · rw [hmid, List.length_cons]
        omega
      · rw [hmid]
        exact Region.drop_add hdrop
  | @object count announced fields bytes inner tags hfields _ _ ih =>
      obtain ⟨fuel, rfl⟩ : ∃ pred, fuel = pred + 1 :=
        Nat.exists_eq_succ_of_ne_zero (Nat.ne_zero_of_lt hfuel)
      simp only [List.length_append, List.length_cons] at hfuel hidx ⊢
      refine printLoop_item (showsOne_object hsize (showsAll_of_lists hsize hfields))
        (by simp only [List.length_cons]; omega) (List.cons_ne_nil _ _) hdrop
        fun {mid} hmid => ih (by omega) ?_ ?_
      · simp only [hmid, List.length_cons]
        omega
      · rw [hmid]
        exact Region.drop_add hdrop

theorem exists_prints_of_wellFormed (hsize : data.size < 2 ^ 32)
    (hwell : WellFormed data.cells) (hfuel : data.size < fuel) :
    ∃ printed, Prints host data fuel printed := by
  obtain ⟨count, tags, hlists⟩ := exists_lists_of_wellFormed hwell
  obtain ⟨last, hrun, hadvances, hinside⟩ := @shows_printLoop host data fuel ⟨0, 0, [.text "\x7b "]⟩
    hsize count data.cells tags hlists hfuel (Nat.zero_add _) rfl []
  obtain ⟨more, hos, hheadings, hmarker⟩ := hadvances.hos
  refine ⟨⟨.done, true, last⟩, hrun, rfl, ?_, ?_, ⟨count, tags, hlists, ?_⟩,
    hinside.mpr (inBounds_nil _)⟩
  · rw [hadvances.hidx]
    exact Nat.zero_add _
  · rw [hos, List.mem_append]
    rintro (hmem | hmem)
    · have htext := Piece.text.inj (List.mem_singleton.mp hmem)
      revert htext
      decide
    · exact hmarker hmem
  · rw [hos, headings_append, hheadings]
    rfl

end Printer

/-! ## Accepted packets -/

/-- A packet that `is_valid` accepted, with its index in range, is printed to its end: one
entry for each item, nothing read outside, whatever the hosts and the stray bytes. -/
theorem prints_of_isValid (validator printer : Host) {bytes : List Byte}
    (hlength : bytes.length < 2 ^ 32)
    (hends : ∀ stop owed, Ends bytes (.overrun stop owed) → stop + 9 * owed < 2 ^ 32)
    (wild wild' : List ℕ → ℕ → Byte) {fuel fuel' : ℕ} (hfuel : bytes.length + 2 ≤ fuel)
    (hvalid : ((isValid validator ⟨bytes, wild⟩ fuel).run []).1 = some true)
    (hfuel' : bytes.length < fuel') :
    ∃ printed, Prints printer ⟨bytes, wild'⟩ fuel' printed := by
  have hwell := wellFormed_of_isValid hlength hends hfuel hvalid
  exact @exists_prints_of_wellFormed printer ⟨bytes, wild'⟩ fuel' hlength hwell hfuel'

/-- An object of one empty object. -/
theorem prints_of_isValid_object :
    ∃ printed, Prints .big ⟨[0x40, 0x01, 0x40, 0x00], fun _ _ => 0⟩ 5 printed := by
  refine @prints_of_isValid .little .big [0x40, 0x01, 0x40, 0x00] (by decide)
    (fun stop owed hends => ?_) (fun _ _ => 0) (fun _ _ => 0) 6 5 (by decide)
    (by decide +kernel) (by decide)
  rw [← scan_eq_iff, show scan 0 0 [0x40, 0x01, 0x40, 0x00] = .complete by
    decide +kernel] at hends
  cases hends

/-- A packet that starts with a zero byte is given up at once. -/
theorem not_prints_of_zero {host : Host} {data : Region Byte} {rest : List Byte}
    (hcells : data.cells = 0x00 :: rest) (fuel : ℕ) (printed : Printed) :
    ¬ Prints host data fuel printed := by
  have hdrop : data.cells.drop 0 = PacketType.unknown.toByte :: rest := hcells
  have hlt : ¬ data.size ≤ 0 := not_le.mpr (Region.lt_size_of_head hdrop)
  intro hprints
  have hreturns := hprints.hreturns
  cases fuel with
  | zero => cases hreturns
  | succ fuel =>
      cases fuel with
      | zero =>
          simp only [print, printLoop, if_neg hlt, outputOne, Probe.run_bind,
            Probe.run_pure] at hreturns
          cases hreturns
      | succ fuel =>
          rw [print, printLoop, if_neg hlt, Probe.run_bind,
            @outputOne_head host data fuel ⟨0, 0, [.text "\x7b "]⟩ .unknown rest hdrop] at hreturns
          obtain rfl := Option.some.inj hreturns
          exact hprints.hmarker (by simp [corrupted, Progress.put])

/-- `2 ^ 32` zero bytes are accepted, and printed as a corrupted packet. -/
theorem not_prints_zeros :
    ((isValid .little ⟨List.replicate (2 ^ 32) 0, fun _ _ => 0⟩ 1).run []).1 = some true ∧
      ∀ fuel printed,
        ¬ Prints .little ⟨List.replicate (2 ^ 32) 0, fun _ _ => 0⟩ fuel printed := by
  refine ⟨(isValid_zeros rfl _).1, ?_⟩
  generalize hlength : 2 ^ 32 = length
  obtain ⟨pred, rfl⟩ : ∃ pred, length = pred + 1 :=
    Nat.exists_eq_succ_of_ne_zero (by omega)
  exact not_prints_of_zero List.replicate_succ

end Sednl.Printing
