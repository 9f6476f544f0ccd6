import Sednl.Wire.Readable

/-!
# Writing back what was read

The converse of the round trip: the items of an accepted packet, read with
destinations of the types `next_type` names and written in the same structure,
give the packet back.  No type has a second encoding: a scalar is its
big-endian word, a vector its count and its words, a string ends at its first
NUL, and an object announces exactly the fields that follow.
-/

namespace Sednl.Canonical

open Sednl.Endian
open Sednl.Memory
open Sednl.Tag
open Sednl.Word
open Sednl.Grammar
open Sednl.Packet
open Sednl.Reader
open Sednl.Validator
open Sednl.Acceptance
open Sednl.ReaderSafety
open Sednl.RoundTrip
open Sednl.Readable

mutual

/-- The destination is of the type that `next_type` names where it is read: the
type whose `operator<<` writes that tag.  An object has as many members as the
item announces, each of them matching in turn. -/
def Matches (host : Host) (data : Region Byte) : Value → ℕ → Prop
  | .scalar type _, idx => ((nextType data idx).run []).1 = some type.tag
  | .string _, idx => ((nextType data idx).run []).1 = some .string
  | .vector type _, idx => ((nextType data idx).run []).1 = some type.arrayTag
  | .object fields, idx => ((nextType data idx).run []).1 = some .object ∧
      data.cells[idx + 1]?.map UInt8.toNat = some fields.length ∧
      AllMatch host data fields (u32 (idx + 2))

/-- Each destination matches where the reader stands after the ones before. -/
def AllMatch (host : Host) (data : Region Byte) : List Value → ℕ → Prop
  | [], _ => True
  | dest :: dests, idx => Matches host data dest idx ∧
      AllMatch host data dests ((readValue host data dest idx).run []).1.idx

end

/-- Some matching destinations take all items, and whenever matching
destinations do, what they hold is written back as the same bytes. -/
def WritesBack (reader writer : Host) (data : Region Byte) : Prop :=
  (∃ dests, AllMatch reader data dests 0 ∧
    ((readFromPacket reader data dests 0).run []).1.idx = data.size) ∧
  ∀ dests, AllMatch reader data dests 0 →
    ((readFromPacket reader data dests 0).run []).1.idx = data.size →
    ((readFromPacket reader data dests 0).run []).1.status = .done ∧
      writeToPacket writer [] ((readFromPacket reader data dests 0).run []).1.dt =
        (.done, data.cells)

/-- A well-formed item in which no object is empty. -/
inductive Filled : List Byte → Prop
  | leaf {bytes : List Byte} (hleaf : Leaf bytes) : Filled bytes
  | object {fields : List (List Byte)} {count : Byte} (hpos : count ≠ 0)
      (hcount : fields.length = count.toNat) (hfields : ∀ field ∈ fields, Filled field) :
      Filled (PacketType.object.toByte :: count :: fields.flatten)

/-! ## Items of a packet without empty objects -/

section Items

variable {bytes : List Byte}

theorem skip_leaf (hlength : bytes.length < 2 ^ 32) {pos : ℕ} {item rest : List Byte}
    (hleaf : Leaf item) (hdrop : bytes.drop pos = item ++ rest) :
    skip bytes pos = some (pos + item.length) := by
  have hle := congrArg List.length hdrop
  have hpos := hleaf.length_pos
  rw [List.length_drop, List.length_append] at hle
  have hnext : u32 (pos + item.length) = pos + item.length := u32_of_lt (by omega)
  unfold skip
  rw [hdrop, hleaf.token_append]
  exact congrArg some hnext

/-- Walking over an item, one meets what is in it. -/
theorem Filled.of_item (hlength : bytes.length < 2 ^ 32) (hfull : ¬ HasEmptyObject bytes)
    {item : List Byte} (hitem : Item item) {pos : ℕ} {rest : List Byte}
    (hpasses : Passes bytes 0 pos) (hdrop : bytes.drop pos = item ++ rest) :
    Filled item ∧ Passes bytes 0 (pos + item.length) := by
  induction hitem generalizing pos rest with
  | leaf hleaf =>
      exact ⟨.leaf hleaf, Relation.ReflTransGen.tail hpasses (skip_leaf hlength hleaf hdrop)⟩
  | @object fields count hcount _ ih =>
      have hobject : bytes.drop pos =
          PacketType.object.toByte :: count :: (fields.flatten ++ rest) := hdrop
      have hle := congrArg List.length hobject
      simp only [List.length_drop, List.length_cons] at hle
      have hpos : count ≠ 0 := by
        rintro rfl
        exact hfull ⟨pos, hpasses, by rw [hobject, token_object]; rfl⟩
      have hheader := skip_object hobject
      rw [u32_of_lt (by omega)] at hheader
      have hfields : ∀ (items : List (List Byte)) (start : ℕ), items ⊆ fields →
          Passes bytes 0 start → bytes.drop start = items.flatten ++ rest →
            (∀ item ∈ items, Filled item) ∧
              Passes bytes 0 (start + items.flatten.length) := by
        intro items
        induction items with
        | nil =>
            intro start _ hstart _
            exact ⟨by simp, by simpa using hstart⟩
        | cons item items ihitems =>
            intro start hsubset hstart hdrop
            rw [List.flatten_cons, List.append_assoc] at hdrop
            obtain ⟨hitem, hnext⟩ := ih item (hsubset (by simp)) hstart hdrop
            have hrest : bytes.drop (start + item.length) = items.flatten ++ rest := by
              rw [← List.drop_drop, hdrop, List.drop_left]
            obtain ⟨hitems, hlast⟩ := ihitems _ (fun x hx => hsubset (by simp [hx]))
              hnext hrest
            refine ⟨?_, ?_⟩
            · intro x hx
              rcases List.mem_cons.mp hx with rfl | hx
              · exact hitem
              · exact hitems x hx
            · rwa [List.flatten_cons, List.length_append, ← Nat.add_assoc]
      have hbody : bytes.drop (pos + 2) = fields.flatten ++ rest := by
        rw [← List.drop_drop, hobject]
        rfl
      obtain ⟨hfilled, hlast⟩ := hfields fields (pos + 2) (List.Subset.refl _)
        (Relation.ReflTransGen.tail hpasses hheader) hbody
      refine ⟨.object hpos hcount hfilled, ?_⟩
      rwa [List.length_cons, List.length_cons, Nat.add_assoc, Nat.add_comm _ 1,
        Nat.add_comm _ 1, ← Nat.add_assoc 1 1, ← Nat.add_assoc]

theorem filled_of_wellFormed (hlength : bytes.length < 2 ^ 32) (hwell : WellFormed bytes)
    (hfull : ¬ HasEmptyObject bytes) :
    ∃ items : List (List Byte), (∀ item ∈ items, Filled item) ∧ bytes = items.flatten := by
  obtain ⟨items, hitems, hbytes⟩ := hwell
  have hwalk : ∀ (later : List (List Byte)) (pos : ℕ), later ⊆ items →
      Passes bytes 0 pos → bytes.drop pos = later.flatten →
        ∀ item ∈ later, Filled item := by
    intro later
    induction later with
    | nil => simp
    | cons item later ih =>
        intro pos hsubset hpasses hdrop
        rw [List.flatten_cons] at hdrop
        obtain ⟨hitem, hnext⟩ := Filled.of_item hlength hfull
          (hitems item (hsubset (by simp))) hpasses hdrop
        have hrest : bytes.drop (pos + item.length) = later.flatten := by
          rw [← List.drop_drop, hdrop, List.drop_left]
        intro x hx
        rcases List.mem_cons.mp hx with rfl | hx
        · exact hitem
        · exact ih _ (fun y hy => hsubset (by simp [hy])) hnext hrest x hx
  exact ⟨items, hwalk items 0 (List.Subset.refl _) .refl (by rw [List.drop_zero, hbytes]),
    hbytes⟩

end Items

/-! ## A payload is written as its item -/

theorem toNat_ofNat_beValue (type : Scalar) {body : List Byte}
    (hbody : body.length = type.size) :
    (BitVec.ofNat type.bits (beValue body)).toNat = beValue body := by
  rw [BitVec.toNat_ofNat, Scalar.two_pow_bits, ← hbody]
  exact Nat.mod_eq_of_lt (beValue_lt body)

theorem length_words (bits size count : ℕ) (body : List Byte) :
    (words bits size count body).length = count := by
  induction count generalizing body with
  | zero => rfl
  | succ count ih => rw [words, List.length_cons, ih]

theorem flatMap_words (type : Scalar) {count : ℕ} {body : List Byte}
    (hbody : body.length = count * type.size) :
    ((words type.bits type.size count body).flatMap fun elm =>
      beBytes type.size elm.toNat) = body := by
  induction count generalizing body with
  | zero =>
      rw [Nat.zero_mul, List.length_eq_zero_iff] at hbody
      rw [hbody]
      rfl
  | succ count ih =>
      rw [Nat.succ_mul] at hbody
      have htake : (body.take type.size).length = type.size := by
        rw [List.length_take]
        omega
      have hword : beBytes type.size (beValue (body.take type.size)) =
          body.take type.size := by
        have hself := beBytes_beValue (body.take type.size)
        rwa [htake] at hself
      rw [words, List.flatMap_cons, toNat_ofNat_beValue type htake, hword,
        ih (by rw [List.length_drop]; omega), List.take_append_drop]

theorem encode_payload_scalar (type : Scalar) (dt : BitVec type.bits) {body : List Byte}
    (hbody : body.length = type.size) :
    encode (payload (type.tag.toByte :: body) (.scalar type dt)) =
      type.tag.toByte :: body := by
  rw [payload, encode, List.tail_cons, toNat_ofNat_beValue type hbody, ← hbody,
    beBytes_beValue]

theorem encode_payload_string (dt : List Byte) {chars : List Byte} (hchars : 0 ∉ chars) :
    encode (payload (PacketType.string.toByte :: (chars ++ [0])) (.string dt)) =
      PacketType.string.toByte :: (chars ++ [0]) := by
  have hself : chars.takeWhile (· ≠ 0) = chars := by
    rw [List.takeWhile_eq_self_iff]
    intro char hchar
    have hne : char ≠ 0 := fun h => hchars (h ▸ hchar)
    simpa using hne
  rw [payload, encode, List.tail_cons, takeWhile_append_zero hchars, hself]

theorem encode_payload_vector (type : Scalar) (dt : List (BitVec type.bits))
    {high low : Byte} {body : List Byte}
    (hbody : body.length = beValue [high, low] * type.size) :
    encode (payload (type.arrayTag.toByte :: high :: low :: body) (.vector type dt)) =
      type.arrayTag.toByte :: high :: low :: body := by
  rw [payload, encode]
  simp only [List.tail_cons, List.take_succ_cons, List.take_zero, List.drop_succ_cons,
    List.drop_zero, length_words]
  rw [flatMap_words type hbody, show beBytes 2 (beValue [high, low]) = [high, low] from
    beBytes_beValue [high, low]]
  rfl

/-! ## Matching reads -/

section Reads

variable {host : Host} {data : Region Byte} {idx : ℕ} {rest : List Byte}

theorem nextType_head {found : PacketType} {body : List Byte}
    (hdrop : data.cells.drop idx = found.toByte :: body) (log : List ℕ) :
    ((nextType data idx).run log).1 = some found := by
  have hlt := Region.lt_size_of_head hdrop
  simp only [nextType, if_neg (not_le.mpr hlt), Probe.run_bind, Region.run_read,
    Region.value_head hdrop, Probe.run_pure, PacketType.ofByte_toByte]

theorem nextType_end (hidx : data.size ≤ idx) (log : List ℕ) :
    ((nextType data idx).run log).1 = some .unknown := by
  simp only [nextType, if_pos hidx, Probe.run_pure]

/-- Nothing matches at the end. -/
theorem not_matches_of_unknown
    (hunknown : ((nextType data idx).run []).1 = some .unknown) :
    ∀ dest, ¬ Matches host data dest idx
  | .scalar type _, hmatches => by
      rw [Matches, hunknown] at hmatches
      cases type <;> cases hmatches
  | .string _, hmatches => by
      rw [Matches, hunknown] at hmatches
      cases hmatches
  | .vector type _, hmatches => by
      rw [Matches, hunknown] at hmatches
      cases type <;> cases hmatches
  | .object _, hmatches => by
      rw [Matches, hunknown] at hmatches
      cases hmatches.1

/-- What a matching read of an item returns: a value that is written as the item. -/
def Decodes (host : Host) (data : Region Byte) (dest : Value) (idx : ℕ)
    (item : List Byte) : Prop :=
  ∃ value, Writable value ∧ encode value = item ∧
    ∀ log, ((readValue host data dest idx).run log).1 = ⟨.done, value, idx + item.length⟩

/-- What matching reads of `count` items return. -/
def AllDecode (host : Host) (data : Region Byte) (dests : List Value) (idx : ℕ)
    (items : List (List Byte)) : Prop :=
  ∃ values, values.length = items.length ∧ AllWritable values ∧
    encodeAll values = items.flatten ∧
    ∀ log, ((readFromPacket host data dests idx).run log).1 =
      ⟨.done, values, idx + items.flatten.length⟩

theorem decodes_leaf {dest : Value} (hbuiltIn : BuiltIn dest) {item : List Byte}
    (hleaf : Leaf item) {found : PacketType} (hfound : found ∈ accepted dest)
    (hhead : item.head? = some found.toByte) (hdrop : data.cells.drop idx = item ++ rest)
    (hidx : idx + item.length < 2 ^ 32) (hwritable : Writable (payload item dest))
    (hencode : encode (payload item dest) = item) : Decodes host data dest idx item :=
  ⟨payload item dest, hwritable, hencode, fun log =>
    (readValue_of_leaf hbuiltIn hleaf hfound hhead hdrop hidx log).1⟩

theorem head_of_item {item : List Byte} (hitem : Filled item) :
    ∃ found body, item = PacketType.toByte found :: body := by
  cases hitem with
  | leaf hleaf =>
      obtain ⟨found, tail, rfl, _⟩ := exists_head_of_leaf hleaf
      exact ⟨found, tail, rfl⟩
  | object => exact ⟨.object, _, rfl⟩

/-- The item at the index starts with the tag that `next_type` names. -/
theorem head_of_nextType {item : List Byte} (hitem : Filled item) {type : PacketType}
    (hdrop : data.cells.drop idx = item ++ rest)
    (htype : ((nextType data idx).run []).1 = some type) :
    ∃ body, item = type.toByte :: body := by
  obtain ⟨found, body, rfl⟩ := head_of_item hitem
  rw [@nextType_head data idx found (body ++ rest) hdrop, Option.some.injEq] at htype
  exact ⟨body, htype ▸ rfl⟩

/-- An item whose tag is not that of an object is a leaf. -/
theorem leaf_of_head {type : PacketType} {body : List Byte}
    (hitem : Filled (type.toByte :: body)) (htype : type ≠ .object) :
    Leaf (type.toByte :: body) := by
  generalize hbytes : type.toByte :: body = item at hitem
  cases hitem with
  | leaf hleaf => exact hleaf
  | object =>
      rw [List.cons.injEq] at hbytes
      exact absurd (PacketType.toByte_injective hbytes.1) htype

theorem fields_of_object {body : List Byte}
    (hitem : Filled (PacketType.object.toByte :: body)) :
    ∃ (count : Byte) (fields : List (List Byte)), body = count :: fields.flatten ∧
      count ≠ 0 ∧ fields.length = count.toNat ∧ ∀ field ∈ fields, Filled field := by
  generalize hbytes : PacketType.object.toByte :: body = item at hitem
  cases hitem with
  | leaf hleaf =>
      obtain ⟨found, tail, rfl, hfound⟩ := exists_head_of_leaf hleaf
      rw [List.cons.injEq] at hbytes
      exact absurd (PacketType.toByte_injective hbytes.1.symm) hfound
  | @object fields count hpos hcount hfields =>
      rw [List.cons.injEq] at hbytes
      exact ⟨count, fields, hbytes.2, hpos, hcount, hfields⟩

/-- The count of an object, as the reader finds it. -/
theorem count_of_getElem? {count : Byte} {body : List Byte} {length : ℕ}
    (hdrop : data.cells.drop idx = PacketType.object.toByte :: count :: body)
    (hcount : data.cells[idx + 1]?.map UInt8.toNat = some length) :
    count.toNat = length := by
  have hcell : data.cells[idx + 1]? = some count := by
    rw [← List.getElem?_drop, hdrop]
    rfl
  rw [hcell] at hcount
  exact Option.some.inj hcount

mutual

/-- A matching read of an item without empty objects returns a value that is
written as that item. -/
theorem Matches.decodes : ∀ (dest : Value) (idx : ℕ) (item rest : List Byte),
    Matches host data dest idx → Filled item → data.cells.drop idx = item ++ rest →
    idx + item.length < 2 ^ 32 → Decodes host data dest idx item
  | .scalar type dt, idx, item, rest, hmatches, hitem, hdrop, hidx => by
      rw [Matches] at hmatches
      obtain ⟨body, rfl⟩ := head_of_nextType hitem hdrop hmatches
      have hleaf := leaf_of_head hitem (by cases type <;> simp [Scalar.tag])
      have hbody := Leaf.body_of_scalar type.layout_tag hleaf
      exact @decodes_leaf host data idx rest (.scalar type dt) trivial _ hleaf _
        (tag_mem_accepted type dt) rfl hdrop hidx trivial
        (encode_payload_scalar type dt hbody)
  | .string dt, idx, item, rest, hmatches, hitem, hdrop, hidx => by
      rw [Matches] at hmatches
      obtain ⟨body, rfl⟩ := head_of_nextType hitem hdrop hmatches
      have hleaf := leaf_of_head hitem (by simp)
      obtain ⟨chars, hchars, rfl⟩ := Leaf.body_of_string hleaf
      exact @decodes_leaf host data idx rest (.string dt) trivial _ hleaf _
        (List.mem_singleton_self _) rfl hdrop hidx trivial (encode_payload_string dt hchars)
  | .vector type dt, idx, item, rest, hmatches, hitem, hdrop, hidx => by
      rw [Matches] at hmatches
      obtain ⟨body, rfl⟩ := head_of_nextType hitem hdrop hmatches
      have hleaf := leaf_of_head hitem (by cases type <;> simp [Scalar.arrayTag])
      obtain ⟨high, low, elements, rfl, hbody⟩ := Leaf.body_of_array type.layout_arrayTag hleaf
      have hcount : beValue [high, low] < 2 ^ 16 := by
        simpa using beValue_lt [high, low]
      refine @decodes_leaf host data idx rest (.vector type dt) trivial _ hleaf _
        (arrayTag_mem_accepted type dt) rfl hdrop hidx ?_
        (encode_payload_vector type dt hbody)
      rw [payload, Writable, length_words]
      simp only [List.tail_cons, List.take_succ_cons, List.take_zero]
      omega
  | .object dests, idx, item, rest, hmatches, hitem, hdrop, hidx => by
      rw [Matches] at hmatches
      obtain ⟨htype, hlength, hmatch⟩ := hmatches
      obtain ⟨body, rfl⟩ := head_of_nextType hitem hdrop htype
      obtain ⟨count, fields, rfl, hpos, hcount, hfields⟩ := fields_of_object hitem
      rw [List.cons_append, List.cons_append] at hdrop
      rw [List.length_cons, List.length_cons] at hidx
      rw [u32_of_lt (by omega)] at hmatch
      have hdests := count_of_getElem? hdrop hlength
      have hbyte : count.toNat < 256 := count.toNat_lt
      have hne : count.toNat ≠ 0 := fun h => hpos (UInt8.toNat_inj.mp h)
      obtain ⟨values, hvalues, hwritable, hencode, hread⟩ := AllMatch.decodes dests (idx + 2)
        fields rest hmatch hfields (drop_tail (drop_tail hdrop)) (by omega) (by omega)
      refine ⟨.object values, ?_, ?_, fun log => ?_⟩
      · rw [Writable]
        exact ⟨by omega, by omega, hwritable⟩
      · rw [encode, hencode, hvalues, hcount, UInt8.ofNat_toNat]
      · have hargs : numberOfArgs dests = count.toNat := by
          rw [numberOfArgs, ← hdests]
          exact Nat.mod_eq_of_lt (by omega)
        have hheader := @readObjectHeader_at_object data idx count.toNat count
          (fields.flatten ++ rest) hdrop (by omega) log
        rw [if_neg hpos, if_neg (not_not.mpr rfl), u32_of_lt (by omega)] at hheader
        simp only [readValue, Probe.run_bind, hargs, hheader, if_true, hread,
          Probe.run_pure]
        rw [List.length_cons, List.length_cons, Nat.add_assoc idx 2, Nat.add_comm 2]

theorem AllMatch.decodes : ∀ (dests : List Value) (idx : ℕ) (items : List (List Byte))
    (rest : List Byte), AllMatch host data dests idx → (∀ item ∈ items, Filled item) →
    data.cells.drop idx = items.flatten ++ rest → dests.length = items.length →
    idx + items.flatten.length < 2 ^ 32 → AllDecode host data dests idx items
  | [], idx, items, rest, _, _, _, hlength, _ => by
      obtain rfl := List.length_eq_zero_iff.mp hlength.symm
      exact ⟨[], rfl, trivial, rfl, fun log => rfl⟩
  | dest :: dests, idx, [], rest, _, _, _, hlength, _ => by simp at hlength
  | dest :: dests, idx, item :: items, rest, hmatch, hitems, hdrop, hlength, hidx => by
      rw [AllMatch] at hmatch
      rw [List.flatten_cons, List.append_assoc] at hdrop
      rw [List.flatten_cons, List.length_append] at hidx
      obtain ⟨value, hwritable, hencode, hread⟩ := Matches.decodes dest idx item
        (items.flatten ++ rest) hmatch.1 (hitems item (by simp)) hdrop (by omega)
      have hnext := hmatch.2
      rw [hread []] at hnext
      obtain ⟨values, hvalues, hwritables, hencodes, hreads⟩ := AllMatch.decodes dests
        (idx + item.length) items rest hnext (fun x hx => hitems x (by simp [hx]))
        (Region.drop_add hdrop) (by simpa using hlength) (by omega)
      refine ⟨value :: values, by simp [hvalues], ?_, ?_, fun log => ?_⟩
      · rw [AllWritable]
        exact ⟨hwritable, hwritables⟩
      · rw [encodeAll, hencode, hencodes, List.flatten_cons]
      · simp only [readFromPacket, Probe.run_bind, hread, if_true, hreads, Probe.run_pure]
        rw [List.flatten_cons, List.length_append, Nat.add_assoc]

end

/-- Items that have matching destinations one by one have them in a row. -/
theorem exists_allMatch {items : List (List Byte)} (hitems : ∀ item ∈ items, Filled item)
    (hexists : ∀ item ∈ items, ∀ {idx : ℕ} {rest : List Byte},
      data.cells.drop idx = item ++ rest → idx + item.length < 2 ^ 32 →
        ∃ dest, Matches host data dest idx)
    (hdrop : data.cells.drop idx = items.flatten ++ rest)
    (hidx : idx + items.flatten.length < 2 ^ 32) :
    ∃ dests, dests.length = items.length ∧ AllMatch host data dests idx := by
  induction items generalizing idx with
  | nil => exact ⟨[], rfl, trivial⟩
  | cons item items ih =>
      rw [List.flatten_cons, List.append_assoc] at hdrop
      rw [List.flatten_cons, List.length_append] at hidx
      obtain ⟨dest, hdest⟩ := hexists item (by simp) hdrop (by omega)
      obtain ⟨value, _, _, hread⟩ := Matches.decodes dest idx item _ hdest
        (hitems item (by simp)) hdrop (by omega)
      obtain ⟨dests, hlength, hmatch⟩ := ih (fun x hx => hitems x (by simp [hx]))
        (fun x hx => hexists x (by simp [hx])) (Region.drop_add hdrop) (by omega)
      refine ⟨dest :: dests, by simp [hlength], hdest, ?_⟩
      rw [hread []]
      exact hmatch

theorem exists_matches {item : List Byte} (hitem : Filled item)
    (hdrop : data.cells.drop idx = item ++ rest) (hidx : idx + item.length < 2 ^ 32) :
    ∃ dest, Matches host data dest idx := by
  induction hitem generalizing idx rest with
  | leaf hleaf =>
      cases hleaf with
      | @scalar type size body hlayout =>
          obtain ⟨scalar, rfl⟩ := exists_scalar_of_layout hlayout
          exact ⟨.scalar scalar 0, @nextType_head data idx _ (body ++ rest) hdrop []⟩
      | string => exact ⟨.string [], nextType_head hdrop []⟩
      | @array type size high low body hlayout =>
          obtain ⟨scalar, rfl⟩ := exists_scalar_of_arrayLayout hlayout
          exact ⟨.vector scalar [], nextType_head hdrop []⟩
  | @object fields count hpos hcount hfields ih =>
      rw [List.cons_append, List.cons_append] at hdrop
      rw [List.length_cons, List.length_cons] at hidx
      obtain ⟨dests, hlength, hmatch⟩ := @exists_allMatch host data (idx + 2) rest fields
        hfields ih (drop_tail (drop_tail hdrop)) (by omega)
      refine ⟨.object dests, nextType_head hdrop [], ?_, ?_⟩
      · rw [← List.getElem?_drop, hdrop, hlength, hcount]
        rfl
      · rwa [u32_of_lt (by omega)]

/-- Matching destinations stop where the items do. -/
theorem length_le_of_allMatch {dests : List Value} {items : List (List Byte)}
    (hitems : ∀ item ∈ items, Filled item) (hmatch : AllMatch host data dests idx)
    (hdrop : data.cells.drop idx = items.flatten)
    (hidx : idx + items.flatten.length < 2 ^ 32) : dests.length ≤ items.length := by
  induction dests generalizing idx items with
  | nil => exact Nat.zero_le _
  | cons dest dests ih =>
      rw [AllMatch] at hmatch
      cases items with
      | nil =>
          have hend := nextType_end (List.drop_eq_nil_iff.mp hdrop) []
          exact absurd hmatch.1 (not_matches_of_unknown hend dest)
      | cons item items =>
          rw [List.flatten_cons] at hdrop
          rw [List.flatten_cons, List.length_append] at hidx
          obtain ⟨value, _, _, hread⟩ := Matches.decodes dest idx item items.flatten
            hmatch.1 (hitems item (by simp)) hdrop (by omega)
          have hnext := hmatch.2
          simp only [hread] at hnext
          have hle := ih (fun x hx => hitems x (by simp [hx])) hnext
            (Region.drop_add hdrop) (by omega)
          rw [List.length_cons, List.length_cons]
          omega

theorem writesBack_of_filled (writer : Host) (hsize : data.size < 2 ^ 32)
    {items : List (List Byte)} (hitems : ∀ item ∈ items, Filled item)
    (hcells : data.cells = items.flatten) : WritesBack host writer data := by
  have hlength : items.flatten.length = data.size := by rw [← hcells, Region.size]
  have hstart : data.cells.drop 0 = items.flatten ++ [] := by simpa using hcells
  constructor
  · obtain ⟨dests, hcount, hmatch⟩ := @exists_allMatch host data 0 [] items hitems
      (fun item hitem => exists_matches (hitems item hitem)) hstart (by omega)
    obtain ⟨values, _, _, _, hread⟩ := AllMatch.decodes dests 0 items [] hmatch hitems
      hstart hcount (by omega)
    refine ⟨dests, hmatch, ?_⟩
    rw [hread [], Nat.zero_add, hlength]
  · intro dests hmatch hend
    have hle := length_le_of_allMatch hitems hmatch (by simpa using hcells) (by omega)
    -- The destinations take the first items; as they end at the end, these are all.
    have hsplit : items.flatten =
        (items.take dests.length).flatten ++ (items.drop dests.length).flatten := by
      rw [← List.flatten_append, List.take_append_drop]
    have htotal := congrArg List.length hsplit
    rw [List.length_append] at htotal
    obtain ⟨values, _, hwritable, hencode, hread⟩ := AllMatch.decodes dests 0
      (items.take dests.length) (items.drop dests.length).flatten hmatch
      (fun x hx => hitems x (List.mem_of_mem_take hx)) (by rw [List.drop_zero, hcells, hsplit])
      (by rw [List.length_take, Nat.min_eq_left hle]) (by omega)
    rw [hread []] at hend
    have hrest : (items.drop dests.length).flatten = [] := by
      apply List.eq_nil_of_length_eq_zero
      simp only at hend
      omega
    rw [hrest, List.append_nil] at hsplit
    rw [hread []]
    refine ⟨rfl, ?_⟩
    rw [writeToPacket_eq writer [] values hwritable, hencode, List.nil_append, hcells,
      ← hsplit]

end Reads

/-! ## Accepted packets -/

/-- An accepted packet without empty objects, its index in range, is the
encoding of what matching reads return, on any two hosts. -/
theorem writesBack_of_isValid (validator reader writer : Host) {bytes : List Byte}
    (hlength : bytes.length < 2 ^ 32)
    (hends : ∀ stop owed, Ends bytes (.overrun stop owed) → stop + 9 * owed < 2 ^ 32)
    (hfull : ¬ HasEmptyObject bytes) (wild wild' : List ℕ → ℕ → Byte) {fuel : ℕ}
    (hfuel : bytes.length + 2 ≤ fuel)
    (hvalid : ((isValid validator ⟨bytes, wild⟩ fuel).run []).1 = some true) :
    WritesBack reader writer ⟨bytes, wild'⟩ := by
  have hwell := wellFormed_of_isValid hlength hends hfuel hvalid
  obtain ⟨items, hitems, hbytes⟩ := filled_of_wellFormed hlength hwell hfull
  exact writesBack_of_filled writer hlength hitems hbytes

/-- An object of one string. -/
theorem writesBack_of_isValid_object :
    WritesBack .big .little ⟨[0x40, 0x01, 0x20, 0x61, 0x00], fun _ _ => 0⟩ := by
  refine @writesBack_of_isValid .little .big .little [0x40, 0x01, 0x20, 0x61, 0x00]
    (by decide) (fun stop owed hends => ?_) (fun hempty => ?_) (fun _ _ => 0)
    (fun _ _ => 0) 7 (by decide) (by decide +kernel)
  · rw [← scan_eq_iff, show scan 0 0 [0x40, 0x01, 0x20, 0x61, 0x00] = .complete by
      decide +kernel] at hends
    cases hends
  · have hstring : Blocked [0x40, 0x01, 0x20, 0x61, 0x00] 2 :=
      Blocked.of_skip hempty (by decide +kernel) (by decide +kernel)
    have hend : Blocked [0x40, 0x01, 0x20, 0x61, 0x00] 5 :=
      hstring.of_skip (by decide +kernel) (by decide +kernel)
    exact absurd hend.lt_length (by decide)

theorem not_writesBack_replicate {length : ℕ} (hlength : length = 2 ^ 32)
    (wild : List ℕ → ℕ → Byte) (reader writer : Host) :
    ¬ HasEmptyObject (List.replicate length 0) ∧
      ¬ WritesBack reader writer ⟨List.replicate length 0, wild⟩ := by
  obtain ⟨pred, rfl⟩ : ∃ pred, length = pred + 1 :=
    Nat.exists_eq_succ_of_ne_zero (by omega)
  have hdrop : (List.replicate (pred + 1) (0 : Byte)).drop 0 =
      PacketType.unknown.toByte :: List.replicate pred 0 := rfl
  constructor
  · intro hempty
    obtain ⟨next, hskip⟩ := Blocked.exists_skip hempty
    simp [skip, hdrop, token, PacketType.layout] at hskip
  · rintro ⟨⟨dests, hmatch, hend⟩, _⟩
    cases dests with
    | nil => simp [readFromPacket, Region.size] at hend
    | cons dest dests =>
        rw [AllMatch] at hmatch
        have hunknown := @nextType_head ⟨List.replicate (pred + 1) 0, wild⟩ 0 .unknown
          (List.replicate pred 0) hdrop []
        exact not_matches_of_unknown hunknown dest hmatch.1

/-- `2 ^ 32` zero bytes are accepted, and nothing reads them. -/
theorem not_writesBack_zeros :
    ((isValid .little ⟨List.replicate (2 ^ 32) 0, fun _ _ => 0⟩ 1).run []).1 = some true ∧
      ¬ HasEmptyObject (List.replicate (2 ^ 32) 0) ∧
      ¬ WritesBack .little .little ⟨List.replicate (2 ^ 32) 0, fun _ _ => 0⟩ :=
  ⟨(isValid_zeros rfl _).1, not_writesBack_replicate rfl _ _ _⟩

end Sednl.Canonical
