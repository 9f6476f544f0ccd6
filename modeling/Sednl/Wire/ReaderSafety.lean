import Sednl.Wire.Acceptance
import Sednl.Wire.Reader

/-!
# Reading a validated packet

The readers check nothing but tags, so their safety is the validator's: on a
packet it accepted, a reader that stands between two tokens of the flat reading
finds a whole token there, stays inside the data, and stands between two tokens
afterwards.  Failed reads and object headers keep that invariant too.
-/

namespace Sednl.ReaderSafety

open Sednl.Endian
open Sednl.Memory
open Sednl.Tag
open Sednl.Word
open Sednl.Grammar
open Sednl.Packet
open Sednl.Reader
open Sednl.Validator
open Sednl.Acceptance

/-- A position between two tokens of the flat reading of `bytes`. -/
def Between (bytes : List Byte) (idx : ℕ) : Prop :=
  idx ≤ bytes.length ∧ ∃ owed, Opens owed (bytes.take idx)

/-- The end of `bytes`, or the first byte of an item, nested or not. -/
def AtItem (bytes : List Byte) (idx : ℕ) : Prop :=
  idx = bytes.length ∨
    ∃ owed item rest, Opens owed (bytes.take idx) ∧
      bytes.drop idx = item ++ rest ∧ Item item

/-- What one built-in read may do: nothing at the end, an exception naming the
tag it found, or the payload of the item and a step to the next one. -/
inductive Honours (bytes : List Byte) (idx : ℕ) (dt : Value) : Reading Value → Prop
  | ended (hidx : idx = bytes.length) : Honours bytes idx dt ⟨.done, dt, idx⟩
  | mismatch {item rest : List Byte} {found : PacketType}
      (hdrop : bytes.drop idx = item ++ rest) (hitem : Item item)
      (hhead : item.head? = some found.toByte) (hfound : found ∉ accepted dt) :
      Honours bytes idx dt ⟨.threw (exceptionByType (some found)), dt, idx⟩
  | matched {item rest : List Byte} {found : PacketType}
      (hdrop : bytes.drop idx = item ++ rest) (hitem : Item item)
      (hhead : item.head? = some found.toByte) (hfound : found ∈ accepted dt) :
      Honours bytes idx dt ⟨.done, payload item dt, idx + item.length⟩

inductive Operation where
  /-- `operator>>`, `read_as_object` and `unserialize`, by destination. -/
  | read (dt : Value)
  | nextType

/-- The reader's index after an operation whose exception is caught. -/
def Operation.run (host : Host) (data : Region Byte) (idx : ℕ) :
    Operation → Probe ℕ
  | .read dt => do
      let reading ← readValue host data dt idx
      pure reading.idx
  | .nextType => do
      let _ ← Reader.nextType data idx
      pure idx

def runAll (host : Host) (data : Region Byte) : List Operation → ℕ → Probe ℕ
  | [], idx => pure idx
  | operation :: operations, idx => do
      let idx ← operation.run host data idx
      runAll host data operations idx

/-! ## Items at a position -/

/-- A reading that completes is a list of items, at least one for each field
that was owed. -/
theorem items_of_scan {position owed : ℕ} {rest : List Byte}
    (hscan : scan position owed rest = .complete) :
    ∃ items : List (List Byte), (∀ item ∈ items, Item item) ∧
      rest = items.flatten ∧ owed ≤ items.length := by
  induction hlength : rest.length using Nat.strong_induction_on
    generalizing position owed rest with
  | _ length ih =>
      subst hlength
      cases htoken : token rest with
      | leaf length =>
          obtain ⟨item, rest, rfl, hleaf, rfl⟩ := exists_leaf_of_token htoken
          rw [scan_leaf hleaf] at hscan
          have hpos := hleaf.length_pos
          obtain ⟨items, hitems, rfl, howed⟩ := ih _ (by simp; omega) hscan rfl
          refine ⟨item :: items, ?_, by simp, by simp; omega⟩
          intro x hx
          rcases List.mem_cons.mp hx with rfl | hx
          · exact .leaf hleaf
          · exact hitems x hx
      | header fields =>
          obtain ⟨count, rest, rfl, rfl⟩ := exists_header_of_token htoken
          rw [scan_object] at hscan
          obtain ⟨items, hitems, rfl, howed⟩ := ih _ (by simp) hscan rfl
          have hobject : Item (PacketType.object.toByte :: count ::
              (items.take count.toNat).flatten) :=
            .object (by simp; omega) fun x hx => hitems x (List.mem_of_mem_take hx)
          refine ⟨(PacketType.object.toByte :: count ::
            (items.take count.toNat).flatten) :: items.drop count.toNat, ?_, ?_, ?_⟩
          · intro x hx
            rcases List.mem_cons.mp hx with rfl | hx
            · exact hobject
            · exact hitems x (List.mem_of_mem_drop hx)
          · rw [List.flatten_cons, List.cons_append, List.cons_append,
              ← List.flatten_append, List.take_append_drop]
          · simp
            omega
      | cut length =>
          rw [scan_of_cut htoken] at hscan
          simp at hscan
      | unterminated =>
          rw [scan_of_unterminated htoken] at hscan
          simp at hscan
      | malformed =>
          cases rest with
          | nil =>
              rw [scan] at hscan
              split at hscan
              · exact ⟨[], by simp, rfl, by simp; omega⟩
              · simp at hscan
          | cons tag body =>
              rw [scan_of_malformed (by simp) htoken] at hscan
              simp at hscan

section WellFormed

variable {bytes : List Byte} {idx : ℕ}

theorem Between.scan_drop (hwell : WellFormed bytes) (hidx : Between bytes idx) :
    ∃ owed, Opens owed (bytes.take idx) ∧
      scan idx owed (bytes.drop idx) = .complete := by
  obtain ⟨hle, owed, hopens⟩ := hidx
  have hscan := hopens.scan_append (bytes.drop idx)
  rw [List.take_append_drop, (wellFormed_iff_scan bytes).mp hwell, List.length_take,
    Nat.min_eq_left hle] at hscan
  exact ⟨owed, hopens, hscan.symm⟩

/-- What a reader finds: the end, a leaf, or the header of an object. -/
theorem Between.cases (hwell : WellFormed bytes) (hidx : Between bytes idx) :
    idx = bytes.length ∨
      (∃ item rest, bytes.drop idx = item ++ rest ∧ Leaf item ∧
        Between bytes (idx + item.length)) ∨
      ∃ item rest count body, bytes.drop idx = item ++ rest ∧ Item item ∧
        item ++ rest = PacketType.object.toByte :: count :: body ∧
        item.head? = some PacketType.object.toByte ∧ Between bytes (idx + 2) := by
  obtain ⟨owed, hopens, hscan⟩ := hidx.scan_drop hwell
  have hbetween : ∀ front rest, bytes.drop idx = front ++ rest →
      (∃ owed, Opens owed (bytes.take idx ++ front)) →
      Between bytes (idx + front.length) := by
    rintro front rest hdrop hfront
    refine ⟨?_, ?_⟩
    · have := congrArg List.length hdrop
      have := hidx.1
      simp at *
      omega
    · rwa [List.take_add, hdrop, List.take_left]
  cases htoken : token (bytes.drop idx) with
  | leaf length =>
      obtain ⟨item, rest, hdrop, hleaf, rfl⟩ := exists_leaf_of_token htoken
      exact .inr (.inl ⟨item, rest, hdrop, hleaf,
        hbetween item rest hdrop ⟨_, hopens.leaf hleaf⟩⟩)
  | header fields =>
      obtain ⟨count, body, hdrop, rfl⟩ := exists_header_of_token htoken
      obtain ⟨items, hitems, hflatten, _⟩ := items_of_scan hscan
      cases items with
      | nil =>
          rw [hflatten] at hdrop
          simp at hdrop
      | cons item items =>
          rw [List.flatten_cons] at hflatten
          have hitem := hitems item (by simp)
          have hne : item ≠ [] := by
            cases hitem with
            | leaf hleaf => exact List.ne_nil_of_length_pos hleaf.length_pos
            | object => simp
          have hhead : item.head? = some PacketType.object.toByte := by
            rw [hflatten] at hdrop
            cases item with
            | nil => exact absurd rfl hne
            | cons head tail => simpa using congrArg List.head? hdrop
          exact .inr (.inr ⟨item, items.flatten, count, body, hflatten, hitem,
            hflatten ▸ hdrop, hhead,
            hbetween [_, _] body hdrop ⟨_, hopens.header count⟩⟩)
  | cut length =>
      rw [scan_of_cut htoken] at hscan
      simp at hscan
  | unterminated =>
      rw [scan_of_unterminated htoken] at hscan
      simp at hscan
  | malformed =>
      cases hdrop : bytes.drop idx with
      | nil =>
          refine .inl (le_antisymm hidx.1 ?_)
          exact List.drop_eq_nil_iff.mp hdrop
      | cons tag body =>
          rw [scan_of_malformed (by simp [hdrop]) htoken] at hscan
          simp at hscan

theorem Between.atItem (hwell : WellFormed bytes) (hidx : Between bytes idx) :
    AtItem bytes idx := by
  obtain ⟨_, owed, hopens⟩ := id hidx
  rcases hidx.cases hwell with hend | ⟨item, rest, hdrop, hleaf, _⟩ |
    ⟨item, rest, _, _, hdrop, hitem, _⟩
  · exact .inl hend
  · exact .inr ⟨owed, item, rest, hopens, hdrop, .leaf hleaf⟩
  · exact .inr ⟨owed, item, rest, hopens, hdrop, hitem⟩

end WellFormed

/-! ## Operations on a validated packet -/

section Operations

variable {host : Host} {data : Region Byte} {idx : ℕ}

/-- Every built-in reader starts with the end and tag tests of `readTag`. -/
theorem readValue_eq_readTag (host : Host) (data : Region Byte) {dt : Value}
    (hbuiltIn : BuiltIn dt) : ∃ payload : ℕ → Probe (Reading Value),
      ∀ idx log, (readValue host data dt idx).run log =
        (readTag data (accepted dt) dt idx payload).run log := by
  have hmap : ∀ {δ : Type} (wrap : δ → Value) (ptypes : List PacketType) (dt : δ)
      (payload : ℕ → Probe (Reading δ)), ∃ payload' : ℕ → Probe (Reading Value),
      ∀ idx log, ((do
          let reading ← readTag data ptypes dt idx payload
          pure ⟨reading.status, wrap reading.dt, reading.idx⟩ :
            Probe (Reading Value)).run log) =
        (readTag data ptypes (wrap dt) idx payload').run log := by
    intro δ wrap ptypes dt payload
    refine ⟨fun idx => do
      let reading ← payload idx
      pure ⟨reading.status, wrap reading.dt, reading.idx⟩, fun idx log => ?_⟩
    simp only [readTag, Probe.run_bind, Probe.run_ite]
    by_cases hidx : data.size ≤ idx
    · simp [hidx]
    · simp only [hidx, if_false, Region.run_read]
      by_cases hfound : mismatched ptypes (PacketType.ofByte (data.value log idx)) = true
      · simp [hfound]
      · simp [hfound]
  cases dt with
  | object fields => exact hbuiltIn.elim
  | string dt => exact hmap Value.string _ dt _
  | scalar type dt => cases type <;> exact hmap (Value.scalar _) _ dt _
  | vector type dt => cases type <;> exact hmap (Value.vector _) _ dt _

theorem readValue_end {dt : Value} (hbuiltIn : BuiltIn dt) (hidx : data.size ≤ idx)
    (log : List ℕ) :
    (readValue host data dt idx).run log = (⟨.done, dt, idx⟩, log) := by
  obtain ⟨payload, hread⟩ := readValue_eq_readTag host data hbuiltIn
  rw [hread, readTag_end _ dt _ hidx]
  rfl

theorem readValue_mismatch {dt : Value} (hbuiltIn : BuiltIn dt) {found : PacketType}
    (hfound : found ∉ accepted dt) {rest : List Byte}
    (hdrop : data.cells.drop idx = found.toByte :: rest) (log : List ℕ) :
    (readValue host data dt idx).run log =
      (⟨.threw (exceptionByType (some found)), dt, idx⟩, idx :: log) := by
  obtain ⟨payload, hread⟩ := readValue_eq_readTag host data hbuiltIn
  rw [hread, readTag_mismatch dt _ hdrop, PacketType.ofByte_toByte]
  intro ptype hptype heq
  rw [PacketType.ofByte_toByte, Option.some.injEq] at heq
  exact hfound (heq ▸ hptype)

theorem object_notMem_accepted {dt : Value} (hbuiltIn : BuiltIn dt) :
    PacketType.object ∉ accepted dt := by
  cases dt with
  | object fields => exact hbuiltIn.elim
  | string dt => simp [accepted]
  | scalar type dt => cases type <;> simp [accepted, Scalar.tag]
  | vector type dt => cases type <;> simp [accepted, Scalar.arrayTag]

theorem exists_head_of_leaf {item : List Byte} (hleaf : Leaf item) :
    ∃ found tail, item = PacketType.toByte found :: tail ∧ found ≠ .object := by
  cases hleaf with
  | @scalar type _ body hlayout =>
      refine ⟨type, body, rfl, ?_⟩
      rintro rfl
      simp [PacketType.layout] at hlayout
  | string => exact ⟨.string, _, rfl, by simp⟩
  | @array type _ high low body hlayout =>
      refine ⟨type, high :: low :: body, rfl, ?_⟩
      rintro rfl
      simp [PacketType.layout] at hlayout

/-- The contract of a built-in read at any position between two tokens. -/
theorem readValue_builtIn (hwell : WellFormed data.cells) (hsize : data.size < 2 ^ 32)
    {dt : Value} (hbuiltIn : BuiltIn dt) (hidx : Between data.cells idx)
    (log : List ℕ) :
    Honours data.cells idx dt ((readValue host data dt idx).run log).1 ∧
      Between data.cells ((readValue host data dt idx).run log).1.idx ∧
      (InBounds data.size ((readValue host data dt idx).run log).2 ↔
        InBounds data.size log) := by
  rcases hidx.cases hwell with hend | ⟨item, rest, hdrop, hleaf, hnext⟩ |
    ⟨item, rest, count, body, hdrop, hitem, hobject, hhead, _⟩
  · rw [readValue_end hbuiltIn (le_of_eq hend.symm)]
    exact ⟨.ended hend, hidx, Iff.rfl⟩
  · obtain ⟨found, tail, rfl, _⟩ := exists_head_of_leaf hleaf
    by_cases hfound : found ∈ accepted dt
    · obtain ⟨hvalue, hlog⟩ := @readValue_of_leaf host data idx rest dt hbuiltIn _
        hleaf found hfound rfl hdrop (lt_of_le_of_lt hnext.1 hsize) log
      rw [hvalue]
      exact ⟨.matched hdrop (.leaf hleaf) rfl hfound, hnext, hlog⟩
    · rw [readValue_mismatch hbuiltIn hfound hdrop]
      exact ⟨.mismatch hdrop (.leaf hleaf) rfl hfound, hidx,
        inBounds_of_lt (Region.lt_size_of_head hdrop) log⟩
  · have hfound := object_notMem_accepted hbuiltIn
    rw [hobject] at hdrop
    rw [readValue_mismatch hbuiltIn hfound hdrop]
    exact ⟨.mismatch (hdrop.trans hobject.symm) hitem hhead hfound, hidx,
      inBounds_of_lt (Region.lt_size_of_head hdrop) log⟩

/-- `read_object_header` either throws where it stands or steps over the two
bytes of a header. -/
theorem readObjectHeader_safe (hwell : WellFormed data.cells)
    (hsize : data.size < 2 ^ 32) (hidx : Between data.cells idx) (length : ℕ)
    (log : List ℕ) :
    Between data.cells ((readObjectHeader data length idx).run log).1.2 ∧
      (InBounds data.size ((readObjectHeader data length idx).run log).2 ↔
        InBounds data.size log) := by
  rcases hidx.cases hwell with hend | ⟨item, rest, hdrop, hleaf, _⟩ |
    ⟨item, rest, count, body, hdrop, _, hobject, _, hnext⟩
  · have hle : data.size ≤ idx := le_of_eq hend.symm
    simp only [readObjectHeader, nextType, if_pos hle, Probe.run_bind, Probe.run_pure]
    exact ⟨hidx, Iff.rfl⟩
  · obtain ⟨found, tail, rfl, hfound⟩ := exists_head_of_leaf hleaf
    have hlt := Region.lt_size_of_head hdrop
    have hne : (some found : Option PacketType) ≠ some .object := by simpa using hfound
    simp only [readObjectHeader, nextType, if_neg (not_le.mpr hlt), Probe.run_bind,
      Region.run_read, Probe.run_pure, Region.value_head hdrop,
      PacketType.ofByte_toByte, if_pos hne]
    exact ⟨hidx, inBounds_of_lt hlt log⟩
  · rw [hobject] at hdrop
    have hlt := Region.lt_size_of_head hdrop
    have hcount := Region.lt_size_of_head (drop_tail hdrop)
    have htwo : u32 (idx + 2) = idx + 2 := u32_of_lt (lt_of_le_of_lt hnext.1 hsize)
    have hlog : InBounds data.size ((idx + 1) :: idx :: log) ↔
        InBounds data.size log := by
      rw [inBounds_of_lt hcount, inBounds_of_lt hlt]
    simp only [readObjectHeader, nextType, if_neg (not_le.mpr hlt), Probe.run_bind,
      Region.run_read, Probe.run_pure, Region.value_head hdrop,
      PacketType.ofByte_toByte, ne_eq, not_true_eq_false, if_false,
      u32_of_lt (show idx + 1 < 2 ^ 32 by omega), Region.value_head (drop_tail hdrop),
      htwo, Probe.run_ite]
    split
    · exact ⟨hidx, hlog⟩
    · split
      · exact ⟨hidx, hlog⟩
      · exact ⟨hnext, hlog⟩

mutual

/-- Every read, with destinations of any shape, leaves the reader between two
tokens and stays inside the packet. -/
theorem readValue_safe (hwell : WellFormed data.cells) (hsize : data.size < 2 ^ 32) :
    ∀ (dt : Value) (idx : ℕ), Between data.cells idx → ∀ log,
      Between data.cells ((readValue host data dt idx).run log).1.idx ∧
        (InBounds data.size ((readValue host data dt idx).run log).2 ↔
          InBounds data.size log)
  | .scalar type dt, idx, hidx, log =>
      (@readValue_builtIn host data idx hwell hsize (.scalar type dt) trivial hidx log).2
  | .string dt, idx, hidx, log =>
      (@readValue_builtIn host data idx hwell hsize (.string dt) trivial hidx log).2
  | .vector type dt, idx, hidx, log =>
      (@readValue_builtIn host data idx hwell hsize (.vector type dt) trivial hidx log).2
  | .object fields, idx, hidx, log => by
      obtain ⟨htmp, hheader⟩ := readObjectHeader_safe hwell hsize hidx
        (numberOfArgs fields) log
      obtain ⟨hnext, hlog⟩ := readFromPacket_safe hwell hsize fields _ htmp
        ((readObjectHeader data (numberOfArgs fields) idx).run log).2
      simp only [readValue, Probe.run_bind, Probe.run_ite]
      split
      · refine ⟨?_, hlog.trans hheader⟩
        simp only [Probe.run_pure]
        split
        · exact hnext
        · exact hidx
      · exact ⟨hidx, hheader⟩

theorem readFromPacket_safe (hwell : WellFormed data.cells)
    (hsize : data.size < 2 ^ 32) :
    ∀ (args : List Value) (idx : ℕ), Between data.cells idx → ∀ log,
      Between data.cells ((readFromPacket host data args idx).run log).1.idx ∧
        (InBounds data.size ((readFromPacket host data args idx).run log).2 ↔
          InBounds data.size log)
  | [], idx, hidx, log => ⟨hidx, Iff.rfl⟩
  | arg :: args, idx, hidx, log => by
      obtain ⟨hnext, hlog⟩ := readValue_safe hwell hsize arg idx hidx log
      obtain ⟨hlast, hlater⟩ := readFromPacket_safe hwell hsize args _ hnext
        ((readValue host data arg idx).run log).2
      simp only [readFromPacket, Probe.run_bind, Probe.run_ite]
      split
      · exact ⟨hlast, hlater.trans hlog⟩
      · exact ⟨hnext, hlog⟩

end

/-- One operation of `runAll`, its exception caught. -/
theorem Operation.run_safe (hwell : WellFormed data.cells) (hsize : data.size < 2 ^ 32)
    (operation : Operation) (hidx : Between data.cells idx) (log : List ℕ) :
    Between data.cells ((operation.run host data idx).run log).1 ∧
      (InBounds data.size ((operation.run host data idx).run log).2 ↔
        InBounds data.size log) := by
  cases operation with
  | read dt => exact readValue_safe hwell hsize dt idx hidx log
  | nextType =>
      simp only [Operation.run, Reader.nextType, Probe.run_bind, Probe.run_pure,
        Probe.run_ite, Region.run_read]
      split
      · exact ⟨hidx, Iff.rfl⟩
      · exact ⟨hidx, inBounds_of_lt (by omega) log⟩

theorem runAll_safe (hwell : WellFormed data.cells) (hsize : data.size < 2 ^ 32)
    (operations : List Operation) (hidx : Between data.cells idx) (log : List ℕ) :
    Between data.cells ((runAll host data operations idx).run log).1 ∧
      (InBounds data.size ((runAll host data operations idx).run log).2 ↔
        InBounds data.size log) := by
  induction operations generalizing idx log with
  | nil => exact ⟨hidx, Iff.rfl⟩
  | cons operation operations ih =>
      obtain ⟨hnext, hlog⟩ := operation.run_safe hwell hsize hidx log
      obtain ⟨hlast, hlater⟩ := ih hnext ((operation.run host data idx).run log).2
      exact ⟨hlast, hlater.trans hlog⟩

end Operations

/-- Reading a packet that `is_valid` accepted, with its index in range, never
leaves the packet; the reader is at an item or at the end after any operations,
and there every built-in read does one of the three things it may. -/
theorem reads_of_isValid (host : Host) {bytes : List Byte}
    (hlength : bytes.length < 2 ^ 32)
    (hends : ∀ stop owed, Ends bytes (.overrun stop owed) →
      stop + 9 * owed < 2 ^ 32)
    (wild : List ℕ → ℕ → Byte) {fuel : ℕ} (hfuel : bytes.length + 2 ≤ fuel)
    (hvalid : ((isValid host ⟨bytes, wild⟩ fuel).run []).1 = some true)
    (operations : List Operation) :
    let final := (runAll host ⟨bytes, wild⟩ operations 0).run []
    InBounds bytes.length final.2 ∧ AtItem bytes final.1 ∧
      ∀ dt, BuiltIn dt → Honours bytes final.1 dt
        ((readValue host ⟨bytes, wild⟩ dt final.1).run final.2).1 := by
  have hwell := wellFormed_of_isValid hlength hends hfuel hvalid
  have hstart : Between bytes 0 := ⟨Nat.zero_le _, 0, .nil⟩
  obtain ⟨hfinal, hlog⟩ := @runAll_safe host ⟨bytes, wild⟩ 0 hwell hlength operations
    hstart []
  refine ⟨hlog.mpr (inBounds_nil _), hfinal.atItem hwell, fun dt hbuiltIn => ?_⟩
  exact (@readValue_builtIn host ⟨bytes, wild⟩ _ hwell hlength dt hbuiltIn hfinal _).1

/-- Two reads of what is not there, the second one from within the object, and then
the right one. -/
def misread : List Operation :=
  [.nextType, .read (.string []), .read (.object [.object [.scalar .int16 0], .string []]),
    .read (.object [.object [.scalar .int8 0], .string []])]

theorem reads_of_isValid_misread :
    let final := (runAll .little ⟨wholePacket, fun _ _ => 0⟩ misread 0).run []
    InBounds 9 final.2 ∧ AtItem wholePacket final.1 ∧
      ∀ dt, BuiltIn dt → Honours wholePacket final.1 dt
        ((readValue .little ⟨wholePacket, fun _ _ => 0⟩ dt final.1).run final.2).1 := by
  refine @reads_of_isValid .little wholePacket (by decide) (fun stop owed hends => ?_)
    (fun _ _ => 0) 11 (by decide) (by decide +kernel) misread
  rw [← scan_eq_iff, scan_wholePacket] at hends
  cases hends

/-! ## A packet whose size does not fit in 32 bits -/

theorem head_ne_zero_of_item {item : List Byte} (hitem : Item item) :
    item.head? ≠ some 0 := by
  have hreserved : ∀ type : PacketType, type.toByte = 0 → type = .unknown := by
    intro type htype
    exact PacketType.toByte_injective htype
  cases hitem with
  | leaf hleaf =>
      cases hleaf with
      | @scalar type _ _ hlayout =>
          intro hhead
          obtain rfl := hreserved type (Option.some.inj hhead)
          simp [PacketType.layout] at hlayout
      | string => simp [PacketType.toByte]
      | @array type _ _ _ _ hlayout =>
          intro hhead
          obtain rfl := hreserved type (Option.some.inj hhead)
          simp [PacketType.layout] at hlayout
  | object => simp [PacketType.toByte]

theorem isValid_zeros {length : ℕ} (hlength : length = 2 ^ 32)
    (wild : List ℕ → ℕ → Byte) :
    ((isValid .little ⟨List.replicate length 0, wild⟩ 1).run []).1 = some true ∧
      ¬ AtItem (List.replicate length 0) 0 := by
  constructor
  · have hsize : u32 (Region.mk (List.replicate length (0 : Byte)) wild).size = 0 := by
      rw [Region.size, List.length_replicate, hlength]
      rfl
    rw [isValid, hsize]
    rfl
  · rintro (hend | ⟨_, item, rest, _, hdrop, hitem⟩)
    · rw [List.length_replicate] at hend
      omega
    · apply head_ne_zero_of_item hitem
      obtain ⟨pred, rfl⟩ : ∃ pred, length = pred + 1 :=
        Nat.exists_eq_succ_of_ne_zero (by omega)
      rw [List.drop_zero, List.replicate_succ] at hdrop
      cases item with
      | nil => cases hitem with
        | leaf hleaf => exact absurd hleaf.length_pos (by simp)
      | cons head tail => simpa using (congrArg List.head? hdrop).symm

/-- `2 ^ 32` bytes leave a size of zero: anything is accepted. -/
theorem isValid_accepts_zeros :
    ((isValid .little ⟨List.replicate (2 ^ 32) 0, fun _ _ => 0⟩ 1).run []).1 =
        some true ∧
      ¬ AtItem (List.replicate (2 ^ 32) 0) 0 :=
  isValid_zeros rfl _

end Sednl.ReaderSafety
