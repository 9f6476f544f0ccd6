import Sednl.Library.Endian
import Sednl.Wire.Tag

/-!
# The packet grammar

A packet is a concatenation of items: a tagged scalar, a NUL-terminated
string, a counted array, or an object, which is a field count followed by that
many items.  `Item` and `WellFormed` say this and nothing else.

Nesting never changes where the next item starts, so the same language is also
read flat, one token at a time, with the number of announced fields still owed
as the only state.  `Opens` and `scan` are that reading; `scan_eq_iff` says
how the reading of a byte string can end, and `wellFormed_iff_opens` that the
two descriptions agree.
-/

namespace Sednl.Grammar

open Sednl.Endian
open Sednl.Tag

/-- An item that holds no other item. -/
inductive Leaf : List Byte → Prop
  | scalar {type : PacketType} {size : ℕ} {body : List Byte}
      (hlayout : type.layout = .scalar size) (hbody : body.length = size) :
      Leaf (type.toByte :: body)
  | string {chars : List Byte} (hchars : 0 ∉ chars) :
      Leaf (PacketType.string.toByte :: (chars ++ [0]))
  | array {type : PacketType} {size : ℕ} {high low : Byte} {body : List Byte}
      (hlayout : type.layout = .array size)
      (hbody : body.length = beValue [high, low] * size) :
      Leaf (type.toByte :: high :: low :: body)

inductive Item : List Byte → Prop
  | leaf {bytes : List Byte} (hleaf : Leaf bytes) : Item bytes
  | object {fields : List (List Byte)} {count : Byte}
      (hcount : fields.length = count.toNat)
      (hfields : ∀ field ∈ fields, Item field) :
      Item (PacketType.object.toByte :: count :: fields.flatten)

/-- A concatenation of zero or more well-formed items. -/
def WellFormed (bytes : List Byte) : Prop :=
  ∃ items : List (List Byte), (∀ item ∈ items, Item item) ∧
    bytes = items.flatten

/-! ## The flat reading -/

/-- What the front of a byte string is, as far as one token goes. -/
inductive Token where
  /-- A whole scalar, string or array of this many bytes. -/
  | leaf (length : ℕ)
  /-- An object announcing this many fields. -/
  | header (fields : ℕ)
  /-- A scalar or array that should have been this long, and is not. -/
  | cut (length : ℕ)
  /-- A string without its NUL. -/
  | unterminated
  /-- An unknown tag, or a count cut short. -/
  | malformed
  deriving DecidableEq, Repr

def Token.sized (length available : ℕ) : Token :=
  if length ≤ available then .leaf length else .cut length

def token : List Byte → Token
  | [] => .malformed
  | tag :: body =>
      match PacketType.ofByte tag with
      | none => .malformed
      | some type =>
          match type.layout with
          | .reserved => .malformed
          | .scalar size => .sized (1 + size) (1 + body.length)
          | .string => if 0 ∈ body then .leaf (2 + body.idxOf 0) else .unterminated
          | .object =>
              match body with
              | [] => .malformed
              | count :: _ => .header count.toNat
          | .array size =>
              match body with
              | high :: low :: rest =>
                  .sized (3 + beValue [high, low] * size) (3 + rest.length)
              | _ => .malformed

/-- Reading `bytes` from the front leaves `owed` announced fields to come. -/
inductive Opens : ℕ → List Byte → Prop
  | nil : Opens 0 []
  | leaf {owed : ℕ} {bytes item : List Byte} (hopens : Opens owed bytes)
      (hleaf : Leaf item) : Opens (owed - 1) (bytes ++ item)
  | header {owed : ℕ} {bytes : List Byte} (count : Byte)
      (hopens : Opens owed bytes) :
      Opens (owed - 1 + count.toNat) (bytes ++ [PacketType.object.toByte, count])

inductive Outcome where
  | complete
  /-- The last item needs bytes up to `stop`, and `owed` fields never start. -/
  | overrun (stop owed : ℕ)
  | unterminated
  | malformed
  deriving DecidableEq, Repr

/-- Read `rest`, which starts at `position` with `owed` fields to come. -/
def scan (position owed : ℕ) : List Byte → Outcome
  | [] => if owed = 0 then .complete else .overrun position owed
  | tag :: body =>
      match token (tag :: body) with
      | .leaf length =>
          scan (position + length) (owed - 1) (body.drop (length - 1))
      | .header fields => scan (position + 2) (owed - 1 + fields) (body.drop 1)
      | .cut length => .overrun (position + length) (owed - 1)
      | .unterminated => .unterminated
      | .malformed => .malformed
  termination_by bytes => bytes.length
  decreasing_by all_goals simp

/-- How reading `bytes` ends, said without running anything. -/
inductive Ends (bytes : List Byte) : Outcome → Prop
  | complete (hopens : Opens 0 bytes) : Ends bytes .complete
  | short {owed : ℕ} (hopens : Opens owed bytes) (howed : 0 < owed) :
      Ends bytes (.overrun bytes.length owed)
  | cut {owed length : ℕ} {front rest : List Byte} (hbytes : bytes = front ++ rest)
      (hopens : Opens owed front) (htoken : token rest = .cut length) :
      Ends bytes (.overrun (front.length + length) (owed - 1))
  | unterminated {owed : ℕ} {front rest : List Byte}
      (hbytes : bytes = front ++ rest) (hopens : Opens owed front)
      (htoken : token rest = .unterminated) : Ends bytes .unterminated
  | malformed {owed : ℕ} {front rest : List Byte}
      (hbytes : bytes = front ++ rest) (hrest : rest ≠ [])
      (hopens : Opens owed front) (htoken : token rest = .malformed) :
      Ends bytes .malformed

/-! ## Tokens -/

theorem token_scalar {type : PacketType} {size : ℕ}
    (hlayout : type.layout = .scalar size) (body : List Byte) :
    token (type.toByte :: body) = .sized (1 + size) (1 + body.length) := by
  simp [token, hlayout]

theorem token_string (body : List Byte) :
    token (PacketType.string.toByte :: body) =
      if 0 ∈ body then .leaf (2 + body.idxOf 0) else .unterminated := by
  simp [token, PacketType.layout]

theorem token_object (count : Byte) (body : List Byte) :
    token (PacketType.object.toByte :: count :: body) = .header count.toNat := by
  simp [token, PacketType.layout]

theorem token_array {type : PacketType} {size : ℕ}
    (hlayout : type.layout = .array size) (high low : Byte) (body : List Byte) :
    token (type.toByte :: high :: low :: body) =
      .sized (3 + beValue [high, low] * size) (3 + body.length) := by
  simp [token, hlayout]

theorem sized_eq_leaf {length available found : ℕ} :
    Token.sized length available = .leaf found ↔
      length = found ∧ length ≤ available := by
  unfold Token.sized
  split <;> simp <;> omega

theorem sized_eq_cut {length available found : ℕ} :
    Token.sized length available = .cut found ↔
      length = found ∧ available < length := by
  unfold Token.sized
  split <;> simp <;> omega

theorem sized_ne_header (length available fields : ℕ) :
    Token.sized length available ≠ .header fields := by
  unfold Token.sized
  split <;> simp

theorem Leaf.token_append {item : List Byte} (hleaf : Leaf item)
    (rest : List Byte) : token (item ++ rest) = .leaf item.length := by
  cases hleaf with
  | scalar hlayout hbody =>
      rw [List.cons_append, token_scalar hlayout, sized_eq_leaf]
      simp [hbody]
      omega
  | @string chars hchars =>
      have hmem : (0 : Byte) ∈ chars ++ [0] ++ rest := by simp
      have hindex : (chars ++ [0] ++ rest).idxOf 0 = chars.length := by
        rw [List.append_assoc, List.idxOf_append_of_notMem hchars]
        simp
      rw [List.cons_append, token_string, if_pos hmem, hindex]
      simp
      omega
  | array hlayout hbody =>
      simp only [List.cons_append]
      rw [token_array hlayout, sized_eq_leaf]
      simp [hbody]
      omega

/-- What may stand at the front of a byte string. -/
inductive Front : List Byte → Prop
  | malformed {bytes : List Byte} (htoken : token bytes = .malformed) : Front bytes
  | scalar {type : PacketType} {size : ℕ} (hlayout : type.layout = .scalar size)
      (body : List Byte) : Front (type.toByte :: body)
  | string (body : List Byte) : Front (PacketType.string.toByte :: body)
  | object (count : Byte) (body : List Byte) :
      Front (PacketType.object.toByte :: count :: body)
  | array {type : PacketType} {size : ℕ} (hlayout : type.layout = .array size)
      (high low : Byte) (body : List Byte) : Front (type.toByte :: high :: low :: body)

theorem front (bytes : List Byte) : Front bytes := by
  cases bytes with
  | nil => exact .malformed rfl
  | cons tag body =>
      cases htag : PacketType.ofByte tag with
      | none => exact .malformed (by simp [token, htag])
      | some type =>
          obtain rfl := PacketType.ofByte_eq_some.mp htag
          cases hlayout : type.layout with
          | reserved => exact .malformed (by simp [token, hlayout])
          | scalar size => exact .scalar hlayout body
          | string =>
              obtain rfl := PacketType.layout_eq_string.mp hlayout
              exact .string body
          | object =>
              obtain rfl := PacketType.layout_eq_object.mp hlayout
              cases body with
              | nil => exact .malformed (by simp [token, hlayout])
              | cons count body => exact .object count body
          | array size =>
              rcases body with _ | ⟨high, _ | ⟨low, body⟩⟩
              case nil => exact .malformed (by simp [token, hlayout])
              case cons.nil => exact .malformed (by simp [token, hlayout])
              case cons.cons => exact .array hlayout high low body

/-- The front of a byte string is a leaf token exactly when some leaf item
sits there. -/
theorem exists_leaf_of_token {bytes : List Byte} {length : ℕ}
    (htoken : token bytes = .leaf length) :
    ∃ item rest, bytes = item ++ rest ∧ Leaf item ∧ item.length = length := by
  cases front bytes with
  | malformed hmalformed =>
      rw [hmalformed] at htoken
      cases htoken
  | @scalar type size hlayout body =>
      rw [token_scalar hlayout, sized_eq_leaf] at htoken
      have htake : (body.take size).length = size := by
        simp
        omega
      refine ⟨type.toByte :: body.take size, body.drop size, by simp,
        .scalar hlayout htake, ?_⟩
      simp [htake]
      omega
  | string body =>
      rw [token_string] at htoken
      split at htoken
      · rename_i hmem
        obtain ⟨chars, rest, rfl, hchars⟩ := List.eq_append_cons_of_mem hmem
        have hindex : (chars ++ 0 :: rest).idxOf 0 = chars.length := by
          simp [List.idxOf_append_of_notMem hchars]
        rw [hindex, Token.leaf.injEq] at htoken
        refine ⟨PacketType.string.toByte :: (chars ++ [0]), rest, by simp,
          .string hchars, ?_⟩
        simp
        omega
      · simp at htoken
  | object count body => simp [token_object] at htoken
  | @array type size hlayout high low body =>
      rw [token_array hlayout, sized_eq_leaf] at htoken
      have htake : (body.take (beValue [high, low] * size)).length =
          beValue [high, low] * size := by
        simp
        omega
      refine ⟨type.toByte :: high :: low :: body.take (beValue [high, low] * size),
        body.drop (beValue [high, low] * size), by simp, .array hlayout htake, ?_⟩
      simp only [List.length_cons, htake]
      omega

theorem exists_header_of_token {bytes : List Byte} {fields : ℕ}
    (htoken : token bytes = .header fields) :
    ∃ count rest, bytes = PacketType.object.toByte :: count :: rest ∧
      fields = count.toNat := by
  cases front bytes with
  | malformed hmalformed =>
      rw [hmalformed] at htoken
      cases htoken
  | scalar hlayout body =>
      rw [token_scalar hlayout] at htoken
      exact absurd htoken (sized_ne_header _ _ _)
  | string body =>
      rw [token_string] at htoken
      split at htoken <;> simp at htoken
  | object count body =>
      rw [token_object, Token.header.injEq] at htoken
      exact ⟨count, body, rfl, htoken.symm⟩
  | array hlayout high low body =>
      rw [token_array hlayout] at htoken
      exact absurd htoken (sized_ne_header _ _ _)

theorem Leaf.length_pos {item : List Byte} (hleaf : Leaf item) :
    0 < item.length := by
  cases hleaf <;> simp

/-- What stands behind the tag of a leaf is what the layout of the tag asks for. -/
theorem Leaf.body_cases {type : PacketType} {body : List Byte}
    (hleaf : Leaf (type.toByte :: body)) :
    type.layout = .scalar body.length ∨
      (type = .string ∧ ∃ chars, 0 ∉ chars ∧ body = chars ++ [0]) ∨
      ∃ size high low elements, type.layout = .array size ∧
        body = high :: low :: elements ∧
        elements.length = beValue [high, low] * size := by
  generalize hbytes : type.toByte :: body = item at hleaf
  cases hleaf with
  | scalar hlayout hbody =>
      rw [List.cons.injEq] at hbytes
      obtain rfl := PacketType.toByte_injective hbytes.1
      rw [hbytes.2, hbody]
      exact .inl hlayout
  | @string chars hchars =>
      rw [List.cons.injEq] at hbytes
      exact .inr (.inl ⟨PacketType.toByte_injective hbytes.1, chars, hchars, hbytes.2⟩)
  | @array _ size high low elements hlayout hbody =>
      rw [List.cons.injEq] at hbytes
      obtain rfl := PacketType.toByte_injective hbytes.1
      exact .inr (.inr ⟨size, high, low, elements, hlayout, hbytes.2, hbody⟩)

theorem Leaf.body_of_scalar {type : PacketType} {size : ℕ} {body : List Byte}
    (hlayout : type.layout = .scalar size) (hleaf : Leaf (type.toByte :: body)) :
    body.length = size := by
  rcases hleaf.body_cases with hscalar | ⟨rfl, _⟩ | ⟨_, _, _, _, harray, _⟩
  · exact PacketType.Layout.scalar.inj (hscalar.symm.trans hlayout)
  · cases hlayout
  · cases harray.symm.trans hlayout

theorem Leaf.body_of_string {body : List Byte}
    (hleaf : Leaf (PacketType.string.toByte :: body)) :
    ∃ chars, 0 ∉ chars ∧ body = chars ++ [0] := by
  rcases hleaf.body_cases with hscalar | ⟨_, hstring⟩ | ⟨_, _, _, _, harray, _⟩
  · cases hscalar
  · exact hstring
  · cases harray

theorem Leaf.body_of_array {type : PacketType} {size : ℕ} {body : List Byte}
    (hlayout : type.layout = .array size) (hleaf : Leaf (type.toByte :: body)) :
    ∃ high low elements, body = high :: low :: elements ∧
      elements.length = beValue [high, low] * size := by
  rcases hleaf.body_cases with hscalar | ⟨rfl, _⟩ | ⟨found, high, low, elements, harray, hbody⟩
  · cases hscalar.symm.trans hlayout
  · cases hlayout
  · obtain rfl := PacketType.Layout.array.inj (harray.symm.trans hlayout)
    exact ⟨high, low, elements, hbody⟩

/-! ## Items and the flat reading -/

/-- A whole item, however deep, settles exactly one owed field. -/
theorem Opens.item {item : List Byte} (hitem : Item item) {owed : ℕ}
    {bytes : List Byte} (hopens : Opens owed bytes) :
    Opens (owed - 1) (bytes ++ item) := by
  induction hitem generalizing owed bytes with
  | leaf hleaf => exact hopens.leaf hleaf
  | @object fields count hcount _ ih =>
      have hfields : ∀ (rest : List (List Byte)) (front : List Byte),
          rest ⊆ fields → Opens (owed - 1 + rest.length) front →
            Opens (owed - 1) (front ++ rest.flatten) := by
        intro rest
        induction rest with
        | nil =>
            intro front _ hfront
            simpa using hfront
        | cons field rest ihrest =>
            intro front hsubset hfront
            have hfield := ih field (hsubset (by simp)) hfront
            have hrest : rest ⊆ fields := fun x hx => hsubset (by simp [hx])
            have hstep := ihrest (front ++ field) hrest (by simpa using hfield)
            simpa using hstep
      have hheader := hopens.header count
      rw [← hcount] at hheader
      simpa using hfields fields _ (List.Subset.refl _) hheader

theorem Opens.items {items : List (List Byte)} (hitems : ∀ item ∈ items, Item item)
    {bytes : List Byte} (hopens : Opens 0 bytes) :
    Opens 0 (bytes ++ items.flatten) := by
  induction items generalizing bytes with
  | nil => simpa using hopens
  | cons item items ih =>
      have hitem := hopens.item (hitems item (by simp))
      have hrest := ih (fun x hx => hitems x (by simp [hx])) hitem
      simpa using hrest

/-- Supplying the owed fields completes what was read. -/
theorem Opens.wellFormed_append {owed : ℕ} {bytes : List Byte}
    (hopens : Opens owed bytes) (items : List (List Byte))
    (hlength : items.length = owed) (hitems : ∀ item ∈ items, Item item) :
    WellFormed (bytes ++ items.flatten) := by
  induction hopens generalizing items with
  | nil => exact ⟨items, hitems, by simp⟩
  | @leaf owed bytes item _ hleaf ih =>
      cases owed with
      | zero =>
          obtain rfl := List.length_eq_zero_iff.mp hlength
          obtain ⟨front, hfront, hbytes⟩ := ih [] rfl (by simp)
          refine ⟨front ++ [item], ?_, by simp at hbytes; simp [hbytes]⟩
          intro x hx
          rcases List.mem_append.mp hx with hx | hx
          · exact hfront x hx
          · obtain rfl := List.mem_singleton.mp hx
            exact .leaf hleaf
      | succ owed =>
          have hcons := ih (item :: items) (by simpa using hlength) (by
            intro x hx
            rcases List.mem_cons.mp hx with rfl | hx
            · exact .leaf hleaf
            · exact hitems x hx)
          simpa using hcons
  | @header owed bytes count _ ih =>
      have hobject : Item (PacketType.object.toByte :: count ::
          (items.take count.toNat).flatten) := by
        refine .object (by simp; omega) ?_
        exact fun x hx => hitems x (List.mem_of_mem_take hx)
      have hsplit : items.flatten =
          (items.take count.toNat).flatten ++ (items.drop count.toNat).flatten := by
        rw [← List.flatten_append, List.take_append_drop]
      cases owed with
      | zero =>
          obtain ⟨front, hfront, hbytes⟩ := ih [] rfl (by simp)
          have hdrop : items.drop count.toNat = [] := by
            rw [List.drop_eq_nil_iff]
            omega
          refine ⟨front ++ [PacketType.object.toByte :: count ::
            (items.take count.toNat).flatten], ?_, ?_⟩
          · intro x hx
            rcases List.mem_append.mp hx with hx | hx
            · exact hfront x hx
            · obtain rfl := List.mem_singleton.mp hx
              exact hobject
          · simp at hbytes
            rw [hsplit, hdrop]
            simp [hbytes]
      | succ owed =>
          have hcons := ih ((PacketType.object.toByte :: count ::
              (items.take count.toNat).flatten) :: items.drop count.toNat)
            (by simp; omega) (by
              intro x hx
              rcases List.mem_cons.mp hx with rfl | hx
              · exact hobject
              · exact hitems x (List.mem_of_mem_drop hx))
          rw [hsplit]
          simpa using hcons

theorem wellFormed_iff_opens (bytes : List Byte) :
    WellFormed bytes ↔ Opens 0 bytes := by
  constructor
  · rintro ⟨items, hitems, rfl⟩
    simpa using Opens.items hitems .nil
  · intro hopens
    simpa using hopens.wellFormed_append [] rfl (by simp)

/-! ## How a reading ends -/

theorem scan_of_leaf {bytes : List Byte} {length position owed : ℕ}
    (htoken : token bytes = .leaf length) :
    scan position owed bytes =
      scan (position + length) (owed - 1) (bytes.drop length) := by
  cases bytes with
  | nil => simp [token] at htoken
  | cons tag body =>
      obtain ⟨item, rest, _, hleaf, hlength⟩ := exists_leaf_of_token htoken
      obtain ⟨predecessor, rfl⟩ : ∃ predecessor, length = predecessor + 1 :=
        Nat.exists_eq_succ_of_ne_zero (by have := hleaf.length_pos; omega)
      rw [scan, htoken]
      simp

theorem scan_leaf {item : List Byte} (hleaf : Leaf item) (position owed : ℕ)
    (rest : List Byte) :
    scan position owed (item ++ rest) =
      scan (position + item.length) (owed - 1) rest := by
  rw [scan_of_leaf (hleaf.token_append rest), List.drop_left]

theorem scan_object (count : Byte) (position owed : ℕ) (rest : List Byte) :
    scan position owed (PacketType.object.toByte :: count :: rest) =
      scan (position + 2) (owed - 1 + count.toNat) rest := by
  rw [scan, token_object]
  simp

theorem scan_of_cut {bytes : List Byte} {length : ℕ}
    (htoken : token bytes = .cut length) (position owed : ℕ) :
    scan position owed bytes = .overrun (position + length) (owed - 1) := by
  cases bytes with
  | nil => simp [token] at htoken
  | cons tag body => rw [scan, htoken]

theorem scan_of_unterminated {bytes : List Byte}
    (htoken : token bytes = .unterminated) (position owed : ℕ) :
    scan position owed bytes = .unterminated := by
  cases bytes with
  | nil => simp [token] at htoken
  | cons tag body => rw [scan, htoken]

theorem scan_of_malformed {bytes : List Byte} (hbytes : bytes ≠ [])
    (htoken : token bytes = .malformed) (position owed : ℕ) :
    scan position owed bytes = .malformed := by
  cases bytes with
  | nil => exact absurd rfl hbytes
  | cons tag body => rw [scan, htoken]

theorem Opens.scan_append {owed : ℕ} {bytes : List Byte}
    (hopens : Opens owed bytes) (rest : List Byte) :
    scan 0 0 (bytes ++ rest) = scan bytes.length owed rest := by
  induction hopens generalizing rest with
  | nil => rfl
  | leaf _ hleaf ih =>
      rw [List.append_assoc, ih, scan_leaf hleaf, List.length_append]
  | header count _ ih =>
      rw [List.append_assoc, ih, List.cons_append, List.cons_append,
        List.nil_append, scan_object, List.length_append]
      rfl

theorem Opens.ends_scan {owed : ℕ} {front : List Byte}
    (hopens : Opens owed front) (rest : List Byte) :
    Ends (front ++ rest) (scan front.length owed rest) := by
  induction hlength : rest.length using Nat.strong_induction_on
    generalizing owed front rest with
  | _ length ih =>
      subst hlength
      cases htoken : token rest with
      | leaf length =>
          obtain ⟨item, rest, rfl, hleaf, rfl⟩ := exists_leaf_of_token htoken
          have hshort : rest.length < (item ++ rest).length := by
            have := hleaf.length_pos
            simp
            omega
          rw [scan_leaf hleaf, ← List.append_assoc, ← List.length_append]
          exact ih _ hshort (hopens.leaf hleaf) rest rfl
      | header fields =>
          obtain ⟨count, rest, rfl, rfl⟩ := exists_header_of_token htoken
          have hstep := ih rest.length (by simp) (hopens.header count) rest rfl
          rw [scan_object]
          simpa using hstep
      | cut length =>
          rw [scan_of_cut htoken]
          exact .cut rfl hopens htoken
      | unterminated =>
          rw [scan_of_unterminated htoken]
          exact .unterminated rfl hopens htoken
      | malformed =>
          cases rest with
          | nil =>
              rw [scan, List.append_nil]
              split
              · rename_i howed
                exact .complete (howed ▸ hopens)
              · exact .short hopens (by omega)
          | cons tag body =>
              rw [scan_of_malformed (by simp) htoken]
              exact .malformed rfl (by simp) hopens htoken

/-- The reading of `bytes` ends in `outcome` exactly when it should. -/
theorem scan_eq_iff (bytes : List Byte) (outcome : Outcome) :
    scan 0 0 bytes = outcome ↔ Ends bytes outcome := by
  constructor
  · rintro rfl
    exact Opens.nil.ends_scan bytes
  · intro hends
    cases hends with
    | complete hopens =>
        have h := hopens.scan_append []
        rwa [List.append_nil, scan, if_pos rfl] at h
    | short hopens howed =>
        have h := hopens.scan_append []
        rwa [List.append_nil, scan, if_neg (by omega)] at h
    | cut hbytes hopens htoken =>
        rw [hbytes, hopens.scan_append, scan_of_cut htoken]
    | unterminated hbytes hopens htoken =>
        rw [hbytes, hopens.scan_append, scan_of_unterminated htoken]
    | malformed hbytes hrest hopens htoken =>
        rw [hbytes, hopens.scan_append, scan_of_malformed hrest htoken]

theorem wellFormed_iff_scan (bytes : List Byte) :
    WellFormed bytes ↔ scan 0 0 bytes = .complete := by
  rw [wellFormed_iff_opens, scan_eq_iff]
  exact ⟨.complete, fun hends => by cases hends; assumption⟩

end Sednl.Grammar
