import Sednl.Wire.Readable

/-!
# Reads that commit

`read_as_object` moves a copy of the reader, nested objects move copies of that copy, and
a copy replaces what it was made from only when all of its fields have been read: either
the destinations are of the shape of the object and take all of it, or the reader stays.
-/

namespace Sednl.Commit

open Sednl.Endian
open Sednl.Memory
open Sednl.Tag
open Sednl.Word
open Sednl.Grammar
open Sednl.Packet
open Sednl.Reader
open Sednl.Validator
open Sednl.ReaderSafety
open Sednl.RoundTrip
open Sednl.Readable

mutual

/-- The item is of the shape of the destination, which then holds the value: a tag that
the destination takes, or an object of some fields that are, one by one, of the shapes of
as many members. -/
inductive Fits : List Byte → Value → Value → Prop
  | leaf {item : List Byte} {dt : Value} {found : PacketType} (hbuiltIn : BuiltIn dt)
      (hleaf : Leaf item) (hhead : item.head? = some found.toByte)
      (hfound : found ∈ accepted dt) : Fits item dt (payload item dt)
  | object {announced : Byte} {fields : List (List Byte)} {dests values : List Value}
      (hpos : announced ≠ 0) (hcount : fields.length = announced.toNat)
      (hfields : AllFit fields dests values) :
      Fits (PacketType.object.toByte :: announced :: fields.flatten) (.object dests)
        (.object values)

inductive AllFit : List (List Byte) → List Value → List Value → Prop
  | nil : AllFit [] [] []
  | cons {item : List Byte} {items : List (List Byte)} {dt value : Value}
      {dests values : List Value} (hfirst : Fits item dt value)
      (hrest : AllFit items dests values) :
      AllFit (item :: items) (dt :: dests) (value :: values)

end

mutual

/-- `number_of_args` can count the members of every object in the destination. -/
def Counted : Value → Prop
  | .scalar _ _ | .string _ | .vector _ _ => True
  | .object dests => dests.length < 2 ^ 16 ∧ AllCounted dests

def AllCounted : List Value → Prop
  | [] => True
  | dt :: dests => Counted dt ∧ AllCounted dests

end

/-- What `read_as_object` does with the item where the reader stands: takes all of it, or
throws and leaves the reader to the next attempt. -/
structure AllOrNothing (host : Host) (data : Region Byte) (dests : List Value) (idx : ℕ)
    (item : List Byte) : Prop where
  hreturns : ∀ value, Fits item (.object dests) value → ∀ log,
    ((readValue host data (.object dests) idx).run log).1 =
      ⟨.done, value, idx + item.length⟩
  hthrows : (∀ value, ¬ Fits item (.object dests) value) → ∀ log, ∃ exception value,
    ((readValue host data (.object dests) idx).run log).1 = ⟨.threw exception, value, idx⟩
  hlater : (∀ value, ¬ Fits item (.object dests) value) → ∀ right value,
    Fits item right value → ∀ log,
      ((do
        let failed ← readValue host data (.object dests) idx
        readValue host data right failed.idx).run log).1 =
        ((readValue host data right idx).run log).1

theorem AllFit.length_eq {items : List (List Byte)} {dests values : List Value}
    (hfit : AllFit items dests values) : items.length = dests.length := by
  induction dests generalizing items values with
  | nil =>
      cases hfit
      rfl
  | cons dt dests ih =>
      cases hfit with
      | cons _ hrest => rw [List.length_cons, List.length_cons, ih hrest]

/-! ## Reads of an item -/

section Reads

variable {host : Host} {data : Region Byte}

mutual

/-- A destination of the shape of the item takes all of it. -/
theorem readValue_of_fits : ∀ {dt value : Value} {item : List Byte}, Fits item dt value →
    ∀ {idx : ℕ} {rest : List Byte}, data.cells.drop idx = item ++ rest →
      idx + item.length < 2 ^ 32 → ∀ log,
        ((readValue host data dt idx).run log).1 = ⟨.done, value, idx + item.length⟩
  | _, _, _, .leaf hbuiltIn hleaf hhead hfound, _, _, hdrop, hidx, log =>
      (readValue_of_leaf hbuiltIn hleaf hfound hhead hdrop hidx log).1
  | _, _, _, @Fits.object announced fields dests values hpos hcount hfields, idx, rest, hdrop,
      hidx, log => by
      rw [List.cons_append, List.cons_append] at hdrop
      rw [List.length_cons, List.length_cons] at hidx
      have hread := readFromPacket_of_allFit hfields (drop_tail (drop_tail hdrop)) (by omega)
      have hbyte : announced.toNat < 256 := announced.toNat_lt
      have hargs : numberOfArgs dests = announced.toNat := by
        rw [numberOfArgs, ← hfields.length_eq, hcount]
        exact Nat.mod_eq_of_lt (by omega)
      have hheader := @readObjectHeader_at_object data idx announced.toNat announced
        (fields.flatten ++ rest) hdrop (by omega) log
      rw [if_neg hpos, if_neg (not_not.mpr rfl), u32_of_lt (by omega)] at hheader
      simp only [readValue, Probe.run_bind, hargs, hheader, if_true, hread, Probe.run_pure]
      rw [List.length_cons, List.length_cons, Nat.add_assoc idx 2, Nat.add_comm 2]

theorem readFromPacket_of_allFit : ∀ {dests values : List Value} {items : List (List Byte)},
    AllFit items dests values → ∀ {idx : ℕ} {rest : List Byte},
      data.cells.drop idx = items.flatten ++ rest → idx + items.flatten.length < 2 ^ 32 →
        ∀ log, ((readFromPacket host data dests idx).run log).1 =
          ⟨.done, values, idx + items.flatten.length⟩
  | _, _, _, .nil, _, _, _, _, _ => rfl
  | _, _, _, @AllFit.cons item items _ _ _ _ hfirst hrest, idx, rest, hdrop, hidx, log => by
      rw [List.flatten_cons, List.append_assoc] at hdrop
      rw [List.flatten_cons, List.length_append] at hidx
      have hvalue := readValue_of_fits hfirst hdrop (by omega) log
      have hvalues := readFromPacket_of_allFit hrest (Region.drop_add hdrop) (by omega)
      simp only [readFromPacket, Probe.run_bind, hvalue, if_true, hvalues, Probe.run_pure]
      rw [List.flatten_cons, List.length_append, Nat.add_assoc]

end

/-- A built-in reader throws on an item that is not of its shape. -/
theorem readValue_of_not_fits_builtIn {dt : Value} (hbuiltIn : BuiltIn dt) {item : List Byte}
    (hitem : Item item) (hfits : ∀ value, ¬ Fits item dt value) {idx : ℕ} {rest : List Byte}
    (hdrop : data.cells.drop idx = item ++ rest) (log : List ℕ) :
    ∃ exception value,
      ((readValue host data dt idx).run log).1 = ⟨.threw exception, value, idx⟩ := by
  cases hitem with
  | leaf hleaf =>
      obtain ⟨found, tail, rfl, _⟩ := exists_head_of_leaf hleaf
      have hfound : found ∉ accepted dt := fun hfound =>
        hfits _ (.leaf hbuiltIn hleaf rfl hfound)
      rw [readValue_mismatch hbuiltIn hfound hdrop]
      exact ⟨_, _, rfl⟩
  | object =>
      rw [readValue_mismatch hbuiltIn (object_notMem_accepted hbuiltIn) hdrop]
      exact ⟨_, _, rfl⟩

mutual

/-- Any other destination throws, and the reader is where it was. -/
theorem readValue_of_not_fits : ∀ (dt : Value), Counted dt → ∀ {item : List Byte},
    Item item → (∀ value, ¬ Fits item dt value) → ∀ {idx : ℕ} {rest : List Byte},
      data.cells.drop idx = item ++ rest → idx + item.length < 2 ^ 32 → ∀ log,
        ∃ exception value,
          ((readValue host data dt idx).run log).1 = ⟨.threw exception, value, idx⟩
  | .scalar type dt, _, _, hitem, hfits, _, _, hdrop, _, log =>
      @readValue_of_not_fits_builtIn host data (.scalar type dt) trivial _ hitem hfits _ _
        hdrop log
  | .string dt, _, _, hitem, hfits, _, _, hdrop, _, log =>
      @readValue_of_not_fits_builtIn host data (.string dt) trivial _ hitem hfits _ _ hdrop log
  | .vector type dt, _, _, hitem, hfits, _, _, hdrop, _, log =>
      @readValue_of_not_fits_builtIn host data (.vector type dt) trivial _ hitem hfits _ _
        hdrop log
  | .object dests, hcounted, _, hitem, hfits, idx, rest, hdrop, hidx, log => by
      obtain ⟨hfew, hmembers⟩ := hcounted
      have hargs : numberOfArgs dests = dests.length := Nat.mod_eq_of_lt hfew
      cases hitem with
      | leaf hleaf =>
          obtain ⟨found, tail, rfl, hfound⟩ := exists_head_of_leaf hleaf
          have hheader := @readObjectHeader_elsewhere data idx (numberOfArgs dests) found
            (tail ++ rest) hdrop hfound log
          simp only [readValue, Probe.run_bind, hheader, reduceCtorEq, if_false, Probe.run_pure]
          exact ⟨_, _, rfl⟩
      | @object fields announced hcount hfields =>
          rw [List.cons_append, List.cons_append] at hdrop
          rw [List.length_cons, List.length_cons] at hidx
          have hheader := @readObjectHeader_at_object data idx (numberOfArgs dests) announced
            (fields.flatten ++ rest) hdrop (by omega) log
          by_cases hpos : announced = 0
          · rw [if_pos hpos] at hheader
            simp only [readValue, Probe.run_bind, hheader, reduceCtorEq, if_false,
              Probe.run_pure]
            exact ⟨_, _, rfl⟩
          · rw [if_neg hpos] at hheader
            by_cases hlength : announced.toNat = numberOfArgs dests
            · rw [if_neg (not_not.mpr hlength), u32_of_lt (by omega)] at hheader
              have hsame : fields.length = dests.length := by
                rw [hcount, hlength, hargs]
              have hall : ∀ values, ¬ AllFit fields dests values := fun values hall =>
                hfits _ (.object hpos hcount hall)
              obtain ⟨exception, values, last, hread⟩ := readFromPacket_of_not_allFit dests
                hmembers hfields hsame hall (drop_tail (drop_tail hdrop)) (by omega)
                ((readObjectHeader data (numberOfArgs dests) idx).run log).2
              simp only [readValue, Probe.run_bind, hheader, if_true, hread, reduceCtorEq,
                if_false, Probe.run_pure]
              exact ⟨_, _, rfl⟩
            · rw [if_pos hlength] at hheader
              simp only [readValue, Probe.run_bind, hheader, reduceCtorEq, if_false,
                Probe.run_pure]
              exact ⟨_, _, rfl⟩

theorem readFromPacket_of_not_allFit : ∀ (dests : List Value), AllCounted dests →
    ∀ {items : List (List Byte)}, (∀ item ∈ items, Item item) → items.length = dests.length →
      (∀ values, ¬ AllFit items dests values) → ∀ {idx : ℕ} {rest : List Byte},
        data.cells.drop idx = items.flatten ++ rest →
        idx + items.flatten.length < 2 ^ 32 → ∀ log, ∃ exception values last,
          ((readFromPacket host data dests idx).run log).1 =
            ⟨.threw exception, values, last⟩
  | [], _, items, _, hlength, hall, _, _, _, _, _ => by
      obtain rfl := List.length_eq_zero_iff.mp hlength
      exact absurd .nil (hall [])
  | dt :: dests, _, [], _, hlength, _, _, _, _, _, _ => by cases hlength
  | dt :: dests, hcounted, item :: items, hitems, hlength, hall, idx, rest, hdrop, hidx,
      log => by
      obtain ⟨hfirst, hothers⟩ := hcounted
      rw [List.flatten_cons, List.append_assoc] at hdrop
      rw [List.flatten_cons, List.length_append] at hidx
      by_cases hexists : ∃ value, Fits item dt value
      · obtain ⟨value, hfits⟩ := hexists
        have hvalue := @readValue_of_fits host data dt value item hfits idx _ hdrop (by omega) log
        obtain ⟨exception, values, last, hread⟩ := readFromPacket_of_not_allFit dests hothers
          (fun x hx => hitems x (List.mem_cons_of_mem _ hx)) (Nat.succ.inj hlength)
          (fun values hrest => hall _ (.cons hfits hrest)) (Region.drop_add hdrop) (by omega)
          ((readValue host data dt idx).run log).2
        simp only [readFromPacket, Probe.run_bind, hvalue, if_true, hread, Probe.run_pure]
        exact ⟨_, _, _, rfl⟩
      · obtain ⟨exception, value, hread⟩ := readValue_of_not_fits dt hfirst
          (hitems item List.mem_cons_self) (not_exists.mp hexists) hdrop (by omega) log
        simp only [readFromPacket, Probe.run_bind, hread, reduceCtorEq, if_false,
          Probe.run_pure]
        exact ⟨_, _, _, rfl⟩

end

/-- On every item that ends before `2 ^ 32`, with destinations of any shape that can be
counted, `read_as_object` takes the whole item if it is of their shape; otherwise it
throws, and a later read is as if it had not been tried. -/
theorem allOrNothing (host : Host) {dests : List Value} (hcounted : Counted (.object dests))
    {idx : ℕ} {item rest : List Byte} (hitem : Item item)
    (hdrop : data.cells.drop idx = item ++ rest) (hidx : idx + item.length < 2 ^ 32) :
    AllOrNothing host data dests idx item where
  hreturns value hfits log := readValue_of_fits hfits hdrop hidx log
  hthrows hfits log := readValue_of_not_fits _ hcounted hitem hfits hdrop hidx log
  hlater hfits right value hright log := by
    obtain ⟨exception, dt, hread⟩ := @readValue_of_not_fits host data _ hcounted item hitem hfits
      idx rest hdrop hidx log
    rw [Probe.run_bind, hread, readValue_of_fits hright hdrop hidx,
      readValue_of_fits hright hdrop hidx]

/-- An object of a small number and a string, for two small numbers. -/
theorem allOrNothing_pair :
    AllOrNothing .little ⟨[0x40, 0x02, 0x01, 0x07, 0x20, 0x61, 0x00], fun _ _ => 0⟩
      [.scalar .int8 0, .scalar .int8 0] 0 [0x40, 0x02, 0x01, 0x07, 0x20, 0x61, 0x00] := by
  have hnumber : Leaf [0x01, 0x07] := @Leaf.scalar .int8 1 [0x07] rfl rfl
  have hstring : Leaf [0x20, 0x61, 0x00] := @Leaf.string [0x61] (by decide)
  have hfields : ∀ field ∈ [[0x01, 0x07], [0x20, 0x61, 0x00]], Item field := by
    intro field hmem
    rcases List.mem_cons.mp hmem with rfl | hmem
    · exact .leaf hnumber
    · obtain rfl := List.mem_singleton.mp hmem
      exact .leaf hstring
  exact allOrNothing .little (by simp [Counted, AllCounted])
    (@Item.object [[0x01, 0x07], [0x20, 0x61, 0x00]] 0x02 rfl hfields) (List.append_nil _).symm
    (by decide)

/-! ## Objects that are not taken, and counts and indices that wrap -/

/-- A header of one field is that of `2 ^ 16 + 1` destinations too, and all but the first
are left as they are. -/
theorem readValue_of_count_wraps {count : ℕ} (hcount : count % 2 ^ 16 = 0)
    (wild : List ℕ → ℕ → Byte) :
    ((readValue host ⟨[0x40, 0x01, 0x01, 0x07], wild⟩
      (.object (List.replicate (count + 1) (.scalar .char 0))) 0).run []).1.status = .done := by
  have hargs : numberOfArgs (List.replicate (count + 1) (.scalar .char 0)) = 1 := by
    rw [numberOfArgs, List.length_replicate]
    omega
  have hheader := @readObjectHeader_at_object ⟨[0x40, 0x01, 0x01, 0x07], wild⟩ 0 1 0x01 _ rfl
    (by norm_num) []
  have hrest := @readsTo_end host ⟨[0x40, 0x01, 0x01, 0x07], wild⟩ 4 le_rfl count
  have hfirst : ∀ log, ((readValue host ⟨[0x40, 0x01, 0x01, 0x07], wild⟩ (.scalar .char 0)
      2).run log).1.status = .done ∧ ((readValue host ⟨[0x40, 0x01, 0x01, 0x07], wild⟩
      (.scalar .char 0) 2).run log).1.idx = 4 := fun log => by
    rw [@readValue_of_leaf host ⟨[0x40, 0x01, 0x01, 0x07], wild⟩ 2 [] (.scalar .char 0) trivial
      [0x01, 0x07] (@Leaf.scalar .int8 1 [0x07] rfl rfl) .int8 (by decide) rfl rfl
      (by norm_num) log |>.1]
    exact ⟨rfl, rfl⟩
  have hreads : ReadsTo host ⟨[0x40, 0x01, 0x01, 0x07], wild⟩
      (List.replicate (count + 1) (.scalar .char 0)) 2 4 := ⟨4, hfirst, hrest⟩
  rw [if_neg (by decide), if_neg (by decide), u32_of_lt (by norm_num)] at hheader
  simp only [readValue, Probe.run_bind, hargs, hheader, if_true, Probe.run_pure]
  exact (hreads.run _).1

theorem item_of_long_string (length : ℕ) :
    Item (0x40 :: 0x01 :: 0x20 :: (List.replicate length 0x61 ++ [0x00])) := by
  have hstring : Item (0x20 :: (List.replicate length 0x61 ++ [0x00])) :=
    .leaf (@Leaf.string (List.replicate length 0x61) (by simp [List.mem_replicate]))
  have hobject := @Item.object [0x20 :: (List.replicate length 0x61 ++ [0x00])] 0x01 rfl
    fun field hmem => (List.mem_singleton.mp hmem) ▸ hstring
  rwa [List.flatten_singleton] at hobject

/-- An object that ends at `2 ^ 32` leaves the index where it started. -/
theorem readValue_of_index_wraps {length : ℕ} (hlength : length + 4 = 2 ^ 32)
    (wild : List ℕ → ℕ → Byte) :
    ((readValue host ⟨0x40 :: 0x01 :: 0x20 :: (List.replicate length 0x61 ++ [0x00]), wild⟩
      (.object [.string []]) 0).run []).1 =
        ⟨.done, .object [.string (List.replicate length 0x61)], 0⟩ := by
  have hchars : (0 : Byte) ∉ List.replicate length 0x61 := by
    simp [List.mem_replicate]
  have hheader := @readObjectHeader_at_object
    ⟨0x40 :: 0x01 :: 0x20 :: (List.replicate length 0x61 ++ [0x00]), wild⟩ 0 1 0x01 _ rfl
    (by norm_num) []
  rw [if_neg (by decide), if_neg (by decide), u32_of_lt (by norm_num)] at hheader
  have hstring := fun log => (@readString_run
    ⟨0x40 :: 0x01 :: 0x20 :: (List.replicate length 0x61 ++ [0x00]), wild⟩ 2 [] [] _ hchars rfl
    (by rw [List.length_replicate]; omega) log).1
  rw [List.length_replicate, show 2 + (length + 2) = 2 ^ 32 by omega] at hstring
  have hwraps : u32 (2 ^ 32) = 0 := Nat.mod_self _
  have hargs : numberOfArgs [.string []] = 1 := rfl
  simp only [readValue, readFromPacket, Probe.run_bind, hargs, hheader, if_true, hstring,
    hwraps, Probe.run_pure]

/-- An object without fields is refused to no destinations; `2 ^ 16 + 1` destinations pass
for one; and the end of an object is not reached at `2 ^ 32`. -/
theorem not_allOrNothing :
    (Item [0x40, 0x00] ∧
      ((isValid .little ⟨[0x40, 0x00], fun _ _ => 0⟩ 4).run []).1 = some true ∧
      ((readValue .little ⟨[0x40, 0x00], fun _ _ => 0⟩ (.object []) 0).run []).1.status =
        .threw .emptyObject) ∧
    (((isValid .little ⟨[0x40, 0x01, 0x01, 0x07], fun _ _ => 0⟩ 6).run []).1 = some true ∧
      ((readValue .little ⟨[0x40, 0x01, 0x01, 0x07], fun _ _ => 0⟩
        (.object (List.replicate (2 ^ 16 + 1) (.scalar .char 0))) 0).run []).1.status = .done) ∧
    Item (0x40 :: 0x01 :: 0x20 :: (List.replicate (2 ^ 32 - 4) 0x61 ++ [0x00])) ∧
      ((readValue .little
        ⟨0x40 :: 0x01 :: 0x20 :: (List.replicate (2 ^ 32 - 4) 0x61 ++ [0x00]), fun _ _ => 0⟩
        (.object [.string []]) 0).run []).1.idx = 0 := by
  refine ⟨⟨@Item.object [] 0x00 rfl (by simp), by decide +kernel, by decide +kernel⟩,
    ⟨by decide +kernel, readValue_of_count_wraps (by norm_num) _⟩,
    item_of_long_string _, ?_⟩
  rw [readValue_of_index_wraps (by norm_num)]

end Reads

end Sednl.Commit
