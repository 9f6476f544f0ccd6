import Sednl.Wire.Validation

/-!
# Accepted packets and stray reads

What `is_valid` answers and what it touches, for whole packets.  Everything
rests on one number: how far the index can go while announced fields are read
from stray bytes.  Short packets cannot reach `2 ^ 32`; a long one can, and
`isValid_accepts_wrapped` shows the index coming back into the data.
-/

namespace Sednl.Acceptance

open Sednl.Endian
open Sednl.Memory
open Sednl.Tag
open Sednl.Word
open Sednl.Grammar
open Sednl.Validator
open Sednl.Validation

theorem tame_iff (bytes : List Byte) :
    Tame (scan 0 0 bytes) ↔
      ∀ stop owed, Ends bytes (.overrun stop owed) → stop + 9 * owed < 2 ^ 32 := by
  constructor
  · intro htame stop owed hends
    exact htame stop owed ((scan_eq_iff _ _).mpr hends)
  · intro hends stop owed hscan
    exact hends stop owed ((scan_eq_iff _ _).mp hscan)

instance : DecidablePred WellFormed := fun bytes =>
  decidable_of_iff _ (wellFormed_iff_scan bytes).symm

/-- An accepted packet follows the grammar, whatever lies behind it. -/
theorem wellFormed_of_isValid {host : Host} {bytes : List Byte}
    (hlength : bytes.length < 2 ^ 32)
    (hends : ∀ stop owed, Ends bytes (.overrun stop owed) → stop + 9 * owed < 2 ^ 32)
    {wild : List ℕ → ℕ → Byte} {fuel : ℕ} (hfuel : bytes.length + 2 ≤ fuel)
    (hvalid : ((isValid host ⟨bytes, wild⟩ fuel).run []).1 = some true) :
    WellFormed bytes := by
  have hrun := (@isValid_run host ⟨bytes, wild⟩ hlength fuel hfuel
    ((tame_iff bytes).mpr hends)).1
  rw [hvalid, Option.some.injEq, eq_comm, decide_eq_true_iff] at hrun
  exact (wellFormed_iff_scan bytes).mpr hrun

/-- `is_valid` decides the grammar as long as no reading that runs past the end
leaves fields enough to carry the index to `2 ^ 32`. -/
theorem isValid_eq_wellFormed (host : Host) {bytes : List Byte}
    (hlength : bytes.length < 2 ^ 31)
    (hends : ∀ stop owed, Ends bytes (.overrun stop owed) →
      stop + 9 * owed < 2 ^ 32)
    (wild : List ℕ → ℕ → Byte) {fuel : ℕ} (hfuel : bytes.length + 2 ≤ fuel) :
    ((isValid host ⟨bytes, wild⟩ fuel).run []).1 =
      some (decide (WellFormed bytes)) := by
  have hsize : (Region.mk bytes wild).size < 2 ^ 32 := by
    simp only [Region.size]
    omega
  rw [(isValid_run hsize hfuel ((tame_iff bytes).mpr hends)).1]
  simp only [wellFormed_iff_scan]

/-- An object of an object and a string. -/
def wholePacket : List Byte :=
  [0x40, 0x02, 0x40, 0x01, 0x01, 0x2A, 0x20, 0x61, 0x00]

/-- An object that ends behind the first of its two fields. -/
def cutPacket : List Byte :=
  [0x40, 0x02, 0x01, 0x2A]

theorem scan_wholePacket : scan 0 0 wholePacket = .complete := by decide +kernel

theorem scan_cutPacket : scan 0 0 cutPacket = .overrun 4 1 := by decide +kernel

/-- The second packet is refused although its missing field is found behind it. -/
theorem isValid_eq_wellFormed_both :
    ((isValid .little ⟨wholePacket, fun _ _ => 0⟩ 11).run []).1 =
        some (decide (WellFormed wholePacket)) ∧
      ((isValid .big ⟨cutPacket, fun _ _ => 0x01⟩ 6).run []).1 =
        some (decide (WellFormed cutPacket)) := by
  refine ⟨isValid_eq_wellFormed .little (by decide) (fun stop owed hends => ?_) _ (by decide),
    isValid_eq_wellFormed .big (by decide) (fun stop owed hends => ?_) _ (by decide)⟩
  · rw [← scan_eq_iff, scan_wholePacket] at hends
    cases hends
  · rw [← scan_eq_iff, scan_cutPacket] at hends
    cases hends
    decide

/-! ## A packet whose stray fields carry the index around -/

/-- `depth` objects of 177 fields, each holding the next, around one string. -/
def nested : ℕ → List Byte
  | 0 => [0x20, 0x61, 0x61, 0x00]
  | depth + 1 => 0x40 :: 0xB1 :: nested depth

/-- The nest behind an `Int8` whose payload byte is the `String` tag. -/
def wrapping (depth : ℕ) : List Byte :=
  0x01 :: 0x20 :: nested depth

theorem length_nested (depth : ℕ) : (nested depth).length = 2 * depth + 4 := by
  induction depth with
  | zero => rfl
  | succ depth ih => simp [nested, ih]; omega

theorem idxOf_nested (depth : ℕ) : (nested depth).idxOf 0 = 2 * depth + 3 := by
  induction depth with
  | zero => rfl
  | succ depth ih =>
      rw [nested, List.idxOf_cons_ne _ (by decide), List.idxOf_cons_ne _ (by decide), ih]
      omega

theorem zero_mem_nested (depth : ℕ) : 0 ∈ nested depth := by
  rw [← List.idxOf_lt_length_iff, idxOf_nested, length_nested]
  omega

theorem not_wellFormed_wrapping {depth : ℕ} (hdepth : 0 < depth) :
    ¬ WellFormed (wrapping depth) := by
  have hscan : ∀ depth position owed, 2 ≤ owed →
      scan position owed (nested depth) ≠ .complete := by
    intro depth
    induction depth with
    | zero =>
        intro position owed howed
        have hleaf : Leaf [0x20, 0x61, 0x61, 0x00] := @Leaf.string [0x61, 0x61] (by decide)
        have hstep := scan_leaf hleaf position owed []
        rw [List.append_nil] at hstep
        rw [nested, hstep, scan, if_neg (by omega)]
        simp
    | succ depth ih =>
        intro position owed _
        rw [nested, show (0x40 : Byte) = PacketType.object.toByte from rfl, scan_object]
        exact ih _ _ (by simp)
  have hint8 : Leaf [0x01, 0x20] := @Leaf.scalar .int8 1 [0x20] rfl rfl
  obtain ⟨depth, rfl⟩ : ∃ pred, depth = pred + 1 :=
    Nat.exists_eq_succ_of_ne_zero hdepth.ne'
  rw [wellFormed_iff_scan]
  have hstep := scan_leaf hint8 0 0 (nested (depth + 1))
  rw [wrapping]
  intro hcomplete
  rw [show 0x01 :: 0x20 :: nested (depth + 1) = [0x01, 0x20] ++ nested (depth + 1) from rfl,
    hstep, nested, show (0x40 : Byte) = PacketType.object.toByte from rfl,
    scan_object] at hcomplete
  exact hscan depth _ _ (by simp) hcomplete

section Wrapping

variable {host : Host} {data : Region Byte}

/-- When every stray byte is the `Int64` tag, an item past the end costs nine
bytes, the last of which may carry the index around. -/
theorem validNextItem_int64 (hwild : ∀ log i, data.wild log i = 0x04) {fuel i : ℕ}
    (hi : data.size ≤ i) (log : List ℕ) :
    advance ((validNextItem host data data.size (fuel + 1) i).run log).1 =
      some (true, u32 (i + 9)) := by
  have hwrap : u32 (u32 (i + 8) + 1) = u32 (i + 9) := u32_u32_add _ _
  simp only [validNextItem, Probe.run_bind, Region.run_read, Region.value_of_le hi,
    hwild]
  rw [← hwrap]
  rfl

theorem validFields_int64 (hwild : ∀ log i, data.wild log i = 0x04) {fuel : ℕ}
    (strays fields : ℕ) {i : ℕ} (hi : data.size ≤ i) (hlast : i + 9 * strays < 2 ^ 32)
    (log : List ℕ) :
    ∃ later, (validFields (validNextItem host data data.size (fuel + 1))
        (fields + (strays + 1)) i).run log =
      (validFields (validNextItem host data data.size (fuel + 1)) fields
        (u32 (i + 9 * (strays + 1)))).run later := by
  induction strays generalizing i log with
  | zero => exact ⟨_, validFields_of_true fields (validNextItem_int64 hwild hi log)⟩
  | succ strays ih =>
      have hstep : u32 (i + 9) = i + 9 := u32_of_lt (by omega)
      have hitem := @validNextItem_int64 host data hwild fuel i hi log
      rw [hstep] at hitem
      obtain ⟨later, hrest⟩ := @ih (i + 9) (by omega) (by omega)
        ((validNextItem host data data.size (fuel + 1) i).run log).2
      refine ⟨later, ?_⟩
      rw [← Nat.add_assoc fields, validFields_of_true _ hitem, hrest,
        show i + 9 + 9 * (strays + 1) = i + 9 * (strays + 1 + 1) by ring]

/-- An object of the nest ends where its 176 missing fields end. -/
theorem validNextItem_object (hsize : data.size < 2 ^ 32) {depth pos fuel start stop : ℕ}
    (hdrop : data.cells.drop pos = nested (depth + 1)) (hstop : stop < 2 ^ 32)
    (hitem : ∀ log, advance ((validNextItem host data data.size (fuel + 1)
      (pos + 2)).run log).1 = some (true, start))
    (hfields : ∀ log, ∃ later, (validFields (validNextItem host data data.size
      (fuel + 1)) 176 start).run log = (some (true, stop), later)) (log : List ℕ) :
    advance ((validNextItem host data data.size (fuel + 2) pos).run log).1 =
      some (true, stop) := by
  rw [nested] at hdrop
  have hrun : ∃ later, (validFields (validNextItem host data data.size (fuel + 1))
      (0xB1 : Byte).toNat (pos + 2)).run ((pos + 1) :: pos :: log) =
      (some (true, stop), later) := by
    rw [show (0xB1 : Byte).toNat = 176 + 1 from rfl, validFields_of_true 176 (hitem _)]
    exact hfields _
  obtain ⟨later, hrun⟩ := hrun
  have hobject := @advance_validObject data pos (pos :: log)
    (validNextItem host data data.size (fuel + 1)) 0xB1 _ hsize hdrop
    (fun i later' heq => by
      rw [hrun, Prod.mk.injEq, Option.some.injEq, Prod.mk.injEq] at heq
      omega)
  rw [hrun, Prod.mk.injEq] at hobject
  rw [validNextItem]
  simp only [Probe.run_bind, Region.run_read, Region.value_head hdrop]
  exact hobject.1

/-- Every level of the nest owes 176 fields it does not have. -/
theorem validNextItem_nested (hwild : ∀ log i, data.wild log i = 0x04)
    (hsize : data.size < 2 ^ 32) {depth pos fuel : ℕ}
    (hdrop : data.cells.drop pos = nested depth)
    (hend : data.size + 1584 * depth < 2 ^ 32) (log : List ℕ) :
    advance ((validNextItem host data data.size (fuel + depth + 1) pos).run log).1 =
      some (true, data.size + 1584 * depth) := by
  induction depth generalizing pos log with
  | zero =>
      have hlength := Region.length_of_drop hdrop
      rw [length_nested] at hlength
      have hstring := (validString_run hsize hdrop (by decide) (pos :: log)).1
      rw [validNextItem]
      simp only [Probe.run_bind, Region.run_read, Region.value_head hdrop]
      refine hstring.trans ?_
      rw [show List.idxOf (0 : Byte) [0x61, 0x61, 0x00] = 2 by decide]
      congr 2
      omega
  | succ depth ih =>
      have hbody : data.cells.drop (pos + 2) = nested depth :=
        @Region.drop_add _ _ _ [0x40, 0xB1] _ hdrop
      refine validNextItem_object hsize hdrop hend
        (fun log => ih hbody (by linarith) log) (fun log => ?_) log
      obtain ⟨later, hrun⟩ := @validFields_int64 host data hwild (fuel + depth) 175 0
        (data.size + 1584 * depth) (by omega) (by linarith) log
      have hstop : u32 (data.size + 1584 * depth + 9 * (175 + 1)) =
          data.size + 1584 * (depth + 1) := by
        rw [u32_of_lt (by linarith)]
        ring
      rw [hstop] at hrun
      exact ⟨later, hrun⟩

/-- With exactly ten bytes too many, the last stray field is the string hidden
in the payload of the leading `Int8`, and the packet is accepted. -/
theorem isValid_wrapping (hwild : ∀ log i, data.wild log i = 0x04) {depth : ℕ}
    (hcells : data.cells = wrapping (depth + 1))
    (hwrap : data.size + 1584 * (depth + 1) = 2 ^ 32 + 10) (fuel : ℕ) :
    ((isValid host data (fuel + depth + 4)).run []).1 = some true := by
  have hdrop : data.cells.drop 2 = nested (depth + 1) := by
    rw [hcells]
    rfl
  have hstring : data.cells.drop 1 = 0x20 :: nested (depth + 1) := by
    rw [hcells]
    rfl
  have hlength : data.size = 2 * depth + 8 := by
    rw [Region.size, hcells, wrapping, List.length_cons, List.length_cons, length_nested]
    omega
  have hbody : data.cells.drop (2 + 2) = nested depth :=
    @Region.drop_add _ _ _ [0x40, 0xB1] _ hdrop
  have hlast : ∀ log, advance ((validNextItem host data data.size (fuel + depth + 1)
      1).run log).1 = some (true, data.size) := by
    intro log
    have hrun := (validString_run (by omega) hstring (zero_mem_nested _) (1 :: log)).1
    rw [idxOf_nested] at hrun
    rw [validNextItem]
    simp only [Probe.run_bind, Region.run_read, Region.value_head hstring]
    refine hrun.trans ?_
    rw [hlength]
    congr 2
    omega
  have hobject : ∀ log, advance ((validNextItem host data data.size (fuel + depth + 2)
      2).run log).1 = some (true, data.size) := by
    refine validNextItem_object (by omega) hdrop (by omega)
      (fun log => @validNextItem_nested host data hwild (by omega) depth 4 fuel hbody
        (by omega) log) fun log => ?_
    obtain ⟨later, hrun⟩ := @validFields_int64 host data hwild (fuel + depth) 174 1
      (data.size + 1584 * depth) (by omega) (by omega) log
    have hwrapped : u32 (data.size + 1584 * depth + 9 * (174 + 1)) = 1 := by
      simp only [u32]
      omega
    rw [hwrapped, validFields_of_true 0 (hlast later)] at hrun
    exact ⟨_, hrun⟩
  have hint8 : advance ((validNextItem host data data.size (fuel + depth + 3) 0).run
      []).1 = some (true, 2) := by
    have hhead : data.cells.drop 0 = 0x01 :: 0x20 :: nested (depth + 1) := by
      rw [hcells]
      rfl
    rw [validNextItem]
    simp only [Probe.run_bind, Region.run_read, Region.value_head hhead]
    rfl
  have hfirst := isValidLoop_of_true (by omega) hint8
  have hsecond := isValidLoop_of_true (by omega)
    (hobject ((validNextItem host data data.size (fuel + depth + 3) 0).run []).2)
  rw [isValid, u32_of_lt (by omega), hfirst, hsecond, isValidLoop,
    if_neg (lt_irrefl _), decide_eq_true rfl]
  rfl

end Wrapping

theorem isValid_wrapping_of_eq {depth : ℕ} (hdepth : 1586 * depth = 2 ^ 32 + 4) :
    (wrapping depth).length < 2 ^ 31 ∧ ¬ WellFormed (wrapping depth) ∧
      ((isValid .little ⟨wrapping depth, fun _ _ => 0x04⟩
        ((wrapping depth).length + 2)).run []).1 = some true := by
  obtain ⟨depth, rfl⟩ : ∃ pred, depth = pred + 1 :=
    Nat.exists_eq_succ_of_ne_zero (by omega)
  have hlength : (wrapping (depth + 1)).length = 2 * depth + 8 := by
    rw [wrapping, List.length_cons, List.length_cons, length_nested]
    omega
  have hwrap : 2 * depth + 8 + 1584 * (depth + 1) = 2 ^ 32 + 10 := by linarith
  refine ⟨by omega, not_wellFormed_wrapping (by omega), ?_⟩
  have hvalid := @isValid_wrapping .little ⟨wrapping (depth + 1), fun _ _ => 0x04⟩
    (fun _ _ => rfl) depth rfl (by rw [Region.size, hlength, hwrap]) (depth + 6)
  rwa [show depth + 6 + depth + 4 = (wrapping (depth + 1)).length + 2 by omega] at hvalid

/-- 5,416,106 bytes, whose stray fields end ten bytes after the wrap. -/
theorem isValid_accepts_wrapped :
    (wrapping 2708050).length < 2 ^ 31 ∧ ¬ WellFormed (wrapping 2708050) ∧
      ((isValid .little ⟨wrapping 2708050, fun _ _ => 0x04⟩
        ((wrapping 2708050).length + 2)).run []).1 = some true :=
  isValid_wrapping_of_eq (by norm_num)

/-! ## Packets short enough to be framed -/

theorem opens_owed_le {owed : ℕ} {bytes : List Byte} (hopens : Opens owed bytes) :
    owed ≤ 255 * bytes.length := by
  induction hopens with
  | nil => simp
  | leaf _ _ ih =>
      rw [List.length_append]
      omega
  | header count _ ih =>
      have hcount : count.toNat < 256 := count.toNat_lt
      rw [List.length_append]
      simp only [List.length_cons, List.length_nil]
      omega

theorem token_cut_le {bytes : List Byte} {length : ℕ}
    (htoken : token bytes = .cut length) : length ≤ 3 + 65535 * 8 := by
  cases front bytes with
  | malformed hmalformed =>
      rw [hmalformed] at htoken
      cases htoken
  | scalar hlayout body =>
      obtain ⟨_, hsize⟩ := PacketType.scalar_size_bounds hlayout
      rw [token_scalar hlayout, sized_eq_cut] at htoken
      omega
  | string body =>
      rw [token_string] at htoken
      split at htoken <;> simp at htoken
  | object count body => simp [token_object] at htoken
  | @array type size hlayout high low body =>
      obtain ⟨_, hsize⟩ := PacketType.array_size_bounds hlayout
      have hcount : beValue [high, low] ≤ 65535 := by
        have := beValue_lt [high, low]
        simp at this
        omega
      rw [token_array hlayout, sized_eq_cut] at htoken
      calc length = 3 + beValue [high, low] * size := htoken.1.symm
        _ ≤ 3 + 65535 * 8 := by gcongr

/-- What fits in a frame behind a 16-bit length, a name and its NUL is too
short for the index to wrap. -/
theorem tame_of_length {bytes : List Byte} (hlength : bytes.length ≤ 65532) :
    Tame (scan 0 0 bytes) := by
  rw [tame_iff]
  intro stop owed hends
  cases hends with
  | short hopens =>
      have := opens_owed_le hopens
      omega
  | @cut owed length front rest hbytes hopens htoken =>
      have howed := opens_owed_le hopens
      have hcut := token_cut_le htoken
      have hfront : front.length ≤ bytes.length := by simp [hbytes]
      omega

/-- Reading the packet from the front meets a string without its NUL, or ends
while announced fields have not started. -/
def RunsOff (bytes : List Byte) : Prop :=
  Ends bytes .unterminated ∨ ∃ stop owed, 0 < owed ∧ Ends bytes (.overrun stop owed)

theorem strays_scan_iff (bytes : List Byte) :
    Strays (scan 0 0 bytes) ↔ RunsOff bytes := by
  constructor
  · intro hstrays
    cases hscan : scan 0 0 bytes with
    | complete => simp [hscan, Strays] at hstrays
    | malformed => simp [hscan, Strays] at hstrays
    | unterminated => exact .inl ((scan_eq_iff _ _).mp hscan)
    | overrun stop owed =>
        rw [hscan] at hstrays
        exact .inr ⟨stop, owed, hstrays, (scan_eq_iff _ _).mp hscan⟩
  · rintro (hends | ⟨stop, owed, howed, hends⟩)
    · rw [(scan_eq_iff _ _).mpr hends]
      trivial
    · rw [(scan_eq_iff _ _).mpr hends]
      exact howed

/-- Validating a framed packet stays inside it exactly when no string and no
object runs off its end, whatever the stray reads return. -/
theorem isValid_inBounds_iff (host : Host) {bytes : List Byte}
    (hlength : bytes.length ≤ 65532) (wild : List ℕ → ℕ → Byte) {fuel : ℕ}
    (hfuel : bytes.length + 2 ≤ fuel) :
    InBounds bytes.length ((isValid host ⟨bytes, wild⟩ fuel).run []).2 ↔
      ¬ RunsOff bytes := by
  have hsize : (Region.mk bytes wild).size < 2 ^ 32 := by
    simp only [Region.size]
    omega
  rw [← strays_scan_iff]
  exact (isValid_run hsize hfuel (tame_of_length hlength)).2

theorem isValid_inBounds_iff_both :
    (InBounds 9 ((isValid .little ⟨wholePacket, fun _ _ => 0⟩ 11).run []).2 ↔
        ¬ RunsOff wholePacket) ∧
      (InBounds 4 ((isValid .big ⟨cutPacket, fun _ _ => 0x01⟩ 6).run []).2 ↔
        ¬ RunsOff cutPacket) :=
  ⟨isValid_inBounds_iff .little (by decide) _ (by decide),
    isValid_inBounds_iff .big (by decide) _ (by decide)⟩

/-- An object announcing one field and ending there is read at its size. -/
theorem isValid_reads_past_object :
    ¬ InBounds 2 ((isValid .little ⟨[0x40, 0x01], fun _ _ => 0⟩ 4).run []).2 := by
  decide +kernel

end Sednl.Acceptance
