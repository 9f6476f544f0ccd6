import Sednl.Wire.Validator

/-!
# What the validator decides

`settles_validNextItem` follows one item of the scan: it either stays inside
the data and agrees with the flat reading of the grammar, or it runs past the
end exactly where that reading does.  The run of `is_valid` is assembled from
it, and with it which byte strings it accepts and which make it read outside.
-/

namespace Sednl.Validation

open Sednl.Endian
open Sednl.Memory
open Sednl.Tag
open Sednl.Word
open Sednl.SocketHelp
open Sednl.Grammar
open Sednl.Validator

/-- The `i++` that follows every item, in both loops. -/
def advance : Verdict → Verdict
  | some (true, i) => some (true, u32 (i + 1))
  | verdict => verdict

/-- Where a run that should leave `owed` fields stands, for a flat reading that
ends in `outcome`: inside the data, stopped, just past the end with nothing
more to read, or reading stray bytes. -/
inductive Settles (data : Region Byte) (outcome : Outcome) (least owed : ℕ)
    (log : List ℕ) : Verdict × List ℕ → Prop
  | inside {stop : ℕ} {later : List ℕ} (hleast : least ≤ stop)
      (hstop : stop ≤ data.size)
      (hscan : outcome = scan stop owed (data.cells.drop stop))
      (hlog : InBounds data.size later ↔ InBounds data.size log) :
      Settles data outcome least owed log (some (true, stop), later)
  | malformed {i : ℕ} {later : List ℕ} (houtcome : outcome = .malformed)
      (hlog : InBounds data.size later ↔ InBounds data.size log) :
      Settles data outcome least owed log (some (false, i), later)
  | unterminated {i : ℕ} {later : List ℕ} (houtcome : outcome = .unterminated)
      (hlog : ¬ InBounds data.size later) :
      Settles data outcome least owed log (some (false, i), later)
  | overrun {stop : ℕ} {later : List ℕ} (houtcome : outcome = .overrun stop owed)
      (hstop : data.size < stop)
      (hlog : InBounds data.size later ↔ InBounds data.size log) :
      Settles data outcome least owed log (some (true, stop), later)
  | astray {ok : Bool} {i stop left : ℕ} {later : List ℕ}
      (houtcome : outcome = .overrun stop left) (hleft : owed < left)
      (hi : ok = true → data.size < i ∧ i + 9 * owed ≤ stop + 9 * left)
      (hlog : ¬ InBounds data.size later) :
      Settles data outcome least owed log (some (ok, i), later)

/-- Nothing the stray bytes can add carries the index past `2 ^ 32`. -/
def Tame (outcome : Outcome) : Prop :=
  ∀ stop owed, outcome = .overrun stop owed → stop + 9 * owed < 2 ^ 32

section Loop

variable {next : ℕ → Probe Verdict} {i j : ℕ} {log : List ℕ}

/-- What an item that was accepted, or refused, returned. -/
theorem advance_eq_some {verdict : Verdict} {ok : Bool} (hitem : advance verdict = some (ok, j)) :
    ∃ k, verdict = some (ok, k) ∧ (ok = true → u32 (k + 1) = j) ∧ (ok = false → k = j) := by
  cases verdict with
  | none => simp [advance] at hitem
  | some outcome =>
      obtain ⟨answer, k⟩ := outcome
      cases answer with
      | false =>
          obtain ⟨rfl, rfl⟩ : false = ok ∧ k = j := by simpa [advance] using hitem
          exact ⟨k, rfl, by simp, fun _ => rfl⟩
      | true =>
          obtain ⟨rfl, hj⟩ : true = ok ∧ u32 (k + 1) = j := by simpa [advance] using hitem
          exact ⟨k, rfl, fun _ => hj, by simp⟩

theorem validFields_of_true (fields : ℕ)
    (hitem : advance ((next i).run log).1 = some (true, j)) :
    (validFields next (fields + 1) i).run log =
      (validFields next fields j).run ((next i).run log).2 := by
  obtain ⟨k, hverdict, hj, _⟩ := advance_eq_some hitem
  simp only [validFields, Probe.run_bind, hverdict, hj rfl]

theorem validFields_of_false (fields : ℕ)
    (hitem : advance ((next i).run log).1 = some (false, j)) :
    (validFields next (fields + 1) i).run log =
      (some (false, j), ((next i).run log).2) := by
  obtain ⟨k, hverdict, _, hj⟩ := advance_eq_some hitem
  simp only [validFields, Probe.run_bind, hverdict, hj rfl, Probe.run_pure]

theorem isValidLoop_of_true {host : Host} {data : Region Byte} {size fuel : ℕ}
    (hi : i < size)
    (hitem : advance ((validNextItem host data size fuel i).run log).1 =
      some (true, j)) :
    (isValidLoop host data size (fuel + 1) i).run log =
      (isValidLoop host data size fuel j).run
        ((validNextItem host data size fuel i).run log).2 := by
  obtain ⟨k, hverdict, hj, _⟩ := advance_eq_some hitem
  simp only [isValidLoop, if_pos hi, Probe.run_bind, hverdict, hj rfl]

end Loop

section Item

variable {host : Host} {data : Region Byte}

/-- An item read entirely from stray bytes moves the index by at most nine. -/
theorem validNextItem_outside {fuel i : ℕ} (houtside : data.size ≤ i)
    (hi : i + 9 < 2 ^ 32) (log : List ℕ) :
    ∃ ok j, advance ((validNextItem host data data.size (fuel + 1) i).run log).1 =
        some (ok, j) ∧ (ok = true → i < j ∧ j ≤ i + 9) ∧
      ¬ InBounds data.size
        ((validNextItem host data data.size (fuel + 1) i).run log).2 := by
  have hlog : ¬ InBounds data.size
      ((validNextItem host data data.size (fuel + 1) i).run log).2 := by
    intro hbounds
    have hhead := hbounds i ((validTagged_grows (validNextItem_grows fuel) i _
      (i :: log)).subset (List.mem_cons_self))
    omega
  have hstep : u32 (i + 1) = i + 1 := u32_of_lt (by omega)
  suffices hverdict : ∃ ok j, advance ((validNextItem host data data.size
      (fuel + 1) i).run log).1 = some (ok, j) ∧ (ok = true → i < j ∧ j ≤ i + 9) by
    obtain ⟨ok, j, hverdict, hj⟩ := hverdict
    exact ⟨ok, j, hverdict, hj, hlog⟩
  simp only [validNextItem, Probe.run_bind, Region.run_read]
  cases PacketType.ofByte (data.value log i) with
  | none => exact ⟨false, i, rfl, by simp⟩
  | some type =>
      cases hlayout : type.layout with
      | reserved =>
          rw [validTagged_reserved hlayout]
          exact ⟨false, i, rfl, by simp⟩
      | scalar width =>
          obtain ⟨_, hwidth⟩ := PacketType.scalar_size_bounds hlayout
          rw [validTagged_scalar hlayout]
          refine ⟨true, i + width + 1, ?_, fun _ => by omega⟩
          simp [advance, u32_of_lt (show i + width < 2 ^ 32 by omega),
            u32_of_lt (show i + width + 1 < 2 ^ 32 by omega)]
      | string =>
          obtain rfl := PacketType.layout_eq_string.mp hlayout
          refine ⟨true, i + 2, ?_, fun _ => by omega⟩
          have hrounds : data.size - (i + 1) = 0 := by omega
          have hne : i + 1 ≠ data.size := by omega
          simp [validTagged, validString, hstep, hrounds, skipString, hne, advance,
            u32_of_lt (show i + 1 + 1 < 2 ^ 32 by omega)]
      | object =>
          obtain rfl := PacketType.layout_eq_object.mp hlayout
          refine ⟨false, i + 1, ?_, by simp⟩
          have hcut : data.size < i + 1 + 1 := by omega
          simp [validTagged, validObject, hstep, hcut, advance]
      | array width =>
          rw [validTagged_array hlayout]
          refine ⟨false, i + 1, ?_, by simp⟩
          have hcut : data.size < i + 1 + 2 := by omega
          simp [validArray, hstep, hcut, advance]

/-- A run of fields that starts outside stays there, nine bytes a field. -/
theorem validFields_outside {fuel : ℕ} (fields : ℕ) {i : ℕ}
    (houtside : data.size ≤ i) (hi : i + 9 * fields < 2 ^ 32) (log : List ℕ) :
    ∃ ok j, ((validFields (validNextItem host data data.size (fuel + 1)) fields
        i).run log).1 = some (ok, j) ∧ (ok = true → i ≤ j ∧ j ≤ i + 9 * fields ∧
        (0 < fields → i < j)) ∧
      (0 < fields → ¬ InBounds data.size ((validFields (validNextItem host data
        data.size (fuel + 1)) fields i).run log).2) := by
  induction fields generalizing i log with
  | zero => exact ⟨true, i, rfl, by simp, by simp⟩
  | succ fields ih =>
      obtain ⟨ok, j, hitem, hj, hlog⟩ := @validNextItem_outside host data fuel i
        houtside (by omega) log
      cases ok with
      | false =>
          rw [validFields_of_false fields hitem]
          exact ⟨false, j, rfl, by simp, fun _ => hlog⟩
      | true =>
          obtain ⟨hlt, hle⟩ := hj rfl
          obtain ⟨ok, j', hrest, hj', _⟩ := @ih j (by omega) (by omega)
            ((validNextItem host data data.size (fuel + 1) i).run log).2
          rw [validFields_of_true fields hitem]
          refine ⟨ok, j', hrest, fun hok => ?_, fun _ hbounds => hlog ?_⟩
          · obtain ⟨_, _, _⟩ := hj' hok
            omega
          · exact hbounds.of_suffix
              (validFields_grows (validNextItem_grows (fuel + 1)) fields j _)

/-! ## One item, and the fields of an object -/

/-- The loop over a string stops at its NUL, or reads past the end. -/
theorem skipString_run (hsize : data.size < 2 ^ 32) {i : ℕ} (hi : i ≤ data.size)
    (log : List ℕ) :
    ((skipString data data.size (data.size - i) i).run log).1 =
        i + (data.cells.drop i).idxOf 0 ∧
      (InBounds data.size
          ((skipString data data.size (data.size - i) i).run log).2 ↔
        InBounds data.size log ∧ 0 ∈ data.cells.drop i) := by
  induction hrounds : data.size - i generalizing i log with
  | zero =>
      obtain rfl : i = data.size := by omega
      simp [skipString, Region.size]
  | succ rounds ih =>
      have hlt : i < data.size := by omega
      obtain ⟨byte, body, hdrop⟩ := Region.exists_head hlt
      have hbody : data.cells.drop (i + 1) = body := @Region.drop_add _ _ _ [byte] _ hdrop
      have hstep : u32 (i + 1) = i + 1 := u32_of_lt (by omega)
      simp only [skipString, Probe.run_bind, Region.run_read, Probe.run_ite,
        Region.value_head hdrop, hdrop, hlt, and_true]
      by_cases hbyte : byte = 0
      · simp [hbyte, hlt]
      · obtain ⟨hvalue, hlog⟩ := @ih (i + 1) (by omega) (i :: log) (by omega)
        rw [if_pos hbyte, hstep, hvalue, hlog, hbody, List.idxOf_cons_ne _ hbyte]
        simp only [inBounds_cons, hlt, true_and, List.mem_cons, Ne.symm hbyte, false_or]
        exact ⟨by omega, trivial⟩

section Settled

variable {outcome : Outcome} {least owed : ℕ} {log : List ℕ}

theorem Settles.mono {least' : ℕ} {log' : List ℕ} {verdict : Verdict × List ℕ}
    (hsettles : Settles data outcome least owed log verdict) (hleast : least' ≤ least)
    (hlog : InBounds data.size log ↔ InBounds data.size log') :
    Settles data outcome least' owed log' verdict := by
  cases hsettles with
  | inside h hstop hscan hlater =>
      exact .inside (hleast.trans h) hstop hscan (hlater.trans hlog)
  | malformed h hlater => exact .malformed h (hlater.trans hlog)
  | unterminated h hlater => exact .unterminated h hlater
  | overrun h hstop hlater => exact .overrun h hstop (hlater.trans hlog)
  | astray h hleft hi hlater => exact .astray h hleft hi hlater

/-- The index a tame run leaves behind has not wrapped. -/
theorem Settles.lt_of_tame {i : ℕ} {later : List ℕ}
    (hsettles : Settles data outcome least owed log (some (true, i), later))
    (hsize : data.size < 2 ^ 32) (htame : Tame outcome) : i < 2 ^ 32 := by
  cases hsettles with
  | inside _ hstop => omega
  | overrun h => exact lt_of_le_of_lt (Nat.le_add_right _ _) (htame _ _ h)
  | astray h _ hi =>
      have := htame _ _ h
      have := hi rfl
      omega

end Settled

section Settling

variable {fuel pos : ℕ} {log : List ℕ}

/-- A scalar or an array that announces its length. -/
theorem settles_of_sized {owed length : ℕ} {rest : List Byte} {verdict : Verdict}
    {later : List ℕ} (hdrop : data.cells.drop pos = rest) (hpos : pos ≤ data.size)
    (htoken : token rest = .sized length (data.size - pos)) (hlength : 0 < length)
    (hverdict : verdict = some (true, pos + length))
    (hlog : InBounds data.size later ↔ InBounds data.size log) :
    Settles data (scan pos owed rest) (pos + 1) (owed - 1) log (verdict, later) := by
  subst hverdict
  by_cases hfits : length ≤ data.size - pos
  · have hleaf : token rest = .leaf length := by
      rw [htoken, sized_eq_leaf]
      exact ⟨rfl, hfits⟩
    refine .inside (by omega) (by omega) ?_ hlog
    rw [scan_of_leaf hleaf, ← hdrop, List.drop_drop]
  · have hcut : token rest = .cut length := by
      rw [htoken, sized_eq_cut]
      exact ⟨rfl, by omega⟩
    exact .overrun (scan_of_cut hcut pos owed) (by omega) hlog

/-- A string that ends inside the data is left at its NUL. -/
theorem validString_run (hsize : data.size < 2 ^ 32) {tag : Byte} {body : List Byte}
    (hdrop : data.cells.drop pos = tag :: body) (hmem : 0 ∈ body) (log : List ℕ) :
    advance ((validString data data.size pos).run log).1 =
        some (true, pos + (2 + body.idxOf 0)) ∧
      (InBounds data.size ((validString data data.size pos).run log).2 ↔
        InBounds data.size log) := by
  have hpos := Region.lt_size_of_head hdrop
  have hbody : data.cells.drop (pos + 1) = body := @Region.drop_add _ _ _ [tag] _ hdrop
  have hlength := Region.length_of_drop hbody
  have hstep : u32 (pos + 1) = pos + 1 := u32_of_lt (by omega)
  obtain ⟨hvalue, hlog⟩ := @skipString_run data hsize (pos + 1) hpos log
  rw [hbody] at hvalue hlog
  have hindex := List.idxOf_lt_length_of_mem hmem
  have hnext : u32 (pos + 1 + body.idxOf 0 + 1) = pos + (2 + body.idxOf 0) := by
    rw [u32_of_lt (by omega)]
    omega
  simp only [validString, Probe.run_bind, hstep, hvalue, Probe.run_ite, Probe.run_pure]
  rw [if_neg (by omega)]
  exact ⟨by simp only [advance, hnext], by simp [hlog, hmem]⟩

theorem settles_validString (hsize : data.size < 2 ^ 32) {owed : ℕ} {body : List Byte}
    (hdrop : data.cells.drop pos = PacketType.string.toByte :: body) :
    Settles data (scan pos owed (PacketType.string.toByte :: body)) (pos + 1)
      (owed - 1) log (advance ((validString data data.size pos).run (pos :: log)).1,
        ((validString data data.size pos).run (pos :: log)).2) := by
  have hpos := Region.lt_size_of_head hdrop
  have hbody : data.cells.drop (pos + 1) = body :=
    @Region.drop_add _ _ _ [PacketType.string.toByte] _ hdrop
  have hlength := Region.length_of_drop hbody
  by_cases hmem : 0 ∈ body
  · obtain ⟨hvalue, hlog⟩ := validString_run hsize hdrop hmem (pos :: log)
    have hindex := List.idxOf_lt_length_of_mem hmem
    have htoken : token (PacketType.string.toByte :: body) =
        .leaf (2 + body.idxOf 0) := by
      rw [token_string, if_pos hmem]
    rw [hvalue]
    refine .inside (by omega) (by omega) ?_ (hlog.trans (inBounds_of_lt hpos log))
    rw [scan_of_leaf htoken, ← hdrop, List.drop_drop]
  · have htoken : token (PacketType.string.toByte :: body) = .unterminated := by
      rw [token_string, if_neg hmem]
    have hindex : body.idxOf 0 = body.length := List.idxOf_eq_length hmem
    have hstep : u32 (pos + 1) = pos + 1 := u32_of_lt (by omega)
    obtain ⟨hvalue, hlog⟩ := @skipString_run data hsize (pos + 1) hpos (pos :: log)
    rw [hbody] at hvalue hlog
    simp only [validString, Probe.run_bind, hstep, hvalue, Probe.run_ite,
      Probe.run_pure]
    rw [if_pos (by omega)]
    exact .unterminated (scan_of_unterminated htoken pos owed) (by simp [hlog, hmem])

theorem advance_scalar (pos width : ℕ) :
    advance (some (true, u32 (pos + width))) = some (true, u32 (pos + (1 + width))) := by
  rw [advance, u32_u32_add, Nat.add_assoc, Nat.add_comm width]

/-- An array is left behind what it announces, whether or not that is there. -/
theorem validArray_run (hsize : data.size < 2 ^ 32) {width : ℕ} {tag high low : Byte}
    {rest : List Byte} (hdrop : data.cells.drop pos = tag :: high :: low :: rest)
    (log : List ℕ) :
    advance ((validArray host data data.size width pos).run log).1 =
        some (true, u32 (pos + (3 + beValue [high, low] * width))) ∧
      (InBounds data.size ((validArray host data data.size width pos).run log).2 ↔
        InBounds data.size log) := by
  have hlength := Region.length_of_drop hdrop
  have hpos := Region.lt_size_of_head hdrop
  have hbody : data.cells.drop (pos + 1) = high :: low :: rest :=
    @Region.drop_add _ _ _ [tag] _ hdrop
  simp only [List.length_cons] at hlength
  have hstep : u32 (pos + 1) = pos + 1 := u32_of_lt (by omega)
  have hcount : beValue [high, low] < 2 ^ 16 := by
    simpa using beValue_lt [high, low]
  obtain ⟨hvalue, hlog⟩ := front16_run host hbody (by omega) log
  simp only [validArray, hstep, if_neg (show ¬ data.size < pos + 1 + 2 by omega),
    Probe.run_bind, Probe.run_pure, hvalue, BitVec.toNat_ofNat, Nat.mod_eq_of_lt hcount,
    advance]
  refine ⟨?_, hlog⟩
  rw [u32_dec32_succ (u32_lt _), u32_u32_add]
  congr 3
  omega

theorem settles_validArray (hsize : data.size < 2 ^ 32) {owed width : ℕ}
    {type : PacketType} {body : List Byte} (hlayout : type.layout = .array width)
    (htame : Tame (scan pos owed (type.toByte :: body)))
    (hdrop : data.cells.drop pos = type.toByte :: body) :
    Settles data (scan pos owed (type.toByte :: body)) (pos + 1) (owed - 1) log
      (advance ((validArray host data data.size width pos).run (pos :: log)).1,
        ((validArray host data data.size width pos).run (pos :: log)).2) := by
  have hpos := Region.lt_size_of_head hdrop
  have hbody : data.cells.drop (pos + 1) = body :=
    @Region.drop_add _ _ _ [type.toByte] _ hdrop
  have hlength : data.size = pos + 1 + body.length := by
    have hrest := Region.length_of_drop hbody
    omega
  have hstep : u32 (pos + 1) = pos + 1 := u32_of_lt (by omega)
  rcases body with _ | ⟨high, _ | ⟨low, rest⟩⟩
  case nil =>
    simp only [validArray, hstep, Probe.run_ite]
    rw [if_pos (by simp at hlength; omega)]
    exact .malformed (scan_of_malformed (by simp) (by simp [token, hlayout]) _ _)
      (by simp [hpos])
  case cons.nil =>
    simp only [validArray, hstep, Probe.run_ite]
    rw [if_pos (by simp at hlength; omega)]
    exact .malformed (scan_of_malformed (by simp) (by simp [token, hlayout]) _ _)
      (by simp [hpos])
  case cons.cons =>
    simp only [List.length_cons] at hlength
    obtain ⟨hvalue, hlog⟩ := @validArray_run host data pos hsize width _ high low rest hdrop
      (pos :: log)
    have htoken : token (type.toByte :: high :: low :: rest) =
        .sized (3 + beValue [high, low] * width) (data.size - pos) := by
      rw [token_array hlayout]
      congr 1
      omega
    have hend : pos + (3 + beValue [high, low] * width) < 2 ^ 32 := by
      by_cases hfits : 3 + beValue [high, low] * width ≤ data.size - pos
      · omega
      · have hcut := htame _ _ (scan_of_cut (htoken.trans
          (sized_eq_cut.mpr ⟨rfl, by omega⟩)) pos owed)
        omega
    exact settles_of_sized hdrop hpos.le htoken (by omega) (by rw [hvalue, u32_of_lt hend])
      (hlog.trans (inBounds_of_lt hpos log))

theorem settles_validScalar (hsize : data.size < 2 ^ 32) {owed width : ℕ}
    {type : PacketType} {body : List Byte} (hlayout : type.layout = .scalar width)
    (htame : Tame (scan pos owed (type.toByte :: body)))
    (hdrop : data.cells.drop pos = type.toByte :: body) :
    Settles data (scan pos owed (type.toByte :: body)) (pos + 1) (owed - 1) log
      (advance (some (true, u32 (pos + width))), pos :: log) := by
  have hpos := Region.lt_size_of_head hdrop
  have hlength : data.size - pos = 1 + body.length := by
    rw [← Region.length_of_drop hdrop, List.length_cons, Nat.add_comm]
  obtain ⟨_, hwidth⟩ := PacketType.scalar_size_bounds hlayout
  have htoken := token_scalar hlayout body
  rw [← hlength] at htoken
  have hend : pos + (1 + width) < 2 ^ 32 := by
    by_cases hfits : 1 + width ≤ data.size - pos
    · omega
    · have hcut := htame _ _ (scan_of_cut (htoken.trans
        (sized_eq_cut.mpr ⟨rfl, by omega⟩)) pos owed)
      omega
  exact settles_of_sized hdrop hpos.le htoken (by omega)
    (by rw [advance_scalar, u32_of_lt hend]) (inBounds_of_lt hpos log)

/-- What the fields leave behind is what the object leaves behind. -/
theorem advance_validObject {next : ℕ → Probe Verdict} {count : Byte}
    {rest : List Byte} (hsize : data.size < 2 ^ 32)
    (hdrop : data.cells.drop pos = PacketType.object.toByte :: count :: rest)
    (hindex : ∀ i later, (validFields next count.toNat (pos + 2)).run
      ((pos + 1) :: log) = (some (true, i), later) → i < 2 ^ 32) :
    (advance ((validObject data next pos).run log).1,
        ((validObject data next pos).run log).2) =
      (validFields next count.toNat (pos + 2)).run ((pos + 1) :: log) := by
  have hbody : data.cells.drop (pos + 1) = count :: rest :=
    @Region.drop_add _ _ _ [PacketType.object.toByte] _ hdrop
  have hlt := Region.lt_size_of_head hbody
  have hstep : u32 (pos + 1) = pos + 1 := u32_of_lt (by omega)
  have hnext : u32 (pos + 1 + 1) = pos + 2 := u32_of_lt (by omega)
  have hcut : ¬ data.size < pos + 1 + 1 := by omega
  simp only [validObject, hstep, if_neg hcut, hnext,
    Probe.run_bind, Region.run_read, Region.value_head hbody]
  match hfields : (validFields next count.toNat (pos + 2)).run ((pos + 1) :: log) with
  | (none, later) => simp [advance]
  | (some (false, i), later) => simp [advance]
  | (some (true, i), later) => simp [advance, u32_dec32_succ (hindex i later hfields)]

end Settling

/-- What one more field keeps of a run of fields, given what an item does. -/
theorem settles_validFields {fuel : ℕ}
    (hitem : ∀ (pos owed : ℕ) (log : List ℕ), pos < data.size →
      data.size - pos < fuel + 1 → Tame (scan pos owed (data.cells.drop pos)) →
      Settles data (scan pos owed (data.cells.drop pos)) (pos + 1) (owed - 1) log
        (advance ((validNextItem host data data.size (fuel + 1) pos).run log).1,
          ((validNextItem host data data.size (fuel + 1) pos).run log).2))
    (fields : ℕ) {pos owed : ℕ} (hpos : pos ≤ data.size)
    (hfuel : data.size - pos < fuel + 1) (log : List ℕ)
    (htame : Tame (scan pos (owed + fields) (data.cells.drop pos))) :
    Settles data (scan pos (owed + fields) (data.cells.drop pos)) pos owed log
      ((validFields (validNextItem host data data.size (fuel + 1)) fields pos).run
        log) := by
  induction fields generalizing pos log with
  | zero => exact .inside le_rfl hpos rfl Iff.rfl
  | succ fields ih =>
      rcases Nat.lt_or_eq_of_le hpos with hpos | rfl
      · have hfirst := hitem pos (owed + (fields + 1)) log hpos hfuel htame
        generalize hlater : ((validNextItem host data data.size (fuel + 1) pos).run
          log).2 = later at hfirst
        generalize hadvance : advance ((validNextItem host data data.size (fuel + 1)
          pos).run log).1 = verdict at hfirst
        generalize houtcome : scan pos (owed + (fields + 1)) (data.cells.drop pos) =
          outcome at hfirst htame ⊢
        cases hfirst with
        | @inside stop _ hleast hstop hscan hlog =>
            rw [validFields_of_true fields hadvance, hlater]
            subst hscan
            exact (@ih stop hstop (by omega) later htame).mono (by omega) hlog
        | @malformed i _ houtcome hlog =>
            rw [validFields_of_false fields hadvance, hlater]
            exact .malformed houtcome hlog
        | @unterminated i _ houtcome hlog =>
            rw [validFields_of_false fields hadvance, hlater]
            exact .unterminated houtcome hlog
        | @overrun stop _ houtcome hstop hlog =>
            have hwrap := htame _ _ houtcome
            rw [validFields_of_true fields hadvance, hlater]
            cases fields with
            | zero => exact .overrun houtcome hstop hlog
            | succ fields =>
                obtain ⟨ok, j, hverdict, hj, hstray⟩ := @validFields_outside host data
                  fuel (fields + 1) stop hstop.le (by omega) later
                rw [← Prod.mk.eta (p := (validFields _ _ _).run _), hverdict]
                refine .astray houtcome (by omega) (fun hok => ?_) (hstray (by omega))
                obtain ⟨_, _, _⟩ := hj hok
                omega
        | @astray ok i stop left _ houtcome hleft hi hlog =>
            have hwrap := htame _ _ houtcome
            cases ok with
            | false =>
                rw [validFields_of_false fields hadvance, hlater]
                exact .astray houtcome (by omega) (by simp) hlog
            | true =>
                obtain ⟨houtside, hbound⟩ := hi rfl
                obtain ⟨ok, j, hverdict, hj, _⟩ := @validFields_outside host data
                  fuel fields i houtside.le (by omega) later
                rw [validFields_of_true fields hadvance, hlater,
                  ← Prod.mk.eta (p := (validFields _ _ _).run _), hverdict]
                refine .astray houtcome (by omega) (fun hok => ?_) fun hbounds => ?_
                · obtain ⟨_, _, _⟩ := hj hok
                  omega
                · exact hlog (hbounds.of_suffix
                    (validFields_grows (validNextItem_grows _) _ _ _))
      · rw [Region.drop_size, scan, if_neg (by omega)] at htame ⊢
        have hwrap := htame _ _ rfl
        obtain ⟨ok, j, hverdict, hj, hstray⟩ := @validFields_outside host data fuel
          (fields + 1) data.size le_rfl (by omega) log
        rw [← Prod.mk.eta (p := (validFields _ _ _).run _), hverdict]
        refine .astray rfl (by omega) (fun hok => ?_) (hstray (by omega))
        obtain ⟨_, _, _⟩ := hj hok
        omega

theorem settles_validObject (hsize : data.size < 2 ^ 32) {fuel : ℕ}
    (hitem : ∀ (pos owed : ℕ) (log : List ℕ), pos < data.size → data.size - pos < fuel →
      Tame (scan pos owed (data.cells.drop pos)) →
      Settles data (scan pos owed (data.cells.drop pos)) (pos + 1) (owed - 1) log
        (advance ((validNextItem host data data.size fuel pos).run log).1,
          ((validNextItem host data data.size fuel pos).run log).2))
    {pos owed : ℕ} (hfuel : data.size - pos < fuel + 1) (log : List ℕ) {body : List Byte}
    (htame : Tame (scan pos owed (PacketType.object.toByte :: body)))
    (hdrop : data.cells.drop pos = PacketType.object.toByte :: body) :
    Settles data (scan pos owed (PacketType.object.toByte :: body)) (pos + 1) (owed - 1) log
      (advance ((validObject data (validNextItem host data data.size fuel) pos).run
          (pos :: log)).1,
        ((validObject data (validNextItem host data data.size fuel) pos).run
          (pos :: log)).2) := by
  have hpos := Region.lt_size_of_head hdrop
  have hlength : data.size - pos = 1 + body.length := by
    rw [← Region.length_of_drop hdrop, List.length_cons, Nat.add_comm]
  cases body with
  | nil =>
      rw [List.length_nil] at hlength
      have hcut : data.size < u32 (pos + 1) + 1 := by
        rw [u32_of_lt (by omega)]
        omega
      simp only [validObject, if_pos hcut]
      exact .malformed (scan_of_malformed (by simp) (by simp [token, PacketType.layout]) _ _)
        (inBounds_of_lt hpos log)
  | cons count rest =>
      have hbody : data.cells.drop (pos + 2) = rest :=
        @Region.drop_add _ _ _ [PacketType.object.toByte, count] _ hdrop
      rw [List.length_cons] at hlength
      obtain ⟨fuel, rfl⟩ : ∃ fuel', fuel = fuel' + 1 :=
        Nat.exists_eq_succ_of_ne_zero (by omega)
      rw [scan_object, ← hbody] at htame ⊢
      have hfields := settles_validFields hitem count.toNat (show pos + 2 ≤ data.size by omega)
        (by omega) ((pos + 1) :: pos :: log) htame
      have hobject := @advance_validObject data pos (pos :: log)
        (validNextItem host data data.size (fuel + 1)) count rest hsize hdrop
        (fun i later heq => by
          rw [heq] at hfields
          exact hfields.lt_of_tame hsize htame)
      rw [hobject]
      refine hfields.mono (by omega) ?_
      rw [inBounds_of_lt (by omega), inBounds_of_lt hpos]

/-- What every item keeps, by induction on how deep the objects go. -/
theorem settles_validNextItem (hsize : data.size < 2 ^ 32) {fuel pos owed : ℕ}
    (hpos : pos < data.size) (hfuel : data.size - pos < fuel) (log : List ℕ)
    (htame : Tame (scan pos owed (data.cells.drop pos))) :
    Settles data (scan pos owed (data.cells.drop pos)) (pos + 1) (owed - 1) log
      (advance ((validNextItem host data data.size fuel pos).run log).1,
        ((validNextItem host data data.size fuel pos).run log).2) := by
  induction fuel generalizing pos owed log with
  | zero => omega
  | succ fuel ih =>
      obtain ⟨tag, body, hdrop⟩ := Region.exists_head hpos
      rw [hdrop] at htame ⊢
      simp only [validNextItem, Probe.run_bind, Region.run_read,
        Region.value_head hdrop]
      cases htag : PacketType.ofByte tag with
      | none =>
          exact .malformed (scan_of_malformed (by simp) (by simp [token, htag]) _ _)
            (inBounds_of_lt hpos log)
      | some type =>
          obtain rfl := PacketType.ofByte_eq_some.mp htag
          cases hlayout : type.layout with
          | reserved =>
              rw [validTagged_reserved hlayout]
              exact .malformed
                (scan_of_malformed (by simp) (by simp [token, hlayout]) _ _)
                (inBounds_of_lt hpos log)
          | scalar width =>
              rw [validTagged_scalar hlayout]
              exact settles_validScalar hsize hlayout htame hdrop
          | string =>
              obtain rfl := PacketType.layout_eq_string.mp hlayout
              exact settles_validString hsize hdrop
          | object =>
              obtain rfl := PacketType.layout_eq_object.mp hlayout
              exact settles_validObject hsize (fun pos owed log hpos hfuel htame =>
                ih hpos hfuel log htame) (by omega) log htame hdrop
          | array width =>
              rw [validTagged_array hlayout]
              exact settles_validArray hsize hlayout htame hdrop

end Item

/-! ## The whole packet -/

/-- The readings that make the validator read outside the data. -/
def Strays : Outcome → Prop
  | .overrun _ owed => 0 < owed
  | .unterminated => True
  | .complete | .malformed => False

section Packet

variable {host : Host} {data : Region Byte}

/-- The outer loop decides whether the reading completes, and leaves the data
exactly when the reading strays. -/
theorem isValidLoop_run (hsize : data.size < 2 ^ 32) {fuel pos : ℕ}
    (hpos : pos ≤ data.size) (hfuel : data.size - pos + 1 < fuel) (log : List ℕ)
    (htame : Tame (scan pos 0 (data.cells.drop pos))) :
    ((isValidLoop host data data.size fuel pos).run log).1 =
        some (decide (scan pos 0 (data.cells.drop pos) = .complete)) ∧
      (InBounds data.size ((isValidLoop host data data.size fuel pos).run log).2 ↔
        InBounds data.size log ∧
          ¬ Strays (scan pos 0 (data.cells.drop pos))) := by
  induction fuel generalizing pos log with
  | zero => omega
  | succ fuel ih =>
      rcases Nat.lt_or_eq_of_le hpos with hpos | rfl
      · have hitem := @settles_validNextItem host data hsize fuel pos 0 hpos
          (by omega) log htame
        simp only [isValidLoop, if_pos hpos, Probe.run_bind]
        generalize (validNextItem host data data.size fuel pos).run log = outcome
          at hitem ⊢
        obtain ⟨verdict, later⟩ := outcome
        generalize houtcome : scan pos 0 (data.cells.drop pos) = outcome
          at hitem htame ⊢
        generalize hadvance : advance verdict = advanced at hitem
        simp only at hitem ⊢
        match verdict with
        | none =>
            obtain rfl : none = advanced := hadvance
            cases hitem
        | some (false, i) =>
            obtain rfl : some (false, i) = advanced := hadvance
            cases hitem with
            | malformed h hlog => simp [h, hlog, Strays]
            | unterminated h hlog => simp [h, hlog, Strays]
            | astray h hleft _ hlog => simp [h, hlog, Strays, hleft]
        | some (true, i) =>
            obtain rfl : some (true, u32 (i + 1)) = advanced := hadvance
            have hbeyond : ∀ stop, data.size < stop →
                (isValidLoop host data data.size fuel stop).run later =
                  (some false, later) := by
              intro stop hstop
              cases fuel with
              | zero => omega
              | succ fuel =>
                  rw [isValidLoop, if_neg (by omega), decide_eq_false (by omega)]
                  rfl
            show ((isValidLoop host data data.size fuel (u32 (i + 1))).run later).1 = _ ∧
              (InBounds _ ((isValidLoop host data data.size fuel (u32 (i + 1))).run
                later).2 ↔ _)
            generalize u32 (i + 1) = stop at hitem ⊢
            cases hitem with
            | inside hleast hstop hscan hlog =>
                subst hscan
                have hrest := ih hstop (by omega) later htame
                rwa [hlog] at hrest
            | overrun h hstop hlog =>
                simp [hbeyond stop hstop, h, hlog, Strays]
            | astray h hleft hi hlog =>
                simp [hbeyond stop (hi rfl).1, h, hlog, Strays, hleft]
      · simp [isValidLoop, Region.drop_size, scan, Strays]

theorem isValid_run (hsize : data.size < 2 ^ 32) {fuel : ℕ}
    (hfuel : data.size + 2 ≤ fuel) (htame : Tame (scan 0 0 data.cells)) :
    ((isValid host data fuel).run []).1 =
        some (decide (scan 0 0 data.cells = .complete)) ∧
      (InBounds data.size ((isValid host data fuel).run []).2 ↔
        ¬ Strays (scan 0 0 data.cells)) := by
  have hrun := @isValidLoop_run host data hsize fuel 0 (Nat.zero_le _) (by omega) []
    htame
  rw [isValid, u32_of_lt hsize]
  simpa using hrun

end Packet

end Sednl.Validation
