import Mathlib

/-!
# Unsigned 32-bit counters

Indices and lengths kept in an `unsigned int` live modulo `2 ^ 32`.  The
lemmas say when the wrap-around cannot be seen.
-/

namespace Sednl.Word

/-- The value an `unsigned int` keeps of a mathematical result. -/
def u32 (value : ℕ) : ℕ :=
  value % 2 ^ 32

/-- `i--` on an `unsigned int`. -/
def dec32 (value : ℕ) : ℕ :=
  u32 (value + (2 ^ 32 - 1))

theorem u32_lt (value : ℕ) : u32 value < 2 ^ 32 :=
  Nat.mod_lt _ (by norm_num)

theorem u32_of_lt {value : ℕ} (hvalue : value < 2 ^ 32) : u32 value = value :=
  Nat.mod_eq_of_lt hvalue

theorem u32_le (value : ℕ) : u32 value ≤ value :=
  Nat.mod_le _ _

/-- Sums may be reduced on the way. -/
theorem u32_u32_add (value more : ℕ) : u32 (u32 value + more) = u32 (value + more) :=
  Nat.mod_add_mod ..

theorem dec32_of_pos {value : ℕ} (hpos : 0 < value) (hvalue : value < 2 ^ 32) :
    dec32 value = value - 1 := by
  unfold dec32 u32
  omega

theorem u32_dec32_succ {value : ℕ} (hvalue : value < 2 ^ 32) :
    u32 (dec32 value + 1) = value := by
  unfold dec32 u32
  omega

end Sednl.Word
