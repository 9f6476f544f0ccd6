import Mathlib

/-!
# Circular arrays

A bounded queue kept in an array of `n` cells is a window: `count` cells read
from `start`, around the end of the array.  These lemmas say what moving
either end of a window, or writing just past it, does to what it shows, and how
many steps lie between two indices of the circle.
-/

namespace Sednl.Circular

variable {α : Type} [Inhabited α] {cells : List α} {n start stop count k : ℕ}

/-- `count` cells from `start`, around the end of the array. -/
def window (cells : List α) (start count : ℕ) : List α :=
  (List.range count).map fun offset =>
    cells.getD ((start + offset) % cells.length) default

/-- The number of steps from `start` to `stop` on a circle of `n` cells. -/
def distance (n start stop : ℕ) : ℕ :=
  if start ≤ stop then stop - start else n - start + stop

@[simp]
theorem length_window (cells : List α) (start count : ℕ) :
    (window cells start count).length = count := by
  simp [window]

@[simp]
theorem window_zero (cells : List α) (start : ℕ) : window cells start 0 = [] := rfl

theorem window_add (cells : List α) (start left right : ℕ) :
    window cells start (left + right) =
      window cells start left ++ window cells (start + left) right := by
  simp only [window, List.range_add, List.map_append, List.map_map]
  congr 2
  funext offset
  simp [Nat.add_assoc]

theorem window_mod (cells : List α) (start count : ℕ) :
    window cells (start % cells.length) count = window cells start count := by
  simp [window]

theorem drop_window (hk : k ≤ count) :
    (window cells start count).drop k = window cells (start + k) (count - k) := by
  obtain ⟨rest, rfl⟩ := Nat.exists_eq_add_of_le hk
  rw [window_add, List.drop_left' (length_window cells start k), Nat.add_sub_cancel_left]

theorem getElem?_window (hk : k < count) :
    (window cells start count)[k]? =
      some (cells.getD ((start + k) % cells.length) default) := by
  simp [window, hk]

/-! ## Moving on the circle -/

theorem add_mod_eq (hstart : start < n) (hk : k ≤ n) :
    (start + k) % n = if start + k < n then start + k else start + k - n := by
  split
  · exact Nat.mod_eq_of_lt ‹_›
  · rw [Nat.mod_eq_sub_mod (by omega)]
    by_cases hlast : start + k - n < n
    · exact Nat.mod_eq_of_lt hlast
    · omega

theorem distance_lt (hstart : start < n) (hstop : stop < n) :
    distance n start stop < n := by
  unfold distance
  split <;> omega

@[simp]
theorem distance_self (n start : ℕ) : distance n start start = 0 := by
  simp [distance]

theorem add_distance (hstart : start < n) (hstop : stop < n) :
    (start + distance n start stop) % n = stop := by
  rw [add_mod_eq hstart (distance_lt hstart hstop).le]
  unfold distance
  split <;> split <;> omega

/-- Moving the start forward by no more than the distance shortens it. -/
theorem distance_add (hstart : start < n) (hstop : stop < n)
    (hk : k ≤ distance n start stop) :
    distance n ((start + k) % n) stop = distance n start stop - k := by
  have hlt := distance_lt hstart hstop
  rw [add_mod_eq hstart (by omega)]
  unfold distance at *
  split_ifs at hk hlt ⊢ <;> omega

/-- Moving the stop forward by one lengthens it, unless that closes the circle. -/
theorem distance_succ (hstart : start < n) (hstop : stop < n)
    (hroom : distance n start stop + 1 < n) :
    distance n start ((stop + 1) % n) = distance n start stop + 1 := by
  rw [add_mod_eq hstop (by omega)]
  unfold distance at *
  split_ifs at hroom ⊢ <;> omega

/-! ## Writing past a window -/

theorem add_mod_ne (hstart : start < n) (hk : k < count) (hcount : count < n) :
    (start + k) % n ≠ (start + count) % n := by
  rw [add_mod_eq hstart (by omega), add_mod_eq hstart hcount.le]
  split <;> split <;> omega

/-- Writing just past a window that leaves a cell free appends to it. -/
theorem window_set (hstart : start < cells.length) (hcount : count < cells.length)
    (cell : α) :
    window (cells.set ((start + count) % cells.length) cell) start (count + 1) =
      window cells start count ++ [cell] := by
  have hlast : (start + count) % cells.length < cells.length :=
    Nat.mod_lt _ (by omega)
  rw [window_add]
  congr 1
  · apply List.map_congr_left
    intro offset hoffset
    have hne := add_mod_ne hstart (List.mem_range.mp hoffset) hcount
    simp only [List.length_set, List.getD_eq_getElem?_getD]
    rw [List.getElem?_set_ne hne.symm]
  · simp [window, hlast]

end Sednl.Circular
