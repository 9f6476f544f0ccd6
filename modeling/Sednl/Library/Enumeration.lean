import Mathlib

/-!
# Enumerations by a cursor

The members of a set are handed out in increasing order by something that
remembers only the last one.  `Ahead` says which list is still to come, and
`advance` is the loop over the integers that looks for its head: it moves at
least one place, and stops at the limit if nothing stops it before.
-/

namespace Sednl.Enumeration

section Order

variable {α : Type} [LinearOrder α] {member : α → Bool} {idx : α} {pending : List α}

/-- What is still to come behind `idx`: all members there, in increasing order. -/
structure Ahead (member : α → Bool) (idx : α) (pending : List α) : Prop where
  hsorted : pending.SortedLT
  hmem : ∀ {i}, i ∈ pending ↔ idx < i ∧ member i = true

/-- Every finite set of members has an enumeration. -/
theorem ahead_sort {members : Finset α}
    (hmembers : ∀ {i}, i ∈ members ↔ idx < i ∧ member i = true) :
    Ahead member idx members.sort :=
  ⟨members.sortedLT_sort, (members.mem_sort _).trans hmembers⟩

theorem Ahead.tail {first : α} {rest : List α} (hahead : Ahead member idx (first :: rest)) :
    Ahead member first rest := by
  obtain ⟨hbefore, hrest⟩ := List.pairwise_cons.mp hahead.hsorted.pairwise
  refine ⟨hrest.sortedLT, fun {i} => ⟨fun hmem => ?_, fun ⟨hlt, hmember⟩ => ?_⟩⟩
  · exact ⟨hbefore i hmem, (hahead.hmem.mp (List.mem_cons_of_mem _ hmem)).2⟩
  · have hfirst : idx < first := (hahead.hmem.mp List.mem_cons_self).1
    exact List.mem_of_ne_of_mem hlt.ne' (hahead.hmem.mpr ⟨hfirst.trans hlt, hmember⟩)

/-- The first to come is a member, and none is before it. -/
theorem Ahead.head {first : α} {rest : List α} (hahead : Ahead member idx (first :: rest)) :
    (idx < first ∧ member first = true) ∧ ∀ i, idx < i → i < first → member i = false := by
  refine ⟨hahead.hmem.mp List.mem_cons_self, fun i hlt hbefore => ?_⟩
  rw [← Bool.not_eq_true]
  intro hmember
  rcases List.mem_cons.mp (hahead.hmem.mpr ⟨hlt, hmember⟩) with rfl | hmem
  · exact lt_irrefl _ hbefore
  · exact lt_asymm hbefore (hahead.tail.hmem.mp hmem).1

/-- Once nothing is to come, nothing comes any more. -/
theorem Ahead.exhausted {later : α} (hahead : Ahead member idx []) (hle : idx ≤ later) :
    Ahead member later [] := by
  refine ⟨hahead.hsorted, fun {i} => ⟨fun hmem => absurd hmem List.not_mem_nil, ?_⟩⟩
  rintro ⟨hlt, hmember⟩
  exact hahead.hmem.mpr ⟨hle.trans_lt hlt, hmember⟩

end Order

section Loop

variable {member : ℤ → Bool} {limit idx : ℤ}

/-- `while (++idx < limit) if (member idx) break;` -/
def advance (member : ℤ → Bool) (limit idx : ℤ) : ℤ :=
  if idx + 1 < limit then
    if member (idx + 1) then idx + 1 else advance member limit (idx + 1)
  else idx + 1
termination_by (limit - idx).toNat
decreasing_by omega

theorem lt_advance (member : ℤ → Bool) (limit idx : ℤ) : idx < advance member limit idx := by
  fun_induction advance member limit idx with
  | case1 => omega
  | case2 _ _ _ ih => omega
  | case3 => omega

theorem advance_le (member : ℤ → Bool) (limit idx : ℤ) :
    advance member limit idx ≤ max (idx + 1) limit := by
  fun_induction advance member limit idx with
  | case1 => omega
  | case2 _ _ _ ih => omega
  | case3 => omega

/-- The loop passes no member. -/
theorem not_member_of_lt_advance {i : ℤ} (hlt : idx < i) (hi : i < advance member limit idx) :
    member i = false := by
  fun_induction advance member limit idx with
  | case1 idx => omega
  | case2 idx _ hmember ih =>
      rcases (show idx + 1 ≤ i by omega).eq_or_lt with rfl | hnext
      · simpa using hmember
      · exact ih hnext hi
  | case3 => omega

/-- Where the loop stops before the limit there is a member. -/
theorem member_advance (hlimit : advance member limit idx < limit) :
    member (advance member limit idx) = true := by
  fun_induction advance member limit idx with
  | case1 _ _ hmember => exact hmember
  | case2 _ _ _ ih => exact ih hlimit
  | case3 => omega

/-- The loop stops at the first member to come. -/
theorem Ahead.advance_cons {first : ℤ} {rest : List ℤ}
    (hahead : Ahead member idx (first :: rest)) (hlimit : first < limit) :
    advance member limit idx = first := by
  obtain ⟨⟨hlt, hmember⟩, hbefore⟩ := hahead.head
  apply le_antisymm
  · by_contra hpast
    have hpassed := not_member_of_lt_advance hlt (not_le.mp hpast)
    exact Bool.false_ne_true (hpassed.symm.trans hmember)
  · by_contra hshort
    have hstop := not_le.mp hshort
    have hfound := member_advance (hstop.trans hlimit)
    rw [hbefore _ (lt_advance member limit idx) hstop] at hfound
    exact Bool.false_ne_true hfound

/-- Without a member to come the loop runs to the limit. -/
theorem Ahead.advance_nil (hahead : Ahead member idx []) :
    limit ≤ advance member limit idx ∧ Ahead member (advance member limit idx) [] := by
  have hlt := lt_advance member limit idx
  refine ⟨?_, hahead.exhausted hlt.le⟩
  by_contra hshort
  have hfound := member_advance (not_le.mp hshort)
  exact List.not_mem_nil (hahead.hmem.mpr ⟨hlt, hfound⟩)

end Loop

end Sednl.Enumeration
