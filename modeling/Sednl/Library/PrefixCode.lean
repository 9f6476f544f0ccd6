import Mathlib

/-!
# Prefix codes

Codewords of which none begins another can be told apart in any concatenation,
as long as none is empty.
-/

namespace Sednl.PrefixCode

open InformationTheory

variable {α : Type*} {codewords : Set (List α)}

/-- No codeword begins another. -/
def PrefixFree (codewords : Set (List α)) : Prop :=
  ∀ left ∈ codewords, ∀ right ∈ codewords, left <+: right → left = right

/-- The first codewords of equal strings are equal, and so is what follows. -/
theorem PrefixFree.append_inj (hfree : PrefixFree codewords) {left right rest more : List α}
    (hleft : left ∈ codewords) (hright : right ∈ codewords)
    (heq : left ++ rest = right ++ more) : left = right ∧ rest = more := by
  have hsame : left = right := by
    rcases List.prefix_or_prefix_of_prefix (List.prefix_append left rest)
      (heq ▸ List.prefix_append right more) with hbegins | hbegins
    · exact hfree left hleft right hright hbegins
    · exact (hfree right hright left hleft hbegins).symm
  subst hsame
  exact ⟨rfl, List.append_cancel_left heq⟩

theorem PrefixFree.uniquelyDecodable (hfree : PrefixFree codewords)
    (hnil : [] ∉ codewords) : UniquelyDecodable codewords := by
  intro left right hleft hright heq
  induction left generalizing right with
  | nil =>
      cases right with
      | nil => rfl
      | cons word right =>
          have hempty : word = [] := (List.append_eq_nil_iff.mp heq.symm).1
          exact absurd (hempty ▸ hright word List.mem_cons_self) hnil
  | cons word left ih =>
      cases right with
      | nil =>
          have hempty : word = [] := (List.append_eq_nil_iff.mp heq).1
          exact absurd (hempty ▸ hleft word List.mem_cons_self) hnil
      | cons other right =>
          obtain ⟨rfl, hrest⟩ := hfree.append_inj (hleft word List.mem_cons_self)
            (hright other List.mem_cons_self) heq
          rw [ih right (fun w hw => hleft w (List.mem_cons_of_mem _ hw))
            (fun w hw => hright w (List.mem_cons_of_mem _ hw)) hrest]

/-- Words that say how long they are form a prefix code. -/
theorem prefixFree_of_length {announced : List α → ℕ}
    (hlength : ∀ word ∈ codewords, ∀ rest, announced (word ++ rest) = word.length) :
    PrefixFree codewords := by
  intro left hleft right hright hbegins
  obtain ⟨rest, rfl⟩ := hbegins
  have hboth : left.length = (left ++ rest).length := by
    calc left.length = announced (left ++ rest) := (hlength left hleft rest).symm
      _ = announced (left ++ rest ++ []) := by rw [List.append_nil]
      _ = (left ++ rest).length := hlength _ hright []
  rw [List.length_append] at hboth
  rw [List.eq_nil_of_length_eq_zero (Nat.left_eq_add.mp hboth), List.append_nil]

end Sednl.PrefixCode
