import Mathlib

/-!
# Reading a stream as it comes in

A reader takes items off the head of a stream.  If what it finds at the head
does not depend on what comes later, the items it takes are those of the whole
stream, however the stream is cut: it can only be behind, never wrong.
-/

namespace Sednl.Incremental

variable {α ι : Type} {head : List α → Option (ι × List α)}
variable {stream rest : List α} {items : List ι} {item : ι}

/-- An item has a length, and is found whatever follows it. -/
structure Stable (head : List α → Option (ι × List α)) : Prop where
  hshorter : ∀ {stream item rest}, head stream = some (item, rest) →
    rest.length < stream.length
  hmore : ∀ {stream item rest} (more : List α), head stream = some (item, rest) →
    head (stream ++ more) = some (item, rest ++ more)

/-- Some items are taken off a stream, one after the other. -/
inductive Takes (head : List α → Option (ι × List α)) (stream : List α) :
    List ι → List α → Prop
  | nothing : Takes head stream [] stream
  | next {items : List ι} {rest last : List α} {item : ι} (htakes : Takes head stream items rest)
      (hhead : head rest = some (item, last)) : Takes head stream (items ++ [item]) last

/-- The items of a stream: `fuel` bounds how many are taken. -/
def parseWithin (head : List α → Option (ι × List α)) : (fuel : ℕ) → List α → List ι
  | 0, _ => []
  | fuel + 1, stream =>
      match head stream with
      | none => []
      | some (item, rest) => item :: parseWithin head fuel rest

/-- All items that can be taken off a stream. -/
def parse (head : List α → Option (ι × List α)) (stream : List α) : List ι :=
  parseWithin head stream.length stream

theorem parse_of_none (hhead : head stream = none) : parse head stream = [] := by
  rw [parse]
  cases stream.length with
  | zero => rfl
  | succ fuel => rw [parseWithin, hhead]

section Stable

variable (hstable : Stable head)

include hstable

/-- An item takes one unit of fuel and at least one element of the stream. -/
theorem parseWithin_eq {fuel : ℕ} (hfuel : stream.length ≤ fuel) :
    parseWithin head fuel stream = parse head stream := by
  induction fuel using Nat.strong_induction_on generalizing stream with
  | _ fuel ih =>
      rw [parse]
      cases hhead : head stream with
      | none =>
          have hnone := parse_of_none hhead
          rw [parse] at hnone
          rw [hnone]
          cases fuel with
          | zero => rfl
          | succ fuel => rw [parseWithin, hhead]
      | some found =>
          obtain ⟨item, rest⟩ := found
          have hshorter := hstable.hshorter hhead
          obtain ⟨less, hless⟩ : ∃ less, stream.length = less + 1 :=
            ⟨stream.length - 1, by omega⟩
          obtain ⟨enough, rfl⟩ : ∃ enough, fuel = enough + 1 := ⟨fuel - 1, by omega⟩
          rw [hless, parseWithin, parseWithin, hhead]
          simp only
          rw [ih enough (Nat.lt_succ_self enough) (by omega)]
          rcases hfuel.eq_or_lt with hsame | hlt
          · rw [show less = enough by omega, ih enough (Nat.lt_succ_self enough) (by omega)]
          · rw [ih less (by omega) (by omega)]

theorem parse_of_some (hhead : head stream = some (item, rest)) :
    parse head stream = item :: parse head rest := by
  have hshorter := hstable.hshorter hhead
  obtain ⟨fuel, hfuel⟩ : ∃ fuel, stream.length = fuel + 1 := ⟨stream.length - 1, by omega⟩
  rw [parse, hfuel, parseWithin, hhead]
  simp only
  rw [parseWithin_eq hstable (by omega)]

/-- What was taken, and then what is left to take. -/
theorem Takes.parse_eq (htakes : Takes head stream items rest) :
    parse head stream = items ++ parse head rest := by
  induction htakes with
  | nothing => rfl
  | next htakes hhead ih =>
      rw [ih, parse_of_some hstable hhead, List.append_assoc, List.singleton_append]

theorem Takes.length_le (htakes : Takes head stream items rest) :
    rest.length ≤ stream.length := by
  induction htakes with
  | nothing => exact le_rfl
  | next htakes hhead ih => exact (hstable.hshorter hhead).le.trans ih

/-- More of the stream leaves what was taken as it is. -/
theorem Takes.append (htakes : Takes head stream items rest) (more : List α) :
    Takes head (stream ++ more) items (rest ++ more) := by
  induction htakes with
  | nothing => exact .nothing
  | next htakes hhead ih => exact ih.next (hstable.hmore more hhead)

/-- A reader that has nothing left to take has taken all. -/
theorem Takes.eq_parse (htakes : Takes head stream items rest) (hhead : head rest = none) :
    items = parse head stream := by
  rw [htakes.parse_eq hstable, parse_of_none hhead, List.append_nil]

end Stable

end Sednl.Incremental
