import Mathlib

/-!
# Lists shared out

Each element of a list goes to one of two lists, and both keep its order: what a
queue has taken, say, and what it has turned away.
-/

namespace Sednl.Sharing

variable {α β : Type} {all kept lost : List α}

/-- Each element of `all` is in `kept` or in `lost`, and both have its order. -/
inductive Shared : (all kept lost : List α) → Prop
  | nil : Shared [] [] []
  | keep {all kept lost : List α} (hshared : Shared all kept lost) (item : α) :
      Shared (all ++ [item]) (kept ++ [item]) lost
  | lose {all kept lost : List α} (hshared : Shared all kept lost) (item : α) :
      Shared (all ++ [item]) kept (lost ++ [item])

theorem Shared.append_kept (hshared : Shared all kept lost) (items : List α) :
    Shared (all ++ items) (kept ++ items) lost := by
  induction items generalizing all kept with
  | nil => simpa using hshared
  | cons item items ih => simpa using ih (hshared.keep item)

theorem Shared.append_lost (hshared : Shared all kept lost) (items : List α) :
    Shared (all ++ items) kept (lost ++ items) := by
  induction items generalizing all lost with
  | nil => simpa using hshared
  | cons item items ih => simpa using ih (hshared.lose item)

theorem Shared.filter (hshared : Shared all kept lost) (keeps : α → Bool) :
    Shared (all.filter keeps) (kept.filter keeps) (lost.filter keeps) := by
  induction hshared with
  | nil => exact .nil
  | keep hshared item ih =>
      rw [List.filter_append, List.filter_append]
      exact ih.append_kept _
  | lose hshared item ih =>
      rw [List.filter_append, List.filter_append]
      exact ih.append_lost _

theorem Shared.map (hshared : Shared all kept lost) (f : α → β) :
    Shared (all.map f) (kept.map f) (lost.map f) := by
  induction hshared with
  | nil => exact .nil
  | keep hshared item ih =>
      rw [List.map_append, List.map_append]
      exact ih.append_kept _
  | lose hshared item ih =>
      rw [List.map_append, List.map_append]
      exact ih.append_lost _

theorem Shared.sublist (hshared : Shared all kept lost) : kept.Sublist all := by
  induction hshared with
  | nil => exact .refl []
  | keep hshared item ih => exact ih.append (.refl [item])
  | lose hshared item ih => exact ih.trans (List.sublist_append_left _ [item])

end Sednl.Sharing
