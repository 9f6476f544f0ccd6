import Mathlib.Data.List.Basic

/-!
# The connections of a listener

The attached connections, the map of the accepted ones, and the searches through
them: those of `get_connection` and `close_connection` for a descriptor, and that of
`tell_disconnected` for a connection.
-/

namespace Sednl.Connections

variable {mConnections : List ℕ} {mInternalConnections : List (ℕ × ℕ)}
variable {getFd : ℕ → Option ℕ} {fd cn : ℕ}

def findAttached (mConnections : List ℕ) (getFd : ℕ → Option ℕ) (fd : ℕ) : Option ℕ :=
  mConnections.find? fun cn => getFd cn == some fd

def findInternal (mInternalConnections : List (ℕ × ℕ)) (fd : ℕ) : Option ℕ :=
  (mInternalConnections.find? (·.1 == fd)).map Prod.snd

/-- The search of `tell_disconnected`, and the map it leaves where it finds the
connection; with one attached it does not look into the map. -/
def tellDisconnected (mConnections : List ℕ) (mInternalConnections : List (ℕ × ℕ)) (cn : ℕ) :
    Option (List (ℕ × ℕ)) :=
  if mConnections ≠ [] then
    if cn ∈ mConnections then some mInternalConnections else none
  else if mInternalConnections.any (·.2 == cn) then
    some (mInternalConnections.filter (·.2 ≠ cn))
  else none

theorem mem_of_findAttached (hfound : findAttached mConnections getFd fd = some cn) :
    cn ∈ mConnections ∧ getFd cn = some fd :=
  ⟨List.mem_of_find?_eq_some hfound, by simpa using List.find?_some hfound⟩

theorem mem_of_findInternal (hfound : findInternal mInternalConnections fd = some cn) :
    (fd, cn) ∈ mInternalConnections := by
  obtain ⟨entry, hfind, rfl⟩ := Option.map_eq_some_iff.mp hfound
  have hkey : entry.1 = fd := by simpa using List.find?_some hfind
  rw [← hkey]
  exact List.mem_of_find?_eq_some hfind

theorem tellDisconnected_of_attached (hattached : cn ∈ mConnections) :
    tellDisconnected mConnections mInternalConnections cn = some mInternalConnections := by
  rw [tellDisconnected, if_pos (List.ne_nil_of_mem hattached), if_pos hattached]

theorem tellDisconnected_of_other (hsome : mConnections ≠ []) (hattached : cn ∉ mConnections) :
    tellDisconnected mConnections mInternalConnections cn = none := by
  rw [tellDisconnected, if_pos hsome, if_neg hattached]

theorem tellDisconnected_of_internal (hnone : mConnections = [])
    (hinternal : cn ∈ mInternalConnections.map Prod.snd) :
    tellDisconnected mConnections mInternalConnections cn =
      some (mInternalConnections.filter (·.2 ≠ cn)) := by
  have hany : mInternalConnections.any (·.2 == cn) = true := by
    obtain ⟨entry, hentry, rfl⟩ := List.mem_map.mp hinternal
    exact List.any_eq_true.mpr ⟨entry, hentry, by simp⟩
  rw [tellDisconnected, if_neg (not_not.mpr hnone), if_pos hany]

/-- A connection that is neither attached nor in the map is not found. -/
theorem tellDisconnected_of_gone (hattached : cn ∉ mConnections)
    (hinternal : cn ∉ mInternalConnections.map Prod.snd) :
    tellDisconnected mConnections mInternalConnections cn = none := by
  have hany : ¬ mInternalConnections.any (·.2 == cn) = true := by
    intro h
    obtain ⟨entry, hentry, heq⟩ := List.any_eq_true.mp h
    exact hinternal (List.mem_map.mpr ⟨entry, hentry, by simpa using heq⟩)
  rw [tellDisconnected, if_neg hattached, if_neg hany, ite_self]

theorem getD_tellDisconnected_of_ne_nil (hsome : mConnections ≠ []) :
    (tellDisconnected mConnections mInternalConnections cn).getD mInternalConnections =
      mInternalConnections := by
  by_cases hattached : cn ∈ mConnections
  · rw [tellDisconnected_of_attached hattached]
    rfl
  · rw [tellDisconnected_of_other hsome hattached]
    rfl

theorem getD_tellDisconnected_of_eq_nil (hnone : mConnections = []) :
    (tellDisconnected mConnections mInternalConnections cn).getD mInternalConnections =
      mInternalConnections.filter (·.2 ≠ cn) := by
  by_cases hinternal : cn ∈ mInternalConnections.map Prod.snd
  · rw [tellDisconnected_of_internal hnone hinternal]
    rfl
  · have hattached : cn ∉ mConnections := hnone ▸ List.not_mem_nil
    rw [tellDisconnected_of_gone hattached hinternal, Option.getD_none, eq_comm]
    refine List.filter_eq_self.mpr fun entry hentry => decide_eq_true fun heq => ?_
    exact hinternal (heq ▸ List.mem_map_of_mem hentry)

end Sednl.Connections
