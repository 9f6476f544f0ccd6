import Mathlib.Data.List.Nodup
import Mathlib.Data.Set.Basic
import Mathlib.Logic.Function.Basic

/-!
# Associations kept on two sides

Each owner keeps a list of its members, and each member a pointer to its owner.
The two agree when the list of an owner holds, once each, the members that point
to it.  Members outside of `mirrored` may point to an owner that does not list
them.
-/

namespace Sednl.Association

/-- Lists of members and pointers to owners. -/
structure Roster (α ι : Type) where
  members : ι → List α
  owner : α → Option ι

namespace Roster

variable {α ι : Type} {roster : Roster α ι} {mirrored : Set α} {x y : α} {i j : ι}

def empty : Roster α ι :=
  ⟨fun _ => [], fun _ => none⟩

structure Consistent (roster : Roster α ι) (mirrored : Set α) : Prop where
  hnodup : ∀ i, (roster.members i).Nodup
  hsound : ∀ i, ∀ x ∈ roster.members i, roster.owner x = some i
  hcomplete : ∀ i, ∀ x ∈ mirrored, roster.owner x = some i → x ∈ roster.members i

theorem Consistent.mem_iff (hroster : roster.Consistent mirrored) (hx : x ∈ mirrored) :
    x ∈ roster.members i ↔ roster.owner x = some i :=
  ⟨hroster.hsound i x, hroster.hcomplete i x hx⟩

/-- A member has one owner. -/
theorem Consistent.unique (hroster : roster.Consistent mirrored) (hi : x ∈ roster.members i)
    (hj : x ∈ roster.members j) : i = j :=
  Option.some.inj ((hroster.hsound i x hi).symm.trans (hroster.hsound j x hj))

theorem consistent_empty : (empty : Roster α ι).Consistent mirrored where
  hnodup _ := List.nodup_nil
  hsound _ _ hx := by cases hx
  hcomplete _ _ _ howner := by cases howner

section Owner

variable [DecidableEq α]

def setOwner (roster : Roster α ι) (x : α) (owner : Option ι) : Roster α ι :=
  { roster with owner := Function.update roster.owner x owner }

theorem setOwner_self (owner : Option ι) : (roster.setOwner x owner).owner x = owner :=
  Function.update_self _ _ _

theorem setOwner_of_ne (hne : y ≠ x) (owner : Option ι) :
    (roster.setOwner x owner).owner y = roster.owner y :=
  Function.update_of_ne hne _ _

/-- A member that no owner lists gets a pointer that no list mirrors. -/
theorem Consistent.setOwner (hroster : roster.Consistent mirrored) (hfree : roster.owner x = none)
    (hx : x ∉ mirrored) (owner : Option ι) : (roster.setOwner x owner).Consistent mirrored where
  hnodup := hroster.hnodup
  hsound j y hy := by
    have hyx : y ≠ x := by
      rintro rfl
      cases hfree.symm.trans (hroster.hsound j y hy)
    rw [setOwner_of_ne hyx]
    exact hroster.hsound j y hy
  hcomplete j y hmirrored howner := by
    have hyx : y ≠ x := by
      rintro rfl
      exact hx hmirrored
    rw [setOwner_of_ne hyx] at howner
    exact hroster.hcomplete j y hmirrored howner

end Owner

section Members

variable [DecidableEq ι]

def setMembers (roster : Roster α ι) (i : ι) (members : List α) : Roster α ι :=
  { roster with members := Function.update roster.members i members }

theorem setMembers_self (members : List α) : (roster.setMembers i members).members i = members :=
  Function.update_self _ _ _

theorem setMembers_of_ne (hne : j ≠ i) (members : List α) :
    (roster.setMembers i members).members j = roster.members j :=
  Function.update_of_ne hne _ _

theorem nodup_setMembers {members : List α} (hmembers : members.Nodup)
    (hnodup : ∀ i, (roster.members i).Nodup) (j : ι) :
    ((roster.setMembers i members).members j).Nodup := by
  by_cases hj : j = i
  · subst hj
    rwa [setMembers_self]
  · rw [setMembers_of_ne hj]
    exact hnodup j

end Members

variable [DecidableEq α] [DecidableEq ι]

/-- A member joins the list of an owner, and points to it. -/
def link (roster : Roster α ι) (i : ι) (x : α) : Roster α ι :=
  (roster.setOwner x (some i)).setMembers i (roster.members i ++ [x])

/-- A member leaves the list of an owner, and points to none. -/
def unlink (roster : Roster α ι) (i : ι) (x : α) : Roster α ι :=
  (roster.setOwner x none).setMembers i ((roster.members i).erase x)

theorem mem_link : y ∈ (roster.link i x).members j ↔ y ∈ roster.members j ∨ j = i ∧ y = x := by
  by_cases hj : j = i
  · subst hj
    rw [link, setMembers_self, List.mem_append, List.mem_singleton]
    simp only [true_and]
  · rw [link, setMembers_of_ne hj]
    simp only [hj, false_and, or_false]
    exact Iff.rfl

/-- A member whose owner lists it leaves that list, and is in no other. -/
theorem Consistent.mem_unlink (hroster : roster.Consistent mirrored)
    (howner : roster.owner x = some i) :
    y ∈ (roster.unlink i x).members j ↔ y ∈ roster.members j ∧ y ≠ x := by
  by_cases hj : j = i
  · subst hj
    rw [unlink, setMembers_self, (hroster.hnodup j).mem_erase_iff, and_comm]
  · rw [unlink, setMembers_of_ne hj]
    refine ⟨fun hy => ⟨hy, ?_⟩, fun hy => hy.1⟩
    rintro rfl
    exact hj (Option.some.inj ((hroster.hsound j y hy).symm.trans howner))

theorem Consistent.link (hroster : roster.Consistent mirrored) (hfresh : x ∉ roster.members i)
    (hfree : ∀ j, roster.owner x = some j → j = i) : (roster.link i x).Consistent mirrored where
  hnodup := by
    refine nodup_setMembers ?_ hroster.hnodup
    exact List.nodup_append'.mpr ⟨hroster.hnodup i, List.nodup_singleton x,
      List.disjoint_singleton.mpr hfresh⟩
  hsound j y hy := by
    change (roster.setOwner x (some i)).owner y = some j
    rcases mem_link.mp hy with hbefore | ⟨rfl, rfl⟩
    · by_cases hyx : y = x
      · subst hyx
        obtain rfl := hfree j (hroster.hsound j y hbefore)
        exact setOwner_self _
      · rw [setOwner_of_ne hyx]
        exact hroster.hsound j y hbefore
    · exact setOwner_self _
  hcomplete j y hmirrored howner := by
    replace howner : (roster.setOwner x (some i)).owner y = some j := howner
    by_cases hyx : y = x
    · subst hyx
      rw [setOwner_self, Option.some.injEq] at howner
      exact mem_link.mpr (.inr ⟨howner.symm, rfl⟩)
    · rw [setOwner_of_ne hyx] at howner
      exact mem_link.mpr (.inl (hroster.hcomplete j y hmirrored howner))

theorem Consistent.unlink (hroster : roster.Consistent mirrored)
    (howner : roster.owner x = some i) : (roster.unlink i x).Consistent mirrored where
  hnodup := nodup_setMembers ((hroster.hnodup i).erase x) hroster.hnodup
  hsound j y hy := by
    obtain ⟨hmem, hyx⟩ := (hroster.mem_unlink howner).mp hy
    exact (setOwner_of_ne hyx _).trans (hroster.hsound j y hmem)
  hcomplete j y hmirrored hpoints := by
    replace hpoints : (roster.setOwner x none).owner y = some j := hpoints
    have hyx : y ≠ x := by
      rintro rfl
      rw [setOwner_self] at hpoints
      cases hpoints
    rw [setOwner_of_ne hyx] at hpoints
    exact (hroster.mem_unlink howner).mpr ⟨hroster.hcomplete j y hmirrored hpoints, hyx⟩

end Roster

end Sednl.Association
