import Mathlib

/-!
# Monitored memory

Code that indexes an array without checking reads whatever lies beyond it.
A `Region` is an array together with an arbitrary answer for every read past
its end, and a `Probe` is a computation that records each index it reads.
Bounds safety is then a statement about the record, and a result that does not
depend on the stray answers is a statement quantified over them.
-/

namespace Sednl.Memory

variable {α β γ : Type}

/-- An array, and what reads outside it return.  A stray answer may depend on
every index read before it, so it need not be the same twice. -/
structure Region (α : Type) where
  cells : List α
  wild : List ℕ → ℕ → α

namespace Region

def size (region : Region α) : ℕ :=
  region.cells.length

/-- What reading `index` yields after the reads in `log`. -/
def value (region : Region α) (log : List ℕ) (index : ℕ) : α :=
  (region.cells[index]?).getD (region.wild log index)

theorem value_of_getElem? {region : Region α} {log : List ℕ} {index : ℕ}
    {cell : α} (hcell : region.cells[index]? = some cell) :
    region.value log index = cell := by
  simp [value, hcell]

theorem value_of_le {region : Region α} {log : List ℕ} {index : ℕ}
    (hindex : region.size ≤ index) :
    region.value log index = region.wild log index := by
  simp [value, List.getElem?_eq_none hindex]

/-- Reading inside the array, located by what is left to read. -/
theorem value_of_drop {region : Region α} {index : ℕ} {rest : List α}
    {cell : α} (front : List α) (log : List ℕ)
    (hdrop : region.cells.drop index = front ++ cell :: rest) :
    region.value log (index + front.length) = cell := by
  apply value_of_getElem?
  rw [← List.getElem?_drop, hdrop]
  simp

theorem length_of_drop {region : Region α} {index : ℕ} {rest : List α}
    (hdrop : region.cells.drop index = rest) : rest.length = region.size - index := by
  rw [← hdrop, List.length_drop, size]

theorem lt_size_of_drop {region : Region α} {index : ℕ} {rest : List α}
    {cell : α} (front : List α)
    (hdrop : region.cells.drop index = front ++ cell :: rest) :
    index + front.length < region.size := by
  have hlength := length_of_drop hdrop
  rw [List.length_append, List.length_cons] at hlength
  omega

theorem value_head {region : Region α} {log : List ℕ} {index : ℕ}
    {rest : List α} {cell : α} (hdrop : region.cells.drop index = cell :: rest) :
    region.value log index = cell :=
  value_of_drop [] log hdrop

theorem lt_size_of_head {region : Region α} {index : ℕ} {rest : List α}
    {cell : α} (hdrop : region.cells.drop index = cell :: rest) :
    index < region.size :=
  lt_size_of_drop [] hdrop

theorem drop_size (region : Region α) : region.cells.drop region.size = [] :=
  List.drop_length

theorem exists_head {region : Region α} {index : ℕ} (hindex : index < region.size) :
    ∃ cell rest, region.cells.drop index = cell :: rest := by
  apply List.exists_cons_of_ne_nil
  rw [Ne, List.drop_eq_nil_iff]
  exact not_le.mpr hindex

theorem drop_add {region : Region α} {index : ℕ} {front rest : List α}
    (hdrop : region.cells.drop index = front ++ rest) :
    region.cells.drop (index + front.length) = rest := by
  rw [← List.drop_drop, hdrop, List.drop_left]

end Region

/-- A computation that records the indices it reads, latest first. -/
def Probe (β : Type) : Type :=
  List ℕ → β × List ℕ

namespace Probe

def run (probe : Probe β) (log : List ℕ) : β × List ℕ :=
  probe log

instance : Monad Probe where
  pure result := fun log => (result, log)
  bind probe next := fun log => next (probe log).1 (probe log).2

@[simp]
theorem run_pure (result : β) (log : List ℕ) :
    (pure result : Probe β).run log = (result, log) := rfl

@[simp]
theorem run_bind (probe : Probe β) (next : β → Probe γ) (log : List ℕ) :
    (probe >>= next).run log =
      (next (probe.run log).1).run (probe.run log).2 := rfl

@[simp]
theorem run_ite (condition : Prop) [Decidable condition]
    (left right : Probe β) (log : List ℕ) :
    (if condition then left else right).run log =
      if condition then left.run log else right.run log := by
  split <;> rfl

end Probe

/-- Read one cell and record its index. -/
def Region.read (region : Region α) (index : ℕ) : Probe α :=
  fun log => (region.value log index, index :: log)

@[simp]
theorem Region.run_read (region : Region α) (index : ℕ) (log : List ℕ) :
    (region.read index).run log = (region.value log index, index :: log) := rfl

/-- A read followed by what depends on it, in one step: the tests in `next` are
then about the value. -/
@[simp]
theorem Region.run_read_bind (region : Region α) (index : ℕ) (next : α → Probe β)
    (log : List ℕ) :
    (region.read index >>= next).run log =
      (next (region.value log index)).run (index :: log) := rfl

/-- Every recorded index lies inside an array of `size` cells. -/
def InBounds (size : ℕ) (log : List ℕ) : Prop :=
  ∀ index ∈ log, index < size

instance (size : ℕ) (log : List ℕ) : Decidable (InBounds size log) :=
  inferInstanceAs (Decidable (∀ index ∈ log, index < size))

@[simp]
theorem inBounds_nil (size : ℕ) : InBounds size [] := by
  simp [InBounds]

@[simp]
theorem inBounds_cons (size index : ℕ) (log : List ℕ) :
    InBounds size (index :: log) ↔ index < size ∧ InBounds size log := by
  simp [InBounds]

theorem inBounds_of_lt {size index : ℕ} (hindex : index < size) (log : List ℕ) :
    InBounds size (index :: log) ↔ InBounds size log := by
  simp [hindex]

theorem InBounds.of_suffix {size : ℕ} {log later : List ℕ}
    (hbounds : InBounds size later) (hsuffix : log <:+ later) :
    InBounds size log :=
  fun index hindex => hbounds index (hsuffix.subset hindex)

/-- The computation only ever adds to the record. -/
def Probe.Grows (probe : Probe β) : Prop :=
  ∀ log, log <:+ (probe.run log).2

namespace Probe.Grows

theorem pure (result : β) : Grows (Pure.pure result : Probe β) :=
  fun log => List.suffix_refl log

theorem read (region : Region α) (index : ℕ) : Grows (region.read index) :=
  fun log => List.suffix_cons index log

theorem bind {probe : Probe β} {next : β → Probe γ} (hprobe : Grows probe)
    (hnext : ∀ result, Grows (next result)) : Grows (probe >>= next) :=
  fun log => (hprobe log).trans (hnext _ _)

theorem ite {condition : Prop} [Decidable condition] {left right : Probe β}
    (hleft : Grows left) (hright : Grows right) :
    Grows (if condition then left else right) := by
  split
  · exact hleft
  · exact hright

end Probe.Grows

end Sednl.Memory
