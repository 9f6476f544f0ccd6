import Mathlib.Logic.Hydra
import Sednl.Library.Locks

/-!
# Programs that take locks in order

The locks have ranks, and a program takes one only above all that it holds.  Then
threads never wait for each other in a circle: while a thread has something to do
some thread can move.  Each move uses up a part of a program, so that without new
operations all threads come to their end, whoever is scheduled.
-/

namespace Sednl.Locks

open Sednl.Transition

variable {σ μ ν ι : Type} {guard : ν → σ → Prop} {rank : μ → ℕ}

/-- A lock above all that are held. -/
def Above (rank : μ → ℕ) (held : Set μ) (mutex : μ) : Prop :=
  ∀ other ∈ held, rank other < rank mutex

theorem Above.notMem {held : Set μ} {mutex : μ} (habove : Above rank held mutex) :
    mutex ∉ held :=
  fun hheld => Nat.lt_irrefl _ (habove mutex hheld)

/-- What is left of a program after one move. -/
inductive Rest : Program σ μ ν → Program σ μ ν → Prop
  | lock (mutex : μ) (rest : Program σ μ ν) : Rest rest (.lock mutex rest)
  | unlock (mutex : μ) (rest : Program σ μ ν) : Rest rest (.unlock mutex rest)
  | read (name : ν) (rest : σ → Program σ μ ν) (shared : σ) :
      Rest (rest shared) (.read name rest)
  | write (effect : σ → σ) (rest : Program σ μ ν) : Rest rest (.write effect rest)

theorem wellFounded_rest : WellFounded (Rest (σ := σ) (μ := μ) (ν := ν)) := by
  refine ⟨fun program => ?_⟩
  induction program with
  | done => exact ⟨_, fun _ hrest => by cases hrest⟩
  | lock mutex rest ih => exact ⟨_, fun _ hrest => by cases hrest; exact ih⟩
  | unlock mutex rest ih => exact ⟨_, fun _ hrest => by cases hrest; exact ih⟩
  | read name rest ih => exact ⟨_, fun _ hrest => by cases hrest; exact ih _⟩
  | write effect rest ih => exact ⟨_, fun _ hrest => by cases hrest; exact ih⟩

namespace Machine

variable {machine next : Machine σ μ ν} {thread other : ℕ} {mutex : μ}

/-- No thread outside has anything to do. -/
def Within (threads : Finset ℕ) (machine : Machine σ μ ν) : Prop :=
  ∀ thread, thread ∉ threads → machine.threads thread = .done

/-- Finitely many threads have something to do. -/
def Finite (machine : Machine σ μ ν) : Prop :=
  ∃ threads, machine.Within threads

/-- All threads have come to their end, and no lock is held. -/
def Settled (machine : Machine σ μ ν) : Prop :=
  (∀ thread, machine.threads thread = .done) ∧ ∀ mutex, machine.owner mutex = none

/-- A read that comes next does not meet its guard. -/
def Strays (guard : ν → σ → Prop) (machine : Machine σ μ ν) : Prop :=
  ∃ thread, ¬ (machine.threads thread).Meets guard machine.shared

theorem Careful.settled {allowed : Set μ → μ → Prop} (hcareful : machine.Careful guard allowed)
    (hdone : ∀ thread, machine.threads thread = .done) : machine.Settled := by
  refine ⟨hdone, fun mutex => ?_⟩
  cases howner : machine.owner mutex with
  | none => rfl
  | some thread =>
      have hthread := hcareful thread
      rw [hdone thread] at hthread
      have hheld : mutex ∈ machine.held thread := howner
      have hnothing : machine.held thread = ∅ := hthread
      rw [hnothing] at hheld
      cases hheld

section Moves

variable [DecidableEq μ]

/-- What a move does: one thread is left with the rest of its program. -/
theorem rest_of_move (hnext : machine.move thread = some next) :
    ∃ program, Rest program (machine.threads thread) ∧
      next.threads = Function.update machine.threads thread program := by
  rw [Machine.move] at hnext
  cases hprogram : machine.threads thread with
  | done =>
      rw [hprogram] at hnext
      cases hnext
  | lock mutex rest =>
      rw [hprogram] at hnext
      obtain ⟨_, hsome⟩ := Option.ite_none_right_eq_some.mp hnext
      obtain rfl := Option.some.inj hsome
      exact ⟨rest, .lock mutex rest, rfl⟩
  | unlock mutex rest =>
      rw [hprogram] at hnext
      obtain rfl := Option.some.inj hnext
      exact ⟨rest, .unlock mutex rest, rfl⟩
  | read name rest =>
      rw [hprogram] at hnext
      obtain rfl := Option.some.inj hnext
      exact ⟨rest machine.shared, .read name rest machine.shared, rfl⟩
  | write effect rest =>
      rw [hprogram] at hnext
      obtain rfl := Option.some.inj hnext
      exact ⟨rest, .write effect rest, rfl⟩

theorem Within.move {threads : Finset ℕ} (hwithin : machine.Within threads)
    (hnext : machine.move thread = some next) : next.Within threads ∧ thread ∈ threads := by
  obtain ⟨program, hrest, hthreads⟩ := rest_of_move hnext
  have hmem : thread ∈ threads := by
    by_contra hout
    rw [hwithin thread hout] at hrest
    cases hrest
  refine ⟨fun other hother => ?_, hmem⟩
  have hne : other ≠ thread := fun h => hother (h ▸ hmem)
  rw [hthreads, Function.update_of_ne hne, hwithin other hother]

/-- A thread that cannot move waits for a lock of another thread. -/
theorem waits_of_move_eq_none (hbusy : machine.threads thread ≠ .done)
    (hstays : machine.move thread = none) :
    ∃ mutex rest owner, machine.threads thread = .lock mutex rest ∧
      machine.owner mutex = some owner := by
  rw [Machine.move] at hstays
  cases hprogram : machine.threads thread with
  | done => exact absurd hprogram hbusy
  | lock mutex rest =>
      rw [hprogram] at hstays
      cases howner : machine.owner mutex with
      | none => simp [howner] at hstays
      | some owner => exact ⟨mutex, rest, owner, rfl, howner⟩
  | unlock mutex rest =>
      rw [hprogram] at hstays
      cases hstays
  | read name rest =>
      rw [hprogram] at hstays
      cases hstays
  | write effect rest =>
      rw [hprogram] at hstays
      cases hstays

/-- The rank of the lock that a thread waits for. -/
def awaited (rank : μ → ℕ) : Program σ μ ν → ℕ
  | .lock mutex _ => rank mutex
  | _ => 0

/-- While a thread has something to do, some thread can move: among those that wait
take the one that waits for the highest lock; its owner waits for a higher one. -/
theorem exists_move_of_above (hordered : machine.Careful guard (Above rank)) {threads : Finset ℕ}
    (hwithin : machine.Within threads) (hbusy : machine.threads thread ≠ .done) :
    ∃ mover next, machine.move mover = some next := by
  classical
  by_contra hstuck
  push Not at hstuck
  have hstays : ∀ waiter, machine.move waiter = none := fun waiter =>
    Option.eq_none_iff_forall_ne_some.mpr (hstuck waiter)
  have hmem : ∀ {waiter}, machine.threads waiter ≠ .done →
      waiter ∈ {waiter ∈ threads | machine.threads waiter ≠ .done} := fun {waiter} hwaiter =>
    Finset.mem_filter.mpr ⟨by_contra fun hout => hwaiter (hwithin waiter hout), hwaiter⟩
  obtain ⟨last, hlast, hhighest⟩ := Finset.exists_max_image _
    (fun waiter => awaited rank (machine.threads waiter)) ⟨thread, hmem hbusy⟩
  obtain ⟨mutex, rest, owner, hlock, howner⟩ :=
    waits_of_move_eq_none (Finset.mem_filter.mp hlast).2 (hstays last)
  have howns := hordered owner
  have hheld : mutex ∈ machine.held owner := howner
  have hworks : machine.threads owner ≠ .done := by
    intro hdone
    rw [hdone] at howns
    have hnothing : machine.held owner = ∅ := howns
    rw [hnothing] at hheld
    cases hheld
  obtain ⟨above, rest', _, hwaits, _⟩ := waits_of_move_eq_none hworks (hstays owner)
  rw [hwaits] at howns
  have hhigher : rank mutex < rank above := howns.1 mutex hheld
  have hbelow := hhighest owner (hmem hworks)
  rw [hwaits, hlock] at hbelow
  exact absurd hbelow (Nat.not_le.mpr hhigher)

/-- What the threads have still to do. -/
def programs (threads : Finset ℕ) (machine : Machine σ μ ν) : Multiset (Program σ μ ν) :=
  threads.val.map machine.threads

/-- A move replaces one of the programs by its rest. -/
theorem cutExpand_of_move {threads : Finset ℕ} (hmem : thread ∈ threads)
    (hnext : machine.move thread = some next) :
    Relation.CutExpand Rest (next.programs threads) (machine.programs threads) := by
  classical
  obtain ⟨program, hrest, hthreads⟩ := rest_of_move hnext
  have hsplit : threads.val = thread ::ₘ (threads.erase thread).val := by
    rw [Finset.erase_val, Multiset.cons_erase hmem]
  have hothers : (threads.erase thread).val.map next.threads =
      (threads.erase thread).val.map machine.threads := by
    refine Multiset.map_congr rfl fun other hother => ?_
    rw [hthreads, Function.update_of_ne (Finset.ne_of_mem_erase hother)]
  rw [programs, programs, hsplit, Multiset.map_cons, Multiset.map_cons, hothers, hthreads,
    Function.update_self, ← Multiset.singleton_add, ← Multiset.singleton_add]
  exact Relation.cutExpand_single_add hrest _

/-- Whoever is scheduled, all threads come to their end and leave no lock held,
unless a read strays. -/
theorem inevitable_of_above {threads : Finset ℕ}
    (hordered : machine.Careful guard (Above rank)) (hwithin : machine.Within threads) :
    Inevitable Machine.move (fun last => last.Settled ∨ last.Strays guard) machine := by
  induction hprograms : machine.programs threads using
      wellFounded_rest.cutExpand.induction generalizing machine with
  | _ programs ih =>
    by_cases hstrays : machine.Strays guard
    · exact .here (.inr hstrays)
    by_cases hdone : ∀ thread, machine.threads thread = .done
    · exact .here (.inl (hordered.settled hdone))
    push Not at hdone
    obtain ⟨thread, hbusy⟩ := hdone
    refine .later (exists_move_of_above hordered hwithin hbusy) fun mover next hnext => ?_
    obtain ⟨hstill, hmem⟩ := hwithin.move hnext
    have hmeets : (machine.threads mover).Meets guard machine.shared := by
      by_contra hbreaks
      exact hstrays ⟨mover, hbreaks⟩
    refine ih _ ?_ (hordered.move hmeets hnext) hstill rfl
    rw [← hprograms]
    exact cutExpand_of_move hmem hnext

end Moves

end Machine

section Runs

variable [DecidableEq μ] {program : ι → Program σ μ ν} {machine next : Machine σ μ ν}

theorem Machine.Finite.step (hfinite : machine.Finite) {action : Action ι}
    (hnext : Locks.step program machine action = some next) : next.Finite := by
  obtain ⟨threads, hwithin⟩ := hfinite
  cases action with
  | start thread operation =>
      rw [Locks.step] at hnext
      split at hnext
      · obtain rfl := Option.some.inj hnext
        refine ⟨insert thread threads, fun other hother => ?_⟩
        obtain ⟨hne, hout⟩ := not_or.mp (Finset.mem_insert.not.mp hother)
        exact (Function.update_of_ne hne _ _).trans (hwithin other hout)
      · cases hnext
  | move thread => exact ⟨threads, (hwithin.move hnext).1⟩

/-- Where all programs take locks in order, a safe run may stop to start
operations at any time: all that were started come to their end. -/
theorem inevitable_of_allCareful (hprograms : AllCareful guard (Above rank) program)
    {shared : σ}
    (hreaches : Reaches (step program) (Safe guard) (Machine.idle shared) machine) :
    Inevitable Machine.move (fun last => last.Settled ∨ last.Strays guard) machine := by
  have hfinite : machine.Finite := hreaches.invariant
    (fun hfinite _ hnext => hfinite.step hnext) ⟨∅, fun _ _ => rfl⟩
  obtain ⟨threads, hwithin⟩ := hfinite
  exact Machine.inevitable_of_above (careful_of_allCareful hprograms hreaches) hwithin

end Runs

end Sednl.Locks
