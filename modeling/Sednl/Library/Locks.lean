import Sednl.Library.Transition

/-!
# Threads that take locks

Programs that take and release non-recursive locks and read and write a shared
state, run by any number of threads in any order.  A thread that comes to a lock
it holds never goes on.  A program is careful when with the locks it holds it takes
only those it is allowed to, whatever it reads; the reads have names, and a guard
says in which states a read of that name leads on.
-/

namespace Sednl.Locks

open Sednl.Transition

/-- What a thread has still to do. -/
inductive Program (σ μ ν : Type) where
  | done
  | lock (mutex : μ) (rest : Program σ μ ν)
  | unlock (mutex : μ) (rest : Program σ μ ν)
  | read (name : ν) (rest : σ → Program σ μ ν)
  | write (effect : σ → σ) (rest : Program σ μ ν)

variable {σ μ ν ι : Type}

/-- The next thing a program does is to take a lock that is held. -/
def Program.Relocks (held : Set μ) (program : Program σ μ ν) : Prop :=
  ∃ mutex ∈ held, ∃ rest, program = .lock mutex rest

/-- With the locks it holds, a program takes only those allowed, and releases what it
has taken, as long as its reads meet the guard; and a read that does not leads it to
a lock that it holds. -/
def Program.Careful (guard : ν → σ → Prop) (allowed : Set μ → μ → Prop) :
    Set μ → Program σ μ ν → Prop
  | held, .done => held = ∅
  | held, .lock mutex rest =>
      allowed held mutex ∧ rest.Careful guard allowed (insert mutex held)
  | held, .unlock mutex rest => mutex ∈ held ∧ rest.Careful guard allowed (held \ {mutex})
  | held, .read name rest =>
      ∀ shared, (guard name shared → (rest shared).Careful guard allowed held) ∧
        (¬ guard name shared → (rest shared).Relocks held)
  | held, .write _ rest => rest.Careful guard allowed held

section Programs

variable {guard : ν → σ → Prop} {allowed : Set μ → μ → Prop} {held : Set μ} {mutex : μ}
variable {rest : Program σ μ ν}

/-- A section of code under a lock. -/
theorem Program.Careful.locked (hfree : mutex ∉ held)
    (hrest : rest.Careful guard allowed held) :
    (Program.unlock mutex rest).Careful guard allowed (insert mutex held) := by
  refine ⟨Set.mem_insert _ _, ?_⟩
  rwa [Set.insert_sdiff_self_of_notMem hfree]

/-- A read without a guard. -/
theorem Program.Careful.read {name : ν} {rest : σ → Program σ μ ν}
    (hname : ∀ shared, guard name shared)
    (hrest : ∀ shared, (rest shared).Careful guard allowed held) :
    (Program.read name rest).Careful guard allowed held :=
  fun shared => ⟨fun _ => hrest shared, fun hfails => absurd (hname shared) hfails⟩

theorem Program.Careful.not_relocks (hallowed : ∀ held mutex, allowed held mutex → mutex ∉ held)
    (hcareful : rest.Careful guard allowed held) : ¬ rest.Relocks held := by
  rintro ⟨mutex, hheld, rest, rfl⟩
  exact hallowed held mutex hcareful.1 hheld

end Programs

/-- The shared state, the thread that holds each lock, and what each thread has
still to do. -/
structure Machine (σ μ ν : Type) where
  shared : σ
  owner : μ → Option ℕ
  threads : ℕ → Program σ μ ν

inductive Action (ι : Type) where
  /-- A thread that has nothing to do begins an operation. -/
  | start (thread : ℕ) (operation : ι)
  /-- A thread goes on. -/
  | move (thread : ℕ)

variable [DecidableEq μ]

namespace Machine

variable (machine : Machine σ μ ν)

/-- The locks that a thread holds. -/
def held (thread : ℕ) : Set μ :=
  {mutex | machine.owner mutex = some thread}

/-- A thread tries to take a lock that it holds. -/
def SelfLocked : Prop :=
  ∃ thread, (machine.threads thread).Relocks (machine.held thread)

def setThread (thread : ℕ) (program : Program σ μ ν) : Machine σ μ ν :=
  { machine with threads := Function.update machine.threads thread program }

def setOwner (mutex : μ) (owner : Option ℕ) : Machine σ μ ν :=
  { machine with owner := Function.update machine.owner mutex owner }

/-- The next step of a thread; a lock that is held blocks it. -/
def move (thread : ℕ) : Option (Machine σ μ ν) :=
  match machine.threads thread with
  | .done => none
  | .lock mutex rest =>
      if machine.owner mutex = none then
        some ((machine.setOwner mutex (some thread)).setThread thread rest)
      else none
  | .unlock mutex rest => some ((machine.setOwner mutex none).setThread thread rest)
  | .read _ rest => some (machine.setThread thread (rest machine.shared))
  | .write effect rest =>
      some ({ machine with shared := effect machine.shared }.setThread thread rest)

end Machine

/-- The steps of all threads, with the programs of the operations. -/
def step (program : ι → Program σ μ ν) (machine : Machine σ μ ν) :
    Action ι → Option (Machine σ μ ν)
  | .start thread operation =>
      match machine.threads thread with
      | .done => some (machine.setThread thread (program operation))
      | _ => none
  | .move thread => machine.move thread

/-- A read that comes next meets its guard. -/
def Program.Meets (guard : ν → σ → Prop) (shared : σ) : Program σ μ ν → Prop
  | .read name _ => guard name shared
  | .done | .lock _ _ | .unlock _ _ | .write _ _ => True

instance {guard : ν → σ → Prop} [∀ name shared, Decidable (guard name shared)] (shared : σ) :
    (program : Program σ μ ν) → Decidable (program.Meets guard shared)
  | .read name _ => inferInstanceAs (Decidable (guard name shared))
  | .done | .lock _ _ | .unlock _ _ | .write _ _ => .isTrue trivial

/-- When a step is safe: a read meets its guard. -/
def Safe (guard : ν → σ → Prop) (machine : Machine σ μ ν) : Action ι → Prop
  | .start _ _ => True
  | .move thread => (machine.threads thread).Meets guard machine.shared

instance {guard : ν → σ → Prop} [∀ name shared, Decidable (guard name shared)]
    (machine : Machine σ μ ν) : (action : Action ι) → Decidable (Safe guard machine action)
  | .start _ _ => .isTrue trivial
  | .move thread => inferInstanceAs (Decidable ((machine.threads thread).Meets guard _))

/-- Each thread goes on carefully with the locks it holds. -/
def Machine.Careful (guard : ν → σ → Prop) (allowed : Set μ → μ → Prop)
    (machine : Machine σ μ ν) : Prop :=
  ∀ thread, (machine.threads thread).Careful guard allowed (machine.held thread)

section Steps

variable {guard : ν → σ → Prop} {allowed : Set μ → μ → Prop}
variable {machine next : Machine σ μ ν} {thread other : ℕ} {mutex : μ}

namespace Machine

theorem held_lock (thread : ℕ) (mutex : μ) :
    (machine.setOwner mutex (some thread)).held thread = insert mutex (machine.held thread) := by
  ext held
  change Function.update machine.owner mutex (some thread) held = some thread ↔ _
  by_cases hheld : held = mutex
  · subst hheld
    rw [Function.update_self]
    exact iff_of_true rfl (Set.mem_insert _ _)
  · rw [Function.update_of_ne hheld, Set.mem_insert_iff, or_iff_right hheld]
    exact Iff.rfl

theorem held_unlock (thread : ℕ) (mutex : μ) :
    (machine.setOwner mutex none).held thread = machine.held thread \ {mutex} := by
  ext held
  change Function.update machine.owner mutex none held = some thread ↔ _
  by_cases hheld : held = mutex
  · subst hheld
    rw [Function.update_self]
    exact iff_of_false (Option.some_ne_none thread).symm fun hmem => hmem.2 rfl
  · rw [Function.update_of_ne hheld]
    exact ⟨fun howner => ⟨howner, hheld⟩, fun hmem => hmem.1⟩

/-- A lock that another thread does not hold changes hands. -/
theorem held_of_ne {owner : Option ℕ} (hbefore : machine.owner mutex ≠ some other)
    (hafter : owner ≠ some other) :
    (machine.setOwner mutex owner).held other = machine.held other := by
  ext held
  change Function.update machine.owner mutex owner held = some other ↔ machine.owner held = _
  by_cases hheld : held = mutex
  · subst hheld
    rw [Function.update_self]
    exact iff_of_false hafter hbefore
  · rw [Function.update_of_ne hheld]

omit [DecidableEq μ] in
/-- One thread goes on carefully, and the locks of the others stay. -/
theorem Careful.goOn (hcareful : machine.Careful guard allowed)
    (hthreads : next.threads = machine.threads)
    (hothers : ∀ other, other ≠ thread → next.held other = machine.held other)
    {program : Program σ μ ν} (hprogram : program.Careful guard allowed (next.held thread)) :
    (next.setThread thread program).Careful guard allowed := by
  intro other
  change (Function.update next.threads thread program other).Careful guard allowed
    (next.held other)
  by_cases hother : other = thread
  · subst hother
    rwa [Function.update_self]
  · rw [Function.update_of_ne hother, hothers other hother, hthreads]
    exact hcareful other

theorem Careful.move (hcareful : machine.Careful guard allowed)
    (hmeets : (machine.threads thread).Meets guard machine.shared)
    (hnext : machine.move thread = some next) : next.Careful guard allowed := by
  have hthread := hcareful thread
  rw [Machine.move] at hnext
  cases hprogram : machine.threads thread with
  | done =>
      rw [hprogram] at hnext
      cases hnext
  | lock mutex rest =>
      rw [hprogram] at hnext hthread
      obtain ⟨hfree, hsome⟩ := Option.ite_none_right_eq_some.mp hnext
      obtain rfl := Option.some.inj hsome
      have hmoved : (machine.setOwner mutex (some thread)).threads = machine.threads := rfl
      refine hcareful.goOn hmoved (fun other hne => held_of_ne ?_ ?_) ?_
      · rw [hfree]
        exact (Option.some_ne_none other).symm
      · exact fun hsame => hne (Option.some.inj hsame).symm
      · rw [held_lock]
        exact hthread.2
  | unlock mutex rest =>
      rw [hprogram] at hnext hthread
      obtain rfl := Option.some.inj hnext
      have hmoved : (machine.setOwner mutex none).threads = machine.threads := rfl
      refine hcareful.goOn hmoved
        (fun other hne => held_of_ne ?_ (Option.some_ne_none other).symm) ?_
      · have howner : machine.owner mutex = some thread := hthread.1
        rw [howner]
        exact fun hsame => hne (Option.some.inj hsame).symm
      · rw [held_unlock]
        exact hthread.2
  | read name rest =>
      rw [hprogram] at hnext hthread hmeets
      obtain rfl := Option.some.inj hnext
      exact hcareful.goOn rfl (fun _ _ => rfl) ((hthread machine.shared).1 hmeets)
  | write effect rest =>
      rw [hprogram] at hnext hthread
      obtain rfl := Option.some.inj hnext
      have hwritten :
          Machine.Careful guard allowed { machine with shared := effect machine.shared } := hcareful
      exact hwritten.goOn rfl (fun _ _ => rfl) hthread

end Machine

variable {program : ι → Program σ μ ν} {action : Action ι}

/-- The programs of all operations are careful with no lock held. -/
def AllCareful (guard : ν → σ → Prop) (allowed : Set μ → μ → Prop)
    (program : ι → Program σ μ ν) : Prop :=
  ∀ operation, (program operation).Careful guard allowed ∅

theorem Machine.Careful.step (hcareful : machine.Careful guard allowed)
    (hprograms : AllCareful guard allowed program) (hsafe : Safe guard machine action)
    (hnext : Locks.step program machine action = some next) : next.Careful guard allowed := by
  cases action with
  | start thread operation =>
      rw [Locks.step] at hnext
      split at hnext
      · rename_i hdone
        obtain rfl := Option.some.inj hnext
        have hthread := hcareful thread
        rw [hdone] at hthread
        have hnothing : machine.held thread = ∅ := hthread
        refine hcareful.goOn rfl (fun _ _ => rfl) ?_
        rw [hnothing]
        exact hprograms operation
      · cases hnext
  | move thread => exact hcareful.move hsafe hnext

omit [DecidableEq μ] in
theorem Machine.Careful.not_selfLocked
    (hallowed : ∀ held mutex, allowed held mutex → mutex ∉ held)
    (hcareful : machine.Careful guard allowed) : ¬ machine.SelfLocked := by
  rintro ⟨thread, hrelocks⟩
  exact (hcareful thread).not_relocks hallowed hrelocks

/-- A read that does not meet its guard leads the thread to a lock it holds. -/
theorem Machine.Careful.selfLocked (hcareful : machine.Careful guard allowed)
    (hnext : Locks.step program machine action = some next)
    (hbreaks : ¬ Safe guard machine action) : next.SelfLocked := by
  cases action with
  | start thread operation => exact absurd trivial hbreaks
  | move thread =>
      have hthread := hcareful thread
      rw [Safe] at hbreaks
      rw [Locks.step, Machine.move] at hnext
      cases hprogram : machine.threads thread with
      | read name rest =>
          rw [hprogram] at hnext hthread hbreaks
          obtain rfl := Option.some.inj hnext
          refine ⟨thread, ?_⟩
          change (Function.update machine.threads thread _ thread).Relocks _
          rw [Function.update_self]
          exact (hthread machine.shared).2 hbreaks
      | done | lock | unlock | write =>
          rw [hprogram] at hbreaks
          exact absurd trivial hbreaks

/-- No thread has anything to do, and no lock is held. -/
def Machine.idle (shared : σ) : Machine σ μ ν :=
  ⟨shared, fun _ => none, fun _ => .done⟩

omit [DecidableEq μ] in
theorem Machine.careful_idle (shared : σ) :
    (Machine.idle shared : Machine σ μ ν).Careful guard allowed := by
  intro thread
  refine Set.eq_empty_of_forall_notMem fun mutex howner => ?_
  cases howner

theorem careful_of_allCareful (hprograms : AllCareful guard allowed program) {shared : σ}
    (hreaches : Reaches (step program) (Safe guard) (Machine.idle shared) machine) :
    machine.Careful guard allowed :=
  hreaches.invariant (fun hcareful hsafe hnext => hcareful.step hprograms hsafe hnext)
    (Machine.careful_idle shared)

/-- Where the programs are careful and take no lock that they hold, no thread of a
safe run comes to one that it holds, and a step leads one there if and only if it is
not safe. -/
theorem not_selfLocked_of_allCareful
    (hallowed : ∀ held mutex, allowed held mutex → mutex ∉ held)
    (hprograms : AllCareful guard allowed program) {shared : σ}
    (hreaches : Reaches (step program) (Safe guard) (Machine.idle shared) machine) :
    ¬ machine.SelfLocked ∧ ∀ action next, step program machine action = some next →
      (¬ next.SelfLocked ↔ Safe guard machine action) := by
  have hcareful := careful_of_allCareful hprograms hreaches
  refine ⟨hcareful.not_selfLocked hallowed, fun action next hnext =>
    ⟨fun hfree => ?_, fun hsafe => ?_⟩⟩
  · by_contra hbreaks
    exact hfree (hcareful.selfLocked hnext hbreaks)
  · exact (hcareful.step hprograms hsafe hnext).not_selfLocked hallowed

end Steps

end Sednl.Locks
