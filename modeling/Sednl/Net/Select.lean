import Sednl.Library.Enumeration
import Sednl.Library.Machine

/-!
# The select backend

`Poller` over `select`: a set of registered descriptors, the copy that `select`
cuts down to the ready ones, and a cursor that `next_event` moves through the
copy.  Descriptors may be registered in the middle of a scan, which raises the
limit of the scan but leaves the copy alone.  Seen from outside it is a queue of
ready descriptors, and a run of any calls answers as `Watch` does.

`size` is `FD_SETSIZE`, which the headers of the system fix; the counters stay
between -1 and `size`, so that no `int` overflows.
-/

namespace Sednl.Select

open Sednl.Enumeration
open Sednl.Machine

variable {size : ℕ}

/-! ## Sets of descriptors -/

def fdZero (size : ℕ) : BitVec size :=
  0

def fdSet (fd : ℤ) (set : BitVec size) : BitVec size :=
  set ||| BitVec.twoPow size fd.toNat

def fdClr (fd : ℤ) (set : BitVec size) : BitVec size :=
  set &&& ~~~BitVec.twoPow size fd.toNat

def fdIsset (fd : ℤ) (set : BitVec size) : Bool :=
  set.getLsbD fd.toNat

@[simp]
theorem fdIsset_fdZero (fd : ℤ) : fdIsset fd (fdZero size) = false :=
  BitVec.getLsbD_zero

theorem lt_of_fdIsset {fd : ℤ} {set : BitVec size} (hset : fdIsset fd set = true) :
    fd < size := by
  have hlt := BitVec.lt_of_getLsbD hset
  omega

theorem fdIsset_fdSet {fd i : ℤ} (hfd : 0 ≤ fd ∧ fd < size) (hi : 0 ≤ i)
    (set : BitVec size) : fdIsset i (fdSet fd set) = true ↔ i = fd ∨ fdIsset i set = true := by
  have hroom : fd.toNat < size := by omega
  have hsame : fd.toNat = i.toNat ↔ i = fd := by omega
  simp only [fdIsset, fdSet, BitVec.getLsbD_or, BitVec.getLsbD_twoPow, hroom, hsame,
    decide_true, Bool.true_and, Bool.or_eq_true, decide_eq_true_eq, or_comm]

theorem fdIsset_fdClr {fd i : ℤ} (hfd : 0 ≤ fd ∧ fd < size) (hi : 0 ≤ i)
    (set : BitVec size) : fdIsset i (fdClr fd set) = true ↔ i ≠ fd ∧ fdIsset i set = true := by
  have hroom : fd.toNat < size := by omega
  have hsame : fd.toNat = i.toNat ↔ i = fd := by omega
  have hlt : set.getLsbD i.toNat = true → i.toNat < size := BitVec.lt_of_getLsbD
  simp only [fdIsset, fdClr, BitVec.getLsbD_and, BitVec.getLsbD_not, BitVec.getLsbD_twoPow,
    hroom, hsame, decide_true, Bool.true_and, Bool.and_eq_true, Bool.not_eq_true',
    decide_eq_true_eq, decide_eq_false_iff_not]
  exact ⟨fun ⟨hset, _, hne⟩ => ⟨hne, hset⟩, fun ⟨hne, hset⟩ => ⟨hset, hlt hset, hne⟩⟩

/-! ## The poller -/

structure Timeval where
  tvSec : ℤ
  tvUsec : ℤ
  deriving DecidableEq, Repr

/-- What `select` is called with; the sets for writing and errors are null. -/
structure Request (size : ℕ) where
  nfds : ℤ
  readfds : BitVec size
  timeout : Timeval

/-- What a call of `select` meets: the descriptors that are ready, and the set
it leaves for each request. -/
structure Kernel (size : ℕ) where
  ready : ℤ → Bool
  select : Request size → BitVec size

structure Poller (size : ℕ) where
  mReadfds : BitVec size
  mTmpReadfds : BitVec size
  mNfds : ℤ
  mIdx : ℤ
  hnfds : -1 ≤ mNfds ∧ mNfds ≤ size
  hidx : -1 ≤ mIdx ∧ mIdx ≤ size

namespace Poller

structure Event where
  fd : ℤ
  isClose : Bool
  isRead : Bool
  deriving DecidableEq, Repr

/-- `Poller::Poller` -/
def new (size : ℕ) : Poller size where
  mReadfds := fdZero size
  mTmpReadfds := fdZero size
  mNfds := -1
  mIdx := 0
  hnfds := by omega
  hidx := by omega

def addFd (poller : Poller size) (fd : ℤ) : Bool × Poller size :=
  if h : fd ≥ size ∨ fd < 0 then (false, poller)
  else
    (true, { poller with
      mReadfds := fdSet fd poller.mReadfds
      mNfds := if poller.mNfds ≤ fd then fd + 1 else poller.mNfds
      hnfds := by
        have hnfds := poller.hnfds
        split <;> omega })

def removeFd (poller : Poller size) (fd : ℤ) : Poller size :=
  if fd ≥ size ∨ fd < 0 then poller
  else { poller with mReadfds := fdClr fd poller.mReadfds }

/-- The `int` product `timeout * 1000` goes to `select` and nowhere else; what
`select` returns is not looked at. -/
def waitForEvents (poller : Poller size) (timeout : ℤ)
    (select : Request size → BitVec size) : Poller size :=
  { poller with
    mTmpReadfds := select ⟨poller.mNfds, poller.mReadfds, ⟨0, timeout * 1000⟩⟩
    mIdx := -1
    hidx := by omega }

/-- The cursor where the loop of `next_event` leaves it. -/
def scan (poller : Poller size) : ℤ :=
  advance (fun fd => fdIsset fd poller.mTmpReadfds) poller.mNfds poller.mIdx

theorem scan_bounds (poller : Poller size) (hidx : poller.mIdx < size) :
    -1 ≤ poller.scan ∧ poller.scan ≤ size := by
  have hlt : poller.mIdx < poller.scan := lt_advance _ _ _
  have hle : poller.scan ≤ max (poller.mIdx + 1) poller.mNfds := advance_le _ _ _
  have hnfds := poller.hnfds
  have hstart := poller.hidx
  omega

/-- What the call returns and leaves in `e`, and the poller behind it. -/
def nextEvent (poller : Poller size) (e : Event) : (Bool × Event) × Poller size :=
  if h : poller.mIdx ≥ size then ((false, e), poller)
  else
    let scanned := { poller with
      mIdx := poller.scan
      hidx := poller.scan_bounds (not_le.mp h) }
    if scanned.mIdx ≥ scanned.mNfds then ((false, e), scanned)
    else ((true, ⟨scanned.mIdx, false, fdIsset scanned.mIdx scanned.mTmpReadfds⟩), scanned)

end Poller

/-! ## Calls -/

inductive Call (size : ℕ) where
  | addFd (fd : ℤ)
  | removeFd (fd : ℤ)
  | waitForEvents (timeout : ℤ) (kernel : Kernel size)
  | nextEvent (e : Poller.Event)

inductive Answer where
  | added (accepted : Bool)
  | nothing
  | event (found : Bool) (e : Poller.Event)
  deriving DecidableEq, Repr

def Poller.step (poller : Poller size) : Call size → Answer × Poller size
  | .addFd fd => (.added (poller.addFd fd).1, (poller.addFd fd).2)
  | .removeFd fd => (.nothing, poller.removeFd fd)
  | .waitForEvents timeout kernel => (.nothing, poller.waitForEvents timeout kernel.select)
  | .nextEvent e =>
      (.event (poller.nextEvent e).1.1 (poller.nextEvent e).1.2, (poller.nextEvent e).2)

/-- `select` succeeds on a request: below `nfds` it leaves what is asked for and
ready, and from there on it adds nothing. -/
structure Kernel.Succeeds (kernel : Kernel size) (request : Request size) : Prop where
  hbelow : ∀ {fd : ℤ}, 0 ≤ fd → fd < request.nfds →
    (fdIsset fd (kernel.select request) = true ↔
      fdIsset fd request.readfds = true ∧ kernel.ready fd = true)
  hrest : ∀ {fd : ℤ}, 0 ≤ fd → request.nfds ≤ fd →
    fdIsset fd (kernel.select request) = true → fdIsset fd request.readfds = true

/-- `select` as documented: it leaves what is asked for, ready and below `nfds`. -/
def Kernel.posix (ready : BitVec size) : Kernel size where
  ready fd := fdIsset fd ready
  select request := request.readfds &&& ready &&& BitVec.ofNat size (2 ^ request.nfds.toNat - 1)

theorem Kernel.succeeds_posix (ready : BitVec size) (request : Request size) :
    (Kernel.posix ready).Succeeds request := by
  have hselect : ∀ {fd : ℤ}, 0 ≤ fd →
      (fdIsset fd ((Kernel.posix ready).select request) = true ↔
        (fdIsset fd request.readfds = true ∧ fdIsset fd ready = true) ∧ fd < request.nfds) := by
    intro fd hfd
    have hbelow : fd.toNat < request.nfds.toNat ↔ fd < request.nfds := by omega
    have hroom : request.readfds.getLsbD fd.toNat = true → fd.toNat < size :=
      BitVec.lt_of_getLsbD
    simp only [Kernel.posix, fdIsset, BitVec.getLsbD_and, BitVec.getLsbD_ofNat,
      Nat.testBit_two_pow_sub_one, Bool.and_eq_true, decide_eq_true_eq, hbelow]
    exact ⟨fun ⟨hset, _, hlt⟩ => ⟨hset, hlt⟩, fun ⟨hset, hlt⟩ => ⟨hset, hroom hset.1, hlt⟩⟩
  constructor
  · intro fd hfd hlt
    rw [hselect hfd, and_iff_left hlt]
    rfl
  · intro fd hfd _ hset
    exact ((hselect hfd).mp hset).1.1

/-- What is assumed of `select` in a call. -/
def Succeeds (poller : Poller size) : Call size → Prop
  | .waitForEvents timeout kernel =>
      kernel.Succeeds ⟨poller.mNfds, poller.mReadfds, ⟨0, timeout * 1000⟩⟩
  | _ => True

/-! ## What a poller is for -/

/-- The descriptors one asks about, and of those that were ready at the last
wait the ones not returned yet. -/
structure Watch where
  registered : Finset ℤ
  pending : List ℤ

namespace Watch

def empty : Watch :=
  ⟨∅, []⟩

/-- A wait takes what is registered and ready, in increasing order; what is
registered later is not part of it. -/
def step (watch : Watch) : Call size → Answer × Watch
  | .addFd fd =>
      if 0 ≤ fd ∧ fd < size then
        (.added true, { watch with registered := insert fd watch.registered })
      else (.added false, watch)
  | .removeFd fd => (.nothing, { watch with registered := watch.registered.erase fd })
  | .waitForEvents _ kernel =>
      (.nothing, { watch with
        pending := (watch.registered.filter fun fd => kernel.ready fd = true).sort })
  | .nextEvent e =>
      match watch.pending with
      | [] => (.event false e, watch)
      | fd :: rest => (.event true ⟨fd, false, true⟩, { watch with pending := rest })

end Watch

/-- The registered descriptors are the bits of `m_readfds` and below `m_nfds`;
what is pending are the bits of the copy behind the cursor. -/
structure Shows (poller : Poller size) (watch : Watch) : Prop where
  hregistered : ∀ {fd}, fd ∈ watch.registered ↔ 0 ≤ fd ∧ fdIsset fd poller.mReadfds = true
  hbelow : ∀ {fd}, fd ∈ watch.registered → fd < poller.mNfds
  hcopied : ∀ {fd}, 0 ≤ fd → fdIsset fd poller.mTmpReadfds = true → fd < poller.mNfds
  hahead : Ahead (fun fd => fdIsset fd poller.mTmpReadfds) poller.mIdx watch.pending

section Step

variable {poller : Poller size} {watch : Watch}

theorem shows_new : Shows (.new size) .empty where
  hregistered := by simp [Watch.empty, Poller.new]
  hbelow hmem := by simp [Watch.empty] at hmem
  hcopied _ hset := by simp [Poller.new] at hset
  hahead := ⟨List.Pairwise.nil.sortedLT, by simp [Watch.empty, Poller.new]⟩

theorem Shows.nonneg (hshows : Shows poller watch) {fd : ℤ} (hmem : fd ∈ watch.registered) :
    0 ≤ fd :=
  (hshows.hregistered.mp hmem).1

theorem Poller.addFd_of_room {fd : ℤ} (hfd : 0 ≤ fd ∧ fd < size) (poller : Poller size) :
    (poller.addFd fd).1 = true ∧ (poller.addFd fd).2.mReadfds = fdSet fd poller.mReadfds ∧
      (poller.addFd fd).2.mTmpReadfds = poller.mTmpReadfds ∧
      (poller.addFd fd).2.mIdx = poller.mIdx ∧
      (poller.addFd fd).2.mNfds = max poller.mNfds (fd + 1) := by
  rw [Poller.addFd, dif_neg (by omega)]
  refine ⟨rfl, rfl, rfl, rfl, ?_⟩
  simp only
  split <;> omega

/-- A descriptor added in the middle of a scan raises the limit, and is not in the copy. -/
theorem Shows.addFd (hshows : Shows poller watch) {fd : ℤ} (hfd : 0 ≤ fd ∧ fd < size) :
    Shows (poller.addFd fd).2 { watch with registered := insert fd watch.registered } := by
  obtain ⟨_, hreadfds, htmp, hidx, hnfds⟩ := poller.addFd_of_room hfd
  refine ⟨fun {i} => ?_, fun {i} hmem => ?_, fun hi hset => ?_, ?_⟩
  · rw [Finset.mem_insert, hshows.hregistered, hreadfds]
    constructor
    · rintro (rfl | ⟨hi, hset⟩)
      · exact ⟨hfd.1, (fdIsset_fdSet hfd hfd.1 _).mpr (.inl rfl)⟩
      · exact ⟨hi, (fdIsset_fdSet hfd hi _).mpr (.inr hset)⟩
    · rintro ⟨hi, hset⟩
      exact ((fdIsset_fdSet hfd hi _).mp hset).imp_right fun hset => ⟨hi, hset⟩
  · rw [hnfds]
    rcases Finset.mem_insert.mp hmem with rfl | hmem
    · exact lt_max_of_lt_right (lt_add_one i)
    · exact lt_max_of_lt_left (hshows.hbelow hmem)
  · rw [htmp] at hset
    rw [hnfds]
    exact lt_max_of_lt_left (hshows.hcopied hi hset)
  · rw [htmp, hidx]
    exact hshows.hahead

theorem Shows.removeFd (hshows : Shows poller watch) (fd : ℤ) :
    Shows (poller.removeFd fd) { watch with registered := watch.registered.erase fd } := by
  rw [Poller.removeFd]
  split
  · rename_i hfd
    -- such a number has never been registered
    have hforeign : fd ∉ watch.registered := by
      intro hmem
      have hlt := lt_of_fdIsset (hshows.hregistered.mp hmem).2
      have hnonneg := hshows.nonneg hmem
      omega
    rw [Finset.erase_eq_of_notMem hforeign]
    exact hshows
  · rename_i hfd
    refine ⟨fun {i} => ?_, fun {i} hmem => ?_, hshows.hcopied, hshows.hahead⟩
    · rw [Finset.mem_erase, hshows.hregistered]
      constructor
      · rintro ⟨hne, hi, hset⟩
        exact ⟨hi, (fdIsset_fdClr (by omega) hi _).mpr ⟨hne, hset⟩⟩
      · rintro ⟨hi, hset⟩
        obtain ⟨hne, hset⟩ := (fdIsset_fdClr (by omega) hi _).mp hset
        exact ⟨hne, hi, hset⟩
    · exact hshows.hbelow (Finset.mem_of_mem_erase hmem)

/-- Everything registered is below `nfds`, so `select` looks at all of it. -/
theorem Shows.selected (hshows : Shows poller watch) {timeout : ℤ} {kernel : Kernel size}
    (hkernel : Succeeds poller (.waitForEvents timeout kernel)) {fd : ℤ} (hfd : 0 ≤ fd) :
    fdIsset fd (poller.waitForEvents timeout kernel.select).mTmpReadfds = true ↔
      fd ∈ watch.registered ∧ kernel.ready fd = true := by
  rcases lt_or_ge fd poller.mNfds with hlt | hge
  · rw [hshows.hregistered, and_iff_right hfd]
    exact hkernel.hbelow hfd hlt
  · have hforeign : fd ∉ watch.registered := fun hmem => (hshows.hbelow hmem).not_ge hge
    refine ⟨fun hset => ?_, fun ⟨hmem, _⟩ => absurd hmem hforeign⟩
    exact absurd (hshows.hregistered.mpr ⟨hfd, hkernel.hrest hfd hge hset⟩) hforeign

theorem Shows.wait (hshows : Shows poller watch) {timeout : ℤ} {kernel : Kernel size}
    (hkernel : Succeeds poller (.waitForEvents timeout kernel)) :
    Shows (poller.waitForEvents timeout kernel.select) { watch with
      pending := (watch.registered.filter fun fd => kernel.ready fd = true).sort } := by
  refine ⟨hshows.hregistered, hshows.hbelow, fun hi hset => ?_, ahead_sort fun {fd} => ?_⟩
  · exact hshows.hbelow ((hshows.selected hkernel hi).mp hset).1
  · rw [Finset.mem_filter]
    constructor
    · rintro ⟨hmem, hready⟩
      have hnonneg := hshows.nonneg hmem
      exact ⟨lt_of_lt_of_le neg_one_lt_zero hnonneg,
        (hshows.selected hkernel hnonneg).mpr ⟨hmem, hready⟩⟩
    · rintro ⟨hlt, hset⟩
      exact (hshows.selected hkernel (Int.add_one_le_of_lt hlt)).mp hset

/-- A scan without a descriptor to come ends at the limit, and the next one starts
behind it. -/
theorem Shows.nextEvent_nil {registered : Finset ℤ} (hshows : Shows poller ⟨registered, []⟩)
    (e : Poller.Event) :
    (poller.nextEvent e).1 = (false, e) ∧ Shows (poller.nextEvent e).2 ⟨registered, []⟩ := by
  obtain ⟨hstop, hahead⟩ : poller.mNfds ≤ poller.scan ∧ Ahead _ poller.scan [] :=
    hshows.hahead.advance_nil
  rw [Poller.nextEvent]
  split
  · exact ⟨rfl, hshows⟩
  · rw [if_pos hstop]
    exact ⟨rfl, hshows.hregistered, hshows.hbelow, hshows.hcopied, hahead⟩

/-- A descriptor to come is below the limit, whatever the limit was raised to. -/
theorem Shows.nextEvent_cons {registered : Finset ℤ} {fd : ℤ} {rest : List ℤ}
    (hshows : Shows poller ⟨registered, fd :: rest⟩) (e : Poller.Event) :
    (poller.nextEvent e).1 = (true, ⟨fd, false, true⟩) ∧
      Shows (poller.nextEvent e).2 ⟨registered, rest⟩ := by
  obtain ⟨⟨hlt, hset⟩, _⟩ := hshows.hahead.head
  have hstart := poller.hidx
  have hlimit : fd < poller.mNfds := hshows.hcopied (by omega) hset
  have hscan : poller.scan = fd := hshows.hahead.advance_cons hlimit
  have hnfds := poller.hnfds
  rw [Poller.nextEvent, dif_neg (by omega)]
  simp only [hscan]
  rw [if_neg (not_le.mpr hlimit)]
  refine ⟨by rw [hset], hshows.hregistered, hshows.hbelow, hshows.hcopied, ?_⟩
  exact hshows.hahead.tail

/-- Where `select` and the additions succeed, poller and watch answer alike. -/
theorem Shows.step (hshows : Shows poller watch) {call : Call size}
    (hsucceeds : Succeeds poller call) :
    (poller.step call).1 = (watch.step call).1 ∧
      Shows (poller.step call).2 (watch.step call).2 := by
  cases call with
  | addFd fd =>
      rw [Poller.step, Watch.step]
      split
      · rename_i hfd
        exact ⟨congrArg Answer.added (poller.addFd_of_room hfd).1, hshows.addFd hfd⟩
      · rename_i hfd
        rw [Poller.addFd, dif_pos (by omega)]
        exact ⟨rfl, hshows⟩
  | removeFd fd => exact ⟨rfl, hshows.removeFd fd⟩
  | waitForEvents timeout kernel => exact ⟨rfl, hshows.wait hsucceeds⟩
  | nextEvent e =>
      obtain ⟨registered, pending⟩ := watch
      rw [Poller.step]
      cases pending with
      | nil =>
          obtain ⟨hanswer, hnext⟩ := hshows.nextEvent_nil e
          rw [hanswer]
          exact ⟨rfl, hnext⟩
      | cons fd rest =>
          obtain ⟨hanswer, hnext⟩ := hshows.nextEvent_cons e
          rw [hanswer]
          exact ⟨rfl, hnext⟩

end Step

theorem simulates : Simulates Poller.step (@Watch.step size) Succeeds Shows where
  hanswer hshows hsucceeds := (hshows.step hsucceeds).1
  hnext hshows hsucceeds := (hshows.step hsucceeds).2

/-! ## Runs -/

section Runs

variable {calls before between : List (Call size)}

/-- Whatever is called, a poller answers as a watch does. -/
theorem answers_eq_watch (hobeys : Obeys Poller.step Succeeds (.new size) calls) :
    answers Poller.step (.new size) calls = answers Watch.step .empty calls :=
  simulates.answers shows_new hobeys

def registered (calls : List (Call size)) : Finset ℤ :=
  (after Watch.step .empty calls).registered

/-- The events that calls of `next_event` are given. -/
def passed (calls : List (Call size)) : List Poller.Event :=
  calls.filterMap fun
    | .nextEvent e => some e
    | _ => none

/-- What the calls of `next_event` return, each with the event it leaves. -/
def returned (results : List Answer) : List (Bool × Poller.Event) :=
  results.filterMap fun
    | .event found e => some (found, e)
    | _ => none

/-- The result of the call number `k` from 0 on: a descriptor of the snapshot,
and false behind its end, where the event is left alone. -/
def enumerated (snapshot : List ℤ) (k : ℕ) (e : Poller.Event) : Bool × Poller.Event :=
  match snapshot[k]? with
  | some fd => (true, ⟨fd, false, true⟩)
  | none => (false, e)

theorem Watch.returned_answers (hbetween : ∀ timeout kernel,
    Call.waitForEvents timeout kernel ∉ between) (watch : Watch) :
    returned (answers Watch.step watch between) =
      (passed between).mapIdx (enumerated watch.pending) := by
  induction between generalizing watch with
  | nil => rfl
  | cons call between ih =>
      have hrest := fun watch => ih (fun timeout kernel hmem =>
        hbetween timeout kernel (List.mem_cons_of_mem _ hmem)) watch
      cases call with
      | addFd fd =>
          rw [answers, Watch.step]
          split <;> exact hrest _
      | removeFd fd => exact hrest _
      | waitForEvents timeout kernel => exact absurd List.mem_cons_self (hbetween _ _)
      | nextEvent e =>
          have hpassed : passed (Call.nextEvent e :: between) = e :: passed between := rfl
          rw [hpassed, List.mapIdx_cons]
          obtain ⟨registered, pending⟩ := watch
          cases pending with
          | nil => exact congrArg (List.cons (false, e)) (hrest ⟨registered, []⟩)
          | cons fd rest =>
              exact congrArg (List.cons (true, ⟨fd, false, true⟩)) (hrest ⟨registered, rest⟩)

/-- At each wait of a run everything registered is below `m_nfds`, and until the
next one the calls of `next_event` return what was registered and ready then, once
each and in increasing order, and after that false, whatever is added and removed
in between. -/
theorem enumerates_once {timeout : ℤ} {kernel : Kernel size}
    (hobeys : Obeys Poller.step Succeeds (.new size)
      (before ++ .waitForEvents timeout kernel :: between))
    (hbetween : ∀ timeout kernel, Call.waitForEvents timeout kernel ∉ between) :
    let waiting := after Poller.step (.new size) before
    (∀ fd ∈ registered before, fd < waiting.mNfds) ∧
      ∃ snapshot : List ℤ, snapshot.SortedLT ∧
        (∀ fd, fd ∈ snapshot ↔ fd ∈ registered before ∧ kernel.ready fd = true) ∧
        returned (answers Poller.step (waiting.waitForEvents timeout kernel.select) between) =
          (passed between).mapIdx (enumerated snapshot) := by
  obtain ⟨hbefore, hwait, hrest⟩ := obeys_append.mp hobeys
  have hshows := simulates.after shows_new hbefore
  have hwoken := hshows.step hwait
  have hmem : ∀ fd, fd ∈ ((registered before).filter fun fd => kernel.ready fd = true).sort ↔
      fd ∈ registered before ∧ kernel.ready fd = true := by
    intro fd
    rw [Finset.mem_sort, Finset.mem_filter]
  refine ⟨fun fd hmem => hshows.hbelow hmem, _, Finset.sortedLT_sort _, hmem, ?_⟩
  calc returned (answers Poller.step _ between)
      = returned (answers Watch.step _ between) :=
        congrArg returned (simulates.answers hwoken.2 hrest)
    _ = (passed between).mapIdx (enumerated _) := Watch.returned_answers hbetween _

/-- Descriptors 3 and 5 are ready; 5 is removed before it is returned, and 900 added. -/
theorem enumerates_once_pair :
    returned (answers Poller.step ((after Poller.step (.new 1024)
        [.addFd 5, .addFd 3]).waitForEvents 100 (Kernel.posix 0x28#1024).select)
      [.nextEvent ⟨0, false, false⟩, .addFd 900, .removeFd 5, .nextEvent ⟨3, false, true⟩,
        .nextEvent ⟨5, false, true⟩]) =
      [(true, ⟨3, false, true⟩), (true, ⟨5, false, true⟩), (false, ⟨5, false, true⟩)] := by
  obtain ⟨_, snapshot, hsorted, hmem, heq⟩ := @enumerates_once 1024 [.addFd 5, .addFd 3]
    [.nextEvent ⟨0, false, false⟩, .addFd 900, .removeFd 5, .nextEvent ⟨3, false, true⟩,
      .nextEvent ⟨5, false, true⟩] 100 (.posix 0x28#1024)
    ⟨trivial, trivial, Kernel.succeeds_posix _ _, trivial, trivial, trivial, trivial, trivial,
      trivial⟩ (by simp)
  have hsnapshot : snapshot = [3, 5] := by
    refine hsorted.eq_of_mem_iff (by decide) fun fd => ?_
    have hregistered : registered [@Call.addFd 1024 5, .addFd 3] = {3, 5} := by decide
    rw [hmem, hregistered]
    constructor
    · rintro ⟨hfd, _⟩
      simpa using hfd
    · intro hfd
      refine ⟨by simpa using hfd, ?_⟩
      fin_cases hfd <;> decide +kernel
  rw [heq, hsnapshot]
  rfl

end Runs

/-! ## The loop of `run_imp` -/

section Batch

/-- A call that an event handler makes: accepting adds, and closing removes. -/
def Call.Changes : Call size → Prop
  | .addFd _ => True
  | .removeFd _ => True
  | _ => False

/-- The loop over the events of one wait, with the calls made for each of them, and
what it handles. -/
def pollEvents (handle : Poller.Event → List (Call size)) : (fuel : ℕ) → Poller size →
    Poller.Event → Option (List Poller.Event × Poller size)
  | 0, _, _ => none
  | fuel + 1, poller, e =>
      let next := poller.nextEvent e
      if next.1.1 then
        (pollEvents handle fuel (after Poller.step next.2 (handle next.1.2)) next.1.2).map
          fun (handled, last) => (next.1.2 :: handled, last)
      else some ([], next.2)

variable {poller : Poller size} {watch : Watch}

theorem Call.Changes.step {call : Call size} (hchanges : call.Changes) (poller : Poller size)
    (watch : Watch) :
    Succeeds poller call ∧ (watch.step call).2.pending = watch.pending := by
  cases call with
  | addFd fd =>
      refine ⟨trivial, ?_⟩
      rw [Watch.step]
      split <;> rfl
  | removeFd fd => exact ⟨trivial, rfl⟩
  | waitForEvents timeout kernel => exact hchanges.elim
  | nextEvent e => exact hchanges.elim

/-- Registrations leave what is pending alone. -/
theorem Shows.changed {calls : List (Call size)} (hshows : Shows poller watch)
    (hchanges : ∀ call ∈ calls, call.Changes) :
    ∃ registered, Shows (after Poller.step poller calls) ⟨registered, watch.pending⟩ := by
  induction calls generalizing poller watch with
  | nil => exact ⟨watch.registered, hshows⟩
  | cons call calls ih =>
      obtain ⟨hsucceeds, hpending⟩ := (hchanges call List.mem_cons_self).step poller watch
      rw [after_cons, ← hpending]
      exact ih (hshows.step hsucceeds).2
        fun other hmem => hchanges other (List.mem_cons_of_mem _ hmem)

variable {handle : Poller.Event → List (Call size)}

/-- The loop handles what is pending and ends. -/
theorem Shows.pollEvents {registered : Finset ℤ} {pending : List ℤ}
    (hshows : Shows poller ⟨registered, pending⟩) (hhandle : ∀ e, ∀ call ∈ handle e, call.Changes)
    {fuel : ℕ} (hfuel : pending.length < fuel) (e : Poller.Event) :
    ∃ last, pollEvents handle fuel poller e =
      some (pending.map fun fd => ⟨fd, false, true⟩, last) := by
  induction pending generalizing poller registered fuel e with
  | nil =>
      obtain ⟨fuel, rfl⟩ := Nat.exists_eq_add_one.mpr (Nat.zero_lt_of_lt hfuel)
      obtain ⟨hanswer, _⟩ := hshows.nextEvent_nil e
      refine ⟨(poller.nextEvent e).2, ?_⟩
      simp only [Select.pollEvents, hanswer]
      rfl
  | cons fd rest ih =>
      obtain ⟨fuel, rfl⟩ := Nat.exists_eq_add_one.mpr (Nat.zero_lt_of_lt hfuel)
      obtain ⟨hanswer, hnext⟩ := hshows.nextEvent_cons e
      obtain ⟨_, hchanged⟩ := hnext.changed (hhandle ⟨fd, false, true⟩)
      obtain ⟨last, hlast⟩ := ih hchanged (Nat.lt_of_succ_lt_succ hfuel) ⟨fd, false, true⟩
      refine ⟨last, ?_⟩
      simp only [Select.pollEvents, hanswer, if_true, hlast]
      rfl

/-- After a wait the loop of `run_imp` ends, and has handled each descriptor that was
registered and ready once, whatever the handlers add and remove. -/
theorem pollEvents_of_wait {before : List (Call size)} {timeout : ℤ} {kernel : Kernel size}
    (hobeys : Obeys Poller.step Succeeds (.new size)
      (before ++ [.waitForEvents timeout kernel]))
    (hhandle : ∀ e, ∀ call ∈ handle e, call.Changes) {fuel : ℕ}
    (hfuel : (registered before).card < fuel) (e : Poller.Event) :
    ∃ last, pollEvents handle fuel ((after Poller.step (.new size) before).waitForEvents timeout
        kernel.select) e =
      some (((registered before).filter fun fd => kernel.ready fd = true).sort.map
        fun fd => ⟨fd, false, true⟩, last) := by
  obtain ⟨hbefore, hwait, _⟩ := obeys_append.mp hobeys
  have hwoken := (simulates.after shows_new hbefore).wait hwait
  refine hwoken.pollEvents hhandle ?_ e
  rw [Finset.length_sort]
  exact (Finset.card_filter_le _ _).trans_lt hfuel

end Batch

end Sednl.Select
