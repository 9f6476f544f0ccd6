import Sednl.Library.Machine

/-!
# The WSAPoll backend

`Poller` over `WSAPoll`: a table of `MAX_EVENTS` slots, each free or holding a
descriptor, that `WSAPoll` fills with what is ready and `next_event` scans.
Descriptors may come and go in the middle of a scan.  Seen from outside it is a
bounded set with a list of what is ready; unlike the one over `select` it does not
report a descriptor that was removed.

A `SOCKET` has 64 bits and a `FileDescriptor` is an `int` of 32: `add_fd` extends
the sign, `remove_fd` does not.  `size` is `MAX_EVENTS`.
-/

namespace Sednl.WsaPoll

open Sednl.Machine

variable {size : ℕ}

/-! ## The table -/

structure PollFd where
  fd : BitVec 64
  events : BitVec 16
  revents : BitVec 16
  deriving DecidableEq, Repr

def invalidSocket : BitVec 64 :=
  BitVec.allOnes 64

def pollIn : BitVec 16 :=
  0x0300

def pollHup : BitVec 16 :=
  0x0002

def pollNval : BitVec 16 :=
  0x0004

namespace PollFd

def free : PollFd :=
  ⟨invalidSocket, 0, 0⟩

def used (slot : PollFd) : Bool :=
  slot.fd ≠ invalidSocket

/-- A slot at which the loop of `next_event` stops. -/
def ready (slot : PollFd) : Bool :=
  slot.used && slot.revents ≠ 0

/-- The descriptor in a slot, as an `int`. -/
def narrow (slot : PollFd) : BitVec 32 :=
  slot.fd.setWidth 32

end PollFd

/-- The loop of `add_fd`; `none` where no slot is free. -/
def place (fd : BitVec 32) : List PollFd → Option (List PollFd)
  | [] => none
  | slot :: slots =>
      if slot.used then (place fd slots).map (slot :: ·)
      else some ({ slot with fd := fd.signExtend 64, events := pollIn } :: slots)

/-- The loop of `remove_fd`: the descriptor is compared as an `unsigned int`. -/
def clear (fd : BitVec 32) : List PollFd → List PollFd
  | [] => []
  | slot :: slots =>
      if slot.fd = fd.setWidth 64 then PollFd.free :: slots else slot :: clear fd slots

theorem length_place {fd : BitVec 32} {slots next : List PollFd}
    (hplace : place fd slots = some next) : next.length = slots.length := by
  induction slots generalizing next with
  | nil => cases hplace
  | cons slot slots ih =>
      rw [place] at hplace
      split at hplace
      · obtain ⟨rest, hrest, rfl⟩ := Option.map_eq_some_iff.mp hplace
        rw [List.length_cons, List.length_cons, ih hrest]
      · obtain rfl := Option.some.inj hplace
        rfl

theorem length_clear (fd : BitVec 32) (slots : List PollFd) :
    (clear fd slots).length = slots.length := by
  induction slots with
  | nil => rfl
  | cons slot slots ih =>
      rw [clear]
      split
      · rfl
      · rw [List.length_cons, List.length_cons, ih]

/-! ## The poller -/

/-- What a call of `WSAPoll` meets: the flags of each descriptor, whether the call
fails, what it returns, and the flags it writes into each slot. -/
structure Kernel where
  ready : BitVec 32 → BitVec 16
  fails : Bool
  poll : List PollFd → ℤ → ℤ × (ℕ → BitVec 16)

structure Event where
  fd : BitVec 32
  isClose : Bool
  isRead : Bool
  deriving DecidableEq, Repr

/-- What `next_event` makes of the flags of a descriptor. -/
def toEvent (fd : BitVec 32) (revents : BitVec 16) : Event :=
  ⟨fd, revents &&& pollHup ≠ 0 || revents &&& pollNval ≠ 0, revents &&& pollIn ≠ 0⟩

structure Poller (size : ℕ) where
  mEvents : List PollFd
  mNbEvents : ℤ
  mIdx : ℕ
  mCurEv : ℤ
  hlength : mEvents.length = size

namespace Poller

/-- `Poller::Poller`; `m_cur_ev` is left as it is. -/
def new (size : ℕ) (mCurEv : ℤ) : Poller size where
  mEvents := List.replicate size .free
  mNbEvents := 0
  mIdx := 0
  mCurEv := mCurEv
  hlength := List.length_replicate

def addFd (poller : Poller size) (fd : BitVec 32) : Bool × Poller size :=
  match hplace : place fd poller.mEvents with
  | none => (false, poller)
  | some slots =>
      (true, { poller with
        mEvents := slots
        hlength := (length_place hplace).trans poller.hlength })

def removeFd (poller : Poller size) (fd : BitVec 32) : Poller size :=
  { poller with
    mEvents := clear fd poller.mEvents
    hlength := (length_clear fd poller.mEvents).trans poller.hlength }

def waitForEvents (poller : Poller size) (timeout : ℤ) (kernel : Kernel) : Poller size where
  mEvents := poller.mEvents.mapIdx fun i slot =>
    { slot with revents := (kernel.poll poller.mEvents timeout).2 i }
  mNbEvents := (kernel.poll poller.mEvents timeout).1
  mIdx := 0
  mCurEv := 0
  hlength := List.length_mapIdx.trans poller.hlength

/-- The cursor where the loop of `next_event` leaves it. -/
def scan (poller : Poller size) : ℕ :=
  poller.mIdx + (poller.mEvents.drop poller.mIdx).findIdx PollFd.ready

/-- What the call returns and leaves in `e`, and the poller behind it. -/
def nextEvent (poller : Poller size) (e : Event) : (Bool × Event) × Poller size :=
  if poller.mCurEv ≥ poller.mNbEvents then ((false, e), poller)
  else
    match poller.mEvents[poller.scan]? with
    | none => ((false, e), { poller with mIdx := poller.scan })
    | some slot =>
        ((true, toEvent slot.narrow slot.revents),
          { poller with mIdx := poller.scan + 1, mCurEv := poller.mCurEv + 1 })

end Poller

/-! ## Calls -/

inductive Call where
  | addFd (fd : BitVec 32)
  | removeFd (fd : BitVec 32)
  | waitForEvents (timeout : ℤ) (kernel : Kernel)
  | nextEvent (e : Event)

inductive Answer where
  | added (accepted : Bool)
  | nothing
  | event (found : Bool) (e : Event)
  deriving DecidableEq, Repr

def Poller.step (poller : Poller size) : Call → Answer × Poller size
  | .addFd fd => (.added (poller.addFd fd).1, (poller.addFd fd).2)
  | .removeFd fd => (.nothing, poller.removeFd fd)
  | .waitForEvents timeout kernel => (.nothing, poller.waitForEvents timeout kernel)
  | .nextEvent e =>
      (.event (poller.nextEvent e).1.1 (poller.nextEvent e).1.2, (poller.nextEvent e).2)

/-- The flags that `WSAPoll` writes into a slot: none into a free one. -/
def Kernel.flags (kernel : Kernel) (slot : PollFd) : BitVec 16 :=
  if slot.used then kernel.ready slot.narrow else 0

/-- `WSAPoll` as documented: it returns -1 if it fails, and else the number of the
slots into which it has written flags. -/
def Kernel.Documented (kernel : Kernel) (slots : List PollFd) (timeout : ℤ) : Prop :=
  if kernel.fails then (kernel.poll slots timeout).1 = -1
  else
    (kernel.poll slots timeout).1 = slots.countP (kernel.flags · ≠ 0) ∧
      ∀ i slot, slots[i]? = some slot → (kernel.poll slots timeout).2 i = kernel.flags slot

/-- `WSAPoll` for given flags. -/
def Kernel.windows (ready : BitVec 32 → BitVec 16) (fails : Bool) : Kernel where
  ready := ready
  fails := fails
  poll slots _ :=
    let flags := fun slot : PollFd => if slot.used then ready slot.narrow else 0
    if fails then (-1, fun _ => 0)
    else (slots.countP (flags · ≠ 0), fun i => (slots[i]?).elim 0 flags)

theorem Kernel.documented_windows (ready : BitVec 32 → BitVec 16) (fails : Bool)
    (slots : List PollFd) (timeout : ℤ) :
    (Kernel.windows ready fails).Documented slots timeout := by
  cases fails with
  | true => rfl
  | false =>
      refine ⟨rfl, fun i slot hslot => ?_⟩
      change (slots[i]?).elim _ _ = _
      rw [hslot]
      rfl

/-- What is asked of a call: a descriptor that is added is not negative and not in
the table. -/
def Proper (poller : Poller size) : Call → Prop
  | .addFd fd => fd.msb = false ∧ ∀ slot ∈ poller.mEvents, slot.fd ≠ fd.setWidth 64
  | .removeFd _ => True
  | .waitForEvents timeout kernel => kernel.Documented poller.mEvents timeout
  | .nextEvent _ => True

/-! ## What a poller is for -/

/-- The descriptors one asks about, and what was ready at the last wait and is
still to be returned, in some order. -/
structure Watch where
  registered : Finset (BitVec 32)
  pending : List (BitVec 32 × BitVec 16)

inductive Watch.Allows (size : ℕ) : Watch → Call → Answer → Watch → Prop
  | addFd {watch : Watch} {fd : BitVec 32} (hroom : watch.registered.card < size) :
      Allows size watch (.addFd fd) (.added true)
        { watch with registered := insert fd watch.registered }
  | full {watch : Watch} {fd : BitVec 32} (hfull : watch.registered.card = size) :
      Allows size watch (.addFd fd) (.added false) watch
  | removeFd {watch : Watch} {fd : BitVec 32} :
      Allows size watch (.removeFd fd) .nothing
        ⟨watch.registered.erase fd, watch.pending.filter (·.1 ≠ fd)⟩
  | wait {watch : Watch} {timeout : ℤ} {kernel : Kernel}
      {pending : List (BitVec 32 × BitVec 16)} (hnodup : (pending.map Prod.fst).Nodup)
      (hpending : ∀ fd revents, (fd, revents) ∈ pending ↔
        kernel.fails = false ∧ fd ∈ watch.registered ∧ kernel.ready fd = revents ∧ revents ≠ 0) :
      Allows size watch (.waitForEvents timeout kernel) .nothing
        { watch with pending := pending }
  | nothing {registered : Finset (BitVec 32)} {e : Event} :
      Allows size ⟨registered, []⟩ (.nextEvent e) (.event false e) ⟨registered, []⟩
  | event {registered : Finset (BitVec 32)} {fd : BitVec 32} {revents : BitVec 16}
      {rest : List (BitVec 32 × BitVec 16)} {e : Event} :
      Allows size ⟨registered, (fd, revents) :: rest⟩ (.nextEvent e)
        (.event true (toEvent fd revents)) ⟨registered, rest⟩

/-! ## What the table shows -/

def fds (slots : List PollFd) : List (BitVec 32) :=
  (slots.filter PollFd.used).map PollFd.narrow

def found (slots : List PollFd) : List (BitVec 32 × BitVec 16) :=
  (slots.filter PollFd.ready).map fun slot => (slot.narrow, slot.revents)

/-- A slot that is used holds a descriptor that is not negative. -/
def Sound (slots : List PollFd) : Prop :=
  ∀ slot ∈ slots, slot.used = true → slot.narrow.msb = false ∧ slot.narrow.setWidth 64 = slot.fd

/-- A free slot has no flags. -/
def Blank (slots : List PollFd) : Prop :=
  ∀ slot ∈ slots, slot.used = false → slot.revents = 0

section Table

variable {fd : BitVec 32} {slot : PollFd} {slots next : List PollFd}

theorem setWidth_ne_invalidSocket (fd : BitVec 32) : fd.setWidth 64 ≠ invalidSocket := by
  intro hsame
  have hvalue := congrArg BitVec.toNat hsame
  have hlt := fd.isLt
  simp [invalidSocket] at hvalue
  omega

theorem setWidth_inj {left right : BitVec 32} (hsame : left.setWidth 64 = right.setWidth 64) :
    left = right := by
  have hnarrow := congrArg (BitVec.setWidth 32) hsame
  simpa using hnarrow

theorem used_iff : slot.used = true ↔ slot.fd ≠ invalidSocket := by
  rw [PollFd.used, decide_eq_true_eq]

theorem ready_iff : slot.ready = true ↔ slot.used = true ∧ slot.revents ≠ 0 := by
  rw [PollFd.ready, Bool.and_eq_true, decide_eq_true_eq]

/-- What `remove_fd` compares with in a sound table. -/
theorem fd_eq_iff (hsound : slot.used = true → slot.narrow.msb = false ∧
    slot.narrow.setWidth 64 = slot.fd) :
    slot.fd = fd.setWidth 64 ↔ slot.used = true ∧ slot.narrow = fd := by
  constructor
  · intro hsame
    have hused : slot.used = true := used_iff.mpr (hsame ▸ setWidth_ne_invalidSocket fd)
    exact ⟨hused, setWidth_inj ((hsound hused).2.trans hsame)⟩
  · rintro ⟨hused, rfl⟩
    exact (hsound hused).2.symm

theorem mem_fds : fd ∈ fds slots ↔ ∃ slot ∈ slots, slot.used = true ∧ slot.narrow = fd := by
  simp only [fds, List.mem_map, List.mem_filter, and_assoc]

theorem mem_found {revents : BitVec 16} : (fd, revents) ∈ found slots ↔
    ∃ slot ∈ slots, slot.ready = true ∧ slot.narrow = fd ∧ slot.revents = revents := by
  simp only [found, List.mem_map, List.mem_filter, Prod.mk.injEq, and_assoc]

theorem fst_found_sublist (slots : List PollFd) :
    ((found slots).map Prod.fst).Sublist (fds slots) := by
  have hfst : (found slots).map Prod.fst = (slots.filter PollFd.ready).map PollFd.narrow := by
    rw [found, List.map_map]
    rfl
  have hready : slots.filter PollFd.ready =
      (slots.filter PollFd.used).filter fun slot => slot.revents ≠ 0 := by
    rw [List.filter_filter]
    congr 1
    funext slot
    rw [PollFd.ready, Bool.and_comm]
  rw [hfst, hready, fds]
  exact List.filter_sublist.map _

theorem fds_cons (slot : PollFd) (slots : List PollFd) :
    fds (slot :: slots) = if slot.used then slot.narrow :: fds slots else fds slots := by
  rw [fds, List.filter_cons]
  split <;> rfl

theorem found_cons (slot : PollFd) (slots : List PollFd) :
    found (slot :: slots) =
      if slot.ready then (slot.narrow, slot.revents) :: found slots else found slots := by
  rw [found, List.filter_cons]
  split <;> rfl

/-- The loop of `next_event` and what is left behind it. -/
theorem found_eq (slots : List PollFd) :
    found slots =
      match slots[slots.findIdx PollFd.ready]? with
      | none => []
      | some slot =>
          (slot.narrow, slot.revents) :: found (slots.drop (slots.findIdx PollFd.ready + 1)) := by
  induction slots with
  | nil => rfl
  | cons slot slots ih =>
      rw [found_cons, List.findIdx_cons]
      cases hready : slot.ready with
      | true => rfl
      | false =>
          rw [if_neg Bool.false_ne_true, ih]
          rfl

/-! ### A descriptor comes -/

theorem narrow_placed (slot : PollFd) (fd : BitVec 32) (events : BitVec 16) :
    PollFd.narrow { slot with fd := fd.signExtend 64, events := events } = fd := by
  ext i hi
  have hroom : i < 64 := by omega
  rw [PollFd.narrow, BitVec.getElem_setWidth, BitVec.getLsbD_signExtend, if_pos hi,
    decide_eq_true hroom, Bool.true_and, BitVec.getLsbD_eq_getElem]

theorem signExtend_eq (hfd : fd.msb = false) : fd.signExtend 64 = fd.setWidth 64 :=
  BitVec.signExtend_eq_setWidth_of_msb_false hfd

/-- The slots after `add_fd`: as before, but for one that was free. -/
theorem mem_place (hplace : place fd slots = some next) (hslot : slot ∈ next) :
    slot ∈ slots ∨ ∃ old ∈ slots, old.used = false ∧
      slot = { old with fd := fd.signExtend 64, events := pollIn } := by
  induction slots generalizing next with
  | nil => cases hplace
  | cons first slots ih =>
      rw [place] at hplace
      split at hplace
      · obtain ⟨rest, hrest, rfl⟩ := Option.map_eq_some_iff.mp hplace
        rcases List.mem_cons.mp hslot with rfl | hlater
        · exact .inl List.mem_cons_self
        · rcases ih hrest hlater with hmem | ⟨old, hold, hfree, heq⟩
          · exact .inl (List.mem_cons_of_mem _ hmem)
          · exact .inr ⟨old, List.mem_cons_of_mem _ hold, hfree, heq⟩
      · rename_i hfree
        obtain rfl := Option.some.inj hplace
        rcases List.mem_cons.mp hslot with rfl | hlater
        · exact .inr ⟨first, List.mem_cons_self, Bool.eq_false_iff.mpr hfree, rfl⟩
        · exact .inl (List.mem_cons_of_mem _ hlater)

theorem used_placed (hfd : fd.msb = false) (slot : PollFd) (events : BitVec 16) :
    PollFd.used { slot with fd := fd.signExtend 64, events := events } = true := by
  rw [used_iff, signExtend_eq hfd]
  exact setWidth_ne_invalidSocket fd

theorem Sound.place (hsound : Sound slots) (hfd : fd.msb = false)
    (hplace : place fd slots = some next) : Sound next := by
  intro slot hslot hused
  rcases mem_place hplace hslot with hmem | ⟨old, _, _, rfl⟩
  · exact hsound slot hmem hused
  · rw [narrow_placed]
    exact ⟨hfd, (signExtend_eq hfd).symm⟩

theorem Blank.place (hblank : Blank slots) (hfd : fd.msb = false)
    (hplace : place fd slots = some next) : Blank next := by
  intro slot hslot hfree
  rcases mem_place hplace hslot with hmem | ⟨old, _, _, rfl⟩
  · exact hblank slot hmem hfree
  · rw [used_placed hfd] at hfree
    cases hfree

theorem fds_place (hfd : fd.msb = false) (hplace : place fd slots = some next) :
    (fds next).Perm (fd :: fds slots) := by
  induction slots generalizing next with
  | nil => cases hplace
  | cons slot slots ih =>
      rw [place] at hplace
      split at hplace
      · rename_i hused
        obtain ⟨rest, hrest, rfl⟩ := Option.map_eq_some_iff.mp hplace
        rw [fds_cons, fds_cons, if_pos hused, if_pos hused]
        exact ((ih hrest).cons _).trans (.swap _ _ _)
      · rename_i hfree
        obtain rfl := Option.some.inj hplace
        rw [fds_cons, fds_cons, if_pos (used_placed hfd slot pollIn), if_neg hfree, narrow_placed]

/-- A descriptor that comes in the middle of a scan is not found by it. -/
theorem found_place (hblank : Blank slots) (hplace : place fd slots = some next) (n : ℕ) :
    found (next.drop n) = found (slots.drop n) := by
  induction slots generalizing next n with
  | nil => cases hplace
  | cons slot slots ih =>
      rw [place] at hplace
      split at hplace
      · obtain ⟨rest, hrest, rfl⟩ := Option.map_eq_some_iff.mp hplace
        have hlater := ih (fun slot hslot => hblank slot (List.mem_cons_of_mem _ hslot)) hrest
        cases n with
        | zero =>
            have hall := hlater 0
            rw [List.drop_zero, List.drop_zero] at hall ⊢
            rw [found_cons, found_cons, hall]
        | succ n => exact hlater n
      · rename_i hfree
        obtain rfl := Option.some.inj hplace
        cases n with
        | zero =>
            have hzero := hblank slot List.mem_cons_self (Bool.eq_false_iff.mpr hfree)
            have hnew :
                ¬ PollFd.ready { slot with fd := fd.signExtend 64, events := pollIn } = true :=
              fun hready => (ready_iff.mp hready).2 hzero
            have hold : ¬ slot.ready = true := fun hready => (ready_iff.mp hready).2 hzero
            rw [List.drop_zero, List.drop_zero, found_cons, found_cons, if_neg hnew, if_neg hold]
        | succ n => rfl

theorem used_of_place_eq_none (hplace : place fd slots = none) :
    ∀ slot ∈ slots, slot.used = true := by
  induction slots with
  | nil => exact fun _ hslot => absurd hslot List.not_mem_nil
  | cons slot slots ih =>
      rw [place] at hplace
      split at hplace
      · rename_i hused
        intro other hother
        rcases List.mem_cons.mp hother with rfl | hlater
        · exact hused
        · exact ih (Option.map_eq_none_iff.mp hplace) other hlater
      · cases hplace

/-! ### A descriptor goes -/

theorem mem_clear (hslot : slot ∈ clear fd slots) : slot ∈ slots ∨ slot = .free := by
  induction slots with
  | nil => cases hslot
  | cons first slots ih =>
      rw [clear] at hslot
      split at hslot
      · rcases List.mem_cons.mp hslot with rfl | hlater
        · exact .inr rfl
        · exact .inl (List.mem_cons_of_mem _ hlater)
      · rcases List.mem_cons.mp hslot with rfl | hlater
        · exact .inl List.mem_cons_self
        · exact (ih hlater).imp_left (List.mem_cons_of_mem _)

theorem Sound.clear (hsound : Sound slots) (fd : BitVec 32) : Sound (clear fd slots) := by
  intro slot hslot hused
  rcases mem_clear hslot with hmem | rfl
  · exact hsound slot hmem hused
  · exact absurd rfl (used_iff.mp hused)

theorem Blank.clear (hblank : Blank slots) (fd : BitVec 32) : Blank (clear fd slots) := by
  intro slot hslot hfree
  rcases mem_clear hslot with hmem | rfl
  · exact hblank slot hmem hfree
  · rfl

theorem fds_clear (hsound : Sound slots) (fd : BitVec 32) :
    fds (clear fd slots) = (fds slots).erase fd := by
  induction slots with
  | nil => rfl
  | cons slot slots ih =>
      have hslot := hsound slot List.mem_cons_self
      have hrest : Sound slots := fun other hother =>
        hsound other (List.mem_cons_of_mem _ hother)
      rw [WsaPoll.clear]
      split
      · rename_i hsame
        obtain ⟨hused, rfl⟩ := (fd_eq_iff hslot).mp hsame
        rw [fds_cons, fds_cons, if_pos hused, List.erase_cons_head]
        rfl
      · rename_i hother
        rw [fds_cons, fds_cons, ih hrest]
        split
        · rename_i hused
          have hne : slot.narrow ≠ fd := fun hsame => hother ((fd_eq_iff hslot).mpr ⟨hused, hsame⟩)
          rw [List.erase_cons_tail (by simpa using hne)]
        · rfl

theorem found_filter_eq_self (hforeign : fd ∉ fds slots) (n : ℕ) :
    (found (slots.drop n)).filter (·.1 ≠ fd) = found (slots.drop n) := by
  refine List.filter_eq_self.mpr fun (other, revents) hother => decide_eq_true ?_
  rintro rfl
  obtain ⟨slot, hslot, hready, hnarrow, _⟩ := mem_found.mp hother
  exact hforeign (mem_fds.mpr
    ⟨slot, List.mem_of_mem_drop hslot, (ready_iff.mp hready).1, hnarrow⟩)

/-- A scan finds no descriptor that has gone, and all others. -/
theorem found_clear (hsound : Sound slots) (hnodup : (fds slots).Nodup) (fd : BitVec 32) (n : ℕ) :
    found ((clear fd slots).drop n) = (found (slots.drop n)).filter (·.1 ≠ fd) := by
  induction slots generalizing n with
  | nil => rw [WsaPoll.clear, List.drop_nil]; rfl
  | cons slot slots ih =>
      have hslot := hsound slot List.mem_cons_self
      have hrest : Sound slots := fun other hother =>
        hsound other (List.mem_cons_of_mem _ hother)
      rw [fds_cons] at hnodup
      rw [WsaPoll.clear]
      split
      · rename_i hsame
        obtain ⟨hused, rfl⟩ := (fd_eq_iff hslot).mp hsame
        rw [if_pos hused] at hnodup
        have hforeign := (List.nodup_cons.mp hnodup).1
        have hothers := found_filter_eq_self hforeign
        cases n with
        | zero =>
            have hall := hothers 0
            rw [List.drop_zero] at hall
            rw [List.drop_zero, List.drop_zero, found_cons, found_cons,
              if_neg (by rw [ready_iff]; exact fun h => absurd rfl (used_iff.mp h.1))]
            split
            · rw [List.filter_cons_of_neg (by simp), hall]
            · rw [hall]
        | succ n => exact (hothers n).symm
      · rename_i hother
        have hnext : (fds slots).Nodup := by
          split at hnodup
          · exact (List.nodup_cons.mp hnodup).2
          · exact hnodup
        cases n with
        | zero =>
            have hall := ih hrest hnext 0
            rw [List.drop_zero, List.drop_zero] at hall
            rw [List.drop_zero, List.drop_zero, found_cons, found_cons, hall]
            split
            · rename_i hready
              have hne : slot.narrow ≠ fd := fun hsame =>
                hother ((fd_eq_iff hslot).mpr ⟨(ready_iff.mp hready).1, hsame⟩)
              rw [List.filter_cons_of_pos (by simpa using hne)]
            · rfl
        | succ n => exact ih hrest hnext n

/-! ### A wait -/

def polled (kernel : Kernel) (slots : List PollFd) : List PollFd :=
  slots.map fun slot => { slot with revents := kernel.flags slot }

theorem fds_mapIdx (slots : List PollFd) (revents : ℕ → BitVec 16) :
    fds (slots.mapIdx fun i slot => { slot with revents := revents i }) = fds slots := by
  induction slots generalizing revents with
  | nil => rfl
  | cons slot slots ih =>
      rw [List.mapIdx_cons, fds_cons, fds_cons, ih fun i => revents (i + 1)]
      rfl

theorem Sound.mapIdx (hsound : Sound slots) (revents : ℕ → BitVec 16) :
    Sound (slots.mapIdx fun i slot => { slot with revents := revents i }) := by
  intro slot hslot hused
  obtain ⟨i, hi, rfl⟩ := List.mem_mapIdx.mp hslot
  exact hsound slots[i] (List.getElem_mem hi) hused

/-- Where `WSAPoll` does not fail. -/
theorem mapIdx_eq_polled {kernel : Kernel} {revents : ℕ → BitVec 16}
    (hrevents : ∀ i slot, slots[i]? = some slot → revents i = kernel.flags slot) :
    (slots.mapIdx fun i slot => { slot with revents := revents i }) = polled kernel slots := by
  refine List.ext_getElem? fun i => ?_
  rw [List.getElem?_mapIdx, polled, List.getElem?_map]
  cases hslot : slots[i]? with
  | none => rfl
  | some slot => rw [Option.map_some, Option.map_some, hrevents i slot hslot]

theorem Kernel.flags_ne_zero {kernel : Kernel} :
    kernel.flags slot ≠ 0 ↔ slot.used = true ∧ kernel.ready slot.narrow ≠ 0 := by
  rw [Kernel.flags]
  split
  · rename_i hused
    exact ⟨fun hne => ⟨hused, hne⟩, And.right⟩
  · rename_i hfree
    exact ⟨fun hne => absurd rfl hne, fun hready => absurd hready.1 hfree⟩

theorem mem_found_polled {kernel : Kernel} {revents : BitVec 16} :
    (fd, revents) ∈ found (polled kernel slots) ↔
      fd ∈ fds slots ∧ kernel.ready fd = revents ∧ revents ≠ 0 := by
  rw [mem_found, mem_fds, polled]
  constructor
  · rintro ⟨_, hslot, hready, rfl, rfl⟩
    obtain ⟨slot, hmem, rfl⟩ := List.mem_map.mp hslot
    obtain ⟨hused, hne⟩ := ready_iff.mp hready
    have hflags : kernel.flags slot = kernel.ready slot.narrow := if_pos hused
    exact ⟨⟨slot, hmem, hused, rfl⟩, hflags.symm, hne⟩
  · rintro ⟨⟨slot, hmem, hused, rfl⟩, rfl, hne⟩
    have hflags : kernel.flags slot = kernel.ready slot.narrow := if_pos hused
    refine ⟨_, List.mem_map.mpr ⟨slot, hmem, rfl⟩, ready_iff.mpr ⟨hused, ?_⟩, rfl, hflags⟩
    exact hflags ▸ hne

theorem length_found_polled (kernel : Kernel) (slots : List PollFd) :
    (found (polled kernel slots)).length = slots.countP (kernel.flags · ≠ 0) := by
  rw [found, List.length_map, ← List.countP_eq_length_filter, polled, List.countP_map]
  refine List.countP_congr fun slot _ => ?_
  rw [decide_eq_true_eq, Function.comp_apply, ready_iff]
  exact ⟨And.right, fun hne => ⟨(Kernel.flags_ne_zero.mp hne).1, hne⟩⟩

end Table

/-! ## The poller keeps what it shows -/

/-- What a scan has still to return: nothing where the counter has come to its end,
and else what the slots ahead hold. -/
def Awaits (poller : Poller size) (pending : List (BitVec 32 × BitVec 16)) : Prop :=
  (poller.mNbEvents ≤ poller.mCurEv ∧ pending = []) ∨
    Blank poller.mEvents ∧ pending = found (poller.mEvents.drop poller.mIdx) ∧
      (pending = [] ∨ poller.mCurEv + pending.length ≤ poller.mNbEvents)

structure Shows (poller : Poller size) (watch : Watch) : Prop where
  hidx : poller.mIdx ≤ size
  hsound : Sound poller.mEvents
  hnodup : (fds poller.mEvents).Nodup
  hregistered : watch.registered = (fds poller.mEvents).toFinset
  hawaits : Awaits poller watch.pending

section Steps

variable {poller : Poller size} {watch : Watch} {fd : BitVec 32}

theorem shows_new (size : ℕ) (mCurEv : ℤ) : Shows (.new size mCurEv) ⟨∅, []⟩ := by
  have hfree : ∀ slot ∈ (Poller.new size mCurEv).mEvents, slot = .free := fun slot hslot =>
    List.eq_of_mem_replicate hslot
  have hfds : fds (Poller.new size mCurEv).mEvents = [] := by
    refine List.eq_nil_iff_forall_not_mem.mpr fun fd hfd => ?_
    obtain ⟨slot, hslot, hused, _⟩ := mem_fds.mp hfd
    rw [hfree slot hslot] at hused
    cases hused
  have hfound : found (Poller.new size mCurEv).mEvents = [] := by
    refine List.eq_nil_iff_forall_not_mem.mpr fun (fd, revents) hfd => ?_
    obtain ⟨slot, hslot, hready, _⟩ := mem_found.mp hfd
    rw [hfree slot hslot] at hready
    cases hready
  refine ⟨Nat.zero_le _, fun slot hslot hused => ?_, by rw [hfds]; exact List.nodup_nil,
    by rw [hfds]; rfl, .inr ⟨fun slot hslot _ => by rw [hfree slot hslot]; rfl, hfound.symm,
      .inl rfl⟩⟩
  rw [hfree slot hslot] at hused
  cases hused

theorem Shows.card (hshows : Shows poller watch) :
    watch.registered.card = (fds poller.mEvents).length := by
  rw [hshows.hregistered, List.toFinset_card_of_nodup hshows.hnodup]

theorem Shows.addFd (hshows : Shows poller watch) (hproper : Proper poller (.addFd fd)) :
    ∃ next, watch.Allows size (.addFd fd) (.added (poller.addFd fd).1) next ∧
      Shows (poller.addFd fd).2 next := by
  obtain ⟨hfd, hfresh⟩ := hproper
  rw [Poller.addFd]
  split
  · rename_i hplace
    refine ⟨watch, .full ?_, hshows⟩
    have hall := used_of_place_eq_none hplace
    rw [hshows.card, fds, List.length_map, List.filter_eq_self.mpr hall, poller.hlength]
  · rename_i slots hplace
    have hperm := fds_place hfd hplace
    have hforeign : fd ∉ fds poller.mEvents := by
      intro hmem
      obtain ⟨slot, hslot, hused, rfl⟩ := mem_fds.mp hmem
      exact hfresh slot hslot (hshows.hsound slot hslot hused).2.symm
    have hroom : watch.registered.card < size := by
      have hlength := hperm.length_eq
      have hle : (fds slots).length ≤ size := by
        rw [fds, List.length_map, ← poller.hlength, ← length_place hplace]
        exact List.length_filter_le _ _
      rw [List.length_cons] at hlength
      rw [hshows.card]
      omega
    refine ⟨_, .addFd hroom, hshows.hidx, hshows.hsound.place hfd hplace,
      hperm.nodup_iff.mpr (List.nodup_cons.mpr ⟨hforeign, hshows.hnodup⟩), ?_, ?_⟩
    · rw [List.toFinset_eq_of_perm _ _ hperm, List.toFinset_cons, hshows.hregistered]
    · refine hshows.hawaits.imp id fun ⟨hblank, hpending, hcount⟩ =>
        ⟨hblank.place hfd hplace, ?_, hcount⟩
      rw [hpending]
      exact (found_place hblank hplace poller.mIdx).symm

theorem Shows.removeFd (hshows : Shows poller watch) (fd : BitVec 32) :
    Shows (poller.removeFd fd)
      ⟨watch.registered.erase fd, watch.pending.filter (·.1 ≠ fd)⟩ := by
  have hfds := fds_clear hshows.hsound fd
  refine ⟨hshows.hidx, hshows.hsound.clear fd, ?_, ?_, ?_⟩
  · change (fds (clear fd poller.mEvents)).Nodup
    rw [hfds]
    exact hshows.hnodup.erase fd
  · change _ = (fds (clear fd poller.mEvents)).toFinset
    ext other
    rw [hfds, Finset.mem_erase, List.mem_toFinset, hshows.hnodup.mem_erase_iff,
      hshows.hregistered, List.mem_toFinset]
  · refine hshows.hawaits.imp (fun ⟨hend, hnone⟩ => ⟨hend, by rw [hnone]; rfl⟩)
      fun ⟨hblank, hpending, hcount⟩ => ⟨hblank.clear fd, ?_, ?_⟩
    · rw [hpending]
      exact (found_clear hshows.hsound hshows.hnodup fd poller.mIdx).symm
    · refine hcount.imp (fun hnone => by rw [hnone]; rfl) fun hcount => ?_
      have hle := List.length_filter_le (fun entry => decide (entry.1 ≠ fd)) watch.pending
      change poller.mCurEv + (List.length (List.filter _ _) : ℤ) ≤ poller.mNbEvents
      omega

theorem Shows.wait (hshows : Shows poller watch) {timeout : ℤ} {kernel : Kernel}
    (hkernel : kernel.Documented poller.mEvents timeout) :
    ∃ next, watch.Allows size (.waitForEvents timeout kernel) .nothing next ∧
      Shows (poller.waitForEvents timeout kernel) next := by
  have hfds := fds_mapIdx poller.mEvents (kernel.poll poller.mEvents timeout).2
  have hkept : ∀ pending, Awaits (poller.waitForEvents timeout kernel) pending →
      Shows (poller.waitForEvents timeout kernel) { watch with pending := pending } :=
    fun pending hawaits => ⟨Nat.zero_le _, hshows.hsound.mapIdx _, by
      rw [Poller.waitForEvents, hfds]; exact hshows.hnodup, by
      rw [Poller.waitForEvents, hfds]; exact hshows.hregistered, hawaits⟩
  rw [Kernel.Documented] at hkernel
  split at hkernel
  · rename_i hfails
    have hnone : (([] : List (BitVec 32 × BitVec 16)).map Prod.fst).Nodup := List.nodup_nil
    refine ⟨_, .wait hnone fun fd revents => ?_, hkept [] (.inl ⟨?_, rfl⟩)⟩
    · simp [hfails]
    · change (kernel.poll poller.mEvents timeout).1 ≤ 0
      omega
  · rename_i hworks
    obtain ⟨hcount, hrevents⟩ := hkernel
    have hpolled := mapIdx_eq_polled hrevents
    have hsublist := fst_found_sublist (polled kernel poller.mEvents)
    rw [← hpolled, hfds, hpolled] at hsublist
    refine ⟨_, .wait (hshows.hnodup.sublist hsublist) fun fd revents => ?_,
      hkept _ (.inr ⟨?_, ?_, .inr ?_⟩)⟩
    · rw [mem_found_polled, hshows.hregistered, List.mem_toFinset]
      exact ⟨fun h => ⟨Bool.eq_false_iff.mpr hworks, h⟩, And.right⟩
    · intro slot hslot hfree
      change slot ∈ List.mapIdx _ _ at hslot
      rw [hpolled] at hslot
      obtain ⟨old, _, rfl⟩ := List.mem_map.mp hslot
      exact if_neg (Bool.eq_false_iff.mp hfree)
    · change _ = found (List.drop 0 (List.mapIdx _ _))
      rw [hpolled, List.drop_zero]
    · change 0 + _ ≤ (kernel.poll poller.mEvents timeout).1
      rw [hcount, length_found_polled, zero_add]

theorem Shows.nextEvent (hshows : Shows poller watch) (e : Event) :
    ∃ next, watch.Allows size (.nextEvent e)
        (.event (poller.nextEvent e).1.1 (poller.nextEvent e).1.2) next ∧
      Shows (poller.nextEvent e).2 next := by
  obtain ⟨registered, pending⟩ := watch
  obtain ⟨hidx, hsound, hnodup, hregistered, hawaits⟩ := hshows
  have hawaits : Awaits poller pending := hawaits
  rw [Poller.nextEvent]
  split
  · rename_i hend
    have hnone : pending = [] := by
      rcases hawaits with ⟨_, hnone⟩ | ⟨_, _, hnone | hcount⟩
      · exact hnone
      · exact hnone
      · refine List.eq_nil_of_length_eq_zero ?_
        omega
    subst hnone
    exact ⟨_, .nothing, hidx, hsound, hnodup, hregistered, hawaits⟩
  · rename_i hmore
    obtain ⟨hblank, hpending, hcount⟩ := hawaits.resolve_left fun h => hmore h.1
    have hscan : poller.mEvents[poller.scan]? =
        (poller.mEvents.drop poller.mIdx)[(poller.mEvents.drop poller.mIdx).findIdx
          PollFd.ready]? := by
      rw [List.getElem?_drop]
      rfl
    have hfound := found_eq (poller.mEvents.drop poller.mIdx)
    rw [← hscan, ← hpending] at hfound
    split
    · rename_i hslot
      rw [hslot] at hfound
      have hnone : pending = [] := hfound
      subst hnone
      have hpast : poller.mEvents.length ≤ poller.scan := List.getElem?_eq_none_iff.mp hslot
      have hle : poller.scan ≤ size := by
        have hfirst : (poller.mEvents.drop poller.mIdx).findIdx PollFd.ready ≤ _ :=
          List.findIdx_le_length
        have hlength := poller.hlength
        rw [List.length_drop] at hfirst
        rw [Poller.scan]
        omega
      refine ⟨_, .nothing, hle, hsound, hnodup, hregistered, .inr ⟨hblank, ?_, .inl rfl⟩⟩
      rw [List.drop_eq_nil_of_le hpast]
      rfl
    · rename_i slot hslot
      rw [hslot] at hfound
      have hhead : pending = (slot.narrow, slot.revents) ::
          found (poller.mEvents.drop (poller.scan + 1)) := by
        rw [hfound, List.drop_drop, Poller.scan, Nat.add_assoc]
      have hlt : poller.scan < size := by
        have hinside := (List.getElem?_eq_some_iff.mp hslot).1
        exact hinside.trans_eq poller.hlength
      subst hhead
      refine ⟨_, .event, hlt, hsound, hnodup, hregistered, .inr ⟨hblank, rfl, .inr ?_⟩⟩
      have hroom := hcount.resolve_left (List.cons_ne_nil _ _)
      rw [List.length_cons] at hroom
      change poller.mCurEv + 1 + (List.length (found _) : ℤ) ≤ poller.mNbEvents
      push_cast at hroom
      omega

end Steps

/-- Each proper call is one that the watch allows. -/
theorem refines : Refines (@Poller.step size) (Watch.Allows size) Proper Shows := by
  intro poller watch call hshows hproper
  cases call with
  | addFd fd => exact hshows.addFd hproper
  | removeFd fd => exact ⟨_, .removeFd, hshows.removeFd fd⟩
  | waitForEvents timeout kernel => exact hshows.wait hproper
  | nextEvent e => exact hshows.nextEvent e

/-! ## Runs -/

/-- Whatever is called, whenever descriptors come and go and whatever `m_cur_ev` was
at first, a poller answers as a watch may. -/
theorem admits_answers {mCurEv : ℤ} {calls : List Call}
    (hobeys : Obeys Poller.step Proper (.new size mCurEv) calls) :
    ∃ last, Admits (Watch.Allows size) ⟨∅, []⟩ calls
      (answers Poller.step (.new size mCurEv) calls) last := by
  obtain ⟨last, hadmits, _⟩ := refines.admits (shows_new size mCurEv) hobeys
  exact ⟨last, hadmits⟩

/-- The events that calls of `next_event` return. -/
def returned (results : List Answer) : List Event :=
  results.filterMap fun
    | .event true e => some e
    | _ => none

def Unwaited (calls : List Call) : Prop :=
  ∀ timeout kernel, Call.waitForEvents timeout kernel ∉ calls

section Batch

variable {watch last : Watch} {calls : List Call} {results : List Answer}

theorem Unwaited.tail {call : Call} (hunwaited : Unwaited (call :: calls)) : Unwaited calls :=
  fun timeout kernel hmem => hunwaited timeout kernel (List.mem_cons_of_mem call hmem)

/-- Until the next wait, what is returned is part of what was pending, in order. -/
theorem returned_sublist (hadmits : Admits (Watch.Allows size) watch calls results last)
    (hunwaited : Unwaited calls) :
    (returned results).Sublist (watch.pending.map fun entry => toEvent entry.1 entry.2) := by
  induction hadmits with
  | nil => exact List.nil_sublist _
  | cons hallows hrest ih =>
      have hlater := ih hunwaited.tail
      cases hallows with
      | addFd hroom => exact hlater
      | full hfull => exact hlater
      | removeFd => exact hlater.trans (List.filter_sublist.map _)
      | wait hnodup hpending => exact absurd List.mem_cons_self (hunwaited _ _)
      | nothing => exact hlater
      | event => exact hlater.cons_cons _

/-- A scan that has come to its end has returned all that was pending and was not
removed. -/
theorem returned_of_ended (hadmits : Admits (Watch.Allows size) watch calls results last)
    (hunwaited : Unwaited calls) {e : Event} (hended : .event false e ∈ results)
    {fd : BitVec 32} {revents : BitVec 16} (hpending : (fd, revents) ∈ watch.pending) :
    toEvent fd revents ∈ returned results ∨ .removeFd fd ∈ calls := by
  induction hadmits with
  | nil => cases hended
  | @cons _ _ _ _ answer calls results hallows hrest ih =>
      have hlater : ∀ {found : Bool} {other : Event}, answer = .event found other → found = true →
          .event false e ∈ results := by
        rintro found other rfl rfl
        exact (List.mem_cons.mp hended).resolve_left (by simp)
      cases hallows with
      | addFd hroom =>
          have hrest :=
            ih hunwaited.tail ((List.mem_cons.mp hended).resolve_left (by simp)) hpending
          exact hrest.imp_right (List.mem_cons_of_mem _)
      | full hfull =>
          have hrest :=
            ih hunwaited.tail ((List.mem_cons.mp hended).resolve_left (by simp)) hpending
          exact hrest.imp_right (List.mem_cons_of_mem _)
      | @removeFd _ other =>
          by_cases hsame : fd = other
          · exact .inr (hsame ▸ List.mem_cons_self)
          · have hrest := ih hunwaited.tail ((List.mem_cons.mp hended).resolve_left (by simp))
              (List.mem_filter.mpr ⟨hpending, decide_eq_true hsame⟩)
            exact hrest.imp_right (List.mem_cons_of_mem _)
      | wait hnodup hready => exact absurd List.mem_cons_self (hunwaited _ _)
      | nothing => cases hpending
      | event =>
          rcases List.mem_cons.mp hpending with hhead | htail
          · obtain ⟨rfl, rfl⟩ := Prod.mk.inj hhead
            exact .inl List.mem_cons_self
          · have hrest := ih hunwaited.tail (hlater rfl rfl) htail
            exact hrest.imp (List.mem_cons_of_mem _) (List.mem_cons_of_mem _)

/-- What is removed is not returned any more. -/
theorem fd_ne_of_removed {front back : List Call} {fd : BitVec 32}
    (hadmits : Admits (Watch.Allows size) watch (front ++ .removeFd fd :: back) results last)
    (hunwaited : Unwaited (front ++ .removeFd fd :: back)) :
    ∀ event ∈ returned (results.drop (front.length + 1)), event.fd ≠ fd := by
  obtain ⟨mid, _, hback⟩ := hadmits.split
  rw [← List.drop_drop]
  have hlater : Unwaited back := fun timeout kernel hmem =>
    hunwaited timeout kernel (List.mem_append_right _ (List.mem_cons_of_mem _ hmem))
  generalize results.drop front.length = rest at hback
  cases hback with
  | cons hallows hrest =>
      cases hallows with
      | removeFd =>
          intro event hevent
          have hmem := (returned_sublist hrest hlater).subset hevent
          obtain ⟨⟨other, revents⟩, hentry, rfl⟩ := List.mem_map.mp hmem
          exact of_decide_eq_true (List.mem_filter.mp hentry).2

end Batch

/-- At each wait of a run: until the next one, `next_event` returns descriptors of
those that were in the table and ready, each at most once; none after it was
removed; and all of them, but for those removed, if it comes to the end. -/
theorem batch_of_obeys {mCurEv timeout : ℤ} {kernel : Kernel} {before between : List Call}
    (hobeys : Obeys Poller.step Proper (.new size mCurEv)
      (before ++ .waitForEvents timeout kernel :: between))
    (hbetween : Unwaited between) :
    let poller := after Poller.step (.new size mCurEv) before
    let results := answers Poller.step (poller.waitForEvents timeout kernel) between
    ∃ ready : List (BitVec 32 × BitVec 16), (ready.map Prod.fst).Nodup ∧
      (∀ fd revents, (fd, revents) ∈ ready ↔ kernel.fails = false ∧ fd ∈ fds poller.mEvents ∧
        kernel.ready fd = revents ∧ revents ≠ 0) ∧
      (returned results).Sublist (ready.map fun entry => toEvent entry.1 entry.2) ∧
      (∀ e, .event false e ∈ results → ∀ fd revents, (fd, revents) ∈ ready →
        toEvent fd revents ∈ returned results ∨ .removeFd fd ∈ between) ∧
      ∀ front fd back, between = front ++ .removeFd fd :: back →
        ∀ event ∈ returned (results.drop (front.length + 1)), event.fd ≠ fd := by
  intro poller results
  obtain ⟨hbefore, hwait, hafter⟩ := obeys_append.mp hobeys
  obtain ⟨watch, _, hshows⟩ := refines.admits (shows_new size mCurEv) hbefore
  obtain ⟨next, hallows, hwoken⟩ := hshows.wait hwait
  obtain ⟨last, hadmits, _⟩ := refines.admits hwoken hafter
  cases hallows with
  | @wait _ _ _ ready hnodup hready =>
      refine ⟨ready, hnodup, fun fd revents => ?_, returned_sublist hadmits hbetween,
        fun e hended fd revents hmem => returned_of_ended hadmits hbetween hended hmem, ?_⟩
      · rw [hready, hshows.hregistered, List.mem_toFinset]
      · rintro front fd back rfl
        exact fd_ne_of_removed hadmits hbetween

def filled : List Call :=
  [.addFd 5, .addFd 7, .addFd 8]

def bothReady : Kernel :=
  .windows (fun fd => if fd = 5 then pollIn else pollHup) false

/-- One is removed in the middle of the scan, and its slot is taken by another. -/
def reused : List Call :=
  [.nextEvent ⟨0, false, false⟩, .removeFd 7, .addFd 9, .nextEvent ⟨0, false, false⟩]

theorem obeys_reused :
    Obeys Poller.step Proper (.new 2 (-7)) (filled ++ .waitForEvents 100 bothReady :: reused) :=
  ⟨⟨rfl, by decide⟩, ⟨rfl, by decide⟩, ⟨rfl, by decide⟩, Kernel.documented_windows _ _ _ _,
    trivial, trivial, ⟨rfl, by decide⟩, trivial, trivial⟩

theorem admits_answers_reused :
    ∃ last, Admits (Watch.Allows 2) ⟨∅, []⟩ (filled ++ .waitForEvents 100 bothReady :: reused)
      (answers Poller.step (.new 2 (-7)) (filled ++ .waitForEvents 100 bothReady :: reused))
      last :=
  admits_answers obeys_reused

theorem batch_of_obeys_reused :
    let poller := after Poller.step (.new 2 (-7)) filled
    let results := answers Poller.step (poller.waitForEvents 100 bothReady) reused
    results = [.event true ⟨5, false, true⟩, .nothing, .added true,
        .event false ⟨0, false, false⟩] ∧
      ∃ ready : List (BitVec 32 × BitVec 16), (7, pollHup) ∈ ready ∧
        (returned results).Sublist (ready.map fun entry => toEvent entry.1 entry.2) := by
  intro poller results
  obtain ⟨ready, _, hready, hreturned, _⟩ :=
    batch_of_obeys obeys_reused (by simp [Unwaited, reused])
  exact ⟨by decide, ready, (hready 7 pollHup).mpr (by decide), hreturned⟩

end Sednl.WsaPoll
