import Mathlib

/-!
# Handles

Numbers that are handed out, closed, and handed out again, as a kernel does with
descriptors.  Each opening has a serial number of its own, so that a holder that
keeps a number past its close can be told from the one that got it next.
-/

namespace Sednl.Handles

/-- A number, with the opening that handed it out. -/
structure Opening where
  fd : ℕ
  serial : ℕ
  deriving DecidableEq, Repr

/-- The opening each number stands for, how many there have been, and those
that have been passed to `close`. -/
structure Table where
  slots : ℕ → Option ℕ
  next : ℕ
  closed : List ℕ

namespace Table

def empty : Table :=
  ⟨fun _ => none, 0, []⟩

/-- The opening that hands out `fd`. -/
def opening (table : Table) (fd : ℕ) : Opening :=
  ⟨fd, table.next⟩

def opened (table : Table) (fd : ℕ) : Table where
  slots := Function.update table.slots fd (some table.next)
  next := table.next + 1
  closed := table.closed

/-- `close` takes a number: what it stands for by then is freed. -/
def close (table : Table) (opening : Opening) : Table :=
  { table with
    slots := Function.update table.slots opening.fd none
    closed := table.closed ++ [opening.serial] }

@[simp]
theorem opened_self (table : Table) (fd : ℕ) : (table.opened fd).slots fd = some table.next :=
  Function.update_self _ _ _

theorem opened_of_ne {fd other : ℕ} (hne : other ≠ fd) (table : Table) :
    (table.opened fd).slots other = table.slots other :=
  Function.update_of_ne hne _ _

@[simp]
theorem close_self (table : Table) (opening : Opening) :
    (table.close opening).slots opening.fd = none :=
  Function.update_self _ _ _

theorem close_of_ne {opening : Opening} {other : ℕ} (hne : other ≠ opening.fd) (table : Table) :
    (table.close opening).slots other = table.slots other :=
  Function.update_of_ne hne _ _

def Open (table : Table) (opening : Opening) : Prop :=
  table.slots opening.fd = some opening.serial

instance (table : Table) (opening : Opening) : Decidable (table.Open opening) :=
  inferInstanceAs (Decidable (_ = _))

/-- What is open has been handed out. -/
def Issued (table : Table) : Prop :=
  ∀ ⦃opening⦄, table.Open opening → opening.serial < table.next

theorem open_opened {fd : ℕ} {table : Table} {opening : Opening} (hslot : table.slots fd = none) :
    (table.opened fd).Open opening ↔ opening = table.opening fd ∨ table.Open opening := by
  by_cases hfd : opening.fd = fd
  · rw [Open, Open, hfd, opened_self, hslot]
    constructor
    · intro hserial
      cases opening with
      | mk number serial =>
          obtain rfl : number = fd := hfd
          obtain rfl : table.next = serial := Option.some.inj hserial
          exact .inl rfl
    · rintro (rfl | hopen)
      · rfl
      · cases hopen
  · rw [Open, Open, opened_of_ne hfd]
    refine ⟨.inr, ?_⟩
    rintro (rfl | hopen)
    · exact absurd rfl hfd
    · exact hopen

theorem open_of_close {table : Table} {opening other : Opening}
    (hopen : (table.close opening).Open other) : table.Open other := by
  by_cases hfd : other.fd = opening.fd
  · rw [Open, hfd, close_self] at hopen
    cases hopen
  · rwa [Open, close_of_ne hfd] at hopen

/-- What is opened and closed at once leaves the numbers as they were. -/
theorem slots_close_opened {fd : ℕ} {table : Table} (hslot : table.slots fd = none) :
    ((table.opened fd).close (table.opening fd)).slots = table.slots := by
  funext other
  by_cases hfd : other = fd
  · rw [hfd, hslot]
    exact close_self _ _
  · rw [close_of_ne hfd, opened_of_ne hfd]

theorem issued_empty : empty.Issued :=
  fun _ hopen => nomatch hopen

theorem Issued.opened {fd : ℕ} {table : Table} (hissued : table.Issued)
    (hslot : table.slots fd = none) : (table.opened fd).Issued := by
  intro opening hopen
  rcases (open_opened hslot).mp hopen with rfl | hopen
  · exact Nat.lt_succ_self _
  · exact Nat.lt_succ_of_lt (hissued hopen)

theorem Issued.close {table : Table} (hissued : table.Issued) (opening : Opening) :
    (table.close opening).Issued :=
  fun _ hopen => hissued (open_of_close hopen)

theorem mem_close {serial : ℕ} {table : Table} {opening : Opening} :
    serial ∈ (table.close opening).closed ↔ serial ∈ table.closed ∨ serial = opening.serial := by
  rw [close, List.mem_append, List.mem_singleton]

end Table

variable {Holder : Type*}

def Single (holds : Holder → Option Opening) : Prop :=
  ∀ holder other opening found, holds holder = some opening → holds other = some found →
    opening.fd = found.fd → holder = other

/-- What is held is open, or stale: closed behind the back of a holder to whom
that may happen. -/
structure Owned (table : Table) (holds : Holder → Option Opening) (mayStale : Holder → Prop) :
    Prop where
  hopen : ∀ {holder opening}, holds holder = some opening →
    table.slots opening.fd = some opening.serial ∨
      mayStale holder ∧ opening.serial ∈ table.closed
  hone : Single holds

/-- Nothing stale is held, and no opening has been closed twice. -/
structure Ledger (table : Table) (holds : Holder → Option Opening) : Prop where
  hlive : ∀ {holder opening}, holds holder = some opening →
    table.slots opening.fd = some opening.serial
  hone : Single holds
  hslots : ∀ {fd serial}, table.slots fd = some serial →
    serial < table.next ∧ serial ∉ table.closed
  hserial : ∀ {fd other serial}, table.slots fd = some serial →
    table.slots other = some serial → fd = other
  hclosed : ∀ {serial}, serial ∈ table.closed → serial < table.next
  hnodup : table.closed.Nodup

section Holders

variable {Holder : Type*} [DecidableEq Holder]
variable {table : Table} {holds : Holder → Option Opening} {mayStale : Holder → Prop}
variable {holder other : Holder} {opening : Opening} {fd : ℕ}

theorem update_some {found : Opening} {value : Option Opening}
    (hfound : Function.update holds holder value other = some found) :
    other = holder ∧ value = some found ∨ other ≠ holder ∧ holds other = some found := by
  by_cases hsame : other = holder
  · subst hsame
    rw [Function.update_self] at hfound
    exact .inl ⟨rfl, hfound⟩
  · rw [Function.update_of_ne hsame] at hfound
    exact .inr ⟨hsame, hfound⟩

theorem update_none {found : Opening}
    (hfound : Function.update holds holder none other = some found) :
    other ≠ holder ∧ holds other = some found := by
  rcases update_some hfound with ⟨_, hnone⟩ | hfound
  · cases hnone
  · exact hfound

theorem Single.drop (hone : Single holds) (holder : Holder) :
    Single (Function.update holds holder none) :=
  fun _ _ _ _ hleft hright hfd => hone _ _ _ _ (update_none hleft).2 (update_none hright).2 hfd

/-- A holder takes a number that nobody else holds. -/
theorem Single.take (hone : Single holds)
    (hnobody : ∀ other found, other ≠ holder → holds other = some found →
      found.fd ≠ opening.fd) :
    Single (Function.update holds holder (some opening)) := by
  intro left right found last hleft hright hfd
  rcases update_some hleft with ⟨hholder, hfound⟩ | ⟨hne, hheld⟩
  · obtain rfl := Option.some.inj hfound
    rcases update_some hright with ⟨hother, _⟩ | ⟨hne, hlast⟩
    · rw [hholder, hother]
    · exact absurd hfd.symm (hnobody right last hne hlast)
  · rcases update_some hright with ⟨_, hlast⟩ | ⟨_, hlast⟩
    · obtain rfl := Option.some.inj hlast
      exact absurd hfd (hnobody left found hne hheld)
    · exact hone _ _ _ _ hheld hlast hfd

/-- Once its holder has dropped a number, nobody holds it. -/
theorem Single.nobody (hone : Single holds) (hholder : holds holder = some opening) :
    ∀ other found, Function.update holds holder none other = some found →
      found.fd ≠ opening.fd := by
  intro other found hfound hfd
  obtain ⟨hne, hheld⟩ := update_none hfound
  exact hne (hone _ _ _ _ hheld hholder hfd)

/-! ### Owned numbers -/

/-- A holder hands what it holds to another. -/
theorem Owned.give (howned : Owned table holds mayStale) (hholder : holds holder = some opening)
    (hslot : table.slots opening.fd = some opening.serial) (other : Holder) :
    Owned table (Function.update (Function.update holds holder none) other (some opening))
      mayStale where
  hopen := by
    intro last found hfound
    rcases update_some hfound with ⟨_, hfound⟩ | ⟨_, hheld⟩
    · obtain rfl := Option.some.inj hfound
      exact .inl hslot
    · exact howned.hopen (update_none hheld).2
  hone := (howned.hone.drop holder).take fun last found _ => howned.hone.nobody hholder last found

/-- What is opened is a number that stood for nothing, and that no other holder
keeps past its close. -/
theorem Owned.opened (howned : Owned table holds mayStale) (hslot : table.slots fd = none)
    (hstale : ∀ other found, other ≠ holder → mayStale other → holds other = some found →
      found.fd = fd → found.serial ∉ table.closed) :
    Owned (table.opened fd) (Function.update holds holder (some (table.opening fd))) mayStale where
  hopen := by
    intro other found hfound
    rcases update_some hfound with ⟨_, hfound⟩ | ⟨_, hheld⟩
    · obtain rfl := Option.some.inj hfound
      exact .inl (Table.opened_self table fd)
    · by_cases hfd : found.fd = fd
      · rcases howned.hopen hheld with hopen | hclosed
        · rw [hfd, hslot] at hopen
          cases hopen
        · exact .inr hclosed
      · rw [Table.opened_of_ne hfd]
        exact howned.hopen hheld
  hone := by
    apply howned.hone.take
    rintro other found hne hfound rfl
    rcases howned.hopen hfound with hopen | ⟨hmay, hclosed⟩
    · rw [hslot] at hopen
      cases hopen
    · exact hstale other found hne hmay hfound rfl hclosed

/-- A holder closes its number, and drops it. -/
theorem Owned.close (howned : Owned table holds mayStale) (hholder : holds holder = some opening) :
    Owned (table.close opening) (Function.update holds holder none) mayStale where
  hopen := by
    intro other found hfound
    rw [Table.close_of_ne (howned.hone.nobody hholder other found hfound), Table.mem_close]
    rcases howned.hopen (update_none hfound).2 with hopen | ⟨hmay, hclosed⟩
    · exact .inl hopen
    · exact .inr ⟨hmay, .inl hclosed⟩
  hone := howned.hone.drop holder

omit [DecidableEq Holder] in
/-- A number is closed, and its holder is left with it. -/
theorem Owned.stale (howned : Owned table holds mayStale) (hholder : holds holder = some opening)
    (hmay : mayStale holder) : Owned (table.close opening) holds mayStale where
  hopen := by
    intro other found hfound
    rw [Table.mem_close]
    by_cases hfd : found.fd = opening.fd
    · obtain rfl := howned.hone _ _ _ _ hfound hholder hfd
      rw [hholder, Option.some.injEq] at hfound
      exact .inr ⟨hmay, .inr (congrArg Opening.serial hfound.symm)⟩
    · rw [Table.close_of_ne hfd]
      rcases howned.hopen hfound with hopen | ⟨hmay, hclosed⟩
      · exact .inl hopen
      · exact .inr ⟨hmay, .inl hclosed⟩
  hone := howned.hone

omit [DecidableEq Holder] in
/-- A number that stands for nothing is closed once more. -/
theorem Owned.again (howned : Owned table holds mayStale)
    (hslot : table.slots opening.fd = none) : Owned (table.close opening) holds mayStale where
  hopen := by
    intro other found hfound
    have hsame : (table.close opening).slots found.fd = table.slots found.fd := by
      by_cases hfd : found.fd = opening.fd
      · rw [hfd, Table.close_self, hslot]
      · exact Table.close_of_ne hfd table
    rw [hsame, Table.mem_close]
    rcases howned.hopen hfound with hopen | ⟨hmay, hclosed⟩
    · exact .inl hopen
    · exact .inr ⟨hmay, .inl hclosed⟩
  hone := howned.hone

/-! ### The ledger -/

theorem Ledger.drop (hledger : Ledger table holds) (holder : Holder) :
    Ledger table (Function.update holds holder none) :=
  ⟨fun hfound => hledger.hlive (update_none hfound).2, hledger.hone.drop holder, hledger.hslots,
    hledger.hserial, hledger.hclosed, hledger.hnodup⟩

theorem Ledger.take (hledger : Ledger table holds)
    (hslot : table.slots opening.fd = some opening.serial)
    (hnobody : ∀ other found, holds other = some found → found.fd ≠ opening.fd) :
    Ledger table (Function.update holds holder (some opening)) where
  hlive := by
    intro other found hfound
    rcases update_some hfound with ⟨_, hfound⟩ | ⟨_, hheld⟩
    · obtain rfl := Option.some.inj hfound
      exact hslot
    · exact hledger.hlive hheld
  hone := hledger.hone.take fun other found _ => hnobody other found
  hslots := hledger.hslots
  hserial := hledger.hserial
  hclosed := hledger.hclosed
  hnodup := hledger.hnodup

theorem Ledger.give (hledger : Ledger table holds) (hholder : holds holder = some opening)
    (other : Holder) :
    Ledger table (Function.update (Function.update holds holder none) other (some opening)) :=
  (hledger.drop holder).take (hledger.hlive hholder) (hledger.hone.nobody hholder)

theorem Ledger.opened (hledger : Ledger table holds) (hslot : table.slots fd = none)
    (holder : Holder) :
    Ledger (table.opened fd) (Function.update holds holder (some (table.opening fd))) := by
  have hnobody : ∀ other found, holds other = some found → found.fd ≠ fd := by
    rintro other found hfound rfl
    have hopen := hledger.hlive hfound
    rw [hslot] at hopen
    cases hopen
  have hbefore : Ledger (table.opened fd) holds := by
    have hnew : ∀ {other serial}, (table.opened fd).slots other = some serial →
        other = fd ∧ serial = table.next ∨ table.slots other = some serial := by
      intro other serial hother
      by_cases hfd : other = fd
      · rw [hfd, Table.opened_self] at hother
        exact .inl ⟨hfd, (Option.some.inj hother).symm⟩
      · rw [Table.opened_of_ne hfd] at hother
        exact .inr hother
    refine ⟨fun {other found} hfound => ?_, hledger.hone, fun {other serial} hother => ?_,
      fun {left right serial} hleft hright => ?_,
      fun hclosed => Nat.lt_succ_of_lt (hledger.hclosed hclosed), hledger.hnodup⟩
    · rw [Table.opened_of_ne (hnobody other found hfound)]
      exact hledger.hlive hfound
    · rcases hnew hother with ⟨_, rfl⟩ | hother
      · exact ⟨Nat.lt_succ_self _, fun hclosed => (hledger.hclosed hclosed).false⟩
      · obtain ⟨hlt, hclosed⟩ := hledger.hslots hother
        exact ⟨Nat.lt_succ_of_lt hlt, hclosed⟩
    · rcases hnew hleft with ⟨hfd, rfl⟩ | hleft
      · rcases hnew hright with ⟨hother, _⟩ | hright
        · rw [hfd, hother]
        · exact absurd rfl (hledger.hslots hright).1.ne
      · rcases hnew hright with ⟨_, rfl⟩ | hright
        · exact absurd rfl (hledger.hslots hleft).1.ne
        · exact hledger.hserial hleft hright
  exact hbefore.take (Table.opened_self table fd) hnobody

theorem Ledger.close (hledger : Ledger table holds) (hholder : holds holder = some opening) :
    Ledger (table.close opening) (Function.update holds holder none) := by
  have hlive := hledger.hlive hholder
  have hleft : ∀ {other serial}, (table.close opening).slots other = some serial →
      other ≠ opening.fd ∧ table.slots other = some serial := by
    intro other serial hother
    by_cases hfd : other = opening.fd
    · rw [hfd, Table.close_self] at hother
      cases hother
    · rw [Table.close_of_ne hfd] at hother
      exact ⟨hfd, hother⟩
  refine ⟨fun {other found} hfound => ?_, hledger.hone.drop holder,
    fun {other serial} hother => ?_, fun hleft' hright => ?_, fun {serial} hclosed => ?_, ?_⟩
  · rw [Table.close_of_ne (hledger.hone.nobody hholder other found hfound)]
    exact hledger.hlive (update_none hfound).2
  · obtain ⟨hne, hother⟩ := hleft hother
    obtain ⟨hlt, hclosed⟩ := hledger.hslots hother
    refine ⟨hlt, fun hmem => ?_⟩
    rcases Table.mem_close.mp hmem with hmem | rfl
    · exact hclosed hmem
    · exact hne (hledger.hserial hother hlive)
  · exact hledger.hserial (hleft hleft').2 (hleft hright).2
  · rcases Table.mem_close.mp hclosed with hmem | rfl
    · exact hledger.hclosed hmem
    · exact (hledger.hslots hlive).1
  · rw [Table.close, List.nodup_append]
    refine ⟨hledger.hnodup, List.nodup_singleton _, fun serial hmem last hlast => ?_⟩
    rw [List.mem_singleton.mp hlast]
    rintro rfl
    exact (hledger.hslots hlive).2 hmem

end Holders

end Sednl.Handles
