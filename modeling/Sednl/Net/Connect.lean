import Sednl.Library.Handles

/-!
# Connecting

`TCPServer::connect` and `TCPClient::connect` open a socket for one candidate address
after another, close the ones that fail, and store the first that does not.  What
follows the loop closes nothing: neither the socket that cannot be used after all, nor
the descriptor the object had before.  A client that waits for an answer puts its
descriptor in an `fd_set`, which has room for those below `size`, that is `FD_SETSIZE`;
`none` stands for a write past it.
-/

namespace Sednl.Connect

open Sednl.Handles

/-- The exceptions of `connect`, those of `retrieve_addresses` among them. -/
inductive Exception where
  | invalidSocketAddress
  | badAlloc
  | cantRetrieveHost
  | bindFailed
  | cantSetNonblocking
  | listenFailed
  | timedOut
  | connectFailed
  deriving DecidableEq, Repr

inductive Outcome where
  | returns
  | throws (exception : Exception)
  deriving DecidableEq, Repr

/-- `SocketInterface`, -1 in `m_fd` being `none`. -/
structure SocketInterface where
  mConnected : Bool
  mFd : Option Opening
  deriving DecidableEq, Repr

structure Process where
  table : Table
  hissued : table.Issued

namespace Process

def empty : Process :=
  ⟨.empty, Table.issued_empty⟩

/-- `socket`, with the number that the kernel chooses, or -1.  It has no number that is
in use to choose. -/
def socket (process : Process) (answer : Option ℕ) : Option (Opening × Process) :=
  match answer with
  | none => none
  | some fd =>
      if hslot : process.table.slots fd = none then
        some (process.table.opening fd, ⟨process.table.opened fd, process.hissued.opened hslot⟩)
      else none

def close (process : Process) (fd : Opening) : Process :=
  ⟨process.table.close fd, process.hissued.close fd⟩

@[simp]
theorem table_close (process : Process) (fd : Opening) :
    (process.close fd).table = process.table.close fd := rfl

end Process

/-- `struct addrinfo`, as what the calls on it answer. -/
structure Candidate (Answers : Type) where
  socket : Option ℕ
  answers : Answers

/-- The loop over the candidates, up to the `break`. -/
def attempt {Answers : Type} (succeeds : ℕ → Answers → Option Bool) :
    Process → List (Candidate Answers) → Option (Option Opening × Process)
  | process, [] => some (none, process)
  | process, addr :: addrs =>
      match process.socket addr.socket with
      | none => attempt succeeds process addrs
      | some (fd, process) =>
          match succeeds fd.fd addr.answers with
          | none => none
          | some true => some (some fd, process)
          | some false => attempt succeeds (process.close fd) addrs

structure SocketAddress where
  mName : String
  mEmpty : Bool

namespace SocketAddress

def isClientValid (address : SocketAddress) : Bool :=
  address.mName ≠ "" && !address.mEmpty

def isServerValid (address : SocketAddress) : Bool :=
  !address.mEmpty

end SocketAddress

/-! ## The server -/

namespace TCPServer

/-- What a call is given, and what the system answers it. -/
structure Call where
  socketAddress : SocketAddress
  /-- `retrieve_addresses`, and whether `bind` returns 0 for each. -/
  retrieved : Except Exception (List (Candidate Bool))
  setsNonBlocking : Bool
  listens : Bool

/-- What follows the loop. -/
def listen (server : SocketInterface) (call : Call) :
    Option Opening × Process → Outcome × SocketInterface × Process
  | (none, process) => (.throws .bindFailed, server, process)
  | (some fd, process) =>
      if !call.setsNonBlocking then (.throws .cantSetNonblocking, server, process)
      else if !call.listens then (.throws .listenFailed, server, process)
      else (.returns, ⟨true, some fd⟩, process)

/-- One pass of the loop, whatever the descriptor. -/
def succeeds (_ : ℕ) (binds : Bool) : Option Bool :=
  some binds

/-- `TCPServer::connect`; `set_reuseaddr` does no more than warn. -/
def connect (process : Process) (server : SocketInterface) (call : Call) :
    Option (Outcome × SocketInterface × Process) :=
  if !call.socketAddress.isServerValid then
    some (.throws .invalidSocketAddress, server, process)
  else
    match call.retrieved with
    | .error exception => some (.throws exception, server, process)
    | .ok addrs => (attempt succeeds process addrs).map (listen server call)

end TCPServer

/-! ## The client -/

namespace TCPClient

/-- What the system call `connect` returns: 0, -1 with `EINPROGRESS`, or -1 with
another error. -/
inductive Connecting where
  | connected
  | inProgress
  | fails
  deriving DecidableEq, Repr

/-- What is answered about one candidate; `soError` is `none` where `getsockopt` fails. -/
structure Answers where
  setsNonBlocking : Bool
  connect : Connecting
  select : ℤ
  soError : Option ℤ

def blockingConnect (addr : Answers) : Bool :=
  addr.connect == .connected

def nonBlockingConnect (size fd : ℕ) (addr : Answers) : Option Bool :=
  if !addr.setsNonBlocking then some false
  else if addr.connect = .connected then some true
  else if addr.connect ≠ .inProgress then some false
  else if size ≤ fd then none
  else if addr.select = 0 ∨ addr.select = -1 then some false
  else
    match addr.soError with
    | none => some false
    | some soError => some (soError == 0)

structure Call where
  socketAddress : SocketAddress
  timeout : ℤ
  retrieved : Except Exception (List (Candidate Answers))

/-- The timeouts that stand for a blocking call. -/
def Call.Blocks (call : Call) : Prop :=
  call.timeout = 0 ∨ call.timeout = -1

instance (call : Call) : Decidable call.Blocks :=
  inferInstanceAs (Decidable (_ ∨ _))

/-- One pass of the loop; a blocking one does not look at what `set_non_blocking`
returns after it. -/
def Call.succeeds (call : Call) (size fd : ℕ) (addr : Answers) : Option Bool :=
  if call.Blocks then some (blockingConnect addr) else nonBlockingConnect size fd addr

/-- What follows the loop. -/
def keep (client : SocketInterface) (call : Call) :
    Option Opening × Process → Outcome × SocketInterface × Process
  | (none, process) =>
      if call.Blocks then (.throws .connectFailed, client, process)
      else (.throws .timedOut, client, process)
  | (some fd, process) => (.returns, ⟨true, some fd⟩, process)

def connect (size : ℕ) (process : Process) (client : SocketInterface) (call : Call) :
    Option (Outcome × SocketInterface × Process) :=
  if !call.socketAddress.isClientValid then
    some (.throws .invalidSocketAddress, client, process)
  else
    match call.retrieved with
    | .error exception => some (.throws exception, client, process)
    | .ok addrs => (attempt (call.succeeds size) process addrs).map (keep client call)

end TCPClient

/-! ## The purpose -/

def Owns (process : Process) (object : SocketInterface) : Prop :=
  ∃ fd, object.mFd = some fd ∧ process.table.Open fd

/-- A call that opens no more than the object keeps.  The openings of the call are the
ones with a serial number that had not been given before it. -/
structure Accounts (process : Process) (object : SocketInterface)
    (result : Outcome × SocketInterface × Process) : Prop where
  hreturns : result.1 = .returns → ∃ fd, result.2.1.mFd = some fd ∧
    result.2.2.table.Open fd ∧ ∀ other, result.2.2.table.Open other →
      process.table.next ≤ other.serial ∨ object.mFd = some other → other = fd
  hthrows : ∀ exception, result.1 = .throws exception → result.2.1 = object ∧
    ∀ other, result.2.2.table.Open other → other.serial < process.table.next

def Settles (process : Process) (object : SocketInterface)
    (result : Option (Outcome × SocketInterface × Process)) : Prop :=
  ∃ ended, result = some ended ∧ Accounts process object ended

def Refuses (client : SocketInterface)
    (result : Option (Outcome × SocketInterface × Process)) : Prop :=
  client.mConnected = true → ∃ exception last, result = some (.throws exception, last)

/-! ## The loop -/

section Loop

variable {Answers : Type} {succeeds : ℕ → Answers → Option Bool}

def Candidate.Gets (process : Process) (addr : Candidate Answers) (fd : ℕ) : Prop :=
  addr.socket = some fd ∧ process.table.slots fd = none

/-- The candidate gets a descriptor, and passes. -/
def Passes (succeeds : ℕ → Answers → Option Bool) (process : Process)
    (addr : Candidate Answers) : Prop :=
  ∃ fd, addr.Gets process fd ∧ succeeds fd addr.answers = some true

/-- No candidate before the one passes, and it gets a descriptor that has no room. -/
def Overruns (succeeds : ℕ → Answers → Option Bool) (process : Process)
    (addrs : List (Candidate Answers)) : Prop :=
  ∃ before addr after, addrs = before ++ addr :: after ∧
    (∀ other ∈ before, ¬ Passes succeeds process other) ∧
    ∃ fd, addr.Gets process fd ∧ succeeds fd addr.answers = none

/-- What the loop leaves: the numbers as they were, or one more in use. -/
inductive Attempted (succeeds : ℕ → Answers → Option Bool) (process : Process)
    (addrs : List (Candidate Answers)) : Option (Option Opening × Process) → Prop
  | overruns (hoverruns : Overruns succeeds process addrs) :
      Attempted succeeds process addrs none
  | fails {last : Process} (hroom : ¬ Overruns succeeds process addrs)
      (hnone : ∀ addr ∈ addrs, ¬ Passes succeeds process addr)
      (hopen : ∀ other, last.table.Open other ↔ process.table.Open other) :
      Attempted succeeds process addrs (some (none, last))
  | passes {fd : Opening} {last : Process} (hroom : ¬ Overruns succeeds process addrs)
      (hsome : ∃ addr ∈ addrs, Passes succeeds process addr)
      (hfresh : process.table.next ≤ fd.serial)
      (hopen : ∀ other, last.table.Open other ↔ other = fd ∨ process.table.Open other) :
      Attempted succeeds process addrs (some (some fd, last))

theorem socket_cases (process : Process) (addr : Candidate Answers) :
    (process.socket addr.socket = none ∧ ∀ fd, ¬ addr.Gets process fd) ∨
      ∃ fd last, addr.Gets process fd ∧ last.table = process.table.opened fd ∧
        process.socket addr.socket = some (process.table.opening fd, last) := by
  obtain ⟨answer, answers⟩ := addr
  cases answer with
  | none => exact .inl ⟨rfl, fun fd hgets => nomatch hgets.1⟩
  | some fd =>
      by_cases hslot : process.table.slots fd = none
      · refine .inr ⟨fd, ⟨_, process.hissued.opened hslot⟩, ⟨rfl, hslot⟩, rfl, ?_⟩
        rw [Process.socket, dif_pos hslot]
      · refine .inl ⟨by rw [Process.socket, dif_neg hslot], ?_⟩
        rintro _ ⟨hanswer, hfree⟩
        obtain rfl := Option.some.inj hanswer
        exact hslot hfree

theorem Candidate.Gets.eq {process : Process} {addr : Candidate Answers} {fd other : ℕ}
    (hgets : addr.Gets process fd) (hother : addr.Gets process other) : other = fd :=
  Option.some.inj (hother.1.symm.trans hgets.1)

theorem passes_congr {process last : Process}
    (hslots : last.table.slots = process.table.slots) (addr : Candidate Answers) :
    Passes succeeds last addr ↔ Passes succeeds process addr := by
  simp only [Passes, Candidate.Gets, hslots]

theorem open_congr {table last : Table} (hslots : last.slots = table.slots) (other : Opening) :
    last.Open other ↔ table.Open other := by
  rw [Table.Open, Table.Open, hslots]

theorem overruns_nil {process : Process} : ¬ Overruns succeeds process [] := by
  rintro ⟨before, addr, after, hsplit, _⟩
  simp at hsplit

/-- Behind a candidate that comes to nothing, it is the others that count. -/
theorem overruns_cons {process mid : Process} {addr : Candidate Answers}
    {addrs : List (Candidate Answers)} (hslots : mid.table.slots = process.table.slots)
    (hfails : ¬ Passes succeeds process addr)
    (hroom : ∀ fd, addr.Gets process fd → succeeds fd addr.answers ≠ none) :
    Overruns succeeds process (addr :: addrs) ↔ Overruns succeeds mid addrs := by
  constructor
  · rintro ⟨before, last, after, hsplit, hbefore, fd, hgets, hnone⟩
    cases before with
    | nil =>
        obtain ⟨rfl, rfl⟩ := List.cons.inj hsplit
        exact absurd hnone (hroom fd hgets)
    | cons head before =>
        obtain ⟨rfl, rfl⟩ := List.cons.inj hsplit
        refine ⟨before, last, after, rfl, fun other hmem => ?_, fd, ?_, hnone⟩
        · rw [passes_congr hslots]
          exact hbefore other (List.mem_cons_of_mem _ hmem)
        · exact ⟨hgets.1, by rw [hslots]; exact hgets.2⟩
  · rintro ⟨before, last, after, rfl, hbefore, fd, hgets, hnone⟩
    refine ⟨addr :: before, last, after, rfl, fun other hmem => ?_, fd, ?_, hnone⟩
    · rcases List.mem_cons.mp hmem with rfl | hmem
      · exact hfails
      · rw [← passes_congr hslots]
        exact hbefore other hmem
    · exact ⟨hgets.1, by rw [← hslots]; exact hgets.2⟩

/-- A candidate that passes ends the loop before any other gets a descriptor. -/
theorem not_overruns_of_passes {process : Process} {addr : Candidate Answers}
    {addrs : List (Candidate Answers)} (hpasses : Passes succeeds process addr) :
    ¬ Overruns succeeds process (addr :: addrs) := by
  rintro ⟨before, last, after, hsplit, hbefore, other, hother, hnone⟩
  cases before with
  | nil =>
      obtain ⟨rfl, rfl⟩ := List.cons.inj hsplit
      obtain ⟨fd, hgets, hpasses⟩ := hpasses
      obtain rfl := hother.eq hgets
      rw [hpasses] at hnone
      cases hnone
  | cons head before =>
      obtain ⟨rfl, rfl⟩ := List.cons.inj hsplit
      exact hbefore addr List.mem_cons_self hpasses

/-- A candidate that comes to nothing has changed nothing. -/
theorem Attempted.cons {process mid : Process} {addr : Candidate Answers}
    {addrs : List (Candidate Answers)} {result : Option (Option Opening × Process)}
    (hrest : Attempted succeeds mid addrs result)
    (hslots : mid.table.slots = process.table.slots)
    (hnext : process.table.next ≤ mid.table.next) (hfails : ¬ Passes succeeds process addr)
    (hroom : ∀ fd, addr.Gets process fd → succeeds fd addr.answers ≠ none) :
    Attempted succeeds process (addr :: addrs) result := by
  have hoverruns := @overruns_cons _ succeeds process mid addr addrs hslots hfails hroom
  cases hrest with
  | overruns hrest => exact .overruns (hoverruns.mpr hrest)
  | fails hrest hnone hopen =>
      refine .fails (hoverruns.not.mpr hrest) (fun other hmem => ?_) fun other => ?_
      · rcases List.mem_cons.mp hmem with rfl | hmem
        · exact hfails
        · exact fun hpasses => hnone other hmem ((passes_congr hslots other).mpr hpasses)
      · rw [hopen, open_congr hslots]
  | passes hrest hsome hfresh hopen =>
      obtain ⟨other, hmem, hpasses⟩ := hsome
      refine .passes (hoverruns.not.mpr hrest)
        ⟨other, List.mem_cons_of_mem addr hmem, (passes_congr hslots other).mp hpasses⟩
        (hnext.trans hfresh) fun other => ?_
      rw [hopen, open_congr hslots]

theorem attempt_attempted (succeeds : ℕ → Answers → Option Bool) (process : Process)
    (addrs : List (Candidate Answers)) :
    Attempted succeeds process addrs (attempt succeeds process addrs) := by
  induction addrs generalizing process with
  | nil => exact .fails overruns_nil (fun _ hmem => nomatch hmem) fun _ => Iff.rfl
  | cons addr addrs ih =>
      rcases socket_cases process addr with
        ⟨hnone, hrefused⟩ | ⟨fd, mid, hgets, hmid, hsome⟩
      · rw [attempt, hnone]
        refine (ih process).cons rfl le_rfl ?_ fun fd hgets => absurd hgets (hrefused fd)
        rintro ⟨fd, hgets, _⟩
        exact hrefused fd hgets
      · rw [attempt, hsome]
        change Attempted succeeds process (addr :: addrs) (match succeeds fd addr.answers with
          | none => none
          | some true => some (some (process.table.opening fd), mid)
          | some false => attempt succeeds (mid.close (process.table.opening fd)) addrs)
        cases hsucceeds : succeeds fd addr.answers with
        | none =>
            exact .overruns ⟨[], addr, addrs, rfl, by simp, fd, hgets, hsucceeds⟩
        | some passes =>
            cases passes with
            | true =>
                have hpasses : Passes succeeds process addr := ⟨fd, hgets, hsucceeds⟩
                refine .passes (not_overruns_of_passes hpasses)
                  ⟨addr, List.mem_cons_self, hpasses⟩ le_rfl fun other => ?_
                rw [hmid, Table.open_opened hgets.2]
            | false =>
                refine (ih _).cons ?_ ?_ ?_ ?_
                · rw [Process.table_close, hmid, Table.slots_close_opened hgets.2]
                · rw [Process.table_close, hmid]
                  exact Nat.le_succ _
                · rintro ⟨other, hother, hpasses⟩
                  obtain rfl := hgets.eq hother
                  rw [hsucceeds] at hpasses
                  cases hpasses
                · intro other hother
                  obtain rfl := hgets.eq hother
                  rw [hsucceeds]
                  simp

end Loop

/-! ## The exits -/

variable {process last : Process} {object : SocketInterface}

/-- An exception before anything is opened, or after everything is closed again. -/
theorem settles_of_throws (exception : Exception)
    (hopen : ∀ other, last.table.Open other ↔ process.table.Open other) :
    Settles process object (some (.throws exception, object, last)) := by
  refine ⟨_, rfl, ⟨by simp, fun _ _ => ⟨rfl, fun other hother => ?_⟩⟩⟩
  exact process.hissued ((hopen other).mp hother)

theorem refuses_of_throws (client : SocketInterface) (exception : Exception)
    (last : SocketInterface × Process) : Refuses client (some (.throws exception, last)) :=
  fun _ => ⟨exception, last, rfl⟩

section Passed

variable {fd : Opening} (hfresh : process.table.next ≤ fd.serial)
  (hopen : ∀ other, last.table.Open other ↔ other = fd ∨ process.table.Open other)

include hfresh hopen

/-- An exception past the loop forgets the socket. -/
theorem not_settles_of_throws (exception : Exception) :
    ¬ Settles process object (some (.throws exception, object, last)) := by
  rintro ⟨ended, hended, haccounts⟩
  obtain rfl := Option.some.inj hended
  have hbefore := (haccounts.hthrows exception rfl).2 fd ((hopen fd).mpr (.inl rfl))
  exact absurd hbefore (Nat.not_lt.mpr hfresh)

/-- Where the call returns, the object forgets what it had. -/
theorem settles_of_returns :
    Settles process object (some (.returns, ⟨true, some fd⟩, last)) ↔ ¬ Owns process object := by
  constructor
  · rintro ⟨ended, hended, haccounts⟩ ⟨held, hheld, hlive⟩
    obtain rfl := Option.some.inj hended
    obtain ⟨kept, hkept, _, hall⟩ := haccounts.hreturns rfl
    obtain rfl := Option.some.inj hkept
    have hsame := hall held ((hopen held).mpr (.inr hlive)) (.inr hheld)
    rw [hsame] at hlive
    exact absurd (process.hissued hlive) (Nat.not_lt.mpr hfresh)
  · refine fun hfree => ⟨_, rfl, ⟨fun _ => ?_, by simp⟩⟩
    refine ⟨fd, rfl, (hopen fd).mpr (.inl rfl), fun other hother howned => ?_⟩
    rcases (hopen other).mp hother with hfd | hlive
    · exact hfd
    · rcases howned with hborn | hheld
      · exact absurd (process.hissued hlive) (Nat.not_lt.mpr hborn)
      · exact absurd ⟨other, hheld, hlive⟩ hfree

end Passed

def TCPServer.Call.Binds (call : TCPServer.Call) (process : Process) : Prop :=
  call.socketAddress.isServerValid = true ∧ ∃ addrs, call.retrieved = .ok addrs ∧
    ∃ addr ∈ addrs, Passes TCPServer.succeeds process addr

def TCPClient.Call.Connects (call : TCPClient.Call) (size : ℕ) (process : Process) : Prop :=
  call.socketAddress.isClientValid = true ∧ ∃ addrs, call.retrieved = .ok addrs ∧
    ∃ addr ∈ addrs, Passes (call.succeeds size) process addr

/-- Before any is connected to, a candidate gets a descriptor that an `fd_set` has no
room for, and its answer is waited for. -/
def TCPClient.Call.Overruns (call : TCPClient.Call) (size : ℕ) (process : Process) : Prop :=
  call.socketAddress.isClientValid = true ∧ ¬ call.Blocks ∧
    ∃ before addr after, call.retrieved = .ok (before ++ addr :: after) ∧
      (∀ other ∈ before, ¬ Passes (call.succeeds size) process other) ∧
      ∃ fd, addr.Gets process fd ∧ size ≤ fd ∧ addr.answers.setsNonBlocking = true ∧
        addr.answers.connect = .inProgress

theorem not_overruns_server (process : Process) (addrs : List (Candidate Bool)) :
    ¬ Overruns TCPServer.succeeds process addrs := by
  rintro ⟨_, _, _, _, _, _, _, hnone⟩
  cases hnone

theorem TCPClient.succeeds_eq_none_iff (call : TCPClient.Call) (size fd : ℕ)
    (addr : TCPClient.Answers) :
    call.succeeds size fd addr = none ↔
      ¬ call.Blocks ∧ size ≤ fd ∧ addr.setsNonBlocking = true ∧ addr.connect = .inProgress := by
  obtain ⟨setsNonBlocking, connecting, select, soError⟩ := addr
  unfold TCPClient.Call.succeeds
  by_cases hblocks : call.Blocks
  · simp [hblocks]
  · rw [if_neg hblocks]
    cases setsNonBlocking with
    | false => simp [TCPClient.nonBlockingConnect]
    | true =>
        cases connecting with
        | connected => simp [TCPClient.nonBlockingConnect]
        | fails => simp [TCPClient.nonBlockingConnect]
        | inProgress =>
            by_cases hroom : size ≤ fd
            · simp [TCPClient.nonBlockingConnect, hblocks, hroom]
            · cases soError with
              | none => simp [TCPClient.nonBlockingConnect, hroom]
              | some soError =>
                  simp only [TCPClient.nonBlockingConnect, hroom]
                  by_cases hfails : select = 0 ∨ select = -1
                  · simp [hfails]
                  · simp [hfails]

theorem TCPClient.overruns_iff {call : TCPClient.Call} {size : ℕ} {process : Process}
    {addrs : List (Candidate TCPClient.Answers)}
    (hvalid : call.socketAddress.isClientValid = true) (hretrieved : call.retrieved = .ok addrs) :
    call.Overruns size process ↔ Sednl.Connect.Overruns (call.succeeds size) process addrs := by
  constructor
  · rintro ⟨_, hblocks, before, addr, after, hsplit, hbefore, fd, hgets, hwaits⟩
    obtain rfl := Except.ok.inj (hretrieved.symm.trans hsplit)
    exact ⟨before, addr, after, rfl, hbefore, fd, hgets,
      (TCPClient.succeeds_eq_none_iff call size fd _).mpr ⟨hblocks, hwaits⟩⟩
  · rintro ⟨before, addr, after, rfl, hbefore, fd, hgets, hnone⟩
    obtain ⟨hblocks, hwaits⟩ := (TCPClient.succeeds_eq_none_iff call size fd _).mp hnone
    exact ⟨hvalid, hblocks, before, addr, after, hretrieved, hbefore, fd, hgets, hwaits⟩

theorem server_settles_iff (process : Process) (server : SocketInterface)
    (call : TCPServer.Call) :
    Settles process server (TCPServer.connect process server call) ↔
      (call.Binds process →
        call.setsNonBlocking = true ∧ call.listens = true ∧ ¬ Owns process server) := by
  unfold TCPServer.connect TCPServer.Call.Binds
  cases hvalid : call.socketAddress.isServerValid with
  | false =>
      exact iff_of_true (settles_of_throws _ fun _ => Iff.rfl) fun hbinds => nomatch hbinds.1
  | true =>
      cases hretrieved : call.retrieved with
      | error exception =>
          exact iff_of_true (settles_of_throws _ fun _ => Iff.rfl)
            fun ⟨_, _, hok, _⟩ => nomatch hok
      | ok addrs =>
          rw [if_neg (by decide)]
          dsimp only
          have hattempt := attempt_attempted TCPServer.succeeds process addrs
          generalize attempt TCPServer.succeeds process addrs = attempted at hattempt
          cases hattempt with
          | overruns hoverruns => exact absurd hoverruns (not_overruns_server process addrs)
          | fails _ hnone hopen =>
              refine iff_of_true (settles_of_throws _ hopen) ?_
              rintro ⟨_, _, hok, addr, hmem, hpasses⟩
              obtain rfl := Except.ok.inj hok
              exact absurd hpasses (hnone addr hmem)
          | passes _ hsome hfresh hopen =>
              have hbinds : ∃ found, Except.ok (ε := Exception) addrs = .ok found ∧
                  ∃ addr ∈ found, Passes TCPServer.succeeds process addr := ⟨addrs, rfl, hsome⟩
              rw [Option.map_some, TCPServer.listen]
              cases call.setsNonBlocking with
              | false =>
                  exact iff_of_false (not_settles_of_throws hfresh hopen _)
                    fun hall => nomatch (hall ⟨rfl, hbinds⟩).1
              | true =>
                  cases call.listens with
                  | false =>
                      exact iff_of_false (not_settles_of_throws hfresh hopen _)
                        fun hall => nomatch (hall ⟨rfl, hbinds⟩).2.1
                  | true =>
                      refine (settles_of_returns hfresh hopen).trans ?_
                      exact ⟨fun hfree _ => ⟨rfl, rfl, hfree⟩, fun hall => (hall ⟨rfl, hbinds⟩).2.2⟩

theorem client_settles_iff (size : ℕ) (process : Process) (client : SocketInterface)
    (call : TCPClient.Call) :
    (Settles process client (TCPClient.connect size process client call) ∧
        Refuses client (TCPClient.connect size process client call)) ↔
      ¬ call.Overruns size process ∧
        (call.Connects size process → client.mConnected = false ∧ ¬ Owns process client) := by
  unfold TCPClient.connect TCPClient.Call.Connects
  cases hvalid : call.socketAddress.isClientValid with
  | false =>
      refine iff_of_true ⟨settles_of_throws _ fun _ => Iff.rfl, refuses_of_throws _ _ _⟩
        ⟨fun hoverruns => ?_, fun hconnects => nomatch hconnects.1⟩
      rw [TCPClient.Call.Overruns, hvalid] at hoverruns
      exact nomatch hoverruns.1
  | true =>
      cases hretrieved : call.retrieved with
      | error exception =>
          refine iff_of_true ⟨settles_of_throws _ fun _ => Iff.rfl, refuses_of_throws _ _ _⟩
            ⟨?_, fun ⟨_, _, hok, _⟩ => nomatch hok⟩
          rintro ⟨_, _, _, _, _, hok, _⟩
          cases hretrieved.symm.trans hok
      | ok addrs =>
          rw [if_neg (by decide), TCPClient.overruns_iff hvalid hretrieved]
          dsimp only
          have hattempt := attempt_attempted (call.succeeds size) process addrs
          generalize attempt (call.succeeds size) process addrs = attempted at hattempt
          cases hattempt with
          | overruns hoverruns =>
              refine iff_of_false ?_ fun hall => hall.1 hoverruns
              rintro ⟨⟨_, hended, _⟩, _⟩
              cases hended
          | fails hroom hnone hopen =>
              refine iff_of_true ?_ ⟨hroom, ?_⟩
              · rw [Option.map_some, TCPClient.keep]
                split
                · exact ⟨settles_of_throws _ hopen, refuses_of_throws _ _ _⟩
                · exact ⟨settles_of_throws _ hopen, refuses_of_throws _ _ _⟩
              · rintro ⟨_, _, hok, addr, hmem, hpasses⟩
                obtain rfl := Except.ok.inj hok
                exact absurd hpasses (hnone addr hmem)
          | passes hroom hsome hfresh hopen =>
              have hsettles := @settles_of_returns process _ client _ hfresh hopen
              rw [Option.map_some, TCPClient.keep]
              constructor
              · rintro ⟨hkept, hrefuses⟩
                refine ⟨hroom, fun _ => ⟨?_, hsettles.mp hkept⟩⟩
                by_contra hconnected
                obtain ⟨_, _, hthrows⟩ := hrefuses (Bool.eq_true_of_not_eq_false hconnected)
                cases hthrows
              · rintro ⟨_, hall⟩
                obtain ⟨hfresh', hfree⟩ := hall ⟨rfl, addrs, rfl, hsome⟩
                refine ⟨hsettles.mpr hfree, fun hconnected => ?_⟩
                rw [hfresh'] at hconnected
                cases hconnected

/-- From every state of an object, for every list of candidates and all that the system
answers: `TCPServer::connect` settles its descriptors exactly when, should a candidate be
bound, nothing fails after that and the server owned none before, and
`TCPClient::connect` settles them and refuses a client that is connected exactly when no
descriptor it waits for is beyond an `fd_set` and, should a candidate be connected to,
the client was not connected and owned none. -/
theorem connect_settles_iff (size : ℕ) (process : Process) (object : SocketInterface) :
    (∀ call, Settles process object (TCPServer.connect process object call) ↔
      (TCPServer.Call.Binds call process →
        call.setsNonBlocking = true ∧ call.listens = true ∧ ¬ Owns process object)) ∧
    ∀ call, (Settles process object (TCPClient.connect size process object call) ∧
        Refuses object (TCPClient.connect size process object call)) ↔
      ¬ TCPClient.Call.Overruns call size process ∧
        (TCPClient.Call.Connects call size process →
          object.mConnected = false ∧ ¬ Owns process object) :=
  ⟨server_settles_iff process object, client_settles_iff size process object⟩

/-- One candidate, which gets the descriptor 5, and a `listen` that fails. -/
def deaf : TCPServer.Call :=
  ⟨⟨"", false⟩, .ok [⟨some 5, true⟩], true, false⟩

/-- A connection made at once, on the descriptor `fd`. -/
def dial (fd : ℕ) : TCPClient.Call :=
  ⟨⟨"localhost", false⟩, 1000, .ok [⟨some fd, true, .connected, 0, none⟩]⟩

def disconnected : SocketInterface :=
  ⟨false, none⟩

/-- A process that has opened these descriptors, one after another. -/
def opened (fds : List ℕ) : Process :=
  fds.foldl (fun process fd => ((process.socket (some fd)).map Prod.snd).getD process) .empty

/-- The server throws and the descriptor 5 stays open; a client that is connected on 5
connects again, to 6, and 5 stays open. -/
theorem not_settles_deaf :
    TCPServer.connect .empty disconnected deaf =
        some (.throws .listenFailed, disconnected, opened [5]) ∧
      (opened [5]).table.Open ⟨5, 0⟩ ∧
      ¬ Settles .empty disconnected (TCPServer.connect .empty disconnected deaf) ∧
      TCPClient.connect 1024 .empty disconnected (dial 5) =
        some (.returns, ⟨true, some ⟨5, 0⟩⟩, opened [5]) ∧
      TCPClient.connect 1024 (opened [5]) ⟨true, some ⟨5, 0⟩⟩ (dial 6) =
        some (.returns, ⟨true, some ⟨6, 1⟩⟩, opened [5, 6]) ∧
      (opened [5, 6]).table.Open ⟨5, 0⟩ ∧
      ¬ Settles (opened [5]) ⟨true, some ⟨5, 0⟩⟩
        (TCPClient.connect 1024 (opened [5]) ⟨true, some ⟨5, 0⟩⟩ (dial 6)) ∧
      ¬ Refuses ⟨true, some ⟨5, 0⟩⟩
        (TCPClient.connect 1024 (opened [5]) ⟨true, some ⟨5, 0⟩⟩ (dial 6)) := by
  have hserver : TCPServer.connect .empty disconnected deaf =
      some (.throws .listenFailed, disconnected, opened [5]) := rfl
  have hclient : TCPClient.connect 1024 (opened [5]) ⟨true, some ⟨5, 0⟩⟩ (dial 6) =
      some (.returns, ⟨true, some ⟨6, 1⟩⟩, opened [5, 6]) := rfl
  rw [hserver, hclient]
  refine ⟨rfl, by decide, ?_, rfl, rfl, by decide, ?_, ?_⟩
  · rintro ⟨_, hended, haccounts⟩
    obtain rfl := Option.some.inj hended
    exact absurd ((haccounts.hthrows .listenFailed rfl).2 ⟨5, 0⟩ (by decide)) (by decide)
  · rintro ⟨_, hended, haccounts⟩
    obtain rfl := Option.some.inj hended
    obtain ⟨fd, hfd, _, hall⟩ := haccounts.hreturns rfl
    have hsame := hall ⟨5, 0⟩ (by decide) (.inr rfl)
    rw [← hsame] at hfd
    revert hfd
    decide
  · intro hrefuses
    obtain ⟨_, _, hthrows⟩ := hrefuses rfl
    cases hthrows

end Sednl.Connect
