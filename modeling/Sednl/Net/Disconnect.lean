import Sednl.Library.Transition
import Sednl.Net.Connections

/-!
# Disconnect events

The two ways a connection is closed, `close_connection` in the thread of the
listener and `Connection::disconnect` in any thread, with the end of
`run_imp`.  Both push onto `m_disconnected_queue`, and nothing records that a
session is over, so the number of pushes depends on who comes first.
`disconnect` holds the mutex of the connection; `close_connection` takes it
twice.  No lock guards `m_internal_connections`: the listener searches and
changes it, and without attached connections so does `disconnect` in any thread.
What comes of a change of the map while another thread is in it is not defined.
-/

namespace Sednl.Disconnect

open Sednl.Connections (findAttached findInternal)
open Sednl.Transition

/-- Where the listener thread stands: outside, in the map for `get_connection`,
for the search of `close_connection` or for the `emplace` of
`accept_connections`, past the search with the connection it found, past
`safe_disconnect`, or at the end of `run_imp` before the map is cleared. -/
inductive Closing where
  | idle
  | looking
  | searching (fd : ℕ)
  | storing (cn fd : ℕ)
  | found (cn : ℕ)
  | closed (cn : ℕ)
  | clearing
  deriving DecidableEq, Repr

/-- The listener thread is in `m_internal_connections`. -/
def Closing.inMap : Closing → Bool
  | .looking | .searching _ | .storing _ _ => true
  | _ => false

/-- A listener with its connections, each named by a number.  `mFd` is `m_fd`,
`none` being -1, and says with it whether the connection is connected; `telling`
are the connections whose `disconnect` is in the map, in as many threads.  The
last three fields are a record: the connections ever accepted, one entry for
each push onto `m_disconnected_queue` and one for each session that ended. -/
structure State where
  mConnections : List ℕ
  mInternalConnections : List (ℕ × ℕ)
  mFd : ℕ → Option ℕ
  closing : Closing
  telling : List ℕ
  mRunning : Bool
  accepted : List ℕ
  pushed : List ℕ
  ended : List ℕ

namespace State

def unsafeDisconnect (state : State) (cn : ℕ) : State :=
  if (state.mFd cn).isSome then
    { state with
      mFd := Function.update state.mFd cn none
      ended := state.ended ++ [cn] }
  else state

/-- `disconnected_event`, below the bound of the queue. -/
def disconnectedEvent (state : State) (cn : ℕ) : State :=
  { state with pushed := state.pushed ++ [cn] }

def tellDisconnected (state : State) (cn : ℕ) : State :=
  match Connections.tellDisconnected state.mConnections state.mInternalConnections cn with
  | some entries => { state with mInternalConnections := entries }.disconnectedEvent cn
  | none => state

/-- `Connection::disconnect`, on a connection of this listener. -/
def disconnect (state : State) (cn : ℕ) : State :=
  (state.tellDisconnected cn).unsafeDisconnect cn

/-- Another thread than the one that disconnects `cn` is in the map. -/
def Shares (state : State) (cn : ℕ) : Prop :=
  state.closing.inMap = true ∨ state.telling.erase cn ≠ []

instance (state : State) (cn : ℕ) : Decidable (state.Shares cn) :=
  inferInstanceAs (Decidable (_ ∨ _))

/-- `Connection::disconnect` from its access to the map on. -/
def endDisconnect (state undefined : State) (cn : ℕ) : State :=
  if state.mConnections = [] ∧ cn ∈ state.mInternalConnections.map Prod.snd ∧
      state.Shares cn then undefined
  else { state.disconnect cn with telling := state.telling.erase cn }

/-- The search of `close_connection` among the attached connections. -/
def findConnection (state : State) (fd : ℕ) : State :=
  match findAttached state.mConnections state.mFd fd with
  | some cn => { state with closing := .found cn }
  | none => { state with closing := .searching fd }

/-- Its search of the map, and the `erase` of what it finds there. -/
def eraseConnection (state undefined : State) (fd : ℕ) : State :=
  match findInternal state.mInternalConnections fd with
  | some cn =>
      if state.telling = [] then
        { state with
          closing := .found cn
          mInternalConnections := state.mInternalConnections.filter (·.1 ≠ fd) }
      else undefined
  | none => { state with closing := .idle }

/-- The end of `accept_connections`, once `accept` has returned `fd`.  A
connection that the map does not take is destroyed on the way out. -/
def acceptConnection (state : State) (cn fd : ℕ) : State :=
  let state := { state with
    mFd := Function.update state.mFd cn (some fd)
    accepted := state.accepted ++ [cn] }
  if state.mInternalConnections.any (·.1 == fd) then state.unsafeDisconnect cn
  else { state with mInternalConnections := state.mInternalConnections ++ [(fd, cn)] }

/-- The `emplace` of `accept_connections` and what follows. -/
def storeConnection (state undefined : State) (cn fd : ℕ) : State :=
  if state.telling = [] then { state with closing := .idle }.acceptConnection cn fd
  else undefined

/-- The loop at the end of `run_imp`: `disconnect` on each internal connection.
Without attached connections each call erases the entry the loop stands on, and
what happens next is not defined. -/
def shutDown (state undefined : State) : State :=
  if state.mInternalConnections = [] ∨ state.mConnections ≠ [] then
    { (state.mInternalConnections.map Prod.snd).foldl disconnect state with
      closing := .clearing
      mRunning := false }
  else undefined

def clear (state undefined : State) : State :=
  if state.telling = [] then { state with mInternalConnections := [], closing := .idle }
  else undefined

end State

inductive Action where
  /-- A thread calls `disconnect` on an accepted connection, and its search of
  the map begins. -/
  | tell (cn : ℕ)
  /-- That `disconnect` goes on to its end; on an attached connection, or beside
  one, this is the whole call. -/
  | disconnect (cn : ℕ) (undefined : State)
  /-- The search of `get_connection` begins, and it ends. -/
  | getConnection
  | gotConnection
  /-- A poll event or a failed `recv` makes the listener close a descriptor. -/
  | closeConnection (fd : ℕ)
  | eraseConnection (undefined : State)
  | safeDisconnect
  | pushDisconnected
  /-- `accept` has returned `fd`, and the map is to take the connection. -/
  | accept (cn fd : ℕ)
  | storeConnection (undefined : State)
  /-- An attached client that is not connected connects again. -/
  | connect (cn fd : ℕ)
  | shutDown (undefined : State)
  | clear (undefined : State)

/-- A descriptor that the kernel may give to a new socket. -/
def State.Unused (state : State) (fd : ℕ) : Prop :=
  ∀ cn ∈ state.mConnections ++ state.accepted, state.mFd cn ≠ some fd

instance (state : State) (fd : ℕ) : Decidable (state.Unused fd) :=
  inferInstanceAs (Decidable (∀ cn ∈ state.mConnections ++ state.accepted, _))

/-- The descriptor of a connection that the map is to take. -/
def Closing.stores : Closing → Option ℕ
  | .storing _ fd => some fd
  | _ => none

/-- The steps of the listener and of the threads that disconnect. -/
def step (state : State) : Action → Option State
  | .tell cn =>
      if state.mConnections = [] ∧ cn ∈ state.accepted ∧ cn ∉ state.telling then
        some { state with telling := cn :: state.telling }
      else none
  | .disconnect cn undefined =>
      if cn ∈ state.mConnections ++ state.accepted ∧
          (state.mConnections = [] → cn ∈ state.telling) then
        some (state.endDisconnect undefined cn)
      else none
  | .getConnection =>
      if state.mRunning ∧ state.closing = .idle then some { state with closing := .looking }
      else none
  | .gotConnection =>
      if state.closing = .looking then some { state with closing := .idle } else none
  | .closeConnection fd =>
      if state.mRunning ∧ state.closing = .idle then some (state.findConnection fd) else none
  | .eraseConnection undefined =>
      match state.closing with
      | .searching fd => some (state.eraseConnection undefined fd)
      | _ => none
  | .safeDisconnect =>
      match state.closing with
      | .found cn =>
          if cn ∈ state.telling then none
          else some { state.unsafeDisconnect cn with closing := .closed cn }
      | _ => none
  | .pushDisconnected =>
      match state.closing with
      | .closed cn =>
          if cn ∈ state.telling then none
          else some { state.disconnectedEvent cn with closing := .idle }
      | _ => none
  | .accept cn fd =>
      if state.mRunning ∧ state.closing = .idle ∧
          cn ∉ state.mConnections ++ state.accepted ∧ state.Unused fd then
        some { state with closing := .storing cn fd }
      else none
  | .storeConnection undefined =>
      match state.closing with
      | .storing cn fd => some (state.storeConnection undefined cn fd)
      | _ => none
  | .connect cn fd =>
      if cn ∈ state.mConnections ∧ state.mFd cn = none ∧ state.Unused fd ∧
          state.closing.stores ≠ some fd then
        some { state with mFd := Function.update state.mFd cn (some fd) }
      else none
  | .shutDown undefined =>
      if state.mRunning ∧ state.closing = .idle then some (state.shutDown undefined)
      else none
  | .clear undefined =>
      if state.closing = .clearing then some (state.clear undefined) else none

/-- A listener that has just been started, with some clients attached. -/
def State.start (mConnections : List ℕ) (mFd : ℕ → Option ℕ) : State where
  mConnections := mConnections
  mInternalConnections := []
  mFd := mFd
  closing := .idle
  telling := []
  mRunning := true
  accepted := []
  pushed := []
  ended := []

/-- The pushes for `cn` still to come: `close_connection` is on its way to one,
and the session it is for has ended. -/
def State.owed (state : State) (cn : ℕ) : ℕ :=
  match state.closing with
  | .found closing => if closing = cn ∧ state.mFd cn = none then 1 else 0
  | .closed closing => if closing = cn then 1 else 0
  | _ => 0

/-- Each session that ended has caused one push, or is about to; a session
still open has caused none. -/
def State.OnePush (state : State) : Prop :=
  ∀ cn, state.pushed.count cn + state.owed cn = state.ended.count cn

/-- When a step is safe: an attached connection is disconnected while it is
connected and `close_connection` does not hold it, an accepted one when nothing
is attached or it has left the map; the map is changed while no other thread is
in it; and the listener stops with an empty map. -/
def Safe (state : State) : Action → Prop
  | .disconnect cn _ =>
      if cn ∈ state.mConnections then
        (state.mFd cn).isSome ∧ state.closing ≠ .found cn
      else cn ∈ state.mInternalConnections.map Prod.snd →
        state.mConnections = [] ∧ ¬ state.Shares cn
  | .eraseConnection _ =>
      state.telling = [] ∨ ∀ entry ∈ state.mInternalConnections,
        state.closing ≠ .searching entry.1
  | .storeConnection _ => state.telling = []
  | .shutDown _ => state.mInternalConnections = []
  | .clear _ => state.telling = []
  | _ => True

instance (state : State) : (action : Action) → Decidable (Safe state action)
  | .disconnect cn _ =>
      inferInstanceAs (Decidable (if cn ∈ state.mConnections then _ ∧ _ else _ → _ ∧ ¬ _))
  | .eraseConnection _ =>
      inferInstanceAs (Decidable (_ ∨ ∀ entry ∈ state.mInternalConnections, _))
  | .storeConnection _ => inferInstanceAs (Decidable (state.telling = []))
  | .shutDown _ => inferInstanceAs (Decidable (state.mInternalConnections = []))
  | .clear _ => inferInstanceAs (Decidable (state.telling = []))
  | .tell _ => .isTrue trivial
  | .getConnection => .isTrue trivial
  | .gotConnection => .isTrue trivial
  | .closeConnection _ => .isTrue trivial
  | .safeDisconnect => .isTrue trivial
  | .pushDisconnected => .isTrue trivial
  | .accept _ _ => .isTrue trivial
  | .connect _ _ => .isTrue trivial

/-! ## What the pieces do -/

namespace State

variable {state : State} {cn other : ℕ}

theorem unsafeDisconnect_of_none (hfd : state.mFd cn = none) :
    state.unsafeDisconnect cn = state := by
  rw [unsafeDisconnect, hfd]
  rfl

theorem unsafeDisconnect_of_some (hfd : state.mFd cn ≠ none) :
    state.unsafeDisconnect cn = { state with
      mFd := Function.update state.mFd cn none
      ended := state.ended ++ [cn] } := by
  rw [unsafeDisconnect, if_pos (Option.isSome_iff_ne_none.mpr hfd)]

theorem tellDisconnected_of_attached (hattached : cn ∈ state.mConnections) :
    state.tellDisconnected cn = { state with pushed := state.pushed ++ [cn] } := by
  rw [tellDisconnected, Connections.tellDisconnected_of_attached hattached]
  rfl

theorem tellDisconnected_of_internal (hnone : state.mConnections = [])
    (hinternal : cn ∈ state.mInternalConnections.map Prod.snd) :
    state.tellDisconnected cn = { state with
      mInternalConnections := state.mInternalConnections.filter (·.2 ≠ cn)
      pushed := state.pushed ++ [cn] } := by
  rw [tellDisconnected, Connections.tellDisconnected_of_internal hnone hinternal]
  rfl

/-- Nobody is told of a connection that is neither attached nor in the map. -/
theorem tellDisconnected_of_gone (hattached : cn ∉ state.mConnections)
    (hinternal : cn ∉ state.mInternalConnections.map Prod.snd) :
    state.tellDisconnected cn = state := by
  rw [tellDisconnected, Connections.tellDisconnected_of_gone hattached hinternal]

end State

/-! ## The invariant -/

/-- Every open accepted connection is in the map, under its descriptor, or in
the hands of `close_connection`; never both, and never attached.  What the map is
to take is new to it. -/
structure Kept (state : State) : Prop where
  hinternal : ∀ entry ∈ state.mInternalConnections,
    state.mFd entry.2 = some entry.1 ∧ entry.2 ∈ state.accepted
  hkeys : ∀ entry ∈ state.mInternalConnections, ∀ other ∈ state.mInternalConnections,
    entry.1 = other.1 → entry = other
  haccepted : ∀ cn ∈ state.accepted, cn ∉ state.mConnections
  hopen : ∀ cn ∈ state.accepted, state.mFd cn ≠ none →
    cn ∈ state.mInternalConnections.map Prod.snd ∨ state.closing = .found cn
  hclosing : ∀ cn, state.closing = .found cn →
    cn ∉ state.mInternalConnections.map Prod.snd ∧
      (cn ∈ state.mConnections → state.mFd cn ≠ none)
  hstoring : ∀ cn fd, state.closing = .storing cn fd →
    cn ∉ state.mConnections ++ state.accepted ∧ state.Unused fd
  hclearing : state.closing = .clearing → state.mInternalConnections = []
  honePush : state.OnePush

theorem kept_start (mConnections : List ℕ) (mFd : ℕ → Option ℕ) :
    Kept (.start mConnections mFd) where
  hinternal := by simp [State.start]
  hkeys := by simp [State.start]
  haccepted := by simp [State.start]
  hopen := by simp [State.start]
  hclosing := by simp [State.start]
  hstoring := by simp [State.start]
  hclearing := by simp [State.start]
  honePush := by simp [State.OnePush, State.start, State.owed]

/-- What is owed changes only with the descriptor of the connection found. -/
theorem owed_update {state : State} {cn : ℕ} (hclosing : state.closing ≠ .found cn)
    (fd : Option ℕ) :
    { state with mFd := Function.update state.mFd cn fd }.owed = state.owed := by
  funext other
  simp only [State.owed]
  cases hstage : state.closing with
  | found closing =>
      have hne : closing ≠ cn := fun h => hclosing (h ▸ hstage)
      by_cases hother : closing = other
      · subst hother
        simp [Function.update_of_ne hne]
      · simp [hother]
  | _ => rfl

/-- No connection is in the hands of `close_connection`. -/
def Closing.Free (closing : Closing) : Prop :=
  ∀ cn, closing ≠ .found cn ∧ closing ≠ .closed cn

theorem owed_of_free {state : State} (hfree : state.closing.Free) (cn : ℕ) :
    state.owed cn = 0 := by
  rw [State.owed]
  split
  · rename_i closing hfound
    exact absurd hfound (hfree closing).1
  · rename_i closing hclosed
    exact absurd hclosed (hfree closing).2
  · rfl

/-- A descriptor stays unused when a socket is closed. -/
theorem State.Unused.update {state next : State} {cn fd : ℕ} (hunused : state.Unused fd)
    (hconnections : next.mConnections = state.mConnections)
    (haccepted : next.accepted = state.accepted)
    (hfd : next.mFd = Function.update state.mFd cn none) : next.Unused fd := by
  intro other hother
  rw [hconnections, haccepted] at hother
  rw [hfd]
  by_cases hsame : other = cn
  · rw [hsame, Function.update_self]
    exact nofun
  · rw [Function.update_of_ne hsame]
    exact hunused other hother

section Steps

variable {state : State} {cn : ℕ} (hkept : Kept state)

include hkept

theorem Kept.map_snd_accepted (hmem : cn ∈ state.mInternalConnections.map Prod.snd) :
    cn ∈ state.accepted ∧ state.mFd cn ≠ none := by
  obtain ⟨entry, hentry, rfl⟩ := List.mem_map.mp hmem
  obtain ⟨hfd, haccepted⟩ := hkept.hinternal entry hentry
  exact ⟨haccepted, by simp [hfd]⟩

/-- The session of `cn` ends: its socket is closed, and it leaves the map. -/
theorem Kept.of_close {next : State} (hconnections : next.mConnections = state.mConnections)
    (haccepted : next.accepted = state.accepted)
    (hfd : next.mFd = Function.update state.mFd cn none)
    (hinternal : ∀ entry, entry ∈ next.mInternalConnections ↔
      entry ∈ state.mInternalConnections ∧ entry.2 ≠ cn)
    (hclosing : next.closing = state.closing ∧
        (state.closing = .found cn → cn ∉ state.mConnections) ∨
      next.closing = .closed cn ∧ state.closing = .found cn)
    (hpush : next.OnePush) : Kept next := by
  refine ⟨fun entry hentry => ?_, fun entry hentry other hother => ?_,
    fun other hother => ?_, fun other hother hopen => ?_,
    fun other hfound => ?_, fun other fd hstoring => ?_, fun hclearing => ?_, hpush⟩
  · obtain ⟨hentry, hne⟩ := (hinternal entry).mp hentry
    rw [hfd, haccepted, Function.update_of_ne hne]
    exact hkept.hinternal entry hentry
  · exact hkept.hkeys entry ((hinternal entry).mp hentry).1 other ((hinternal other).mp hother).1
  · rw [haccepted] at hother
    rw [hconnections]
    exact hkept.haccepted other hother
  · have hne : other ≠ cn := by
      rintro rfl
      simp [hfd] at hopen
    rw [hfd, Function.update_of_ne hne] at hopen
    rw [haccepted] at hother
    rcases hkept.hopen other hother hopen with hmem | hfound
    · obtain ⟨entry, hentry, rfl⟩ := List.mem_map.mp hmem
      exact .inl (List.mem_map_of_mem ((hinternal entry).mpr ⟨hentry, hne⟩))
    · rcases hclosing with ⟨hsame, _⟩ | ⟨_, hclosing⟩
      · exact .inr (hsame.trans hfound)
      · rw [hfound] at hclosing
        exact absurd (Closing.found.inj hclosing) hne
  · rcases hclosing with ⟨hsame, hattached⟩ | ⟨hclosed, _⟩
    · rw [hsame] at hfound
      obtain ⟨hgone, hconnected⟩ := hkept.hclosing other hfound
      refine ⟨fun hmem => hgone ?_, fun hmem => ?_⟩
      · obtain ⟨entry, hentry, rfl⟩ := List.mem_map.mp hmem
        exact List.mem_map_of_mem ((hinternal entry).mp hentry).1
      · rw [hconnections] at hmem
        have hne : other ≠ cn := by
          rintro rfl
          exact hattached hfound hmem
        rw [hfd, Function.update_of_ne hne]
        exact hconnected hmem
    · rw [hclosed] at hfound
      simp at hfound
  · rcases hclosing with ⟨hsame, _⟩ | ⟨hclosed, _⟩
    · obtain ⟨hfresh, hunused⟩ := hkept.hstoring other fd (hsame ▸ hstoring)
      exact ⟨by rwa [hconnections, haccepted], hunused.update hconnections haccepted hfd⟩
    · rw [hclosed] at hstoring
      cases hstoring
  · rcases hclosing with ⟨hsame, _⟩ | ⟨hclosed, _⟩
    · have hempty := hkept.hclearing (hsame ▸ hclearing)
      refine List.eq_nil_iff_forall_not_mem.mpr fun entry hentry => ?_
      have hmem := ((hinternal entry).mp hentry).1
      rw [hempty] at hmem
      exact List.not_mem_nil hmem
    · rw [hclosed] at hclearing
      cases hclearing

/-- The thread that was in the map is no longer there, or one more is. -/
theorem Kept.tell (telling : List ℕ) : Kept { state with telling := telling } := by
  obtain ⟨hinternal, hkeys, haccepted, hopen, hclosing, hstoring, hclearing, honePush⟩ :=
    hkept
  exact ⟨hinternal, hkeys, haccepted, hopen, hclosing, hstoring, hclearing, honePush⟩

theorem Kept.stop : Kept { state with mRunning := false } := by
  obtain ⟨hinternal, hkeys, haccepted, hopen, hclosing, hstoring, hclearing, honePush⟩ :=
    hkept
  exact ⟨hinternal, hkeys, haccepted, hopen, hclosing, hstoring, hclearing, honePush⟩

/-- An attached connection that is connected, and not being closed already. -/
theorem Kept.disconnect_attached (hattached : cn ∈ state.mConnections)
    (hfd : state.mFd cn ≠ none) (hclosing : state.closing ≠ .found cn) :
    Kept (state.disconnect cn) := by
  have hinternal : cn ∉ state.mInternalConnections.map Prod.snd := fun hmem =>
    hkept.haccepted cn (hkept.map_snd_accepted hmem).1 hattached
  rw [State.disconnect, State.tellDisconnected_of_attached hattached,
    State.unsafeDisconnect_of_some (by exact hfd)]
  refine hkept.of_close rfl rfl rfl (fun entry => ?_)
    (.inl ⟨rfl, fun h => absurd h hclosing⟩) fun other => ?_
  · refine (and_iff_left_of_imp fun hentry heq => hinternal ?_).symm
    exact heq ▸ List.mem_map_of_mem hentry
  · have howed := congrFun (owed_update hclosing none) other
    have hpush := hkept.honePush other
    simp only [State.owed] at howed hpush
    simp only [State.owed, List.count_append, howed]
    omega

/-- An accepted connection in the map, when nothing is attached. -/
theorem Kept.disconnect_internal (hnone : state.mConnections = [])
    (hinternal : cn ∈ state.mInternalConnections.map Prod.snd) :
    Kept (state.disconnect cn) := by
  obtain ⟨_, hfd⟩ := hkept.map_snd_accepted hinternal
  have hclosing : state.closing ≠ .found cn := fun h => (hkept.hclosing cn h).1 hinternal
  rw [State.disconnect, State.tellDisconnected_of_internal hnone hinternal,
    State.unsafeDisconnect_of_some (by exact hfd)]
  refine hkept.of_close rfl rfl rfl (fun entry => ?_)
    (.inl ⟨rfl, fun h => absurd h hclosing⟩) fun other => ?_
  · simp only [List.mem_filter, decide_eq_true_eq]
  · have howed := congrFun (owed_update hclosing none) other
    have hpush := hkept.honePush other
    simp only [State.owed] at howed hpush
    simp only [State.owed, List.count_append, howed]
    omega

/-- An accepted connection that has left the map: only its socket is closed,
and if it was still open `close_connection` is about to push. -/
theorem Kept.disconnect_gone (haccepted : cn ∈ state.accepted)
    (hinternal : cn ∉ state.mInternalConnections.map Prod.snd) :
    Kept (state.disconnect cn) := by
  have hattached := hkept.haccepted cn haccepted
  rw [State.disconnect, State.tellDisconnected_of_gone hattached hinternal]
  by_cases hfd : state.mFd cn = none
  · rwa [State.unsafeDisconnect_of_none hfd]
  · have hclosing : state.closing = .found cn :=
      (hkept.hopen cn haccepted hfd).resolve_left hinternal
    rw [State.unsafeDisconnect_of_some hfd]
    refine hkept.of_close rfl rfl rfl (fun entry => ?_) (.inl ⟨rfl, fun _ => hattached⟩)
      fun other => ?_
    · refine (and_iff_left_of_imp fun hentry heq => hinternal ?_).symm
      exact heq ▸ List.mem_map_of_mem hentry
    · have hpush := hkept.honePush other
      simp only [State.owed, hclosing] at hpush
      simp only [State.owed, hclosing, List.count_append, List.count_singleton]
      by_cases hsame : cn = other
      · subst hsame
        simpa [hfd] using hpush
      · simpa [hsame] using hpush

theorem Kept.safeDisconnect (hclosing : state.closing = .found cn) :
    Kept { state.unsafeDisconnect cn with closing := .closed cn } := by
  obtain ⟨hinternal, _⟩ := hkept.hclosing cn hclosing
  have hpush := hkept.honePush
  simp only [State.OnePush, State.owed, hclosing] at hpush
  by_cases hfd : state.mFd cn = none
  · have hupdate : Function.update state.mFd cn none = state.mFd :=
      Function.update_eq_self_iff.mpr hfd.symm
    rw [State.unsafeDisconnect_of_none hfd]
    refine hkept.of_close rfl rfl hupdate.symm (fun entry => ?_) (.inr ⟨rfl, hclosing⟩)
      fun other => ?_
    · refine (and_iff_left_of_imp fun hentry heq => hinternal ?_).symm
      exact heq ▸ List.mem_map_of_mem hentry
    · have hother := hpush other
      simp only [State.owed]
      by_cases hsame : cn = other
      · subst hsame
        simpa [hfd] using hother
      · simpa [hsame] using hother
  · rw [State.unsafeDisconnect_of_some hfd]
    refine hkept.of_close rfl rfl rfl (fun entry => ?_) (.inr ⟨rfl, hclosing⟩)
      fun other => ?_
    · refine (and_iff_left_of_imp fun hentry heq => hinternal ?_).symm
      exact heq ▸ List.mem_map_of_mem hentry
    · have hother := hpush other
      simp only [State.owed, List.count_append, List.count_singleton]
      by_cases hsame : cn = other
      · subst hsame
        simpa [hfd] using hother
      · simpa [hsame] using hother

theorem Kept.pushDisconnected (hclosing : state.closing = .closed cn) :
    Kept { state.disconnectedEvent cn with closing := .idle } := by
  refine ⟨hkept.hinternal, hkept.hkeys, hkept.haccepted, fun other hother hopen => ?_,
    fun other hfound => by simp at hfound, fun other fd hstoring => by simp at hstoring,
    fun hclearing => by simp at hclearing, fun other => ?_⟩
  · refine (hkept.hopen other hother hopen).imp_right fun hfound => ?_
    rw [hclosing] at hfound
    simp at hfound
  · have hpush := hkept.honePush other
    simp only [State.owed, hclosing] at hpush
    simp only [State.owed, State.disconnectedEvent, List.count_append, List.count_singleton,
      beq_iff_eq]
    omega

section Free

variable (hfree : state.closing.Free)

include hfree

theorem Kept.count_eq (other : ℕ) : state.pushed.count other = state.ended.count other := by
  have hpush := hkept.honePush other
  rwa [owed_of_free hfree, Nat.add_zero] at hpush

theorem Kept.mem_map (other : ℕ) (hother : other ∈ state.accepted)
    (hfd : state.mFd other ≠ none) : other ∈ state.mInternalConnections.map Prod.snd :=
  (hkept.hopen other hother hfd).resolve_right (hfree other).1

/-- The listener goes elsewhere, with no connection in its hands. -/
theorem Kept.goOn {stage : Closing} (hstage : stage.Free)
    (hstoring : ∀ cn fd, stage = .storing cn fd →
      cn ∉ state.mConnections ++ state.accepted ∧ state.Unused fd)
    (hclearing : stage = .clearing → state.mInternalConnections = []) :
    Kept { state with closing := stage } := by
  refine ⟨hkept.hinternal, hkept.hkeys, hkept.haccepted, fun other hother hopen => ?_,
    fun other hfound => absurd hfound (hstage other).1, hstoring, hclearing, fun other => ?_⟩
  · exact .inl (hkept.mem_map hfree other hother hopen)
  · rw [@owed_of_free { state with closing := stage } hstage]
    exact hkept.count_eq hfree other

/-- `close_connection` takes an open connection, and out of the map. -/
theorem Kept.of_found {next : State} (hconnections : next.mConnections = state.mConnections)
    (haccepted : next.accepted = state.accepted) (hfd : next.mFd = state.mFd)
    (hpushed : next.pushed = state.pushed) (hended : next.ended = state.ended)
    (hopen : state.mFd cn ≠ none) (hfound : next.closing = .found cn)
    (hinternal : ∀ entry, entry ∈ next.mInternalConnections ↔
      entry ∈ state.mInternalConnections ∧ entry.2 ≠ cn) : Kept next := by
  refine ⟨fun entry hentry => ?_, fun entry hentry other hother => ?_,
    fun other hother => ?_, fun other hother hother' => ?_, fun other hother => ?_,
    fun other fd hstoring => ?_, fun hclearing => ?_, fun other => ?_⟩
  · rw [hfd, haccepted]
    exact hkept.hinternal entry ((hinternal entry).mp hentry).1
  · exact hkept.hkeys entry ((hinternal entry).mp hentry).1 other ((hinternal other).mp hother).1
  · rw [haccepted] at hother
    rw [hconnections]
    exact hkept.haccepted other hother
  · rw [haccepted] at hother
    rw [hfd] at hother'
    by_cases hsame : other = cn
    · exact .inr (hsame ▸ hfound)
    · obtain ⟨entry, hentry, rfl⟩ := List.mem_map.mp (hkept.mem_map hfree other hother hother')
      exact .inl (List.mem_map_of_mem ((hinternal entry).mpr ⟨hentry, hsame⟩))
  · obtain rfl : cn = other := Closing.found.inj (hfound.symm.trans hother)
    refine ⟨fun hmem => ?_, fun _ => by rwa [hfd]⟩
    obtain ⟨entry, hentry, heq⟩ := List.mem_map.mp hmem
    exact ((hinternal entry).mp hentry).2 heq
  · rw [hfound] at hstoring
    cases hstoring
  · rw [hfound] at hclearing
    cases hclearing
  · have hcount := hkept.count_eq hfree other
    have howed : next.owed other = 0 := by
      rw [State.owed, hfound, hfd]
      refine if_neg ?_
      rintro ⟨rfl, hnone⟩
      exact hopen hnone
    rw [hpushed, hended, howed, hcount, Nat.add_zero]

theorem Kept.findConnection (fd : ℕ) : Kept (state.findConnection fd) := by
  rw [State.findConnection]
  split
  · rename_i cn hattached
    obtain ⟨hmem, hfd⟩ := Connections.mem_of_findAttached hattached
    refine hkept.of_found hfree rfl rfl rfl rfl rfl (by simp [hfd]) rfl fun entry => ?_
    refine (and_iff_left_of_imp fun hentry heq => ?_).symm
    exact hkept.haccepted cn (heq ▸ (hkept.hinternal entry hentry).2) hmem
  · exact hkept.goOn hfree (fun _ => ⟨nofun, nofun⟩) nofun nofun

/-- The map gives an entry, and nobody else is in it. -/
theorem Kept.eraseConnection {fd : ℕ} (undefined : State)
    (halone : fd ∈ state.mInternalConnections.map Prod.fst → state.telling = []) :
    Kept (state.eraseConnection undefined fd) := by
  rw [State.eraseConnection]
  split
  · rename_i cn hinternal
    have hmem := Connections.mem_of_findInternal hinternal
    rw [if_pos (halone (List.mem_map_of_mem hmem))]
    obtain ⟨hfd, haccepted⟩ := hkept.hinternal (fd, cn) hmem
    refine hkept.of_found hfree rfl rfl rfl rfl rfl (by simp [hfd]) rfl fun entry => ?_
    simp only [List.mem_filter, decide_eq_true_eq]
    -- the entries under this descriptor are those of this connection
    refine and_congr_right fun hentry => not_congr ?_
    constructor
    · exact fun heq => congrArg Prod.snd (hkept.hkeys entry hentry _ hmem heq)
    · intro heq
      have hentryFd := (hkept.hinternal entry hentry).1
      rw [heq] at hentryFd
      exact Option.some.inj (hentryFd.symm.trans hfd)
  · exact hkept.goOn hfree (fun _ => ⟨nofun, nofun⟩) nofun nofun

theorem Kept.acceptConnection {fd : ℕ}
    (hidle : state.closing = .idle)
    (hfresh : cn ∉ state.mConnections ++ state.accepted) (hunused : state.Unused fd) :
    Kept (state.acceptConnection cn fd) := by
  obtain ⟨hattached, haccepted⟩ := not_or.mp (mt List.mem_append.mpr hfresh)
  have hkey : ∀ entry ∈ state.mInternalConnections, entry.1 ≠ fd := by
    rintro entry hentry rfl
    obtain ⟨hfd, hmem⟩ := hkept.hinternal entry hentry
    exact hunused entry.2 (List.mem_append_right _ hmem) hfd
  have hany : ¬ state.mInternalConnections.any (·.1 == fd) = true := by
    intro h
    obtain ⟨entry, hentry, heq⟩ := List.any_eq_true.mp h
    exact hkey entry hentry (by simpa using heq)
  rw [State.acceptConnection, if_neg hany]
  refine ⟨fun entry hentry => ?_, fun entry hentry other hother heq => ?_,
    fun other hother => ?_, fun other hother hopen => ?_, fun other hfound => ?_,
    fun other key hstoring => ?_, fun hclearing => ?_, fun other => ?_⟩
  · rcases List.mem_append.mp hentry with hentry | hentry
    · obtain ⟨hfd, hmem⟩ := hkept.hinternal entry hentry
      have hne : entry.2 ≠ cn := fun h => haccepted (h ▸ hmem)
      exact ⟨(Function.update_of_ne hne _ _).trans hfd, List.mem_append_left _ hmem⟩
    · obtain rfl := List.mem_singleton.mp hentry
      exact ⟨Function.update_self _ _ _, List.mem_append_right _ (List.mem_singleton_self cn)⟩
  · rcases List.mem_append.mp hentry with hentry | hentry <;>
      rcases List.mem_append.mp hother with hother | hother
    · exact hkept.hkeys entry hentry other hother heq
    · exact absurd (heq.trans (by rw [List.mem_singleton.mp hother])) (hkey entry hentry)
    · exact absurd (heq.symm.trans (by rw [List.mem_singleton.mp hentry])) (hkey other hother)
    · rw [List.mem_singleton.mp hentry, List.mem_singleton.mp hother]
  · rcases List.mem_append.mp hother with hother | hother
    · exact hkept.haccepted other hother
    · rwa [List.mem_singleton.mp hother]
  · rw [List.map_append]
    by_cases hsame : other = cn
    · exact .inl (List.mem_append_right _ (by rw [hsame]; exact List.mem_singleton_self cn))
    · have hmem := (List.mem_append.mp hother).resolve_right fun h =>
        hsame (List.mem_singleton.mp h)
      have hfd : state.mFd other ≠ none := by
        rwa [← Function.update_of_ne hsame (some fd) state.mFd]
      exact .inl (List.mem_append_left _ (hkept.mem_map hfree other hmem hfd))
  · exact absurd hfound (hfree other).1
  · exact nomatch hidle.symm.trans hstoring
  · exact nomatch hidle.symm.trans hclearing
  · refine (congrArg _ (owed_of_free ?_ other)).trans (hkept.count_eq hfree other)
    exact hfree

end Free

/-- The map takes a connection, and nobody else is in it. -/
theorem Kept.storeConnection {fd : ℕ} (undefined : State)
    (hclosing : state.closing = .storing cn fd) (halone : state.telling = []) :
    Kept (state.storeConnection undefined cn fd) := by
  obtain ⟨hfresh, hunused⟩ := hkept.hstoring cn fd hclosing
  have hfree : state.closing.Free := by
    rw [hclosing]
    exact fun _ => ⟨nofun, nofun⟩
  have hidle : Kept { state with closing := .idle } :=
    hkept.goOn hfree (fun _ => ⟨nofun, nofun⟩) nofun nofun
  rw [State.storeConnection, if_pos halone]
  exact hidle.acceptConnection (fun _ => ⟨nofun, nofun⟩) rfl hfresh hunused

/-- A client that connects again was not in the hands of `close_connection`. -/
theorem Kept.connect (hattached : cn ∈ state.mConnections) (hfd : state.mFd cn = none)
    {fd : ℕ} (hunstored : state.closing.stores ≠ some fd) :
    Kept { state with mFd := Function.update state.mFd cn (some fd) } := by
  have hclosing : state.closing ≠ .found cn := fun h =>
    (hkept.hclosing cn h).2 hattached hfd
  have hne : ∀ other ∈ state.accepted, other ≠ cn := by
    rintro other hother rfl
    exact hkept.haccepted other hother hattached
  refine ⟨fun entry hentry => ?_, hkept.hkeys, hkept.haccepted,
    fun other hother hopen => ?_, fun other hfound => ?_, fun other key hstoring => ?_,
    hkept.hclearing, fun other => ?_⟩
  · obtain ⟨hentryFd, hmem⟩ := hkept.hinternal entry hentry
    exact ⟨(Function.update_of_ne (hne _ hmem) _ _).trans hentryFd, hmem⟩
  · refine hkept.hopen other hother ?_
    rwa [← Function.update_of_ne (hne other hother) (some fd) state.mFd]
  · obtain ⟨hgone, hconnected⟩ := hkept.hclosing other hfound
    have hother : other ≠ cn := fun h => hclosing (h ▸ hfound)
    refine ⟨hgone, fun hmem => ?_⟩
    exact fun h =>
      hconnected hmem ((Function.update_of_ne hother (some fd) state.mFd).symm.trans h)
  · obtain ⟨hfresh, hunused⟩ := hkept.hstoring other key hstoring
    refine ⟨hfresh, fun found hfound => ?_⟩
    have hkey : fd ≠ key := by
      rintro rfl
      exact hunstored (by rw [show state.closing = _ from hstoring]; rfl)
    by_cases hsame : found = cn
    · rw [hsame]
      exact fun h => hkey (Option.some.inj
        ((Function.update_self cn (some fd) state.mFd).symm.trans h))
    · exact fun h => hunused found hfound
        ((Function.update_of_ne hsame (some fd) state.mFd).symm.trans h)
  · rw [owed_update hclosing (some fd)]
    exact hkept.honePush other

/-- `disconnect` ends, and the map was not shared when it changed. -/
theorem Kept.endDisconnect (undefined : State) (hmem : cn ∈ state.mConnections ++ state.accepted)
    (hsafe : Safe state (.disconnect cn undefined)) :
    Kept (state.endDisconnect undefined cn) := by
  rw [Safe] at hsafe
  have hdefined : ¬ (state.mConnections = [] ∧ cn ∈ state.mInternalConnections.map Prod.snd ∧
      state.Shares cn) := by
    rintro ⟨hnone, hinternal, hshares⟩
    rw [if_neg (by rw [hnone]; exact List.not_mem_nil)] at hsafe
    exact (hsafe hinternal).2 hshares
  rw [State.endDisconnect, if_neg hdefined]
  refine Kept.tell ?_ _
  by_cases hattached : cn ∈ state.mConnections
  · rw [if_pos hattached] at hsafe
    exact hkept.disconnect_attached hattached (Option.isSome_iff_ne_none.mp hsafe.1) hsafe.2
  · have haccepted := (List.mem_append.mp hmem).resolve_left hattached
    rw [if_neg hattached] at hsafe
    by_cases hinternal : cn ∈ state.mInternalConnections.map Prod.snd
    · exact hkept.disconnect_internal (hsafe hinternal).1 hinternal
    · exact hkept.disconnect_gone haccepted hinternal

/-- Wherever the listener and the threads that disconnect stand. -/
theorem Kept.step {action : Action} {next : State} (hsafe : Safe state action)
    (hnext : step state action = some next) : Kept next := by
  cases action with
  | tell cn =>
      obtain ⟨_, hsome⟩ := Option.ite_none_right_eq_some.mp hnext
      obtain rfl := Option.some.inj hsome
      exact hkept.tell _
  | disconnect cn undefined =>
      obtain ⟨⟨hmem, _⟩, hsome⟩ := Option.ite_none_right_eq_some.mp hnext
      obtain rfl := Option.some.inj hsome
      exact hkept.endDisconnect undefined hmem hsafe
  | getConnection =>
      obtain ⟨⟨_, hidle⟩, hsome⟩ := Option.ite_none_right_eq_some.mp hnext
      obtain rfl := Option.some.inj hsome
      refine hkept.goOn ?_ (fun _ => ⟨nofun, nofun⟩) nofun nofun
      rw [hidle]
      exact fun _ => ⟨nofun, nofun⟩
  | gotConnection =>
      obtain ⟨hlooking, hsome⟩ := Option.ite_none_right_eq_some.mp hnext
      obtain rfl := Option.some.inj hsome
      refine hkept.goOn ?_ (fun _ => ⟨nofun, nofun⟩) nofun nofun
      rw [hlooking]
      exact fun _ => ⟨nofun, nofun⟩
  | closeConnection fd =>
      obtain ⟨⟨_, hidle⟩, hsome⟩ := Option.ite_none_right_eq_some.mp hnext
      obtain rfl := Option.some.inj hsome
      refine hkept.findConnection ?_ fd
      rw [hidle]
      exact fun _ => ⟨nofun, nofun⟩
  | eraseConnection undefined =>
      rw [Disconnect.step] at hnext
      split at hnext
      · rename_i fd hsearching
        obtain rfl := Option.some.inj hnext
        refine hkept.eraseConnection ?_ undefined fun hkey => ?_
        · rw [hsearching]
          exact fun _ => ⟨nofun, nofun⟩
        · obtain ⟨entry, hentry, rfl⟩ := List.mem_map.mp hkey
          exact hsafe.resolve_right fun hnone => hnone entry hentry hsearching
      · cases hnext
  | safeDisconnect =>
      rw [Disconnect.step] at hnext
      split at hnext
      · rename_i cn hclosing
        obtain ⟨_, hsome⟩ := Option.ite_none_left_eq_some.mp hnext
        obtain rfl := Option.some.inj hsome
        exact hkept.safeDisconnect hclosing
      · cases hnext
  | pushDisconnected =>
      rw [Disconnect.step] at hnext
      split at hnext
      · rename_i cn hclosing
        obtain ⟨_, hsome⟩ := Option.ite_none_left_eq_some.mp hnext
        obtain rfl := Option.some.inj hsome
        exact hkept.pushDisconnected hclosing
      · cases hnext
  | accept cn fd =>
      obtain ⟨⟨_, hidle, hfresh, hunused⟩, hsome⟩ := Option.ite_none_right_eq_some.mp hnext
      obtain rfl := Option.some.inj hsome
      refine hkept.goOn ?_ (fun _ => ⟨nofun, nofun⟩) (fun other key hstoring => ?_) nofun
      · rw [hidle]
        exact fun _ => ⟨nofun, nofun⟩
      · obtain ⟨rfl, rfl⟩ := Closing.storing.inj hstoring
        exact ⟨hfresh, hunused⟩
  | storeConnection undefined =>
      rw [Disconnect.step] at hnext
      split at hnext
      · rename_i cn fd hstoring
        obtain rfl := Option.some.inj hnext
        exact hkept.storeConnection undefined hstoring hsafe
      · cases hnext
  | connect cn fd =>
      obtain ⟨⟨hattached, hfd, _, hunstored⟩, hsome⟩ := Option.ite_none_right_eq_some.mp hnext
      obtain rfl := Option.some.inj hsome
      exact hkept.connect hattached hfd hunstored
  | shutDown undefined =>
      obtain ⟨⟨_, hidle⟩, hsome⟩ := Option.ite_none_right_eq_some.mp hnext
      obtain rfl := Option.some.inj hsome
      have hempty : state.mInternalConnections = [] := hsafe
      have hfree : state.closing.Free := by
        rw [hidle]
        exact fun _ => ⟨nofun, nofun⟩
      have hclearing : Kept { state with closing := .clearing } :=
        hkept.goOn hfree (fun _ => ⟨nofun, nofun⟩) nofun fun _ => hempty
      rw [State.shutDown, if_pos (.inl hempty), hempty]
      exact hclearing.stop
  | clear undefined =>
      obtain ⟨hclearing, hsome⟩ := Option.ite_none_right_eq_some.mp hnext
      obtain rfl := Option.some.inj hsome
      have halone : state.telling = [] := hsafe
      rw [State.clear, if_pos halone, ← hkept.hclearing hclearing]
      refine hkept.goOn ?_ (fun _ => ⟨nofun, nofun⟩) nofun nofun
      rw [hclearing]
      exact fun _ => ⟨nofun, nofun⟩

end Steps

/-- In every run whose steps are safe, every session that ended has caused one
push, or is about to, and a session still open has caused none. -/
theorem onePush_of_reaches {mConnections : List ℕ} {mFd : ℕ → Option ℕ} {state : State}
    (hreaches : Reaches step Safe (.start mConnections mFd) state) : state.OnePush := by
  have hkept : Kept state :=
    hreaches.invariant (fun hkept hsafe hnext => hkept.step hsafe hnext)
      (kept_start mConnections mFd)
  exact hkept.honePush

/-- A listener with one client attached, which is connected. -/
def oneClient : State :=
  .start [0] fun cn => if cn = 0 then some 3 else none

/-- A peer closes an accepted connection, and the client is disconnected. -/
def closedByPeer : List Action :=
  [.accept 1 4, .storeConnection oneClient, .closeConnection 4, .eraseConnection oneClient,
    .safeDisconnect, .pushDisconnected, .disconnect 0 oneClient, .shutDown oneClient,
    .clear oneClient]

def closedByCallback : List Action :=
  [.accept 1 4, .storeConnection oneClient, .tell 1, .disconnect 1 oneClient,
    .shutDown oneClient, .clear oneClient]

/-- With a client attached, and without one. -/
theorem onePush_of_reaches_both :
    (∃ state, run step oneClient closedByPeer = some state ∧ state.pushed = [1, 0] ∧
      state.OnePush) ∧
    ∃ state, run step (.start [] fun _ => none) closedByCallback = some state ∧
      state.pushed = [1] ∧ state.OnePush := by
  have hboth : Meets step Safe oneClient closedByPeer := by decide
  have hcallback : Meets step Safe (.start [] fun _ => none) closedByCallback := by decide
  exact ⟨⟨_, rfl, rfl, onePush_of_reaches (.of_run rfl hboth)⟩,
    ⟨_, rfl, rfl, onePush_of_reaches (.of_run rfl hcallback)⟩⟩

/-- The client disconnected twice causes two pushes for its one session. -/
theorem not_onePush_of_twice :
    ∃ state, Reaches step anything oneClient state ∧ ¬ state.OnePush := by
  have hrun : run step oneClient [.disconnect 0 oneClient, .disconnect 0 oneClient] =
      some ((oneClient.disconnect 0).disconnect 0) := rfl
  refine ⟨_, .of_run hrun (meets_anything _ _), fun honePush => ?_⟩
  exact absurd (honePush 0) (by decide)

end Sednl.Disconnect
