import Sednl.Ring.Placement
import Sednl.Wire.SocketHelp

/-!
# Receiving events

`read_connection` puts each result of `recv` into the buffer of its connection
and hands over the events `pick_event` finds, until it finds none.  Here are
those two loops, the frames a peer sends, and one rule for both loops: what a
`put` and a pick keep holds of the bytes received and the events handed over.
-/

namespace Sednl.Ring

open Sednl.Endian
open Sednl.Memory
open Sednl.Tag
open Sednl.Word
open Sednl.Circular
open Sednl.Grammar
open Sednl.SocketHelp

namespace Event

/-- What `get_header` announces: the length itself, the name, a NUL, the packet. -/
def size (event : Event) : ℕ :=
  event.packet.length + event.name.length + 1 + 2

/-- `Event::get_header`; the length is a `UInt16`. -/
def getHeader (host : Host) (event : Event) : List Byte :=
  push16 host [] (BitVec.ofNat 16 event.size) ++ event.name ++ [0]

def pack (host : Host) (event : Event) : List Byte :=
  event.getHeader host ++ event.packet

theorem pack_eq (host : Host) (event : Event) :
    event.pack host = beBytes 2 event.size ++ (event.name ++ 0 :: event.packet) := by
  have hmod := beBytes_mod 2 event.size
  rw [pack, getHeader, push16_eq, BitVec.toNat_ofNat, List.nil_append]
  rw [show (256 : ℕ) ^ 2 = 2 ^ 16 by norm_num] at hmod
  rw [hmod]
  simp

@[simp]
theorem length_pack (host : Host) (event : Event) :
    (event.pack host).length = event.size := by
  rw [pack_eq]
  simp only [List.length_append, length_beBytes, List.length_cons, size]
  omega

theorem three_le_size (event : Event) : 3 ≤ event.size := by
  unfold size
  omega

end Event

def packs (host : Host) (events : List Event) : List Byte :=
  (events.map (Event.pack host)).flatten

def total (events : List Event) : ℕ :=
  (events.map Event.size).sum

@[simp]
theorem total_nil : total [] = 0 := rfl

@[simp]
theorem total_cons (event : Event) (events : List Event) :
    total (event :: events) = event.size + total events := rfl

@[simp]
theorem total_append (left right : List Event) :
    total (left ++ right) = total left + total right := by
  simp [total]

theorem total_replicate (n : ℕ) (event : Event) :
    total (List.replicate n event) = n * event.size := by
  simp [total]

@[simp]
theorem length_packs (host : Host) (events : List Event) :
    (packs host events).length = total events := by
  rw [packs, List.length_flatten, List.map_map, total]
  congr 2
  funext event
  exact event.length_pack host

@[simp]
theorem packs_append (host : Host) (left right : List Event) :
    packs host (left ++ right) = packs host left ++ packs host right := by
  simp [packs]

theorem packs_cons (host : Host) (event : Event) (events : List Event) :
    packs host (event :: events) = event.pack host ++ packs host events := rfl

/-! ## The loops -/

def connectionBufferSize : ℕ := 4096

/-- `m_buffer` of a fresh connection, on an array with these bytes. -/
def connectionBuffer (dt : List Byte) (hdt : dt.length = connectionBufferSize) : RingBuf :=
  .new (connectionBufferSize - 1) dt (by decide) hdt

/-- The inner loop of `read_connection`: hand over events until none is found. -/
def handOver (env : Env) : (fuel : ℕ) → RingBuf → Event →
    Probe (Option (List Event × RingBuf × Event))
  | 0, _, _ => pure none
  | fuel + 1, buf, event => do
      match ← pickEvent env buf event with
      | none => pure none
      | some picked =>
          if picked.found then do
            let rest ← handOver env fuel picked.buf picked.event
            pure (rest.map fun (handed, last) => (picked.event :: handed, last))
          else pure (some ([], picked.buf, picked.event))

/-- The loop of `read_connection` over the results of `recv`, up to the one
that ends it.  What `put` returns is not looked at. -/
def readChunks (env : Env) : (chunks : List (List Byte)) → RingBuf → Event →
    Probe (Option (List Event × RingBuf))
  | [], buf, _ => pure (some ([], buf))
  | chunk :: chunks, buf, event =>
      match buf.put chunk with
      | none => pure none
      | some (_, buf) => do
          match ← handOver env (buf.length + 1) buf event with
          | none => pure none
          | some (handed, buf, event) => do
              let rest ← readChunks env chunks buf event
              pure (rest.map fun (later, last) => (handed ++ later, last))

/-- `read_connection`, on a fresh event. -/
def readConnection (env : Env) (chunks : List (List Byte)) (buf : RingBuf) :
    Probe (Option (List Event × RingBuf)) :=
  readChunks env chunks buf ⟨[], []⟩

/-- Successive calls of `read_connection` on one connection. -/
def receive (env : Env) : (calls : List (List (List Byte))) → RingBuf →
    Probe (Option (List Event × RingBuf))
  | [], buf => pure (some ([], buf))
  | chunks :: calls, buf => do
      match ← readConnection env chunks buf with
      | none => pure none
      | some (handed, buf) => do
          let rest ← receive env calls buf
          pure (rest.map fun (later, last) => (handed ++ later, last))

/-- One turn of the inner loop: a call that finds nothing ends it, one that finds an
event hands it over and goes on. -/
theorem handOver_cases {env : Env} {fuel : ℕ} {buf last : RingBuf} {event lastEvent : Event}
    {handed : List Event} {log later : List ℕ}
    (hrun : (handOver env (fuel + 1) buf event).run log =
      (some (handed, last, lastEvent), later)) :
    ∃ picked middle, (pickEvent env buf event).run log = (some picked, middle) ∧
      (picked.found = false ∧ handed = [] ∧ last = picked.buf ∧
          lastEvent = picked.event ∧ later = middle ∨
        picked.found = true ∧ ∃ rest, handed = picked.event :: rest ∧
          (handOver env fuel picked.buf picked.event).run middle =
            (some (rest, last, lastEvent), later)) := by
  rw [handOver, Probe.run_bind] at hrun
  cases hpick : (pickEvent env buf event).run log with
  | mk answer middle =>
      rw [hpick] at hrun
      cases answer with
      | none => simp at hrun
      | some picked =>
          refine ⟨picked, middle, rfl, ?_⟩
          simp only [Probe.run_ite, Probe.run_bind, Probe.run_pure] at hrun
          split at hrun
          · rename_i hfound
            obtain ⟨hresult, rfl⟩ := Prod.mk.inj hrun
            obtain ⟨⟨rest, state⟩, hrest, heq⟩ := Option.map_eq_some_iff.mp hresult
            obtain ⟨rfl, rfl⟩ := Prod.mk.inj heq
            exact .inr ⟨hfound, rest, rfl, Prod.ext hrest rfl⟩
          · rename_i hfound
            obtain ⟨hresult, rfl⟩ := Prod.mk.inj hrun
            cases hresult
            exact .inl ⟨Bool.eq_false_iff.mpr hfound, rfl, rfl, rfl, rfl⟩

/-! ## The rule for the loops -/

section Rule

variable {env : Env} {all : List (List Byte)}
  {Idle Busy : (received : List (List Byte)) → (handed : List Event) → RingBuf → Prop}
  (hput : ∀ {received chunk rest handed buf next accepted},
    all = received ++ chunk :: rest → Idle received handed buf →
    buf.put chunk = some (accepted, next) → Busy (received ++ [chunk]) handed next)
  (hfound : ∀ {received handed buf event log picked}, Busy received handed buf →
    ((pickEvent env buf event).run log).1 = some picked → picked.found = true →
    Busy received (handed ++ [picked.event]) picked.buf)
  (hdone : ∀ {received handed buf event log picked}, Busy received handed buf →
    ((pickEvent env buf event).run log).1 = some picked → picked.found = false →
    Idle received handed picked.buf)

section HandOver

include hfound hdone

theorem handOver_rule {fuel : ℕ} {received : List (List Byte)} {handed new : List Event}
    {buf last : RingBuf} {event lastEvent : Event} {log : List ℕ}
    (hbusy : Busy received handed buf)
    (hrun : ((handOver env fuel buf event).run log).1 = some (new, last, lastEvent)) :
    Idle received (handed ++ new) last := by
  induction fuel generalizing handed new buf event log with
  | zero => simp [handOver] at hrun
  | succ fuel ih =>
      obtain ⟨picked, middle, hpick, ⟨hanswer, rfl, rfl, _, _⟩ | ⟨hanswer, rest, rfl, hrest⟩⟩ :=
        handOver_cases (Prod.ext hrun rfl)
      · rw [List.append_nil]
        exact hdone hbusy (congrArg Prod.fst hpick) hanswer
      · have hlater := ih (hfound hbusy (congrArg Prod.fst hpick) hanswer)
          (congrArg Prod.fst hrest)
        rwa [List.append_assoc, List.singleton_append] at hlater

end HandOver

include hput hfound hdone

theorem readChunks_rule {chunks received later : List (List Byte)}
    {handed new : List Event} {buf last : RingBuf} {event : Event} {log : List ℕ}
    (hall : all = received ++ (chunks ++ later)) (hidle : Idle received handed buf)
    (hrun : ((readChunks env chunks buf event).run log).1 = some (new, last)) :
    Idle (received ++ chunks) (handed ++ new) last := by
  induction chunks generalizing received handed new buf event log with
  | nil =>
      rw [readChunks, Probe.run_pure, Option.some.injEq, Prod.mk.injEq] at hrun
      obtain ⟨rfl, rfl⟩ := hrun
      rwa [List.append_nil, List.append_nil]
  | cons chunk chunks ih =>
      rw [readChunks] at hrun
      cases hbuf : buf.put chunk with
      | none =>
          rw [hbuf] at hrun
          simp at hrun
      | some outcome =>
          obtain ⟨accepted, next⟩ := outcome
          rw [hbuf] at hrun
          simp only [Probe.run_bind] at hrun
          cases hhanded : ((handOver env (next.length + 1) next event).run log).1 with
          | none =>
              rw [hhanded] at hrun
              simp at hrun
          | some result =>
              obtain ⟨first, settled, lastEvent⟩ := result
              rw [hhanded] at hrun
              simp only [Probe.run_bind, Probe.run_pure] at hrun
              obtain ⟨⟨rest, state⟩, hrest, heq⟩ := Option.map_eq_some_iff.mp hrun
              obtain ⟨rfl, rfl⟩ := Prod.mk.inj heq
              have hbusy := hput hall hidle hbuf
              have hsettled := handOver_rule (@hfound) (@hdone) hbusy hhanded
              have hlast := ih (by rw [hall]; simp) hsettled hrest
              rwa [List.append_assoc, List.append_assoc, List.singleton_append] at hlast

/-- What holds of a fresh buffer, and is kept by every `put` and every pick,
holds once all results of `recv` are read. -/
theorem receive_rule {calls received : List (List (List Byte))} {handed new : List Event}
    {buf last : RingBuf} {log : List ℕ} (hall : all = received.flatten ++ calls.flatten)
    (hidle : Idle received.flatten handed buf)
    (hrun : ((receive env calls buf).run log).1 = some (new, last)) :
    Idle all (handed ++ new) last := by
  induction calls generalizing received handed new buf log with
  | nil =>
      rw [receive, Probe.run_pure, Option.some.injEq, Prod.mk.injEq] at hrun
      obtain ⟨rfl, rfl⟩ := hrun
      rw [List.flatten_nil, List.append_nil] at hall
      rwa [List.append_nil, hall]
  | cons chunks calls ih =>
      rw [receive, Probe.run_bind] at hrun
      cases hread : ((readConnection env chunks buf).run log).1 with
      | none =>
          rw [hread] at hrun
          simp at hrun
      | some result =>
          obtain ⟨first, settled⟩ := result
          rw [hread] at hrun
          simp only [Probe.run_bind, Probe.run_pure] at hrun
          obtain ⟨⟨rest, state⟩, hrest, heq⟩ := Option.map_eq_some_iff.mp hrun
          obtain ⟨rfl, rfl⟩ := Prod.mk.inj heq
          rw [List.flatten_cons] at hall
          have hsettled := readChunks_rule (@hput) (@hfound) (@hdone) hall hidle hread
          have hlast := @ih (received ++ [chunks]) (handed ++ first) rest settled _
            (by rw [hall]; simp) (by simpa using hsettled) hrest
          rwa [List.append_assoc] at hlast

end Rule

/-! ## The loops end -/

section Ends

variable {env : Env}

theorem handOver_isSome {fuel : ℕ} {buf : RingBuf} (hroom : buf.mSize + 65536 < 2 ^ 32)
    (hfuel : buf.length < fuel) (event : Event) (log : List ℕ) :
    ∃ handed last lastEvent,
      ((handOver env fuel buf event).run log).1 = some (handed, last, lastEvent) ∧
      last.mSize = buf.mSize := by
  induction fuel generalizing buf event log with
  | zero => omega
  | succ fuel ih =>
      obtain ⟨picked, hpick, hsize, ⟨k, hk, hcontents⟩, _⟩ :=
        @pickFrom_removes buf env (buf.memory env) event hroom log
      rw [← pickEvent] at hpick
      have hlength := congrArg List.length hcontents
      rw [List.length_drop, RingBuf.length_contents, RingBuf.length_contents] at hlength
      rw [handOver, Probe.run_bind, hpick]
      simp only [Probe.run_ite, Probe.run_bind, Probe.run_pure]
      cases hanswer : picked.found with
      | false => exact ⟨_, _, _, rfl, hsize⟩
      | true =>
          have hshorter : picked.buf.length < fuel := by
            rcases hk with ⟨_, hfalse⟩ | hk
            · rw [hanswer] at hfalse
              simp at hfalse
            · omega
          obtain ⟨handed, last, lastEvent, hrest, hlast⟩ := @ih picked.buf
            (by rwa [hsize]) hshorter picked.event ((pickEvent env buf event).run log).2
          rw [if_pos rfl, hrest]
          exact ⟨_, _, _, rfl, hlast.trans hsize⟩

theorem put_isSome {buf : RingBuf} (hroom : buf.mSize + 65536 < 2 ^ 32) {chunk : List Byte}
    (hchunk : chunk.length ≤ 512) :
    ∃ accepted next, buf.put chunk = some (accepted, next) ∧ next.mSize = buf.mSize := by
  have hlength := buf.length_le
  by_cases hfits : buf.length + chunk.length ≤ buf.mSize
  · obtain ⟨next, hput, hsize, _⟩ := put_of_le (by omega) hfits
    exact ⟨true, next, hput, hsize⟩
  · exact ⟨false, buf, put_of_lt (by omega) (not_le.mp hfits), rfl⟩

theorem readChunks_isSome {chunks : List (List Byte)}
    (hchunks : ∀ chunk ∈ chunks, chunk.length ≤ 512) {buf : RingBuf}
    (hroom : buf.mSize + 65536 < 2 ^ 32) (event : Event) (log : List ℕ) :
    ∃ handed last, ((readChunks env chunks buf event).run log).1 = some (handed, last) ∧
      last.mSize = buf.mSize := by
  induction chunks generalizing buf event log with
  | nil => exact ⟨_, _, rfl, rfl⟩
  | cons chunk chunks ih =>
      obtain ⟨accepted, next, hput, hnext⟩ :=
        put_isSome hroom (hchunks chunk (List.mem_cons_self ..))
      obtain ⟨handed, settled, lastEvent, hhanded, hsettled⟩ :=
        @handOver_isSome env (next.length + 1) next (by rwa [hnext]) (Nat.lt_succ_self _)
          event log
      obtain ⟨later, last, hlater, hlast⟩ := ih
        (fun chunk hmem => hchunks chunk (List.mem_cons_of_mem _ hmem))
        (by rwa [hsettled, hnext]) lastEvent
        ((handOver env (next.length + 1) next event).run log).2
      rw [readChunks, hput]
      simp only [Probe.run_bind, hhanded, hlater, Probe.run_pure]
      exact ⟨_, _, rfl, hlast.trans (hsettled.trans hnext)⟩

/-- Reading always comes to an end, whatever is read and whatever fails. -/
theorem receive_isSome {calls : List (List (List Byte))}
    (hchunks : ∀ chunk ∈ calls.flatten, chunk.length ≤ 512) {buf : RingBuf}
    (hroom : buf.mSize + 65536 < 2 ^ 32) (log : List ℕ) :
    ∃ handed last, ((receive env calls buf).run log).1 = some (handed, last) := by
  induction calls generalizing buf log with
  | nil => exact ⟨_, _, rfl⟩
  | cons chunks calls ih =>
      rw [List.flatten_cons] at hchunks
      obtain ⟨handed, settled, hread, hsettled⟩ := @readChunks_isSome env chunks
        (fun chunk hmem => hchunks chunk (List.mem_append_left _ hmem)) buf hroom
        ⟨[], []⟩ log
      obtain ⟨later, last, hlater⟩ := @ih
        (fun chunk hmem => hchunks chunk (List.mem_append_right _ hmem)) settled
        (by rwa [hsettled]) ((readConnection env chunks buf).run log).2
      rw [← readConnection] at hread
      rw [receive, Probe.run_bind, hread]
      simp only [Probe.run_bind, hlater, Probe.run_pure]
      exact ⟨_, _, rfl⟩

end Ends

end Sednl.Ring
