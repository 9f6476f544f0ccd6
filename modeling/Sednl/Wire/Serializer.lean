import Sednl.Wire.RoundTrip

/-!
# Serialisable classes

What `SEDNL_SERIALIZABLE` makes of a class: `serialize` and `unserialize`, which
call the member functions the class may declare for before and after.  Values are
written by copy and read in place, at every depth.  A write is that of a value
without classes, and so is a read up to what the instance becomes: `restore` is
the only place where the functions called while reading are composed.
-/

namespace Sednl.Serializer

open Sednl.Endian
open Sednl.Memory
open Sednl.Tag
open Sednl.SocketHelp
open Sednl.Packet
open Sednl.Reader
open Sednl.RoundTrip

/-- A type a packet takes.  A class is given by its name and by the types of the
members it lists in `SEDNL_SERIALIZABLE`. -/
inductive CType (κ : Type) where
  | scalar (type : Scalar)
  | string
  | vector (type : Scalar)
  | object (cls : κ) (members : List (CType κ))

section Classes

variable {κ : Type} {σ τ : κ → Type}

mutual

/-- The instances of a type; `σ cls` is what those of a class hold beside the
members they serialise. -/
def Instance (σ : κ → Type) : CType κ → Type
  | .scalar type => BitVec type.bits
  | .string => List Byte
  | .vector type => List (BitVec type.bits)
  | .object cls members => σ cls × Members σ members

def Members (σ : κ → Type) : List (CType κ) → Type
  | [] => Unit
  | type :: types => Instance σ type × Members σ types

end

/-- Instances that are nothing but their members. -/
abbrev Plain (type : CType κ) : Type :=
  Instance (fun _ => Unit) type

abbrev PlainMembers (types : List (CType κ)) : Type :=
  Members (fun _ => Unit) types

/-- How a call of a member function ends, with an exception of any type as a
`threw`, and the instance after it. -/
structure Called (ι : Type) where
  status : Status
  inst : ι

/-- The member functions a class may declare for `Serializer<T>` to find. -/
structure Hooks (ι : Type) where
  beforeSerialization : Option (ι → Called ι)
  afterSerialization : Option (ι → Called ι)
  beforeUnserialization : Option (ι → Called ι)
  afterUnserialization : Option (ι → Called ι)

/-- What every class of a program declares. -/
abbrev Classes (σ : κ → Type) : Type :=
  (cls : κ) → (members : List (CType κ)) → Hooks (σ cls × Members σ members)

/-- The overload with `int` when the class has the function, the one with `long`
otherwise. -/
def call {ι : Type} (function : Option (ι → Called ι)) (object : ι) : Called ι :=
  match function with
  | some function => function object
  | none => ⟨.done, object⟩

namespace Hooks

variable {ι : Type}

def preSerialize (hooks : Hooks ι) : ι → Called ι :=
  call hooks.beforeSerialization

def postSerialize (hooks : Hooks ι) : ι → Called ι :=
  call hooks.afterSerialization

def preUnserialize (hooks : Hooks ι) : ι → Called ι :=
  call hooks.beforeUnserialization

def postUnserialize (hooks : Hooks ι) : ι → Called ι :=
  call hooks.afterUnserialization

end Hooks

/-- What the classes declare for writing throws nothing. -/
def WritesReturn (classes : Classes σ) : Prop :=
  ∀ cls members inst, ((classes cls members).preSerialize inst).status = .done ∧
    ((classes cls members).postSerialize inst).status = .done

/-- What they declare for reading throws nothing. -/
def ReadsReturn (classes : Classes σ) : Prop :=
  ∀ cls members inst, ((classes cls members).preUnserialize inst).status = .done ∧
    ((classes cls members).postUnserialize inst).status = .done

/-! ## Writing -/

/-- `write_as_object`, from the number of its arguments and what writes them. -/
def writeAsObject (data : List Byte) (nbArgs : ℕ)
    (writeToPacket : List Byte → Written) : Written :=
  match writeObjectHeader data (nbArgs % 2 ^ 16) with
  | (.done, data) => writeToPacket data
  | failed => failed

/-- `serializer_serialize`: how it ends, the packet and the instance after it. -/
def serializerSerialize {ι : Type} (hooks : Hooks ι) (data : List Byte)
    (writeAsObject : ι → Written) (inst : ι) : Written × ι :=
  let before := hooks.preSerialize inst
  if before.status = .done then
    match writeAsObject before.inst with
    | (.done, data) =>
        let after := hooks.postSerialize before.inst
        ((after.status, data), after.inst)
    | failed => (failed, before.inst)
  else ((before.status, data), before.inst)

mutual

/-- `operator<<`, on a copy of its argument. -/
def write (classes : Classes σ) (host : Host) (data : List Byte) :
    (type : CType κ) → Instance σ type → Written
  | .scalar type, dt => writeScalar host data type dt
  | .string, dt => writeString data dt
  | .vector type, dt => writeVector host data type dt
  | .object cls members, dt =>
      (serializerSerialize (classes cls members) data (fun inst =>
        writeAsObject data members.length fun data =>
          writeMembers classes host data members inst.2) dt).1

/-- `write_to_packet`. -/
def writeMembers (classes : Classes σ) (host : Host) (data : List Byte) :
    (types : List (CType κ)) → Members σ types → Written
  | [], _ => (.done, data)
  | type :: types, args =>
      match write classes host data type args.1 with
      | (.done, data) => writeMembers classes host data types args.2
      | failed => failed

end

/-- The member function `serialize` of a class, on the instance itself. -/
def serialize (classes : Classes σ) (host : Host) (data : List Byte) (cls : κ)
    (members : List (CType κ)) (inst : σ cls × Members σ members) :
    Written × (σ cls × Members σ members) :=
  serializerSerialize (classes cls members) data (fun inst =>
    writeAsObject data members.length fun data =>
      writeMembers classes host data members inst.2) inst

/-! ## Reading -/

/-- `read_as_object`: a copy of the reader moves, and replaces the reader when
everything went well. -/
def readAsObject {μ : Type} (data : Region Byte) (nbArgs : ℕ)
    (readFromPacket : μ → ℕ → Probe (Reading μ)) (args : μ) (idx : ℕ) :
    Probe (Reading μ) := do
  let (status, tmp) ← readObjectHeader data (nbArgs % 2 ^ 16) idx
  if status = .done then do
    let reading ← readFromPacket args tmp
    pure ⟨reading.status, reading.dt,
      if reading.status = .done then reading.idx else idx⟩
  else pure ⟨status, args, idx⟩

/-- `serializer_unserialize`: the reader is past the object when
`after_unserialization` throws. -/
def serializerUnserialize {ρ μ : Type} (hooks : Hooks (ρ × μ))
    (readAsObject : μ → ℕ → Probe (Reading μ)) (inst : ρ × μ) (idx : ℕ) :
    Probe (Reading (ρ × μ)) :=
  let before := hooks.preUnserialize inst
  if before.status = .done then do
    let reading ← readAsObject before.inst.2 idx
    if reading.status = .done then
      let after := hooks.postUnserialize (before.inst.1, reading.dt)
      pure ⟨after.status, after.inst, reading.idx⟩
    else pure ⟨reading.status, (before.inst.1, reading.dt), reading.idx⟩
  else pure ⟨before.status, before.inst, idx⟩

mutual

/-- `operator>>`; on a class it is `unserialize`. -/
def read (classes : Classes σ) (host : Host) (data : Region Byte) :
    (type : CType κ) → Instance σ type → ℕ → Probe (Reading (Instance σ type))
  | .scalar type, dt, idx => readScalar host data type dt idx
  | .string, dt, idx => readString data dt idx
  | .vector type, dt, idx => readVector host data type dt idx
  | .object cls members, dt, idx =>
      serializerUnserialize (classes cls members)
        (readAsObject data members.length fun args idx =>
          readMembers classes host data members args idx) dt idx

/-- `read_from_packet`. -/
def readMembers (classes : Classes σ) (host : Host) (data : Region Byte) :
    (types : List (CType κ)) → Members σ types → ℕ →
      Probe (Reading (Members σ types))
  | [], _, idx => pure ⟨.done, (), idx⟩
  | type :: types, args, idx => do
      let reading ← read classes host data type args.1 idx
      if reading.status = .done then do
        let rest ← readMembers classes host data types args.2 reading.idx
        pure ⟨rest.status, (reading.dt, rest.dt), rest.idx⟩
      else pure ⟨reading.status, (reading.dt, args.2), reading.idx⟩

end

/-! ## What the wire sees of an instance -/

mutual

/-- An instance without its classes. -/
def lower : (type : CType κ) → Instance σ type → Value
  | .scalar type, (dt : BitVec type.bits) => .scalar type dt
  | .string, (dt : List Byte) => .string dt
  | .vector type, (dt : List (BitVec type.bits)) => .vector type dt
  | .object _ members, dt => .object (lowerAll members dt.2)

def lowerAll : (types : List (CType κ)) → Members σ types → List Value
  | [], _ => []
  | type :: types, args => lower type args.1 :: lowerAll types args.2

end

mutual

/-- What is written of an instance: at every depth, the members that
`before_serialization` leaves. -/
def sent (classes : Classes σ) : (type : CType κ) → Instance σ type → Plain type
  | .scalar _, dt => dt
  | .string, dt => dt
  | .vector _, dt => dt
  | .object cls members, dt =>
      ((), sentAll classes members ((classes cls members).preSerialize dt).inst.2)

def sentAll (classes : Classes σ) :
    (types : List (CType κ)) → Members σ types → PlainMembers types
  | [], _ => ()
  | type :: types, args => (sent classes type args.1, sentAll classes types args.2)

end

mutual

/-- What a reader takes over when a packet ends early: at every depth, the
members that `before_unserialization` leaves. -/
def prepared (classes : Classes σ) : (type : CType κ) → Instance σ type → Plain type
  | .scalar _, dt => dt
  | .string, dt => dt
  | .vector _, dt => dt
  | .object cls members, dt =>
      ((), preparedAll classes members ((classes cls members).preUnserialize dt).inst.2)

def preparedAll (classes : Classes σ) :
    (types : List (CType κ)) → Members σ types → PlainMembers types
  | [], _ => ()
  | type :: types, args =>
      (prepared classes type args.1, preparedAll classes types args.2)

end

mutual

/-- The instance after its members were read as `plain`: an inner object is
finished before the members that follow it and before the object around it. -/
def restore (classes : Classes σ) :
    (type : CType κ) → Plain type → Instance σ type → Instance σ type
  | .scalar _, plain, _ => plain
  | .string, plain, _ => plain
  | .vector _, plain, _ => plain
  | .object cls members, plain, dt =>
      let inst := ((classes cls members).preUnserialize dt).inst
      ((classes cls members).postUnserialize
        (inst.1, restoreAll classes members plain.2 inst.2)).inst

def restoreAll (classes : Classes σ) : (types : List (CType κ)) →
    PlainMembers types → Members σ types → Members σ types
  | [], _, _ => ()
  | type :: types, plain, args =>
      (restore classes type plain.1 args.1, restoreAll classes types plain.2 args.2)

end

mutual

/-- What arrives: strings stop at their first NUL. -/
def cut : (type : CType κ) → Plain type → Plain type
  | .scalar _, plain => plain
  | .string, (plain : List Byte) => plain.takeWhile (· ≠ 0)
  | .vector _, plain => plain
  | .object _ members, plain => ((), cutAll members plain.2)

def cutAll : (types : List (CType κ)) → PlainMembers types → PlainMembers types
  | [], _ => ()
  | type :: types, plain => (cut type plain.1, cutAll types plain.2)

end

theorem length_lowerAll : ∀ (types : List (CType κ)) (args : Members σ types),
    (lowerAll types args).length = types.length
  | [], _ => by rw [lowerAll, List.length_nil, List.length_nil]
  | type :: types, args => by
      rw [lowerAll, List.length_cons, List.length_cons, length_lowerAll types]

theorem numberOfArgs_lowerAll (types : List (CType κ)) (args : Members σ types) :
    numberOfArgs (lowerAll types args) = types.length % 2 ^ 16 := by
  rw [numberOfArgs, length_lowerAll]

/-! ## Writes are writes of plain values -/

/-- The packet does not depend on what `after_serialization` does, as long as it
returns. -/
theorem serializerSerialize_packet {ι : Type} (hooks : Hooks ι) (data : List Byte)
    (writeAsObject : ι → Written) (inst : ι)
    (hbefore : (hooks.preSerialize inst).status = .done)
    (hafter : (hooks.postSerialize (hooks.preSerialize inst).inst).status = .done) :
    (serializerSerialize hooks data writeAsObject inst).1 =
      writeAsObject (hooks.preSerialize inst).inst := by
  rw [serializerSerialize, if_pos hbefore]
  generalize writeAsObject (hooks.preSerialize inst).inst = written
  obtain ⟨status, data⟩ := written
  cases status with
  | done => exact congrArg (·, data) hafter
  | threw | aborted | endless => rfl

mutual

theorem write_eq {classes : Classes σ} (hreturns : WritesReturn classes) (host : Host) :
    ∀ (type : CType κ) (dt : Instance σ type) (data : List Byte),
      write classes host data type dt =
        writeValue host data (lower type (sent classes type dt))
  | .scalar _, _, _ => rfl
  | .string, _, _ => rfl
  | .vector _, _, _ => rfl
  | .object cls members, dt, data => by
      have hargs := numberOfArgs_lowerAll members
        (sentAll classes members ((classes cls members).preSerialize dt).inst.2)
      have hmembers := writeMembers_eq hreturns host members
        ((classes cls members).preSerialize dt).inst.2
      refine (serializerSerialize_packet (classes cls members) data _ dt
        (hreturns cls members dt).1 (hreturns cls members _).2).trans ?_
      show writeAsObject _ _ _ = writeValue host data (.object
        (lowerAll members (sentAll classes members
          ((classes cls members).preSerialize dt).inst.2)))
      rw [writeAsObject, writeValue, hargs]
      generalize writeObjectHeader data (members.length % 2 ^ 16) = header
      obtain ⟨status, data⟩ := header
      cases status with
      | done => exact hmembers data
      | threw | aborted | endless => rfl

theorem writeMembers_eq {classes : Classes σ} (hreturns : WritesReturn classes)
    (host : Host) :
    ∀ (types : List (CType κ)) (args : Members σ types) (data : List Byte),
      writeMembers classes host data types args =
        writeToPacket host data (lowerAll types (sentAll classes types args))
  | [], _, _ => rfl
  | type :: types, args, data => by
      show _ = writeToPacket host data (lower type (sent classes type args.1) ::
        lowerAll types (sentAll classes types args.2))
      rw [writeMembers, writeToPacket, write_eq hreturns host type args.1]
      generalize writeValue host data (lower type (sent classes type args.1)) = first
      obtain ⟨status, data⟩ := first
      cases status with
      | done => exact writeMembers_eq hreturns host types args.2 data
      | threw | aborted | endless => rfl

end

/-! ## Reads are reads of plain values -/

/-- A read into an instance beside the read of the same bytes into its plain
members: they end alike, at the same index, after reading the same cells, and
`restore` makes the instance of the members. -/
structure Mirrors {α ν π : Type} (lower : π → ν) (restore : π → α)
    (reading : Reading α × List ℕ) (plain : Reading ν × List ℕ) : Prop where
  status : reading.1.status = plain.1.status
  idx : reading.1.idx = plain.1.idx
  log : reading.2 = plain.2
  restored : plain.1.status = .done →
    ∃ args, plain.1.dt = lower args ∧ reading.1.dt = restore args

theorem readAsObject_mirrors {μ π : Type} {lowerAll : π → List Value} {restoreAll : π → μ}
    {host : Host} {data : Region Byte} {nbArgs : ℕ} {fields : List Value} {args : μ}
    {readMembers : μ → ℕ → Probe (Reading μ)} (hargs : numberOfArgs fields = nbArgs % 2 ^ 16)
    (hmembers : ∀ idx log, Mirrors lowerAll restoreAll ((readMembers args idx).run log)
      ((readFromPacket host data fields idx).run log)) (idx : ℕ) (log : List ℕ) :
    Mirrors (fun plain => .object (lowerAll plain)) restoreAll
      ((readAsObject data nbArgs readMembers args idx).run log)
      ((readValue host data (.object fields) idx).run log) := by
  simp only [readAsObject, readValue, hargs, Probe.run_bind]
  generalize (readObjectHeader data (nbArgs % 2 ^ 16) idx).run log = header
  obtain ⟨⟨status, tmp⟩, log⟩ := header
  by_cases hheader : status = .done
  · obtain ⟨hstatus, hidx, hlog, hrestored⟩ := hmembers tmp log
    simp only [hheader, if_true, Probe.run_bind, Probe.run_pure]
    refine ⟨hstatus, by rw [hstatus, hidx], hlog, fun hdone => ?_⟩
    obtain ⟨plain, hplain, hdt⟩ := hrestored hdone
    exact ⟨plain, congrArg Value.object hplain, hdt⟩
  · simp only [hheader, if_false, Probe.run_pure]
    exact ⟨rfl, rfl, rfl, fun hdone => absurd hdone hheader⟩

/-- The two functions of the class add what they do and nothing else, as long as
they return. -/
theorem serializerUnserialize_mirrors {ρ μ π : Type} {lower : π → Value}
    {restoreAll : π → μ} (hooks : Hooks (ρ × μ)) {inst : ρ × μ} {idx : ℕ} {log : List ℕ}
    {readAsObject : μ → ℕ → Probe (Reading μ)} {plain : Reading Value × List ℕ}
    (hbefore : (hooks.preUnserialize inst).status = .done)
    (hafter : ∀ inst, (hooks.postUnserialize inst).status = .done)
    (hobject : Mirrors lower restoreAll
      ((readAsObject (hooks.preUnserialize inst).inst.2 idx).run log) plain) :
    Mirrors lower (fun args => (hooks.postUnserialize
        ((hooks.preUnserialize inst).inst.1, restoreAll args)).inst)
      ((serializerUnserialize hooks readAsObject inst idx).run log) plain := by
  obtain ⟨hstatus, hidx, hlog, hrestored⟩ := hobject
  simp only [serializerUnserialize, hbefore, if_true, Probe.run_bind, hstatus]
  by_cases hdone : plain.1.status = .done
  · obtain ⟨args, hplain, hdt⟩ := hrestored hdone
    simp only [hdone, hafter, if_true, Probe.run_pure]
    exact ⟨hdone.symm, hidx, hlog, fun _ => ⟨args, hplain, by rw [hdt]⟩⟩
  · simp only [hdone, if_false, Probe.run_pure]
    exact ⟨rfl, hidx, hlog, fun h => absurd h hdone⟩

theorem mirrors_cons {α β π₁ π₂ : Type} {low : π₁ → Value} {lowerAll : π₂ → List Value}
    {restore : π₁ → α} {restoreAll : π₂ → β} {host : Host} {data : Region Byte}
    {value : Value} {values : List Value} {args : β} {idx : ℕ} {log : List ℕ}
    {first : Probe (Reading α)} {rest : ℕ → Probe (Reading β)}
    (hfirst : Mirrors low restore (first.run log)
      ((readValue host data value idx).run log))
    (hrest : ∀ idx log, Mirrors lowerAll restoreAll ((rest idx).run log)
      ((readFromPacket host data values idx).run log)) :
    Mirrors (fun plain : π₁ × π₂ => low plain.1 :: lowerAll plain.2)
      (fun plain => (restore plain.1, restoreAll plain.2))
      ((first >>= fun reading =>
        if reading.status = .done then rest reading.idx >>= fun rest =>
          pure (⟨rest.status, (reading.dt, rest.dt), rest.idx⟩ : Reading (α × β))
        else pure ⟨reading.status, (reading.dt, args), reading.idx⟩).run log)
      ((readFromPacket host data (value :: values) idx).run log) := by
  obtain ⟨hstatus, hidx, hlog, hrestored⟩ := hfirst
  simp only [readFromPacket, Probe.run_bind, hstatus, hidx, hlog]
  generalize (readValue host data value idx).run log = plain at *
  by_cases hdone : plain.1.status = .done
  · obtain ⟨arg, hplain, hdt⟩ := hrestored hdone
    obtain ⟨hstatus', hidx', hlog', hrestored'⟩ := hrest plain.1.idx plain.2
    simp only [hdone, if_true, Probe.run_bind, Probe.run_pure]
    refine ⟨hstatus', hidx', hlog', fun hdone' => ?_⟩
    obtain ⟨args, hplain', hdt'⟩ := hrestored' hdone'
    exact ⟨(arg, args), by rw [hplain, hplain'], by rw [hdt, hdt']⟩
  · simp only [hdone, if_false, Probe.run_pure]
    exact ⟨rfl, rfl, rfl, fun h => absurd h hdone⟩

mutual

theorem read_mirrors {classes : Classes σ} (hreturns : ReadsReturn classes) (host : Host)
    (data : Region Byte) :
    ∀ (type : CType κ) (dt : Instance σ type) (idx : ℕ) (log : List ℕ),
      Mirrors (lower type) (restore classes type · dt)
        ((read classes host data type dt idx).run log)
        ((readValue host data (lower type (prepared classes type dt)) idx).run log)
  | .scalar _, _, _, _ => ⟨rfl, rfl, rfl, fun _ => ⟨_, rfl, rfl⟩⟩
  | .string, _, _, _ => ⟨rfl, rfl, rfl, fun _ => ⟨_, rfl, rfl⟩⟩
  | .vector _, _, _, _ => ⟨rfl, rfl, rfl, fun _ => ⟨_, rfl, rfl⟩⟩
  | .object cls members, dt, idx, log => by
      have hmembers := readMembers_mirrors hreturns host data members
        ((classes cls members).preUnserialize dt).inst.2
      have hobject := serializerUnserialize_mirrors (classes cls members)
        (hreturns cls members dt).1 (fun inst => (hreturns cls members inst).2)
        (readAsObject_mirrors (numberOfArgs_lowerAll _ _) hmembers idx log)
      obtain ⟨hstatus, hidx, hlog, hrestored⟩ := hobject
      refine ⟨hstatus, hidx, hlog, fun hdone => ?_⟩
      obtain ⟨plain, hplain, hdt⟩ := hrestored hdone
      exact ⟨((), plain), hplain, hdt⟩

theorem readMembers_mirrors {classes : Classes σ} (hreturns : ReadsReturn classes)
    (host : Host) (data : Region Byte) :
    ∀ (types : List (CType κ)) (args : Members σ types) (idx : ℕ) (log : List ℕ),
      Mirrors (lowerAll types) (restoreAll classes types · args)
        ((readMembers classes host data types args idx).run log)
        ((readFromPacket host data (lowerAll types (preparedAll classes types args))
          idx).run log)
  | [], _, _, _ => ⟨rfl, rfl, rfl, fun _ => ⟨(), rfl, rfl⟩⟩
  | type :: types, args, idx, log =>
      mirrors_cons (read_mirrors hreturns host data type args.1 idx log)
        (readMembers_mirrors hreturns host data types args.2)

end

/-! ## What a destination holds is never looked at -/

/-- Two reads of one packet that end alike, at one index, after the same cells. -/
structure Alike {α β : Type} (left : Reading α × List ℕ) (right : Reading β × List ℕ) :
    Prop where
  status : left.1.status = right.1.status
  idx : left.1.idx = right.1.idx
  log : left.2 = right.2

section Contents

variable {host : Host} {data : Region Byte}

theorem readTag_alike {δ : Type} (ptypes : List PacketType) (dt dt' : δ)
    {payload payload' : ℕ → Probe (Reading δ)}
    (hpayload : ∀ idx log, Alike ((payload idx).run log) ((payload' idx).run log))
    (idx : ℕ) (log : List ℕ) :
    Alike ((readTag data ptypes dt idx payload).run log)
      ((readTag data ptypes dt' idx payload').run log) := by
  simp only [readTag, Probe.run_ite, Region.run_read_bind]
  by_cases hidx : data.size ≤ idx
  · simp only [hidx, if_true]
    exact ⟨rfl, rfl, rfl⟩
  · simp only [hidx, if_false]
    by_cases hfound : mismatched ptypes (PacketType.ofByte (data.value log idx)) = true
    · simp only [hfound, if_true]
      exact ⟨rfl, rfl, rfl⟩
    · simp only [hfound]
      exact hpayload _ _

theorem readItem_alike {bits : ℕ} (fct : ℕ → Probe (BitVec bits)) (size : ℕ)
    (ptypes : List PacketType) (dt dt' : BitVec bits) (idx : ℕ) (log : List ℕ) :
    Alike ((readItem fct size ptypes data dt idx).run log)
      ((readItem fct size ptypes data dt' idx).run log) :=
  readTag_alike ptypes dt dt' (fun _ _ => ⟨rfl, rfl, rfl⟩) idx log

theorem readArray_alike {bits : ℕ} (fct : ℕ → Probe (BitVec bits)) (size : ℕ)
    (ptypes : List PacketType) (dt dt' : List (BitVec bits)) (idx : ℕ) (log : List ℕ) :
    Alike ((readArray host fct size ptypes data dt idx).run log)
      ((readArray host fct size ptypes data dt' idx).run log) :=
  readTag_alike ptypes dt dt' (fun _ _ => ⟨rfl, rfl, rfl⟩) idx log

theorem readScalar_alike (type : Scalar) (dt dt' : BitVec type.bits) (idx : ℕ)
    (log : List ℕ) : Alike ((readScalar host data type dt idx).run log)
      ((readScalar host data type dt' idx).run log) := by
  cases type <;> exact readItem_alike _ _ _ dt dt' idx log

theorem readVector_alike (type : Scalar) (dt dt' : List (BitVec type.bits)) (idx : ℕ)
    (log : List ℕ) : Alike ((readVector host data type dt idx).run log)
      ((readVector host data type dt' idx).run log) := by
  cases type <;> exact readArray_alike _ _ _ dt dt' idx log

theorem readString_alike (dt dt' : List Byte) (idx : ℕ) (log : List ℕ) :
    Alike ((readString data dt idx).run log) ((readString data dt' idx).run log) := by
  refine readTag_alike _ _ _ (fun idx log => ?_) idx log
  simp only [Probe.run_bind]
  cases ((readChars data (2 ^ 32) [] idx).run log).1 with
  | none => exact ⟨rfl, rfl, rfl⟩
  | some => exact ⟨rfl, rfl, rfl⟩

mutual

theorem readValue_alike : ∀ (dt dt' : Value), SameType dt dt' → ∀ (idx : ℕ) (log : List ℕ),
    Alike ((readValue host data dt idx).run log) ((readValue host data dt' idx).run log)
  | .scalar type dt, dt', htype, idx, log => by
      cases dt' with
      | scalar type' dt' =>
          rw [SameType] at htype
          subst htype
          obtain ⟨hstatus, hidx, hlog⟩ := @readScalar_alike host data type dt dt' idx log
          exact ⟨hstatus, hidx, hlog⟩
      | string | vector | object => simp [SameType] at htype
  | .string dt, dt', htype, idx, log => by
      cases dt' with
      | string dt' =>
          obtain ⟨hstatus, hidx, hlog⟩ := @readString_alike data dt dt' idx log
          exact ⟨hstatus, hidx, hlog⟩
      | scalar | vector | object => simp [SameType] at htype
  | .vector type dt, dt', htype, idx, log => by
      cases dt' with
      | vector type' dt' =>
          rw [SameType] at htype
          subst htype
          obtain ⟨hstatus, hidx, hlog⟩ := @readVector_alike host data type dt dt' idx log
          exact ⟨hstatus, hidx, hlog⟩
      | scalar | string | object => simp [SameType] at htype
  | .object fields, dt', htype, idx, log => by
      cases dt' with
      | object fields' =>
          rw [SameType] at htype
          have hargs : numberOfArgs fields = numberOfArgs fields' := by
            rw [numberOfArgs, numberOfArgs, htype.length_eq]
          simp only [readValue, hargs, Probe.run_bind]
          generalize (readObjectHeader data (numberOfArgs fields') idx).run log = header
          obtain ⟨⟨status, tmp⟩, log⟩ := header
          by_cases hheader : status = .done
          · obtain ⟨hstatus, hidx, hlog⟩ := readFromPacket_alike fields fields' htype tmp log
            simp only [hheader, if_true, Probe.run_bind, Probe.run_pure]
            exact ⟨hstatus, by rw [hstatus, hidx], hlog⟩
          · simp only [hheader, if_false, Probe.run_pure]
            exact ⟨rfl, rfl, rfl⟩
      | scalar | string | vector => simp [SameType] at htype

theorem readFromPacket_alike : ∀ (dests dests' : List Value), SameTypes dests dests' →
    ∀ (idx : ℕ) (log : List ℕ), Alike ((readFromPacket host data dests idx).run log)
      ((readFromPacket host data dests' idx).run log)
  | [], dests', htypes, idx, log => by
      cases dests' with
      | nil => exact ⟨rfl, rfl, rfl⟩
      | cons => simp [SameTypes] at htypes
  | dest :: dests, dests', htypes, idx, log => by
      cases dests' with
      | nil => simp [SameTypes] at htypes
      | cons dest' dests' =>
          rw [SameTypes] at htypes
          obtain ⟨hstatus, hidx, hlog⟩ := readValue_alike dest dest' htypes.1 idx log
          simp only [readFromPacket, Probe.run_bind, hstatus, hidx, hlog]
          generalize (readValue host data dest' idx).run log = first
          by_cases hdone : first.1.status = .done
          · obtain ⟨hstatus', hidx', hlog'⟩ :=
              readFromPacket_alike dests dests' htypes.2 first.1.idx first.2
            simp only [hdone, if_true, Probe.run_bind, Probe.run_pure]
            exact ⟨hstatus', hidx', hlog'⟩
          · simp only [hdone, if_false, Probe.run_pure]
            exact ⟨rfl, rfl, rfl⟩

end

end Contents

mutual

theorem sameType_lower : ∀ (type : CType κ) (left : Instance σ type)
    (right : Instance τ type), SameType (lower type left) (lower type right)
  | .scalar _, _, _ => rfl
  | .string, _, _ => trivial
  | .vector _, _, _ => rfl
  | .object _ members, left, right => sameTypes_lowerAll members left.2 right.2

theorem sameTypes_lowerAll : ∀ (types : List (CType κ)) (left : Members σ types)
    (right : Members τ types), SameTypes (lowerAll types left) (lowerAll types right)
  | [], _, _ => trivial
  | type :: types, left, right =>
      ⟨sameType_lower type left.1 right.1, sameTypes_lowerAll types left.2 right.2⟩

end

mutual

theorem received_lower : ∀ (type : CType κ) (plain : Plain type),
    received (lower type plain) = lower type (cut type plain)
  | .scalar _, _ => rfl
  | .string, _ => rfl
  | .vector _, _ => rfl
  | .object _ members, plain =>
      congrArg Value.object (receivedAll_lowerAll members plain.2)

theorem receivedAll_lowerAll : ∀ (types : List (CType κ)) (plain : PlainMembers types),
    receivedAll (lowerAll types plain) = lowerAll types (cutAll types plain)
  | [], _ => rfl
  | type :: types, plain =>
      congrArg₂ List.cons (received_lower type plain.1) (receivedAll_lowerAll types plain.2)

end

mutual

theorem lower_injective : ∀ (type : CType κ) (left right : Plain type),
    lower type left = lower type right → left = right
  | .scalar _, _, _, heq => eq_of_heq (Value.scalar.inj heq).2
  | .string, _, _, heq => Value.string.inj heq
  | .vector _, _, _, heq => eq_of_heq (Value.vector.inj heq).2
  | .object _ members, left, right, heq =>
      Prod.ext rfl (lowerAll_injective members left.2 right.2 (Value.object.inj heq))

theorem lowerAll_injective : ∀ (types : List (CType κ)) (left right : PlainMembers types),
    lowerAll types left = lowerAll types right → left = right
  | [], _, _, _ => rfl
  | _ :: _, _, _, heq => by
      obtain ⟨hhead, htail⟩ := List.cons.inj heq
      exact Prod.ext (lower_injective _ _ _ hhead) (lowerAll_injective _ _ _ htail)

end

/-! ## Reading back what was written -/

/-- `p << inst` and `inst.serialize(p)` write the same bytes; only the second one
is seen by the instance. -/
theorem serialize_eq (classes : Classes σ) (host : Host) (data : List Byte) (cls : κ)
    (members : List (CType κ)) (inst : σ cls × Members σ members)
    (hafter : ((classes cls members).postSerialize
      ((classes cls members).preSerialize inst).inst).status = .done) :
    (serialize classes host data cls members inst).1 =
        write classes host data (.object cls members) inst ∧
      (serialize classes host data cls members inst).2 =
        if (write classes host data (.object cls members) inst).1 = .done then
          ((classes cls members).postSerialize
            ((classes cls members).preSerialize inst).inst).inst
        else ((classes cls members).preSerialize inst).inst := by
  refine ⟨rfl, ?_⟩
  show (serializerSerialize _ data _ inst).2 =
    if (serializerSerialize _ data _ inst).1.1 = .done then _ else _
  rw [serializerSerialize]
  by_cases hbefore : ((classes cls members).preSerialize inst).status = .done
  · rw [if_pos hbefore]
    generalize writeAsObject _ _ _ = written
    obtain ⟨status, data⟩ := written
    cases status with
    | done => exact (if_pos hafter).symm
    | threw | aborted | endless => rfl
  · rw [if_neg hbefore]
    exact (if_neg hbefore).symm

/-- What the classes of a program do while reading, as long as they throw nothing,
and what the instances hold, decides nothing about the read. -/
theorem readMembers_independent {classes : Classes σ} {classes' : Classes τ}
    (hreturns : ReadsReturn classes) (hreturns' : ReadsReturn classes') (host : Host)
    (data : Region Byte) {types : List (CType κ)} (args : Members σ types)
    (args' : Members τ types) (idx : ℕ) (log : List ℕ) :
    Alike ((readMembers classes host data types args idx).run log)
        ((readMembers classes' host data types args' idx).run log) ∧
      (((readMembers classes host data types args idx).run log).1.status = .done →
        ∃ plain : PlainMembers types,
          ((readFromPacket host data (lowerAll types (preparedAll classes types args))
            idx).run log).1.dt = lowerAll types plain ∧
          ((readMembers classes host data types args idx).run log).1.dt =
            restoreAll classes types plain args) := by
  obtain ⟨hstatus, hidx, hlog, hrestored⟩ :=
    readMembers_mirrors hreturns host data types args idx log
  obtain ⟨hstatus', hidx', hlog', -⟩ :=
    readMembers_mirrors hreturns' host data types args' idx log
  obtain ⟨hsame, hsameIdx, hsameLog⟩ := @readFromPacket_alike host data _ _
    (sameTypes_lowerAll types (preparedAll classes types args)
      (preparedAll classes' types args')) idx log
  refine ⟨⟨?_, ?_, ?_⟩, fun hdone => hrestored (hstatus ▸ hdone)⟩
  · rw [hstatus, hsame, hstatus']
  · rw [hidx, hsameIdx, hidx']
  · rw [hlog, hsameLog, hlog']

theorem readAsObject_failed {μ : Type} (data : Region Byte) (nbArgs : ℕ)
    (readMembers : μ → ℕ → Probe (Reading μ)) (args : μ) (idx : ℕ) (log : List ℕ)
    (hfailed : ((readAsObject data nbArgs readMembers args idx).run log).1.status ≠ .done) :
    ((readAsObject data nbArgs readMembers args idx).run log).1.idx = idx := by
  revert hfailed
  simp only [readAsObject, Probe.run_bind]
  generalize (readObjectHeader data (nbArgs % 2 ^ 16) idx).run log = header
  obtain ⟨⟨status, tmp⟩, log⟩ := header
  by_cases hheader : status = .done
  · simp only [hheader, if_true, Probe.run_bind, Probe.run_pure]
    exact fun hfailed => if_neg hfailed
  · simp only [hheader, if_false, Probe.run_pure, implies_true]

/-- A class whose members cannot be read leaves the reader where it was and never
runs its `after_unserialization`. -/
theorem serializerUnserialize_failed {ρ μ : Type} (hooks : Hooks (ρ × μ))
    (data : Region Byte) (nbArgs : ℕ) (readMembers : μ → ℕ → Probe (Reading μ))
    (inst : ρ × μ) (idx : ℕ) (log : List ℕ)
    (hafter : ∀ inst, (hooks.postUnserialize inst).status = .done)
    (hfailed : ((serializerUnserialize hooks (readAsObject data nbArgs readMembers) inst
      idx).run log).1.status ≠ .done) :
    ((serializerUnserialize hooks (readAsObject data nbArgs readMembers) inst
        idx).run log).1.idx = idx ∧
      ∃ args, ((serializerUnserialize hooks (readAsObject data nbArgs readMembers) inst
        idx).run log).1.dt = ((hooks.preUnserialize inst).inst.1, args) := by
  revert hfailed
  rw [serializerUnserialize]
  by_cases hbefore : (hooks.preUnserialize inst).status = .done
  · have hidx := readAsObject_failed data nbArgs readMembers
      (hooks.preUnserialize inst).inst.2 idx log
    rw [if_pos hbefore]
    simp only [Probe.run_bind]
    generalize (readAsObject data nbArgs readMembers _ idx).run log = reading at *
    by_cases hdone : reading.1.status = .done
    · simp only [hdone, hafter, if_true, Probe.run_pure]
      exact fun hfailed => absurd rfl hfailed
    · simp only [hdone, if_false, Probe.run_pure]
      exact fun _ => ⟨hidx hdone, _, rfl⟩
  · rw [if_neg hbefore]
    exact fun _ => ⟨rfl, _, rfl⟩

theorem readMembers_of_received {classes : Classes σ} (hreturns : ReadsReturn classes)
    {host : Host} {data : Region Byte}
    {types : List (CType κ)} {args : Members σ types} {plain : PlainMembers types}
    {idx stop : ℕ} {log : List ℕ}
    (hread : ((readFromPacket host data (lowerAll types (preparedAll classes types args))
      idx).run log).1 = ⟨.done, receivedAll (lowerAll types plain), stop⟩) :
    ((readMembers classes host data types args idx).run log).1 =
      ⟨.done, restoreAll classes types (cutAll types plain) args, stop⟩ := by
  obtain ⟨hstatus, hidx, -, hrestored⟩ :=
    readMembers_mirrors hreturns host data types args idx log
  rw [hread] at hstatus hidx hrestored
  obtain ⟨arrived, hlowered, hdt⟩ := hrestored rfl
  rw [receivedAll_lowerAll] at hlowered
  rw [← lowerAll_injective types _ _ hlowered] at hdt
  generalize ((readMembers classes host data types args idx).run log).1 = reading at *
  obtain ⟨status, dt, idx⟩ := reading
  simp only at hstatus hidx hdt
  rw [hstatus, hidx, hdt]

theorem readMembers_of_written {outgoing : Classes σ} {incoming : Classes τ}
    (hwrites : WritesReturn outgoing) (hreads : ReadsReturn incoming) (writer reader : Host)
    {types : List (CType κ)} {values : Members σ types}
    (hwritable : AllWritable (lowerAll types (sentAll outgoing types values)))
    (hlength : (writeMembers outgoing writer [] types values).2.length < 2 ^ 32)
    (dests : Members τ types) (wild : List ℕ → ℕ → Byte) :
    ((readMembers incoming reader ⟨(writeMembers outgoing writer [] types values).2, wild⟩
      types dests 0).run []).1 =
      ⟨.done, restoreAll incoming types (cutAll types (sentAll outgoing types values))
        dests, (writeMembers outgoing writer [] types values).2.length⟩ := by
  rw [writeMembers_eq hwrites, writeToPacket_eq writer [] _ hwritable,
    List.nil_append] at hlength ⊢
  have hread := (@readFromPacket_encodeAll reader ⟨_, wild⟩ _ _ hwritable
    (sameTypes_lowerAll types (preparedAll incoming types dests) _) 0 [] []
    (List.append_nil _).symm (by rw [Nat.zero_add]; exact hlength)).1
  rw [Nat.zero_add] at hread
  exact readMembers_of_received hreads hread

/-- A packet written by one program and read by the other: each runs the
functions of its own classes. -/
theorem readMembers_writeMembers {outgoing : Classes σ} {incoming : Classes τ}
    (hwrites : WritesReturn outgoing) (hreads : ReadsReturn incoming) (writer reader : Host)
    {types : List (CType κ)} {values : Members σ types}
    (hwritable : AllWritable (lowerAll types (sentAll outgoing types values)))
    (hlength : (writeMembers outgoing writer [] types values).2.length < 2 ^ 32)
    (dests : Members τ types) (wild : List ℕ → ℕ → Byte) :
    writeMembers outgoing writer [] types values =
        (.done, encodeAll (lowerAll types (sentAll outgoing types values))) ∧
      ((readMembers incoming reader ⟨(writeMembers outgoing writer [] types values).2, wild⟩
        types dests 0).run []).1 =
        ⟨.done, restoreAll incoming types (cutAll types (sentAll outgoing types values))
          dests, (writeMembers outgoing writer [] types values).2.length⟩ := by
  refine ⟨?_, readMembers_of_written hwrites hreads writer reader hwritable hlength
    dests wild⟩
  rw [writeMembers_eq hwrites, writeToPacket_eq writer [] _ hwritable, List.nil_append]

mutual

/-- An instance that arrives whole: no string of it holds a NUL, and at every
depth `after_unserialization` makes it out of the members that
`before_serialization` leaves, whatever the destination was. -/
def Recovers (outgoing incoming : Classes σ) : (type : CType κ) → Instance σ type → Prop
  | .scalar _, _ => True
  | .string, (dt : List Byte) => 0 ∉ dt
  | .vector _, _ => True
  | .object cls members, dt =>
      RecoversAll outgoing incoming members ((outgoing cls members).preSerialize dt).inst.2 ∧
        ∀ dest, ((incoming cls members).postUnserialize
          (((incoming cls members).preUnserialize dest).inst.1,
            ((outgoing cls members).preSerialize dt).inst.2)).inst = dt

def RecoversAll (outgoing incoming : Classes σ) :
    (types : List (CType κ)) → Members σ types → Prop
  | [], _ => True
  | type :: types, args =>
      Recovers outgoing incoming type args.1 ∧ RecoversAll outgoing incoming types args.2

end

mutual

theorem restore_of_recovers (outgoing incoming : Classes σ) : ∀ (type : CType κ)
    (dt dest : Instance σ type), Recovers outgoing incoming type dt →
      restore incoming type (cut type (sent outgoing type dt)) dest = dt
  | .scalar _, _, _, _ => rfl
  | .string, _, _, hdt => by
      refine List.takeWhile_eq_self_iff.mpr fun char hchar => ?_
      exact decide_eq_true fun hzero => hdt (hzero ▸ hchar)
  | .vector _, _, _, _ => rfl
  | .object cls members, dt, dest, hdt => by
      have hmembers := restoreAll_of_recoversAll outgoing incoming members
        ((outgoing cls members).preSerialize dt).inst.2
        ((incoming cls members).preUnserialize dest).inst.2 hdt.1
      exact (congrArg (fun args => ((incoming cls members).postUnserialize
        (((incoming cls members).preUnserialize dest).inst.1, args)).inst) hmembers).trans
          (hdt.2 dest)

theorem restoreAll_of_recoversAll (outgoing incoming : Classes σ) :
    ∀ (types : List (CType κ)) (args dests : Members σ types),
      RecoversAll outgoing incoming types args →
        restoreAll incoming types (cutAll types (sentAll outgoing types args)) dests = args
  | [], _, _, _ => rfl
  | type :: types, args, dests, hargs =>
      Prod.ext (restore_of_recovers outgoing incoming type args.1 dests.1 hargs.1)
        (restoreAll_of_recoversAll outgoing incoming types args.2 dests.2 hargs.2)

end

/-- Instances whose classes undo what they prepare arrive whole, with what they
do not serialise. -/
theorem readMembers_recovers {outgoing incoming : Classes σ}
    (hwrites : WritesReturn outgoing) (hreads : ReadsReturn incoming) (writer reader : Host)
    {types : List (CType κ)} {values : Members σ types}
    (hrecovers : RecoversAll outgoing incoming types values)
    (hwritable : AllWritable (lowerAll types (sentAll outgoing types values)))
    (hlength : (writeMembers outgoing writer [] types values).2.length < 2 ^ 32)
    (dests : Members σ types) (wild : List ℕ → ℕ → Byte) :
    ((readMembers incoming reader ⟨(writeMembers outgoing writer [] types values).2, wild⟩
      types dests 0).run []).1 =
      ⟨.done, values, (writeMembers outgoing writer [] types values).2.length⟩ := by
  rw [readMembers_of_written hwrites hreads writer reader hwritable hlength dests wild,
    restoreAll_of_recoversAll outgoing incoming types values dests hrecovers]

end Classes

/-! ## A class that keeps the length of its string -/

/-- The length is not sent; it is counted again after reading. -/
def counted : @Classes Unit fun _ => ℕ
  | (), .string :: _ =>
      { beforeSerialization := none
        afterSerialization := none
        beforeUnserialization := some fun inst => ⟨.done, 0, inst.2⟩
        afterUnserialization := some fun inst =>
          ⟨.done, (inst.2.1 : List Byte).length, inst.2⟩ }
  | (), _ => ⟨none, none, none, none⟩

theorem writesReturn_counted : WritesReturn counted := by
  intro cls members inst
  rcases members with _ | ⟨_ | _ | _ | _, members⟩ <;> exact ⟨rfl, rfl⟩

theorem readsReturn_counted : ReadsReturn counted := by
  intro cls members inst
  rcases members with _ | ⟨_ | _ | _ | _, members⟩ <;> exact ⟨rfl, rfl⟩

abbrev countedTypes : List (CType Unit) :=
  [.object () [.string, .object () [.string]], .scalar .int32]

def countedValues : Members (fun _ : Unit => ℕ) countedTypes :=
  ((2, [0x61, 0x62], (1, [0x63], ()), ()), (7 : BitVec 32), ())

def countedDests : Members (fun _ : Unit => ℕ) countedTypes :=
  ((9, [0x7a], (5, [], ()), ()), (0 : BitVec 32), ())

/-- The same classes with nothing but their members. -/
def bare : @Classes Unit fun _ => Unit :=
  fun _ _ => ⟨none, none, none, none⟩

theorem readsReturn_bare : ReadsReturn bare :=
  fun _ _ _ => ⟨rfl, rfl⟩

def bareDests : Members (fun _ : Unit => Unit) countedTypes :=
  (((), [], ((), [], ()), ()), (0 : BitVec 32), ())

def countedPacket : List Byte :=
  (writeMembers counted .little [] countedTypes countedValues).2

/-- Both read the packet, and both read one that is cut. -/
theorem readMembers_independent_counted :
    Alike ((readMembers counted .big ⟨countedPacket, fun _ _ => 0⟩ countedTypes
        countedDests 0).run [])
      ((readMembers bare .big ⟨countedPacket, fun _ _ => 0⟩ countedTypes
        bareDests 0).run []) ∧
    Alike ((readMembers counted .big ⟨countedPacket.take 9, fun _ _ => 0⟩ countedTypes
        countedDests 0).run [])
      ((readMembers bare .big ⟨countedPacket.take 9, fun _ _ => 0⟩ countedTypes
        bareDests 0).run []) :=
  ⟨(readMembers_independent readsReturn_counted readsReturn_bare .big _ countedDests
      bareDests 0 []).1,
    (readMembers_independent readsReturn_counted readsReturn_bare .big _ countedDests
      bareDests 0 []).1⟩

theorem readMembers_writeMembers_counted :
    writeMembers counted .little [] countedTypes countedValues =
        (.done, encodeAll (lowerAll countedTypes
          (sentAll counted countedTypes countedValues))) ∧
      ((readMembers counted .big
        ⟨(writeMembers counted .little [] countedTypes countedValues).2, fun _ _ => 0⟩
        countedTypes countedDests 0).run []).1 =
        ⟨.done, restoreAll counted countedTypes
          (cutAll countedTypes (sentAll counted countedTypes countedValues)) countedDests,
          (writeMembers counted .little [] countedTypes countedValues).2.length⟩ :=
  readMembers_writeMembers writesReturn_counted readsReturn_counted .little .big
    (by simp [lowerAll, lower, sentAll, sent, AllWritable, Writable])
    (by decide +kernel) countedDests _

theorem readMembers_recovers_counted :
    ((readMembers counted .big
      ⟨(writeMembers counted .little [] countedTypes countedValues).2, fun _ _ => 0⟩
      countedTypes countedDests 0).run []).1 =
      ⟨.done, countedValues,
        (writeMembers counted .little [] countedTypes countedValues).2.length⟩ :=
  have houter : (0 : Byte) ∉ [(0x61 : Byte), 0x62] := by decide
  have hinner : (0 : Byte) ∉ [(0x63 : Byte)] := by decide
  readMembers_recovers writesReturn_counted readsReturn_counted .little .big
    (show RecoversAll counted counted countedTypes countedValues from
      ⟨⟨⟨houter, ⟨⟨hinner, trivial⟩, fun _ => rfl⟩, trivial⟩, fun _ => rfl⟩,
        trivial, trivial⟩)
    (by simp [lowerAll, lower, sentAll, sent, AllWritable, Writable])
    (by decide +kernel) countedDests _

end Sednl.Serializer
