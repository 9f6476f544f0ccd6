import Mathlib

/-!
# Byte orders

A machine word is seen twice by code that serialises it: as a number, and as
the bytes the host keeps it in.  This file gives both host orders one memory
image, defines the host/network conversions through that image, and proves
that going through network order forgets which host did it.
-/

namespace Sednl.Endian

/-- The order in which a host stores the bytes of a word. -/
inductive Host where
  | little
  | big
  deriving DecidableEq, Repr

/-- The `width` low bytes of `value`, least significant first. -/
def leBytes : (width : ℕ) → (value : ℕ) → List UInt8
  | 0, _ => []
  | width + 1, value => UInt8.ofNat value :: leBytes width (value / 256)

def leValue : List UInt8 → ℕ
  | [] => 0
  | byte :: bytes => byte.toNat + 256 * leValue bytes

/-- The `width` low bytes of `value`, most significant first. -/
def beBytes (width value : ℕ) : List UInt8 :=
  (leBytes width value).reverse

def beValue (bytes : List UInt8) : ℕ :=
  leValue bytes.reverse

@[simp]
theorem length_leBytes (width value : ℕ) :
    (leBytes width value).length = width := by
  induction width generalizing value with
  | zero => rfl
  | succ width ih => simp [leBytes, ih]

@[simp]
theorem length_beBytes (width value : ℕ) :
    (beBytes width value).length = width := by
  simp [beBytes]

theorem leValue_lt (bytes : List UInt8) :
    leValue bytes < 256 ^ bytes.length := by
  induction bytes with
  | nil => simp [leValue]
  | cons byte bytes ih =>
      have hbyte : byte.toNat < 256 := byte.toNat_lt
      simp only [leValue, List.length_cons, pow_succ]
      omega

theorem beValue_lt (bytes : List UInt8) :
    beValue bytes < 256 ^ bytes.length := by
  simpa [beValue] using leValue_lt bytes.reverse

theorem leValue_leBytes (width value : ℕ) :
    leValue (leBytes width value) = value % 256 ^ width := by
  induction width generalizing value with
  | zero => simp [leBytes, leValue, Nat.mod_one]
  | succ width ih =>
      have hbyte : (UInt8.ofNat value).toNat = value % 256 := by simp
      rw [leBytes, leValue, ih, hbyte, pow_succ, Nat.mul_comm (256 ^ width),
        Nat.mod_mul]

theorem leBytes_leValue (bytes : List UInt8) :
    leBytes bytes.length (leValue bytes) = bytes := by
  induction bytes with
  | nil => rfl
  | cons byte bytes ih =>
      have hbyte : byte.toNat < 256 := byte.toNat_lt
      have hquot : (byte.toNat + 256 * leValue bytes) / 256 = leValue bytes := by
        omega
      have hrem : UInt8.ofNat (byte.toNat + 256 * leValue bytes) = byte := by
        apply UInt8.toNat_inj.mp
        rw [UInt8.toNat_ofNat']
        omega
      simp only [List.length_cons, leBytes, leValue, hquot, hrem, ih]

theorem beValue_beBytes (width value : ℕ) :
    beValue (beBytes width value) = value % 256 ^ width := by
  rw [beValue, beBytes, List.reverse_reverse, leValue_leBytes]

theorem beBytes_beValue (bytes : List UInt8) :
    beBytes bytes.length (beValue bytes) = bytes := by
  have h := leBytes_leValue bytes.reverse
  rw [List.length_reverse] at h
  rw [beBytes, beValue, h, List.reverse_reverse]

theorem leBytes_mod (width value : ℕ) :
    leBytes width (value % 256 ^ width) = leBytes width value := by
  have h := leBytes_leValue (leBytes width value)
  rwa [length_leBytes, leValue_leBytes] at h

theorem leBytes_add (low high value : ℕ) :
    leBytes (low + high) value =
      leBytes low value ++ leBytes high (value / 256 ^ low) := by
  induction low generalizing value with
  | zero => simp [leBytes]
  | succ low ih =>
      rw [Nat.add_right_comm, leBytes, leBytes, ih, List.cons_append,
        Nat.div_div_eq_div_mul, pow_succ, Nat.mul_comm 256]

/-- A big-endian word is its high part followed by its low part. -/
theorem beBytes_add (high low value : ℕ) :
    beBytes (high + low) value =
      beBytes high (value / 256 ^ low) ++ beBytes low value := by
  rw [Nat.add_comm, beBytes, leBytes_add, List.reverse_append]
  rfl

theorem leValue_append (low high : List UInt8) :
    leValue (low ++ high) = leValue low + 256 ^ low.length * leValue high := by
  induction low with
  | nil => simp [leValue]
  | cons byte low ih =>
      simp only [List.cons_append, leValue, ih, List.length_cons, pow_succ]
      ring

theorem beValue_append (high low : List UInt8) :
    beValue (high ++ low) = beValue low + 256 ^ low.length * beValue high := by
  simp [beValue, leValue_append]

namespace Host

/-- The memory image of a `width`-byte word. -/
def store (host : Host) (width value : ℕ) : List UInt8 :=
  match host with
  | little => leBytes width value
  | big => beBytes width value

/-- The word whose memory image is `bytes`. -/
def load (host : Host) (bytes : List UInt8) : ℕ :=
  match host with
  | little => leValue bytes
  | big => beValue bytes

/-- The host-to-network conversion (`htons`, `htonl`): the word whose image
on this host is the most-significant-first image of `value`. -/
def hton (host : Host) (width value : ℕ) : ℕ :=
  host.load (big.store width value)

/-- The network-to-host conversion (`ntohs`, `ntohl`). -/
def ntoh (host : Host) (width value : ℕ) : ℕ :=
  big.load (host.store width value)

@[simp]
theorem length_store (host : Host) (width value : ℕ) :
    (host.store width value).length = width := by
  cases host <;> simp [store]

theorem load_lt (host : Host) (bytes : List UInt8) :
    host.load bytes < 256 ^ bytes.length := by
  cases host
  · exact leValue_lt bytes
  · exact beValue_lt bytes

theorem store_load (host : Host) (bytes : List UInt8) :
    host.store bytes.length (host.load bytes) = bytes := by
  cases host
  · exact leBytes_leValue bytes
  · exact beBytes_beValue bytes

/-- What a host sends is most significant byte first, whatever the host. -/
theorem store_hton (host : Host) (width value : ℕ) :
    host.store width (host.hton width value) = beBytes width value := by
  have h := store_load host (beBytes width value)
  rwa [length_beBytes] at h

/-- What a host reads back is the big-endian value, whatever the host. -/
theorem ntoh_load (host : Host) (bytes : List UInt8) :
    host.ntoh bytes.length (host.load bytes) = beValue bytes := by
  rw [ntoh, store_load]
  rfl

theorem ntoh_lt (host : Host) (width value : ℕ) :
    host.ntoh width value < 256 ^ width := by
  simpa [ntoh] using big.load_lt (host.store width value)

end Host

end Sednl.Endian
