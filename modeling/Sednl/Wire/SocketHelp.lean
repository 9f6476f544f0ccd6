import Sednl.Library.Endian
import Sednl.Library.Memory
import Sednl.Library.Word
import Sednl.Wire.Tag

/-!
# Words on the wire

The `__push_N` and `__front_N` helpers of the source, for a host of either
byte order.  They go through the host's memory image and its `hton`/`ntoh`
conversions, and the 64-bit ones exchange the two 32-bit halves on a
little-endian host only.  The lemmas say that what is pushed, and what is
read, is the big-endian word on every host.
-/

namespace Sednl.SocketHelp

open Sednl.Endian
open Sednl.Memory
open Sednl.Tag
open Sednl.Word

def push16 (host : Host) (data : List Byte) (dt : BitVec 16) : List Byte :=
  data ++ host.store 2 (host.hton 2 dt.toNat)

def push32 (host : Host) (data : List Byte) (dt : BitVec 32) : List Byte :=
  data ++ host.store 4 (host.hton 4 dt.toNat)

/-- `__is_big_endian`: the first byte in memory of the word 1 is zero. -/
def isBigEndian (host : Host) : Bool :=
  (host.store 8 1).head? == some 0

/-- `reinterpret_cast<UInt32*>(&dt)[block]`. -/
def block32 (host : Host) (dt : BitVec 64) (block : ℕ) : BitVec 32 :=
  BitVec.ofNat 32 (host.load (((host.store 8 dt.toNat).drop (4 * block)).take 4))

/-- The word whose two 32-bit blocks in memory are `first` and `second`. -/
def ofBlocks (host : Host) (first second : BitVec 32) : BitVec 64 :=
  BitVec.ofNat 64 (host.load (host.store 4 first.toNat ++ host.store 4 second.toNat))

/-- `__bytes_swap` exchanges the two 32-bit blocks of a word. -/
def bytesSwap (host : Host) (dt : BitVec 64) : BitVec 64 :=
  ofBlocks host (block32 host dt 1) (block32 host dt 0)

def push64 (host : Host) (data : List Byte) (dt : BitVec 64) : List Byte :=
  let dt := if isBigEndian host then dt else bytesSwap host dt
  push32 host (push32 host data (block32 host dt 0)) (block32 host dt 1)

def front8 (data : Region Byte) (index : ℕ) : Probe (BitVec 8) := do
  let byte ← data.read index
  pure (BitVec.ofNat 8 byte.toNat)

def front16 (host : Host) (data : Region Byte) (index : ℕ) : Probe (BitVec 16) := do
  let byte0 ← data.read (u32 (index + 0))
  let byte1 ← data.read (u32 (index + 1))
  pure (BitVec.ofNat 16 (host.ntoh 2 (host.load [byte0, byte1])))

def front32 (host : Host) (data : Region Byte) (index : ℕ) : Probe (BitVec 32) := do
  let byte0 ← data.read (u32 (index + 0))
  let byte1 ← data.read (u32 (index + 1))
  let byte2 ← data.read (u32 (index + 2))
  let byte3 ← data.read (u32 (index + 3))
  pure (BitVec.ofNat 32 (host.ntoh 4 (host.load [byte0, byte1, byte2, byte3])))

def front64 (host : Host) (data : Region Byte) (index : ℕ) : Probe (BitVec 64) := do
  let block0 ← front32 host data index
  let block1 ← front32 host data (u32 (index + 4))
  let dt := ofBlocks host block0 block1
  pure (if isBigEndian host then dt else bytesSwap host dt)

/-! ## Writing -/

theorem push16_eq (host : Host) (data : List Byte) (dt : BitVec 16) :
    push16 host data dt = data ++ beBytes 2 dt.toNat := by
  rw [push16, Host.store_hton]

theorem push32_eq (host : Host) (data : List Byte) (dt : BitVec 32) :
    push32 host data dt = data ++ beBytes 4 dt.toNat := by
  rw [push32, Host.store_hton]

theorem isBigEndian_little : isBigEndian .little = false := rfl

theorem isBigEndian_big : isBigEndian .big = true := rfl

theorem block32_little (dt : BitVec 64) :
    (block32 .little dt 0).toNat = dt.toNat % 2 ^ 32 ∧
      (block32 .little dt 1).toNat = dt.toNat / 2 ^ 32 := by
  have himage : Host.little.store 8 dt.toNat =
      leBytes 4 dt.toNat ++ leBytes 4 (dt.toNat / 256 ^ 4) :=
    leBytes_add 4 4 dt.toNat
  have hdt := dt.isLt
  constructor
  · rw [block32, himage]
    simp [Host.load, leValue_leBytes]
  · rw [block32, himage, List.drop_left' (by simp), List.take_of_length_le (by simp)]
    simp only [Host.load, leValue_leBytes, BitVec.toNat_ofNat]
    omega

theorem block32_big (dt : BitVec 64) :
    (block32 .big dt 0).toNat = dt.toNat / 2 ^ 32 ∧
      (block32 .big dt 1).toNat = dt.toNat % 2 ^ 32 := by
  have himage : Host.big.store 8 dt.toNat =
      beBytes 4 (dt.toNat / 256 ^ 4) ++ beBytes 4 dt.toNat :=
    beBytes_add 4 4 dt.toNat
  have hdt := dt.isLt
  constructor
  · rw [block32, himage, List.drop_zero, List.take_left' (by simp)]
    simp only [Host.load, beValue_beBytes, BitVec.toNat_ofNat]
    omega
  · rw [block32, himage, List.drop_left' (by simp), List.take_of_length_le (by simp)]
    simp [Host.load, beValue_beBytes]

theorem ofBlocks_little (first second : BitVec 32) :
    (ofBlocks .little first second).toNat =
      first.toNat + 256 ^ 4 * second.toNat := by
  have hfirst := first.isLt
  have hsecond := second.isLt
  simp only [ofBlocks, Host.load, Host.store, leValue_append, leValue_leBytes,
    length_leBytes, BitVec.toNat_ofNat]
  omega

theorem ofBlocks_big (first second : BitVec 32) :
    (ofBlocks .big first second).toNat =
      second.toNat + 256 ^ 4 * first.toNat := by
  have hfirst := first.isLt
  have hsecond := second.isLt
  simp only [ofBlocks, Host.load, Host.store, beValue_append, beValue_beBytes,
    length_beBytes, BitVec.toNat_ofNat]
  omega

theorem beBytes_mod (width value : ℕ) :
    beBytes width (value % 256 ^ width) = beBytes width value := by
  rw [beBytes, leBytes_mod, beBytes]

/-- Exchanging the halves and sending the blocks in memory order puts the
high half first on a little-endian host too. -/
theorem push64_eq (host : Host) (data : List Byte) (dt : BitVec 64) :
    push64 host data dt = data ++ beBytes 8 dt.toNat := by
  have hsplit : beBytes 8 dt.toNat =
      beBytes 4 (dt.toNat / 2 ^ 32) ++ beBytes 4 (dt.toNat % 2 ^ 32) := by
    rw [show 2 ^ 32 = 256 ^ 4 by norm_num, beBytes_mod]
    exact beBytes_add 4 4 dt.toNat
  cases host with
  | big =>
      obtain ⟨hhigh, hlow⟩ := block32_big dt
      simp only [push64, isBigEndian_big, if_true, push32_eq, hhigh, hlow,
        List.append_assoc, hsplit]
  | little =>
      have hdt := dt.isLt
      have hswap : (bytesSwap .little dt).toNat =
          dt.toNat / 2 ^ 32 + 256 ^ 4 * (dt.toNat % 2 ^ 32) := by
        rw [bytesSwap, ofBlocks_little, (block32_little dt).1, (block32_little dt).2]
      obtain ⟨hfirst, hsecond⟩ := block32_little (bytesSwap .little dt)
      have hhigh : (block32 .little (bytesSwap .little dt) 0).toNat =
          dt.toNat / 2 ^ 32 := by
        omega
      have hlow : (block32 .little (bytesSwap .little dt) 1).toNat =
          dt.toNat % 2 ^ 32 := by
        omega
      simp only [push64, isBigEndian_little, Bool.false_eq_true, if_false,
        push32_eq, hhigh, hlow, List.append_assoc, hsplit]

/-! ## Reading -/

section Reading

variable {data : Region Byte} {index : ℕ} {rest : List Byte}

theorem front8_run {byte : Byte} (hdrop : data.cells.drop index = byte :: rest)
    (log : List ℕ) :
    ((front8 data index).run log).1 = BitVec.ofNat 8 (beValue [byte]) ∧
      (InBounds data.size ((front8 data index).run log).2 ↔
        InBounds data.size log) := by
  have hindex := Region.lt_size_of_head hdrop
  simp [front8, Region.value_head hdrop, beValue, leValue, hindex]

theorem front16_run (host : Host) {byte0 byte1 : Byte}
    (hdrop : data.cells.drop index = byte0 :: byte1 :: rest)
    (hindex : index + 2 ≤ 2 ^ 32) (log : List ℕ) :
    ((front16 host data index).run log).1 =
        BitVec.ofNat 16 (beValue [byte0, byte1]) ∧
      (InBounds data.size ((front16 host data index).run log).2 ↔
        InBounds data.size log) := by
  have h0 := Region.lt_size_of_drop [] hdrop
  have h1 := Region.lt_size_of_drop [byte0] hdrop
  have v0 := fun log => Region.value_of_drop [] log hdrop
  have v1 := fun log => Region.value_of_drop [byte0] log hdrop
  have hload := host.ntoh_load [byte0, byte1]
  simp only [List.length_nil, List.length_cons, Nat.zero_add, Nat.add_zero]
    at h0 h1 v0 v1 hload
  have w1 : u32 (index + 1) = index + 1 := u32_of_lt (by omega)
  simp [front16, u32_of_lt (show index < 2 ^ 32 by omega), w1, v0, v1, hload, h0, h1]

theorem front32_run (host : Host) {byte0 byte1 byte2 byte3 : Byte}
    (hdrop : data.cells.drop index = byte0 :: byte1 :: byte2 :: byte3 :: rest)
    (hindex : index + 4 ≤ 2 ^ 32) (log : List ℕ) :
    ((front32 host data index).run log).1 =
        BitVec.ofNat 32 (beValue [byte0, byte1, byte2, byte3]) ∧
      (InBounds data.size ((front32 host data index).run log).2 ↔
        InBounds data.size log) := by
  have h0 := Region.lt_size_of_drop [] hdrop
  have h1 := Region.lt_size_of_drop [byte0] hdrop
  have h2 := Region.lt_size_of_drop [byte0, byte1] hdrop
  have h3 := Region.lt_size_of_drop [byte0, byte1, byte2] hdrop
  have v0 := fun log => Region.value_of_drop [] log hdrop
  have v1 := fun log => Region.value_of_drop [byte0] log hdrop
  have v2 := fun log =>
    Region.value_of_drop [byte0, byte1] log hdrop
  have v3 := fun log =>
    Region.value_of_drop [byte0, byte1, byte2] log hdrop
  have hload := host.ntoh_load [byte0, byte1, byte2, byte3]
  simp only [List.length_nil, List.length_cons, Nat.zero_add, Nat.add_zero,
    Nat.reduceAdd] at h0 h1 h2 h3 v0 v1 v2 v3 hload
  have w1 : u32 (index + 1) = index + 1 := u32_of_lt (by omega)
  have w2 : u32 (index + 2) = index + 2 := u32_of_lt (by omega)
  have w3 : u32 (index + 3) = index + 3 := u32_of_lt (by omega)
  simp [front32, u32_of_lt (show index < 2 ^ 32 by omega), w1, w2, w3, v0, v1, v2,
    v3, hload, h0, h1, h2, h3]

/-- Undoing the exchange of halves puts the first block on top. -/
theorem swapped_blocks (host : Host) (first second : BitVec 32) :
    (if isBigEndian host then ofBlocks host first second
      else bytesSwap host (ofBlocks host first second)).toNat =
      second.toNat + 2 ^ 32 * first.toNat := by
  have hfirst := first.isLt
  have hsecond := second.isLt
  cases host with
  | big =>
      rw [isBigEndian_big, if_pos rfl, ofBlocks_big]
      norm_num
  | little =>
      have hblocks := ofBlocks_little first second
      obtain ⟨hlow, hhigh⟩ := block32_little (ofBlocks .little first second)
      rw [isBigEndian_little, if_neg (by simp), bytesSwap, ofBlocks_little, hlow, hhigh,
        hblocks]
      omega

theorem front64_run (host : Host)
    {byte0 byte1 byte2 byte3 byte4 byte5 byte6 byte7 : Byte}
    (hdrop : data.cells.drop index = byte0 :: byte1 :: byte2 :: byte3 ::
      byte4 :: byte5 :: byte6 :: byte7 :: rest)
    (hindex : index + 8 ≤ 2 ^ 32) (log : List ℕ) :
    ((front64 host data index).run log).1 =
        BitVec.ofNat 64 (beValue [byte0, byte1, byte2, byte3, byte4, byte5,
          byte6, byte7]) ∧
      (InBounds data.size ((front64 host data index).run log).2 ↔
        InBounds data.size log) := by
  have hsecond : data.cells.drop (index + 4) =
      byte4 :: byte5 :: byte6 :: byte7 :: rest := by
    rw [← List.drop_drop, hdrop]
    rfl
  have w4 : u32 (index + 4) = index + 4 := u32_of_lt (by omega)
  have hrun0 := front32_run host hdrop (by omega) log
  have hrun1 := front32_run host hsecond (by omega)
    ((front32 host data index).run log).2
  have hsplit := beValue_append [byte0, byte1, byte2, byte3]
    [byte4, byte5, byte6, byte7]
  have hlow := beValue_lt [byte4, byte5, byte6, byte7]
  have hhigh := beValue_lt [byte0, byte1, byte2, byte3]
  simp only [List.length_cons, List.length_nil, Nat.zero_add, Nat.reduceAdd,
    List.cons_append, List.nil_append] at hsplit hlow hhigh
  constructor
  · apply BitVec.eq_of_toNat_eq
    simp only [front64, w4, Probe.run_bind, Probe.run_pure, hrun0.1, hrun1.1]
    rw [swapped_blocks, BitVec.toNat_ofNat, BitVec.toNat_ofNat, BitVec.toNat_ofNat,
      hsplit]
    omega
  · simp only [front64, w4, Probe.run_bind, Probe.run_pure]
    rw [hrun1.2, hrun0.2]

end Reading

end Sednl.SocketHelp
