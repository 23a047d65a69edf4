import Mathlib.Algebra.Group.Nat.Defs
import Mathlib.Data.List.Basic

/-!
# Fixed-width integers as byte strings

A value of `n` bytes is laid down most significant byte first by `beBytes` and
read back by `beNat`. A host byte order is either that order or its reverse.
The round trip of each codec is proved here, so that a user of the codec never
unfolds the digit recursion.
-/

namespace ChatRoom.Core

/-- A byte string, as `std::string` and `std::vector<char>` hold it. -/
abbrev Bytes := List UInt8

/-- The UTF-8 bytes of a literal of the source. -/
def text (s : String) : Bytes := s.toUTF8.toList

/-- A hexadecimal digit in lower case. -/
def hexChar (d : Nat) : UInt8 := UInt8.ofNat (if d < 10 then 48 + d else 87 + d)

/-- The `n` low bytes of `v`, most significant first. -/
def beBytes : Nat → Nat → Bytes
  | 0, _ => []
  | n + 1, v => beBytes n (v / 256) ++ [UInt8.ofNat v]

/-- The number whose big-endian digits are the given bytes. -/
def beNat (bs : Bytes) : Nat :=
  bs.foldl (fun acc b => acc * 256 + b.toNat) 0

/-- `n` bytes are written. -/
@[simp] theorem length_beBytes (n v : Nat) : (beBytes n v).length = n := by
  induction n generalizing v with
  | zero => rfl
  | succ n ih => simp only [beBytes, List.length_append, ih, List.length_singleton]

/-- No bytes are zero. -/
@[simp] theorem beNat_nil : beNat [] = 0 := rfl

private theorem beNat_concat (bs : Bytes) (b : UInt8) :
    beNat (bs ++ [b]) = beNat bs * 256 + b.toNat := by
  simp only [beNat, List.foldl_append, List.foldl_cons, List.foldl_nil]

/-- Reading back keeps exactly the low `n` bytes of the written value. -/
theorem beNat_beBytes (n v : Nat) : beNat (beBytes n v) = v % 256 ^ n := by
  induction n generalizing v with
  | zero => simp only [beBytes, beNat_nil, pow_zero, Nat.mod_one]
  | succ n ih =>
    have hb : (UInt8.ofNat v).toNat = v % 256 := by
      rw [UInt8.toNat_ofNat']
    rw [beBytes, beNat_concat, ih, hb, pow_succ', Nat.mod_mul, Nat.mul_comm, Nat.add_comm]

/-- A value that fits in `n` bytes survives the round trip. -/
theorem beNat_beBytes_of_lt {n v : Nat} (h : v < 256 ^ n) : beNat (beBytes n v) = v := by
  rw [beNat_beBytes, Nat.mod_eq_of_lt h]

/-- The order in which a machine keeps the bytes of an integer in memory. -/
inductive Endian where
  | little
  | big
  deriving DecidableEq, Repr

/-- The memory image of the `n`-byte integer `v`. -/
def Endian.encode (e : Endian) (n v : Nat) : Bytes :=
  match e with
  | .big => beBytes n v
  | .little => (beBytes n v).reverse

/-- The integer whose memory image is the given bytes. -/
def Endian.decode (e : Endian) (bs : Bytes) : Nat :=
  match e with
  | .big => beNat bs
  | .little => beNat bs.reverse

/-- `n` bytes are written in either order. -/
@[simp] theorem Endian.length_encode (e : Endian) (n v : Nat) : (e.encode n v).length = n := by
  cases e <;> simp only [Endian.encode, List.length_reverse, length_beBytes]

/-- Memory images of `n` bytes lose nothing but the bits above them. -/
theorem Endian.decode_encode (e : Endian) (n v : Nat) :
    e.decode (e.encode n v) = v % 256 ^ n := by
  cases e <;> simp only [Endian.encode, Endian.decode, List.reverse_reverse, beNat_beBytes]

end ChatRoom.Core
