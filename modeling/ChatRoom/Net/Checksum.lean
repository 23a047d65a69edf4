import ChatRoom.Core.OnesComplement
import ChatRoom.Net.ProtocolStream

/-!
# checksum

The checksum of `net/ProtocolStream.cpp`: the 16-bit words of a buffer are added up in an
`unsigned int`, and the carries are folded in after the last of them. The Internet
checksum brings each carry round at once. The two agree as long as the `unsigned int`
does not overflow, and no longer.
-/

namespace ChatRoom.Net

open ChatRoom.Core

/-- The longest package, `BINARY_PACKAGE_MAXLEN_2`. -/
def binaryPackageMaxlen2 : Nat := 0x10000000

/-- The loop over the words of the buffer, each in the byte order of the host, and the
`if` for a byte that is left over. -/
def addWords (e : Endian) : Bytes → BitVec 32 → BitVec 32
  | c :: d :: buffer, cksum => addWords e buffer (cksum + BitVec.ofNat 32 (e.decode [c, d]))
  | [c], cksum => cksum + BitVec.ofNat 32 c.toNat
  | [], cksum => cksum

private theorem toNat_fold (cksum : BitVec 32) :
    ((cksum >>> 16) + (cksum &&& 0xffff#32)).toNat =
      cksum.toNat / 2 ^ 16 + cksum.toNat % 2 ^ 16 := by
  have hlt := cksum.isLt
  have hlow : cksum.toNat &&& 65535 = cksum.toNat % 2 ^ 16 :=
    Nat.and_two_pow_sub_one_eq_mod cksum.toNat 16
  rw [BitVec.toNat_add, BitVec.toNat_ushiftRight, BitVec.toNat_and, Nat.shiftRight_eq_div_pow,
    BitVec.toNat_ofNat, Nat.mod_eq_of_lt (show 65535 < 2 ^ 32 by decide), hlow]
  omega

private theorem shift_ne_zero_iff (cksum : BitVec 32) :
    cksum >>> 16 ≠ 0#32 ↔ 2 ^ 16 ≤ cksum.toNat := by
  rw [ne_eq, ← BitVec.toNat_inj, BitVec.toNat_ushiftRight, Nat.shiftRight_eq_div_pow,
    BitVec.toNat_ofNat]
  omega

/-- The loop that folds the upper half of the sum onto the lower one. -/
def foldCarries (cksum : BitVec 32) : BitVec 32 :=
  if cksum >>> 16 ≠ 0#32 then foldCarries ((cksum >>> 16) + (cksum &&& 0xffff#32)) else cksum
termination_by cksum.toNat
decreasing_by
  have hbig := (shift_ne_zero_iff cksum).mp ‹_›
  rw [toNat_fold]
  omega

/-- `checksum` of a buffer and its size. -/
def checksum (e : Endian) (buffer : Bytes) : BitVec 16 :=
  (~~~foldCarries (addWords e buffer 0#32)).setWidth 16

/-! ## What it is meant to be -/

/-- The words of the buffer; an odd last byte is one with a zero high byte. -/
def hostWords (e : Endian) : Bytes → List Nat
  | c :: d :: buffer => e.decode [c, d] :: hostWords e buffer
  | [c] => [c.toNat]
  | [] => []

/-- The complement of the end-around-carry sum of the words. -/
def internetChecksum (e : Endian) (buffer : Bytes) : BitVec 16 :=
  ~~~BitVec.ofNat 16 (OnesComplement.sum (2 ^ 16) (hostWords e buffer))

/-! ## The two loops -/

private theorem decode_lt (e : Endian) (c d : UInt8) : e.decode [c, d] < 2 ^ 16 := by
  have hc := c.toNat_lt
  have hd := d.toNat_lt
  cases e <;> simp only [Endian.decode, List.reverse_cons, List.reverse_nil, List.nil_append,
    List.singleton_append, beNat, List.foldl_cons, List.foldl_nil] <;> omega

private theorem hostWords_lt (e : Endian) (buffer : Bytes) :
    ∀ x ∈ hostWords e buffer, x < 2 ^ 16 := by
  induction buffer using hostWords.induct with
  | case1 c d buffer ih =>
    intro x hx
    rcases List.mem_cons.mp hx with rfl | hx
    · exact decode_lt e c d
    · exact ih x hx
  | case2 c =>
    intro x hx
    have hc := c.toNat_lt
    rw [List.mem_singleton.mp hx]
    omega
  | case3 =>
    intro x hx
    cases hx

/-- The first loop adds up the words modulo the width of `cksum`. -/
theorem toNat_addWords (e : Endian) (buffer : Bytes) (cksum : BitVec 32) :
    (addWords e buffer cksum).toNat = (cksum.toNat + (hostWords e buffer).sum) % 2 ^ 32 := by
  induction buffer, cksum using addWords.induct e with
  | case1 cksum c d buffer ih =>
    rw [addWords, hostWords, List.sum_cons, ih, BitVec.toNat_add, BitVec.toNat_ofNat,
      Nat.add_mod_mod, Nat.mod_add_mod, Nat.add_assoc]
  | case2 cksum c =>
    rw [addWords, hostWords, List.sum_singleton, BitVec.toNat_add, BitVec.toNat_ofNat,
      Nat.add_mod_mod]
  | case3 cksum =>
    rw [addWords, hostWords, List.sum_nil, Nat.add_zero, Nat.mod_eq_of_lt cksum.isLt]

/-- The second loop ends with the end-around residue of what it starts with. -/
theorem toNat_foldCarries (cksum : BitVec 32) :
    (foldCarries cksum).toNat = OnesComplement.residue (2 ^ 16) cksum.toNat := by
  induction cksum using foldCarries.induct with
  | case1 cksum h ih =>
    rw [foldCarries, if_pos h, ih, toNat_fold, OnesComplement.residue_fold (by decide)]
  | case2 cksum h =>
    rw [shift_ne_zero_iff, Nat.not_le] at h
    rw [foldCarries, if_neg (by rwa [shift_ne_zero_iff, Nat.not_le]),
      OnesComplement.residue_of_lt h]

private theorem checksum_eq (e : Endian) (buffer : Bytes) :
    checksum e buffer = ~~~BitVec.ofNat 16
      (OnesComplement.residue (2 ^ 16) ((hostWords e buffer).sum % 2 ^ 32)) := by
  have hfold := toNat_foldCarries (addWords e buffer 0#32)
  rw [toNat_addWords, BitVec.toNat_ofNat, Nat.zero_mod, Nat.zero_add] at hfold
  rw [checksum, BitVec.setWidth_not (by decide), ← hfold, BitVec.ofNat_toNat]

private theorem internetChecksum_eq (e : Endian) (buffer : Bytes) :
    internetChecksum e buffer = ~~~BitVec.ofNat 16
      (OnesComplement.residue (2 ^ 16) (hostWords e buffer).sum) := by
  rw [internetChecksum, OnesComplement.sum_eq_residue (by decide) (hostWords_lt e buffer)]

/-! ## Where they agree -/

/-- A byte is worth at most half a word. -/
theorem sum_hostWords_le (e : Endian) (buffer : Bytes) :
    2 * (hostWords e buffer).sum ≤ 65535 * buffer.length := by
  induction buffer using hostWords.induct with
  | case1 c d buffer ih =>
    have hword := decode_lt e c d
    rw [hostWords, List.sum_cons, List.length_cons, List.length_cons]
    omega
  | case2 c =>
    have hc := c.toNat_lt
    rw [hostWords, List.sum_singleton, List.length_singleton]
    omega
  | case3 => exact Nat.le_refl _

/-- Up to 131,074 bytes, no content makes the `unsigned int` overflow. -/
theorem sum_hostWords_lt {e : Endian} {buffer : Bytes} (h : buffer.length ≤ 131074) :
    (hostWords e buffer).sum < 2 ^ 32 := by
  have hsum := sum_hostWords_le e buffer
  omega

private theorem ofNat_residue_inj {m n : Nat} :
    ~~~BitVec.ofNat 16 (OnesComplement.residue (2 ^ 16) m) =
        ~~~BitVec.ofNat 16 (OnesComplement.residue (2 ^ 16) n) ↔
      OnesComplement.residue (2 ^ 16) m = OnesComplement.residue (2 ^ 16) n := by
  have hm := @OnesComplement.residue_lt (2 ^ 16) (by decide) m
  have hn := @OnesComplement.residue_lt (2 ^ 16) (by decide) n
  rw [BitVec.not_inj, ← BitVec.toNat_inj, BitVec.toNat_ofNat, BitVec.toNat_ofNat,
    Nat.mod_eq_of_lt hm, Nat.mod_eq_of_lt hn]

/-- In a package, both the checksum and the sum it is made of are right exactly when the words
add up to less than `2 ^ 32`: no two lost carries make up for each other. -/
theorem checksum_eq_internetChecksum_iff (e : Endian) (buffer : Bytes)
    (hsize : buffer.length ≤ binaryPackageMaxlen2) :
    (checksum e buffer = internetChecksum e buffer ↔ (hostWords e buffer).sum < 2 ^ 32) ∧
      ((addWords e buffer 0#32).toNat = (hostWords e buffer).sum ↔
        (hostWords e buffer).sum < 2 ^ 32) := by
  have hbound := sum_hostWords_le e buffer
  rw [binaryPackageMaxlen2] at hsize
  constructor
  · rw [checksum_eq, internetChecksum_eq, ofNat_residue_inj]
    exact @OnesComplement.residue_mod_pow_iff (2 ^ 16) 2 _ (by decide) (by omega)
  · rw [toNat_addWords, BitVec.toNat_ofNat, Nat.zero_mod, Nat.zero_add]
    exact ⟨fun h => h ▸ Nat.mod_lt _ (by decide), Nat.mod_eq_of_lt⟩

/-- Two bytes do not overflow the sum. -/
theorem checksum_of_two_bytes :
    (checksum .little [0xff, 0xff] = internetChecksum .little [0xff, 0xff] ↔
        (hostWords .little [0xff, 0xff]).sum < 2 ^ 32) ∧
      ((addWords .little [0xff, 0xff] 0#32).toNat = (hostWords .little [0xff, 0xff]).sum ↔
        (hostWords .little [0xff, 0xff]).sum < 2 ^ 32) :=
  checksum_eq_internetChecksum_iff .little [0xff, 0xff] (by decide)

private theorem sum_hostWords_replicate {m n : Nat} (h : m = 2 * n) :
    (hostWords .little (List.replicate m 0xff)).sum = 65535 * n := by
  induction n generalizing m with
  | zero =>
    rw [h]
    rfl
  | succ n ih =>
    have hword : Endian.little.decode [0xff, 0xff] = 65535 := rfl
    rw [h, Nat.mul_succ, List.replicate_succ, List.replicate_succ, hostWords, List.sum_cons,
      ih rfl, hword]
    omega

/-- Two bytes more, all of them set: the checksum is 1 where it should be 0. -/
theorem checksum_of_131076_bytes :
    (List.replicate 131076 (0xff : UInt8)).length ≤ binaryPackageMaxlen2 ∧
      checksum .little (List.replicate 131076 0xff) = 1 ∧
      internetChecksum .little (List.replicate 131076 0xff) = 0 ∧
      (addWords .little (List.replicate 131076 0xff) 0#32).toNat ≠
        (hostWords .little (List.replicate 131076 0xff)).sum := by
  have hsum := @sum_hostWords_replicate 131076 65538 (by decide)
  refine ⟨?_, ?_, ?_, ?_⟩
  · rw [List.length_replicate]
    decide
  · rw [checksum_eq, hsum]
    rfl
  · rw [internetChecksum_eq, hsum]
    rfl
  · rw [toNat_addWords, hsum]
    decide

end ChatRoom.Net
