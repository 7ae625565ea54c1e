import Skeg.Core.Record

/-!
# The hash functions the store is linked with

CRC-32C (the reflected Castagnoli polynomial), and XXH3-64 on inputs of 1 to 3 and of 9 to 16 bytes,
as computable functions; concrete runs of the store are evaluated with them.
-/

namespace Skeg

namespace Castagnoli

def bit (c : Nat) : Nat := if c % 2 = 1 then (c / 2) ^^^ 0x82F63B78 else c / 2

def byte (c : Nat) (b : UInt8) : Nat := bit (bit (bit (bit (bit (bit (bit (bit (c ^^^ b.toNat))))))))

def crc (bs : Bytes) : Nat := bs.foldl byte 0xFFFFFFFF ^^^ 0xFFFFFFFF

end Castagnoli

namespace XXH3

def avalanche64 (h : Nat) : Nat :=
  let h := h ^^^ (h >>> 33)
  let h := h * 0xC2B2AE3D27D4EB4F % 2 ^ 64
  let h := h ^^^ (h >>> 29)
  let h := h * 0x165667B19E3779F9 % 2 ^ 64
  h ^^^ (h >>> 32)

def avalanche3 (h : Nat) : Nat :=
  let h := h ^^^ (h >>> 37)
  let h := h * 0x165667919E3779F9 % 2 ^ 64
  h ^^^ (h >>> 32)

def len1to3 (bs : Bytes) : Nat :=
  let c1 := (bs.headD 0).toNat
  let c2 := ((bs.drop (bs.length / 2)).headD 0).toNat
  let c3 := ((bs.drop (bs.length - 1)).headD 0).toNat
  avalanche64 ((c1 <<< 16 ||| c2 <<< 24 ||| c3 ||| bs.length <<< 8) ^^^ 0x87275a9b)

def len9to16 (bs : Bytes) : Nat :=
  let lo := fromLE (bs.take 8) ^^^ 0x6782737bea4239b9
  let hi := fromLE (bs.drop (bs.length - 8)) ^^^ 0xaf56bc3b0996523a
  let fold := (lo * hi % 2 ^ 64) ^^^ (lo * hi / 2 ^ 64)
  avalanche3 ((bs.length + fromLE (toLE 8 lo).reverse + hi + fold) % 2 ^ 64)

def hash (bs : Bytes) : Nat := if bs.length ≤ 3 then len1to3 bs else len9to16 bs

end XXH3

/-- The real functions. -/
@[reducible] def linkedHashes : Hashes where
  crc32c bs := UInt32.ofNat (Castagnoli.crc bs)
  xxh3_64 bs := UInt64.ofNat (XXH3.hash bs)

instance lawfulHashes_linkedHashes : LawfulHashes (H := linkedHashes) :=
  @LawfulHashes.mk linkedHashes (by decide +kernel)

-- the published check values, of "123456789" and of "a"
example : Castagnoli.crc [49, 50, 51, 52, 53, 54, 55, 56, 57] = 0xE3069283 := by decide +kernel
example : XXH3.hash [97] = 0xe6c632b61e964e1f := by decide +kernel

end Skeg
