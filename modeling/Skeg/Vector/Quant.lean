import Skeg.Simd.Kernels
import Skeg.Vector.Block
import Mathlib.Algebra.Order.Round

/-!
# Packed codes

`quant.rs` of `skeg-vector`: the buckets of a vector's coordinates are packed into bytes, the first coordinate of a byte in
its low bits.  A query for 1-bit codes is rounded to levels of a few bits, which are stored plane by plane.  Numbers are
exact.
-/

namespace Skeg

namespace Vector

/-- Pack the bucket of coordinate `i`. -/
def turboquantPack (code : List UInt8) (i bucket bits : Nat) : List UInt8 :=
  let codesPerByte := 8 / bits
  let shift := i % codesPerByte * bits
  code.modify (i / codesPerByte) fun byte => byte ||| UInt8.ofNat bucket <<< UInt8.ofNat shift

/-- The code of a vector, from the buckets of its coordinates. -/
def packBuckets (bits : Nat) (buckets : List Nat) : List UInt8 :=
  buckets.zipIdx.foldl (fun code e => turboquantPack code e.2 e.1 bits)
    (List.replicate (buckets.length * bits / 8) 0)

/-! ### Bit planes -/

/-- The planes of some levels: bit `p` of level `i` is bit `i` of plane `p`. -/
def bitPlanes (b bytes : Nat) (levels : List Nat) : List UInt8 :=
  levels.zipIdx.foldl (fun planes e =>
    (List.range b).foldl (fun planes p =>
      if e.1 >>> p &&& 1 = 1 then planes.modify (p * bytes + e.2 / 8) fun byte => byte ||| 1 <<< UInt8.ofNat (e.2 % 8)
      else planes) planes)
    (List.replicate (b * bytes) 0)

/-- `QueryCode::TurboQuant1BitPlane`. -/
structure BitPlaneQuery where
  planes : List UInt8
  b : Nat
  bytes : Nat
  m : ℚ
  sq : ℚ
  sumQ : ℚ
  qm : ℚ

/-- A rotated query of at least one coordinate, rounded to levels of `b` bits. -/
def quantizeBitPlane (b : Nat) (qPlus : List ℚ) (qm : ℚ) : BitPlaneQuery :=
  let bytes := (qPlus.length + 7) / 8
  let levels : Nat := 2 ^ b - 1
  let m := qPlus.foldl min (qPlus.headD 0)
  let mx := qPlus.foldl max (qPlus.headD 0)
  let sq := max (mx - m) (1 / 10 ^ 20) / levels
  let qs := qPlus.map fun q => (max 0 (min (round ((q - m) / sq)) levels)).toNat
  ⟨bitPlanes b bytes qs, b, bytes, m, sq, qs.sum, qm⟩

/-- The inner product of the rounded query and the signs of a code. -/
def bitPlaneDot (q : BitPlaneQuery) (code : List UInt8) : Option ℚ :=
  (Simd.tq1BitplaneScore q.planes q.b q.bytes code).map fun r =>
    q.m * (2 * r.2 - (code.length * 8 : Nat)) + q.sq * (2 * r.1 - q.sumQ)

end Vector

end Skeg
