import Mathlib.Algebra.Group.Basic
import Mathlib.Algebra.Ring.Defs
import Mathlib.Data.Nat.Bits

/-!
# The fast rotation

`rotation.rs` of `skeg-simd`, scalar, and `FastRotation` of `turboquant.rs`: three rounds of sign flips and Walsh-Hadamard
transforms of the blocks of a vector.  Coordinates are in a commutative ring; the scale at the end is a parameter.
-/

namespace Skeg

namespace Simd

variable {R : Type} [CommRing R]

/-- One pair of a stage. -/
def butterfly (x : List R) (j h : Nat) : List R :=
  let a := x.getD j 0
  let b := x.getD (j + h) 0
  (x.set j (a + b)).set (j + h) (a - b)

/-- The loop of a stage, from index `i` on. -/
def fwhtStageFrom (h : Nat) : Nat → Nat → List R → List R
  | 0, _, x => x
  | fuel + 1, i, x =>
    if i < x.length then
      fwhtStageFrom h fuel (i + h * 2) ((List.range' i h).foldl (fun x j => butterfly x j h) x)
    else x

/-- A stage at distance `h`; its loop takes fewer turns than there are coordinates. -/
def fwhtStage (x : List R) (h : Nat) : List R := fwhtStageFrom h x.length 0 x

/-- The stages from distance `h` on. -/
def fwhtFrom : Nat → Nat → List R → List R
  | 0, _, x => x
  | fuel + 1, h, x => if h < x.length then fwhtFrom fuel (h * 2) (fwhtStage x h) else x

/-- In-place Walsh-Hadamard transform, not normalised; `none` unless the length is a power of two. -/
def fwht (x : List R) : Option (List R) :=
  if x.length ≠ 0 ∧ x.length &&& (x.length - 1) = 0 then some (fwhtFrom x.length 1 x) else none

/-- Flip the signs that `mask` selects; `none` where it does not cover all coordinates. -/
def flipSigns (x : List R) (mask : List UInt8) : Option (List R) :=
  if mask.length < (x.length + 7) / 8 then none
  else some ((List.range x.length).foldl (fun x i =>
    if mask.getD (i / 8) 0 >>> UInt8.ofNat (i % 8) &&& 1 = 1 then x.modify i Neg.neg else x) x)

/-- `chunks_exact_mut`: a transformation of every full block, by their number. -/
def forChunks (b : Nat) (f : List R → Option (List R)) : Nat → List R → Option (List R)
  | 0, x => some x
  | n + 1, x => do
    let chunk ← f (x.take b)
    let rest ← forChunks b f n (x.drop b)
    return chunk ++ rest

end Simd

namespace Vector

/-- The loop of `largest_pow2_factor`. -/
def largestPow2FactorFrom : Nat → Nat → Nat → Nat
  | 0, p, _ => p
  | fuel + 1, p, m => if m % 2 = 0 then largestPow2FactorFrom fuel (p * 2) (m / 2) else p

/-- Largest power of two that divides `n`. -/
def largestPow2Factor (n : Nat) : Nat := if n = 0 then 0 else largestPow2FactorFrom n 1 n

structure FastRotation (R : Type) where
  dim : Nat
  block : Nat
  signMasks : Fin 3 → List UInt8
  passScale : R

namespace FastRotation

variable {R : Type} [CommRing R]

/-- The masks come from the seed, and the scale is one over the root of the block length. -/
def new (dim : Nat) (signMasks : Fin 3 → List UInt8) (passScale : R) : Option (FastRotation R) :=
  if dim = 0 ∨ largestPow2Factor dim < 2 then none else some ⟨dim, largestPow2Factor dim, signMasks, passScale⟩

variable (r : FastRotation R)

def round (x : List R) (k : Fin 3) : Option (List R) := do
  let flipped ← Simd.flipSigns x (r.signMasks k)
  Simd.forChunks r.block Simd.fwht (flipped.length / r.block) flipped

/-- The three rounds. -/
def rounds (x : List R) : Option (List R) := do
  let x ← r.round x 0
  let x ← r.round x 1
  r.round x 2

def apply (x : List R) : Option (List R) :=
  if x.length ≠ r.dim then none else (r.rounds x).map fun out => out.map (· * r.passScale ^ 3)

end FastRotation

end Vector

end Skeg
