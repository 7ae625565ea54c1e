import Mathlib.Algebra.BigOperators.Group.List.Basic
import Mathlib.Algebra.GroupWithZero.Nat
import Mathlib.Data.Nat.Bits

/-!
# Kernels over packed codes

`distance.rs` and `adc.rs` of `skeg-simd`, scalar: the inner product of `i8` slices, the bucket of a coordinate in a
packed code, and the score of a 1-bit code against the bit planes of a query.

In `block.rs` the codes of 32 rows are interleaved by byte, and the AVX2 kernel scores them together with an 8-bit lookup
table.  A register is a function of its lanes, and an intrinsic is what it computes lane by lane.  The scores are kept
before they are scaled, as exact sums.
-/

namespace Skeg

namespace Simd

/-! ### One row at a time -/

/-- Inner product of two `i8` slices, accumulated in an `i32`. -/
def dotInt8 (a b : List Int8) : Int32 :=
  ((a.zip b).map fun e => e.1.toInt32 * e.2.toInt32).foldl (· + ·) 0

/-- Bucket of coordinate `i` in a code of `bits` bits a coordinate. -/
def codeIndex (bits : Nat) (code : List UInt8) (i : Nat) : Nat :=
  let perByte := 8 / bits
  let byte := code.getD (i / perByte) 0
  (byte >>> UInt8.ofNat (i % perByte * bits) &&& ((1 <<< UInt8.ofNat bits) - 1)).toNat

/-- `u8::count_ones`. -/
def countOnes (x : UInt8) : Nat := ((List.range 8).filter fun i => x.toNat.testBit i).length

/-- The set bits of every plane under the code, weighted, as a `u64`, and those of the code, as a `u32`; `none` where the
lengths do not fit. -/
def tq1BitplaneScore (planes : List UInt8) (b bytes : Nat) (code : List UInt8) : Option (Nat × Nat) :=
  if planes.length ≠ b * bytes ∨ code.length ≠ bytes then none
  else
    let codePc := (code.map countOnes).sum % 2 ^ 32
    let weighted := (List.range b).foldl (fun weighted p =>
      let plane := (planes.drop (p * bytes)).take bytes
      let pc := ((plane.zip code).map fun e => countOnes (e.1 &&& e.2)).sum
      (weighted + pc <<< p) % 2 ^ 64) 0
    some (weighted, codePc)

/-! ### Blocks of rows -/

/-- Rows of a block. -/
def block : Nat := 32

/-- Groups after which the 16-bit accumulators are flushed. -/
def flushEvery : Nat := 32

/-! ### Layout -/

/-- The bytes of one row to their places, one in every `block`. -/
def interleaveRow (nGroups v : Nat) (row out : List UInt8) : List UInt8 :=
  (List.range nGroups).foldl (fun out g => out.set (g * block + v) (row.getD g 0)) out

/-- `none` where an assertion fails. -/
def interleaveTq4Codes (rowsCodes : List (List UInt8)) (dim : Nat) (out : List UInt8) : Option (List UInt8) :=
  let nGroups := dim / 2
  if rowsCodes.length ≠ block then none
  else if out.length ≠ nGroups * block then none
  else rowsCodes.zipIdx.foldlM (fun out e =>
    if e.1.length ≠ nGroups then none else some (interleaveRow nGroups e.2 e.1 out)) out

/-! ### Registers -/

/-- 32 bytes. -/
abbrev M256 := Fin 32 → UInt8

/-- 16 bytes. -/
abbrev M128 := Fin 16 → UInt8

/-- 16 words of 16 bits. -/
abbrev W256 := Fin 16 → UInt16

theorem lowByte_lt (i : Fin 32) : 2 * (i.1 / 2) < 32 := by omega

theorem highByte_lt (i : Fin 32) : 2 * (i.1 / 2) + 1 < 32 := by omega

theorem laneHalf_lt (i : Fin 32) : i.1 / 16 < 2 := by omega

theorem lane_lt (i : Fin 32) : i.1 % 16 < 16 := Nat.mod_lt _ (by decide)

theorem lookup_lt (i : Fin 32) (x : Nat) : i.1 / 16 * 16 + x % 16 < 32 := by omega

theorem castLane_lt (i : Fin 16) : i.1 < 32 := Nat.lt_trans i.2 (by decide)

theorem extractLane_lt (i : Fin 16) : 16 + i.1 < 32 := by omega

/-- `_mm256_loadu_si256`. -/
def load256 (bytes : List UInt8) (start : Nat) : M256 := fun i => bytes.getD (start + i.1) 0

/-- `_mm_loadu_si128`. -/
def load128 (bytes : List UInt8) (start : Nat) : M128 := fun i => bytes.getD (start + i.1) 0

/-- `_mm256_broadcastsi128_si256`. -/
def broadcast128 (a : M128) : M256 := fun i => a ⟨i.1 % 16, lane_lt i⟩

/-- `_mm256_and_si256`. -/
def and256 (a b : M256) : M256 := fun i => a i &&& b i

/-- `_mm256_srli_epi16`: a shift within each pair of bytes. -/
def srli16 (a : M256) (k : Nat) : M256 := fun i =>
  let word := (a ⟨2 * (i.1 / 2), lowByte_lt i⟩).toNat + 256 * (a ⟨2 * (i.1 / 2) + 1, highByte_lt i⟩).toNat
  UInt8.ofNat (word / 2 ^ k / 256 ^ (i.1 % 2))

/-- `_mm256_shuffle_epi8`: a lookup within each half. -/
def shuffle8 (table idx : M256) : M256 := fun i =>
  if 128 ≤ (idx i).toNat then 0 else table ⟨i.1 / 16 * 16 + (idx i).toNat % 16, lookup_lt i _⟩

/-- `_mm256_add_epi8`. -/
def add8 (a b : M256) : M256 := fun i => a i + b i

/-- `_mm256_add_epi16`. -/
def add16 (a b : W256) : W256 := fun i => a i + b i

/-- `_mm256_cvtepu8_epi16`. -/
def widen (a : M128) : W256 := fun i => (a i).toUInt16

/-- `_mm256_castsi256_si128`. -/
def lowHalf (a : M256) : M128 := fun i => a ⟨i.1, castLane_lt i⟩

/-- `_mm256_extracti128_si256` of half 1. -/
def highHalf (a : M256) : M128 := fun i => a ⟨16 + i.1, extractLane_lt i⟩

/-! ### The kernel -/

structure BlockState where
  accumulated : Fin 2 → W256
  scores : Fin 32 → Nat
  window : Nat

def BlockState.init : BlockState := ⟨fun _ _ => 0, fun _ => 0, 0⟩

/-- The lookups of the low nibbles of a group. -/
def lowLookup (codes lut : List UInt8) (g : Nat) : M256 :=
  shuffle8 (broadcast128 (load128 lut (g * 32))) (and256 (load256 codes (g * block)) fun _ => 0x0f)

def highLookup (codes lut : List UInt8) (g : Nat) : M256 :=
  shuffle8 (broadcast128 (load128 lut (g * 32 + 16))) (and256 (srli16 (load256 codes (g * block)) 4) fun _ => 0x0f)

def groupSum (codes lut : List UInt8) (g : Nat) : M256 := add8 (lowLookup codes lut g) (highLookup codes lut g)

namespace BlockState

def accumulate (s : BlockState) (sum : M256) : BlockState :=
  { s with
    accumulated := fun half => add16 (s.accumulated half) (widen (if half = 0 then lowHalf sum else highHalf sum))
    window := s.window + 1 }

/-- The accumulators are added to the scores. -/
def flushed (s : BlockState) : Fin 32 → Nat := fun i =>
  s.scores i + (s.accumulated ⟨i.1 / 16, laneHalf_lt i⟩ ⟨i.1 % 16, lane_lt i⟩).toNat

def step (codes lut : List UInt8) (s : BlockState) (g : Nat) : BlockState :=
  let s := s.accumulate (groupSum codes lut g)
  if s.window = flushEvery then ⟨fun _ _ => 0, s.flushed, 0⟩ else s

/-- The state after some groups. -/
def after (codes lut : List UInt8) (n : Nat) : BlockState := (List.range n).foldl (step codes lut) init

end BlockState

/-- The sums that `tq4_block32_score_u8_avx2` scales; `none` where an assertion fails. -/
def tq4Block32Sums (codes lut : List UInt8) (dim : Nat) : Option (Fin 32 → Nat) :=
  let nGroups := dim / 2
  if dim % 2 ≠ 0 ∨ codes.length ≠ nGroups * block ∨ lut.length ≠ nGroups * 32 then none
  else
    let s := BlockState.after codes lut nGroups
    some (if s.window ≠ 0 then s.flushed else s.scores)

end Simd

end Skeg
