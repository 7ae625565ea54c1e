import Skeg.Vector.Numerics
import Mathlib.Data.Rat.Defs
import Mathlib.Algebra.Order.Ring.Unbundled.Rat
import Mathlib.Algebra.Ring.Rat

/-!
# Exact numerics

`exactNumerics` computes on the values that `f32` patterns stand for, without rounding.  Cosines are
compared by their signed squares, which are rational; the graph of a few rows joins every row to every
other, as the builder does for them; the centroids are the first rows.
-/

namespace Skeg

namespace Vector

/-- The value of an `f32`; infinities and NaNs are not used. -/
def F32.toRat (x : F32) : ℚ :=
  let e : Nat := x.toNat / 2 ^ 23 % 256
  let m : Nat := x.toNat % 2 ^ 23
  let v : ℚ := if e = 0 then m / 2 ^ 149 else (m + 2 ^ 23) * 2 ^ e / 2 ^ 150
  if x.toNat < 2 ^ 31 then v else -v

def dot (a b : Vec) : ℚ := ((a.zip b).map fun p => F32.toRat p.1 * F32.toRat p.2).sum

/-- The signed square of the cosine; a zero vector is orthogonal to everything. -/
def signedCosine (a b : Vec) : ℚ :=
  let p := dot a b
  let n := dot a a * dot b b
  if n = 0 then 0 else if 0 ≤ p then p * p / n else -(p * p / n)

/-- Row `i` of `n` with the first of the other rows for neighbours. -/
def Node.others (n i : Nat) : Node where
  degree := UInt32.ofNat (((List.range n).filter (· ≠ i)).take maxR).length
  neighbors := ((((List.range n).filter (· ≠ i)).take maxR).map UInt32.ofNat ++
    List.replicate maxR 0).take maxR
  length_neighbors := by simp

theorem Node.degree_others (n i : Nat) :
    (Node.others n i).degree.toNat = (((List.range n).filter (· ≠ i)).take maxR).length := by
  have hle : (((List.range n).filter (· ≠ i)).take maxR).length ≤ maxR := by
    rw [List.length_take]
    exact Nat.min_le_left ..
  rw [Node.others, UInt32.toNat_ofNat_of_lt' (Nat.lt_of_le_of_lt hle (by decide))]

theorem length_others (n : Nat) : ((List.range n).map (Node.others n)).length = n := by
  rw [List.length_map, List.length_range]

theorem degree_le_others (n : Nat) : ∀ node ∈ (List.range n).map (Node.others n), node.degree.toNat ≤ maxR := by
  intro node h
  obtain ⟨i, -, rfl⟩ := List.mem_map.mp h
  rw [Node.degree_others, List.length_take]
  exact Nat.min_le_left ..

theorem neighbors_lt_others (n : Nat) : ∀ node ∈ (List.range n).map (Node.others n),
    ∀ nbr ∈ node.neighbors.take node.degree.toNat, nbr.toNat < n := by
  intro node h nbr hn
  obtain ⟨i, -, rfl⟩ := List.mem_map.mp h
  rw [Node.degree_others, Node.others, List.take_take] at hn
  set others := ((List.range n).filter (· ≠ i)).take maxR with hothers
  have hle : others.length ≤ maxR := by
    rw [hothers, List.length_take]
    exact Nat.min_le_left ..
  rw [Nat.min_eq_left hle, List.take_left' (List.length_map ..)] at hn
  obtain ⟨j, hj, rfl⟩ := List.mem_map.mp hn
  have hlt : j < n := List.mem_range.mp (List.mem_filter.mp (List.mem_of_mem_take hj)).1
  exact Nat.lt_of_le_of_lt (Nat.mod_le ..) hlt

/-- Every row is joined to the others. -/
def BuiltGraph.complete (n : Nat) : BuiltGraph n where
  nodes := (List.range n).map (Node.others n)
  medoid := 0
  length_nodes := length_others n
  degree_le := degree_le_others n
  neighbors_lt := neighbors_lt_others n
  medoid_lt := zero_medoid_lt n
  medoid_u32 := zero_medoid_u32

@[reducible] def exactNumerics : Numerics where
  Score := ℚ
  cosine := signedCosine
  -- the cosine does not see the length of a vector
  normalized := id
  -- the pattern of 0.1
  isDense selectivity := decide (F32.toRat 0x3dcccccd ≤ F32.toRat selectivity)
  oversampled k selectivity := (k / F32.toRat selectivity).ceil.toNat
  Dist := ℚ
  proxy _ rows row q := -signedCosine q (rows.getD row [])
  rescore _ _ _ _ dist := dist
  proxyRescore _ rows row q := signedCosine q (rows.getD row [])
  flatScan _ rows live q width :=
    (live.insertionSort fun i j => signedCosine q (rows.getD j []) ≤ signedCosine q (rows.getD i [])).take
      width
  buildGraph _ rows := BuiltGraph.complete rows.length
  patchGraph rows _ dead _ := BuiltGraph.complete (surviving rows dead).length
  centroids rows dim nCells _ := (List.range nCells).map fun i => rows.getD i (List.replicate dim 0)
  length_centroids rows dim nCells iters := by simp
  dim_centroids rows dim nCells iters h c hc := by
    obtain ⟨i, -, rfl⟩ := List.mem_map.mp hc
    rw [List.getD_eq_getElem?_getD]
    cases hv : rows[i]? with
    | none => exact List.length_replicate
    | some v => exact h v (List.mem_of_getElem? hv)

-- the patterns of 1, -2 and 0.5
example : [0x3f800000, 0xc0000000, 0x3f000000].map F32.toRat = [1, -2, 1 / 2] := by decide +kernel

end Vector

end Skeg
