import Skeg.Vector.Flat
import Mathlib.Data.Rat.Floor

/-!
# The block search of a flat index

`search_block_tq4` of `flat.rs` scores the 4-bit codes of 32 rows at a time.  The rows that do not fill a block are
scored one by one, by the proxy of the row-major search (`search_quantized`).  The scores themselves are a parameter,
exact and the same for both kernels; how they become integers is modelled.
-/

namespace Skeg

namespace Vector

/-- A float cast to a signed integer: towards zero, and to the nearest bound outside of the type. -/
def castInt (bits : Nat) (x : ℚ) : Int :=
  max (-2 ^ (bits - 1)) (min (2 ^ (bits - 1) - 1) (if 0 ≤ x then ⌊x⌋ else ⌈x⌉))

def tqProxyScale : ℚ := 10 ^ 7

/-- `proxy` of a 4-bit code, from its inner product with the query. -/
def tqProxy (ip : ℚ) : Int := castInt 32 (max (-32) (min 32 ip) * tqProxyScale)

/-- Rows of a block. -/
def tq4Block : Nat := 32

def scaleToI64 : ℚ := 1000000

namespace FlatIndex

/-- The rows that `search_quantized` scores exactly.  Its heap is no longer than the rows. -/
def quantizedCandidates (x : FlatIndex) (score : Nat → ℚ) (k : Nat) : List Nat :=
  (x.greatestRows (min (rerankWidth k) x.liveCount) fun row => tqProxy (score row)).map Prod.snd

/-- A candidate takes the place of the weakest one when its score alone is higher. -/
def pushCand (rerank : Nat) (cands : List (Int ×ₗ Nat)) (scoreI64 : Int) (row : Nat) : List (Int ×ₗ Nat) :=
  TopK.offer (fun entry weakest => decide ((ofLex weakest).1 < (ofLex entry).1)) rerank cands (toLex (scoreI64, row))

/-- The full blocks. -/
def pushBlocks (x : FlatIndex) (score : Nat → ℚ) (rerank nBlocks : Nat) : List (Int ×ₗ Nat) :=
  (List.range nBlocks).foldl (fun cands b =>
    (List.range tq4Block).foldl (fun cands lane =>
      let row := b * tq4Block + lane
      if x.isLive row then pushCand rerank cands (castInt 64 (score row * scaleToI64)) row else cands) cands) []

/-- The rows that `search_block_tq4` scores exactly, unless the index is of another kind. -/
def blockCandidates (x : FlatIndex) (score : Nat → ℚ) (k : Nat) : Option (List Nat) :=
  if x.kind ≠ .turboQuant 4 then none
  else if k = 0 ∨ x.liveCount = 0 then some []
  else
    let n := x.rows.length
    let nBlocks := n / tq4Block
    let rerank := min (rerankWidth k) n
    let tailStart := nBlocks * tq4Block
    let cands := (List.range' tailStart (n - tailStart)).foldl (fun cands row =>
      if x.isLive row then pushCand rerank cands (tqProxy (score row)) row else cands) (x.pushBlocks score rerank nBlocks)
    some (cands.map fun entry => (ofLex entry).2)

end FlatIndex

end Vector

end Skeg
