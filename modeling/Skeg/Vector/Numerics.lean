import Skeg.Vector.Format
import Mathlib.Order.Basic

/-!
# The numeric code of a vector index

Floating-point arithmetic and the algorithms that are nothing but it are parameters: the similarity of
two vectors, the planning of filtered searches, the quantised distances the graph walk runs on, the graph
builder and the clustering of the router.  `BuiltGraph` carries what the builder guarantees of the graphs it returns; the clustering
returns as many centroids as it is asked for.
-/

namespace Skeg

namespace Vector

inductive QuantKind where
  | f32
  | int8
  | binary
  | pq (m k : Nat)
  | turboQuant (bits : Nat)
  deriving DecidableEq, Repr

/-- The tiers a disk index can be opened with. -/
def QuantKind.isDisk : QuantKind → Bool
  | f32 | binary => false
  | int8 | pq .. | turboQuant _ => true

/-- A graph over `n` rows: bounded out-lists of existing rows, and an entry point. -/
structure BuiltGraph (n : Nat) where
  nodes : List Node
  medoid : Nat
  length_nodes : nodes.length = n
  degree_le : ∀ node ∈ nodes, node.degree.toNat ≤ maxR
  neighbors_lt : ∀ node ∈ nodes, ∀ nbr ∈ node.neighbors.take node.degree.toNat, nbr.toNat < n
  medoid_lt : medoid < max n 1
  medoid_u32 : medoid < 2 ^ 32

theorem zero_medoid_lt (n : Nat) : 0 < max n 1 := by omega

theorem zero_medoid_u32 : 0 < 2 ^ 32 := by decide

/-- The rows that are not marked dead. -/
def surviving {α : Type*} (xs : List α) (dead : List Bool) : List α :=
  ((xs.zip dead).filter fun p => !p.2).map Prod.fst

class Numerics where
  /-- Scores, ordered by `total_cmp`. -/
  Score : Type
  [order : LinearOrder Score]
  cosine : Vec → Vec → Score
  normalized : Vec → Vec
  /-- Whether a filter with this fraction of matches is dense. -/
  isDense : F32 → Bool
  /-- How many hits make up for a filter: `k` over the fraction of matches, rounded up. -/
  oversampled : Nat → F32 → Nat
  /-- Distances of the graph walk. -/
  Dist : Type
  [distOrder : LinearOrder Dist]
  /-- The quantised distance from a query to a row, for a tier built from the rows. -/
  proxy : QuantKind → List Vec → Nat → Vec → Dist
  /-- The distance the candidates of a walk are ordered by; the same except in the hybrid mode. -/
  rescore : QuantKind → List Vec → Nat → Vec → Dist → Dist
  /-- The score by which a scan of given rows orders them; higher is closer. -/
  proxyRescore : QuantKind → List Vec → Nat → Vec → Dist
  /-- The rows of a flat index that a quantised scan of the live ones keeps, best first. -/
  flatScan : QuantKind → List Vec → (live : List Nat) → Vec → (width : Nat) → List Nat
  /-- `build_disk_graph`. -/
  buildGraph : QuantKind → (rows : List Vec) → BuiltGraph rows.length
  /-- The re-wired graph of `patch_graph`. -/
  patchGraph : (rows : List Vec) → List Node → (dead : List Bool) → Nat →
    BuiltGraph (surviving rows dead).length
  /-- k-means centroids of rows of dimension `dim`. -/
  centroids : (rows : List Vec) → (dim nCells iters : Nat) → List Vec
  length_centroids : ∀ rows dim nCells iters, (centroids rows dim nCells iters).length = nCells
  dim_centroids : ∀ rows dim nCells iters, (∀ v ∈ rows, v.length = dim) →
    ∀ c ∈ centroids rows dim nCells iters, c.length = dim

attribute [reducible] Numerics.order Numerics.distOrder

attribute [instance] Numerics.order Numerics.distOrder

end Vector

end Skeg
