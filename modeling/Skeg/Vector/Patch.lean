import Skeg.Vector.Build
import Skeg.Vector.Numerics
import Mathlib.Data.List.Dedup

/-!
# Patching the graph after deletes

`patch_graph` of `vamana.rs`: the dead rows are dropped and the others renumbered.  A row that pointed at a dead one is
joined to the neighbours of the dead one instead, and pruned.  Distances are a parameter, and so is what the generator
of random numbers chooses when the entry point is dead.
-/

namespace Skeg

namespace Vector

/-- Indexing, which panics out of range. -/
def index {α : Type} (l : List α) (i : Nat) : Except Fault α :=
  match l[i]? with
  | some a => .ok a
  | none => .error (.panic "index out of bounds")

/-- The new number of each row; `u32::MAX` is a row that is removed. -/
def remapRows : List Bool → Nat → List UInt32
  | [], _ => []
  | true :: dead, next => 0xFFFFFFFF :: remapRows dead next
  | false :: dead, next => UInt32.ofNat next :: remapRows dead (next + 1)

/-- The graph and the vectors in memory. -/
structure VamanaIndex where
  dim : Nat
  n : UInt32
  vectors : List Vec
  ids : List UInt64
  nodes : List Node
  medoid : UInt32
  r : Nat
  lSearch : Nat

/-- What `patch_graph` reads. -/
structure PatchInput (δ : Type) where
  vectors : List Vec
  ids : List UInt64
  adj : List Node
  dead : List Bool
  oldMedoid : UInt32
  dim : Nat
  lSearch : Nat
  r : Nat
  alpha2 : δ → δ
  medoidSample : Nat
  /-- The distance of two old rows. -/
  dist : UInt32 → UInt32 → δ
  /-- The rows of an index of so many rows, as they are shuffled. -/
  shuffled : Nat → List UInt32
  /-- The summed distance of a row to a sample, over the new rows. -/
  summed : List Vec → List UInt32 → UInt32 → δ

namespace PatchInput

variable {δ : Type} [LinearOrder δ] (i : PatchInput δ)

/-- The neighbours of a dead neighbour. -/
def bridge (p w : UInt32) : Except Fault (List UInt32) := do
  let node ← index i.adj w.toNat
  let xs ← node.slice
  let live ← xs.mapM fun x => if x = p then pure [] else do
    let gone ← index i.dead x.toNat
    pure (if gone then [] else [x])
  pure live.flatten

/-- The out-list of a survivor, in old rows: as it was if all of it is live, or else bridged and pruned. -/
def relinked (p : UInt32) (out : List UInt32) : Except Fault (List UInt32) := do
  let gone ← out.mapM fun w => index i.dead w.toNat
  if gone.all (! ·) then pure out
  else
    let cand ← (out.zip gone).mapM fun w => if w.2 then i.bridge p w.1 else pure [w.1]
    pure (robustPrune i.alpha2 i.dist i.r p (cand.flatten.dedup.map fun c => (i.dist p c, c)))

/-- The new node of a survivor. -/
def patchNode (p : UInt32) : Except Fault Node := do
  let node ← index i.adj p.toNat
  let out ← node.slice
  let kept ← i.relinked p out
  let remapped ← kept.mapM fun w => index (remapRows i.dead 0) w.toNat
  pure (Node.new.set remapped)

/-- The sampled row with the smallest summed distance; the first of an empty sample panics. -/
def approximateMedoid (vectors : List Vec) (n : Nat) : Except Fault UInt32 :=
  match (i.shuffled n).take (min i.medoidSample n) with
  | [] => .error (.panic "index out of bounds")
  | first :: rest =>
    .ok ((first :: rest).foldl (fun (best : UInt32 × Option δ) cand =>
      let sum := i.summed vectors (first :: rest) cand
      if best.2.all (sum < ·) then (cand, some sum) else best) (first, none)).1

/-- The entry point of `n` survivors: the old one if it is among them. -/
def newMedoid (vectors : List Vec) (n : Nat) : Except Fault UInt32 :=
  if i.oldMedoid = 0xFFFFFFFF then i.approximateMedoid vectors n
  else
    match index i.dead i.oldMedoid.toNat with
    | .error e => .error e
    | .ok true => i.approximateMedoid vectors n
    | .ok false => index (remapRows i.dead 0) i.oldMedoid.toNat

def patchGraph : Except Fault VamanaIndex := do
  let survivors := surviving ((List.range i.ids.length).map UInt32.ofNat) i.dead
  let newIds := surviving i.ids i.dead
  let newVectors := surviving i.vectors i.dead
  if newIds.length = 0 then throw (.panic "delete-patch left no survivors")
  let nodes ← survivors.mapM i.patchNode
  let medoid ← i.newMedoid newVectors newIds.length
  pure ⟨i.dim, UInt32.ofNat newIds.length, newVectors, newIds, nodes, medoid, i.r, i.lSearch⟩

end PatchInput

end Vector

end Skeg
