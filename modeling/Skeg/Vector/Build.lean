import Skeg.Lib.Interaction
import Skeg.Vector.Walk
import Mathlib.Data.List.Sort

/-!
# Building the graph

`vamana.rs`: a node and its out-list, `robust_prune`, and `insert_point_concurrent`, of which many run at a time.  What
a call does to a node it does under the node's lock, so a call is a program of locked operations, and a pass takes the
operations of its calls in any order.  Distances and the relaxation by `alpha` are parameters.
-/

namespace Skeg

namespace Vector

open Interaction

/-! ### Nodes -/

namespace Node

def set (node : Node) (ids : List UInt32) : Node where
  degree := UInt32.ofNat (min ids.length maxR)
  neighbors := ids.take (min ids.length maxR) ++ node.neighbors.drop (min ids.length maxR)
  length_neighbors := by
    rw [List.length_append, List.length_take, List.length_drop, node.length_neighbors]
    omega

/-- Also returns whether the id is in the list. -/
def tryPush (node : Node) (id : UInt32) (maxDegree : Nat) : Except Fault (Bool × Node) :=
  match node.slice with
  | .error e => .error e
  | .ok ids =>
    if id ∈ ids then .ok (true, node)
    else if node.degree.toNat < maxDegree then
      if node.degree.toNat < maxR then
        .ok (true, ⟨node.degree + 1, node.neighbors.set node.degree.toNat id,
          List.length_set.trans node.length_neighbors⟩)
      else .error (.panic "index out of bounds")
    else .ok (false, node)

end Node

/-! ### Pruning -/

section

variable {δ : Type} [LinearOrder δ]

/-- While there is room the nearest candidate is picked, and those that it makes redundant are dropped. -/
def pickNeighbors (alpha : δ → δ) (dist : UInt32 → UInt32 → δ) : Nat → List (δ × UInt32) → List UInt32
  | 0, _ => []
  | _ + 1, [] => []
  | room + 1, (_, pStar) :: rest =>
    pStar :: pickNeighbors alpha dist room
      (rest.filter fun c => c.2 ≠ pStar ∧ c.1 < alpha (dist pStar c.2))

def robustPrune (alpha : δ → δ) (dist : UInt32 → UInt32 → δ) (r : Nat) (p : UInt32)
    (candidates : List (δ × UInt32)) : List UInt32 :=
  pickNeighbors alpha dist r ((candidates.filter fun c => c.2 ≠ p).insertionSort fun a b => a.1 ≤ b.1)

end

/-! ### Locked operations -/

/-- What is done to a node under its lock. -/
inductive Locked where
  | neighbors (id : UInt32)
  | set (id : UInt32) (ids : List UInt32)
  | tryPush (id p : UInt32) (maxDegree : Nat)

@[reducible] def Locked.Ret : Locked → Type
  | neighbors _ => List UInt32
  | set .. => Unit
  | tryPush .. => Bool

@[reducible] def lockedGraph : Signature := ⟨Locked, Locked.Ret⟩

def Locked.run (nodes : List Node) : (o : Locked) → Except Fault (o.Ret × List Node)
  | neighbors id =>
    match nodes[id.toNat]? with
    | none => .error (.panic "index out of bounds")
    | some node =>
      match node.slice with
      | .error e => .error e
      | .ok ids => .ok (ids, nodes)
  | set id ids =>
    match nodes[id.toNat]? with
    | none => .error (.panic "index out of bounds")
    | some node => .ok ((), nodes.set id.toNat (node.set ids))
  | tryPush id p maxDegree =>
    match nodes[id.toNat]? with
    | none => .error (.panic "index out of bounds")
    | some node =>
      match node.tryPush p maxDegree with
      | .error e => .error e
      | .ok (there, node') => .ok (there, nodes.set id.toNat node')

/-! ### Inserting a point -/

/-- `VisitedBitset::iter`. -/
def VisitedBitset.iter (b : VisitedBitset) : List Nat := (List.range b.capacity).filter fun i => i ∈ b.bits

section

variable {δ : Type} [LinearOrder δ]

/-- `greedy_search` over the graph that others work on. -/
def walkLocked (dist : Nat → δ) : Nat → Walk δ → Program lockedGraph (Except Fault (Walk δ))
  | 0, w => .ret (.ok w)
  | rounds + 1, w =>
    match w.list.popNextUnvisited with
    | (none, list) => .ret (.ok { w with list := list })
    | (some row, list) =>
      match w.visited.testAndSet row with
      | .error e => .ret (.error e)
      | .ok (true, visited) => walkLocked dist rounds { w with list := list, visited := visited }
      | .ok (false, visited) =>
        .op (.neighbors (UInt32.ofNat row)) fun nbrs =>
          match { w with list := list, visited := visited }.offerAll dist (fun _ => true)
              (nbrs.map UInt32.toNat) with
          | .error e => .ret (.error e)
          | .ok w => walkLocked dist rounds w

/-- The arguments of a call. -/
structure Insertion (δ : Type) where
  medoid : UInt32
  p : UInt32
  /-- Multiplication with `alpha`. -/
  alpha : δ → δ
  lBuild : Nat
  /-- The distance of two rows. -/
  dist : UInt32 → UInt32 → δ

/-- The back-edges: `p` is appended where there is room, and pruned in where there is not. -/
def backEdges (r : Nat) (c : Insertion δ) : List UInt32 → Program lockedGraph (Except Fault Unit)
  | [] => .ret (.ok ())
  | j :: js =>
    .op (.tryPush j c.p r) fun there =>
      if there then backEdges r c js
      else
        .op (.neighbors j) fun nbrs =>
          .op (.set j (robustPrune c.alpha c.dist r j ((nbrs ++ [c.p]).map fun id => (c.dist j id, id)))) fun _ =>
            backEdges r c js

/-- What the walk expanded, and the neighbours that are not among it. -/
def Insertion.candidates (c : Insertion δ) (w : Walk δ) (nbrs : List UInt32) : List (δ × UInt32) :=
  nbrs.foldl (fun cs nbr => if nbr ≠ c.p ∧ ¬ cs.any (fun x => x.2 = nbr) then cs ++ [(c.dist c.p nbr, nbr)] else cs)
    (((w.visited.iter.map UInt32.ofNat).filter fun id => id ≠ c.p).map fun id => (c.dist c.p id, id))

/-- One call on a graph of `n` rows.  A walk expands a row at most once, so that it has ended after `n + 1` rounds. -/
def insertPointConcurrent (n r : Nat) (c : Insertion δ) : Program lockedGraph (Except Fault Unit) :=
  let dist := fun row => c.dist c.p (UInt32.ofNat row)
  match (⟨SearchList.new (max c.lBuild 1), .new n, .new n⟩ : Walk δ).offerAll dist (fun _ => true)
      [c.medoid.toNat] with
  | .error e => .ret (.error e)
  | .ok w =>
    walkLocked dist (n + 1) w >>= fun walked =>
      match walked with
      | .error e => .ret (.error e)
      | .ok w =>
        .op (.neighbors c.p) fun nbrs =>
          let newNeighbors := robustPrune c.alpha c.dist r c.p (c.candidates w nbrs)
          .op (.set c.p newNeighbors) fun _ => backEdges r c newNeighbors

end

/-! ### A pass -/

/-- The graph, and what is left of each call. -/
structure Pass where
  nodes : List Node
  tasks : List (Program lockedGraph (Except Fault Unit))

namespace Pass

/-- Call `i` does its next operation; a panic ends the call. -/
def step (s : Pass) (i : Nat) : Pass :=
  match s.tasks[i]? with
  | some (.op o k) =>
    match Locked.run s.nodes o with
    | .error e => { s with tasks := s.tasks.set i (.ret (.error e)) }
    | .ok (a, nodes) => ⟨nodes, s.tasks.set i (k a)⟩
  | _ => s

/-- The calls move in the order of a schedule. -/
def run (s : Pass) (schedule : List Nat) : Pass := schedule.foldl step s

end Pass

end Vector

end Skeg
