import Skeg.Lib.TopK
import Skeg.Vector.Numerics
import Mathlib.Data.Prod.Lex

/-!
# The flat vector index

`FlatIndex` of `flat.rs`: every vector in memory, one row per id, and the rows that are live.  A search
scans all live rows, in a quantised form unless the index is an `f32` one, and scores what is left
exactly.  The quantised form is a function of the rows; it is not kept here.
-/

namespace Skeg

namespace Vector

structure FlatRow where
  id : UInt64
  vector : Vec
  live : Bool
  deriving DecidableEq

structure FlatIndex where
  dim : Nat
  kind : QuantKind
  rows : List FlatRow
  liveCount : Nat
  deriving DecidableEq

namespace FlatIndex

def new (dim : Nat) (kind : QuantKind) : FlatIndex := ⟨dim, kind, [], 0⟩

/-- `id_to_row`. -/
def row (x : FlatIndex) (id : UInt64) : Option Nat := x.rows.findIdx? fun r => r.id = id

def isLive (x : FlatIndex) (row : Nat) : Bool := x.rows[row]?.any FlatRow.live

def insert (x : FlatIndex) (id : UInt64) (vector : Vec) : FlatIndex :=
  match x.row id with
  | some row => { x with
      rows := x.rows.modify row fun r => { r with vector := vector, live := true }
      liveCount := if x.isLive row then x.liveCount else x.liveCount + 1 }
  | none => { x with rows := x.rows ++ [⟨id, vector, true⟩], liveCount := x.liveCount + 1 }

/-- Also returns whether the id was live. -/
def delete (x : FlatIndex) (id : UInt64) : FlatIndex × Bool :=
  match x.row id with
  | none => (x, false)
  | some row =>
    if x.isLive row then
      ({ x with
          rows := x.rows.modify row fun r => { r with live := false }
          liveCount := x.liveCount - 1 }, true)
    else (x, false)

def len (x : FlatIndex) : Nat := x.liveCount

def contains (x : FlatIndex) (id : UInt64) : Bool := (x.row id).any x.isLive

def get (x : FlatIndex) (id : UInt64) : Option Vec :=
  (x.row id).bind fun row => if x.isLive row then x.rows[row]?.map FlatRow.vector else none

def liveIds (x : FlatIndex) : List UInt64 := (x.rows.filter FlatRow.live).map FlatRow.id

/-- `live.ones()`: the live rows. -/
def ones (x : FlatIndex) : List Nat := (List.range x.rows.length).filter x.isLive

/-- The loop of `select_top_k` over a heap of `(key, row)`, and its sort, best key first. -/
def greatestRows {K : Type} [LinearOrder K] (x : FlatIndex) (k : Nat) (key : Nat → K) : List (K × Nat) :=
  let heap := TopK.select (fun entry weakest => decide (weakest < entry)) k
    (x.ones.map fun row => toLex (key row, row))
  (heap.map ofLex).insertionSort fun a b => b.1 ≤ a.1

/-- The `k` live rows with the greatest key.  The heap is reserved for `k + 1` entries, however few rows there are. -/
def selectTopK {K : Type} [LinearOrder K] (room : Nat) (x : FlatIndex) (k : Nat) (key : Nat → K) :
    Except Fault (List (K × Nat)) := do
  reserve room (k + 1)
  return x.greatestRows k key

/-- Candidates that are scored exactly. -/
def rerankWidth (k : Nat) : Nat := max (k * 8) 64

section

variable [N : Numerics]

def vectorOf (x : FlatIndex) (row : Nat) : Vec := (x.rows[row]?.map FlatRow.vector).getD []

/-- The best `k` of some scored ids, best first. -/
def topOf (k : Nat) (scored : List (UInt64 × N.Score)) : List (UInt64 × N.Score) :=
  (scored.insertionSort fun a b => b.2 ≤ a.2).take k

def scoreIds (x : FlatIndex) (query : Vec) (ids : List UInt64) (k : Nat) : List (UInt64 × N.Score) :=
  topOf k (ids.filterMap fun id => (x.get id).map fun v => (id, N.cosine query v))

/-- The best rows under the exact score. -/
def searchExact (room : Nat) (x : FlatIndex) (query : Vec) (k : Nat) : Except Fault (List (UInt64 × N.Score)) := do
  let top ← selectTopK room x k fun row => N.cosine query (x.vectorOf row)
  return top.filterMap fun p => x.rows[p.2]?.map fun r => (r.id, p.1)

def search (room : Nat) (x : FlatIndex) (query : Vec) (k : Nat) : Except Fault (List (UInt64 × N.Score)) := do
  if k = 0 ∨ x.liveCount = 0 then return []
  match x.kind with
  | .f32 => searchExact room x query k
  | kind =>
    let width := min (rerankWidth k) x.liveCount
    reserve room (width + 1)
    let candidates := N.flatScan kind (x.rows.map FlatRow.vector) x.ones query width
    return topOf k (candidates.filterMap fun row =>
      x.rows[row]?.map fun r => (r.id, N.cosine query r.vector))

end

end FlatIndex

end Vector

end Skeg
