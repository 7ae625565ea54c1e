import Skeg.Lib.Files
import Skeg.Vector.Ivf
import Mathlib.Data.List.AList
import Mathlib.Data.Finset.Basic

/-!
# The disk vector index

`DiskVamanaIndex` of `vamana.rs`: an immutable base segment, LSM runs flushed from an in-memory delta,
tombstones, and the delta log that brings the delta and the tombstones back on open.  The index is its
memory (`Index`) over the files of its directory (`Dir`); a segment keeps its `vectors.bin` open, so it
refers to an inode and not to a path.

This module has the state, `open`, and the point operations; `Maintain` has what moves vectors between
the layers.
-/

namespace Skeg

namespace Vector

inductive FileKind where
  | graph | vectors | log | ivf
  deriving DecidableEq, Repr

/-- The directories an index writes to: its own, its runs, and the sidecars of the background jobs. -/
inductive Place where
  | base
  | run (seq : Nat)
  | consolidating
  | patching
  deriving DecidableEq, Repr

abbrev Dir := Files FileKind Place

/-- An immutable on-disk segment. -/
structure Segment where
  ids : List UInt64
  nodes : List Node
  medoid : Nat
  /-- The rows the quantised tier was built from, when the segment was opened. -/
  quant : List Vec
  /-- The inode of `vectors.bin`. -/
  file : Nat
  deriving DecidableEq

namespace Segment

def mainN (s : Segment) : Nat := s.ids.length

/-- `id_to_main_row`; the last row of an id wins. -/
def row (s : Segment) (id : UInt64) : Option Nat :=
  (s.ids.zipIdx.reverse.find? fun p => p.1 = id).map Prod.snd

def contains (s : Segment) (id : UInt64) : Bool := (s.row id).isSome

end Segment

abbrev VecMap := AList fun _ : UInt64 => Vec

structure Index where
  dim : Nat
  lSearch : Nat
  base : Segment
  /-- Oldest first. -/
  runs : List Segment
  runDirs : List Nat
  tier : QuantKind
  runSeq : Nat
  delta : VecMap
  /-- The delta entries an off-thread flush is building a run from. -/
  flushing : VecMap
  autoFlush : Bool
  tombstones : Finset UInt64
  liveCount : Nat
  /-- The inode of `delta.log`. -/
  log : Nat
  walFormat : DeltaWalFormat
  ivf : Option IvfRouter
  deriving DecidableEq

namespace Index

def isLive (x : Index) (id : UInt64) : Bool :=
  decide (id ∉ x.tombstones) &&
    ((x.delta.lookup id).isSome || (x.flushing.lookup id).isSome || x.base.contains id ||
      x.runs.any fun r => r.contains id)

def contains (x : Index) (id : UInt64) : Bool := x.isLive id

def len (x : Index) : Nat := x.liveCount

/-- Equal neighbours collapse to one. -/
def dedupAdjacent : List UInt64 → List UInt64
  | [] => []
  | [a] => [a]
  | a :: b :: l => if a = b then dedupAdjacent (b :: l) else a :: dedupAdjacent (b :: l)

def liveIds (x : Index) : List UInt64 :=
  dedupAdjacent (((x.base.ids ++ x.runs.flatMap Segment.ids ++ x.delta.keys ++ x.flushing.keys).filter
    fun id => id ∉ x.tombstones).insertionSort fun a b => a ≤ b)

/-! ### Applying operations -/

def applyInsert (x : Index) (id : UInt64) (vector : Vec) : Index :=
  { x with
    tombstones := x.tombstones.erase id
    delta := x.delta.insert id vector
    liveCount := if x.isLive id then x.liveCount else x.liveCount + 1 }

/-- Also returns whether the id was live. -/
def applyDelete (x : Index) (id : UInt64) : Index × Bool :=
  ({ x with
      delta := x.delta.erase id
      flushing := x.flushing.erase id
      tombstones := insert id x.tombstones
      liveCount := if x.isLive id then x.liveCount - 1 else x.liveCount }, x.isLive id)

def applyWalOp (x : Index) : DeltaWalOp → Index
  | .insert id v => x.applyInsert id v
  | .delete id => (x.applyDelete id).1

def replayWalOps (x : Index) (ops : List DeltaWalOp) : Index := ops.foldl applyWalOp x

end Index

/-! ### Opening -/

/-- Remove the runs of an earlier session. -/
def cleanStaleRuns (d : Dir) : Dir := fun k =>
  { d k with entry := fun p => match p with
      | .run _ => none
      | p => (d k).entry p }

/-- The part of the directory a segment is read from. -/
def openSegment (d : Dir) (p : Place) : Except Fault (Graph × Segment) :=
  match (d .graph).read p with
  | none => .error (.err .notFound)
  | some graphBytes =>
    match readGraph graphBytes with
    | .error e => .error e
    | .ok g =>
      match (d .vectors).entry p with
      | none => .error (.err .notFound)
      | some file =>
        match readVectors ((d .vectors).data file) g.ids.length g.dim with
        | .error e => .error e
        | .ok rows => .ok (g, ⟨g.ids, g.nodes, g.medoid, rows, file⟩)

/-- The router sidecar, if its length is that of the base. -/
def loadIvf (d : Dir) (p : Place) (base : Segment) : Option IvfRouter :=
  ((d .ivf).read p).bind fun bytes =>
    (IvfRouter.fromBytes bytes).filter fun r => r.len = base.mainN

section

variable [H : Hashes]

/-- `open_with_tier`. -/
def openIndex (d : Dir) (p : Place) (tier : QuantKind) : Except Fault (Dir × Index) :=
  match openSegment d p with
  | .error e => .error e
  | .ok (g, base) =>
    if tier.isDisk = false then
      .error (.err (.invalidInput "disk tier supports Int8, Pq, or TurboQuant only"))
    else
      match decodeWal (((d .log).read p).getD []) g.dim with
      | .error e => .error (.err e)
      | .ok (walFormat, ops) =>
        let (logs, log) := (d .log).openAppend p
        let x : Index := {
          dim := g.dim, lSearch := g.lSearch, base := base, runs := [], runDirs := [], tier := tier,
          runSeq := 0, delta := ∅, flushing := ∅, autoFlush := true, tombstones := ∅,
          liveCount := base.mainN, log := log, walFormat := walFormat, ivf := none }
        let d' := d.modify .log fun _ => logs
        -- the runs of an index are in its own directory
        .ok (if p = .base then cleanStaleRuns d' else d',
          { x.replayWalOps ops with ivf := loadIvf d p base })

/-- A directory for an index before anything is in it. -/
def Dir.empty : Dir := fun _ => ⟨fun _ => none, fun _ => [], 0⟩

/-- The file operations of `VamanaIndex::save` into `p`. -/
def saveOps (p : Place) (g : Graph) (rows : List Vec) : List (FileOp FileKind Place) :=
  [.create .graph p, .write .graph p (graphVmn g), .create .vectors p,
    .write .vectors p (vectorsBin g.dim rows)]

/-- `write_framed_wal`. -/
def writeWalOps (ops : List DeltaWalOp) : List (FileOp FileKind Place) :=
  [.create .log .base, .write .log .base (framedWal ops)]

/-! ### Point operations -/

/-- Read one row of a segment. -/
def readRow (d : Dir) (dim : Nat) (s : Segment) (row : Nat) : Except Fault Vec :=
  readVector ((d .vectors).data s.file) dim row

namespace Index

/-- The vector an id has in the first of the segments that holds it. -/
def getFrom (d : Dir) (dim : Nat) (id : UInt64) : List Segment → Except Fault (Option Vec)
  | [] => .ok none
  | s :: segs =>
    match s.row id with
    | some row => (readRow d dim s row).map some
    | none => getFrom d dim id segs

/-- The base is asked before the runs, and the runs oldest first. -/
def get (d : Dir) (x : Index) (id : UInt64) : Except Fault (Option Vec) :=
  if id ∈ x.tombstones then .ok none
  else
    match x.delta.lookup id with
    | some v => .ok (some v)
    | none =>
      match x.flushing.lookup id with
      | some v => .ok (some v)
      | none => getFrom d x.dim id (x.base :: x.runs)

/-- Append a record to the log that is open. -/
def logOp (d : Dir) (x : Index) (op : DeltaWalOp) : Dir :=
  d.modify .log fun t => t.append x.log (encodeWalRecord x.walFormat op)

/-- Tombstone `id`; returns whether it was live. -/
def delete (d : Dir) (x : Index) (id : UInt64) : Dir × Index × Bool :=
  (x.logOp d (.delete id), (x.applyDelete id).1, (x.applyDelete id).2)

end Index

end

end Vector

end Skeg
