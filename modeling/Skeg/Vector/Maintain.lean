import Skeg.Vector.Index

/-!
# Moving vectors between the layers

`flush`, `consolidate`, and the background jobs of `vamana.rs`.  A job has three parts: `begin` takes a
snapshot under the lock, `build` works on it without the lock, reading through the file handles it
duplicated, and `finish` splices the result in.
-/

namespace Skeg

namespace Vector

/-! ### What survives -/

/-- Where a surviving vector is. -/
inductive Loc where
  | delta
  | flushing
  | seg (i row : Nat)
  deriving DecidableEq, Repr

/-- Keep the first entry of each id that has not been seen. -/
def firsts {α : Type*} : List UInt64 → List (UInt64 × α) → List (UInt64 × α)
  | _, [] => []
  | seen, p :: ps => if p.1 ∈ seen then firsts seen ps else p :: firsts (p.1 :: seen) ps

/-- The rows of a segment with their ids. -/
def Segment.rows (s : Segment) (i : Nat) : List (UInt64 × Nat × Nat) :=
  s.ids.zipIdx.map fun p => (p.1, i, p.2)

def sortById {α : Type*} (ps : List (UInt64 × α)) : List (UInt64 × α) :=
  ps.insertionSort fun a b => a.1 ≤ b.1

namespace Index

/-- The rows of the runs, newest run first, that are not tombstoned; runs are numbered from `i`. -/
def runRows (x : Index) (i : Nat) : List (UInt64 × Nat × Nat) :=
  (x.runs.zipIdx.reverse.flatMap fun p => p.1.rows (p.2 + i)).filter fun p => p.1 ∉ x.tombstones

def baseRows (x : Index) : List (UInt64 × Nat × Nat) :=
  (x.base.rows 0).filter fun p => p.1 ∉ x.tombstones

/-- The base and the runs, as `consolidate` numbers them. -/
def segs (x : Index) : List Segment := x.base :: x.runs

/-- The newest copy of every live id. -/
def survivors (x : Index) : List (UInt64 × Loc) :=
  firsts [] (x.delta.keys.map (·, .delta) ++ x.flushing.keys.map (·, .flushing) ++
    (x.runRows 1 ++ x.baseRows).map fun p => (p.1, .seg p.2.1 p.2.2))

end Index

/-- A row read through a handle. -/
def readAt (d : Dir) (dim : Nat) (files : List Nat) (i row : Nat) : Except Fault Vec :=
  match files[i]? with
  | none => .error (.panic "index out of bounds")
  | some file => readVector ((d .vectors).data file) dim row

def Index.vectorAt (d : Dir) (x : Index) (id : UInt64) : Loc → Except Fault Vec
  | .delta => .ok ((x.delta.lookup id).getD [])
  | .flushing => .ok ((x.flushing.lookup id).getD [])
  | .seg i row => readAt d x.dim (x.segs.map Segment.file) i row

/-- `remove_dir_all`. -/
def removeTree (p : Place) : List (FileOp FileKind Place) :=
  [.remove .graph p, .remove .vectors p, .remove .log p, .remove .ivf p]

/-- `discard_runs`. -/
def discardRuns (runSeq : Nat) : List (FileOp FileKind Place) :=
  (List.range runSeq).flatMap fun seq => removeTree (.run seq)

section

variable [H : Hashes] [N : Numerics]

/-- The graph of some rows, with the disk build configuration. -/
def buildDiskGraph (tier : QuantKind) (dim : Nat) (ids : List UInt64) (rows : List Vec) : Graph :=
  ⟨dim, (N.buildGraph tier rows).medoid, 64, 100, ids, (N.buildGraph tier rows).nodes⟩

/-- Save a graph and open what was saved, for its segment. -/
def saveAndOpen (d : Dir) (p : Place) (tier : QuantKind) (g : Graph) (rows : List Vec) :
    Except Fault (Dir × Segment) :=
  match openIndex (d.run (saveOps p g rows)) p tier with
  | .error e => .error e
  | .ok (d, x) => .ok (d, x.base)

namespace Index

/-- The inline flush: the delta becomes the newest run. -/
def flush (d : Dir) (x : Index) : Except Fault (Dir × Index) :=
  if x.delta.keys.isEmpty then .ok (d, x)
  else
    let ids := x.delta.entries.map fun e => e.1
    let rows := x.delta.entries.map fun e => e.2
    match saveAndOpen d (.run x.runSeq) x.tier (buildDiskGraph x.tier x.dim ids rows) rows with
    | .error e => .error e
    | .ok (d, run) =>
      .ok (d, { x with
        runSeq := x.runSeq + 1
        runs := x.runs ++ [run]
        runDirs := x.runDirs ++ [x.runSeq]
        delta := ∅ })

/-- The delta size at which `insert` flushes inline. -/
def flushAt : Nat := 4096

def insert (d : Dir) (x : Index) (id : UInt64) (vector : Vec) : Except Fault (Dir × Index) :=
  if vector.length ≠ x.dim then
    .error (.err (.invalidInput s!"vector has {vector.length} dims, index has {x.dim}"))
  else
    let d := x.logOp d (.insert id vector)
    let x := x.applyInsert id vector
    if x.autoFlush && decide (flushAt ≤ x.delta.keys.length) then x.flush d else .ok (d, x)

/-! ### The inline consolidate -/

/-- The file operations of `consolidate`, for the graph it has built. -/
def consolidateOps (x : Index) (g : Graph) (rows : List Vec) : List (FileOp FileKind Place) :=
  [.remove .ivf .base] ++ saveOps .base g rows ++ discardRuns x.runSeq ++ writeWalOps []

def consolidate (d : Dir) (x : Index) : Except Fault (Dir × Index) :=
  if x.survivors.isEmpty then .ok (d, x)
  else
    let sorted := sortById x.survivors
    match sorted.mapM fun p => x.vectorAt d p.1 p.2 with
    | .error e => .error e
    | .ok rows =>
      let g := buildDiskGraph x.tier x.dim (sorted.map Prod.fst) rows
      openIndex (d.run (x.consolidateOps g rows)) .base x.tier

end Index

/-! ### The off-thread flush -/

structure FlushJob where
  ids : List UInt64
  rows : List Vec
  dim : Nat
  tier : QuantKind
  seq : Nat

structure FlushBuilt where
  run : Segment
  seq : Nat

def Index.flushBegin (x : Index) : Index × Option FlushJob :=
  if x.delta.keys.isEmpty || !x.flushing.keys.isEmpty then (x, none)
  else
    ({ x with flushing := x.delta, delta := ∅, runSeq := x.runSeq + 1 },
      some ⟨x.delta.entries.map fun e => e.1, x.delta.entries.map fun e => e.2, x.dim, x.tier,
        x.runSeq⟩)

def FlushJob.build (d : Dir) (j : FlushJob) : Except Fault (Dir × FlushBuilt) :=
  match saveAndOpen (d.run (removeTree (.run j.seq))) (.run j.seq) j.tier
      (buildDiskGraph j.tier j.dim j.ids j.rows) j.rows with
  | .error e => .error e
  | .ok (d, run) => .ok (d, ⟨run, j.seq⟩)

def Index.flushFinish (x : Index) (b : FlushBuilt) : Index :=
  { x with runs := x.runs ++ [b.run], runDirs := x.runDirs ++ [b.seq], flushing := ∅ }

/-! ### Merging the runs -/

structure RunMergeJob where
  survivors : List (UInt64 × Nat × Nat)
  segFiles : List Nat
  dim : Nat
  tier : QuantKind
  mergedSeq : Nat
  nMerged : Nat
  oldDirs : List Nat

structure RunMergeBuilt where
  merged : Segment
  mergedSeq : Nat
  nMerged : Nat
  oldDirs : List Nat

def Index.mergeRunsBegin (d : Dir) (x : Index) : Dir × Index × Option RunMergeJob :=
  if x.runs.length < 2 then (d, x, none)
  else
    let survivors := firsts [] (x.runRows 0)
    if survivors.isEmpty then
      -- every entry of the runs is tombstoned: just drop them
      (d.run (x.runDirs.flatMap fun seq => removeTree (.run seq)), { x with runs := [], runDirs := [] },
        none)
    else
      (d, { x with runSeq := x.runSeq + 1 },
        some ⟨sortById survivors, x.runs.map Segment.file, x.dim, x.tier, x.runSeq, x.runs.length,
          x.runDirs⟩)

def RunMergeJob.build (d : Dir) (j : RunMergeJob) : Except Fault (Dir × RunMergeBuilt) :=
  let d := d.run (removeTree (.run j.mergedSeq))
  match j.survivors.mapM fun p => readAt d j.dim j.segFiles p.2.1 p.2.2 with
  | .error e => .error e
  | .ok rows =>
    match saveAndOpen d (.run j.mergedSeq) j.tier
        (buildDiskGraph j.tier j.dim (j.survivors.map Prod.fst) rows) rows with
    | .error e => .error e
    | .ok (d, merged) => .ok (d, ⟨merged, j.mergedSeq, j.nMerged, j.oldDirs⟩)

/-- `split_off` panics when there are fewer runs than were merged. -/
def Index.mergeRunsFinish (d : Dir) (x : Index) (b : RunMergeBuilt) : Except Fault (Dir × Index) :=
  if x.runs.length < b.nMerged ∨ x.runDirs.length < b.nMerged then
    .error (.panic "`at` split index should be <= len")
  else
    .ok (d.run (b.oldDirs.flatMap fun seq => removeTree (.run seq)),
      { x with
        runs := b.merged :: x.runs.drop b.nMerged
        runDirs := b.mergedSeq :: x.runDirs.drop b.nMerged })

/-! ### The background consolidate -/

structure ConsolidateJob where
  delta : List (UInt64 × Vec)
  survivors : List (UInt64 × Nat × Nat)
  segFiles : List Nat
  dim : Nat
  tier : QuantKind
  runSeqHigh : Nat
  walOffset : Nat

structure ConsolidateBuilt where
  base : Segment
  runSeqHigh : Nat
  walOffset : Nat

def Index.consolidateBegin (d : Dir) (x : Index) : Option ConsolidateJob :=
  let delta := firsts [] ((x.delta.entries ++ x.flushing.entries).map fun e => (e.1, e.2))
  let survivors := firsts (delta.map Prod.fst) (x.runRows 1 ++ x.baseRows)
  if survivors.isEmpty && delta.isEmpty then none
  else some ⟨delta, survivors, x.segs.map Segment.file, x.dim, x.tier, x.runSeq,
    ((d .log).data x.log).length⟩

def ConsolidateJob.build (d : Dir) (j : ConsolidateJob) : Except Fault (Dir × ConsolidateBuilt) :=
  let d := d.run (removeTree .consolidating)
  let items : List (UInt64 × (Vec ⊕ Nat × Nat)) := sortById
    (j.delta.map (fun p => (p.1, .inl p.2)) ++ j.survivors.map fun p => (p.1, .inr p.2))
  match items.mapM fun p => p.2.elim .ok fun l => readAt d j.dim j.segFiles l.1 l.2 with
  | .error e => .error e
  | .ok rows =>
    match saveAndOpen d .consolidating j.tier
        (buildDiskGraph j.tier j.dim (items.map Prod.fst) rows) rows with
    | .error e => .error e
    | .ok (d, base) => .ok (d, ⟨base, j.runSeqHigh, j.walOffset⟩)

/-- The file operations of `consolidate_finish`, for the records behind the job's log offset. -/
def consolidateFinishOps (runSeq : Nat) (suffix : List DeltaWalOp) : List (FileOp FileKind Place) :=
  [.remove .ivf .base, .rename .graph .consolidating .base, .rename .vectors .consolidating .base] ++
    removeTree .consolidating ++ discardRuns runSeq ++ writeWalOps suffix

/-- A missing file makes `rename` fail. -/
def hasSidecar (d : Dir) (p : Place) : Bool :=
  ((d .graph).entry p).isSome && ((d .vectors).entry p).isSome

def Index.consolidateFinish (d : Dir) (x : Index) (b : ConsolidateBuilt) :
    Except Fault (Dir × Index) :=
  match (d .log).read .base with
  | none => .error (.err .notFound)
  | some wal =>
    match decodeWalPayload x.walFormat (wal.drop b.walOffset) x.dim with
    | .error e => .error (.err e)
    | .ok suffix =>
      if hasSidecar d .consolidating = false then .error (.err .notFound)
      else
        let runSeq := max b.runSeqHigh x.runSeq
        let d := d.run (consolidateFinishOps runSeq suffix)
        let (logs, log) := (d .log).openAppend .base
        -- `flushing` is left as it is
        let x := { x with
          base := b.base, runs := [], runDirs := [], runSeq := runSeq, delta := ∅, tombstones := ∅,
          liveCount := b.base.mainN, log := log, walFormat := .framedV2, ivf := none }
        .ok (d.modify .log fun _ => logs, x.replayWalOps suffix)

/-! ### Patching deletions out of the base -/

structure DeletePatchJob where
  segFile : Nat
  ids : List UInt64
  adj : List Node
  dead : List Bool
  medoid : Nat
  dim : Nat
  lSearch : Nat
  tier : QuantKind

structure DeletePatchBuilt where
  base : Segment

/-- Ids with a copy newer than the base. -/
def Index.shadows (x : Index) (id : UInt64) : Bool :=
  x.runs.any (fun r => id ∈ r.ids) || (x.delta.lookup id).isSome || (x.flushing.lookup id).isSome

def Index.deletePatchBegin (x : Index) : Option DeletePatchJob :=
  let dead := x.base.ids.map fun id => decide (id ∈ x.tombstones) || x.shadows id
  if x.base.mainN = 0 ∨ dead.all (! ·) ∨ dead.all (·) then none
  else some ⟨x.base.file, x.base.ids, x.base.nodes, dead, x.base.medoid, x.dim, x.lSearch, x.tier⟩

def DeletePatchJob.build (d : Dir) (j : DeletePatchJob) : Except Fault (Dir × DeletePatchBuilt) :=
  let d := d.run (removeTree .patching)
  match (List.range j.ids.length).mapM (readVector ((d .vectors).data j.segFile) j.dim) with
  | .error e => .error e
  | .ok rows =>
    let g := N.patchGraph rows j.adj j.dead j.medoid
    match saveAndOpen d .patching j.tier
        ⟨j.dim, g.medoid, 64, j.lSearch, surviving j.ids j.dead, g.nodes⟩ (surviving rows j.dead) with
    | .error e => .error e
    | .ok (d, base) => .ok (d, ⟨base⟩)

def deletePatchFinishOps : List (FileOp FileKind Place) :=
  [.remove .ivf .base, .rename .graph .patching .base, .rename .vectors .patching .base] ++
    removeTree .patching

def Index.deletePatchFinish (d : Dir) (x : Index) (b : DeletePatchBuilt) : Except Fault (Dir × Index) :=
  if hasSidecar d .patching = false then .error (.err .notFound)
  else
    .ok (d.run deletePatchFinishOps,
      { x with
        base := b.base
        ivf := none
        -- tombstones that no longer cover anything go
        tombstones := x.tombstones.filter fun id => id ∈ b.base.ids ∨ ∃ r ∈ x.runs, id ∈ r.ids })

/-! ### Building the router -/

structure IvfJob where
  segFile : Nat
  n : Nat
  dim : Nat
  nCells : Nat
  iters : Nat

def Index.ivfBegin (x : Index) (nCells iters : Nat) : Option IvfJob :=
  if x.base.mainN = 0 then none else some ⟨x.base.file, x.base.mainN, x.dim, nCells, iters⟩

/-- The square root, rounded to the nearest, between 64 and 65536. -/
def cellsFor (n : Nat) : Nat :=
  let root := if n.sqrt < n - n.sqrt * n.sqrt then n.sqrt + 1 else n.sqrt
  max 64 (min root 65536)

def IvfJob.build (d : Dir) (j : IvfJob) : Except Fault IvfRouter :=
  match (List.range j.n).mapM (readVector ((d .vectors).data j.segFile) j.dim) with
  | .error e => .error e
  | .ok rows => .ok (IvfRouter.build rows j.dim (if j.nCells = 0 then cellsFor j.n else j.nCells) j.iters)

def Index.ivfFinish (d : Dir) (x : Index) (r : IvfRouter) : Dir × Index :=
  (d.run [.create .ivf .base, .write .ivf .base r.toBytes], { x with ivf := some r })

end

end Vector

end Skeg
