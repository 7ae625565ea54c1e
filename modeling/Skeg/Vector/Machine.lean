import Skeg.Vector.Maintain

/-!
# One disk vector index and its background job

`Sys` is an index, its directory, and what its maintenance has outstanding: at most one job of `flush`,
`merge_runs`, `consolidate` or `delete_patch`, and at most one rebuild of the router.  `Sys.exec` runs
one action; it ends in a `Fault` where the source returns an error or panics.  The events are the
inserts and deletes that returned `Ok`.
-/

namespace Skeg

namespace Vector

inductive JobKind where
  | flush | mergeRuns | consolidate | deletePatch
  deriving DecidableEq, Repr

/-- A job between `begin` and `finish`. -/
inductive Job where
  | flush (j : FlushJob)
  | flushBuilt (b : FlushBuilt)
  | mergeRuns (j : RunMergeJob)
  | mergeRunsBuilt (b : RunMergeBuilt)
  | consolidate (j : ConsolidateJob)
  | consolidateBuilt (b : ConsolidateBuilt)
  | deletePatch (j : DeletePatchJob)
  | deletePatchBuilt (b : DeletePatchBuilt)

structure Sys where
  dir : Dir
  index : Index
  job : Option Job
  ivfJob : Option (IvfJob ⊕ IvfRouter)

inductive Act where
  | insert (id : UInt64) (vector : Vec)
  | delete (id : UInt64)
  | flush
  | consolidate
  | begin (k : JobKind)
  | build
  | finish
  /-- A job from `begin` to `finish`, beside the one that is outstanding. -/
  | whole (k : JobKind)
  | ivfBegin (nCells iters : Nat)
  | ivfBuild
  | ivfFinish
  | reopen
  | setAutoFlush (on : Bool)
  deriving DecidableEq, Repr

/-- An acknowledged operation. -/
inductive Event where
  | inserted (id : UInt64) (vector : Vec)
  | deleted (id : UInt64)
  deriving DecidableEq, Repr

section

variable [H : Hashes] [N : Numerics]

namespace Sys

/-- `begin`; a second job is not started while one is outstanding. -/
def beginJob (s : Sys) (k : JobKind) : Sys :=
  if s.job.isSome then s
  else
    match k with
    | .flush =>
      let (x, j) := s.index.flushBegin
      { s with index := x, job := j.map .flush }
    | .mergeRuns =>
      let (d, x, j) := s.index.mergeRunsBegin s.dir
      { s with dir := d, index := x, job := j.map .mergeRuns }
    | .consolidate => { s with job := (s.index.consolidateBegin s.dir).map .consolidate }
    | .deletePatch => { s with job := s.index.deletePatchBegin.map .deletePatch }

/-- The build of the outstanding job. -/
def buildJob (s : Sys) : Except Fault Sys :=
  match s.job with
  | some (.flush j) =>
    (j.build s.dir).map fun r => { s with dir := r.1, job := some (.flushBuilt r.2) }
  | some (.mergeRuns j) =>
    (j.build s.dir).map fun r => { s with dir := r.1, job := some (.mergeRunsBuilt r.2) }
  | some (.consolidate j) =>
    (j.build s.dir).map fun r => { s with dir := r.1, job := some (.consolidateBuilt r.2) }
  | some (.deletePatch j) =>
    (j.build s.dir).map fun r => { s with dir := r.1, job := some (.deletePatchBuilt r.2) }
  | _ => .ok s

/-- The finish of the outstanding job, once it is built. -/
def finishJob (s : Sys) : Except Fault Sys :=
  match s.job with
  | some (.flushBuilt b) => .ok { s with index := s.index.flushFinish b, job := none }
  | some (.mergeRunsBuilt b) =>
    (s.index.mergeRunsFinish s.dir b).map fun r => { s with dir := r.1, index := r.2, job := none }
  | some (.consolidateBuilt b) =>
    (s.index.consolidateFinish s.dir b).map fun r => { s with dir := r.1, index := r.2, job := none }
  | some (.deletePatchBuilt b) =>
    (s.index.deletePatchFinish s.dir b).map fun r => { s with dir := r.1, index := r.2, job := none }
  | _ => .ok s

def exec (s : Sys) : Act → Except Fault (Sys × List Event)
  | .insert id v =>
    (s.index.insert s.dir id v).map fun r =>
      ({ s with dir := r.1, index := r.2 }, [.inserted id v])
  | .delete id =>
    let (d, x, _) := s.index.delete s.dir id
    .ok ({ s with dir := d, index := x }, [.deleted id])
  | .flush => (s.index.flush s.dir).map fun r => ({ s with dir := r.1, index := r.2 }, [])
  | .consolidate => (s.index.consolidate s.dir).map fun r => ({ s with dir := r.1, index := r.2 }, [])
  | .begin k => .ok (s.beginJob k, [])
  | .build => s.buildJob.map (·, [])
  | .finish => s.finishJob.map (·, [])
  | .whole k =>
    (({ s with job := none }.beginJob k).buildJob.bind finishJob).map fun t : Sys =>
      ({ t with job := s.job }, [])
  | .ivfBegin nCells iters =>
    .ok (if s.ivfJob.isSome then s
      else { s with ivfJob := (s.index.ivfBegin nCells iters).map .inl }, [])
  | .ivfBuild =>
    match s.ivfJob with
    | some (.inl j) => (j.build s.dir).map fun r => ({ s with ivfJob := some (.inr r) }, [])
    | _ => .ok (s, [])
  | .ivfFinish =>
    match s.ivfJob with
    | some (.inr r) =>
      let (d, x) := s.index.ivfFinish s.dir r
      .ok ({ s with dir := d, index := x, ivfJob := none }, [])
    | _ => .ok (s, [])
  | .reopen =>
    (openIndex s.dir .base s.index.tier).map fun r => ({ s with dir := r.1, index := r.2 }, [])
  | .setAutoFlush on => .ok ({ s with index := { s.index with autoFlush := on } }, [])

/-- The file operations of the actions that replace the base. -/
def swapOps (s : Sys) : Act → List (FileOp FileKind Place)
  | .consolidate =>
    if s.index.survivors.isEmpty then []
    else
      let sorted := sortById s.index.survivors
      match sorted.mapM fun p => s.index.vectorAt s.dir p.1 p.2 with
      | .error _ => []
      | .ok rows =>
        s.index.consolidateOps (buildDiskGraph s.index.tier s.index.dim (sorted.map Prod.fst) rows) rows
  | .finish =>
    match s.job with
    | some (.consolidateBuilt b) =>
      let wal := ((s.dir .log).read .base).getD []
      match decodeWalPayload s.index.walFormat (wal.drop b.walOffset) s.index.dim with
      | .error _ => [.remove .ivf .base]
      | .ok suffix => consolidateFinishOps (max b.runSeqHigh s.index.runSeq) suffix
    | some (.deletePatchBuilt _) => deletePatchFinishOps
    | _ => []
  | _ => []

/-- The actions that return `Ok`. -/
def step (s : Sys) (a : Act) : Option (Sys × List Event) := (s.exec a).toOption

/-- An index opened on a directory, with nothing outstanding. -/
def opened (d : Dir) (tier : QuantKind) : Option Sys :=
  (openIndex d .base tier).toOption.map fun r => ⟨r.1, r.2, none, none⟩

end Sys

/-! ### Builds that fail -/

/-- The directory a job will be built in. -/
def Job.place : Job → Option Place
  | .flush j => some (.run j.seq)
  | .mergeRuns j => some (.run j.mergedSeq)
  | .consolidate _ => some .consolidating
  | .deletePatch _ => some .patching
  | .flushBuilt _ | .mergeRunsBuilt _ | .consolidateBuilt _ | .deletePatchBuilt _ => none

/-- A build clears its directory and then writes files into it. -/
def buildOps (p : Place) (files : List (FileKind × Bytes)) : List (FileOp FileKind Place) :=
  removeTree p ++ files.flatMap fun f => [.create f.1 p, .write f.1 p f.2]

/-- The build of the outstanding job stops within its file operations; there is no `finish`. -/
def Sys.failBuild (s : Sys) (files : List (FileKind × Bytes)) (n c : Nat) : Sys :=
  match s.job.bind Job.place with
  | none => s
  | some p => { s with dir := Files.crashAt (buildOps p files) n c s.dir, job := none }

inductive FailAct where
  | act (a : Act)
  | failBuild (files : List (FileKind × Bytes)) (n c : Nat)

/-- The actions that return `Ok`, and builds that fail. -/
def Sys.failStep (s : Sys) : FailAct → Option (Sys × List Event)
  | .act a => s.step a
  | .failBuild files n c => some (s.failBuild files n c, [])

end

/-- The map the acknowledged operations make of `m`. -/
def Event.apply (m : UInt64 → Option Vec) : Event → UInt64 → Option Vec
  | .inserted id v => Function.update m id (some v)
  | .deleted id => Function.update m id none

def mapOf (m : UInt64 → Option Vec) (hist : List Event) : UInt64 → Option Vec :=
  hist.foldl Event.apply m

end Vector

end Skeg
