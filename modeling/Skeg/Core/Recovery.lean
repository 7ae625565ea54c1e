import Skeg.Core.VLog

/-!
# Opening a store

`openShared` rebuilds a store from its directory.  With a usable snapshot it seeds the index from it
and replays the segments from the snapshot's high-water mark on, the last record of a key winning;
without one it scans every segment and the highest timestamp wins.  Both read a segment through a
`BatchGate`, which holds the members of an atomic batch back until all of them have been seen.
-/

namespace Skeg

/-- What is in a store's directory. -/
structure Disk where
  dir : List Nat
  file : Nat → File
  snapshot : Option Snapshot

def VLog.disk (s : VLog) : Disk := ⟨s.dir, fun id => (s.segs id).file, s.snapshot⟩

/-! ### Batches -/

structure BatchGate where
  expect : Option Nat
  pending : List (Nat × Record)
  deriving DecidableEq

namespace BatchGate

instance : Inhabited BatchGate := ⟨⟨none, []⟩⟩

/-- The number of members a batch header announces. -/
def announced (r : Record) : Nat := if r.value.length < 4 then 0 else fromLE (r.value.take 4)

/-- Feed one scanned record: the gate afterwards, and the records released. -/
def feed (g : BatchGate) (p : Nat × Record) : BatchGate × List (Nat × Record) :=
  if p.2.kind = .batchBegin then
    (⟨if announced p.2 > 0 then some (announced p.2) else none, []⟩, [])
  else
    match g.expect with
    | some n =>
      let pending := g.pending ++ [p]
      if pending.length = n then (⟨none, []⟩, pending) else (⟨some n, pending⟩, [])
    | none => (g, [p])

/-- Feed a run of records: the gate afterwards, and all records released, in order. -/
def feedAll (g : BatchGate) : List (Nat × Record) → BatchGate × List (Nat × Record)
  | [] => (g, [])
  | p :: ps =>
    let r := g.feed p
    let rest := r.1.feedAll ps
    (rest.1, r.2 ++ rest.2)

end BatchGate

section

variable [H : Hashes]

/-- The records of a segment file that recovery applies. -/
def recovered (content : Bytes) : List (Nat × Record) :=
  ((default : BatchGate).feedAll (scanFile content).1).2

def entryAt (id : Nat) (p : Nat × Record) : IndexEntry :=
  ⟨fingerprint p.2.key, id, p.1, p.2.size⟩

/-! ### Full scan -/

abbrev Winners := AList fun _ : Bytes => Nat × RecordKind × IndexEntry

def addWinner (id : Nat) (w : Winners) (p : Nat × Record) : Winners :=
  match w.lookup p.2.key with
  | some (ts, _, _) =>
    if p.2.ts > ts then w.insert p.2.key (p.2.ts, p.2.kind, entryAt id p) else w
  | none => w.insert p.2.key (p.2.ts, p.2.kind, entryAt id p)

def winners (d : Disk) : Winners :=
  (listSegments d.dir).foldl (fun w id => (recovered (d.file id).content).foldl (addWinner id) w) ∅

/-- The winners that are not tombstones. -/
def winnersIndex (w : Winners) : Index :=
  w.entries.foldl (fun index p => if p.2.2.1 ≠ .tombstone then index.insert p.1 p.2.2.2 else index) ∅

/-! ### Replay over a snapshot -/

def replayOne (id : Nat) (index : Index) (p : Nat × Record) : Index :=
  if p.2.kind = .tombstone then index.erase p.2.key else index.insert p.2.key (entryAt id p)

def replay (d : Disk) (ids : List Nat) (index : Index) : Index :=
  ids.foldl (fun index id => (recovered (d.file id).content).foldl (replayOne id) index) index

def snapshotIndex (sn : Snapshot) : Index :=
  sn.entries.foldl (fun index p => index.insert p.1 p.2) ∅

/-- A snapshot is usable only if every segment it references still exists. -/
def usableSnapshot (d : Disk) : Option Snapshot :=
  d.snapshot.filter fun sn => sn.entries.all fun p => p.2.segmentId ∈ d.dir

/-- The newest timestamp among the records of the given segments. -/
def newestTs (d : Disk) (ids : List Nat) (ts : Nat) : Nat :=
  ids.foldl (fun ts id => (scanFile (d.file id).content).1.foldl (fun ts p => max ts p.2.ts) ts) ts

/-- The index, the newest timestamp, and whether the given segment was read. -/
def recoverIndex (d : Disk) : Index × Nat × (Nat → Bool) :=
  let ids := listSegments d.dir
  match usableSnapshot d with
  | some sn =>
    let ids := ids.filter fun id => sn.hwm ≤ id
    (replay d ids (snapshotIndex sn), newestTs d ids sn.maxTs, fun id => sn.hwm ≤ id)
  | none => (winnersIndex (winners d), newestTs d ids 0, fun _ => true)

/-! ### The store -/

/-- `recover_tenant_disk`. -/
def recoverTenantDisk (index : Index) (disk : AList fun _ : Nat => Nat) : AList fun _ : Nat => Nat :=
  index.entries.foldl (fun disk p =>
    disk.insert (tenantFromKey p.1) ((disk.lookup (tenantFromKey p.1)).getD 0 + p.2.size)) disk

def liveBytes (index : Index) (id : Nat) : Nat :=
  ((index.entries.filter fun p => p.2.segmentId = id).map fun p => p.2.size).sum

def cacheBudgetBytes : Nat := 32 * 1024 * 1024

def openShared (d : Disk) (maxSegSize : Nat) (tenantDisk : AList fun _ : Nat => Nat) : VLog :=
  let ids := listSegments d.dir
  let (index, maxTs, isRead) := recoverIndex d
  -- a sealed segment has no committer; its offset is never used
  let segs : Nat → Segment := fun id =>
    if id ∈ d.dir then ⟨d.file id, [], (d.file id).data.length⟩ else default
  let s : VLog := {
    maxSegSize := maxSegSize
    dir := d.dir
    segs := segs
    snapshot := d.snapshot
    readSegments := ids.map fun id => ⟨id, liveBytes index id⟩
    index := index
    cache := S3Fifo.new cacheBudgetBytes
    tenantDisk := recoverTenantDisk index tenantDisk
    active := ⟨0, 0⟩
    rotateLock := none
    appendLock := none
    clock := maxTs + 1
    tasks := ∅
    acks := fun _ => none }
  match ids.getLast? with
  | some id =>
    -- the segment that resumes as active is cut behind its last record
    let used := (scanFile (d.file id).content).2
    let file := if isRead id then ((d.file id).truncate used).preallocate maxSegSize else d.file id
    let size := if isRead id then used else (d.file id).len
    { s with segs := Function.update segs id ⟨file, [], size⟩, active := ⟨id, size⟩ }
  | none =>
    { s with
      dir := [0]
      segs := Function.update segs 0 ⟨File.create maxSegSize, [], 0⟩
      readSegments := [⟨0, 0⟩] }

/-- `VLog::open_with_max_segment`: a store with a counter of its own. -/
def openVLog (d : Disk) (maxSegSize : Nat) : VLog := openShared d maxSegSize ∅

/-- An empty directory. -/
def Disk.empty : Disk := ⟨[], fun _ => default, none⟩

end

end Skeg
