import Skeg.Core.GroupCommit
import Skeg.Core.Cache

/-!
# The value log

The store of `vlog.rs`: segments with their committers, the in-memory index, the cache and the
per-tenant disk counters, and the operations on them.  A store is owned by one thread and its
operations interleave at their `await` points only, so an operation is a sequence of indivisible
steps; `Pc` is where a task waits and what it still has to do, and `step` runs one task up to its
next `await`, or lets a committer flush a batch.

Every `await` is a possible suspension, also where the awaited value is ready.  Events record what a
step did to the store and what an operation returned.
-/

namespace Skeg

/-! ### State -/

/-- Where the current record of a key is. -/
structure IndexEntry where
  fingerprint : UInt32
  segmentId : Nat
  offset : Nat
  /-- Padded size on disk. -/
  size : Nat
  deriving DecidableEq

abbrev Index := AList fun _ : Bytes => IndexEntry

def fingerprint [H : Hashes] (key : Bytes) : UInt32 := (xxh3_64 key).toUInt32

/-- A decoded index snapshot file. -/
structure Snapshot where
  /-- The active segment when the snapshot was taken. -/
  hwm : Nat
  maxTs : Nat
  entries : List (Bytes × IndexEntry)
  deriving DecidableEq

structure ReadSegment where
  id : Nat
  /-- Bytes of records the index points at in this segment. -/
  live : Nat
  deriving DecidableEq

structure ActiveState where
  id : Nat
  size : Nat
  deriving DecidableEq

inductive Op where
  | get (key : Bytes) (tenant : Nat)
  | set (key value : Bytes) (durability : Durability) (tenant : Nat) (diskLimit : Option Nat)
  | append (key value : Bytes) (durability : Durability) (tenant : Nat) (diskLimit : Option Nat)
  | setMany (pairs : List (Bytes × Bytes)) (durability : Durability)
  | del (key : Bytes) (durability : Durability)
  | compactSegment (id : Nat)
  | maybeCompact
  | reclaimAllDead
  | writeSnapshot
  deriving DecidableEq

/-- What an operation returns. -/
inductive Out where
  | unit
  | value (v : Option Bytes)
  | len (n : Nat)
  | existed (b : Bool)
  | moved (n : Nat)
  | picked (id : Option Nat)
  | freed (n : Nat)
  deriving DecidableEq

abbrev Res := Except Error Out

/-- An operation that appends records, with what it needs once they are written. -/
inductive Cont where
  | set (key value : Bytes) (tenant : Nat) (prev : Option IndexEntry) (isAppend : Bool) (ts : Nat)
  | del (key : Bytes) (prev : IndexEntry) (ts : Nat)
  | setMany (pairs : List (Bytes × Bytes)) (ts : Nat)
  /-- The relocation of the record at `offset` of `seg`, for the compaction `parent`. -/
  | relocate (parent seg offset : Nat) (rec : Record)
  deriving DecidableEq

/-- What `maybe_rotate` was called for. -/
inductive Job where
  | append (durability : Durability) (c : Cont)
  /-- `reclaim_all_dead` seals the active segment. -/
  | sealActive
  deriving DecidableEq

/-- Who called `compact_segment`. -/
inductive Caller where
  | direct
  | maybeCompact
  /-- `reclaim_all_dead`, with the targets left, the bytes freed, and those of this segment. -/
  | reclaim (rest : List (Nat × Nat)) (freed dead : Nat)
  deriving DecidableEq

/-- A compaction relocating records: those not looked at yet, the relocations under way, and the
outcomes so far. -/
structure Relocation where
  seg : Nat
  todo : List (Nat × Record)
  running : List Nat
  err : Option Error
  dests : List Nat
  moved : Nat
  caller : Caller
  deriving DecidableEq

/-- What `append` still has to do after its `get`. -/
structure AppendReq where
  value : Bytes
  durability : Durability
  diskLimit : Option Nat
  deriving DecidableEq

/-- The `await` a task is suspended at. -/
inductive Pc where
  | appendLock (key : Bytes) (tenant : Nat) (req : AppendReq)
  | pread (key : Bytes) (tenant : Nat) (entry : IndexEntry) (req : Option AppendReq)
  /-- `rotate_lock.lock()`. -/
  | lockWait (job : Job)
  /-- `GroupCommitter::start` for the new segment `id`, holding the rotation lock. -/
  | starting (id : Nat) (job : Job)
  /-- `committer.append`. -/
  | commit (seg : Nat) (durability : Durability) (c : Cont)
  | relocating (q : Relocation)
  /-- `sync_durable` of the destinations of a compaction. -/
  | syncing (seg : Nat) (dests : List Nat) (moved : Nat) (caller : Caller)
  | snapshotting (sn : Snapshot)
  deriving DecidableEq

structure VLog where
  maxSegSize : Nat
  /-- The segment files in the directory. -/
  dir : List Nat
  /-- Segments by id; an unlinked one keeps its contents for those that hold a handle. -/
  segs : Nat → Segment
  snapshot : Option Snapshot
  readSegments : List ReadSegment
  index : Index
  cache : S3Fifo Bytes
  tenantDisk : AList fun _ : Nat => Nat
  active : ActiveState
  rotateLock : Option Nat
  appendLock : Option Nat
  clock : Nat
  tasks : AList fun _ : Nat => Pc
  /-- Answers of the committers that their tasks have not received yet. -/
  acks : Nat → Option Ack

inductive Event where
  | spawned (t : Nat) (op : Op)
  /-- A write has drawn its timestamps, or a relocation its record. -/
  | began (t : Nat) (c : Cont)
  /-- The append request of `c` entered the committer of `seg`. -/
  | sent (t seg : Nat) (c : Cont)
  /-- A write took effect on the index; `val = none` is a deletion. -/
  | applied (key : Bytes) (val : Option Bytes) (ts : Nat) (durability : Durability)
  /-- A compaction read `seg`. -/
  | scanned (t seg : Nat)
  | unlinked (seg : Nat)
  /-- A snapshot of the index was taken. -/
  | cut (sn : Snapshot)
  /-- A read put its value into the cache. -/
  | filled (key value : Bytes)
  | returned (t : Nat) (r : Res)
  deriving DecidableEq

/-- The tenant a key is charged to: its first 16 bytes, or 0. -/
def tenantFromKey (key : Bytes) : Nat :=
  if key.length ≥ 16 then fromLE (key.take 16) else 0

/-- The records of an atomic batch, behind its header. -/
def batchMembers : Nat → List (Bytes × Bytes) → List Record
  | _, [] => []
  | ts, p :: pairs => ⟨ts, .scalar, p.1, p.2⟩ :: batchMembers (ts + 1) pairs

def batchRecords (ts : Nat) (pairs : List (Bytes × Bytes)) : List Record :=
  ⟨ts, .batchBegin, [], toLE 4 pairs.length⟩ :: batchMembers (ts + 1) pairs

/-- The records an operation appends. -/
def Cont.records : Cont → List Record
  | .set key value _ _ _ ts => [⟨ts, .scalar, key, value⟩]
  | .del key _ ts => [⟨ts, .tombstone, key, []⟩]
  | .setMany pairs ts => batchRecords ts pairs
  | .relocate _ _ _ rec =>
    [⟨rec.ts, rec.kind, rec.key, if rec.kind = .tombstone then [] else rec.value⟩]

/-- The outcome of the relocation `child`: an error, a skipped record, or the destination and whether
the record carried data. -/
def Relocation.record (q : Relocation) (child : Nat) : Except Error (Nat × Bool) → Relocation
  | .error e => { q with running := q.running.erase child, err := q.err.or (some e) }
  | .ok (dest, isData) => { q with
      running := q.running.erase child
      dests := if dest ∈ q.dests then q.dests else q.dests ++ [dest]
      moved := if isData then q.moved + 1 else q.moved }

def incLive (segs : List ReadSegment) (id bytes : Nat) : List ReadSegment :=
  segs.map fun s => if s.id = id then { s with live := s.live + bytes } else s

def decLive (segs : List ReadSegment) (id bytes : Nat) : List ReadSegment :=
  segs.map fun s => if s.id = id then { s with live := s.live - bytes } else s

namespace VLog

/-! ### Leaving an operation -/

def isReadable (s : VLog) (id : Nat) : Bool := s.readSegments.any fun r => r.id = id

def tenantDiskBytes (s : VLog) (tenant : Nat) : Nat := (s.tenantDisk.lookup tenant).getD 0

def setTask (s : VLog) (t : Nat) (pc : Pc) : VLog := { s with tasks := s.tasks.insert t pc }

def finish (s : VLog) (t : Nat) (r : Res) : VLog × List Event :=
  ({ s with tasks := s.tasks.erase t }, [.returned t r])

/-- Return from `set`, or from `append`, which also drops its lock. -/
def respond (s : VLog) (t : Nat) (isAppend : Bool) (r : Res) : VLog × List Event :=
  finish { s with appendLock := if isAppend then none else s.appendLock } t r

/-- The relocation `child` hands its outcome to its compaction. -/
def childDone (s : VLog) (child parent : Nat) (outcome : Except Error (Nat × Bool)) : VLog :=
  let s := { s with tasks := s.tasks.erase child }
  match s.tasks.lookup parent with
  | some (.relocating q) => s.setTask parent (.relocating (q.record child outcome))
  | _ => s

/-- An append that could not be written. -/
def failCont (s : VLog) (t : Nat) (c : Cont) (e : Error) : VLog × List Event :=
  match c with
  | .set _ _ _ _ isAppend _ => s.respond t isAppend (.error e)
  | .del .. => s.finish t (.error e)
  | .setMany .. => s.finish t (.error e)
  | .relocate parent _ _ _ => (s.childDone t parent (.error e), [])

section

variable [H : Hashes]

/-! ### Appending -/

/-- Reserve space in the active segment and submit the records to its committer, without an `await`
in between. -/
def send (s : VLog) (t : Nat) (durability : Durability) (c : Cont) : VLog × List Event :=
  let id := s.active.id
  let seg := s.segs id
  let req : WriteReq := ⟨encodeAll c.records, durability, t⟩
  ({ s with
      active := { s.active with size := s.active.size + (encodeAll c.records).length }
      segs := Function.update s.segs id { seg with queue := seg.queue ++ [req] }
      tasks := s.tasks.insert t (.commit id durability c) },
    [.sent t id c])

/-- The active segment has no room for `incoming` bytes. -/
def needsRotation (s : VLog) (incoming : Nat) : Prop := s.active.size + incoming > s.maxSegSize

instance (s : VLog) (incoming : Nat) : Decidable (s.needsRotation incoming) :=
  inferInstanceAs (Decidable (_ > _))

/-- `append_raw`, and the end of `set_many`: up to the rotation lock or the committer. -/
def startAppend (s : VLog) (t : Nat) (durability : Durability) (c : Cont) : VLog × List Event :=
  if s.needsRotation (encodeAll c.records).length then
    (s.setTask t (.lockWait (.append durability c)), [.began t c])
  else
    let r := s.send t durability c
    (r.1, .began t c :: r.2)

def beginSet (s : VLog) (t : Nat) (key value : Bytes) (durability : Durability) (tenant : Nat)
    (diskLimit : Option Nat) (isAppend : Bool) : VLog × List Event :=
  let prev := s.index.lookup key
  let oldDisk := prev.elim 0 IndexEntry.size
  let newDisk := paddedRecordSize key.length value.length
  let projected := s.tenantDiskBytes (tenantFromKey key) - oldDisk + newDisk
  if diskLimit.any (fun limit => projected > limit) then s.respond t isAppend (.error .diskQuota)
  else
    let ts := s.clock
    { s with clock := s.clock + 1 }.startAppend t durability (.set key value tenant prev isAppend ts)

def beginDel (s : VLog) (t : Nat) (key : Bytes) (durability : Durability) : VLog × List Event :=
  match s.index.lookup key with
  | none => s.finish t (.ok (.existed false))
  | some prev =>
    let ts := s.clock
    { s with clock := s.clock + 1 }.startAppend t durability (.del key prev ts)

/-- Offsets of the members of a batch relative to its start, from `rel` on. -/
def memberOffsets : Nat → List (Bytes × Bytes) → List Nat
  | _, [] => []
  | rel, p :: pairs => rel :: memberOffsets (rel + paddedRecordSize p.1.length p.2.length) pairs

def beginSetMany (s : VLog) (t : Nat) (pairs : List (Bytes × Bytes)) (durability : Durability) :
    VLog × List Event :=
  if pairs.isEmpty then s.finish t (.ok .unit)
  else if pairs.length ≥ 2 ^ 32 then s.finish t (.error (.invalidRecord "batch too large"))
  else
    let ts := s.clock
    -- members whose offset fits 32 bits; each draws its timestamp after that check
    let fit := ((memberOffsets (paddedRecordSize 0 4) pairs).takeWhile (· < 2 ^ 32)).length
    let s := { s with clock := s.clock + 1 + fit }
    if fit < pairs.length then s.finish t (.error (.invalidRecord "batch too large"))
    else if (encodeAll (batchRecords ts pairs)).length > s.maxSegSize then
      s.finish t (.error (.invalidRecord "batch exceeds one segment"))
    else s.startAppend t durability (.setMany pairs ts)

/-! ### Writes taking effect -/

/-- The end of `set_scoped`.  `none` when the cache insert does not return. -/
def applySet (s : VLog) (t seg offset : Nat) (durability : Durability) (key value : Bytes)
    (tenant : Nat) (prev : Option IndexEntry) (isAppend : Bool) (ts : Nat) :
    Option (VLog × List Event) :=
  let padded := paddedRecordSize key.length value.length
  let live := prev.elim s.readSegments fun p => decLive s.readSegments p.segmentId p.size
  let oldDisk := prev.elim 0 IndexEntry.size
  let dtenant := tenantFromKey key
  match s.cache.insertFor key value value.length tenant with
  | none => none
  | some cache =>
    let s := { s with
      readSegments := incLive live seg padded
      index := s.index.insert key ⟨fingerprint key, seg, offset, padded⟩
      cache := cache
      tenantDisk := s.tenantDisk.insert dtenant (s.tenantDiskBytes dtenant - oldDisk + padded) }
    let r := s.respond t isAppend (.ok (if isAppend then .len value.length else .unit))
    some (r.1, .applied key (some value) ts durability :: r.2)

def applyDel (s : VLog) (t : Nat) (durability : Durability) (key : Bytes) (prev : IndexEntry)
    (ts : Nat) : VLog × List Event :=
  let dtenant := tenantFromKey key
  let s := { s with
    readSegments := decLive s.readSegments prev.segmentId prev.size
    index := s.index.erase key
    cache := s.cache.remove key
    tenantDisk :=
      match s.tenantDisk.lookup dtenant with
      | none => s.tenantDisk
      | some e => if e - prev.size = 0 then s.tenantDisk.erase dtenant
        else s.tenantDisk.insert dtenant (e - prev.size) }
  let r := s.finish t (.ok (.existed true))
  (r.1, .applied key none ts durability :: r.2)

/-- One pair of a batch written at `offset` of `seg`. -/
def applyMember (s : VLog) (seg offset : Nat) (key value : Bytes) : Option VLog :=
  let padded := paddedRecordSize key.length value.length
  let dtenant := tenantFromKey key
  let prev := s.index.lookup key
  let live := prev.elim s.readSegments fun p => decLive s.readSegments p.segmentId p.size
  -- only a tenant with a counter is discharged for the record this one replaces
  let disk := match prev, s.tenantDisk.lookup dtenant with
    | some p, some e => s.tenantDisk.insert dtenant (e - p.size)
    | _, _ => s.tenantDisk
  (s.cache.insertFor key value value.length dtenant).map fun cache => { s with
    readSegments := incLive live seg padded
    index := s.index.insert key ⟨fingerprint key, seg, offset, padded⟩
    cache := cache
    tenantDisk := disk.insert dtenant ((disk.lookup dtenant).getD 0 + padded) }

/-- The pairs of a batch, the first at `offset` of `seg` with timestamp `ts`. -/
def applyMembers (s : VLog) (seg : Nat) (durability : Durability) :
    Nat → Nat → List (Bytes × Bytes) → Option (VLog × List Event)
  | _, _, [] => some (s, [])
  | offset, ts, p :: pairs =>
    match s.applyMember seg offset p.1 p.2 with
    | none => none
    | some s =>
      match applyMembers s seg durability (offset + paddedRecordSize p.1.length p.2.length) (ts + 1)
          pairs with
      | none => none
      | some r => some (r.1, .applied p.1 (some p.2) ts durability :: r.2)

def indexPointsAt (s : VLog) (key : Bytes) (seg offset : Nat) : Bool :=
  (s.index.lookup key).any fun e => e.segmentId = seg && e.offset = offset

/-- The end of one relocation, its copy written at `offset` of `dest`. -/
def applyRelocate (s : VLog) (t dest offset parent seg srcOffset : Nat) (rec : Record) : VLog :=
  if !s.isReadable dest then
    s.childDone t parent
      (.error (.invalidRecord "relocation target segment vanished mid-write"))
  else if rec.kind = .tombstone then s.childDone t parent (.ok (dest, false))
  -- adopt the copy only if the record is still current
  else if s.indexPointsAt rec.key seg srcOffset then
    { s with
      index := s.index.insert rec.key ⟨fingerprint rec.key, dest, offset, rec.size⟩
      readSegments := incLive s.readSegments dest rec.size }.childDone t parent (.ok (dest, true))
  else s.childDone t parent (.ok (dest, true))

/-- An append has been answered. -/
def applyCont (s : VLog) (t seg offset : Nat) (durability : Durability) :
    Cont → Option (VLog × List Event)
  | .set key value tenant prev isAppend ts =>
    s.applySet t seg offset durability key value tenant prev isAppend ts
  | .del key prev ts => some (s.applyDel t durability key prev ts)
  | .setMany pairs ts =>
    match s.applyMembers seg durability (offset + paddedRecordSize 0 4) (ts + 1) pairs with
    | none => none
    | some r =>
      let r' := r.1.finish t (.ok .unit)
      some (r'.1, r.2 ++ r'.2)
  | .relocate parent src srcOffset rec =>
    some (s.applyRelocate t seg offset parent src srcOffset rec, [])

/-! ### Reading -/

/-- A read has its value: return it, or go on with `append`. -/
def gotValue (s : VLog) (t : Nat) (key : Bytes) (tenant : Nat) (req : Option AppendReq)
    (v : Option Bytes) : VLog × List Event :=
  match req with
  | none => s.finish t (.ok (.value v))
  | some req => s.beginSet t key (v.getD [] ++ req.value) req.durability tenant req.diskLimit true

/-- `get_scoped` up to its `await`. -/
def beginGet (s : VLog) (t : Nat) (key : Bytes) (tenant : Nat) (req : Option AppendReq) :
    VLog × List Event :=
  let r := s.cache.get key
  let s := { s with cache := r.2 }
  match r.1 with
  | some v => s.gotValue t key tenant req (some v)
  | none =>
    match s.index.lookup key with
    | none => s.gotValue t key tenant req none
    | some entry =>
      if s.isReadable entry.segmentId then (s.setTask t (.pread key tenant entry req), [])
      else s.respond t req.isSome (.error (.invalidRecord "index references missing segment"))

/-- `get_scoped` after its `await`. -/
def endGet (s : VLog) (t : Nat) (key : Bytes) (tenant : Nat) (entry : IndexEntry)
    (req : Option AppendReq) : Option (VLog × List Event) :=
  match decodeRecord ((s.segs entry.segmentId).file.pread entry.offset entry.size) with
  | .error e => some (s.respond t req.isSome (.error e))
  | .ok rec =>
    match s.cache.insertFor key rec.value rec.value.length tenant with
    | none => none
    | some cache =>
      let r := { s with cache := cache }.gotValue t key tenant req (some rec.value)
      some (r.1, .filled key rec.value :: r.2)

/-! ### Compaction -/

/-- Records relocated at the same time. -/
def relocateConcurrency : Nat := 256

/-- `compact_segment` has nothing to do. -/
def compactSkips (s : VLog) (id : Nat) : Prop := s.active.id = id ∨ s.isReadable id = false

instance (s : VLog) (id : Nat) : Decidable (s.compactSkips id) := inferInstanceAs (Decidable (_ ∨ _))

/-- `compact_segment` reads the whole segment and starts relocating. -/
def startCompaction (s : VLog) (t id : Nat) (caller : Caller) : VLog × List Event :=
  let records := (scanFile (s.segs id).file.content).1
  (s.setTask t (.relocating ⟨id, records, [], none, [], 0, caller⟩), [.scanned t id])

/-- The loop of `reclaim_all_dead` up to the first segment there is something to do for. -/
def runTargets (s : VLog) (t : Nat) : List (Nat × Nat) → Nat → VLog × List Event
  | [], freed => s.finish t (.ok (.freed freed))
  | (id, dead) :: rest, freed =>
    if s.compactSkips id then runTargets s t rest (freed + dead)
    else s.startCompaction t id (.reclaim rest freed dead)

/-- `compact_segment id` returns to its caller. -/
def compactDone (s : VLog) (t id moved : Nat) : Caller → VLog × List Event
  | .direct => s.finish t (.ok (.moved moved))
  | .maybeCompact => s.finish t (.ok (.picked (some id)))
  | .reclaim rest freed dead => s.runTargets t rest (freed + dead)

def compactSegment (s : VLog) (t id : Nat) (caller : Caller) : VLog × List Event :=
  if s.compactSkips id then s.compactDone t id 0 caller else s.startCompaction t id caller

/-- The first sealed segment that is less than half alive; on segment sizes the comparison of the
quotient in `f64` is exact. -/
def pickCompactionCandidate (s : VLog) : Option Nat :=
  (s.readSegments.find? fun r =>
    r.id ≠ s.active.id && (s.segs r.id).file.len > 0 && 2 * r.live < (s.segs r.id).file.len).map
    ReadSegment.id

/-- The sealed segments with a dead byte, and how many they have. -/
def reclaimTargets (s : VLog) : List (Nat × Nat) :=
  s.readSegments.filterMap fun r =>
    let total := (s.segs r.id).file.len
    let dead := total - r.live
    if r.id ≠ s.active.id ∧ total > 0 ∧ dead > 0 then some (r.id, dead) else none

/-- The record at `offset` of `seg` is still needed: the index points at it, or it is a tombstone of a
key without an entry. -/
def isCurrent (s : VLog) (seg offset : Nat) (rec : Record) : Bool :=
  if rec.kind = .tombstone then (s.index.lookup rec.key).isNone
  else s.indexPointsAt rec.key seg offset

/-- The next record of a compaction: skipped, or relocated by the new task `child`. -/
def relocateNext (s : VLog) (t child : Nat) (q : Relocation) : Option (VLog × List Event) :=
  match q.todo with
  | [] => none
  | (offset, rec) :: todo =>
    if s.isCurrent q.seg offset rec then
      let s := s.setTask t (.relocating { q with todo := todo, running := q.running ++ [child] })
      some (s.startAppend child .relaxed (.relocate t q.seg offset rec))
    else some (s.setTask t (.relocating { q with todo := todo }), [])

/-- The end of a compaction: the source goes, and with it any snapshot. -/
def unlinkSource (s : VLog) (t seg moved : Nat) (caller : Caller) : VLog × List Event :=
  let s := { s with
    readSegments := s.readSegments.filter fun r => r.id ≠ seg
    dir := s.dir.filter fun id => id ≠ seg
    snapshot := none }
  let r := s.compactDone t seg moved caller
  (r.1, .unlinked seg :: r.2)

/-! ### Rotation -/

/-- What `maybe_rotate` was called for goes on. -/
def runJob (s : VLog) (t : Nat) : Job → VLog × List Event
  | .append durability c => s.send t durability c
  | .sealActive => s.runTargets t s.reclaimTargets 0

def Job.incoming (s : VLog) : Job → Nat
  | .append _ c => (encodeAll c.records).length
  | .sealActive => s.maxSegSize

def failJob (s : VLog) (t : Nat) (e : Error) : Job → VLog × List Event
  | .append _ c => s.failCont t c e
  | .sealActive => s.finish t (.error e)

/-- `maybe_rotate` under the lock, up to the start of the new committer. -/
def rotate (s : VLog) (t : Nat) (job : Job) : VLog × List Event :=
  if ¬ s.needsRotation (Job.incoming s job) then s.runJob t job
  else
    let id := s.active.id + 1
    if id ≥ 2 ^ 16 then s.failJob t (.invalidRecord "segment id overflow") job
    else if id ∈ s.dir then s.failJob t (.io "file exists") job
    else
      ({ s with
          dir := s.dir ++ [id]
          segs := Function.update s.segs id ⟨File.create s.maxSegSize, [], 0⟩
          rotateLock := some t
          tasks := s.tasks.insert t (.starting id job) },
        [])

/-- The new committer runs: its segment becomes the active one. -/
def activate (s : VLog) (id : Nat) : VLog :=
  { s with
    readSegments := s.readSegments ++ [⟨id, 0⟩]
    active := ⟨id, 0⟩
    rotateLock := none }

/-! ### Steps -/

inductive Act where
  /-- A new task runs `op` up to its first `await`. -/
  | spawn (t : Nat) (op : Op)
  /-- A task runs from the `await` it is at to the next. -/
  | resume (t : Nat)
  /-- A compaction takes up its next record. -/
  | relocate (t child : Nat)
  /-- The committer of `seg` flushes a batch of the `n` oldest requests. -/
  | flush (seg n : Nat) (io : Io)
  deriving DecidableEq

def spawn (s : VLog) (t : Nat) : Op → VLog × List Event
  | .get key tenant => s.beginGet t key tenant none
  | .set key value durability tenant diskLimit =>
    s.beginSet t key value durability tenant diskLimit false
  | .append key value durability tenant diskLimit =>
    (s.setTask t (.appendLock key tenant ⟨value, durability, diskLimit⟩), [])
  | .setMany pairs durability => s.beginSetMany t pairs durability
  | .del key durability => s.beginDel t key durability
  | .compactSegment id => s.compactSegment t id .direct
  | .maybeCompact =>
    match s.pickCompactionCandidate with
    | some id => s.compactSegment t id .maybeCompact
    | none => s.finish t (.ok (.picked none))
  | .reclaimAllDead =>
    if s.needsRotation s.maxSegSize then (s.setTask t (.lockWait .sealActive), [])
    else s.runJob t .sealActive
  | .writeSnapshot =>
    let sn : Snapshot := ⟨s.active.id, s.clock, s.index.entries.map fun p => (p.1, p.2)⟩
    (s.setTask t (.snapshotting sn), [.cut sn])

def resume (s : VLog) (t : Nat) : Pc → Option (VLog × List Event)
  | .appendLock key tenant req =>
    if s.appendLock.isSome then none
    else some ({ s with appendLock := some t }.beginGet t key tenant (some req))
  | .pread key tenant entry req => s.endGet t key tenant entry req
  | .lockWait job => if s.rotateLock.isSome then none else some (s.rotate t job)
  | .starting id job => some ((s.activate id).runJob t job)
  | .commit seg durability c =>
    match s.acks t with
    | none => none
    | some (.error e) => some ({ s with acks := Function.update s.acks t none }.failCont t c e)
    | some (.ok (offset, _)) =>
      { s with acks := Function.update s.acks t none }.applyCont t seg offset durability c
  | .relocating q =>
    if q.todo.isEmpty && q.running.isEmpty then
      match q.err with
      | some e => some (s.finish t (.error e))
      | none => some (s.setTask t (.syncing q.seg q.dests q.moved q.caller), [])
    else none
  | .syncing seg dests moved caller =>
    match dests with
    | [] => some (s.unlinkSource t seg moved caller)
    | d :: dests =>
      some ({ s with segs := Function.update s.segs d { s.segs d with file := (s.segs d).file.sync } }.setTask
        t (.syncing seg dests moved caller), [])
  | .snapshotting sn => some ({ s with snapshot := some sn }.finish t (.ok .unit))

/-- What the events say an operation returned. -/
def returnedBy (ev : List Event) : Option Res :=
  ev.findSome? fun
    | .returned _ r => some r
    | _ => none

/-- `get_scoped` run alone up to its return; `none` when the cache insert does not return. -/
def getAlone (s : VLog) (key : Bytes) (tenant : Nat) : Option Res :=
  let r := s.beginGet 0 key tenant none
  match returnedBy r.2 with
  | some res => some res
  | none => ((r.1.tasks.lookup 0).bind (r.1.resume 0)).bind fun r => returnedBy r.2

def flush (s : VLog) (id n : Nat) (io : Io) : Option (VLog × List Event) :=
  let seg := s.segs id
  let batch := seg.queue.take n
  if BatchAllowed batch then
    let r := flushBatch { seg with queue := seg.queue.drop n } batch io
    some ({ s with
      segs := Function.update s.segs id r.1
      acks := fun t => (r.2.lookup t).or (s.acks t) }, [])
  else none

def stepRaw (s : VLog) : Act → Option (VLog × List Event)
  | .spawn t op =>
    if (s.tasks.lookup t).isSome then none
    else
      let r := s.spawn t op
      some (r.1, .spawned t op :: r.2)
  | .resume t => (s.tasks.lookup t).bind (s.resume t)
  | .relocate t child =>
    match s.tasks.lookup t with
    | some (.relocating q) =>
      if (s.tasks.lookup child).isSome ∨ relocateConcurrency ≤ q.running.length then none
      else s.relocateNext t child q
    | _ => none
  | .flush id n io => s.flush id n io

/-- One indivisible step.  The clock is a `u64`; nothing is said about a store that has drawn all its
timestamps. -/
def step (s : VLog) (a : Act) : Option (VLog × List Event) :=
  (s.stepRaw a).filter fun r => r.1.clock ≤ 2 ^ 64

end

end VLog

end Skeg
