import Skeg.Core.Segment

/-!
# Group commit

The committer of one segment file (`group_commit.rs`, one background task per file): requests queue
up in order, a batch of them is written in one go at the committer's offset and flushed at the
strongest durability any of them asked for.  The offset advances only when both the write and the
sync succeed; otherwise every request of the batch gets an error and the next batch starts at the
same offset.

`Committer` is the task with its channel.  `Segment` is what the rest of the engine needs of it: a queue of
requests, any prefix of which may be flushed next.
-/

namespace Skeg

/-- Weakest to strongest. -/
inductive Durability where
  | relaxed | kernel | power
  deriving DecidableEq, Repr

namespace Durability

def rank : Durability → Nat
  | relaxed => 0
  | kernel => 1
  | power => 2

def max (d e : Durability) : Durability := if d.rank < e.rank then e else d

end Durability

/-- A request in the committer's channel; `task` stands for the sender's reply channel. -/
structure WriteReq where
  data : Bytes
  durability : Durability
  task : Nat
  deriving DecidableEq

/-- A segment file with its committer. -/
structure Segment where
  file : File
  queue : List WriteReq
  wOffset : Nat
  deriving DecidableEq

instance : Inhabited Segment := ⟨⟨default, [], 0⟩⟩

/-- What a batch's IO does: both calls succeed, the write fails after some bytes, or the write
succeeds and the sync fails. -/
inductive Io where
  | ok
  | writeFails (written : Nat) (msg : String)
  | syncFails (msg : String)
  deriving DecidableEq

/-- The answer to a request: offset and length as a `u32`, or the error of its batch. -/
abbrev Ack := Except Error (Nat × Nat)

def maxBatchBytes : Nat := 256 * 1024
def maxBatchEntries : Nat := 256

/-- The bytes of a batch, in order. -/
def batchBytes (batch : List WriteReq) : Bytes := batch.flatMap WriteReq.data

/-- The offsets the requests of a batch get when it is written at `pos`. -/
def placeBatch (pos : Nat) : List WriteReq → List (Nat × WriteReq)
  | [] => []
  | req :: batch => (pos, req) :: placeBatch (pos + req.data.length) batch

/-- The committer flushes as soon as a batch has 256 entries or 256 KB, so every batch is shorter
than that before its last request. -/
def BatchAllowed (batch : List WriteReq) : Prop :=
  batch ≠ [] ∧ batch.length ≤ maxBatchEntries ∧ (batchBytes batch.dropLast).length < maxBatchBytes

instance (batch : List WriteReq) : Decidable (BatchAllowed batch) :=
  inferInstanceAs (Decidable (_ ∧ _ ∧ _))

def batchDurability (batch : List WriteReq) : Durability :=
  batch.foldl (fun d req => d.max req.durability) .relaxed

/-- `flush_batch`: the segment afterwards and the answer to each request. -/
def flushBatch (seg : Segment) (batch : List WriteReq) (io : Io) : Segment × List (Nat × Ack) :=
  let bytes := batchBytes batch
  match io with
  | .ok =>
    let file := seg.file.writeAt seg.wOffset bytes
    let file := if batchDurability batch = .relaxed then file else file.sync
    ({ seg with file, wOffset := seg.wOffset + bytes.length },
      (placeBatch seg.wOffset batch).map fun p => (p.2.task, .ok (p.1, p.2.data.length % 2 ^ 32)))
  | .writeFails written msg =>
    ({ seg with file := seg.file.writeAt seg.wOffset (bytes.take written) },
      batch.map fun req => (req.task, .error (.io msg)))
  | .syncFails msg =>
    -- a batch of `Relaxed` requests is never synced, so its sync cannot fail
    if batchDurability batch = .relaxed then
      ({ seg with file := seg.file.writeAt seg.wOffset bytes, wOffset := seg.wOffset + bytes.length },
        (placeBatch seg.wOffset batch).map fun p => (p.2.task, .ok (p.1, p.2.data.length % 2 ^ 32)))
    else
      ({ seg with file := seg.file.writeAt seg.wOffset bytes },
        batch.map fun req => (req.task, .error (.io msg)))

/-! ### The task -/

inductive CommitMsg where
  | write (req : WriteReq)
  | flush (task : Nat)
  deriving DecidableEq

structure Committer where
  file : File
  /-- The channel. -/
  inbox : List CommitMsg
  batch : List WriteReq
  batchBytes : Nat
  wOffset : Nat
  running : Bool
  deriving DecidableEq

inductive CommitEvent where
  | submitted (req : WriteReq)
  | answered (req : WriteReq) (ack : Ack)
  /-- The answer to a flush request is always `Ok`. -/
  | flushed (task : Nat)

inductive CommitAction where
  | send (msg : CommitMsg)
  /-- The task takes the next message; `io` is the outcome of the batch if this flushes it. -/
  | recv (io : Io)
  | timer (io : Io)
  /-- Every sender is gone. -/
  | close (io : Io)

namespace Committer

def start (file : File) (initialOffset : Nat) : Committer := ⟨file, [], [], 0, initialOffset, true⟩

/-- `flush_batch` on the task's own batch, which is empty afterwards. -/
def flushBatch (c : Committer) (io : Io) : Committer × List CommitEvent :=
  if c.batch = [] then ({ c with batchBytes := 0 }, [])
  else
    let r := Skeg.flushBatch ⟨c.file, [], c.wOffset⟩ c.batch io
    ({ c with file := r.1.file, batch := [], batchBytes := 0, wOffset := r.1.wOffset },
      (c.batch.zip r.2).map fun p => .answered p.1 p.2.2)

/-- One turn of the loop of `committer_task`. -/
def step (c : Committer) : CommitAction → Option (Committer × List CommitEvent)
  | .send msg =>
    if c.running then
      some ({ c with inbox := c.inbox ++ [msg] },
        match msg with | .write req => [.submitted req] | .flush _ => [])
    else none
  | .recv io =>
    if c.running then
      match c.inbox with
      | [] => none
      | .write req :: inbox =>
        let c := { c with inbox, batch := c.batch ++ [req], batchBytes := c.batchBytes + req.data.length }
        some (if c.batchBytes ≥ maxBatchBytes ∨ c.batch.length ≥ maxBatchEntries then c.flushBatch io else (c, []))
      | .flush task :: inbox =>
        let r := { c with inbox }.flushBatch io
        some (r.1, r.2 ++ [.flushed task])
    else none
  | .timer io =>
    if c.running ∧ c.batch ≠ [] then some (c.flushBatch io) else none
  | .close io =>
    if c.running ∧ c.inbox = [] then
      let r := c.flushBatch io
      some ({ r.1 with running := false }, r.2)
    else none

end Committer

end Skeg
