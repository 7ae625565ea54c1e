import Skeg.Core.Equiv.Layout
import Skeg.Lib.SegLog.Scan

/-!
# The store as a segmented log

`Rel hist s α raw` relates a store to the abstract log of `SegLog`: a segment holds the blocks `raw`,
written or still queued, the index points where the abstract index does, and a task that waits for
its records to be written is an abstract operation in flight.  The ghost parts of the abstract state,
the last applied writes, are read off the events `hist` emitted so far.
-/

namespace Skeg

open SegLog (Rec Loc Pend Comp Label Step Wf Path)

abbrev LogState := SegLog.State Bytes Bytes

/-! ### What the events say -/

/-- The last applied write of each key. -/
def lastApplied (hist : List Event) : Bytes → Option (Rec Bytes Bytes) :=
  hist.foldl (fun m e =>
    match e with
    | .applied key val ts _ => Function.update m key (some ⟨ts, key, val⟩)
    | _ => m) fun _ => none

/-- The last applied write of each key that was acknowledged as durable. -/
def lastDurable (hist : List Event) : Bytes → Option (Rec Bytes Bytes) :=
  hist.foldl (fun m e =>
    match e with
    | .applied key val ts d =>
      if d = .relaxed then m else Function.update m key (some ⟨ts, key, val⟩)
    | _ => m) fun _ => none

/-- Not a write taking effect. -/
def Event.Quiet : Event → Prop
  | .applied .. => False
  | _ => True

theorem lastApplied_quiet {hist ev : List Event} (h : ∀ e ∈ ev, e.Quiet) :
    lastApplied (hist ++ ev) = lastApplied hist := by
  induction ev using List.reverseRecOn with
  | nil => simp
  | append_singleton ev e ih =>
    rw [← List.append_assoc, lastApplied, List.foldl_append, ← lastApplied,
      ih fun e he => h e (by simp [he])]
    have he : e.Quiet := h e (by simp)
    cases e <;> first | rfl | exact he.elim

theorem lastDurable_quiet {hist ev : List Event} (h : ∀ e ∈ ev, e.Quiet) :
    lastDurable (hist ++ ev) = lastDurable hist := by
  induction ev using List.reverseRecOn with
  | nil => simp
  | append_singleton ev e ih =>
    rw [← List.append_assoc, lastDurable, List.foldl_append, ← lastDurable,
      ih fun e he => h e (by simp [he])]
    have he : e.Quiet := h e (by simp)
    cases e <;> first | rfl | exact he.elim

/-! ### Operations in flight -/

/-- The abstract records an append writes. -/
def Cont.recs (c : Cont) : List (Rec Bytes Bytes) :=
  (c.records.filter fun r => r.kind ≠ .batchBegin).map absRec

/-- The writes, as opposed to relocations. -/
def Cont.isWrite : Cont → Bool
  | .relocate .. => false
  | _ => true

/-- An append that has not reached the committer. -/
def queuedOf : Cont → Pend Bytes Bytes
  | .relocate parent seg offset rec => .queuedMove parent (seg, offset) (absRec rec)
  | c => .queuedWrite c.recs

/-- An append placed at `o` of segment `S`. -/
def sentOf (S o : Nat) : Cont → Pend Bytes Bytes
  | .relocate parent seg offset rec => .sentMove parent (seg, offset) (absRec rec) (S, o)
  | c => .sentWrite S (dataRecs (layout o c.records))

section

variable [H : Hashes]

/-- Task `t` waits for the records of `c`, which the committer of `S` will write or has written at
`o`. -/
def Placed (s : VLog) (t S : Nat) (d : Durability) (c : Cont) (o : Nat) : Prop :=
  (s.acks t = none ∧ ((o, ⟨encodeAll c.records, d, t⟩) : Nat × WriteReq) ∈
      placeBatch (s.segs S).wOffset (s.segs S).queue) ∨
    (∃ n, s.acks t = some (.ok (o, n))) ∧ (∀ w ∈ (s.segs S).queue, w.task ≠ t) ∧
      (d ≠ .relaxed → o + (encodeAll c.records).length ≤ (s.segs S).file.synced)

/-- A relocation is among those its compaction waits for. -/
def HasParent (s : VLog) (t : Nat) (c : Cont) : Prop :=
  ∀ parent seg offset rec, c = .relocate parent seg offset rec →
    ∃ q, s.tasks.lookup parent = some (.relocating q) ∧ t ∈ q.running

/-- The abstract side of what `maybe_rotate` was called for. -/
def JobOk (s : VLog) (α : LogState) (t : Nat) : Job → Prop
  | .append _ c => α.pend t = some (queuedOf c) ∧ IsBlock c.records ∧ HasParent s t c
  | .sealActive => α.pend t = none

/-- The abstract side of a task. -/
def TaskOk (s : VLog) (α : LogState) (raw : Nat → List (List Record)) (t : Nat) :
    Option Pc → Prop
  | some (.lockWait job) => JobOk s α t job ∧ α.comp t = none
  | some (.starting id job) => (JobOk s α t job ∧ α.comp t = none) ∧
      s.rotateLock = some t ∧ id = s.active.id + 1
  | some (.commit S d c) => (∃ o, α.pend t = some (sentOf S o c) ∧ Placed s t S d c o) ∧
      α.comp t = none ∧ IsBlock c.records ∧ HasParent s t c
  | some (.relocating q) => α.pend t = none ∧
      α.comp t = some ⟨q.seg, dataRecs q.todo, q.dests, q.err.isSome⟩ ∧
      ∀ p ∈ q.todo, p ∈ layout 0 (raw q.seg).flatten
  | some (.syncing seg dests _ _) => α.pend t = none ∧ α.comp t = some ⟨seg, [], dests, false⟩
  | _ => α.pend t = none ∧ α.comp t = none

/-- The blocks of a segment, those in the file before those in the queue. -/
def SegRel (seg : Segment) (blocks : List (List Record)) : Prop :=
  ∃ done queued, blocks = done ++ queued ∧ seg.file.data = encodeAll done.flatten ∧
    seg.wOffset = seg.file.data.length ∧ seg.queue.map WriteReq.data = queued.map encodeAll

structure Rel (hist : List Event) (s : VLog) (α : LogState) (raw : Nat → List (List Record)) :
    Prop where
  active : α.active = s.active.id
  clock : α.clock = s.clock
  seg : ∀ S, SegRel (s.segs S) (raw S)
  block : ∀ S, ∀ b ∈ raw S, IsBlock b
  sent : ∀ S, α.sent S = dataRecs (layout 0 (raw S).flatten)
  synced : ∀ S, α.synced S = (s.segs S).file.synced
  linked : ∀ S, α.linked S ↔ s.isReadable S = true
  readable_le : ∀ S, s.isReadable S = true → S ≤ s.active.id
  beyond : ∀ S, s.active.id < S → raw S = []
  index : ∀ k, α.index k = (s.index.lookup k).map fun e => (e.segmentId, e.offset)
  size : ∀ k e l v, s.index.lookup k = some e → α.last k = some l → l.val = some v →
    e.size = paddedRecordSize k.length v.length
  last : α.last = lastApplied hist
  durable : α.durable = lastDurable hist
  task : ∀ t, TaskOk s α raw t (s.tasks.lookup t)
  queue : ∀ S, ∀ w ∈ (s.segs S).queue, ∃ d c, s.tasks.lookup w.task = some (.commit S d c)
  nodup : ∀ S, ((s.segs S).queue.map WriteReq.task).Nodup
  acks : ∀ t, s.acks t ≠ none → ∃ S d c, s.tasks.lookup t = some (.commit S d c)
  dir : ∀ S, S ∈ s.dir ↔ s.isReadable S = true ∨ ∃ t job, s.tasks.lookup t = some (.starting S job)
  dir_nodup : s.dir.Nodup

/-! ### Tasks that a step does not touch -/

omit H in
theorem JobOk.frame {s s' : VLog} {α α' : LogState} {t : Nat} {job : Job} (h : JobOk s α t job)
    (hp : α'.pend t = α.pend t)
    (hpar : ∀ parent q, s.tasks.lookup parent = some (.relocating q) → t ∈ q.running →
      ∃ q', s'.tasks.lookup parent = some (.relocating q') ∧ t ∈ q'.running) :
    JobOk s' α' t job := by
  cases job with
  | append d c =>
    refine ⟨hp.trans h.1, h.2.1, fun parent seg offset rec hc => ?_⟩
    obtain ⟨q, hq, ht⟩ := h.2.2 parent seg offset rec hc
    exact hpar parent q hq ht
  | sealActive => exact hp.trans h

theorem TaskOk.frame {s s' : VLog} {α α' : LogState} {raw raw' : Nat → List (List Record)} {t : Nat}
    {pc : Option Pc} (h : TaskOk s α raw t pc) (hp : α'.pend t = α.pend t)
    (hc : α'.comp t = α.comp t)
    (hplaced : ∀ S d c o, pc = some (.commit S d c) → Placed s t S d c o → Placed s' t S d c o)
    (hpar : ∀ parent q, s.tasks.lookup parent = some (.relocating q) → t ∈ q.running →
      ∃ q', s'.tasks.lookup parent = some (.relocating q') ∧ t ∈ q'.running)
    (hraw : ∀ S p, p ∈ layout 0 (raw S).flatten → p ∈ layout 0 (raw' S).flatten)
    (hlock : ∀ id job, pc = some (.starting id job) →
      s'.rotateLock = s.rotateLock ∧ s'.active.id = s.active.id) : TaskOk s' α' raw' t pc := by
  match pc, h with
  | some (.lockWait job), h => exact ⟨h.1.frame hp hpar, hc.trans h.2⟩
  | some (.starting id job), h =>
    obtain ⟨h1, h2⟩ := hlock id job rfl
    exact ⟨⟨h.1.1.frame hp hpar, hc.trans h.1.2⟩, h1.trans h.2.1, h2 ▸ h.2.2⟩
  | some (.commit S d c), h =>
    obtain ⟨⟨o, hpend, hpl⟩, hcomp, hb, hhas⟩ := h
    refine ⟨⟨o, hp.trans hpend, hplaced S d c o rfl hpl⟩, hc.trans hcomp, hb, ?_⟩
    intro parent seg offset rec hrec
    obtain ⟨q, hq, ht⟩ := hhas parent seg offset rec hrec
    exact hpar parent q hq ht
  | some (.relocating q), h => exact ⟨hp.trans h.1, hc.trans h.2.1, fun p hp' => hraw _ _ (h.2.2 p hp')⟩
  | some (.syncing seg dests n caller), h => exact ⟨hp.trans h.1, hc.trans h.2⟩
  | some (.appendLock ..), h => exact ⟨hp.trans h.1, hc.trans h.2⟩
  | some (.pread ..), h => exact ⟨hp.trans h.1, hc.trans h.2⟩
  | some (.snapshotting _), h => exact ⟨hp.trans h.1, hc.trans h.2⟩
  | none, h => exact ⟨hp.trans h.1, hc.trans h.2⟩

end

end Skeg
