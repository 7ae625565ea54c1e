import Skeg.Core.GroupCommit
import Skeg.Core.Equiv.File
import Skeg.Lib.Transition
import Mathlib.Data.List.Flatten

/-!
# The committer of a file

The requests of a batch are placed one behind the other from the committer's offset (`placeBatch`), and the batch is
written and answered in one piece (`flushBatch_cases`).  The offset stands behind everything acknowledged, and a
failed batch leaves it where it was: so a later batch never writes into an acknowledged range
(`acknowledged_ranges`).
-/

namespace Skeg

/-! ### Batches -/

theorem placeBatch_append (pos : Nat) (b b' : List WriteReq) :
    placeBatch pos (b ++ b') = placeBatch pos b ++ placeBatch (pos + (batchBytes b).length) b' := by
  induction b generalizing pos with
  | nil => simp [placeBatch, batchBytes]
  | cons w b ih => simp [placeBatch, batchBytes, ih, Nat.add_assoc]

theorem mem_of_mem_placeBatch {pos : Nat} {b : List WriteReq} {p : Nat × WriteReq}
    (h : p ∈ placeBatch pos b) : p.2 ∈ b := by
  induction b generalizing pos with
  | nil => cases h
  | cons w b ih =>
    rcases List.mem_cons.mp h with rfl | h
    · exact List.mem_cons_self ..
    · exact List.mem_cons_of_mem _ (ih h)

theorem Durability.rank_le_max (d e : Durability) : d.rank ≤ (d.max e).rank ∧ e.rank ≤ (d.max e).rank := by
  unfold Durability.max
  split <;> omega

theorem batchDurability_ne_relaxed {batch : List WriteReq} {w : WriteReq} (hw : w ∈ batch)
    (hd : w.durability ≠ .relaxed) : batchDurability batch ≠ .relaxed := by
  have hrank : ∀ (b : List WriteReq) (d : Durability),
      d.rank ≤ (b.foldl (fun d req => d.max req.durability) d).rank ∧
      ∀ w ∈ b, w.durability.rank ≤ (b.foldl (fun d req => d.max req.durability) d).rank := by
    intro b
    induction b with
    | nil => intro d; simp
    | cons x b ih =>
      intro d
      obtain ⟨h1, h2⟩ := ih (d.max x.durability)
      obtain ⟨h3, h4⟩ := Durability.rank_le_max d x.durability
      refine ⟨Nat.le_trans h3 h1, fun w hw => ?_⟩
      rcases List.mem_cons.mp hw with rfl | hw
      · exact Nat.le_trans h4 h1
      · exact h2 w hw
  intro heq
  have hle := (hrank batch .relaxed).2 w hw
  rw [← batchDurability, heq] at hle
  have : 0 < w.durability.rank := by
    cases hwd : w.durability with
    | relaxed => exact absurd hwd hd
    | kernel => decide
    | power => decide
  exact Nat.lt_irrefl 0 (Nat.lt_of_lt_of_le this hle)

/-- The answers of a batch that was written at `pos`. -/
def batchAcks (pos : Nat) (batch : List WriteReq) : List (Nat × Ack) :=
  (placeBatch pos batch).map fun p => (p.2.task, .ok (p.1, p.2.data.length % 2 ^ 32))

theorem lookup_batchAcks_none {pos i : Nat} {batch : List WriteReq}
    (h : ∀ w ∈ batch, w.task ≠ i) : (batchAcks pos batch).lookup i = none := by
  induction batch generalizing pos with
  | nil => rfl
  | cons w batch ih =>
    have hw : (i == w.task) = false := by
      simpa using fun heq : i = w.task => h w (by simp) heq.symm
    simp only [batchAcks, placeBatch, List.map_cons, List.lookup_cons, hw]
    exact ih fun w' hw' => h w' (by simp [hw'])

theorem lookup_batchAcks {pos o : Nat} {batch : List WriteReq} {w : WriteReq}
    (hnodup : (batch.map WriteReq.task).Nodup) (h : (o, w) ∈ placeBatch pos batch) :
    (batchAcks pos batch).lookup w.task = some (.ok (o, w.data.length % 2 ^ 32)) := by
  induction batch generalizing pos with
  | nil => cases h
  | cons x batch ih =>
    obtain ⟨hx, hnodup⟩ := List.nodup_cons.mp hnodup
    rcases List.mem_cons.mp h with heq | h
    · cases heq
      simp [batchAcks, placeBatch]
    · have hne : (w.task == x.task) = false := by
        simp only [beq_eq_false_iff_ne, ne_eq]
        intro heq
        exact hx (heq ▸ List.mem_map_of_mem (mem_of_mem_placeBatch h))
      simp only [batchAcks, placeBatch, List.map_cons, List.lookup_cons, hne]
      exact ih hnodup h

/-- A placed request ends within the batch. -/
theorem le_of_mem_placeBatch {pos o : Nat} {batch : List WriteReq} {w : WriteReq}
    (h : (o, w) ∈ placeBatch pos batch) :
    o + w.data.length ≤ pos + (batchBytes batch).length := by
  induction batch generalizing pos with
  | nil => cases h
  | cons x batch ih =>
    rw [show batchBytes (x :: batch) = x.data ++ batchBytes batch from rfl, List.length_append]
    rcases List.mem_cons.mp h with heq | h
    · cases heq
      omega
    · have := ih h
      omega

theorem zip_batchAcks (pos : Nat) (batch : List WriteReq) :
    batch.zip (batchAcks pos batch) =
      (placeBatch pos batch).map fun p => (p.2, p.2.task, .ok (p.1, p.2.data.length % 2 ^ 32)) := by
  unfold batchAcks
  induction batch generalizing pos with
  | nil => rfl
  | cons req batch ih => simp only [placeBatch, List.map_cons, List.zip_cons_cons, ih]

/-- Requests are placed one behind the other. -/
theorem pairwise_placeBatch (pos : Nat) (batch : List WriteReq) :
    (placeBatch pos batch).Pairwise (fun p q => p.1 + p.2.data.length ≤ q.1) ∧
      ∀ p ∈ placeBatch pos batch, pos ≤ p.1 := by
  induction batch generalizing pos with
  | nil => exact ⟨.nil, fun _ hp => absurd hp List.not_mem_nil⟩
  | cons req batch ih =>
    obtain ⟨hpair, hle⟩ := ih (pos + req.data.length)
    refine ⟨List.pairwise_cons.mpr ⟨hle, hpair⟩, fun p hp => ?_⟩
    rcases List.mem_cons.mp hp with rfl | hp
    · exact Nat.le_refl _
    · exact (Nat.le_add_right _ _).trans (hle p hp)

/-- The bytes of a request in the bytes of its batch. -/
theorem take_drop_batchBytes {pos o : Nat} {batch : List WriteReq} {req : WriteReq}
    (h : (o, req) ∈ placeBatch pos batch) :
    ((batchBytes batch).drop (o - pos)).take req.data.length = req.data := by
  induction batch generalizing pos with
  | nil => cases h
  | cons x batch ih =>
    rw [show batchBytes (x :: batch) = x.data ++ batchBytes batch from rfl]
    rcases List.mem_cons.mp h with heq | h
    · cases heq
      simp
    · have hle := (pairwise_placeBatch (pos + x.data.length) batch).2 _ h
      rw [List.drop_append, List.drop_of_length_le (by omega), List.nil_append,
        show o - pos - x.data.length = o - (pos + x.data.length) by omega]
      exact ih h

/-- A batch has its requests where it places them. -/
theorem hasAt_of_mem_placeBatch {content : Bytes} {pos o : Nat} {batch : List WriteReq} {req : WriteReq}
    (h : (o, req) ∈ placeBatch pos batch) :
    File.HasAt (File.overwrite content pos (batchBytes batch)) o req.data := by
  have hge := (pairwise_placeBatch pos batch).2 _ h
  have hle := le_of_mem_placeBatch h
  have hbytes := File.take_drop_overwrite content pos (batchBytes batch)
  have hpart := take_drop_batchBytes h
  unfold File.HasAt
  rw [← hbytes, List.drop_take, List.take_take, List.drop_drop, Nat.min_eq_left (by omega),
    show pos + (o - pos) = o by omega] at hpart
  exact hpart

/-! ### One flush -/

/-- Without a failure everything is written and acknowledged. -/
theorem flushBatch_ok (seg : Segment) (batch : List WriteReq) :
    (flushBatch seg batch .ok).2 = batchAcks seg.wOffset batch ∧
      (flushBatch seg batch .ok).1.wOffset = seg.wOffset + (batchBytes batch).length ∧
      (flushBatch seg batch .ok).1.file.content =
        File.overwrite seg.file.content seg.wOffset (batchBytes batch) := by
  refine ⟨rfl, rfl, ?_⟩
  rw [← File.content_writeAt]
  unfold flushBatch
  dsimp only
  split_ifs <;> rfl

/-- What a flush can do: everything is written and acknowledged, or some of it is written and everything answered with
an error. -/
theorem flushBatch_cases (seg : Segment) (batch : List WriteReq) (io : Io) :
    ((flushBatch seg batch io).2 = batchAcks seg.wOffset batch ∧
      (flushBatch seg batch io).1.wOffset = seg.wOffset + (batchBytes batch).length ∧
      (flushBatch seg batch io).1.file.content =
        File.overwrite seg.file.content seg.wOffset (batchBytes batch)) ∨
    (∃ n msg, (flushBatch seg batch io).2 = batch.map (fun req => (req.task, .error (.io msg))) ∧
      (flushBatch seg batch io).1.wOffset = seg.wOffset ∧
      (flushBatch seg batch io).1.file.content =
        File.overwrite seg.file.content seg.wOffset ((batchBytes batch).take n)) := by
  cases io with
  | ok => exact .inl (flushBatch_ok seg batch)
  | writeFails written msg => exact .inr ⟨written, msg, rfl, rfl, File.content_writeAt ..⟩
  | syncFails msg =>
    unfold flushBatch
    dsimp only
    split_ifs with hrelaxed
    · exact .inl ⟨rfl, rfl, File.content_writeAt ..⟩
    · refine .inr ⟨(batchBytes batch).length, msg, rfl, rfl, ?_⟩
      rw [List.take_length]
      exact File.content_writeAt ..

theorem length_placeBatch (pos : Nat) (batch : List WriteReq) : (placeBatch pos batch).length = batch.length := by
  induction batch generalizing pos with
  | nil => rfl
  | cons req batch ih => rw [placeBatch, List.length_cons, List.length_cons, ih]

/-- Every request is answered. -/
theorem length_flushBatch (seg : Segment) (batch : List WriteReq) (io : Io) :
    (flushBatch seg batch io).2.length = batch.length := by
  obtain ⟨hacks, -⟩ | ⟨n, msg, hacks, -⟩ := flushBatch_cases seg batch io
  · rw [hacks, batchAcks, List.length_map, length_placeBatch]
  · rw [hacks, List.length_map]

namespace Committer

variable {c c' : Committer} {hist ev : List CommitEvent}

/-! ### The task -/

/-- The requests in the channel. -/
def writes (inbox : List CommitMsg) : List WriteReq :=
  inbox.filterMap fun | .write req => some req | .flush _ => none

/-- The requests that have no answer yet, in order. -/
def pending (c : Committer) : List WriteReq := c.batch ++ writes c.inbox

def submitted (hist : List CommitEvent) : List WriteReq :=
  hist.filterMap fun | .submitted req => some req | _ => none

def answered (hist : List CommitEvent) : List (WriteReq × Ack) :=
  hist.filterMap fun | .answered req ack => some (req, ack) | _ => none

/-- The batch is below the limits while the task waits. -/
structure Filling (c : Committer) : Prop where
  bytes : c.batchBytes = (Skeg.batchBytes c.batch).length
  few : c.batch.length < maxBatchEntries
  short : c.batchBytes < maxBatchBytes

/-- A batch was taken off the front of the pending requests, written and answered. -/
structure Flushes (c c' : Committer) (ev : List CommitEvent) (batch : List WriteReq) (io : Io) : Prop where
  file : c'.file = (Skeg.flushBatch ⟨c.file, [], c.wOffset⟩ batch io).1.file
  wOffset : c'.wOffset = (Skeg.flushBatch ⟨c.file, [], c.wOffset⟩ batch io).1.wOffset
  pending : c.pending = batch ++ c'.pending
  submitted : submitted ev = []
  answered : answered ev =
    (batch.zip (Skeg.flushBatch ⟨c.file, [], c.wOffset⟩ batch io).2).map fun p => (p.1, p.2.2)
  emptied : c'.batch = [] ∧ c'.batchBytes = 0

/-- Nothing was written; requests may have come in. -/
structure Waits (c c' : Committer) (ev : List CommitEvent) : Prop where
  file : c'.file = c.file
  wOffset : c'.wOffset = c.wOffset
  pending : c'.pending = c.pending ++ submitted ev
  answered : answered ev = []
  filling : c.Filling → c'.Filling

theorem flushBatch_flushes (c : Committer) (io : Io) :
    (c.batch = [] ∧ Waits c (c.flushBatch io).1 (c.flushBatch io).2) ∨
      (c.batch ≠ [] ∧ Flushes c (c.flushBatch io).1 (c.flushBatch io).2 c.batch io) := by
  unfold flushBatch
  split_ifs with h
  · refine .inl ⟨h, rfl, rfl, ?_, rfl, fun hfill =>
      ⟨?_, hfill.few, show 0 < maxBatchBytes by decide⟩⟩
    · simp [Committer.pending, Committer.submitted]
    · rw [h]
      rfl
  · refine .inr ⟨h, rfl, rfl, rfl, ?_, ?_, rfl, rfl⟩
    · simp [Committer.submitted, List.filterMap_map]
    · simp [Committer.answered, List.filterMap_map]

@[simp] theorem submitted_append (h h' : List CommitEvent) : submitted (h ++ h') = submitted h ++ submitted h' :=
  List.filterMap_append

@[simp] theorem answered_append (h h' : List CommitEvent) : answered (h ++ h') = answered h ++ answered h' :=
  List.filterMap_append

/-- How the batch goes if the turn flushes it. -/
def ioOf : CommitAction → Option Io
  | .send _ => none
  | .recv io | .timer io | .close io => some io

/-- A batch is flushed at a limit, by a request or by the timer: it has the waiting requests and at most one new one. -/
theorem step_cases {a : CommitAction} (hstep : c.step a = some (c', ev)) :
    Waits c c' ev ∨ ∃ batch, ∃ io ∈ ioOf a, batch ≠ [] ∧ Flushes c c' ev batch io ∧
      (batch = c.batch ∨ ∃ req, batch = c.batch ++ [req]) := by
  cases a with
  | send msg =>
    simp only [step] at hstep
    split_ifs at hstep
    obtain ⟨rfl, rfl⟩ := Prod.mk.inj (Option.some.inj hstep)
    left
    cases msg with
    | write req => exact ⟨rfl, rfl, by simp [pending, writes, submitted], rfl, fun h => ⟨h.bytes, h.few, h.short⟩⟩
    | flush task => exact ⟨rfl, rfl, by simp [pending, writes, submitted], rfl, fun h => ⟨h.bytes, h.few, h.short⟩⟩
  | recv io =>
    simp only [step] at hstep
    split_ifs at hstep
    cases hin : c.inbox with
    | nil =>
      rw [hin] at hstep
      cases hstep
    | cons msg inbox =>
      rw [hin] at hstep
      cases msg with
      | write req =>
        have hpending : c.pending =
            pending { c with inbox, batch := c.batch ++ [req], batchBytes := c.batchBytes + req.data.length } := by
          simp [pending, writes, hin]
        dsimp only at hstep
        split_ifs at hstep with hfull
        · obtain ⟨hb, -⟩ | ⟨hb, hflush⟩ := flushBatch_flushes
            { c with inbox, batch := c.batch ++ [req], batchBytes := c.batchBytes + req.data.length } io
          · exact absurd hb (by simp)
          · rw [Option.some.inj hstep] at hflush
            exact .inr ⟨_, io, rfl, hb, ⟨hflush.file, hflush.wOffset, hpending.trans hflush.pending, hflush.submitted,
              hflush.answered, hflush.emptied⟩, .inr ⟨req, rfl⟩⟩
        · obtain ⟨rfl, rfl⟩ := Prod.mk.inj (Option.some.inj hstep)
          rw [not_or, Nat.not_le, Nat.not_le] at hfull
          refine .inl ⟨rfl, rfl, hpending.symm.trans (List.append_nil _).symm, rfl, fun h => ⟨?_, hfull.2, hfull.1⟩⟩
          simp [Skeg.batchBytes, h.bytes]
      | flush task =>
        have hpending : c.pending = pending { c with inbox } := by simp [pending, writes, hin]
        obtain ⟨rfl, rfl⟩ := Prod.mk.inj (Option.some.inj hstep)
        obtain ⟨-, hwait⟩ | ⟨hb, hflush⟩ := flushBatch_flushes { c with inbox } io
        · refine .inl ⟨hwait.file, hwait.wOffset, ?_, ?_, fun h => hwait.filling ⟨h.bytes, h.few, h.short⟩⟩
          · rw [hwait.pending, hpending, submitted_append]
            simp [submitted]
          · rw [answered_append, hwait.answered]
            rfl
        · refine .inr ⟨_, io, rfl, hb, ⟨hflush.file, hflush.wOffset, hpending.trans hflush.pending, ?_, ?_,
            hflush.emptied⟩, .inl rfl⟩
          · rw [submitted_append, hflush.submitted]
            rfl
          · rw [answered_append, hflush.answered]
            exact List.append_nil _
  | timer io =>
    simp only [step] at hstep
    split_ifs at hstep with hrun
    obtain ⟨hb, -⟩ | ⟨hb, hflush⟩ := flushBatch_flushes c io
    · exact absurd hb hrun.2
    · rw [Option.some.inj hstep] at hflush
      exact .inr ⟨c.batch, io, rfl, hb, hflush, .inl rfl⟩
  | close io =>
    simp only [step] at hstep
    split_ifs at hstep
    obtain ⟨rfl, rfl⟩ := Prod.mk.inj (Option.some.inj hstep)
    obtain ⟨-, hwait⟩ | ⟨hb, hflush⟩ := flushBatch_flushes c io
    · refine .inl ⟨hwait.file, hwait.wOffset, hwait.pending, hwait.answered, fun h => ?_⟩
      have hfill := hwait.filling h
      exact ⟨hfill.bytes, hfill.few, hfill.short⟩
    · exact .inr ⟨_, io, rfl, hb, ⟨hflush.file, hflush.wOffset, hflush.pending, hflush.submitted, hflush.answered,
        hflush.emptied⟩, .inl rfl⟩

/-! ### Acknowledged ranges -/

/-- The requests acknowledged with `Ok`, with the offset and the length they were told. -/
def acked (hist : List CommitEvent) : List (WriteReq × Nat × Nat) :=
  (answered hist).filterMap fun p => match p.2 with | .ok range => some (p.1, range) | .error _ => none

@[simp] theorem acked_append (h h' : List CommitEvent) : acked (h ++ h') = acked h ++ acked h' := by
  simp [acked]

/-- The submissions, and what was acknowledged so far. -/
structure Acknowledged (hist : List CommitEvent) (c : Committer) : Prop where
  order : submitted hist = (answered hist).map Prod.fst ++ c.pending
  increasing : (acked hist).Pairwise fun p q => p.2.1 + p.1.data.length ≤ q.2.1
  size : ∀ p ∈ acked hist, p.2.2 = p.1.data.length % 2 ^ 32
  holds : ∀ p ∈ acked hist, File.HasAt c.file.content p.2.1 p.1.data
  behind : ∀ p ∈ acked hist, p.2.1 + p.1.data.length ≤ c.wOffset

theorem acked_of_answered_map {batch : List WriteReq} {pos : Nat}
    (h : answered ev = (batch.zip (batchAcks pos batch)).map fun p => (p.1, p.2.2)) :
    acked ev = (placeBatch pos batch).map fun p => (p.2, p.1, p.2.data.length % 2 ^ 32) := by
  rw [acked, h, zip_batchAcks, List.map_map, List.filterMap_map]
  exact congrFun List.filterMap_eq_map _

theorem Flushes.answered_fst {batch : List WriteReq} {io : Io} (hf : Flushes c c' ev batch io) :
    (Committer.answered ev).map Prod.fst = batch := by
  rw [hf.answered, List.map_map]
  exact List.map_fst_zip (length_flushBatch _ batch io).ge

theorem Acknowledged.flushes {batch : List WriteReq} {io : Io} (h : Acknowledged hist c)
    (hf : Flushes c c' ev batch io) : Acknowledged (hist ++ ev) c' := by
  have horder : submitted (hist ++ ev) = (answered (hist ++ ev)).map Prod.fst ++ c'.pending := by
    rw [submitted_append, answered_append, h.order, hf.submitted, List.map_append, hf.answered_fst, hf.pending]
    simp
  obtain ⟨hacks, hoff, hcontent⟩ | ⟨n, msg, hacks, hoff, hcontent⟩ :=
    flushBatch_cases ⟨c.file, [], c.wOffset⟩ batch io
  · have hnew : acked ev = (placeBatch c.wOffset batch).map fun p => (p.2, p.1, p.2.data.length % 2 ^ 32) :=
      acked_of_answered_map (hacks ▸ hf.answered)
    obtain ⟨hpair, hge⟩ := pairwise_placeBatch c.wOffset batch
    rw [← hf.file] at hcontent
    rw [← hf.wOffset] at hoff
    refine ⟨horder, ?_, ?_, ?_, ?_⟩ <;> rw [acked_append, hnew]
    · refine List.pairwise_append.mpr ⟨h.increasing, List.pairwise_map.mpr hpair, fun p hp q hq => ?_⟩
      obtain ⟨x, hx, rfl⟩ := List.mem_map.mp hq
      exact (h.behind p hp).trans (hge x hx)
    · intro p hp
      rcases List.mem_append.mp hp with hp | hp
      · exact h.size p hp
      · obtain ⟨q, -, rfl⟩ := List.mem_map.mp hp
        rfl
    · intro p hp
      rw [hcontent]
      rcases List.mem_append.mp hp with hp | hp
      · exact (h.holds p hp).overwrite (h.behind p hp)
      · obtain ⟨q, hq, rfl⟩ := List.mem_map.mp hp
        exact hasAt_of_mem_placeBatch hq
    · intro p hp
      rw [hoff]
      rcases List.mem_append.mp hp with hp | hp
      · exact (h.behind p hp).trans (Nat.le_add_right _ _)
      · obtain ⟨q, hq, rfl⟩ := List.mem_map.mp hp
        exact le_of_mem_placeBatch hq
  · -- what a failed batch has written is behind everything acknowledged
    have hnew : acked ev = [] := by
      rw [acked, hf.answered, hacks, List.filterMap_map, List.filterMap_eq_nil_iff]
      intro p hp
      obtain ⟨req, -, heq⟩ := List.mem_map.mp (List.of_mem_zip hp).2
      simp [← heq]
    rw [← hf.file] at hcontent
    rw [← hf.wOffset] at hoff
    refine ⟨horder, ?_, ?_, ?_, ?_⟩ <;> rw [acked_append, hnew, List.append_nil]
    · exact h.increasing
    · exact h.size
    · intro p hp
      rw [hcontent]
      exact (h.holds p hp).overwrite (h.behind p hp)
    · rw [hoff]
      exact h.behind

theorem Acknowledged.waits (h : Acknowledged hist c) (hw : Waits c c' ev) : Acknowledged (hist ++ ev) c' := by
  have hacked : acked (hist ++ ev) = acked hist := by
    rw [acked_append, acked, acked, hw.answered]
    exact List.append_nil _
  refine ⟨?_, hacked ▸ h.increasing, hacked ▸ h.size, ?_, ?_⟩
  · rw [submitted_append, answered_append, h.order, hw.answered, hw.pending]
    simp
  · rw [hacked, hw.file]
    exact h.holds
  · rw [hacked, hw.wOffset]
    exact h.behind

theorem Acknowledged.step {a : CommitAction} (h : Acknowledged hist c) (hstep : c.step a = some (c', ev)) :
    Acknowledged (hist ++ ev) c' := by
  obtain hwait | ⟨batch, io, -, -, hflush, -⟩ := step_cases hstep
  · exact h.waits hwait
  · exact h.flushes hflush

theorem acknowledged_start (file : File) (offset : Nat) : Acknowledged [] (start file offset) :=
  ⟨rfl, .nil, fun _ hp => absurd hp List.not_mem_nil, fun _ hp => absurd hp List.not_mem_nil,
    fun _ hp => absurd hp List.not_mem_nil⟩

/-- Requests are answered in the order of submission, whatever fails.  The ranges acknowledged follow each other in that
order, each has the bytes submitted, in this and in every later state, and the next batch starts behind them. -/
theorem acknowledged_ranges {file : File} {offset : Nat}
    (hrun : Transition.Run step (fun _ _ _ => True) [] (start file offset) hist c) :
    submitted hist = (answered hist).map Prod.fst ++ c.pending ∧
      ((acked hist).Pairwise fun p q => p.2.1 + p.1.data.length ≤ q.2.1) ∧
      ∀ p ∈ acked hist, p.2.2 = p.1.data.length % 2 ^ 32 ∧ p.2.1 + p.1.data.length ≤ c.wOffset ∧
        ∀ hist' c', Transition.Run step (fun _ _ _ => True) hist c hist' c' →
          File.HasAt c'.file.content p.2.1 p.1.data := by
  have hall : Acknowledged hist c := hrun.invariant Acknowledged (acknowledged_start file offset)
    fun _ _ _ _ _ h _ hstep => h.step hstep
  refine ⟨hall.order, hall.increasing, fun p hp => ⟨hall.size p hp, hall.behind p hp, fun hist' c' hlater => ?_⟩⟩
  obtain ⟨hall', hmem⟩ := hlater.invariant (fun h c => Acknowledged h c ∧ p ∈ acked h) ⟨hall, hp⟩
    fun _ _ _ _ _ h _ hstep => ⟨h.1.step hstep, acked_append _ _ ▸ List.mem_append_left _ h.2⟩
  exact hall'.holds p hmem

/-- A batch that fails, one that succeeds and one whose sync fails. -/
def withFailures : List CommitAction :=
  [.send (.write ⟨[1, 2], .relaxed, 0⟩), .recv .ok, .timer (.writeFails 1 "disk full"),
    .send (.write ⟨[3], .kernel, 1⟩), .send (.write ⟨[4, 5], .power, 2⟩), .send (.flush 3), .recv .ok, .recv .ok,
    .recv .ok, .send (.write ⟨[6], .power, 4⟩), .recv .ok, .timer (.syncFails "gone"),
    .send (.write ⟨[7, 8], .power, 5⟩), .recv .ok, .close .ok]

theorem acknowledged_ranges_withFailures : ∃ hist c,
    Transition.Run step (fun _ _ _ => True) [] (start (.create 8) 0) hist c ∧
    (acked hist).map (fun p => (p.1.task, p.2.1)) = [(1, 0), (2, 1), (5, 3)] ∧
    submitted hist = (answered hist).map Prod.fst ++ c.pending ∧
      ((acked hist).Pairwise fun p q => p.2.1 + p.1.data.length ≤ q.2.1) ∧
      ∀ p ∈ acked hist, p.2.2 = p.1.data.length % 2 ^ 32 ∧ p.2.1 + p.1.data.length ≤ c.wOffset ∧
        ∀ hist' c', Transition.Run step (fun _ _ _ => True) hist c hist' c' →
          File.HasAt c'.file.content p.2.1 p.1.data := by
  obtain ⟨hist, c, hrun, hacked⟩ := Transition.exists_run_of_exec
    (fun hist _ => (acked hist).map (fun p => (p.1.task, p.2.1)) = [(1, 0), (2, 1), (5, 3)]) withFailures
    (show (Transition.exec step (fun _ _ _ => True) [] (start (.create 8) 0) withFailures).any _ = true by
      decide +kernel)
  exact ⟨hist, c, hrun, hacked, acknowledged_ranges hrun⟩

end Committer

end Skeg
