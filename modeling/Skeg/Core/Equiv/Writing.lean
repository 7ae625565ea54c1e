import Skeg.Core.Equiv.Refine
import Skeg.Core.Equiv.GroupCommit

/-!
# Writing to the log

The way of a write to its segment, as steps of the abstract log that keep `Rel`: a task draws
timestamps (`Rel.begin`), the segments may rotate under it (`Rel.startSegment`, `Rel.activate`), its
records enter the committer of the active segment (`Rel.send`), and a batch is flushed
(`Rel.flush`).  `Rel.update` is the frame rule: it says what a step has to show for the tasks it
touches.
-/

namespace Skeg

open SegLog (Rec Loc Pend Comp Label Step Wf Path)

variable [H : Hashes] {hist : List Event} {s s' : VLog} {α α' : LogState}
  {raw : Nat → List (List Record)} {t : Nat}

/-! ### Changing what tasks do -/

/-- The files and locks of the store. -/
structure SameFiles (s s' : VLog) : Prop where
  active : s'.active.id = s.active.id
  segs : s'.segs = s.segs
  dir : s'.dir = s.dir
  rotateLock : s'.rotateLock = s.rotateLock
  readable : ∀ S, s'.isReadable S = s.isReadable S

/-- The parts of the store `Rel` looks at besides the tasks and the clock. -/
structure SameLog (s s' : VLog) : Prop extends SameFiles s s' where
  index : s'.index = s.index
  acks : s'.acks = s.acks

/-- The log of the abstract state. -/
structure SameSent (α α' : LogState) : Prop where
  active : α'.active = α.active
  sent : α'.sent = α.sent
  synced : α'.synced = α.synced
  linked : α'.linked = α.linked

/-- The parts of the abstract state besides the operations, the compactions and the clock. -/
structure SameAbs (α α' : LogState) : Prop extends SameSent α α' where
  index : α'.index = α.index
  last : α'.last = α.last
  durable : α'.durable = α.durable

/-- The task holds no append in a committer and no lock. -/
def Movable (pc : Option Pc) : Prop :=
  (∀ S d c, pc ≠ some (.commit S d c)) ∧ ∀ id job, pc ≠ some (.starting id job)

/-- A step that changes only the index, the record of applied writes, and the tasks in `D`, none of
which has a request in a committer. -/
theorem Rel.update {hist' : List Event} (h : Rel hist s α raw) (D : Nat → Prop)
    (hs : SameFiles s s') (hα : SameSent α α') (hclock : α'.clock = s'.clock)
    (hindex : ∀ k, α'.index k = (s'.index.lookup k).map fun e => (e.segmentId, e.offset))
    (hsize : ∀ k e l v, s'.index.lookup k = some e → α'.last k = some l → l.val = some v →
      e.size = paddedRecordSize k.length v.length)
    (hlast : α'.last = lastApplied hist') (hdurable : α'.durable = lastDurable hist')
    (hother : ∀ i, ¬ D i → s'.tasks.lookup i = s.tasks.lookup i ∧ s'.acks i = s.acks i ∧
      α'.pend i = α.pend i ∧ α'.comp i = α.comp i)
    (hqueue : ∀ i, D i → ∀ S, ∀ w ∈ (s.segs S).queue, w.task ≠ i)
    (hstart : ∀ i, D i → ∀ id job, s.tasks.lookup i ≠ some (.starting id job))
    (hnew : ∀ i, D i → Movable (s'.tasks.lookup i) ∧ s'.acks i = none)
    (hrun : ∀ i q, D i → s.tasks.lookup i = some (.relocating q) → ∀ j ∈ q.running, ¬ D j →
      ∃ q', s'.tasks.lookup i = some (.relocating q') ∧ j ∈ q'.running)
    (hok : ∀ i, D i → TaskOk s' α' raw i (s'.tasks.lookup i)) : Rel hist' s' α' raw := by
  refine {
    active := by rw [hα.active, hs.active]; exact h.active
    clock := hclock
    seg := fun S => hs.segs ▸ h.seg S
    block := h.block
    sent := fun S => by rw [hα.sent]; exact h.sent S
    synced := fun S => by rw [hα.synced, hs.segs]; exact h.synced S
    linked := fun S => by rw [hα.linked, hs.readable]; exact h.linked S
    readable_le := fun S hS => by rw [hs.active]; exact h.readable_le S (hs.readable S ▸ hS)
    beyond := fun S hS => h.beyond S (hs.active ▸ hS)
    index := hindex
    size := hsize
    last := hlast
    durable := hdurable
    task := fun i => ?_
    queue := fun S w hw => ?_
    nodup := fun S => hs.segs ▸ h.nodup S
    acks := fun i hi => ?_
    dir := fun S => ?_
    dir_nodup := hs.dir ▸ h.dir_nodup }
  · by_cases hD : D i
    · exact hok i hD
    · obtain ⟨h1, h2, h3, h4⟩ := hother i hD
      rw [h1]
      refine (h.task i).frame h3 h4 (fun S d c o _ hp => ?_) (fun parent q hq hi => ?_)
        (fun _ _ => id) fun _ _ _ => ⟨hs.rotateLock, hs.active⟩
      · simpa [Placed, hs.segs, h2] using hp
      · by_cases hDp : D parent
        · exact hrun parent q hDp hq i hi hD
        · exact ⟨q, (hother parent hDp).1.trans hq, hi⟩
  · rw [hs.segs] at hw
    obtain ⟨d, c, hc⟩ := h.queue S w hw
    have hD : ¬ D w.task := fun hD => hqueue _ hD S w hw rfl
    exact ⟨d, c, (hother _ hD).1.trans hc⟩
  · have hD : ¬ D i := fun hD => hi (hnew i hD).2
    rw [(hother i hD).2.1] at hi
    obtain ⟨S, d, c, hc⟩ := h.acks i hi
    exact ⟨S, d, c, (hother i hD).1.trans hc⟩
  · rw [hs.dir, hs.readable, h.dir S]
    refine or_congr_right ⟨?_, ?_⟩
    · rintro ⟨i, job, hi⟩
      have hD : ¬ D i := fun hD => hstart i hD S job hi
      exact ⟨i, job, (hother i hD).1.trans hi⟩
    · rintro ⟨i, job, hi⟩
      have hD : ¬ D i := fun hD => (hnew i hD).1.2 S job hi
      exact ⟨i, job, (hother i hD).1 ▸ hi⟩

theorem Rel.acks_none (h : Rel hist s α raw) {i : Nat} (hi : Movable (s.tasks.lookup i)) :
    s.acks i = none := by
  by_contra hne
  obtain ⟨S, d, c, hc⟩ := h.acks i hne
  exact hi.1 S d c hc

theorem Rel.not_queued (h : Rel hist s α raw) {i : Nat} (hi : Movable (s.tasks.lookup i)) (S : Nat) :
    ∀ w ∈ (s.segs S).queue, w.task ≠ i := by
  rintro w hw rfl
  obtain ⟨d, c, hc⟩ := h.queue S w hw
  exact hi.1 S d c hc

/-- A step that changes only the tasks in `D`, none of them waiting for a committer. -/
theorem Rel.retask (h : Rel hist s α raw) (D : Nat → Prop) (hs : SameLog s s') (hα : SameAbs α α')
    (hclock : α'.clock = s'.clock)
    (hother : ∀ i, ¬ D i → s'.tasks.lookup i = s.tasks.lookup i ∧ α'.pend i = α.pend i ∧
      α'.comp i = α.comp i)
    (hold : ∀ i, D i → Movable (s.tasks.lookup i)) (hnew : ∀ i, D i → Movable (s'.tasks.lookup i))
    (hrun : ∀ i q, D i → s.tasks.lookup i = some (.relocating q) → ∀ j ∈ q.running, ¬ D j →
      ∃ q', s'.tasks.lookup i = some (.relocating q') ∧ j ∈ q'.running)
    (hok : ∀ i, D i → TaskOk s' α' raw i (s'.tasks.lookup i)) : Rel hist s' α' raw := by
  refine h.update D hs.toSameFiles hα.toSameSent hclock (fun k => ?_) (fun k e l v he hl => ?_)
    (hα.last.trans h.last) (hα.durable.trans h.durable) (fun i hi => ?_)
    (fun i hi => h.not_queued (hold i hi)) (fun i hi => (hold i hi).2)
    (fun i hi => ⟨hnew i hi, ?_⟩) hrun hok
  · rw [hα.index, hs.index]
    exact h.index k
  · exact h.size k e l v (hs.index ▸ he) (hα.last ▸ hl)
  · obtain ⟨h1, h2, h3⟩ := hother i hi
    exact ⟨h1, by rw [hs.acks], h2, h3⟩
  · rw [hs.acks]
    exact h.acks_none (hold i hi)

omit H in
theorem SameAbs.rfl {α : LogState} : SameAbs α α := ⟨⟨Eq.refl _, Eq.refl _, Eq.refl _, Eq.refl _⟩,
  Eq.refl _, Eq.refl _, Eq.refl _⟩

omit H in
theorem SameAbs.setClock {α : LogState} (n : Nat) : SameAbs α { α with clock := n } :=
  ⟨⟨Eq.refl _, Eq.refl _, Eq.refl _, Eq.refl _⟩, Eq.refl _, Eq.refl _, Eq.refl _⟩

/-- Nothing the relation looks at changes. -/
theorem Rel.congr (h : Rel hist s α raw) (hs : SameLog s s') (hclock : s'.clock = s.clock)
    (htasks : ∀ i, s'.tasks.lookup i = s.tasks.lookup i) : Rel hist s' α raw :=
  h.retask (fun _ => False) hs .rfl (h.clock.trans hclock.symm)
    (fun i _ => ⟨htasks i, rfl, rfl⟩) (fun _ h => h.elim) (fun _ h => h.elim)
    (fun _ _ h => h.elim) fun _ h => h.elim

/-- Events that are no writes taking effect do not matter. -/
theorem Rel.emit (h : Rel hist s α raw) {ev : List Event} (hev : ∀ e ∈ ev, e.Quiet) :
    Rel (hist ++ ev) s α raw :=
  { h with
    last := h.last.trans (lastApplied_quiet hev).symm
    durable := h.durable.trans (lastDurable_quiet hev).symm }

/-- A task that is no abstract operation: it reads, waits for a lock, or is gone. -/
def Inert : Option Pc → Prop
  | none => True
  | some (.appendLock ..) => True
  | some (.pread ..) => True
  | some (.lockWait .sealActive) => True
  | some (.snapshotting _) => True
  | _ => False

omit H in
theorem Inert.movable {pc : Option Pc} (h : Inert pc) : Movable pc := by
  constructor
  · rintro S d c rfl
    exact h
  · rintro id job rfl
    exact h

omit H in
theorem Inert.not_relocating {pc : Option Pc} (h : Inert pc) (q : Relocation) :
    pc ≠ some (.relocating q) := by
  rintro rfl
  exact h

theorem Inert.taskOk_iff {pc : Option Pc} (h : Inert pc) :
    TaskOk s α raw t pc ↔ α.pend t = none ∧ α.comp t = none := by
  match pc, h with
  | none, _ => exact Iff.rfl
  | some (.appendLock ..), _ => exact Iff.rfl
  | some (.pread ..), _ => exact Iff.rfl
  | some (.lockWait .sealActive), _ => exact Iff.rfl
  | some (.snapshotting _), _ => exact Iff.rfl

/-- An inert task moves on to something inert, time may pass. -/
theorem Rel.inert (h : Rel hist s α raw) (hs : SameLog s s') (hold : Inert (s.tasks.lookup t))
    (hnew : Inert (s'.tasks.lookup t)) (hother : ∀ i, i ≠ t → s'.tasks.lookup i = s.tasks.lookup i) :
    Rel hist s' { α with clock := s'.clock } raw := by
  refine h.retask (· = t) hs (.setClock _) rfl
    (fun i hi => ⟨hother i hi, rfl, rfl⟩) ?_ ?_ ?_ ?_
  · rintro i rfl
    exact hold.movable
  · rintro i rfl
    exact hnew.movable
  · rintro i q rfl hq
    exact absurd hq (hold.not_relocating q)
  · rintro i rfl
    rw [hnew.taskOk_iff]
    exact hold.taskOk_iff.mp (h.task i)

/-! ### Starting a write -/

/-- A task draws timestamps for a write. -/
theorem Rel.begin (h : Rel hist s α raw) (hold : Inert (s.tasks.lookup t)) {d : Durability}
    {c : Cont} {n : Nat} (hq : queuedOf c = .queuedWrite c.recs) (hb : IsBlock c.records) :
    Rel hist ({ s with clock := n }.setTask t (.lockWait (.append d c)))
      ({ α with clock := n }.setPend t (some (.queuedWrite c.recs))) raw := by
  have hlook : ∀ i, i ≠ t → ({ s with clock := n }.setTask t (.lockWait (.append d c))).tasks.lookup i =
      s.tasks.lookup i := fun i hi => AList.lookup_insert_ne hi
  have hself : ({ s with clock := n }.setTask t (.lockWait (.append d c))).tasks.lookup t =
      some (.lockWait (.append d c)) := AList.lookup_insert _
  refine h.retask (· = t) ⟨⟨rfl, rfl, rfl, rfl, fun _ => rfl⟩, rfl, rfl⟩
    ⟨⟨rfl, rfl, rfl, rfl⟩, rfl, rfl, rfl⟩ rfl (fun i hi => ⟨hlook i hi, by simp [hi], rfl⟩) ?_ ?_ ?_ ?_
  · rintro i rfl
    exact hold.movable
  · rintro i rfl
    rw [hself]
    exact ⟨by simp, by simp⟩
  · rintro i q rfl hq
    exact absurd hq (hold.not_relocating q)
  · rintro i rfl
    rw [hself]
    refine ⟨⟨by simp [hq], hb, ?_⟩, (hold.taskOk_iff.mp (h.task i)).2⟩
    rintro parent seg offset rec rfl
    cases hq

/-! ### Committers -/

theorem batchBytes_eq {b : List WriteReq} {bs : List (List Record)}
    (h : b.map WriteReq.data = bs.map encodeAll) : batchBytes b = encodeAll bs.flatten := by
  rw [batchBytes, List.flatMap_def, h]
  induction bs generalizing b with
  | nil => rfl
  | cons x bs ih =>
    cases b with
    | nil => simp at h
    | cons w b =>
      simp only [List.map_cons, List.cons.injEq] at h
      simp [ih h.2]

/-- Where the next request of a segment will be written. -/
theorem SegRel.next {seg : Segment} {blocks : List (List Record)} (h : SegRel seg blocks) :
    seg.wOffset + (batchBytes seg.queue).length = (encodeAll blocks.flatten).length := by
  obtain ⟨done, queued, rfl, hdata, hoff, hq⟩ := h
  rw [hoff, hdata, batchBytes_eq hq]
  simp

theorem SegRel.push {seg : Segment} {blocks : List (List Record)} (h : SegRel seg blocks)
    {b : List Record} {w : WriteReq} (hw : w.data = encodeAll b) :
    SegRel { seg with queue := seg.queue ++ [w] } (blocks ++ [b]) := by
  obtain ⟨done, queued, rfl, hdata, hoff, hq⟩ := h
  exact ⟨done, queued ++ [b], by simp, hdata, hoff, by simp [hq, hw]⟩

omit H in
theorem HasParent.setTask {c : Cont} {i : Nat} (h : HasParent s i c) {pc : Pc}
    (ht : ∀ q, s.tasks.lookup t ≠ some (.relocating q))
    (hs : s'.tasks = s.tasks.insert t pc) : HasParent s' i c := by
  intro parent seg offset rec hc
  obtain ⟨q, hq, hi⟩ := h parent seg offset rec hc
  have hne : parent ≠ t := by
    rintro rfl
    exact ht q hq
  exact ⟨q, by rw [hs, AList.lookup_insert_ne hne, hq], hi⟩

theorem VLog.send_segs_active (s : VLog) (t : Nat) (d : Durability) (c : Cont) :
    (s.send t d c).1.segs s.active.id =
      { s.segs s.active.id with queue := (s.segs s.active.id).queue ++ [⟨encodeAll c.records, d, t⟩] } :=
  Function.update_self ..

theorem VLog.send_segs_of_ne (s : VLog) (t : Nat) (d : Durability) (c : Cont) {T : Nat} (hT : T ≠ s.active.id) :
    (s.send t d c).1.segs T = s.segs T := Function.update_of_ne hT ..

theorem VLog.send_file (s : VLog) (t : Nat) (d : Durability) (c : Cont) (T : Nat) :
    ((s.send t d c).1.segs T).file = (s.segs T).file := by
  by_cases hT : T = s.active.id
  · rw [hT, s.send_segs_active]
  · rw [s.send_segs_of_ne t d c hT]

/-- A request that is queued after a send was queued before or is the one that is sent. -/
theorem VLog.mem_queue_send {d : Durability} {c : Cont} {T : Nat} {w : WriteReq}
    (hw : w ∈ ((s.send t d c).1.segs T).queue) :
    w ∈ (s.segs T).queue ∨ T = s.active.id ∧ w = ⟨encodeAll c.records, d, t⟩ := by
  by_cases hT : T = s.active.id
  · rw [hT, s.send_segs_active] at hw
    rw [hT]
    exact (List.mem_append.mp hw).imp_right fun hw => ⟨rfl, List.mem_singleton.mp hw⟩
  · rw [s.send_segs_of_ne t d c hT] at hw
    exact .inl hw

/-- The records of the other tasks stay where they are. -/
theorem Placed.send {i T o : Nat} {e : Durability} {c' : Cont} (hp : Placed s i T e c' o) (hi : i ≠ t)
    (d : Durability) (c : Cont) : Placed (s.send t d c).1 i T e c' o := by
  rcases hp with ⟨hack, hmem⟩ | ⟨hack, hqueue, hsync⟩
  · refine .inl ⟨hack, ?_⟩
    by_cases hT : T = s.active.id
    · rw [hT, s.send_segs_active, placeBatch_append]
      exact List.mem_append_left _ (hT ▸ hmem)
    · rwa [s.send_segs_of_ne t d c hT]
  · refine .inr ⟨hack, fun w hw => ?_, by rwa [s.send_file]⟩
    rcases VLog.mem_queue_send hw with hw | ⟨-, rfl⟩
    · exact hqueue w hw
    · exact Ne.symm hi

/-- The records of a task that waited for room enter the committer of the active segment. -/
theorem Rel.send (h : Rel hist s α raw) {d : Durability} {c : Cont}
    (hl : s.tasks.lookup t = some (.lockWait (.append d c))) :
    Rel hist (s.send t d c).1
      ((α.append (dataRecs (layout (encodeAll (raw s.active.id).flatten).length c.records))).setPend t
        (some (sentOf s.active.id (encodeAll (raw s.active.id).flatten).length c)))
      (Function.update raw s.active.id (raw s.active.id ++ [c.records])) := by
  set S := s.active.id with hS
  set o := (encodeAll (raw S).flatten).length with ho
  obtain ⟨⟨hpend, hb, hpar⟩, hcomp⟩ : JobOk s α t (.append d c) ∧ α.comp t = none := by
    have := h.task t
    rwa [hl] at this
  have hmov : Movable (s.tasks.lookup t) := by
    rw [hl]
    exact ⟨by simp, by simp⟩
  have hack : s.acks t = none := h.acks_none hmov
  have hqueue : ∀ T, ∀ w ∈ (s.segs T).queue, w.task ≠ t := h.not_queued hmov
  have hself : (s.send t d c).1.tasks.lookup t = some (.commit S d c) := AList.lookup_insert _
  have hother : ∀ i, i ≠ t → (s.send t d c).1.tasks.lookup i = s.tasks.lookup i :=
    fun i hi => AList.lookup_insert_ne hi
  have hsegS := s.send_segs_active t d c
  rw [← hS] at hsegS
  have hsegT : ∀ T, T ≠ S → (s.send t d c).1.segs T = s.segs T := fun T => s.send_segs_of_ne t d c
  have hnext : (s.segs S).wOffset + (batchBytes (s.segs S).queue).length = o := (h.seg S).next
  refine {
    active := h.active
    clock := h.clock
    seg := fun T => ?_
    block := fun T b hbT => ?_
    sent := fun T => ?_
    synced := fun T => by rw [s.send_file]; exact h.synced T
    linked := h.linked
    readable_le := h.readable_le
    beyond := fun T hT => ?_
    index := h.index
    size := h.size
    last := h.last
    durable := h.durable
    task := fun i => ?_
    queue := fun T w hw => ?_
    nodup := fun T => ?_
    acks := fun i hi => ?_
    dir := fun T => ?_
    dir_nodup := h.dir_nodup }
  · by_cases hT : T = S
    · subst hT
      rw [hsegS, Function.update_self]
      exact (h.seg S).push rfl
    · rw [hsegT T hT, Function.update_of_ne hT]
      exact h.seg T
  · by_cases hT : T = S
    · subst hT
      rw [Function.update_self] at hbT
      rcases List.mem_append.mp hbT with hbT | hbT
      · exact h.block S b hbT
      · rwa [List.mem_singleton.mp hbT]
    · rw [Function.update_of_ne hT] at hbT
      exact h.block T b hbT
  · by_cases hT : T = S
    · subst hT
      simp only [Function.update_self, SegLog.State.setPend_sent, SegLog.State.append_sent, h.active]
      rw [← hS, Function.update_self, h.sent S, List.flatten_append, List.flatten_singleton,
        dataRecs_layout_append]
    · simp only [SegLog.State.setPend_sent, SegLog.State.append_sent, h.active]
      rw [← hS, Function.update_of_ne hT, Function.update_of_ne hT, h.sent T]
  · have hT' : T ≠ S := Nat.ne_of_gt hT
    rw [Function.update_of_ne hT']
    exact h.beyond T hT
  · -- the task that sends now waits for its records, which are last in the queue
    by_cases hi : i = t
    · subst hi
      rw [hself]
      refine ⟨⟨o, by simp, .inl ⟨hack, ?_⟩⟩, by simpa using hcomp, hb, ?_⟩
      · rw [hsegS, placeBatch_append]
        simp [placeBatch, hnext]
      · exact hpar.setTask (t := i) (fun q hq => by rw [hl] at hq; cases hq) rfl
    · rw [hother i hi]
      refine (h.task i).frame (by simp [hi]) rfl (fun T e c' o' _ hp => hp.send hi d c)
        (fun parent q hq hiq => ?_) (fun T p hp => ?_) fun _ _ _ => ⟨rfl, rfl⟩
      · have hne : parent ≠ t := by
          rintro rfl
          rw [hl] at hq
          cases hq
        exact ⟨q, (hother parent hne).trans hq, hiq⟩
      · by_cases hT : T = S
        · subst hT
          rw [Function.update_self, List.flatten_append, layout_append]
          exact List.mem_append_left _ hp
        · rwa [Function.update_of_ne hT]
  · rcases VLog.mem_queue_send hw with hw | ⟨rfl, rfl⟩
    · obtain ⟨e, c', hc⟩ := h.queue T w hw
      exact ⟨e, c', (hother _ (hqueue T w hw)).trans hc⟩
    · exact ⟨d, c, hself⟩
  · by_cases hT : T = S
    · subst hT
      rw [hsegS]
      simp only [List.map_append, List.map_cons, List.map_nil]
      refine List.nodup_append.mpr ⟨h.nodup S, by simp, ?_⟩
      intro x hx y hy
      obtain ⟨w, hw, rfl⟩ := List.mem_map.mp hx
      rw [List.mem_singleton.mp hy]
      exact hqueue S w hw
    · rw [hsegT T hT]
      exact h.nodup T
  · obtain ⟨T, e, c', hc⟩ := h.acks i hi
    have hne : i ≠ t := by
      rintro rfl
      exact hi hack
    exact ⟨T, e, c', (hother i hne).trans hc⟩
  · refine (h.dir T).trans (or_congr_right (exists_congr fun i => exists_congr fun job => ?_))
    by_cases hi : i = t
    · subst hi
      rw [hself, hl]
      simp
    · rw [hother i hi]

/-! ### Flushing a batch -/

omit H in
/-- A successful flush, in one piece. -/
theorem VLog.flush_ok {S n : Nat} {ev : List Event} (hf : s.flush S n .ok = some (s', ev)) :
    ev = [] ∧ ∃ file : File,
      file.data = File.overwrite (s.segs S).file.data (s.segs S).wOffset
        (batchBytes ((s.segs S).queue.take n)) ∧
      file.synced = (if batchDurability ((s.segs S).queue.take n) = .relaxed
        then (s.segs S).file.synced else file.data.length) ∧
      s' = { s with
        segs := Function.update s.segs S ⟨file, (s.segs S).queue.drop n,
          (s.segs S).wOffset + (batchBytes ((s.segs S).queue.take n)).length⟩
        acks := fun t =>
          ((batchAcks (s.segs S).wOffset ((s.segs S).queue.take n)).lookup t).or (s.acks t) } := by
  unfold VLog.flush at hf
  simp only at hf
  split at hf
  · simp only [flushBatch, Option.some.injEq, Prod.mk.injEq] at hf
    obtain ⟨rfl, rfl⟩ := hf
    refine ⟨rfl, _, ?_, ?_, rfl⟩
    · split <;> rfl
    · split <;> rfl
  · cases hf

/-- Requests at the front of the queue reach the file. -/
theorem SegRel.flush {seg : Segment} {blocks : List (List Record)} (h : SegRel seg blocks) {n : Nat}
    {file : File} (hfile : file.data = File.overwrite seg.file.data seg.wOffset
      (batchBytes (seg.queue.take n))) :
    file.data = seg.file.data ++ batchBytes (seg.queue.take n) ∧
      SegRel ⟨file, seg.queue.drop n, seg.wOffset + (batchBytes (seg.queue.take n)).length⟩
        blocks := by
  obtain ⟨done, queued, rfl, hdata, hoff, hq⟩ := h
  have hdata' : file.data = seg.file.data ++ batchBytes (seg.queue.take n) := by
    rw [hfile, File.overwrite]
    split_ifs with hempty
    · rw [hempty, List.append_nil]
    · simp [hoff]
  have htake : (seg.queue.take n).map WriteReq.data = (queued.take n).map encodeAll := by
    rw [List.map_take, hq, ← List.map_take]
  refine ⟨hdata', done ++ queued.take n, queued.drop n, by simp, ?_, ?_, ?_⟩
  · rw [hdata', hdata, batchBytes_eq htake]
    simp
  · rw [hdata', hoff, List.length_append]
  · rw [List.map_drop, hq, ← List.map_drop]

/-- What a successful flush of `n` requests of segment `S` does. -/
structure Flushed (s s' : VLog) (S n : Nat) : Prop where
  frame : s' = { s with segs := s'.segs, acks := s'.acks }
  other : ∀ T, T ≠ S → s'.segs T = s.segs T
  queue : (s'.segs S).queue = (s.segs S).queue.drop n
  wOffset : (s'.segs S).wOffset = (s.segs S).wOffset + (batchBytes ((s.segs S).queue.take n)).length
  synced_le : (s.segs S).file.synced ≤ (s'.segs S).file.synced
  /-- A batch with a request that is not relaxed is synced up to its end. -/
  synced : batchDurability ((s.segs S).queue.take n) ≠ .relaxed →
    (s'.segs S).file.synced = (s.segs S).wOffset + (batchBytes ((s.segs S).queue.take n)).length
  acks : ∀ i, s'.acks i =
    ((batchAcks (s.segs S).wOffset ((s.segs S).queue.take n)).lookup i).or (s.acks i)

theorem Rel.flushed (h : Rel hist s α raw) {S n : Nat} {ev : List Event}
    (hf : s.flush S n .ok = some (s', ev)) : ev = [] ∧ Flushed s s' S n ∧ SegRel (s'.segs S) (raw S) := by
  obtain ⟨rfl, file, hdata, hsync, hs'⟩ := VLog.flush_ok hf
  obtain ⟨hdata', hrel⟩ := (h.seg S).flush hdata
  have hseg : s'.segs S = ⟨file, (s.segs S).queue.drop n,
      (s.segs S).wOffset + (batchBytes ((s.segs S).queue.take n)).length⟩ := by simp [hs']
  have hoff : (s.segs S).wOffset = (s.segs S).file.data.length := by
    obtain ⟨_, _, _, _, hoff, _⟩ := h.seg S
    exact hoff
  refine ⟨rfl, ⟨by rw [hs'], fun T hT => by simp [hs', hT], by rw [hseg], by rw [hseg], ?_, fun hd => ?_,
    fun i => by simp [hs']⟩, by rwa [hseg]⟩
  · rw [hseg, hsync]
    split
    · exact Nat.le_refl _
    · rw [hdata', List.length_append]
      exact Nat.le_trans (s.segs S).file.synced_le (Nat.le_add_right _ _)
  · rw [hseg, hsync, if_neg hd, hdata', List.length_append, hoff]

omit H in
/-- A task outside the batch keeps its answer. -/
theorem Flushed.acks_of_not_mem {S n : Nat} (h : Flushed s s' S n) {i : Nat}
    (hi : ∀ w ∈ (s.segs S).queue.take n, w.task ≠ i) : s'.acks i = s.acks i := by
  rw [h.acks, lookup_batchAcks_none hi, Option.none_or]

theorem Rel.batch_nodup (h : Rel hist s α raw) (S n : Nat) :
    (((s.segs S).queue.take n).map WriteReq.task).Nodup ∧
      ∀ w ∈ (s.segs S).queue.take n, ∀ w' ∈ (s.segs S).queue.drop n, w.task ≠ w'.task := by
  have hnodup := h.nodup S
  rw [← List.take_append_drop n (s.segs S).queue, List.map_append, List.nodup_append] at hnodup
  exact ⟨hnodup.1, fun w hw w' hw' => hnodup.2.2 _ (List.mem_map_of_mem hw) _ (List.mem_map_of_mem hw')⟩

/-- The records of a task stay where they are placed; those of the batch are answered. -/
theorem Rel.placed_flushed (h : Rel hist s α raw) {S n : Nat} (hf : Flushed s s' S n) {i T o : Nat}
    {d : Durability} {c : Cont} (hpc : s.tasks.lookup i = some (.commit T d c)) (hp : Placed s i T d c o) :
    Placed s' i T d c o := by
  have hsplit := (List.take_append_drop n (s.segs S).queue).symm
  obtain ⟨hnodup, hapart⟩ := h.batch_nodup S n
  by_cases hT : T = S
  · subst hT
    rcases hp with ⟨hp1, hp2⟩ | ⟨hp1, hp2, hp3⟩
    · rw [hsplit, placeBatch_append] at hp2
      rcases List.mem_append.mp hp2 with hp2 | hp2
      · -- the request is in the batch: it has been answered
        have hw := mem_of_mem_placeBatch hp2
        refine .inr ⟨⟨(encodeAll c.records).length % 2 ^ 32, ?_⟩, fun w' hw' => ?_, fun hd => ?_⟩
        · rw [hf.acks, lookup_batchAcks hnodup hp2]
          rfl
        · rw [hf.queue] at hw'
          exact (hapart _ hw w' hw').symm
        · rw [hf.synced (batchDurability_ne_relaxed hw hd)]
          exact le_of_mem_placeBatch hp2
      · refine .inl ⟨?_, ?_⟩
        · rw [hf.acks_of_not_mem fun w hw => hapart w hw _ (mem_of_mem_placeBatch hp2), hp1]
        · rw [hf.wOffset, hf.queue]
          exact hp2
    · refine .inr ⟨?_, fun w hw => ?_, fun hd => Nat.le_trans (hp3 hd) hf.synced_le⟩
      · rwa [hf.acks_of_not_mem fun w hw => hp2 w (List.mem_of_mem_take hw)]
      · rw [hf.queue] at hw
        exact hp2 w (List.mem_of_mem_drop hw)
  · have hack : s'.acks i = s.acks i := by
      refine hf.acks_of_not_mem fun w hw heq => ?_
      obtain ⟨d', c', hc⟩ := h.queue S w (List.mem_of_mem_take hw)
      rw [heq, hpc] at hc
      cases hc
      exact hT rfl
    unfold Placed
    rw [hf.other T hT, hack]
    exact hp

theorem Rel.flush (h : Rel hist s α raw) {S n : Nat} {ev : List Event}
    (hf : s.flush S n .ok = some (s', ev)) :
    ev = [] ∧ Step α (.sync S) { α with synced := Function.update α.synced S (s'.segs S).file.synced } ∧
      Rel hist s' { α with synced := Function.update α.synced S (s'.segs S).file.synced } raw := by
  obtain ⟨rfl, hf, hrel⟩ := h.flushed hf
  have hs' := hf.frame
  have htask : s'.tasks = s.tasks := by rw [hs']
  refine ⟨rfl, .sync S _ (by rw [h.synced S]; exact hf.synced_le), {
    active := by rw [hs']; exact h.active
    clock := by rw [hs']; exact h.clock
    seg := fun T => ?_
    block := h.block
    sent := h.sent
    synced := fun T => ?_
    linked := fun T => by rw [hs']; exact h.linked T
    readable_le := fun T hT => by rw [hs'] at hT ⊢; exact h.readable_le T hT
    beyond := fun T hT => by rw [hs'] at hT; exact h.beyond T hT
    index := by rw [hs']; exact h.index
    size := by rw [hs']; exact h.size
    last := h.last
    durable := h.durable
    task := fun i => ?_
    queue := fun T w hw => ?_
    nodup := fun T => ?_
    acks := fun i hi => ?_
    dir := fun T => by rw [hs']; exact h.dir T
    dir_nodup := by rw [hs']; exact h.dir_nodup }⟩
  · by_cases hT : T = S
    · subst hT
      exact hrel
    · rw [hf.other T hT]
      exact h.seg T
  · by_cases hT : T = S
    · subst hT
      simp
    · simp only [Function.update_of_ne hT, hf.other T hT]
      exact h.synced T
  · rw [htask]
    exact (h.task i).frame rfl rfl (fun T d c o hpc hp => h.placed_flushed hf hpc hp)
      (fun parent q hq hi => ⟨q, htask ▸ hq, hi⟩) (fun _ _ => id) fun _ _ _ => by rw [hs']; exact ⟨rfl, rfl⟩
  · have hw' : w ∈ (s.segs T).queue := by
      by_cases hT : T = S
      · subst hT
        rw [hf.queue] at hw
        exact List.mem_of_mem_drop hw
      · rwa [hf.other T hT] at hw
    rw [htask]
    exact h.queue T w hw'
  · by_cases hT : T = S
    · subst hT
      rw [hf.queue]
      exact (h.nodup T).sublist ((List.drop_sublist _ _).map _)
    · rw [hf.other T hT]
      exact h.nodup T
  · rw [htask]
    -- a task has an answer because it is in the batch or because it had one
    by_cases hin : ∃ w ∈ (s.segs S).queue.take n, w.task = i
    · obtain ⟨w, hw, rfl⟩ := hin
      exact ⟨S, h.queue S w (List.mem_of_mem_take hw)⟩
    · refine h.acks i ?_
      rwa [← hf.acks_of_not_mem fun w hw heq => hin ⟨w, hw, heq⟩]

/-! ### Rotation -/

theorem Rel.commit_le (h : Rel hist s α raw) (hw : Wf α) {i S : Nat} {d : Durability} {c : Cont}
    (hi : s.tasks.lookup i = some (.commit S d c)) : S ≤ s.active.id := by
  have htask := h.task i
  rw [hi] at htask
  obtain ⟨⟨o, hp, _⟩, _⟩ := htask
  have := hw.pend i _ hp
  rw [← h.active]
  cases c with
  | relocate parent seg offset rec => exact this.2.2.2
  | set => exact this.1
  | del => exact this.1
  | setMany => exact this.1

omit H in
theorem JobOk.setTask {i : Nat} {job : Job} (h : JobOk s α i job) {pc : Pc}
    (ht : ∀ q, s.tasks.lookup t ≠ some (.relocating q)) (hs : s'.tasks = s.tasks.insert t pc) :
    JobOk s' α i job := by
  cases job with
  | append d c => exact ⟨h.1, h.2.1, h.2.2.setTask ht hs⟩
  | sealActive => exact h

/-- Only the holder of the lock starts a segment. -/
theorem Rel.not_starting (h : Rel hist s α raw) (hfree : s.rotateLock = none) (i S : Nat) (job : Job) :
    s.tasks.lookup i ≠ some (.starting S job) := by
  intro hi
  have htask := h.task i
  rw [hi] at htask
  have hlock := htask.2.1
  rw [hfree] at hlock
  cases hlock

/-- A segment beyond the active one has nothing that is synced. -/
theorem Rel.synced_beyond (h : Rel hist s α raw) {S : Nat} (hS : s.active.id < S) : α.synced S = 0 := by
  obtain ⟨done, queued, hb, hdata, _⟩ := h.seg S
  rw [h.beyond S hS, List.nil_eq, List.append_eq_nil_iff] at hb
  have hle := (s.segs S).file.synced_le
  rw [hdata, hb.1] at hle
  rw [h.synced S]
  exact Nat.le_zero.mp hle

/-- `maybe_rotate` creates the next segment file. -/
theorem Rel.startSegment (h : Rel hist s α raw) (hw : Wf α) {job : Job}
    (hl : s.tasks.lookup t = some (.lockWait job)) (hfree : s.rotateLock = none)
    (hnew : s.active.id + 1 ∉ s.dir) : Rel hist { s with
      dir := s.dir ++ [s.active.id + 1]
      segs := Function.update s.segs (s.active.id + 1) ⟨File.create s.maxSegSize, [], 0⟩
      rotateLock := some t
      tasks := s.tasks.insert t (.starting (s.active.id + 1) job) } α raw := by
  set id := s.active.id + 1 with hid
  have hraw : raw id = [] := h.beyond id (Nat.lt_succ_self _)
  have hmov : Movable (s.tasks.lookup t) := by
    rw [hl]
    exact ⟨by simp, by simp⟩
  have hnorel : ∀ q, s.tasks.lookup t ≠ some (.relocating q) := fun q hq => by
    rw [hl] at hq
    cases hq
  have hnostart := h.not_starting hfree
  have hsegid : ∀ S, S ≠ id → (Function.update s.segs id ⟨File.create s.maxSegSize, [], 0⟩) S =
      s.segs S := fun S hS => Function.update_of_ne hS ..
  refine { h with
    seg := fun S => ?_
    synced := fun S => ?_
    task := fun i => ?_
    queue := fun S w hw => ?_
    nodup := fun S => ?_
    acks := fun i hi => ?_
    dir := fun S => ?_
    dir_nodup := List.nodup_append.mpr ⟨h.dir_nodup, by simp, fun x hx y hy => ?_⟩ }
  · by_cases hS : S = id
    · subst hS
      simp only [Function.update_self, hraw]
      exact ⟨[], [], rfl, rfl, rfl, rfl⟩
    · simp only [hsegid S hS]
      exact h.seg S
  · by_cases hS : S = id
    · subst hS
      simp only [Function.update_self]
      exact h.synced_beyond (Nat.lt_succ_self _)
    · simp only [hsegid S hS]
      exact h.synced S
  · by_cases hi : i = t
    · subst hi
      have htask := h.task i
      rw [hl] at htask
      simp only [AList.lookup_insert]
      exact ⟨⟨htask.1.setTask hnorel rfl, htask.2⟩, rfl, hid⟩
    · simp only [AList.lookup_insert_ne hi]
      refine (h.task i).frame rfl rfl (fun S d c o hpc hp => ?_) (fun parent q hq hi => ?_)
        (fun _ _ hp => hp) fun id job hpc => absurd hpc (hnostart i id job)
      · have hS : S ≠ id := Nat.ne_of_lt (Nat.lt_succ_of_le (h.commit_le hw hpc))
        simpa only [Placed, hsegid S hS] using hp
      · have hne : parent ≠ t := by
          rintro rfl
          exact hnorel q hq
        exact ⟨q, by simp only [AList.lookup_insert_ne hne, hq], hi⟩
  · by_cases hS : S = id
    · subst hS
      simp at hw
    · simp only [hsegid S hS] at hw
      obtain ⟨d, c, hc⟩ := h.queue S w hw
      exact ⟨d, c, by simp only [AList.lookup_insert_ne (h.not_queued hmov S w hw), hc]⟩
  · by_cases hS : S = id
    · subst hS
      simp
    · simp only [hsegid S hS]
      exact h.nodup S
  · obtain ⟨S, d, c, hc⟩ := h.acks i hi
    have hne : i ≠ t := by
      rintro rfl
      exact hmov.1 S d c hc
    exact ⟨S, d, c, by simp only [AList.lookup_insert_ne hne, hc]⟩
  · simp only [List.mem_append, List.mem_singleton]
    constructor
    · rintro (hS | rfl)
      · refine .inl (((h.dir S).mp hS).resolve_right ?_)
        rintro ⟨i, job, hi⟩
        exact hnostart i S job hi
      · exact .inr ⟨t, job, AList.lookup_insert _⟩
    · rintro (hS | ⟨i, job', hi⟩)
      · exact .inl ((h.dir S).mpr (.inl hS))
      · by_cases hit : i = t
        · subst hit
          rw [AList.lookup_insert] at hi
          cases hi
          exact .inr rfl
        · rw [AList.lookup_insert_ne hit] at hi
          exact absurd hi (hnostart i S job')
  · rw [List.mem_singleton.mp hy]
    rintro rfl
    exact hnew hx

/-- The new segment becomes active. -/
theorem Rel.activate (h : Rel hist s α raw) {id : Nat} {job : Job}
    (hl : s.tasks.lookup t = some (.starting id job)) :
    Rel hist ((s.activate id).setTask t (.lockWait job))
      { α with active := α.active + 1, linked := Function.update α.linked (α.active + 1) True }
      raw := by
  have htask := h.task t
  rw [hl] at htask
  obtain ⟨⟨hjob, hcomp⟩, hlock, hid⟩ := htask
  have hidα : α.active + 1 = id := by rw [h.active, hid]
  have hmov : ∀ S d c, s.tasks.lookup t ≠ some (.commit S d c) := fun S d c hc => by
    rw [hl] at hc
    cases hc
  have hnorel : ∀ q, s.tasks.lookup t ≠ some (.relocating q) := fun q hq => by
    rw [hl] at hq
    cases hq
  have honly : ∀ i S job, s.tasks.lookup i = some (.starting S job) → i = t := by
    intro i S job hi
    have := h.task i
    rw [hi] at this
    have := this.2.1
    rw [hlock] at this
    exact (Option.some.inj this).symm
  have hqueue : ∀ S, ∀ w ∈ (s.segs S).queue, w.task ≠ t := by
    rintro S w hw rfl
    obtain ⟨d, c, hc⟩ := h.queue S w hw
    exact hmov S d c hc
  have hread : ∀ S, ((s.activate id).setTask t (.lockWait job)).isReadable S = true ↔
      s.isReadable S = true ∨ S = id := by
    intro S
    simp only [VLog.isReadable, VLog.setTask, VLog.activate, List.any_append, Bool.or_eq_true]
    refine or_congr_right ?_
    simpa using eq_comm
  refine { h with
    active := by simp [VLog.setTask, VLog.activate, hidα]
    linked := fun S => ?_
    readable_le := fun S hS => ?_
    beyond := fun S hS => h.beyond S ?_
    task := fun i => ?_
    queue := fun S w hw => ?_
    acks := fun i hi => ?_
    dir := fun S => ?_ }
  · rw [hread, hidα]
    by_cases hS : S = id
    · simp [hS]
    · simp [hS, h.linked S]
  · rcases (hread S).mp hS with hS | rfl
    · exact Nat.le_trans (h.readable_le S hS) (by simp [VLog.setTask, VLog.activate, hid])
    · simp [VLog.setTask, VLog.activate]
  · simp only [VLog.setTask, VLog.activate] at hS
    omega
  · by_cases hi : i = t
    · subst hi
      simp only [VLog.setTask, AList.lookup_insert]
      exact ⟨(hjob.setTask hnorel rfl : JobOk ((s.activate id).setTask i (.lockWait job)) ..), hcomp⟩
    · simp only [VLog.setTask, AList.lookup_insert_ne hi]
      refine (h.task i).frame rfl rfl (fun S d c o _ hp => hp) (fun parent q hq hi => ?_)
        (fun _ _ hp => hp) fun S job hpc => absurd (honly i S job hpc) hi
      have hne : parent ≠ t := by
        rintro rfl
        exact hnorel q hq
      exact ⟨q, by simpa only [VLog.activate, AList.lookup_insert_ne hne] using hq, hi⟩
  · obtain ⟨d, c, hc⟩ := h.queue S w hw
    exact ⟨d, c, by simpa only [VLog.setTask, AList.lookup_insert_ne (hqueue S w hw), VLog.activate] using hc⟩
  · obtain ⟨S, d, c, hc⟩ := h.acks i hi
    have hne : i ≠ t := by
      rintro rfl
      exact hmov S d c hc
    exact ⟨S, d, c, by simpa only [VLog.setTask, AList.lookup_insert_ne hne, VLog.activate] using hc⟩
  · rw [hread, show ((s.activate id).setTask t (.lockWait job)).dir = s.dir from rfl, h.dir S]
    constructor
    · rintro (hS | ⟨i, job', hi⟩)
      · exact .inl (.inl hS)
      · obtain rfl := honly i S job' hi
        rw [hl] at hi
        cases hi
        exact .inl (.inr rfl)
    · rintro ((hS | rfl) | ⟨i, job', hi⟩)
      · exact .inl hS
      · exact .inr ⟨t, job, hl⟩
      · by_cases hit : i = t
        · subst hit
          simp [VLog.setTask] at hi
        · simp only [VLog.setTask, VLog.activate, AList.lookup_insert_ne hit] at hi
          exact absurd (honly i S job' hi) hit

end Skeg
