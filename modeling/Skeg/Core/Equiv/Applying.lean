import Skeg.Core.Equiv.Writing

/-!
# Writes taking effect

A task whose records have been written updates the index (`Rel.apply` and its instances for `set`,
`del` and `set_many`); one that could not write returns an error (`Rel.cancel`).
-/

namespace Skeg

open SegLog (Rec Loc Pend Comp Label Step Wf Path)

variable [H : Hashes] {hist : List Event} {s s' : VLog} {α α' : LogState}
  {raw : Nat → List (List Record)} {t : Nat}

/-! ### One record -/

/-- The index points where the abstract index does, with the sizes of the records there. -/
structure IndexRel (s : VLog) (α : LogState) : Prop where
  index : ∀ k, α.index k = (s.index.lookup k).map fun e => (e.segmentId, e.offset)
  size : ∀ k e l v, s.index.lookup k = some e → α.last k = some l → l.val = some v →
    e.size = paddedRecordSize k.length v.length

theorem IndexRel.insert (h : IndexRel s α) {S o : Nat} {key value : Bytes} (ts : Nat) (dd : Bool)
    (hs : s'.index = s.index.insert key
      ⟨fingerprint key, S, o, paddedRecordSize key.length value.length⟩) :
    IndexRel s' (SegLog.State.applyOne S dd α (o, ⟨ts, key, some value⟩)) := by
  constructor
  · intro k
    rw [hs]
    by_cases hk : k = key
    · subst hk
      simp [SegLog.State.applyOne]
    · simp [SegLog.State.applyOne, hk, h.index k]
  · intro k e l v he hl hv
    rw [hs] at he
    by_cases hk : k = key
    · subst hk
      rw [AList.lookup_insert] at he
      simp only [SegLog.State.applyOne, Function.update_self] at hl
      cases he
      cases hl
      cases hv
      rfl
    · rw [AList.lookup_insert_ne hk] at he
      simp only [SegLog.State.applyOne, Function.update_of_ne hk] at hl
      exact h.size k e l v he hl hv

omit H in
theorem IndexRel.erase (h : IndexRel s α) {S o ts : Nat} {key : Bytes} (dd : Bool)
    (hs : s'.index = s.index.erase key) :
    IndexRel s' (SegLog.State.applyOne S dd α (o, ⟨ts, key, none⟩)) := by
  constructor
  · intro k
    rw [hs]
    by_cases hk : k = key
    · subst hk
      simp [SegLog.State.applyOne]
    · simp [SegLog.State.applyOne, hk, h.index k]
  · intro k e l v he hl hv
    rw [hs] at he
    by_cases hk : k = key
    · subst hk
      simp at he
    · rw [AList.lookup_erase_ne hk] at he
      simp only [SegLog.State.applyOne, Function.update_of_ne hk] at hl
      exact h.size k e l v he hl hv

/-- The record of applied writes is what the events say. -/
structure HistRel (hist : List Event) (α : LogState) : Prop where
  last : α.last = lastApplied hist
  durable : α.durable = lastDurable hist

omit H in
theorem HistRel.emit (h : HistRel hist α) (ev : List Event) (hev : ∀ e ∈ ev, e.Quiet) :
    HistRel (hist ++ ev) α :=
  ⟨h.last.trans (lastApplied_quiet hev).symm, h.durable.trans (lastDurable_quiet hev).symm⟩

omit H in
theorem HistRel.applied (h : HistRel hist α) (S o ts : Nat) (key : Bytes) (val : Option Bytes)
    (d : Durability) :
    HistRel (hist ++ [.applied key val ts d])
      (SegLog.State.applyOne S (d ≠ .relaxed) α (o, ⟨ts, key, val⟩)) := by
  constructor
  · simp only [SegLog.State.applyOne, h.last, lastApplied, List.foldl_append, List.foldl_cons,
      List.foldl_nil]
  · simp only [SegLog.State.applyOne, h.durable, lastDurable, List.foldl_append, List.foldl_cons,
      List.foldl_nil, decide_eq_true_eq]
    by_cases hd : d = .relaxed <;> simp [hd]

/-! ### A write that has been written -/

/-- What is known of a task whose request has been answered. -/
theorem Rel.acked (h : Rel hist s α raw) {S o n : Nat} {d : Durability} {c : Cont}
    (hl : s.tasks.lookup t = some (.commit S d c)) (hack : s.acks t = some (.ok (o, n))) :
    α.pend t = some (sentOf S o c) ∧ α.comp t = none ∧ IsBlock c.records ∧ HasParent s t c ∧
      (∀ T, ∀ w ∈ (s.segs T).queue, w.task ≠ t) ∧
      (d ≠ .relaxed → o + (encodeAll c.records).length ≤ α.synced S) := by
  have htask := h.task t
  rw [hl] at htask
  obtain ⟨⟨o', hpend, hplaced⟩, hcomp, hb, hpar⟩ := htask
  rcases hplaced with ⟨hnone, _⟩ | ⟨⟨n', hsome⟩, hq, hd⟩
  · rw [hack] at hnone
    cases hnone
  · rw [hack] at hsome
    cases hsome
    refine ⟨hpend, hcomp, hb, hpar, fun T w hw heq => ?_, fun hne => h.synced S ▸ hd hne⟩
    obtain ⟨d', c', hc⟩ := h.queue T w hw
    rw [heq, hl] at hc
    cases hc
    exact hq w hw heq

/-- A write takes effect and its task is done with the log. -/
theorem Rel.apply (hist' : List Event) (h : Rel hist s α raw) {S o n : Nat} {d : Durability} {c : Cont}
    (hl : s.tasks.lookup t = some (.commit S d c)) (hack : s.acks t = some (.ok (o, n)))
    (hsent : sentOf S o c = .sentWrite S (dataRecs (layout o c.records)))
    (hs : SameFiles s s') (hclock : s'.clock = s.clock)
    (hindex : IndexRel s' (α.applyAll S (d ≠ .relaxed) (dataRecs (layout o c.records))))
    (hhist : HistRel hist' (α.applyAll S (d ≠ .relaxed) (dataRecs (layout o c.records))))
    (hother : ∀ i, i ≠ t → s'.tasks.lookup i = s.tasks.lookup i ∧ s'.acks i = s.acks i)
    (hnew : Inert (s'.tasks.lookup t)) (hnone : s'.acks t = none) :
    Step α (.apply t S (d ≠ .relaxed) (dataRecs (layout o c.records)))
        ((α.applyAll S (d ≠ .relaxed) (dataRecs (layout o c.records))).setPend t none) ∧
      Rel hist' s'
        ((α.applyAll S (d ≠ .relaxed) (dataRecs (layout o c.records))).setPend t none) raw := by
  obtain ⟨hpend, hcomp, hb, hpar, hqueue, hdur⟩ := h.acked hl hack
  rw [hsent] at hpend
  refine ⟨.apply t S _ _ hpend fun hd p hp => ?_, ?_⟩
  · have hdr : d ≠ .relaxed := by simpa using hd
    obtain ⟨x, hx, _, _⟩ := mem_dataRecs.mp (show (p.1, p.2) ∈ _ from hp)
    obtain ⟨_, hle, _⟩ := mem_layout hx
    have := x.size_pos
    have := hdur hdr
    simp only at hle
    omega
  · refine h.update (· = t) hs ⟨α.applyAll_active .., α.applyAll_sent ..,
      α.applyAll_synced .., α.applyAll_linked ..⟩ ?_ hindex.index hindex.size
      hhist.last hhist.durable (fun i hi => ?_) ?_ ?_ ?_ ?_ ?_
    · simp [hclock, h.clock]
    · exact ⟨(hother i hi).1, (hother i hi).2, by simp [hi], by simp⟩
    · rintro i rfl
      exact hqueue
    · rintro i rfl id job hi
      rw [hl] at hi
      cases hi
    · rintro i rfl
      exact ⟨hnew.movable, hnone⟩
    · rintro i q rfl hi
      rw [hl] at hi
      cases hi
    · rintro i rfl
      exact hnew.taskOk_iff.mpr ⟨by simp, by simpa using hcomp⟩

/-- A write that never reached a committer is given up. -/
theorem Rel.cancel (h : Rel hist s α raw) {d : Durability} {c : Cont}
    (hl : s.tasks.lookup t = some (.lockWait (.append d c)))
    (hq : queuedOf c = .queuedWrite c.recs) (hs : SameLog s s') (hclock : s'.clock = s.clock)
    (hnew : Inert (s'.tasks.lookup t)) (hother : ∀ i, i ≠ t → s'.tasks.lookup i = s.tasks.lookup i) :
    Step α (.cancel t) (α.setPend t none) ∧ Rel hist s' (α.setPend t none) raw := by
  obtain ⟨⟨hpend, _, _⟩, hcomp⟩ : JobOk s α t (.append d c) ∧ α.comp t = none := by
    have := h.task t
    rwa [hl] at this
  refine ⟨.cancel t _ (hq ▸ hpend), ?_⟩
  refine h.retask (· = t) hs ⟨⟨rfl, rfl, rfl, rfl⟩, rfl, rfl, rfl⟩ ?_ (fun i hi => ?_) ?_ ?_ ?_ ?_
  · simp [hclock, h.clock]
  · exact ⟨hother i hi, by simp [hi], rfl⟩
  · rintro i rfl
    rw [hl]
    exact ⟨by simp, by simp⟩
  · rintro i rfl
    exact hnew.movable
  · rintro i q rfl hi
    rw [hl] at hi
    cases hi
  · rintro i rfl
    exact hnew.taskOk_iff.mpr ⟨by simp, hcomp⟩

/-! ### The writes of the store -/

omit H in
/-- The records of a batch, behind its header. -/
theorem dataRecs_batch (o ts : Nat) (pairs : List (Bytes × Bytes)) :
    dataRecs (layout o (batchRecords ts pairs)) =
      dataRecs (layout (o + paddedRecordSize 0 4) (batchMembers (ts + 1) pairs)) := by
  simp [batchRecords, layout, dataRecs, isData, Record.size]

/-- The tasks and files are not touched by a member of a batch. -/
structure SameTasks (s s' : VLog) : Prop extends SameFiles s s' where
  tasks : s'.tasks = s.tasks
  acks : s'.acks = s.acks
  clock : s'.clock = s.clock

omit H in
theorem isReadable_incLive (segs : List ReadSegment) (id bytes S : Nat) :
    (incLive segs id bytes).any (fun r => r.id = S) = segs.any fun r => r.id = S := by
  rw [incLive, List.any_map]
  congr 1
  funext r
  simp only [Function.comp]
  split <;> rfl

omit H in
theorem isReadable_decLive (segs : List ReadSegment) (id bytes S : Nat) :
    (decLive segs id bytes).any (fun r => r.id = S) = segs.any fun r => r.id = S := by
  rw [decLive, List.any_map]
  congr 1
  funext r
  simp only [Function.comp]
  split <;> rfl

omit H in
/-- Replacing an old record in the live counters changes no segment. -/
theorem isReadable_replace (segs : List ReadSegment) (prev : Option IndexEntry) (id bytes S : Nat) :
    (incLive (prev.elim segs fun p => decLive segs p.segmentId p.size) id bytes).any
      (fun r => r.id = S) = segs.any fun r => r.id = S := by
  rw [isReadable_incLive]
  cases prev with
  | none => rfl
  | some p => exact isReadable_decLive ..

theorem VLog.applyMember_spec {seg offset : Nat} {key value : Bytes}
    (hm : s.applyMember seg offset key value = some s') : SameTasks s s' ∧
      s'.index = s.index.insert key
        ⟨fingerprint key, seg, offset, paddedRecordSize key.length value.length⟩ := by
  unfold VLog.applyMember at hm
  simp only [Option.map_eq_some_iff] at hm
  obtain ⟨cache, _, rfl⟩ := hm
  exact ⟨⟨⟨rfl, rfl, rfl, rfl, fun S => isReadable_replace ..⟩, rfl, rfl, rfl⟩, rfl⟩

omit H in
theorem SameTasks.trans {s₁ s₂ s₃ : VLog} (h : SameTasks s₁ s₂) (h' : SameTasks s₂ s₃) :
    SameTasks s₁ s₃ :=
  ⟨⟨h'.active.trans h.active, h'.segs.trans h.segs, h'.dir.trans h.dir,
    h'.rotateLock.trans h.rotateLock, fun S => (h'.readable S).trans (h.readable S)⟩,
    h'.tasks.trans h.tasks, h'.acks.trans h.acks, h'.clock.trans h.clock⟩

/-- The members of a batch take effect one after the other. -/
theorem VLog.applyMembers_spec {seg : Nat} {d : Durability} {offset ts : Nat}
    {pairs : List (Bytes × Bytes)} {ev : List Event}
    (hm : s.applyMembers seg d offset ts pairs = some (s', ev)) (hidx : IndexRel s α)
    (hhist : HistRel hist α) : SameTasks s s' ∧
      IndexRel s' (α.applyAll seg (d ≠ .relaxed) (dataRecs (layout offset (batchMembers ts pairs)))) ∧
      HistRel (hist ++ ev)
        (α.applyAll seg (d ≠ .relaxed) (dataRecs (layout offset (batchMembers ts pairs)))) := by
  induction pairs generalizing s α hist offset ts ev with
  | nil =>
    cases hm
    exact ⟨⟨⟨rfl, rfl, rfl, rfl, fun _ => rfl⟩, rfl, rfl, rfl⟩, hidx, by
      rw [List.append_nil]
      exact hhist⟩
  | cons p pairs ih =>
    rw [VLog.applyMembers] at hm
    split at hm
    · cases hm
    · rename_i s₁ hone
      split at hm
      · cases hm
      · rename_i r hrest
        cases hm
        obtain ⟨hsame, hindex⟩ := VLog.applyMember_spec hone
        obtain ⟨h1, h2, h3⟩ := ih hrest (hidx.insert ts (d ≠ .relaxed) hindex)
          (hhist.applied seg offset ts p.1 (some p.2) d)
        refine ⟨hsame.trans h1, ?_, ?_⟩
        · simpa [batchMembers, layout, dataRecs, isData, absRec, Record.size,
            SegLog.State.applyAll] using h2
        · simpa [batchMembers, layout, dataRecs, isData, absRec, Record.size,
            SegLog.State.applyAll] using h3

/-- The store of a task that has taken its answer. -/
def VLog.takeAck (s : VLog) (t : Nat) : VLog := { s with acks := Function.update s.acks t none }

theorem Rel.applySet (h : Rel hist s α raw) {S o n ts tenant : Nat} {d : Durability}
    {key value : Bytes} {prev : Option IndexEntry} {isAppend : Bool} {ev : List Event}
    (hl : s.tasks.lookup t = some (.commit S d (.set key value tenant prev isAppend ts)))
    (hack : s.acks t = some (.ok (o, n)))
    (hs : (s.takeAck t).applySet t S o d key value tenant prev isAppend ts = some (s', ev)) :
    ∃ α', Step α (.apply t S (d ≠ .relaxed) [(o, ⟨ts, key, some value⟩)]) α' ∧
      Rel (hist ++ ev) s' α' raw := by
  unfold VLog.applySet at hs
  split at hs
  · cases hs
  · rename_i cache _
    cases hs
    refine ⟨_, Rel.apply (hist ++ _) h hl hack rfl ?_ ?_ ?_ ?_ ?_ ?_ ?_⟩
    · exact ⟨rfl, rfl, rfl, rfl, fun T => isReadable_replace ..⟩
    · rfl
    · exact IndexRel.insert (s := s) ⟨h.index, h.size⟩ ts _ rfl
    · have := (HistRel.applied ⟨h.last, h.durable⟩ S o ts key (some value) d).emit
        [.returned t (.ok (if isAppend then .len value.length else .unit))] (by simp [Event.Quiet])
      rwa [List.append_assoc] at this
    · intro i hi
      exact ⟨AList.lookup_erase_ne hi, Function.update_of_ne hi ..⟩
    · simp [VLog.respond, VLog.finish, Inert]
    · simp [VLog.respond, VLog.finish, VLog.takeAck]

theorem Rel.applyDel (h : Rel hist s α raw) {S o n ts : Nat} {d : Durability} {key : Bytes}
    {prev : IndexEntry} (hl : s.tasks.lookup t = some (.commit S d (.del key prev ts)))
    (hack : s.acks t = some (.ok (o, n))) :
    ∃ α', Step α (.apply t S (d ≠ .relaxed) [(o, ⟨ts, key, none⟩)]) α' ∧
      Rel (hist ++ ((s.takeAck t).applyDel t d key prev ts).2)
        ((s.takeAck t).applyDel t d key prev ts).1 α' raw := by
  refine ⟨_, Rel.apply (hist ++ _) h hl hack rfl ?_ ?_ ?_ ?_ ?_ ?_ ?_⟩
  · exact ⟨rfl, rfl, rfl, rfl, fun T => isReadable_decLive ..⟩
  · rfl
  · exact IndexRel.erase (s := s) ⟨h.index, h.size⟩ _ rfl
  · have := (HistRel.applied ⟨h.last, h.durable⟩ S o ts key none d).emit
      [.returned t (.ok (.existed true))] (by simp [Event.Quiet])
    rwa [List.append_assoc] at this
  · intro i hi
    exact ⟨AList.lookup_erase_ne hi, Function.update_of_ne hi ..⟩
  · simp [VLog.applyDel, VLog.finish, Inert]
  · simp [VLog.applyDel, VLog.finish, VLog.takeAck]

theorem Rel.applySetMany (h : Rel hist s α raw) {S o n ts : Nat} {d : Durability}
    {pairs : List (Bytes × Bytes)} {s₁ : VLog} {ev : List Event}
    (hl : s.tasks.lookup t = some (.commit S d (.setMany pairs ts)))
    (hack : s.acks t = some (.ok (o, n)))
    (hs : (s.takeAck t).applyMembers S d (o + paddedRecordSize 0 4) (ts + 1) pairs = some (s₁, ev)) :
    ∃ α', Step α (.apply t S (d ≠ .relaxed) (dataRecs (layout o (batchRecords ts pairs)))) α' ∧
      Rel (hist ++ (ev ++ (s₁.finish t (.ok .unit)).2)) (s₁.finish t (.ok .unit)).1 α' raw := by
  obtain ⟨hsame, hidx, hhist⟩ := VLog.applyMembers_spec hs (⟨h.index, h.size⟩ : IndexRel (s.takeAck t) α)
    (⟨h.last, h.durable⟩ : HistRel hist α)
  rw [← dataRecs_batch] at hidx hhist
  refine ⟨_, Rel.apply (hist ++ _) h hl hack rfl ?_ ?_ ?_ ?_ ?_ ?_ ?_⟩
  · exact ⟨hsame.active, hsame.segs, hsame.dir, hsame.rotateLock, hsame.readable⟩
  · exact hsame.clock
  · exact ⟨hidx.index, hidx.size⟩
  · have := hhist.emit (s₁.finish t (.ok .unit)).2 (by simp [VLog.finish, Event.Quiet])
    rwa [List.append_assoc] at this
  · intro i hi
    simp only [VLog.finish, AList.lookup_erase_ne hi, hsame.tasks, hsame.acks, VLog.takeAck,
      Function.update_of_ne hi, and_self]
  · simp [VLog.finish, Inert]
  · simp [VLog.finish, hsame.acks, VLog.takeAck]

end Skeg
