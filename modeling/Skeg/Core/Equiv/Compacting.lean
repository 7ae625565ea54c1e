import Skeg.Core.Equiv.Applying

/-!
# Compaction

The steps of a compaction as steps of the abstract log that keep `Rel`: it reads its segment
(`Rel.scan`), takes up the records one by one (`Rel.relocateNext`), hears of the outcome of a
relocation (`Rel.failed`, `Rel.moved`), syncs its destinations (`Rel.syncDest`) and unlinks the
segment (`Rel.unlink`), or gives up (`Rel.abandon`).
-/

namespace Skeg

open SegLog (Rec Loc Pend Comp Label Step Wf Path)

variable [H : Hashes] {hist : List Event} {s s' : VLog} {α α' : LogState}
  {raw : Nat → List (List Record)} {t : Nat}

/-! ### Tasks of the abstract operations -/

omit H in
theorem queuedOf_relocate {c : Cont} {parent : Nat} {src : Loc} {r : Rec Bytes Bytes}
    (h : queuedOf c = .queuedMove parent src r) : ∃ seg offset rec, c = .relocate parent seg offset rec := by
  cases c with
  | relocate p seg offset rec =>
    cases h
    exact ⟨seg, offset, rec, rfl⟩
  | _ => cases h

omit H in
theorem sentOf_relocate {c : Cont} {S o parent : Nat} {src dst : Loc} {r : Rec Bytes Bytes}
    (h : sentOf S o c = .sentMove parent src r dst) :
    ∃ seg offset rec, c = .relocate parent seg offset rec := by
  cases c with
  | relocate p seg offset rec =>
    cases h
    exact ⟨seg, offset, rec, rfl⟩
  | _ => cases h

/-- An operation in flight is a task that waits for the rotation lock or for a committer. -/
theorem TaskOk.pend_cases {pc : Option Pc} (h : TaskOk s α raw t pc) {p : Pend Bytes Bytes}
    (hp : α.pend t = some p) :
    (∃ c, p = queuedOf c ∧ IsBlock c.records ∧ HasParent s t c) ∨
      ∃ S d c o, pc = some (.commit S d c) ∧ p = sentOf S o c ∧ Placed s t S d c o ∧
        IsBlock c.records ∧ HasParent s t c := by
  have hnone : α.pend t = none → False := fun h => by rw [hp] at h; cases h
  have hjob : ∀ job, JobOk s α t job → ∃ c, p = queuedOf c ∧ IsBlock c.records ∧ HasParent s t c := by
    intro job hj
    cases job with
    | append d c =>
      exact ⟨c, Option.some.inj (hp.symm.trans hj.1), hj.2⟩
    | sealActive => exact (hnone hj).elim
  match pc, h with
  | some (.lockWait job), h => exact .inl (hjob job h.1)
  | some (.starting id job), h => exact .inl (hjob job h.1.1)
  | some (.commit S d c), h =>
    obtain ⟨⟨o, hpend, hplaced⟩, _, hb, hpar⟩ := h
    exact .inr ⟨S, d, c, o, rfl, Option.some.inj (hp.symm.trans hpend), hplaced, hb, hpar⟩
  | some (.relocating q), h => exact (hnone h.1).elim
  | some (.syncing ..), h => exact (hnone h.1).elim
  | some (.appendLock ..), h => exact (hnone h.1).elim
  | some (.pread ..), h => exact (hnone h.1).elim
  | some (.snapshotting _), h => exact (hnone h.1).elim
  | none, h => exact (hnone h.1).elim

omit H in
theorem inFlight_of_sentOf {S o : Nat} {c : Cont} (h : α.pend t = some (sentOf S o c)) :
    α.InFlight S := by
  cases c with
  | relocate parent seg offset rec => exact SegLog.inFlight_of_sentMove h
  | set => exact SegLog.inFlight_of_sentWrite h
  | del => exact SegLog.inFlight_of_sentWrite h
  | setMany => exact SegLog.inFlight_of_sentWrite h

/-- An append is in flight to `S` exactly when a task waits for its committer. -/
theorem Rel.inFlight_iff (h : Rel hist s α raw) (S : Nat) :
    α.InFlight S ↔ ∃ i d c, s.tasks.lookup i = some (.commit S d c) := by
  constructor
  · rintro (⟨i, ls, hi⟩ | ⟨i, p, src, r, o, hi⟩)
    · rcases (h.task i).pend_cases hi with ⟨c, hc, _⟩ | ⟨T, d, c, o, hpc, hc, _⟩
      · cases c <;> cases hc
      · obtain rfl : T = S := by cases c <;> cases hc <;> rfl
        exact ⟨i, d, c, hpc⟩
    · rcases (h.task i).pend_cases hi with ⟨c, hc, _⟩ | ⟨T, d, c, o, hpc, hc, _⟩
      · cases c <;> cases hc
      · obtain rfl : T = S := by
          cases c <;> cases hc
          rfl
        exact ⟨i, d, c, hpc⟩
  · rintro ⟨i, d, c, hi⟩
    have htask := h.task i
    rw [hi] at htask
    obtain ⟨⟨o, hp, _⟩, _⟩ := htask
    exact inFlight_of_sentOf hp

/-- The relocations of a compaction are among those it runs. -/
theorem Rel.running_of_moving (h : Rel hist s α raw) {i c : Nat} {src : Loc} {r : Rec Bytes Bytes}
    (hm : α.Moving i c src r) : ∃ q, s.tasks.lookup c = some (.relocating q) ∧ i ∈ q.running := by
  rcases hm with hm | ⟨dst, hm⟩
  · rcases (h.task i).pend_cases hm with ⟨cont, hc, _, hpar⟩ | ⟨S, d, cont, o, _, hc, _⟩
    · obtain ⟨seg, offset, rec, rfl⟩ := queuedOf_relocate hc.symm
      exact hpar c seg offset rec rfl
    · cases cont <;> cases hc
  · rcases (h.task i).pend_cases hm with ⟨cont, hc, _⟩ | ⟨S, d, cont, o, _, hc, _, _, hpar⟩
    · cases cont <;> cases hc
    · obtain ⟨seg, offset, rec, rfl⟩ := sentOf_relocate hc.symm
      exact hpar c seg offset rec rfl

/-! ### Reading a segment -/

/-- The store without task `t`. -/
def VLog.without (s : VLog) (t : Nat) : VLog := { s with tasks := s.tasks.erase t }

omit H in
@[simp] theorem VLog.lookup_without_self (s : VLog) (t : Nat) :
    (s.without t).tasks.lookup t = none := AList.lookup_erase ..

omit H in
theorem VLog.lookup_without_ne {i : Nat} (hi : i ≠ t) :
    (s.without t).tasks.lookup i = s.tasks.lookup i := AList.lookup_erase_ne hi

/-- What is in the file of a segment: its blocks but those still queued. -/
theorem SegRel.scan [LawfulHashes] {seg : Segment} {blocks : List (List Record)}
    (h : SegRel seg blocks) (hb : ∀ b ∈ blocks, IsBlock b) :
    ∃ done queued, blocks = done ++ queued ∧
      (scanFile seg.file.content).1 = layout 0 done.flatten ∧
      seg.file.data = encodeAll done.flatten ∧ (seg.queue = [] → queued = []) := by
  obtain ⟨done, queued, rfl, hdata, _, hq⟩ := h
  refine ⟨done, queued, rfl, ?_, hdata, fun hnil => ?_⟩
  · rw [File.content, hdata, scanFile_blocks fun b hbd => hb b (List.mem_append_left _ hbd)]
  · rw [hnil, List.map_nil, List.nil_eq, List.map_eq_nil_iff] at hq
    exact hq

theorem Rel.queue_nil (h : Rel hist s α raw) {S : Nat} (hS : ¬ α.InFlight S) :
    (s.segs S).queue = [] := by
  rw [List.eq_nil_iff_forall_not_mem]
  intro w hw
  obtain ⟨d, c, hc⟩ := h.queue S w hw
  exact hS ((h.inFlight_iff S).mpr ⟨_, d, c, hc⟩)

theorem Rel.scan [LawfulHashes] (h : Rel hist (s.without t) α raw) {S : Nat} (caller : Caller)
    (hskip : ¬ s.compactSkips S) :
    ∃ todo, Step α (.scan t S) (α.setComp t (some ⟨S, todo, [], false⟩)) ∧
      Rel hist (s.startCompaction t S caller).1 (α.setComp t (some ⟨S, todo, [], false⟩)) raw := by
  obtain ⟨hpend, hcomp⟩ : α.pend t = none ∧ α.comp t = none := by
    simpa [TaskOk] using h.task t
  simp only [VLog.compactSkips, not_or, Bool.not_eq_false] at hskip
  obtain ⟨hne, hread⟩ := hskip
  obtain ⟨done, queued, hraw, hscan, _, hq⟩ := (h.seg S).scan (h.block S)
  have hpre : layout 0 done.flatten <+: layout 0 (raw S).flatten := by
    rw [hraw, List.flatten_append, layout_append]
    exact List.prefix_append _ _
  have hpred : dataRecs (layout 0 done.flatten) <+: α.sent S := by
    rw [h.sent S]
    exact (hpre.filter _).map _
  refine ⟨dataRecs (layout 0 done.flatten), .scan t S _ hcomp ?_ ((h.linked S).mpr hread) hpred ?_, ?_⟩
  · have := h.readable_le S hread
    rw [h.active]
    exact Nat.lt_of_le_of_ne this fun heq => hne heq.symm
  · intro hS
    rw [h.sent S, hraw, hq (h.queue_nil hS), List.append_nil]
  · refine h.retask (· = t) ⟨⟨rfl, rfl, rfl, rfl, fun _ => rfl⟩, rfl, rfl⟩
      ⟨⟨rfl, rfl, rfl, rfl⟩, rfl, rfl, rfl⟩ h.clock (fun i hi => ⟨?_, rfl, by simp [hi]⟩) ?_ ?_ ?_ ?_
    · rw [VLog.lookup_without_ne hi]
      exact AList.lookup_insert_ne hi
    · rintro i rfl
      simp [Movable]
    · rintro i rfl
      simp [VLog.startCompaction, VLog.setTask, Movable]
    · rintro i q rfl hi
      simp at hi
    · rintro i rfl
      simp only [VLog.startCompaction, VLog.setTask, AList.lookup_insert]
      refine ⟨hpend, ?_, fun p hp => ?_⟩
      · simp only [SegLog.State.setComp_comp, Function.update_self]
        rw [← hscan]
        rfl
      · rw [show (scanFile (s.segs S).file.content).1 = _ from hscan] at hp
        exact hpre.subset hp

/-! ### Taking up a record -/

/-- A compaction whose list of records changes, and perhaps the relocations it runs. -/
theorem Rel.setRelocating (h : Rel hist s α raw) {q q' : Relocation}
    (hl : s.tasks.lookup t = some (.relocating q)) (hsub : ∀ i ∈ q.running, i ∈ q'.running)
    (hseg : q'.seg = q.seg) (htodo : ∀ p ∈ q'.todo, p ∈ q.todo)
    (hα : SameAbs α α') (hclock : α'.clock = α.clock) (hpend : α'.pend = α.pend)
    (hcomp : ∀ i, i ≠ t → α'.comp i = α.comp i)
    (hcompt : α'.comp t = some ⟨q'.seg, dataRecs q'.todo, q'.dests, q'.err.isSome⟩) :
    Rel hist (s.setTask t (.relocating q')) α' raw := by
  have htask := h.task t
  rw [hl] at htask
  have hself : (s.setTask t (.relocating q')).tasks.lookup t = some (.relocating q') :=
    AList.lookup_insert _
  refine h.retask (· = t) ⟨⟨rfl, rfl, rfl, rfl, fun _ => rfl⟩, rfl, rfl⟩ hα (hclock.trans h.clock)
    (fun i hi => ⟨AList.lookup_insert_ne hi, by rw [hpend], hcomp i hi⟩) ?_ ?_ ?_ ?_
  · rintro i rfl
    rw [hl]
    exact ⟨by simp, by simp⟩
  · rintro i rfl
    rw [hself]
    exact ⟨by simp, by simp⟩
  · rintro i q₀ rfl hi j hj _
    rw [hl] at hi
    cases hi
    exact ⟨q', hself, hsub j hj⟩
  · rintro i rfl
    rw [hself]
    exact ⟨by rw [hpend]; exact htask.1, hcompt, fun p hp => hseg ▸ htask.2.2 p (htodo p hp)⟩

omit H in
/-- A relocated record is the record it copies. -/
theorem absRec_relocated (rec : Record) :
    absRec ⟨rec.ts, rec.kind, rec.key, if rec.kind = .tombstone then [] else rec.value⟩ =
      absRec rec := by
  unfold absRec
  by_cases hk : rec.kind = .tombstone <;> simp [hk]

omit H in
theorem isBlock_relocated {rec : Record} (hwf : rec.Wf) (hk : rec.kind ≠ .batchBegin)
    (parent seg offset : Nat) : IsBlock (Cont.relocate parent seg offset rec).records := by
  refine ⟨?_, .inl ⟨_, rfl, hk⟩⟩
  simp only [Cont.records, List.mem_singleton, forall_eq]
  refine ⟨hwf.ts, hwf.key, ?_⟩
  dsimp only
  split
  · simp
  · exact hwf.value

/-- The index does not point at the header of a batch. -/
theorem Rel.not_pointsAt_batchBegin (h : Rel hist s α raw) (hw : Wf α) {S o : Nat} {rec : Record}
    (hmem : (o, rec) ∈ layout 0 (raw S).flatten) (hk : rec.kind = .batchBegin) (k : Bytes) :
    α.index k ≠ some (S, o) := by
  intro hidx
  obtain ⟨r, _, _, hr⟩ := hw.index_some k S o hidx
  rw [h.sent S] at hr
  obtain ⟨x, hx, hxk, _⟩ := mem_dataRecs.mp hr
  have heq : x = rec := by
    have hs := layout_sorted 0 (raw S).flatten
    exact List.Pairwise.forall_of_forall_of_flip (R := fun p q => p.1 = q.1 → p.2 = q.2)
      (fun _ _ _ => rfl) (hs.imp fun hlt heq => absurd heq (Nat.ne_of_lt hlt))
      (hs.imp fun hlt heq => absurd heq.symm (Nat.ne_of_lt hlt)) hx hmem rfl
  exact hxk (heq ▸ hk)

theorem Rel.pointsAt_iff (h : Rel hist s α raw) (k : Bytes) (S o : Nat) :
    s.indexPointsAt k S o = true ↔ α.index k = some (S, o) := by
  rw [h.index k, VLog.indexPointsAt]
  cases s.index.lookup k with
  | none => simp
  | some e => simp

/-- Whether the compaction relocates a record. -/
theorem Rel.current_iff (h : Rel hist s α raw) (S o : Nat) (rec : Record) :
    s.isCurrent S o rec = true ↔ α.Carries S (o, absRec rec) := by
  unfold VLog.isCurrent SegLog.State.Carries absRec
  by_cases hk : rec.kind = .tombstone
  · simp [hk, h.index]
  · simp only [hk, if_false, Option.isSome_some, if_true]
    exact h.pointsAt_iff ..

theorem Rel.mem_flatten_wf (h : Rel hist s α raw) {S o : Nat} {rec : Record}
    (hmem : (o, rec) ∈ layout 0 (raw S).flatten) : rec.Wf := by
  obtain ⟨b, hb, hr⟩ := List.mem_flatten.mp (mem_layout hmem).2.2
  exact (h.block S b hb).wf _ hr

/-- A compaction passes over a record, or hands it to a new task. -/
theorem Rel.takeUp (h : Rel hist s α raw) (hw : Wf α) {child o : Nat} {q : Relocation} {rec : Record}
    {todo : List (Nat × Record)} (hl : s.tasks.lookup t = some (.relocating q))
    (hchild : s.tasks.lookup child = none) (htodo : q.todo = (o, rec) :: todo)
    (hcur : s.isCurrent q.seg o rec = true) :
    ∃ α', Step α (.pull t child) α' ∧
      Rel hist ((s.setTask t (.relocating
          { q with todo := todo, running := q.running ++ [child] })).setTask child
        (.lockWait (.append .relaxed (.relocate t q.seg o rec)))) α' raw := by
  have htask := h.task t
  rw [hl] at htask
  obtain ⟨hpend, hcomp, hlay⟩ := htask
  have hmem : (o, rec) ∈ layout 0 (raw q.seg).flatten := hlay _ (by simp [htodo])
  have hcarries := (h.current_iff q.seg o rec).mp hcur
  have hk : rec.kind ≠ .batchBegin := by
    intro hk
    have hv : (absRec rec).val.isSome = true := by simp [absRec, hk]
    rw [SegLog.State.Carries, if_pos hv] at hcarries
    exact h.not_pointsAt_batchBegin hw hmem hk _ hcarries
  have hdata : dataRecs q.todo = (o, absRec rec) :: dataRecs todo := by
    simp [htodo, dataRecs, isData, hk]
  have hcp : α.pend child = none ∧ α.comp child = none := by
    simpa [hchild, TaskOk] using h.task child
  have hne : child ≠ t := by
    rintro rfl
    rw [hl] at hchild
    cases hchild
  refine ⟨_, .pull t child _ (o, absRec rec) (dataRecs todo) hcomp hdata hcp.1 hcarries, ?_⟩
  have hrel : Rel hist
      (s.setTask t (.relocating { q with todo := todo, running := q.running ++ [child] }))
      (α.setComp t (some ⟨q.seg, dataRecs todo, q.dests, q.err.isSome⟩)) raw := h.setRelocating hl
    (fun i hi => List.mem_append_left _ hi) rfl (fun p hp => by simp [htodo, hp])
    ⟨⟨rfl, rfl, rfl, rfl⟩, rfl, rfl, rfl⟩ rfl rfl (fun i hi => by simp [hi]) (by simp)
  have hlc : (s.setTask t (.relocating
      { q with todo := todo, running := q.running ++ [child] })).tasks.lookup child = none := by
    rw [VLog.setTask, AList.lookup_insert_ne hne]
    exact hchild
  refine hrel.retask (· = child) ⟨⟨rfl, rfl, rfl, rfl, fun _ => rfl⟩, rfl, rfl⟩
    ⟨⟨rfl, rfl, rfl, rfl⟩, rfl, rfl, rfl⟩ hrel.clock
    (fun i hi => ⟨AList.lookup_insert_ne hi, by simp [hi], rfl⟩) ?_ ?_ ?_ ?_
  · rintro i rfl
    rw [hlc]
    exact ⟨by simp, by simp⟩
  · rintro i rfl
    simp [VLog.setTask, Movable]
  · rintro i q' rfl hi
    rw [hlc] at hi
    cases hi
  · rintro i rfl
    rw [show ∀ x : VLog, (x.setTask i (.lockWait (.append .relaxed (.relocate t q.seg o rec)))).tasks.lookup
      i = some (.lockWait (.append .relaxed (.relocate t q.seg o rec))) from
      fun x => AList.lookup_insert _]
    refine ⟨⟨by simp [queuedOf], isBlock_relocated (h.mem_flatten_wf hmem) hk _ _ _, ?_⟩, ?_⟩
    · rintro parent seg offset rec' heq
      cases heq
      refine ⟨{ q with todo := todo, running := q.running ++ [i] }, ?_, by simp⟩
      simp [VLog.setTask, AList.lookup_insert_ne hne.symm]
    · simpa [hne] using hcp.2

theorem Rel.passOver (h : Rel hist s α raw) {o : Nat} {q : Relocation} {rec : Record}
    {todo : List (Nat × Record)} (hl : s.tasks.lookup t = some (.relocating q))
    (htodo : q.todo = (o, rec) :: todo)
    (hcur : ¬ s.isCurrent q.seg o rec = true) :
    ∃ α', (Step α (.skip t) α' ∨ α' = α) ∧
      Rel hist (s.setTask t (.relocating { q with todo := todo })) α' raw := by
  have htask := h.task t
  rw [hl] at htask
  obtain ⟨hpend, hcomp, hlay⟩ := htask
  by_cases hk : rec.kind = .batchBegin
  · -- the header of a batch is nothing the abstract log knows of
    have hdata : dataRecs q.todo = dataRecs todo := by simp [htodo, dataRecs, isData, hk]
    refine ⟨α, .inr rfl, h.setRelocating hl (fun _ hi => hi) rfl (fun p hp => by simp [htodo, hp])
      .rfl rfl rfl (fun _ _ => rfl) ?_⟩
    rw [hcomp, hdata]
  · have hdata : dataRecs q.todo = (o, absRec rec) :: dataRecs todo := by
      simp [htodo, dataRecs, isData, hk]
    refine ⟨_, .inl (.skip t _ (o, absRec rec) (dataRecs todo) hcomp hdata
      fun hc => hcur ((h.current_iff q.seg o rec).mpr hc)), ?_⟩
    exact h.setRelocating hl (fun _ hi => hi) rfl (fun p hp => by simp [htodo, hp])
      ⟨⟨rfl, rfl, rfl, rfl⟩, rfl, rfl, rfl⟩ rfl rfl (fun i hi => by simp [hi]) (by simp)

/-! ### The outcome of a relocation -/

/-- A relocation hands its outcome to its compaction.  `s₁` is the store with what the relocation
itself changed. -/
theorem Rel.childDone (h : Rel hist s α raw) {s₁ : VLog} {parent : Nat} {q : Relocation}
    {outcome : Except Error (Nat × Bool)} (hpar : s.tasks.lookup parent = some (.relocating q))
    (hne : parent ≠ t) (hstart : ∀ id job, s.tasks.lookup t ≠ some (.starting id job))
    (hrel : ∀ q, s.tasks.lookup t ≠ some (.relocating q))
    (hqueue : ∀ T, ∀ w ∈ (s.segs T).queue, w.task ≠ t)
    (hs : SameFiles s s₁) (htasks : s₁.tasks = s.tasks) (hclock : s₁.clock = s.clock)
    (hack : s₁.acks t = none) (hacks : ∀ i, i ≠ t → s₁.acks i = s.acks i)
    (hα : SameSent α α') (hclock' : α'.clock = α.clock) (hlast : α'.last = α.last)
    (hdur : α'.durable = α.durable) (hidx : IndexRel s₁ α')
    (hpend : α'.pend = Function.update α.pend t none)
    (hcomp : α'.comp = Function.update α.comp parent (some ⟨q.seg, dataRecs q.todo,
      (q.record t outcome).dests, (q.record t outcome).err.isSome⟩))
    (hcompt : α.comp t = none) :
    Rel hist (s₁.childDone t parent outcome) α' raw := by
  have htask := h.task parent
  rw [hpar] at htask
  have hdone : s₁.childDone t parent outcome =
      (s₁.without t).setTask parent (.relocating (q.record t outcome)) := by
    have : (s₁.tasks.erase t).lookup parent = some (.relocating q) := by
      rw [AList.lookup_erase_ne hne, htasks, hpar]
    simp only [VLog.childDone, this]
    rfl
  have hp : (s₁.childDone t parent outcome).tasks.lookup parent =
      some (.relocating (q.record t outcome)) := by
    rw [hdone]
    exact AList.lookup_insert _
  have ht : (s₁.childDone t parent outcome).tasks.lookup t = none := by
    rw [hdone, VLog.setTask, AList.lookup_insert_ne hne.symm, VLog.lookup_without_self]
  have hother : ∀ i, i ≠ t → i ≠ parent →
      (s₁.childDone t parent outcome).tasks.lookup i = s.tasks.lookup i := by
    intro i hit hip
    rw [hdone, VLog.setTask, AList.lookup_insert_ne hip, VLog.lookup_without_ne hit, htasks]
  have hackp : (s₁.childDone t parent outcome).acks parent = none := by
    rw [hdone]
    exact (hacks parent hne).trans (h.acks_none (by rw [hpar]; exact ⟨by simp, by simp⟩))
  have hrun : ∀ j ∈ q.running, j ≠ t → j ∈ (q.record t outcome).running := by
    intro j hj hjt
    cases outcome with
    | error e => exact (List.mem_erase_of_ne hjt).mpr hj
    | ok o => exact (List.mem_erase_of_ne hjt).mpr hj
  have htodo : (q.record t outcome).todo = q.todo ∧ (q.record t outcome).seg = q.seg := by
    cases outcome <;> exact ⟨rfl, rfl⟩
  refine h.update (fun i => i = t ∨ i = parent) ?_ hα ?_ ?_ ?_ (hlast.trans h.last)
    (hdur.trans h.durable) ?_ ?_ ?_ ?_ ?_ ?_
  · rw [hdone]
    exact ⟨hs.active, hs.segs, hs.dir, hs.rotateLock, hs.readable⟩
  · rw [hdone, hclock', h.clock]
    exact hclock.symm
  · rw [hdone]
    exact hidx.index
  · rw [hdone]
    exact hidx.size
  · intro i hi
    rw [not_or] at hi
    refine ⟨hother i hi.1 hi.2, ?_, by rw [hpend, Function.update_of_ne hi.1],
      by rw [hcomp, Function.update_of_ne hi.2]⟩
    rw [hdone]
    exact hacks i hi.1
  · rintro i (rfl | rfl) T w hw
    · exact hqueue T w hw
    · exact h.not_queued (by rw [hpar]; exact ⟨by simp, by simp⟩) T w hw
  · rintro i (rfl | rfl) id job hi
    · exact hstart id job hi
    · rw [hpar] at hi
      cases hi
  · rintro i (rfl | rfl)
    · rw [ht]
      refine ⟨⟨by simp, by simp⟩, ?_⟩
      rw [hdone]
      exact hack
    · rw [hp]
      exact ⟨⟨by simp, by simp⟩, hackp⟩
  · rintro i q' (rfl | rfl) hi j hj hD
    · exact absurd hi (hrel q')
    · rw [hpar] at hi
      cases hi
      exact ⟨_, hp, hrun j hj fun heq => hD (.inl heq)⟩
  · rintro i (rfl | rfl)
    · rw [ht]
      exact ⟨by simp [hpend], by rw [hcomp, Function.update_of_ne hne.symm]; exact hcompt⟩
    · rw [hp]
      refine ⟨by rw [hpend, Function.update_of_ne hne]; exact htask.1, ?_, fun p hp' => ?_⟩
      · rw [hcomp, Function.update_self, htodo.1, htodo.2]
      · rw [htodo.1] at hp'
        rw [htodo.2]
        exact htask.2.2 p hp'

omit H in
theorem HasParent.ne {parent seg offset : Nat} {rec : Record}
    (h : HasParent s t (.relocate parent seg offset rec))
    (ht : ∀ q, s.tasks.lookup t ≠ some (.relocating q)) : parent ≠ t := by
  rintro rfl
  obtain ⟨q, hq, _⟩ := h parent seg offset rec rfl
  exact ht q hq

/-- A relocation that cannot be appended. -/
theorem Rel.failQueued (h : Rel hist s α raw) {parent seg offset : Nat} {rec : Record}
    {d : Durability} {e : Error}
    (hl : s.tasks.lookup t = some (.lockWait (.append d (.relocate parent seg offset rec)))) :
    ∃ α', Step α (.fail t parent) α' ∧ Rel hist (s.childDone t parent (.error e)) α' raw := by
  obtain ⟨⟨hpend, _, hpar⟩, hcomp⟩ :
      JobOk s α t (.append d (.relocate parent seg offset rec)) ∧ α.comp t = none := by
    have := h.task t
    rwa [hl] at this
  have hnorel : ∀ q, s.tasks.lookup t ≠ some (.relocating q) := fun q hq => by
    rw [hl] at hq
    cases hq
  obtain ⟨q, hq, hrun⟩ := hpar parent seg offset rec rfl
  have hparent := h.task parent
  rw [hq] at hparent
  have hmov : Movable (s.tasks.lookup t) := by
    rw [hl]
    exact ⟨by simp, by simp⟩
  refine ⟨_, .fail t parent _ _ _ (.inl hpend) hparent.2.1, ?_⟩
  refine h.childDone hq (hpar.ne hnorel) hmov.2 hnorel (h.not_queued hmov)
    ⟨rfl, rfl, rfl, rfl, fun _ => rfl⟩ rfl rfl (h.acks_none hmov) (fun _ _ => rfl)
    ⟨rfl, rfl, rfl, rfl⟩ rfl rfl rfl ⟨h.index, h.size⟩ rfl ?_ hcomp
  simp [SegLog.State.setComp, SegLog.State.setPend, Relocation.record]

/-- A relocation whose copy has been written resolves. -/
theorem Rel.applyRelocate (h : Rel hist s α raw) (hw : Wf α) {S o n parent seg offset : Nat}
    {rec : Record} {d : Durability}
    (hl : s.tasks.lookup t = some (.commit S d (.relocate parent seg offset rec)))
    (hack : s.acks t = some (.ok (o, n))) :
    ∃ ℓ α', Step α ℓ α' ∧ (ℓ = .fail t parent ∨ ℓ = .moved t parent) ∧
      Rel hist ((s.takeAck t).applyRelocate t S o parent seg offset rec) α' raw := by
  obtain ⟨hpend, hcomp, hb, hpar, hqueue, _⟩ := h.acked hl hack
  have hnorel : ∀ q, s.tasks.lookup t ≠ some (.relocating q) := fun q hq => by
    rw [hl] at hq
    cases hq
  have hnostart : ∀ id job, s.tasks.lookup t ≠ some (.starting id job) := fun id job hq => by
    rw [hl] at hq
    cases hq
  obtain ⟨q, hq, hrun⟩ := hpar parent seg offset rec rfl
  have hne : parent ≠ t := hpar.ne hnorel
  have hparent := h.task parent
  rw [hq] at hparent
  have hacks : ∀ i, i ≠ t → (s.takeAck t).acks i = s.acks i := fun i hi =>
    Function.update_of_ne hi ..
  have hackt : (s.takeAck t).acks t = none := Function.update_self ..
  have hread : (s.takeAck t).isReadable S = s.isReadable S := rfl
  unfold VLog.applyRelocate
  rw [hread]
  by_cases hS : s.isReadable S = true
  · have hmoved := Step.moved t parent (seg, offset) (absRec rec) (S, o) _ hpend hparent.2.1
      ((h.linked S).mpr hS)
    rw [if_neg (by simp [hS])]
    by_cases hk : rec.kind = .tombstone
    · rw [if_pos hk]
      refine ⟨_, _, hmoved, .inr rfl, ?_⟩
      refine h.childDone hq hne hnostart hnorel hqueue ⟨rfl, rfl, rfl, rfl, fun _ => rfl⟩ rfl rfl
        hackt hacks ⟨rfl, rfl, rfl, rfl⟩ rfl rfl rfl ?_ rfl ?_ hcomp
      · have hv : ¬ ((absRec rec).val.isSome = true ∧ α.index (absRec rec).key = some (seg, offset)) := by
          simp [absRec, hk]
        simp only [if_neg hv]
        exact ⟨h.index, h.size⟩
      · simp [SegLog.State.setComp, SegLog.State.setPend, Relocation.record]
    · rw [if_neg hk]
      have hval : absRec rec = ⟨rec.ts, rec.key, some rec.value⟩ := by simp [absRec, hk]
      have hpt : (s.takeAck t).indexPointsAt rec.key seg offset = true ↔
          α.index rec.key = some (seg, offset) := h.pointsAt_iff ..
      by_cases hcur : α.index rec.key = some (seg, offset)
      · rw [if_pos (hpt.mpr hcur)]
        refine ⟨_, _, hmoved, .inr rfl, ?_⟩
        let s₁ : VLog := { s.takeAck t with
          index := (s.takeAck t).index.insert rec.key ⟨fingerprint rec.key, S, o, rec.size⟩
          readSegments := incLive (s.takeAck t).readSegments S rec.size }
        refine h.childDone hq hne hnostart hnorel hqueue
          (show SameFiles s s₁ from ⟨rfl, rfl, rfl, rfl, fun T => isReadable_incLive ..⟩) rfl rfl
          hackt hacks ⟨rfl, rfl, rfl, rfl⟩ rfl rfl rfl ?_ rfl ?_ hcomp
        · have hlast : α.last rec.key = some (absRec rec) := by
            refine hw.last_of_index hcur ?_
            exact (hw.pend t _ hpend).1.1
          have hc : (absRec rec).val.isSome = true ∧
              α.index (absRec rec).key = some (seg, offset) := by
            rw [hval]
            exact ⟨rfl, hcur⟩
          simp only [if_pos hc]
          rw [hval] at hlast ⊢
          constructor
          · intro k
            by_cases hkk : k = rec.key
            · subst hkk
              simp
            · simpa [hkk, VLog.takeAck] using h.index k
          · intro k e l v he hl' hv
            by_cases hkk : k = rec.key
            · subst hkk
              rw [AList.lookup_insert] at he
              cases he
              rw [show α.last rec.key = some l from hl'] at hlast
              cases hlast
              cases hv
              rfl
            · rw [AList.lookup_insert_ne hkk] at he
              exact h.size k e l v he hl' hv
        · simp [SegLog.State.setComp, SegLog.State.setPend, Relocation.record]
      · rw [if_neg (fun hpt' => hcur (hpt.mp hpt'))]
        refine ⟨_, _, hmoved, .inr rfl, ?_⟩
        refine h.childDone hq hne hnostart hnorel hqueue ⟨rfl, rfl, rfl, rfl, fun _ => rfl⟩ rfl rfl
          hackt hacks ⟨rfl, rfl, rfl, rfl⟩ rfl rfl rfl ?_ rfl ?_ hcomp
        · have hv : ¬ ((absRec rec).val.isSome = true ∧
              α.index (absRec rec).key = some (seg, offset)) := fun hc => hcur (by simpa [hval] using hc.2)
          simp only [if_neg hv]
          exact ⟨h.index, h.size⟩
        · simp [SegLog.State.setComp, SegLog.State.setPend, Relocation.record]
  · -- the destination has been unlinked meanwhile
    rw [if_pos (by simp [hS])]
    refine ⟨_, _, .fail t parent _ _ _ (.inr ⟨_, hpend⟩) hparent.2.1, .inl rfl, ?_⟩
    refine h.childDone hq hne hnostart hnorel hqueue ⟨rfl, rfl, rfl, rfl, fun _ => rfl⟩ rfl rfl
      hackt hacks ⟨rfl, rfl, rfl, rfl⟩ rfl rfl rfl ⟨h.index, h.size⟩ rfl ?_ hcomp
    simp [SegLog.State.setComp, SegLog.State.setPend, Relocation.record]

/-! ### The end of a compaction -/

/-- A compaction without relocations under way. -/
theorem Rel.noMoves (h : Rel hist s α raw)
    (ht : ∀ q, s.tasks.lookup t = some (.relocating q) → q.running = []) : α.NoMoves t := by
  intro i src r hm
  obtain ⟨q, hq, hi⟩ := h.running_of_moving hm
  rw [ht q hq] at hi
  cases hi

/-- A compaction ends without its segment being unlinked. -/
theorem Rel.abandon (h : Rel hist s α raw) {q : Relocation} {e : Error}
    (hl : s.tasks.lookup t = some (.relocating q)) (hrun : q.running = []) (he : q.err = some e) :
    Step α (.abandon t) (α.setComp t none) ∧ Rel hist (s.without t) (α.setComp t none) raw := by
  have htask := h.task t
  rw [hl] at htask
  refine ⟨.abandon t _ htask.2.1 (by simp [he]) (h.noMoves fun q' hq' => ?_), ?_⟩
  · rw [hl] at hq'
    cases hq'
    exact hrun
  · refine h.retask (· = t) ⟨⟨rfl, rfl, rfl, rfl, fun _ => rfl⟩, rfl, rfl⟩
      ⟨⟨rfl, rfl, rfl, rfl⟩, rfl, rfl, rfl⟩ h.clock
      (fun i hi => ⟨VLog.lookup_without_ne hi, rfl, by simp [hi]⟩) ?_ ?_ ?_ ?_
    · rintro i rfl
      rw [hl]
      exact ⟨by simp, by simp⟩
    · rintro i rfl
      simp [Movable]
    · rintro i q' rfl hi j hj
      rw [hl] at hi
      cases hi
      rw [hrun] at hj
      cases hj
    · rintro i rfl
      simpa [TaskOk] using htask.1

/-- With all its relocations done, a compaction goes on to sync their destinations. -/
theorem Rel.startSync (h : Rel hist s α raw) {q : Relocation}
    (hl : s.tasks.lookup t = some (.relocating q)) (htodo : q.todo = []) (hrun : q.running = [])
    (he : q.err = none) :
    Rel hist (s.setTask t (.syncing q.seg q.dests q.moved q.caller)) α raw := by
  have htask := h.task t
  rw [hl] at htask
  refine h.retask (· = t) ⟨⟨rfl, rfl, rfl, rfl, fun _ => rfl⟩, rfl, rfl⟩ .rfl h.clock
    (fun i hi => ⟨AList.lookup_insert_ne hi, rfl, rfl⟩) ?_ ?_ ?_ ?_
  · rintro i rfl
    rw [hl]
    exact ⟨by simp, by simp⟩
  · rintro i rfl
    simp [VLog.setTask, Movable]
  · rintro i q' rfl hi j hj
    rw [hl] at hi
    cases hi
    rw [hrun] at hj
    cases hj
  · rintro i rfl
    simp only [VLog.setTask, AList.lookup_insert]
    refine ⟨htask.1, ?_⟩
    rw [htask.2.1, htodo, he]
    rfl

/-- The store after the file of `d` has been synced. -/
def VLog.synced (s : VLog) (d : Nat) : VLog :=
  { s with segs := Function.update s.segs d { s.segs d with file := (s.segs d).file.sync } }

theorem Rel.syncDest (h : Rel hist s α raw) {seg d moved : Nat} {dests : List Nat} {caller : Caller}
    (hl : s.tasks.lookup t = some (.syncing seg (d :: dests) moved caller)) :
    ∃ α', Step α (.syncDest t) α' ∧
      Rel hist ((s.synced d).setTask t (.syncing seg dests moved caller)) α' raw := by
  have htask := h.task t
  rw [hl] at htask
  have hnorel : ∀ q, s.tasks.lookup t ≠ some (.relocating q) := fun q hq => by
    rw [hl] at hq
    cases hq
  have hmov : Movable (s.tasks.lookup t) := by
    rw [hl]
    exact ⟨by simp, by simp⟩
  have hle : (s.segs d).file.synced ≤ (s.segs d).file.data.length := (s.segs d).file.synced_le
  refine ⟨_, .syncDest t d (s.segs d).file.data.length _ dests htask.2 rfl
    (h.noMoves fun q hq => absurd hq (hnorel q)) (h.synced d ▸ hle) fun hfl p hp => ?_, ?_⟩
  · -- nothing of the segment is queued, so its file has all its records
    obtain ⟨done, queued, hraw, hdata, _, hq⟩ := h.seg d
    rw [h.queue_nil hfl, List.map_nil, List.nil_eq, List.map_eq_nil_iff] at hq
    rw [h.sent d, hraw, hq, List.append_nil] at hp
    obtain ⟨x, hx, _, _⟩ := mem_dataRecs.mp (show (p.1, p.2) ∈ _ from hp)
    obtain ⟨_, hend, _⟩ := mem_layout hx
    have := x.size_pos
    rw [hdata]
    simp only at hend
    omega
  · set s' : VLog := s.synced d with hs'
    -- only the synced length of `d` changes
    have hsegs : ∀ S, (s'.segs S).queue = (s.segs S).queue ∧ (s'.segs S).wOffset = (s.segs S).wOffset ∧
        (s'.segs S).file.data = (s.segs S).file.data ∧
        (s.segs S).file.synced ≤ (s'.segs S).file.synced := by
      intro S
      by_cases hS : S = d
      · subst hS
        rw [show s'.segs S = { s.segs S with file := (s.segs S).file.sync } from
          Function.update_self ..]
        exact ⟨rfl, rfl, rfl, hle⟩
      · rw [show s'.segs S = s.segs S from Function.update_of_ne hS ..]
        exact ⟨rfl, rfl, rfl, Nat.le_refl _⟩
    have hself : (s'.setTask t (.syncing seg dests moved caller)).tasks.lookup t =
        some (.syncing seg dests moved caller) := AList.lookup_insert _
    have hother : ∀ i, i ≠ t → (s'.setTask t (.syncing seg dests moved caller)).tasks.lookup i =
        s.tasks.lookup i := fun i hi => AList.lookup_insert_ne hi
    refine { h with
      seg := fun S => ?_
      synced := fun S => ?_
      task := fun i => ?_
      queue := fun S w hw => ?_
      nodup := fun S => (hsegs S).1 ▸ h.nodup S
      acks := fun i hi => ?_
      dir := fun S => ?_ }
    · obtain ⟨h1, h2, h3, _⟩ := hsegs S
      obtain ⟨done, queued, hb, hdata, hoff, hq⟩ := h.seg S
      exact ⟨done, queued, hb, h3.trans hdata, by
        rw [show ((s'.setTask t _).segs S) = s'.segs S from rfl, h2, h3]; exact hoff, by
        rw [show ((s'.setTask t _).segs S) = s'.segs S from rfl, h1]; exact hq⟩
    · by_cases hS : S = d
      · subst hS
        simp [VLog.setTask, hs', VLog.synced, File.sync]
      · simp only [SegLog.State.setComp_synced, Function.update_of_ne hS, VLog.setTask, hs',
          VLog.synced]
        exact h.synced S
    · by_cases hi : i = t
      · subst hi
        rw [hself]
        exact ⟨htask.1, by simp⟩
      · rw [hother i hi]
        refine (h.task i).frame rfl (by simp [hi]) (fun S e c o _ hp => ?_) (fun parent q hq hiq => ?_)
          (fun _ _ hp => hp) fun _ _ _ => ⟨rfl, rfl⟩
        · obtain ⟨h1, h2, _, h4⟩ := hsegs S
          rcases hp with ⟨hp1, hp2⟩ | ⟨hp1, hp2, hp3⟩
          · refine .inl ⟨hp1, ?_⟩
            rw [show ((s'.setTask t _).segs S) = s'.segs S from rfl, h1, h2]
            exact hp2
          · refine .inr ⟨hp1, fun w hw => hp2 w (h1 ▸ hw), fun hne => Nat.le_trans (hp3 hne) h4⟩
        · have hne : parent ≠ t := by
            rintro rfl
            exact hnorel q hq
          exact ⟨q, (hother parent hne).trans hq, hiq⟩
    · have hw' : w ∈ (s.segs S).queue := (hsegs S).1 ▸ hw
      obtain ⟨e, c, hc⟩ := h.queue S w hw'
      exact ⟨e, c, (hother _ (h.not_queued hmov S w hw')).trans hc⟩
    · obtain ⟨S, e, c, hc⟩ := h.acks i hi
      have hne : i ≠ t := by
        rintro rfl
        exact hmov.1 S e c hc
      exact ⟨S, e, c, (hother i hne).trans hc⟩
    · refine (h.dir S).trans (or_congr_right (exists_congr fun i => exists_congr fun job => ?_))
      by_cases hi : i = t
      · subst hi
        rw [hself, hl]
        simp
      · rw [hother i hi]

/-- `β` is `α` with the compaction of `t` gone and `seg` unlinked. -/
structure Unlinks (t seg : Nat) (α β : LogState) : Prop where
  sent : β.sent = α.sent
  synced : β.synced = α.synced
  index : β.index = α.index
  last : β.last = α.last
  durable : β.durable = α.durable
  pend : β.pend = α.pend
  comp : ∀ i, i ≠ t → β.comp i = α.comp i
  linked : ∀ T, T ≠ seg → α.linked T → β.linked T

/-- The store after the segment of a compaction has been unlinked. -/
def VLog.unlinked (s : VLog) (seg : Nat) : VLog :=
  { s with
    readSegments := s.readSegments.filter fun r => r.id ≠ seg
    dir := s.dir.filter fun id => id ≠ seg
    snapshot := none }

theorem Rel.unlink (h : Rel hist s α raw) (hw : Wf α) {seg moved : Nat} {caller : Caller}
    (hl : s.tasks.lookup t = some (.syncing seg [] moved caller)) :
    ∃ α', Step α (.unlink t seg) α' ∧ Unlinks t seg α α' ∧
      Rel hist ((s.unlinked seg).without t) α' raw := by
  have htask := h.task t
  rw [hl] at htask
  obtain ⟨hpend, hcomp⟩ := htask
  have hnorel : ∀ q, s.tasks.lookup t ≠ some (.relocating q) := fun q hq => by
    rw [hl] at hq
    cases hq
  have hmov : Movable (s.tasks.lookup t) := by
    rw [hl]
    exact ⟨by simp, by simp⟩
  have hlt : seg < s.active.id := h.active ▸ (hw.comp t _ hcomp).1
  have hread : ∀ S, ((s.unlinked seg).without t).isReadable S = true ↔
      S ≠ seg ∧ s.isReadable S = true := by
    intro S
    simp only [VLog.without, VLog.unlinked, VLog.isReadable, List.any_filter, List.any_eq_true,
      decide_eq_true_eq, Bool.and_eq_true]
    constructor
    · rintro ⟨r, hr, hne, rfl⟩
      exact ⟨hne, r, hr, rfl⟩
    · rintro ⟨hne, r, hr, rfl⟩
      exact ⟨r, hr, hne, rfl⟩
  have hstart : ∀ i S job, s.tasks.lookup i = some (.starting S job) → S ≠ seg := by
    rintro i S job hi rfl
    have := h.task i
    rw [hi] at this
    have := this.2.2
    omega
  refine ⟨_, .unlink t _ hcomp rfl rfl rfl (h.noMoves fun q hq => absurd hq (hnorel q)), ?_, ?_⟩
  · exact ⟨rfl, rfl, rfl, rfl, rfl, rfl, fun i hi => by simp [hi], fun T hT hl => by simp [hT, hl]⟩
  have hother : ∀ i, i ≠ t → ((s.unlinked seg).without t).tasks.lookup i = s.tasks.lookup i :=
    fun i hi => VLog.lookup_without_ne hi
  refine { h with
    linked := fun S => ?_
    readable_le := fun S hS => h.readable_le S ((hread S).mp hS).2
    task := fun i => ?_
    queue := fun S w hw => ?_
    acks := fun i hi => ?_
    dir := fun S => ?_
    dir_nodup := h.dir_nodup.filter _ }
  · rw [hread]
    by_cases hS : S = seg
    · simp [hS]
    · simp [hS, h.linked S]
  · by_cases hi : i = t
    · subst hi
      rw [VLog.lookup_without_self]
      exact ⟨hpend, by simp⟩
    · rw [hother i hi]
      refine (h.task i).frame rfl (by simp [hi]) (fun S d c o _ hp => hp) (fun parent q hq hiq => ?_)
        (fun _ _ hp => hp) fun _ _ _ => ⟨rfl, rfl⟩
      have hne : parent ≠ t := by
        rintro rfl
        exact hnorel q hq
      exact ⟨q, (hother parent hne).trans hq, hiq⟩
  · obtain ⟨d, c, hc⟩ := h.queue S w hw
    exact ⟨d, c, (hother _ (h.not_queued hmov S w hw)).trans hc⟩
  · obtain ⟨S, d, c, hc⟩ := h.acks i hi
    have hne : i ≠ t := by
      rintro rfl
      exact hmov.1 S d c hc
    exact ⟨S, d, c, (hother i hne).trans hc⟩
  · rw [hread, show ((s.unlinked seg).without t).dir = s.dir.filter fun id => id ≠ seg from rfl]
    simp only [List.mem_filter, decide_eq_true_eq, h.dir S]
    constructor
    · rintro ⟨hS | ⟨i, job, hi⟩, hne⟩
      · exact .inl ⟨hne, hS⟩
      · refine .inr ⟨i, job, ?_⟩
        rw [hother i, hi]
        rintro rfl
        exact hmov.2 S job hi
    · rintro (⟨hne, hS⟩ | ⟨i, job, hi⟩)
      · exact ⟨.inl hS, hne⟩
      · have hit : i ≠ t := by
          rintro rfl
          simp at hi
        rw [hother i hit] at hi
        exact ⟨.inr ⟨i, job, hi⟩, hstart i S job hi⟩

end Skeg
