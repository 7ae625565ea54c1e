import Skeg.Lib.Transition
import Skeg.Vector.Equiv.Swap

/-!
# Runs of an index with its background job

`JobInv` says of the outstanding job that its result still fits the map; writes that race with the job
keep it (`JobInv.write`).  Together with `IndexOk` it is the invariant of a run (`SysInv`): every action
that is calm keeps it, and changes the view exactly as the inserts and deletes it acknowledges do
(`SysInv.exec`).
-/

namespace Skeg

namespace Vector

variable [H : Hashes] {d d' : Dir} {U : Finset UInt64} {x : Index} {ops : List DeltaWalOp}

/-- What is left to do for a job can be done without changing the view. -/
def JobInv (d : Dir) (U : Finset UInt64) (x : Index) (ops : List DeltaWalOp) : Option Job → Prop
  | none => (x.state ops).staged = fun _ => none
  | some (.flush j) => FlushOk U x ops j
  | some (.flushBuilt b) => FlushBuiltOk d U x ops b
  | some (.mergeRuns j) => ((x.state ops).staged = fun _ => none) ∧ MergeOk d U x ops j
  | some (.mergeRunsBuilt b) => ((x.state ops).staged = fun _ => none) ∧ MergeBuiltOk d U x ops b
  | some (.consolidate j) => ConsolidateOk d U x ops j
  | some (.consolidateBuilt b) => ConsolidateBuiltOk d U x ops b
  | some (.deletePatch j) => ((x.state ops).staged = fun _ => none) ∧ DeletePatchOk x ops j
  | some (.deletePatchBuilt b) => ((x.state ops).staged = fun _ => none) ∧ DeletePatchBuiltOk d U x ops b

/-! ### Changes beside the segments -/

/-- The files that segments are read from are as they were. -/
structure SameSegments (d d' : Dir) : Prop where
  graph : d' .graph = d .graph
  vectors : d' .vectors = d .vectors

omit H in
theorem SameSegments.keeps (h : SameSegments d d') : Keeps d d' := by
  rw [Keeps, h.vectors]
  exact Keeps.refl d

omit H in
theorem readsTo_of_same (hd : SameSegments d d') {dim : Nat} {files : List Nat}
    {val : UInt64 × Nat × Nat → Vec} {qs : List (UInt64 × Nat × Nat)} (h : readsTo d dim files val qs) :
    readsTo d' dim files val qs := by
  intro q hq
  rw [← h q hq, readAt, readAt, hd.vectors]

omit H in
theorem Sidecar.of_same (hd : SameSegments d d') {dim file : Nat} {p : Place} {base : Segment}
    (h : Sidecar d U dim file p base) : Sidecar d' U dim file p base := by
  obtain ⟨g, hs, hids, hdim⟩ := h.stored
  exact
    { seg := h.seg.keeps hd.keeps
      stored := ⟨g, { hs with
        graph := by rw [hd.graph]; exact hs.graph
        vectors := by rw [hd.vectors]; exact hs.vectors }, hids, hdim⟩
      entry := by rw [hd.vectors]; exact h.entry
      file_ne := h.file_ne
      graph_ne := by rw [hd.graph]; exact h.graph_ne }

theorem JobInv.of_same (hd : SameSegments d d') {job : Option Job} (h : JobInv d U x ops job) :
    JobInv d' U x ops job := by
  cases job with
  | none => exact h
  | some job =>
    cases job with
    | flush j => exact h
    | flushBuilt b => exact ⟨h.1.keeps hd.keeps, h.2⟩
    | mergeRuns j =>
      obtain ⟨hst, val, hreads, hrest⟩ := h
      exact ⟨hst, val, readsTo_of_same hd hreads, hrest⟩
    | mergeRunsBuilt b => exact ⟨h.1, h.2.1.keeps hd.keeps, h.2.2⟩
    | consolidate j =>
      obtain ⟨val, mark, hreads, hrest⟩ := h
      exact ⟨val, mark, readsTo_of_same hd hreads, hrest⟩
    | consolidateBuilt b => exact ⟨h.1.of_same hd, h.2⟩
    | deletePatch j => exact h
    | deletePatchBuilt b => exact ⟨h.1, h.2.1.of_same hd, h.2.2⟩

/-! ### Racing writes -/

theorem sameSegments_logOp (d : Dir) (x : Index) (op : DeltaWalOp) :
    SameSegments d (x.logOp d op) :=
  ⟨Files.modify_of_ne _ _ (by simp), Files.modify_of_ne _ _ (by simp)⟩

theorem JobInv.write (h : IndexOk d U x ops) {job : Option Job} (hj : JobInv d U x ops job)
    (op : DeltaWalOp) : JobInv (x.logOp d op) U (x.applyWalOp op) (ops ++ [op]) job := by
  refine JobInv.of_same (sameSegments_logOp d x op) ?_
  have hstate := Index.state_applyWalOp h.aligned ops op
  have hjob : ∀ {job}, Lsm.JobOk (x.state ops) job →
      Lsm.JobOk ((x.applyWalOp op).state (ops ++ [op])) job := by
    intro job hjob
    rw [hstate]
    exact hjob.apply op.toOp
  have hst : (x.state ops).staged = (fun _ => none) →
      ((x.applyWalOp op).state (ops ++ [op])).staged = fun _ => none := by
    intro hst
    rw [hstate]
    exact Lsm.staged_apply hst op.toOp
  have hoffset : ∀ {mark offset}, mark ≤ (x.state ops).log.length → IsOffset x ops mark offset →
      IsOffset x (ops ++ [op]) mark offset := by
    intro mark offset hmark hoff
    rw [show (x.state ops).log.length = ops.length from List.length_map ..] at hmark
    rw [IsOffset, List.take_append_of_le_length hmark]
    exact hoff
  -- what else a job refers to is not touched by the operation
  obtain ⟨δ, φ, τ, n, heq⟩ := x.applyWalOp_eq op
  rw [heq] at hjob hst ⊢
  cases job with
  | none => exact hst hj
  | some job =>
    cases job with
    | flush j =>
      obtain ⟨ps, h1, h2, h3, h4, h5, h6, h7⟩ := hj
      exact ⟨ps, h1, h2, h3, h4, h5, h6, hjob h7⟩
    | flushBuilt b => exact ⟨hj.1, hj.2.1, hjob hj.2.2⟩
    | mergeRuns j =>
      obtain ⟨h0, val, h1, h2, h3, h4, h5, h6, h7⟩ := hj
      exact ⟨hst h0, val, h1, h2, h3, h4, h5, h6, hjob h7⟩
    | mergeRunsBuilt b =>
      obtain ⟨h0, h1, h2, h3⟩ := hj
      exact ⟨hst h0, h1, h2, hjob h3⟩
    | consolidate j =>
      obtain ⟨val, mark, h1, h2, h3, h4, h5, h6⟩ := hj
      exact ⟨val, mark, h1, h2, h3, h4, hoffset h6.2.1 h5, hjob h6⟩
    | consolidateBuilt b =>
      obtain ⟨h1, mark, h2, h3⟩ := hj
      exact ⟨h1, mark, hoffset h3.2.1 h2, hjob h3⟩
    | deletePatch j =>
      obtain ⟨h0, h1, h2, h3, h4, h5, h6⟩ := hj
      exact ⟨hst h0, h1, h2, h3, h4, h5, hjob h6⟩
    | deletePatchBuilt b => exact ⟨hst hj.1, hj.2.1, hjob hj.2.2⟩

/-! ### One action -/

structure SysInv (U : Finset UInt64) (ops : List DeltaWalOp) (s : Sys) : Prop where
  index : IndexOk s.dir U s.index ops
  job : JobInv s.dir U s.index ops s.job

/-- The index is another one with the same view. -/
structure Same (s s' : Sys) : Prop where
  view : s'.index.view = s.index.view
  dim : s'.index.dim = s.index.dim
  tier : s'.index.tier = s.index.tier

omit H in
theorem Same.refl (s : Sys) : Same s s := ⟨rfl, rfl, rfl⟩

omit H in
theorem Same.trans {s t u : Sys} (h : Same s t) (h' : Same t u) : Same s u :=
  ⟨h'.view.trans h.view, h'.dim.trans h.dim, h'.tier.trans h.tier⟩

theorem Moved.same {s s' : Sys} (h : Moved U s.index d s'.index ops) : Same s s' :=
  ⟨h.view, h.dim, h.tier⟩

theorem staged_of_job {job : Option Job} (hj : JobInv d U x ops job) (hnone : job = none) :
    (x.state ops).staged = fun _ => none := by
  subst hnone
  exact hj

omit H in
theorem staged_congr {x' : Index} {ops' : List DeltaWalOp} (h : x'.flushing = x.flushing)
    (hst : (x.state ops).staged = fun _ => none) : (x'.state ops').staged = fun _ => none := by
  funext id
  exact (congrArg (AList.lookup id) h).trans (congrFun hst id)

variable [N : Numerics]

omit N in
theorem SysInv.beginJob {s : Sys} (h : SysInv U ops s) (k : JobKind) :
    SysInv U ops (s.beginJob k) ∧ Same s (s.beginJob k) := by
  unfold Sys.beginJob
  split
  · exact ⟨h, Same.refl s⟩
  · rename_i hnone
    have hnone : s.job = none := by simpa using hnone
    have hst := staged_of_job h.job hnone
    cases k with
    | flush =>
      obtain ⟨hm, hj⟩ := h.index.flushBegin hst
      dsimp only
      refine ⟨⟨hm.ok, ?_⟩, Moved.same (d := s.dir) hm⟩
      cases hjob : s.index.flushBegin.2 with
      | none => rw [hjob] at hj; exact hj
      | some j => rw [hjob] at hj; exact hj
    | mergeRuns =>
      obtain ⟨⟨d', x', j⟩, hbegin⟩ : ∃ r, s.index.mergeRunsBegin s.dir = r := ⟨_, rfl⟩
      obtain ⟨hm, -, hsame, hj⟩ := h.index.mergeRunsBegin hbegin
      have hst' : (x'.state ops).staged = fun _ => none := staged_congr hsame.flushing hst
      dsimp only
      rw [hbegin]
      refine ⟨⟨hm.ok, ?_⟩, Moved.same (d := d') hm⟩
      cases j with
      | none => exact hst'
      | some j => exact ⟨hst', hj j rfl⟩
    | consolidate =>
      refine ⟨⟨h.index, ?_⟩, rfl, rfl, rfl⟩
      cases hbegin : s.index.consolidateBegin s.dir with
      | none => exact hst
      | some j => exact h.index.consolidateBegin hst hbegin
    | deletePatch =>
      refine ⟨⟨h.index, ?_⟩, rfl, rfl, rfl⟩
      cases hbegin : s.index.deletePatchBegin with
      | none => exact hst
      | some j => exact ⟨hst, h.index.deletePatchBegin hbegin⟩

/-- A build does not fail. -/
theorem SysInv.buildJob {s : Sys} (h : SysInv U ops s) (hU : U.card < 2 ^ 32) :
    ∃ s', s.buildJob = .ok s' ∧ SysInv U ops s' ∧ s'.index = s.index := by
  obtain ⟨hx, hj⟩ := h
  rw [Sys.buildJob]
  split
  · rename_i j hjob
    rw [hjob] at hj
    obtain ⟨d', b, hbuild, hok, hb⟩ := hx.buildFlush hU hj
    exact ⟨{ s with dir := d', job := some (.flushBuilt b) }, by rw [hbuild]; rfl, ⟨hok, hb⟩, rfl⟩
  · rename_i j hjob
    rw [hjob] at hj
    obtain ⟨d', b, hbuild, hok, -, hb⟩ := hx.buildMerge hU hj.2
    exact ⟨{ s with dir := d', job := some (.mergeRunsBuilt b) }, by rw [hbuild]; rfl, ⟨hok, hj.1, hb⟩, rfl⟩
  · rename_i j hjob
    rw [hjob] at hj
    obtain ⟨d', b, hbuild, hok, hb⟩ := hx.buildConsolidate hU hj
    exact ⟨{ s with dir := d', job := some (.consolidateBuilt b) }, by rw [hbuild]; rfl, ⟨hok, hb⟩, rfl⟩
  · rename_i j hjob
    rw [hjob] at hj
    obtain ⟨d', b, hbuild, hok, hb⟩ := hx.buildDeletePatch hU hj.2
    exact ⟨{ s with dir := d', job := some (.deletePatchBuilt b) }, by rw [hbuild]; rfl, ⟨hok, hj.1, hb⟩, rfl⟩
  · exact ⟨s, rfl, ⟨hx, hj⟩, rfl⟩

omit N in
/-- Nor does a finish. -/
theorem SysInv.finishJob {s : Sys} (h : SysInv U ops s) :
    ∃ s' ops', s.finishJob = .ok s' ∧ SysInv U ops' s' ∧ Same s s' := by
  obtain ⟨hx, hj⟩ := h
  rw [Sys.finishJob]
  split
  · rename_i b hjob
    rw [hjob] at hj
    obtain ⟨hm, hst⟩ := hx.flushFinish hj
    exact ⟨_, ops, rfl, ⟨hm.ok, hst⟩, Moved.same (d := s.dir) hm⟩
  · rename_i b hjob
    rw [hjob] at hj
    obtain ⟨d', x', hfinish, hm, -, hsame⟩ := hx.mergeRunsFinish hj.2
    exact ⟨{ s with dir := d', index := x', job := none }, ops, by rw [hfinish]; rfl,
      ⟨hm.ok, staged_congr hsame.flushing hj.1⟩, Moved.same (d := d') hm⟩
  · rename_i b hjob
    rw [hjob] at hj
    obtain ⟨d', x', ops', hfinish, hm, hst⟩ := hx.consolidateFinish hj
    exact ⟨{ s with dir := d', index := x', job := none }, ops', by rw [hfinish]; rfl,
      ⟨hm.ok, hst⟩, Moved.same (d := d') hm⟩
  · rename_i b hjob
    rw [hjob] at hj
    obtain ⟨d', x', hfinish, hm, hfl⟩ := hx.deletePatchFinish hj.2
    exact ⟨{ s with dir := d', index := x', job := none }, ops, by rw [hfinish]; rfl,
      ⟨hm.ok, staged_congr hfl hj.1⟩, Moved.same (d := d') hm⟩
  · exact ⟨s, ops, rfl, ⟨hx, hj⟩, Same.refl s⟩

theorem exec_of_step {s s' : Sys} {a : Act} {ev : List Event} (h : s.step a = some (s', ev)) :
    s.exec a = .ok (s', ev) := by
  rw [Sys.step] at h
  cases hrun : s.exec a with
  | error e => rw [hrun] at h; cases h
  | ok r =>
    rw [hrun] at h
    rw [Option.some.inj h]

/-! ### A job from begin to finish -/

/-- The job has not been built. -/
def Job.isBegun : Job → Bool
  | .flush _ | .mergeRuns _ | .consolidate _ | .deletePatch _ => true
  | _ => false

def Job.isFlush : Job → Bool
  | .flush _ | .flushBuilt _ => true
  | _ => false

omit H N in
theorem begun_beginJob {s : Sys} (h : s.job = none) (k : JobKind) :
    ∀ j ∈ (s.beginJob k).job, j.isBegun = true := by
  intro j hj
  rw [Sys.beginJob.eq_def, if_neg (by simp [h])] at hj
  cases k with
  | flush => obtain ⟨j, -, rfl⟩ := Option.map_eq_some_iff.mp hj; rfl
  | mergeRuns => obtain ⟨j, -, rfl⟩ := Option.map_eq_some_iff.mp hj; rfl
  | consolidate => obtain ⟨j, -, rfl⟩ := Option.map_eq_some_iff.mp hj; rfl
  | deletePatch => obtain ⟨j, -, rfl⟩ := Option.map_eq_some_iff.mp hj; rfl

/-- Built right after it has begun and finished right after that, a job is done. -/
theorem finishJob_buildJob {s t u : Sys} (hs : ∀ j ∈ s.job, j.isBegun = true) (ht : s.buildJob = .ok t)
    (hu : t.finishJob = .ok u) : u.job = none := by
  cases hjob : s.job with
  | none =>
    rw [Sys.buildJob, hjob] at ht
    obtain rfl := Except.ok.inj ht
    rw [Sys.finishJob, hjob] at hu
    obtain rfl := Except.ok.inj hu
    exact hjob
  | some j =>
    rw [Sys.buildJob, hjob] at ht
    cases j with
    | flush j =>
      obtain ⟨r, -, rfl⟩ := map_eq_ok ht
      obtain rfl := Except.ok.inj hu
      rfl
    | mergeRuns j =>
      obtain ⟨r, -, rfl⟩ := map_eq_ok ht
      obtain ⟨r', -, rfl⟩ := map_eq_ok hu
      rfl
    | consolidate j =>
      obtain ⟨r, -, rfl⟩ := map_eq_ok ht
      obtain ⟨r', -, rfl⟩ := map_eq_ok hu
      rfl
    | deletePatch j =>
      obtain ⟨r, -, rfl⟩ := map_eq_ok ht
      obtain ⟨r', -, rfl⟩ := map_eq_ok hu
      rfl
    | flushBuilt b => cases hs _ hjob
    | mergeRunsBuilt b => cases hs _ hjob
    | consolidateBuilt b => cases hs _ hjob
    | deletePatchBuilt b => cases hs _ hjob

omit N in
/-- A flush is not disturbed by a change of the runs. -/
theorem JobInv.sameDelta {job : Option Job} (hj : JobInv d U x ops job) (hflush : ∀ j ∈ job, j.isFlush = true)
    {x' : Index} (hkeeps : Keeps d d') (hsame : SameDelta x x') (hdim : x'.dim = x.dim)
    (htier : x'.tier = x.tier) : JobInv d' U x' ops job := by
  have hjob : ∀ {batch}, Lsm.JobOk (x.state ops) (.flush batch) →
      Lsm.JobOk (x'.state ops) (.flush batch) := by
    intro batch hb
    simp only [Lsm.JobOk, Index.state, hsame.delta, hsame.flushing, hsame.tombstones] at hb ⊢
    exact hb
  cases job with
  | none => exact staged_congr hsame.flushing hj
  | some job =>
    cases job with
    | flush j =>
      obtain ⟨ps, h1, h2, h3, h4, h5, h6, h7⟩ := hj
      exact ⟨ps, h1, h2, hdim ▸ h3, hdim ▸ h4, htier ▸ h5, Nat.lt_of_lt_of_le h6 hsame.runSeq, hjob h7⟩
    | flushBuilt b => exact ⟨hdim ▸ hj.1.keeps hkeeps, hsame.base ▸ hj.2.1, hjob hj.2.2⟩
    | _ => cases hflush _ rfl

/-- `merge_runs` beside whatever flush is under way. -/
theorem SysInv.wholeMerge {s : Sys} (h : SysInv U ops s) (hU : U.card < 2 ^ 32)
    (hflush : ∀ j ∈ s.job, j.isFlush = true) :
    ∃ s', s.exec (.whole .mergeRuns) = .ok (s', []) ∧ SysInv U ops s' ∧ Same s s' := by
  obtain ⟨⟨d₁, x₁, j⟩, hbegin⟩ : ∃ r, s.index.mergeRunsBegin s.dir = r := ⟨_, rfl⟩
  obtain ⟨hm₁, hk₁, hs₁, hj⟩ := h.index.mergeRunsBegin hbegin
  have hstart : { s with job := none }.beginJob .mergeRuns =
      { s with dir := d₁, index := x₁, job := j.map .mergeRuns } := by
    simp only [Sys.beginJob, Option.isSome_none, Bool.false_eq_true, if_false, hbegin]
  rw [Sys.exec, hstart]
  have hj₁ := h.job.sameDelta hflush hk₁ hs₁ hm₁.dim hm₁.tier
  cases j with
  | none => exact ⟨{ s with dir := d₁, index := x₁ }, rfl, ⟨hm₁.ok, hj₁⟩, Moved.same (d := d₁) hm₁⟩
  | some j =>
    obtain ⟨d₂, b, hbuild, hok₂, hk₂, hb⟩ := hm₁.ok.buildMerge hU (hj j rfl)
    obtain ⟨d₃, x₃, hfinish, hm₃, hk₃, hs₃⟩ := hok₂.mergeRunsFinish hb
    have hj₂ := hj₁.sameDelta hflush hk₂ ⟨rfl, rfl, rfl, rfl, Nat.le_refl _⟩ rfl rfl
    have hj₃ := hj₂.sameDelta hflush hk₃ hs₃ hm₃.dim hm₃.tier
    refine ⟨{ s with dir := d₃, index := x₃ }, ?_, ⟨hm₃.ok, hj₃⟩, hm₃.view.trans hm₁.view,
      hm₃.dim.trans hm₁.dim, hm₃.tier.trans hm₁.tier⟩
    simp only [Option.map_some, Sys.buildJob, hbuild, Except.map, Except.bind, Sys.finishJob, hfinish]

/-- A whole job, with none outstanding. -/
theorem SysInv.whole {s : Sys} (h : SysInv U ops s) (hU : U.card < 2 ^ 32) (hnone : s.job = none)
    (k : JobKind) :
    ∃ s' ops', s.exec (.whole k) = .ok (s', []) ∧ SysInv U ops' s' ∧ Same s s' := by
  have hself : { s with job := none } = s := by rw [← hnone]
  obtain ⟨h₁, hs₁⟩ := h.beginJob k
  obtain ⟨t, hbuild, h₂, hi⟩ := h₁.buildJob hU
  obtain ⟨u, ops', hfinish, h₃, hs₃⟩ := h₂.finishJob
  have hdone := finishJob_buildJob (begun_beginJob hnone k) hbuild hfinish
  refine ⟨u, ops', ?_, h₃, hs₁.trans ⟨?_, ?_, ?_⟩⟩
  · rw [Sys.exec, hself, hbuild]
    simp only [Except.bind, hfinish, Except.map, hnone]
    rw [← hdone]
  · rw [hs₃.view, hi]
  · rw [hs₃.dim, hi]
  · rw [hs₃.tier, hi]

/-! ### Runs -/

/-- Actions that do not get in the way of the job that is outstanding. -/
def Sys.Calm (U : Finset UInt64) (s : Sys) : Act → Prop
  | .insert id v => id ∈ U ∧
      ((s.index.autoFlush && decide (Index.flushAt ≤ (s.index.applyInsert id v).delta.keys.length)) = true →
        s.job = none)
  | .flush | .consolidate | .reopen => s.job = none
  | .whole k => s.job = none ∨ k = .mergeRuns ∧ ∀ j ∈ s.job, j.isFlush = true
  | .delete _ | .begin _ | .build | .finish | .setAutoFlush _ => True
  | .ivfBegin .. | .ivfBuild | .ivfFinish => False

/-- The insert has the dimension of the index. -/
def Sys.DimOk (s : Sys) : Act → Prop
  | .insert _ v => v.length = s.index.dim
  | _ => True

omit H N in
@[simp] theorem mapOf_nil (m : UInt64 → Option Vec) : mapOf m [] = m := rfl

omit H N in
theorem mapOf_append (m : UInt64 → Option Vec) (h h' : List Event) :
    mapOf m (h ++ h') = mapOf (mapOf m h) h' := List.foldl_append

/-- The acknowledgement of an operation. -/
def DeltaWalOp.event : DeltaWalOp → Event
  | .insert id v => .inserted id v
  | .delete id => .deleted id

omit H N in
theorem view_applyWalOp (h : x.Aligned) (op : DeltaWalOp) :
    (x.applyWalOp op).view = mapOf x.view [op.event] := by
  have hevent : mapOf x.view [op.event] = Function.update x.view op.toOp.key op.toOp.value := by
    cases op <;> rfl
  have hview := Lsm.view_apply (x.state []) op.toOp
  rwa [← Index.state_applyWalOp h, Index.view_state, Index.view_state, ← hevent] at hview

/-- A calm action does what it should, and does not fail. -/
theorem SysInv.exec {s : Sys} (h : SysInv U ops s) (hU : U.card < 2 ^ 32) {a : Act} (ha : s.Calm U a)
    (hdim : s.DimOk a) : ∃ s' ev ops', s.exec a = .ok (s', ev) ∧ SysInv U ops' s' ∧
      s'.index.view = mapOf s.index.view ev ∧ s'.index.dim = s.index.dim ∧
        s'.index.tier = s.index.tier := by
  cases a with
  | insert id v =>
    obtain ⟨d', x', hins, hok, hview, hd, ht, hfl⟩ := h.index.insert hU ha.1 hdim fun hauto =>
      staged_of_job h.job (ha.2 hauto)
    refine ⟨{ s with dir := d', index := x' }, [.inserted id v], _, by rw [Sys.exec, hins]; rfl,
      ⟨hok, ?_⟩, hview, hd, ht⟩
    -- either nothing is outstanding, or the insert has only logged and applied its operation
    have hv : v.length = s.index.dim := hdim
    rw [Index.insert, if_neg (by simp [hv])] at hins
    dsimp only at hins
    split at hins
    · rename_i hauto
      have hnone := ha.2 hauto
      have hst : (x'.state (ops ++ [.insert id v])).staged = fun _ => none :=
        staged_congr hfl (staged_of_job h.job hnone)
      simp only [hnone]
      exact hst
    · obtain ⟨rfl, rfl⟩ : _ = d' ∧ _ = x' := by simpa using hins
      exact h.job.write h.index (.insert id v)
  | delete id =>
    refine ⟨_, [.deleted id], ops ++ [DeltaWalOp.delete id], rfl,
      ⟨h.index.logOp (.delete id) ⟨trivial, trivial⟩, h.job.write h.index (.delete id)⟩,
      view_applyWalOp h.index.aligned (.delete id), rfl, rfl⟩
  | flush =>
    obtain ⟨d', x', hrun, hm, hfl⟩ := h.index.flush hU (staged_of_job h.job ha)
    refine ⟨{ s with dir := d', index := x' }, [], ops, by rw [Sys.exec, hrun]; rfl, ⟨hm.ok, ?_⟩,
      hm.view, hm.dim, hm.tier⟩
    rw [show s.job = none from ha]
    exact staged_congr hfl (staged_of_job h.job ha)
  | consolidate =>
    obtain ⟨d', x', ops', hrun, hm, hst⟩ := h.index.consolidate hU (staged_of_job h.job ha)
    refine ⟨{ s with dir := d', index := x' }, [], ops', by rw [Sys.exec, hrun]; rfl, ⟨hm.ok, ?_⟩,
      hm.view, hm.dim, hm.tier⟩
    rw [show s.job = none from ha]
    exact hst
  | begin k =>
    obtain ⟨hinv, hsame⟩ := h.beginJob k
    exact ⟨_, [], ops, rfl, hinv, hsame.view, hsame.dim, hsame.tier⟩
  | build =>
    obtain ⟨s', hrun, hinv, hi⟩ := h.buildJob hU
    exact ⟨s', [], ops, by rw [Sys.exec, hrun]; rfl, hinv, by rw [hi]; rfl, by rw [hi], by rw [hi]⟩
  | finish =>
    obtain ⟨s', ops', hrun, hinv, hsame⟩ := h.finishJob
    exact ⟨s', [], ops', by rw [Sys.exec, hrun]; rfl, hinv, hsame.view, hsame.dim, hsame.tier⟩
  | whole k =>
    rcases ha with hnone | ⟨rfl, hflush⟩
    · obtain ⟨s', ops', hrun, hinv, hsame⟩ := h.whole hU hnone k
      exact ⟨s', [], ops', hrun, hinv, hsame.view, hsame.dim, hsame.tier⟩
    · obtain ⟨s', hrun, hinv, hsame⟩ := h.wholeMerge hU hflush
      exact ⟨s', [], ops, hrun, hinv, hsame.view, hsame.dim, hsame.tier⟩
  | reopen =>
    obtain ⟨x', hopen, hok, hview, hd, ht, -, hst⟩ := h.index.reopen
    refine ⟨{ s with dir := openedDir s.dir .base, index := x' }, [], ops, by rw [Sys.exec, hopen]; rfl,
      ⟨hok, ?_⟩, hview, hd, ht⟩
    rw [show s.job = none from ha]
    exact hst
  | setAutoFlush on =>
    refine ⟨_, [], ops, rfl, ⟨{ h.index with inv := h.index.inv }, ?_⟩, rfl, rfl, rfl⟩
    exact h.job
  | ivfBegin n i => exact ha.elim
  | ivfBuild => exact ha.elim
  | ivfFinish => exact ha.elim

/-! ### The router -/

/-- A step of building the router. -/
def Act.Router : Act → Prop
  | .ivfBegin .. | .ivfBuild | .ivfFinish => True
  | _ => False

omit H N in
theorem frame_ivf (hb : ∀ k, (d k).Bounded) (bytes : Bytes) (n : Nat) :
    Frame d (d.run [.create .ivf .base, .write .ivf .base bytes]) n := by
  have hrun : ∀ k ≠ .ivf, d.run [.create .ivf .base, .write .ivf .base bytes] k = d k := by
    intro k hk
    simp [Files.apply, Files.modify, hk]
  refine ⟨fun k => Files.bounded_run hb _ k, fun k hk => ?_, fun k hk i _ => ?_, fun k hk => ?_,
    fun k seq hs => .inl ?_⟩
  · rw [hrun k hk]
  · rw [hrun k hk]
  · rw [hrun k hk]
  · by_cases hk : k = .ivf
    · subst hk
      have hput : d.run [.create .ivf .base, .write .ivf .base bytes] .ivf = (d .ivf).put .base bytes := by
        simp [Files.apply, Files.modify, Table.put]
      rwa [hput, Table.entry_put_of_ne _ _ (by simp)] at hs
    · rwa [hrun k hk] at hs

theorem SysInv.router {s s' : Sys} (h : SysInv U ops s) {a : Act} {ev : List Event} (ha : a.Router)
    (hstep : s.step a = some (s', ev)) :
    SysInv U ops s' ∧ ev = [] ∧ s'.index = { s.index with ivf := s'.index.ivf } := by
  have hexec := exec_of_step hstep
  rw [Sys.exec.eq_def] at hexec
  cases a with
  | ivfBegin n i =>
    obtain ⟨rfl, rfl⟩ := Prod.mk.inj (Except.ok.inj hexec)
    split
    · exact ⟨h, rfl, rfl⟩
    · exact ⟨⟨h.index, h.job⟩, rfl, rfl⟩
  | ivfBuild =>
    dsimp only at hexec
    split at hexec
    · obtain ⟨r, -, hr⟩ := map_eq_ok hexec
      obtain ⟨rfl, rfl⟩ := Prod.mk.inj hr
      exact ⟨⟨h.index, h.job⟩, rfl, rfl⟩
    · obtain ⟨rfl, rfl⟩ := Prod.mk.inj (Except.ok.inj hexec)
      exact ⟨h, rfl, rfl⟩
  | ivfFinish =>
    dsimp only at hexec
    split at hexec
    · rename_i r hj
      obtain ⟨rfl, rfl⟩ := Prod.mk.inj (Except.ok.inj hexec)
      have hok := h.index.frame (frame_ivf h.index.bounded r.toBytes _)
      refine ⟨⟨{ hok with inv := hok.inv }, ?_⟩, rfl, rfl⟩
      have hsame : SameSegments s.dir (s.index.ivfFinish s.dir r).1 := ⟨rfl, rfl⟩
      exact h.job.of_same hsame
    · obtain ⟨rfl, rfl⟩ := Prod.mk.inj (Except.ok.inj hexec)
      exact ⟨h, rfl, rfl⟩
  | _ => exact ha.elim

end Vector

end Skeg
