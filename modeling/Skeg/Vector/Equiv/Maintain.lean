import Skeg.Vector.Equiv.Survivors
import Skeg.Vector.Machine

/-!
# Correctness of maintenance

What each part of a maintenance operation does to the layered map.  `begin` leaves a job whose result is
a layer of the map as it was then; `build` cannot fail and puts the result into a new directory; `finish`
makes it part of the map.
-/

namespace Skeg

namespace Vector

open Lsm (State)

variable {d d' : Dir} {U : Finset UInt64} {x : Index} {ops : List DeltaWalOp}

/-! ### Results -/

theorem mapM_ok {α β : Type} {f : α → Except Fault β} {g : α → β} {l : List α}
    (h : ∀ a ∈ l, f a = .ok (g a)) : l.mapM f = .ok (l.map g) := by
  induction l with
  | nil => rfl
  | cons a l ih =>
    rw [List.mapM_cons, h a (by simp), ih fun b hb => h b (by simp [hb])]
    rfl

theorem map_eq_ok {α β : Type} {e : Except Fault α} {f : α → β} {b : β} (h : e.map f = .ok b) :
    ∃ a, e = .ok a ∧ f a = b := by
  cases e with
  | error _ => cases h
  | ok a => exact ⟨a, rfl, Except.ok.inj h⟩

/-- The map of a segment that was built from entries. -/
theorem map_segmentAt {p : Place} {g : Graph} {ps : List (UInt64 × Vec)}
    (hnd : (ps.map Prod.fst).Nodup) (hids : g.ids = ps.map Prod.fst) (id : UInt64) :
    (segmentAt d p g (ps.map Prod.snd)).map id = assoc ps id := by
  have hzip : g.ids.zip (ps.map Prod.snd) = ps := by
    rw [hids]
    exact (List.zip_of_prod rfl rfl).symm
  rw [Segment.map_eq_assoc (by rw [segmentAt, hids]; exact hnd) (by simp [segmentAt, hids])]
  simp only [segmentAt, hzip]

/-- Entries a segment can be built from. -/
structure Entries (U : Finset UInt64) (dim : Nat) (ps : List (UInt64 × Vec)) : Prop where
  nodup : (ps.map Prod.fst).Nodup
  mem : ∀ q ∈ ps, q.1 ∈ U ∧ q.2.length = dim

theorem entries_delta {m : VecMap} {dim : Nat} (h : VecsOk U dim m) :
    Entries U dim (m.entries.map fun e => (e.1, e.2)) where
  nodup := by
    rw [List.map_map]
    exact m.nodupKeys
  mem q hq := by
    obtain ⟨e, he, rfl⟩ := List.mem_map.mp hq
    exact h e.1 e.2 (AList.mem_lookup_iff.mpr he)

variable {dim : Nat} {ps : List (UInt64 × Vec)}

theorem Entries.content (h : Entries U dim ps) (hU : U.card < 2 ^ 32) (hpos : 0 < dim)
    (hdim : dim < 2 ^ 32) {nodes : List Node} {medoid r lSearch : Nat}
    (hnodes : nodes.length = ps.length) (hmedoid : medoid < 2 ^ 32) (hl : lSearch < 2 ^ 32) :
    Content U ⟨dim, medoid, r, lSearch, ps.map Prod.fst, nodes⟩ (ps.map Prod.snd) where
  wf := {
    nodes := by rw [hnodes, List.length_map]
    ids := length_lt_of_nodup hU h.nodup fun id hid => by
      obtain ⟨q, hq, rfl⟩ := List.mem_map.mp hid
      exact (h.mem q hq).1
    dim := hdim
    medoid := hmedoid
    lSearch := hl }
  dim_pos := hpos
  length := by simp
  dims v hv := by
    obtain ⟨q, hq, rfl⟩ := List.mem_map.mp hv
    exact (h.mem q hq).2
  nodup := h.nodup
  within id hid := by
    obtain ⟨q, hq, rfl⟩ := List.mem_map.mp hid
    exact (h.mem q hq).1

/-- The graph the disk builder makes. -/
theorem Entries.content_build [N : Numerics] (h : Entries U dim ps) (tier : QuantKind)
    (hU : U.card < 2 ^ 32) (hpos : 0 < dim) (hdim : dim < 2 ^ 32) :
    Content U (buildDiskGraph tier dim (ps.map Prod.fst) (ps.map Prod.snd)) (ps.map Prod.snd) := by
  refine h.content hU hpos hdim ?_ (N.buildGraph tier (ps.map Prod.snd)).medoid_u32 (by decide)
  rw [(N.buildGraph tier (ps.map Prod.snd)).length_nodes, List.length_map]

section

variable [H : Hashes]

/-- Layers that hold the same map. -/
theorem IndexOk.withLayers (h : IndexOk d U x ops) {runs : List Segment} {runDirs : List Nat}
    {δ φ : VecMap} (hruns : ∀ r ∈ runs, SegOk d U x.dim r) (hlen : runDirs.length = runs.length)
    (hδ : VecsOk U x.dim δ) (hφ : VecsOk U x.dim φ)
    (hinv : Lsm.Inv (({ x with runs := runs, runDirs := runDirs, delta := δ, flushing := φ } :
      Index).state ops)) :
    IndexOk d U { x with runs := runs, runDirs := runDirs, delta := δ, flushing := φ } ops :=
  { h with runs := hruns, runDirs := hlen, delta := hδ, flushing := hφ, inv := hinv }

theorem IndexOk.nextSeq (h : IndexOk d U x ops) : IndexOk d U { x with runSeq := x.runSeq + 1 } ops :=
  { h with seqs := fun k seq hs => Nat.lt_succ_of_lt (h.seqs k seq hs) }

/-! ### Flushing -/

omit H in
theorem IndexOk.staged_eq_empty (h : (x.state ops).staged = fun _ => none) : x.flushing = ∅ := by
  refine AList.ext (List.eq_nil_iff_forall_not_mem.mpr fun e he => ?_)
  have hsome : x.flushing.lookup e.1 = some e.2 := AList.mem_lookup_iff.mpr he
  have hnone : x.flushing.lookup e.1 = none := congrFun h e.1
  rw [hnone] at hsome
  cases hsome

/-- A maintenance step: the index is another one, the map is the same. -/
structure Moved (U : Finset UInt64) (x : Index) (d' : Dir) (x' : Index) (ops' : List DeltaWalOp) :
    Prop where
  ok : IndexOk d' U x' ops'
  view : x'.view = x.view
  dim : x'.dim = x.dim
  tier : x'.tier = x.tier

/-- Save a segment in a new directory and open it. -/
theorem FilesOk.build (h : FilesOk d U x ops) {ps : List (UInt64 × Vec)} {g : Graph}
    (hg : Content U g (ps.map Prod.snd)) (hids : g.ids = ps.map Prod.fst) (hdim : g.dim = x.dim)
    {p : Place} (hp : p ≠ .base) (hnew : ∀ k, (d k).entry p = none) :
    ∃ d' run, saveAndOpen d p x.tier g (ps.map Prod.snd) = .ok (d', run) ∧ SegOk d' U x.dim run ∧
      run.map = assoc ps ∧ Built d d' U p g run.quant ∧ g.ids = run.ids ∧
        (d' .vectors).entry p = some run.file := by
  obtain ⟨d', hopen, hbuilt⟩ := saveAndOpen_spec h.bounded hnew hp h.tier hg
  exact ⟨d', _, hopen, hdim ▸ hbuilt.segOk, funext fun id => map_segmentAt (hids ▸ hg.nodup) hids id,
    hbuilt, rfl, hbuilt.stored.entry⟩

variable [N : Numerics]

theorem IndexOk.flush (h : IndexOk d U x ops) (hU : U.card < 2 ^ 32)
    (hst : (x.state ops).staged = fun _ => none) :
    ∃ d' x', x.flush d = .ok (d', x') ∧ Moved U x d' x' ops ∧ x'.flushing = x.flushing := by
  rw [Index.flush]
  split
  · exact ⟨d, x, rfl, ⟨h, rfl, rfl, rfl⟩, rfl⟩
  · have hnew : ∀ k, (d k).entry (.run x.runSeq) = none := by
      intro k
      by_contra hsome
      exact absurd (h.seqs k _ hsome) (Nat.lt_irrefl _)
    have hps := entries_delta h.delta
    obtain ⟨d', run, hopen, hseg, hmap, hbuilt, -, -⟩ :=
      h.build (hps.content_build x.tier hU h.dim_pos h.dim_lt) rfl rfl (p := .run x.runSeq) (by simp) hnew
    simp only [List.map_map, Function.comp_def] at hopen
    let x' : Index := { x with
      runSeq := x.runSeq + 1, runs := x.runs ++ [run], runDirs := x.runDirs ++ [x.runSeq], delta := ∅ }
    have hstate : x'.state ops = (x.state ops).flush := by
      have hruns : runsMap (x.runs ++ [run]) = fun id => (x.delta.lookup id).or (runsMap x.runs id) := by
        funext id
        rw [runsMap_append, hmap, assoc_entries]
      simp only [x', Index.state, State.flush, hruns]
      rfl
    have hframe : Frame d d' (x.runSeq + 1) := hbuilt.frame (by simp) (by
      intro seq hseq
      injection hseq with hseq
      omega)
    refine ⟨d', x', by simp only [hopen, x'], ⟨?_, ?_, rfl, rfl⟩, rfl⟩
    · refine (h.nextSeq.frame hframe).withLayers (fun r hr => ?_) ?_ (vecsOk_empty _ _) h.flushing ?_
      · rcases List.mem_append.mp hr with hr | hr
        · exact (h.runs r hr).keeps hframe.keeps
        · exact List.mem_singleton.mp hr ▸ hseg
      · simp [h.runDirs]
      · rw [hstate]
        exact h.inv.flush hst
    · rw [← Index.view_state _ ops, hstate, Lsm.view_flush hst, Index.view_state]

/-! ### Writes -/

/-- An insert of a vector of the right dimension succeeds; if it flushes inline, no flush may be under
way. -/
theorem IndexOk.insert (h : IndexOk d U x ops) (hU : U.card < 2 ^ 32) {id : UInt64} {v : Vec}
    (hid : id ∈ U) (hv : v.length = x.dim)
    (hst : (x.autoFlush && decide (Index.flushAt ≤ (x.applyInsert id v).delta.keys.length)) = true →
      (x.state ops).staged = fun _ => none) :
    ∃ d' x', x.insert d id v = .ok (d', x') ∧ IndexOk d' U x' (ops ++ [.insert id v]) ∧
      x'.view = Function.update x.view id (some v) ∧ x'.dim = x.dim ∧ x'.tier = x.tier ∧
        x'.flushing = x.flushing := by
  have hok := h.logOp (.insert id v) ⟨hv, hid⟩
  have hview : (x.applyInsert id v).view = Function.update x.view id (some v) := by
    have := Lsm.view_apply (x.state ops) (DeltaWalOp.insert id v).toOp
    rwa [← Index.state_applyWalOp h.aligned, Index.view_state, Index.view_state] at this
  rw [Index.insert, if_neg (by simp [hv])]
  dsimp only
  split
  · rename_i hflush
    obtain ⟨d', x', hrun, hm, hfl⟩ := hok.flush hU (hst hflush)
    exact ⟨d', x', hrun, hm.ok, hm.view.trans hview, hm.dim, hm.tier, hfl⟩
  · exact ⟨_, _, rfl, hok, hview, rfl, rfl, rfl⟩

/-! ### The off-thread flush -/

/-- A flush whose batch can still become a run. -/
def FlushOk (U : Finset UInt64) (x : Index) (ops : List DeltaWalOp) (j : FlushJob) : Prop :=
  ∃ ps, j.ids = ps.map Prod.fst ∧ j.rows = ps.map Prod.snd ∧ Entries U x.dim ps ∧ j.dim = x.dim ∧
    j.tier = x.tier ∧ j.seq < x.runSeq ∧ Lsm.JobOk (x.state ops) (.flush (assoc ps))

def FlushBuiltOk (d : Dir) (U : Finset UInt64) (x : Index) (ops : List DeltaWalOp) (b : FlushBuilt) :
    Prop :=
  SegOk d U x.dim b.run ∧ b.run.file ≠ x.base.file ∧ Lsm.JobOk (x.state ops) (.flush b.run.map)

omit N in
theorem IndexOk.flushBegin (h : IndexOk d U x ops) (hst : (x.state ops).staged = fun _ => none) :
    Moved U x d x.flushBegin.1 ops ∧
      match x.flushBegin.2 with
      | none => (x.flushBegin.1.state ops).staged = fun _ => none
      | some j => FlushOk U x.flushBegin.1 ops j := by
  rw [Index.flushBegin]
  split
  · exact ⟨⟨h, rfl, rfl, rfl⟩, hst⟩
  · let x' : Index := { x with flushing := x.delta, delta := ∅, runSeq := x.runSeq + 1 }
    have hstate : x'.state ops = (x.state ops).stage := rfl
    have hok : IndexOk d U x' ops :=
      h.nextSeq.withLayers h.runs h.runDirs (vecsOk_empty _ _) h.delta (h.inv.stage hst)
    refine ⟨⟨hok, ?_, rfl, rfl⟩, x.delta.entries.map fun e => (e.1, e.2), ?_, ?_,
      entries_delta h.delta, rfl, rfl, Nat.lt_succ_self _, ?_⟩
    · rw [← Index.view_state _ ops, hstate, Lsm.view_stage hst, Index.view_state]
    · rw [List.map_map]; rfl
    · rw [List.map_map]; rfl
    · have hbatch : assoc (x.delta.entries.map fun e => (e.1, e.2)) = (x.state ops).stage.staged :=
        funext fun id => assoc_entries x.delta id
      rw [hbatch, hstate]
      exact (h.inv.stage hst).jobOk_flush

/-- A segment in a directory of its own, and in other files than those of the base. -/
structure Sidecar (d : Dir) (U : Finset UInt64) (dim file : Nat) (p : Place) (base : Segment) :
    Prop where
  seg : SegOk d U dim base
  stored : ∃ g, Stored d U p g base.quant ∧ g.ids = base.ids ∧ g.dim = dim
  entry : (d .vectors).entry p = some base.file
  file_ne : base.file ≠ file
  graph_ne : (d .graph).entry p ≠ (d .graph).entry .base

omit N in
/-- Build a segment in a directory that is cleared first. -/
theorem IndexOk.rebuild (h : IndexOk d U x ops) {ps : List (UInt64 × Vec)} {g : Graph}
    (hg : Content U g (ps.map Prod.snd)) (hids : g.ids = ps.map Prod.fst) (hdim : g.dim = x.dim)
    {p : Place} (hp : p ≠ .base) (hn : ∀ seq, p = .run seq → seq < x.runSeq) :
    ∃ d' run, saveAndOpen (d.run (removeTree p)) p x.tier g (ps.map Prod.snd) = .ok (d', run) ∧
      IndexOk d' U x ops ∧ Keeps d d' ∧ run.map = assoc ps ∧ Sidecar d' U x.dim x.base.file p run := by
  have hremove := frame_removeTree h.bounded hp x.runSeq
  have h' := h.frame hremove
  obtain ⟨d', run, hopen, hseg, hmap, hbuilt, hids', hentry⟩ :=
    h'.build hg hids hdim hp (entry_removeTree d p)
  have hframe := hbuilt.frame hp hn
  refine ⟨d', run, hopen, h'.frame hframe, (hremove.trans hframe).keeps, hmap, hseg,
    ⟨g, hbuilt.stored, hids', hdim⟩, hentry, fun hfile => ?_, fun hgraph => ?_⟩
  · have hnext := hbuilt.vectors
    rw [hentry, hfile] at hnext
    exact absurd h'.base.file_lt (by rw [Option.some.inj hnext]; exact Nat.lt_irrefl _)
  · rw [hbuilt.graph, hbuilt.entry _ _ (Ne.symm hp)] at hgraph
    exact absurd (h'.bounded _ _ _ hgraph.symm) (Nat.lt_irrefl _)

theorem IndexOk.buildFlush (h : IndexOk d U x ops) (hU : U.card < 2 ^ 32) {j : FlushJob}
    (hj : FlushOk U x ops j) :
    ∃ d' b, j.build d = .ok (d', b) ∧ IndexOk d' U x ops ∧ FlushBuiltOk d' U x ops b := by
  obtain ⟨ps, hids, hrows, hps, hdim, htier, hseq, hjob⟩ := hj
  obtain ⟨d', run, hopen, hok, -, hmap, hside⟩ :=
    h.rebuild (hps.content_build x.tier hU h.dim_pos h.dim_lt) rfl rfl (p := .run j.seq) (by simp)
      (by rintro seq ⟨⟩; exact hseq)
  refine ⟨d', ⟨run, j.seq⟩, ?_, hok, hside.seg, hside.file_ne, hmap ▸ hjob⟩
  rw [FlushJob.build, hids, hrows, hdim, htier]
  simp only [hopen]

omit N in
theorem IndexOk.flushFinish (h : IndexOk d U x ops) {b : FlushBuilt} (hb : FlushBuiltOk d U x ops b) :
    Moved U x d (x.flushFinish b) ops ∧ ((x.flushFinish b).state ops).staged = fun _ => none := by
  have hstate : (x.flushFinish b).state ops = (x.state ops).pushRun b.run.map := by
    have hruns : runsMap (x.runs ++ [b.run]) = fun id => (b.run.map id).or (runsMap x.runs id) :=
      funext fun id => runsMap_append ..
    simp only [Index.flushFinish, Index.state, State.pushRun, hruns]
    rfl
  refine ⟨⟨?_, ?_, rfl, rfl⟩, by rw [hstate]; rfl⟩
  · refine h.withLayers (fun r hr => ?_) ?_ h.delta (vecsOk_empty _ _) ?_
    · rcases List.mem_append.mp hr with hr | hr
      · exact h.runs r hr
      · exact List.mem_singleton.mp hr ▸ hb.1
    · simp [h.runDirs]
    · change Lsm.Inv ((x.flushFinish b).state ops)
      rw [hstate]
      exact h.inv.pushRun hb.2.2
  · rw [← Index.view_state _ ops, hstate, Lsm.view_pushRun hb.2.2, Index.view_state]

/-! ### Merging the runs -/

/-- Rows that can be read, as entries. -/
def readsTo (d : Dir) (dim : Nat) (files : List Nat) (val : UInt64 × Nat × Nat → Vec)
    (qs : List (UInt64 × Nat × Nat)) : Prop :=
  ∀ q ∈ qs, readAt d dim files q.2.1 q.2.2 = .ok (val q)

def MergeOk (d : Dir) (U : Finset UInt64) (x : Index) (ops : List DeltaWalOp) (j : RunMergeJob) : Prop :=
  ∃ val, readsTo d x.dim j.segFiles val j.survivors ∧
    Entries U x.dim (j.survivors.map fun q => (q.1, val q)) ∧ j.dim = x.dim ∧ j.tier = x.tier ∧
      j.mergedSeq < x.runSeq ∧ j.nMerged = x.runs.length ∧
        Lsm.JobOk (x.state ops) (.merge (assoc (j.survivors.map fun q => (q.1, val q))))

def MergeBuiltOk (d : Dir) (U : Finset UInt64) (x : Index) (ops : List DeltaWalOp) (b : RunMergeBuilt) :
    Prop :=
  SegOk d U x.dim b.merged ∧ b.nMerged = x.runs.length ∧
    Lsm.JobOk (x.state ops) (.merge b.merged.map)

/-- Only the runs are others. -/
structure SameDelta (x x' : Index) : Prop where
  delta : x'.delta = x.delta
  flushing : x'.flushing = x.flushing
  tombstones : x'.tombstones = x.tombstones
  base : x'.base = x.base
  runSeq : x.runSeq ≤ x'.runSeq

omit N in
theorem IndexOk.replaceRuns (h : IndexOk d U x ops) {runs : List Segment} {runDirs : List Nat}
    (hruns : ∀ r ∈ runs, SegOk d U x.dim r) (hlen : runDirs.length = runs.length)
    (hjob : Lsm.JobOk (x.state ops) (.merge (runsMap runs))) :
    Moved U x d { x with runs := runs, runDirs := runDirs } ops := by
  have hstate : ({ x with runs := runs, runDirs := runDirs } : Index).state ops =
      (x.state ops).replaceRuns (runsMap runs) := rfl
  refine ⟨h.withLayers hruns hlen h.delta h.flushing (hstate ▸ h.inv.replaceRuns hjob), ?_, rfl, rfl⟩
  rw [← Index.view_state _ ops, hstate, Lsm.view_replaceRuns hjob, Index.view_state]

omit N in
theorem IndexOk.mergeRunsBegin (h : IndexOk d U x ops) {d' : Dir} {x' : Index} {j : Option RunMergeJob}
    (hbegin : x.mergeRunsBegin d = (d', x', j)) :
    Moved U x d' x' ops ∧ Keeps d d' ∧ SameDelta x x' ∧ ∀ jj ∈ j, MergeOk d' U x' ops jj := by
  have hfind : ∀ id, (find id (x.runRows 0)).map (valueAt x.runs) =
      if id ∈ x.tombstones then none else runsMap x.runs id := h.find_runRows []
  rw [Index.mergeRunsBegin] at hbegin
  split at hbegin
  · obtain ⟨rfl, rfl, rfl⟩ : d = d' ∧ x = x' ∧ none = j := by simpa using hbegin
    exact ⟨⟨h, rfl, rfl, rfl⟩, Keeps.refl d, ⟨rfl, rfl, rfl, rfl, Nat.le_refl _⟩, by simp⟩
  · dsimp only at hbegin
    split at hbegin
    · rename_i hempty
      obtain ⟨rfl, rfl, rfl⟩ : _ = d' ∧ _ = x' ∧ none = j := by simpa using hbegin
      have hframe := frame_removeRuns h.bounded x.runDirs x.runSeq
      refine ⟨(h.frame hframe).replaceRuns (fun r hr => absurd hr List.not_mem_nil) rfl (Lsm.jobOk_merge fun id => ?_),
        hframe.keeps, ⟨rfl, rfl, rfl, rfl, Nat.le_refl _⟩, by simp⟩
      have hnone : find id (x.runRows 0) = none := by
        have := find_firsts id [] (x.runRows 0)
        rwa [List.isEmpty_iff.mp hempty, if_neg (by simp), eq_comm] at this
      have := hfind id
      rw [hnone] at this
      exact this
    · obtain ⟨rfl, rfl, rfl⟩ : d = d' ∧ _ = x' ∧ _ = j := by simpa using hbegin
      refine ⟨⟨h.nextSeq, rfl, rfl, rfl⟩, Keeps.refl d, ⟨rfl, rfl, rfl, rfl, Nat.le_succ _⟩, ?_⟩
      rintro jj ⟨⟩
      have hnd := nodup_firsts [] (x.runRows 0)
      have hloc : ∀ q ∈ sortById (firsts [] (x.runRows 0)), Located x.runs q := by
        intro q hq
        have hq := mem_of_mem_firsts ((List.perm_insertionSort _ _).mem_iff.mp hq)
        exact located_of_mem_runRows [] hq
      refine ⟨valueAt x.runs, fun q hq => (readAt_located h.runs (hloc q hq)).1, ⟨?_, ?_⟩, rfl, rfl,
        Nat.lt_succ_self _, rfl, Lsm.jobOk_merge fun id => ?_⟩
      · rw [List.map_map]
        exact nodup_sortById hnd
      · intro p hp
        obtain ⟨q, hq, rfl⟩ := List.mem_map.mp hp
        exact (readAt_located h.runs (hloc q hq)).2
      · rw [assoc_map, find_sortById _ hnd, find_firsts, if_neg (by simp)]
        exact hfind id

theorem IndexOk.buildMerge (h : IndexOk d U x ops) (hU : U.card < 2 ^ 32) {j : RunMergeJob}
    (hj : MergeOk d U x ops j) :
    ∃ d' b, j.build d = .ok (d', b) ∧ IndexOk d' U x ops ∧ Keeps d d' ∧ MergeBuiltOk d' U x ops b := by
  obtain ⟨val, hreads, hps, hdim, htier, hseq, hn, hjob⟩ := hj
  obtain ⟨d', run, hopen, hok, hkeeps, hmap, hside⟩ :=
    h.rebuild (hps.content_build x.tier hU h.dim_pos h.dim_lt) rfl rfl (p := .run j.mergedSeq) (by simp)
      (by rintro seq ⟨⟩; exact hseq)
  have hread : (j.survivors.mapM fun q =>
      readAt (d.run (removeTree (.run j.mergedSeq))) x.dim j.segFiles q.2.1 q.2.2) =
        .ok (j.survivors.map val) := by
    refine mapM_ok fun q hq => ?_
    rw [← hreads q hq, readAt, readAt, run_removeTree]
    rfl
  refine ⟨d', ⟨run, j.mergedSeq, j.nMerged, j.oldDirs⟩, ?_, hok, hkeeps, hside.seg, hn, hmap ▸ hjob⟩
  simp only [List.map_map, Function.comp_def] at hopen
  rw [RunMergeJob.build, hdim, htier]
  simp only [hread, hopen]

omit N in
theorem IndexOk.mergeRunsFinish (h : IndexOk d U x ops) {b : RunMergeBuilt}
    (hb : MergeBuiltOk d U x ops b) :
    ∃ d' x', x.mergeRunsFinish d b = .ok (d', x') ∧ Moved U x d' x' ops ∧ Keeps d d' ∧
      SameDelta x x' := by
  obtain ⟨hseg, hn, hjob⟩ := hb
  have hframe := frame_removeRuns h.bounded b.oldDirs x.runSeq
  rw [Index.mergeRunsFinish, if_neg (by rw [h.runDirs]; omega)]
  refine ⟨_, _, rfl, ?_, hframe.keeps, rfl, rfl, rfl, rfl, Nat.le_refl _⟩
  have hdrop : x.runs.drop b.nMerged = [] := List.drop_eq_nil_of_le (Nat.le_of_eq hn.symm)
  have hdrop' : x.runDirs.drop b.nMerged = [] :=
    List.drop_eq_nil_of_le (Nat.le_of_eq (h.runDirs.trans hn.symm))
  have hmap : runsMap [b.merged] = b.merged.map := by
    funext id
    exact (runsMap_append [] b.merged id).trans (Option.or_none ..)
  rw [hdrop, hdrop']
  refine (h.frame hframe).replaceRuns (fun r hr => ?_) rfl (hmap ▸ hjob)
  exact List.mem_singleton.mp hr ▸ hseg.keeps hframe.keeps

/-! ### The background consolidate -/

/-- The entries of a job, in the order in which it took them. -/
def ConsolidateJob.entries (j : ConsolidateJob) (val : UInt64 × Nat × Nat → Vec) :
    List (UInt64 × Vec) :=
  j.delta ++ j.survivors.map fun q => (q.1, val q)

/-- The offset of the log behind its first `mark` records. -/
def IsOffset (x : Index) (ops : List DeltaWalOp) (mark offset : Nat) : Prop :=
  offset = (walBytes x.walFormat (ops.take mark)).length

def ConsolidateOk (d : Dir) (U : Finset UInt64) (x : Index) (ops : List DeltaWalOp)
    (j : ConsolidateJob) : Prop :=
  ∃ val mark, readsTo d x.dim j.segFiles val j.survivors ∧ Entries U x.dim (j.entries val) ∧
    j.dim = x.dim ∧ j.tier = x.tier ∧ IsOffset x ops mark j.walOffset ∧
      Lsm.JobOk (x.state ops) (.fold (assoc (j.entries val)) (j.entries val).length mark)

def ConsolidateBuiltOk (d : Dir) (U : Finset UInt64) (x : Index) (ops : List DeltaWalOp)
    (b : ConsolidateBuilt) : Prop :=
  Sidecar d U x.dim x.base.file .consolidating b.base ∧ ∃ mark, IsOffset x ops mark b.walOffset ∧
    Lsm.JobOk (x.state ops) (.fold b.base.map b.base.mainN mark)

omit H N in
/-- Distinct ids are counted by their number. -/
theorem encard_assoc {ps : List (UInt64 × Vec)} (hnd : (ps.map Prod.fst).Nodup) :
    {id | assoc ps id ≠ none}.encard = ps.length := by
  have hset : {id | assoc ps id ≠ none} = ((ps.map Prod.fst).toFinset : Set UInt64) := by
    ext id
    simp only [Set.mem_ofPred_eq, assoc, ne_eq, Option.map_eq_none_iff, find_eq_none, not_not,
      List.coe_toFinset]
  rw [hset, Set.encard_coe_eq_coe_finsetCard, List.toFinset_card_of_nodup hnd, List.length_map]

omit N in
theorem IndexOk.consolidateBegin (h : IndexOk d U x ops) (hst : (x.state ops).staged = fun _ => none)
    {j : ConsolidateJob} (hbegin : x.consolidateBegin d = some j) : ConsolidateOk d U x ops j := by
  set delta := firsts [] ((x.delta.entries ++ x.flushing.entries).map fun e => (e.1, e.2)) with hdelta
  set survivors := firsts (delta.map Prod.fst) (x.runRows 1 ++ x.baseRows) with hsurvivors
  obtain rfl : (⟨delta, survivors, x.segs.map Segment.file, x.dim, x.tier, x.runSeq,
      ((d .log).data x.log).length⟩ : ConsolidateJob) = j := by
    rw [Index.consolidateBegin] at hbegin
    split at hbegin
    · cases hbegin
    · exact Option.some.inj hbegin
  have hmem : ∀ q ∈ survivors, q ∈ x.runRows 1 ++ x.baseRows := fun q hq => mem_of_mem_firsts hq
  set val := valueAt x.segs
  have hassoc : assoc (delta ++ survivors.map fun q => (q.1, val q)) = x.view := by
    funext id
    have hd : assoc delta id = (x.delta.lookup id).or (x.flushing.lookup id) := by
      rw [assoc, hdelta, find_firsts, if_neg (by simp), ← assoc, List.map_append, assoc_append,
        assoc_entries, assoc_entries]
    have hs := h.find_segRows id
    rw [assoc_append, assoc_map, hsurvivors, find_firsts, Index.view]
    by_cases hid : id ∈ delta.map Prod.fst
    · -- what is in memory is not tombstoned
      obtain ⟨v, hv⟩ : ∃ v, assoc delta id = some v := by
        rw [← Option.isSome_iff_exists, assoc, Option.isSome_map, Option.isSome_iff_ne_none, ne_eq,
          find_eq_none]
        exact not_not.mpr hid
      have halive : id ∉ x.tombstones := by
        intro hdead
        have h1 : x.delta.lookup id = none := h.inv.delta id hdead
        have h2 : x.flushing.lookup id = none := h.inv.staged id hdead
        rw [hd, h1, h2] at hv
        cases hv
      rw [if_pos hid, if_neg halive, ← Option.or_assoc, ← hd, hv]
      rfl
    · have hnone : assoc delta id = none := by
        rw [assoc, Option.map_eq_none_iff, find_eq_none]
        exact hid
      rw [if_neg hid, hs, hnone, Option.none_or, ← Option.or_assoc, ← hd, hnone, Option.none_or]
  have hnd : ((delta ++ survivors.map fun q => (q.1, val q)).map Prod.fst).Nodup := by
    rw [List.map_append, List.map_map]
    refine List.Nodup.append (nodup_firsts _ _) (nodup_firsts _ _) fun id hid hid' => ?_
    exact not_mem_firsts _ _ hid hid'
  refine ⟨val, ops.length, fun q hq => (h.readAt_segRows (hmem q hq)).1, ⟨hnd, fun p hp => ?_⟩, rfl,
    rfl, ?_, ?_⟩
  · rcases List.mem_append.mp hp with hp | hp
    · obtain ⟨e, he, rfl⟩ := List.mem_map.mp (mem_of_mem_firsts hp)
      rcases List.mem_append.mp he with he | he
      · exact h.delta e.1 e.2 (AList.mem_lookup_iff.mpr he)
      · exact h.flushing e.1 e.2 (AList.mem_lookup_iff.mpr he)
    · obtain ⟨q, hq, rfl⟩ := List.mem_map.mp hp
      exact (h.readAt_segRows (hmem q hq)).2
  · rw [IsOffset, List.take_length, h.wal]
  · have hcount := h.inv.count
    have hlen : ((delta ++ survivors.map fun q => (q.1, val q)).length : ℕ∞) = x.liveCount := by
      rw [← encard_assoc hnd, hassoc, ← Index.view_state x ops]
      exact hcount
    have := h.inv.jobOk_fold hst (hassoc.trans (Index.view_state x ops).symm) (ENat.natCast_inj.mp hlen)
    rwa [show (x.state ops).log.length = ops.length from List.length_map ..] at this

theorem IndexOk.buildConsolidate (h : IndexOk d U x ops) (hU : U.card < 2 ^ 32) {j : ConsolidateJob}
    (hj : ConsolidateOk d U x ops j) :
    ∃ d' b, j.build d = .ok (d', b) ∧ IndexOk d' U x ops ∧ ConsolidateBuiltOk d' U x ops b := by
  obtain ⟨val, mark, hreads, hps, hdim, htier, hoff, hjob⟩ := hj
  set raw : List (UInt64 × (Vec ⊕ Nat × Nat)) :=
    j.delta.map (fun p => (p.1, .inl p.2)) ++ j.survivors.map fun p => (p.1, .inr p.2) with hraw
  set items := sortById raw with hitems
  let value : UInt64 × (Vec ⊕ Nat × Nat) → Vec := fun p => p.2.elim id fun l => val (p.1, l)
  have hentries : raw.map (fun p => (p.1, value p)) = j.entries val := by
    simp [hraw, ConsolidateJob.entries, value, Function.comp_def]
  have hperm : (items.map fun p => (p.1, value p)).Perm (j.entries val) :=
    hentries ▸ (List.perm_insertionSort _ raw).map _
  have hps' : Entries U x.dim (items.map fun p => (p.1, value p)) :=
    ⟨((hperm.map Prod.fst).nodup_iff).mpr hps.nodup, fun q hq => hps.mem q (hperm.mem_iff.mp hq)⟩
  obtain ⟨d', run, hopen, hok, -, hmap, hside⟩ :=
    h.rebuild (hps'.content_build x.tier hU h.dim_pos h.dim_lt) rfl rfl (p := .consolidating) (by simp)
      (by rintro seq ⟨⟩)
  have hread : (items.mapM fun p => p.2.elim .ok fun l =>
      readAt (d.run (removeTree .consolidating)) x.dim j.segFiles l.1 l.2) = .ok (items.map value) := by
    refine mapM_ok fun p hp => ?_
    have hp : p ∈ raw := (List.perm_insertionSort _ _).mem_iff.mp hp
    rcases List.mem_append.mp hp with hp | hp
    · obtain ⟨q, hq, rfl⟩ := List.mem_map.mp hp
      rfl
    · obtain ⟨q, hq, rfl⟩ := List.mem_map.mp hp
      exact hreads q hq
  have hassoc : run.map = assoc (j.entries val) := by
    rw [hmap]
    funext id
    rw [assoc, assoc, find_perm hperm hps'.nodup]
  have hlen : run.mainN = (j.entries val).length := by
    have h1 := hside.seg.count
    rw [hassoc, encard_assoc hps.nodup] at h1
    exact (ENat.natCast_inj.mp h1).symm
  simp only [List.map_map, Function.comp_def] at hopen
  refine ⟨d', ⟨run, j.runSeqHigh, j.walOffset⟩, ?_, hok, hside, mark, hoff, ?_⟩
  · rw [ConsolidateJob.build, hdim, htier]
    simp only [← hraw, ← hitems, hread, hopen]
  · rw [hassoc, hlen]
    exact hjob

end

end Vector

end Skeg
