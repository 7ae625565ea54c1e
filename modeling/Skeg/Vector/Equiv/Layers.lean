import Skeg.Lib.Lsm
import Skeg.Vector.Equiv.Open

/-!
# A disk vector index as a layered map

`Index.state x ops` is the layered map an index stands for when its log has the operations `ops`; its view
is the index's own layered view, newest copy first.  `IndexOk d U x ops` ties the memory of the index to the
files, and adds the invariant of the layered map.  Writes and reopening keep it (`IndexOk.logOp`,
`IndexOk.reopen`), and nothing that leaves the files of the index alone disturbs it (`IndexOk.frame`).
-/

namespace Skeg

namespace Vector

open Lsm (State)

/-- The operation of a record. -/
def DeltaWalOp.toOp : DeltaWalOp → Lsm.Op UInt64 Vec
  | .insert id v => .put id v
  | .delete id => .del id

/-- The newest copy of an id in the runs. -/
def runsMap (runs : List Segment) (id : UInt64) : Option Vec := runs.reverse.findSome? (Segment.map · id)

theorem runsMap_append (runs : List Segment) (r : Segment) (id : UInt64) :
    runsMap (runs ++ [r]) id = (r.map id).or (runsMap runs id) := by
  simp only [runsMap, List.reverse_append, List.reverse_singleton, List.singleton_append,
    List.findSome?_cons]
  cases r.map id <;> rfl

theorem runsMap_eq_none {runs : List Segment} {id : UInt64} :
    runsMap runs id = none ↔ ∀ r ∈ runs, r.map id = none := by
  simp [runsMap]

namespace Index

def state (x : Index) (ops : List DeltaWalOp) : State UInt64 Vec where
  dead := x.tombstones
  delta := fun id => x.delta.lookup id
  staged := fun id => x.flushing.lookup id
  runs := runsMap x.runs
  base := x.base.map
  log := ops.map DeltaWalOp.toOp
  count := x.liveCount

/-- The layered view: the newest copy of an id that is not tombstoned. -/
def view (x : Index) (id : UInt64) : Option Vec :=
  if id ∈ x.tombstones then none
  else (x.delta.lookup id).or ((x.flushing.lookup id).or ((runsMap x.runs id).or (x.base.map id)))

theorem view_state (x : Index) (ops : List DeltaWalOp) : (x.state ops).view = x.view := by
  funext id
  simp only [State.view, view, State.newer, state, Option.or_assoc]

/-- Every segment has a row for every id. -/
def Aligned (x : Index) : Prop := ∀ s ∈ x.base :: x.runs, s.quant.length = s.ids.length

theorem Aligned.isLive {x : Index} (h : x.Aligned) (id : UInt64) : x.isLive id = (x.view id).isSome := by
  have hruns : (runsMap x.runs id).isSome = x.runs.any fun r => r.contains id := by
    rw [Bool.eq_iff_iff, List.any_eq_true, ← not_iff_not, Bool.not_eq_true, Option.isSome_eq_false_iff,
      Option.isNone_iff_eq_none, runsMap_eq_none]
    simp only [not_exists, not_and, Bool.not_eq_true]
    refine forall_congr' fun r => forall_congr' fun hr => ?_
    rw [← Segment.map_isSome (h r (List.mem_cons_of_mem _ hr))]
    cases r.map id <;> simp
  have hbase := Segment.map_isSome (h x.base (List.mem_cons_self ..)) id
  rw [Index.isLive, view, ← hbase, ← hruns]
  by_cases hid : id ∈ x.tombstones
  · simp [hid]
  · simp only [hid, not_false_eq_true, decide_true, Bool.true_and, if_false, Option.isSome_or]
    cases (runsMap x.runs id).isSome <;> cases (x.base.map id).isSome <;>
      cases (x.delta.lookup id).isSome <;> cases (x.flushing.lookup id).isSome <;> rfl

/-! ### Applying operations -/

section

variable {x : Index} {ops : List DeltaWalOp}

/-- An operation does to the layered map what it should. -/
theorem state_applyWalOp (h : x.Aligned) (ops : List DeltaWalOp) (op : DeltaWalOp) :
    (x.applyWalOp op).state (ops ++ [op]) = (x.state ops).apply op.toOp := by
  have hlive : ∀ id, x.isLive id = ((x.state ops).view id).isSome := by
    intro id
    rw [view_state, h.isLive]
  cases op with
  | insert id v =>
    have hdelta : (fun id' => (x.delta.insert id v).lookup id') =
        Function.update (fun id' => x.delta.lookup id') id (some v) := by
      funext id'
      by_cases hid : id' = id
      · subst hid
        simp
      · simp [hid]
    simp only [applyWalOp, applyInsert, state, DeltaWalOp.toOp, State.apply, State.put, List.map_append,
      List.map_cons, List.map_nil, hdelta, hlive id]
    rfl
  | delete id =>
    have herase : ∀ m : VecMap, (fun id' => (m.erase id).lookup id') =
        Function.update (fun id' => m.lookup id') id none := by
      intro m
      funext id'
      by_cases hid : id' = id
      · subst hid
        simp
      · simp [hid]
    simp only [applyWalOp, applyDelete, state, DeltaWalOp.toOp, State.apply, State.del, List.map_append,
      List.map_cons, List.map_nil, herase, hlive id]
    rfl

/-- An operation touches nothing but the delta, the staged batch, the tombstones and the count. -/
theorem applyWalOp_eq (x : Index) (op : DeltaWalOp) : ∃ δ φ τ n, x.applyWalOp op =
    { x with delta := δ, flushing := φ, tombstones := τ, liveCount := n } := by
  cases op <;> exact ⟨_, _, _, _, rfl⟩

theorem replayWalOps_eq (x : Index) (ops : List DeltaWalOp) : ∃ δ φ τ n, x.replayWalOps ops =
    { x with delta := δ, flushing := φ, tombstones := τ, liveCount := n } := by
  induction ops generalizing x with
  | nil => exact ⟨_, _, _, _, rfl⟩
  | cons op ops ih =>
    obtain ⟨δ, φ, τ, n, hop⟩ := x.applyWalOp_eq op
    obtain ⟨δ', φ', τ', n', hops⟩ := ih (x.applyWalOp op)
    refine ⟨δ', φ', τ', n', ?_⟩
    rw [replayWalOps, List.foldl_cons, ← replayWalOps, hops, hop]

theorem Aligned.applyWalOp (h : x.Aligned) (op : DeltaWalOp) : (x.applyWalOp op).Aligned := by
  obtain ⟨δ, φ, τ, n, hop⟩ := x.applyWalOp_eq op
  rw [hop]
  exact h

theorem state_replayWalOps (h : x.Aligned) (ops ops' : List DeltaWalOp) :
    (x.replayWalOps ops').state (ops ++ ops') = (x.state ops).applyAll (ops'.map DeltaWalOp.toOp) := by
  induction ops' generalizing x ops with
  | nil => simp [replayWalOps, State.applyAll]
  | cons op ops' ih =>
    have := ih (h.applyWalOp op) (ops ++ [op])
    rw [List.append_assoc] at this
    rw [replayWalOps, List.foldl_cons, ← replayWalOps]
    exact this.trans (by rw [state_applyWalOp h]; rfl)

end

end Index

/-! ### The index and its files -/

/-- The operation names an id in use, if it adds one. -/
def DeltaWalOp.Within (U : Finset UInt64) : DeltaWalOp → Prop
  | .insert id _ => id ∈ U
  | .delete _ => True

/-- A record that can be in the log. -/
def DeltaWalOp.Ok (U : Finset UInt64) (dim : Nat) (op : DeltaWalOp) : Prop := op.Fits dim ∧ op.Within U

def VecsOk (U : Finset UInt64) (dim : Nat) (m : VecMap) : Prop :=
  ∀ id v, m.lookup id = some v → id ∈ U ∧ v.length = dim

theorem vecsOk_empty (U : Finset UInt64) (dim : Nat) : VecsOk U dim ∅ := by
  intro id v h
  cases h

variable {d d' : Dir} {U : Finset UInt64} {x : Index} {ops : List DeltaWalOp}

section

variable [H : Hashes]

/-- The files are those of the index, and the log has the operations `ops`. -/
structure FilesOk (d : Dir) (U : Finset UInt64) (x : Index) (ops : List DeltaWalOp) : Prop where
  bounded : ∀ k, (d k).Bounded
  tier : x.tier.isDisk = true
  lSearch_lt : x.lSearch < 2 ^ 32
  base : SegOk d U x.dim x.base
  runs : ∀ r ∈ x.runs, SegOk d U x.dim r
  runDirs : x.runDirs.length = x.runs.length
  /-- The directories of runs that a new run could run into. -/
  seqs : ∀ k seq, (d k).entry (.run seq) ≠ none → seq < x.runSeq
  stored : ∃ g, Stored d U .base g x.base.quant ∧ g.ids = x.base.ids ∧ g.dim = x.dim
  file : (d .vectors).entry .base = some x.base.file
  log : (d .log).entry .base = some x.log
  wal : (d .log).data x.log = walBytes x.walFormat ops
  records : ∀ op ∈ ops, op.Ok U x.dim
  delta : VecsOk U x.dim x.delta
  flushing : VecsOk U x.dim x.flushing

structure IndexOk (d : Dir) (U : Finset UInt64) (x : Index) (ops : List DeltaWalOp) : Prop
    extends FilesOk d U x ops where
  inv : Lsm.Inv (x.state ops)

theorem FilesOk.dim_pos (h : FilesOk d U x ops) : 0 < x.dim := by
  obtain ⟨g, hg, _, hdim⟩ := h.stored
  exact hdim ▸ hg.dim_pos

theorem FilesOk.dim_lt (h : FilesOk d U x ops) : x.dim < 2 ^ 32 := by
  obtain ⟨g, hg, _, hdim⟩ := h.stored
  exact hdim ▸ hg.wf.dim

theorem FilesOk.aligned (h : FilesOk d U x ops) : x.Aligned := by
  intro s hs
  rcases List.mem_cons.mp hs with rfl | hs
  · exact h.base.length
  · exact (h.runs s hs).length

theorem IndexOk.isLive (h : IndexOk d U x ops) (id : UInt64) : x.isLive id = (x.view id).isSome :=
  h.aligned.isLive id

/-- `len` is the number of ids that have a vector. -/
theorem IndexOk.len (h : IndexOk d U x ops) : {id | x.view id ≠ none}.encard = x.len := by
  have := h.inv.count
  rwa [Index.view_state] at this

end

/-! ### Changes of the files -/

/-- The files of an index that has started fewer than `n` runs are as they were. -/
structure Frame (d d' : Dir) (n : Nat) : Prop where
  bounded : ∀ k, (d' k).Bounded
  next : ∀ k ≠ .ivf, (d k).next ≤ (d' k).next
  data : ∀ k ≠ .ivf, ∀ i < (d k).next, (d' k).data i = (d k).data i
  base : ∀ k ≠ .ivf, (d' k).entry .base = (d k).entry .base
  runs : ∀ k seq, (d' k).entry (.run seq) ≠ none → (d k).entry (.run seq) ≠ none ∨ seq < n

theorem Frame.keeps {n : Nat} (h : Frame d d' n) : Keeps d d' :=
  ⟨h.next _ (by simp), h.data _ (by simp)⟩

theorem Frame.read {n : Nat} (h : Frame d d' n) {k : FileKind} (hk : k ≠ .ivf) (hb : (d k).Bounded) :
    (d' k).read .base = (d k).read .base := by
  rw [Table.read, Table.read, h.base k hk]
  cases hi : (d k).entry .base with
  | none => rfl
  | some i => rw [Option.map_some, Option.map_some, h.data k hk i (hb _ _ hi)]

theorem Stored.frame {n : Nat} {g : Graph} {rows : List Vec} (h : Stored d U .base g rows)
    (hf : Frame d d' n) (hb : ∀ k, (d k).Bounded) : Stored d' U .base g rows :=
  { h with
    graph := by rw [hf.read (by simp) (hb _), h.graph]
    vectors := by rw [hf.read (by simp) (hb _), h.vectors] }

theorem FilesOk.frame [Hashes] (h : FilesOk d U x ops) (hf : Frame d d' x.runSeq) :
    FilesOk d' U x ops :=
  { h with
    bounded := hf.bounded
    base := h.base.keeps hf.keeps
    runs := fun r hr => (h.runs r hr).keeps hf.keeps
    seqs := fun k seq hs => (hf.runs k seq hs).elim (h.seqs k seq) id
    stored := by
      obtain ⟨g, hg, hids, hdim⟩ := h.stored
      exact ⟨g, hg.frame hf h.bounded, hids, hdim⟩
    file := by rw [hf.base _ (by simp), h.file]
    log := by rw [hf.base _ (by simp), h.log]
    wal := by rw [hf.data _ (by simp) _ (h.bounded _ _ _ h.log), h.wal] }

theorem IndexOk.frame [Hashes] (h : IndexOk d U x ops) (hf : Frame d d' x.runSeq) :
    IndexOk d' U x ops := ⟨h.toFilesOk.frame hf, h.inv⟩

/-- A segment saved beside the base. -/
theorem Built.frame {p : Place} {g : Graph} {rows : List Vec} {n : Nat} (h : Built d d' U p g rows)
    (hp : p ≠ .base) (hn : ∀ seq, p = .run seq → seq < n) : Frame d d' n where
  bounded := h.bounded
  next k _ := h.next k
  data k _ := h.data k
  base k _ := h.entry k _ (Ne.symm hp)
  runs k seq hs := by
    by_cases hq : Place.run seq = p
    · exact .inr (hn seq hq.symm)
    · rw [h.entry k _ hq] at hs
      exact .inl hs

/-- Files beside the base have been removed. -/
theorem frame_removed {e : Dir} (hb : ∀ k, (d k).Bounded) {p : Place} (hp : p ≠ .base)
    (he : ∀ k, e k = d k ∨ e k = (d k).remove p) (n : Nat) : Frame d e n where
  bounded k := by
    rcases he k with he | he <;> rw [he]
    · exact hb k
    · exact (hb k).remove p
  next k _ := by
    rcases he k with he | he <;> rw [he]
    exact Nat.le_refl _
  data k _ i _ := by
    rcases he k with he | he <;> rw [he]
    rfl
  base k _ := by
    rcases he k with he | he <;> rw [he]
    exact Function.update_of_ne (Ne.symm hp) ..
  runs k seq hs := by
    rcases he k with he | he <;> rw [he] at hs
    · exact .inl hs
    · refine .inl fun hnone => hs ?_
      by_cases hq : Place.run seq = p
      · exact hq ▸ Function.update_self ..
      · rw [← hnone]
        exact Function.update_of_ne hq ..

theorem frame_removeTree (hb : ∀ k, (d k).Bounded) {p : Place} (hp : p ≠ .base) (n : Nat) :
    Frame d (d.run (removeTree p)) n :=
  frame_removed hb hp (fun k => .inr (run_removeTree d p k)) n

theorem entry_removeTree (d : Dir) (p : Place) (k : FileKind) :
    (d.run (removeTree p) k).entry p = none := by
  rw [run_removeTree]
  exact Function.update_self ..

theorem Frame.trans {e : Dir} {n : Nat} (h : Frame d d' n) (h' : Frame d' e n) : Frame d e n where
  bounded := h'.bounded
  next k hk := Nat.le_trans (h.next k hk) (h'.next k hk)
  data k hk i hi := (h'.data k hk i (Nat.lt_of_lt_of_le hi (h.next k hk))).trans (h.data k hk i hi)
  base k hk := (h'.base k hk).trans (h.base k hk)
  runs k seq hs := (h'.runs k seq hs).elim (h.runs k seq) .inr

theorem frame_refl (hb : ∀ k, (d k).Bounded) (n : Nat) : Frame d d n :=
  ⟨hb, fun _ _ => Nat.le_refl _, fun _ _ _ _ => rfl, fun _ _ => rfl, fun _ _ hs => .inl hs⟩

theorem frame_removeRuns (hb : ∀ k, (d k).Bounded) (seqs : List Nat) (n : Nat) :
    Frame d (d.run (seqs.flatMap fun seq => removeTree (.run seq))) n := by
  induction seqs generalizing d with
  | nil => exact frame_refl hb n
  | cons seq seqs ih =>
    have hone := frame_removeTree hb (p := .run seq) (by simp) n
    rw [List.flatMap_cons, Files.run_append]
    exact hone.trans (ih hone.bounded)

/-! ### Writing -/

theorem vecsOk_applyWalOp {op : DeltaWalOp} (hop : op.Ok U x.dim) (hd : VecsOk U x.dim x.delta)
    (hf : VecsOk U x.dim x.flushing) :
    VecsOk U x.dim (x.applyWalOp op).delta ∧ VecsOk U x.dim (x.applyWalOp op).flushing := by
  cases op with
  | insert id v =>
    refine ⟨fun id' v' hv' => ?_, hf⟩
    by_cases hid : id' = id
    · subst hid
      have : v = v' := by simpa [Index.applyWalOp, Index.applyInsert] using hv'
      exact this ▸ ⟨hop.2, hop.1⟩
    · exact hd id' v' (by simpa [Index.applyWalOp, Index.applyInsert, hid] using hv')
  | delete id =>
    have herase : ∀ {m : VecMap}, VecsOk U x.dim m → VecsOk U x.dim (m.erase id) := by
      intro m hm id' v' hv'
      by_cases hid : id' = id
      · rw [hid, AList.lookup_erase] at hv'
        cases hv'
      · exact hm id' v' (by simpa [hid] using hv')
    exact ⟨herase hd, herase hf⟩

/-- What replaying keeps of the vectors in memory. -/
theorem vecsOk_replayWalOps (hops : ∀ op ∈ ops, op.Ok U x.dim) (hd : VecsOk U x.dim x.delta)
    (hf : VecsOk U x.dim x.flushing) : VecsOk U x.dim (x.replayWalOps ops).delta ∧
      VecsOk U x.dim (x.replayWalOps ops).flushing := by
  induction ops generalizing x with
  | nil => exact ⟨hd, hf⟩
  | cons op ops ih =>
    obtain ⟨hd', hf'⟩ := vecsOk_applyWalOp (hops op (by simp)) hd hf
    obtain ⟨δ, φ, τ, n, heq⟩ := x.applyWalOp_eq op
    have hdim : (x.applyWalOp op).dim = x.dim := by rw [heq]
    rw [← hdim] at hd' hf' hops ⊢
    exact ih (fun o ho => hops o (by simp [ho])) hd' hf'

section

variable [H : Hashes]

/-- A write reaches the log before memory. -/
theorem IndexOk.logOp (h : IndexOk d U x ops) (op : DeltaWalOp) (hop : op.Ok U x.dim) :
    IndexOk (x.logOp d op) U (x.applyWalOp op) (ops ++ [op]) := by
  obtain ⟨hdelta, hflushing⟩ := vecsOk_applyWalOp hop h.delta h.flushing
  have hinv : Lsm.Inv ((x.applyWalOp op).state (ops ++ [op])) := by
    rw [Index.state_applyWalOp h.aligned]
    exact h.inv.apply op.toOp
  have hwal : (x.logOp d op .log).data x.log = walBytes x.walFormat (ops ++ [op]) := by
    rw [Index.logOp, Files.modify_self, walBytes_append, ← h.wal]
    simp [Table.append, encodeWalRecords]
  have hrest : ∀ {k}, k ≠ .log → x.logOp d op k = d k := fun hk => Files.modify_of_ne _ _ hk
  have hentry : ∀ k, (x.logOp d op k).entry = (d k).entry := by
    intro k
    by_cases hk : k = .log
    · subst hk
      rw [Index.logOp, Files.modify_self]
      rfl
    · rw [hrest hk]
  have hkeeps : Keeps d (x.logOp d op) := by
    rw [Keeps, hrest (by simp)]
    exact Keeps.refl d
  obtain ⟨δ, φ, τ, n, heq⟩ := x.applyWalOp_eq op
  rw [heq] at hdelta hflushing hinv ⊢
  exact
    { bounded := fun k => by
        by_cases hk : k = .log
        · subst hk
          rw [Index.logOp, Files.modify_self]
          exact h.bounded _
        · rw [hrest hk]
          exact h.bounded k
      tier := h.tier
      lSearch_lt := h.lSearch_lt
      base := h.base.keeps hkeeps
      runs := fun r hr => (h.runs r hr).keeps hkeeps
      runDirs := h.runDirs
      seqs := fun k seq hs => h.seqs k seq (by rwa [hentry] at hs)
      stored := by
        obtain ⟨g, hg, hids, hdim⟩ := h.stored
        refine ⟨g, { hg with graph := ?_, vectors := ?_ }, hids, hdim⟩
        · rw [hrest (by simp), hg.graph]
        · rw [hrest (by simp), hg.vectors]
      file := by rw [hentry]; exact h.file
      log := by rw [hentry]; exact h.log
      wal := hwal
      records := by
        intro o ho
        rcases List.mem_append.mp ho with ho | ho
        · exact h.records o ho
        · exact List.mem_singleton.mp ho ▸ hop
      delta := hdelta
      flushing := hflushing
      inv := hinv }

/-- Replaying a log over a base that nothing is on top of. -/
theorem FilesOk.replay (h : FilesOk d U x ops) (hruns : x.runs = []) (hdelta : x.delta = ∅)
    (hflushing : x.flushing = ∅) (hdead : x.tombstones = ∅) (hcount : x.liveCount = x.base.mainN) :
    IndexOk d U (x.replayWalOps ops) ops ∧
      (x.replayWalOps ops).state ops =
        (State.fresh x.base.map x.base.mainN).applyAll (ops.map DeltaWalOp.toOp) := by
  have hfresh : x.state [] = State.fresh x.base.map x.base.mainN := by
    simp only [Index.state, hruns, hdelta, hflushing, hdead, hcount]
    rfl
  have hstate := Index.state_replayWalOps h.aligned [] ops
  rw [hfresh, List.nil_append] at hstate
  have hinv : Lsm.Inv ((x.replayWalOps ops).state ops) := by
    rw [hstate]
    exact (Lsm.inv_fresh h.base.count).applyAll _
  have hvecs := vecsOk_replayWalOps h.records h.delta h.flushing
  refine ⟨⟨?_, hinv⟩, hstate⟩
  obtain ⟨δ, φ, τ, n, heq⟩ := x.replayWalOps_eq ops
  rw [heq] at hvecs ⊢
  exact { h with delta := hvecs.1, flushing := hvecs.2 }

end

/-! ### Opening -/

variable {g : Graph} {rows : List Vec} {tier : QuantKind} {format : DeltaWalFormat}

theorem openedIndex_eq (d : Dir) (p : Place) (g : Graph) (rows : List Vec) (tier : QuantKind)
    (format : DeltaWalFormat) (ops : List DeltaWalOp) :
    ∃ δ φ τ n, openedIndex d p g rows tier format ops =
      { freshIndex g (segmentAt d p g rows) tier ((d .log).target p) format with
        delta := δ, flushing := φ, tombstones := τ, liveCount := n
        ivf := loadIvf d p (segmentAt d p g rows) } := by
  obtain ⟨δ, φ, τ, n, heq⟩ := Index.replayWalOps_eq
    (freshIndex g (segmentAt d p g rows) tier ((d .log).target p) format) ops
  exact ⟨δ, φ, τ, n, by rw [openedIndex, heq]⟩

/-- Opening replays the log over the base. -/
theorem state_openedIndex (h : Stored d U .base g rows) :
    (openedIndex d .base g rows tier format ops).state ops =
      (State.fresh (segmentAt d .base g rows).map (segmentAt d .base g rows).mainN).applyAll
      (ops.map DeltaWalOp.toOp) := by
  have haligned : (freshIndex g (segmentAt d .base g rows) tier ((d .log).target .base) format).Aligned := by
    intro s hs
    rcases List.mem_cons.mp hs with rfl | hs
    · exact h.length
    · cases hs
  exact Index.state_replayWalOps haligned [] ops

theorem view_openedIndex (h : Stored d U .base g rows) :
    (openedIndex d .base g rows tier format ops).view =
      Lsm.replay (ops.map DeltaWalOp.toOp) (segmentAt d .base g rows).map := by
  rw [← Index.view_state _ ops, state_openedIndex h, Lsm.view_applyAll, Lsm.view_fresh]

section

variable [H : Hashes]

theorem indexOk_openedIndex (hb : ∀ k, (d k).Bounded) (h : Stored d U .base g rows)
    (htier : tier.isDisk = true) (hops : ∀ op ∈ ops, op.Ok U g.dim)
    (hlog : ((d .log).read .base).getD [] = walBytes format ops) :
    IndexOk (openedDir d .base) U (openedIndex d .base g rows tier format ops) ops := by
  have hkeeps : Keeps d (openedDir d .base) := by
    rw [Keeps, (openedDir_base_of_ne_log d (by simp)).2.1, (openedDir_base_of_ne_log d (by simp)).2.2]
    exact Keeps.refl d
  have hread : ∀ {k}, k ≠ .log → (openedDir d .base k).read .base = (d k).read .base := by
    intro k hk
    rw [Table.read, Table.read, (openedDir_base_of_ne_log d hk).1, (openedDir_base_of_ne_log d hk).2.1]
  have hstored : Stored (openedDir d .base) U .base g rows :=
    { h with
      graph := by rw [hread (by simp), h.graph]
      vectors := by rw [hread (by simp), h.vectors] }
  have hfiles : FilesOk (openedDir d .base) U
      (freshIndex g (segmentAt d .base g rows) tier ((d .log).target .base) format) ops :=
    { bounded := bounded_openedDir hb
      tier := htier
      lSearch_lt := h.wf.lSearch
      base := (h.segOk (hb _)).keeps hkeeps
      runs := fun r hr => absurd hr List.not_mem_nil
      runDirs := rfl
      seqs := fun k seq hs => absurd (entry_openedDir_run d k seq) hs
      stored := ⟨g, hstored, rfl, rfl⟩
      file := by rw [(openedDir_base_of_ne_log d (by simp)).1]; exact h.entry
      log := (openedDir_base_log d).1
      wal := (openedDir_base_log d).2.trans hlog
      records := hops
      delta := vecsOk_empty _ _
      flushing := vecsOk_empty _ _ }
  have hok := (hfiles.replay rfl rfl rfl rfl rfl).1
  -- the router is not part of the map
  exact { hok with inv := hok.inv }

/-- Whatever state an index is in, opening its directory again gives the same view. -/
theorem IndexOk.reopen (h : IndexOk d U x ops) : ∃ x',
    openIndex d .base x.tier = .ok (openedDir d .base, x') ∧ IndexOk (openedDir d .base) U x' ops ∧
      x'.view = x.view ∧ x'.dim = x.dim ∧ x'.tier = x.tier ∧ x'.runs = [] ∧
        (x'.state ops).staged = fun _ => none := by
  obtain ⟨g, hg, hids, hdim⟩ := h.stored
  have hlog : ((d .log).read .base).getD [] = walBytes x.walFormat ops := by
    rw [Table.read, h.log, Option.map_some, Option.getD_some, h.wal]
  have hops : ∀ op ∈ ops, op.Ok U g.dim := hdim ▸ h.records
  have hmap : (segmentAt d .base g x.base.quant).map = x.base.map := by
    funext id
    simp only [Segment.map, Segment.row, segmentAt, hids]
  refine ⟨openedIndex d .base g x.base.quant x.tier x.walFormat ops, ?_,
    indexOk_openedIndex h.bounded hg h.tier hops hlog, ?_, ?_, ?_, ?_, ?_⟩
  · exact openIndex_stored hg h.tier (fun op hop => (hops op hop).1) (torn_nil _ _)
      (by rw [List.append_nil]; exact hlog)
  · rw [view_openedIndex hg, hmap, ← Index.view_state x ops, ← h.inv.replay]
    rfl
  · obtain ⟨δ, φ, τ, n, heq⟩ := openedIndex_eq d .base g x.base.quant x.tier x.walFormat ops
    rw [heq, ← hdim]
    rfl
  · obtain ⟨δ, φ, τ, n, heq⟩ := openedIndex_eq d .base g x.base.quant x.tier x.walFormat ops
    rw [heq]
    rfl
  · obtain ⟨δ, φ, τ, n, heq⟩ := openedIndex_eq d .base g x.base.quant x.tier x.walFormat ops
    rw [heq]
    rfl
  · rw [state_openedIndex hg]
    exact Lsm.staged_applyAll rfl _

end

end Vector

end Skeg
