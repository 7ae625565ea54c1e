import Skeg.Vector.Equiv.Assoc
import Skeg.Vector.Equiv.Format
import Mathlib.Data.Set.Card

/-!
# Correctness of `openIndex`

`Stored d U p g rows` says that the directory `p` holds the base files of a graph and its rows;
`openIndex_stored` is what opening such a directory gives, whatever part of a last record a crash has
left at the end of the log.  Saving into a directory that has nothing yet and opening the result gives the
segment that was saved, and disturbs no other file (`saveAndOpen_spec`).

`U` is the set of ids in use.  Rows are numbered by a `u32`, so `U` has fewer than `2 ^ 32` members wherever
a segment is built.
-/

namespace Skeg

namespace Vector

variable {d d' : Dir} {U : Finset UInt64} {p : Place} {g : Graph} {rows : List Vec} {dim : Nat}
  {s : Segment}

/-! ### Segments -/

/-- A segment whose file has its rows. -/
structure SegOk (d : Dir) (U : Finset UInt64) (dim : Nat) (s : Segment) : Prop where
  file_lt : s.file < (d .vectors).next
  data : (d .vectors).data s.file = vectorsBin dim s.quant
  length : s.quant.length = s.ids.length
  dims : ∀ v ∈ s.quant, v.length = dim
  nodup : s.ids.Nodup
  within : ∀ id ∈ s.ids, id ∈ U
  nodes : s.nodes.length = s.ids.length

/-- No vectors file that is in use changes. -/
def Keeps (d d' : Dir) : Prop :=
  (d .vectors).next ≤ (d' .vectors).next ∧
    ∀ i < (d .vectors).next, (d' .vectors).data i = (d .vectors).data i

theorem Keeps.refl (d : Dir) : Keeps d d := ⟨Nat.le_refl _, fun _ _ => rfl⟩

theorem SegOk.keeps (h : SegOk d U dim s) (hk : Keeps d d') : SegOk d' U dim s :=
  { h with
    file_lt := Nat.lt_of_lt_of_le h.file_lt hk.1
    data := by rw [hk.2 _ h.file_lt, h.data] }

theorem length_lt_of_nodup {ids : List UInt64} (hU : U.card < 2 ^ 32) (hnd : ids.Nodup)
    (hin : ∀ id ∈ ids, id ∈ U) : ids.length < 2 ^ 32 := by
  rw [← List.toFinset_card_of_nodup hnd]
  refine Nat.lt_of_le_of_lt (Finset.card_le_card fun id hid => ?_) hU
  exact hin id (List.mem_toFinset.mp hid)

theorem SegOk.contains (h : SegOk d U dim s) (id : UInt64) : (s.map id).isSome = s.contains id :=
  Segment.map_isSome h.length id

theorem SegOk.map_eq_none (h : SegOk d U dim s) (id : UInt64) : s.map id = none ↔ id ∉ s.ids := by
  rw [← Segment.contains_iff, ← h.contains]
  cases s.map id <;> simp

/-- A row that an id has is read from the file. -/
theorem SegOk.readRow (h : SegOk d U dim s) {row : Nat} {v : Vec} (hv : s.quant[row]? = some v) :
    readVector ((d .vectors).data s.file) dim row = .ok v := by
  rw [h.data]
  exact readVector_vectorsBin h.dims hv

theorem SegOk.count (h : SegOk d U dim s) : {id | s.map id ≠ none}.encard = s.mainN := by
  have hset : {id | s.map id ≠ none} = (s.ids.toFinset : Set UInt64) := by
    ext id
    simp [h.map_eq_none]
  rw [hset, Set.encard_coe_eq_coe_finsetCard, List.toFinset_card_of_nodup h.nodup, Segment.mainN]

/-! ### Directories that hold a segment -/

/-- A graph and rows that belong together. -/
structure Content (U : Finset UInt64) (g : Graph) (rows : List Vec) : Prop where
  wf : g.Wf
  dim_pos : 0 < g.dim
  length : rows.length = g.ids.length
  dims : ∀ v ∈ rows, v.length = g.dim
  nodup : g.ids.Nodup
  within : ∀ id ∈ g.ids, id ∈ U

/-- The directory `p` holds a graph and its rows. -/
structure Stored (d : Dir) (U : Finset UInt64) (p : Place) (g : Graph) (rows : List Vec) : Prop
    extends Content U g rows where
  graph : (d .graph).read p = some (graphVmn g)
  vectors : (d .vectors).read p = some (vectorsBin g.dim rows)

/-- The segment of a directory. -/
def segmentAt (d : Dir) (p : Place) (g : Graph) (rows : List Vec) : Segment :=
  ⟨g.ids, g.nodes, g.medoid, rows, (d .vectors).target p⟩

theorem Stored.entry (h : Stored d U p g rows) :
    (d .vectors).entry p = some ((d .vectors).target p) := by
  obtain ⟨i, hi, _⟩ := Option.map_eq_some_iff.mp h.vectors
  rw [Table.target, hi]
  rfl

theorem Stored.data (h : Stored d U p g rows) :
    (d .vectors).data ((d .vectors).target p) = vectorsBin g.dim rows := by
  have := h.vectors
  rw [Table.read, h.entry] at this
  exact Option.some.inj this

theorem Stored.segOk (h : Stored d U p g rows) (hb : (d .vectors).Bounded) :
    SegOk d U g.dim (segmentAt d p g rows) where
  file_lt := hb p _ h.entry
  data := h.data
  length := h.length
  dims := h.dims
  nodup := h.nodup
  within := h.within
  nodes := h.wf.nodes

theorem openSegment_stored (h : Stored d U p g rows) :
    openSegment d p = .ok ({ g with r := 0 }, segmentAt d p g rows) := by
  have hread : readVectors (vectorsBin g.dim rows) g.ids.length g.dim = .ok rows := by
    rw [← h.length]
    exact readVectors_vectorsBin h.dims (h.length ▸ h.wf.ids) h.wf.dim h.dim_pos
  simp only [openSegment, h.graph, readGraph_graphVmn h.wf, h.entry, h.data, hread, segmentAt]

section

variable [H : Hashes] {format : DeltaWalFormat} {ops : List DeltaWalOp} {torn : Bytes}
  {tier : QuantKind}

/-- An index with nothing but a base. -/
def freshIndex (g : Graph) (base : Segment) (tier : QuantKind) (log : Nat) (format : DeltaWalFormat) :
    Index where
  dim := g.dim
  lSearch := g.lSearch
  base := base
  runs := []
  runDirs := []
  tier := tier
  runSeq := 0
  delta := ∅
  flushing := ∅
  autoFlush := true
  tombstones := ∅
  liveCount := base.mainN
  log := log
  walFormat := format
  ivf := none

/-- The index that opening `p` gives. -/
def openedIndex (d : Dir) (p : Place) (g : Graph) (rows : List Vec) (tier : QuantKind)
    (format : DeltaWalFormat) (ops : List DeltaWalOp) : Index :=
  { (freshIndex g (segmentAt d p g rows) tier ((d .log).target p) format).replayWalOps ops with
    ivf := loadIvf d p (segmentAt d p g rows) }

/-- The files after opening `p`. -/
def openedDir (d : Dir) (p : Place) : Dir :=
  if p = .base then cleanStaleRuns (d.modify .log fun t => (t.openAppend p).1)
  else d.modify .log fun t => (t.openAppend p).1

theorem openIndex_stored (h : Stored d U p g rows) (htier : tier.isDisk = true)
    (hfits : ∀ op ∈ ops, op.Fits g.dim) (htorn : Torn format g.dim torn)
    (hlog : ((d .log).read p).getD [] = walBytes format ops ++ torn) :
    openIndex d p tier = .ok (openedDir d p, openedIndex d p g rows tier format ops) := by
  have hdecode := decodeWal_walBytes_append h.wf.dim hfits htorn
  have hopen : ((d .log).openAppend p).2 = (d .log).target p := by
    cases he : (d .log).entry p with
    | none => rw [Table.openAppend_of_none he, Table.target, he]; rfl
    | some i => rw [Table.openAppend_of_some he, Table.target, he]; rfl
  simp only [openIndex, openSegment_stored h, htier, hlog, hdecode, hopen]
  rfl

end

/-! ### What opening does to the files -/

theorem entry_cleanStaleRuns (d : Dir) (k : FileKind) {q : Place} (h : ∀ seq, q ≠ .run seq) :
    (cleanStaleRuns d k).entry q = (d k).entry q := by
  cases q with
  | run seq => exact absurd rfl (h seq)
  | _ => rfl

theorem openedDir_of_ne_base (d : Dir) {p : Place} (hp : p ≠ .base) {k : FileKind} (hk : k ≠ .log) :
    openedDir d p k = d k := by
  rw [openedDir, if_neg hp, Files.modify_of_ne _ _ hk]

theorem openedDir_log_of_ne_base (d : Dir) {p : Place} (hp : p ≠ .base) :
    openedDir d p .log = ((d .log).openAppend p).1 := by
  rw [openedDir, if_neg hp, Files.modify_self]

theorem entry_openedDir_run (d : Dir) (k : FileKind) (seq : Nat) :
    (openedDir d .base k).entry (.run seq) = none := by
  rw [openedDir, if_pos rfl]
  rfl

/-- Opening an index writes to nothing but the log. -/
theorem openedDir_base_of_ne_log (d : Dir) {k : FileKind} (hk : k ≠ .log) :
    (openedDir d .base k).entry .base = (d k).entry .base ∧
      (openedDir d .base k).data = (d k).data ∧ (openedDir d .base k).next = (d k).next := by
  rw [openedDir, if_pos rfl]
  simp [cleanStaleRuns, hk]

theorem openedDir_base_log (d : Dir) :
    (openedDir d .base .log).entry .base = some ((d .log).target .base) ∧
      (openedDir d .base .log).data ((d .log).target .base) = ((d .log).read .base).getD [] := by
  rw [openedDir, if_pos rfl]
  cases hi : (d .log).entry .base with
  | none => simp [cleanStaleRuns, Table.openAppend_of_none hi, Table.put_eq, Table.read, hi]
  | some i => simp [cleanStaleRuns, Table.openAppend_of_some hi, Table.target, Table.read, hi]

theorem bounded_openedDir (hb : ∀ k, (d k).Bounded) (k : FileKind) : (openedDir d .base k).Bounded := by
  have hclean : ∀ {e : Dir}, (e k).Bounded → (cleanStaleRuns e k).Bounded := by
    intro e he q i hq
    cases q with
    | run seq => cases hq
    | _ => exact he _ i hq
  rw [openedDir, if_pos rfl]
  refine hclean ?_
  by_cases hk : k = .log
  · subst hk
    rw [Files.modify_self]
    cases hi : (d .log).entry .base with
    | none => rw [Table.openAppend_of_none hi]; exact (hb _).put _ _
    | some i => rw [Table.openAppend_of_some hi]; exact hb _
  · rw [Files.modify_of_ne _ _ hk]
    exact hb k

theorem run_removeTree (d : Dir) (p : Place) (k : FileKind) :
    d.run (removeTree p) k = (d k).remove p := by
  cases k <;> simp [removeTree, Files.apply, Files.modify]

theorem run_saveOps (d : Dir) (p : Place) (g : Graph) (rows : List Vec) (k : FileKind) :
    d.run (saveOps p g rows) k = match k with
      | .graph => (d .graph).put p (graphVmn g)
      | .vectors => (d .vectors).put p (vectorsBin g.dim rows)
      | k => d k := by
  cases k <;> simp [saveOps, Files.apply, Files.modify, Table.put]

/-! ### Saving into a new directory -/

/-- `d'` is `d` with a segment saved in the directory `p`. -/
structure Built (d d' : Dir) (U : Finset UInt64) (p : Place) (g : Graph) (rows : List Vec) : Prop where
  bounded : ∀ k, (d' k).Bounded
  next : ∀ k, (d k).next ≤ (d' k).next
  data : ∀ k, ∀ i < (d k).next, (d' k).data i = (d k).data i
  entry : ∀ k, ∀ q ≠ p, (d' k).entry q = (d k).entry q
  stored : Stored d' U p g rows
  /-- The files are new. -/
  graph : (d' .graph).entry p = some (d .graph).next
  vectors : (d' .vectors).entry p = some (d .vectors).next

theorem Built.segOk (h : Built d d' U p g rows) : SegOk d' U g.dim (segmentAt d' p g rows) :=
  h.stored.segOk (h.bounded _)

section

variable [H : Hashes] {tier : QuantKind}

theorem saveAndOpen_spec (hb : ∀ k, (d k).Bounded) (hnew : ∀ k, (d k).entry p = none) (hp : p ≠ .base)
    (htier : tier.isDisk = true) (h : Content U g rows) :
    ∃ d', saveAndOpen d p tier g rows = .ok (d', segmentAt d' p g rows) ∧ Built d d' U p g rows := by
  set e := d.run (saveOps p g rows) with he
  have hgraph : e .graph = (d .graph).put p (graphVmn g) := run_saveOps ..
  have hvec : e .vectors = (d .vectors).put p (vectorsBin g.dim rows) := run_saveOps ..
  have hlog : e .log = d .log := run_saveOps ..
  have hivf : e .ivf = d .ivf := run_saveOps ..
  have hstored : Stored e U p g rows :=
    { h with
      graph := by rw [hgraph, Table.read_put]
      vectors := by rw [hvec, Table.read_put] }
  have hread : ((e .log).read p).getD [] = walBytes .legacyV1 [] ++ [] := by
    rw [hlog, Table.read, hnew]
    rfl
  have hlog' : openedDir e p .log = (d .log).put p [] := by
    rw [openedDir_log_of_ne_base e hp, hlog, Table.openAppend_of_none (hnew _)]
  have hrest : ∀ {k}, k ≠ .log → openedDir e p k = e k := fun hk => openedDir_of_ne_base e hp hk
  -- every table is the old one, or has one new file
  have hcases : ∀ k, openedDir e p k = d k ∨ ∃ b, openedDir e p k = (d k).put p b := by
    intro k
    cases k with
    | graph => exact .inr ⟨_, (hrest (by simp)).trans hgraph⟩
    | vectors => exact .inr ⟨_, (hrest (by simp)).trans hvec⟩
    | log => exact .inr ⟨_, hlog'⟩
    | ivf => exact .inl ((hrest (by simp)).trans hivf)
  refine ⟨openedDir e p, ?_, ?_⟩
  · rw [saveAndOpen, openIndex_stored hstored htier (by simp) (torn_nil _ _) hread]
    simp only [openedIndex, Index.replayWalOps, List.foldl_nil, freshIndex, segmentAt,
      hrest (k := .vectors) (by simp)]
  · have hentry : ∀ t : Table Place, t.entry p = none → ∀ b, (t.put p b).entry p = some t.next := by
      intro t ht b
      simp [Table.put_eq, Table.target, ht]
    refine ⟨fun k => ?_, fun k => ?_, fun k i hi => ?_, fun k q hq => ?_, ?_,
      by rw [hrest (by simp), hgraph, hentry _ (hnew _)],
      by rw [hrest (by simp), hvec, hentry _ (hnew _)]⟩
    · rcases hcases k with hk | ⟨b, hk⟩ <;> rw [hk]
      · exact hb k
      · exact (hb k).put p b
    · rcases hcases k with hk | ⟨b, hk⟩ <;> rw [hk]
      exact Table.next_le_put ..
    · rcases hcases k with hk | ⟨b, hk⟩ <;> rw [hk]
      exact Table.data_put_of_lt (hnew k) b hi
    · rcases hcases k with hk | ⟨b, hk⟩ <;> rw [hk]
      exact Table.entry_put_of_ne _ b hq
    · exact { h with
        graph := by rw [hrest (by simp)]; exact hstored.graph
        vectors := by rw [hrest (by simp)]; exact hstored.vectors }

end

end Vector

end Skeg
