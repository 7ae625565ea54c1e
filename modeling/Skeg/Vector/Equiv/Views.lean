import Skeg.Core.Hashes
import Skeg.Vector.Equiv.Background
import Skeg.Vector.Exact

/-!
# The map of a disk vector index

From any directory that holds an index, and through any run of calm actions, the layered view is the map of
the inserts and deletes that were acknowledged (`SysInv.run`).  With background jobs racing against writes
this is `view_background`, for every step and for the directory opened at that point.

A point read looks at the layers in another order: the base before the runs, and the runs oldest first.  It
returns the map's value exactly when the oldest and the newest stored copy of an id are the same
(`IndexOk.get_eq_iff`, `get_eq_lastInsert`).
-/

namespace Skeg

namespace Vector

section

variable [H : Hashes] {d : Dir} {U : Finset UInt64} {x : Index} {ops : List DeltaWalOp}
  {m : UInt64 → Option Vec} {tier : QuantKind}

/-! ### Starting -/

/-- The directory holds an index with the map `m`: base files, and a log of whole records over them. -/
def Holds (d : Dir) (U : Finset UInt64) (m : UInt64 → Option Vec) : Prop :=
  (∀ k, (d k).Bounded) ∧ ∃ g rows format ops, Stored d U .base g rows ∧ (∀ op ∈ ops, op.Ok U g.dim) ∧
    ((d .log).read .base).getD [] = walBytes format ops ∧
      m = Lsm.replay (ops.map DeltaWalOp.toOp) (assoc (g.ids.zip rows))

/-- The same, with what a crash has left of one more record behind the log. -/
def HoldsTorn (d : Dir) (U : Finset UInt64) (m : UInt64 → Option Vec) (torn : Bytes) : Prop :=
  (∀ k, (d k).Bounded) ∧ ∃ g rows format ops, Stored d U .base g rows ∧ (∀ op ∈ ops, op.Ok U g.dim) ∧
    Torn format g.dim torn ∧ ((d .log).read .base).getD [] = walBytes format ops ++ torn ∧
      m = Lsm.replay (ops.map DeltaWalOp.toOp) (assoc (g.ids.zip rows))

theorem HoldsTorn.holds (h : HoldsTorn d U m []) : Holds d U m := by
  obtain ⟨hb, g, rows, format, ops, hs, hops, -, hlog, hm⟩ := h
  exact ⟨hb, g, rows, format, ops, hs, hops, hlog.trans (List.append_nil _), hm⟩

omit H in
/-- The map of the base under a log. -/
theorem view_openedIndex_assoc {g : Graph} {rows : List Vec} (hs : Stored d U .base g rows)
    (format : DeltaWalFormat) (ops : List DeltaWalOp) :
    (openedIndex d .base g rows tier format ops).view =
      Lsm.replay (ops.map DeltaWalOp.toOp) (assoc (g.ids.zip rows)) := by
  rw [view_openedIndex hs]
  congr 1
  funext id
  exact Segment.map_eq_assoc hs.nodup hs.length id

/-- Opening ignores the torn record, and does not remove it. -/
theorem HoldsTorn.reopen {torn : Bytes} (h : HoldsTorn d U m torn) (htier : tier.isDisk = true) :
    ∃ x, openIndex d .base tier = .ok (openedDir d .base, x) ∧ x.view = m ∧
      HoldsTorn (openedDir d .base) U m torn := by
  obtain ⟨hb, g, rows, format, ops, hs, hops, htorn, hlog, rfl⟩ := h
  refine ⟨_, openIndex_stored hs htier (fun op hop => (hops op hop).1) htorn hlog,
    view_openedIndex_assoc hs format ops, bounded_openedDir hb, g, rows, format, ops,
    { hs with graph := ?_, vectors := ?_ }, hops, htorn, ?_, rfl⟩
  · rw [Table.read, (openedDir_base_of_ne_log d (by simp)).1, (openedDir_base_of_ne_log d (by simp)).2.1]
    exact hs.graph
  · rw [Table.read, (openedDir_base_of_ne_log d (by simp)).1, (openedDir_base_of_ne_log d (by simp)).2.1]
    exact hs.vectors
  · rw [Table.read, (openedDir_base_log d).1, Option.map_some, Option.getD_some,
      (openedDir_base_log d).2, hlog]

theorem sysInv_opened (hd : Holds d U m) (htier : tier.isDisk = true) : ∃ s ops,
    Sys.opened d tier = some s ∧ SysInv U ops s ∧ s.index.view = m ∧ s.index.tier = tier := by
  obtain ⟨hb, g, rows, format, ops, hs, hops, hlog, rfl⟩ := hd
  have hopen : openIndex d .base tier = _ := openIndex_stored hs htier (fun op hop => (hops op hop).1)
    (torn_nil format _) (by rw [List.append_nil]; exact hlog)
  refine ⟨⟨openedDir d .base, openedIndex d .base g rows tier format ops, none, none⟩, ops, ?_,
    ⟨indexOk_openedIndex hb hs htier hops hlog, ?_⟩, ?_, ?_⟩
  · rw [Sys.opened, hopen]
    rfl
  · change ((openedIndex d .base g rows tier format ops).state ops).staged = _
    rw [state_openedIndex hs]
    exact Lsm.staged_applyAll rfl _
  · exact view_openedIndex_assoc hs format ops
  · obtain ⟨δ, φ, τ, n, heq⟩ := openedIndex_eq d .base g rows tier format ops
    rw [heq]
    rfl

/-- The files of an index that was just created. -/
def Dir.created (dim lSearch : Nat) : Dir :=
  Dir.empty.run (saveOps .base ⟨dim, 0, maxR, lSearch, [], []⟩ [] ++ writeWalOps [])

theorem read_created (dim lSearch : Nat) (k : FileKind) :
    Dir.created dim lSearch k = match k with
      | .graph => (Dir.empty .graph).put .base (graphVmn ⟨dim, 0, maxR, lSearch, [], []⟩)
      | .vectors => (Dir.empty .vectors).put .base (vectorsBin dim [])
      | .log => (Dir.empty .log).put .base (framedWal [])
      | .ivf => Dir.empty .ivf := by
  rw [Dir.created, Files.run_append, run_writeWalOps]
  cases k <;> simp [run_saveOps]

/-- A crash during the first append to a new index. -/
theorem holdsTorn_created (dim lSearch : Nat) (hpos : 0 < dim) (hdim : dim < 2 ^ 32)
    (hl : lSearch < 2 ^ 32) (U : Finset UInt64) {torn : Bytes} (htorn : Torn .framedV2 dim torn) :
    HoldsTorn ((Dir.created dim lSearch).run [.write .log .base torn]) U (fun _ => none) torn := by
  have htable : ∀ k, (Dir.created dim lSearch).run [.write .log .base torn] k =
      if k = .log then (Dir.created dim lSearch .log).write .base torn else Dir.created dim lSearch k := by
    intro k
    cases k <;> simp [Files.apply, Files.modify]
  have hentry : (Dir.created dim lSearch .log).entry .base = some 0 := by
    rw [read_created]
    simp [Table.put_eq, Table.target, Dir.empty]
  have hempty : ∀ k, (Dir.empty k).Bounded := fun k p i hi => by cases hi
  have hb : ∀ k, (Dir.created dim lSearch k).Bounded := by
    intro k
    rw [read_created]
    cases k with
    | ivf => exact hempty _
    | _ => exact (hempty _).put _ _
  refine ⟨fun k => ?_, ⟨dim, 0, maxR, lSearch, [], []⟩, [], .framedV2, [], ⟨⟨⟨rfl, by simp, hdim, by simp,
    hl⟩, hpos, rfl, by simp, .nil, by simp⟩, ?_, ?_⟩, by simp, htorn, ?_, rfl⟩
  · rw [htable]
    split
    · rw [Table.write_of_entry hentry]
      exact hb .log
    · exact hb k
  · rw [htable, if_neg (by simp), read_created]
    exact Table.read_put ..
  · rw [htable, if_neg (by simp), read_created]
    exact Table.read_put ..
  · have hdata : (Dir.created dim lSearch .log).data 0 = framedWal [] := by
      rw [read_created]
      simp [Table.put_eq, Table.target, Dir.empty]
    rw [htable, if_pos rfl, Table.write_of_entry hentry, Table.read]
    simp only [Table.append, hentry, Option.map_some, Option.getD_some, Function.update_self, hdata]
    rfl

theorem holds_created {dim lSearch : Nat} (hpos : 0 < dim) (hdim : dim < 2 ^ 32) (hl : lSearch < 2 ^ 32)
    (U : Finset UInt64) : Holds (Dir.created dim lSearch) U fun _ => none := by
  have htorn := holdsTorn_created dim lSearch hpos hdim hl U (torn_nil .framedV2 dim)
  have hsame : (Dir.created dim lSearch).run [.write .log .base []] = Dir.created dim lSearch := by
    have hentry : (Dir.created dim lSearch .log).entry .base = some 0 := by
      rw [read_created]
      simp [Table.put_eq, Table.target, Dir.empty]
    have hwrite : (Dir.created dim lSearch .log).write .base [] = Dir.created dim lSearch .log := by
      rw [Table.write_of_entry hentry, Table.append, List.append_nil, Function.update_eq_self]
    simp only [Files.run_cons, Files.run_nil, Files.apply, Files.modify, hwrite, Function.update_eq_self]
  exact (hsame ▸ htorn).holds

/-! ### Runs -/

variable [N : Numerics]

theorem SysInv.step {s s' : Sys} (h : SysInv U ops s) (hU : U.card < 2 ^ 32) {a : Act} {ev : List Event}
    (ha : s.Calm U a ∨ a.Router) (hstep : s.step a = some (s', ev)) : ∃ ops', SysInv U ops' s' ∧
      s'.index.view = mapOf s.index.view ev ∧ s'.index.dim = s.index.dim ∧ s'.index.tier = s.index.tier := by
  rcases ha with ha | ha
  · have hdimOk : s.DimOk a := by
      cases a with
      | insert id v =>
        by_contra hv
        have hv : v.length ≠ s.index.dim := hv
        simp [Sys.step, Sys.exec, Index.insert, hv, Except.map, Except.toOption] at hstep
      | _ => trivial
    obtain ⟨t, ev', ops', hexec, hinv, hview, hdim, htier⟩ := h.exec hU ha hdimOk
    rw [Sys.step, hexec] at hstep
    obtain ⟨rfl, rfl⟩ : t = s' ∧ ev' = ev := by simpa [Except.toOption] using hstep
    exact ⟨ops', hinv, hview, hdim, htier⟩
  · obtain ⟨hinv, rfl, hi⟩ := h.router ha hstep
    exact ⟨ops, hinv, by rw [hi]; rfl, by rw [hi], by rw [hi]⟩

/-- Through calm actions, and whatever the router does, the view is the map of what was acknowledged. -/
theorem SysInv.run {P : List Event → Sys → Act → Prop} (hP : ∀ h s a, P h s a → s.Calm U a ∨ a.Router)
    (hU : U.card < 2 ^ 32) {s₀ s : Sys} (h₀ : SysInv U ops s₀) {hist : List Event}
    (hrun : Transition.Run Sys.step P [] s₀ hist s) : ∃ ops', SysInv U ops' s ∧
      s.index.view = mapOf s₀.index.view hist ∧ s.index.dim = s₀.index.dim ∧
        s.index.tier = s₀.index.tier := by
  refine hrun.invariant (fun hist s => ∃ ops', SysInv U ops' s ∧
    s.index.view = mapOf s₀.index.view hist ∧ s.index.dim = s₀.index.dim ∧
      s.index.tier = s₀.index.tier) ⟨ops, h₀, rfl, rfl, rfl⟩ ?_
  rintro hist s a s' ev ⟨ops', hinv, hview, hdim, htier⟩ ha hstep
  obtain ⟨ops'', hinv', hview', hdim', htier'⟩ := hinv.step hU (hP _ _ _ ha) hstep
  exact ⟨ops'', hinv', by rw [hview', hview, mapOf_append], hdim'.trans hdim, htier'.trans htier⟩

/-- An action of the background maintenance, or one that races with it. -/
def Act.Background (U : Finset UInt64) : Act → Prop
  | .insert id _ => id ∈ U
  | .delete _ | .begin _ | .build | .finish => True
  | _ => False

instance (U : Finset UInt64) (a : Act) : Decidable (a.Background U) :=
  match a with
  | .insert id _ => inferInstanceAs (Decidable (id ∈ U))
  | .delete _ | .begin _ | .build | .finish => isTrue trivial
  | .flush | .consolidate | .whole _ | .ivfBegin .. | .ivfBuild | .ivfFinish | .reopen | .setAutoFlush _ => isFalse id

/-- The server turns `auto_flush` off. -/
def Sys.offThread (s : Sys) : Sys := { s with index := { s.index with autoFlush := false } }

omit H N in
theorem calm_of_background {s : Sys} {a : Act} (ha : a.Background U ∧ s.index.autoFlush = false) :
    s.Calm U a := by
  obtain ⟨ha, hauto⟩ := ha
  cases a with
  | insert id v => exact ⟨ha, by simp [hauto]⟩
  | delete id => trivial
  | begin k => trivial
  | build => trivial
  | finish => trivial
  | _ => exact ha.elim

/-- Background maintenance keeps the layered view: it is the map of the inserts and deletes so far, `len`
counts it, the directory opened at that point gives it, and no step fails. -/
theorem view_background (hU : U.card < 2 ^ 32) (hd : Holds d U m) (htier : tier.isDisk = true)
    {s₀ s : Sys} {hist : List Event} (hopen : Sys.opened d tier = some s₀)
    (hrun : Transition.Run Sys.step (fun _ s a => a.Background U ∧ s.index.autoFlush = false) []
      s₀.offThread hist s) :
    s.index.view = mapOf m hist ∧ {id | s.index.view id ≠ none}.encard = s.index.len ∧
      (∃ d' x', openIndex s.dir .base tier = .ok (d', x') ∧ x'.view = mapOf m hist) ∧
        ∀ a : Act, a.Background U → s.index.autoFlush = false → s.DimOk a →
          ∃ s' ev, s.exec a = .ok (s', ev) := by
  obtain ⟨t, ops, ht, hinv, hview, htier'⟩ := sysInv_opened hd htier
  obtain rfl : t = s₀ := Option.some.inj (ht.symm.trans hopen)
  have hinv₀ : SysInv U ops t.offThread := ⟨{ hinv.index with inv := hinv.index.inv }, hinv.job⟩
  obtain ⟨ops', hinv', hview', -, htier''⟩ :=
    hinv₀.run (P := fun _ s a => a.Background U ∧ s.index.autoFlush = false)
      (fun _ _ _ ha => .inl (calm_of_background ha)) hU hrun
  have hview' : s.index.view = mapOf m hist := hview'.trans (congrArg (mapOf · hist) hview)
  have htier'' : s.index.tier = tier := htier''.trans htier'
  obtain ⟨x', hreopen, -, hx', -⟩ := hinv'.index.reopen
  refine ⟨hview', hinv'.index.len, ⟨_, x', htier'' ▸ hreopen, hx'.trans hview'⟩, ?_⟩
  intro a ha hauto hdim
  obtain ⟨s', ev, -, hexec, -⟩ := hinv'.exec hU (calm_of_background ⟨ha, hauto⟩) hdim
  exact ⟨s', ev, hexec⟩

/-- A fixed list of actions on an index that was just opened. -/
theorem exists_run_opened (d : Dir) (tier : QuantKind) {P : List Event → Sys → Act → Prop}
    [∀ h s a, Decidable (P h s a)]
    (Q : List Event → Sys → Prop) [∀ h s, Decidable (Q h s)] (start : Sys → Sys) (as : List Act)
    (h : ((Sys.opened d tier).bind fun s => Transition.exec Sys.step P [] (start s) as).any
      (fun r => Q r.1 r.2) = true) :
    ∃ s₀ hist s, Sys.opened d tier = some s₀ ∧ Transition.Run Sys.step P [] (start s₀) hist s ∧
      Q hist s :=
  Transition.exists_run_of_bind Q start as h

end

section

attribute [local instance] linkedHashes exactNumerics

/-- A flush and a consolidate, each with writes between its begin and its finish. -/
theorem view_background_racing : ∃ s₀ hist s, Sys.opened (Dir.created 1 64) .int8 = some s₀ ∧
    Transition.Run Sys.step (fun _ s a => a.Background {0, 1} ∧ s.index.autoFlush = false) []
      s₀.offThread hist s ∧
    hist = [.inserted 0 [0x3f800000], .inserted 0 [0xc0000000], .deleted 1, .inserted 1 [0x3f800000],
      .deleted 0] ∧
    s.index.view = mapOf (fun _ => none) hist ∧ {id | s.index.view id ≠ none}.encard = s.index.len ∧
      (∃ d' x', openIndex s.dir .base .int8 = .ok (d', x') ∧ x'.view = mapOf (fun _ => none) hist) ∧
        ∀ a : Act, a.Background {0, 1} → s.index.autoFlush = false → s.DimOk a →
          ∃ s' ev, s.exec a = .ok (s', ev) := by
  obtain ⟨s₀, hist, s, hopen, hrun, hhist⟩ := exists_run_opened
    (Dir.created 1 64) .int8
    (fun hist _ => hist = [.inserted 0 [0x3f800000], .inserted 0 [0xc0000000], .deleted 1,
      .inserted 1 [0x3f800000], .deleted 0]) Sys.offThread
    [.insert 0 [0x3f800000], .begin .flush, .insert 0 [0xc0000000], .build, .delete 1, .finish,
      .begin .consolidate, .insert 1 [0x3f800000], .build, .delete 0, .finish]
    (show (Option.bind _ fun s => Transition.exec Sys.step
      (fun _ s a => a.Background {0, 1} ∧ s.index.autoFlush = false) [] (Sys.offThread s) _).any _ =
        true by decide +kernel)
  exact ⟨s₀, hist, s, hopen, hrun, hhist, view_background (by decide)
    (holds_created (by decide) (by decide) (by decide) _) rfl hopen hrun⟩

end

section

variable [H : Hashes] {d : Dir} {U : Finset UInt64} {x : Index} {ops : List DeltaWalOp}
  {m : UInt64 → Option Vec} {tier : QuantKind}

/-! ### Point reads -/

/-- The stored copies of an id, oldest first. -/
def Index.copies (x : Index) (id : UInt64) : List Vec := x.segs.filterMap (Segment.map · id)

/-- Where an id is served from a segment, the oldest and the newest stored copy are the same. -/
def Index.Coherent (x : Index) (id : UInt64) : Prop :=
  id ∉ x.tombstones → x.delta.lookup id = none → x.flushing.lookup id = none →
    (x.copies id).head? = (x.copies id).getLast?

omit H in
theorem getFrom_eq {dim : Nat} {segs : List Segment} (h : ∀ s ∈ segs, SegOk d U dim s) (id : UInt64) :
    Index.getFrom d dim id segs = .ok (segs.findSome? (Segment.map · id)) := by
  induction segs with
  | nil => rfl
  | cons s segs ih =>
    have hs := h s (by simp)
    rw [Index.getFrom, List.findSome?_cons]
    cases hrow : s.row id with
    | none =>
      rw [Segment.map, hrow]
      exact ih fun t ht => h t (by simp [ht])
    | some row =>
      have hlt : row < s.quant.length :=
        hs.length ▸ (List.getElem?_eq_some_iff.mp ((Segment.row_eq_some hs.nodup).mp hrow)).1
      have hread := hs.readRow (List.getElem?_eq_getElem hlt)
      simp only [readRow, hread, Segment.map, hrow, Option.bind_some, List.getElem?_eq_getElem hlt]
      rfl

omit H in
theorem view_eq_newest (x : Index) (id : UInt64) : x.view id =
    if id ∈ x.tombstones then none
    else (x.delta.lookup id).or ((x.flushing.lookup id).or (x.copies id).getLast?) := by
  rw [Index.view, Index.copies, List.getLast?_filterMap, Index.segs, List.reverse_cons,
    List.findSome?_append]
  have hbase : [x.base].findSome? (Segment.map · id) = x.base.map id := by
    cases hb : x.base.map id <;> simp [hb]
  rw [hbase]
  rfl

omit H in
theorem get_of_segOk (h : ∀ s ∈ x.segs, SegOk d U x.dim s) (id : UInt64) : x.get d id =
    .ok (if id ∈ x.tombstones then none
      else (x.delta.lookup id).or ((x.flushing.lookup id).or (x.copies id).head?)) := by
  rw [Index.get]
  split
  · rfl
  · cases x.delta.lookup id with
    | some v => rfl
    | none =>
      cases x.flushing.lookup id with
      | some v => rfl
      | none =>
        rw [Index.copies, List.head?_filterMap]
        exact getFrom_eq h id

/-- Exactly where the stored copies are coherent does a point read return the newest. -/
theorem IndexOk.get_eq_iff (h : IndexOk d U x ops) (id : UInt64) :
    x.get d id = .ok (x.view id) ↔ x.Coherent id := by
  rw [get_of_segOk (fun s hs => h.segOk hs), view_eq_newest, Index.Coherent, Except.ok.injEq]
  by_cases hid : id ∈ x.tombstones
  · simp [hid]
  · cases hd : x.delta.lookup id with
    | some v => simp
    | none =>
      cases hf : x.flushing.lookup id with
      | some v => simp
      | none => simp [hid]

omit H in
theorem coherent_of_runs (h : x.runs = []) (id : UInt64) : x.Coherent id := by
  intro _ _ _
  rw [Index.copies, Index.segs, h]
  simp only [List.filterMap_cons, List.filterMap_nil]
  split <;> rfl

theorem IndexOk.get_of_coherent (h : IndexOk d U x ops) (hcoh : ∀ id, x.Coherent id) (id : UInt64) :
    x.get d id = .ok (x.view id) := (h.get_eq_iff id).mpr (hcoh id)

/-! ### Live ids -/

theorem IndexOk.mem_liveIds (h : IndexOk d U x ops) (id : UInt64) :
    id ∈ x.liveIds ↔ x.view id ≠ none := by
  have hruns : runsMap x.runs id ≠ none ↔ ∃ r ∈ x.runs, id ∈ r.ids := by
    rw [ne_eq, runsMap_eq_none]
    push Not
    refine exists_congr fun r => and_congr_right fun hr => ?_
    rw [ne_eq, (h.runs r hr).map_eq_none, not_not]
  have hkeys : ∀ m : VecMap, id ∈ m.keys ↔ m.lookup id ≠ none := by
    intro m
    rw [← AList.mem_keys, ← AList.lookup_isSome, Option.isSome_iff_ne_none]
  rw [Index.liveIds, mem_dedupAdjacent, List.mem_insertionSort, List.mem_filter, Index.view]
  simp only [List.mem_append, List.mem_flatMap, hkeys, decide_eq_true_eq]
  by_cases hid : id ∈ x.tombstones
  · simp [hid]
  · rw [if_neg hid, ← hruns]
    simp only [ne_eq, Option.or_eq_none_iff, h.base.map_eq_none]
    tauto

/-! ### One after the other -/

/-- An operation starts when the one before it is complete. -/
def Sys.InTurn (U : Finset UInt64) (s : Sys) : Act → Prop
  | .insert id _ => id ∈ U ∧ s.job = none
  | .delete _ | .flush | .consolidate | .begin _ | .reopen | .setAutoFlush _ => s.job = none
  | .build | .finish => True
  | _ => False

instance (o : Option Job) : Decidable (o = none) := decidable_of_iff _ Option.isNone_iff_eq_none

instance (U : Finset UInt64) (s : Sys) (a : Act) : Decidable (s.InTurn U a) := by
  unfold Sys.InTurn
  cases a <;> infer_instance

omit H in
theorem Sys.InTurn.calm {s : Sys} {a : Act} (ha : s.InTurn U a) : s.Calm U a := by
  cases a with
  | insert id v => exact ⟨ha.1, fun _ => ha.2⟩
  | flush => exact ha
  | consolidate => exact ha
  | reopen => exact ha
  | whole k => exact ha.elim
  | ivfBegin n i => exact ha.elim
  | ivfBuild => exact ha.elim
  | ivfFinish => exact ha.elim
  | _ => trivial

variable [N : Numerics]

/-- Where the stored copies of every id are coherent, point reads are the map. -/
theorem get_eq_lastInsert (hU : U.card < 2 ^ 32) (hd : Holds d U m) (htier : tier.isDisk = true)
    {s₀ s : Sys} {hist : List Event} (hopen : Sys.opened d tier = some s₀)
    (hrun : Transition.Run Sys.step (fun _ s a => s.InTurn U a) [] s₀ hist s)
    (hcoh : ∀ id, s.index.Coherent id) :
    (∀ id, s.index.get s.dir id = .ok (mapOf m hist id) ∧
      s.index.contains id = (mapOf m hist id).isSome ∧
        (id ∈ s.index.liveIds ↔ mapOf m hist id ≠ none)) ∧
      s.index.liveIds.Pairwise (· < ·) ∧ {id | mapOf m hist id ≠ none}.encard = s.index.len := by
  obtain ⟨t, ops, ht, hinv, hview, -⟩ := sysInv_opened hd htier
  obtain rfl : t = s₀ := Option.some.inj (ht.symm.trans hopen)
  obtain ⟨ops', hinv', hview', -, -⟩ := hinv.run (P := fun _ s a => s.InTurn U a)
    (fun _ _ _ ha => .inl ha.calm) hU hrun
  rw [hview] at hview'
  rw [← hview']
  refine ⟨fun id => ⟨(hinv'.index.get_eq_iff id).mpr (hcoh id), hinv'.index.isLive id,
    hinv'.index.mem_liveIds id⟩, ?_, hinv'.index.len⟩
  exact pairwise_dedupAdjacent (List.pairwise_insertionSort _ _)

end

section

attribute [local instance] linkedHashes exactNumerics

/-- An id that is written again is served from the delta; one that is not has a single copy. -/
theorem get_eq_lastInsert_consolidated : ∃ s₀ hist s, Sys.opened (Dir.created 1 64) .int8 = some s₀ ∧
    Transition.Run Sys.step (fun _ s a => s.InTurn {0, 1} a) [] s₀ hist s ∧
    hist = [.inserted 0 [0x3f800000], .inserted 1 [0x40000000], .inserted 0 [0xc0000000]] ∧
    ((∀ id, s.index.get s.dir id = .ok (mapOf (fun _ => none) hist id) ∧
      s.index.contains id = (mapOf (fun _ => none) hist id).isSome ∧
        (id ∈ s.index.liveIds ↔ mapOf (fun _ => none) hist id ≠ none)) ∧
      s.index.liveIds.Pairwise (· < ·) ∧
        {id | mapOf (fun _ => none) hist id ≠ none}.encard = s.index.len) := by
  obtain ⟨s₀, hist, s, hopen, hrun, hhist, hruns⟩ := exists_run_opened
    (Dir.created 1 64) .int8
    (fun hist s => hist = [.inserted 0 [0x3f800000], .inserted 1 [0x40000000],
      .inserted 0 [0xc0000000]] ∧ s.index.runs = []) id
    [.insert 0 [0x3f800000], .insert 1 [0x40000000], .consolidate, .insert 0 [0xc0000000]]
    (show (Option.bind _ fun s => Transition.exec Sys.step (fun _ s a => s.InTurn {0, 1} a) []
      (id s) _).any _ = true by decide +kernel)
  refine ⟨s₀, hist, s, hopen, hrun, hhist, get_eq_lastInsert (by decide)
    (holds_created (by decide) (by decide) (by decide) _) rfl hopen hrun fun id _ _ _ => ?_⟩
  -- there is no run, so no id has two copies
  simp only [Index.copies, Index.segs, hruns, List.filterMap_cons, List.filterMap_nil]
  split <;> rfl

/-- An id is inserted, consolidated into the base, inserted again and flushed: a point read asks the base
before the run. -/
theorem get_serves_base : ¬ ∀ (U : Finset UInt64) (d : Dir) (m : UInt64 → Option Vec) (s₀ s : Sys)
    (hist : List Event), U.card < 2 ^ 32 → Holds d U m → Sys.opened d .int8 = some s₀ →
    Transition.Run Sys.step (fun _ s a => s.InTurn U a) [] s₀ hist s → s.job = none →
      ∀ id, s.index.get s.dir id = .ok (mapOf m hist id) := by
  intro h
  obtain ⟨s₀, hist, s, hopen, hrun, hjob, hget⟩ := exists_run_opened
    (Dir.created 1 64) .int8
    (fun hist s => s.job = none ∧ s.index.get s.dir 0 ≠ .ok (mapOf (fun _ => none) hist 0)) id
    [.insert 0 [0x3f800000], .consolidate, .insert 0 [0xc0000000], .flush]
    (show (Option.bind _ fun s => Transition.exec Sys.step (fun _ s a => s.InTurn {0} a) []
      (id s) _).any _ = true by decide +kernel)
  exact hget (h {0} _ _ s₀ s hist (by decide) (holds_created (by decide) (by decide) (by decide) _)
    hopen hrun hjob 0)

end

end Vector

end Skeg
