import Skeg.Vector.Equiv.Maintain

/-!
# Correctness of replacing the base

The three operations that put another base in the place of the old one: `consolidateFinish`,
`deletePatchFinish` and the inline `consolidate`.  Each keeps the view (`Moved`), and none of them fails.
-/

namespace Skeg

namespace Vector

open Lsm (State)

variable {d : Dir} {U : Finset UInt64} {x : Index} {ops : List DeltaWalOp}

/-! ### Files -/

/-- Removing the directories of runs. -/
theorem run_removeRuns (d : Dir) (seqs : List Nat) (k : FileKind) :
    d.run (seqs.flatMap fun seq => removeTree (.run seq)) k =
      { d k with entry := fun q => if q ∈ seqs.map Place.run then none else (d k).entry q } := by
  induction seqs generalizing d with
  | nil => rfl
  | cons seq seqs ih =>
    rw [List.flatMap_cons, Files.run_append, ih, run_removeTree]
    simp only [Table.remove, List.map_cons, List.mem_cons, Table.mk.injEq, and_true]
    funext q
    by_cases hq : q = .run seq
    · simp [hq]
    · simp [hq]

theorem entry_removeRuns_base (d : Dir) (seqs : List Nat) (k : FileKind) :
    (d.run (seqs.flatMap fun seq => removeTree (.run seq)) k).entry .base = (d k).entry .base := by
  rw [run_removeRuns]
  exact if_neg (by simp)

theorem bounded_removeRuns {k : FileKind} (hb : (d k).Bounded) (seqs : List Nat) :
    (d.run (seqs.flatMap fun seq => removeTree (.run seq)) k).Bounded := by
  rw [run_removeRuns]
  intro q i hq
  dsimp only at hq
  split at hq
  · cases hq
  · exact hb q i hq

/-- The directory `p` becomes the base, and what is left of it goes. -/
def swapOps (p : Place) : List (FileOp FileKind Place) :=
  [.remove .ivf .base, .rename .graph p .base, .rename .vectors p .base] ++ removeTree p

theorem run_swapOps (d : Dir) (p : Place) (k : FileKind) :
    d.run (swapOps p) k = match k with
      | .graph => ((d .graph).rename p .base).remove p
      | .vectors => ((d .vectors).rename p .base).remove p
      | .log => (d .log).remove p
      | .ivf => ((d .ivf).remove .base).remove p := by
  cases k <;> simp [swapOps, removeTree, Files.apply, Files.modify]

theorem entry_swap {t : Table Place} {p : Place} (hp : p ≠ .base) :
    ((t.rename p .base).remove p).entry .base = t.entry p := by
  simp [Table.remove, Table.rename, Ne.symm hp]

/-- What a swap does to the files. -/
structure Swapped (d d' : Dir) (p : Place) : Prop where
  bounded : ∀ k, (d' k).Bounded
  data : ∀ k, (d' k).data = (d k).data
  next : ∀ k, (d' k).next = (d k).next
  graph : (d' .graph).entry .base = (d .graph).entry p
  vectors : (d' .vectors).entry .base = (d .vectors).entry p
  log : (d' .log).entry .base = (d .log).entry .base
  run : ∀ k seq, (d' k).entry (.run seq) ≠ none → (d k).entry (.run seq) ≠ none

theorem swapped_swapOps (hb : ∀ k, (d k).Bounded) {p : Place} (hp : p ≠ .base) :
    Swapped d (d.run (swapOps p)) p where
  bounded k := by
    rw [run_swapOps]
    cases k with
    | graph => exact ((hb _).rename _ _).remove _
    | vectors => exact ((hb _).rename _ _).remove _
    | log => exact (hb _).remove _
    | ivf => exact ((hb _).remove _).remove _
  data k := by rw [run_swapOps]; cases k <;> rfl
  next k := by rw [run_swapOps]; cases k <;> rfl
  graph := by rw [run_swapOps]; exact entry_swap hp
  vectors := by rw [run_swapOps]; exact entry_swap hp
  log := by rw [run_swapOps]; exact Function.update_of_ne (Ne.symm hp) ..
  run k seq hs := by
    by_cases hq : Place.run seq = p
    · rw [run_swapOps, hq] at hs
      cases k <;> simp [Table.remove, Table.rename] at hs
    · rw [run_swapOps] at hs
      cases k <;> simpa [Table.remove, Table.rename, hq] using hs

theorem Swapped.keeps {d' : Dir} {p : Place} (h : Swapped d d' p) : Keeps d d' :=
  ⟨Nat.le_of_eq (h.next _).symm, fun i _ => by rw [h.data]⟩

/-- The swapped directory holds what the sidecar held. -/
theorem Swapped.stored {d' : Dir} {p : Place} {g : Graph} {rows : List Vec} (h : Swapped d d' p)
    (hs : Stored d U p g rows) : Stored d' U .base g rows :=
  { hs with
    graph := by rw [Table.read, h.graph, h.data]; exact hs.graph
    vectors := by rw [Table.read, h.vectors, h.data]; exact hs.vectors }

theorem Sidecar.hasSidecar {dim file : Nat} {p : Place} {base : Segment}
    (h : Sidecar d U dim file p base) : hasSidecar d p = true := by
  obtain ⟨g, hs, -⟩ := h.stored
  obtain ⟨i, hi, -⟩ := Option.map_eq_some_iff.mp hs.graph
  rw [Vector.hasSidecar, hi, h.entry]
  rfl

section

variable [H : Hashes]

/-! ### The background consolidate -/

/-- The records behind the offset of a job. -/
theorem FilesOk.decode_suffix (h : FilesOk d U x ops) {mark offset : Nat}
    (hoff : IsOffset x ops mark offset) :
    decodeWalPayload x.walFormat (((d .log).data x.log).drop offset) x.dim = .ok (ops.drop mark) := by
  have hsplit : (d .log).data x.log =
      walBytes x.walFormat (ops.take mark) ++ encodeWalRecords x.walFormat (ops.drop mark) := by
    rw [h.wal, ← walBytes_append, List.take_append_drop]
  have hfits : ∀ op ∈ ops.drop mark, op.Fits x.dim :=
    fun op hop => (h.records op (List.mem_of_mem_drop hop)).1
  have := decodeAt_records x.walFormat (fun op hop => DeltaWalOp.sized_of_fits h.dim_lt (hfits op hop)) hfits 0 []
  rw [List.append_nil, decodeAt_nil] at this
  rw [hsplit, hoff, List.drop_left, decodeWalPayload_eq, this]
  simp [Except.map]

theorem consolidateFinishOps_eq (n : Nat) (suffix : List DeltaWalOp) :
    consolidateFinishOps n suffix = swapOps .consolidating ++ discardRuns n ++ writeWalOps suffix := rfl

theorem run_writeWalOps (d : Dir) (suffix : List DeltaWalOp) (k : FileKind) :
    d.run (writeWalOps suffix) k =
      if k = .log then (d .log).put .base (framedWal suffix) else d k := by
  cases k <;> simp [writeWalOps, Files.apply, Files.modify, Table.put]

/-- The files after `consolidate_finish`: the sidecar is the base, and the log has the suffix. -/
structure Consolidated (d e : Dir) (file : Nat) (suffix : List DeltaWalOp) : Prop where
  bounded : ∀ k, (e k).Bounded
  data : ∀ {k}, k ≠ .log → (e k).data = (d k).data ∧ (e k).next = (d k).next
  graph : (e .graph).entry .base = (d .graph).entry .consolidating
  vectors : (e .vectors).entry .base = (d .vectors).entry .consolidating
  log : (e .log).entry .base = some file
  wal : (e .log).data file = framedWal suffix
  run : ∀ k seq, (e k).entry (.run seq) ≠ none → (d k).entry (.run seq) ≠ none

theorem consolidated_run (hb : ∀ k, (d k).Bounded) {file : Nat} (hlog : (d .log).entry .base = some file) (n : Nat)
    (suffix : List DeltaWalOp) : Consolidated d (d.run (consolidateFinishOps n suffix)) file suffix := by
  set d₁ := d.run (swapOps .consolidating) with hd₁
  have hswap : Swapped d d₁ .consolidating := swapped_swapOps hb (by simp)
  set d₂ := d₁.run (discardRuns n) with hd₂
  rw [consolidateFinishOps_eq, Files.run_append, Files.run_append, ← hd₁, ← hd₂]
  set e := d₂.run (writeWalOps suffix) with he
  have hrest : ∀ {k}, k ≠ .log → e k = d₂ k := by
    intro k hk
    rw [he, run_writeWalOps, if_neg hk]
  have helog : e .log = (d₂ .log).put .base (framedWal suffix) := by
    rw [he, run_writeWalOps, if_pos rfl]
  have htarget : (d₂ .log).target .base = file := by
    rw [Table.target, hd₂, discardRuns, entry_removeRuns_base, hswap.log, hlog]
    rfl
  have hbase : ∀ {k}, k ≠ .log → (e k).entry .base = (d₁ k).entry .base := by
    intro k hk
    rw [hrest hk, hd₂, discardRuns, entry_removeRuns_base]
  exact {
    bounded := fun k => by
      by_cases hk : k = .log
      · subst hk
        rw [helog]
        exact (bounded_removeRuns (hswap.bounded _) _).put _ _
      · rw [hrest hk]
        exact bounded_removeRuns (hswap.bounded _) _
    data := fun {k} hk => by
      rw [hrest hk, hd₂, discardRuns, run_removeRuns]
      exact ⟨hswap.data k, hswap.next k⟩
    graph := (hbase (by simp)).trans hswap.graph
    vectors := (hbase (by simp)).trans hswap.vectors
    log := by simp [helog, Table.put_eq, htarget]
    wal := by simp [helog, Table.put_eq, htarget]
    run := fun k seq hs => by
      have hs₂ : (d₂ k).entry (.run seq) ≠ none := by
        by_cases hk : k = .log
        · subst hk
          rwa [helog, Table.entry_put_of_ne _ _ (by simp)] at hs
        · rwa [hrest hk] at hs
      rw [hd₂, discardRuns, run_removeRuns] at hs₂
      dsimp only at hs₂
      split at hs₂
      · exact absurd rfl hs₂
      · exact hswap.run k seq hs₂ }

theorem Consolidated.keeps {e : Dir} {file : Nat} {suffix : List DeltaWalOp} (h : Consolidated d e file suffix) :
    Keeps d e := by
  rw [Keeps, (h.data (k := .vectors) (by simp)).1, (h.data (k := .vectors) (by simp)).2]
  exact Keeps.refl d

/-- The sidecar is stored as the base. -/
theorem Consolidated.stored {e : Dir} {file : Nat} {suffix : List DeltaWalOp} {g : Graph} {rows : List Vec}
    (h : Consolidated d e file suffix) (hs : Stored d U .consolidating g rows) : Stored e U .base g rows :=
  { hs with
    graph := by
      rw [Table.read, h.graph, (h.data (by simp)).1]
      exact hs.graph
    vectors := by
      rw [Table.read, h.vectors, (h.data (by simp)).1]
      exact hs.vectors }

theorem IndexOk.consolidateFinish (h : IndexOk d U x ops) {b : ConsolidateBuilt}
    (hb : ConsolidateBuiltOk d U x ops b) :
    ∃ d' x' ops', x.consolidateFinish d b = .ok (d', x') ∧ Moved U x d' x' ops' ∧
      (x'.state ops').staged = fun _ => none := by
  obtain ⟨hside, mark, hoff, hjob⟩ := hb
  obtain ⟨g, hstored, hids, hdim⟩ := hside.stored
  have hread : (d .log).read .base = some ((d .log).data x.log) := by
    rw [Table.read, h.log]
    rfl
  set n := max b.runSeqHigh x.runSeq with hn
  set suffix := ops.drop mark with hsuffix
  set e := d.run (consolidateFinishOps n suffix) with he
  have hfiles : Consolidated d e x.log suffix := consolidated_run h.bounded h.log n suffix
  let y : Index := { x with
    base := b.base, runs := [], runDirs := [], runSeq := n, delta := ∅, tombstones := ∅
    liveCount := b.base.mainN, log := x.log, walFormat := .framedV2, ivf := none }
  have hfiles' : FilesOk e U y suffix :=
    { bounded := hfiles.bounded
      tier := h.tier
      lSearch_lt := h.lSearch_lt
      base := hside.seg.keeps hfiles.keeps
      runs := fun r hr => absurd hr List.not_mem_nil
      runDirs := rfl
      seqs := fun k seq hs =>
        Nat.lt_of_lt_of_le (h.seqs k seq (hfiles.run k seq hs)) (Nat.le_max_right ..)
      stored := ⟨g, hfiles.stored hstored, hids, hdim⟩
      file := hfiles.vectors.trans hside.entry
      log := hfiles.log
      wal := hfiles.wal
      records := fun op hop => h.records op (List.mem_of_mem_drop hop)
      delta := vecsOk_empty _ _
      flushing := h.flushing }
  have hst : x.flushing = ∅ := IndexOk.staged_eq_empty hjob.1
  -- the writes since the offset are replayed over the new base
  obtain ⟨hok, hstate⟩ := hfiles'.replay rfl rfl hst rfl rfl
  have hmap : suffix.map DeltaWalOp.toOp = (x.state ops).log.drop mark := List.map_drop ..
  have hrefold : (y.replayWalOps suffix).state suffix =
      (x.state ops).refold b.base.map b.base.mainN mark := by
    rw [hstate, hmap]
    rfl
  refine ⟨e, y.replayWalOps suffix, suffix, ?_, ⟨hok, ?_, ?_, ?_⟩, ?_⟩
  · rw [Index.consolidateFinish, hread]
    simp only [h.decode_suffix hoff, hside.hasSidecar, ← hn,
      ← hsuffix, ← he, Table.openAppend_of_some hfiles.log]
    simp only [Bool.true_eq_false, if_false, Except.ok.injEq, Prod.mk.injEq]
    exact ⟨Function.update_eq_self .., rfl⟩
  · rw [← Index.view_state _ suffix, hrefold, Lsm.view_refold hjob, Index.view_state]
  · obtain ⟨δ, φ, τ, m, heq⟩ := y.replayWalOps_eq suffix
    rw [heq]
  · obtain ⟨δ, φ, τ, m, heq⟩ := y.replayWalOps_eq suffix
    rw [heq]
  · rw [hstate]
    exact Lsm.staged_applyAll rfl _

/-! ### Patching deletions out of the base -/

/-- The rows of the base that are kept. -/
def keptRows (x : Index) (dead : List Bool) : List (UInt64 × Vec) :=
  surviving (x.base.ids.zip x.base.quant) dead

def DeletePatchOk (x : Index) (ops : List DeltaWalOp) (j : DeletePatchJob) : Prop :=
  j.segFile = x.base.file ∧ j.ids = x.base.ids ∧ j.dim = x.dim ∧ j.lSearch = x.lSearch ∧
    j.tier = x.tier ∧ Lsm.JobOk (x.state ops) (.patch (assoc (keptRows x j.dead)))

def DeletePatchBuiltOk (d : Dir) (U : Finset UInt64) (x : Index) (ops : List DeltaWalOp)
    (b : DeletePatchBuilt) : Prop :=
  Sidecar d U x.dim x.base.file .patching b.base ∧ Lsm.JobOk (x.state ops) (.patch b.base.map)

omit H in
theorem surviving_map {α β : Type*} (f : α → β) (xs : List α) (dead : List Bool) :
    surviving (xs.map f) dead = (surviving xs dead).map f := by
  simp only [surviving, List.zip_map_left, List.filter_map, List.map_map]
  rfl

omit H in
theorem surviving_mark {α : Type*} (P : α → Bool) (xs : List α) :
    surviving xs (xs.map P) = xs.filter fun a => !P a := by
  induction xs with
  | nil => rfl
  | cons a xs ih =>
    rw [surviving] at ih
    rw [List.map_cons, surviving, List.zip_cons_cons, List.filter_cons, List.filter_cons]
    cases hP : P a <;> simp [ih]

omit H in
theorem surviving_sublist {α : Type*} (xs : List α) (dead : List Bool) :
    (surviving xs dead).Sublist xs := by
  induction xs generalizing dead with
  | nil => exact List.Sublist.refl _
  | cons a xs ih =>
    cases dead with
    | nil => exact List.nil_sublist _
    | cons b dead =>
      rw [surviving, List.zip_cons_cons, List.filter_cons]
      cases b with
      | true => exact (ih dead).cons a
      | false => exact (ih dead).cons_cons a

theorem IndexOk.shadows_iff (h : IndexOk d U x ops) (id : UInt64) :
    x.shadows id = true ↔ (x.state ops).newer id ≠ none := by
  have hruns : (x.runs.any fun r => id ∈ r.ids) = true ↔ runsMap x.runs id ≠ none := by
    rw [List.any_eq_true, ne_eq, runsMap_eq_none]
    push Not
    refine exists_congr fun r => and_congr_right fun hr => ?_
    rw [ne_eq, (h.runs r hr).map_eq_none, not_not, decide_eq_true_iff]
  rw [Index.shadows, Bool.or_eq_true, Bool.or_eq_true, hruns]
  simp only [State.newer, Index.state, ne_eq, Option.or_eq_none_iff, Option.isSome_iff_ne_none]
  tauto

theorem IndexOk.deletePatchBegin (h : IndexOk d U x ops) {j : DeletePatchJob}
    (hbegin : x.deletePatchBegin = some j) : DeletePatchOk x ops j := by
  rw [Index.deletePatchBegin] at hbegin
  split at hbegin
  · cases hbegin
  · obtain rfl := Option.some.inj hbegin
    refine ⟨rfl, rfl, rfl, rfl, rfl, Lsm.jobOk_patch fun id => ?_⟩
    have hids : x.base.ids = (x.base.ids.zip x.base.quant).map Prod.fst :=
      (List.map_fst_zip (Nat.le_of_eq h.base.length.symm)).symm
    set dead := fun id => decide (id ∈ x.tombstones) || x.shadows id with hdead
    have hkept : keptRows x (x.base.ids.map dead) =
        (x.base.ids.zip x.base.quant).filter fun p => ¬ dead p.1 = true := by
      rw [keptRows, hids, List.map_map, ← hids, surviving_mark]
      refine List.filter_congr fun p _ => ?_
      simp
    have hiff : dead id = true ↔ id ∈ (x.state ops).dead ∨ (x.state ops).newer id ≠ none := by
      rw [← h.shadows_iff]
      simp [hdead, Index.state]
    rw [hkept, assoc, find_filter fun id => ¬ dead id = true, ite_not]
    by_cases hid : dead id = true
    · rw [if_pos hid, if_pos (hiff.mp hid)]
      rfl
    · rw [if_neg hid, if_neg (mt hiff.mpr hid)]
      exact (Segment.map_eq_assoc h.base.nodup h.base.length id).symm

variable [N : Numerics]

theorem IndexOk.buildDeletePatch (h : IndexOk d U x ops) (hU : U.card < 2 ^ 32) {j : DeletePatchJob}
    (hj : DeletePatchOk x ops j) :
    ∃ d' b, j.build d = .ok (d', b) ∧ IndexOk d' U x ops ∧ DeletePatchBuiltOk d' U x ops b := by
  obtain ⟨hfile, hids, hdim, hl, htier, hjob⟩ := hj
  have hfst : (keptRows x j.dead).map Prod.fst = surviving x.base.ids j.dead := by
    rw [keptRows, ← surviving_map, List.map_fst_zip (Nat.le_of_eq h.base.length.symm)]
  have hsnd : (keptRows x j.dead).map Prod.snd = surviving x.base.quant j.dead := by
    rw [keptRows, ← surviving_map, List.map_snd_zip (Nat.le_of_eq h.base.length)]
  have hsub := surviving_sublist (x.base.ids.zip x.base.quant) j.dead
  have hps : Entries U x.dim (keptRows x j.dead) := by
    refine ⟨?_, fun q hq => ?_⟩
    · refine (hsub.map Prod.fst).nodup ?_
      rw [List.map_fst_zip (Nat.le_of_eq h.base.length.symm)]
      exact h.base.nodup
    · have hq := List.of_mem_zip (hsub.mem hq)
      exact ⟨h.base.within _ hq.1, h.base.dims _ hq.2⟩
  set bg := N.patchGraph x.base.quant j.adj j.dead j.medoid with hbg
  have hnodes : bg.nodes.length = (keptRows x j.dead).length := by
    rw [bg.length_nodes, ← hsnd, List.length_map]
  obtain ⟨d', run, hopen, hok, -, hmap, hside⟩ :=
    h.rebuild (hps.content (r := 64) hU h.dim_pos h.dim_lt hnodes bg.medoid_u32 h.lSearch_lt) rfl rfl
      (p := .patching) (by simp) (by rintro seq ⟨⟩)
  have hread : ((List.range x.base.ids.length).mapM
      (readVector ((d.run (removeTree .patching) .vectors).data x.base.file) x.dim)) =
        .ok x.base.quant := by
    rw [← h.base.length, run_removeTree]
    exact mapM_range_ok fun i v hv => h.base.readRow hv
  rw [hfst, hsnd] at hopen
  refine ⟨d', ⟨run⟩, ?_, hok, hside, hmap ▸ hjob⟩
  rw [DeletePatchJob.build, hfile, hids, hdim, hl, htier]
  simp only [hread, ← hbg, hopen]

omit N in
theorem IndexOk.deletePatchFinish (h : IndexOk d U x ops) {b : DeletePatchBuilt}
    (hb : DeletePatchBuiltOk d U x ops b) :
    ∃ d' x', x.deletePatchFinish d b = .ok (d', x') ∧ Moved U x d' x' ops ∧
      x'.flushing = x.flushing := by
  obtain ⟨hside, hjob⟩ := hb
  have hhas := hside.hasSidecar
  have hseg := hside.seg
  obtain ⟨g, hstored, hids, hdim⟩ := hside.stored
  rw [Index.deletePatchFinish, if_neg (by simp [hhas])]
  refine ⟨_, _, rfl, ?_, rfl⟩
  have hswap : Swapped d (d.run deletePatchFinishOps) .patching := swapped_swapOps h.bounded (by simp)
  set dead := x.tombstones.filter fun id => id ∈ b.base.ids ∨ ∃ r ∈ x.runs, id ∈ r.ids with hdead
  have hmasks : Lsm.Masks (x.state ops) b.base.map dead := by
    refine ⟨Finset.filter_subset _ _, fun id hid hnot => ?_⟩
    have hgone : ¬ (id ∈ b.base.ids ∨ ∃ r ∈ x.runs, id ∈ r.ids) :=
      fun hkeep => hnot (Finset.mem_filter.mpr ⟨hid, hkeep⟩)
    push Not at hgone
    exact ⟨(hseg.map_eq_none id).mpr hgone.1, runsMap_eq_none.mpr fun r hr =>
      ((h.runs r hr).map_eq_none id).mpr (hgone.2 r hr)⟩
  let x' : Index := { x with base := b.base, ivf := none, tombstones := dead }
  have hstate : x'.state ops = (x.state ops).replaceBase b.base.map dead := rfl
  have hfiles : FilesOk (d.run deletePatchFinishOps) U x' ops :=
    { bounded := hswap.bounded
      tier := h.tier
      lSearch_lt := h.lSearch_lt
      base := hseg.keeps hswap.keeps
      runs := fun r hr => (h.runs r hr).keeps hswap.keeps
      runDirs := h.runDirs
      seqs := fun k seq hs => h.seqs k seq (hswap.run k seq hs)
      stored := ⟨g, hswap.stored hstored, hids, hdim⟩
      file := by rw [hswap.vectors]; exact hside.entry
      log := by rw [hswap.log]; exact h.log
      wal := by rw [hswap.data]; exact h.wal
      records := h.records
      delta := h.delta
      flushing := h.flushing }
  refine ⟨⟨hfiles, hstate ▸ h.inv.replaceBase hjob hmasks⟩, ?_, rfl, rfl⟩
  change x'.view = x.view
  rw [← Index.view_state _ ops, hstate, Lsm.view_replaceBase h.inv hjob hmasks, Index.view_state]

/-! ### The inline consolidate -/

omit H N in
theorem run_baseOps (d : Dir) (g : Graph) (rows : List Vec) (k : FileKind) :
    d.run ([.remove .ivf .base] ++ saveOps .base g rows) k = match k with
      | .graph => (d .graph).put .base (graphVmn g)
      | .vectors => (d .vectors).put .base (vectorsBin g.dim rows)
      | .log => d .log
      | .ivf => (d .ivf).remove .base := by
  cases k <;> simp [saveOps, Files.apply, Files.modify, Table.put]

omit N in
/-- The base is written in place, and the log starts afresh. -/
theorem read_consolidateOps (d : Dir) (x : Index) (g : Graph) (rows : List Vec) (k : FileKind) :
    (d.run (x.consolidateOps g rows) k).read .base = match k with
      | .graph => some (graphVmn g)
      | .vectors => some (vectorsBin g.dim rows)
      | .log => some (framedWal [])
      | .ivf => none := by
  have hruns : ∀ e : Dir, ∀ k, (e.run (discardRuns x.runSeq) k).read .base = (e k).read .base := by
    intro e k
    rw [Table.read, discardRuns, entry_removeRuns_base, run_removeRuns]
    rfl
  rw [Index.consolidateOps, Files.run_append, Files.run_append, run_writeWalOps]
  cases k with
  | graph => rw [if_neg (by simp), hruns, run_baseOps]; exact Table.read_put ..
  | vectors => rw [if_neg (by simp), hruns, run_baseOps]; exact Table.read_put ..
  | log => rw [if_pos rfl]; exact Table.read_put ..
  | ivf => rw [if_neg (by simp), hruns, run_baseOps]; simp [Table.read, Table.remove]

omit N in
theorem bounded_consolidateOps (hb : ∀ k, (d k).Bounded) (x : Index) (g : Graph) (rows : List Vec)
    (k : FileKind) : (d.run (x.consolidateOps g rows) k).Bounded := by
  have hbase : ∀ k, (d.run ([.remove .ivf .base] ++ saveOps .base g rows) k).Bounded := by
    intro k
    rw [run_baseOps]
    cases k with
    | graph => exact (hb _).put _ _
    | vectors => exact (hb _).put _ _
    | log => exact hb _
    | ivf => exact (hb _).remove _
  have hruns := fun k => bounded_removeRuns (hbase k) (List.range x.runSeq)
  rw [Index.consolidateOps, Files.run_append, Files.run_append, run_writeWalOps]
  split
  · exact (hruns _).put _ _
  · exact hruns k

/-- The base that `consolidate` is about to write is the view. -/
theorem IndexOk.consolidate_plan (h : IndexOk d U x ops) (hU : U.card < 2 ^ 32)
    (hne : x.survivors.isEmpty = false) : ∃ g rows, Content U g rows ∧ g.dim = x.dim ∧
      assoc (g.ids.zip rows) = x.view ∧
        (((sortById x.survivors).mapM fun p => x.vectorAt d p.1 p.2) = .ok rows ∧
          g = buildDiskGraph x.tier x.dim ((sortById x.survivors).map Prod.fst) rows) ∧
        x.consolidate d = openIndex (d.run (x.consolidateOps g rows)) .base x.tier := by
  have hnd : (x.survivors.map Prod.fst).Nodup := nodup_firsts [] _
  set sorted := sortById x.survivors with hsorted
  have hmem : ∀ q ∈ sorted, q ∈ x.survivors :=
    fun q hq => (List.perm_insertionSort _ _).mem_iff.mp hq
  have hread : (sorted.mapM fun p => x.vectorAt d p.1 p.2) = .ok (sorted.map x.valueOf) :=
    mapM_ok fun q hq => (h.vectorAt (hmem q hq)).1
  set ps := sorted.map fun q => (q.1, x.valueOf q) with hps_def
  have hps : Entries U x.dim ps := by
    refine ⟨?_, fun p hp => ?_⟩
    · rw [hps_def, List.map_map]
      exact nodup_sortById hnd
    · obtain ⟨q, hq, rfl⟩ := List.mem_map.mp hp
      exact (h.vectorAt (hmem q hq)).2
  have hfst : ps.map Prod.fst = sorted.map Prod.fst := by rw [hps_def, List.map_map]; rfl
  have hsnd : ps.map Prod.snd = sorted.map x.valueOf := by rw [hps_def, List.map_map]; rfl
  have hcontent := hps.content_build x.tier hU h.dim_pos h.dim_lt
  rw [hfst, hsnd] at hcontent
  refine ⟨_, _, hcontent, rfl, ?_, ⟨hread, rfl⟩, ?_⟩
  · funext id
    have hzip : (buildDiskGraph x.tier x.dim (sorted.map Prod.fst) (sorted.map x.valueOf)).ids.zip
        (sorted.map x.valueOf) = ps := by
      rw [buildDiskGraph, ← hfst, ← hsnd]
      exact (List.zip_of_prod rfl rfl).symm
    rw [hzip, hps_def, assoc_map, hsorted, find_sortById _ hnd, h.find_survivors]
  · rw [Index.consolidate, if_neg (by simp [hne])]
    simp only [← hsorted, hread]

omit N in
/-- What `consolidate` leaves of the tables of the base files. -/
theorem table_consolidateOps (d : Dir) (x : Index) (g : Graph) (rows : List Vec) {k : FileKind}
    (hk : k ≠ .log) (hk' : k ≠ .ivf) : ∃ b,
      (openedDir (d.run (x.consolidateOps g rows)) .base k).data = ((d k).put .base b).data ∧
      (openedDir (d.run (x.consolidateOps g rows)) .base k).next = ((d k).put .base b).next ∧
      ∀ q, (∀ seq, q ≠ .run seq) →
        (openedDir (d.run (x.consolidateOps g rows)) .base k).entry q = ((d k).put .base b).entry q := by
  obtain ⟨b, hb⟩ : ∃ b, d.run ([.remove .ivf .base] ++ saveOps .base g rows) k = (d k).put .base b := by
    cases k with
    | graph => exact ⟨_, run_baseOps ..⟩
    | vectors => exact ⟨_, run_baseOps ..⟩
    | log => exact absurd rfl hk
    | ivf => exact absurd rfl hk'
  have hrun : d.run (x.consolidateOps g rows) k = { (d k).put .base b with
      entry := fun q => if q ∈ (List.range x.runSeq).map Place.run then none
        else ((d k).put .base b).entry q } := by
    rw [Index.consolidateOps, Files.run_append, Files.run_append, run_writeWalOps, if_neg hk, discardRuns,
      run_removeRuns, hb]
  refine ⟨b, ?_, ?_, fun q hq => ?_⟩
  · rw [openedDir, if_pos rfl]
    simp [cleanStaleRuns, hk, hrun]
  · rw [openedDir, if_pos rfl]
    simp [cleanStaleRuns, hk, hrun]
  · rw [openedDir, if_pos rfl, entry_cleanStaleRuns _ _ hq, Files.modify_of_ne _ _ hk, hrun]
    refine if_neg fun hmem => ?_
    obtain ⟨seq, -, rfl⟩ := List.mem_map.mp hmem
    exact hq seq rfl

/-- A consolidate that finds something alive: the view is the new base, written into the old files. -/
theorem IndexOk.consolidate_alive (h : IndexOk d U x ops) (hU : U.card < 2 ^ 32)
    (hne : x.survivors.isEmpty = false) : ∃ g rows d' x', x.consolidate d = .ok (d', x') ∧
      d' = openedDir (d.run (x.consolidateOps g rows)) .base ∧ Moved U x d' x' [] ∧
        (x'.state []).staged = (fun _ => none) ∧ x'.runs = [] ∧ x'.walFormat = .framedV2 ∧
          x'.base.map = x.view ∧ x'.base.file = x.base.file := by
  obtain ⟨g, rows, hcontent, hdim, hmap, -, hrun⟩ := h.consolidate_plan hU hne
  have hread := read_consolidateOps d x g rows
  have hbounded := bounded_consolidateOps h.bounded x g rows
  obtain ⟨b, hdata, hnext, hentry⟩ := table_consolidateOps d x g rows (k := .vectors) (by simp) (by simp)
  set e := d.run (x.consolidateOps g rows)
  have hstored : Stored e U .base g rows := { hcontent with graph := hread _, vectors := hread _ }
  have hlog : ((e .log).read .base).getD [] = walBytes .framedV2 [] := by
    rw [hread]
    rfl
  have hopen := openIndex_stored hstored h.tier (List.forall_mem_nil _) (torn_nil _ _)
    (by rw [List.append_nil, hlog])
  have hok := indexOk_openedIndex hbounded hstored h.tier (by simp) hlog
  have hbase : (segmentAt e .base g rows).map = x.view := by
    rw [← hmap]
    funext id
    exact Segment.map_eq_assoc hstored.nodup hstored.length id
  refine ⟨g, rows, _, _, hrun.trans hopen, rfl, ⟨hok, ?_, hdim, rfl⟩, ?_, rfl, rfl, hbase, ?_⟩
  · rw [view_openedIndex hstored]
    exact hbase
  · rw [state_openedIndex hstored]
    exact Lsm.staged_applyAll rfl _
  · have hfile := hok.file
    rw [hentry .base (by simp), Table.put_eq] at hfile
    simp only [Function.update_self, Option.some.injEq, Table.target, h.file, Option.getD_some] at hfile
    exact hfile.symm

theorem IndexOk.consolidate (h : IndexOk d U x ops) (hU : U.card < 2 ^ 32)
    (hst : (x.state ops).staged = fun _ => none) :
    ∃ d' x' ops', x.consolidate d = .ok (d', x') ∧ Moved U x d' x' ops' ∧
      (x'.state ops').staged = fun _ => none := by
  cases hne : x.survivors.isEmpty with
  | true =>
    rw [Index.consolidate, if_pos hne]
    exact ⟨d, x, ops, rfl, ⟨h, rfl, rfl, rfl⟩, hst⟩
  | false =>
    obtain ⟨g, rows, d', x', hrun, -, hm, hst', -⟩ := h.consolidate_alive hU hne
    exact ⟨d', x', [], hrun, hm, hst'⟩

end

end Vector

end Skeg
