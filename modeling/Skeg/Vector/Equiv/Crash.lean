import Skeg.Vector.Equiv.Views

/-!
# Crashes while the base is replaced

`consolidate` writes the graph and the vectors of the new base over the old ones, `consolidateFinish` and
`deletePatchFinish` rename them into place one after the other; then the log is rewritten in place.  The
directory that a crash leaves opens to the right map when the two files belong together and no record is
missing from the log (`SafePoint`, `crash_recovers`): the whole log may be replayed over either base.
-/

namespace Skeg

namespace Vector

/-- The number of file operations after which both files of the new base are in place. -/
def Act.baseDone : Act → Nat
  | .consolidate => 5
  | _ => 3

section

variable [H : Hashes]

/-- A crash does no harm before the first file of the base is touched, or when both files are in place; and
not in the middle of rewriting the log, unless the log is to be empty and nothing of it is written. -/
def SafePoint (ops : List (FileOp FileKind Place)) (done n c : Nat) : Prop :=
  n ≤ 1 ∨ done ≤ n ∧ ∀ wal, ops[n]? = some (.write .log .base wal) →
    wal.length ≤ c ∨ wal = framedWal [] ∧ c = 0

end

variable {d e : Dir} {U : Finset UInt64} {x : Index} {ops : List DeltaWalOp} {tier : QuantKind}

/-! ### What a crash leaves -/

/-- Only other kinds of files, and removals elsewhere. -/
def SparesBase (fops : List (FileOp FileKind Place)) : Prop :=
  ∀ op ∈ fops, ∀ k ≠ .ivf, op.Spares k .base

theorem sparesBase_removeTree {p : Place} (hp : p ≠ .base) : SparesBase (removeTree p) := by
  intro op hop k _
  simp only [removeTree, List.mem_cons, List.not_mem_nil, or_false] at hop
  rcases hop with rfl | rfl | rfl | rfl <;> exact fun _ => hp

theorem sparesBase_discardRuns (n : Nat) : SparesBase (discardRuns n) := by
  intro op hop k hk
  obtain ⟨seq, -, hop⟩ := List.mem_flatMap.mp hop
  exact sparesBase_removeTree (by simp) op hop k hk

theorem SparesBase.append {fops fops' : List (FileOp FileKind Place)} (h : SparesBase fops)
    (h' : SparesBase fops') : SparesBase (fops ++ fops') := by
  intro op hop
  rcases List.mem_append.mp hop with hop | hop
  · exact h op hop
  · exact h' op hop

theorem SparesBase.read {fops : List (FileOp FileKind Place)} (h : SparesBase fops) {k : FileKind}
    (hk : k ≠ .ivf) (n c : Nat) : (Files.crashAt fops n c e k).read .base = (e k).read .base :=
  Files.read_crashAt_of_spares (fun op hop => h op hop k hk) n c

section

variable [H : Hashes]

theorem eq_nil_of_framedWal (h : framedWal ops = framedWal []) : ops = [] := by
  cases ops with
  | nil => rfl
  | cons op ops =>
    have hrecords := List.append_cancel_left h
    rw [encodeWalRecords, List.flatMap_cons] at hrecords
    exact absurd (List.append_eq_nil_iff.mp hrecords).1 (encodeWalRecord_ne_nil _ _)

/-- The log after a crash at a safe point: not touched, rewritten, or empty as it is to be. -/
theorem read_log_crashAt {fops : List (FileOp FileKind Place)} (h : SparesBase fops)
    (suffix : List DeltaWalOp) {n c : Nat}
    (hsafe : ∀ wal, (fops ++ writeWalOps suffix)[n]? = some (.write .log .base wal) →
      wal.length ≤ c ∨ wal = framedWal [] ∧ c = 0) :
    (Files.crashAt (fops ++ writeWalOps suffix) n c e .log).read .base = (e .log).read .base ∨
    (Files.crashAt (fops ++ writeWalOps suffix) n c e .log).read .base = some (framedWal suffix) ∨
    suffix = [] ∧ (Files.crashAt (fops ++ writeWalOps suffix) n c e .log).read .base = some [] := by
  have hread : (e.run fops .log).read .base = (e .log).read .base := by
    rw [← Files.crashAt_of_length_le (Nat.le_refl _) 0, h.read (by simp)]
  by_cases hn : n < fops.length
  · left
    rw [Files.crashAt_append_of_lt hn, h.read (by simp)]
  rw [Files.crashAt_append_of_le (Nat.le_of_not_lt hn)]
  rw [List.getElem?_append_right (Nat.le_of_not_lt hn)] at hsafe
  -- before the truncation, between it and the end of the write, and after the write
  obtain hzero | hone | htwo : n - fops.length = 0 ∨ n - fops.length = 1 ∨ 2 ≤ n - fops.length := by omega
  · left
    rw [hzero]
    exact hread
  · right
    rw [hone] at hsafe ⊢
    have hcut : (Files.crashAt (writeWalOps suffix) 1 c (e.run fops) .log).read .base =
        some ((framedWal suffix).take c) := by
      simp only [Files.crashAt, writeWalOps, List.getElem?_cons_succ, List.getElem?_cons_zero,
        List.take_succ_cons, List.take_zero, Files.run_cons, Files.run_nil, Files.apply,
        Files.modify_self]
      exact Table.read_put ..
    rw [hcut]
    rcases hsafe _ rfl with hc | ⟨hnil, rfl⟩
    · exact .inl (by rw [List.take_of_length_le hc])
    · exact .inr ⟨eq_nil_of_framedWal hnil, rfl⟩
  · right; left
    rw [Files.crashAt_of_length_le (by simpa [writeWalOps] using htwo), run_writeWalOps, if_pos rfl]
    exact Table.read_put ..

/-! ### Recovery -/

/-- The directory opens, and every id reads as in `m`. -/
def Recovers (e : Dir) (tier : QuantKind) (m : UInt64 → Option Vec) : Prop :=
  ∃ d' x', openIndex e .base tier = .ok (d', x') ∧ x'.view = m ∧ ∀ id, x'.get d' id = .ok (m id)

theorem recovers_of_stored (hb : ∀ k, (e k).Bounded) {g : Graph} {rows : List Vec}
    (hs : Stored e U .base g rows) (htier : tier.isDisk = true) (format : DeltaWalFormat)
    (ops : List DeltaWalOp) (hops : ∀ op ∈ ops, op.Ok U g.dim)
    (hlog : ((e .log).read .base).getD [] = walBytes format ops) :
    Recovers e tier (Lsm.replay (ops.map DeltaWalOp.toOp) (assoc (g.ids.zip rows))) := by
  have hview : (openedIndex e .base g rows tier format ops).view = _ := view_openedIndex_assoc hs format ops
  refine ⟨_, _, openIndex_stored hs htier (fun op hop => (hops op hop).1) (torn_nil _ _)
    (by rw [hlog, List.append_nil]), hview, fun id => ?_⟩
  have hruns : (openedIndex e .base g rows tier format ops).runs = [] := by
    obtain ⟨δ, φ, τ, n, heq⟩ := openedIndex_eq e .base g rows tier format ops
    rw [heq]
    rfl
  rw [(indexOk_openedIndex hb hs htier hops hlog).get_of_coherent (coherent_of_runs hruns), hview]

/-- The log of an index, as a file. -/
theorem FilesOk.read_log (h : FilesOk d U x ops) :
    ((d .log).read .base).getD [] = walBytes x.walFormat ops := by
  rw [Table.read, h.log, Option.map_some, Option.getD_some, h.wal]

/-- Nothing but the router has changed. -/
theorem IndexOk.recovers (h : IndexOk d U x ops) (hb : ∀ k, (e k).Bounded)
    (hread : ∀ k ≠ .ivf, (e k).read .base = (d k).read .base) : Recovers e x.tier x.view := by
  obtain ⟨g, hs, hids, hdim⟩ := h.stored
  have hs' : Stored e U .base g x.base.quant :=
    { hs with
      graph := (hread _ (by simp)).trans hs.graph
      vectors := (hread _ (by simp)).trans hs.vectors }
  have hmap : Lsm.replay (ops.map DeltaWalOp.toOp) (assoc (g.ids.zip x.base.quant)) = x.view := by
    have hbase : assoc (g.ids.zip x.base.quant) = (x.state ops).base := by
      funext id
      rw [hids]
      exact (Segment.map_eq_assoc h.base.nodup h.base.length id).symm
    rw [hbase, ← Index.view_state x ops]
    exact h.inv.replay
  rw [← hmap]
  refine recovers_of_stored hb hs' h.tier x.walFormat ops (hdim ▸ h.records) ?_
  rw [hread _ (by simp), h.read_log]

/-- Another base is in place, and the log is as before, rewritten, or empty as it is to be. -/
theorem IndexOk.recovers_swapped (h : IndexOk d U x ops) (hb : ∀ k, (e k).Bounded) {g : Graph}
    {rows : List Vec} (hs : Stored e U .base g rows) (hdim : g.dim = x.dim)
    (hall : Lsm.replay (x.state ops).log (assoc (g.ids.zip rows)) = x.view) {suffix : List DeltaWalOp}
    (hsub : suffix ⊆ ops)
    (hsuffix : Lsm.replay (suffix.map DeltaWalOp.toOp) (assoc (g.ids.zip rows)) = x.view)
    (hlog : (e .log).read .base = (d .log).read .base ∨ (e .log).read .base = some (framedWal suffix) ∨
      suffix = [] ∧ (e .log).read .base = some []) : Recovers e x.tier x.view := by
  rcases hlog with hlog | hlog | ⟨rfl, hlog⟩
  · rw [← hall]
    refine recovers_of_stored hb hs h.tier x.walFormat ops (hdim ▸ h.records) ?_
    rw [hlog, h.read_log]
  · rw [← hsuffix]
    refine recovers_of_stored hb hs h.tier .framedV2 suffix
      (fun op hop => hdim ▸ h.records op (hsub hop)) ?_
    rw [hlog]
    rfl
  · rw [← hsuffix]
    refine recovers_of_stored hb hs h.tier .legacyV1 [] (by simp) ?_
    rw [hlog]
    rfl

/-- A program that puts another base in place, and then rewrites the log. -/
theorem IndexOk.recovers_after (h : IndexOk d U x ops) {fops fops' : List (FileOp FileKind Place)}
    {g : Graph} {rows : List Vec} (hs : Stored (d.run fops) U .base g rows) (hdim : g.dim = x.dim)
    (hlog : (d.run fops .log).read .base = (d .log).read .base) (hspares : SparesBase fops')
    (hall : Lsm.replay (x.state ops).log (assoc (g.ids.zip rows)) = x.view) {suffix : List DeltaWalOp}
    (hsub : suffix ⊆ ops)
    (hsuffix : Lsm.replay (suffix.map DeltaWalOp.toOp) (assoc (g.ids.zip rows)) = x.view) {n c : Nat}
    (hn : fops.length ≤ n)
    (hsafe : ∀ wal, (fops ++ (fops' ++ writeWalOps suffix))[n]? = some (.write .log .base wal) →
      wal.length ≤ c ∨ wal = framedWal [] ∧ c = 0) :
    Recovers (Files.crashAt (fops ++ (fops' ++ writeWalOps suffix)) n c d) x.tier x.view := by
  rw [List.getElem?_append_right hn] at hsafe
  rw [Files.crashAt_append_of_le hn]
  have hwrite : ∀ k, k = .graph ∨ k = .vectors → ∀ op ∈ fops' ++ writeWalOps suffix,
      op.Spares k .base := by
    intro k hk op hop
    rcases List.mem_append.mp hop with hop | hop
    · exact hspares op hop k (by rcases hk with rfl | rfl <;> simp)
    · simp only [writeWalOps, List.mem_cons, List.not_mem_nil, or_false] at hop
      rcases hop with rfl | rfl <;> rcases hk with rfl | rfl <;> simp [FileOp.Spares]
  refine h.recovers_swapped (Files.bounded_crashAt (Files.bounded_run h.bounded _) _ _ _) { hs with
    graph := (Files.read_crashAt_of_spares (hwrite _ (.inl rfl)) _ _).trans hs.graph
    vectors := (Files.read_crashAt_of_spares (hwrite _ (.inr rfl)) _ _).trans hs.vectors }
    hdim hall hsub hsuffix ?_
  rw [← hlog]
  exact read_log_crashAt hspares suffix hsafe

/-! ### The programs -/

omit H in
/-- Before a file of the base is touched. -/
theorem read_crashAt_early {op : FileOp FileKind Place} (hop : ∀ k p b, op ≠ .write k p b)
    (fops : List (FileOp FileKind Place)) {n : Nat} (hn : n ≤ 1) (c : Nat) {k : FileKind} (hk : k ≠ .ivf) :
    (Files.crashAt (.remove .ivf .base :: op :: fops) n c d k).read .base = (d k).read .base := by
  obtain rfl | rfl : n = 0 ∨ n = 1 := by omega
  · rfl
  · have hcrash : Files.crashAt (.remove .ivf .base :: op :: fops) 1 c d =
        d.apply (.remove .ivf .base) := by
      cases op with
      | write k p b => exact absurd rfl (hop k p b)
      | _ => rfl
    rw [hcrash, Files.read_apply_of_spares]
    exact fun h => absurd h.symm hk

variable [N : Numerics]

theorem IndexOk.crash_consolidate {s : Sys} (h : IndexOk s.dir U s.index ops) (hU : U.card < 2 ^ 32)
    {n c : Nat} (hsafe : SafePoint (s.swapOps .consolidate) 5 n c) :
    Recovers (Files.crashAt (s.swapOps .consolidate) n c s.dir) s.index.tier s.index.view := by
  rw [Sys.swapOps] at hsafe ⊢
  cases hne : s.index.survivors.isEmpty with
  | true =>
    rw [if_pos rfl]
    exact h.recovers (Files.bounded_crashAt h.bounded _ _ _) fun k _ => by simp [Files.crashAt]
  | false =>
    obtain ⟨g, rows, hcontent, hdim, hmap, ⟨hread, hg⟩, -⟩ := h.consolidate_plan hU hne
    rw [hne, if_neg Bool.false_ne_true] at hsafe
    simp only [hread, ← hg] at hsafe
    rw [if_neg Bool.false_ne_true]
    simp only [hread, ← hg]
    have hb := Files.bounded_crashAt h.bounded (s.index.consolidateOps g rows) n c
    rcases hsafe with hn | ⟨hn, hlog⟩
    · exact h.recovers hb fun k hk => read_crashAt_early (by simp) _ hn c hk
    · have hstored : Stored (s.dir.run ([.remove .ivf .base] ++ saveOps .base g rows)) U .base g rows :=
        { hcontent with
          graph := by rw [run_baseOps]; exact Table.read_put ..
          vectors := by rw [run_baseOps]; exact Table.read_put .. }
      have hops : s.index.consolidateOps g rows = ([.remove .ivf .base] ++ saveOps .base g rows) ++
          (discardRuns s.index.runSeq ++ writeWalOps []) := by
        rw [Index.consolidateOps, List.append_assoc]
      rw [hops] at hlog ⊢
      refine h.recovers_after hstored hdim (by rw [run_baseOps]) (sparesBase_discardRuns _) ?_
        (List.nil_subset _) hmap hn hlog
      -- the new base is the view, and replaying over the view changes nothing
      rw [← Index.view_state s.index ops]
      exact h.inv.replay_of_agrees fun k _ => by rw [hmap, Index.view_state]

/-- The two renames. -/
def renameOps (p : Place) : List (FileOp FileKind Place) :=
  [.remove .ivf .base, .rename .graph p .base, .rename .vectors p .base]

omit H N in
theorem stored_renameOps {p : Place} (hp : p ≠ .base) {g : Graph} {rows : List Vec}
    (hs : Stored d U p g rows) : Stored (d.run (renameOps p)) U .base g rows := by
  have hread : ∀ t : Table Place, (t.rename p .base).read .base = t.read p := by
    intro t
    simp [Table.read, Table.rename, Ne.symm hp]
  refine { hs with graph := ?_, vectors := ?_ }
  · rw [← hs.graph, ← hread]
    simp [renameOps, Files.apply, Files.modify]
  · rw [← hs.vectors, ← hread]
    simp [renameOps, Files.apply, Files.modify]

omit N in
theorem IndexOk.crash_consolidateFinish (h : IndexOk d U x ops) {b : ConsolidateBuilt}
    (hb : ConsolidateBuiltOk d U x ops b) {suffix : List DeltaWalOp}
    (hdecode : decodeWalPayload x.walFormat ((((d .log).read .base).getD []).drop b.walOffset) x.dim =
      .ok suffix) (seq : Nat) {n c : Nat} (hsafe : SafePoint (consolidateFinishOps seq suffix) 3 n c) :
    Recovers (Files.crashAt (consolidateFinishOps seq suffix) n c d) x.tier x.view := by
  obtain ⟨hside, mark, hoff, hjob⟩ := hb
  obtain ⟨g, hs, hids, hdim⟩ := hside.stored
  have hwal : ((d .log).read .base).getD [] = (d .log).data x.log := by rw [h.read_log, h.wal]
  obtain rfl : ops.drop mark = suffix := by
    rw [hwal, h.decode_suffix hoff] at hdecode
    exact Except.ok.inj hdecode
  have hbase : assoc (g.ids.zip b.base.quant) = b.base.map := by
    funext id
    rw [hids]
    exact (Segment.map_eq_assoc hside.seg.nodup hside.seg.length id).symm
  rcases hsafe with hn | ⟨hn, hlog⟩
  · exact h.recovers (Files.bounded_crashAt h.bounded _ _ _)
      fun k hk => read_crashAt_early (by simp) _ hn c hk
  · have hops : consolidateFinishOps seq (ops.drop mark) = renameOps .consolidating ++
        ((removeTree .consolidating ++ discardRuns seq) ++ writeWalOps (ops.drop mark)) := by
      simp only [consolidateFinishOps, renameOps, List.append_assoc]
    rw [hops] at hlog ⊢
    refine h.recovers_after (stored_renameOps (by simp) hs) hdim ?_
      ((sparesBase_removeTree (by simp)).append (sparesBase_discardRuns seq)) ?_
      (List.drop_subset _ _) ?_ hn hlog
    · simp [renameOps, Files.apply, Files.modify]
    · rw [hbase, ← Index.view_state x ops]
      exact h.inv.replay_fold hjob
    · rw [hbase, List.map_drop, ← Index.view_state x ops]
      exact hjob.2.2.1

omit N in
theorem IndexOk.crash_deletePatchFinish (h : IndexOk d U x ops) {b : DeletePatchBuilt}
    (hb : DeletePatchBuiltOk d U x ops b) {n c : Nat} (hsafe : SafePoint deletePatchFinishOps 3 n c) :
    Recovers (Files.crashAt deletePatchFinishOps n c d) x.tier x.view := by
  obtain ⟨hside, hjob⟩ := hb
  obtain ⟨g, hs, hids, hdim⟩ := hside.stored
  rcases hsafe with hn | ⟨hn, -⟩
  · exact h.recovers (Files.bounded_crashAt h.bounded _ _ _)
      fun k hk => read_crashAt_early (by simp) _ hn c hk
  · have hspares : SparesBase (removeTree .patching) := sparesBase_removeTree (by simp)
    have hs' := stored_renameOps (by simp) hs
    have hall : Lsm.replay (x.state ops).log (assoc (g.ids.zip b.base.quant)) = x.view := by
      have hbase : assoc (g.ids.zip b.base.quant) = b.base.map := by
        funext id
        rw [hids]
        exact (Segment.map_eq_assoc hside.seg.nodup hside.seg.length id).symm
      rw [hbase, ← Index.view_state x ops]
      exact h.inv.replay_patch hjob
    rw [show deletePatchFinishOps = renameOps .patching ++ removeTree .patching from rfl,
      Files.crashAt_append_of_le hn]
    refine h.recovers_swapped (Files.bounded_crashAt (Files.bounded_run h.bounded _) _ _ _) { hs' with
      graph := (hspares.read (by simp) _ _).trans hs'.graph
      vectors := (hspares.read (by simp) _ _).trans hs'.vectors }
      hdim hall (List.Subset.refl ops) hall (.inl ?_)
    rw [hspares.read (by simp)]
    simp [renameOps, Files.apply, Files.modify]

/-! ### Any crash -/

theorem SysInv.crash {s : Sys} (h : SysInv U ops s) (hU : U.card < 2 ^ 32) (a : Act) {n c : Nat}
    (hsafe : SafePoint (s.swapOps a) a.baseDone n c) :
    Recovers (Files.crashAt (s.swapOps a) n c s.dir) s.index.tier s.index.view := by
  have hnone : Recovers (Files.crashAt [] n c s.dir) s.index.tier s.index.view :=
    h.index.recovers (Files.bounded_crashAt h.index.bounded _ _ _) fun k _ => by simp [Files.crashAt]
  have hj := h.job
  cases a with
  | consolidate => exact h.index.crash_consolidate hU hsafe
  | finish =>
    rw [Sys.swapOps] at hsafe ⊢
    split at hsafe
    · rename_i b hjob
      rw [hjob] at hj
      obtain ⟨-, mark, hoff, -⟩ := id hj
      have hdecode : decodeWalPayload s.index.walFormat ((((s.dir .log).read .base).getD []).drop
          b.walOffset) s.index.dim = .ok (ops.drop mark) := by
        rw [h.index.read_log, ← h.index.wal]
        exact h.index.decode_suffix hoff
      simp only [hdecode] at hsafe ⊢
      exact h.index.crash_consolidateFinish hj hdecode _ hsafe
    · rename_i b hjob
      rw [hjob] at hj
      exact h.index.crash_deletePatchFinish hj.2 hsafe
    · exact hnone
  | _ => exact hnone

/-- Every state that calm and router actions reach from a directory that holds a map, every operation that
replaces the base, every crash at a safe point: the directory opens, and every id reads as the
acknowledged operations left it.  A consolidate beside an outstanding flush is not calm: `flush_finish`
then brings a vector back that the consolidate has folded, and no later crash point is safe. -/
theorem crash_recovers {m : UInt64 → Option Vec} (hU : U.card < 2 ^ 32) (hd : Holds d U m)
    (htier : tier.isDisk = true) {s₀ s : Sys} {hist : List Event} (hopen : Sys.opened d tier = some s₀)
    (hrun : Transition.Run Sys.step (fun _ s a => s.Calm U a ∨ a.Router) [] s₀ hist s) (a : Act)
    {n c : Nat} (hsafe : SafePoint (s.swapOps a) a.baseDone n c) :
    Recovers (Files.crashAt (s.swapOps a) n c s.dir) tier (mapOf m hist) := by
  obtain ⟨t, ops, ht, hinv, hview, htier'⟩ := sysInv_opened hd htier
  obtain rfl : t = s₀ := Option.some.inj (ht.symm.trans hopen)
  obtain ⟨ops', hinv', hview', -, htier''⟩ :=
    hinv.run (P := fun _ s a => s.Calm U a ∨ a.Router) (fun _ _ _ ha => ha) hU hrun
  have hcrash := hinv'.crash hU a hsafe
  rwa [hview', hview, htier'', htier'] at hcrash

end

section

attribute [local instance] linkedHashes exactNumerics

/-- A consolidate is stopped when both files of the new base are written, before the log is. -/
theorem crash_recovers_base_written : ∃ s₀ s : Sys, Sys.opened (Dir.created 1 64) .int8 = some s₀ ∧
    Transition.Run Sys.step (fun _ s a => s.Calm {0} a ∨ a.Router) [] s₀ [.inserted 0 [0x3f800000]] s ∧
    5 < (s.swapOps .consolidate).length ∧
      Recovers (Files.crashAt (s.swapOps .consolidate) 5 0 s.dir) .int8
        (mapOf (fun _ => none) [.inserted 0 [0x3f800000]]) := by
  obtain ⟨s₀, hist, s, hopen, hrun, rfl, hlen, hnext⟩ := exists_run_opened (Dir.created 1 64) .int8
    (fun hist s => hist = [.inserted 0 [0x3f800000]] ∧ 5 < (s.swapOps .consolidate).length ∧
      ((s.swapOps .consolidate)[5]?.all fun op => op matches .create .log .base) = true) id
    [.insert 0 [0x3f800000]]
    (show (Option.bind _ fun s => Transition.exec Sys.step (fun _ s a => s.InTurn {0} a) []
      (id s) _).any _ = true by decide +kernel)
  have hrun := hrun.mono (Q := fun _ s a => s.Calm {0} a ∨ a.Router) fun _ _ _ ha => .inl ha.calm
  refine ⟨s₀, s, hopen, hrun, hlen, crash_recovers (by decide)
    (holds_created (by decide) (by decide) (by decide) _) rfl hopen hrun .consolidate
    (.inr ⟨Nat.le_refl _, fun wal hwal => ?_⟩)⟩
  rw [hwal] at hnext
  cases hnext

/-- A consolidate is stopped when it has truncated the graph: the directory does not open. -/
theorem crash_loses_base : ¬ ∀ (U : Finset UInt64) (d : Dir) (m : UInt64 → Option Vec) (s₀ s : Sys)
    (hist : List Event) (a : Act) (n c : Nat), U.card < 2 ^ 32 → Holds d U m →
    Sys.opened d .int8 = some s₀ →
    Transition.Run Sys.step (fun _ s a => s.Calm U a ∨ a.Router) [] s₀ hist s →
      Recovers (Files.crashAt (s.swapOps a) n c s.dir) .int8 (mapOf m hist) := by
  intro h
  obtain ⟨s₀, hist, s, hopen, hrun, hfail⟩ := exists_run_opened (Dir.created 1 64) .int8
    (fun _ s => (openIndex (Files.crashAt (s.swapOps .consolidate) 2 0 s.dir) .base
      .int8).toOption.isNone = true) id [.insert 0 [0x3f800000]]
    (show (Option.bind _ fun s => Transition.exec Sys.step (fun _ s a => s.InTurn {0} a) []
      (id s) _).any _ = true by decide +kernel)
  obtain ⟨d', x', hok, -⟩ := h {0} _ _ s₀ s hist .consolidate 2 0 (by decide)
    (holds_created (by decide) (by decide) (by decide) _) hopen (hrun.mono fun _ _ _ ha => .inl ha.calm)
  rw [hok] at hfail
  cases hfail

end

end Vector

end Skeg
