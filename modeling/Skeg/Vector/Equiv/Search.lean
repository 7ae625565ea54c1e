import Skeg.Vector.Search
import Mathlib.Data.List.Perm.Basic
import Skeg.Vector.Equiv.Views

/-!
# Correctness of `searchInner`

Whatever candidates the walks come up with, a hit is the score of a vector that some layer has for an id
that is live and matches, and no id is scored twice (`rerank_ok`).  Which of the stored copies of an id is
scored depends on their quantised distances.  Where the stored copies of every id that is served from the
segments are the same, hits carry the scores of the current vectors (`IndexOk.searchInner_hits`,
`search_current`).
-/

namespace Skeg

namespace Vector

section

variable [N : Numerics] {d : Dir} {x : Index} {query : Vec} {matching : Option (UInt64 → Bool)}

/-! ### The rerank loop -/

/-- What is scored, with the vector it is scored by. -/
def scores (query : Vec) (hits : List (UInt64 × Vec)) : List (N.Score × UInt64) :=
  hits.map fun h => (N.cosine query h.2, h.1)

theorem rerank_ok {budget reads : Nat} {cands : List (N.Dist × Segment × Nat)} {seen : Finset UInt64}
    {scored out : List (N.Score × UInt64)}
    (h : x.rerank d query matching budget cands reads seen scored = .ok out) :
    ∃ hits : List (UInt64 × Vec), out = scored ++ scores query hits ∧ (hits.map Prod.fst).Nodup ∧
      ∀ hit ∈ hits, hit.1 ∉ seen ∧ x.admits matching hit.1 = true ∧
        ∃ c ∈ cands, c.2.1.ids[c.2.2]? = some hit.1 ∧ readRow d x.dim c.2.1 c.2.2 = .ok hit.2 := by
  induction cands generalizing reads seen scored with
  | nil =>
    obtain rfl := Except.ok.inj h
    exact ⟨[], by simp [scores], by simp, by simp⟩
  | cons c cands ih =>
    obtain ⟨dist, seg, row⟩ := c
    rw [Index.rerank] at h
    split at h
    · obtain rfl := Except.ok.inj h
      exact ⟨[], by simp [scores], by simp, by simp⟩
    · split at h
      · cases h
      · rename_i id hid
        split at h
        · obtain ⟨hits, hout, hnodup, hhits⟩ := ih h
          refine ⟨hits, hout, hnodup, fun hit hhit => ?_⟩
          obtain ⟨hnew, hadmits, c, hc, hread⟩ := hhits hit hhit
          exact ⟨hnew, hadmits, c, by simp [hc], hread⟩
        · rename_i hskip
          split at h
          · cases h
          · rename_i v hv
            obtain ⟨hits, hout, hnodup, hhits⟩ := ih h
            refine ⟨(id, v) :: hits, by simp [hout, scores], ?_, fun hit hhit => ?_⟩
            · rw [List.map_cons, List.nodup_cons]
              refine ⟨fun hmem => ?_, hnodup⟩
              obtain ⟨hit, hhit, rfl⟩ := List.mem_map.mp hmem
              exact (hhits hit hhit).1 (Finset.mem_insert_self ..)
            · rcases List.mem_cons.mp hhit with rfl | hhit
              · push Not at hskip
                exact ⟨hskip.2, by simpa using hskip.1, (dist, seg, row), by simp, hid, hv⟩
              · obtain ⟨hnew, hadmits, c, hc, hread⟩ := hhits hit hhit
                exact ⟨fun hmem => hnew (Finset.mem_insert_of_mem hmem), hadmits, c, by simp [hc], hread⟩

theorem mem_of_candidates {walk : Nat → Segment → Except Fault (List (N.Dist × Nat))}
    {rescore : Segment → Nat → N.Dist → N.Dist} {i : Nat} {segs : List Segment}
    {cands : List (N.Dist × Segment × Nat)} (h : Index.candidates walk rescore i segs = .ok cands) :
    ∀ c ∈ cands, c.2.1 ∈ segs := by
  induction segs generalizing i cands with
  | nil =>
    obtain rfl := Except.ok.inj h
    simp
  | cons seg segs ih =>
    intro c hc
    rw [Index.candidates] at h
    split at h
    · exact List.mem_cons_of_mem _ (ih h c hc)
    · split at h
      · cases h
      · obtain ⟨rest, hrest, rfl⟩ := map_eq_ok h
        rcases List.mem_append.mp hc with hc | hc
        · obtain ⟨c', -, rfl⟩ := List.mem_map.mp hc
          simp
        · exact List.mem_cons_of_mem _ (ih hrest c hc)

/-! ### The delta -/

/-- What is scored without a read. -/
def deltaHits (x : Index) (matching : Option (UInt64 → Bool)) : List (UInt64 × Vec) :=
  ((x.delta.entries.filter fun e => matching.all fun m => m e.1) ++
    (x.flushing.entries.filter fun e =>
      (x.delta.lookup e.1).isNone && matching.all fun m => m e.1)).map fun e => (e.1, e.2)

theorem scanDelta_eq (x : Index) (query : Vec) (matching : Option (UInt64 → Bool)) :
    x.scanDelta query matching = scores query (deltaHits x matching) := by
  rw [Index.scanDelta, scores, deltaHits, List.map_map]
  rfl

omit N in
theorem mem_deltaHits {hit : UInt64 × Vec} (h : hit ∈ deltaHits x matching) :
    (x.delta.lookup hit.1).or (x.flushing.lookup hit.1) = some hit.2 ∧
      (matching.all fun m => m hit.1) = true := by
  obtain ⟨e, he, rfl⟩ := List.mem_map.mp h
  rcases List.mem_append.mp he with he | he
  · obtain ⟨he, hmatch⟩ := List.mem_filter.mp he
    rw [AList.mem_lookup_iff.mpr he]
    exact ⟨rfl, hmatch⟩
  · obtain ⟨he, hcond⟩ := List.mem_filter.mp he
    obtain ⟨hnone, hmatch⟩ := Bool.and_eq_true_iff.mp hcond
    rw [Option.isNone_iff_eq_none.mp hnone, AList.mem_lookup_iff.mpr he]
    exact ⟨rfl, hmatch⟩

omit N in
theorem nodup_deltaHits (x : Index) (matching : Option (UInt64 → Bool)) :
    ((deltaHits x matching).map Prod.fst).Nodup := by
  have hkeys : ∀ (m : VecMap) (p : (_ : UInt64) × Vec → Bool),
      ((m.entries.filter p).map fun e => e.1).Nodup := fun m p =>
    List.NodupKeys.sublist List.filter_sublist m.nodupKeys
  rw [deltaHits, List.map_map, List.map_append, List.nodup_append]
  refine ⟨hkeys _ _, hkeys _ _, fun a ha b hb => ?_⟩
  obtain ⟨e, he, rfl⟩ := List.mem_map.mp ha
  obtain ⟨e', he', rfl⟩ := List.mem_map.mp hb
  have hin := AList.mem_lookup_iff.mpr (List.mem_of_mem_filter he)
  have hnone := (Bool.and_eq_true_iff.mp (List.mem_filter.mp he').2).1
  rintro (heq : e.1 = e'.1)
  rw [← heq, Option.mem_def.mp hin] at hnone
  cases hnone

/-! ### Hits -/

/-- A list of hits: each is a live id that matches, with the score of the vector the view has for it. -/
structure HitsOk (view : UInt64 → Option Vec) (query : Vec) (k : Nat) (matching : Option (UInt64 → Bool))
    (hits : List (UInt64 × N.Score)) : Prop where
  length : hits.length ≤ k
  sorted : hits.Pairwise fun a b => b.2 ≤ a.2
  nodup : (hits.map Prod.fst).Nodup
  current : ∀ hit ∈ hits, (matching.all fun m => m hit.1) = true ∧
    ∃ v, view hit.1 = some v ∧ hit.2 = N.cosine query v

theorem hitsOk_nil (view : UInt64 → Option Vec) (query : Vec) (k : Nat)
    (matching : Option (UInt64 → Bool)) : HitsOk view query k matching [] :=
  ⟨Nat.zero_le _, .nil, .nil, by simp⟩

/-- The best `k` of what is scored. -/
theorem hitsOk_scores {view : UInt64 → Option Vec} {k : Nat} {hits : List (UInt64 × Vec)}
    (hnodup : (hits.map Prod.fst).Nodup)
    (hhits : ∀ hit ∈ hits, (matching.all fun m => m hit.1) = true ∧ view hit.1 = some hit.2) :
    HitsOk view query k matching
      ((((scores query hits).insertionSort fun a b => b.1 ≤ a.1).take k).map fun h => (h.2, h.1)) := by
  set sorted := (scores query hits).insertionSort fun a b => b.1 ≤ a.1 with hsorted
  have hperm : sorted.Perm (scores query hits) := List.perm_insertionSort ..
  refine ⟨?_, ?_, ?_, ?_⟩
  · rw [List.length_map, List.length_take]
    exact Nat.min_le_left ..
  · rw [List.pairwise_map]
    exact (List.pairwise_insertionSort _ _).sublist (List.take_sublist ..)
  · rw [List.map_map]
    have hids : (sorted.map Prod.snd).Nodup := by
      rw [(hperm.map _).nodup_iff, scores, List.map_map]
      exact hnodup
    exact hids.sublist ((List.take_sublist ..).map _)
  · intro hit hhit
    obtain ⟨s, hs, rfl⟩ := List.mem_map.mp hhit
    obtain ⟨h, hh, rfl⟩ := List.mem_map.mp (hperm.mem_iff.mp (List.mem_of_mem_take hs))
    exact ⟨(hhits h hh).1, h.2, (hhits h hh).2, rfl⟩

variable [H : Hashes] {U : Finset UInt64} {ops : List DeltaWalOp} {m : UInt64 → Option Vec}
  {tier : QuantKind}

/-- Where an id is served from the segments, its stored copies are the same. -/
def Index.Uniform (x : Index) (id : UInt64) : Prop :=
  id ∉ x.tombstones → x.delta.lookup id = none → x.flushing.lookup id = none →
    ∀ v ∈ x.copies id, ∀ w ∈ x.copies id, v = w

omit N H in
theorem admits_iff (id : UInt64) : x.admits matching id = true ↔ id ∉ x.tombstones ∧
    x.delta.lookup id = none ∧ x.flushing.lookup id = none ∧ (matching.all fun m => m id) = true := by
  simp [Index.admits, and_assoc]

omit N in
/-- A row that may be a hit holds what the view has, if the stored copies are the same. -/
theorem IndexOk.view_of_row (h : IndexOk d U x ops) (huniform : ∀ id, x.Uniform id) {seg : Segment}
    (hseg : seg ∈ x.segs) {row : Nat} {id : UInt64} {v : Vec} (hid : seg.ids[row]? = some id)
    (hread : readRow d x.dim seg row = .ok v) (hadmits : x.admits matching id = true) :
    x.view id = some v := by
  obtain ⟨htomb, hdelta, hflushing, -⟩ := (admits_iff id).mp hadmits
  have hok := h.segOk hseg
  have hlt : row < seg.quant.length := hok.length ▸ (List.getElem?_eq_some_iff.mp hid).1
  have hquant := List.getElem?_eq_getElem hlt
  obtain rfl : seg.quant[row] = v := Except.ok.inj ((hok.readRow hquant).symm.trans hread)
  have hcopy : seg.quant[row] ∈ x.copies id := by
    refine List.mem_filterMap.mpr ⟨seg, hseg, ?_⟩
    rw [Segment.map, (Segment.row_eq_some hok.nodup).mpr hid, Option.bind_some, hquant]
  obtain ⟨w, hw⟩ : ∃ w, (x.copies id).getLast? = some w := by
    cases hlast : (x.copies id).getLast? with
    | none => simp [List.getLast?_eq_none_iff.mp hlast] at hcopy
    | some w => exact ⟨w, rfl⟩
  rw [view_eq_newest, if_neg htomb, hdelta, hflushing, hw,
    huniform id htomb hdelta hflushing _ (List.mem_of_getLast? hw) _ hcopy]
  rfl

omit N in
theorem IndexOk.view_of_delta (h : IndexOk d U x ops) {hit : UInt64 × Vec}
    (hhit : hit ∈ deltaHits x matching) : x.view hit.1 = some hit.2 := by
  obtain ⟨hlookup, -⟩ := mem_deltaHits hhit
  -- nothing that is tombstoned is in the delta or is being flushed
  have htomb : hit.1 ∉ x.tombstones := by
    intro hdead
    have hdelta : x.delta.lookup hit.1 = none := h.inv.delta _ hdead
    have hstaged : x.flushing.lookup hit.1 = none := h.inv.staged _ hdead
    rw [hdelta, hstaged] at hlookup
    cases hlookup
  rw [Index.view, if_neg htomb, ← Option.or_assoc, hlookup]
  rfl

/-- Where the stored copies of every id are the same, the hits are those of the view. -/
theorem IndexOk.searchInner_hits (h : IndexOk d U x ops) (huniform : ∀ id, x.Uniform id)
    {k lSearch : Nat} {seeds : List UInt64} {selectivity : F32} {rerankOverride : Option Nat}
    {out : List (UInt64 × N.Score)}
    (hout : x.searchInner d query k lSearch matching seeds selectivity rerankOverride = .ok out) :
    HitsOk x.view query k matching out := by
  rw [Index.searchInner] at hout
  dsimp only at hout
  split at hout
  · cases hout
  · split at hout
    · obtain rfl := Except.ok.inj hout
      exact hitsOk_nil ..
    · split at hout
      · cases hout
      · rename_i cands hcands
        split at hout
        · cases hout
        · rename_i scored hscored
          obtain rfl := Except.ok.inj hout
          obtain ⟨hits, rfl, hnodup, hhits⟩ := rerank_ok hscored
          rw [List.nil_append, scanDelta_eq, scores, scores, ← List.map_append, ← scores]
          refine hitsOk_scores ?_ fun hit hhit => ?_
          · rw [List.map_append, List.nodup_append]
            refine ⟨hnodup, nodup_deltaHits x matching, fun a ha b hb => ?_⟩
            obtain ⟨hit, hhit, rfl⟩ := List.mem_map.mp ha
            obtain ⟨hit', hhit', rfl⟩ := List.mem_map.mp hb
            obtain ⟨-, hdelta, hflushing, -⟩ := (admits_iff _).mp (hhits hit hhit).2.1
            rintro heq
            have hlookup := (mem_deltaHits hhit').1
            rw [← heq, hdelta, hflushing] at hlookup
            cases hlookup
          · rcases List.mem_append.mp hhit with hhit | hhit
            · obtain ⟨-, hadmits, c, hc, hid, hread⟩ := hhits hit hhit
              have hseg := mem_of_candidates hcands c ((List.mem_insertionSort _).mp hc)
              exact ⟨((admits_iff _).mp hadmits).2.2.2, h.view_of_row huniform hseg hid hread hadmits⟩
            · exact ⟨(mem_deltaHits hhit).2, h.view_of_delta hhit⟩

/-! ### Every run -/

/-- In every run of actions that do not get in the way of an outstanding job, a search in a state where the
stored copies of every id are the same returns live ids that match, each once, the best first, with the
scores of their last inserts. -/
theorem search_current (hU : U.card < 2 ^ 32) (hd : Holds d U m) (htier : tier.isDisk = true)
    {s₀ s : Sys} {hist : List Event} (hopen : Sys.opened d tier = some s₀)
    (hrun : Transition.Run Sys.step (fun _ s a => s.Calm U a ∨ a.Router) [] s₀ hist s)
    (huniform : ∀ id, s.index.Uniform id) (query : Vec) (k : Nat) :
    (∀ hits, s.index.search s.dir query k = .ok hits → HitsOk (mapOf m hist) query k none hits) ∧
      ∀ lSearch matching seeds selectivity hits,
        s.index.searchFiltered s.dir query k lSearch matching seeds selectivity = .ok hits →
          HitsOk (mapOf m hist) query k (some matching) hits := by
  obtain ⟨t, ops, ht, hinv, hview, -⟩ := sysInv_opened hd htier
  obtain rfl : t = s₀ := Option.some.inj (ht.symm.trans hopen)
  obtain ⟨ops', hinv', hview', -, -⟩ :=
    hinv.run (P := fun _ s a => s.Calm U a ∨ a.Router) (fun _ _ _ ha => ha) hU hrun
  rw [hview] at hview'
  rw [← hview']
  exact ⟨fun hits hhits => hinv'.index.searchInner_hits huniform hhits,
    fun _ _ _ _ hits hhits => hinv'.index.searchInner_hits huniform hhits⟩

end

theorem uniform_of_runs {x : Index} (h : x.runs = []) (id : UInt64) : x.Uniform id := by
  intro _ _ _ v hv w hw
  rw [Index.copies, Index.segs, h, List.mem_filterMap] at hv hw
  obtain ⟨s, hs, hv⟩ := hv
  obtain ⟨t, ht, hw⟩ := hw
  rw [List.mem_singleton.mp hs] at hv
  rw [List.mem_singleton.mp ht] at hw
  exact Option.some.inj (hv.symm.trans hw)

section

attribute [local instance] linkedHashes exactNumerics

/-- One id is in the base and the other is being flushed. -/
theorem search_current_flushing : ∃ s₀ s : Sys, ∃ hits, Sys.opened (Dir.created 1 64) .int8 = some s₀ ∧
    Transition.Run Sys.step (fun _ s a => s.Calm {0, 1} a ∨ a.Router) [] s₀
      [.inserted 0 [0x3f800000], .inserted 1 [0x40000000]] s ∧
    s.index.search s.dir [0x3f800000] 2 = .ok hits ∧ hits.length = 2 ∧
      HitsOk (mapOf (fun _ => none) [.inserted 0 [0x3f800000], .inserted 1 [0x40000000]])
        [0x3f800000] 2 none hits := by
  obtain ⟨s₀, hist, s, hopen, hrun, rfl, hruns, hlen⟩ := exists_run_opened (Dir.created 1 64) .int8
    (fun hist s => hist = [.inserted 0 [0x3f800000], .inserted 1 [0x40000000]] ∧ s.index.runs = [] ∧
      (s.index.search s.dir [0x3f800000] 2).toOption.map List.length = some 2) id
    [.insert 0 [0x3f800000], .consolidate, .insert 1 [0x40000000], .begin .flush]
    (show (Option.bind _ fun s => Transition.exec Sys.step (fun _ s a => s.InTurn {0, 1} a) []
      (id s) _).any _ = true by decide +kernel)
  have hrun := hrun.mono (Q := fun _ s a => s.Calm {0, 1} a ∨ a.Router) fun _ _ _ ha => .inl ha.calm
  cases hsearch : s.index.search s.dir [0x3f800000] 2 with
  | error e =>
    rw [hsearch] at hlen
    cases hlen
  | ok hits =>
    rw [hsearch] at hlen
    exact ⟨s₀, s, hits, hopen, hrun, hsearch, Option.some.inj hlen,
      (search_current (by decide) (holds_created (by decide) (by decide) (by decide) _) rfl hopen hrun
        (uniform_of_runs hruns) [0x3f800000] 2).1 hits hsearch⟩

/-- Two runs hold an id, and the older copy is nearer to the query: it is the one that is scored. -/
theorem search_scores_stale_copy : ¬ ∀ (U : Finset UInt64) (d : Dir) (m : UInt64 → Option Vec)
    (s₀ s : Sys) (hist : List Event) (query : Vec) (k : Nat) (hits : List (UInt64 × Numerics.Score)),
    U.card < 2 ^ 32 → Holds d U m → Sys.opened d .int8 = some s₀ →
    Transition.Run Sys.step (fun _ s a => s.Calm U a ∨ a.Router) [] s₀ hist s →
    s.index.search s.dir query k = .ok hits → HitsOk (mapOf m hist) query k none hits := by
  intro h
  obtain ⟨s₀, hist, s, hopen, hrun, rfl, hstale⟩ := exists_run_opened (Dir.created 1 64) .int8
    (fun hist s => hist = [.inserted 0 [0x3f800000], .inserted 0 [0xc0000000]] ∧
      (s.index.search s.dir [0x3f800000] 1).toOption.any (fun hits => hits.any fun hit =>
        hit.1 = 0 ∧ hit.2 ≠ Numerics.cosine [0x3f800000] [0xc0000000]) = true) id
    [.insert 0 [0x3f800000], .begin .flush, .build, .finish, .insert 0 [0xc0000000], .begin .flush,
      .build, .finish]
    (show (Option.bind _ fun s => Transition.exec Sys.step (fun _ s a => s.InTurn {0} a) []
      (id s) _).any _ = true by decide +kernel)
  cases hsearch : s.index.search s.dir [0x3f800000] 1 with
  | error e =>
    rw [hsearch] at hstale
    cases hstale
  | ok hits =>
    rw [hsearch] at hstale
    obtain ⟨hit, hhit, hbad⟩ := List.any_eq_true.mp hstale
    obtain ⟨hzero, hscore⟩ := of_decide_eq_true hbad
    have hok := h {0} _ _ s₀ s _ [0x3f800000] 1 hits (by decide)
      (holds_created (by decide) (by decide) (by decide) _) hopen
      (hrun.mono fun _ _ _ ha => .inl ha.calm) hsearch
    obtain ⟨v, hv, heq⟩ := (hok.current hit hhit).2
    rw [hzero] at hv
    obtain rfl := Option.some.inj hv
    exact hscore heq

end

end Vector

end Skeg
