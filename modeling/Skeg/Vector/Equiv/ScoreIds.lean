import Skeg.Lib.TopK
import Skeg.Vector.Equiv.Search

/-!
# Correctness of `score_ids_quantized`

The ids of a list are looked up one by one: in the delta, then in the runs from the newest on, then in the base.  When
none of the stored candidates is dropped for its quantised score, all of them are read and scored, and the result is
the best of the ids that are found (`IndexOk.scoreIdsQuantized`).

What a flush is about to write is not looked at.  An id that is only there is left out, although it is live, and one
that has an older copy in a segment is scored by that (`score_ids_skips_flushing`).  So the result is right for every
`k` exactly if each id of the list that is being flushed has an older copy with the same score (`score_ids_exact_iff`).
-/

namespace Skeg

namespace Vector

section

variable [N : Numerics] {d : Dir} {U : Finset UInt64} {x : Index} {ops : List DeltaWalOp} {query : Vec}

/-- The live ids of a list, each with its score. -/
def ranked (view : UInt64 → Option Vec) (query : Vec) (ids : List UInt64) : List (UInt64 × N.Score) :=
  ids.dedup.filterMap fun id => (view id).map fun v => (id, N.cosine query v)

/-- The live ids of a list that are stored outside the delta. -/
def outsideDelta (view : UInt64 → Option Vec) (x : Index) (ids : List UInt64) : List UInt64 :=
  ids.dedup.filter fun id => (view id).isSome && (x.delta.lookup id).isNone

/-- The vector of an id in the newest segment that holds it. -/
def Index.stored (x : Index) (id : UInt64) : Option Vec := (x.newestRow id).bind fun p => p.1.quant[p.2]?

/-- The vector an id is scored by. -/
def Index.served (x : Index) (id : UInt64) : Option Vec :=
  if id ∈ x.tombstones then none else (x.delta.lookup id).or (x.stored id)

/-- An id of the list whose vector is about to be written is scored as by that vector. -/
def SameScore (x : Index) (query : Vec) (ids : List UInt64) : Prop :=
  ∀ id ∈ ids, id ∉ x.tombstones → x.delta.lookup id = none → ∀ v, x.flushing.lookup id = some v →
    ∃ w, x.stored id = some w ∧ N.cosine query w = N.cosine query v

/-! ### The newest stored copy -/

omit N in
theorem findSome?_row {segs : List Segment} (h : ∀ s ∈ segs, SegOk d U x.dim s) (id : UInt64) :
    segs.findSome? (Segment.map · id) =
      (segs.findSome? fun s => (s.row id).map fun row => (s, row)).bind fun p => p.1.quant[p.2]? := by
  induction segs with
  | nil => rfl
  | cons s segs ih =>
    rw [List.findSome?_cons, List.findSome?_cons]
    cases hrow : s.row id with
    | none =>
      have hmap : s.map id = none := by rw [Segment.map, hrow]; rfl
      rw [hmap]
      exact ih fun s hs => h s (List.mem_cons_of_mem _ hs)
    | some row =>
      have hok := h s List.mem_cons_self
      have hlt : row < s.quant.length :=
        hok.length ▸ (List.getElem?_eq_some_iff.mp ((Segment.row_eq_some hok.nodup).mp hrow)).1
      have hmap : s.map id = some s.quant[row] := by
        rw [Segment.map, hrow, Option.bind_some, List.getElem?_eq_getElem hlt]
      rw [hmap]
      exact (List.getElem?_eq_getElem hlt).symm

variable [H : Hashes]

omit N in
theorem IndexOk.view_eq (h : IndexOk d U x ops) {id : UInt64} (hdead : id ∉ x.tombstones) :
    x.view id = (x.delta.lookup id).or ((x.flushing.lookup id).or (x.stored id)) := by
  have hsegs : ∀ s ∈ x.runs.reverse ++ [x.base], SegOk d U x.dim s := fun s hs => h.segOk (by
    simpa [Index.segs, or_comm] using hs)
  have hstored : x.stored id = (runsMap x.runs id).or (x.base.map id) := by
    rw [Index.stored, Index.newestRow, ← findSome?_row hsegs, List.findSome?_append, runsMap]
    cases hb : x.base.map id <;> simp [hb]
  rw [Index.view, if_neg hdead, hstored]

/-- Reading the newest stored copy scores the current vector. -/
theorem IndexOk.scoreRow (h : IndexOk d U x ops) {id : UInt64} {s : Segment} {row : Nat}
    (hrow : x.newestRow id = some (s, row)) (p : N.Dist) :
    ∃ v, s.quant[row]? = some v ∧ x.scoreRow d query (p, s, row) = .ok (N.cosine query v, id) := by
  obtain ⟨t, ht, hfound⟩ := List.exists_of_findSome?_eq_some hrow
  obtain ⟨row', hrow', heq⟩ := Option.map_eq_some_iff.mp hfound
  obtain ⟨rfl, rfl⟩ := Prod.mk.inj heq
  have hok : SegOk d U x.dim t := h.segOk (by simpa [Index.segs, or_comm] using ht)
  have hid := (Segment.row_eq_some hok.nodup).mp hrow'
  have hlt : row' < t.quant.length := hok.length ▸ (List.getElem?_eq_some_iff.mp hid).1
  have hquant := List.getElem?_eq_getElem hlt
  refine ⟨t.quant[row'], hquant, ?_⟩
  have hread : readRow d x.dim t row' = .ok t.quant[row'] := hok.readRow hquant
  simp only [Index.scoreRow, hread, hid]

/-! ### The scan -/

/-- What a scan finds: the entries of the delta and the stored ones, each id once. -/
structure Found (d : Dir) (x : Index) (query : Vec) (ids : List UInt64) (seen : Finset UInt64)
    (delta stored : List (UInt64 × Vec)) (r : List (N.Dist × Segment × Nat) × List (N.Score × UInt64)) : Prop where
  scored : r.2 = scores query delta
  cand : r.1.map (x.scoreRow d query) = (scores query stored).map .ok
  nodup : ((delta ++ stored).map Prod.fst).Nodup
  current : ∀ h ∈ delta ++ stored, h.1 ∈ ids ∧ h.1 ∉ seen ∧ x.served h.1 = some h.2
  complete : ∀ id ∈ ids, id ∉ seen → ∀ v, x.served id = some v → (id, v) ∈ delta ++ stored
  outside : ∀ h ∈ stored, x.delta.lookup h.1 = none

omit H in
/-- An id that is dead, or has been seen, changes nothing. -/
theorem Found.skip {ids : List UInt64} {seen : Finset UInt64} {delta stored : List (UInt64 × Vec)}
    {r : List (N.Dist × Segment × Nat) × List (N.Score × UInt64)} (h : Found d x query ids seen delta stored r)
    {id : UInt64} (hid : id ∈ seen ∨ x.served id = none) : Found d x query (id :: ids) seen delta stored r where
  scored := h.scored
  cand := h.cand
  nodup := h.nodup
  current hit hhit := by
    obtain ⟨hmem, hseen, hview⟩ := h.current hit hhit
    exact ⟨List.mem_cons_of_mem _ hmem, hseen, hview⟩
  complete id' hid' hseen v hv := by
    rcases List.mem_cons.mp hid' with rfl | hid'
    · rcases hid with hid | hid
      · exact absurd hid hseen
      · rw [hid] at hv
        cases hv
    · exact h.complete id' hid' hseen v hv
  outside := h.outside

omit H in
/-- An id that is not there has been seen. -/
theorem Found.absent {ids : List UInt64} {id : UInt64} {seen : Finset UInt64} {delta stored : List (UInt64 × Vec)}
    {r : List (N.Dist × Segment × Nat) × List (N.Score × UInt64)}
    (h : Found d x query ids (insert id seen) delta stored r) (hv : x.served id = none) :
    Found d x query (id :: ids) seen delta stored r where
  scored := h.scored
  cand := h.cand
  nodup := h.nodup
  outside := h.outside
  current hit hhit := by
    obtain ⟨hmem, hnot, hview⟩ := h.current hit hhit
    exact ⟨List.mem_cons_of_mem _ hmem, fun hs => hnot (Finset.mem_insert_of_mem hs), hview⟩
  complete id' hid' hseen' w hw := by
    have hne : id' ≠ id := by
      rintro rfl
      rw [hv] at hw
      cases hw
    refine h.complete id' ((List.mem_cons.mp hid').resolve_left hne) (fun hs => ?_) w hw
    exact (Finset.mem_insert.mp hs).elim hne hseen'

omit H in
/-- An id that is found is added. -/
theorem Found.add {ids : List UInt64} {id : UInt64} {seen : Finset UInt64} {delta stored delta' stored' : List (UInt64 × Vec)}
    {r r' : List (N.Dist × Segment × Nat) × List (N.Score × UInt64)}
    (h : Found d x query ids (insert id seen) delta stored r) (hseen : id ∉ seen) {v : Vec} (hv : x.served id = some v)
    (hperm : (delta' ++ stored').Perm ((id, v) :: (delta ++ stored))) (hscored : r'.2 = scores query delta')
    (hcand : r'.1.map (x.scoreRow d query) = (scores query stored').map .ok)
    (hout : ∀ h ∈ stored', x.delta.lookup h.1 = none) : Found d x query (id :: ids) seen delta' stored' r' where
  scored := hscored
  cand := hcand
  outside := hout
  nodup := by
    rw [(hperm.map Prod.fst).nodup_iff, List.map_cons, List.nodup_cons]
    refine ⟨fun hmem => ?_, h.nodup⟩
    obtain ⟨hit, hhit, heq⟩ := List.mem_map.mp hmem
    exact (h.current hit hhit).2.1 (heq ▸ Finset.mem_insert_self id seen)
  current hit hhit := by
    rcases List.mem_cons.mp (hperm.mem_iff.mp hhit) with rfl | hhit
    · exact ⟨List.mem_cons_self, hseen, hv⟩
    · obtain ⟨hmem, hnot, hview⟩ := h.current hit hhit
      exact ⟨List.mem_cons_of_mem _ hmem, fun hs => hnot (Finset.mem_insert_of_mem hs), hview⟩
  complete id' hid' hseen' w hw := by
    rw [hperm.mem_iff, List.mem_cons]
    by_cases heq : id' = id
    · subst heq
      exact .inl (by rw [Option.some.inj (hw.symm.trans hv)])
    · have hmem : id' ∈ ids := (List.mem_cons.mp hid').resolve_left heq
      refine .inr (h.complete id' hmem (fun hs => ?_) w hw)
      exact (Finset.mem_insert.mp hs).elim heq hseen'

theorem IndexOk.scanIds (h : IndexOk d U x ops) (ids : List UInt64) (seen : Finset UInt64) :
    ∃ delta stored, Found d x query ids seen delta stored (x.scanIds query ids seen) := by
  induction ids generalizing seen with
  | nil => exact ⟨[], [], rfl, rfl, .nil, nofun, nofun, nofun⟩
  | cons id ids ih =>
    rw [Index.scanIds]
    by_cases hskip : id ∈ x.tombstones ∨ id ∈ seen
    · rw [if_pos hskip]
      obtain ⟨delta, stored, hfound⟩ := ih seen
      refine ⟨delta, stored, hfound.skip (hskip.symm.imp_right fun hdead => ?_)⟩
      rw [Index.served, if_pos hdead]
    · rw [if_neg hskip]
      obtain ⟨hdead, hseen⟩ := not_or.mp hskip
      obtain ⟨delta, stored, hfound⟩ := ih (Insert.insert id seen)
      have hserved : x.served id = (x.delta.lookup id).or (x.stored id) := if_neg hdead
      cases hdelta : x.delta.lookup id with
      | some v =>
        rw [hdelta] at hserved
        refine ⟨(id, v) :: delta, stored, hfound.add hseen hserved (.refl _) ?_ hfound.cand hfound.outside⟩
        exact congrArg (_ :: ·) hfound.scored
      | none =>
        rw [hdelta, Option.none_or, Index.stored] at hserved
        cases hrow : x.newestRow id with
        | none =>
          rw [hrow] at hserved
          exact ⟨delta, stored, hfound.absent hserved⟩
        | some p =>
          obtain ⟨s, row⟩ := p
          have hscore : ∃ v, s.quant[row]? = some v ∧
              x.scoreRow d query (N.proxyRescore x.tier s.quant row query, s, row) = .ok (N.cosine query v, id) :=
            h.scoreRow hrow _
          obtain ⟨v, hv, hscore⟩ := hscore
          rw [hrow, Option.bind_some, hv] at hserved
          refine ⟨delta, (id, v) :: stored, hfound.add hseen hserved List.perm_middle hfound.scored ?_ ?_⟩
          · rw [List.map_cons, hscore, hfound.cand]
            rfl
          · intro hit hhit
            rcases List.mem_cons.mp hhit with rfl | hhit
            · exact hdelta
            · exact hfound.outside hit hhit

/-! ### The result -/

omit N H in
theorem mapM_of_map_ok {ε α β : Type} {g : α → Except ε β} {l : List α} {m : List β} (h : l.map g = m.map .ok) :
    l.mapM g = .ok m := by
  induction l generalizing m with
  | nil =>
    obtain rfl := List.map_eq_nil_iff.mp h.symm
    rfl
  | cons a l ih =>
    obtain _ | ⟨b, m⟩ := m
    · cases h
    · obtain ⟨ha, hl⟩ := List.cons.inj h
      rw [List.mapM_cons, ha, ih hl]
      rfl

omit N H in
/-- Calls that all succeed succeed in any order. -/
theorem mapM_perm {ε α β : Type} {g : α → Except ε β} {l l' : List α} {m : List β} (h : l.map g = m.map .ok)
    (hperm : l'.Perm l) : ∃ m', l'.mapM g = .ok m' ∧ m'.Perm m := by
  have hok : l'.map g ∈ Set.range (List.map (Except.ok (ε := ε) (α := β))) := by
    rw [Set.range_list_map]
    intro r hr
    have hmem := (hperm.map g).mem_iff.mp hr
    rw [h] at hmem
    obtain ⟨b, -, rfl⟩ := List.mem_map.mp hmem
    exact ⟨b, rfl⟩
  obtain ⟨m', hm'⟩ := hok
  refine ⟨m', mapM_of_map_ok hm'.symm, ?_⟩
  have hmap : (m'.map (Except.ok (ε := ε))).Perm (m.map .ok) := by
    rw [hm', ← h]
    exact hperm.map g
  exact (List.map_perm_map_iff fun _ _ => Except.ok.inj).mp hmap

variable {ids : List UInt64} {delta stored : List (UInt64 × Vec)}
  {r : List (N.Dist × Segment × Nat) × List (N.Score × UInt64)}

omit H in
/-- What is found are the live ids. -/
theorem Found.perm_ranked (h : Found d x query ids ∅ delta stored r) :
    ((delta ++ stored).map fun h => (h.1, N.cosine query h.2)).Perm (ranked x.served query ids) := by
  have hfst : ((delta ++ stored).map fun h => (h.1, N.cosine query h.2)).map Prod.fst = (delta ++ stored).map Prod.fst := by
    rw [List.map_map]
    rfl
  refine (List.perm_ext_iff_of_nodup (.of_map Prod.fst (hfst ▸ h.nodup)) ?_).mpr fun hit => ?_
  · refine List.Nodup.filterMap (fun id id' hit hhit hhit' => ?_) (List.nodup_dedup ids)
    obtain ⟨v, -, rfl⟩ := Option.map_eq_some_iff.mp hhit
    obtain ⟨v', -, heq⟩ := Option.map_eq_some_iff.mp hhit'
    exact (Prod.mk.inj heq).1.symm
  · rw [ranked, List.mem_map, List.mem_filterMap]
    constructor
    · rintro ⟨h', hh', rfl⟩
      obtain ⟨hmem, -, hview⟩ := h.current h' hh'
      exact ⟨h'.1, List.mem_dedup.mpr hmem, by rw [hview]; rfl⟩
    · rintro ⟨id, hid, hview⟩
      obtain ⟨v, hv, rfl⟩ := Option.map_eq_some_iff.mp hview
      exact ⟨(id, v), h.complete id (List.mem_dedup.mp hid) (Finset.notMem_empty id) v hv, rfl⟩

omit N in
/-- What is scored is live. -/
theorem IndexOk.view_of_served (h : IndexOk d U x ops) {id : UInt64} {v : Vec} (hv : x.served id = some v) :
    (x.view id).isSome := by
  rw [Index.served] at hv
  split_ifs at hv with hdead
  rw [h.view_eq hdead]
  cases hdelta : x.delta.lookup id with
  | some w => rfl
  | none =>
    rw [hdelta, Option.none_or] at hv
    rw [Option.none_or, hv]
    cases x.flushing.lookup id <;> rfl

theorem IndexOk.length_stored (h : IndexOk d U x ops) (hfound : Found d x query ids ∅ delta stored r) :
    stored.length ≤ (outsideDelta x.view x ids).length := by
  have hnodup : (stored.map Prod.fst).Nodup := by
    have := hfound.nodup
    rw [List.map_append] at this
    exact (List.nodup_append'.mp this).2.1
  have hsub : stored.map Prod.fst ⊆ outsideDelta x.view x ids := by
    intro id hid
    obtain ⟨hit, hhit, rfl⟩ := List.mem_map.mp hid
    obtain ⟨hmem, -, hserved⟩ := hfound.current hit (List.mem_append_right _ hhit)
    refine List.mem_filter.mpr ⟨List.mem_dedup.mpr hmem, ?_⟩
    rw [h.view_of_served hserved, hfound.outside hit hhit]
    rfl
  simpa using (List.subperm_of_subset hnodup hsub).length_le

/-- When none of the stored candidates is dropped, the result are the best of the ids that are found. -/
theorem IndexOk.scoreIdsQuantized (h : IndexOk d U x ops) {k rerank : Nat} (hk : 1 ≤ k)
    (hfew : (outsideDelta x.view x ids).length ≤ max rerank k) :
    ∃ hits, x.scoreIdsQuantized d query ids k rerank = .ok hits ∧
      TopK.IsTop Prod.snd k (ranked x.served query ids) hits ∧ hits.Pairwise fun a b => b.2 ≤ a.2 := by
  have hscan : ∃ delta stored, Found d x query ids ∅ delta stored (x.scanIds query ids ∅) := h.scanIds ids ∅
  obtain ⟨delta, stored, hfound⟩ := hscan
  rw [Index.scoreIdsQuantized, if_neg (by omega)]
  generalize x.scanIds query ids ∅ = r at hfound ⊢
  obtain ⟨cand, scored⟩ := r
  have hcandLen : cand.length = stored.length := by
    have := congrArg List.length hfound.cand
    simpa [scores] using this
  have hkept : (cand.insertionSort fun a b => b.1 ≤ a.1).take (max rerank k) = cand.insertionSort fun a b => b.1 ≤ a.1 := by
    refine List.take_of_length_le ?_
    rw [List.length_insertionSort, hcandLen]
    exact (h.length_stored hfound).trans hfew
  obtain ⟨more, hmore, hmorePerm⟩ := mapM_perm hfound.cand (List.perm_insertionSort (fun a b => b.1 ≤ a.1) cand)
  simp only [hkept, hmore]
  refine ⟨_, rfl, ?_⟩
  obtain rfl : scored = scores query delta := hfound.scored
  set sorted := (scores query delta ++ more).insertionSort fun a b => b.1 ≤ a.1 with hsorted
  have hpairwise : (sorted.map fun h => (h.2, h.1)).Pairwise fun a b => b.2 ≤ a.2 :=
    List.pairwise_map.mpr (List.pairwise_insertionSort ..)
  have hperm : (sorted.map fun h => (h.2, h.1)).Perm (ranked x.served query ids) := by
    refine List.Perm.trans ?_ hfound.perm_ranked
    have hall : sorted.Perm (scores query (delta ++ stored)) := by
      rw [scores, List.map_append]
      exact (List.perm_insertionSort ..).trans (hmorePerm.append_left _)
    have := hall.map fun h => (h.2, h.1)
    rwa [scores, List.map_map] at this
  rw [List.map_take]
  exact ⟨(TopK.isTop_take k hpairwise).perm hperm, hpairwise.sublist (List.take_sublist ..)⟩

/-! ### What is being flushed -/

omit H in
theorem mem_ranked {view : UInt64 → Option Vec} {hit : UInt64 × N.Score} :
    hit ∈ ranked view query ids ↔ hit.1 ∈ ids ∧ ∃ v, view hit.1 = some v ∧ hit.2 = N.cosine query v := by
  rw [ranked, List.mem_filterMap]
  constructor
  · rintro ⟨id, hid, hview⟩
    obtain ⟨v, hv, rfl⟩ := Option.map_eq_some_iff.mp hview
    exact ⟨List.mem_dedup.mp hid, v, hv, rfl⟩
  · rintro ⟨hid, v, hv, hscore⟩
    exact ⟨hit.1, List.mem_dedup.mpr hid, by rw [hv, Option.map_some, ← hscore]⟩

theorem IndexOk.ranked_eq (h : IndexOk d U x ops) (hsame : SameScore x query ids) :
    ranked x.served query ids = ranked x.view query ids := by
  refine List.filterMap_congr fun id hid => ?_
  by_cases hdead : id ∈ x.tombstones
  · rw [Index.served, if_pos hdead, Index.view, if_pos hdead]
  rw [Index.served, if_neg hdead, h.view_eq hdead]
  cases hdelta : x.delta.lookup id with
  | some v => rfl
  | none =>
    cases hflushing : x.flushing.lookup id with
    | none => rfl
    | some v =>
      obtain ⟨w, hw, hscore⟩ := hsame id (List.mem_dedup.mp hid) hdead hdelta v hflushing
      rw [Option.none_or, hw]
      exact congrArg (fun s => some (id, s)) hscore

/-- The scores are right for every `k` exactly if those of the ids that are being flushed are. -/
theorem IndexOk.scoreIds_exact_iff (h : IndexOk d U x ops) :
    (∀ k rerank, 1 ≤ k → (outsideDelta x.view x ids).length ≤ max rerank k →
      ∃ hits, x.scoreIdsQuantized d query ids k rerank = .ok hits ∧
        TopK.IsTop Prod.snd k (ranked x.view query ids) hits ∧ hits.Pairwise fun a b => b.2 ≤ a.2) ↔
      SameScore x query ids := by
  constructor
  · intro hexact id hid hdead hdelta v hflushing
    -- all ids of the list have room
    have hlen : ids.dedup.length ≤ ids.length := (List.dedup_sublist ids).length_le
    have hroom : (outsideDelta x.view x ids).length ≤ max 0 (ids.length + 1) := by
      have := (List.filter_sublist (p := fun id => (x.view id).isSome && (x.delta.lookup id).isNone)
        (l := ids.dedup)).length_le
      rw [outsideDelta]
      omega
    have hranked : ∀ view : UInt64 → Option Vec, (ranked view query ids).length ≤ ids.length + 1 := fun view => by
      have := List.length_filterMap_le (fun id => (view id).map fun v => (id, N.cosine query v)) ids.dedup
      rw [ranked]
      omega
    obtain ⟨hits, hok, htop, -⟩ := hexact (ids.length + 1) 0 (by omega) hroom
    obtain ⟨hits', hok', htop', -⟩ := h.scoreIdsQuantized (by omega) hroom
    obtain rfl : hits = hits' := Except.ok.inj (hok.symm.trans hok')
    have hperm := (htop.perm_of_length_le (hranked _)).symm.trans (htop'.perm_of_length_le (hranked _))
    have hview : x.view id = some v := by rw [h.view_eq hdead, hdelta, hflushing]; rfl
    have hmem : (id, N.cosine query v) ∈ ranked x.served query ids :=
      hperm.mem_iff.mp (mem_ranked.mpr ⟨hid, v, hview, rfl⟩)
    obtain ⟨-, w, hw, hscore⟩ := mem_ranked.mp hmem
    rw [Index.served, if_neg hdead, hdelta, Option.none_or] at hw
    exact ⟨w, hw, hscore.symm⟩
  · intro hsame k rerank hk hfew
    rw [← h.ranked_eq hsame]
    exact h.scoreIdsQuantized hk hfew

/-- In every run of actions that do not get in the way of an outstanding job, for every query and list of ids: for all
`k` and `rerank` such that at most `max rerank k` of the live ids of the list are outside the delta, the result is the
`k` best of these ids, each once, with the scores of their last inserts and the best first, exactly if every id of the
list whose vector is being flushed has a stored copy with the same score. -/
theorem score_ids_exact_iff {m : UInt64 → Option Vec} {tier : QuantKind} (hU : U.card < 2 ^ 32) (hd : Holds d U m)
    (htier : tier.isDisk = true) {s₀ s : Sys} {hist : List Event} (hopen : Sys.opened d tier = some s₀)
    (hrun : Transition.Run Sys.step (fun _ s a => s.Calm U a ∨ a.Router) [] s₀ hist s) (query : Vec)
    (ids : List UInt64) :
    (∀ k rerank, 1 ≤ k → (outsideDelta (mapOf m hist) s.index ids).length ≤ max rerank k →
      ∃ hits, s.index.scoreIdsQuantized s.dir query ids k rerank = .ok hits ∧
        TopK.IsTop Prod.snd k (ranked (mapOf m hist) query ids) hits ∧ hits.Pairwise fun a b => b.2 ≤ a.2) ↔
      SameScore s.index query ids := by
  obtain ⟨t, ops, ht, hinv, hview, -⟩ := sysInv_opened hd htier
  obtain rfl : t = s₀ := Option.some.inj (ht.symm.trans hopen)
  obtain ⟨ops', hinv', hview', -, -⟩ :=
    hinv.run (P := fun _ s a => s.Calm U a ∨ a.Router) (fun _ _ _ ha => ha) hU hrun
  rw [hview] at hview'
  rw [← hview']
  exact hinv'.index.scoreIds_exact_iff

end

section

attribute [local instance] linkedHashes exactNumerics

/-- One id is in the base while another is being flushed. -/
theorem score_ids_exact_beside_flush : ∃ s₀ s : Sys, ∃ hits, Sys.opened (Dir.created 1 64) .int8 = some s₀ ∧
    Transition.Run Sys.step (fun _ s a => s.Calm {0, 1} a ∨ a.Router) [] s₀
      [.inserted 0 [0x3f800000], .inserted 1 [0x40000000]] s ∧
    s.index.scoreIdsQuantized s.dir [0x3f800000] [0] 1 0 = .ok hits ∧
    TopK.IsTop Prod.snd 1 (ranked (mapOf (fun _ => none) [.inserted 0 [0x3f800000], .inserted 1 [0x40000000]])
      [0x3f800000] [0]) hits := by
  obtain ⟨s₀, hist, s, hopen, hrun, rfl, hflushing⟩ := exists_run_opened (Dir.created 1 64) .int8
    (fun hist s => hist = [.inserted 0 [0x3f800000], .inserted 1 [0x40000000]] ∧ s.index.flushing.lookup 0 = none) id
    [.insert 0 [0x3f800000], .consolidate, .insert 1 [0x40000000], .begin .flush]
    (show (Option.bind _ fun s => Transition.exec Sys.step (fun _ s a => s.InTurn {0, 1} a) []
      (id s) _).any _ = true by decide +kernel)
  have hrun := hrun.mono (Q := fun _ s a => s.Calm {0, 1} a ∨ a.Router) fun _ _ _ ha => .inl ha.calm
  have hsame : SameScore s.index [0x3f800000] [0] := by
    intro id hid _ _ v hv
    rw [List.mem_singleton.mp hid, hflushing] at hv
    cases hv
  obtain ⟨hits, hok, htop, -⟩ :=
    (score_ids_exact_iff (by decide) (holds_created (by decide) (by decide) (by decide) _) rfl hopen hrun
      [0x3f800000] [0]).mpr hsame 1 0 (by decide) (List.length_filter_le ..)
  exact ⟨s₀, s, hits, hopen, hrun, hok, htop⟩

/-- The id is live and being flushed; it is not found. -/
theorem score_ids_skips_flushing : ¬ ∀ (U : Finset UInt64) (d : Dir) (m : UInt64 → Option Vec) (s₀ s : Sys)
    (hist : List Event) (query : Vec) (ids : List UInt64) (k rerank : Nat), U.card < 2 ^ 32 → Holds d U m →
    Sys.opened d .int8 = some s₀ → Transition.Run Sys.step (fun _ s a => s.Calm U a ∨ a.Router) [] s₀ hist s →
    1 ≤ k → (outsideDelta (mapOf m hist) s.index ids).length ≤ max rerank k →
    ∃ hits, s.index.scoreIdsQuantized s.dir query ids k rerank = .ok hits ∧
      TopK.IsTop Prod.snd k (ranked (mapOf m hist) query ids) hits := by
  intro h
  obtain ⟨s₀, hist, s, hopen, hrun, rfl, hempty⟩ := exists_run_opened (Dir.created 1 64) .int8
    (fun hist s => hist = [.inserted 0 [0x3f800000]] ∧
      (s.index.scoreIdsQuantized s.dir [0x3f800000] [0] 1 1).toOption = some []) id
    [.insert 0 [0x3f800000], .begin .flush]
    (show (Option.bind _ fun s => Transition.exec Sys.step (fun _ s a => s.InTurn {0} a) []
      (id s) _).any _ = true by decide +kernel)
  obtain ⟨hits, hok, dropped, -, hlen, -⟩ := h {0} _ _ s₀ s _ [0x3f800000] [0] 1 1 (by decide)
    (holds_created (by decide) (by decide) (by decide) _) hopen (hrun.mono fun _ _ _ ha => .inl ha.calm) (by decide)
    (List.length_filter_le ..)
  rw [hok] at hempty
  obtain rfl : hits = [] := Option.some.inj hempty
  exact absurd hlen (by decide)

end

end Vector

end Skeg
