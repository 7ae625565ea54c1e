import Skeg.Vector.Equiv.Layers

/-!
# What a consolidation gathers

The rows of the segments, newest segment first and without the tombstoned ones, hold the copies that the
layered view shows (`find_runRows`, `find_baseRows`); the survivors of a consolidation are then the whole
view (`assoc_survivors`), and every one of them can be read (`IndexOk.vectorAt`).
-/

namespace Skeg

namespace Vector

variable {d : Dir} {U : Finset UInt64} {x : Index} {ops : List DeltaWalOp}

/-- The row a location refers to. -/
def valueAt (segs : List Segment) (q : UInt64 × Nat × Nat) : Vec :=
  ((segs[q.2.1]?).bind fun s => s.quant[q.2.2]?).getD []

/-- A location that is a row of one of the segments. -/
def Located (segs : List Segment) (q : UInt64 × Nat × Nat) : Prop :=
  ∃ s, segs[q.2.1]? = some s ∧ s.ids[q.2.2]? = some q.1

theorem find_filter (P : UInt64 → Prop) [DecidablePred P] (id : UInt64) {α : Type*}
    (ps : List (UInt64 × α)) :
    find id (ps.filter fun p => P p.1) = if P id then find id ps else none := by
  induction ps with
  | nil => simp [find]
  | cons p ps ih =>
    rw [List.filter_cons]
    by_cases hp : p.1 = id
    · by_cases hP : P id
      · rw [if_pos (by simp [hp, hP]), if_pos hP, find, find, List.find?_cons_of_pos (by simp [hp]),
          List.find?_cons_of_pos (by simp [hp])]
      · rw [if_neg (by simp [hp, hP]), ih, if_neg hP, if_neg hP]
    · have hskip : ∀ qs : List (UInt64 × α), find id (p :: qs) = find id qs :=
        fun qs => List.find?_cons_of_neg (by simp [hp])
      rw [hskip]
      split
      · rw [hskip]
        exact ih
      · exact ih

/-! ### One segment -/

theorem find_rows {s : Segment} (hnd : s.ids.Nodup) (i : Nat) (id : UInt64) :
    find id (s.rows i) = (s.row id).map fun row => (id, i, row) := by
  have hkeys : ((s.rows i).map Prod.fst).Nodup := by
    rw [Segment.rows, List.map_map, Function.comp_def, List.zipIdx_map_fst]
    exact hnd
  ext q
  rw [find_eq_some hkeys, Segment.rows, List.mem_map, Option.map_eq_some_iff]
  constructor
  · rintro ⟨⟨p, hp, rfl⟩, rfl⟩
    exact ⟨p.2, (Segment.row_eq_some hnd).mpr (List.mem_zipIdx_iff_getElem?.mp hp), rfl⟩
  · rintro ⟨row, hrow, rfl⟩
    exact ⟨⟨(id, row), List.mem_zipIdx_iff_getElem?.mpr ((Segment.row_eq_some hnd).mp hrow), rfl⟩, rfl⟩

theorem located_of_mem_rows {s : Segment} {i : Nat} {q : UInt64 × Nat × Nat} (h : q ∈ s.rows i) :
    q.2.1 = i ∧ s.ids[q.2.2]? = some q.1 := by
  obtain ⟨p, hp, rfl⟩ := List.mem_map.mp h
  exact ⟨rfl, List.mem_zipIdx_iff_getElem?.mp hp⟩

/-- The row of an id in a segment, by its location. -/
theorem find_rows_value {segs : List Segment} {s : Segment} {i : Nat} (hs : segs[i]? = some s)
    (hnd : s.ids.Nodup) (hlen : s.quant.length = s.ids.length) (id : UInt64) :
    (find id (s.rows i)).map (valueAt segs) = s.map id := by
  rw [find_rows hnd, Option.map_map, Segment.map]
  cases hrow : s.row id with
  | none => rfl
  | some row =>
    have hlt : row < s.quant.length :=
      hlen ▸ (List.getElem?_eq_some_iff.mp ((Segment.row_eq_some hnd).mp hrow)).1
    simp [valueAt, hs, hlt]

/-! ### The runs -/

/-- The rows of segments numbered from `i`, newest first. -/
def rowsFrom (i : Nat) (runs : List Segment) : List (UInt64 × Nat × Nat) :=
  runs.zipIdx.reverse.flatMap fun p => p.1.rows (p.2 + i)

theorem rowsFrom_append (i : Nat) (runs : List Segment) (r : Segment) :
    rowsFrom i (runs ++ [r]) = r.rows (runs.length + i) ++ rowsFrom i runs := by
  simp [rowsFrom, List.zipIdx_append]

theorem getElem?_newest (pre runs : List Segment) (r : Segment) :
    (pre ++ (runs ++ [r]))[runs.length + pre.length]? = some r := by
  rw [← List.append_assoc, Nat.add_comm, ← List.length_append, List.getElem?_concat_length]

theorem located_of_mem_rowsFrom {pre runs : List Segment} {q : UInt64 × Nat × Nat}
    (h : q ∈ rowsFrom pre.length runs) : Located (pre ++ runs) q ∧ q.2.1 < pre.length + runs.length := by
  induction runs using List.reverseRecOn with
  | nil => simp [rowsFrom] at h
  | append_singleton runs r ih =>
    rw [rowsFrom_append, List.mem_append] at h
    rcases h with h | h
    · obtain ⟨hi, hid⟩ := located_of_mem_rows h
      refine ⟨⟨r, by rw [hi, getElem?_newest], hid⟩, ?_⟩
      rw [hi, List.length_append, List.length_singleton]
      omega
    · obtain ⟨⟨s, hs, hid⟩, hlt⟩ := ih h
      refine ⟨⟨s, ?_, hid⟩, ?_⟩
      · rw [← List.append_assoc, List.getElem?_append_left (by simpa using hlt)]
        exact hs
      · simp
        omega

/-- The newest copy of an id. -/
theorem find_rowsFrom (pre : List Segment) {runs : List Segment}
    (hok : ∀ r ∈ runs, r.ids.Nodup ∧ r.quant.length = r.ids.length)
    (id : UInt64) : (find id (rowsFrom pre.length runs)).map (valueAt (pre ++ runs)) = runsMap runs id := by
  induction runs using List.reverseRecOn with
  | nil => rfl
  | append_singleton runs r ih =>
    have hold : (find id (rowsFrom pre.length runs)).map (valueAt (pre ++ (runs ++ [r]))) =
        runsMap runs id := by
      rw [← ih fun s hs => hok s (by simp [hs])]
      cases hq : find id (rowsFrom pre.length runs) with
      | none => rfl
      | some q =>
        obtain ⟨-, hlt⟩ := located_of_mem_rowsFrom (List.mem_of_find?_eq_some hq)
        simp only [Option.map_some, valueAt, ← List.append_assoc]
        rw [List.getElem?_append_left (by simpa using hlt)]
    have hnew := find_rows_value (getElem?_newest pre runs r) (hok r (by simp)).1 (hok r (by simp)).2 id
    rw [rowsFrom_append, find_append, runsMap_append, ← hold, ← hnew]
    cases find id (r.rows (runs.length + pre.length)) <;> rfl

/-! ### The rows of an index -/

theorem located_of_mem_runRows (pre : List Segment) {q : UInt64 × Nat × Nat}
    (hq : q ∈ x.runRows pre.length) : Located (pre ++ x.runs) q :=
  (located_of_mem_rowsFrom (List.mem_filter.mp hq).1).1

theorem located_of_mem_baseRows {q : UInt64 × Nat × Nat} (hq : q ∈ x.baseRows) : Located x.segs q := by
  obtain ⟨hi, hid⟩ := located_of_mem_rows (List.mem_filter.mp hq).1
  exact ⟨x.base, by rw [hi]; rfl, hid⟩

/-- A located row can be read, and is one of the ids in use. -/
theorem readAt_located {dim : Nat} {segs : List Segment} (hsegs : ∀ s ∈ segs, SegOk d U dim s)
    {q : UInt64 × Nat × Nat} (hq : Located segs q) :
    readAt d dim (segs.map Segment.file) q.2.1 q.2.2 = .ok (valueAt segs q) ∧ q.1 ∈ U ∧
      (valueAt segs q).length = dim := by
  obtain ⟨s, hs, hid⟩ := hq
  have hok := hsegs s (List.mem_of_getElem? hs)
  have hlt : q.2.2 < s.quant.length := hok.length ▸ (List.getElem?_eq_some_iff.mp hid).1
  have hval : valueAt segs q = s.quant[q.2.2] := by simp [valueAt, hs, hlt]
  have hrow : s.quant[q.2.2]? = some (valueAt segs q) := by simp [hval, hlt]
  refine ⟨?_, hok.within _ (List.mem_of_getElem? hid), ?_⟩
  · rw [readAt, List.getElem?_map, hs]
    exact hok.readRow hrow
  · rw [hval]
    exact hok.dims _ (List.getElem_mem hlt)

section

variable [H : Hashes]

theorem IndexOk.segOk (h : IndexOk d U x ops) {s : Segment} (hs : s ∈ x.segs) : SegOk d U x.dim s := by
  rcases List.mem_cons.mp hs with rfl | hs
  · exact h.base
  · exact h.runs s hs

theorem IndexOk.find_runRows (h : IndexOk d U x ops) (pre : List Segment) (id : UInt64) :
    (find id (x.runRows pre.length)).map (valueAt (pre ++ x.runs)) =
      if id ∈ x.tombstones then none else runsMap x.runs id := by
  have hok : ∀ r ∈ x.runs, r.ids.Nodup ∧ r.quant.length = r.ids.length :=
    fun r hr => ⟨(h.runs r hr).nodup, (h.runs r hr).length⟩
  rw [← find_rowsFrom pre hok, Index.runRows, find_filter (· ∉ x.tombstones), ite_not]
  split <;> rfl

theorem IndexOk.find_baseRows (h : IndexOk d U x ops) (id : UInt64) :
    (find id x.baseRows).map (valueAt x.segs) = if id ∈ x.tombstones then none else x.base.map id := by
  have hzero : x.segs[0]? = some x.base := rfl
  rw [← find_rows_value hzero h.base.nodup h.base.length id, Index.baseRows,
    find_filter (· ∉ x.tombstones), ite_not]
  split <;> rfl

/-- The rows of all segments, as `consolidate` numbers them. -/
theorem IndexOk.find_segRows (h : IndexOk d U x ops) (id : UInt64) :
    (find id (x.runRows 1 ++ x.baseRows)).map (valueAt x.segs) =
      if id ∈ x.tombstones then none else (runsMap x.runs id).or (x.base.map id) := by
  have hruns : (find id (x.runRows 1)).map (valueAt x.segs) =
      if id ∈ x.tombstones then none else runsMap x.runs id := h.find_runRows [x.base] id
  rw [find_append, Option.map_or, h.find_baseRows, hruns]
  split <;> rfl

theorem IndexOk.readAt_segRows (h : IndexOk d U x ops) {q : UInt64 × Nat × Nat}
    (hq : q ∈ x.runRows 1 ++ x.baseRows) :
    readAt d x.dim (x.segs.map Segment.file) q.2.1 q.2.2 = .ok (valueAt x.segs q) ∧ q.1 ∈ U ∧
      (valueAt x.segs q).length = x.dim := by
  refine readAt_located (fun s hs => h.segOk hs) ?_
  rcases List.mem_append.mp hq with hq | hq
  · exact located_of_mem_runRows [x.base] hq
  · exact located_of_mem_baseRows hq

/-! ### The survivors of the inline consolidate -/

/-- The vector a survivor has. -/
def Index.valueOf (x : Index) (q : UInt64 × Loc) : Vec :=
  match q.2 with
  | .delta => (x.delta.lookup q.1).getD []
  | .flushing => (x.flushing.lookup q.1).getD []
  | .seg i row => valueAt x.segs (q.1, i, row)

omit H in
theorem find_keys (m : VecMap) (l : Loc) (id : UInt64) :
    find id (m.keys.map (·, l)) = (m.lookup id).map fun _ => (id, l) := by
  cases hm : m.lookup id with
  | none =>
    rw [Option.map_none, find_eq_none, List.map_map]
    have : id ∉ m := AList.lookup_eq_none.mp hm
    simpa [AList.mem_keys, Function.comp_def] using this
  | some v =>
    have hkeys : ((m.keys.map (·, l)).map Prod.fst).Nodup := by
      rw [List.map_map, Function.comp_def, List.map_id']
      exact m.keys_nodup
    rw [Option.map_some, find_eq_some hkeys]
    refine ⟨List.mem_map_of_mem ?_, rfl⟩
    exact AList.mem_keys.mp (AList.lookup_isSome.mp (by rw [hm]; rfl))

/-- The survivors are the view. -/
theorem IndexOk.find_survivors (h : IndexOk d U x ops) (id : UInt64) :
    (find id x.survivors).map x.valueOf = x.view id := by
  have hsegs : (find id ((x.runRows 1 ++ x.baseRows).map fun p =>
      (p.1, Loc.seg p.2.1 p.2.2))).map x.valueOf =
      if id ∈ x.tombstones then none else (runsMap x.runs id).or (x.base.map id) := by
    rw [← h.find_segRows, find_map (fun p : UInt64 × Nat × Nat => Loc.seg p.2.1 p.2.2),
      Option.map_map]
    rfl
  rw [Index.survivors, find_firsts, if_neg (by simp), find_append, find_append, find_keys, find_keys,
    Option.map_or, Option.map_or, hsegs, Option.map_map, Option.map_map, Index.view]
  -- a tombstoned id is in neither of the maps in memory
  by_cases hid : id ∈ x.tombstones
  · have hd : x.delta.lookup id = none := h.inv.delta id hid
    have hs : x.flushing.lookup id = none := h.inv.staged id hid
    simp [hid, hd, hs]
  · rw [if_neg hid, if_neg hid, Option.or_assoc]
    have hdelta : (x.delta.lookup id).map (x.valueOf ∘ fun _ => (id, Loc.delta)) = x.delta.lookup id := by
      cases hv : x.delta.lookup id <;> simp [Index.valueOf, hv]
    have hflushing : (x.flushing.lookup id).map (x.valueOf ∘ fun _ => (id, Loc.flushing)) =
        x.flushing.lookup id := by
      cases hv : x.flushing.lookup id <;> simp [Index.valueOf, hv]
    rw [hdelta, hflushing]

theorem IndexOk.vectorAt (h : IndexOk d U x ops) {q : UInt64 × Loc} (hq : q ∈ x.survivors) :
    x.vectorAt d q.1 q.2 = .ok (x.valueOf q) ∧ q.1 ∈ U ∧ (x.valueOf q).length = x.dim := by
  have hmem := mem_of_mem_firsts hq
  have hkeys : ∀ {m : VecMap}, VecsOk U x.dim m → q.1 ∈ m.keys →
      q.1 ∈ U ∧ ((m.lookup q.1).getD []).length = x.dim := by
    intro m hm hk
    obtain ⟨v, hv⟩ := Option.isSome_iff_exists.mp (AList.lookup_isSome.mpr (AList.mem_keys.mpr hk))
    rw [hv]
    exact hm q.1 v hv
  rw [List.mem_append, List.mem_append] at hmem
  rcases hmem with (hmem | hmem) | hmem
  · obtain ⟨id, hid, rfl⟩ := List.mem_map.mp hmem
    exact ⟨rfl, hkeys h.delta hid⟩
  · obtain ⟨id, hid, rfl⟩ := List.mem_map.mp hmem
    exact ⟨rfl, hkeys h.flushing hid⟩
  · obtain ⟨p, hp, rfl⟩ := List.mem_map.mp hmem
    exact h.readAt_segRows hp

end

end Vector

end Skeg
