import Skeg.Vector.Maintain

/-!
# Association lists of vectors

A segment, the delta and the survivors of a consolidation are all lists of ids with vectors; `assoc`
is the map such a list stands for.  A segment with distinct ids is the map of its rows
(`Segment.map_eq_assoc`), and gathering survivors does not change the map of the candidates
(`find_firsts`, `find_sortById`).
-/

namespace Skeg

namespace Vector

variable {α β : Type*}

/-- The first entry of an id. -/
def find (id : UInt64) (ps : List (UInt64 × α)) : Option (UInt64 × α) := ps.find? fun p => p.1 = id

/-- The map of an association list. -/
def assoc (ps : List (UInt64 × α)) (id : UInt64) : Option α := (find id ps).map Prod.snd

theorem find_append (id : UInt64) (ps qs : List (UInt64 × α)) :
    find id (ps ++ qs) = (find id ps).or (find id qs) := List.find?_append

theorem find_eq_none {id : UInt64} {ps : List (UInt64 × α)} :
    find id ps = none ↔ id ∉ ps.map Prod.fst := by
  rw [find, List.find?_eq_none, List.mem_map]
  exact ⟨fun h ⟨p, hp, hid⟩ => h p hp (by simpa using hid), fun h p hp hid => h ⟨p, hp, by simpa using hid⟩⟩

theorem fst_of_find {id : UInt64} {ps : List (UInt64 × α)} {p : UInt64 × α}
    (h : find id ps = some p) : p.1 = id := by simpa using List.find?_some h

/-- With distinct ids the entry does not depend on the order. -/
theorem find_eq_some {id : UInt64} {ps : List (UInt64 × α)} (hnd : (ps.map Prod.fst).Nodup)
    {p : UInt64 × α} : find id ps = some p ↔ p ∈ ps ∧ p.1 = id := by
  refine ⟨fun h => ⟨List.mem_of_find?_eq_some h, fst_of_find h⟩, ?_⟩
  rintro ⟨hp, hid⟩
  induction ps with
  | nil => cases hp
  | cons q ps ih =>
    obtain ⟨hq, hnd⟩ := List.nodup_cons.mp hnd
    rcases List.mem_cons.mp hp with rfl | hp
    · simp [find, hid]
    · have hne : q.1 ≠ id := by
        rintro rfl
        exact hq (hid ▸ List.mem_map_of_mem hp)
      rw [find, List.find?_cons_of_neg (by simpa using hne)]
      exact ih hnd hp

theorem find_perm {ps qs : List (UInt64 × α)} (h : ps.Perm qs) (hnd : (ps.map Prod.fst).Nodup)
    (id : UInt64) : find id ps = find id qs := by
  have hnd' : (qs.map Prod.fst).Nodup := (h.map _).nodup_iff.mp hnd
  ext p
  rw [find_eq_some hnd, find_eq_some hnd', h.mem_iff]

theorem find_sortById (ps : List (UInt64 × α)) (hnd : (ps.map Prod.fst).Nodup) (id : UInt64) :
    find id (sortById ps) = find id ps :=
  (find_perm (List.perm_insertionSort _ ps).symm hnd id).symm

theorem nodup_sortById {ps : List (UInt64 × α)} (hnd : (ps.map Prod.fst).Nodup) :
    ((sortById ps).map Prod.fst).Nodup :=
  (((List.perm_insertionSort _ ps).map Prod.fst).nodup_iff).mpr hnd

theorem find_map (f : UInt64 × α → β) (id : UInt64) (ps : List (UInt64 × α)) :
    find id (ps.map fun p => (p.1, f p)) = (find id ps).map fun p => (p.1, f p) := by
  simp only [find, List.find?_map]
  rfl

theorem assoc_map (f : UInt64 × α → β) (id : UInt64) (ps : List (UInt64 × α)) :
    assoc (ps.map fun p => (p.1, f p)) id = (find id ps).map f := by
  rw [assoc, find_map, Option.map_map]
  rfl

theorem assoc_append (ps qs : List (UInt64 × α)) (id : UInt64) :
    assoc (ps ++ qs) id = (assoc ps id).or (assoc qs id) := by
  rw [assoc, find_append, assoc, assoc]
  cases find id ps <;> rfl

/-! ### First entries -/

theorem find_firsts (id : UInt64) (seen : List UInt64) (ps : List (UInt64 × α)) :
    find id (firsts seen ps) = if id ∈ seen then none else find id ps := by
  induction ps generalizing seen with
  | nil => simp [firsts, find]
  | cons p ps ih =>
    rw [firsts]
    by_cases hp : p.1 ∈ seen
    · rw [if_pos hp, ih]
      by_cases hid : id ∈ seen
      · rw [if_pos hid, if_pos hid]
      · have hne : p.1 ≠ id := by
          rintro rfl
          exact hid hp
        rw [if_neg hid, if_neg hid, find, find, List.find?_cons_of_neg (by simpa using hne)]
    · rw [if_neg hp]
      by_cases hpid : p.1 = id
      · rw [if_neg (hpid ▸ hp), find, find, List.find?_cons_of_pos (by simpa using hpid),
          List.find?_cons_of_pos (by simpa using hpid)]
      · rw [find, List.find?_cons_of_neg (by simpa using hpid), ← find, ih, find, find,
          List.find?_cons_of_neg (by simpa using hpid)]
        have : id ∈ p.1 :: seen ↔ id ∈ seen := by
          simp [Ne.symm hpid]
        simp only [this]

theorem not_mem_firsts (seen : List UInt64) (ps : List (UInt64 × α)) {id : UInt64} (h : id ∈ seen) :
    id ∉ (firsts seen ps).map Prod.fst := by
  rw [← find_eq_none, find_firsts, if_pos h]

theorem nodup_firsts (seen : List UInt64) (ps : List (UInt64 × α)) :
    ((firsts seen ps).map Prod.fst).Nodup := by
  induction ps generalizing seen with
  | nil => exact .nil
  | cons p ps ih =>
    rw [firsts]
    split
    · exact ih seen
    · rw [List.map_cons, List.nodup_cons]
      exact ⟨not_mem_firsts _ ps (List.mem_cons_self ..), ih _⟩

theorem mem_of_mem_firsts {seen : List UInt64} {ps : List (UInt64 × α)} {p : UInt64 × α}
    (h : p ∈ firsts seen ps) : p ∈ ps := by
  induction ps generalizing seen with
  | nil => cases h
  | cons q ps ih =>
    rw [firsts] at h
    split at h
    · exact List.mem_cons_of_mem _ (ih h)
    · rcases List.mem_cons.mp h with rfl | h
      · exact List.mem_cons_self ..
      · exact List.mem_cons_of_mem _ (ih h)

/-! ### Segments -/

/-- The vectors of a segment. -/
def Segment.map (s : Segment) (id : UInt64) : Option Vec := (s.row id).bind fun row => s.quant[row]?

theorem Segment.row_eq_some {s : Segment} (hnd : s.ids.Nodup) {id : UInt64} {row : Nat} :
    s.row id = some row ↔ s.ids[row]? = some id := by
  have hkeys : (s.ids.zipIdx.reverse.map Prod.fst).Nodup := by
    rw [List.map_reverse, List.zipIdx_map_fst, List.nodup_reverse]
    exact hnd
  rw [Segment.row, Option.map_eq_some_iff]
  constructor
  · rintro ⟨p, hp, rfl⟩
    obtain ⟨hmem, hid⟩ := (find_eq_some hkeys).mp hp
    rw [List.mem_reverse, List.mem_zipIdx_iff_getElem?] at hmem
    rw [hmem, hid]
  · intro h
    exact ⟨(id, row), (find_eq_some hkeys).mpr
      ⟨by rw [List.mem_reverse, List.mem_zipIdx_iff_getElem?]; exact h, rfl⟩, rfl⟩

/-- The row of an id holds it. -/
theorem Segment.ids_of_row {s : Segment} {id : UInt64} {row : Nat} (h : s.row id = some row) :
    s.ids[row]? = some id := by
  rw [Segment.row, Option.map_eq_some_iff] at h
  obtain ⟨p, hp, rfl⟩ := h
  have hmem := List.mem_of_find?_eq_some hp
  have hid := List.find?_some hp
  rw [List.mem_reverse, List.mem_zipIdx_iff_getElem?] at hmem
  rw [hmem, of_decide_eq_true hid]

theorem Segment.contains_iff (s : Segment) (id : UInt64) : s.contains id = true ↔ id ∈ s.ids := by
  rw [Segment.contains, Segment.row, Option.isSome_map, List.find?_isSome]
  constructor
  · rintro ⟨p, hp, hid⟩
    rw [List.mem_reverse, List.mem_zipIdx_iff_getElem?] at hp
    exact of_decide_eq_true hid ▸ List.mem_of_getElem? hp
  · intro h
    obtain ⟨row, hrow⟩ := List.mem_iff_getElem?.mp h
    exact ⟨(id, row), by rw [List.mem_reverse, List.mem_zipIdx_iff_getElem?]; exact hrow, by simp⟩

theorem Segment.map_isSome {s : Segment} (hlen : s.quant.length = s.ids.length) (id : UInt64) :
    (s.map id).isSome = s.contains id := by
  rw [Segment.map, Segment.contains]
  cases hrow : s.row id with
  | none => rfl
  | some row =>
    obtain ⟨p, hp, rfl⟩ := Option.map_eq_some_iff.mp hrow
    have hmem := List.mem_of_find?_eq_some hp
    rw [List.mem_reverse, List.mem_zipIdx_iff_getElem?] at hmem
    have hlt : p.2 < s.quant.length := hlen ▸ (List.getElem?_eq_some_iff.mp hmem).1
    simp [hlt]

/-- A segment with distinct ids is the map of its rows. -/
theorem Segment.map_eq_assoc {s : Segment} (hnd : s.ids.Nodup) (hlen : s.quant.length = s.ids.length)
    (id : UInt64) : s.map id = assoc (s.ids.zip s.quant) id := by
  have hkeys : ((s.ids.zip s.quant).map Prod.fst).Nodup := by
    rw [List.map_fst_zip (Nat.le_of_eq hlen.symm)]
    exact hnd
  have hmem : ∀ {v}, (id, v) ∈ s.ids.zip s.quant ↔ s.map id = some v := by
    intro v
    rw [Segment.map, Option.bind_eq_some_iff, List.mem_iff_getElem?]
    constructor
    · rintro ⟨row, hrow⟩
      rw [List.getElem?_zip_eq_some] at hrow
      exact ⟨row, (Segment.row_eq_some hnd).mpr hrow.1, hrow.2⟩
    · rintro ⟨row, hrow, hv⟩
      exact ⟨row, List.getElem?_zip_eq_some.mpr ⟨(Segment.row_eq_some hnd).mp hrow, hv⟩⟩
  ext v
  rw [← hmem, assoc, Option.map_eq_some_iff]
  constructor
  · exact fun h => ⟨(id, v), (find_eq_some hkeys).mpr ⟨h, rfl⟩, rfl⟩
  · rintro ⟨p, hp, rfl⟩
    obtain ⟨h1, h2⟩ := (find_eq_some hkeys).mp hp
    exact h2 ▸ h1

/-! ### Maps in memory -/

theorem assoc_entries (m : VecMap) (id : UInt64) :
    assoc (m.entries.map fun e => (e.1, e.2)) id = m.lookup id := by
  have hkeys : ((m.entries.map fun e : Sigma fun _ : UInt64 => Vec => (e.1, e.2)).map
      Prod.fst).Nodup := by
    rw [List.map_map]
    exact m.nodupKeys
  ext v
  rw [assoc, Option.map_eq_some_iff]
  constructor
  · rintro ⟨p, hp, rfl⟩
    obtain ⟨h1, h2⟩ := (find_eq_some hkeys).mp hp
    obtain ⟨e, he, rfl⟩ := List.mem_map.mp h1
    subst h2
    exact AList.mem_lookup_iff.mpr he
  · intro h
    exact ⟨(id, v), (find_eq_some hkeys).mpr
      ⟨List.mem_map.mpr ⟨⟨id, v⟩, AList.mem_lookup_iff.mp h, rfl⟩, rfl⟩, rfl⟩

/-! ### Sorted ids -/

theorem mem_dedupAdjacent {a : UInt64} (l : List UInt64) : a ∈ Index.dedupAdjacent l ↔ a ∈ l := by
  fun_induction Index.dedupAdjacent l with
  | case1 => rfl
  | case2 b => rfl
  | case3 b l ih => rw [ih]; simp
  | case4 b c l hne ih => rw [List.mem_cons, ih, List.mem_cons (a := a) (b := b)]

/-- Sorted ids without neighbours that are equal increase. -/
theorem pairwise_dedupAdjacent {l : List UInt64} (h : l.Pairwise (· ≤ ·)) :
    (Index.dedupAdjacent l).Pairwise (· < ·) := by
  fun_induction Index.dedupAdjacent l with
  | case1 => exact .nil
  | case2 b => exact List.pairwise_singleton ..
  | case3 b l ih => exact ih h.of_cons
  | case4 b c l hne ih =>
    obtain ⟨hb, hl⟩ := List.pairwise_cons.mp h
    refine List.pairwise_cons.mpr ⟨fun e he => ?_, ih hl⟩
    have hbc : b < c := UInt64.lt_of_le_of_ne (hb c (by simp)) hne
    rcases List.mem_cons.mp ((mem_dedupAdjacent _).mp he) with rfl | he
    · exact hbc
    · exact UInt64.lt_of_lt_of_le hbc ((List.pairwise_cons.mp hl).1 e he)

end Vector

end Skeg
