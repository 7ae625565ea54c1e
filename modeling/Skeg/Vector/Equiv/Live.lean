import Skeg.Vector.Equiv.Assoc
import Skeg.Vector.Flat
import Skeg.Vector.Maintain

/-!
# Live ids

Which ids are live after an insert or a delete, and that an index counts them (`Index.Counted`,
`FlatIndex.Counted`).
-/

namespace Skeg

namespace Vector

namespace FlatIndex

variable {x : FlatIndex} {id : UInt64}

/-- There is one row for an id, and the number of live rows is known. -/
structure Counted (x : FlatIndex) : Prop where
  nodup : (x.rows.map FlatRow.id).Nodup
  count : x.liveCount = x.liveIds.length

theorem counted_new (dim : Nat) (kind : QuantKind) : (new dim kind).Counted := ⟨List.nodup_nil, rfl⟩

/-- The row of an id, and the rows around it. -/
theorem rows_of_row {row : Nat} (h : x.row id = some row) : ∃ r front back, x.rows = front ++ r :: back ∧
    front.length = row ∧ r.id = id ∧ x.isLive row = r.live := by
  rw [FlatIndex.row, List.findIdx?_eq_some_iff_getElem] at h
  obtain ⟨hlt, hid, -⟩ := h
  refine ⟨x.rows[row], x.rows.take row, x.rows.drop (row + 1), ?_, by simp; omega, by simpa using hid, ?_⟩
  · rw [← List.drop_eq_getElem_cons hlt, List.take_append_drop]
  · rw [isLive, List.getElem?_eq_getElem hlt]
    rfl

theorem modify_rows {front back : List FlatRow} {r : FlatRow} (f : FlatRow → FlatRow) :
    (front ++ r :: back).modify front.length f = front ++ f r :: back := by
  induction front with
  | nil => rfl
  | cons a front ih => simpa using ih

theorem liveIds_of_rows {front back : List FlatRow} {r : FlatRow} (h : x.rows = front ++ r :: back) :
    x.liveIds.length = (front.filter FlatRow.live).length + (if r.live then 1 else 0) +
      (back.filter FlatRow.live).length := by
  rw [liveIds, h, List.filter_append, List.map_append, List.length_append, List.length_map, List.filter_cons]
  cases r.live
  · simp
  · simp; omega

theorem Counted.insert (h : x.Counted) (id : UInt64) (v : Vec) : (x.insert id v).Counted := by
  unfold FlatIndex.insert
  cases hrow : x.row id with
  | none =>
    have hnone : ∀ r ∈ x.rows, r.id ≠ id := by simpa [FlatIndex.row] using hrow
    refine ⟨?_, ?_⟩
    · simp only [List.map_append, List.map_cons, List.map_nil]
      refine h.nodup.append (List.nodup_singleton _) (List.disjoint_singleton.mpr fun hmem => ?_)
      obtain ⟨r, hr, hid⟩ := List.mem_map.mp hmem
      exact hnone r hr hid
    · simp [liveIds, h.count]
  | some row =>
    obtain ⟨r, front, back, hrows, rfl, hid, hlive⟩ := rows_of_row hrow
    have hcount := liveIds_of_rows hrows
    refine ⟨?_, ?_⟩
    · have hnd := h.nodup
      rw [hrows] at hnd
      dsimp only
      rw [hrows, modify_rows]
      simpa using hnd
    · dsimp only
      rw [liveIds_of_rows (r := { r with vector := v, live := true }) (by rw [hrows]; exact modify_rows _),
        hlive, h.count, hcount]
      cases r.live
      · simp; omega
      · simp

theorem Counted.delete (h : x.Counted) (id : UInt64) : (x.delete id).1.Counted := by
  unfold FlatIndex.delete
  cases hrow : x.row id with
  | none => exact h
  | some row =>
    obtain ⟨r, front, back, hrows, rfl, hid, hlive⟩ := rows_of_row hrow
    have hcount := liveIds_of_rows hrows
    dsimp only
    split_ifs with hl
    · refine ⟨?_, ?_⟩
      · have hnd := h.nodup
        rw [hrows] at hnd
        dsimp only
        rw [hrows, modify_rows]
        simpa using hnd
      · dsimp only
        rw [liveIds_of_rows (r := { r with live := false }) (by rw [hrows]; exact modify_rows _),
          h.count, hcount, hlive.symm.trans hl]
        simp
    · exact h

end FlatIndex

end Vector

end Skeg
