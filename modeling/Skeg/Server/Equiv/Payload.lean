import Skeg.Server.Payload

/-!
# The postings of the payload index

`PayloadIndex.Wf`: the postings of a value are the ids that have it, and there are no empty postings.
`upsert` and `remove` keep it.
-/

namespace Skeg.Server

namespace PayloadIndex

abbrev FieldMap := Finmap fun _ : String => Postings

/-- `id` is in the postings of the value `v` of field `f`. -/
def Has (m : FieldMap) (f : String) (v : Value) (id : UInt64) : Prop :=
  ∃ vs ids, m.lookup f = some vs ∧ vs.lookup v = some ids ∧ id ∈ ids

/-- No field without values, no value without ids. -/
structure Clean (m : FieldMap) : Prop where
  values : ∀ f vs, m.lookup f = some vs → ∃ v ids, vs.lookup v = some ids
  ids : ∀ f vs v ids, m.lookup f = some vs → vs.lookup v = some ids → ids.Nonempty

structure Wf (p : PayloadIndex) : Prop where
  clean : Clean p.byField
  has : ∀ f v id, Has p.byField f v id ↔ ∃ fields, p.byId.lookup id = some fields ∧ (f, v) ∈ fields
  fields : ∀ id, p.byId.lookup id ≠ some []

/-! ### One posting -/

section

variable {m m' : FieldMap} {id j : UInt64} {f : String} {v : Value}

theorem Clean.exists_has (h : Clean m) {vs : Postings} (hf : m.lookup f = some vs) :
    ∃ v id, Has m f v id := by
  obtain ⟨v, ids, hv⟩ := h.values f vs hf
  obtain ⟨id, hid⟩ := h.ids f vs v ids hf hv
  exact ⟨v, id, vs, ids, hf, hv, hid⟩

theorem has_addPosting (m : FieldMap) (id : UInt64) (fv : String × Value) (f : String) (v : Value)
    (j : UInt64) :
    Has (addPosting id m fv) f v j ↔ Has m f v j ∨ j = id ∧ (f, v) = fv := by
  obtain ⟨g, w⟩ := fv
  unfold Has addPosting
  by_cases hf : f = g
  · subst hf
    by_cases hv : v = w
    · subst hv
      cases hm : m.lookup f with
      | none => simp
      | some vs =>
        cases hvs : vs.lookup v with
        | none => simp [hvs]
        | some ids => simp [hvs, or_comm]
    · cases hm : m.lookup f with
      | none => simp [Finmap.lookup_insert_of_ne _ hv, hv]
      | some vs => simp [Finmap.lookup_insert_of_ne _ hv, hv]
  · simp [Finmap.lookup_insert_of_ne _ hf, hf]

theorem Clean.addPosting (h : Clean m) (id : UInt64) (fv : String × Value) :
    Clean (addPosting id m fv) := by
  obtain ⟨g, w⟩ := fv
  refine ⟨fun f vs hf => ?_, fun f vs v ids hf hv => ?_⟩ <;> by_cases hfg : f = g
  · subst hfg
    rw [PayloadIndex.addPosting, Finmap.lookup_insert, Option.some.injEq] at hf
    subst hf
    exact ⟨w, _, Finmap.lookup_insert ..⟩
  · rw [PayloadIndex.addPosting, Finmap.lookup_insert_of_ne _ hfg] at hf
    exact h.values f vs hf
  · subst hfg
    rw [PayloadIndex.addPosting, Finmap.lookup_insert, Option.some.injEq] at hf
    subst hf
    by_cases hvw : v = w
    · subst hvw
      rw [Finmap.lookup_insert, Option.some.injEq] at hv
      rw [← hv]
      exact Finset.insert_nonempty ..
    · rw [Finmap.lookup_insert_of_ne _ hvw] at hv
      cases hm : m.lookup f with
      | none => simp [hm] at hv
      | some vs => exact h.ids f vs v ids hm (by simpa [hm] using hv)
  · rw [PayloadIndex.addPosting, Finmap.lookup_insert_of_ne _ hfg] at hf
    exact h.ids f vs v ids hf hv

/-- The values of a field without `id` at one of them. -/
def dropValue (id : UInt64) (values : Postings) (w : Value) : Postings :=
  match values.lookup w with
  | none => values
  | some ids => if ids.erase id = ∅ then values.erase w else values.insert w (ids.erase id)

theorem dropPosting_eq (id : UInt64) (m : FieldMap) (g : String) (w : Value) :
    dropPosting id m (g, w) = match m.lookup g with
      | none => m
      | some values =>
        if (dropValue id values w).keys = ∅ then m.erase g else m.insert g (dropValue id values w) :=
  rfl

theorem lookup_dropValue (id : UInt64) (values : Postings) (w v : Value) :
    (dropValue id values w).lookup v = if v = w then
      (values.lookup w).bind fun ids => if ids.erase id = ∅ then none else some (ids.erase id)
      else values.lookup v := by
  unfold dropValue
  by_cases hv : v = w
  · subst hv
    cases hvs : values.lookup v with
    | none => simp [hvs]
    | some ids => by_cases he : ids.erase id = ∅ <;> simp [he]
  · cases hvs : values.lookup w with
    | none => simp [hv]
    | some ids =>
      by_cases he : ids.erase id = ∅ <;> simp [he, hv, Finmap.lookup_erase_ne, Finmap.lookup_insert_of_ne]

theorem keys_eq_empty_iff (vs : Postings) : vs.keys = ∅ ↔ ∀ v, vs.lookup v = none := by
  simp [Finset.eq_empty_iff_forall_notMem, Finmap.mem_keys, Finmap.lookup_eq_none]

/-- The lookups of a field map after a deletion. -/
theorem lookup_dropPosting (id : UInt64) (m : FieldMap) (g : String) (w : Value) (f : String) :
    (dropPosting id m (g, w)).lookup f = if f = g then
      (m.lookup g).bind fun values =>
        if (dropValue id values w).keys = ∅ then none else some (dropValue id values w)
      else m.lookup f := by
  rw [dropPosting_eq]
  by_cases hf : f = g
  · subst hf
    cases hm : m.lookup f with
    | none => simp [hm]
    | some values => by_cases he : (dropValue id values w).keys = ∅ <;> simp [he]
  · cases hm : m.lookup g with
    | none => simp [hf]
    | some values =>
      by_cases he : (dropValue id values w).keys = ∅ <;>
        simp [he, hf, Finmap.lookup_erase_ne, Finmap.lookup_insert_of_ne]

theorem Clean.dropPosting (h : Clean m) (id : UInt64) (fv : String × Value) :
    Clean (dropPosting id m fv) := by
  obtain ⟨g, w⟩ := fv
  refine ⟨fun f vs hf => ?_, fun f vs v ids hf hv => ?_⟩ <;> rw [lookup_dropPosting] at hf <;>
    split at hf
  · -- what is left of a field that lost a value
    obtain ⟨values, -, hvs⟩ := Option.bind_eq_some_iff.mp hf
    split at hvs
    · cases hvs
    · rename_i hne
      cases hvs
      rw [keys_eq_empty_iff] at hne
      push Not at hne
      obtain ⟨v, hv⟩ := hne
      exact ⟨v, Option.ne_none_iff_exists'.mp hv⟩
  · exact h.values f vs hf
  · rename_i hfg
    obtain ⟨values, hm, hvs⟩ := Option.bind_eq_some_iff.mp hf
    split at hvs
    · cases hvs
    · cases hvs
      rw [lookup_dropValue] at hv
      split at hv
      · obtain ⟨ids', -, hids⟩ := Option.bind_eq_some_iff.mp hv
        split at hids
        · cases hids
        · rename_i hne
          cases hids
          exact Finset.nonempty_iff_ne_empty.mpr hne
      · exact h.ids g values v ids hm hv
  · exact h.ids f vs v ids hf hv

theorem has_dropPosting (m : FieldMap) (id : UInt64) (fv : String × Value) (f : String) (v : Value)
    (j : UInt64) :
    Has (dropPosting id m fv) f v j ↔ Has m f v j ∧ ¬ (j = id ∧ (f, v) = fv) := by
  obtain ⟨g, w⟩ := fv
  -- the postings of one value, as sets
  have hset : ∀ (m : FieldMap) (j : UInt64), Has m f v j ↔
      j ∈ ((m.lookup f).bind fun vs => vs.lookup v).getD ∅ := by
    intro m j
    unfold Has
    cases hm : m.lookup f with
    | none => simp
    | some vs => cases hvs : vs.lookup v <;> simp [hvs]
  rw [hset, hset, lookup_dropPosting]
  by_cases hf : f = g
  · subst hf
    cases hm : m.lookup f with
    | none => simp
    | some values =>
      -- a field map that went away held nothing
      have hbind : ((if (dropValue id values w).keys = ∅ then none
          else some (dropValue id values w)).bind fun vs : Postings => vs.lookup v) =
          (dropValue id values w).lookup v := by
        split
        · rename_i he
          rw [(keys_eq_empty_iff _).mp he v]
          rfl
        · rfl
      simp only [if_true, Option.bind_some, hbind, lookup_dropValue]
      by_cases hv : v = w
      · subst hv
        cases hvs : values.lookup v with
        | none => simp
        | some ids =>
          by_cases he : ids.erase id = ∅
          · have hall : ∀ a ∈ ids, a = id := by
              intro a ha
              by_contra hne
              exact Finset.notMem_empty a (he ▸ Finset.mem_erase.mpr ⟨hne, ha⟩)
            simp only [he, if_true, Option.bind_some, Option.getD_none, Finset.notMem_empty,
              Option.getD_some, false_iff]
            exact fun ⟨hj, hnot⟩ => hnot ⟨hall j hj, trivial⟩
          · simp [he, and_comm]
      · simp [hv]
  · simp [hf]

end

/-! ### All the fields of an id -/

section

variable {m : FieldMap} {id : UInt64} {fields : Fields}

theorem clean_foldl_addPosting (h : Clean m) (id : UInt64) (fields : Fields) :
    Clean (fields.foldl (addPosting id) m) := by
  induction fields generalizing m with
  | nil => exact h
  | cons fv fields ih => exact ih (h.addPosting id fv)

theorem clean_foldl_dropPosting (h : Clean m) (id : UInt64) (fields : Fields) :
    Clean (fields.foldl (dropPosting id) m) := by
  induction fields generalizing m with
  | nil => exact h
  | cons fv fields ih => exact ih (h.dropPosting id fv)

theorem has_foldl_addPosting (m : FieldMap) (id : UInt64) (fields : Fields) (f : String) (v : Value)
    (j : UInt64) : Has (fields.foldl (addPosting id) m) f v j ↔
      Has m f v j ∨ j = id ∧ (f, v) ∈ fields := by
  induction fields generalizing m with
  | nil => simp
  | cons fv fields ih =>
    rw [List.foldl_cons, ih, has_addPosting, List.mem_cons]
    tauto

theorem has_foldl_dropPosting (m : FieldMap) (id : UInt64) (fields : Fields) (f : String) (v : Value)
    (j : UInt64) : Has (fields.foldl (dropPosting id) m) f v j ↔
      Has m f v j ∧ ¬ (j = id ∧ (f, v) ∈ fields) := by
  induction fields generalizing m with
  | nil => simp
  | cons fv fields ih =>
    rw [List.foldl_cons, ih, has_dropPosting, List.mem_cons]
    tauto

end

/-! ### Indexes -/

variable {p q : PayloadIndex} {id : UInt64}

theorem wf_empty : empty.Wf where
  clean := ⟨fun f vs h => by simp [empty] at h, fun f vs v ids h => by simp [empty] at h⟩
  has f v id := by simp [Has, empty]
  fields id := by simp [empty]

theorem byId_remove (p : PayloadIndex) (id : UInt64) : (p.remove id).byId = p.byId.erase id := by
  unfold remove
  split
  · rename_i h
    refine Finmap.ext_lookup fun j => ?_
    by_cases hj : j = id
    · rw [hj, h, Finmap.lookup_erase]
    · rw [Finmap.lookup_erase_ne hj]
  · rfl

theorem Wf.remove (h : p.Wf) (id : UInt64) : (p.remove id).Wf := by
  have hid : (p.remove id).byId = p.byId.erase id := byId_remove p id
  refine ⟨?_, fun f v j => ?_, fun j => ?_⟩
  · unfold PayloadIndex.remove
    split
    · exact h.clean
    · exact clean_foldl_dropPosting h.clean id _
  · have hhas : Has (p.remove id).byField f v j ↔ Has p.byField f v j ∧ j ≠ id := by
      unfold PayloadIndex.remove
      split
      · rename_i hnone
        refine ⟨fun hj => ⟨hj, ?_⟩, And.left⟩
        rintro rfl
        obtain ⟨fields, hf, _⟩ := (h.has f v j).mp hj
        rw [hnone] at hf
        cases hf
      · rename_i fields hf
        rw [has_foldl_dropPosting]
        refine and_congr_right fun hj => not_congr ⟨And.left, fun hji => ⟨hji, ?_⟩⟩
        obtain ⟨fields', hf', hmem⟩ := (h.has f v j).mp hj
        rw [hji, hf, Option.some.injEq] at hf'
        exact hf' ▸ hmem
    rw [hhas, hid, h.has]
    by_cases hj : j = id
    · subst hj
      simp
    · simp [hj, Finmap.lookup_erase_ne hj]
  · rw [hid]
    by_cases hj : j = id
    · subst hj
      simp
    · rw [Finmap.lookup_erase_ne hj]
      exact h.fields j

/-- The fields of every id after an `upsert`; an id without fields is not indexed. -/
theorem lookup_byId_upsert (p : PayloadIndex) (id : UInt64) (fields : Fields) (j : UInt64) :
    (p.upsert id fields).byId.lookup j =
      if j = id then (if fields = [] then none else some fields) else p.byId.lookup j := by
  unfold upsert
  simp only [byId_remove, List.isEmpty_iff]
  by_cases hj : j = id
  · subst hj
    by_cases hf : fields = [] <;> simp [hf]
  · by_cases hf : fields = [] <;>
      simp [hf, hj, Finmap.lookup_erase_ne, Finmap.lookup_insert_of_ne]

theorem Wf.upsert (h : p.Wf) (id : UInt64) (fields : Fields) : (p.upsert id fields).Wf := by
  have hr := h.remove id
  refine ⟨clean_foldl_addPosting hr.clean id fields, fun f v j => ?_, fun j => ?_⟩
  · rw [lookup_byId_upsert]
    have hhas : Has (p.upsert id fields).byField f v j ↔
        Has (p.remove id).byField f v j ∨ j = id ∧ (f, v) ∈ fields := has_foldl_addPosting ..
    rw [hhas, hr.has, byId_remove]
    by_cases hj : j = id
    · subst hj
      by_cases hf : fields = [] <;> simp [hf]
    · simp [hj, Finmap.lookup_erase_ne hj]
  · rw [lookup_byId_upsert]
    by_cases hj : j = id
    · by_cases hf : fields = [] <;> simp [hj, hf]
    · simp only [hj, if_false]
      exact h.fields j

end PayloadIndex

end Skeg.Server
