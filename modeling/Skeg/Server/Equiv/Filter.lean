import Skeg.Server.Equiv.Payload
import Skeg.Vector.Equiv.Assoc

/-!
# A filter selects the ids whose fields satisfy it

`Filter.holds` is the meaning of a filter for the fields of one id.  `Filter.evaluate` works on the
postings of an index; for an index that calls of `upsert` and `remove` have led to it returns, in
ascending order, the indexed ids whose fields satisfy the filter, unless it comes to a range whose bounds are the wrong
way round on a field that is there, where it panics (`evaluate_selects`, `evaluate_empty_range`).
-/

namespace Skeg.Server

open Skeg.Vector (Fault mem_dedupAdjacent pairwise_dedupAdjacent)

/-! ### The meaning of a filter -/

mutual

/-- The fields of an id satisfy a filter. -/
def Filter.holds (fields : Fields) : Filter → Bool
  | .eq f v => (f, v) ∈ fields
  | .in_ f vs => vs.any fun v => (f, v) ∈ fields
  | .range f lo hi => fields.any fun fv => fv.1 = f && (lo.below fv.2 && hi.above fv.2)
  | .exists_ f => fields.any fun fv => fv.1 = f
  | .and parts => Filter.holdsAll fields parts
  | .or parts => Filter.holdsAny fields parts
  | .not inner => !inner.holds fields

def Filter.holdsAll (fields : Fields) : List Filter → Bool
  | [] => true
  | f :: fs => f.holds fields && Filter.holdsAll fields fs

def Filter.holdsAny (fields : Fields) : List Filter → Bool
  | [] => false
  | f :: fs => f.holds fields || Filter.holdsAny fields fs

end

def Filter.isNegation : Filter → Bool
  | .not _ => true
  | _ => false

mutual

/-- The evaluation reaches no range on a field that is there with its bounds the wrong way round.  The insides of the
negated parts of a conjunction are evaluated in turn, as long as an id is left. -/
def Filter.Safe (fields : UInt64 → Fields) : Filter → Prop
  | .range f lo hi => (∃ id v, (f, v) ∈ fields id) → Bound.panics lo hi = false
  | .and parts => Filter.PositivesSafe fields parts ∧ Filter.NegatedSafe fields
      (fun id => fields id ≠ [] ∧ ∀ f ∈ parts, f.isNegation = false → f.holds (fields id) = true) parts
  | .or parts => Filter.AllSafe fields parts
  | .not inner => inner.Safe fields
  | _ => True

def Filter.AllSafe (fields : UInt64 → Fields) : List Filter → Prop
  | [] => True
  | f :: fs => f.Safe fields ∧ Filter.AllSafe fields fs

def Filter.PositivesSafe (fields : UInt64 → Fields) : List Filter → Prop
  | [] => True
  | .not _ :: fs => Filter.PositivesSafe fields fs
  | f :: fs => f.Safe fields ∧ Filter.PositivesSafe fields fs

def Filter.NegatedSafe (fields : UInt64 → Fields) : (UInt64 → Prop) → List Filter → Prop
  | _, [] => True
  | left, .not inner :: fs => ((∃ id, left id) → inner.Safe fields) ∧
      Filter.NegatedSafe fields (fun id => left id ∧ inner.holds (fields id) = false) fs
  | left, _ :: fs => Filter.NegatedSafe fields left fs

end

/-! ### Sorted lists of ids -/

theorem mem_sortDedup {ids : List UInt64} {id : UInt64} : id ∈ sortDedup ids ↔ id ∈ ids := by
  rw [sortDedup, mem_dedupAdjacent, List.mem_insertionSort]

theorem pairwise_sortDedup (ids : List UInt64) : (sortDedup ids).Pairwise (· < ·) :=
  pairwise_dedupAdjacent (List.pairwise_insertionSort _ _)

theorem pairwise_sort (s : Finset UInt64) : (s.sort (· ≤ ·)).Pairwise (· < ·) := by
  refine (List.pairwise_and_iff.mpr ⟨s.pairwise_sort (· ≤ ·), s.sort_nodup (· ≤ ·)⟩).imp ?_
  exact fun {a b} h => UInt64.lt_of_le_of_ne h.1 h.2

theorem mem_intersectSorted {as bs : List UInt64} (ha : as.Pairwise (· < ·)) (hb : bs.Pairwise (· < ·))
    (id : UInt64) : id ∈ intersectSorted as bs ↔ id ∈ as ∧ id ∈ bs := by
  fun_induction intersectSorted as bs with
  | case1 => simp
  | case2 => simp
  | case3 a as b bs hlt ih =>
    -- the smaller head is in neither the rest nor the other list
    obtain ⟨hhead, has⟩ := List.pairwise_cons.mp ha
    obtain ⟨hheadb, _⟩ := List.pairwise_cons.mp hb
    rw [ih has hb]
    grind
  | case4 a as b bs hle hlt ih =>
    obtain ⟨hheada, _⟩ := List.pairwise_cons.mp ha
    obtain ⟨hheadb, hbs⟩ := List.pairwise_cons.mp hb
    rw [ih ha hbs]
    grind
  | case5 a as b bs hle hge ih =>
    obtain ⟨hheada, has⟩ := List.pairwise_cons.mp ha
    obtain ⟨hheadb, hbs⟩ := List.pairwise_cons.mp hb
    rw [List.mem_cons, ih has hbs]
    grind

theorem intersectSorted_sublist (as bs : List UInt64) : (intersectSorted as bs).Sublist as := by
  fun_induction intersectSorted as bs with
  | case1 => exact .slnil
  | case2 => exact List.nil_sublist _
  | case3 a as b bs _ ih => exact ih.cons a
  | case4 a as b bs _ _ ih => exact ih
  | case5 a as b bs _ _ ih => exact ih.cons_cons a

/-- Intersecting sorted lists; stopping when nothing is left makes no difference. -/
theorem intersectAll_spec (sets : List (List UInt64)) (hsets : ∀ s ∈ sets, s.Pairwise (· < ·))
    {acc : List UInt64} (hacc : acc.Pairwise (· < ·)) :
    (intersectAll acc sets).Pairwise (· < ·) ∧
      ∀ id, id ∈ intersectAll acc sets ↔ id ∈ acc ∧ ∀ s ∈ sets, id ∈ s := by
  induction sets generalizing acc with
  | nil => exact ⟨hacc, fun id => by simp [intersectAll]⟩
  | cons s sets ih =>
    have hs := hsets s (by simp)
    have hmem := mem_intersectSorted hacc hs
    have hsub : (intersectSorted acc s).Pairwise (· < ·) := hacc.sublist (intersectSorted_sublist acc s)
    simp only [intersectAll]
    split_ifs with hempty
    · refine ⟨hsub, fun id => ?_⟩
      have hnone : ¬ (id ∈ acc ∧ id ∈ s) := by
        rw [← hmem, List.isEmpty_iff.mp hempty]
        exact List.not_mem_nil
      rw [hmem, List.forall_mem_cons]
      tauto
    · obtain ⟨hpair, hiff⟩ := ih (fun s hs => hsets s (by simp [hs])) hsub
      refine ⟨hpair, fun id => ?_⟩
      rw [hiff, hmem, List.forall_mem_cons]
      tauto

/-! ### The ids of postings -/

namespace PayloadIndex

variable {p : PayloadIndex}

theorem mem_postings (f : String) (v : Value) (id : UInt64) :
    id ∈ ((p.postings f v).getD ∅).sort (· ≤ ·) ↔ Has p.byField f v id := by
  rw [Finset.mem_sort, postings, Has]
  cases hf : p.byField.lookup f with
  | none => simp
  | some vs => cases hv : vs.lookup v <;> simp [hv]

theorem mem_idsOf {f : String} {vs : Postings} (hf : p.byField.lookup f = some vs) (q : Value → Bool)
    (id : UInt64) : id ∈ vs.idsOf q ↔ ∃ v, q v = true ∧ Has p.byField f v id := by
  simp only [Postings.idsOf, List.mem_flatMap, Finset.mem_sort, Finset.mem_filter, Finmap.mem_keys, Has,
    hf, Option.some.injEq]
  constructor
  · rintro ⟨v, ⟨-, hq⟩, hid⟩
    cases hv : vs.lookup v with
    | none => simp [hv] at hid
    | some ids => exact ⟨v, hq, vs, ids, rfl, hv, by simpa [hv] using hid⟩
  · rintro ⟨v, hq, _, ids, rfl, hv, hid⟩
    exact ⟨v, ⟨Finmap.mem_of_lookup_eq_some hv, hq⟩, by simpa [hv] using hid⟩

theorem mem_fieldIds (f : String) (id : UInt64) :
    id ∈ p.fieldIds f ↔ ∃ v, Has p.byField f v id := by
  unfold fieldIds
  split
  · next hf => simp [Has, hf]
  · next vs hf =>
    rw [mem_sortDedup, mem_idsOf hf]
    simp

theorem pairwise_fieldIds (p : PayloadIndex) (f : String) : (p.fieldIds f).Pairwise (· < ·) := by
  unfold fieldIds
  split
  · exact .nil
  · exact pairwise_sortDedup _

theorem mem_allIds (id : UInt64) : id ∈ p.allIds ↔ ∃ fields, p.byId.lookup id = some fields := by
  rw [allIds, Finset.mem_sort, Finmap.mem_keys, Finmap.mem_iff]

theorem pairwise_allIds (p : PayloadIndex) : p.allIds.Pairwise (· < ·) :=
  pairwise_sort _

end PayloadIndex

/-! ### Calls -/

/-- A call that changes an index. -/
inductive PayloadCall where
  | upsert (id : UInt64) (fields : Fields)
  | remove (id : UInt64)

namespace PayloadCall

def apply (p : PayloadIndex) : PayloadCall → PayloadIndex
  | .upsert id fields => p.upsert id fields
  | .remove id => p.remove id

/-- The fields of every id afterwards; an id without fields is not indexed. -/
def setFields (fields : UInt64 → Fields) : PayloadCall → UInt64 → Fields
  | .upsert id new => Function.update fields id new
  | .remove id => Function.update fields id []

/-- The index that calls lead to. -/
def index (calls : List PayloadCall) : PayloadIndex := calls.foldl apply .empty

/-- The fields that ids have after the calls. -/
def current (calls : List PayloadCall) : UInt64 → Fields := calls.foldl setFields fun _ => []

/-- The index is well formed and holds these fields. -/
structure Holds (p : PayloadIndex) (fields : UInt64 → Fields) : Prop where
  wf : p.Wf
  byId : ∀ id, p.byId.lookup id = if fields id = [] then none else some (fields id)

theorem Holds.apply {p : PayloadIndex} {fields : UInt64 → Fields} (h : Holds p fields)
    (call : PayloadCall) : Holds (call.apply p) (call.setFields fields) := by
  cases call with
  | upsert id new =>
    refine ⟨h.wf.upsert id new, fun j => ?_⟩
    rw [PayloadCall.apply, PayloadIndex.lookup_byId_upsert, h.byId, setFields]
    by_cases hj : j = id
    · rw [hj, Function.update_self, if_pos rfl]
    · rw [Function.update_of_ne hj, if_neg hj]
  | remove id =>
    refine ⟨h.wf.remove id, fun j => ?_⟩
    rw [PayloadCall.apply, PayloadIndex.byId_remove, setFields]
    by_cases hj : j = id
    · rw [hj, Function.update_self, if_pos rfl, Finmap.lookup_erase]
    · rw [Function.update_of_ne hj, Finmap.lookup_erase_ne hj, h.byId]

theorem Holds.foldl (calls : List PayloadCall) {p : PayloadIndex} {fields : UInt64 → Fields}
    (h : Holds p fields) : Holds (calls.foldl PayloadCall.apply p) (calls.foldl setFields fields) := by
  induction calls generalizing p fields with
  | nil => exact h
  | cons call calls ih => exact ih (h.apply call)

theorem holds_index (calls : List PayloadCall) : Holds (index calls) (current calls) :=
  Holds.foldl calls ⟨PayloadIndex.wf_empty, fun id => by simp [PayloadIndex.empty]⟩

theorem Holds.lookup_eq_some {p : PayloadIndex} {fields : UInt64 → Fields} (h : Holds p fields)
    (id : UInt64) (q : Fields → Prop) :
    (∃ fs, p.byId.lookup id = some fs ∧ q fs) ↔ fields id ≠ [] ∧ q (fields id) := by
  rw [h.byId]
  split <;> simp_all

/-- The fields of the index are the fields of its ids. -/
theorem Holds.exists_field_iff {p : PayloadIndex} {fields : UInt64 → Fields} (h : Holds p fields) (g : String) :
    (∃ id v, (g, v) ∈ fields id) ↔ ∃ vs, p.byField.lookup g = some vs := by
  have hhas : ∀ v id, PayloadIndex.Has p.byField g v id ↔ (g, v) ∈ fields id := fun v id => by
    rw [h.wf.has, h.lookup_eq_some id fun fs => (g, v) ∈ fs]
    exact and_iff_right_of_imp List.ne_nil_of_mem
  constructor
  · rintro ⟨id, v, hmem⟩
    obtain ⟨vs, ids, hvs, -⟩ := (hhas v id).mpr hmem
    exact ⟨vs, hvs⟩
  · rintro ⟨vs, hvs⟩
    obtain ⟨v, id, hid⟩ := h.wf.clean.exists_has hvs
    exact ⟨id, v, (hhas v id).mp hid⟩

end PayloadCall

/-! ### Every filter -/

/-- A list of the ids with a property in ascending order if a condition holds, else an error. -/
structure Yields (safe : Prop) (r : Except Fault (List UInt64)) (q : UInt64 → Prop) : Prop where
  ok : safe → ∃ l, r = .ok l ∧ l.Pairwise (· < ·) ∧ ∀ id, id ∈ l ↔ q id
  error : ¬ safe → ∃ e, r = .error e

namespace Filter

theorem holdsAll_iff (fields : Fields) (fs : List Filter) :
    holdsAll fields fs = true ↔ ∀ f ∈ fs, f.holds fields = true := by
  induction fs with
  | nil => simp [holdsAll]
  | cons f fs ih => simp [holdsAll, ih]

theorem holdsAny_iff (fields : Fields) (fs : List Filter) :
    holdsAny fields fs = true ↔ ∃ f ∈ fs, f.holds fields = true := by
  induction fs with
  | nil => simp [holdsAny]
  | cons f fs ih => simp [holdsAny, ih]

theorem allSafe_iff (fields : UInt64 → Fields) (fs : List Filter) :
    AllSafe fields fs ↔ ∀ f ∈ fs, f.Safe fields := by
  induction fs with
  | nil => simp [AllSafe]
  | cons f fs ih => simp [AllSafe, ih]

theorem positivesSafe_iff (fields : UInt64 → Fields) (fs : List Filter) :
    PositivesSafe fields fs ↔ ∀ f ∈ fs.filter fun f => !f.isNegation, f.Safe fields := by
  induction fs with
  | nil => simp [PositivesSafe]
  | cons f fs ih => cases f <;> simp [PositivesSafe, isNegation, ih]

theorem positives_eq (p : PayloadIndex) (fs : List Filter) :
    positives p fs = evaluateAll p (fs.filter fun f => !f.isNegation) := by
  induction fs with
  | nil => rfl
  | cons f fs ih => cases f <;> simp [positives, evaluateAll, isNegation, ih]

/-- The indexed ids whose fields satisfy the filter. -/
def Selected (fields : UInt64 → Fields) (f : Filter) (id : UInt64) : Prop :=
  fields id ≠ [] ∧ f.holds (fields id) = true

/-- What is to be shown of a filter. -/
def Decided (p : PayloadIndex) (fields : UInt64 → Fields) (f : Filter) : Prop :=
  Yields (f.Safe fields) (f.evaluate p) (f.Selected fields)

/-- The sets are those of the filters. -/
structure Sets (fields : UInt64 → Fields) (fs : List Filter) (sets : List (List UInt64)) : Prop where
  of_mem : ∀ s ∈ sets, s.Pairwise (· < ·) ∧ ∃ f ∈ fs, ∀ id, id ∈ s ↔ f.Selected fields id
  exists_mem : ∀ f ∈ fs, ∃ s ∈ sets, ∀ id, id ∈ s ↔ f.Selected fields id

variable {p : PayloadIndex} {fields : UInt64 → Fields} {fs : List Filter}

theorem evaluateAll_ok (h : ∀ f ∈ fs, f.Decided p fields) (hsafe : ∀ f ∈ fs, f.Safe fields) :
    ∃ sets, (evaluateAll p fs).mapM id = .ok sets ∧ Sets fields fs sets := by
  induction fs with
  | nil => exact ⟨[], rfl, by simp, by simp⟩
  | cons f fs ih =>
    obtain ⟨l, hl, hpair, hmem⟩ := (h f (by simp)).ok (hsafe f (by simp))
    obtain ⟨sets, hsets, hall⟩ := ih (fun g hg => h g (by simp [hg])) fun g hg => hsafe g (by simp [hg])
    refine ⟨l :: sets, ?_, List.forall_mem_cons.mpr ⟨⟨hpair, f, by simp, hmem⟩, fun s hs => ?_⟩,
      List.forall_mem_cons.mpr ⟨⟨l, by simp, hmem⟩, fun g hg => ?_⟩⟩
    · rw [evaluateAll, List.mapM_cons, hsets, hl]
      rfl
    · obtain ⟨hs', g, hg, hgs⟩ := hall.of_mem s hs
      exact ⟨hs', g, by simp [hg], hgs⟩
    · obtain ⟨s, hs, hgs⟩ := hall.exists_mem g hg
      exact ⟨s, by simp [hs], hgs⟩

theorem evaluateAll_error (h : ∀ f ∈ fs, f.Decided p fields) (hsafe : ¬ ∀ f ∈ fs, f.Safe fields) :
    ∃ e, (evaluateAll p fs).mapM id = .error e := by
  induction fs with
  | nil => simp at hsafe
  | cons f fs ih =>
    rw [evaluateAll, List.mapM_cons]
    by_cases hf : f.Safe fields
    · obtain ⟨l, hl, -⟩ := (h f (by simp)).ok hf
      obtain ⟨e, he⟩ := ih (fun g hg => h g (by simp [hg])) (by simpa [hf] using hsafe)
      exact ⟨e, by rw [he, hl]; rfl⟩
    · obtain ⟨e, he⟩ := (h f (by simp)).error hf
      exact ⟨e, by rw [he]; rfl⟩

theorem subtractAll_nil (sets : List (Except Fault (List UInt64))) : subtractAll [] sets = .ok [] := by
  cases sets <;> rfl

theorem subtractAll_cons (acc : List UInt64) (s : Except Fault (List UInt64)) (sets : List (Except Fault (List UInt64))) :
    subtractAll acc (s :: sets) = if acc.isEmpty then .ok acc else
      s.bind fun b => subtractAll (acc.filter fun id => id ∉ b) sets := by
  rw [subtractAll.eq_def]
  cases s <;> rfl

/-- A set that lists of ids are taken away from, each only while an id is left. -/
theorem subtractAll_yields (h : ∀ f ∈ fs, ∀ inner, f = .not inner → inner.Decided p fields)
    (left : UInt64 → Prop) (hleft : ∀ id, left id → fields id ≠ []) {acc : List UInt64}
    (hpair : acc.Pairwise (· < ·)) (hacc : ∀ id, id ∈ acc ↔ left id) :
    Yields (NegatedSafe fields left fs) (subtractAll acc (negated p fs)) fun id =>
      left id ∧ ∀ f ∈ fs, f.isNegation = true → f.holds (fields id) = true := by
  induction fs generalizing left acc with
  | nil => exact ⟨fun _ => ⟨acc, rfl, hpair, by simp [hacc]⟩, fun hn => absurd trivial hn⟩
  | cons f fs ih =>
    have htail : ∀ g ∈ fs, ∀ inner, g = .not inner → inner.Decided p fields := fun g hg => h g (by simp [hg])
    by_cases hnot : ∃ inner, f = .not inner
    · obtain ⟨inner, rfl⟩ := hnot
      have hinner := h (.not inner) (by simp) inner rfl
      rw [negated, NegatedSafe, subtractAll_cons]
      split_ifs with hempty
      · -- nothing is left, so nothing more is evaluated
        have hnone : ∀ id, ¬ left id := fun id hid => by simpa [List.isEmpty_iff.mp hempty] using (hacc id).mpr hid
        have hrest := ih htail (fun id => left id ∧ inner.holds (fields id) = false)
          (fun id hid => hleft id hid.1) .nil fun id => by simp [hnone]
        refine ⟨fun _ => ⟨acc, rfl, hpair, fun id => by simp [hacc, hnone]⟩, fun hunsafe => ?_⟩
        obtain ⟨e, he⟩ := hrest.error fun hs => hunsafe ⟨fun ⟨id, hid⟩ => absurd hid (hnone id), hs⟩
        rw [subtractAll_nil] at he
        cases he
      · -- an id is left, so that the inside is evaluated
        obtain ⟨i, hi⟩ := List.exists_mem_of_ne_nil acc (by simpa using hempty)
        by_cases hs : inner.Safe fields
        · obtain ⟨b, hb, -, hmem⟩ := hinner.ok hs
          have hrest := ih htail (fun id => left id ∧ inner.holds (fields id) = false)
            (fun id hid => hleft id hid.1) (hpair.filter fun id => decide (id ∉ b)) fun id => by
              rw [List.mem_filter, hacc, decide_eq_true_iff, hmem]
              exact and_congr_right fun hid => by simp [Selected, hleft id hid]
          rw [hb]
          refine ⟨fun hsafe => ?_, fun hunsafe => hrest.error fun hr => hunsafe ⟨fun _ => hs, hr⟩⟩
          obtain ⟨l, hl, hlp, hlm⟩ := hrest.ok hsafe.2
          exact ⟨l, hl, hlp, fun id => by simp [hlm, holds, isNegation, and_assoc]⟩
        · obtain ⟨e, he⟩ := hinner.error hs
          rw [he]
          exact ⟨fun hsafe => absurd (hsafe.1 ⟨i, (hacc i).mp hi⟩) hs, fun _ => ⟨e, rfl⟩⟩
    · push Not at hnot
      have hf : f.isNegation = false := by cases f <;> first | rfl | exact absurd rfl (hnot _)
      have hrest := ih htail left hleft hpair hacc
      rw [negated.eq_3 _ _ _ hnot, NegatedSafe.eq_3 _ _ _ _ hnot]
      refine ⟨fun hsafe => ?_, hrest.error⟩
      obtain ⟨l, hl, hlp, hlm⟩ := hrest.ok hsafe
      exact ⟨l, hl, hlp, fun id => by simp [hlm, hf]⟩

/-- The common members of the sets of a conjunction's positive parts, smallest set first. -/
theorem intersect_spec {gs : List Filter} {sets : List (List UInt64)}
    (hsets : Sets fields gs sets) {a : List UInt64} {rest : List (List UInt64)}
    (hsort : sets.insertionSort (fun a b => a.length ≤ b.length) = a :: rest) :
    (intersectAll a rest).Pairwise (· < ·) ∧
      ∀ id, id ∈ intersectAll a rest ↔ fields id ≠ [] ∧ ∀ f ∈ gs, f.holds (fields id) = true := by
  have hperm := List.perm_insertionSort (fun a b : List UInt64 => a.length ≤ b.length) sets
  have hmem : ∀ s, s = a ∨ s ∈ rest ↔ s ∈ sets := fun s => by rw [← hperm.mem_iff, hsort, List.mem_cons]
  have ha := (hmem a).mp (.inl rfl)
  obtain ⟨hpair, hiff⟩ := intersectAll_spec rest (fun s hs => (hsets.of_mem s ((hmem s).mp (.inr hs))).1)
    (hsets.of_mem a ha).1
  refine ⟨hpair, fun id => ?_⟩
  have hsplit : (id ∈ a ∧ ∀ s ∈ rest, id ∈ s) ↔ ∀ s ∈ sets, id ∈ s := by
    simp only [← hmem, forall_eq_or_imp]
  rw [hiff, hsplit]
  constructor
  · intro h
    obtain ⟨-, f, -, hf⟩ := hsets.of_mem a ha
    refine ⟨((hf id).mp (h a ha)).1, fun g hg => ?_⟩
    obtain ⟨s, hs, hgs⟩ := hsets.exists_mem g hg
    exact ((hgs id).mp (h s hs)).2
  · rintro ⟨hne, h⟩ s hs
    obtain ⟨-, f, hf, hfs⟩ := hsets.of_mem s hs
    exact (hfs id).mpr ⟨hne, h f hf⟩

section

variable (hp : PayloadCall.Holds p fields)

include hp

theorem mem_allIds_iff (id : UInt64) : id ∈ p.allIds ↔ fields id ≠ [] := by
  rw [PayloadIndex.mem_allIds, hp.byId]
  split <;> simp_all

theorem decided_and (h : ∀ f ∈ fs, f.Decided p fields ∧ ∀ inner, f = .not inner → inner.Decided p fields) :
    (Filter.and fs).Decided p fields := by
  have hpos : ∀ f ∈ fs.filter (fun f => !f.isNegation), f.Decided p fields := fun f hf =>
    (h f (List.mem_of_mem_filter hf)).1
  have hneg : ∀ f ∈ fs, ∀ inner, f = .not inner → inner.Decided p fields := fun f hf => (h f hf).2
  unfold Decided
  rw [Safe, evaluate, conjoin, positivesSafe_iff, positives_eq]
  by_cases hsafe : ∀ f ∈ fs.filter (fun f => !f.isNegation), f.Safe fields
  · obtain ⟨sets, hsets, hall⟩ := evaluateAll_ok hpos hsafe
    -- the ids that the negated parts are taken away from
    have hfinish : ∀ acc : List UInt64, acc.Pairwise (· < ·) → (∀ id, id ∈ acc ↔ fields id ≠ [] ∧
        ∀ f ∈ fs.filter (fun f => !f.isNegation), f.holds (fields id) = true) →
        Yields ((∀ f ∈ fs.filter (fun f => !f.isNegation), f.Safe fields) ∧ NegatedSafe fields (fun id =>
          fields id ≠ [] ∧ ∀ f ∈ fs, f.isNegation = false → f.holds (fields id) = true) fs)
          (subtractAll acc (negated p fs)) ((Filter.and fs).Selected fields) := by
      intro acc hpair hacc
      have hrest := subtractAll_yields hneg (fun id => fields id ≠ [] ∧ ∀ f ∈ fs, f.isNegation = false →
        f.holds (fields id) = true) (fun id hid => hid.1) hpair fun id => by simp [hacc]
      refine ⟨fun hs => ?_, fun hs => hrest.error fun hn => hs ⟨hsafe, hn⟩⟩
      obtain ⟨l, hl, hlp, hlm⟩ := hrest.ok hs.2
      refine ⟨l, hl, hlp, fun id => ?_⟩
      rw [hlm, Selected, holds, holdsAll_iff, and_assoc]
      refine and_congr_right fun _ => ⟨fun hf f hmem => ?_, fun hf => ⟨fun f hmem _ => hf f hmem, fun f hmem _ => hf f hmem⟩⟩
      cases hn : f.isNegation with
      | false => exact hf.1 f hmem hn
      | true => exact hf.2 f hmem hn
    rw [hsets]
    dsimp only
    split
    · next hnil =>
      -- no positive part: the negated ones are taken away from all ids
      have hempty : sets = [] := List.perm_nil.mp ((List.perm_insertionSort _ sets).symm.trans (.of_eq hnil))
      have hnone : ∀ f, f ∉ fs.filter fun f => !f.isNegation := by
        intro f hf
        obtain ⟨s, hs, -⟩ := hall.exists_mem f hf
        simp [hempty] at hs
      exact hfinish _ p.pairwise_allIds fun id => by simp [mem_allIds_iff hp, hnone]
    · next a rest hsort =>
      obtain ⟨hpair, hmem⟩ := intersect_spec hall hsort
      exact hfinish _ hpair hmem
  · -- a positive part fails before any negated one is looked at
    obtain ⟨e, he⟩ := evaluateAll_error hpos hsafe
    rw [he]
    exact ⟨fun hs => absurd hs.1 hsafe, fun _ => ⟨e, rfl⟩⟩

omit hp in
theorem decided_or (h : ∀ f ∈ fs, f.Decided p fields) : (Filter.or fs).Decided p fields := by
  unfold Decided
  rw [Safe, allSafe_iff, evaluate]
  refine ⟨fun hsafe => ?_, fun hsafe => ?_⟩
  · obtain ⟨sets, hsets, hall⟩ := evaluateAll_ok h hsafe
    refine ⟨sortDedup sets.flatten, by rw [hsets], pairwise_sortDedup _, fun id => ?_⟩
    rw [mem_sortDedup, List.mem_flatten, Selected, holds, holdsAny_iff]
    constructor
    · rintro ⟨s, hs, hid⟩
      obtain ⟨-, f, hf, hfs⟩ := hall.of_mem s hs
      obtain ⟨hne, hholds⟩ := (hfs id).mp hid
      exact ⟨hne, f, hf, hholds⟩
    · rintro ⟨hne, f, hf, hholds⟩
      obtain ⟨s, hs, hfs⟩ := hall.exists_mem f hf
      exact ⟨s, hs, (hfs id).mpr ⟨hne, hholds⟩⟩
  · obtain ⟨e, he⟩ := evaluateAll_error h hsafe
    exact ⟨e, by rw [he]⟩

theorem decided_not {f : Filter} (h : f.Decided p fields) : (Filter.not f).Decided p fields := by
  refine ⟨fun hsafe => ?_, fun hsafe => ?_⟩
  · obtain ⟨l, hl, -, hmem⟩ := h.ok hsafe
    refine ⟨_, by rw [evaluate, hl], p.pairwise_allIds.filter _, fun id => ?_⟩
    rw [List.mem_filter, mem_allIds_iff hp, decide_eq_true_iff, hmem, Selected, Selected, holds]
    exact and_congr_right fun hne => by simp [hne]
  · obtain ⟨e, he⟩ := h.error hsafe
    exact ⟨e, by rw [evaluate, he]⟩

/-- The filters on one field, from the ids that the index has for its values. -/
theorem exists_has_iff (f : String) (q : Value → Bool) (id : UInt64) :
    (∃ v, q v = true ∧ PayloadIndex.Has p.byField f v id) ↔
      fields id ≠ [] ∧ (fields id).any (fun fv => fv.1 = f && q fv.2) = true := by
  simp only [hp.wf.has, hp.lookup_eq_some id fun fs => (f, _) ∈ fs, List.any_eq_true, Bool.and_eq_true,
    decide_eq_true_iff, Prod.exists]
  constructor
  · rintro ⟨v, hq, hne, hmem⟩
    exact ⟨hne, f, v, hmem, rfl, hq⟩
  · rintro ⟨hne, _, v, hmem, rfl, hq⟩
    exact ⟨v, hq, hne, hmem⟩

theorem decided_eq (f : String) (v : Value) : (Filter.eq f v).Decided p fields := by
  refine ⟨fun _ => ⟨_, rfl, pairwise_sort _, fun id => ?_⟩, fun hsafe => absurd trivial hsafe⟩
  rw [PayloadIndex.mem_postings, hp.wf.has, hp.lookup_eq_some id fun fs => (f, v) ∈ fs]
  simp [Selected, holds]

theorem decided_in (f : String) (vs : List Value) : (Filter.in_ f vs).Decided p fields := by
  refine ⟨fun _ => ⟨_, rfl, pairwise_sortDedup _, fun id => ?_⟩, fun hsafe => absurd trivial hsafe⟩
  simp only [mem_sortDedup, List.mem_flatMap, PayloadIndex.mem_postings, hp.wf.has,
    hp.lookup_eq_some id fun fs => (f, _) ∈ fs, Selected, holds, List.any_eq_true, decide_eq_true_iff]
  constructor
  · rintro ⟨v, hv, hne, hmem⟩
    exact ⟨hne, v, hv, hmem⟩
  · rintro ⟨hne, v, hv, hmem⟩
    exact ⟨v, hv, hne, hmem⟩

theorem decided_range (f : String) (lo hi : Bound) : (Filter.range f lo hi).Decided p fields := by
  unfold Decided
  rw [Safe, evaluate, PayloadIndex.rangeIds, hp.exists_field_iff f]
  cases hf : p.byField.lookup f with
  | none =>
    refine ⟨fun _ => ⟨[], rfl, .nil, fun id => ?_⟩, fun hsafe => absurd (fun h => by simp at h) hsafe⟩
    rw [Selected, holds, ← exists_has_iff hp f fun v => lo.below v && hi.above v]
    simp [PayloadIndex.Has, hf]
  | some vs =>
    cases hpanics : Bound.panics lo hi with
    | true => exact ⟨fun hsafe => by simp at hsafe, fun _ => ⟨_, rfl⟩⟩
    | false =>
      refine ⟨fun _ => ⟨_, rfl, pairwise_sortDedup _, fun id => ?_⟩, fun hsafe => absurd (fun _ => rfl) hsafe⟩
      rw [mem_sortDedup, PayloadIndex.mem_idsOf hf, exists_has_iff hp f fun v => lo.below v && hi.above v, Selected,
        holds]

theorem decided_exists (f : String) : (Filter.exists_ f).Decided p fields := by
  refine ⟨fun _ => ⟨_, rfl, p.pairwise_fieldIds f, fun id => ?_⟩, fun hsafe => absurd trivial hsafe⟩
  have := exists_has_iff hp f (fun _ => true) id
  simp only [true_and, Bool.and_true] at this
  rw [PayloadIndex.mem_fieldIds, this, Selected, holds]

end

mutual

theorem decided (hp : PayloadCall.Holds p fields) : (f : Filter) →
    f.Decided p fields ∧ ∀ inner, f = .not inner → inner.Decided p fields
  | .eq f v => ⟨decided_eq hp f v, by simp⟩
  | .in_ f vs => ⟨decided_in hp f vs, by simp⟩
  | .range f lo hi => ⟨decided_range hp f lo hi, by simp⟩
  | .exists_ f => ⟨decided_exists hp f, by simp⟩
  | .and parts => ⟨decided_and hp (allDecided hp parts), by simp⟩
  | .or parts => ⟨decided_or fun f hf => (allDecided hp parts f hf).1, by simp⟩
  | .not inner => by
    refine ⟨decided_not hp (decided hp inner).1, ?_⟩
    rintro _ ⟨⟩
    exact (decided hp inner).1

theorem allDecided (hp : PayloadCall.Holds p fields) : (fs : List Filter) →
    ∀ f ∈ fs, f.Decided p fields ∧ ∀ inner, f = .not inner → inner.Decided p fields
  | [] => by simp
  | f :: fs => by
    rintro g (_ | ⟨_, hg⟩)
    · exact decided hp f
    · exact allDecided hp fs g hg

end

end Filter

/-- After any calls, a filter returns the indexed ids that satisfy it, unless its evaluation reaches a range that
panics. -/
theorem evaluate_selects (calls : List PayloadCall) (f : Filter) :
    (∃ ids, f.evaluate (PayloadCall.index calls) = .ok ids ∧ ids.Pairwise (· < ·) ∧
      ∀ id, id ∈ ids ↔ PayloadCall.current calls id ≠ [] ∧
        f.holds (PayloadCall.current calls id) = true) ↔ f.Safe (PayloadCall.current calls) := by
  have hf := (f.decided (PayloadCall.holds_index calls)).1
  refine ⟨fun h => ?_, hf.ok⟩
  by_contra hunsafe
  obtain ⟨ids, hids, -⟩ := h
  obtain ⟨e, he⟩ := hf.error hunsafe
  rw [hids] at he
  cases he

/-- One id with a field, and a range of it from 5 down to 1. -/
theorem evaluate_empty_range :
    (Filter.range "a" (.included (.int 5)) (.included (.int 1))).evaluate
        (PayloadCall.index [.upsert 1 [("a", .int 1)]]) =
      .error (.panic "range start is greater than range end in BTreeMap") := by
  decide +kernel

/-- Four ids, of which one is removed again. -/
def threeIds : List PayloadCall :=
  [.upsert 7 [("a", .int 1), ("a", .int 9)], .upsert 3 [("a", .int 4)],
    .upsert 5 [("a", .int 2), ("b", .keyword "x")], .upsert 2 [("a", .int 3)], .remove 2]

/-- A range without the ids that a negated part matches. -/
def smallNotX : Filter :=
  .and [.range "a" (.included (.int 1)) (.excluded (.int 5)), .not (.eq "b" (.keyword "x"))]

theorem smallNotX_selects :
    ∃ ids, smallNotX.evaluate (PayloadCall.index threeIds) = .ok ids ∧ ids.Pairwise (· < ·) ∧
      3 ∈ ids ∧ 7 ∈ ids ∧ 5 ∉ ids ∧ 2 ∉ ids := by
  obtain ⟨ids, hids, hpair, hiff⟩ := (evaluate_selects threeIds smallNotX).mpr
    ⟨⟨fun _ => by decide, trivial⟩, fun _ => trivial, trivial⟩
  refine ⟨ids, hids, hpair, ?_⟩
  simp only [hiff]
  decide +kernel

end Skeg.Server
