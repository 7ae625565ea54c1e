import Skeg.Server.Equiv.Filter
import Skeg.Server.Equiv.FilterGrammar

/-!
# The ranges of parsed filters

The parser makes ranges from one comparison, which are open on one side, and from `BETWEEN`, which include both
bounds (`parseFilter_shaped`).  So an evaluation can only panic in a `BETWEEN` whose bounds are the wrong way round, if
it comes to it (`parsed_filter_evaluates`).

A range is answered from one map in which keywords come before integers.  An integer below keeps the keywords out; a
range that is open below or starts at a keyword has keywords in it, and matches ids that have no integer there
(`range_matches_integers`, `range_matches_keyword`).
-/

namespace Skeg.Server

/-! ### The ranges of a filter -/

mutual

/-- The ranges in a filter, with their fields. -/
def Filter.ranges : Filter → List (String × Bound × Bound)
  | .range f lo hi => [(f, lo, hi)]
  | .and parts => Filter.allRanges parts
  | .or parts => Filter.allRanges parts
  | .not inner => inner.ranges
  | _ => []

def Filter.allRanges : List Filter → List (String × Bound × Bound)
  | [] => []
  | f :: fs => f.ranges ++ Filter.allRanges fs

end

namespace Filter

theorem mem_allRanges {fs : List Filter} {r : String × Bound × Bound} :
    r ∈ allRanges fs ↔ ∃ f ∈ fs, r ∈ f.ranges := by
  induction fs with
  | nil => simp [allRanges]
  | cons f fs ih => simp [allRanges, ih]

/-- Every range is open on one side or includes both bounds. -/
def Shaped (f : Filter) : Prop :=
  ∀ r ∈ f.ranges, r.2.1 = .unbounded ∨ r.2.2 = .unbounded ∨ ∃ a b, r.2 = (.included a, .included b)

theorem shaped_joinParts {make : List Filter → Filter} (hmake : ∀ fs, (make fs).ranges = allRanges fs)
    {parts : List Filter} (h : ∀ f ∈ parts, f.Shaped) : (joinParts make parts).Shaped := by
  have hall : (make parts).Shaped := by
    intro r hr
    rw [hmake, mem_allRanges] at hr
    obtain ⟨f, hf, hr⟩ := hr
    exact h f hf r hr
  unfold joinParts
  split
  · exact h _ List.mem_cons_self
  · exact hall

end Filter

/-! ### What the parser makes -/

theorem Predicate.shaped {toks : List String} {f : Filter} (h : Predicate toks f) : f.Shaped := by
  intro r hr
  cases h with
  | compare _ hop _ =>
    simp only [comparisons, List.mem_cons, Prod.mk.injEq, List.not_mem_nil, or_false] at hop
    rcases hop with ⟨-, rfl⟩ | ⟨-, rfl⟩ | ⟨-, rfl⟩ | ⟨-, rfl⟩ | ⟨-, rfl⟩
    · cases hr
    · exact .inr (.inl (List.mem_singleton.mp hr ▸ rfl))
    · exact .inr (.inl (List.mem_singleton.mp hr ▸ rfl))
    · exact .inl (List.mem_singleton.mp hr ▸ rfl)
    · exact .inl (List.mem_singleton.mp hr ▸ rfl)
  | «exists» => cases hr
  | «in» => cases hr
  | between =>
    rw [Filter.ranges, List.mem_singleton] at hr
    exact .inr (.inr ⟨_, _, by rw [hr]⟩)

theorem Derives.shaped {l : Level} {toks : List String} {fs : List Filter} (h : Derives l toks fs) :
    ∀ f ∈ fs, f.Shaped := by
  have hsnoc : ∀ {gs : List Filter} {g : Filter}, (∀ f ∈ gs, f.Shaped) → g.Shaped → ∀ f ∈ gs ++ [g], f.Shaped := by
    intro gs g hgs hg f hf
    rcases List.mem_append.mp hf with hf | hf
    · exact hgs f hf
    · exact List.mem_singleton.mp hf ▸ hg
  induction h with
  | predicate hpred => exact List.forall_mem_singleton.mpr hpred.shaped
  | not _ _ ih =>
    refine List.forall_mem_singleton.mpr fun r hr => ih _ (List.mem_singleton_self _) r ?_
    simpa only [Filter.ranges] using hr
  | paren _ ih => exact List.forall_mem_singleton.mpr (Filter.shaped_joinParts (fun _ => rfl) ih)
  | one _ ih => exact ih
  | and _ _ _ ih ih' => exact hsnoc ih (ih' _ (List.mem_singleton_self _))
  | conjunction _ ih => exact List.forall_mem_singleton.mpr (Filter.shaped_joinParts (fun _ => rfl) ih)
  | or _ _ _ ih ih' => exact hsnoc ih (Filter.shaped_joinParts (fun _ => rfl) ih')

theorem parseFilter_shaped {s : String} {f : Filter} (h : parseFilter s = .ok f) : f.Shaped := by
  obtain ⟨fs, rfl, hderives⟩ := derives_parseFilter h
  exact Filter.shaped_joinParts (fun _ => rfl) hderives.shaped

/-- A range of these shapes only panics if it includes both bounds and they are the wrong way round. -/
theorem panics_iff {lo hi : Bound}
    (hshape : lo = .unbounded ∨ hi = .unbounded ∨ ∃ a b, (lo, hi) = (.included a, .included b)) :
    Bound.panics lo hi = true ↔ ∃ a b, lo = .included a ∧ hi = .included b ∧ b < a := by
  rcases hshape with rfl | rfl | ⟨a, b, heq⟩
  · simp [Bound.panics]
  · cases lo <;> simp [Bound.panics]
  · obtain ⟨rfl, rfl⟩ := Prod.mk.inj heq
    simp [Bound.panics]

/-- A filter that the parser has accepted evaluates to a list, unless the evaluation reaches a range that panics; such a
range is a `BETWEEN` whose bounds are the wrong way round. -/
theorem parsed_filter_evaluates {s : String} {f : Filter} (hparse : parseFilter s = .ok f) (calls : List PayloadCall) :
    ((∃ ids, f.evaluate (PayloadCall.index calls) = .ok ids) ↔ f.Safe (PayloadCall.current calls)) ∧
      ∀ r ∈ f.ranges, Bound.panics r.2.1 r.2.2 = true ↔ ∃ a b, r.2.1 = .included a ∧ r.2.2 = .included b ∧ b < a := by
  refine ⟨⟨fun ⟨ids, hids⟩ => ?_, fun hsafe => ?_⟩, fun r hr => panics_iff (parseFilter_shaped hparse r hr)⟩
  · by_contra hunsafe
    obtain ⟨e, he⟩ := (f.decided (PayloadCall.holds_index calls)).1.error hunsafe
    rw [hids] at he
    cases he
  · obtain ⟨ids, hids, -⟩ := (f.decided (PayloadCall.holds_index calls)).1.ok hsafe
    exact ⟨ids, hids⟩

/-! ### Integers and keywords -/

namespace Value

theorem int_le_int {m n : Int} : (int m : Value) ≤ int n ↔ m ≤ n := Sum.Lex.inr_le_inr_iff

theorem int_lt_int {m n : Int} : (int m : Value) < int n ↔ m < n := Sum.Lex.inr_lt_inr_iff

theorem keyword_lt_int (s : String) (n : Int) : keyword s < int n := Sum.Lex.inl_lt_inr s n

end Value

namespace Bound

/-- The integers from a lower bound on; keywords come before all of them. -/
def belowInt (n : Int) : Bound → Prop
  | included (.int m) => m ≤ n
  | excluded (.int m) => m < n
  | included (.keyword _) | excluded (.keyword _) | unbounded => True

/-- The integers up to an upper bound. -/
def aboveInt (n : Int) : Bound → Prop
  | included (.int m) => n ≤ m
  | excluded (.int m) => n < m
  | included (.keyword _) | excluded (.keyword _) => False
  | unbounded => True

theorem below_int (n : Int) (lo : Bound) : lo.below (.int n) = true ↔ lo.belowInt n := by
  match lo with
  | included (.int m) => simp [below, belowInt, Value.int_le_int]
  | excluded (.int m) => simp [below, belowInt, Value.int_lt_int]
  | included (.keyword s) => simp [below, belowInt, (Value.keyword_lt_int s n).le]
  | excluded (.keyword s) => simp [below, belowInt, Value.keyword_lt_int s n]
  | unbounded => simp [below, belowInt]

theorem above_int (n : Int) (hi : Bound) : hi.above (.int n) = true ↔ hi.aboveInt n := by
  match hi with
  | included (.int m) => simp [above, aboveInt, Value.int_le_int]
  | excluded (.int m) => simp [above, aboveInt, Value.int_lt_int]
  | included (.keyword s) => simp [above, aboveInt, Value.keyword_lt_int s n]
  | excluded (.keyword s) => simp [above, aboveInt, (Value.keyword_lt_int s n).le]
  | unbounded => simp [above, aboveInt]

end Bound

/-- A range predicate matches the ids with an integer in its bounds, if and only if the ids with a keyword in them have
one as well and the bounds of a `BETWEEN` are in order. -/
theorem range_matches_integers {toks rest : List String} {field : String} {lo hi : Bound}
    (hparse : parsePredicate toks = .ok (.range field lo hi, rest)) (calls : List PayloadCall) :
    (∃ ids, (Filter.range field lo hi).evaluate (PayloadCall.index calls) = .ok ids ∧
      ∀ id, id ∈ ids ↔
        ∃ n : Int, (field, Value.int n) ∈ PayloadCall.current calls id ∧ lo.belowInt n ∧ hi.aboveInt n) ↔
    (∀ a b, lo = .included a → hi = .included b → (∃ id v, (field, v) ∈ PayloadCall.current calls id) → a ≤ b) ∧
      ∀ id s, (field, Value.keyword s) ∈ PayloadCall.current calls id → lo.below (.keyword s) = true →
        hi.above (.keyword s) = true →
        ∃ n : Int, (field, Value.int n) ∈ PayloadCall.current calls id ∧ lo.belowInt n ∧ hi.aboveInt n := by
  obtain ⟨_, -, hpred⟩ := parsePredicate_eq_ok hparse
  have hpanics : Bound.panics lo hi = true ↔ _ := panics_iff (hpred.shaped (field, lo, hi) (by simp [Filter.ranges]))
  have hdecided := Filter.decided_range (PayloadCall.holds_index calls) field lo hi
  have hmatch : ∀ id, (Filter.range field lo hi).Selected (PayloadCall.current calls) id ↔
      ∃ v, (field, v) ∈ PayloadCall.current calls id ∧ lo.below v = true ∧ hi.above v = true := by
    intro id
    simp only [Filter.Selected, Filter.holds, List.any_eq_true, Bool.and_eq_true, decide_eq_true_iff]
    constructor
    · rintro ⟨-, ⟨g, v⟩, hmem, rfl, hv⟩
      exact ⟨v, hmem, hv⟩
    · rintro ⟨v, hmem, hv⟩
      exact ⟨List.ne_nil_of_mem hmem, (field, v), hmem, rfl, hv⟩
  simp only [← Bound.below_int, ← Bound.above_int]
  constructor
  · rintro ⟨ids, hids, hmem⟩
    have hsafe : (Filter.range field lo hi).Safe (PayloadCall.current calls) := by
      by_contra hunsafe
      obtain ⟨e, he⟩ := hdecided.error hunsafe
      rw [hids] at he
      cases he
    obtain ⟨ids', hids', -, hmem'⟩ := hdecided.ok hsafe
    obtain rfl := Except.ok.inj (hids.symm.trans hids')
    refine ⟨fun a b hlo hhi hfield => not_lt.mp fun hlt => ?_, fun id s hkey hbelow habove => ?_⟩
    · exact Bool.false_ne_true ((hsafe hfield).symm.trans (hpanics.mpr ⟨a, b, hlo, hhi, hlt⟩))
    · exact (hmem id).mp ((hmem' id).mpr ((hmatch id).mpr ⟨_, hkey, hbelow, habove⟩))
  · rintro ⟨hbetween, hkeywords⟩
    obtain ⟨ids, hids, -, hmem⟩ := hdecided.ok fun hfield => by
      rw [← Bool.not_eq_true, hpanics]
      rintro ⟨a, b, hlo, hhi, hlt⟩
      exact (hbetween a b hlo hhi hfield).not_gt hlt
    refine ⟨ids, hids, fun id => (hmem id).trans ((hmatch id).trans ⟨?_, ?_⟩)⟩
    · rintro ⟨v, hv, hlo, hhi⟩
      cases v with
      | keyword s => exact hkeywords id s hv hlo hhi
      | int n => exact ⟨n, hv, hlo, hhi⟩
    · rintro ⟨n, hn, hlo, hhi⟩
      exact ⟨_, hn, hlo, hhi⟩

/-- One id with a keyword and one with an integer, and a predicate that is open below. -/
theorem range_matches_keyword :
    (parsePredicate (tokenize "a < 5")).toOption.map
        (fun r => r.1.evaluate (PayloadCall.index [.upsert 1 [("a", .keyword "x")], .upsert 2 [("a", .int 7)]])) =
      some (.ok [1]) ∧
    ∀ id n, ("a", Value.int n) ∈
      PayloadCall.current [.upsert 1 [("a", .keyword "x")], .upsert 2 [("a", .int 7)]] id → id = 2 := by
  refine ⟨by decide +kernel, fun id n hmem => ?_⟩
  by_contra hne
  simp only [PayloadCall.current, List.foldl, PayloadCall.setFields, Function.update_of_ne hne] at hmem
  by_cases h1 : id = 1
  · simp [h1] at hmem
  · simp [h1] at hmem

theorem takeValue_cons {tok : String} (h : isReserved tok = false) (what : String) (toks : List String) :
    takeValue what (tok :: toks) = .ok (Value.parse tok, toks) := by
  rw [takeValue, h, if_neg Bool.false_ne_true]

theorem parsePredicate_between {field a b : String} (hfield : isReserved field = false) (ha : isReserved a = false)
    (hb : isReserved b = false) (rest : List String) :
    parsePredicate (field :: "BETWEEN" :: a :: "AND" :: b :: rest) =
      .ok (.range field (.included (Value.parse a)) (.included (Value.parse b)), rest) := by
  have hexists : isKeyword "BETWEEN" "EXISTS" = false := by decide +kernel
  have hin : isKeyword "BETWEEN" "IN" = false := by decide +kernel
  have hbetween : isKeyword "BETWEEN" "BETWEEN" = true := by decide +kernel
  have hand : isKeyword "AND" "AND" = true := by decide +kernel
  simp [parsePredicate, hfield, hexists, hin, hbetween, parseBetween, takeValue_cons ha, takeValue_cons hb, hand,
    Except.map]

/-- One id has a keyword, one an integer between 1 and 5, and one a larger integer. -/
def mixedIds : List PayloadCall :=
  [.upsert 1 [("a", .keyword "x")], .upsert 2 [("a", .int 3)], .upsert 3 [("a", .int 7)]]

theorem range_matches_integers_between :
    parsePredicate ["a", "BETWEEN", "1", "AND", "5"] = .ok (.range "a" (.included (.int 1)) (.included (.int 5)), []) ∧
    ∃ ids, (Filter.range "a" (.included (.int 1)) (.included (.int 5))).evaluate (PayloadCall.index mixedIds) =
        .ok ids ∧
      ∀ id, id ∈ ids ↔ ∃ n : Int, ("a", Value.int n) ∈ PayloadCall.current mixedIds id ∧ 1 ≤ n ∧ n ≤ 5 := by
  have hone : Value.parse "1" = .int 1 := by decide +kernel
  have hfive : Value.parse "5" = .int 5 := by decide +kernel
  have ha : isReserved "a" = false := by decide +kernel
  have h1 : isReserved "1" = false := by decide +kernel
  have h5 : isReserved "5" = false := by decide +kernel
  have hparse := parsePredicate_between ha h1 h5 []
  rw [hone, hfive] at hparse
  refine ⟨hparse, (range_matches_integers hparse mixedIds).mpr ⟨?_, ?_⟩⟩
  · rintro _ _ ⟨⟩ ⟨⟩ -
    decide
  · intro id s _ hlo
    simp [Bound.below, not_le.mpr (Value.keyword_lt_int s 1)] at hlo

/-- The bounds of the `BETWEEN` are the wrong way round. -/
theorem parsed_between_panics :
    (parseFilter "a BETWEEN 5 AND 1").toOption.map
        (fun f => f.evaluate (PayloadCall.index [.upsert 1 [("a", .int 1)]])) =
      some (.error (.panic "range start is greater than range end in BTreeMap")) := by
  decide +kernel

/-- The `BETWEEN` has its bounds the wrong way round, but no id is left when its turn comes. -/
theorem parsed_filter_evaluates_nested :
    ∃ ids, parseFilter "b = y AND NOT a BETWEEN 5 AND 1" = .ok (.and [.eq "b" (.keyword "y"),
        .not (.range "a" (.included (.int 5)) (.included (.int 1)))]) ∧
      (Filter.and [.eq "b" (.keyword "y"), .not (.range "a" (.included (.int 5)) (.included (.int 1)))]).evaluate
        (PayloadCall.index mixedIds) = .ok ids := by
  have hparse : parseFilter "b = y AND NOT a BETWEEN 5 AND 1" = .ok (.and [.eq "b" (.keyword "y"),
      .not (.range "a" (.included (.int 5)) (.included (.int 1)))]) := by rfl
  have hnone : ∀ id, (Filter.eq "b" (.keyword "y")).holds (PayloadCall.current mixedIds id) = false := by
    intro id
    simp only [PayloadCall.current, mixedIds, List.foldl, PayloadCall.setFields, Filter.holds, Function.update_apply]
    split_ifs <;> decide
  obtain ⟨ids, hids⟩ := (parsed_filter_evaluates hparse mixedIds).1.mpr
    ⟨⟨trivial, trivial⟩, fun hleft => by simpa [hnone] using hleft.choose_spec.2 _ List.mem_cons_self rfl, trivial⟩
  exact ⟨ids, hparse, hids⟩

end Skeg.Server
