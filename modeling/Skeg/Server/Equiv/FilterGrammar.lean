import Skeg.Server.FilterParser

/-!
# The grammar of FILTER clauses

`Derives` is the grammar as a relation between tokens and filters: `OR` of `AND` of atoms that any number of `NOT`
may stand in front of.  What the parser takes off the tokens is derived by it (`soundAt`), so a string that is
accepted is one of the language (`derives_parseFilter`).
-/

namespace Skeg.Server

theorem except_bind_eq_ok {ε α β : Type} {x : Except ε α} {f : α → Except ε β} {b : β} (h : x.bind f = .ok b) :
    ∃ a, x = .ok a ∧ f a = .ok b := by
  cases x with
  | error e => cases h
  | ok a => exact ⟨a, rfl, h⟩

theorem except_map_eq_ok {ε α β : Type} {x : Except ε α} {f : α → β} {b : β} (h : x.map f = .ok b) :
    ∃ a, x = .ok a ∧ f a = b := by
  cases x with
  | error e => cases h
  | ok a => exact ⟨a, rfl, Except.ok.inj h⟩

/-! ### Predicates -/

/-- The comparisons with one value. -/
def comparisons (field : String) : List (String × (Value → Filter)) :=
  [("=", .eq field), (">=", fun v => .range field (.included v) .unbounded),
    (">", fun v => .range field (.excluded v) .unbounded), ("<=", fun v => .range field .unbounded (.included v)),
    ("<", fun v => .range field .unbounded (.excluded v))]

/-- The tokens of a predicate. -/
inductive Predicate : List String → Filter → Prop
  | compare {field op v : String} {make : Value → Filter} (hfield : isReserved field = false)
      (hop : (op, make) ∈ comparisons field) (hv : isReserved v = false) :
      Predicate [field, op, v] (make (Value.parse v))
  | exists {field op : String} (hfield : isReserved field = false) (hop : isKeyword op "EXISTS" = true) :
      Predicate [field, op] (.exists_ field)
  | in {field op : String} {vs : List String} (hfield : isReserved field = false) (hop : isKeyword op "IN" = true)
      (hne : vs ≠ []) (hvs : ∀ v ∈ vs, isReserved v = false) :
      Predicate (field :: op :: "(" :: (vs.intersperse "," ++ [")"])) (.in_ field (vs.map Value.parse))
  | between {field op lo and hi : String} (hfield : isReserved field = false)
      (hop : isKeyword op "BETWEEN" = true) (hlo : isReserved lo = false) (hand : isKeyword and "AND" = true)
      (hhi : isReserved hi = false) :
      Predicate [field, op, lo, and, hi] (.range field (.included (Value.parse lo)) (.included (Value.parse hi)))

theorem takeValue_eq_ok {what : String} {toks : List String} {r : Value × List String}
    (h : takeValue what toks = .ok r) : ∃ v, isReserved v = false ∧ toks = v :: r.2 ∧ r.1 = Value.parse v := by
  cases toks with
  | nil => cases h
  | cons tok toks =>
    rw [takeValue] at h
    split_ifs at h with hres
    obtain rfl := Except.ok.inj h
    exact ⟨tok, Bool.eq_false_iff.mpr hres, rfl, rfl⟩

theorem parseInValues_eq_ok {vals : List Value} {fuel : Nat} {toks : List String} {r : List Value × List String}
    (h : parseInValues vals fuel toks = .ok r) :
    ∃ vs : List String, vs ≠ [] ∧ (∀ v ∈ vs, isReserved v = false) ∧ r.1 = vals ++ vs.map Value.parse ∧
      toks = vs.intersperse "," ++ ")" :: r.2 := by
  induction fuel generalizing vals toks with
  | zero => cases h
  | succ fuel ih =>
    rw [parseInValues] at h
    split at h
    · cases h
    · rename_i v rest htake
      obtain ⟨w, hw, htoks, hv⟩ := takeValue_eq_ok htake
      obtain ⟨vs, hne, hvs, hr, hrest⟩ := ih h
      obtain ⟨x, xs, rfl⟩ := List.exists_cons_of_ne_nil hne
      refine ⟨w :: x :: xs, by simp, List.forall_mem_cons.mpr ⟨hw, hvs⟩, ?_, ?_⟩
      · rw [hr, show v = Value.parse w from hv, List.append_assoc]
        rfl
      · rw [htoks, show rest = _ from hrest]
        simp
    · rename_i v rest htake
      obtain ⟨w, hw, htoks, hv⟩ := takeValue_eq_ok htake
      obtain rfl := Except.ok.inj h
      exact ⟨[w], by simp, by simpa using hw, by rw [show v = Value.parse w from hv]; rfl, htoks⟩
    · cases h

theorem parseComparison_eq_ok {field op : String} {make : Value → Filter} {toks : List String}
    {r : Filter × List String} (hfield : isReserved field = false) (hop : (op, make) ∈ comparisons field)
    (h : parseComparison make toks = .ok r) :
    ∃ seg, field :: op :: toks = seg ++ r.2 ∧ Predicate seg r.1 := by
  obtain ⟨a, htake, rfl⟩ := except_map_eq_ok h
  obtain ⟨v, hv, rfl, hval⟩ := takeValue_eq_ok htake
  exact ⟨[field, op, v], rfl, by rw [hval]; exact .compare hfield hop hv⟩

theorem parseBetween_eq_ok {field op : String} {toks : List String} {r : Filter × List String}
    (hfield : isReserved field = false) (hop : isKeyword op "BETWEEN" = true)
    (h : parseBetween field toks = .ok r) : ∃ seg, field :: op :: toks = seg ++ r.2 ∧ Predicate seg r.1 := by
  unfold parseBetween at h
  split at h
  · cases h
  · cases h
  · rename_i lo tok rest htake
    obtain ⟨v, hv, rfl, hlo⟩ := takeValue_eq_ok htake
    split_ifs at h with hand
    obtain ⟨a, htake', rfl⟩ := except_map_eq_ok h
    obtain ⟨w, hw, rfl, hhi⟩ := takeValue_eq_ok htake'
    refine ⟨[field, op, v, tok, w], rfl, ?_⟩
    rw [show lo = Value.parse v from hlo, hhi]
    exact .between hfield hop hv hand hw

theorem parseIn_eq_ok {field op : String} {toks : List String} {r : Filter × List String}
    (hfield : isReserved field = false) (hop : isKeyword op "IN" = true) (h : parseIn field toks = .ok r) :
    ∃ seg, field :: op :: toks = seg ++ r.2 ∧ Predicate seg r.1 := by
  unfold parseIn at h
  split at h
  · obtain ⟨a, hvals, rfl⟩ := except_map_eq_ok h
    obtain ⟨vs, hne, hvs, hr, rfl⟩ := parseInValues_eq_ok hvals
    refine ⟨field :: op :: "(" :: (vs.intersperse "," ++ [")"]), by simp, ?_⟩
    rw [show a.1 = vs.map Value.parse from hr]
    exact .in hfield hop hne hvs
  · cases h

theorem parsePredicate_eq_ok {toks : List String} {r : Filter × List String} (h : parsePredicate toks = .ok r) :
    ∃ seg, toks = seg ++ r.2 ∧ Predicate seg r.1 := by
  unfold parsePredicate at h
  split at h
  · cases h
  · rename_i field toks
    split_ifs at h with hres
    have hfield : isReserved field = false := Bool.eq_false_iff.mpr hres
    split at h
    · cases h
    · split at h
      · exact parseComparison_eq_ok hfield (by simp [comparisons]) h
      · exact parseComparison_eq_ok hfield (by simp [comparisons]) h
      · exact parseComparison_eq_ok hfield (by simp [comparisons]) h
      · exact parseComparison_eq_ok hfield (by simp [comparisons]) h
      · exact parseComparison_eq_ok hfield (by simp [comparisons]) h
      · split_ifs at h with hexists hin hbetween
        · obtain rfl := Except.ok.inj h
          exact ⟨[field, _], rfl, .exists hfield hexists⟩
        · exact parseIn_eq_ok hfield hin h
        · exact parseBetween_eq_ok hfield hbetween h

/-! ### Filters -/

/-- What the tokens are read as: an operand of `AND`, the operands of an `AND`, or those of an `OR`. -/
inductive Level where
  | operand
  | conjunction
  | disjunction

inductive Derives : Level → List String → List Filter → Prop
  | predicate {toks : List String} {f : Filter} (h : Predicate toks f) : Derives .operand toks [f]
  | not {tok : String} {toks : List String} {f : Filter} (htok : isKeyword tok "NOT" = true)
      (h : Derives .operand toks [f]) : Derives .operand (tok :: toks) [.not f]
  | paren {toks : List String} {fs : List Filter} (h : Derives .disjunction toks fs) :
      Derives .operand ("(" :: (toks ++ [")"])) [joinParts .or fs]
  | one {toks : List String} {f : Filter} (h : Derives .operand toks [f]) : Derives .conjunction toks [f]
  | and {toks toks' : List String} {tok : String} {fs : List Filter} {f : Filter} (h : Derives .conjunction toks fs)
      (htok : isKeyword tok "AND" = true) (h' : Derives .operand toks' [f]) :
      Derives .conjunction (toks ++ tok :: toks') (fs ++ [f])
  | conjunction {toks : List String} {fs : List Filter} (h : Derives .conjunction toks fs) :
      Derives .disjunction toks [joinParts .and fs]
  | or {toks toks' : List String} {tok : String} {fs gs : List Filter} (h : Derives .disjunction toks fs)
      (htok : isKeyword tok "OR" = true) (h' : Derives .conjunction toks' gs) :
      Derives .disjunction (toks ++ tok :: toks') (fs ++ [joinParts .and gs])

/-- What the parsers have taken off the tokens, at one level of fuel. -/
structure SoundAt (fuel : Nat) : Prop where
  or : ∀ toks r, parseOr fuel toks = .ok r →
    ∃ seg fs, toks = seg ++ r.2 ∧ r.1 = joinParts .or fs ∧ Derives .disjunction seg fs
  orTail : ∀ seg parts toks r, Derives .disjunction seg parts → orTail fuel parts toks = .ok r →
    ∃ seg' fs, seg ++ toks = seg' ++ r.2 ∧ r.1 = joinParts .or fs ∧ Derives .disjunction seg' fs
  and : ∀ toks r, parseAnd fuel toks = .ok r →
    ∃ seg fs, toks = seg ++ r.2 ∧ r.1 = joinParts .and fs ∧ Derives .conjunction seg fs
  andTail : ∀ seg parts toks r, Derives .conjunction seg parts → andTail fuel parts toks = .ok r →
    ∃ seg' fs, seg ++ toks = seg' ++ r.2 ∧ r.1 = joinParts .and fs ∧ Derives .conjunction seg' fs
  not : ∀ toks r, parseNot fuel toks = .ok r → ∃ seg, toks = seg ++ r.2 ∧ Derives .operand seg [r.1]

theorem soundAt (fuel : Nat) : SoundAt fuel := by
  induction fuel with
  | zero =>
    refine ⟨nofun, fun seg parts toks r hseg h => ?_, nofun, fun seg parts toks r hseg h => ?_, nofun⟩
    · obtain rfl := Except.ok.inj h
      exact ⟨seg, parts, rfl, rfl, hseg⟩
    · obtain rfl := Except.ok.inj h
      exact ⟨seg, parts, rfl, rfl, hseg⟩
  | succ fuel ih =>
    refine ⟨fun toks r h => ?_, fun seg parts toks r hseg h => ?_, fun toks r h => ?_,
      fun seg parts toks r hseg h => ?_, fun toks r h => ?_⟩
    · obtain ⟨a, hfirst, hrest⟩ := except_bind_eq_ok h
      obtain ⟨seg, fs, rfl, hfs, hseg⟩ := ih.and _ _ hfirst
      rw [hfs] at hrest
      exact ih.orTail seg _ _ _ (.conjunction hseg) hrest
    · cases toks with
      | nil =>
        obtain rfl := Except.ok.inj h
        exact ⟨seg, parts, rfl, rfl, hseg⟩
      | cons tok toks =>
        rw [orTail] at h
        split_ifs at h with htok
        · obtain ⟨a, hnext, hrest⟩ := except_bind_eq_ok h
          obtain ⟨seg', gs, rfl, hgs, hseg'⟩ := ih.and _ _ hnext
          rw [hgs] at hrest
          obtain ⟨seg'', fs, heq, hres⟩ := ih.orTail _ _ _ _ (hseg.or htok hseg') hrest
          exact ⟨seg'', fs, by rw [← heq]; simp, hres⟩
        · obtain rfl := Except.ok.inj h
          exact ⟨seg, parts, rfl, rfl, hseg⟩
    · obtain ⟨a, hfirst, hrest⟩ := except_bind_eq_ok h
      obtain ⟨seg, rfl, hseg⟩ := ih.not _ _ hfirst
      exact ih.andTail seg _ _ _ (.one hseg) hrest
    · cases toks with
      | nil =>
        obtain rfl := Except.ok.inj h
        exact ⟨seg, parts, rfl, rfl, hseg⟩
      | cons tok toks =>
        rw [andTail] at h
        split_ifs at h with htok
        · obtain ⟨a, hnext, hrest⟩ := except_bind_eq_ok h
          obtain ⟨seg', rfl, hseg'⟩ := ih.not _ _ hnext
          obtain ⟨seg'', fs, heq, hres⟩ := ih.andTail _ _ _ _ (hseg.and htok hseg') hrest
          exact ⟨seg'', fs, by rw [← heq]; simp, hres⟩
        · obtain rfl := Except.ok.inj h
          exact ⟨seg, parts, rfl, rfl, hseg⟩
    · cases toks with
      | nil =>
        obtain ⟨seg, heq, hpred⟩ := parsePredicate_eq_ok h
        exact ⟨seg, heq, .predicate hpred⟩
      | cons tok toks =>
        rw [parseNot] at h
        split_ifs at h with htok hparen
        · obtain ⟨a, hinner, rfl⟩ := except_map_eq_ok h
          obtain ⟨seg, rfl, hseg⟩ := ih.not _ _ hinner
          exact ⟨tok :: seg, rfl, .not htok hseg⟩
        · split at h
          · cases h
          · rename_i f rest hinner
            obtain rfl := Except.ok.inj h
            obtain ⟨seg, fs, rfl, hf, hseg⟩ := ih.or _ _ hinner
            refine ⟨"(" :: (seg ++ [")"]), by simp [hparen], ?_⟩
            rw [show f = joinParts .or fs from hf]
            exact .paren hseg
          · cases h
        · obtain ⟨seg, heq, hpred⟩ := parsePredicate_eq_ok h
          exact ⟨seg, heq, .predicate hpred⟩

/-- A string that is accepted is one of the language. -/
theorem derives_parseFilter {s : String} {f : Filter} (h : parseFilter s = .ok f) :
    ∃ fs, f = joinParts .or fs ∧ Derives .disjunction (tokenize s) fs := by
  unfold parseFilter at h
  dsimp only at h
  split_ifs at h
  split at h
  · cases h
  · rename_i g hparse
    obtain rfl := Except.ok.inj h
    obtain ⟨seg, fs, heq, hg, hseg⟩ := (soundAt _).or _ _ hparse
    rw [List.append_nil] at heq
    exact ⟨fs, hg, heq ▸ hseg⟩
  · cases h

end Skeg.Server
