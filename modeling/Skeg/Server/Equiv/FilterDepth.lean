import Skeg.Server.Equiv.FilterGrammar

/-!
# How deep the filter parser recurses

Nothing bounds the nesting of a filter: a row of `NOT` of any length is accepted, and each of them is one more level of
the filter and one more call on the stack (`nesting_unbounded`).

`Spot` says where in a string a parser without a stack is: it counts the brackets that are open and the `NOT`s in front
of an operand, and stops at the first token that cannot follow.  At most `n` of these at once and at most `m` brackets
cost at most `n + 4` calls for each of `m + 1` levels (`DepthAt`), and neither count is ever larger than the recursion
is deep (`SeenAt`).  So the strings of a set have a common bound exactly if their counts have (`depth_bounded`).
-/

namespace Skeg.Server

/-! ### Depths -/

mutual

/-- The nesting depth of a filter. -/
def Filter.depth : Filter → Nat
  | .and parts => Filter.depthAll parts + 1
  | .or parts => Filter.depthAll parts + 1
  | .not inner => inner.depth + 1
  | _ => 0

def Filter.depthAll : List Filter → Nat
  | [] => 0
  | f :: fs => max f.depth (Filter.depthAll fs)

end

mutual

/-- The most calls of `parse_or`, `parse_and`, `parse_not` and `parse_atom` on the stack at once. -/
def parseOrDepth : Nat → List String → Nat
  | 0, _ => 0
  | fuel + 1, toks =>
    max (parseAndDepth fuel toks)
      (match parseAnd fuel toks with
        | .ok r => orTailDepth fuel r.2
        | .error _ => 0) + 1

def orTailDepth : Nat → List String → Nat
  | fuel + 1, tok :: toks =>
    if isKeyword tok "OR" then
      max (parseAndDepth fuel toks)
        (match parseAnd fuel toks with
          | .ok r => orTailDepth fuel r.2
          | .error _ => 0)
    else 0
  | _, _ => 0

def parseAndDepth : Nat → List String → Nat
  | 0, _ => 0
  | fuel + 1, toks =>
    max (parseNotDepth fuel toks)
      (match parseNot fuel toks with
        | .ok r => andTailDepth fuel r.2
        | .error _ => 0) + 1

def andTailDepth : Nat → List String → Nat
  | fuel + 1, tok :: toks =>
    if isKeyword tok "AND" then
      max (parseNotDepth fuel toks)
        (match parseNot fuel toks with
          | .ok r => andTailDepth fuel r.2
          | .error _ => 0)
    else 0
  | _, _ => 0

def parseNotDepth : Nat → List String → Nat
  | 0, _ => 0
  | _ + 1, [] => 2
  | fuel + 1, tok :: toks =>
    if isKeyword tok "NOT" then parseNotDepth fuel toks + 1
    else if tok = "(" then parseOrDepth fuel toks + 2
    else 2

end

/-! ### Spots -/

/-- In front of an operand, with the open brackets and the `NOT`s it has so far, or behind one. -/
inductive Spot where
  | operand (opened nots : Nat) (toks : List String)
  | behind (opened : Nat) (toks : List String)

inductive Spot.Next : Spot → Spot → Prop
  | not {o k : Nat} {tok : String} {toks : List String} (h : isKeyword tok "NOT" = true) :
      Next (.operand o k (tok :: toks)) (.operand o (k + 1) toks)
  | paren {o k : Nat} {toks : List String} : Next (.operand o k ("(" :: toks)) (.operand (o + 1) 0 toks)
  | predicate {o k : Nat} {toks : List String} {r : Filter × List String} (h : parsePredicate toks = .ok r) :
      Next (.operand o k toks) (.behind o r.2)
  | operator {o : Nat} {tok : String} {toks : List String} (h : isKeyword tok "AND" = true ∨ isKeyword tok "OR" = true) :
      Next (.behind o (tok :: toks)) (.operand o 0 toks)
  | close {o : Nat} {toks : List String} : Next (.behind (o + 1) (")" :: toks)) (.behind o toks)

/-- The spots of a string. -/
abbrev Spot.Leads : Spot → Spot → Prop := Relation.ReflTransGen Spot.Next

open Spot (Leads Next)

/-- The spots a parser goes through, at one level of fuel. -/
structure PathAt (fuel : Nat) : Prop where
  or : ∀ toks r o, parseOr fuel toks = .ok r → Leads (.operand o 0 toks) (.behind o r.2)
  orTail : ∀ parts toks r o, orTail fuel parts toks = .ok r → Leads (.behind o toks) (.behind o r.2)
  and : ∀ toks r o, parseAnd fuel toks = .ok r → Leads (.operand o 0 toks) (.behind o r.2)
  andTail : ∀ parts toks r o, andTail fuel parts toks = .ok r → Leads (.behind o toks) (.behind o r.2)
  not : ∀ toks r o k, parseNot fuel toks = .ok r → Leads (.operand o k toks) (.behind o r.2)

theorem pathAt (fuel : Nat) : PathAt fuel := by
  induction fuel with
  | zero =>
    refine ⟨nofun, fun parts toks r o h => ?_, nofun, fun parts toks r o h => ?_, nofun⟩
    · obtain rfl := Except.ok.inj h
      exact .refl
    · obtain rfl := Except.ok.inj h
      exact .refl
  | succ fuel ih =>
    refine ⟨fun toks r o h => ?_, fun parts toks r o h => ?_, fun toks r o h => ?_, fun parts toks r o h => ?_,
      fun toks r o k h => ?_⟩
    · obtain ⟨a, hfirst, hrest⟩ := except_bind_eq_ok h
      exact (ih.and _ _ o hfirst).trans (ih.orTail _ _ _ o hrest)
    · cases toks with
      | nil =>
        obtain rfl := Except.ok.inj h
        exact .refl
      | cons tok toks =>
        rw [orTail] at h
        split_ifs at h with htok
        · obtain ⟨a, hnext, hrest⟩ := except_bind_eq_ok h
          exact .head (.operator (.inr htok)) ((ih.and _ _ o hnext).trans (ih.orTail _ _ _ o hrest))
        · obtain rfl := Except.ok.inj h
          exact .refl
    · obtain ⟨a, hfirst, hrest⟩ := except_bind_eq_ok h
      exact (ih.not _ _ o 0 hfirst).trans (ih.andTail _ _ _ o hrest)
    · cases toks with
      | nil =>
        obtain rfl := Except.ok.inj h
        exact .refl
      | cons tok toks =>
        rw [andTail] at h
        split_ifs at h with htok
        · obtain ⟨a, hnext, hrest⟩ := except_bind_eq_ok h
          exact .head (.operator (.inl htok)) ((ih.not _ _ o 0 hnext).trans (ih.andTail _ _ _ o hrest))
        · obtain rfl := Except.ok.inj h
          exact .refl
    · cases toks with
      | nil => exact .single (.predicate h)
      | cons tok toks =>
        rw [parseNot] at h
        split_ifs at h with htok hparen
        · obtain ⟨a, hinner, rfl⟩ := except_map_eq_ok h
          exact .head (.not htok) (ih.not _ a o (k + 1) hinner)
        · split at h
          · cases h
          · rename_i f rest hinner
            obtain rfl := Except.ok.inj h
            rw [hparen]
            exact .head .paren ((ih.or _ _ (o + 1) hinner).tail .close)
          · cases h
        · exact .single (.predicate h)

/-! ### Counts bound the recursion -/

/-- No spot from here on has more `NOT`s or more open brackets. -/
def Spot.Within (n m : Nat) (p : Spot) : Prop := ∀ o k toks, Leads p (.operand o k toks) → k ≤ n ∧ o ≤ m

theorem Spot.Within.of_reaches {n m : Nat} {p q : Spot} (h : p.Within n m) (hpq : Leads p q) : q.Within n m :=
  fun o k toks hq => h o k toks (hpq.trans hq)

structure DepthAt (n m fuel : Nat) : Prop where
  or : ∀ toks o, (Spot.operand o 0 toks).Within n m → parseOrDepth fuel toks ≤ n + 4 + (n + 4) * (m - o)
  orTail : ∀ toks o, (Spot.behind o toks).Within n m → orTailDepth fuel toks ≤ n + 3 + (n + 4) * (m - o)
  and : ∀ toks o, (Spot.operand o 0 toks).Within n m → parseAndDepth fuel toks ≤ n + 3 + (n + 4) * (m - o)
  andTail : ∀ toks o, (Spot.behind o toks).Within n m → andTailDepth fuel toks ≤ n + 2 + (n + 4) * (m - o)
  not : ∀ toks o k, (Spot.operand o k toks).Within n m → parseNotDepth fuel toks + k ≤ n + 2 + (n + 4) * (m - o)

theorem depthAt (n m fuel : Nat) : DepthAt n m fuel := by
  induction fuel with
  | zero =>
    refine ⟨fun _ _ _ => Nat.zero_le _, fun _ _ _ => ?_, fun _ _ _ => Nat.zero_le _, fun _ _ _ => ?_,
      fun toks o k h => ?_⟩
    · simp [orTailDepth]
    · simp [andTailDepth]
    · have := (h o k toks .refl).1
      rw [parseNotDepth]
      omega
  | succ fuel ih =>
    -- the operands behind the first one, for both loops
    have hors : ∀ toks o, (Spot.operand o 0 toks).Within n m → (match parseAnd fuel toks with
        | .ok r => orTailDepth fuel r.2
        | .error _ => 0) ≤ n + 3 + (n + 4) * (m - o) := by
      intro toks o h
      split
      · rename_i r hparse
        exact ih.orTail _ _ (h.of_reaches ((pathAt fuel).and _ _ o hparse))
      · exact Nat.zero_le _
    have hands : ∀ toks o, (Spot.operand o 0 toks).Within n m → (match parseNot fuel toks with
        | .ok r => andTailDepth fuel r.2
        | .error _ => 0) ≤ n + 2 + (n + 4) * (m - o) := by
      intro toks o h
      split
      · rename_i r hparse
        exact ih.andTail _ _ (h.of_reaches ((pathAt fuel).not _ _ o 0 hparse))
      · exact Nat.zero_le _
    refine ⟨fun toks o h => ?_, fun toks o h => ?_, fun toks o h => ?_, fun toks o h => ?_, fun toks o k h => ?_⟩
    · rw [parseOrDepth]
      have := max_le (ih.and toks o h) (hors toks o h)
      omega
    · cases toks with
      | nil => simp [orTailDepth]
      | cons tok toks =>
        rw [orTailDepth]
        split_ifs with htok
        · have hnext := h.of_reaches (.single (.operator (.inr htok)))
          exact max_le (ih.and toks o hnext) (hors toks o hnext)
        · exact Nat.zero_le _
    · rw [parseAndDepth]
      have := max_le (ih.not toks o 0 h) (hands toks o h)
      omega
    · cases toks with
      | nil => simp [andTailDepth]
      | cons tok toks =>
        rw [andTailDepth]
        split_ifs with htok
        · have hnext := h.of_reaches (.single (.operator (.inl htok)))
          exact max_le (ih.not toks o 0 hnext) (hands toks o hnext)
        · exact Nat.zero_le _
    · have hk := (h o k toks .refl).1
      cases toks with
      | nil =>
        rw [parseNotDepth]
        omega
      | cons tok toks =>
        rw [parseNotDepth]
        split_ifs with htok hparen
        · have := ih.not toks o (k + 1) (h.of_reaches (.single (.not htok)))
          omega
        · subst hparen
          have hinner := h.of_reaches (.single .paren)
          have hopen := (hinner (o + 1) 0 toks .refl).2
          have := ih.or toks (o + 1) hinner
          have hmul : (n + 4) * (m - (o + 1)) + (n + 4) = (n + 4) * (m - o) := by
            rw [← Nat.mul_succ]
            congr 1
            omega
          omega
        · omega

/-! ### The recursion bounds the counts -/

/-- The fuel is enough: behind a filter no operator is left over, and more fuel makes no difference. -/
structure EnoughAt (fuel : Nat) : Prop where
  or : ∀ toks, 3 * toks.length + 3 ≤ fuel → parseOr (fuel + 1) toks = parseOr fuel toks ∧
    ∀ f tok rest, parseOr fuel toks = .ok (f, tok :: rest) → isKeyword tok "AND" = false ∧ isKeyword tok "OR" = false
  orTail : ∀ parts toks, 3 * toks.length ≤ fuel → orTail (fuel + 1) parts toks = orTail fuel parts toks ∧
    ((∀ tok rest, toks = tok :: rest → isKeyword tok "AND" = false) → ∀ f tok rest,
      orTail fuel parts toks = .ok (f, tok :: rest) → isKeyword tok "AND" = false ∧ isKeyword tok "OR" = false)
  and : ∀ toks, 3 * toks.length + 2 ≤ fuel → parseAnd (fuel + 1) toks = parseAnd fuel toks ∧
    ∀ f tok rest, parseAnd fuel toks = .ok (f, tok :: rest) → isKeyword tok "AND" = false
  andTail : ∀ parts toks, 3 * toks.length ≤ fuel → andTail (fuel + 1) parts toks = andTail fuel parts toks ∧
    ∀ f tok rest, andTail fuel parts toks = .ok (f, tok :: rest) → isKeyword tok "AND" = false
  not : ∀ toks, 3 * toks.length + 1 ≤ fuel → parseNot (fuel + 1) toks = parseNot fuel toks

theorem length_parseAnd {fuel : Nat} {toks : List String} {r : Filter × List String} (h : parseAnd fuel toks = .ok r) :
    r.2.length ≤ toks.length := by
  obtain ⟨seg, fs, rfl, -⟩ := (soundAt fuel).and _ _ h
  simp

theorem length_parseNot {fuel : Nat} {toks : List String} {r : Filter × List String} (h : parseNot fuel toks = .ok r) :
    r.2.length ≤ toks.length := by
  obtain ⟨seg, rfl, -⟩ := (soundAt fuel).not _ _ h
  simp

theorem enoughAt (fuel : Nat) : EnoughAt fuel := by
  induction fuel with
  | zero =>
    refine ⟨fun _ h => by omega, fun parts toks h => ?_, fun _ h => by omega, fun parts toks h => ?_,
      fun _ h => by omega⟩
    · obtain rfl := List.length_eq_zero_iff.mp (show toks.length = 0 by omega)
      exact ⟨rfl, fun _ f tok rest h => by cases h⟩
    · obtain rfl := List.length_eq_zero_iff.mp (show toks.length = 0 by omega)
      exact ⟨rfl, fun f tok rest h => by cases h⟩
  | succ fuel ih =>
    refine ⟨fun toks h => ?_, fun parts toks h => ?_, fun toks h => ?_, fun parts toks h => ?_, fun toks h => ?_⟩
    · obtain ⟨hand, hstop⟩ := ih.and toks (by omega)
      rw [parseOr, parseOr, hand]
      cases hparse : parseAnd fuel toks with
      | error e => exact ⟨rfl, fun f tok rest h => by cases h⟩
      | ok r =>
        have hlen := length_parseAnd hparse
        obtain ⟨htail, hrest⟩ := ih.orTail [r.1] r.2 (by omega)
        exact ⟨htail, hrest fun tok rest hr => hstop r.1 tok rest (by rw [hparse, ← hr])⟩
    · cases toks with
      | nil => exact ⟨rfl, fun _ f tok rest h => by cases h⟩
      | cons tok toks =>
        rw [List.length_cons] at h
        rw [orTail, orTail]
        split_ifs with htok
        · obtain ⟨hand, hstop⟩ := ih.and toks (by omega)
          rw [hand]
          cases hparse : parseAnd fuel toks with
          | error e => exact ⟨rfl, fun _ f tok rest h => by cases h⟩
          | ok r =>
            have hlen := length_parseAnd hparse
            obtain ⟨htail, hrest⟩ := ih.orTail (parts ++ [r.1]) r.2 (by omega)
            exact ⟨htail, fun _ => hrest fun tok rest hr => hstop r.1 tok rest (by rw [hparse, ← hr])⟩
        · refine ⟨rfl, fun hand f tok' rest heq => ?_⟩
          cases heq
          exact ⟨hand _ _ rfl, Bool.eq_false_iff.mpr htok⟩
    · rw [parseAnd, parseAnd, ih.not toks (by omega)]
      cases hparse : parseNot fuel toks with
      | error e => exact ⟨rfl, fun f tok rest h => by cases h⟩
      | ok r =>
        have hlen := length_parseNot hparse
        exact ih.andTail [r.1] r.2 (by omega)
    · cases toks with
      | nil => exact ⟨rfl, fun f tok rest h => by cases h⟩
      | cons tok toks =>
        rw [List.length_cons] at h
        rw [andTail, andTail]
        split_ifs with htok
        · rw [ih.not toks (by omega)]
          cases hparse : parseNot fuel toks with
          | error e => exact ⟨rfl, fun f tok rest h => by cases h⟩
          | ok r =>
            have hlen := length_parseNot hparse
            exact ih.andTail (parts ++ [r.1]) r.2 (by omega)
        · refine ⟨rfl, fun f tok' rest heq => ?_⟩
          cases heq
          exact Bool.eq_false_iff.mpr htok
    · cases toks with
      | nil => rfl
      | cons tok toks =>
        rw [List.length_cons] at h
        rw [parseNot, parseNot, ih.not toks (by omega), (ih.or toks (by omega)).1]

/-- More fuel than `parseFilter` has makes no difference. -/
theorem parseOr_fuel (toks : List String) {fuel : Nat} (h : 4 * (toks.length + 1) ≤ fuel) :
    parseOr fuel toks = parseOr (4 * (toks.length + 1)) toks := by
  induction fuel, h using Nat.le_induction with
  | base => rfl
  | succ fuel h ih => rw [((enoughAt fuel).or toks (by omega)).1, ih]

/-- The counts of a spot are at most `d` over those given. -/
def Spot.Inside (d o k : Nat) : Spot → Prop
  | .operand o' k' _ => o' ≤ o + d ∧ k' ≤ k + d
  | .behind .. => True

theorem Spot.Inside.mono {d d' o o' k k' : Nat} {p : Spot} (h : p.Inside d o k) (ho : o + d ≤ o' + d')
    (hk : k + d ≤ k' + d') : p.Inside d' o' k' := by
  cases p with
  | operand => exact ⟨h.1.trans ho, h.2.trans hk⟩
  | behind => trivial

/-- A spot from the start of a parser on is inside it or comes behind it. -/
structure SeenAt (fuel : Nat) : Prop where
  or : ∀ toks o p, 3 * toks.length + 3 ≤ fuel → Leads (.operand o 0 toks) p →
    p.Inside (parseOrDepth fuel toks) o 0 ∨ ∃ r, parseOr fuel toks = .ok r ∧ Leads (.behind o r.2) p
  orTail : ∀ parts toks o p, 3 * toks.length ≤ fuel → Leads (.behind o toks) p →
    p.Inside (orTailDepth fuel toks) o 0 ∨ ∃ r, orTail fuel parts toks = .ok r ∧ Leads (.behind o r.2) p
  and : ∀ toks o p, 3 * toks.length + 2 ≤ fuel → Leads (.operand o 0 toks) p →
    p.Inside (parseAndDepth fuel toks) o 0 ∨ ∃ r, parseAnd fuel toks = .ok r ∧ Leads (.behind o r.2) p
  andTail : ∀ parts toks o p, 3 * toks.length ≤ fuel → Leads (.behind o toks) p →
    p.Inside (andTailDepth fuel toks) o 0 ∨ ∃ r, andTail fuel parts toks = .ok r ∧ Leads (.behind o r.2) p
  not : ∀ toks o k p, 3 * toks.length + 1 ≤ fuel → Leads (.operand o k toks) p →
    p.Inside (parseNotDepth fuel toks) o k ∨ ∃ r, parseNot fuel toks = .ok r ∧ Leads (.behind o r.2) p

/-- A filter is followed by its closing bracket or by nothing that is read. -/
theorem reaches_behind {fuel : Nat} {toks : List String} {r : Filter × List String} (hfuel : 3 * toks.length + 3 ≤ fuel)
    (hparse : parseOr fuel toks = .ok r) {o : Nat} {p : Spot} (h : Leads (.behind o r.2) p) :
    p = .behind o r.2 ∨ ∃ o' rest, o = o' + 1 ∧ r.2 = ")" :: rest ∧ Leads (.behind o' rest) p := by
  obtain ⟨f, toks'⟩ := r
  rcases Relation.ReflTransGen.cases_head h with rfl | ⟨q, hq, hp⟩
  · exact .inl rfl
  · cases hq with
    | operator hop =>
      obtain ⟨hand, hor⟩ := ((enoughAt fuel).or toks hfuel).2 f _ _ hparse
      simp [hand, hor] at hop
    | close => exact .inr ⟨_, _, rfl, rfl, hp⟩

theorem parseNot_predicate {fuel : Nat} {toks : List String} {r : Filter × List String} (h : parsePredicate toks = .ok r) :
    parseNot (fuel + 1) toks = .ok r := by
  cases toks with
  | nil => exact h
  | cons tok toks =>
    have hres : isReserved tok = false := by
      by_contra hres
      unfold parsePredicate at h
      dsimp only at h
      rw [if_pos (Bool.eq_true_of_not_eq_false hres)] at h
      cases h
    simp only [isReserved, List.any_cons, Bool.or_eq_false_iff] at hres
    have hparen : tok ≠ "(" := by
      rintro rfl
      simp at hres
    rw [parseNot, hres.2.2.2.1, if_neg Bool.false_ne_true, if_neg hparen, h]

theorem seenAt (fuel : Nat) : SeenAt fuel := by
  induction fuel with
  | zero =>
    -- each parser needs three calls for a token, so only the loops can be without fuel
    refine ⟨fun _ _ _ h => by omega, fun parts toks o p _ h => .inr ⟨_, rfl, h⟩, fun _ _ _ h => by omega,
      fun parts toks o p _ h => .inr ⟨_, rfl, h⟩, fun _ _ _ _ h => by omega⟩
  | succ fuel ih =>
    -- an operand and what a loop reads behind it
    have hors : ∀ toks o p parts, 3 * toks.length + 2 ≤ fuel → Leads (.operand o 0 toks) p →
        p.Inside (max (parseAndDepth fuel toks) (match parseAnd fuel toks with
          | .ok r => orTailDepth fuel r.2
          | .error _ => 0)) o 0 ∨
        ∃ r, ((parseAnd fuel toks).bind fun a => orTail fuel (parts ++ [a.1]) a.2) = .ok r ∧
          Leads (.behind o r.2) p := by
      intro toks o p parts hfuel hp
      rcases ih.and toks o p hfuel hp with hin | ⟨a, ha, hbehind⟩
      · exact .inl (hin.mono (by simp) (by simp))
      · have hlen := length_parseAnd ha
        rw [ha]
        rcases ih.orTail (parts ++ [a.1]) a.2 o p (by omega) hbehind with hin | hr
        · exact .inl (hin.mono (by simp) (by simp))
        · exact .inr hr
    have hands : ∀ toks o p parts, 3 * toks.length + 1 ≤ fuel → Leads (.operand o 0 toks) p →
        p.Inside (max (parseNotDepth fuel toks) (match parseNot fuel toks with
          | .ok r => andTailDepth fuel r.2
          | .error _ => 0)) o 0 ∨
        ∃ r, ((parseNot fuel toks).bind fun a => andTail fuel (parts ++ [a.1]) a.2) = .ok r ∧
          Leads (.behind o r.2) p := by
      intro toks o p parts hfuel hp
      rcases ih.not toks o 0 p hfuel hp with hin | ⟨a, ha, hbehind⟩
      · exact .inl (hin.mono (by simp) (by simp))
      · have hlen := length_parseNot ha
        rw [ha]
        rcases ih.andTail (parts ++ [a.1]) a.2 o p (by omega) hbehind with hin | hr
        · exact .inl (hin.mono (by simp) (by simp))
        · exact .inr hr
    refine ⟨fun toks o p hfuel hp => ?_, fun parts toks o p hfuel hp => ?_, fun toks o p hfuel hp => ?_,
      fun parts toks o p hfuel hp => ?_, fun toks o k p hfuel hp => ?_⟩
    · rw [parseOrDepth]
      exact (hors toks o p [] (by omega) hp).imp_left fun hin => hin.mono (by omega) (by omega)
    · cases toks with
      | nil => exact .inr ⟨_, rfl, hp⟩
      | cons tok toks =>
        rw [List.length_cons] at hfuel
        rw [orTailDepth, orTail]
        split_ifs with htok
        · -- the loop reads the operator; a closing bracket would have ended it
          rcases Relation.ReflTransGen.cases_head hp with rfl | ⟨q, hq, hp⟩
          · exact .inl trivial
          · cases hq with
            | operator => exact hors toks o p parts (by omega) hp
            | close => exact absurd htok (by decide +kernel)
        · exact .inr ⟨_, rfl, hp⟩
    · rw [parseAndDepth]
      exact (hands toks o p [] (by omega) hp).imp_left fun hin => hin.mono (by omega) (by omega)
    · cases toks with
      | nil => exact .inr ⟨_, rfl, hp⟩
      | cons tok toks =>
        rw [List.length_cons] at hfuel
        rw [andTailDepth, andTail]
        split_ifs with htok
        · rcases Relation.ReflTransGen.cases_head hp with rfl | ⟨q, hq, hp⟩
          · exact .inl trivial
          · cases hq with
            | operator => exact hands toks o p parts (by omega) hp
            | close => exact absurd htok (by decide +kernel)
        · exact .inr ⟨_, rfl, hp⟩
    · rcases Relation.ReflTransGen.cases_head hp with rfl | ⟨q, hq, hp⟩
      · exact .inl ⟨by omega, by omega⟩
      · cases hq with
        | not htok =>
          rw [List.length_cons] at hfuel
          rw [parseNotDepth, parseNot, if_pos htok, if_pos htok]
          rcases ih.not _ o (k + 1) p (by omega) hp with hin | ⟨r, hr, hbehind⟩
          · exact .inl (hin.mono (by omega) (by omega))
          · exact .inr ⟨(.not r.1, r.2), by rw [hr]; rfl, hbehind⟩
        | @paren _ _ toks =>
          have hnot : isKeyword "(" "NOT" = false := by decide +kernel
          rw [List.length_cons] at hfuel
          rw [parseNotDepth, parseNot, hnot, if_neg Bool.false_ne_true, if_pos rfl, if_neg Bool.false_ne_true, if_pos rfl]
          -- inside the brackets, or behind them once they are closed
          rcases ih.or toks (o + 1) p (by omega) hp with hin | ⟨r, hr, hbehind⟩
          · exact .inl (hin.mono (by omega) (by omega))
          · rcases reaches_behind (by omega) hr hbehind with rfl | ⟨o', rest, ho, hrest, hp⟩
            · exact .inl trivial
            · obtain rfl := Nat.succ.inj ho
              obtain ⟨f, toks'⟩ := r
              obtain rfl : toks' = ")" :: rest := hrest
              exact .inr ⟨(f, rest), by rw [hr]; rfl, hp⟩
        | predicate hpred => exact .inr ⟨_, parseNot_predicate hpred, hp⟩

/-! ### The depth of the filter -/

theorem depthAll_le {fs : List Filter} {n : Nat} (h : ∀ f ∈ fs, f.depth ≤ n) : Filter.depthAll fs ≤ n := by
  induction fs with
  | nil => exact Nat.zero_le n
  | cons f fs ih =>
    obtain ⟨hf, hfs⟩ := List.forall_mem_cons.mp h
    exact max_le hf (ih hfs)

theorem depth_joinParts {make : List Filter → Filter} (hmake : ∀ fs, (make fs).depth = Filter.depthAll fs + 1)
    {fs : List Filter} {n : Nat} (h : ∀ f ∈ fs, f.depth ≤ n) : (joinParts make fs).depth ≤ n + 1 := by
  unfold joinParts
  split
  · exact (h _ List.mem_cons_self).trans (Nat.le_succ n)
  · rw [hmake]
    exact Nat.succ_le_succ (depthAll_le h)

theorem Predicate.depth {toks : List String} {f : Filter} (h : Predicate toks f) : f.depth = 0 := by
  cases h with
  | compare _ hop _ =>
    simp only [comparisons, List.mem_cons, Prod.mk.injEq, List.not_mem_nil, or_false] at hop
    rcases hop with ⟨-, rfl⟩ | ⟨-, rfl⟩ | ⟨-, rfl⟩ | ⟨-, rfl⟩ | ⟨-, rfl⟩ <;> rfl
  | _ => rfl

theorem depth_parsePredicate {toks : List String} {r : Filter × List String} (h : parsePredicate toks = .ok r) :
    r.1.depth = 0 := by
  obtain ⟨seg, -, hpred⟩ := parsePredicate_eq_ok h
  exact hpred.depth

theorem forall_mem_snoc {fs : List Filter} {f : Filter} {d d' : Nat} (h : ∀ g ∈ fs, g.depth ≤ d) (hf : f.depth ≤ d') :
    ∀ g ∈ fs ++ [f], g.depth ≤ max d d' := by
  intro g hg
  rcases List.mem_append.mp hg with hg | hg
  · exact (h g hg).trans (le_max_left ..)
  · exact List.mem_singleton.mp hg ▸ hf.trans (le_max_right ..)

/-- A filter is at most as deep as the recursion that makes it. -/
structure HeightAt (fuel : Nat) : Prop where
  or : ∀ toks r, parseOr fuel toks = .ok r → r.1.depth ≤ parseOrDepth fuel toks
  orTail : ∀ parts toks r d, (∀ f ∈ parts, f.depth ≤ d) → orTail fuel parts toks = .ok r →
    r.1.depth ≤ max d (orTailDepth fuel toks) + 1
  and : ∀ toks r, parseAnd fuel toks = .ok r → r.1.depth ≤ parseAndDepth fuel toks
  andTail : ∀ parts toks r d, (∀ f ∈ parts, f.depth ≤ d) → andTail fuel parts toks = .ok r →
    r.1.depth ≤ max d (andTailDepth fuel toks) + 1
  not : ∀ toks r, parseNot fuel toks = .ok r → r.1.depth ≤ parseNotDepth fuel toks

theorem heightAt (fuel : Nat) : HeightAt fuel := by
  induction fuel with
  | zero =>
    refine ⟨nofun, fun parts toks r d hd h => ?_, nofun, fun parts toks r d hd h => ?_, nofun⟩
    · obtain rfl := Except.ok.inj h
      exact (depth_joinParts (fun _ => rfl) hd).trans (by simp)
    · obtain rfl := Except.ok.inj h
      exact (depth_joinParts (fun _ => rfl) hd).trans (by simp)
  | succ fuel ih =>
    refine ⟨fun toks r h => ?_, fun parts toks r d hd h => ?_, fun toks r h => ?_, fun parts toks r d hd h => ?_,
      fun toks r h => ?_⟩
    · obtain ⟨a, ha, hrest⟩ := except_bind_eq_ok h
      rw [parseOrDepth, ha]
      exact ih.orTail _ _ _ _ (List.forall_mem_singleton.mpr (ih.and _ _ ha)) hrest
    · cases toks with
      | nil =>
        obtain rfl := Except.ok.inj h
        exact (depth_joinParts (fun _ => rfl) hd).trans (by simp)
      | cons tok toks =>
        rw [orTail] at h
        rw [orTailDepth]
        split_ifs at h ⊢ with htok
        · obtain ⟨a, ha, hrest⟩ := except_bind_eq_ok h
          rw [ha, ← max_assoc]
          exact ih.orTail _ _ _ _ (forall_mem_snoc hd (ih.and _ _ ha)) hrest
        · obtain rfl := Except.ok.inj h
          exact (depth_joinParts (fun _ => rfl) hd).trans (by simp)
    · obtain ⟨a, ha, hrest⟩ := except_bind_eq_ok h
      rw [parseAndDepth, ha]
      exact ih.andTail _ _ _ _ (List.forall_mem_singleton.mpr (ih.not _ _ ha)) hrest
    · cases toks with
      | nil =>
        obtain rfl := Except.ok.inj h
        exact (depth_joinParts (fun _ => rfl) hd).trans (by simp)
      | cons tok toks =>
        rw [andTail] at h
        rw [andTailDepth]
        split_ifs at h ⊢ with htok
        · obtain ⟨a, ha, hrest⟩ := except_bind_eq_ok h
          rw [ha, ← max_assoc]
          exact ih.andTail _ _ _ _ (forall_mem_snoc hd (ih.not _ _ ha)) hrest
        · obtain rfl := Except.ok.inj h
          exact (depth_joinParts (fun _ => rfl) hd).trans (by simp)
    · cases toks with
      | nil => cases h
      | cons tok toks =>
        rw [parseNot] at h
        rw [parseNotDepth]
        split_ifs at h ⊢ with htok hparen
        · obtain ⟨a, ha, rfl⟩ := except_map_eq_ok h
          exact Nat.succ_le_succ (ih.not _ _ ha)
        · split at h
          · cases h
          · rename_i f rest hinner
            obtain rfl := Except.ok.inj h
            exact (ih.or _ _ hinner).trans (Nat.le_add_right ..)
          · cases h
        · rw [depth_parsePredicate h]
          exact Nat.zero_le _

/-! ### Strings with a common bound -/

/-- The calls that are on the stack at once while a string is parsed. -/
def recursionDepth (s : String) : Nat := parseOrDepth (4 * ((tokenize s).length + 1)) (tokenize s)

theorem depth_le_recursionDepth {s : String} {f : Filter} (h : parseFilter s = .ok f) : f.depth ≤ recursionDepth s := by
  unfold parseFilter at h
  dsimp only at h
  split_ifs at h
  split at h
  · cases h
  · rename_i g hparse
    obtain rfl := Except.ok.inj h
    exact (heightAt _).or _ _ hparse
  · cases h

/-- A bound on the recursion and on the depth of accepted filters holds for all strings of a set, if and only if there
are one on the `NOT`s in front of an operand and one on the brackets around it. -/
theorem depth_bounded (strings : Set String) :
    (∃ bound, ∀ s ∈ strings, recursionDepth s ≤ bound ∧ ∀ f, parseFilter s = .ok f → f.depth ≤ bound) ↔
      ∃ n m, ∀ s ∈ strings, (Spot.operand 0 0 (tokenize s)).Within n m := by
  constructor
  · rintro ⟨bound, h⟩
    refine ⟨bound, bound, fun s hs o k toks hp => ?_⟩
    rcases (seenAt (4 * ((tokenize s).length + 1))).or (tokenize s) 0 _ (by omega) hp with hin | ⟨r, hr, hbehind⟩
    · obtain ⟨ho, hk⟩ : o ≤ 0 + recursionDepth s ∧ k ≤ 0 + recursionDepth s := hin
      have := (h s hs).1
      omega
    · rcases reaches_behind (by omega) hr hbehind with heq | ⟨o', _, ho, _⟩
      · cases heq
      · cases ho
  · rintro ⟨n, m, h⟩
    have hbound : ∀ s ∈ strings, recursionDepth s ≤ n + 4 + (n + 4) * m := fun s hs => (depthAt n m _).or _ 0 (h s hs)
    exact ⟨_, fun s hs => ⟨hbound s hs, fun f hf => (depth_le_recursionDepth hf).trans (hbound s hs)⟩⟩

/-! ### A row of negations -/

/-- `n` negations in front of a predicate. -/
def negations (n : Nat) : List Char := (List.replicate n "NOT ".toList).flatten ++ "a EXISTS".toList

def negated : Nat → Filter
  | 0 => .exists_ "a"
  | n + 1 => .not (negated n)

theorem depth_negated (n : Nat) : (negated n).depth = n := by
  induction n with
  | zero => rfl
  | succ n ih => rw [negated, Filter.depth, ih]

theorem tokenize_negations (n : Nat) :
    tokenizeFrom [] (negations n) = List.replicate n "NOT" ++ ["a", "EXISTS"] := by
  induction n with
  | zero => decide +kernel
  | succ n ih =>
    have hstep : ∀ cs, tokenizeFrom [] ('N' :: 'O' :: 'T' :: ' ' :: cs) = "NOT" :: tokenizeFrom [] cs := by
      intro cs
      simp [tokenizeFrom, flush, isWhitespace]
    rw [List.replicate_succ, List.cons_append, ← ih]
    exact hstep (negations n)

theorem parseNot_negations (n fuel : Nat) (h : n < fuel) :
    parseNot fuel (List.replicate n "NOT" ++ ["a", "EXISTS"]) = .ok (negated n, []) := by
  induction n generalizing fuel with
  | zero =>
    obtain ⟨fuel, rfl⟩ := Nat.exists_eq_succ_of_ne_zero (Nat.ne_of_gt h)
    have hnot : isKeyword "a" "NOT" = false := by decide +kernel
    have hpred : parsePredicate ["a", "EXISTS"] = .ok (.exists_ "a", []) := by rfl
    rw [List.replicate_zero, List.nil_append, parseNot, hnot, if_neg (by decide), if_neg (by decide)]
    exact hpred
  | succ n ih =>
    obtain ⟨fuel, rfl⟩ := Nat.exists_eq_succ_of_ne_zero (Nat.ne_of_gt (Nat.zero_lt_of_lt h))
    have hnot : isKeyword "NOT" "NOT" = true := by decide +kernel
    rw [List.replicate_succ, List.cons_append, parseNot, if_pos hnot, ih fuel (by omega)]
    rfl

theorem parseFilter_negations (n : Nat) : parseFilter (String.ofList (negations n)) = .ok (negated n) := by
  have htoks : tokenize (String.ofList (negations n)) = List.replicate n "NOT" ++ ["a", "EXISTS"] := by
    rw [tokenize, String.toList_ofList, tokenize_negations]
  have hparse : parseOr (4 * (n + 3)) (List.replicate n "NOT" ++ ["a", "EXISTS"]) = .ok (negated n, []) := by
    rw [show 4 * (n + 3) = 4 * n + 10 + 1 + 1 by omega, parseOr, parseAnd, parseNot_negations n _ (by omega)]
    simp [Except.bind, andTail, orTail, joinParts]
  unfold parseFilter
  dsimp only
  rw [htoks, if_neg (by simp), show (List.replicate n "NOT" ++ ["a", "EXISTS"]).length + 1 = n + 3 by simp, hparse]

/-- No bound holds for every string. -/
theorem nesting_unbounded : ¬ ∃ bound, ∀ s f, parseFilter s = .ok f → f.depth ≤ bound := by
  rintro ⟨bound, h⟩
  have := h _ _ (parseFilter_negations (bound + 1))
  rw [depth_negated] at this
  omega

end Skeg.Server
