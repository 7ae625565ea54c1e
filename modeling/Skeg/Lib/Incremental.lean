import Mathlib.Data.List.Basic
import Mathlib.Tactic.Common

/-!
# Parsers of a growing buffer

A parser looks at the front of a buffer.  It has read a value and says how long that was, or it needs
more input, or it fails.  It is stable when more input does not change a decision
(`Incremental.Stable`).  A stable parser that reads an encoding back reads any list of encoded values
back from any chunks of their concatenation (`Incremental.feed_flatten`): a chunk may end anywhere.
-/

namespace Incremental

variable {ε α β γ : Type*}

/-- A computation on a buffer; `none` is that more input is needed. -/
abbrev Partial (ε α : Type*) := Except ε (Option α)

/-- Continue with a value that has been read. -/
def Partial.andThen (r : Partial ε α) (k : α → Partial ε γ) : Partial ε γ :=
  match r with
  | .error e => .error e
  | .ok none => .ok none
  | .ok (some a) => k a

@[simp] theorem Partial.andThen_error (e : ε) (k : α → Partial ε γ) :
    Partial.andThen (.error e) k = .error e := rfl

@[simp] theorem Partial.andThen_none (k : α → Partial ε γ) :
    Partial.andThen (ε := ε) (.ok none) k = .ok none := rfl

@[simp] theorem Partial.andThen_some (a : α) (k : α → Partial ε γ) :
    Partial.andThen (.ok (some a)) k = k a := rfl

/-- A value is read when both parts are. -/
theorem Partial.andThen_eq_some {r : Partial ε α} {k : α → Partial ε γ} {c : γ} :
    r.andThen k = .ok (some c) ↔ ∃ a, r = .ok (some a) ∧ k a = .ok (some c) := by
  constructor
  · intro h
    match r, h with
    | .ok (some a), h => exact ⟨a, rfl, h⟩
  · rintro ⟨a, rfl, h⟩
    exact h

/-- A value read from the front of a buffer, with its length. -/
abbrev Parser (ε β α : Type*) := List β → Partial ε (α × Nat)

structure Stable (p : Parser ε β α) : Prop where
  le_length : ∀ {b a n}, p b = .ok (some (a, n)) → n ≤ b.length
  append : ∀ {b} (c), p b ≠ .ok none → p (b ++ c) = p b

/-- A stable parser, and then one that looks at the same buffer again. -/
theorem Stable.andThen {p : Parser ε β α} (hp : Stable p) {k : List β → α × Nat → Partial ε (γ × Nat)}
    (hle : ∀ {b a n c m}, n ≤ b.length → k b (a, n) = .ok (some (c, m)) → m ≤ b.length)
    (happ : ∀ {b a n} c, n ≤ b.length → k b (a, n) ≠ .ok none → k (b ++ c) (a, n) = k b (a, n)) :
    Stable fun b => (p b).andThen (k b) where
  le_length {b c m} h := by
    obtain ⟨⟨a, n⟩, hpb, hk⟩ := Partial.andThen_eq_some.mp h
    exact hle (hp.le_length hpb) hk
  append {b} c h := by
    have hne : p b ≠ .ok none := fun hb => h (by simp [hb])
    simp only [hp.append c hne]
    rcases hpb : p b with e | _ | ⟨a, n⟩
    · rfl
    · exact absurd hpb hne
    · simp only [hpb, Partial.andThen_some] at h ⊢
      exact happ c (hp.le_length hpb) h

/-! ### Reading all there is -/

section

variable (p : Parser ε β α)

/-- Take values off the front of a buffer, `fuel` of them at most. -/
def drain : Nat → List β → Except ε (List α × List β)
  | 0, b => .ok ([], b)
  | fuel + 1, b =>
    match p b with
    | .error e => .error e
    | .ok none => .ok ([], b)
    | .ok (some (a, n)) => (drain fuel (b.drop n)).map fun r => (a :: r.1, r.2)

/-- Append chunk after chunk to a buffer, and take what has become complete each time. -/
def feed : List β → List (List β) → Except ε (List α × List β)
  | b, [] => .ok ([], b)
  | b, c :: cs =>
    match drain p ((b ++ c).length + 1) (b ++ c) with
    | .error e => .error e
    | .ok (as, b) => (feed b cs).map fun r => (as ++ r.1, r.2)

end

/-! ### Values from chunks of their encodings -/

section

variable {p : Parser ε β α} {enc : α → List β} {Ok : α → Prop}

/-- The parser reads an encoding back, whatever follows it. -/
structure Reads (p : Parser ε β α) (enc : α → List β) (Ok : α → Prop) : Prop where
  eq_some : ∀ {a}, Ok a → ∀ rest, p (enc a ++ rest) = .ok (some (a, (enc a).length))
  ne_nil : ∀ {a}, Ok a → enc a ≠ []
  nil : p [] = .ok none

/-- A proper prefix of an encoding is not decided. -/
theorem Stable.prefix_none (hp : Stable p) (hr : Reads p enc Ok) {a : α} (ha : Ok a)
    {b t : List β} (hb : b ++ t = enc a) (ht : t ≠ []) : p b = .ok none := by
  by_contra hne
  have hread : p b = .ok (some (a, (enc a).length)) := by
    rw [← hp.append t hne, hb, ← hr.eq_some ha [], List.append_nil]
  have hlen := hp.le_length hread
  have : 0 < t.length := List.length_pos_iff.mpr ht
  rw [← hb, List.length_append] at hlen
  omega

/-- What is complete in a prefix of the encodings is taken; what remains is not decided. -/
theorem drain_prefix (hp : Stable p) (hr : Reads p enc Ok) {as : List α} (has : ∀ a ∈ as, Ok a)
    {b rest : List β} (hb : b ++ rest = as.flatMap enc) {fuel : Nat} (hf : b.length < fuel) :
    ∃ done todo b', as = done ++ todo ∧ drain p fuel b = .ok (done, b') ∧
      b' ++ rest = todo.flatMap enc ∧ p b' = .ok none := by
  induction as generalizing b fuel with
  | nil =>
    obtain ⟨rfl, rfl⟩ := List.append_eq_nil_iff.mp hb
    obtain ⟨fuel, rfl⟩ := Nat.exists_eq_succ_of_ne_zero (by omega : fuel ≠ 0)
    exact ⟨[], [], [], rfl, by rw [drain, hr.nil], rfl, hr.nil⟩
  | cons a as ih =>
    have ha : Ok a := has a (by simp)
    obtain ⟨fuel, rfl⟩ := Nat.exists_eq_succ_of_ne_zero (by omega : fuel ≠ 0)
    rw [List.flatMap_cons] at hb
    -- either the first encoding is all there, or the buffer ends inside it
    rcases List.append_eq_append_iff.mp hb with ⟨t, hat, hrest⟩ | ⟨b', rfl, hrest⟩
    · rcases eq_or_ne t [] with rfl | ht
      · rw [List.append_nil] at hat
        subst hat
        have hroom : ([] : List β).length < fuel := by
          have := List.length_pos_iff.mpr (hr.ne_nil ha)
          simp; omega
        obtain ⟨done, todo, b', rfl, hd, hb', hnone⟩ :=
          ih (b := []) (fun x hx => has x (by simp [hx])) (by simpa using hrest) hroom
        refine ⟨a :: done, todo, b', rfl, ?_, hb', hnone⟩
        have hread := hr.eq_some ha []
        rw [List.append_nil] at hread
        simp [drain, hread, hd, Except.map]
      · have hnone := hp.prefix_none hr ha hat.symm ht
        refine ⟨[], a :: as, b, rfl, by rw [drain, hnone], ?_, hnone⟩
        rw [List.flatMap_cons, hat, List.append_assoc, hrest]
    · have hlen : b'.length < fuel := by
        have := List.length_pos_iff.mpr (hr.ne_nil ha)
        rw [List.length_append] at hf
        omega
      obtain ⟨done, todo, b'', rfl, hd, hb'', hnone⟩ :=
        ih (fun x hx => has x (by simp [hx])) hrest.symm hlen
      refine ⟨a :: done, todo, b'', rfl, ?_, hb'', hnone⟩
      simp [drain, hr.eq_some ha b', hd, Except.map]

/-- Chunks of the concatenated encodings give the values back, and nothing is left over. -/
theorem feed_flatten (hp : Stable p) (hr : Reads p enc Ok) {as : List α} (has : ∀ a ∈ as, Ok a)
    {chunks : List (List β)} (hchunks : chunks.flatten = as.flatMap enc) :
    feed p [] chunks = .ok (as, []) := by
  -- the buffer is undecided between chunks
  suffices h : ∀ (chunks : List (List β)) (as : List α) (b : List β), (∀ a ∈ as, Ok a) →
      p b = .ok none → b ++ chunks.flatten = as.flatMap enc → feed p b chunks = .ok (as, []) from
    h chunks as [] has hr.nil hchunks
  intro chunks
  induction chunks with
  | nil =>
    intro as b has hnone hb
    rw [List.flatten_nil, List.append_nil] at hb
    cases as with
    | nil => subst hb; rfl
    | cons a as =>
      rw [hb, List.flatMap_cons, hr.eq_some (has a (by simp))] at hnone
      cases hnone
  | cons c chunks ih =>
    intro as b has _ hb
    rw [List.flatten_cons, ← List.append_assoc] at hb
    obtain ⟨done, todo, b', rfl, hd, hb', hnone⟩ := drain_prefix hp hr has hb (Nat.lt_succ_self _)
    rw [feed, hd]
    simp [ih todo b' (fun a ha => has a (by simp [ha])) hnone hb', Except.map]

end

end Incremental
