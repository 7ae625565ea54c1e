import Mathlib.Data.List.Induction
import Mathlib.Data.List.Perm.Basic
import Mathlib.Data.List.Sort
import Mathlib.Data.Prod.Lex

/-!
# The greatest entries of a stream

A heap of bounded size, whose weakest entry gives way to a greater one, keeps the greatest entries of a stream
(`best_select`).  The test for a replacement is a parameter.  It may be coarser than the order, as long as the two
agree on the entries of the stream.  Where it compares keys only, which of two equal keys is kept depends on when they
came (`keyed_select`).  The greatest entries of a union are found among the greatest entries of its parts
(`isTop_flatMap`).
-/

namespace TopK

variable {α : Type*} [LinearOrder α]

/-- One entry is offered to a heap of at most `k`, a list with the weakest entry first. -/
def offer (beats : α → α → Bool) (k : Nat) (heap : List α) (a : α) : List α :=
  if heap.length < k then heap.orderedInsert (· ≤ ·) a
  else
    match heap with
    | [] => []
    | weakest :: rest => if beats a weakest then rest.orderedInsert (· ≤ ·) a else weakest :: rest

def select (beats : α → α → Bool) (k : Nat) (l : List α) : List α := l.foldl (offer beats k) []

/-- What was kept is at least as great as what was dropped, and nothing was dropped before the heap was full. -/
structure Best (k : Nat) (kept dropped : List α) : Prop where
  sorted : kept.Pairwise (· ≤ ·)
  length_le : kept.length ≤ k
  full : dropped ≠ [] → kept.length = k
  le : ∀ a ∈ kept, ∀ d ∈ dropped, d ≤ a

variable {beats : α → α → Bool} {k : Nat}

/-- What is kept of a stream and what is dropped, as far as the size of the heap decides it. -/
structure Held (k : Nat) (l kept dropped : List α) : Prop where
  perm : (kept ++ dropped).Perm l
  sorted : kept.Pairwise (· ≤ ·)
  length_le : kept.length ≤ k
  full : dropped ≠ [] → kept.length = k

/-- An entry that is offered finds room, or takes the place of the weakest one, or is dropped. -/
theorem Held.offer {l heap dropped : List α} (h : Held k l heap dropped) (beats : α → α → Bool) (a : α) :
    (heap.length < k ∧ dropped = [] ∧ offer beats k heap a = heap.orderedInsert (· ≤ ·) a ∧
      Held k (l ++ [a]) (TopK.offer beats k heap a) []) ∨
    (∃ weakest rest, heap = weakest :: rest ∧ beats a weakest = true ∧
      TopK.offer beats k heap a = rest.orderedInsert (· ≤ ·) a ∧
      Held k (l ++ [a]) (TopK.offer beats k heap a) (weakest :: dropped)) ∨
    heap.length = k ∧ (∀ weakest ∈ heap.head?, beats a weakest = false) ∧ TopK.offer beats k heap a = heap ∧
      Held k (l ++ [a]) heap (a :: dropped) := by
  have hperm : ((a :: heap) ++ dropped).Perm (l ++ [a]) := (h.perm.cons a).trans (List.perm_append_singleton a l).symm
  have hlen := h.length_le
  by_cases hroom : heap.length < k
  · -- there is room, so nothing was dropped yet
    obtain rfl : dropped = [] := by
      by_contra hne
      have := h.full hne
      omega
    have hoffer : TopK.offer beats k heap a = heap.orderedInsert (· ≤ ·) a := if_pos hroom
    have hlen' := List.orderedInsert_length (· ≤ ·) heap a
    refine .inl ⟨hroom, rfl, hoffer, ?_⟩
    rw [hoffer]
    exact ⟨((List.perm_orderedInsert _ a heap).append_right _).trans hperm, h.sorted.orderedInsert a heap, by omega,
      fun hne => absurd rfl hne⟩
  · have hfull : heap.length = k := by omega
    have hdrop : Held k (l ++ [a]) heap (a :: dropped) :=
      ⟨List.perm_middle.trans hperm, h.sorted, hlen, fun _ => hfull⟩
    cases heap with
    | nil => exact .inr (.inr ⟨hfull, by simp, if_neg hroom, hdrop⟩)
    | cons weakest rest =>
      have hoffer : TopK.offer beats k (weakest :: rest) a =
          if beats a weakest then rest.orderedInsert (· ≤ ·) a else weakest :: rest := if_neg hroom
      cases hbeat : beats a weakest with
      | true =>
        rw [hbeat, if_pos rfl] at hoffer
        have hlen' := List.orderedInsert_length (· ≤ ·) rest a
        rw [List.length_cons] at hlen hfull
        refine .inr (.inl ⟨weakest, rest, rfl, hbeat, hoffer, ?_⟩)
        rw [hoffer]
        refine ⟨?_, (List.pairwise_cons.mp h.sorted).2.orderedInsert a rest, by omega, fun _ => by omega⟩
        exact (((List.perm_orderedInsert _ a rest).append_right _).trans (List.perm_middle.cons a)).trans hperm
      | false =>
        rw [hbeat] at hoffer
        exact .inr (.inr ⟨hfull, by simpa using hbeat, hoffer, hdrop⟩)

theorem Best.offer {heap dropped : List α} (h : Best k heap dropped) {a : α}
    (hbeats : ∀ w ∈ heap, beats a w = true ↔ w < a) :
    ∃ dropped', Best k (offer beats k heap a) dropped' ∧
      (TopK.offer beats k heap a ++ dropped').Perm (a :: (heap ++ dropped)) := by
  have hheld : Held k (heap ++ dropped) heap dropped := ⟨List.Perm.refl _, h.sorted, h.length_le, h.full⟩
  have hfront := List.perm_append_singleton a (heap ++ dropped)
  rcases hheld.offer beats a with ⟨-, -, -, hnext⟩ | ⟨weakest, rest, rfl, hbeat, hoffer, hnext⟩ |
    ⟨-, hkeep, hoffer, hnext⟩
  · exact ⟨[], ⟨hnext.sorted, hnext.length_le, hnext.full, by simp⟩, hnext.perm.trans hfront⟩
  · have hlt := (hbeats weakest List.mem_cons_self).mp hbeat
    refine ⟨weakest :: dropped, ⟨hnext.sorted, hnext.length_le, hnext.full, fun x hx d hd => ?_⟩,
      hnext.perm.trans hfront⟩
    rw [hoffer] at hx
    have hwx : weakest ≤ x := by
      rcases List.mem_orderedInsert (· ≤ ·) |>.mp hx with rfl | hx
      · exact hlt.le
      · exact (List.pairwise_cons.mp h.sorted).1 x hx
    rcases List.mem_cons.mp hd with rfl | hd
    · exact hwx
    · exact (h.le weakest List.mem_cons_self d hd).trans hwx
  · rw [hoffer]
    refine ⟨a :: dropped, ⟨h.sorted, h.length_le, hnext.full, fun x hx d hd => ?_⟩, hnext.perm.trans hfront⟩
    rcases List.mem_cons.mp hd with rfl | hd
    · cases heap with
      | nil => cases hx
      | cons weakest rest =>
        have hle : d ≤ weakest := not_lt.mp fun hlt => by
          simpa [hkeep weakest rfl] using (hbeats weakest List.mem_cons_self).mpr hlt
        rcases List.mem_cons.mp hx with rfl | hx
        · exact hle
        · exact hle.trans ((List.pairwise_cons.mp h.sorted).1 x hx)
    · exact h.le x hx d hd

/-- The heap after a stream. -/
theorem best_select (beats : α → α → Bool) (k : Nat) {l : List α}
    (hbeats : ∀ a ∈ l, ∀ w ∈ l, beats a w = true ↔ w < a) :
    ∃ dropped, Best k (select beats k l) dropped ∧ (select beats k l ++ dropped).Perm l := by
  induction l using List.reverseRecOn with
  | nil => exact ⟨[], ⟨List.Pairwise.nil, Nat.zero_le _, fun hne => absurd rfl hne, by simp⟩, List.Perm.refl _⟩
  | append_singleton l a ih =>
    obtain ⟨dropped, hbest, hperm⟩ := ih fun b hb w hw =>
      hbeats b (List.mem_append_left _ hb) w (List.mem_append_left _ hw)
    have hmem : ∀ w ∈ select beats k l, w ∈ l := fun w hw => hperm.subset (List.mem_append_left _ hw)
    obtain ⟨dropped', hbest', hperm'⟩ := hbest.offer (a := a) fun w hw =>
      hbeats a (by simp) w (List.mem_append_left _ (hmem w hw))
    have hselect : select beats k (l ++ [a]) = offer beats k (select beats k l) a := List.foldl_append
    rw [hselect]
    exact ⟨dropped', hbest', hperm'.trans ((hperm.cons a).trans (List.perm_append_singleton a l).symm)⟩

/-- As many are kept as there is room for. -/
theorem Best.length_eq {kept dropped l : List α} (h : Best k kept dropped) (hperm : (kept ++ dropped).Perm l) :
    kept.length = min k l.length := by
  have hlen := hperm.length_eq
  rw [List.length_append] at hlen
  have hle := h.length_le
  cases dropped with
  | nil =>
    rw [List.length_nil] at hlen
    omega
  | cons d dropped =>
    have := h.full (List.cons_ne_nil _ _)
    omega

/-- Two choices of equally many entries are the same if each entry that only one of them takes is above each that
only the other takes, in the same asymmetric relation. -/
theorem mem_iff_of_above {ι : Type*} {r : ι → ι → Prop} (hr : ∀ a b, r a b → ¬ r b a) {l m : List ι} (hl : l.Nodup)
    (hm : m.Nodup) (hlen : l.length = m.length) (habove : ∀ a ∈ l, ∀ b ∈ m, b ∉ l → r b a)
    (habove' : ∀ b ∈ m, ∀ a ∈ l, a ∉ m → r a b) (i : ι) : i ∈ l ↔ i ∈ m := by
  have hsub : m ⊆ l := by
    intro b hb
    by_contra hbl
    have hrest : ¬ l ⊆ m := fun hlm =>
      hbl (((List.subperm_of_subset hl hlm).perm_of_length_le hlen.ge).mem_iff.mpr hb)
    obtain ⟨a, ha, ham⟩ : ∃ a ∈ l, a ∉ m := by
      by_contra hnone
      exact hrest fun a ha => by_contra fun ham => hnone ⟨a, ha, ham⟩
    exact hr _ _ (habove a ha b hb hbl) (habove' b hb a ha ham)
  exact ((List.subperm_of_subset hm hsub).perm_of_length_le hlen.le).mem_iff.symm

/-! ### Comparing keys only -/

section

variable {β : Type*} [LinearOrder β] {l heap dropped : List (β ×ₗ Nat)} {a d : β ×ₗ Nat}

/-- An entry, a key and its place in the stream, gives way to one with a greater key. -/
def beatsKey (a weakest : β ×ₗ Nat) : Bool := decide ((ofLex weakest).1 < (ofLex a).1)

/-- The entries in front of `a` that it does not beat are too few to fill the heap. -/
def Enters (k : Nat) (l : List (β ×ₗ Nat)) (a : β ×ₗ Nat) : Prop :=
  l.countP (fun e => decide ((ofLex e).2 < (ofLex a).2 ∧ (ofLex a).1 ≤ (ofLex e).1)) < k

/-- Of two equal keys, one that enters is above one that does not, and among those that enter the later one is above. -/
def Outranks (k : Nat) (l : List (β ×ₗ Nat)) (a d : β ×ₗ Nat) : Prop :=
  (ofLex d).1 < (ofLex a).1 ∨
    ((ofLex d).1 = (ofLex a).1 ∧ Enters k l a ∧ (Enters k l d → (ofLex d).2 < (ofLex a).2))

theorem Outranks.asymm (h : Outranks k l a d) : ¬ Outranks k l d a := by
  rintro (hlt | ⟨heq, hd, hlast⟩)
  · exact h.elim hlt.not_gt fun h => hlt.ne h.1.symm
  · rcases h with hlt | ⟨-, ha, hlast'⟩
    · exact hlt.ne heq.symm
    · exact (hlast ha).not_gt (hlast' hd)

/-- The kept entries have entered, and outrank those that were dropped. -/
structure Keyed (k : Nat) (l heap dropped : List (β ×ₗ Nat)) : Prop where
  perm : (heap ++ dropped).Perm l
  sorted : heap.Pairwise (· ≤ ·)
  length_le : heap.length ≤ k
  full : dropped ≠ [] → heap.length = k
  enters : ∀ a ∈ heap, Enters k l a
  outranks : ∀ a ∈ heap, ∀ d ∈ dropped, Outranks k l a d

/-- A later entry does not change which of the others enter. -/
theorem enters_concat (hd : (ofLex d).2 < (ofLex a).2) : Enters k (l ++ [a]) d ↔ Enters k l d := by
  rw [Enters, Enters, List.countP_append, List.countP_singleton, if_neg (by simp [hd.le]), Nat.add_zero]

theorem Keyed.offer (h : Keyed k l heap dropped) (hl : l.Nodup) (ha : ∀ e ∈ l, (ofLex e).2 < (ofLex a).2) :
    ∃ dropped', Keyed k (l ++ [a]) (offer beatsKey k heap a) dropped' := by
  have hmem : ∀ e ∈ heap ++ dropped, e ∈ l := fun e he => h.perm.subset he
  have henters : ∀ e ∈ heap ++ dropped, (Enters k (l ++ [a]) e ↔ Enters k l e) := fun e he =>
    enters_concat (ha e (hmem e he))
  have hkept : ∀ e ∈ heap, Enters k (l ++ [a]) e := fun e he =>
    (henters e (List.mem_append_left _ he)).mpr (h.enters e he)
  have hranks : ∀ e ∈ heap, ∀ d ∈ dropped, Outranks k (l ++ [a]) e d := fun e he d hd =>
    (h.outranks e he d hd).imp_right fun ⟨heq, _, hlast⟩ =>
      ⟨heq, hkept e he, fun hin => hlast ((henters d (List.mem_append_right _ hd)).mp hin)⟩
  -- what of the stream is not beaten by the entry, counted in the heap
  have hcount : Enters k (l ++ [a]) a ↔ heap.countP (fun e => decide ((ofLex a).1 ≤ (ofLex e).1)) +
      dropped.countP (fun e => decide ((ofLex a).1 ≤ (ofLex e).1)) < k := by
    have hsame : (heap ++ dropped).countP (fun e => decide ((ofLex e).2 < (ofLex a).2 ∧ (ofLex a).1 ≤ (ofLex e).1)) =
        (heap ++ dropped).countP fun e => decide ((ofLex a).1 ≤ (ofLex e).1) :=
      List.countP_congr fun e he => by simp [ha e (hmem e he)]
    rw [Enters, List.countP_append, List.countP_singleton, if_neg (by simp), Nat.add_zero, ← h.perm.countP_eq, hsame,
      List.countP_append]
  have hheld : Held k l heap dropped := ⟨h.perm, h.sorted, h.length_le, h.full⟩
  rcases hheld.offer beatsKey a with ⟨hroom, rfl, hoffer, hnext⟩ | ⟨weakest, rest, rfl, hbeat, hoffer, hnext⟩ |
    ⟨hfull, hkeep, hoffer, hnext⟩
  · refine ⟨[], hnext.perm, hnext.sorted, hnext.length_le, hnext.full, fun e he => ?_, by simp⟩
    rw [hoffer] at he
    rcases List.mem_orderedInsert (· ≤ ·) |>.mp he with rfl | he
    · exact hcount.mpr (Nat.lt_of_le_of_lt (by simpa using List.countP_le_length) hroom)
    · exact hkept e he
  · have hlt : (ofLex weakest).1 < (ofLex a).1 := of_decide_eq_true hbeat
    have hbelow : ∀ d ∈ dropped, (ofLex d).1 < (ofLex a).1 := fun d hd =>
      ((hranks weakest List.mem_cons_self d hd).elim le_of_lt fun h => h.1.le).trans_lt hlt
    refine ⟨weakest :: dropped, hnext.perm, hnext.sorted, hnext.length_le, hnext.full, fun e he => ?_,
      fun e he d hd => ?_⟩ <;> rw [hoffer] at he
    · rcases List.mem_orderedInsert (· ≤ ·) |>.mp he with rfl | he
      · -- it beats the weakest entry and all that was dropped
        have hnone : dropped.countP (fun d => decide ((ofLex e).1 ≤ (ofLex d).1)) = 0 :=
          List.countP_eq_zero.mpr fun d hd => by simpa using hbelow d hd
        rw [hcount, hnone, List.countP_cons_of_neg (by simpa using hlt)]
        exact Nat.lt_of_le_of_lt List.countP_le_length (Nat.lt_of_lt_of_le (Nat.lt_succ_self _) h.length_le)
      · exact hkept e (List.mem_cons_of_mem _ he)
    · rcases List.mem_orderedInsert (· ≤ ·) |>.mp he with rfl | he
      · exact .inl ((List.mem_cons.mp hd).elim (fun heq => heq ▸ hlt) (hbelow d))
      · rcases List.mem_cons.mp hd with rfl | hd
        · have hnodup := h.perm.nodup_iff.mpr hl
          have hne : d ≠ e := fun heq => (List.nodup_cons.mp hnodup).1 (heq ▸ List.mem_append_left _ he)
          have hle := (List.pairwise_cons.mp h.sorted).1 e he
          exact (Prod.Lex.lt_iff.mp (lt_of_le_of_ne hle hne)).imp_right fun ⟨heq, hlt⟩ =>
            ⟨heq, hkept e (List.mem_cons_of_mem _ he), fun _ => hlt⟩
        · exact hranks e (List.mem_cons_of_mem _ he) d hd
  · rw [hoffer]
    refine ⟨a :: dropped, hnext.perm, h.sorted, h.length_le, hnext.full, hkept, fun e he d hd => ?_⟩
    rcases List.mem_cons.mp hd with rfl | hd
    · -- as many as fit into the heap are not beaten
      have hkeys : ∀ e ∈ heap, (ofLex d).1 ≤ (ofLex e).1 := by
        cases heap with
        | nil => simp
        | cons weakest rest =>
          have hle : (ofLex d).1 ≤ (ofLex weakest).1 := not_lt.mp (of_decide_eq_false (hkeep weakest rfl))
          exact List.forall_mem_cons.mpr ⟨hle, fun e he =>
            hle.trans (Prod.Lex.monotone_fst _ _ ((List.pairwise_cons.mp h.sorted).1 e he))⟩
      refine (hkeys e he).lt_or_eq.imp_right fun heq => ⟨heq, hkept e he, fun hin => ?_⟩
      rw [hcount, List.countP_eq_length.mpr fun e he => decide_eq_true (hkeys e he), hfull] at hin
      omega
    · exact hranks e he d hd

/-- The heap after a stream. -/
theorem keyed_select (k : Nat) (hl : l.Pairwise fun a b => (ofLex a).2 < (ofLex b).2) :
    ∃ dropped, Keyed k l (select beatsKey k l) dropped := by
  induction l using List.reverseRecOn with
  | nil => exact ⟨[], List.Perm.refl _, List.Pairwise.nil, Nat.zero_le _, fun hne => absurd rfl hne, by simp [select], by simp⟩
  | append_singleton l a ih =>
    obtain ⟨hl, -, ha⟩ := List.pairwise_append.mp hl
    obtain ⟨dropped, hkeyed⟩ := ih hl
    have hselect : select beatsKey k (l ++ [a]) = TopK.offer beatsKey k (select beatsKey k l) a := List.foldl_append
    rw [hselect]
    exact hkeyed.offer (hl.imp fun hlt heq => hlt.ne (congrArg (fun e => (ofLex e).2) heq)) fun e he => ha e he a (List.mem_singleton.mpr rfl)

end

/-! ### The greatest entries of a union -/

section

variable {ι κ β : Type*} [LinearOrder β] {score : ι → β}

/-- The `k` entries with the greatest scores, or all of them if there are fewer. -/
def IsTop (score : ι → β) (k : Nat) (l kept : List ι) : Prop :=
  ∃ dropped, (kept ++ dropped).Perm l ∧ kept.length = min k l.length ∧ ∀ a ∈ kept, ∀ d ∈ dropped, score d ≤ score a

theorem isTop_take {l : List ι} (k : Nat) (hsorted : l.Pairwise fun a b => score b ≤ score a) :
    IsTop score k l (l.take k) := by
  refine ⟨l.drop k, by rw [List.take_append_drop], List.length_take, ?_⟩
  rw [← List.take_append_drop k l] at hsorted
  exact (List.pairwise_append.mp hsorted).2.2

theorem IsTop.perm {l l' kept : List ι} (h : IsTop score k l kept) (hperm : l.Perm l') : IsTop score k l' kept := by
  obtain ⟨dropped, hkept, hlen, hle⟩ := h
  exact ⟨dropped, hkept.trans hperm, hlen.trans (by rw [hperm.length_eq]), hle⟩

/-- There is room for all. -/
theorem IsTop.perm_of_length_le {l kept : List ι} (h : IsTop score k l kept) (hk : l.length ≤ k) : kept.Perm l := by
  obtain ⟨dropped, hkept, hlen, -⟩ := h
  have hsum := hkept.length_eq
  rw [List.length_append] at hsum
  obtain rfl : dropped = [] := List.eq_nil_of_length_eq_zero (by omega)
  rwa [List.append_nil] at hkept

theorem sublist_flatMap {is : List κ} {i : κ} (hi : i ∈ is) (hits : κ → List ι) : (hits i).Sublist (is.flatMap hits) := by
  obtain ⟨s, t, rfl⟩ := List.append_of_mem hi
  rw [List.flatMap_append, List.flatMap_cons]
  exact (List.sublist_append_left _ _).trans (List.sublist_append_right _ _)

theorem isTop_flatMap {is : List κ} {rows hits : κ → List ι} (hhits : ∀ i ∈ is, IsTop score k (rows i) (hits i))
    {kept : List ι} (h : IsTop score k (is.flatMap hits) kept) : IsTop score k (is.flatMap rows) kept := by
  classical
  choose! rest hrows hlen hrest using hhits
  obtain ⟨dropped, hkept, hkeptLen, hle⟩ := h
  have hall : (is.flatMap hits ++ is.flatMap rest).Perm (is.flatMap rows) :=
    (List.flatMap_append_perm is hits rest).trans (List.Perm.flatMap_left is hrows)
  -- a part that leaves an entry out has given `k` others
  have hfull : ∀ i ∈ is, ∀ x ∈ rest i, (hits i).length = k := by
    intro i hi x hx
    have hsum := (hrows i hi).length_eq
    have hpos := List.length_pos_of_mem hx
    have := hlen i hi
    rw [List.length_append] at hsum
    omega
  refine ⟨dropped ++ is.flatMap rest, ?_, ?_, ?_⟩
  · rw [← List.append_assoc]
    exact (hkept.append_right _).trans hall
  · have hsum := hall.length_eq
    rw [List.length_append] at hsum
    by_cases hnone : is.flatMap rest = []
    · rw [hnone, List.length_nil] at hsum
      omega
    · obtain ⟨x, hx⟩ := List.exists_mem_of_ne_nil _ hnone
      obtain ⟨i, hi, hx⟩ := List.mem_flatMap.mp hx
      have hsub := (sublist_flatMap hi hits).length_le
      have := hfull i hi x hx
      omega
  · intro a ha d hd
    obtain hd | hd := List.mem_append.mp hd
    · exact hle a ha d hd
    · obtain ⟨i, hi, hd⟩ := List.mem_flatMap.mp hd
      by_cases hmissed : ∃ b ∈ hits i, b ∈ dropped
      · obtain ⟨b, hb, hbd⟩ := hmissed
        exact (hrest i hi b hb d hd).trans (hle a ha b hbd)
      · -- all entries of the part are kept, and there is room for no others
        have hsub : (hits i).Subperm kept := by
          rw [List.subperm_ext_iff]
          intro b hb
          have hcount := (sublist_flatMap hi hits).count_le b
          rw [← hkept.count_eq, List.count_append,
            List.count_eq_zero.mpr fun hbd => hmissed ⟨b, hb, hbd⟩] at hcount
          exact hcount
        have hroom : kept.length ≤ (hits i).length := by
          have := hfull i hi d hd
          omega
        exact hrest i hi a ((hsub.perm_of_length_le hroom).mem_iff.mpr ha) d hd

end

end TopK
