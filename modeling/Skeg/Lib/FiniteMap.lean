import Mathlib.Data.List.AList
import Mathlib.Algebra.BigOperators.Group.List.Basic
import Mathlib.Algebra.GroupWithZero.Nat

/-!
# Finite maps as association lists

Maps built by insertion from the entries of another, and sums over the entries of a map.  Both depend
on what is looked up only.
-/

namespace FiniteMap

variable {K V W : Type*} [DecidableEq K]

/-! ### Building a map -/

/-- What is found in a map after inserting the entries of `s` that pass a test. -/
theorem lookup_foldl_insert (p : V → Bool) (f : V → W) (s : AList fun _ : K => V)
    (m : AList fun _ : K => W) (k : K) :
    (s.entries.foldl (fun m e => if p e.2 then m.insert e.1 (f e.2) else m) m).lookup k =
      match s.lookup k with
      | some v => if p v then some (f v) else m.lookup k
      | none => m.lookup k := by
  obtain ⟨l, hl⟩ := s
  induction l generalizing m with
  | nil => rfl
  | cons e l ih =>
    obtain ⟨hnot, hnodup⟩ := List.nodupKeys_cons.mp hl
    rw [show (AList.mk (e :: l) hl).entries = e :: (AList.mk l hnodup).entries from rfl,
      List.foldl_cons, ih]
    by_cases hk : k = e.1
    · subst hk
      have hrest : (AList.mk l hnodup).lookup e.1 = none := List.dlookup_eq_none.mpr hnot
      have hself : (AList.mk (e :: l) hl).lookup e.1 = some e.2 := List.dlookup_cons_eq ..
      rw [hrest, hself]
      by_cases hp : p e.2 <;> simp [hp]
    · have hskip : (AList.mk (e :: l) hl).lookup k = (AList.mk l hnodup).lookup k :=
        List.dlookup_cons_ne _ _ hk
      rw [hskip]
      by_cases hp : p e.2 <;> simp [hp, hk]

/-- Inserting the entries of a map, in whatever order, builds the map. -/
theorem lookup_foldl_insert_perm {order : List (Sigma fun _ : K => V)} {s : AList fun _ : K => V}
    (h : order.Perm s.entries) (k : K) :
    (order.foldl (fun m e => m.insert e.1 e.2) (∅ : AList fun _ : K => V)).lookup k = s.lookup k := by
  have hkeys : order.NodupKeys := (List.perm_nodupKeys h).mpr s.nodupKeys
  have hinsert := lookup_foldl_insert (fun _ : V => true) id ⟨order, hkeys⟩ ∅ k
  have hperm : AList.lookup k ⟨order, hkeys⟩ = s.lookup k := AList.perm_lookup h
  rw [hperm] at hinsert
  refine Eq.trans hinsert ?_
  cases s.lookup k with
  | none => rfl
  | some v => rfl

/-! ### Sums -/

/-- The sum of `f` over the entries. -/
def sumBy (f : K → V → Nat) (s : AList fun _ : K => V) : Nat := (s.entries.map fun e => f e.1 e.2).sum

variable (f : K → V → Nat)

omit [DecidableEq K] in
@[simp] theorem sumBy_empty : sumBy f (∅ : AList fun _ : K => V) = 0 := rfl

theorem sumBy_erase (s : AList fun _ : K => V) (k : K) :
    sumBy f (s.erase k) + (s.lookup k).elim 0 (f k) = sumBy f s := by
  obtain ⟨l, hl⟩ := s
  induction l with
  | nil => rfl
  | cons e l ih =>
    obtain ⟨hnot, hnodup⟩ := List.nodupKeys_cons.mp hl
    have ih := ih hnodup
    have hsum : sumBy f (AList.mk (e :: l) hl) = f e.1 e.2 + sumBy f (AList.mk l hnodup) := rfl
    by_cases hk : k = e.1
    · subst hk
      have herase : (AList.mk (e :: l) hl).erase e.1 = AList.mk l hnodup :=
        AList.ext (List.kerase_cons_eq rfl)
      have hself : (AList.mk (e :: l) hl).lookup e.1 = some e.2 := List.dlookup_cons_eq ..
      rw [herase, hself, hsum, Nat.add_comm]
      rfl
    · have hskip : (AList.mk (e :: l) hl).lookup k = (AList.mk l hnodup).lookup k :=
        List.dlookup_cons_ne _ _ hk
      have herase : ((AList.mk (e :: l) hl).erase k).entries =
          e :: ((AList.mk l hnodup).erase k).entries := List.kerase_cons_ne hk
      rw [hskip, hsum, ← ih, sumBy, herase, List.map_cons, List.sum_cons, Nat.add_assoc]
      rfl

theorem sumBy_insert (s : AList fun _ : K => V) (k : K) (v : V) :
    sumBy f (s.insert k v) + (s.lookup k).elim 0 (f k) = sumBy f s + f k v := by
  have h : sumBy f (s.insert k v) = f k v + sumBy f (s.erase k) := by
    rw [sumBy, AList.entries_insert, List.map_cons, List.sum_cons]
    rfl
  have := sumBy_erase f s k
  omega

/-- The sum depends on what each key adds to it. -/
theorem sumBy_congr {s t : AList fun _ : K => V}
    (h : ∀ k, (s.lookup k).elim 0 (f k) = (t.lookup k).elim 0 (f k)) : sumBy f s = sumBy f t := by
  induction s using AList.insertRec generalizing t with
  | H0 =>
    rw [sumBy_empty, eq_comm]
    refine List.sum_eq_zero fun n hn => ?_
    obtain ⟨e, he, rfl⟩ := List.mem_map.mp hn
    have hlookup : t.lookup e.1 = some e.2 := AList.mem_lookup_iff.mpr he
    have := h e.1
    rw [hlookup] at this
    exact this.symm
  | IH k v s hk ih =>
    have hnone : s.lookup k = none := AList.lookup_eq_none.mpr hk
    have hinsert := sumBy_insert f s k v
    have herase := sumBy_erase f t k
    have hself := h k
    rw [AList.lookup_insert] at hself
    rw [hnone] at hinsert
    have hrest : sumBy f s = sumBy f (t.erase k) := by
      refine ih fun k' => ?_
      by_cases hkk : k' = k
      · rw [hkk, hnone, AList.lookup_erase]
      · have := h k'
        rwa [AList.lookup_insert_ne hkk, ← AList.lookup_erase_ne (s := t) hkk] at this
    simp only [Option.elim_none, Option.elim_some] at hinsert hself
    omega

end FiniteMap
