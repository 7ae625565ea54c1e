import Skeg.Simd.Rotation
import Mathlib.Algebra.BigOperators.Ring.Finset
import Mathlib.Tactic.Ring

/-!
# The fast rotation keeps inner products

A butterfly adds the products of its two coordinates to the inner product of two vectors.  During a stage the coordinates
that are done count twice and the others have not changed (`Halfway`), so that a stage doubles the inner product and the
transform of a block of length `b` multiplies it by `b`.  A vector is the concatenation of its blocks, and sign flips change
no inner product.
-/

namespace Skeg

namespace Simd

open Finset (range)

variable {R : Type} [CommRing R]

/-- The inner product. -/
def inner (x y : List R) : R := (List.zipWith (· * ·) x y).sum

theorem inner_cons (a b : R) (x y : List R) : inner (a :: x) (b :: y) = a * b + inner x y := by
  rw [inner, List.zipWith_cons_cons, List.sum_cons, ← inner]

theorem inner_eq_sum {x y : List R} (h : x.length = y.length) :
    inner x y = ∑ k ∈ range x.length, x.getD k 0 * y.getD k 0 := by
  induction x generalizing y with
  | nil => rfl
  | cons a x ih =>
    cases y with
    | nil => cases h
    | cons b y =>
      rw [inner_cons, ih (Nat.succ.inj h), List.length_cons, Finset.sum_range_succ', add_comm]
      simp only [List.getD_cons_succ, List.getD_cons_zero]

theorem inner_append {x x' : List R} (h : x.length = x'.length) (y y' : List R) :
    inner (x ++ y) (x' ++ y') = inner x x' + inner y y' := by
  rw [inner, inner, inner, List.zipWith_append h, List.sum_append]

theorem inner_map_mul (c : R) (x y : List R) : inner (x.map (· * c)) (y.map (· * c)) = c ^ 2 * inner x y := by
  induction x generalizing y with
  | nil => exact (mul_zero _).symm
  | cons a x ih =>
    cases y with
    | nil => exact (mul_zero _).symm
    | cons b y =>
      rw [List.map_cons, List.map_cons, inner_cons, inner_cons, ih]
      ring

/-! ### Stages -/

@[simp] theorem length_butterfly (x : List R) (j h : Nat) : (butterfly x j h).length = x.length := by
  rw [butterfly, List.length_set, List.length_set]

theorem getD_butterfly {x : List R} {j h : Nat} (hh : 0 < h) (hlt : j + h < x.length) (k : Nat) :
    (butterfly x j h).getD k 0 =
      if k = j + h then x.getD j 0 - x.getD (j + h) 0
      else if k = j then x.getD j 0 + x.getD (j + h) 0
      else x.getD k 0 := by
  rw [butterfly]
  simp only [List.getD_eq_getElem?_getD, List.getElem?_set, List.length_set]
  by_cases hk : k = j + h
  · subst hk
    simp [hlt]
  · by_cases hkj : k = j
    · subst hkj
      rw [if_neg (Ne.symm hk), if_pos rfl, if_pos (by omega), if_neg hk, if_pos rfl]
      simp
    · rw [if_neg (Ne.symm hk), if_neg (Ne.symm hkj), if_neg hk, if_neg hkj]

/-- The two vectors of a stage with the coordinates in `done` transformed. -/
structure Halfway (x₀ y₀ : List R) (done : Finset Nat) (x y : List R) : Prop where
  length_left : x.length = x₀.length
  length_right : y.length = x₀.length
  same : ∀ k ∉ done, x.getD k 0 = x₀.getD k 0 ∧ y.getD k 0 = y₀.getD k 0
  sum : ∑ k ∈ range x₀.length, x.getD k 0 * y.getD k 0 =
    ∑ k ∈ range x₀.length, x₀.getD k 0 * y₀.getD k 0 + ∑ k ∈ done, x₀.getD k 0 * y₀.getD k 0

theorem Halfway.butterfly {x₀ y₀ x y : List R} {done : Finset Nat} (hd : Halfway x₀ y₀ done x y) {j h : Nat}
    (hh : 0 < h) (hlt : j + h < x₀.length) (hj : j ∉ done) (hjh : j + h ∉ done) :
    Halfway x₀ y₀ (insert j (insert (j + h) done)) (butterfly x j h) (butterfly y j h) := by
  have hx := getD_butterfly hh (hd.length_left.symm ▸ hlt)
  have hy := getD_butterfly hh (hd.length_right.symm ▸ hlt)
  have hne : j ≠ j + h := by omega
  refine ⟨(length_butterfly x j h).trans hd.length_left, (length_butterfly y j h).trans hd.length_right,
    fun k hk => ?_, ?_⟩
  · rw [Finset.mem_insert, Finset.mem_insert, not_or, not_or] at hk
    rw [hx k, hy k, if_neg hk.2.1, if_neg hk.1, if_neg hk.2.1, if_neg hk.1]
    exact hd.same k hk.2.2
  · -- the products change at the two coordinates only
    have hterm : ∀ k ∈ range x₀.length, (Simd.butterfly x j h).getD k 0 * (Simd.butterfly y j h).getD k 0 =
        x.getD k 0 * y.getD k 0 +
          ((if k = j then (x.getD j 0 + x.getD (j + h) 0) * (y.getD j 0 + y.getD (j + h) 0) -
            x.getD j 0 * y.getD j 0 else 0) +
          if k = j + h then (x.getD j 0 - x.getD (j + h) 0) * (y.getD j 0 - y.getD (j + h) 0) -
            x.getD (j + h) 0 * y.getD (j + h) 0 else 0) := by
      intro k _
      rw [hx k, hy k]
      by_cases hk : k = j + h
      · subst hk
        rw [if_pos rfl, if_pos rfl, if_pos rfl, if_neg hne.symm]
        ring
      · by_cases hkj : k = j
        · subst hkj
          rw [if_neg hk, if_neg hk, if_neg hk, if_pos rfl, if_pos rfl, if_pos rfl]
          ring
        · rw [if_neg hk, if_neg hk, if_neg hk, if_neg hkj, if_neg hkj, if_neg hkj]
          ring
    obtain ⟨hxj, hyj⟩ := hd.same j hj
    obtain ⟨hxh, hyh⟩ := hd.same (j + h) hjh
    rw [Finset.sum_congr rfl hterm, Finset.sum_add_distrib, Finset.sum_add_distrib, Finset.sum_ite_eq',
      Finset.sum_ite_eq', if_pos (Finset.mem_range.mpr (by omega)), if_pos (Finset.mem_range.mpr hlt), hd.sum,
      Finset.sum_insert (fun hmem => (Finset.mem_insert.mp hmem).elim hne hj), Finset.sum_insert hjh, hxj, hyj, hxh, hyh]
    ring

/-- The coordinates done when the pairs below `i` and `t` more are. -/
def donePairs (n h i t : Nat) : Finset Nat :=
  (range n).filter fun k => k < i ∨ (i ≤ k ∧ k < i + t) ∨ (i + h ≤ k ∧ k < i + h + t)

theorem mem_donePairs {n h i t k : Nat} :
    k ∈ donePairs n h i t ↔ k < n ∧ (k < i ∨ (i ≤ k ∧ k < i + t) ∨ (i + h ≤ k ∧ k < i + h + t)) := by
  rw [donePairs, Finset.mem_filter, Finset.mem_range]

/-- The pairs of one block of `2 * h`. -/
theorem Halfway.pairs {x₀ y₀ x y : List R} {h i : Nat} (hi : i + h * 2 ≤ x₀.length) (hh : 0 < h)
    (hd : Halfway x₀ y₀ (donePairs x₀.length h i 0) x y) {t : Nat} (ht : t ≤ h) :
    Halfway x₀ y₀ (donePairs x₀.length h i t) ((List.range' i t).foldl (fun x j => Simd.butterfly x j h) x)
      ((List.range' i t).foldl (fun x j => Simd.butterfly x j h) y) := by
  induction t with
  | zero => exact hd
  | succ t ih =>
    have hstep := (ih (Nat.le_of_succ_le ht)).butterfly (j := i + t) hh (by omega)
      (by rw [mem_donePairs]; omega) (by rw [mem_donePairs]; omega)
    have hset : insert (i + t) (insert (i + t + h) (donePairs x₀.length h i t)) = donePairs x₀.length h i (t + 1) := by
      ext k
      rw [Finset.mem_insert, Finset.mem_insert, mem_donePairs, mem_donePairs]
      omega
    rw [hset] at hstep
    rw [List.range'_1_concat, List.foldl_append, List.foldl_append]
    exact hstep

theorem Halfway.all_done {x₀ y₀ x y : List R} {h i : Nat} (hi : x₀.length ≤ i)
    (hd : Halfway x₀ y₀ (donePairs x₀.length h i 0) x y) : Halfway x₀ y₀ (range x₀.length) x y := by
  have hset : donePairs x₀.length h i 0 = range x₀.length := by
    ext k
    rw [mem_donePairs, Finset.mem_range]
    omega
  rwa [hset] at hd

/-- The loop of a stage. -/
theorem Halfway.stageFrom {x₀ y₀ x y : List R} {h : Nat} (hh : 0 < h) {fuel i m : Nat}
    (hm : x₀.length = i + m * (h * 2)) (hfuel : m ≤ fuel) (hd : Halfway x₀ y₀ (donePairs x₀.length h i 0) x y) :
    Halfway x₀ y₀ (range x₀.length) (fwhtStageFrom h fuel i x) (fwhtStageFrom h fuel i y) := by
  induction fuel generalizing i m x y with
  | zero =>
    rw [Nat.le_zero.mp hfuel, Nat.zero_mul] at hm
    exact hd.all_done (Nat.le_of_eq hm)
  | succ fuel ih =>
    rw [fwhtStageFrom, fwhtStageFrom, hd.length_left, hd.length_right]
    cases m with
    | zero =>
      rw [Nat.zero_mul] at hm
      rw [if_neg (by omega), if_neg (by omega)]
      exact hd.all_done (Nat.le_of_eq hm)
    | succ m =>
      rw [Nat.add_mul, Nat.one_mul] at hm
      rw [if_pos (by omega), if_pos (by omega)]
      have hblock := hd.pairs (by omega) hh (Nat.le_refl h)
      have hset : donePairs x₀.length h i h = donePairs x₀.length h (i + h * 2) 0 := by
        ext k
        rw [mem_donePairs, mem_donePairs]
        omega
      rw [hset] at hblock
      have hrest : x₀.length = i + h * 2 + m * (h * 2) := by omega
      exact ih hrest (Nat.le_of_succ_le_succ hfuel) hblock

/-- A stage doubles the inner product. -/
theorem inner_fwhtStage {x y : List R} {h : Nat} (hlen : x.length = y.length) (hh : 0 < h) (hdvd : h * 2 ∣ x.length) :
    inner (fwhtStage x h) (fwhtStage y h) = 2 * inner x y ∧ (fwhtStage x h).length = x.length ∧
      (fwhtStage y h).length = x.length := by
  obtain ⟨m, hm⟩ := hdvd
  rw [Nat.mul_comm] at hm
  have hempty : donePairs x.length h 0 0 = ∅ := by
    ext k
    rw [mem_donePairs]
    simp only [Finset.notMem_empty, iff_false]
    omega
  have hstart : Halfway x y (donePairs x.length h 0 0) x y := by
    refine ⟨rfl, hlen.symm, fun k _ => ⟨rfl, rfl⟩, ?_⟩
    rw [hempty, Finset.sum_empty, add_zero]
  have hfuel : m ≤ x.length := by
    rw [hm]
    exact Nat.le_mul_of_pos_right m (by omega)
  have hstage := hstart.stageFrom hh (hm.trans (Nat.zero_add _).symm) hfuel
  have hright : (fwhtStageFrom h y.length 0 y).length = x.length := hlen ▸ hstage.length_right
  refine ⟨?_, hstage.length_left, hright⟩
  rw [fwhtStage, fwhtStage, ← hlen, inner_eq_sum (hstage.length_left.trans hstage.length_right.symm),
    hstage.length_left, hstage.sum, inner_eq_sum hlen]
  ring

/-! ### Blocks -/

/-- The stages from distance `2 ^ k` on. -/
theorem inner_fwhtFrom {m : Nat} {k fuel : Nat} (hk : k ≤ m) (hfuel : m ≤ k + fuel) {x y : List R}
    (hx : x.length = 2 ^ m) (hy : y.length = 2 ^ m) :
    inner (fwhtFrom fuel (2 ^ k) x) (fwhtFrom fuel (2 ^ k) y) = 2 ^ (m - k) * inner x y ∧
      (fwhtFrom fuel (2 ^ k) x).length = 2 ^ m ∧ (fwhtFrom fuel (2 ^ k) y).length = 2 ^ m := by
  induction fuel generalizing k x y with
  | zero =>
    rw [show m - k = 0 by omega, pow_zero, one_mul]
    exact ⟨rfl, hx, hy⟩
  | succ fuel ih =>
    rw [fwhtFrom, fwhtFrom, hx, hy]
    by_cases hlt : k < m
    · rw [if_pos (Nat.pow_lt_pow_right (by decide) hlt), if_pos (Nat.pow_lt_pow_right (by decide) hlt), ← Nat.pow_succ]
      have hdvd : 2 ^ k * 2 ∣ x.length := by
        rw [hx, ← Nat.pow_succ]
        exact Nat.pow_dvd_pow 2 hlt
      obtain ⟨hinner, hlenx, hleny⟩ := inner_fwhtStage (hx.trans hy.symm) (Nat.two_pow_pos k) hdvd
      obtain ⟨hrest, hlens⟩ := ih hlt (by omega) (hlenx.trans hx) (hleny.trans hx)
      refine ⟨?_, hlens⟩
      rw [hrest, hinner, show m - k = m - (k + 1) + 1 by omega, pow_succ, mul_assoc]
    · rw [if_neg (by rw [show k = m by omega]; exact Nat.lt_irrefl _), show m - k = 0 by omega, pow_zero, one_mul,
        if_neg (by rw [show k = m by omega]; exact Nat.lt_irrefl _)]
      exact ⟨rfl, hx, hy⟩

theorem inner_fwht {m : Nat} {x y : List R} (hx : x.length = 2 ^ m) (hy : y.length = 2 ^ m) :
    ∃ x' y', fwht x = some x' ∧ fwht y = some y' ∧ inner x' y' = 2 ^ m * inner x y ∧ x'.length = 2 ^ m ∧
      y'.length = 2 ^ m := by
  have hpow : 2 ^ m ≠ 0 ∧ 2 ^ m &&& (2 ^ m - 1) = 0 :=
    ⟨Nat.ne_of_gt (Nat.two_pow_pos m), by rw [Nat.and_two_pow_sub_one_eq_mod, Nat.mod_self]⟩
  have hfuel : m ≤ 0 + 2 ^ m := by
    rw [Nat.zero_add]
    exact Nat.le_of_lt Nat.lt_two_pow_self
  have hfrom := inner_fwhtFrom (Nat.zero_le m) hfuel hx hy
  refine ⟨_, _, ?_, ?_, hfrom⟩
  · rw [fwht, hx, if_pos hpow]
    rfl
  · rw [fwht, hy, if_pos hpow]
    rfl

theorem inner_forChunks {m : Nat} (n : Nat) {x y : List R} (hx : x.length = n * 2 ^ m) (hy : y.length = n * 2 ^ m) :
    ∃ x' y', forChunks (2 ^ m) fwht n x = some x' ∧ forChunks (2 ^ m) fwht n y = some y' ∧
      inner x' y' = 2 ^ m * inner x y ∧ x'.length = n * 2 ^ m ∧ y'.length = n * 2 ^ m := by
  induction n generalizing x y with
  | zero =>
    rw [Nat.zero_mul] at hx hy
    rw [List.length_eq_zero_iff.mp hx, List.length_eq_zero_iff.mp hy]
    exact ⟨[], [], rfl, rfl, (mul_zero _).symm, (Nat.zero_mul _).symm, (Nat.zero_mul _).symm⟩
  | succ n ih =>
    rw [Nat.add_mul, Nat.one_mul] at hx hy
    have htake : ∀ {z : List R}, z.length = n * 2 ^ m + 2 ^ m → (z.take (2 ^ m)).length = 2 ^ m := by
      intro z hz
      rw [List.length_take, hz]
      omega
    have hdrop : ∀ {z : List R}, z.length = n * 2 ^ m + 2 ^ m → (z.drop (2 ^ m)).length = n * 2 ^ m := by
      intro z hz
      rw [List.length_drop, hz, Nat.add_sub_cancel]
    obtain ⟨a, b, ha, hb, hinner, hlena, hlenb⟩ := inner_fwht (htake hx) (htake hy)
    obtain ⟨c, d, hc, hdd, hrest, hlenc, hlend⟩ := ih (hdrop hx) (hdrop hy)
    refine ⟨a ++ c, b ++ d, ?_, ?_, ?_, ?_, ?_⟩
    · rw [forChunks, ha, hc]
      rfl
    · rw [forChunks, hb, hdd]
      rfl
    · have hsplit := inner_append ((htake hx).trans (htake hy).symm) (x.drop (2 ^ m)) (y.drop (2 ^ m))
      rw [List.take_append_drop, List.take_append_drop] at hsplit
      rw [inner_append (hlena.trans hlenb.symm), hinner, hrest, hsplit, mul_add]
    · rw [List.length_append, hlena, hlenc, Nat.add_mul, Nat.one_mul, Nat.add_comm]
    · rw [List.length_append, hlenb, hlend, Nat.add_mul, Nat.one_mul, Nat.add_comm]

/-! ### Sign flips -/

theorem getD_foldl_flips (x : List R) (p : Nat → Prop) [DecidablePred p] (m k : Nat) :
    ((List.range m).foldl (fun x i => if p i then x.modify i Neg.neg else x) x).getD k 0 =
      if k < m ∧ p k then -x.getD k 0 else x.getD k 0 := by
  induction m with
  | zero => rw [if_neg (fun h => Nat.not_lt_zero k h.1)]; rfl
  | succ m ih =>
    rw [List.range_succ, List.foldl_append, List.foldl_cons, List.foldl_nil]
    by_cases hkm : k = m
    · subst hkm
      rw [if_neg (fun h => Nat.lt_irrefl k h.1)] at ih
      by_cases hp : p k
      · rw [if_pos hp, if_pos ⟨Nat.lt_succ_self k, hp⟩, ← ih, List.getD_eq_getElem?_getD, List.getD_eq_getElem?_getD,
          List.getElem?_modify_eq]
        cases ((List.range k).foldl (fun x i => if p i then x.modify i Neg.neg else x) x)[k]? with
        | none => exact neg_zero.symm
        | some a => rfl
      · rw [if_neg hp, if_neg (fun h => hp h.2), ih]
    · have hsucc : k < m + 1 ↔ k < m := by omega
      have hother : (if p m then ((List.range m).foldl (fun x i => if p i then x.modify i Neg.neg else x) x).modify m
          Neg.neg else (List.range m).foldl (fun x i => if p i then x.modify i Neg.neg else x) x).getD k 0 =
            ((List.range m).foldl (fun x i => if p i then x.modify i Neg.neg else x) x).getD k 0 := by
        split
        · rw [List.getD_eq_getElem?_getD, List.getElem?_modify_ne _ _ (Ne.symm hkm), ← List.getD_eq_getElem?_getD]
        · rfl
      rw [hother, ih]
      simp only [hsucc]

theorem length_foldl_flips (x : List R) (p : Nat → Prop) [DecidablePred p] (l : List Nat) :
    (l.foldl (fun x i => if p i then x.modify i Neg.neg else x) x).length = x.length := by
  induction l generalizing x with
  | nil => rfl
  | cons i l ih =>
    rw [List.foldl_cons, ih]
    split
    · exact List.length_modify _ _ _
    · rfl

theorem inner_flipSigns {x y : List R} (hlen : x.length = y.length) {mask : List UInt8}
    (hmask : (x.length + 7) / 8 ≤ mask.length) :
    ∃ x' y', flipSigns x mask = some x' ∧ flipSigns y mask = some y' ∧ inner x' y' = inner x y ∧
      x'.length = x.length ∧ y'.length = x.length := by
  have hy : ¬ mask.length < (y.length + 7) / 8 := hlen ▸ Nat.not_lt.mpr hmask
  refine ⟨_, _, if_neg (Nat.not_lt.mpr hmask), if_neg hy, ?_, length_foldl_flips x _ _,
    (length_foldl_flips y _ _).trans hlen.symm⟩
  rw [inner_eq_sum (by rw [length_foldl_flips, length_foldl_flips, hlen]), inner_eq_sum hlen, length_foldl_flips]
  refine Finset.sum_congr rfl fun k hk => ?_
  have hk' := Finset.mem_range.mp hk
  rw [getD_foldl_flips, getD_foldl_flips, ← hlen]
  split
  · exact neg_mul_neg _ _
  · rfl

end Simd

namespace Vector

open Simd (inner)

variable {R : Type} [CommRing R]

/-! ### Rotations -/

theorem largestPow2FactorFrom_spec {fuel p m : Nat} (hm : 0 < m) (hfuel : m ≤ fuel) :
    ∃ k, largestPow2FactorFrom fuel p m = p * 2 ^ k ∧ 2 ^ k ∣ m ∧ ¬ 2 ^ (k + 1) ∣ m := by
  induction fuel generalizing p m with
  | zero => omega
  | succ fuel ih =>
    rw [largestPow2FactorFrom]
    by_cases heven : m % 2 = 0
    · obtain ⟨k, hk, hdvd, hnot⟩ := @ih (p * 2) (m / 2) (by omega) (by omega)
      have hm2 : m = 2 * (m / 2) := by omega
      refine ⟨k + 1, ?_, ?_, ?_⟩
      · rw [if_pos heven, hk, Nat.pow_succ, Nat.mul_assoc, Nat.mul_comm 2]
      · rw [hm2, Nat.pow_succ, Nat.mul_comm]
        exact Nat.mul_dvd_mul_left 2 hdvd
      · rw [hm2, Nat.pow_succ, Nat.mul_comm]
        exact fun h => hnot (Nat.dvd_of_mul_dvd_mul_left (by decide) h)
    · refine ⟨0, ?_, Nat.one_dvd m, fun h => heven (Nat.mod_eq_zero_of_dvd h)⟩
      rw [if_neg heven, Nat.pow_zero, Nat.mul_one]

theorem largestPow2Factor_spec {n : Nat} (hn : 0 < n) :
    ∃ k, largestPow2Factor n = 2 ^ k ∧ 2 ^ k ∣ n ∧ ¬ 2 ^ (k + 1) ∣ n := by
  obtain ⟨k, hk, hdvd⟩ := largestPow2FactorFrom_spec (p := 1) hn (Nat.le_refl n)
  refine ⟨k, ?_, hdvd⟩
  rw [largestPow2Factor, if_neg (Nat.ne_of_gt hn), hk, Nat.one_mul]

namespace FastRotation

/-- A round multiplies the inner product by the block length. -/
theorem inner_round {r : FastRotation R} {m n : Nat} (hblock : r.block = 2 ^ m) {k : Fin 3} {x y : List R}
    (hx : x.length = n * 2 ^ m) (hy : y.length = n * 2 ^ m) (hmask : (n * 2 ^ m + 7) / 8 ≤ (r.signMasks k).length) :
    ∃ x' y', r.round x k = some x' ∧ r.round y k = some y' ∧ inner x' y' = 2 ^ m * inner x y ∧
      x'.length = n * 2 ^ m ∧ y'.length = n * 2 ^ m := by
  obtain ⟨a, b, ha, hb, hflip, hlena, hlenb⟩ := Simd.inner_flipSigns (hx.trans hy.symm) (hx.symm ▸ hmask)
  obtain ⟨x', y', hx', hy', hinner, hlens⟩ := Simd.inner_forChunks n (hlena.trans hx) (hlenb.trans hx)
  have hcount : n * 2 ^ m / 2 ^ m = n := Nat.mul_div_cancel n (Nat.two_pow_pos m)
  refine ⟨x', y', ?_, ?_, hinner.trans (by rw [hflip]), hlens⟩
  · rw [round, ha]
    simp only [Option.bind_eq_bind, Option.bind_some, hblock, hlena, hx, hcount]
    exact hx'
  · rw [round, hb]
    simp only [Option.bind_eq_bind, Option.bind_some, hblock, hlenb, hx, hcount]
    exact hy'

theorem inner_rounds {r : FastRotation R} {m n : Nat} (hblock : r.block = 2 ^ m) {x y : List R}
    (hx : x.length = n * 2 ^ m) (hy : y.length = n * 2 ^ m)
    (hmask : ∀ k, (n * 2 ^ m + 7) / 8 ≤ (r.signMasks k).length) :
    ∃ x' y', r.rounds x = some x' ∧ r.rounds y = some y' ∧ inner x' y' = (2 ^ m) ^ 3 * inner x y := by
  obtain ⟨x₁, y₁, hx₁, hy₁, h₁, hlx₁, hly₁⟩ := inner_round hblock hx hy (hmask 0)
  obtain ⟨x₂, y₂, hx₂, hy₂, h₂, hlx₂, hly₂⟩ := inner_round hblock hlx₁ hly₁ (hmask 1)
  obtain ⟨x₃, y₃, hx₃, hy₃, h₃, -, -⟩ := inner_round hblock hlx₂ hly₂ (hmask 2)
  refine ⟨x₃, y₃, ?_, ?_, ?_⟩
  · rw [rounds, hx₁]
    simp only [Option.bind_eq_bind, Option.bind_some, hx₂]
    exact hx₃
  · rw [rounds, hy₁]
    simp only [Option.bind_eq_bind, Option.bind_some, hy₂]
    exact hy₃
  · rw [h₃, h₂, h₁]
    ring

/-- The rounds multiply inner products by the cube of the block length, which the scale takes back. -/
theorem rotation_orthogonal {dim : Nat} (hpos : 0 < dim) (heven : dim % 2 = 0) {masks : Fin 3 → List UInt8}
    (hmasks : ∀ k, (masks k).length = (dim + 7) / 8) (scale : R) :
    ∃ r, FastRotation.new dim masks scale = some r ∧
      (∃ k, r.block = 2 ^ k ∧ 2 ^ k ∣ dim ∧ ¬ 2 ^ (k + 1) ∣ dim) ∧
      ∀ x y : List R, x.length = dim → y.length = dim →
        (∃ x' y', r.rounds x = some x' ∧ r.rounds y = some y' ∧ inner x' y' = (r.block : R) ^ 3 * inner x y) ∧
        (scale ^ 2 * r.block = 1 →
          ∃ x' y', r.apply x = some x' ∧ r.apply y = some y' ∧ inner x' y' = inner x y) := by
  obtain ⟨m, hm, hdvd, hnot⟩ := largestPow2Factor_spec hpos
  have htwo : 2 ≤ 2 ^ m := by
    cases m with
    | zero => exact absurd (Nat.dvd_of_mod_eq_zero heven) hnot
    | succ m => exact Nat.le_self_pow (Nat.succ_ne_zero m) 2
  have hguard : ¬ (dim = 0 ∨ largestPow2Factor dim < 2) := by
    rw [hm]
    omega
  refine ⟨⟨dim, 2 ^ m, masks, scale⟩, ?_, ⟨m, rfl, hdvd, hnot⟩, fun x y hx hy => ?_⟩
  · rw [FastRotation.new, if_neg hguard, hm]
  · obtain ⟨n, hn⟩ := hdvd
    rw [Nat.mul_comm] at hn
    have hmask : ∀ k, (n * 2 ^ m + 7) / 8 ≤ (masks k).length := fun k => by rw [hmasks, hn]
    obtain ⟨x', y', hx', hy', hinner⟩ := inner_rounds (r := ⟨dim, 2 ^ m, masks, scale⟩) rfl (hx.trans hn)
      (hy.trans hn) hmask
    rw [Nat.cast_pow, Nat.cast_ofNat]
    refine ⟨⟨x', y', hx', hy', hinner⟩, fun hscale => ?_⟩
    refine ⟨x'.map (· * scale ^ 3), y'.map (· * scale ^ 3), ?_, ?_, ?_⟩
    · rw [apply, if_neg (not_not.mpr hx), hx', Option.map_some]
    · rw [apply, if_neg (not_not.mpr hy), hy', Option.map_some]
    · calc inner (x'.map (· * scale ^ 3)) (y'.map (· * scale ^ 3))
          = (scale ^ 2 * 2 ^ m) ^ 3 * inner x y := by
            rw [Simd.inner_map_mul, hinner]
            ring
        _ = inner x y := by rw [hscale, one_pow, one_mul]

/-- One block of four, where the scale is the rational `1 / 2`. -/
theorem rotation_orthogonal_four :
    0 < 4 ∧ 4 % 2 = 0 ∧ ∃ r, FastRotation.new 4 (fun _ => [0x0a]) (1 / 2 : ℚ) = some r ∧
      (1 / 2 : ℚ) ^ 2 * r.block = 1 ∧
      ∀ x y : List ℚ, x.length = 4 → y.length = 4 →
        (∃ x' y', r.rounds x = some x' ∧ r.rounds y = some y' ∧ inner x' y' = (r.block : ℚ) ^ 3 * inner x y) ∧
        ∃ x' y', r.apply x = some x' ∧ r.apply y = some y' ∧ inner x' y' = inner x y := by
  have hmasks : ∀ k : Fin 3, ((fun _ => [0x0a]) k : List UInt8).length = (4 + 7) / 8 := fun _ => rfl
  obtain ⟨r, hr, ⟨k, hk, hdvd, hnot⟩, h⟩ := rotation_orthogonal (show 0 < 4 by decide) (by decide) hmasks (1 / 2 : ℚ)
  have hfour : k = 2 := by
    rw [show 4 = 2 ^ 2 from rfl, Nat.pow_dvd_pow_iff_le_right (by decide)] at hdvd hnot
    omega
  have hscale : (1 / 2 : ℚ) ^ 2 * r.block = 1 := by
    rw [hk, hfour]
    norm_num
  exact ⟨by decide, by decide, r, hr, hscale, fun x y hx hy => ⟨(h x y hx hy).1, (h x y hx hy).2 hscale⟩⟩

end FastRotation

end Vector

end Skeg
