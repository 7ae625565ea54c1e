import Skeg.Simd.Equiv.Adc
import Skeg.Vector.Quant
import Mathlib.Algebra.BigOperators.Group.Finset.Sigma
import Mathlib.Algebra.BigOperators.Ring.Finset
import Mathlib.Algebra.Order.BigOperators.Group.Finset
import Mathlib.Tactic.Ring

/-!
# Packed codes and bit planes

Packing the bucket of a coordinate sets the bits of that coordinate (`codeBit_turboquantPack`), and `code_index` reads them
back (`codeIndex_packBuckets`).  Bit `i` of plane `p` is bit `p` of level `i` (`codeBit_bitPlanes`); the score of a 1-bit
code exchanges the sum over its set bits with the sum over the planes.
-/

namespace Skeg

namespace Vector

open Simd (codeBit codeIndex PackedWidth)

theorem length_turboquantPack (code : List UInt8) (i bucket bits : Nat) :
    (turboquantPack code i bucket bits).length = code.length := List.length_modify _ _ _

theorem testBit_or_shiftLeft (x : UInt8) {bucket shift q : Nat} (hbucket : bucket < 256) (hshift : shift < 8)
    (hq : q < 8) :
    (x ||| UInt8.ofNat bucket <<< UInt8.ofNat shift).toNat.testBit q =
      (x.toNat.testBit q || decide (shift ≤ q) && bucket.testBit (q - shift)) := by
  rw [UInt8.toNat_or, Nat.testBit_or, UInt8.toNat_shiftLeft, UInt8.toNat_ofNat_of_lt' hbucket,
    UInt8.toNat_ofNat_of_lt' (Nat.lt_trans hshift (by decide)), Nat.mod_eq_of_lt hshift, Nat.testBit_mod_two_pow,
    Nat.testBit_shiftLeft]
  simp only [hq, decide_true, Bool.true_and, ge_iff_le]

/-- The bucket goes into the bits of its coordinate, and nothing else changes. -/
theorem codeBit_turboquantPack {bits : Nat} (h : PackedWidth bits) {code : List UInt8} {i bucket : Nat}
    (hi : i / (8 / bits) < code.length) (hbucket : bucket < 2 ^ bits) (p : Nat) :
    codeBit (turboquantPack code i bucket bits) p =
      (codeBit code p || decide (p / bits = i) && bucket.testBit (p % bits)) := by
  have hshift := h.shift_lt i
  have hpos := h.pos
  have hmod : p % bits < bits := Nat.mod_lt p hpos
  obtain ⟨hp8, hpm⟩ := h.place (p / bits) hmod
  rw [Nat.div_add_mod' p bits] at hp8 hpm
  rw [codeBit, codeBit, turboquantPack, List.getD_eq_getElem?_getD, List.getD_eq_getElem?_getD, List.getElem?_modify]
  by_cases hbyte : i / (8 / bits) = p / 8
  · have hbucket' : bucket < 256 :=
      Nat.lt_of_lt_of_le hbucket (Nat.pow_le_pow_right (by decide) (show bits ≤ 8 by omega))
    simp only [hbyte, if_true]
    rw [List.getElem?_eq_getElem (hbyte ▸ hi)]
    refine (testBit_or_shiftLeft _ hbucket' (by omega) (Nat.mod_lt p (by decide))).trans ?_
    congr 1
    by_cases hcoord : p / bits = i
    · -- the bits of this coordinate
      rw [hcoord] at hpm
      rw [hpm, Nat.add_sub_cancel_left]
      simp [hcoord]
    · -- those of another coordinate in the same byte, below or above
      simp only [hcoord, decide_false, Bool.false_and]
      by_cases hle : i % (8 / bits) * bits ≤ p % 8
      · have hge : bits ≤ p % 8 - i % (8 / bits) * bits := by
          by_contra hlt
          exact hcoord (h.coordinate hbyte hle (by omega))
        rw [Nat.testBit_lt_two_pow (Nat.lt_of_lt_of_le hbucket (Nat.pow_le_pow_right (by decide) hge)), Bool.and_false]
      · simp only [hle, decide_false, Bool.false_and]
  · -- another byte
    have hne : p / bits ≠ i := by
      rintro rfl
      exact hbyte hp8.symm
    simp [hbyte, hne]

/-- Packing coordinates from the `k`-th on. -/
theorem codeBit_foldl_pack {bits : Nat} (h : PackedWidth bits) (buckets : List Nat) (k : Nat) {code : List UInt8}
    (hlen : (k + buckets.length) * bits ≤ code.length * 8) (hbuckets : ∀ b ∈ buckets, b < 2 ^ bits)
    (hclear : ∀ p, k ≤ p / bits → codeBit code p = false) (p : Nat) :
    codeBit ((buckets.zipIdx k).foldl (fun code e => turboquantPack code e.2 e.1 bits) code) p =
      if p / bits < k then codeBit code p else (buckets.getD (p / bits - k) 0).testBit (p % bits) := by
  induction buckets generalizing k code with
  | nil =>
    by_cases hp : p / bits < k
    · rw [if_pos hp]
      rfl
    · rw [if_neg hp]
      exact (hclear p (Nat.le_of_not_lt hp)).trans (by simp)
  | cons b buckets ih =>
    rw [List.zipIdx_cons, List.foldl_cons]
    have hk : k / (8 / bits) < code.length := by
      rw [List.length_cons] at hlen
      rcases h with rfl | rfl | rfl <;> omega
    have hpack := codeBit_turboquantPack h hk (hbuckets b List.mem_cons_self)
    rw [ih (k + 1)]
    · rw [hpack]
      by_cases hlt : p / bits < k
      · have hne : p / bits ≠ k := Nat.ne_of_lt hlt
        simp [hlt, Nat.lt_succ_of_lt hlt, hne]
      · by_cases heq : p / bits = k
        · rw [hclear p (Nat.le_of_eq heq.symm)]
          simp [heq]
        · have hnot : ¬ p / bits < k + 1 := by omega
          rw [if_neg hlt, if_neg hnot, show p / bits - k = p / bits - (k + 1) + 1 by omega, List.getD_cons_succ]
    · rw [length_turboquantPack]
      rw [List.length_cons] at hlen
      rwa [Nat.add_assoc, Nat.add_comm 1]
    · exact fun b' hb' => hbuckets b' (List.mem_cons_of_mem _ hb')
    · intro q hq
      rw [hpack, hclear q (by omega)]
      simp [show q / bits ≠ k by omega]

/-- `code_index` reads what was packed. -/
theorem codeIndex_packBuckets {bits : Nat} (h : PackedWidth bits) {buckets : List Nat}
    (hbuckets : ∀ b ∈ buckets, b < 2 ^ bits) (hdim : 8 ∣ buckets.length * bits) {i : Nat} (hi : i < buckets.length) :
    codeIndex bits (packBuckets bits buckets) i = buckets[i] := by
  refine Nat.eq_of_testBit_eq fun j => ?_
  rw [Simd.testBit_codeIndex h]
  have hroom : (0 + buckets.length) * bits ≤ (List.replicate (buckets.length * bits / 8) (0 : UInt8)).length * 8 :=
    Nat.le_of_eq (by rw [List.length_replicate, Nat.zero_add, Nat.div_mul_cancel hdim])
  have hpack := codeBit_foldl_pack h buckets 0 hroom hbuckets (fun p _ => Simd.codeBit_replicate _ p) (i * bits + j)
  by_cases hj : j < bits
  · have hdiv : (i * bits + j) / bits = i := by
      rw [Nat.add_comm, Nat.add_mul_div_right _ _ h.pos, Nat.div_eq_of_lt hj, Nat.zero_add]
    have hmod : (i * bits + j) % bits = j := by
      rw [Nat.add_comm, Nat.add_mul_mod_self_right, Nat.mod_eq_of_lt hj]
    rw [hdiv, hmod, if_neg (Nat.not_lt_zero i), Nat.sub_zero, List.getD_eq_getElem?_getD,
      List.getElem?_eq_getElem hi, Option.getD_some] at hpack
    rw [packBuckets, hpack]
    simp [hj]
  · have hlt := hbuckets _ (List.getElem_mem hi)
    rw [Nat.testBit_lt_two_pow (Nat.lt_of_lt_of_le hlt (Nat.pow_le_pow_right (by decide) (Nat.le_of_not_lt hj)))]
    simp [hj]

theorem length_packBuckets (bits : Nat) (buckets : List Nat) :
    (packBuckets bits buckets).length = buckets.length * bits / 8 := by
  suffices hfold : ∀ (l : List (Nat × Nat)) (code : List UInt8),
      (l.foldl (fun code e => turboquantPack code e.2 e.1 bits) code).length = code.length by
    rw [packBuckets, hfold, List.length_replicate]
  intro l
  induction l with
  | nil => exact fun code => rfl
  | cons e l ih => exact fun code => (ih _).trans (length_turboquantPack code e.2 e.1 bits)

/-! ### Bit planes -/

theorem shiftRight_and_one (q p : Nat) : q >>> p &&& 1 = 1 ↔ q.testBit p = true := by
  rw [Nat.testBit, bne_iff_ne, Nat.and_comm]
  have := Nat.and_one_is_mod (q >>> p)
  rw [Nat.and_comm] at this
  omega

theorem plane_place (bytes p i : Nat) :
    (p * (8 * bytes) + i) / 8 = p * bytes + i / 8 ∧ (p * (8 * bytes) + i) % 8 = i % 8 := by
  rw [Nat.mul_left_comm]
  omega

/-- Setting bit `i` of plane `p`. -/
theorem codeBit_setBit {planes : List UInt8} {bytes p i : Nat} (hlt : p * bytes + i / 8 < planes.length) (k : Nat) :
    codeBit (planes.modify (p * bytes + i / 8) fun byte => byte ||| 1 <<< UInt8.ofNat (i % 8)) k =
      (codeBit planes k || decide (k = p * (8 * bytes) + i)) := by
  obtain ⟨hbyte, hbit⟩ := plane_place bytes p i
  -- it packs bucket 1 at width 1
  have hpack : turboquantPack planes (p * (8 * bytes) + i) 1 1 =
      planes.modify (p * bytes + i / 8) fun byte => byte ||| 1 <<< UInt8.ofNat (i % 8) := by
    rw [turboquantPack, Nat.div_one, hbyte, hbit, Nat.mul_one]
    rfl
  have hwidth : PackedWidth 1 := .inl rfl
  have hin : (p * (8 * bytes) + i) / (8 / 1) < planes.length := by rwa [Nat.div_one, hbyte]
  have hset := codeBit_turboquantPack hwidth hin (show 1 < 2 ^ 1 by decide) k
  rw [hpack] at hset
  rw [hset, Nat.div_one, Nat.mod_one]
  simp

theorem length_foldl_planes (q bytes i : Nat) (ps : List Nat) (planes : List UInt8) :
    (ps.foldl (fun planes p =>
        if q >>> p &&& 1 = 1 then planes.modify (p * bytes + i / 8) fun byte => byte ||| 1 <<< UInt8.ofNat (i % 8)
        else planes) planes).length = planes.length := by
  induction ps generalizing planes with
  | nil => rfl
  | cons p ps ih =>
    rw [List.foldl_cons, ih]
    split
    · exact List.length_modify _ _ _
    · rfl

theorem plane_inj {d p m i j : Nat} (hi : i < d) (hj : j < d) : p * d + j = m * d + i ↔ p = m ∧ j = i := by
  constructor
  · intro h
    have hpos : 0 < d := Nat.lt_of_le_of_lt (Nat.zero_le i) hi
    have hdiv := congrArg (· / d) h
    simp only [Nat.add_comm _ j, Nat.add_comm _ i, Nat.add_mul_div_right _ _ hpos, Nat.div_eq_of_lt hi,
      Nat.div_eq_of_lt hj, Nat.zero_add] at hdiv
    subst hdiv
    exact ⟨rfl, Nat.add_left_cancel h⟩
  · rintro ⟨rfl, rfl⟩
    rfl

/-- The loop over the planes of one level. -/
theorem codeBit_foldl_planes {planes : List UInt8} {bytes b i : Nat} (q : Nat) (hi : i < 8 * bytes) {m : Nat}
    (hm : m ≤ b) (hlen : planes.length = b * bytes) {p j : Nat} (hj : j < 8 * bytes) :
    codeBit ((List.range m).foldl (fun planes p =>
        if q >>> p &&& 1 = 1 then planes.modify (p * bytes + i / 8) fun byte => byte ||| 1 <<< UInt8.ofNat (i % 8)
        else planes) planes) (p * (8 * bytes) + j) =
      (codeBit planes (p * (8 * bytes) + j) || decide (j = i ∧ p < m) && q.testBit p) := by
  induction m with
  | zero => simp
  | succ m ih =>
    have hlt : m * bytes + i / 8 < b * bytes := by
      have hrow : (m + 1) * bytes ≤ b * bytes := Nat.mul_le_mul_right bytes hm
      rw [Nat.add_mul] at hrow
      omega
    have hlen' := (length_foldl_planes q bytes i (List.range m) planes).trans hlen
    rw [List.range_succ, List.foldl_append, List.foldl_cons, List.foldl_nil]
    by_cases hq : q >>> m &&& 1 = 1
    · rw [if_pos hq, codeBit_setBit (by rwa [hlen']), ih (Nat.le_of_succ_le hm), Bool.or_assoc]
      congr 1
      rw [shiftRight_and_one] at hq
      simp only [plane_inj hi hj]
      by_cases hpm : p = m
      · subst hpm
        by_cases hji : j = i <;> simp [hji, hq]
      · have hsucc : p < m + 1 ↔ p < m := by omega
        simp [hpm, hsucc]
    · rw [if_neg hq, ih (Nat.le_of_succ_le hm)]
      rw [shiftRight_and_one, Bool.not_eq_true] at hq
      congr 1
      by_cases hpm : p = m
      · subst hpm
        simp [hq]
      · have hsucc : p < m + 1 ↔ p < m := by omega
        simp [hsucc]

/-- The loop over the levels from the `k`-th on. -/
theorem codeBit_foldl_levels {bytes b : Nat} (levels : List Nat) (k : Nat) (hk : k + levels.length ≤ 8 * bytes)
    {planes : List UInt8} (hlen : planes.length = b * bytes) {p j : Nat} (hp : p < b) (hj : j < 8 * bytes) :
    codeBit ((levels.zipIdx k).foldl (fun planes e => (List.range b).foldl (fun planes p =>
        if e.1 >>> p &&& 1 = 1 then planes.modify (p * bytes + e.2 / 8) fun byte => byte ||| 1 <<< UInt8.ofNat (e.2 % 8)
        else planes) planes) planes) (p * (8 * bytes) + j) =
      (codeBit planes (p * (8 * bytes) + j) || decide (k ≤ j) && (levels.getD (j - k) 0).testBit p) := by
  induction levels generalizing k planes with
  | nil => simp
  | cons q levels ih =>
    rw [List.length_cons] at hk
    rw [List.zipIdx_cons, List.foldl_cons, ih (k + 1) (by omega) ((length_foldl_planes q bytes k _ planes).trans hlen),
      codeBit_foldl_planes q (by omega) (Nat.le_refl b) hlen hj, Bool.or_assoc]
    congr 1
    by_cases hjk : j = k
    · subst hjk
      simp [hp]
    · by_cases hle : k ≤ j
      · have hsub : j - k = j - (k + 1) + 1 := by omega
        simp [hjk, hle, hsub, show k + 1 ≤ j by omega]
      · simp [hjk, hle, show ¬ k + 1 ≤ j by omega]

theorem codeBit_bitPlanes {bytes b : Nat} {levels : List Nat} (hlen : levels.length = 8 * bytes) {p j : Nat} (hp : p < b)
    (hj : j < 8 * bytes) :
    codeBit (bitPlanes b bytes levels) (p * (8 * bytes) + j) = (levels.getD j 0).testBit p := by
  rw [bitPlanes, codeBit_foldl_levels levels 0 (by omega) List.length_replicate hp hj, Simd.codeBit_replicate]
  simp

theorem length_bitPlanes (b bytes : Nat) (levels : List Nat) : (bitPlanes b bytes levels).length = b * bytes := by
  suffices hfold : ∀ (l : List (Nat × Nat)) (planes : List UInt8),
      (l.foldl (fun planes e => (List.range b).foldl (fun planes p =>
        if e.1 >>> p &&& 1 = 1 then planes.modify (p * bytes + e.2 / 8) fun byte => byte ||| 1 <<< UInt8.ofNat (e.2 % 8)
        else planes) planes) planes).length = planes.length by
    rw [bitPlanes, hfold, List.length_replicate]
  intro l
  induction l with
  | nil => exact fun planes => rfl
  | cons e l ih => exact fun planes => (ih _).trans (length_foldl_planes e.1 bytes e.2 _ planes)

theorem codeBit_plane (planes : List UInt8) {bytes p i : Nat} (hi : i < 8 * bytes) :
    codeBit ((planes.drop (p * bytes)).take bytes) i = codeBit planes (p * (8 * bytes) + i) := by
  obtain ⟨hbyte, hbit⟩ := plane_place bytes p i
  rw [codeBit, codeBit, hbyte, hbit, List.getD_eq_getElem?_getD, List.getD_eq_getElem?_getD,
    List.getElem?_take_of_lt (by omega), List.getElem?_drop]

/-! ### Scores -/

theorem sum_testBit {q b : Nat} (hq : q < 2 ^ b) : ∑ p ∈ Finset.range b, 2 ^ p * (q.testBit p).toNat = q := by
  suffices hmod : ∀ b, ∑ p ∈ Finset.range b, 2 ^ p * (q.testBit p).toNat = q % 2 ^ b by
    rw [hmod, Nat.mod_eq_of_lt hq]
  intro b
  induction b with
  | zero => rw [Finset.sum_range_zero, Nat.pow_zero, Nat.mod_one]
  | succ b ih => rw [Finset.sum_range_succ, ih, Nat.mod_pow_succ, Nat.toNat_testBit]

theorem foldl_add_mod (f : Nat → Nat) (m b : Nat) :
    (List.range b).foldl (fun acc p => (acc + f p) % m) 0 = (∑ p ∈ Finset.range b, f p) % m := by
  induction b with
  | zero => exact (Nat.zero_mod m).symm
  | succ b ih => rw [List.range_succ, List.foldl_append, List.foldl_cons, List.foldl_nil, ih, Finset.sum_range_succ,
      Nat.mod_add_mod]

section

variable {b bytes : Nat} {levels : List Nat} {code : List UInt8}

/-- The set bits of a code. -/
def setBits (code : List UInt8) : Finset Nat := (Finset.range (8 * code.length)).filter fun i => codeBit code i

theorem sum_setBits (code : List UInt8) (f : Nat → Nat) :
    ∑ i ∈ setBits code, f i = ∑ i ∈ Finset.range (8 * code.length), (codeBit code i).toNat * f i := by
  rw [setBits, Finset.sum_filter]
  refine Finset.sum_congr rfl fun i _ => ?_
  cases codeBit code i <;> simp

/-- The weighted popcounts of the planes are the sum of the levels over the set bits of the code. -/
theorem sum_planes (hlen : levels.length = 8 * bytes) (hlevels : ∀ q ∈ levels, q < 2 ^ b) (hcode : code.length = bytes) :
    ∑ p ∈ Finset.range b, ((((bitPlanes b bytes levels).drop (p * bytes)).take bytes).zip code |>.map
        fun e => Simd.countOnes (e.1 &&& e.2)).sum <<< p = ∑ i ∈ setBits code, levels.getD i 0 := by
  have hplane : ∀ p ∈ Finset.range b, ((((bitPlanes b bytes levels).drop (p * bytes)).take bytes).zip code |>.map
      fun e => Simd.countOnes (e.1 &&& e.2)).sum <<< p =
        ∑ i ∈ Finset.range (8 * bytes), (codeBit code i).toNat * (2 ^ p * ((levels.getD i 0).testBit p).toNat) := by
    intro p hp
    have hp' := Finset.mem_range.mp hp
    have hlength : (((bitPlanes b bytes levels).drop (p * bytes)).take bytes).length = code.length := by
      have hrow : (p + 1) * bytes ≤ b * bytes := Nat.mul_le_mul_right bytes hp'
      rw [Nat.add_mul] at hrow
      rw [List.length_take, List.length_drop, length_bitPlanes, hcode]
      omega
    rw [Simd.sum_countOnes_and hlength, hcode, Nat.shiftLeft_eq, Finset.sum_mul]
    refine Finset.sum_congr rfl fun i hi => ?_
    have hi' := Finset.mem_range.mp hi
    rw [codeBit_plane _ hi', codeBit_bitPlanes hlen hp' hi']
    cases codeBit code i <;> cases (levels.getD i 0).testBit p <;> simp
  rw [Finset.sum_congr rfl hplane, Finset.sum_comm, sum_setBits, hcode]
  refine Finset.sum_congr rfl fun i hi => ?_
  have hi' : i < levels.length := by
    rw [hlen]
    exact Finset.mem_range.mp hi
  have hlevel : levels.getD i 0 < 2 ^ b := by
    rw [List.getD_eq_getElem?_getD, List.getElem?_eq_getElem hi', Option.getD_some]
    exact hlevels _ (List.getElem_mem hi')
  rw [← Finset.mul_sum, sum_testBit hlevel]

theorem sum_setBits_lt (hlen : levels.length = 8 * bytes) (hlevels : ∀ q ∈ levels, q < 2 ^ b)
    (hcode : code.length = bytes) (hb : b ≤ 16) (hdim : 8 * bytes < 2 ^ 32) :
    ∑ i ∈ setBits code, levels.getD i 0 < 2 ^ 64 := by
  have hlevel : ∀ i ∈ setBits code, levels.getD i 0 ≤ 2 ^ 16 := by
    intro i _
    rw [List.getD_eq_getElem?_getD]
    cases hi : levels[i]? with
    | none => exact Nat.zero_le _
    | some q =>
      exact Nat.le_of_lt (Nat.lt_of_lt_of_le (hlevels q (List.mem_of_getElem? hi))
        (Nat.pow_le_pow_right (by decide) hb))
  have hcard : (setBits code).card ≤ 8 * bytes := by
    rw [← hcode, setBits]
    exact (Finset.card_filter_le _ _).trans (Nat.le_of_eq (Finset.card_range _))
  have hsum := Finset.sum_le_card_nsmul (setBits code) (fun i => levels.getD i 0) _ hlevel
  rw [nsmul_eq_mul, Nat.cast_id] at hsum
  omega

/-- For a dimension, which is a `u32`, neither sum wraps. -/
theorem tq1BitplaneScore_eq (hlen : levels.length = 8 * bytes) (hlevels : ∀ q ∈ levels, q < 2 ^ b)
    (hcode : code.length = bytes) (hb : b ≤ 16) (hdim : 8 * bytes < 2 ^ 32) :
    Simd.tq1BitplaneScore (bitPlanes b bytes levels) b bytes code =
      some (∑ i ∈ setBits code, levels.getD i 0, (setBits code).card) := by
  have hpc : (code.map Simd.countOnes).sum = (setBits code).card := by
    rw [Simd.sum_countOnes, Finset.card_eq_sum_ones, sum_setBits]
    simp only [Nat.mul_one]
  have hcard : (setBits code).card < 2 ^ 32 := by
    refine Nat.lt_of_le_of_lt ?_ hdim
    rw [← hcode, setBits]
    exact (Finset.card_filter_le _ _).trans (Nat.le_of_eq (Finset.card_range _))
  rw [Simd.tq1BitplaneScore, if_neg (by simp [length_bitPlanes, hcode])]
  simp only
  rw [hpc, Nat.mod_eq_of_lt hcard, foldl_add_mod, sum_planes hlen hlevels hcode,
    Nat.mod_eq_of_lt (sum_setBits_lt hlen hlevels hcode hb hdim)]

/-- The sign of a coordinate. -/
def codeSign (code : List UInt8) (i : Nat) : ℚ := if codeBit code i then 1 else -1

/-- The sum over the signs, from the sums over the set bits and over all. -/
theorem sum_codeSign (code : List UInt8) (f : Nat → ℚ) :
    ∑ i ∈ Finset.range (8 * code.length), codeSign code i * f i =
      2 * ∑ i ∈ setBits code, f i - ∑ i ∈ Finset.range (8 * code.length), f i := by
  rw [setBits, Finset.sum_filter, Finset.mul_sum, ← Finset.sum_sub_distrib]
  refine Finset.sum_congr rfl fun i _ => ?_
  rw [codeSign]
  by_cases hbit : codeBit code i = true
  · rw [if_pos hbit, if_pos hbit]
    ring
  · rw [if_neg hbit, if_neg hbit]
    ring

theorem sum_getD (levels : List Nat) : ∑ i ∈ Finset.range levels.length, levels.getD i 0 = levels.sum := by
  induction levels with
  | nil => rfl
  | cons q levels ih =>
    rw [List.length_cons, Finset.sum_range_succ', List.sum_cons, Nat.add_comm, List.getD_cons_zero]
    simp only [List.getD_cons_succ, ih]

end

theorem bitPlaneDot_eq {b bytes : Nat} {levels : List Nat} {code : List UInt8} (hlen : levels.length = 8 * bytes)
    (hlevels : ∀ q ∈ levels, q < 2 ^ b) (hcode : code.length = bytes) (hb : b ≤ 16) (hdim : 8 * bytes < 2 ^ 32)
    (m s qm : ℚ) :
    bitPlaneDot ⟨bitPlanes b bytes levels, b, bytes, m, s, levels.sum, qm⟩ code =
      some (∑ i ∈ Finset.range (8 * bytes), codeSign code i * (m + s * levels.getD i 0)) := by
  rw [bitPlaneDot, tq1BitplaneScore_eq hlen hlevels hcode hb hdim, Option.map_some]
  refine congrArg some ?_
  rw [← hcode, sum_codeSign, ← sum_getD, hlen, ← hcode, Finset.sum_add_distrib, Finset.sum_add_distrib,
    Finset.sum_const, Finset.sum_const, Finset.card_range, ← Finset.mul_sum, ← Finset.mul_sum]
  simp only [nsmul_eq_mul]
  push_cast
  ring

/-- What a query becomes: planes of levels of `b` bits, with their sum. -/
theorem quantizeBitPlane_levels (b : Nat) (qPlus : List ℚ) (qm : ℚ) :
    ∃ levels : List Nat, levels.length = qPlus.length ∧ (∀ q ∈ levels, q < 2 ^ b) ∧ ∃ m s : ℚ,
      quantizeBitPlane b qPlus qm =
        ⟨bitPlanes b ((qPlus.length + 7) / 8) levels, b, (qPlus.length + 7) / 8, m, s, levels.sum, qm⟩ := by
  refine ⟨_, List.length_map _, fun q hq => ?_, _, _, rfl⟩
  obtain ⟨x, -, rfl⟩ := List.mem_map.mp hq
  have hpos : 0 < 2 ^ b := Nat.two_pow_pos b
  omega

/-- The kernel counts the levels over the set bits of the code and the set bits, and the proxy makes of them the inner
product of the signs and the rounded query; the levels of a query are of this kind. -/
theorem bitplane_identity (dim : UInt32) {b bytes : Nat} (hdim : dim.toNat = 8 * bytes) (hb : 1 ≤ b ∧ b ≤ 16)
    {code : List UInt8} (hcode : code.length = bytes) :
    (∀ levels : List Nat, levels.length = dim.toNat → (∀ q ∈ levels, q < 2 ^ b) →
      Simd.tq1BitplaneScore (bitPlanes b bytes levels) b bytes code =
        some (∑ i ∈ setBits code, levels.getD i 0, (setBits code).card) ∧
      ∀ m s qm : ℚ, bitPlaneDot ⟨bitPlanes b bytes levels, b, bytes, m, s, levels.sum, qm⟩ code =
        some (∑ i ∈ Finset.range dim.toNat, codeSign code i * (m + s * levels.getD i 0))) ∧
    ∀ (qPlus : List ℚ) (qm : ℚ), qPlus.length = dim.toNat →
      ∃ levels : List Nat, levels.length = dim.toNat ∧ (∀ q ∈ levels, q < 2 ^ b) ∧ ∃ m s : ℚ,
        quantizeBitPlane b qPlus qm = ⟨bitPlanes b bytes levels, b, bytes, m, s, levels.sum, qm⟩ := by
  have hlt : 8 * bytes < 2 ^ 32 := hdim ▸ dim.toNat_lt
  rw [hdim]
  constructor
  · intro levels hlen hlevels
    exact ⟨tq1BitplaneScore_eq hlen hlevels hcode hb.2 hlt, bitPlaneDot_eq hlen hlevels hcode hb.2 hlt⟩
  · intro qPlus qm hlen
    obtain ⟨levels, hlength, hlevels, hquery⟩ := quantizeBitPlane_levels b qPlus qm
    rw [hlen, show (8 * bytes + 7) / 8 = bytes by omega] at hquery
    exact ⟨levels, hlength.trans hlen, hlevels, hquery⟩

theorem bitplane_identity_alternating :
    Simd.tq1BitplaneScore (bitPlanes 3 1 [0, 1, 2, 3, 4, 5, 6, 7]) 3 1 [0x55] =
      some (∑ i ∈ setBits [0x55], [0, 1, 2, 3, 4, 5, 6, 7].getD i 0, (setBits [0x55]).card) :=
  have hdim : (8 : UInt32).toNat = 8 * 1 := rfl
  have hb : 1 ≤ 3 ∧ 3 ≤ 16 := by decide
  ((bitplane_identity 8 hdim hb rfl).1 _ rfl (by decide)).1

end Vector

end Skeg
