import Skeg.Simd.Kernels
import Mathlib.Algebra.BigOperators.Group.Finset.Basic

/-!
# Packed codes bit by bit

A packed code is its bits one after the other (`codeBit`): `code_index` reads the bits of a coordinate
(`testBit_codeIndex`), and a sum of popcounts is a sum over them (`sum_countOnes`).
-/

namespace Skeg

namespace Simd

/-- Bit `p` of a code. -/
def codeBit (code : List UInt8) (p : Nat) : Bool := (code.getD (p / 8) 0).toNat.testBit (p % 8)

theorem codeBit_replicate (n p : Nat) : codeBit (List.replicate n 0) p = false := by
  rw [codeBit, List.getD_eq_getElem?_getD, List.getElem?_replicate]
  split <;> simp

/-- The widths of packed codes. -/
def PackedWidth (bits : Nat) : Prop := bits = 1 ∨ bits = 2 ∨ bits = 4

/-- The bits of a coordinate stay within its byte. -/
theorem PackedWidth.place {bits : Nat} (h : PackedWidth bits) (i : Nat) {j : Nat} (hj : j < bits) :
    (i * bits + j) / 8 = i / (8 / bits) ∧ (i * bits + j) % 8 = i % (8 / bits) * bits + j := by
  rcases h with rfl | rfl | rfl <;> omega

theorem PackedWidth.coordinate {bits i p : Nat} (h : PackedWidth bits) (hbyte : i / (8 / bits) = p / 8)
    (hle : i % (8 / bits) * bits ≤ p % 8) (hlt : p % 8 < i % (8 / bits) * bits + bits) : p / bits = i := by
  rcases h with rfl | rfl | rfl <;> omega

theorem PackedWidth.mask {bits : Nat} (h : PackedWidth bits) :
    ((1 <<< UInt8.ofNat bits) - 1 : UInt8).toNat = 2 ^ bits - 1 := by
  rcases h with rfl | rfl | rfl <;> decide

theorem PackedWidth.shift_lt {bits : Nat} (h : PackedWidth bits) (i : Nat) : i % (8 / bits) * bits + bits ≤ 8 := by
  rcases h with rfl | rfl | rfl <;> omega

theorem PackedWidth.pos {bits : Nat} (h : PackedWidth bits) : 0 < bits := by
  rcases h with rfl | rfl | rfl <;> decide

theorem testBit_codeIndex {bits : Nat} (h : PackedWidth bits) (code : List UInt8) (i j : Nat) :
    (codeIndex bits code i).testBit j = (decide (j < bits) && codeBit code (i * bits + j)) := by
  have hshift := h.shift_lt i
  have hlt : i % (8 / bits) * bits < 8 := by
    have := h.pos
    omega
  rw [codeIndex, UInt8.toNat_and, h.mask, Nat.and_two_pow_sub_one_eq_mod, Nat.testBit_mod_two_pow]
  rw [UInt8.toNat_shiftRight, UInt8.toNat_ofNat_of_lt' (Nat.lt_trans hlt (by decide)), Nat.mod_eq_of_lt hlt,
    Nat.testBit_shiftRight]
  by_cases hj : j < bits
  · obtain ⟨hbyte, hbit⟩ := h.place i hj
    rw [codeBit, hbyte, hbit]
  · simp only [hj, decide_false, Bool.false_and]

/-! ### Popcounts -/

theorem countOnes_eq_sum (x : UInt8) : countOnes x = ∑ i ∈ Finset.range 8, (x.toNat.testBit i).toNat := by
  have hbit : ∀ b : Bool, b.toNat = if b = true then 1 else 0 := by
    intro b
    cases b <;> rfl
  rw [countOnes, ← List.countP_eq_length_filter]
  simp only [List.range_succ, List.range_zero, Finset.sum_range_succ, Finset.sum_range_zero, List.countP_append,
    List.countP_cons, List.countP_nil, List.nil_append, hbit, Nat.zero_add]

theorem codeBit_cons (x : UInt8) (code : List UInt8) (i : Nat) :
    codeBit (x :: code) i = if i < 8 then x.toNat.testBit i else codeBit code (i - 8) := by
  by_cases hi : i < 8
  · rw [if_pos hi, codeBit, Nat.div_eq_of_lt hi, Nat.mod_eq_of_lt hi, List.getD_cons_zero]
  · rw [if_neg hi, codeBit, codeBit, show i / 8 = (i - 8) / 8 + 1 by omega, List.getD_cons_succ,
      show (i - 8) % 8 = i % 8 by omega]

theorem sum_countOnes (code : List UInt8) :
    (code.map countOnes).sum = ∑ i ∈ Finset.range (8 * code.length), (codeBit code i).toNat := by
  induction code with
  | nil => rfl
  | cons x code ih =>
    rw [List.map_cons, List.sum_cons, List.length_cons, Nat.mul_succ, Nat.add_comm (8 * code.length),
      Finset.sum_range_add, ih, countOnes_eq_sum]
    refine congrArg₂ (· + ·) ?_ ?_
    · refine Finset.sum_congr rfl fun i hi => ?_
      rw [codeBit_cons, if_pos (Finset.mem_range.mp hi)]
    · refine Finset.sum_congr rfl fun i _ => ?_
      rw [codeBit_cons, if_neg (by omega), Nat.add_sub_cancel_left]

theorem codeBit_zipWith {a code : List UInt8} (hlen : a.length = code.length) (i : Nat) :
    codeBit (List.zipWith (· &&& ·) a code) i = (codeBit a i && codeBit code i) := by
  rw [codeBit, codeBit, codeBit, List.getD_eq_getElem?_getD, List.getD_eq_getElem?_getD, List.getD_eq_getElem?_getD,
    List.getElem?_zipWith]
  by_cases hi : i / 8 < a.length
  · rw [List.getElem?_eq_getElem hi, List.getElem?_eq_getElem (hlen ▸ hi)]
    simp only [Option.getD_some, UInt8.toNat_and, Nat.testBit_and]
  · rw [List.getElem?_eq_none (Nat.le_of_not_lt hi)]
    simp

/-- The set bits of a plane under the code. -/
theorem sum_countOnes_and {plane code : List UInt8} (hlen : plane.length = code.length) :
    ((plane.zip code).map fun e => countOnes (e.1 &&& e.2)).sum =
      ∑ i ∈ Finset.range (8 * code.length), (codeBit plane i && codeBit code i).toNat := by
  have hzip : (plane.zip code).map (fun e => countOnes (e.1 &&& e.2)) =
      (List.zipWith (· &&& ·) plane code).map countOnes := by
    rw [List.zip, List.map_zipWith, List.map_zipWith]
  rw [hzip, sum_countOnes, List.length_zipWith, hlen, Nat.min_self]
  exact Finset.sum_congr rfl fun i _ => by rw [codeBit_zipWith hlen]

end Simd

end Skeg
