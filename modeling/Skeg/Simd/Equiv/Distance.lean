import Skeg.Simd.Kernels
import Skeg.Server.ShardSet
import Skeg.Vector.Exact
import Mathlib.Algebra.BigOperators.Ring.List
import Mathlib.Algebra.Order.Ring.Abs
import Mathlib.Algebra.Order.Ring.Int

/-!
# The int8 inner product

The sum of products of components up to 127 stays within an `i32` for up to 133144 of them; creating an int8 index asks for
no more than a positive dimension.
-/

namespace Skeg

namespace Simd

/-- The inner product of two `i8` slices. -/
def exactDot (a b : List Int8) : Int := ((a.zip b).map fun e => e.1.toInt * e.2.toInt).sum

/-- The components that the quantizer makes. -/
def InRange (x : Int8) : Prop := -127 ≤ x.toInt ∧ x.toInt ≤ 127

theorem mul_bounds {u v c d : Int} (hu : -c ≤ u ∧ u ≤ c) (hv : -d ≤ v ∧ v ≤ d) : -(c * d) ≤ u * v ∧ u * v ≤ c * d := by
  have habs : |u * v| ≤ c * d := by
    rw [abs_mul]
    exact mul_le_mul (abs_le.mpr hu) (abs_le.mpr hv) (abs_nonneg v) ((abs_nonneg u).trans (abs_le.mpr hu))
  exact abs_le.mp habs

theorem toInt_mul_toInt32 (x y : Int8) : (x.toInt32 * y.toInt32).toInt = x.toInt * y.toInt := by
  have hx : -128 ≤ x.toInt ∧ x.toInt ≤ 128 := ⟨x.le_toInt, Int.le_of_lt x.toInt_lt⟩
  have hy : -128 ≤ y.toInt ∧ y.toInt ≤ 128 := ⟨y.le_toInt, Int.le_of_lt y.toInt_lt⟩
  obtain ⟨hle, hlt⟩ := mul_bounds hx hy
  rw [Int32.toInt_mul, Int8.toInt_toInt32, Int8.toInt_toInt32]
  exact Int.bmod_eq_of_le (by omega) (by omega)

theorem toInt_foldl_add (l : List Int32) (acc : Int32) :
    (l.foldl (· + ·) acc).toInt = (acc.toInt + (l.map Int32.toInt).sum).bmod (2 ^ 32) := by
  induction l generalizing acc with
  | nil =>
    rw [List.foldl_nil, List.map_nil, List.sum_nil, Int.add_zero]
    exact acc.toInt_bmod.symm
  | cons x l ih =>
    rw [List.foldl_cons, ih, List.map_cons, List.sum_cons, Int32.toInt_add, Int.bmod_add_bmod, Int.add_assoc]

/-- The 32-bit sum wraps around the exact one. -/
theorem toInt_dotInt8 (a b : List Int8) : (dotInt8 a b).toInt = (exactDot a b).bmod (2 ^ 32) := by
  have hmap : ((a.zip b).map fun e => e.1.toInt32 * e.2.toInt32).map Int32.toInt =
      (a.zip b).map fun e => e.1.toInt * e.2.toInt := by
    rw [List.map_map]
    exact List.map_congr_left fun e _ => toInt_mul_toInt32 e.1 e.2
  rw [dotInt8, toInt_foldl_add, hmap, ← exactDot, show (0 : Int32).toInt = 0 from rfl, Int.zero_add]

theorem exactDot_bounds {a b : List Int8} (ha : ∀ x ∈ a, InRange x) (hb : ∀ x ∈ b, InRange x) :
    -(16129 * a.length) ≤ exactDot a b ∧ exactDot a b ≤ 16129 * a.length := by
  induction a generalizing b with
  | nil => exact ⟨Int.le_refl 0, Int.le_refl 0⟩
  | cons x a ih =>
    rw [List.length_cons]
    cases b with
    | nil =>
      rw [exactDot, List.zip_nil_right, List.map_nil, List.sum_nil]
      omega
    | cons y b =>
      have hrest := ih (fun z hz => ha z (List.mem_cons_of_mem _ hz)) (fun z hz => hb z (List.mem_cons_of_mem _ hz))
      have hxy := mul_bounds (ha x List.mem_cons_self) (hb y List.mem_cons_self)
      have hcons : exactDot (x :: a) (y :: b) = x.toInt * y.toInt + exactDot a b := by
        rw [exactDot, List.zip_cons_cons, List.map_cons, List.sum_cons, ← exactDot]
      rw [hcons]
      omega

theorem exactDot_replicate (x : Int8) (n : Nat) :
    exactDot (List.replicate n x) (List.replicate n x) = n * (x.toInt * x.toInt) := by
  rw [exactDot, List.zip_replicate', List.map_replicate, List.sum_replicate, nsmul_eq_mul]

/-- The sums of a loop over the components, each within an `i32`. -/
def NoOverflow (a b : List Int8) : Prop :=
  ∀ k ≤ a.length, -2 ^ 31 ≤ exactDot (a.take k) (b.take k) ∧ exactDot (a.take k) (b.take k) < 2 ^ 31

theorem noOverflow_of_le {a b : List Int8} (ha : ∀ x ∈ a, InRange x) (hb : ∀ x ∈ b, InRange x)
    (hlen : a.length ≤ 133144) : NoOverflow a b := by
  intro k _
  have hbounds := exactDot_bounds (fun x hx => ha x (List.mem_of_mem_take hx)) (fun x hx => hb x (List.mem_of_mem_take hx))
    (a := a.take k) (b := b.take k)
  have htake : (a.take k).length ≤ 133144 := (List.length_take_le' k a).trans hlen
  omega

/-- Every positive dimension is accepted for an int8 index; the inner product of vectors of that dimension is exact up to
133144 components. -/
theorem int8_dot_exact [N : Vector.Numerics] (shards : Nat) (name : String) {dim : UInt32} (hdim : dim ≠ 0)
    {backend : UInt8} (hbackend : backend = 0 ∨ backend = 1) :
    Server.ShardSet.vindexCreate shards name dim.toNat 1 backend =
      Server.ShardSet.broadcast shards (.vector (.vindexCreate name dim.toNat .int8 (backend = 1))) ∧
    ((∀ a b : List Int8, a.length = dim.toNat → b.length = dim.toNat → (∀ x ∈ a, InRange x) → (∀ x ∈ b, InRange x) →
        (dotInt8 a b).toInt = exactDot a b ∧ NoOverflow a b) ↔ dim.toNat ≤ 133144) := by
  refine ⟨?_, fun h => ?_, fun hle a b ha hb hra hrb => ?_⟩
  · have hpos : dim.toNat ≠ 0 := fun h => hdim (UInt32.toNat_inj.mp h)
    rw [Server.ShardSet.vindexCreate, if_neg hpos]
    rcases hbackend with rfl | rfl <;> rfl
  · -- the largest components
    by_contra hgt
    have hrange : ∀ x ∈ List.replicate dim.toNat (127 : Int8), InRange x := by
      intro x hx
      rw [List.eq_of_mem_replicate hx]
      exact ⟨by decide, by decide⟩
    obtain ⟨-, hover⟩ := h _ _ List.length_replicate List.length_replicate hrange hrange
    have hall := (hover _ (Nat.le_refl _)).2
    rw [List.take_length, exactDot_replicate, show (127 : Int8).toInt = 127 from rfl] at hall
    omega
  · have hover := noOverflow_of_le hra hrb (ha ▸ hle)
    refine ⟨?_, hover⟩
    have hall := hover a.length (Nat.le_refl _)
    rw [List.take_length, ha, ← hb, List.take_length] at hall
    rw [toInt_dotInt8]
    exact Int.bmod_eq_of_le (by omega) (by omega)

section

attribute [local instance] Vector.exactNumerics

theorem int8_dot_exact_common :
    (768 : UInt32) ≠ 0 ∧
      ((∀ a b : List Int8, a.length = (768 : UInt32).toNat → b.length = (768 : UInt32).toNat → (∀ x ∈ a, InRange x) →
        (∀ x ∈ b, InRange x) → (dotInt8 a b).toInt = exactDot a b ∧ NoOverflow a b) ↔ (768 : UInt32).toNat ≤ 133144) :=
  have hdim : (768 : UInt32) ≠ 0 := by decide
  ⟨hdim, (int8_dot_exact 1 "v" hdim (.inl rfl)).2⟩

/-- Two vectors of 133145 components 127, in an index that was accepted. -/
theorem int8_dot_wraps :
    Server.ShardSet.vindexCreate 1 "v" 133145 1 0 =
      Server.ShardSet.broadcast 1 (.vector (.vindexCreate "v" 133145 .int8 false)) ∧
    (∀ x ∈ List.replicate 133145 (127 : Int8), InRange x) ∧
    exactDot (List.replicate 133145 127) (List.replicate 133145 127) = 2147495705 ∧
    (dotInt8 (List.replicate 133145 127) (List.replicate 133145 127)).toInt = -2147471591 := by
  have hdot : exactDot (List.replicate 133145 127) (List.replicate 133145 127) = 2147495705 := by
    rw [exactDot_replicate]
    rfl
  refine ⟨rfl, fun x hx => ?_, hdot, ?_⟩
  · rw [List.eq_of_mem_replicate hx]
    exact ⟨by decide, by decide⟩
  · rw [toInt_dotInt8, hdot]
    rfl

end

end Simd

end Skeg
