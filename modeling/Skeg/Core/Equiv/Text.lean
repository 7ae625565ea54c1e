import Skeg.Core.Text
import Mathlib.Data.Nat.Digits.Defs
import Mathlib.Tactic.Ring

/-!
# The text of an integer reads back

`parseI64_formatI64`, `parseI64_formatNat` and `parseUnsigned_formatNat`: the decimal text of an integer parses as that
integer.
`fromUtf8_utf8`: the bytes of a text are valid and read back.
-/

namespace Skeg

/-! ### UTF-8 -/

theorem fromUtf8_utf8 (s : String) : fromUtf8 (utf8 s) = some s := by
  have hbytes : (⟨s.toByteArray.data.toList.toArray⟩ : ByteArray) = s.toByteArray := by
    rw [Array.toArray_toList]
  rw [fromUtf8, utf8, hbytes, String.fromUTF8?, dif_pos s.isValidUTF8]
  rfl

theorem utf8_of_fromUtf8 {b : Bytes} {s : String} (h : fromUtf8 b = some s) : utf8 s = b := by
  rw [fromUtf8, String.fromUTF8?] at h
  split_ifs at h
  rw [← Option.some.inj h]
  rfl

theorem utf8_append (s t : String) : utf8 (s ++ t) = utf8 s ++ utf8 t := by
  rw [utf8, String.toByteArray_append, ByteArray.toList_data_append]; rfl

theorem utf8_ofList (cs : List Char) : utf8 (String.ofList cs) = cs.flatMap String.utf8EncodeChar := by
  rw [utf8, String.toByteArray_ofList, List.utf8Encode]
  simp

theorem utf8_eq_flatMap (s : String) : utf8 s = s.toList.flatMap String.utf8EncodeChar := by
  rw [← utf8_ofList, String.ofList_toList]

/-- Characters below 128 are one byte each. -/
theorem utf8_ofList_ascii {cs : List Char} (h : ∀ c ∈ cs, c.toNat < 128) :
    utf8 (String.ofList cs) = cs.map fun c => UInt8.ofNat c.toNat := by
  rw [utf8_ofList]
  induction cs with
  | nil => rfl
  | cons c cs ih =>
    have hc : c.val.toNat ≤ 127 := Nat.le_of_lt_succ (h c (by simp))
    have hone : String.utf8EncodeChar c = [UInt8.ofNat c.toNat] := by
      simp only [String.utf8EncodeChar, hc, ↓reduceIte]; rfl
    rw [List.flatMap_cons, hone, ih fun d hd => h d (by simp [hd])]
    rfl

/-- A byte below 128 comes from the character with that code. -/
theorem mem_utf8_ascii {s : String} {b : UInt8} (hb : b.toNat < 128) (h : b ∈ utf8 s) :
    ∃ c ∈ s.toList, c.toNat = b.toNat := by
  rw [utf8_eq_flatMap, List.mem_flatMap] at h
  obtain ⟨c, hc, hmem⟩ := h
  refine ⟨c, hc, ?_⟩
  -- the bytes of a longer encoding are all 128 or more
  unfold String.utf8EncodeChar at hmem
  simp only at hmem
  have hval : c.val.toNat = c.toNat := rfl
  split_ifs at hmem <;> simp only [List.mem_cons, List.not_mem_nil, or_false] at hmem
  · rw [hmem, UInt8.toNat_ofNat']; omega
  all_goals
    exfalso
    grind [UInt8.toNat_ofNat']

/-! ### Digits -/

theorem toNat_of_mem_toDigits {n : Nat} {c : Char} (h : c ∈ Nat.toDigits 10 n) :
    48 ≤ c.toNat ∧ c.toNat ≤ 57 := by
  have := Nat.isDigit_of_mem_toDigits (by omega) (by omega) h
  simpa [Char.isDigit, UInt32.le_iff_toNat_le] using this

theorem formatNat_eq_utf8 (n : Nat) : formatNat n = utf8 (String.ofList (Nat.toDigits 10 n)) := by
  rw [utf8_ofList_ascii fun c hc => by have := toNat_of_mem_toDigits hc; omega]
  rfl

theorem mem_formatNat {n : Nat} {d : UInt8} (h : d ∈ formatNat n) : 48 ≤ d.toNat ∧ d.toNat ≤ 57 := by
  obtain ⟨c, hc, rfl⟩ := List.mem_map.mp h
  have := toNat_of_mem_toDigits hc
  rw [UInt8.toNat_ofNat_of_lt' (by unfold UInt8.size; omega)]
  exact this

theorem formatNat_ne_nil (n : Nat) : formatNat n ≠ [] := by
  simp [formatNat, Nat.toDigits_ne_nil]

/-- Horner's rule on the digits gives the number back. -/
theorem foldl_formatNat (n : Nat) :
    (formatNat n).foldl (fun (m : Int) d => 10 * m + (d.toNat - 48)) 0 = n := by
  have hfold : ∀ (cs : List Char) (m : Nat), (∀ c ∈ cs, 48 ≤ c.toNat ∧ c.toNat ≤ 57) →
      (cs.map fun c => UInt8.ofNat c.toNat).foldl (fun (m : Int) d => 10 * m + (d.toNat - 48)) m =
        Nat.ofDigitChars 10 cs m := by
    intro cs
    induction cs with
    | nil => intro m _; rfl
    | cons c cs ih =>
      intro m h
      obtain ⟨hlo, hhi⟩ := h c (by simp)
      have hstep : (10 * (m : Int) + ((UInt8.ofNat c.toNat).toNat - 48)) =
          ((10 * m + (c.toNat - '0'.toNat) : Nat) : Int) := by
        rw [UInt8.toNat_ofNat_of_lt' (by unfold UInt8.size; omega)]
        have : '0'.toNat = 48 := rfl
        omega
      rw [List.map_cons, List.foldl_cons, hstep, ih _ fun d hd => h d (by simp [hd])]
      rfl
  have := hfold (Nat.toDigits 10 n) 0 fun c hc => toNat_of_mem_toDigits hc
  rw [formatNat, show (0 : Int) = ((0 : Nat) : Int) from rfl, this,
    Nat.ofDigitChars_toDigits (by omega) (by omega)]

/-- The digits of a number pass the check for digits. -/
theorem any_formatNat (n : Nat) :
    ((formatNat n).isEmpty || (formatNat n).any fun d => d < 48 || 57 < d) = false := by
  rw [Bool.or_eq_false_iff]
  constructor
  · simp [formatNat_ne_nil]
  · rw [List.any_eq_false]
    intro d hd
    have := mem_formatNat hd
    simp [UInt8.lt_iff_toNat_lt]
    omega

/-! ### Unsigned integers -/

/-- Horner's rule on digits, without going below zero. -/
theorem foldl_digits_cast {ds : Bytes} (h : ∀ d ∈ ds, 48 ≤ d.toNat) (m : Nat) :
    ((ds.foldl (fun n d => 10 * n + (d.toNat - 48)) m : Nat) : Int) =
      ds.foldl (fun (n : Int) d => 10 * n + (d.toNat - 48)) m := by
  induction ds generalizing m with
  | nil => rfl
  | cons d ds ih =>
    have hd := h d List.mem_cons_self
    have hstep : (10 * (m : Int) + (d.toNat - 48)) = ((10 * m + (d.toNat - 48) : Nat) : Int) := by omega
    rw [List.foldl_cons, List.foldl_cons, hstep, ih fun e he => h e (List.mem_cons_of_mem _ he)]

theorem parseUnsigned_formatNat {bits n : Nat} (h : n < 2 ^ bits) : parseUnsigned bits (formatNat n) = some n := by
  have hplus : ∀ ds, formatNat n = 43 :: ds → False := by
    intro ds heq
    have hmem : (43 : UInt8) ∈ formatNat n := by
      rw [heq]
      exact List.mem_cons_self
    exact absurd (mem_formatNat hmem).1 (by decide)
  have hfold : (formatNat n).foldl (fun n d => 10 * n + (d.toNat - 48)) 0 = n := by
    have hdigits : ∀ d ∈ formatNat n, 48 ≤ d.toNat := fun d hd => (mem_formatNat hd).1
    exact Int.ofNat.inj ((foldl_digits_cast hdigits 0).trans (foldl_formatNat n))
  rw [parseUnsigned.eq_2 _ _ hplus]
  simp only [any_formatNat, hfold, Bool.false_eq_true, if_false]
  rw [if_pos h]

/-! ### `i64` -/

theorem parseI64_formatNat {n : Nat} (h : n < 2 ^ 63) : parseI64 (formatNat n) = some (Int64.ofInt n) := by
  have hneg : ∀ ds, formatNat n = 45 :: ds → False := fun ds heq => by
    have := mem_formatNat (n := n) (d := 45) (by simp [heq])
    simp at this
  have hplus : ∀ ds, formatNat n = 43 :: ds → False := fun ds heq => by
    have := mem_formatNat (n := n) (d := 43) (by simp [heq])
    simp at this
  rw [parseI64.eq_3 _ hneg hplus]
  simp only [any_formatNat, foldl_formatNat, Bool.false_eq_true, if_false]
  rw [if_pos (by omega)]

theorem formatI64_of_nonneg {n : Int64} (h : 0 ≤ n.toInt) : formatI64 n = formatNat n.toInt.natAbs := by
  have : ¬ n < 0 := by rw [Int64.lt_iff_toInt_lt]; simpa using h
  simp only [formatI64, this, if_false]; rfl

theorem formatI64_of_neg {n : Int64} (h : n.toInt < 0) :
    formatI64 n = 45 :: formatNat n.toInt.natAbs := by
  have : n < 0 := by rw [Int64.lt_iff_toInt_lt]; simpa using h
  simp only [formatI64, this, if_true]; rfl

theorem parseI64_formatI64 (n : Int64) : parseI64 (formatI64 n) = some n := by
  have hlo := n.le_toInt
  have hhi := n.toInt_lt
  rcases lt_or_ge n.toInt 0 with hneg | hpos
  · rw [formatI64_of_neg hneg, parseI64]
    simp only [any_formatNat, foldl_formatNat, Bool.false_eq_true, if_false, if_true]
    have habs : -(n.toInt.natAbs : Int) = n.toInt := by omega
    rw [habs, if_pos ⟨hlo, hhi⟩, Int64.ofInt_toInt]
  · have habs : (n.toInt.natAbs : Int) = n.toInt := by omega
    rw [formatI64_of_nonneg hpos, parseI64_formatNat (by omega), habs, Int64.ofInt_toInt]

/-- The text of an integer has no byte but digits and a sign. -/
theorem mem_formatI64 {n : Int64} {d : UInt8} (h : d ∈ formatI64 n) : 45 ≤ d.toNat ∧ d.toNat ≤ 57 := by
  rcases lt_or_ge n.toInt 0 with hneg | hpos
  · rw [formatI64_of_neg hneg, List.mem_cons] at h
    rcases h with rfl | h
    · decide
    · have := mem_formatNat h; omega
  · rw [formatI64_of_nonneg hpos] at h
    have := mem_formatNat h; omega

end Skeg
