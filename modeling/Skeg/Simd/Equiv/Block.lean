import Skeg.Simd.Kernels
import Skeg.Vector.Equiv.Quant
import Mathlib.Algebra.BigOperators.Fin

/-!
# The block kernel is exact

`interleave_tq4_codes` transposes the rows (`getElem?_interleave`), so that a lane of the kernel sees the bytes of one row.
With table entries of at most 127 the 8-bit sum of a group is exact, and between two flushes so is the 16-bit sum of the
groups: the loop keeps scores and accumulators together at the sum so far (`Exact`).
-/

namespace Skeg

namespace Simd

/-! ### Layout -/

theorem length_interleaveRow (nGroups v : Nat) (row out : List UInt8) :
    (interleaveRow nGroups v row out).length = out.length := by
  rw [interleaveRow]
  induction List.range nGroups generalizing out with
  | nil => rfl
  | cons g gs ih => exact (ih _).trans List.length_set

theorem place_inj {g g' v v' : Nat} (hv : v < block) (hv' : v' < block) :
    g * block + v = g' * block + v' ↔ g = g' ∧ v = v' := by
  rw [block] at *
  omega

theorem place_lt {g n v : Nat} (hg : g < n) (hv : v < block) : g * block + v < n * block := by
  rw [block] at *
  omega

/-- The loop over the groups of one row. -/
theorem getElem?_interleaveRow {n v v' g m : Nat} (hv : v < block) (hv' : v' < block) (hg : g < n) (hm : m ≤ n)
    {row out : List UInt8} (hlen : out.length = n * block) :
    ((List.range m).foldl (fun out g => out.set (g * block + v) (row.getD g 0)) out)[g * block + v']? =
      if v' = v ∧ g < m then some (row.getD g 0) else out[g * block + v']? := by
  induction m with
  | zero => simp
  | succ m ih =>
    have hlen' := (length_interleaveRow m v row out).trans hlen
    rw [interleaveRow] at hlen'
    rw [List.range_succ, List.foldl_append, List.foldl_cons, List.foldl_nil, List.getElem?_set, hlen']
    by_cases hmg : m = g ∧ v = v'
    · obtain ⟨rfl, rfl⟩ := hmg
      rw [if_pos rfl, if_pos (place_lt hm hv), if_pos ⟨rfl, Nat.lt_succ_self m⟩]
    · rw [if_neg (mt (place_inj hv hv').mp hmg), ih (Nat.le_of_succ_le hm)]
      refine if_congr ?_ rfl rfl
      omega

/-- The loop over the rows from `k` on. -/
theorem foldlM_interleave {n : Nat} (rows : List (List UInt8)) (k : Nat) (hk : k + rows.length ≤ block)
    (hrows : ∀ row ∈ rows, row.length = n) {out : List UInt8} (hlen : out.length = n * block) :
    ∃ codes, (rows.zipIdx k).foldlM (fun out e =>
        if e.1.length ≠ n then none else some (interleaveRow n e.2 e.1 out)) out = some codes ∧
      codes.length = n * block ∧ ∀ g v, g < n → v < block → codes[g * block + v]? =
        if k ≤ v ∧ v < k + rows.length then some ((rows.getD (v - k) []).getD g 0) else out[g * block + v]? := by
  induction rows generalizing k out with
  | nil =>
    refine ⟨out, rfl, hlen, fun g v _ _ => (if_neg ?_).symm⟩
    rw [List.length_nil]
    omega
  | cons row rows ih =>
    rw [List.length_cons] at hk ⊢
    have hrow : ¬ row.length ≠ n := not_not.mpr (hrows row List.mem_cons_self)
    have hlen' := (length_interleaveRow n k row out).trans hlen
    obtain ⟨codes, hcodes, hlength, hget⟩ :=
      ih (k + 1) (by omega) (fun r hr => hrows r (List.mem_cons_of_mem _ hr)) hlen'
    refine ⟨codes, ?_, hlength, fun g v hg hv => ?_⟩
    · rw [List.zipIdx_cons, List.foldlM_cons, if_neg hrow]
      exact hcodes
    · rw [hget g v hg hv, interleaveRow, getElem?_interleaveRow (by omega) hv hg (Nat.le_refl n) hlen]
      by_cases hvk : v = k
      · rw [if_neg (by omega), if_pos ⟨hvk, hg⟩, if_pos (by omega), hvk, Nat.sub_self, List.getD_cons_zero]
      · by_cases hin : k + 1 ≤ v ∧ v < k + 1 + rows.length
        · rw [if_pos hin, if_pos (by omega), show v - k = v - (k + 1) + 1 by omega, List.getD_cons_succ]
        · rw [if_neg hin, if_neg (fun h => hvk h.1), if_neg (by omega)]

/-- The interleaved codes hold byte `g` of row `v` at the place of the two. -/
theorem getD_interleave {dim : Nat} {rows : List (List UInt8)} (hcount : rows.length = block)
    (hrows : ∀ row ∈ rows, row.length = dim / 2) {out : List UInt8} (hlen : out.length = dim / 2 * block) :
    ∃ codes, interleaveTq4Codes rows dim out = some codes ∧ codes.length = dim / 2 * block ∧
      ∀ g v, g < dim / 2 → v < block → codes.getD (g * block + v) 0 = (rows.getD v []).getD g 0 := by
  obtain ⟨codes, hcodes, hlength, hget⟩ := foldlM_interleave rows 0 (by omega) hrows hlen
  refine ⟨codes, ?_, hlength, fun g v hg hv => ?_⟩
  · rw [interleaveTq4Codes, if_neg (not_not.mpr hcount), if_neg (not_not.mpr hlen)]
    exact hcodes
  · rw [List.getD_eq_getElem?_getD, hget g v hg hv, if_pos (by omega), Nat.sub_zero, Option.getD_some]

/-! ### Lookups -/

/-- The nibbles of a byte, as `code_index` reads them. -/
theorem codeIndex_four (code : List UInt8) (g : Nat) :
    codeIndex 4 code (2 * g) = (code.getD g 0).toNat % 16 ∧
      codeIndex 4 code (2 * g + 1) = (code.getD g 0).toNat / 16 := by
  have hmask : ((1 <<< UInt8.ofNat 4) - 1 : UInt8).toNat = 2 ^ 4 - 1 := by decide
  have hlt : (code.getD g 0).toNat < 256 := UInt8.toNat_lt _
  constructor
  · rw [codeIndex, show 2 * g / (8 / 4) = g by omega, show 2 * g % (8 / 4) * 4 = 0 by omega, UInt8.toNat_and, hmask,
      Nat.and_two_pow_sub_one_eq_mod, UInt8.toNat_shiftRight]
    rfl
  · rw [codeIndex, show (2 * g + 1) / (8 / 4) = g by omega, show (2 * g + 1) % (8 / 4) * 4 = 4 by omega,
      UInt8.toNat_and, hmask, Nat.and_two_pow_sub_one_eq_mod, UInt8.toNat_shiftRight,
      show (UInt8.ofNat 4).toNat % 8 = 4 from rfl, Nat.shiftRight_eq_div_pow]
    omega

theorem toNat_and_mask (x : UInt8) : (x &&& 0x0f).toNat = x.toNat % 16 := by
  rw [UInt8.toNat_and, show (0x0f : UInt8).toNat = 2 ^ 4 - 1 from rfl, Nat.and_two_pow_sub_one_eq_mod]

/-- The shift of the pair leaves the high nibble of a byte below the mask. -/
theorem toNat_srli16_mask (a : M256) (i : Fin 32) : (srli16 a 4 i &&& 0x0f).toNat = (a i).toNat / 16 := by
  rw [toNat_and_mask, srli16, UInt8.toNat_ofNat']
  rcases Nat.mod_two_eq_zero_or_one i.1 with hi | hi
  · have hlow : (⟨2 * (i.1 / 2), lowByte_lt i⟩ : Fin 32) = i := Fin.ext (by simp only; omega)
    rw [hlow, hi]
    have := UInt8.toNat_lt (a i)
    omega
  · have hhigh : (⟨2 * (i.1 / 2) + 1, highByte_lt i⟩ : Fin 32) = i := Fin.ext (by simp only; omega)
    rw [hhigh, hi]
    have := UInt8.toNat_lt (a i)
    have := UInt8.toNat_lt (a ⟨2 * (i.1 / 2), lowByte_lt i⟩)
    omega

/-- A lookup with a nibble. -/
theorem shuffle8_broadcast (lut : List UInt8) (start : Nat) (idx : M256) {i : Fin 32} (hidx : (idx i).toNat < 16) :
    shuffle8 (broadcast128 (load128 lut start)) idx i = lut.getD (start + (idx i).toNat) 0 := by
  rw [shuffle8, if_neg (by omega), broadcast128, load128]
  simp only
  congr 1
  omega

/-- Entry of the table for bucket `c` of coordinate `i`. -/
def tableEntry (lut : List UInt8) (i c : Nat) : UInt8 := lut.getD (i / 2 * 32 + i % 2 * 16 + c) 0

variable {codes lut code : List UInt8} {g : Nat} {i : Fin 32}

theorem lowLookup_eq (hcode : codes.getD (g * block + i.1) 0 = code.getD g 0) :
    lowLookup codes lut g i = tableEntry lut (2 * g) (codeIndex 4 code (2 * g)) := by
  have hidx : (and256 (load256 codes (g * block)) (fun _ => 0x0f) i).toNat = codeIndex 4 code (2 * g) := by
    rw [and256, toNat_and_mask, load256, hcode, (codeIndex_four code g).1]
  have hlt : (and256 (load256 codes (g * block)) (fun _ => 0x0f) i).toNat < 16 := by
    rw [and256, toNat_and_mask]
    exact Nat.mod_lt _ (by decide)
  rw [lowLookup, shuffle8_broadcast lut _ _ hlt, hidx, tableEntry]
  congr 1
  omega

theorem highLookup_eq (hcode : codes.getD (g * block + i.1) 0 = code.getD g 0) :
    highLookup codes lut g i = tableEntry lut (2 * g + 1) (codeIndex 4 code (2 * g + 1)) := by
  have hidx : (and256 (srli16 (load256 codes (g * block)) 4) (fun _ => 0x0f) i).toNat =
      codeIndex 4 code (2 * g + 1) := by
    rw [and256, toNat_srli16_mask, load256, hcode, (codeIndex_four code g).2]
  have hlt : (and256 (srli16 (load256 codes (g * block)) 4) (fun _ => 0x0f) i).toNat < 16 := by
    rw [and256, toNat_srli16_mask]
    have := UInt8.toNat_lt (load256 codes (g * block) i)
    omega
  rw [highLookup, shuffle8_broadcast lut _ _ hlt, hidx, tableEntry]
  congr 1
  omega

/-! ### Accumulation -/

/-- What a group adds to a lane. -/
def laneSum (codes lut : List UInt8) (g : Nat) (i : Fin 32) : Nat :=
  (lowLookup codes lut g i).toNat + (highLookup codes lut g i).toNat

theorem getD_le {lut : List UInt8} (hlut : ∀ x ∈ lut, x ≤ 127) (k : Nat) : (lut.getD k 0).toNat ≤ 127 := by
  rw [List.getD_eq_getElem?_getD]
  cases hk : lut[k]? with
  | none => exact Nat.zero_le _
  | some x => exact UInt8.le_iff_toNat_le.mp (hlut x (List.mem_of_getElem? hk))

variable (hlut : ∀ x ∈ lut, x ≤ 127)

include hlut

theorem lookup_le (start : Nat) (idx : M256) (i : Fin 32) :
    (shuffle8 (broadcast128 (load128 lut start)) idx i).toNat ≤ 127 := by
  rw [shuffle8]
  split
  · exact Nat.zero_le _
  · exact getD_le hlut _

theorem laneSum_le (codes : List UInt8) (g : Nat) (i : Fin 32) : laneSum codes lut g i ≤ 254 := by
  have hlow : (lowLookup codes lut g i).toNat ≤ 127 := lookup_le hlut _ _ i
  have hhigh : (highLookup codes lut g i).toNat ≤ 127 := lookup_le hlut _ _ i
  rw [laneSum]
  omega

/-- The 8-bit sum does not wrap. -/
theorem toNat_groupSum (codes : List UInt8) (g : Nat) (i : Fin 32) :
    (groupSum codes lut g i).toNat = laneSum codes lut g i := by
  have hle := laneSum_le hlut codes g i
  rw [groupSum, add8, UInt8.toNat_add, ← laneSum]
  exact Nat.mod_eq_of_lt (by omega)

omit hlut

namespace BlockState

/-- The accumulator of a lane. -/
def lane (s : BlockState) (i : Fin 32) : UInt16 := s.accumulated ⟨i.1 / 16, laneHalf_lt i⟩ ⟨i.1 % 16, lane_lt i⟩

theorem lane_accumulate (s : BlockState) (sum : M256) (i : Fin 32) :
    (s.accumulate sum).lane i = s.lane i + (sum i).toUInt16 := by
  rw [lane, accumulate]
  simp only
  rw [add16, widen, ← lane]
  congr 2
  by_cases hi : i.1 / 16 = 0
  · have hhalf : (⟨i.1 / 16, laneHalf_lt i⟩ : Fin 2) = 0 := Fin.ext hi
    rw [if_pos hhalf, lowHalf]
    congr 1
    exact Fin.ext (by simp only; omega)
  · have hhalf : (⟨i.1 / 16, laneHalf_lt i⟩ : Fin 2) ≠ 0 := fun h => hi (congrArg Fin.val h)
    rw [if_neg hhalf, highHalf]
    congr 1
    exact Fin.ext (by simp only; omega)

/-- After `n` groups, scores and accumulators together are the sums so far, and the accumulators are small. -/
structure Exact (codes lut : List UInt8) (n : Nat) (s : BlockState) : Prop where
  window : s.window < flushEvery
  small : ∀ i, (s.lane i).toNat ≤ 254 * s.window
  sum : ∀ i, s.scores i + (s.lane i).toNat = ∑ g ∈ Finset.range n, laneSum codes lut g i

theorem exact_init (codes lut : List UInt8) : Exact codes lut 0 init where
  window := by decide
  small _ := Nat.le_refl 0
  sum _ := rfl

include hlut

/-- The 16-bit sum does not wrap. -/
theorem Exact.toNat_lane {n : Nat} {s : BlockState} (h : Exact codes lut n s) (i : Fin 32) :
    ((s.accumulate (groupSum codes lut n)).lane i).toNat = (s.lane i).toNat + laneSum codes lut n i := by
  have hle := laneSum_le hlut codes n i
  have hsmall := h.small i
  have hwindow := h.window
  rw [flushEvery] at hwindow
  rw [lane_accumulate, UInt16.toNat_add, UInt8.toNat_toUInt16, toNat_groupSum hlut]
  exact Nat.mod_eq_of_lt (by omega)

theorem Exact.step {n : Nat} {s : BlockState} (h : Exact codes lut n s) :
    Exact codes lut (n + 1) (s.step codes lut n) := by
  have hsum : ∀ i, s.scores i + ((s.accumulate (groupSum codes lut n)).lane i).toNat =
      ∑ g ∈ Finset.range (n + 1), laneSum codes lut g i := by
    intro i
    rw [h.toNat_lane hlut, ← Nat.add_assoc, h.sum, Finset.sum_range_succ]
  have hwindow := h.window
  rw [BlockState.step]
  by_cases hfull : (s.accumulate (groupSum codes lut n)).window = flushEvery
  · rw [if_pos hfull]
    exact ⟨show 0 < flushEvery by decide, fun _ => Nat.le_refl 0, hsum⟩
  · rw [if_neg hfull]
    refine ⟨Nat.lt_of_le_of_ne hwindow hfull, fun i => ?_, hsum⟩
    have hle := laneSum_le hlut codes n i
    have hsmall := h.small i
    rw [h.toNat_lane hlut]
    exact (Nat.add_le_add hsmall hle).trans (Nat.le_of_eq (Nat.mul_succ 254 s.window).symm)

theorem exact_after (codes : List UInt8) (n : Nat) : Exact codes lut n (after codes lut n) := by
  induction n with
  | zero => exact exact_init codes lut
  | succ n ih =>
    rw [after, List.range_succ, List.foldl_append]
    exact ih.step hlut

end BlockState

include hlut in
/-- Each lane comes to the sum of its lookups. -/
theorem tq4Block32Sums_eq {dim : Nat} (hdim : dim % 2 = 0) (hcodes : codes.length = dim / 2 * block)
    (hlen : lut.length = dim / 2 * 32) :
    tq4Block32Sums codes lut dim = some fun i => ∑ g ∈ Finset.range (dim / 2), laneSum codes lut g i := by
  have hexact := BlockState.exact_after hlut codes (dim / 2)
  rw [tq4Block32Sums, if_neg (by simp [hdim, hcodes, hlen])]
  refine congrArg some (funext fun i => ?_)
  rw [← hexact.sum i]
  split
  · rfl
  · -- nothing is left to flush
    rename_i hwindow
    have hsmall := hexact.small i
    rw [not_not.mp hwindow, Nat.mul_zero] at hsmall
    rw [Nat.le_zero.mp hsmall, Nat.add_zero]

/-! ### Blocks -/

/-- The code of a row of 4-bit buckets. -/
def packedRow {dim : Nat} (row : Fin dim → Fin 16) : List UInt8 :=
  Vector.packBuckets 4 (List.ofFn fun i => (row i).1)

theorem length_packedRow {dim : Nat} (hdim : dim % 2 = 0) (row : Fin dim → Fin 16) :
    (packedRow row).length = dim / 2 := by
  rw [packedRow, Vector.length_packBuckets, List.length_ofFn]
  omega

theorem codeIndex_packedRow {dim : Nat} (hdim : dim % 2 = 0) (row : Fin dim → Fin 16) (i : Fin dim) :
    codeIndex 4 (packedRow row) i.1 = (row i).1 := by
  have hbuckets : ∀ b ∈ List.ofFn fun i => (row i).1, b < 2 ^ 4 := by
    intro b hb
    obtain ⟨j, rfl⟩ := List.mem_ofFn.mp hb
    exact (row j).2
  have hdvd : 8 ∣ (List.ofFn fun i => (row i).1).length * 4 := by
    rw [List.length_ofFn]
    omega
  have hi : i.1 < (List.ofFn fun i => (row i).1).length := by
    rw [List.length_ofFn]
    exact i.2
  rw [packedRow, Vector.codeIndex_packBuckets (.inr (.inr rfl)) hbuckets hdvd hi, List.getElem_ofFn]

/-- A sum over the groups, two coordinates each. -/
theorem sum_groups (f : Nat → Nat) (n : Nat) :
    ∑ g ∈ Finset.range n, (f (2 * g) + f (2 * g + 1)) = ∑ i ∈ Finset.range (2 * n), f i := by
  induction n with
  | zero => rfl
  | succ n ih =>
    rw [Finset.sum_range_succ, ih, Nat.mul_succ, Finset.sum_range_succ, Finset.sum_range_succ, Nat.add_assoc]

/-- For rows of 4-bit buckets and a table of entries up to 127, no addition of the kernel wraps, and each lane holds the
sum of the entries at the buckets of its row. -/
theorem tq4_block_exact {dim : Nat} (hdim : dim % 2 = 0) (rows : Fin 32 → Fin dim → Fin 16) {lut out : List UInt8}
    (hlen : lut.length = dim / 2 * 32) (hlut : ∀ x ∈ lut, x ≤ 127) (hout : out.length = dim / 2 * block) :
    ∃ codes, interleaveTq4Codes (List.ofFn fun v => packedRow (rows v)) dim out = some codes ∧
      (∀ g < dim / 2, ∀ v, (lowLookup codes lut g v).toNat + (highLookup codes lut g v).toNat < 2 ^ 8 ∧
        ((BlockState.after codes lut g).lane v).toNat + (groupSum codes lut g v).toNat < 2 ^ 16) ∧
      ∃ sums, tq4Block32Sums codes lut dim = some sums ∧ ∀ v,
        sums v = ∑ i : Fin dim, (tableEntry lut i (codeIndex 4 (packedRow (rows v)) i)).toNat ∧
        ∀ i, codeIndex 4 (packedRow (rows v)) i.1 = (rows v i).1 := by
  have hrows : ∀ row ∈ List.ofFn fun v => packedRow (rows v), row.length = dim / 2 := by
    intro row hrow
    obtain ⟨v, rfl⟩ := List.mem_ofFn.mp hrow
    exact length_packedRow hdim (rows v)
  have hcount : (List.ofFn fun v => packedRow (rows v)).length = block := List.length_ofFn
  obtain ⟨codes, hcodes, hlength, hget⟩ := getD_interleave hcount hrows hout
  have hcode : ∀ g < dim / 2, ∀ v : Fin 32, codes.getD (g * block + v.1) 0 = (packedRow (rows v)).getD g 0 := by
    intro g hg v
    rw [hget g v.1 hg v.2]
    congr 1
    rw [List.getD_eq_getElem?_getD, List.getElem?_ofFn, dif_pos v.2, Option.getD_some]
  refine ⟨codes, hcodes, fun g hg v => ?_, _, tq4Block32Sums_eq hlut hdim hlength hlen, fun v => ⟨?_, ?_⟩⟩
  · have hle := laneSum_le hlut codes g v
    have hexact := BlockState.exact_after hlut codes g
    have hsmall := hexact.small v
    have hwindow := hexact.window
    rw [flushEvery] at hwindow
    rw [toNat_groupSum hlut]
    rw [laneSum] at hle ⊢
    omega
  · -- the lookups of a lane are those of its row
    have hlane : ∀ g ∈ Finset.range (dim / 2), laneSum codes lut g v =
        (tableEntry lut (2 * g) (codeIndex 4 (packedRow (rows v)) (2 * g))).toNat +
          (tableEntry lut (2 * g + 1) (codeIndex 4 (packedRow (rows v)) (2 * g + 1))).toNat := by
      intro g hg
      have hc := hcode g (Finset.mem_range.mp hg) v
      rw [laneSum, lowLookup_eq hc, highLookup_eq hc]
    rw [Finset.sum_congr rfl hlane, sum_groups fun i => (tableEntry lut i (codeIndex 4 (packedRow (rows v)) i)).toNat,
      show 2 * (dim / 2) = dim by omega, Finset.sum_range]
  · exact codeIndex_packedRow hdim (rows v)

/-- The highest buckets in 33 groups, one more than the lanes take between two flushes. -/
def fullRows : Fin 32 → Fin 66 → Fin 16 := fun _ _ => 15

def fullTable : List UInt8 := List.replicate 1056 127

theorem tq4_block_exact_full :
    flushEvery < 66 / 2 ∧ (∀ x ∈ fullTable, x ≤ 127) ∧
      ∃ codes, interleaveTq4Codes (List.ofFn fun v => packedRow (fullRows v)) 66 (List.replicate 1056 0) = some codes ∧
        ∃ sums, tq4Block32Sums codes fullTable 66 = some sums ∧ ∀ v,
          sums v = ∑ i : Fin 66, (tableEntry fullTable i (codeIndex 4 (packedRow (fullRows v)) i)).toNat := by
  have hlut : ∀ x ∈ fullTable, x ≤ 127 := by
    intro x hx
    rw [List.eq_of_mem_replicate hx]
    decide
  have hlen : fullTable.length = 66 / 2 * 32 := List.length_replicate
  have hout : (List.replicate 1056 (0 : UInt8)).length = 66 / 2 * block := List.length_replicate
  obtain ⟨codes, hcodes, -, sums, hsums, hv⟩ := tq4_block_exact (by decide) fullRows hlen hlut hout
  exact ⟨by decide, hlut, codes, hcodes, sums, hsums, fun v => (hv v).1⟩

end Simd

end Skeg
