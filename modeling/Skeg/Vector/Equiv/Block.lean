import Skeg.Vector.Block
import Skeg.Vector.Equiv.Flat
import Mathlib.Algebra.Order.Floor.Ring
import Mathlib.Data.Int.ConditionallyCompleteOrder

/-!
# The candidates of the block search

The two loops of `search_block_tq4` are one pass over the live rows (`blockCandidates_eq`), with a key that depends on
where a row lies (`blockKey`): a score times a million in a full block, the proxy of the row-major search behind them.
The two are not on one scale, and the first is the coarser.  The candidates are those of the row-major search exactly
when the rows with the highest proxies outrank all others by their keys (`block_candidates_agree`).
-/

namespace Skeg

namespace Vector

namespace FlatIndex

variable {x : FlatIndex} {score : Nat → ℚ} {k : Nat}

/-- The key the block search gives a row. -/
def blockKey (x : FlatIndex) (score : Nat → ℚ) (row : Nat) : Int :=
  if row < x.rows.length / tq4Block * tq4Block then castInt 64 (score row * scaleToI64) else tqProxy (score row)

/-! ### One pass over the live rows -/

theorem flatMap_blocks (size m : Nat) :
    (List.range m).flatMap (fun b => (List.range size).map (b * size + ·)) = List.range (m * size) := by
  induction m with
  | zero => simp
  | succ m ih =>
    rw [List.range_succ, List.flatMap_append, ih, Nat.succ_mul, List.range_add, List.flatMap_singleton]

/-- The stream of candidates. -/
def offered (x : FlatIndex) (score : Nat → ℚ) (rows : List Nat) : List (Int ×ₗ Nat) :=
  (rows.filter x.isLive).map fun row => toLex (x.blockKey score row, row)

theorem foldl_pushCand {rerank : Nat} (key : Nat → Int) (rows : List Nat) (cands : List (Int ×ₗ Nat))
    (hkey : ∀ row ∈ rows, x.blockKey score row = key row) :
    rows.foldl (fun cands row => if x.isLive row then pushCand rerank cands (key row) row else cands) cands =
      (x.offered score rows).foldl (TopK.offer TopK.beatsKey rerank) cands := by
  rw [offered, List.foldl_map, List.foldl_filter]
  refine List.foldl_ext _ _ _ fun cands row hrow => ?_
  rw [hkey row hrow]
  rfl

theorem pushBlocks_eq (x : FlatIndex) (score : Nat → ℚ) (rerank : Nat) :
    x.pushBlocks score rerank (x.rows.length / tq4Block) =
      TopK.select TopK.beatsKey rerank (x.offered score (List.range (x.rows.length / tq4Block * tq4Block))) := by
  rw [TopK.select, ← foldl_pushCand (fun row => castInt 64 (score row * scaleToI64)), ← flatMap_blocks,
    List.foldl_flatMap, pushBlocks]
  · simp only [List.foldl_map]
  · intro row hrow
    rw [blockKey, if_pos (List.mem_range.mp hrow)]

/-- The candidates of the block search are kept from one stream of keys. -/
theorem blockCandidates_eq (hkind : x.kind = .turboQuant 4) (hk : 0 < k) (hlive : x.liveCount ≠ 0) :
    x.blockCandidates score k = some
      ((TopK.select TopK.beatsKey (min (rerankWidth k) x.rows.length) (x.offered score (List.range x.rows.length))).map
        fun entry => (ofLex entry).2) := by
  have hle : x.rows.length / tq4Block * tq4Block ≤ x.rows.length := Nat.div_mul_le_self _ _
  have hrange : List.range x.rows.length = List.range (x.rows.length / tq4Block * tq4Block) ++
      List.range' (x.rows.length / tq4Block * tq4Block) (x.rows.length - x.rows.length / tq4Block * tq4Block) := by
    rw [List.range'_eq_map_range, ← List.range_add, Nat.add_sub_cancel' hle]
  rw [blockCandidates, if_neg (not_not.mpr hkind), if_neg (by omega), hrange, offered, List.filter_append,
    List.map_append, TopK.select, List.foldl_append]
  dsimp only
  rw [foldl_pushCand fun row => tqProxy (score row), pushBlocks_eq]
  · rfl
  · intro row hrow
    have hge := (List.mem_range'_1.mp hrow).1
    rw [blockKey, if_neg (by omega)]

/-! ### What is chosen -/

/-- The rows a scan keeps: as many live ones as it may, each closer than those it leaves. -/
structure Chosen (x : FlatIndex) (score : Nat → ℚ) (k : Nat) (rows : List Nat) : Prop where
  nodup : rows.Nodup
  length : rows.length = min (rerankWidth k) x.len
  live : ∀ row ∈ rows, x.isLive row = true
  above : ∀ a ∈ rows, ∀ b, x.isLive b = true → b ∉ rows → tqProxy (score b) < tqProxy (score a)

theorem Chosen.mem_iff {rows rows' : List Nat} (h : Chosen x score k rows) (h' : Chosen x score k rows') (row : Nat) :
    row ∈ rows ↔ row ∈ rows' :=
  TopK.mem_iff_of_above (r := fun a b => tqProxy (score a) < tqProxy (score b)) (fun _ _ => lt_asymm) h.nodup h'.nodup
    (h.length.trans h'.length.symm) (fun a ha b hb => h.above a ha b (h'.live b hb))
    (fun b hb a ha => h'.above b hb a (h.live a ha)) row

/-- No two live rows have the same proxy. -/
def DistinctProxies (x : FlatIndex) (score : Nat → ℚ) : Prop :=
  ∀ a b, x.isLive a = true → x.isLive b = true → tqProxy (score a) = tqProxy (score b) → a = b

theorem chosen_quantized (hx : x.Counted) (hproxy : x.DistinctProxies score) :
    Chosen x score k (x.quantizedCandidates score k) := by
  have htop := topRows_greatestRows hx (min (rerankWidth k) x.liveCount) fun row => tqProxy (score row)
  rw [quantizedCandidates]
  generalize x.greatestRows _ (fun row => tqProxy (score row)) = out at htop ⊢
  refine ⟨htop.nodup, ?_, fun row hrow => ?_, fun a ha b hb hout => ?_⟩
  · rw [List.length_map, htop.length, len, min_assoc, min_self]
  · obtain ⟨p, hp, rfl⟩ := List.mem_map.mp hrow
    exact (htop.sound p hp).1
  · obtain ⟨p, hp, rfl⟩ := List.mem_map.mp ha
    obtain ⟨hlive, hkey⟩ := htop.sound p hp
    rcases Prod.Lex.lt_iff.mp (htop.greatest p hp b hb hout) with hlt | ⟨heq, -⟩
    · exact hkey ▸ hlt
    · -- equal proxies are of one row, which was kept
      exact absurd (hproxy b p.2 hb hlive (heq.trans hkey) ▸ ha) hout

/-- The row with the higher key, or with the same key and the rank of `TopK.Outranks` in the stream. -/
def Outranks (x : FlatIndex) (score : Nat → ℚ) (k a b : Nat) : Prop :=
  TopK.Outranks (min (rerankWidth k) x.rows.length) (x.offered score (List.range x.rows.length))
    (toLex (x.blockKey score a, a)) (toLex (x.blockKey score b, b))

theorem outranks_of_key_lt {a b : Nat} (h : x.blockKey score b < x.blockKey score a) : x.Outranks score k a b := .inl h

/-- What the block search keeps outranks what it leaves. -/
theorem outranks_block (hx : x.Counted) (score : Nat → ℚ) (k : Nat) :
    ∃ rows, ((TopK.select TopK.beatsKey (min (rerankWidth k) x.rows.length)
        (x.offered score (List.range x.rows.length))).map fun entry => (ofLex entry).2) = rows ∧
      rows.Nodup ∧ rows.length = min (rerankWidth k) x.len ∧ (∀ row ∈ rows, x.isLive row = true) ∧
      ∀ a ∈ rows, ∀ b, x.isLive b = true → b ∉ rows → x.Outranks score k a b := by
  have hrows : (x.offered score (List.range x.rows.length)).map (fun entry => (ofLex entry).2) = x.ones := by
    rw [offered, List.map_map]
    exact List.map_id _
  have hsorted : (x.offered score (List.range x.rows.length)).Pairwise fun a b => (ofLex a).2 < (ofLex b).2 := by
    rw [← List.pairwise_map, hrows]
    exact List.pairwise_lt_range.filter _
  obtain ⟨dropped, hkeyed⟩ := TopK.keyed_select (min (rerankWidth k) x.rows.length) hsorted
  have hall := hkeyed.perm.map fun entry => (ofLex entry).2
  rw [List.map_append, hrows] at hall
  have hentry : ∀ e ∈ TopK.select TopK.beatsKey (min (rerankWidth k) x.rows.length)
      (x.offered score (List.range x.rows.length)) ++ dropped, e = toLex (x.blockKey score (ofLex e).2, (ofLex e).2) := by
    intro e he
    obtain ⟨row, -, rfl⟩ := List.mem_map.mp (hkeyed.perm.subset he)
    rfl
  refine ⟨_, rfl, (List.nodup_append.mp (hall.nodup_iff.mpr (List.nodup_range.filter _))).1, ?_,
    fun row hrow => mem_ones.mp (hall.subset (List.mem_append_left _ hrow)), fun a ha b hb hout => ?_⟩
  · have hsum := hall.length_eq
    have hle := List.length_filter_le x.isLive (List.range x.rows.length)
    have hones : x.ones.length = x.len := (length_ones x).trans hx.count.symm
    have hfull := hkeyed.full
    have hmost := hkeyed.length_le
    rw [List.length_append, List.length_map, List.length_map] at hsum
    rw [List.length_range] at hle
    rw [List.length_map]
    change x.ones.length ≤ _ at hle
    -- the heap is full or has all live rows
    by_cases hnone : dropped = []
    · rw [hnone, List.length_nil] at hsum
      omega
    · have := hfull hnone
      omega
  · obtain ⟨e, he, rfl⟩ := List.mem_map.mp ha
    obtain ⟨d, hd, rfl⟩ := List.mem_map.mp
      ((List.mem_append.mp (hall.mem_iff.mpr (mem_ones.mpr hb))).resolve_left hout)
    have hrank := hkeyed.outranks e he d hd
    rwa [hentry e (List.mem_append_left _ he), hentry d (List.mem_append_right _ hd)] at hrank

/-- The block search scores the rows of the row-major search exactly, if and only if those with the highest proxies
outrank all others by their keys; and of no rows at all both score none. -/
theorem block_candidates_agree (hx : x.Counted) (hkind : x.kind = .turboQuant 4) (hproxy : x.DistinctProxies score) :
    (∃ rows, x.blockCandidates score k = some rows ∧ ∀ row, row ∈ rows ↔ row ∈ x.quantizedCandidates score k) ↔
      (0 < k ∨ x.len = 0) ∧ ∃ rows, Chosen x score k rows ∧
        ∀ a ∈ rows, ∀ b, x.isLive b = true → b ∉ rows → x.Outranks score k a b := by
  have hquantized := chosen_quantized (k := k) hx hproxy
  by_cases hnone : k = 0 ∨ x.liveCount = 0
  · -- the block search returns at once; the row-major one does so only without rows
    have hblock : x.blockCandidates score k = some [] := by
      rw [blockCandidates, if_neg (not_not.mpr hkind), if_pos hnone]
    have hwidth : 0 < rerankWidth k := Nat.lt_of_lt_of_le (by decide) (Nat.le_max_right _ _)
    constructor
    · rintro ⟨rows, hrows, hiff⟩
      obtain rfl := Option.some.inj (hblock.symm.trans hrows)
      have hempty : x.quantizedCandidates score k = [] :=
        List.eq_nil_iff_forall_not_mem.mpr fun row hrow => List.not_mem_nil ((hiff row).mpr hrow)
      have hlen := hquantized.length
      rw [hempty, List.length_nil] at hlen
      refine ⟨.inr (by omega), [], ?_, by simp⟩
      exact hempty ▸ hquantized
    · rintro ⟨hlive, -⟩
      have hlen : x.len = 0 := by
        change x.liveCount = 0
        change 0 < k ∨ x.liveCount = 0 at hlive
        omega
      have hempty := hquantized.length
      rw [hlen, Nat.min_zero] at hempty
      exact ⟨[], hblock, fun row => by rw [List.eq_nil_of_length_eq_zero hempty]⟩
  · have hpos : 0 < k := by omega
    obtain ⟨rows, hrows, hnodup, hlength, hlive, habove⟩ := outranks_block hx score k
    have hblock := @blockCandidates_eq x score k hkind hpos fun hzero => hnone (.inr hzero)
    rw [hrows] at hblock
    constructor
    · rintro ⟨out, hout, hiff⟩
      obtain rfl := Option.some.inj (hblock.symm.trans hout)
      exact ⟨.inl hpos, _, hquantized, fun a ha b hb hb' =>
        habove a ((hiff a).mpr ha) b hb fun hin => hb' ((hiff b).mp hin)⟩
    · rintro ⟨-, chosen, hchosen, hranks⟩
      refine ⟨rows, hblock, fun row => Iff.trans ?_ (hchosen.mem_iff hquantized row)⟩
      -- both choices are as long, and what only one has outranks what only the other has
      exact TopK.mem_iff_of_above (r := fun b a => x.Outranks score k a b) (fun _ _ h => h.asymm) hnodup hchosen.nodup
        (hlength.trans hchosen.length.symm) (fun a ha b hb => habove a ha b (hchosen.live b hb))
        (fun b hb a ha => hranks b hb a (hlive a ha)) row

/-- Two full blocks and one more row. -/
def twoBlocks : FlatIndex :=
  ((List.range 65).map fun i => FlatOp.insert (UInt64.ofNat i) [0x3f800000, 0]).foldl FlatOp.run (new 2 (.turboQuant 4))

theorem counted_twoBlocks : twoBlocks.Counted := ((counted_new 2 (.turboQuant 4)).runs _).1

theorem lt_of_isLive_twoBlocks {row : Nat} (h : twoBlocks.isLive row = true) : row < 65 := by
  have hrow := List.mem_range.mp (List.mem_filter.mp (mem_ones.mpr h)).1
  exact hrow.trans_eq (by decide +kernel)

/-- Scores that rise with the row, so that the row behind the blocks is the closest. -/
def rising (row : Nat) : ℚ := (row + 1) / 1000

theorem block_candidates_agree_twoBlocks :
    ∃ rows, twoBlocks.blockCandidates rising 1 = some rows ∧
      ∀ row, row ∈ rows ↔ row ∈ twoBlocks.quantizedCandidates rising 1 := by
  have hproxy : ∀ row < 65, tqProxy (rising row) = (row + 1) * 10000 := by decide +kernel
  have hkey : ∀ row < 65, twoBlocks.blockKey rising row = (row + 1) * if row < 64 then 1000 else 10000 := by
    decide +kernel
  have hdistinct : twoBlocks.DistinctProxies rising := fun a b ha hb heq => by
    rw [hproxy a (lt_of_isLive_twoBlocks ha), hproxy b (lt_of_isLive_twoBlocks hb)] at heq
    omega
  -- all but the first row are chosen
  have hfirst : ∀ b, twoBlocks.isLive b = true → b ∉ List.range' 1 64 → b = 0 := fun b hb hout => by
    have := lt_of_isLive_twoBlocks hb
    rw [List.mem_range'_1] at hout
    omega
  refine (block_candidates_agree counted_twoBlocks (by decide +kernel) hdistinct).mpr
    ⟨.inl (by decide), List.range' 1 64, ⟨List.nodup_range', by decide +kernel, by decide +kernel, ?_⟩, ?_⟩
  · intro a ha b hb hout
    obtain rfl := hfirst b hb hout
    have := List.mem_range'_1.mp ha
    rw [hproxy a (by omega), hproxy 0 (by decide)]
    omega
  · intro a ha b hb hout
    obtain rfl := hfirst b hb hout
    have := List.mem_range'_1.mp ha
    apply outranks_of_key_lt
    rw [hkey a (by omega), hkey 0 (by decide)]
    split_ifs <;> omega

/-- The same, but the row behind the blocks is the farthest. -/
def lastFarthest (row : Nat) : ℚ := if row = 64 then 1 / 1000 else (row + 2) / 1000

/-- The row behind the blocks has the lowest proxy, and is kept all the same: its key is ten times too high. -/
theorem tail_outranks_block :
    twoBlocks.Counted ∧ twoBlocks.kind = .turboQuant 4 ∧ twoBlocks.DistinctProxies lastFarthest ∧
      (twoBlocks.blockCandidates lastFarthest 1).any (64 ∈ ·) = true ∧
      64 ∉ twoBlocks.quantizedCandidates lastFarthest 1 := by
  refine ⟨counted_twoBlocks, by decide +kernel, ?_, by decide +kernel, by decide +kernel⟩
  intro a b ha hb heq
  have hproxy : ∀ row < 65, tqProxy (lastFarthest row) = if row = 64 then 10000 else (row + 2) * 10000 := by
    decide +kernel
  rw [hproxy a (lt_of_isLive_twoBlocks ha), hproxy b (lt_of_isLive_twoBlocks hb)] at heq
  split_ifs at heq <;> omega

end FlatIndex

end Vector

end Skeg
