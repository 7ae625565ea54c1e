import Skeg.Vector.Visited
import Skeg.Vector.Walk
import Mathlib.Data.Nat.Bitwise

/-!
# The words of the bitset are a finite set

Any calls with indices below the capacity are answered as by the set of the walk, and the iterator then yields the
members of that set in ascending order (`visited_refines_set`).

`Represents` relates the words to a set: bit `i % 64` of word `i / 64` is set exactly for the members.  Every call
keeps it (`Represents.call`).  The iterator has its own invariant: what it has still to yield (`Pending`) are the bits
left in its word and those of the words behind.  `advance` leaves this as it is, and `next` takes the least one away,
because `w &&& (w - 1)` is `w` without its lowest bit (`getLsbD_and_sub_one`).
-/

namespace Skeg.Vector.Visited

/-! ### Words -/

/-- Taking one off borrows from the lowest bit that is set. -/
theorem testBit_sub_one {x k : Nat} (hk : x.testBit k) (hlow : ∀ j < k, x.testBit j = false) (j : Nat) :
    (x - 1).testBit j = if j ≤ k then decide (j < k) else x.testBit j := by
  have hmod : x % 2 ^ (k + 1) = 2 ^ k := by
    refine Nat.eq_of_testBit_eq fun i => ?_
    rw [Nat.testBit_mod_two_pow, Nat.testBit_two_pow]
    rcases Nat.lt_trichotomy i k with hi | rfl | hi
    · simp [hlow i hi, Nat.ne_of_gt hi]
    · simp [hk]
    · simp [Nat.not_lt.mpr hi, Nat.ne_of_lt hi]
  have hpos : 0 < 2 ^ k := Nat.two_pow_pos k
  have hpow : 2 ^ (k + 1) = 2 ^ k * 2 := Nat.pow_succ ..
  have hx : 2 ^ (k + 1) * (x / 2 ^ (k + 1)) + 2 ^ k = x := by
    conv_rhs => rw [← Nat.div_add_mod x (2 ^ (k + 1)), hmod]
  have hsub : x - 1 = 2 ^ (k + 1) * (x / 2 ^ (k + 1)) + (2 ^ k - 1) := by omega
  rw [hsub, Nat.testBit_two_pow_mul_add _ (by omega), Nat.testBit_two_pow_sub_one]
  by_cases hj : j ≤ k
  · rw [if_pos (by omega), if_pos hj]
  · conv_rhs => rw [if_neg hj, ← hx, Nat.testBit_two_pow_mul_add _ (by omega)]
    rw [if_neg (by omega), if_neg (by omega)]

theorem getLsbD_and_sub_one {w : Word} (hw : w ≠ 0) (j : Nat) :
    (w &&& (w - 1)).getLsbD j = (w.getLsbD j && decide (j ≠ w.ctz.toNat)) := by
  have hpos : 1 ≤ w.toNat := by
    rcases Nat.eq_zero_or_pos w.toNat with h | h
    · exact absurd (BitVec.eq_of_toNat_eq h) hw
    · exact h
  have hsub : (w - 1).toNat = w.toNat - 1 := by
    rw [BitVec.toNat_sub_of_le (by simpa [BitVec.le_def] using hpos)]
    rfl
  have hset : w.toNat.testBit w.ctz.toNat = true := BitVec.getLsbD_true_ctz_of_ne_zero hw
  have hlow : ∀ i < w.ctz.toNat, w.toNat.testBit i = false := fun i hi => BitVec.getLsbD_false_of_lt_ctz hi
  have hbit : (w - 1).getLsbD j = if j ≤ w.ctz.toNat then decide (j < w.ctz.toNat) else w.getLsbD j := by
    rw [BitVec.getLsbD, hsub, testBit_sub_one hset hlow]
    rfl
  rw [BitVec.getLsbD_and, hbit]
  rcases Nat.lt_trichotomy j w.ctz.toNat with hj | hj | hj
  · have hzero : w.getLsbD j = false := hlow j hj
    simp [hzero]
  · simp [hj]
  · rw [if_neg (by omega), Bool.and_self, decide_eq_true (by omega), Bool.and_true]

@[simp] theorem zero_getLsbD (j : Nat) : (0 : Word).getLsbD j = false := BitVec.getLsbD_zero

theorem getLsbD_mask {k : Nat} (hk : k < wordBits) (j : Nat) : (1#64 <<< k).getLsbD j = decide (k = j) := by
  have hk : k < 64 := hk
  rw [show 1#64 <<< k = BitVec.twoPow 64 k from rfl, BitVec.getLsbD_twoPow, decide_eq_true hk, Bool.true_and]

theorem and_mask_ne_zero {k : Nat} (hk : k < wordBits) (w : Word) :
    decide (w &&& 1#64 <<< k ≠ 0) = w.getLsbD k := by
  cases hbit : w.getLsbD k with
  | false =>
    have hzero : w &&& 1#64 <<< k = 0 := by
      refine BitVec.eq_of_getLsbD_eq fun j _ => ?_
      rw [BitVec.getLsbD_and, getLsbD_mask hk]
      by_cases hj : k = j
      · simp [← hj, hbit]
      · simp [hj]
    simp [hzero]
  | true =>
    refine decide_eq_true fun hzero => ?_
    have hfalse := congrArg (BitVec.getLsbD · k) hzero
    simp only [BitVec.getLsbD_and, getLsbD_mask hk, hbit] at hfalse
    simp at hfalse

/-! ### The words of a set -/

/-- Bit `i` of the words. -/
def bitAt (bits : List Word) (i : Nat) : Bool := (bits[i / wordBits]?.getD 0).getLsbD (i % wordBits)

theorem bitAt_of_getElem? {bits : List Word} {i : Nat} {w : Word} (h : bits[i / wordBits]? = some w) :
    bitAt bits i = w.getLsbD (i % wordBits) := by
  rw [bitAt, h, Option.getD_some]

theorem mod_lt (i : Nat) : i % wordBits < wordBits := Nat.mod_lt _ (by decide)

theorem bitAt_set {bits : List Word} {i : Nat} {w : Word} (h : bits[i / wordBits]? = some w) (j : Nat) :
    bitAt (bits.set (i / wordBits) (w ||| 1#64 <<< (i % wordBits))) j = (decide (i = j) || bitAt bits j) := by
  by_cases hword : i / wordBits = j / wordBits
  · have hlt := (List.getElem?_eq_some_iff.mp h).1
    have hj : bits[j / wordBits]? = some w := hword ▸ h
    rw [bitAt_of_getElem? hj, bitAt, ← hword, List.getElem?_set_self hlt, Option.getD_some, BitVec.getLsbD_or,
      getLsbD_mask (mod_lt i), Bool.or_comm]
    congr 1
    have hi := Nat.div_add_mod i wordBits
    have hj := Nat.div_add_mod j wordBits
    rw [hword] at hi
    exact decide_eq_decide.mpr ⟨fun h => by omega, fun h => by rw [h]⟩
  · have hne : i ≠ j := fun h => hword (by rw [h])
    rw [bitAt, List.getElem?_set_ne hword, decide_eq_false hne, Bool.false_or]
    rfl

/-- The words hold the members of the set. -/
structure Represents (b : VisitedBitset) (s : Vector.VisitedBitset) : Prop where
  capacity : b.capacity = s.capacity
  length : b.bits.length = (s.capacity + wordBits - 1) / wordBits
  bitAt : ∀ i, bitAt b.bits i = decide (i ∈ s.bits)
  below : ∀ i ∈ s.bits, i < s.capacity

namespace Represents

variable {b : VisitedBitset} {s : Vector.VisitedBitset} {debug : Bool} {idx : Nat}

theorem getElem? (hb : Represents b s) (hidx : idx < s.capacity) : ∃ w, b.bits[idx / wordBits]? = some w := by
  have hlt : idx / wordBits < b.bits.length := by
    rw [hb.length]
    unfold wordBits
    omega
  exact ⟨_, List.getElem?_eq_getElem hlt⟩

theorem not_asserted (hb : Represents b s) (hidx : idx < s.capacity) : ¬(debug = true ∧ b.capacity ≤ idx) := by
  rw [hb.capacity]
  omega

theorem testAndSet (hb : Represents b s) (hidx : idx < s.capacity) :
    ∃ b', b.testAndSet debug idx = .ok (decide (idx ∈ s.bits), b') ∧
      Represents b' { s with bits := insert idx s.bits } := by
  obtain ⟨w, hw⟩ := hb.getElem? hidx
  have hset : b.testAndSet debug idx = .ok (decide (idx ∈ s.bits),
      { b with bits := b.bits.set (idx / wordBits) (w ||| 1#64 <<< (idx % wordBits)) }) := by
    rw [VisitedBitset.testAndSet, if_neg (hb.not_asserted hidx)]
    simp only [hw, and_mask_ne_zero (mod_lt idx)]
    rw [← bitAt_of_getElem? hw, hb.bitAt]
  refine ⟨_, hset, hb.capacity, List.length_set.trans hb.length, fun i => ?_, ?_⟩
  · rw [bitAt_set hw, hb.bitAt, ← Bool.decide_or]
    exact decide_eq_decide.mpr (by rw [Finset.mem_insert, eq_comm])
  · intro i hi
    rcases Finset.mem_insert.mp hi with rfl | hi
    · exact hidx
    · exact hb.below i hi

theorem isSet (hb : Represents b s) (hidx : idx < s.capacity) :
    b.isSet debug idx = .ok (decide (idx ∈ s.bits)) := by
  obtain ⟨w, hw⟩ := hb.getElem? hidx
  rw [VisitedBitset.isSet, if_neg (hb.not_asserted hidx)]
  simp only [hw, and_mask_ne_zero (mod_lt idx)]
  rw [← bitAt_of_getElem? hw, hb.bitAt]

theorem clear (hb : Represents b s) : Represents b.clear { s with bits := ∅ } where
  capacity := hb.capacity
  length := List.length_map _ |>.trans hb.length
  bitAt i := by
    rw [Visited.bitAt, VisitedBitset.clear, List.getElem?_map]
    cases b.bits[i / wordBits]? <;> simp
  below i hi := absurd hi (Finset.notMem_empty i)

end Represents

theorem represents_new {n : Nat} (hn : n < 2 ^ 32) :
    ∃ b, VisitedBitset.new n = .ok b ∧ Represents b (Vector.VisitedBitset.new n) := by
  refine ⟨_, if_pos hn, rfl, List.length_replicate, fun i => ?_, fun i hi => absurd hi (Finset.notMem_empty i)⟩
  rw [bitAt, List.getElem?_replicate, Vector.VisitedBitset.new]
  split <;> simp

/-! ### The iterator -/

namespace SetBitsIter

/-- What is still to be yielded: the bits left in the word, and those of the words behind it. -/
def Pending (it : SetBitsIter) (i : Nat) : Prop :=
  i / wordBits = it.wordIdx ∧ it.currentWord.getLsbD (i % wordBits) = true ∨
    it.wordIdx < i / wordBits ∧ bitAt it.bits i = true

theorem bitAt_of_length_le {bits : List Word} {i : Nat} (h : bits.length ≤ i / wordBits) : bitAt bits i = false := by
  rw [bitAt, List.getElem?_eq_none h]
  exact zero_getLsbD _

/-- The loop stops at a word with a bit, or there is none left. -/
theorem advance_spec (it : SetBitsIter) :
    (it.advance.1 = true → it.advance.2.currentWord ≠ 0 ∧ ∀ i, it.advance.2.Pending i ↔ it.Pending i) ∧
      (it.advance.1 = false → ∀ i, ¬it.Pending i) := by
  fun_induction advance it with
  | case1 it hzero hlt ih =>
    -- a word without bits has nothing pending
    have hskip : ∀ i, SetBitsIter.Pending
        { it with wordIdx := it.wordIdx + 1, currentWord := it.bits[it.wordIdx + 1] } i ↔ it.Pending i := by
      intro i
      simp only [Pending, hzero, zero_getLsbD, Bool.false_eq_true, and_false, false_or]
      constructor
      · rintro (⟨hword, hbit⟩ | ⟨hword, hbit⟩)
        · have hget : it.bits[i / wordBits]? = some it.bits[it.wordIdx + 1] := by
            rw [hword, List.getElem?_eq_getElem hlt]
          exact ⟨by omega, by rw [bitAt_of_getElem? hget, hbit]⟩
        · exact ⟨by omega, hbit⟩
      · rintro ⟨hword, hbit⟩
        rcases Nat.lt_or_eq_of_le (Nat.succ_le_of_lt hword) with hword | hword
        · exact .inr ⟨hword, hbit⟩
        · have hget : it.bits[i / wordBits]? = some it.bits[it.wordIdx + 1] := by
            rw [← hword, List.getElem?_eq_getElem hlt]
          exact .inl ⟨hword.symm, by rw [← bitAt_of_getElem? hget, hbit]⟩
    refine ⟨fun h => ?_, fun h i hi => ih.2 h i ((hskip i).mpr hi)⟩
    obtain ⟨hne, hpending⟩ := ih.1 h
    exact ⟨hne, fun i => (hpending i).trans (hskip i)⟩
  | case2 it hzero hlt =>
    refine ⟨fun h => absurd h (by simp), fun _ i hi => ?_⟩
    rcases hi with ⟨_, hbit⟩ | ⟨hword, hbit⟩
    · rw [hzero] at hbit
      exact absurd hbit (by simp)
    · rw [bitAt_of_length_le (by omega)] at hbit
      cases hbit
  | case3 it hne => exact ⟨fun _ => ⟨hne, fun _ => Iff.rfl⟩, fun h => absurd h (by simp)⟩

/-- The lowest bit of the word is the least one pending, and clearing it leaves the others. -/
theorem pending_pop {it : SetBitsIter} (hne : it.currentWord ≠ 0) :
    it.Pending (it.wordIdx * wordBits + it.currentWord.ctz.toNat) ∧
      (∀ j, it.Pending j → it.wordIdx * wordBits + it.currentWord.ctz.toNat ≤ j) ∧
      ∀ j, Pending { it with currentWord := it.currentWord &&& (it.currentWord - 1) } j ↔
        it.Pending j ∧ j ≠ it.wordIdx * wordBits + it.currentWord.ctz.toNat := by
  have hctz : it.currentWord.ctz.toNat < wordBits := BitVec.lt_def.mp (BitVec.ctz_lt_iff_ne_zero.mpr hne)
  have hset : it.currentWord.getLsbD it.currentWord.ctz.toNat = true := BitVec.getLsbD_true_ctz_of_ne_zero hne
  generalize hk : it.currentWord.ctz.toNat = k at *
  have hdiv : (it.wordIdx * wordBits + k) / wordBits = it.wordIdx := by
    unfold wordBits at *
    omega
  have hmod : (it.wordIdx * wordBits + k) % wordBits = k := by
    unfold wordBits at *
    omega
  refine ⟨.inl ⟨hdiv, by rw [hmod, hset]⟩, fun j hj => ?_, fun j => ?_⟩
  · have hj' := Nat.div_add_mod' j wordBits
    rcases hj with ⟨hword, hbit⟩ | ⟨hword, _⟩
    · have hle : k ≤ j % wordBits := by
        by_contra hlt
        rw [BitVec.getLsbD_false_of_lt_ctz (by omega)] at hbit
        cases hbit
      rw [hword] at hj'
      omega
    · have := Nat.mul_le_mul_right wordBits hword
      rw [Nat.succ_mul] at this
      omega
  · have hsame : j = it.wordIdx * wordBits + k ↔ j / wordBits = it.wordIdx ∧ j % wordBits = k := by
      unfold wordBits at *
      omega
    simp only [Pending, getLsbD_and_sub_one hne, hk, Bool.and_eq_true, decide_eq_true_eq, ne_eq, hsame]
    constructor
    · rintro (⟨hword, hbit, hneq⟩ | ⟨hword, hbit⟩)
      · exact ⟨.inl ⟨hword, hbit⟩, fun h => hneq h.2⟩
      · exact ⟨.inr ⟨hword, hbit⟩, fun h => absurd h.1 (by omega)⟩
    · rintro ⟨⟨hword, hbit⟩ | ⟨hword, hbit⟩, hneq⟩
      · exact .inl ⟨hword, hbit, fun h => hneq ⟨hword, h⟩⟩
      · exact .inr ⟨hword, hbit⟩

/-- A call takes the least index that is pending; without one, it yields nothing. -/
theorem next_spec {it : SetBitsIter} (hfits : ∀ i, it.Pending i → i < 2 ^ 32) :
    (∃ i, it.next.1 = some i ∧ it.Pending i ∧ (∀ j, it.Pending j → i ≤ j) ∧
      ∀ j, it.next.2.Pending j ↔ it.Pending j ∧ j ≠ i) ∨ it.next.1 = none ∧ ∀ i, ¬it.Pending i := by
  obtain ⟨hfound, hend⟩ := it.advance_spec
  rw [next]
  generalize it.advance = r at hfound hend ⊢
  obtain ⟨_ | _, it'⟩ := r
  · exact .inr ⟨rfl, hend rfl⟩
  · obtain ⟨hne, hpending⟩ := hfound rfl
    obtain ⟨hmem, hleast, hrest⟩ := pending_pop hne
    simp only at hne hpending hmem hleast hrest ⊢
    have hlt := hfits _ ((hpending _).mp hmem)
    have hfirst : it'.wordIdx ≤ it'.wordIdx * wordBits := Nat.le_mul_of_pos_right _ (by decide)
    rw [if_pos ⟨by omega, by omega, hlt⟩]
    refine .inl ⟨_, rfl, (hpending _).mp hmem, fun j hj => hleast j ((hpending j).mpr hj), fun j => ?_⟩
    rw [hrest, hpending]

/-- Collecting yields what is pending, least first. -/
theorem collect_spec {s : Finset Nat} {it : SetBitsIter} (hs : ∀ i, i ∈ s ↔ it.Pending i)
    (hfits : ∀ i ∈ s, i < 2 ^ 32) {fuel : Nat} (hfuel : s.card < fuel) :
    ∃ l, it.collect fuel = some l ∧ l.Pairwise (· < ·) ∧ ∀ i, i ∈ l ↔ i ∈ s := by
  induction fuel generalizing it s with
  | zero => omega
  | succ fuel ih =>
    rw [collect]
    rcases next_spec fun i hi => hfits i ((hs i).mpr hi) with ⟨i, hnext, hmem, hleast, hrest⟩ | ⟨hnext, hnone⟩
    · have his : i ∈ s := (hs i).mpr hmem
      have hs' : ∀ j, j ∈ s.erase i ↔ it.next.2.Pending j := fun j => by rw [Finset.mem_erase, hs, hrest, and_comm]
      have hcard := Finset.card_erase_lt_of_mem his
      obtain ⟨l, hl, hsorted, hmem⟩ :=
        ih hs' (fun j hj => hfits j (Finset.mem_of_mem_erase hj)) (by omega)
      refine ⟨i :: l, ?_, List.pairwise_cons.mpr ⟨fun j hj => ?_, hsorted⟩, fun j => ?_⟩
      · generalize it.next = r at hnext hl ⊢
        obtain ⟨_, it'⟩ := r
        obtain rfl : _ = some i := hnext
        simp only [hl, Option.map_some]
      · obtain ⟨hne, hj⟩ := Finset.mem_erase.mp ((hmem j).mp hj)
        exact Nat.lt_of_le_of_ne (hleast j ((hs j).mp hj)) (Ne.symm hne)
      · rw [List.mem_cons, hmem, Finset.mem_erase]
        by_cases hj : j = i
        · simp [hj, his]
        · simp [hj]
    · refine ⟨[], ?_, .nil, fun i => iff_of_false (List.not_mem_nil) fun hi => hnone i ((hs i).mp hi)⟩
      generalize it.next = r at hnext ⊢
      obtain ⟨_, it'⟩ := r
      obtain rfl : _ = none := hnext
      rfl

end SetBitsIter

theorem pending_iter (b : VisitedBitset) (i : Nat) : b.iter.Pending i ↔ bitAt b.bits i = true := by
  have hhead : b.bits.head? = b.bits[0]? := List.head?_eq_getElem? ..
  rw [SetBitsIter.Pending, VisitedBitset.iter, hhead]
  rcases Nat.eq_zero_or_pos (i / wordBits) with hzero | hpos
  · simp [hzero, bitAt]
  · simp [hpos, Nat.ne_of_gt hpos]

/-! ### The set -/

/-- The calls on the set of the walk. -/
def setCall (s : Finset Nat) : Call → Option Bool × Finset Nat
  | .testAndSet idx => (some (decide (idx ∈ s)), insert idx s)
  | .isSet idx => (some (decide (idx ∈ s)), s)
  | .clear => (none, ∅)

def setCalls (s : Finset Nat) : List Call → List (Option Bool) × Finset Nat
  | [] => ([], s)
  | c :: cs =>
    let r := setCalls (setCall s c).2 cs
    ((setCall s c).1 :: r.1, r.2)

variable {n : Nat} {debug : Bool}

theorem Represents.call {b : VisitedBitset} {s : Finset Nat} (hb : Represents b ⟨s, n⟩) {c : Call} (hc : c.Below n) :
    ∃ b', b.call debug c = .ok ((setCall s c).1, b') ∧ Represents b' ⟨(setCall s c).2, n⟩ := by
  cases c with
  | testAndSet idx =>
    obtain ⟨b', hset, hb'⟩ := hb.testAndSet hc
    exact ⟨b', by rw [VisitedBitset.call, hset]; rfl, hb'⟩
  | isSet idx => exact ⟨b, by rw [VisitedBitset.call, hb.isSet hc]; rfl, hb⟩
  | clear => exact ⟨_, rfl, hb.clear⟩

theorem Represents.calls {b : VisitedBitset} {s : Finset Nat} (hb : Represents b ⟨s, n⟩) {cs : List Call}
    (hcs : ∀ c ∈ cs, c.Below n) :
    ∃ b', b.calls debug cs = .ok ((setCalls s cs).1, b') ∧ Represents b' ⟨(setCalls s cs).2, n⟩ := by
  induction cs generalizing b s with
  | nil => exact ⟨b, rfl, hb⟩
  | cons c cs ih =>
    obtain ⟨b₁, hcall, hb₁⟩ := hb.call (hcs c (by simp))
    obtain ⟨b₂, hcalls, hb₂⟩ := ih hb₁ fun c hc => hcs c (by simp [hc])
    refine ⟨b₂, ?_, hb₂⟩
    rw [VisitedBitset.calls, hcall]
    simp only [hcalls, Except.map, setCalls]

/-- For every capacity below `2 ^ 32` and all calls with indices below it, the bitset answers as the set of the
indices set since the last `clear`, and `iter` yields the members of that set, each once and in ascending order. -/
theorem visited_refines_set (debug : Bool) {n : Nat} (hn : n < 2 ^ 32) (cs : List Call) (hcs : ∀ c ∈ cs, c.Below n) :
    ∃ b₀ b, VisitedBitset.new n = .ok b₀ ∧ b₀.calls debug cs = .ok ((setCalls ∅ cs).1, b) ∧
      ∀ fuel > n, ∃ l, b.iter.collect fuel = some l ∧ l.Pairwise (· < ·) ∧ ∀ i, i ∈ l ↔ i ∈ (setCalls ∅ cs).2 := by
  obtain ⟨b₀, hnew, hb₀⟩ := represents_new hn
  obtain ⟨b, hcalls, hb⟩ := hb₀.calls hcs
  refine ⟨b₀, b, hnew, hcalls, fun fuel hfuel => ?_⟩
  have hcard : (setCalls ∅ cs).2.card ≤ n := by
    have hsub : (setCalls ∅ cs).2 ⊆ Finset.range n := fun i hi => Finset.mem_range.mpr (hb.below i hi)
    simpa using Finset.card_le_card hsub
  refine SetBitsIter.collect_spec (fun i => ?_) (fun i hi => (hb.below i hi).trans hn) (Nat.lt_of_le_of_lt hcard hfuel)
  rw [pending_iter, hb.bitAt, decide_eq_true_eq]

theorem visited_refines_set_two_words :
    ∃ b₀ b, VisitedBitset.new 100 = .ok b₀ ∧
      b₀.calls true [.testAndSet 3, .clear, .testAndSet 99, .testAndSet 7, .isSet 3, .testAndSet 99] =
        .ok ([some false, none, some false, some false, some false, some true], b) ∧
      ∀ fuel > 100, ∃ l, b.iter.collect fuel = some l ∧ l.Pairwise (· < ·) ∧ ∀ i, i ∈ l ↔ i ∈ ({7, 99} : Finset Nat) :=
  visited_refines_set true (by decide) [.testAndSet 3, .clear, .testAndSet 99, .testAndSet 7, .isSet 3, .testAndSet 99]
    (by decide)

end Skeg.Vector.Visited
