import Skeg.Vector.Equiv.Assoc
import Skeg.Server.Reserve
import Mathlib.Algebra.Order.BigOperators.Group.List
import Mathlib.Tactic.Ring

/-!
# What a search may reserve

The arguments of a VSEARCH go into the sizes unchecked: `k + 1` in the heap of a flat index without quantisation,
`k * 8` in the rerank of a disk index and of every filtered search, and both numbers in the lists of the walks.  What is
reserved is at most `c` times the rows exactly when these sizes are, where they are computed (`reserved_bounded`).
-/

namespace Skeg

namespace Vector

theorem usize_eq {n : Nat} (h : n < 2 ^ 64) : usize n = .ok n := if_pos h

/-- Different ids are in different rows, so that there are no more of them than rows. -/
theorem Segment.length_rows_le (s : Segment) {ids : List UInt64} (h : ids.Nodup) :
    (ids.filterMap s.row).length ≤ s.mainN := by
  have hnodup : (ids.filterMap s.row).Nodup := h.filterMap fun a b row ha hb => by
    have hat := (Segment.ids_of_row ha).symm.trans (Segment.ids_of_row hb)
    exact Option.some.inj hat
  have hsub : ids.filterMap s.row ⊆ List.range s.mainN := by
    intro row hrow
    obtain ⟨id, -, hid⟩ := List.mem_filterMap.mp hrow
    exact List.mem_range.mpr (List.getElem?_eq_some_iff.mp (Segment.ids_of_row hid)).1
  have hle := (List.subperm_of_subset hnodup hsub).length_le
  rwa [List.length_range] at hle

/-- The sizes are computed without overflow, and are at most `bound`. -/
def Within (bound : Nat) (r : Except Fault (List Nat)) : Prop := ∃ caps, r = .ok caps ∧ ∀ cap ∈ caps, cap ≤ bound

theorem within_nil (bound : Nat) : Within bound (.ok []) := ⟨[], rfl, by simp⟩

theorem within_usize {bound n : Nat} : Within bound ((usize n).map ([·])) ↔ n < 2 ^ 64 ∧ n ≤ bound := by
  unfold usize
  split_ifs with h
  · constructor
    · rintro ⟨caps, hcaps, hall⟩
      cases hcaps
      exact ⟨h, hall n List.mem_cons_self⟩
    · exact fun hn => ⟨[n], rfl, fun cap hcap => (List.mem_singleton.mp hcap).trans_le hn.2⟩
  · refine ⟨?_, fun hn => absurd hn.1 h⟩
    rintro ⟨caps, hcaps, -⟩
    cases hcaps

variable {bound k lSearch : Nat}

theorem FlatIndex.within_reserved {x : FlatIndex} (hrows : x.rows.length < 2 ^ 60) (hlive : x.liveCount ≤ x.rows.length)
    (hbound : x.rows.length + 1 ≤ bound) :
    Within bound (x.reserved k) ↔
      k = 0 ∨ x.liveCount = 0 ∨ (x.kind = .f32 → k + 1 < 2 ^ 64 ∧ k + 1 ≤ bound) := by
  rw [FlatIndex.reserved]
  split_ifs with hnone
  · exact ⟨fun _ => hnone.imp_right .inl, fun _ => within_nil bound⟩
  · obtain ⟨hk, hl⟩ := not_or.mp hnone
    split
    · next hf32 => simp only [within_usize, hk, hl, hf32, false_or, true_imp_iff]
    -- a quantised scan keeps no more than there is
    · next hkind =>
      rw [within_usize, hkind]
      refine ⟨fun _ => .inr (.inr fun h => by cases h), fun _ => ?_⟩
      have := Nat.min_le_right (rerankWidth k) x.rows.length
      omega
    · next hf32 _ =>
      rw [within_usize]
      refine ⟨fun _ => .inr (.inr fun h => absurd h hf32), fun _ => ?_⟩
      have := Nat.min_le_right (rerankWidth k) x.liveCount
      omega

namespace Index

variable {x : Index}

/-- The length of the list of a walk in segment number `i`. -/
def walkList (x : Index) (k lSearch i : Nat) : Nat :=
  max (max (if i = 0 then (if lSearch = 0 then x.lSearch else lSearch) else max (k * 4) 16) k) 1

theorem within_reservedWalks (hfit : k * 8 < 2 ^ 64) (hl32 : lSearch < 2 ^ 32) (hown : x.lSearch < 2 ^ 32) (i : Nat)
    {segs : List Segment} (hsegs : ∀ seg ∈ segs, seg.mainN ≤ bound) :
    Within bound (x.reservedWalks k lSearch i segs) ↔
      ∀ j seg, segs[j]? = some seg → seg.mainN ≠ 0 → x.walkList k lSearch (i + j) + 1 ≤ bound := by
  induction segs generalizing i with
  | nil => exact ⟨fun _ j seg h => by simp at h, fun _ => within_nil bound⟩
  | cons seg segs ih =>
    have hrest := ih (i + 1) fun s hs => hsegs s (List.mem_cons_of_mem _ hs)
    have hsplit : (∀ j seg', (seg :: segs)[j]? = some seg' → seg'.mainN ≠ 0 → x.walkList k lSearch (i + j) + 1 ≤ bound) ↔
        (seg.mainN ≠ 0 → x.walkList k lSearch i + 1 ≤ bound) ∧ Within bound (x.reservedWalks k lSearch (i + 1) segs) := by
      rw [hrest]
      constructor
      · intro h
        refine ⟨fun hne => h 0 seg rfl hne, fun j seg' hj hne => ?_⟩
        have := h (j + 1) seg' hj hne
        rwa [show i + (j + 1) = i + 1 + j by omega] at this
      · rintro ⟨hseg, htail⟩ (_ | j) seg' hj hne
        · cases hj
          exact hseg hne
        · have := htail j seg' hj hne
          rwa [show i + 1 + j = i + (j + 1) by omega] at this
    rw [hsplit, reservedWalks]
    split_ifs with hempty
    · simp [hempty]
    · obtain ⟨base, hbase, hlist⟩ : ∃ base, x.walkBase k lSearch i = .ok base ∧
          max (max base k) 1 = x.walkList k lSearch i := by
        rw [walkBase, walkList]
        split_ifs
        · exact ⟨_, rfl, rfl⟩
        · exact ⟨_, rfl, rfl⟩
        · exact ⟨max (k * 4) 16, by rw [usize_eq (by omega)]; rfl, rfl⟩
      have hsize : x.walkList k lSearch i + 1 < 2 ^ 64 := by
        rw [walkList]
        split_ifs <;> omega
      simp only [hbase, Except.map, bind, Except.bind, hlist, usize_eq hsize]
      have hmain := hsegs seg List.mem_cons_self
      cases hr : x.reservedWalks k lSearch (i + 1) segs with
      | error e =>
        refine ⟨?_, fun h => ?_⟩
        · rintro ⟨caps, hcaps, -⟩
          cases hcaps
        · obtain ⟨caps, hcaps, -⟩ := h.2
          cases hcaps
      | ok rest =>
        constructor
        · rintro ⟨caps, hcaps, hall⟩
          cases hcaps
          simp only [List.forall_mem_cons] at hall
          exact ⟨fun _ => hall.2.2.1, rest, rfl, hall.2.2.2⟩
        · rintro ⟨hseg, caps, hcaps, hall⟩
          cases hcaps
          refine ⟨_, rfl, ?_⟩
          simp only [List.forall_mem_cons]
          exact ⟨hmain, hmain, hseg hempty, hall⟩

theorem reservedHybrid_ok {ids : List UInt64} (hids : ids.Nodup) (hbase : x.base.mainN < 2 ^ 32) (k rerank : Nat) :
    ∃ caps, x.reservedHybrid ids k rerank = .ok caps ∧ ∀ cap ∈ caps, cap ≤ 2 * x.base.mainN := by
  rw [reservedHybrid]
  cases x.ivf with
  | none => exact ⟨[], rfl, by simp⟩
  | some router =>
    have hrows := x.base.length_rows_le hids
    dsimp only
    split_ifs with hshort
    · exact ⟨[], rfl, by simp⟩
    · -- the budget is below the number of matching rows here
      have hdiv := Nat.div_le_self (ids.filterMap x.base.row).length (max router.centroids.length 1)
      refine ⟨_, by rw [usize_eq (by omega)]; rfl, fun cap hcap => ?_⟩
      rw [List.mem_singleton.mp hcap]
      omega

end Index

end Vector

namespace Server

namespace VectorBackend

/-- The numbers fit the types they have in the source: the rows of a flat index are in a vector of ids, the list length
of a disk index and the number of rows of its base are `u32`. -/
def Fits : VectorBackend → Prop
  | flat i => i.rows.length < 2 ^ 60 ∧ i.liveCount ≤ i.rows.length
  | disk i => i.lSearch < 2 ^ 32 ∧ i.base.mainN < 2 ^ 32

/-- The sizes that depend on the arguments do not overflow and are at most `c` times the rows, where they are computed:
the heap of an index without quantisation, and the list of the walk in every segment that has rows. -/
def InProportion (c k lSearch : Nat) : Option (List UInt64) → VectorBackend → Prop
  | some _, _ => k * 8 < 2 ^ 64
  | none, flat i => k = 0 ∨ i.liveCount = 0 ∨ (i.kind = .f32 → k + 1 < 2 ^ 64 ∧ k + 1 ≤ c * ((flat i).rows + 1))
  | none, disk i => k = 0 ∨ i.liveCount = 0 ∨ k * 8 < 2 ^ 64 ∧
      ∀ j seg, i.segs[j]? = some seg → seg.mainN ≠ 0 → i.walkList k lSearch j + 1 ≤ c * ((disk i).rows + 1)

theorem mainN_le_rows {i : Vector.Index} {seg : Vector.Segment} (h : seg ∈ i.segs) : seg.mainN ≤ (disk i).rows := by
  have hle := List.single_le_sum (fun _ _ => Nat.zero_le _) _ (List.mem_map_of_mem (f := Vector.Segment.mainN) h)
  rw [rows]
  omega

/-- A search reserves at most `c` times the rows and overflows no size, if and only if the sizes that depend on its
arguments do not. -/
theorem reserved_bounded {c : Nat} (hc : 2 ≤ c) {b : VectorBackend} {k lSearch : Nat} {ids : Option (List UInt64)}
    (hfits : b.Fits) (hl32 : lSearch < 2 ^ 32) (hids : ∀ l ∈ ids, l.Nodup) :
    (∃ caps, b.reserved k lSearch ids = .ok caps ∧ ∀ cap ∈ caps, cap ≤ c * (b.rows + 1)) ↔
      b.InProportion c k lSearch ids := by
  have hle : 2 * (b.rows + 1) ≤ c * (b.rows + 1) := Nat.mul_le_mul_right _ hc
  change Vector.Within _ _ ↔ _
  cases ids with
  | some ids =>
    rw [InProportion, reserved]
    by_cases hfit : k * 8 < 2 ^ 64
    · simp only [Vector.usize_eq hfit, Except.map, bind, Except.bind, hfit, iff_true]
      cases b with
      | flat i => exact Vector.within_nil _
      | disk i =>
        obtain ⟨caps, hcaps, hbound⟩ := Vector.Index.reservedHybrid_ok (hids ids rfl) hfits.2 k (max (k * 8) 64)
        have hmain : i.base.mainN ≤ (disk i).rows := mainN_le_rows (by simp [Vector.Index.segs])
        refine ⟨caps, hcaps, fun cap hcap => ?_⟩
        have := hbound cap hcap
        omega
    · have hover : Vector.usize (k * 8) = .error _ := if_neg hfit
      simp only [hover, Except.map, bind, Except.bind, hfit, iff_false]
      rintro ⟨caps, hcaps, -⟩
      cases hcaps
  | none =>
    cases b with
    | flat i => exact Vector.FlatIndex.within_reserved hfits.1 hfits.2 (by rw [rows] at *; omega)
    | disk i =>
      rw [InProportion, reserved, Vector.Index.reserved]
      split_ifs with hnone
      · exact ⟨fun _ => hnone.symm.imp_right .inl, fun _ => Vector.within_nil _⟩
      · obtain ⟨hl, hk⟩ := not_or.mp hnone
        simp only [hk, hl, false_or]
        by_cases hfit : k * 8 < 2 ^ 64
        · have hsegs : ∀ seg ∈ i.segs, seg.mainN ≤ c * ((disk i).rows + 1) := fun seg hseg => by
            have := mainN_le_rows hseg
            omega
          have hwalks := Vector.Index.within_reservedWalks (k := k) hfit hl32 hfits.1 0 hsegs
          simp only [Nat.zero_add] at hwalks
          simp only [Vector.usize_eq hfit, bind, Except.bind, hfit, true_and]
          exact hwalks
        · have hover : Vector.usize (k * 8) = .error _ := if_neg hfit
          simp only [hover, bind, Except.bind, hfit, false_and, iff_false]
          rintro ⟨caps, hcaps, -⟩
          cases hcaps

/-- A flat index without quantisation that holds one vector. -/
def oneVector : VectorBackend := flat ((Vector.FlatIndex.new 1 .f32).insert 7 [0x3f800000])

/-- A disk index with one row in its base. -/
def oneRow : VectorBackend := disk
  { dim := 1, lSearch := 100, base := ⟨[7], [Vector.Node.new], 0, [[0x3f800000]], 1⟩, runs := [], runDirs := [],
    tier := .int8, runSeq := 0, delta := ∅, flushing := ∅, autoFlush := true, tombstones := ∅, liveCount := 1, log := 2,
    walFormat := .framedV2, ivf := none }

theorem reserved_bounded_oneRow :
    (∃ caps, oneRow.reserved 10 50 none = .ok caps ∧ ∀ cap ∈ caps, cap ≤ 26 * (oneRow.rows + 1)) ∧
      ¬ ∃ caps, oneRow.reserved 10 50 none = .ok caps ∧ ∀ cap ∈ caps, cap ≤ 25 * (oneRow.rows + 1) := by
  have hfits : oneRow.Fits := ⟨by decide, by decide⟩
  constructor
  · refine (reserved_bounded (by decide) hfits (by decide) (by simp)).mpr (.inr (.inr ⟨by decide, ?_⟩))
    rintro (_ | j) seg hseg -
    · decide
    · simp [Vector.Index.segs] at hseg
  · rw [reserved_bounded (by decide) hfits (by decide) (by simp)]
    rintro (h | h | ⟨-, h⟩)
    · cases h
    · cases h
    · exact absurd (h 0 _ rfl (by decide)) (by decide)

/-- The greatest number a `k` argument can be is one that `k + 1` and `k * 8` overflow on, and a number far beyond the
rows is reserved in full. -/
theorem greatest_k_overflows :
    (parseUsizeArg (utf8 "18446744073709551615") "k").toOption = some (2 ^ 64 - 1) ∧
      (oneVector.reserved (2 ^ 64 - 1) 0 none).toOption = none ∧ (oneRow.reserved (2 ^ 64 - 1) 0 none).toOption = none ∧
      (oneVector.reserved (2 ^ 40) 0 none).toOption = some [2 ^ 40 + 1] := by
  decide +kernel

end VectorBackend

end Server

end Skeg
