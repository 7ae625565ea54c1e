import Skeg.Vector.Ivf
import Skeg.Vector.Exact
import Mathlib.Data.List.Dedup
import Mathlib.Data.List.Perm.Basic
import Mathlib.Data.Bool.AllAny

/-!
# What the coarse router returns

A probe takes whole cells in the order of their similarity to the query and stops when the budget is met
(`gather_spec`).  So what it leaves out is no nearer than what it returns, and it leaves nothing out as long as it
stays below the budget (`router_probes`).  The result is reserved for the whole
budget, which fails for a great one.  The zones of the cells tell where an attribute lies (`Zoned`), which makes
it safe to pass over a cell and to take one without looking at its rows.
-/

namespace Skeg

namespace Vector

/-! ### Ranked cells -/

theorem mapM_eq_map {α β : Type*} {f : α → Option β} {g : α → β} {l : List α} (h : ∀ a ∈ l, f a = some (g a)) :
    l.mapM f = some (l.map g) := by
  induction l with
  | nil => rfl
  | cons a l ih =>
    obtain ⟨ha, hl⟩ := List.forall_mem_cons.mp h
    simp [List.mapM_cons, ha, ih hl]

/-- Sorting by score, highest first, orders the items by it. -/
theorem ranked_spec {σ ι κ : Type*} [LinearOrder σ] (score : ι → σ) (item : ι → κ) (l : List ι) :
    ∃ l' : List ι, l'.Perm l ∧ l'.Pairwise (fun a b => score b ≤ score a) ∧
      ((l.map fun i => (score i, item i)).insertionSort fun a b => b.1 ≤ a.1).map Prod.snd = l'.map item := by
  refine ⟨l.insertionSort fun a b => score b ≤ score a, List.perm_insertionSort _ l, ?_, ?_⟩
  · have : Std.Total fun a b : ι => score b ≤ score a := ⟨fun a b => le_total (score b) (score a)⟩
    have : IsTrans ι fun a b => score b ≤ score a := ⟨fun a b c hab hbc => hbc.trans hab⟩
    exact List.pairwise_insertionSort _ l
  · rw [← List.map_insertionSort (fun a b => score b ≤ score a) _ (fun i => (score i, item i)) l
      fun _ _ _ _ => Iff.rfl, List.map_map]
    rfl

namespace IvfRouter

/-- The cell of a row. -/
def cell (r : IvfRouter) (row : Nat) : Nat := (r.cellOf.getD row 0).toNat

/-- The similarity of a cell to a query. -/
def similarity [N : Numerics] (r : IvfRouter) (query : Vec) (c : Nat) : N.Score :=
  N.cosine query (r.centroids.getD c [])

theorem cellOf_eq {r : IvfRouter} {row : Nat} (h : row < r.len) :
    r.cellOf[row]? = some (r.cellOf.getD row 0) := by
  rw [List.getD_eq_getElem?_getD, List.getElem?_eq_getElem (show row < r.cellOf.length from h)]
  rfl

theorem cell_lt {r : IvfRouter} (hcells : ∀ c ∈ r.cellOf, c.toNat < r.nCells) {row : Nat} (h : row < r.len) :
    r.cell row < r.nCells :=
  hcells _ (List.mem_of_getElem? (cellOf_eq h))

theorem centroid_eq [N : Numerics] {r : IvfRouter} (query : Vec) {c : Nat} (h : c < r.nCells) {κ : Type} (x : κ) :
    (r.centroids[c]?.map fun v => (N.cosine query v, x)) = some (r.similarity query c, x) := by
  rw [similarity, List.getD_eq_getElem?_getD, List.getElem?_eq_getElem (show c < r.centroids.length from h)]
  rfl

/-! ### Gathering -/

/-- The cells are taken from the front, all of them unless the budget is met. -/
theorem gather_spec (members : Nat → List Nat) (budget : Nat) (out cells : List Nat) :
    ∃ taken rest, cells = taken ++ rest ∧ gather members budget out cells = out ++ taken.flatMap members ∧
      (rest = [] ∨ budget ≤ (gather members budget out cells).length) := by
  induction cells generalizing out with
  | nil => exact ⟨[], [], rfl, by simp [gather], .inl rfl⟩
  | cons c cells ih =>
    rw [gather]
    split_ifs with hmet
    · exact ⟨[c], cells, rfl, by simp, .inr hmet⟩
    · obtain ⟨taken, rest, rfl, heq, hstop⟩ := ih (out ++ members c)
      exact ⟨c :: taken, rest, rfl, by rw [heq]; simp, hstop⟩

/-- The same for the cells of a range, where each has its rows `rows z`. -/
theorem gatherRange_spec {attr : List UInt64} {lo hi : UInt64} {rows : Zone → List Nat} (budget : Nat)
    {zones : List Zone} (h : ∀ z ∈ zones, z.rowsIn attr lo hi = .ok (rows z)) (out : List Nat) :
    ∃ taken rest, zones = taken ++ rest ∧ ∃ res, gatherRange attr lo hi budget out zones = .ok res ∧
      res = out ++ taken.flatMap rows ∧ (rest = [] ∨ budget ≤ res.length) := by
  induction zones generalizing out with
  | nil => exact ⟨[], [], rfl, out, rfl, by simp, .inl rfl⟩
  | cons z zones ih =>
    obtain ⟨hz, hzones⟩ := List.forall_mem_cons.mp h
    rw [gatherRange, hz]
    dsimp only
    split_ifs with hmet
    · exact ⟨[z], zones, rfl, _, rfl, by simp, .inr hmet⟩
    · obtain ⟨taken, rest, rfl, res, heq, hres, hstop⟩ := ih hzones (out ++ rows z)
      exact ⟨z :: taken, rest, rfl, res, heq, by rw [hres]; simp, hstop⟩

/-! ### Rows of a filter -/

section

/-- The members of a cell are the rows that are in it. -/
theorem members_eq (r : IvfRouter) (s : List Nat) (c : Nat) :
    (((s.map fun row => (r.cell row, row)).filter fun p => p.1 = c).map Prod.snd) = s.filter (r.cell · = c) := by
  rw [List.filter_map, List.map_map]
  exact List.map_id _

variable [N : Numerics] {r : IvfRouter}

theorem probe_eq (hcells : ∀ c ∈ r.cellOf, c.toNat < r.nCells) (query : Vec) {s : List Nat}
    (hs : ∀ row ∈ s, row < r.len) {budget : Nat} (hlong : ¬ s.length ≤ budget) (room : Nat) :
    ∃ cells : List Nat, cells.Perm (s.map r.cell).dedup ∧
      cells.Pairwise (fun a b => r.similarity query b ≤ r.similarity query a) ∧
      probe room r query s budget = (reserve room (budget + s.length / max r.nCells 1)).map fun _ =>
        gather (fun c => s.filter (r.cell · = c)) budget [] cells := by
  have hrows : (s.mapM fun row => r.cellOf[row]?.map fun c => (c.toNat, row)) =
      some (s.map fun row => (r.cell row, row)) :=
    mapM_eq_map fun row hrow => by rw [cellOf_eq (hs row hrow)]; rfl
  have hmap : ((s.map fun row => (r.cell row, row)).map Prod.fst) = s.map r.cell := by
    rw [List.map_map]
    rfl
  have hcents : ((s.map r.cell).dedup.mapM fun c => r.centroids[c]?.map fun v => (N.cosine query v, c)) =
      some ((s.map r.cell).dedup.map fun c => (r.similarity query c, c)) := by
    refine mapM_eq_map fun c hc => centroid_eq query ?_ c
    obtain ⟨row, hrow, rfl⟩ := List.mem_map.mp (List.mem_dedup.mp hc)
    exact cell_lt hcells (hs row hrow)
  obtain ⟨cells, hperm, hsorted, heq⟩ := ranked_spec (r.similarity query) id (s.map r.cell).dedup
  refine ⟨cells, hperm, hsorted, ?_⟩
  rw [probe, if_neg hlong, hrows]
  dsimp only
  rw [hmap, hcents]
  dsimp only
  rw [show ((s.map r.cell).dedup.map fun c => (r.similarity query c, c)) =
    (s.map r.cell).dedup.map fun c => (r.similarity query c, id c) from rfl, heq, List.map_id]
  simp only [members_eq]

/-- What a probe returns, for rows without duplicates. -/
structure Probed (r : IvfRouter) (query : Vec) (s : List Nat) (budget : Nat) (out : List Nat) : Prop where
  nodup : out.Nodup
  subset : out ⊆ s
  filled : min budget s.length ≤ out.length
  whole : ∀ a ∈ out, ∀ b ∈ s, r.cell b = r.cell a → b ∈ out
  nearest : ∀ a ∈ out, ∀ b ∈ s, b ∉ out → r.similarity query (r.cell b) ≤ r.similarity query (r.cell a)

theorem probed_probe (hcells : ∀ c ∈ r.cellOf, c.toNat < r.nCells) (query : Vec) {s : List Nat} (hnodup : s.Nodup)
    (hs : ∀ row ∈ s, row < r.len) (room budget : Nat) :
    (∃ out, probe room r query s budget = .ok out ∧ Probed r query s budget out) ↔
      s.length ≤ budget ∨ (budget + s.length / max r.nCells 1) % 2 ^ 64 ≤ room := by
  by_cases hlong : s.length ≤ budget
  · exact iff_of_true ⟨s, if_pos hlong, hnodup, fun _ h => h, Nat.min_le_right .., fun _ _ _ hb _ => hb,
      fun _ _ b hb hout => absurd hb hout⟩ (.inl hlong)
  · obtain ⟨cells, hperm, hsorted, heq⟩ := probe_eq hcells query hs hlong room
    rw [or_iff_right hlong]
    by_cases hroom : (budget + s.length / max r.nCells 1) % 2 ^ 64 ≤ room
    swap
    · rw [reserve, if_neg hroom] at heq
      exact iff_of_false (fun ⟨out, hout, _⟩ => nomatch heq.symm.trans hout) hroom
    rw [reserve, if_pos hroom] at heq
    refine iff_of_true ?_ hroom
    obtain ⟨taken, rest, rfl, hgather, hstop⟩ := gather_spec (fun c => s.filter (r.cell · = c)) budget [] cells
    rw [List.nil_append] at hgather
    rw [hgather] at heq hstop
    -- the rows returned are those of the cells taken, the others are in the cells that are left
    have hmem : ∀ row, row ∈ taken.flatMap (fun c => s.filter (r.cell · = c)) ↔ row ∈ s ∧ r.cell row ∈ taken := by
      simp [and_comm]
    have hall : ∀ row ∈ s, r.cell row ∈ taken ++ rest := fun row hrow =>
      hperm.mem_iff.mpr (List.mem_dedup.mpr (List.mem_map_of_mem hrow))
    have htaken : taken.Nodup := (List.nodup_append.mp (hperm.nodup_iff.mpr (List.nodup_dedup _))).1
    have hout : (taken.flatMap fun c => s.filter (r.cell · = c)).Nodup := by
      refine List.nodup_flatMap.mpr ⟨fun c _ => hnodup.filter _, htaken.imp fun hne row ha hb => hne ?_⟩
      exact (of_decide_eq_true (List.mem_filter.mp ha).2).symm.trans (of_decide_eq_true (List.mem_filter.mp hb).2)
    refine ⟨_, heq, hout, fun row hrow => ((hmem row).mp hrow).1, ?_, fun a ha b hb hcell => ?_,
      fun a ha b hb hleft => ?_⟩
    · rcases hstop with rfl | hmet
      · -- every cell was taken, so every row was
        rw [List.append_nil] at hall
        have hsub : s ⊆ taken.flatMap fun c => s.filter (r.cell · = c) :=
          fun row hrow => (hmem row).mpr ⟨hrow, hall row hrow⟩
        exact (Nat.min_le_right ..).trans (List.subperm_of_subset hnodup hsub).length_le
      · exact (Nat.min_le_left ..).trans hmet
    · exact (hmem b).mpr ⟨hb, hcell ▸ ((hmem a).mp ha).2⟩
    · -- the cells are ranked, so that those left come behind those taken
      have hrest : r.cell b ∈ rest := (List.mem_append.mp (hall b hb)).resolve_left fun h => hleft ((hmem b).mpr ⟨hb, h⟩)
      exact (List.pairwise_append.mp hsorted).2.2 _ ((hmem a).mp ha).2 _ hrest

end

/-! ### Zones -/

/-- The zones of the first `row` rows. -/
structure Zoned (r : IvfRouter) (attr : List UInt64) (row : Nat) (zones : List Zone) : Prop where
  length : zones.length = r.nCells
  nodup : ∀ z ∈ zones, z.members.Nodup
  mem : ∀ (c : Nat) (z : Zone), zones[c]? = some z → ∀ i, i ∈ z.members ↔ i < row ∧ r.cell i = c
  bounds : ∀ z ∈ zones, ∀ i ∈ z.members, ∃ a, attr[i]? = some a ∧ z.min ≤ a ∧ a ≤ z.max

theorem zoned_empty (r : IvfRouter) (attr : List UInt64) : Zoned r attr 0 (List.replicate r.nCells .empty) where
  length := List.length_replicate
  nodup z hz := by
    obtain rfl := List.eq_of_mem_replicate hz
    exact List.nodup_nil
  mem c z hz i := by
    obtain rfl := List.eq_of_mem_replicate (List.mem_of_getElem? hz)
    simp [Zone.empty]
  bounds z hz i hi := by
    obtain rfl := List.eq_of_mem_replicate hz
    exact absurd hi List.not_mem_nil

/-- The bounds of a zone widen to the row that joins it. -/
theorem zone_widens (z : Zone) (row : Nat) (a : UInt64) :
    ((z.add row a).min ≤ z.min ∧ z.max ≤ (z.add row a).max) ∧ (z.add row a).min ≤ a ∧ a ≤ (z.add row a).max := by
  have hmax : (z.add row a).max = if z.max ≤ a then a else z.max := rfl
  rw [hmax]
  refine ⟨⟨Std.min_le_left, ?_⟩, Std.min_le_right, ?_⟩
  · split_ifs with h
    · exact h
    · exact UInt64.le_refl _
  · split_ifs with h
    · exact UInt64.le_refl _
    · exact (UInt64.le_total a z.max).resolve_right h

/-- One row goes to the zone of its cell. -/
theorem Zoned.add {r : IvfRouter} {attr : List UInt64} {row : Nat} {zones : List Zone} (h : Zoned r attr row zones)
    {a : UInt64} (ha : attr[row]? = some a) :
    Zoned r attr (row + 1) (zones.modify (r.cell row) fun z => z.add row a) := by
  have hcases : ∀ {c z}, (zones.modify (r.cell row) fun z => z.add row a)[c]? = some z →
      (r.cell row = c ∧ ∃ z₀, zones[c]? = some z₀ ∧ z = z₀.add row a) ∨ (r.cell row ≠ c ∧ zones[c]? = some z) := by
    intro c z hz
    rw [List.getElem?_modify, Option.map_eq_map, Option.map_eq_some_iff] at hz
    obtain ⟨z₀, hz₀, rfl⟩ := hz
    by_cases hc : r.cell row = c
    · exact .inl ⟨hc, z₀, hz₀, if_pos hc⟩
    · exact .inr ⟨hc, (if_neg hc).symm ▸ hz₀⟩
  refine ⟨(List.length_modify ..).trans h.length, fun z hz => ?_, fun c z hz i => ?_, fun z hz i hi => ?_⟩
  · obtain ⟨c, hc⟩ := List.mem_iff_getElem?.mp hz
    rcases hcases hc with ⟨rfl, z₀, hz₀, rfl⟩ | ⟨-, hz⟩
    · refine List.nodup_append.mpr ⟨h.nodup z₀ (List.mem_of_getElem? hz₀), List.nodup_singleton row, fun i hi j hj => ?_⟩
      have := ((h.mem _ _ hz₀ i).mp hi).1
      rw [List.mem_singleton] at hj
      omega
    · exact h.nodup z (List.mem_of_getElem? hz)
  · rcases hcases hz with ⟨rfl, z₀, hz₀, rfl⟩ | ⟨hc, hz⟩
    · rw [Zone.add, List.mem_append, List.mem_singleton, h.mem _ _ hz₀, Nat.lt_succ_iff_lt_or_eq, or_and_right]
      exact or_congr_right ⟨fun hi => ⟨hi, hi ▸ rfl⟩, And.left⟩
    · rw [h.mem c z hz, Nat.lt_succ_iff_lt_or_eq, or_and_right]
      exact (or_iff_left fun hi : i = row ∧ r.cell i = c => hc (hi.1 ▸ hi.2)).symm
  · obtain ⟨c, hc⟩ := List.mem_iff_getElem?.mp hz
    rcases hcases hc with ⟨-, z₀, hz₀, rfl⟩ | ⟨-, hz⟩
    · rcases List.mem_append.mp hi with hi | hi
      · obtain ⟨b, hb, hmin, hmax⟩ := h.bounds z₀ (List.mem_of_getElem? hz₀) i hi
        have hwide := (zone_widens z₀ row a).1
        exact ⟨b, hb, UInt64.le_trans hwide.1 hmin, UInt64.le_trans hmax hwide.2⟩
      · obtain rfl := List.mem_singleton.mp hi
        exact ⟨a, ha, (zone_widens z₀ i a).2⟩
    · exact h.bounds z (List.mem_of_getElem? hz) i hi

theorem Zoned.addRows {r : IvfRouter} (hcells : ∀ c ∈ r.cellOf, c.toNat < r.nCells) {attr : List UInt64}
    (hlen : attr.length = r.len) {row : Nat} {zones : List Zone} (h : Zoned r attr row zones) (hrow : row ≤ r.len) :
    ∃ zones', r.addRows row (attr.drop row) zones = .ok zones' ∧ Zoned r attr r.len zones' := by
  -- the induction is on the rows that are left
  induction hleft : r.len - row generalizing row zones with
  | zero =>
    have : row = r.len := by omega
    rw [List.drop_eq_nil_of_le (by omega)]
    exact ⟨zones, rfl, this ▸ h⟩
  | succ left ih =>
    have hlt : row < attr.length := by omega
    rw [List.drop_eq_getElem_cons hlt, IvfRouter.addRows, cellOf_eq (by omega)]
    dsimp only
    rw [if_pos (h.length ▸ cell_lt hcells (by omega))]
    exact ih (h.add (List.getElem?_eq_getElem hlt)) (by omega) (by omega)

theorem exists_setZonemap {r : IvfRouter} (hcells : ∀ c ∈ r.cellOf, c.toNat < r.nCells) {attr : List UInt64}
    (hlen : attr.length = r.len) : ∃ zones, r.setZonemap attr = .ok zones ∧ Zoned r attr r.len zones := by
  rw [setZonemap, if_neg (not_not.mpr hlen)]
  exact (zoned_empty r attr).addRows hcells hlen (Nat.zero_le _)

/-- Whether the attribute of a row is in the range. -/
def inRange (attr : List UInt64) (lo hi : UInt64) (row : Nat) : Bool :=
  attr[row]?.any fun a => lo ≤ a && a ≤ hi

theorem inRange_iff {attr : List UInt64} {lo hi : UInt64} {row : Nat} :
    inRange attr lo hi row = true ↔ ∃ a, attr[row]? = some a ∧ lo ≤ a ∧ a ≤ hi := by
  simp [inRange, Option.any_eq_true]

/-- The bounds are right to take a whole cell, which has no row out of the range. -/
theorem Zoned.rowsIn {r : IvfRouter} {attr : List UInt64} {row : Nat} {zones : List Zone} (h : Zoned r attr row zones)
    (lo hi : UInt64) {z : Zone} (hz : z ∈ zones) :
    z.rowsIn attr lo hi = .ok (z.members.filter (inRange attr lo hi)) := by
  rw [Zone.rowsIn]
  split_ifs with hcover hall
  · have hself : z.members.filter (inRange attr lo hi) = z.members := by
      refine List.filter_eq_self.mpr fun i hi => inRange_iff.mpr ?_
      obtain ⟨a, ha, hmin, hmax⟩ := h.bounds z hz i hi
      exact ⟨a, ha, UInt64.le_trans hcover.1 hmin, UInt64.le_trans hmax hcover.2⟩
    rw [hself]
  · rfl
  · refine absurd (List.all_eq_true.mpr fun i hi => ?_) hall
    obtain ⟨a, ha, -⟩ := h.bounds z hz i hi
    exact decide_eq_true (List.getElem?_eq_some_iff.mp ha).1

/-- The bounds are right to pass over a cell: one with a row in the range is not passed over. -/
theorem Zoned.overlaps {r : IvfRouter} {attr : List UInt64} {row : Nat} {zones : List Zone}
    (h : Zoned r attr row zones) {lo hi : UInt64} {z : Zone} (hz : z ∈ zones) {i : Nat} (hi' : i ∈ z.members)
    (hin : inRange attr lo hi i = true) : z.overlaps lo hi = true := by
  obtain ⟨a, ha, hlo, hhi⟩ := inRange_iff.mp hin
  obtain ⟨b, hb, hmin, hmax⟩ := h.bounds z hz i hi'
  obtain rfl : a = b := Option.some.inj (ha.symm.trans hb)
  have hne : z.members ≠ [] := List.ne_nil_of_mem hi'
  have hge : ¬ z.max < lo := UInt64.not_lt.mpr (UInt64.le_trans hlo hmax)
  have hle : ¬ hi < z.min := UInt64.not_lt.mpr (UInt64.le_trans hmin hhi)
  simp [Zone.overlaps, hne, hge, hle]

section

variable [N : Numerics] {r : IvfRouter}

theorem probeRange_eq {attr : List UInt64} {zones : List Zone} (h : Zoned r attr r.len zones) (query : Vec)
    (lo hi : UInt64) (room budget : Nat) :
    ∃ taken rest : List (Zone × Nat), (taken ++ rest).Perm (zones.zipIdx.filter fun p => p.1.overlaps lo hi) ∧
      ∃ out, (probeRange room r (some zones) query lo hi attr budget = (reserve room (budget + 64)).map fun _ => out) ∧
        out = taken.flatMap (fun p => p.1.members.filter (inRange attr lo hi)) ∧
        (rest = [] ∨ budget ≤ out.length) := by
  have hcents : ((zones.zipIdx.filter fun p => p.1.overlaps lo hi).mapM
      fun p => r.centroids[p.2]?.map fun v => (N.cosine query v, p.1)) =
      some ((zones.zipIdx.filter fun p => p.1.overlaps lo hi).map fun p => (r.similarity query p.2, p.1)) := by
    refine mapM_eq_map fun p hp => centroid_eq query ?_ p.1
    exact h.length ▸ List.snd_lt_of_mem_zipIdx (List.mem_of_mem_filter hp)
  obtain ⟨cells, hperm, -, heq⟩ := ranked_spec (fun p : Zone × Nat => r.similarity query p.2) Prod.fst
    (zones.zipIdx.filter fun p => p.1.overlaps lo hi)
  have hrows : ∀ z ∈ cells.map Prod.fst, z.rowsIn attr lo hi = .ok (z.members.filter (inRange attr lo hi)) := by
    intro z hz
    obtain ⟨p, hp, rfl⟩ := List.mem_map.mp hz
    exact h.rowsIn lo hi (List.fst_mem_of_mem_zipIdx (List.mem_of_mem_filter (hperm.mem_iff.mp hp)))
  obtain ⟨taken, rest, hsplit, out, hout, heqOut, hstop⟩ := gatherRange_spec budget hrows []
  obtain ⟨taken, rest, rfl, rfl, rfl⟩ := List.map_eq_append_iff.mp hsplit
  refine ⟨taken, rest, hperm, out, ?_, ?_, hstop.imp_left List.map_eq_nil_iff.mp⟩
  · rw [probeRange, hcents]
    dsimp only
    rw [heq, hout]
    rfl
  · rw [heqOut, List.nil_append, List.flatMap_map]

/-- What a probe of a range returns. -/
structure Ranged (attr : List UInt64) (lo hi : UInt64) (budget : Nat) (out : List Nat) : Prop where
  nodup : out.Nodup
  sound : ∀ row ∈ out, inRange attr lo hi row = true
  complete : out.length < budget → ∀ row, inRange attr lo hi row = true → row ∈ out

theorem ranged_probeRange (hcells : ∀ c ∈ r.cellOf, c.toNat < r.nCells) {attr : List UInt64} {zones : List Zone}
    (hlen : attr.length = r.len) (h : Zoned r attr r.len zones) (query : Vec) (lo hi : UInt64) (room budget : Nat) :
    (∃ out, probeRange room r (some zones) query lo hi attr budget = .ok out ∧ Ranged attr lo hi budget out) ↔
      (budget + 64) % 2 ^ 64 ≤ room := by
  obtain ⟨taken, rest, hperm, out, hout, rfl, hstop⟩ := probeRange_eq h query lo hi room budget
  by_cases hroom : (budget + 64) % 2 ^ 64 ≤ room
  swap
  · rw [reserve, if_neg hroom] at hout
    exact iff_of_false (fun ⟨_, hok, _⟩ => nomatch hout.symm.trans hok) hroom
  rw [reserve, if_pos hroom] at hout
  refine iff_of_true ?_ hroom
  have hzone : ∀ p ∈ taken, zones[p.2]? = some p.1 := fun p hp =>
    List.mem_zipIdx_iff_getElem?.mp (List.mem_of_mem_filter (hperm.subset (List.mem_append_left rest hp)))
  have htaken : taken.Nodup := by
    refine (List.nodup_append.mp (hperm.nodup_iff.mpr (List.Nodup.filter _ ?_))).1
    refine List.Nodup.of_map Prod.snd ?_
    rw [List.zipIdx_map_snd]
    exact List.nodup_range'
  refine ⟨_, hout, List.nodup_flatMap.mpr ⟨fun p hp => ?_, ?_⟩, fun row hrow => ?_, fun hfew row hin => ?_⟩
  · exact (h.nodup p.1 (List.mem_of_getElem? (hzone p hp))).filter _
  · -- two zones have no row in common: they are of different cells
    refine htaken.imp_of_mem fun {p q} hp hq hne row hrow hrow' => hne ?_
    have hcell := ((h.mem _ _ (hzone p hp) row).mp (List.mem_of_mem_filter hrow)).2
    have hcell' := ((h.mem _ _ (hzone q hq) row).mp (List.mem_of_mem_filter hrow')).2
    have hidx : p.2 = q.2 := hcell.symm.trans hcell'
    exact Prod.ext (Option.some.inj ((hzone p hp).symm.trans (hidx ▸ hzone q hq))) hidx
  · obtain ⟨p, -, hp⟩ := List.mem_flatMap.mp hrow
    exact (List.mem_filter.mp hp).2
  · -- fewer rows than the budget: no zone that overlaps the range was left out
    obtain rfl : rest = [] := hstop.resolve_right (Nat.not_le.mpr hfew)
    rw [List.append_nil] at hperm
    obtain ⟨a, ha, -⟩ := inRange_iff.mp hin
    have hrow : row < r.len := hlen ▸ (List.getElem?_eq_some_iff.mp ha).1
    have hlt : r.cell row < zones.length := h.length ▸ cell_lt hcells hrow
    have hmem := (h.mem _ _ (List.getElem?_eq_getElem hlt) row).mpr ⟨hrow, rfl⟩
    refine List.mem_flatMap.mpr ⟨(zones[r.cell row], r.cell row), hperm.mem_iff.mpr ?_, List.mem_filter.mpr ⟨hmem, hin⟩⟩
    refine List.mem_filter.mpr ⟨List.mem_zipIdx_iff_getElem?.mpr (List.getElem?_eq_getElem hlt), ?_⟩
    exact h.overlaps (List.getElem_mem hlt) hmem hin

/-- A probe returns whole cells of its rows, the nearest first, and no fewer rows than the budget or all of them.  With
the zones of an attribute, a probe of a range returns rows in it, and all of them if they are fewer than the budget.
Both do so exactly when the rows they reserve for the budget have room. -/
theorem router_probes (room : Nat) (r : IvfRouter) (hcells : ∀ c ∈ r.cellOf, c.toNat < r.nCells) :
    (∀ query s budget, s.Nodup → (∀ row ∈ s, row < r.len) →
      ((∃ out, probe room r query s budget = .ok out ∧ Probed r query s budget out) ↔
        s.length ≤ budget ∨ (budget + s.length / max r.nCells 1) % 2 ^ 64 ≤ room)) ∧
    ∀ attr, attr.length = r.len → ∃ zones, r.setZonemap attr = .ok zones ∧ ∀ query lo hi budget,
      (∃ out, probeRange room r (some zones) query lo hi attr budget = .ok out ∧ Ranged attr lo hi budget out) ↔
        (budget + 64) % 2 ^ 64 ≤ room := by
  refine ⟨fun query s budget hnodup hs => probed_probe hcells query hnodup hs room budget, fun attr hlen => ?_⟩
  obtain ⟨zones, hzones, hzoned⟩ := exists_setZonemap hcells hlen
  exact ⟨zones, hzones, fun query lo hi budget => ranged_probeRange hcells hlen hzoned query lo hi room budget⟩

end

section

attribute [local instance] exactNumerics

/-- Two cells, at 1 and at -1, with three rows. -/
def twoCells : IvfRouter := ⟨[[0x3f800000], [0xbf800000]], 1, [0, 1, 0]⟩

theorem hcells_twoCells : ∀ c ∈ twoCells.cellOf, c.toNat < twoCells.nCells :=
  List.all_iff_forall_prop.mp (by decide)

theorem router_probes_twoCells :
    (∃ out, probe 100 twoCells [0xbf800000] [0, 1, 2] 1 = .ok out ∧ Probed twoCells [0xbf800000] [0, 1, 2] 1 out) ∧
    ∃ zones, twoCells.setZonemap [5, 7, 9] = .ok zones ∧ ∀ query lo hi,
      ∃ out, probeRange 100 twoCells (some zones) query lo hi [5, 7, 9] 2 = .ok out ∧ Ranged [5, 7, 9] lo hi 2 out := by
  obtain ⟨hprobe, hrange⟩ := router_probes 100 twoCells hcells_twoCells
  obtain ⟨zones, hzones, hiff⟩ := hrange [5, 7, 9] rfl
  exact ⟨(hprobe [0xbf800000] [0, 1, 2] 1 (by decide) (by decide)).mpr (by decide), zones, hzones,
    fun query lo hi => (hiff query lo hi 2).mpr (by decide)⟩

/-- A budget of more than `isize::MAX` bytes, 8 for each row, cannot be reserved, although only three rows are there
to be returned. -/
theorem probeRange_capacity_overflow :
    ∃ zones, twoCells.setZonemap [5, 7, 9] = .ok zones ∧ ∀ room ≤ (2 ^ 63 - 1) / 8,
      probeRange room twoCells (some zones) [0x3f800000] 5 9 [5, 7, 9] (2 ^ 61) =
        .error (.panic "capacity overflow") := by
  obtain ⟨zones, hzones, hzoned⟩ := @exists_setZonemap twoCells hcells_twoCells [5, 7, 9] rfl
  refine ⟨zones, hzones, fun room hroom => ?_⟩
  obtain ⟨-, -, -, out, hout, -⟩ := probeRange_eq hzoned [0x3f800000] 5 9 room (2 ^ 61)
  refine hout.trans ?_
  rw [reserve, if_neg (by omega)]
  rfl

end

end IvfRouter

end Vector

end Skeg
