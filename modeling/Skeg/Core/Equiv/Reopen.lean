import Skeg.Core.Equiv.Simulation
import Skeg.Core.Equiv.Open
import Skeg.Core.Equiv.Frame
import Skeg.Lib.SegLog.Order

/-!
# Reopening a store at rest

A store without tasks holds, for every key, the value of the last applied write (`Rel.stores`), and so
do the stores opened from its directory by a full scan (`Rel.stores_fullScan`) and from a snapshot
(`Rel.stores_snapshot`), when the log satisfies the invariants of `SegLog`.
-/

namespace Skeg

open SegLog (Rec Loc Pend Comp Label Step Wf Path Linked Kept Ordered Covers Unapplied)

variable [H : Hashes]

/-! ### Stores at rest -/

/-- The value of each key after the applied writes of the history. -/
def liveMap (hist : List Event) (k : Bytes) : Option Bytes := (lastApplied hist k).bind Rec.val

variable {hist : List Event} {s : VLog} {α : LogState} {raw : Nat → List (List Record)}

theorem Rel.pend_none (h : Rel hist s α raw) (hrest : s.tasks = ∅) (i : Nat) :
    α.pend i = none ∧ α.comp i = none := by
  have := h.task i
  rw [hrest] at this
  exact this

theorem Rel.not_unapplied (h : Rel hist s α raw) (hrest : s.tasks = ∅) (r : Rec Bytes Bytes) :
    ¬ Unapplied α r := by
  rintro ⟨i, T, ls, hi, _⟩
  rw [(h.pend_none hrest i).1] at hi
  cases hi

theorem Rel.not_inFlight (h : Rel hist s α raw) (hrest : s.tasks = ∅) (S : Nat) : ¬ α.InFlight S := by
  rw [h.inFlight_iff]
  rintro ⟨i, d, c, hi⟩
  rw [hrest] at hi
  cases hi

/-- Nothing is queued: a file has all the records of its segment. -/
theorem Rel.data_of_settled (h : Rel hist s α raw) {S : Nat} (hS : ¬ α.InFlight S) :
    (s.segs S).file.data = encodeAll (raw S).flatten := by
  obtain ⟨done, queued, hraw, hdata, _, hq⟩ := h.seg S
  rw [h.queue_nil hS, List.map_nil, List.nil_eq, List.map_eq_nil_iff] at hq
  rw [hraw, hq, List.append_nil, hdata]

theorem Rel.data_eq (h : Rel hist s α raw) (hrest : s.tasks = ∅) (S : Nat) :
    (s.segs S).file.data = encodeAll (raw S).flatten := h.data_of_settled (h.not_inFlight hrest S)

theorem Rel.mem_dir (h : Rel hist s α raw) (hrest : s.tasks = ∅) (S : Nat) :
    S ∈ s.dir ↔ α.linked S := by
  rw [h.dir S, h.linked S, hrest]
  refine or_iff_left ?_
  rintro ⟨t, job, ht⟩
  cases ht

theorem Rel.dir_ne_nil (h : Rel hist s α raw) (hl : Linked α) (hrest : s.tasks = ∅) : s.dir ≠ [] := by
  intro hnil
  have := (h.mem_dir hrest α.active).mpr hl.active
  rw [hnil] at this
  cases this

theorem Rel.recovered_eq [LawfulHashes] (h : Rel hist s α raw) (hrest : s.tasks = ∅) (S : Nat) :
    recovered (s.disk.file S).content = (layout 0 (raw S).flatten).filter isData := by
  rw [show s.disk.file S = (s.segs S).file from rfl, File.content, h.data_eq hrest S,
    recovered_blocks (h.block S)]

theorem mem_sent_iff (h : Rel hist s α raw) {S o : Nat} {l : Rec Bytes Bytes} :
    (o, l) ∈ α.sent S ↔ ∃ x, (o, x) ∈ (layout 0 (raw S).flatten).filter isData ∧ absRec x = l := by
  rw [h.sent S, mem_dataRecs]
  simp only [List.mem_filter, isData, decide_eq_true_eq]
  constructor
  · rintro ⟨x, hx, hdata, habs⟩
    exact ⟨x, ⟨hx, hdata⟩, habs⟩
  · rintro ⟨x, ⟨hx, hdata⟩, habs⟩
    exact ⟨x, hx, hdata, habs⟩

omit H in
/-- The record behind an abstract one that is no tombstone. -/
theorem absRec_val {x : Record} {l : Rec Bytes Bytes} {v : Bytes} (h : absRec x = l)
    (hv : l.val = some v) : x.kind ≠ .tombstone ∧ x.key = l.key ∧ x.value = v := by
  subst h
  unfold absRec at hv ⊢
  by_cases hk : x.kind = .tombstone
  · simp [hk] at hv
  · exact ⟨hk, rfl, by simpa [hk] using hv⟩

theorem liveMap_eq_some (h : Rel hist s α raw) {k v : Bytes} (hm : liveMap hist k = some v) :
    ∃ l, α.last k = some l ∧ l.val = some v := by
  rw [h.last]
  exact Option.bind_eq_some_iff.mp hm

theorem liveMap_eq_none (h : Rel hist s α raw) {k : Bytes} (hm : liveMap hist k = none)
    {l : Rec Bytes Bytes} (hl : α.last k = some l) : l.val = none := by
  rw [h.last] at hl
  rw [liveMap, hl] at hm
  exact hm

/-- An index that points, for each key, at a record with the value applied last. -/
theorem Rel.indexes (h : Rel hist s α raw) {dir : Nat → Prop} {index : Index}
    (hnone : ∀ k, liveMap hist k = none → index.lookup k = none)
    (hsome : ∀ k v l, α.last k = some l → l.val = some v → ∃ e r, index.lookup k = some e ∧
      dir e.segmentId ∧ (e.offset, r) ∈ α.sent e.segmentId ∧ r.key = k ∧ r.val = some v ∧
      e.size = paddedRecordSize k.length v.length) :
    Indexes dir raw index (liveMap hist) := by
  refine ⟨hnone, fun k v hm => ?_⟩
  obtain ⟨l, hl, hv⟩ := liveMap_eq_some h hm
  obtain ⟨e, r, he, hdir, hmem, hrk, hrv, hsize⟩ := hsome k v l hl hv
  rw [h.sent] at hmem
  obtain ⟨x, hx, _, habs⟩ := mem_dataRecs.mp hmem
  obtain ⟨_, hkey, hval⟩ := absRec_val habs hrv
  rw [hrk] at hkey
  exact ⟨e, x, he, hdir, hx, by rw [hsize, Record.size, hkey, hval], hkey, hval⟩

/-- The index points at the values applied last. -/
theorem Rel.indexes_live (h : Rel hist s α raw) (hw : Wf α) (hl : Linked α) :
    Indexes (fun S => s.isReadable S = true) raw s.index (liveMap hist) := by
  refine h.indexes (fun k hm => ?_) fun k v l hlast hv => ?_
  · cases he : s.index.lookup k with
    | none => rfl
    | some e =>
      have hi := h.index k
      rw [he] at hi
      obtain ⟨r, hr, hrv, _⟩ := hw.index_some k _ _ hi
      rw [liveMap_eq_none h hm hr] at hrv
      cases hrv
  · cases he : s.index.lookup k with
    | none =>
      have hi := h.index k
      rw [he] at hi
      rw [hw.index_none k l hi hlast] at hv
      cases hv
    | some e =>
      have hi := h.index k
      rw [he] at hi
      obtain ⟨r, hr, _, hmem⟩ := hw.index_some k _ _ hi
      rw [hlast] at hr
      cases hr
      exact ⟨e, l, rfl, (h.linked _).mp (hl.index k _ _ hi).1, hmem, hw.last_key k l hlast, hv,
        h.size k e l v he hlast hv⟩

theorem Rel.stores_of_settled (h : Rel hist s α raw) (hw : Wf α) (hl : Linked α)
    (hidle : ∀ S, ¬ α.InFlight S) : Stores s (liveMap hist) :=
  (h.indexes_live hw hl).stores (fun _ hS => hS) (fun S _ => h.data_of_settled (hidle S)) fun S _ => h.block S

theorem Rel.stores (h : Rel hist s α raw) (hw : Wf α) (hl : Linked α) (hrest : s.tasks = ∅) :
    Stores s (liveMap hist) := h.stores_of_settled hw hl (h.not_inFlight hrest)

/-- The records a full scan reads are those of the linked segments. -/
theorem Rel.mem_scanned [LawfulHashes] (h : Rel hist s α raw) (hrest : s.tasks = ∅) {ids : List Nat}
    {S o : Nat} {x : Record} (hx : (S, o, x) ∈ diskRecords s.disk ids) :
    S ∈ ids ∧ (o, absRec x) ∈ α.sent S := by
  obtain ⟨hS, hx⟩ := mem_diskRecords.mp hx
  rw [h.recovered_eq hrest] at hx
  exact ⟨hS, (mem_sent_iff h).mpr ⟨x, hx, rfl⟩⟩

theorem Rel.exists_scanned [LawfulHashes] (h : Rel hist s α raw) (hrest : s.tasks = ∅)
    {ids : List Nat} {S o : Nat} {l : Rec Bytes Bytes} (hS : S ∈ ids) (hl : (o, l) ∈ α.sent S) :
    ∃ x, (S, o, x) ∈ diskRecords s.disk ids ∧ absRec x = l := by
  obtain ⟨x, hx, habs⟩ := (mem_sent_iff h).mp hl
  refine ⟨x, mem_diskRecords.mpr ⟨hS, ?_⟩, habs⟩
  rw [h.recovered_eq hrest]
  exact hx

/-- The entries of an index are those of the last applied writes. -/
structure Recovers (α : LogState) (index : Index) : Prop where
  present : ∀ k e, index.lookup k = some e → ∃ l v, α.last k = some l ∧ l.val = some v ∧
    α.linked e.segmentId ∧ (e.offset, l) ∈ α.sent e.segmentId ∧ e.size = paddedRecordSize k.length v.length
  absent : ∀ k l, index.lookup k = none → α.last k = some l → l.val = none

theorem Rel.indexes_of_recovers (h : Rel hist s α raw) (hw : Wf α) {index : Index} (hr : Recovers α index)
    {dir : Nat → Prop} (hdir : ∀ S, α.linked S → dir S) : Indexes dir raw index (liveMap hist) := by
  refine h.indexes (fun k hm => ?_) fun k v l hlast hv => ?_
  · cases he : index.lookup k with
    | none => rfl
    | some e =>
      obtain ⟨l, v, hlast, hv, _⟩ := hr.present k e he
      rw [liveMap_eq_none h hm hlast] at hv
      cases hv
  · cases he : index.lookup k with
    | none =>
      rw [hr.absent k l he hlast] at hv
      cases hv
    | some e =>
      obtain ⟨l', v', hlast', hv', hlinked, hmem, hsize⟩ := hr.present k e he
      obtain rfl := Option.some.inj (hlast.symm.trans hlast')
      obtain rfl := Option.some.inj (hv.symm.trans hv')
      exact ⟨e, l, rfl, hdir _ hlinked, hmem, hw.last_key k l hlast, hv, hsize⟩

omit H in
/-- The entry of a record of a last applied write. -/
theorem entryAt_size {x : Record} {k : Bytes} {l : Rec Bytes Bytes} {v : Bytes} (habs : absRec x = l)
    (hk : l.key = k) (hv : l.val = some v) : x.size = paddedRecordSize k.length v.length := by
  obtain ⟨_, hkey, hval⟩ := absRec_val habs hv
  rw [Record.size, hkey, hval, hk]

/-- The winner of a key is its last applied write. -/
theorem Rel.winner [LawfulHashes] (h : Rel hist s α raw) (hw : Wf α) (hl : Linked α) (hk : Kept α)
    (hrest : s.tasks = ∅) {k : Bytes} {l : Rec Bytes Bytes} (hlast : α.last k = some l) :
    ∃ S o x, α.linked S ∧ (o, l) ∈ α.sent S ∧ absRec x = l ∧
      (winners s.disk).lookup k = some (x.ts, x.kind, entryAt S (o, x)) := by
  have hlist : ∀ S, S ∈ listSegments s.disk.dir ↔ α.linked S := fun S =>
    mem_listSegments.trans (h.mem_dir hrest S)
  have hspec := foldl_addWinner_spec (diskRecords s.disk (listSegments s.disk.dir)) k
  rw [← winners_eq] at hspec
  obtain ⟨S, o, hS, hmem⟩ := hk.exists_linked hw hl hlast
  obtain ⟨x₀, hx₀, habs₀⟩ := h.exists_scanned hrest ((hlist S).mpr hS) hmem
  have hkey₀ : x₀.key = k := by
    rw [← hw.last_key k l hlast, ← habs₀]
    rfl
  cases hwk : (winners s.disk).lookup k with
  | none =>
    rw [hwk] at hspec
    exact absurd hkey₀ (hspec _ hx₀)
  | some w =>
    rw [hwk] at hspec
    obtain ⟨⟨T, o', x⟩, hx, hxk, rfl, hmax⟩ := hspec
    obtain ⟨hT, hxmem⟩ := h.mem_scanned hrest hx
    have hge : l.ts ≤ x.ts := by
      have := hmax _ hx₀ hkey₀
      rw [← habs₀]
      exact this
    obtain ⟨l', hl', hle⟩ := hk.newest (h.not_unapplied hrest) hxmem
    have hl'k : α.last k = some l' := by rw [← hxk]; exact hl'
    rw [hlast] at hl'k
    cases hl'k
    have heq : absRec x = l :=
      hw.sent_inj T _ hxmem S (o, l) hmem (Nat.le_antisymm hle hge)
    exact ⟨T, o', x, (hlist T).mp hT, heq ▸ hxmem, heq, rfl⟩

theorem Rel.recovers_fullScan [LawfulHashes] (h : Rel hist s α raw) (hw : Wf α) (hl : Linked α)
    (hk : Kept α) (hrest : s.tasks = ∅) : Recovers α (winnersIndex (winners s.disk)) := by
  refine ⟨fun k e he => ?_, fun k l he hlast => ?_⟩
  · rw [lookup_winnersIndex] at he
    obtain ⟨w, hwk, hwe⟩ := Option.bind_eq_some_iff.mp he
    -- a key with a record has been written
    have hspec := foldl_addWinner_spec (diskRecords s.disk (listSegments s.disk.dir)) k
    rw [← winners_eq, hwk] at hspec
    obtain ⟨⟨T, o', y⟩, hy, hyk, _⟩ := hspec
    obtain ⟨l, hlast, _⟩ := hk.newest (h.not_unapplied hrest) (h.mem_scanned hrest hy).2
    replace hlast : α.last k = some l := by rw [← hyk]; exact hlast
    obtain ⟨S, o, x, hS, hmem, habs, hwk'⟩ := h.winner hw hl hk hrest hlast
    rw [hwk] at hwk'
    cases hwk'
    split_ifs at hwe with hkind
    cases hwe
    obtain ⟨v, hv⟩ : ∃ v, l.val = some v := ⟨x.value, by rw [← habs]; simpa [absRec] using hkind⟩
    exact ⟨l, v, hlast, hv, hS, hmem, entryAt_size habs (hw.last_key k l hlast) hv⟩
  · obtain ⟨S, o, x, _, _, habs, hwk⟩ := h.winner hw hl hk hrest hlast
    rw [lookup_winnersIndex, hwk, Option.bind_some] at he
    split_ifs at he with hkind
    rw [← habs]
    simpa [absRec] using hkind

theorem Rel.indexes_fullScan [LawfulHashes] (h : Rel hist s α raw) (hw : Wf α) (hl : Linked α)
    (hk : Kept α) (hrest : s.tasks = ∅) :
    Indexes (· ∈ s.dir) raw (winnersIndex (winners s.disk)) (liveMap hist) :=
  h.indexes_of_recovers hw (h.recovers_fullScan hw hl hk hrest) fun S hS => (h.mem_dir hrest S).mpr hS

/-- The directory after its snapshot file has been removed. -/
def Disk.withoutSnapshot (d : Disk) : Disk := { d with snapshot := none }

theorem Rel.stores_fullScan [LawfulHashes] (h : Rel hist s α raw) (hw : Wf α) (hl : Linked α)
    (hk : Kept α) (hrest : s.tasks = ∅) (max : Nat) :
    Stores (openVLog s.disk.withoutSnapshot max) (liveMap hist) :=
  stores_openVLog (h.dir_ne_nil hl hrest) (fun S _ => h.data_eq hrest S) (fun S _ => h.block S)
    (h.indexes_fullScan hw hl hk hrest)

/-! ### Snapshots -/

omit H in
theorem mem_of_lookup_snapshotIndex {sn : Snapshot} {k : Bytes} {e : IndexEntry}
    (h : (snapshotIndex sn).lookup k = some e) : (k, e) ∈ sn.entries := by
  have hmem : ∀ (l : List (Bytes × IndexEntry)) (m : Index),
      (l.foldl (fun index p => index.insert p.1 p.2) m).lookup k = some e →
        (k, e) ∈ l ∨ m.lookup k = some e := by
    intro l
    induction l with
    | nil => exact fun m h => .inr h
    | cons p l ih =>
      intro m h
      rcases ih _ h with h | h
      · exact .inl (List.mem_cons_of_mem _ h)
      · by_cases hk : k = p.1
        · subst hk
          rw [AList.lookup_insert] at h
          cases h
          exact .inl (List.mem_cons_self ..)
        · rw [AList.lookup_insert_ne hk] at h
          exact .inr h
  rcases hmem sn.entries ∅ h with h | h
  · exact h
  · cases h

omit H in
theorem lookup_cutSnapshot (s : VLog) (k : Bytes) :
    (snapshotIndex s.cutSnapshot).lookup k = s.index.lookup k := by
  have := FiniteMap.lookup_foldl_insert (fun _ : IndexEntry => true) (fun e => e) s.index ∅ k
  simp only [if_true] at this
  rw [snapshotIndex, VLog.cutSnapshot, List.foldl_map, this]
  cases s.index.lookup k <;> rfl

/-- The snapshot is right about every key that has not been written since. -/
structure SnapOk (α : LogState) (sn : Snapshot) : Prop where
  covers : Covers α sn.hwm fun k =>
    ((snapshotIndex sn).lookup k).map fun e => (e.segmentId, e.offset)
  size : ∀ k e, (snapshotIndex sn).lookup k = some e → ∃ r v, (e.offset, r) ∈ α.sent e.segmentId ∧
    r.val = some v ∧ e.size = paddedRecordSize k.length v.length

theorem Rel.snapOk_cut (h : Rel hist s α raw) (hw : Wf α)
    (hcut : ∀ i T ls, α.pend i = some (.sentWrite T ls) → α.active ≤ T) : SnapOk α s.cutSnapshot := by
  constructor
  · have hc := Covers.cut hw hcut
    rw [show s.cutSnapshot.hwm = α.active from h.active.symm]
    rw [show (fun k => ((snapshotIndex s.cutSnapshot).lookup k).map fun e => (e.segmentId, e.offset)) =
      α.index from funext fun k => by rw [lookup_cutSnapshot, h.index]]
    exact hc
  · intro k e he
    rw [lookup_cutSnapshot] at he
    have hi := h.index k
    rw [he] at hi
    obtain ⟨r, hr, hrv, hmem⟩ := hw.index_some k _ _ hi
    obtain ⟨v, hv⟩ := Option.isSome_iff_exists.mp hrv
    exact ⟨r, v, hmem, hv, h.size k e r v he hr hv⟩

omit H in
theorem SnapOk.step {α α' : LogState} {ℓ : Label Bytes Bytes} {sn : Snapshot} (h : SnapOk α sn)
    (hstep : Step α ℓ α') (ho : Ordered α) : SnapOk α' sn :=
  ⟨hstep.covers ho h.covers, fun k e he => by
    obtain ⟨r, v, hmem, hv⟩ := h.size k e he
    exact ⟨r, v, hstep.mem_sent.1 hmem, hv⟩⟩

/-- The replayed records come in log order. -/
theorem Rel.diskRecords_sorted [LawfulHashes] (h : Rel hist s α raw) (hrest : s.tasks = ∅)
    {ids : List Nat} (hids : ids.Pairwise fun a b => a < b) :
    (diskRecords s.disk ids).Pairwise fun x y => SegLog.After (x.1, x.2.1) (y.1, y.2.1) := by
  rw [diskRecords, List.pairwise_flatMap]
  constructor
  · intro S _
    rw [List.pairwise_map, h.recovered_eq hrest]
    exact ((layout_sorted 0 _).filter _).imp fun hlt => .inr ⟨rfl, hlt⟩
  · refine hids.imp fun {a b} hab x hx y hy => ?_
    obtain ⟨_, _, rfl⟩ := List.mem_map.mp hx
    obtain ⟨_, _, rfl⟩ := List.mem_map.mp hy
    exact .inl hab

theorem Rel.recovers_snapshot [LawfulHashes] (h : Rel hist s α raw) (hw : Wf α) (hl : Linked α)
    (hk : Kept α) (ho : Ordered α) (hrest : s.tasks = ∅) {sn : Snapshot} (hsn : SnapOk α sn)
    (husable : ∀ p ∈ sn.entries, p.2.segmentId ∈ s.dir) :
    Recovers α (replay s.disk ((listSegments s.dir).filter fun id => sn.hwm ≤ id) (snapshotIndex sn)) := by
  set ids := (listSegments s.dir).filter fun id => sn.hwm ≤ id with hids
  have hlist : ∀ S, S ∈ ids ↔ α.linked S ∧ sn.hwm ≤ S := fun S => by
    rw [hids, List.mem_filter, mem_listSegments, h.mem_dir hrest, decide_eq_true_eq]
  have hsorted := h.diskRecords_sorted hrest ((listSegments_sorted h.dir_nodup).filter _ : ids.Pairwise _)
  -- what the replay leaves for a key
  have hspec : ∀ k, (SegLog.Locates α k (((snapshotIndex sn).lookup k).map fun e => (e.segmentId, e.offset)) ∧
      (replay s.disk ids (snapshotIndex sn)).lookup k = (snapshotIndex sn).lookup k) ∨
      ∃ S o x l, α.linked S ∧ (o, absRec x) ∈ α.sent S ∧ α.last k = some l ∧
        (absRec x = l ∨ (absRec x).val = none ∧ l.val = none) ∧
        (replay s.disk ids (snapshotIndex sn)).lookup k =
          if x.kind = .tombstone then none else some (entryAt S (o, x)) := by
    intro k
    rw [replay_eq]
    rcases foldl_replayOne_spec (diskRecords s.disk ids) (snapshotIndex sn) k with
      ⟨hno, heq⟩ | ⟨pre, ⟨S, o, x⟩, post, hL, hxk, hpost, heq⟩
    · refine .inl ⟨hsn.covers.untouched hw hl hk fun T hT hle q hq hqk => ?_, heq⟩
      obtain ⟨y, hy, habs⟩ := h.exists_scanned hrest ((hlist T).mpr ⟨hT, hle⟩) (o := q.1) (l := q.2) hq
      exact hno _ hy (by rw [← hqk, ← habs]; rfl)
    · obtain ⟨hS, hmem⟩ := h.mem_scanned hrest (hL ▸ (by simp) : (S, o, x) ∈ diskRecords s.disk ids)
      obtain ⟨hS, hle⟩ := (hlist S).mp hS
      have hrep := ho.replayed hw hl hk (h.not_unapplied hrest) (p := (o, absRec x)) hS hmem hle ?_
      · obtain ⟨l, hlast, heql⟩ := hrep
        rw [show (absRec x).key = k from hxk] at hlast
        exact .inr ⟨S, o, x, l, hS, hmem, hlast, heql, heq⟩
      · -- a later record of the key would come behind this one in the replay
        intro T hT hTle q hq hqk hafter
        obtain ⟨y, hy, habs⟩ := h.exists_scanned hrest ((hlist T).mpr ⟨hT, hTle⟩) (o := q.1) (l := q.2) hq
        have hyk : y.key = k := by
          rw [← hxk, show y.key = (absRec y).key from rfl, habs, hqk]
          rfl
        rw [hL] at hy hsorted
        obtain ⟨_, hxpost, hcross⟩ := List.pairwise_append.mp hsorted
        rcases List.mem_append.mp hy with hy | hy
        · exact (hcross _ hy _ (List.mem_cons_self ..)).asymm hafter
        · rcases List.mem_cons.mp hy with heq | hy
          · cases heq
            exact hafter.asymm hafter
          · exact hpost _ hy hyk
  refine ⟨fun k e he => ?_, fun k l he hlast => ?_⟩
  · rcases hspec k with ⟨hloc, heq⟩ | ⟨S, o, x, l, hS, hmem, hlast, heql, heq⟩
    · rw [heq] at he
      rw [he] at hloc
      obtain ⟨l, hlast, _, hmem⟩ := hloc.1 _ _ rfl
      obtain ⟨r, v, hr, hrv, hsize⟩ := hsn.size k e he
      obtain rfl := hw.eq_of_offset hr hmem
      exact ⟨r, v, hlast, hrv, (h.mem_dir hrest _).mp (husable _ (mem_of_lookup_snapshotIndex he)), hmem, hsize⟩
    · rw [heq] at he
      split_ifs at he with hkind
      cases he
      have hv : (absRec x).val = some x.value := by simp [absRec, hkind]
      obtain rfl : absRec x = l := heql.resolve_right fun hnone => by
        rw [hnone.1] at hv
        cases hv
      exact ⟨absRec x, x.value, hlast, hv, hS, hmem, entryAt_size rfl (hw.last_key k _ hlast) hv⟩
  · rcases hspec k with ⟨hloc, heq⟩ | ⟨S, o, x, l', hS, hmem, hlast', heql, heq⟩
    · rw [heq] at he
      rw [he] at hloc
      exact hloc.2 rfl l hlast
    · obtain rfl := Option.some.inj (hlast.symm.trans hlast')
      rw [heq] at he
      split_ifs at he with hkind
      rcases heql with rfl | ⟨_, hnone⟩
      · simp [absRec, hkind]
      · exact hnone

theorem Rel.indexes_snapshot [LawfulHashes] (h : Rel hist s α raw) (hw : Wf α) (hl : Linked α)
    (hk : Kept α) (ho : Ordered α) (hrest : s.tasks = ∅) {sn : Snapshot} (hsn : SnapOk α sn)
    (husable : ∀ p ∈ sn.entries, p.2.segmentId ∈ s.dir) :
    Indexes (· ∈ s.dir) raw (replay s.disk ((listSegments s.dir).filter fun id => sn.hwm ≤ id)
      (snapshotIndex sn)) (liveMap hist) :=
  h.indexes_of_recovers hw (h.recovers_snapshot hw hl hk ho hrest hsn husable) fun S hS =>
    (h.mem_dir hrest S).mpr hS

/-- Whether the snapshot is used or not, the store opened from the directory holds the same map. -/
theorem Rel.stores_snapshot [LawfulHashes] (h : Rel hist s α raw) (hw : Wf α) (hl : Linked α)
    (hk : Kept α) (ho : Ordered α) (hrest : s.tasks = ∅)
    (hsn : ∀ sn, s.snapshot = some sn → SnapOk α sn) (max : Nat) :
    Stores (openVLog s.disk max) (liveMap hist) := by
  refine stores_openVLog (h.dir_ne_nil hl hrest) (fun S _ => h.data_eq hrest S) (fun S _ => h.block S) ?_
  cases hu : usableSnapshot s.disk with
  | none =>
    rw [recoverIndex, hu]
    exact h.indexes_fullScan hw hl hk hrest
  | some sn =>
    rw [recoverIndex, hu]
    obtain ⟨hsome, husable⟩ := Option.filter_eq_some_iff.mp hu
    refine h.indexes_snapshot hw hl hk ho hrest (hsn sn hsome) fun p hp => ?_
    exact of_decide_eq_true (List.all_eq_true.mp husable p hp)

end Skeg
