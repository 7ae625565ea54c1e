import Skeg.Core.Equiv.Layout
import Skeg.Core.Equiv.Cache
import Skeg.Lib.FiniteMap

/-!
# What recovery finds

`winners_spec` and `replay_spec` say which record of a key the two recovery paths pick.  `Stores s m`
is what a store needs for its gets to return the values of the map `m` (`Stores.getAlone`); reopening a
directory gives such a store when the recovered index points at records with those values
(`stores_openVLog`).
-/

namespace Skeg

variable [H : Hashes]

/-! ### Reading a record back -/

theorem layout_split {b o : Nat} {r : Record} {rs : List Record} (h : (o, r) ∈ layout b rs) :
    ∃ pre post, rs = pre ++ r :: post ∧ o = b + (encodeAll pre).length := by
  induction rs generalizing b with
  | nil => cases h
  | cons x rs ih =>
    rcases List.mem_cons.mp h with heq | h
    · cases heq
      exact ⟨[], rs, rfl, rfl⟩
    · obtain ⟨pre, post, rfl, rfl⟩ := ih h
      exact ⟨x :: pre, post, rfl, by simp; omega⟩

theorem File.pread_record {f : File} {rs : List Record} (hdata : f.data = encodeAll rs) {o : Nat}
    {r : Record} (h : (o, r) ∈ layout 0 rs) : f.pread o r.size = r.encode := by
  obtain ⟨pre, post, rfl, rfl⟩ := layout_split h
  rw [File.pread, File.content, hdata, encodeAll_append, encodeAll_cons, List.append_assoc,
    List.append_assoc, Nat.zero_add, List.drop_left' rfl, List.take_left' r.length_encode]

/-- The entries of an index and the records they point at, in segments that hold the blocks `raw`. -/
structure Indexes (dir : Nat → Prop) (raw : Nat → List (List Record)) (index : Index)
    (m : Bytes → Option Bytes) : Prop where
  absent : ∀ k, m k = none → index.lookup k = none
  present : ∀ k v, m k = some v → ∃ e x, index.lookup k = some e ∧ dir e.segmentId ∧
    (e.offset, x) ∈ layout 0 (raw e.segmentId).flatten ∧ e.size = x.size ∧ x.key = k ∧ x.value = v

/-- The store holds the map `m`. -/
structure Stores (s : VLog) (m : Bytes → Option Bytes) : Prop where
  absent : ∀ k, m k = none → s.index.lookup k = none
  present : ∀ k v, m k = some v → ∃ e ts kind, s.index.lookup k = some e ∧
    s.isReadable e.segmentId = true ∧ e.size = paddedRecordSize k.length v.length ∧
    decodeRecord ((s.segs e.segmentId).file.pread e.offset e.size) = .ok ⟨ts, kind, k, v⟩

theorem Indexes.stores {s : VLog} {dir : Nat → Prop} {raw : Nat → List (List Record)}
    {m : Bytes → Option Bytes} (h : Indexes dir raw s.index m)
    (hdir : ∀ S, dir S → s.isReadable S = true)
    (hdata : ∀ S, dir S → (s.segs S).file.data = encodeAll (raw S).flatten)
    (hblock : ∀ S, dir S → ∀ b ∈ raw S, IsBlock b) : Stores s m := by
  refine ⟨h.absent, fun k v hk => ?_⟩
  obtain ⟨e, x, he, hS, hx, hsize, rfl, rfl⟩ := h.present k v hk
  obtain ⟨b, hb, hxb⟩ := List.mem_flatten.mp (mem_layout hx).2.2
  refine ⟨e, x.ts, x.kind, he, hdir _ hS, hsize, ?_⟩
  rw [hsize, File.pread_record (hdata _ hS) hx,
    decodeRecord_encode x ((hblock _ hS b hb).wf x hxb)]

/-- A get run alone returns the value of the record behind the index entry. -/
theorem getAlone_of_lookup {s : VLog} {k : Bytes} {v : Option Bytes} {tenant : Nat}
    (hnone : v = none → s.index.lookup k = none)
    (hsome : ∀ w, v = some w → ∃ e r, s.index.lookup k = some e ∧ s.isReadable e.segmentId = true ∧
      decodeRecord ((s.segs e.segmentId).file.pread e.offset e.size) = .ok r ∧ r.value = w)
    (hcache : ∀ w, s.cache.peek k = some w → v = some w)
    (hfill : ∀ w, v = some w → ((s.cache.get k).2.insertFor k w w.length tenant).isSome) :
    s.getAlone k tenant = some (.ok (.value v)) := by
  unfold VLog.getAlone VLog.beginGet
  dsimp only
  cases hget : (s.cache.get k).1 with
  | some w =>
    rw [S3Fifo.get_fst] at hget
    simp [VLog.gotValue, VLog.finish, VLog.returnedBy, hcache w hget]
  | none =>
    cases hv : v with
    | none => simp [hnone hv, VLog.gotValue, VLog.finish, VLog.returnedBy]
    | some w =>
      obtain ⟨e, r, he, hread, hdec, rfl⟩ := hsome w hv
      obtain ⟨cache, hc⟩ := Option.isSome_iff_exists.mp (hfill _ hv)
      have hread' : VLog.isReadable { s with cache := (s.cache.get k).2 } e.segmentId = true := hread
      simp only [he, hread', if_true, VLog.returnedBy, List.findSome?_nil, VLog.setTask,
        AList.lookup_insert, Option.bind_some, VLog.resume, VLog.endGet, hdec, hc, VLog.gotValue,
        VLog.finish]
      rfl

/-- A get run alone returns the value of the map. -/
theorem Stores.getAlone {s : VLog} {m : Bytes → Option Bytes} (h : Stores s m) {k : Bytes}
    {tenant : Nat} (hcache : ∀ v, s.cache.peek k = some v → m k = some v)
    (hfill : ∀ v, m k = some v → ((s.cache.get k).2.insertFor k v v.length tenant).isSome) :
    s.getAlone k tenant = some (.ok (.value (m k))) := by
  refine getAlone_of_lookup (h.absent k) (fun v hv => ?_) hcache hfill
  obtain ⟨e, ts, kind, he, hread, _, hdec⟩ := h.present k v hv
  exact ⟨e, _, he, hread, hdec, rfl⟩

/-! ### The records on disk -/

/-- The records recovery applies, in the order in which it does. -/
def diskRecords (d : Disk) (ids : List Nat) : List (Nat × Nat × Record) :=
  ids.flatMap fun id => (recovered (d.file id).content).map fun p => (id, p)

theorem winners_eq (d : Disk) :
    winners d = (diskRecords d (listSegments d.dir)).foldl (fun w x => addWinner x.1 w x.2) ∅ := by
  rw [winners, diskRecords, List.foldl_flatMap]
  simp only [List.foldl_map]

theorem replay_eq (d : Disk) (ids : List Nat) (index : Index) :
    replay d ids index = (diskRecords d ids).foldl (fun index x => replayOne x.1 index x.2) index := by
  rw [replay, diskRecords, List.foldl_flatMap]
  simp only [List.foldl_map]

theorem mem_diskRecords {d : Disk} {ids : List Nat} {x : Nat × Nat × Record} :
    x ∈ diskRecords d ids ↔ x.1 ∈ ids ∧ x.2 ∈ recovered (d.file x.1).content := by
  obtain ⟨S, p⟩ := x
  simp only [diskRecords, List.mem_flatMap, List.mem_map, Prod.mk.injEq]
  constructor
  · rintro ⟨id, hid, p', hp', rfl, rfl⟩
    exact ⟨hid, hp'⟩
  · rintro ⟨hid, hp⟩
    exact ⟨S, hid, p, hp, rfl, rfl⟩

omit H in
theorem mem_listSegments {dir : List Nat} {S : Nat} : S ∈ listSegments dir ↔ S ∈ dir := by
  simp [listSegments]

/-! ### The highest timestamp wins -/

/-- The winner among the records of `k` in `L`. -/
def IsWinner (L : List (Nat × Nat × Record)) (k : Bytes) :
    Option (Nat × RecordKind × IndexEntry) → Prop
  | none => ∀ x ∈ L, x.2.2.key ≠ k
  | some w => ∃ x ∈ L, x.2.2.key = k ∧ w = (x.2.2.ts, x.2.2.kind, entryAt x.1 x.2) ∧
      ∀ y ∈ L, y.2.2.key = k → y.2.2.ts ≤ x.2.2.ts

theorem foldl_addWinner_spec (L : List (Nat × Nat × Record)) (k : Bytes) :
    IsWinner L k ((L.foldl (fun w x => addWinner x.1 w x.2) ∅).lookup k) := by
  induction L using List.reverseRecOn with
  | nil => intro x hx; cases hx
  | append_singleton L x ih =>
    rw [List.foldl_append, List.foldl_cons, List.foldl_nil]
    generalize L.foldl (fun w x => addWinner x.1 w x.2) ∅ = w at ih ⊢
    by_cases hk : x.2.2.key = k
    · subst hk
      unfold addWinner
      split
      · rename_i ts kind e hw
        rw [hw] at ih
        obtain ⟨y, hy, hyk, hyw, hmax⟩ := ih
        split
        · -- the new record is newer than all before it
          rename_i hlt
          rw [AList.lookup_insert]
          refine ⟨x, by simp, rfl, rfl, fun z hz hzk => ?_⟩
          rcases List.mem_append.mp hz with hz | hz
          · have h1 := hmax z hz hzk
            cases hyw
            omega
          · rw [List.mem_singleton.mp hz]
        · rename_i hlt
          rw [hw]
          refine ⟨y, by simp [hy], hyk, hyw, fun z hz hzk => ?_⟩
          rcases List.mem_append.mp hz with hz | hz
          · exact hmax z hz hzk
          · rw [List.mem_singleton.mp hz]
            cases hyw
            omega
      · rename_i hw
        rw [hw] at ih
        rw [AList.lookup_insert]
        refine ⟨x, by simp, rfl, rfl, fun z hz hzk => ?_⟩
        rcases List.mem_append.mp hz with hz | hz
        · exact absurd hzk (ih z hz)
        · rw [List.mem_singleton.mp hz]
    · have hsame : (addWinner x.1 w x.2).lookup k = w.lookup k := by
        have hne : k ≠ x.2.2.key := fun h => hk h.symm
        unfold addWinner
        split
        · split
          · exact AList.lookup_insert_ne hne
          · rfl
        · exact AList.lookup_insert_ne hne
      rw [hsame]
      cases hw : w.lookup k with
      | none =>
        rw [hw] at ih
        intro z hz
        rcases List.mem_append.mp hz with hz | hz
        · exact ih z hz
        · rw [List.mem_singleton.mp hz]
          exact hk
      | some v =>
        rw [hw] at ih
        obtain ⟨y, hy, hyk, hyw, hmax⟩ := ih
        refine ⟨y, by simp [hy], hyk, hyw, fun z hz hzk => ?_⟩
        rcases List.mem_append.mp hz with hz | hz
        · exact hmax z hz hzk
        · rw [List.mem_singleton.mp hz] at hzk
          exact absurd hzk hk

omit H in
theorem lookup_winnersIndex (w : Winners) (k : Bytes) :
    (winnersIndex w).lookup k =
      (w.lookup k).bind fun v => if v.2.1 ≠ .tombstone then some v.2.2 else none := by
  have := FiniteMap.lookup_foldl_insert (fun v : Nat × RecordKind × IndexEntry => v.2.1 ≠ .tombstone)
    (fun v => v.2.2) w ∅ k
  simp only [decide_eq_true_eq] at this
  rw [winnersIndex, this]
  cases w.lookup k with
  | none => rfl
  | some v => by_cases hv : v.2.1 = .tombstone <;> simp [hv]

/-! ### The last record wins -/

/-- After a replay a key has its last record, or what it had if there is none. -/
theorem foldl_replayOne_spec (L : List (Nat × Nat × Record)) (index : Index) (k : Bytes) :
    ((∀ x ∈ L, x.2.2.key ≠ k) ∧
      (L.foldl (fun index x => replayOne x.1 index x.2) index).lookup k = index.lookup k) ∨
    ∃ pre x post, L = pre ++ x :: post ∧ x.2.2.key = k ∧ (∀ y ∈ post, y.2.2.key ≠ k) ∧
      (L.foldl (fun index x => replayOne x.1 index x.2) index).lookup k =
        if x.2.2.kind = .tombstone then none else some (entryAt x.1 x.2) := by
  induction L using List.reverseRecOn with
  | nil => exact .inl ⟨by simp, rfl⟩
  | append_singleton L x ih =>
    rw [List.foldl_append, List.foldl_cons, List.foldl_nil]
    generalize L.foldl (fun index x => replayOne x.1 index x.2) index = j at ih ⊢
    by_cases hk : x.2.2.key = k
    · subst hk
      refine .inr ⟨L, x, [], rfl, rfl, by simp, ?_⟩
      unfold replayOne
      split
      · exact AList.lookup_erase ..
      · exact AList.lookup_insert _
    · have hsame : (replayOne x.1 j x.2).lookup k = j.lookup k := by
        have hne : k ≠ x.2.2.key := fun h => hk h.symm
        unfold replayOne
        split
        · exact AList.lookup_erase_ne hne
        · exact AList.lookup_insert_ne hne
      rw [hsame]
      rcases ih with ⟨h1, h2⟩ | ⟨pre, y, post, rfl, h1, h2, h3⟩
      · refine .inl ⟨fun z hz => ?_, h2⟩
        rcases List.mem_append.mp hz with hz | hz
        · exact h1 z hz
        · rw [List.mem_singleton.mp hz]
          exact hk
      · refine .inr ⟨pre, y, post ++ [x], by simp, h1, fun z hz => ?_, h3⟩
        rcases List.mem_append.mp hz with hz | hz
        · exact h2 z hz
        · rw [List.mem_singleton.mp hz]
          exact hk

end Skeg
