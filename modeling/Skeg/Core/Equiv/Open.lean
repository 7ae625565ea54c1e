import Skeg.Core.Equiv.Recovery
import Skeg.Core.Equiv.Refine
import Skeg.Lib.SegLog.Order

/-!
# A store just opened

What `openVLog` takes over from a directory: the recovered index, an empty cache, the segments as
they are on disk with the newest of them active (`Opens`).  On a directory of whole blocks
(`DiskOk`) the store is the segmented log whose history is what the records on disk tell
(`recoveredEvents`), in the order of their timestamps: `DiskOk.rel`, `DiskOk.wf`, `DiskOk.linked`,
`DiskOk.kept`.
-/

namespace Skeg

open SegLog (Rec Loc Pend Comp Label Step Wf Path Linked Kept Ordered)

variable [H : Hashes] {d : Disk} {raw : Nat → List (List Record)} {m : Bytes → Option Bytes}
  {max : Nat}

/-! ### The store and its directory -/

omit H in
theorem listSegments_sorted {dir : List Nat} (h : dir.Nodup) :
    (listSegments dir).Pairwise fun a b => a < b := by
  have hnodup : (listSegments dir).Nodup :=
    (List.perm_insertionSort (· ≤ ·) dir).nodup_iff.mpr h
  have hsorted : (listSegments dir).Pairwise (· ≤ ·) := List.pairwise_insertionSort (· ≤ ·) dir
  exact (hsorted.and hnodup).imp fun hab => Nat.lt_of_le_of_ne hab.1 hab.2

omit H in
/-- The newest segment of a directory. -/
theorem getLast?_listSegments {dir : List Nat} (hne : dir ≠ []) :
    ∃ id, (listSegments dir).getLast? = some id ∧ id ∈ dir ∧ ∀ S ∈ dir, S ≤ id := by
  have hne' : listSegments dir ≠ [] := by
    intro h
    refine hne (List.eq_nil_iff_forall_not_mem.mpr fun S hS => ?_)
    have := mem_listSegments.mpr hS
    rw [h] at this
    cases this
  refine ⟨(listSegments dir).getLast hne', List.getLast?_eq_some_getLast hne',
    mem_listSegments.mp (List.getLast_mem hne'), fun S hS => ?_⟩
  have hsorted : (listSegments dir).Pairwise (· ≤ ·) := List.pairwise_insertionSort (· ≤ ·) dir
  have hsplit := List.dropLast_append_getLast hne'
  have hmem := mem_listSegments.mpr hS
  rw [← hsplit] at hmem hsorted
  rcases List.mem_append.mp hmem with h | h
  · exact (List.pairwise_append.mp hsorted).2.2 S h _ (List.mem_singleton_self _)
  · exact Nat.le_of_eq (List.mem_singleton.mp h)

/-- What an opened store takes over from the directory `d`. -/
structure Opens (d : Disk) (max : Nat) (s : VLog) : Prop where
  maxSegSize : s.maxSegSize = max
  index : s.index = (recoverIndex d).1
  cache : s.cache = S3Fifo.new cacheBudgetBytes
  tenantDisk : s.tenantDisk = recoverTenantDisk (recoverIndex d).1 ∅
  clock : s.clock = (recoverIndex d).2.1 + 1
  tasks : s.tasks = ∅
  acks : ∀ t, s.acks t = none
  snapshot : s.snapshot = d.snapshot
  dir : s.dir = if d.dir = [] then [0] else d.dir
  readable : ∀ S, s.isReadable S = true ↔ S ∈ s.dir
  active : s.active.id ∈ s.dir ∧ ∀ S ∈ s.dir, S ≤ s.active.id
  queue : ∀ S, (s.segs S).queue = []
  absent : ∀ S, S ∉ d.dir → (s.segs S).file.data = [] ∧ (s.segs S).wOffset = 0
  sealed : ∀ S ∈ d.dir, S ≠ s.active.id →
    (s.segs S).file = d.file S ∧ (s.segs S).wOffset = (d.file S).data.length
  /-- The segment that resumes as active is cut behind its last record, if it was read. -/
  resumed : s.active.id ∈ d.dir → (recoverIndex d).2.2 s.active.id = true →
    (s.segs s.active.id).file.data =
        (d.file s.active.id).data.take (scanFile (d.file s.active.id).content).2 ∧
      (s.segs s.active.id).wOffset = (scanFile (d.file s.active.id).content).2
  unread : s.active.id ∈ d.dir → (recoverIndex d).2.2 s.active.id = false →
    (s.segs s.active.id).file = d.file s.active.id

theorem opens_openVLog (d : Disk) (max : Nat) : Opens d max (openVLog d max) := by
  have hread : ∀ S, ((listSegments d.dir).map fun id => (⟨id, liveBytes (recoverIndex d).1 id⟩ :
      ReadSegment)).any (fun r => r.id = S) = true ↔ S ∈ d.dir := by
    intro S
    rw [List.any_map, List.any_eq_true]
    simp only [Function.comp, decide_eq_true_eq]
    exact ⟨fun ⟨x, hx, hxS⟩ => hxS ▸ mem_listSegments.mp hx, fun hS => ⟨S, mem_listSegments.mpr hS, rfl⟩⟩
  rcases hrec : recoverIndex d with ⟨index, maxTs, isRead⟩
  rw [hrec] at hread
  by_cases hne : d.dir = []
  · have hlast : (listSegments d.dir).getLast? = none := by rw [hne]; rfl
    simp only [openVLog, openShared, hlast, hrec]
    constructor <;> simp [hrec, hne, VLog.isReadable, File.create]
    case readable => exact fun S => eq_comm
    case queue =>
      intro S
      by_cases hS : S = 0
      · simp [hS]
      · rw [Function.update_of_ne hS]
        rfl
    case absent =>
      intro S
      by_cases hS : S = 0
      · simp [hS]
      · rw [Function.update_of_ne hS]
        exact ⟨rfl, rfl⟩
  · obtain ⟨id, hid, hmem, hle⟩ := getLast?_listSegments hne
    simp only [openVLog, openShared, hid, hrec]
    constructor <;> simp only [hrec, if_neg hne, VLog.isReadable, Function.update_self]
    case acks => exact fun _ => trivial
    case readable => exact hread
    case active => exact ⟨hmem, hle⟩
    case queue =>
      intro S
      by_cases hS : S = id
      · simp [hS]
      · rw [Function.update_of_ne hS]
        split <;> rfl
    case absent =>
      intro S hS
      have hne : S ≠ id := by rintro rfl; exact hS hmem
      rw [Function.update_of_ne hne, if_neg hS]
      exact ⟨rfl, rfl⟩
    case sealed =>
      intro S hS hne
      rw [Function.update_of_ne hne, if_pos hS]
      exact ⟨rfl, rfl⟩
    case resumed =>
      intro _ hr
      simp only [hr, if_true]
      exact ⟨rfl, trivial⟩
    case unread =>
      intro _ hr
      simp [hr]

/-- The segments of a directory of whole blocks are taken over as they are. -/
theorem Opens.data [LawfulHashes] {s : VLog} (h : Opens d max s) {S : Nat} (hS : S ∈ d.dir)
    (hdata : (d.file S).data = encodeAll (raw S).flatten) (hblock : ∀ b ∈ raw S, IsBlock b) :
    (s.segs S).file.data = encodeAll (raw S).flatten := by
  by_cases hact : S = s.active.id
  · subst hact
    cases hr : (recoverIndex d).2.2 s.active.id with
    | true =>
      -- the scan of the resumed segment ends where its records do
      rw [(h.resumed hS hr).1, File.content, hdata, scanFile_blocks hblock, List.take_length]
    | false => rw [h.unread hS hr, hdata]
  · rw [(h.sealed S hS hact).1, hdata]

theorem stores_openVLog [LawfulHashes] (hne : d.dir ≠ [])
    (hdata : ∀ S ∈ d.dir, (d.file S).data = encodeAll (raw S).flatten)
    (hblock : ∀ S ∈ d.dir, ∀ b ∈ raw S, IsBlock b)
    (hidx : Indexes (· ∈ d.dir) raw (recoverIndex d).1 m) : Stores (openVLog d max) m := by
  have h := opens_openVLog d max
  have hdir : (openVLog d max).dir = d.dir := by rw [h.dir, if_neg hne]
  exact Indexes.stores (h.index ▸ hidx) (fun S hS => (h.readable S).mpr (hdir ▸ hS))
    (fun S hS => h.data hS (hdata S hS) (hblock S hS)) hblock

/-- A get on a store just opened returns. -/
theorem getAlone_openVLog (h : Stores (openVLog d max) m) (k : Bytes) (tenant : Nat) :
    (openVLog d max).getAlone k tenant = some (.ok (.value (m k))) := by
  have hempty : (openVLog d max).cache.map = ∅ := by
    rw [(opens_openVLog d max).cache]
    rfl
  refine h.getAlone (fun v hv => ?_) fun v _ => S3Fifo.insertFor_isSome_of_empty ?_ ..
  · rw [S3Fifo.peek, hempty] at hv
    cases hv
  · simp [S3Fifo.get, hempty]

/-! ### What the records of a directory tell -/

/-- The write a record tells of. -/
def appliedEvent (x : Nat × Nat × Record) : Event :=
  .applied x.2.2.key (absRec x.2.2).val x.2.2.ts .relaxed

/-- The writes the records of a directory tell of, in the order of their timestamps. -/
def recoveredEvents (d : Disk) : List Event :=
  ((diskRecords d (listSegments d.dir)).insertionSort fun x y => x.2.2.ts ≤ y.2.2.ts).map appliedEvent

/-- `l` is the newest record of `k` in `L`. -/
def IsNewest (L : List (Nat × Nat × Record)) (k : Bytes) : Option (Rec Bytes Bytes) → Prop
  | none => ∀ x ∈ L, x.2.2.key ≠ k
  | some l => ∃ x ∈ L, x.2.2.key = k ∧ absRec x.2.2 = l ∧ ∀ y ∈ L, y.2.2.key = k → y.2.2.ts ≤ l.ts

omit H in
theorem lastApplied_map {L : List (Nat × Nat × Record)}
    (hL : L.Pairwise fun x y => x.2.2.ts ≤ y.2.2.ts) (k : Bytes) :
    IsNewest L k (lastApplied (L.map appliedEvent) k) := by
  induction L using List.reverseRecOn with
  | nil => intro x hx; cases hx
  | append_singleton L x ih =>
    obtain ⟨hL, _, hcross⟩ := List.pairwise_append.mp hL
    have hstep : lastApplied ((L ++ [x]).map appliedEvent) =
        Function.update (lastApplied (L.map appliedEvent)) x.2.2.key (some (absRec x.2.2)) := by
      simp [lastApplied, List.foldl_append, appliedEvent, absRec]
    rw [hstep]
    by_cases hk : k = x.2.2.key
    · subst hk
      rw [Function.update_self]
      refine ⟨x, by simp, rfl, rfl, fun y hy _ => ?_⟩
      rcases List.mem_append.mp hy with hy | hy
      · exact hcross y hy x (List.mem_singleton_self _)
      · rw [List.mem_singleton.mp hy]
        exact Nat.le_refl _
    · rw [Function.update_of_ne hk]
      have hxk : ∀ y ∈ L ++ [x], y.2.2.key = k → y ∈ L := by
        intro y hy hyk
        rcases List.mem_append.mp hy with hy | hy
        · exact hy
        · rw [List.mem_singleton.mp hy] at hyk
          exact absurd hyk.symm hk
      have := ih hL
      cases hl : lastApplied (L.map appliedEvent) k with
      | none =>
        rw [hl] at this
        exact fun y hy hyk => this y (hxk y hy hyk) hyk
      | some l =>
        rw [hl] at this
        obtain ⟨z, hz, hzk, habs, hmax⟩ := this
        exact ⟨z, by simp [hz], hzk, habs, fun y hy hyk => hmax y (hxk y hy hyk) hyk⟩

theorem lastApplied_recoveredEvents (d : Disk) (k : Bytes) :
    IsNewest (diskRecords d (listSegments d.dir)) k (lastApplied (recoveredEvents d) k) := by
  set r : Nat × Nat × Record → Nat × Nat × Record → Prop := fun x y => x.2.2.ts ≤ y.2.2.ts
  have : Std.Total r := ⟨fun x y => Nat.le_total _ _⟩
  have : IsTrans _ r := ⟨fun x y z => Nat.le_trans⟩
  have h := lastApplied_map (List.pairwise_insertionSort r (diskRecords d (listSegments d.dir))) k
  have hmem : ∀ x, x ∈ (diskRecords d (listSegments d.dir)).insertionSort r ↔
      x ∈ diskRecords d (listSegments d.dir) := fun x => List.mem_insertionSort r
  unfold recoveredEvents
  cases hl : lastApplied (((diskRecords d (listSegments d.dir)).insertionSort r).map appliedEvent) k with
  | none =>
    rw [hl] at h
    exact fun x hx => h x ((hmem x).mpr hx)
  | some l =>
    rw [hl] at h
    obtain ⟨x, hx, hxk, habs, hmax⟩ := h
    exact ⟨x, (hmem x).mp hx, hxk, habs, fun y hy => hmax y ((hmem y).mpr hy)⟩

/-! ### Directories of whole blocks -/

/-- The segments of the directory consist of the blocks `raw`, timestamps identify records, and there
is no snapshot. -/
structure DiskOk (d : Disk) (raw : Nat → List (List Record)) : Prop where
  nodup : d.dir.Nodup
  data : ∀ S ∈ d.dir, (d.file S).data = encodeAll (raw S).flatten
  block : ∀ S ∈ d.dir, ∀ b ∈ raw S, IsBlock b
  inj : ∀ S ∈ d.dir, ∀ x ∈ (raw S).flatten, ∀ T ∈ d.dir, ∀ y ∈ (raw T).flatten,
    x.kind ≠ .batchBegin → y.kind ≠ .batchBegin → x.ts = y.ts → absRec x = absRec y
  snapshot : d.snapshot = none

theorem diskOk_empty : DiskOk Disk.empty fun _ => [] :=
  ⟨List.nodup_nil, fun _ h => absurd h List.not_mem_nil, fun _ h => absurd h List.not_mem_nil,
    fun _ h => absurd h List.not_mem_nil, rfl⟩

theorem le_newestTs (d : Disk) (ids : List Nat) (ts : Nat) : ts ≤ newestTs d ids ts ∧
    ∀ id ∈ ids, ∀ p ∈ (scanFile (d.file id).content).1, p.2.ts ≤ newestTs d ids ts := by
  have hfold : ∀ (l : List (Nat × Record)) (ts : Nat),
      ts ≤ l.foldl (fun ts p => Nat.max ts p.2.ts) ts ∧
        ∀ p ∈ l, p.2.ts ≤ l.foldl (fun ts p => Nat.max ts p.2.ts) ts := by
    intro l
    induction l with
    | nil => exact fun ts => ⟨Nat.le_refl _, fun _ h => absurd h List.not_mem_nil⟩
    | cons q l ih =>
      intro ts
      obtain ⟨h1, h2⟩ := ih (Nat.max ts q.2.ts)
      refine ⟨Nat.le_trans (Nat.le_max_left _ _) h1, fun p hp => ?_⟩
      rcases List.mem_cons.mp hp with rfl | hp
      · exact Nat.le_trans (Nat.le_max_right _ _) h1
      · exact h2 p hp
  induction ids generalizing ts with
  | nil => exact ⟨Nat.le_refl _, fun _ h => absurd h List.not_mem_nil⟩
  | cons S ids ih =>
    obtain ⟨h1, h2⟩ := hfold (scanFile (d.file S).content).1 ts
    obtain ⟨h3, h4⟩ := ih ((scanFile (d.file S).content).1.foldl (fun ts p => Nat.max ts p.2.ts) ts)
    refine ⟨Nat.le_trans h1 h3, fun id hid p hp => ?_⟩
    rcases List.mem_cons.mp hid with rfl | hid
    · exact Nat.le_trans (h2 p hp) h3
    · exact h4 id hid p hp

namespace DiskOk

theorem recoverIndex_eq (h : DiskOk d raw) :
    recoverIndex d = (winnersIndex (winners d), newestTs d (listSegments d.dir) 0, fun _ => true) := by
  simp [recoverIndex, usableSnapshot, h.snapshot]

section

variable [LawfulHashes]

theorem scan_eq (h : DiskOk d raw) {S : Nat} (hS : S ∈ d.dir) :
    (scanFile (d.file S).content).1 = layout 0 (raw S).flatten := by
  rw [File.content, h.data S hS, scanFile_blocks (h.block S hS)]

theorem mem_records (h : DiskOk d raw) {S o : Nat} {x : Record} :
    (S, o, x) ∈ diskRecords d (listSegments d.dir) ↔
      S ∈ d.dir ∧ (o, x) ∈ layout 0 (raw S).flatten ∧ x.kind ≠ .batchBegin := by
  rw [mem_diskRecords, mem_listSegments]
  refine and_congr_right fun hS => ?_
  rw [File.content, h.data S hS, recovered_blocks (h.block S hS), List.mem_filter]
  simp [isData]

theorem eq_of_ts (h : DiskOk d raw) {x y : Nat × Nat × Record}
    (hx : x ∈ diskRecords d (listSegments d.dir)) (hy : y ∈ diskRecords d (listSegments d.dir))
    (hts : x.2.2.ts = y.2.2.ts) : absRec x.2.2 = absRec y.2.2 := by
  obtain ⟨hS, hxl, hxk⟩ := h.mem_records.mp hx
  obtain ⟨hT, hyl, hyk⟩ := h.mem_records.mp hy
  exact h.inj _ hS _ (mem_layout hxl).2.2 _ hT _ (mem_layout hyl).2.2 hxk hyk hts

/-- The record recovery picks for a key is the last write the directory tells of. -/
theorem winner (h : DiskOk d raw) (k : Bytes) :
    (winners d).lookup k = none ∧ lastApplied (recoveredEvents d) k = none ∨
    ∃ S o x, (S, o, x) ∈ diskRecords d (listSegments d.dir) ∧ x.key = k ∧
      (winners d).lookup k = some (x.ts, x.kind, entryAt S (o, x)) ∧
      lastApplied (recoveredEvents d) k = some (absRec x) := by
  have hwin := foldl_addWinner_spec (diskRecords d (listSegments d.dir)) k
  rw [← winners_eq] at hwin
  have hnew := lastApplied_recoveredEvents d k
  cases hw : (winners d).lookup k with
  | none =>
    rw [hw] at hwin
    cases hl : lastApplied (recoveredEvents d) k with
    | none => exact .inl ⟨rfl, rfl⟩
    | some l =>
      rw [hl] at hnew
      obtain ⟨x, hx, hxk, _⟩ := hnew
      exact absurd hxk (hwin x hx)
  | some w =>
    rw [hw] at hwin
    obtain ⟨⟨S, o, x⟩, hx, hxk, rfl, hmax⟩ := hwin
    cases hl : lastApplied (recoveredEvents d) k with
    | none =>
      rw [hl] at hnew
      exact absurd hxk (hnew _ hx)
    | some l =>
      rw [hl] at hnew
      obtain ⟨y, hy, hyk, rfl, hymax⟩ := hnew
      have hts : y.2.2.ts = x.ts := Nat.le_antisymm (hmax y hy hyk) (hymax _ hx hxk)
      exact .inr ⟨S, o, x, hx, hxk, rfl, congrArg some (h.eq_of_ts hy hx hts)⟩

end

end DiskOk

/-! ### The segmented log of a directory -/

/-- The blocks of the segments that are in the directory. -/
def openRaw (d : Disk) (raw : Nat → List (List Record)) (S : Nat) : List (List Record) :=
  if S ∈ d.dir then raw S else []

/-- The segmented log of a store just opened. -/
def openState (d : Disk) (raw : Nat → List (List Record)) (s : VLog) : LogState where
  active := s.active.id
  clock := s.clock
  sent S := dataRecs (layout 0 (openRaw d raw S).flatten)
  synced S := (s.segs S).file.synced
  linked S := s.isReadable S = true
  index k := (s.index.lookup k).map fun e => (e.segmentId, e.offset)
  last := lastApplied (recoveredEvents d)
  durable := lastDurable (recoveredEvents d)
  pend _ := none
  comp _ := none

/-- The same with another history. -/
def openLog (d : Disk) (raw : Nat → List (List Record)) (s : VLog) (hist : List Event) : LogState :=
  { openState d raw s with last := lastApplied hist, durable := lastDurable hist }

section

variable [LawfulHashes]

theorem segRel_openVLog (hdata : ∀ S ∈ d.dir, (d.file S).data = encodeAll (raw S).flatten)
    (hblock : ∀ S ∈ d.dir, ∀ b ∈ raw S, IsBlock b)
    (hread : (recoverIndex d).2.2 (openVLog d max).active.id = true) (S : Nat) :
    SegRel ((openVLog d max).segs S) (openRaw d raw S) := by
  have ho := opens_openVLog d max
  unfold openRaw
  by_cases hS : S ∈ d.dir
  · rw [if_pos hS]
    have hfile := ho.data hS (hdata S hS) (hblock S hS)
    refine ⟨raw S, [], by simp, hfile, ?_, by simp [ho.queue S]⟩
    by_cases hact : S = (openVLog d max).active.id
    · subst hact
      rw [(ho.resumed hS hread).2, hfile, File.content, hdata _ hS, scanFile_blocks (hblock _ hS)]
    · rw [(ho.sealed S hS hact).2, (ho.sealed S hS hact).1]
  · rw [if_neg hS]
    exact ⟨[], [], rfl, (ho.absent S hS).1, by rw [(ho.absent S hS).1, (ho.absent S hS).2]; rfl,
      by simp [ho.queue S]⟩

omit [LawfulHashes] in
theorem dir_of_mem (max : Nat) {S : Nat} (hS : S ∈ d.dir) : S ∈ (openVLog d max).dir := by
  rw [(opens_openVLog d max).dir, if_neg (List.ne_nil_of_mem hS)]
  exact hS

theorem rel_openVLog (hnodup : d.dir.Nodup) (hdata : ∀ S ∈ d.dir, (d.file S).data = encodeAll (raw S).flatten)
    (hblock : ∀ S ∈ d.dir, ∀ b ∈ raw S, IsBlock b)
    (hread : (recoverIndex d).2.2 (openVLog d max).active.id = true) {hist : List Event}
    (hsize : ∀ k e l v, (openVLog d max).index.lookup k = some e → lastApplied hist k = some l → l.val = some v →
      e.size = paddedRecordSize k.length v.length) :
    Rel hist (openVLog d max) (openLog d raw (openVLog d max) hist) (openRaw d raw) := by
  have ho := opens_openVLog d max
  have hlookup : ∀ t, (openVLog d max).tasks.lookup t = none := fun t => by rw [ho.tasks]; rfl
  refine ⟨rfl, rfl, segRel_openVLog hdata hblock hread, fun S b hb => ?_, fun _ => rfl, fun _ => rfl, fun _ => Iff.rfl,
    fun S hS => ho.active.2 S ((ho.readable S).mp hS), fun S hS => ?_, fun _ => rfl,
    hsize, rfl, rfl, fun t => ?_, fun S w hw => ?_, fun S => ?_,
    fun t ht => absurd (ho.acks t) ht, fun S => ?_, ?_⟩
  · unfold openRaw at hb
    split at hb
    · rename_i hS
      exact hblock S hS b hb
    · cases hb
  · refine if_neg fun hmem => ?_
    have := ho.active.2 S (dir_of_mem max hmem)
    omega
  · rw [hlookup]
    exact ⟨rfl, rfl⟩
  · rw [ho.queue S] at hw
    cases hw
  · rw [ho.queue S]
    exact List.nodup_nil
  · rw [← ho.readable S]
    refine (or_iff_left ?_).symm
    rintro ⟨t, job, ht⟩
    rw [hlookup] at ht
    cases ht
  · rw [ho.dir]
    split
    · simp
    · exact hnodup

end

namespace DiskOk

variable [LawfulHashes]

theorem mem_sent (h : DiskOk d raw) {s : VLog} {S o : Nat} {l : Rec Bytes Bytes} :
    (o, l) ∈ (openState d raw s).sent S ↔
      ∃ x, (S, o, x) ∈ diskRecords d (listSegments d.dir) ∧ absRec x = l := by
  rw [openState, mem_dataRecs, openRaw]
  by_cases hS : S ∈ d.dir
  · simp only [h.mem_records, hS, true_and, and_assoc, if_true]
  · simp [hS, h.mem_records, layout]

/-- The index of an opened store points at the newest record of each key. -/
theorem lookup_index (h : DiskOk d raw) {k : Bytes} {e : IndexEntry}
    (he : (openVLog d max).index.lookup k = some e) :
    ∃ S o x, (S, o, x) ∈ diskRecords d (listSegments d.dir) ∧ x.key = k ∧ x.kind ≠ .tombstone ∧
      e = entryAt S (o, x) ∧ lastApplied (recoveredEvents d) k = some (absRec x) := by
  rw [(opens_openVLog d max).index, h.recoverIndex_eq, lookup_winnersIndex] at he
  rcases h.winner k with ⟨hw, _⟩ | ⟨S, o, x, hx, hxk, hw, hl⟩
  · rw [hw] at he
    cases he
  · rw [hw, Option.bind_some] at he
    by_cases hk : x.kind = .tombstone
    · simp [hk] at he
    · rw [if_pos hk] at he
      cases he
      exact ⟨S, o, x, hx, hxk, hk, rfl, hl⟩

theorem lookup_index_none (h : DiskOk d raw) {k : Bytes} {l : Rec Bytes Bytes}
    (he : (openVLog d max).index.lookup k = none)
    (hl : lastApplied (recoveredEvents d) k = some l) : l.val = none := by
  rw [(opens_openVLog d max).index, h.recoverIndex_eq, lookup_winnersIndex] at he
  rcases h.winner k with ⟨_, hnone⟩ | ⟨S, o, x, hx, hxk, hw, hsome⟩
  · rw [hnone] at hl
    cases hl
  · rw [hsome] at hl
    cases hl
    rw [hw, Option.bind_some] at he
    by_cases hk : x.kind = .tombstone
    · simp [absRec, hk]
    · simp [hk] at he

theorem rel (h : DiskOk d raw) (max : Nat) :
    Rel (recoveredEvents d) (openVLog d max) (openState d raw (openVLog d max)) (openRaw d raw) := by
  refine rel_openVLog h.nodup h.data h.block (by rw [h.recoverIndex_eq]) fun k e l v he hl hv => ?_
  obtain ⟨S, o, x, hx, rfl, hk, rfl, hlast⟩ := h.lookup_index he
  rw [hlast] at hl
  cases hl
  have hxv : x.value = v := by simpa [absRec, hk] using hv
  rw [← hxv]
  rfl

theorem wf (h : DiskOk d raw) (max : Nat) : Wf (openState d raw (openVLog d max)) where
  sorted S := dataRecs_sorted 0 _
  beyond S hS := by
    have hraw := (h.rel max).beyond S hS
    simp only [openState, hraw]
    rfl
  sent_clock S p hp := by
    obtain ⟨x, hx, hxp⟩ := h.mem_sent.mp (show (p.1, p.2) ∈ _ from hp)
    obtain ⟨hS, hxl, _⟩ := h.mem_records.mp hx
    have hle := (le_newestTs d (listSegments d.dir) 0).2 S (mem_listSegments.mpr hS) (p.1, x)
      (by rw [h.scan_eq hS]; exact hxl)
    have hclock : (openState d raw (openVLog d max)).clock =
        newestTs d (listSegments d.dir) 0 + 1 := by
      rw [show (openState d raw (openVLog d max)).clock = (openVLog d max).clock from rfl,
        (opens_openVLog d max).clock, h.recoverIndex_eq]
    rw [hclock, ← hxp]
    exact Nat.lt_succ_of_le hle
  sent_inj S p hp T q hq hts := by
    obtain ⟨x, hx, hxp⟩ := h.mem_sent.mp (show (p.1, p.2) ∈ _ from hp)
    obtain ⟨y, hy, hyq⟩ := h.mem_sent.mp (show (q.1, q.2) ∈ _ from hq)
    rw [← hxp, ← hyq] at hts ⊢
    exact h.eq_of_ts hx hy hts
  pend i p hp := by cases hp
  queued_inj i rs j rs' hi := by cases hi
  comp c C hc := by cases hc
  index_some k S o hk := by
    obtain ⟨e, he, heq⟩ := Option.map_eq_some_iff.mp hk
    obtain ⟨T, o', x, hx, rfl, hkind, rfl, hlast⟩ := h.lookup_index he
    cases heq
    exact ⟨absRec x, hlast, by simp [absRec, hkind], h.mem_sent.mpr ⟨x, hx, rfl⟩⟩
  index_none k r hk hr := by
    have he : (openVLog d max).index.lookup k = none := Option.map_eq_none_iff.mp hk
    exact h.lookup_index_none he hr
  last_key k r hr := by
    have hnew := lastApplied_recoveredEvents d k
    rw [show lastApplied (recoveredEvents d) k = some r from hr] at hnew
    obtain ⟨x, _, hxk, rfl, _⟩ := hnew
    exact hxk

theorem linked (h : DiskOk d raw) (max : Nat) : Linked (openState d raw (openVLog d max)) where
  active := ((opens_openVLog d max).readable _).mpr (opens_openVLog d max).active.1
  inFlight S hS := by rcases hS with ⟨i, ls, hi⟩ | ⟨i, c, src, r, o, hi⟩ <;> cases hi
  index k S o hk := by
    obtain ⟨e, he, heq⟩ := Option.map_eq_some_iff.mp hk
    obtain ⟨T, o', x, hx, _, _, rfl, _⟩ := h.lookup_index he
    cases heq
    exact ⟨((opens_openVLog d max).readable _).mpr (dir_of_mem max (h.mem_records.mp hx).1),
      fun c C hc => by cases hc⟩

theorem kept (h : DiskOk d raw) (max : Nat) : Kept (openState d raw (openVLog d max)) where
  seen S p hp := by
    obtain ⟨x, hx, hxp⟩ := h.mem_sent.mp (show (p.1, p.2) ∈ _ from hp)
    have hnew := lastApplied_recoveredEvents d x.key
    rw [← hxp]
    cases hl : lastApplied (recoveredEvents d) x.key with
    | none =>
      rw [hl] at hnew
      exact absurd rfl (hnew _ hx)
    | some l =>
      rw [hl] at hnew
      obtain ⟨_, _, _, _, hmax⟩ := hnew
      exact .inr ⟨l, hl, hmax _ hx rfl⟩
  tomb k l hl _ := by
    have hnew := lastApplied_recoveredEvents d k
    rw [show lastApplied (recoveredEvents d) k = some l from hl] at hnew
    obtain ⟨⟨S, o, x⟩, hx, _, habs, _⟩ := hnew
    exact ⟨S, o, ((opens_openVLog d max).readable S).mpr (dir_of_mem max (h.mem_records.mp hx).1),
      h.mem_sent.mpr ⟨x, hx, habs⟩, fun c C hc => by cases hc⟩

end DiskOk

/-- The log of an empty directory is in order. -/
theorem ordered_openState_empty (max : Nat) :
    Ordered (openState Disk.empty (fun _ => []) (openVLog Disk.empty max)) where
  once i T ls hi := by cases hi
  unapplied i T ls hi := by cases hi
  last k l hl S o hS ho := by simp [openState, openRaw, layout] at ho

end Skeg
