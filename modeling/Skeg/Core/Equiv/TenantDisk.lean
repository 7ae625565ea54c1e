import Skeg.Core.Equiv.Runs

/-!
# The bytes of a tenant

A write charges the tenant of its key with the record it writes, and takes back what the record it replaces was charged
with.  What it replaces it has looked up when it began, before it waited for the committer.  `Balanced` says that the
counter of every tenant is the sum of the sizes of the entries of its keys.  These sizes are those of the values applied
last (`Rel.size_eq`): a step that applies nothing, a relocation included, does not change the sum, and a reopen that finds
the same values finds the same sum.

The counters are exact as long as every write finds the entry of its key as large as it was when the write began
(`tenant_disk_exact`).  Two sets of a new key at the same time both find nothing to take back, and the bytes of the one
that is overwritten stay on the counter (`tenant_disk_drifts`).
-/

namespace Skeg

open FiniteMap (sumBy sumBy_insert sumBy_erase sumBy_congr)
open SegLog (Wf Linked Kept)
open Transition (exists_run_of_exec)

/-! ### Charges -/

/-- What an entry adds to the bytes of tenant `t`. -/
def IndexEntry.chargedTo (t : Nat) (key : Bytes) (e : IndexEntry) : Nat :=
  if tenantFromKey key = t then e.size else 0

/-- The sizes of the records whose keys start with the 16 bytes of `t`. -/
def indexBytes (index : Index) (t : Nat) : Nat :=
  ((index.entries.filter fun p => (toLE 16 t).isPrefixOf p.1).map fun p => p.2.size).sum

theorem tenantFromKey_eq_iff {t : Nat} (h0 : 0 < t) (ht : t < 2 ^ 128) (key : Bytes) :
    tenantFromKey key = t ↔ toLE 16 t <+: key := by
  unfold tenantFromKey
  constructor
  · intro h
    split_ifs at h with hlen
    · rw [← h, toLE_fromLE (by simpa using hlen)]
      exact List.take_prefix 16 key
    · omega
  · intro h
    have hlen := h.length_le
    rw [length_toLE] at hlen
    have htake : key.take 16 = toLE 16 t := by
      rw [List.prefix_iff_eq_take.mp h, length_toLE]
    rw [if_pos hlen, htake, fromLE_toLE (by omega)]

theorem indexBytes_eq_sumBy (index : Index) {t : Nat} (h0 : 0 < t) (ht : t < 2 ^ 128) :
    indexBytes index t = sumBy (IndexEntry.chargedTo t) index := by
  unfold indexBytes sumBy
  induction index.entries with
  | nil => rfl
  | cons p ps ih =>
    rw [List.filter_cons, List.map_cons, List.sum_cons, ← ih, IndexEntry.chargedTo]
    by_cases hp : toLE 16 t <+: p.1
    · rw [if_pos (List.isPrefixOf_iff_prefix.mpr hp), if_pos ((tenantFromKey_eq_iff h0 ht _).mpr hp), List.map_cons,
        List.sum_cons]
    · rw [if_neg (fun h => hp (List.isPrefixOf_iff_prefix.mp h)),
        if_neg (fun h => hp ((tenantFromKey_eq_iff h0 ht _).mp h)), Nat.zero_add]

theorem elim_chargedTo (e : Option IndexEntry) (t : Nat) (key : Bytes) :
    e.elim 0 (IndexEntry.chargedTo t key) = if tenantFromKey key = t then e.elim 0 IndexEntry.size else 0 := by
  cases e with
  | none => simp
  | some e => rfl

/-- Entries of the same sizes. -/
theorem sumBy_chargedTo_congr {index index' : Index}
    (h : ∀ k, (index.lookup k).elim 0 IndexEntry.size = (index'.lookup k).elim 0 IndexEntry.size) (t : Nat) :
    sumBy (IndexEntry.chargedTo t) index = sumBy (IndexEntry.chargedTo t) index' := by
  refine sumBy_congr _ fun k => ?_
  rw [elim_chargedTo, elim_chargedTo, h]

/-! ### The counters -/

/-- The bytes on the counter of `t`. -/
def diskBytes (disk : AList fun _ : Nat => Nat) (t : Nat) : Nat := (disk.lookup t).getD 0

theorem diskBytes_insert (disk : AList fun _ : Nat => Nat) (u n t : Nat) :
    diskBytes (disk.insert u n) t = if t = u then n else diskBytes disk t := by
  unfold diskBytes
  split_ifs with h
  · rw [h, AList.lookup_insert, Option.getD_some]
  · rw [AList.lookup_insert_ne h]

theorem diskBytes_erase (disk : AList fun _ : Nat => Nat) (u t : Nat) :
    diskBytes (disk.erase u) t = if t = u then 0 else diskBytes disk t := by
  unfold diskBytes
  split_ifs with h
  · rw [h, AList.lookup_erase, Option.getD_none]
  · rw [AList.lookup_erase_ne h]

/-- A reopen charges every tenant with its entries. -/
theorem diskBytes_recoverTenantDisk (index : Index) (t : Nat) :
    diskBytes (recoverTenantDisk index ∅) t = sumBy (IndexEntry.chargedTo t) index := by
  have hfold : ∀ (l : List (Σ _ : Bytes, IndexEntry)) (disk : AList fun _ : Nat => Nat),
      diskBytes (l.foldl (fun disk p =>
        disk.insert (tenantFromKey p.1) ((disk.lookup (tenantFromKey p.1)).getD 0 + p.2.size)) disk) t =
        diskBytes disk t + (l.map fun p => p.2.chargedTo t p.1).sum := by
    intro l
    induction l with
    | nil => intro disk; rfl
    | cons p l ih =>
      intro disk
      rw [List.foldl_cons, ih, diskBytes_insert, List.map_cons, List.sum_cons, IndexEntry.chargedTo]
      by_cases hp : tenantFromKey p.1 = t
      · rw [if_pos hp.symm, if_pos hp, hp, diskBytes, Nat.add_assoc]
      · rw [if_neg (Ne.symm hp), if_neg hp, Nat.zero_add]
  exact (hfold index.entries ∅).trans (Nat.zero_add _)

/-- The counters are the sums of the entries. -/
def Balanced (disk : AList fun _ : Nat => Nat) (index : Index) : Prop :=
  ∀ t, diskBytes disk t = sumBy (IndexEntry.chargedTo t) index

/-- The entry of a key is replaced, and its tenant charged with the difference. -/
theorem Balanced.insert {disk disk' : AList fun _ : Nat => Nat} {index : Index} (h : Balanced disk index) {key : Bytes}
    {old : Nat} (hold : old = (index.lookup key).elim 0 IndexEntry.size) (e : IndexEntry)
    (hdisk : ∀ t, diskBytes disk' t =
      if t = tenantFromKey key then diskBytes disk t - old + e.size else diskBytes disk t) :
    Balanced disk' (index.insert key e) := by
  intro t
  have hsum := sumBy_insert (IndexEntry.chargedTo t) index key e
  have hle := sumBy_erase (IndexEntry.chargedTo t) index key
  rw [elim_chargedTo, ← hold] at hsum hle
  rw [hdisk, h t]
  unfold IndexEntry.chargedTo at hsum hle ⊢
  by_cases ht : tenantFromKey key = t
  · simp only [ht, if_true] at hsum hle ⊢
    omega
  · simp only [ht, if_false, Ne.symm ht] at hsum ⊢
    omega

/-- The entry of a key is gone, and what its tenant was charged with for it. -/
theorem Balanced.erase {disk disk' : AList fun _ : Nat => Nat} {index : Index} (h : Balanced disk index) {key : Bytes}
    {old : Nat} (hold : old = (index.lookup key).elim 0 IndexEntry.size)
    (hdisk : ∀ t, diskBytes disk' t = if t = tenantFromKey key then diskBytes disk t - old else diskBytes disk t) :
    Balanced disk' (index.erase key) := by
  intro t
  have hsum := sumBy_erase (IndexEntry.chargedTo t) index key
  rw [elim_chargedTo, ← hold] at hsum
  rw [hdisk, h t]
  by_cases ht : tenantFromKey key = t
  · simp only [ht, if_true] at hsum ⊢
    omega
  · simp only [ht, if_false, Ne.symm ht] at hsum ⊢
    omega

/-! ### Writes -/

/-- The entry of the key is as large as the one the write has found. -/
def Cont.FindsSize (index : Index) : Cont → Prop
  | .set key _ _ prev _ _ => prev.elim 0 IndexEntry.size = (index.lookup key).elim 0 IndexEntry.size
  | .del key prev _ => prev.size = (index.lookup key).elim 0 IndexEntry.size
  | .setMany .. => True
  | .relocate .. => True

instance (index : Index) : DecidablePred (Cont.FindsSize index)
  | .set key _ _ prev _ _ =>
    inferInstanceAs (Decidable (prev.elim 0 IndexEntry.size = (index.lookup key).elim 0 IndexEntry.size))
  | .del key prev _ => inferInstanceAs (Decidable (prev.size = (index.lookup key).elim 0 IndexEntry.size))
  | .setMany .. => isTrue trivial
  | .relocate .. => isTrue trivial

section

variable [H : Hashes] {s s' : VLog} {ev : List Event}

/-- A pair of a batch replaces what is there now. -/
theorem Balanced.applyMember {seg offset : Nat} {key value : Bytes} (h : Balanced s.tenantDisk s.index)
    (hs : s.applyMember seg offset key value = some s') : Balanced s'.tenantDisk s'.index := by
  simp only [VLog.applyMember, Option.map_eq_some_iff] at hs
  obtain ⟨cache, -, rfl⟩ := hs
  refine h.insert rfl _ fun t => ?_
  rw [diskBytes_insert]
  by_cases ht : t = tenantFromKey key
  · rw [if_pos ht, if_pos ht, ht]
    congr 1
    -- a tenant without a counter has no entry to take back
    cases hprev : s.index.lookup key with
    | none => rfl
    | some p =>
      cases hdisk : s.tenantDisk.lookup (tenantFromKey key) with
      | none => simp [diskBytes, hdisk]
      | some n => simp [diskBytes, hdisk]
  · rw [if_neg ht, if_neg ht]
    cases s.index.lookup key with
    | none => rfl
    | some p =>
      cases s.tenantDisk.lookup (tenantFromKey key) with
      | none => rfl
      | some n => exact (diskBytes_insert ..).trans (if_neg ht)

theorem Balanced.applyMembers {seg : Nat} {d : Durability} {offset ts : Nat} {pairs : List (Bytes × Bytes)}
    (h : Balanced s.tenantDisk s.index) (hs : s.applyMembers seg d offset ts pairs = some (s', ev)) :
    Balanced s'.tenantDisk s'.index := by
  induction pairs generalizing s offset ts ev with
  | nil =>
    cases hs
    exact h
  | cons p pairs ih =>
    rw [VLog.applyMembers] at hs
    split at hs
    · cases hs
    · rename_i s₁ hone
      split at hs
      · cases hs
      · rename_i r hrest
        cases hs
        exact ih (h.applyMember hone) hrest

theorem disk_applySet {t S o : Nat} {d : Durability} {key value : Bytes} {tenant : Nat} {prev : Option IndexEntry}
    {isAppend : Bool} {ts : Nat} (h : s.applySet t S o d key value tenant prev isAppend ts = some (s', ev)) :
    s'.index = s.index.insert key ⟨fingerprint key, S, o, paddedRecordSize key.length value.length⟩ ∧
      ∀ u, diskBytes s'.tenantDisk u = if u = tenantFromKey key then
        diskBytes s.tenantDisk u - prev.elim 0 IndexEntry.size + paddedRecordSize key.length value.length
      else diskBytes s.tenantDisk u := by
  simp only [VLog.applySet] at h
  split at h
  · cases h
  · cases h
    refine ⟨rfl, fun u => (diskBytes_insert ..).trans ?_⟩
    split_ifs with hu
    · rw [hu]
      rfl
    · rfl

omit H in
theorem disk_applyDel (t : Nat) (d : Durability) (key : Bytes) (prev : IndexEntry) (ts u : Nat) :
    diskBytes (s.applyDel t d key prev ts).1.tenantDisk u =
      if u = tenantFromKey key then diskBytes s.tenantDisk u - prev.size else diskBytes s.tenantDisk u := by
  cases hdisk : s.tenantDisk.lookup (tenantFromKey key) with
  | none =>
    have hs : (s.applyDel t d key prev ts).1.tenantDisk = s.tenantDisk := by
      simp only [VLog.applyDel, VLog.finish, hdisk]
    rw [hs]
    split_ifs with hu
    · rw [hu, diskBytes, hdisk, Option.getD_none, Nat.zero_sub]
    · rfl
  | some n =>
    have hs : (s.applyDel t d key prev ts).1.tenantDisk =
        if n - prev.size = 0 then s.tenantDisk.erase (tenantFromKey key)
        else s.tenantDisk.insert (tenantFromKey key) (n - prev.size) := by
      simp only [VLog.applyDel, VLog.finish, hdisk]
    rw [hs]
    split_ifs with hzero hu hu
    · rw [diskBytes_erase, if_pos hu, hu, diskBytes, hdisk]
      exact hzero.symm
    · rw [diskBytes_erase, if_neg hu]
    · rw [diskBytes_insert, if_pos hu, hu, diskBytes, hdisk]
      rfl
    · rw [diskBytes_insert, if_neg hu]

/-- A write takes effect on what it has found. -/
theorem Balanced.applies {t S o : Nat} {d : Durability} {c : Cont} (h : Balanced s.tenantDisk s.index)
    (happ : VLog.Applies s t S o d c s' ev) (hc : c.FindsSize s.index) : Balanced s'.tenantDisk s'.index := by
  obtain ⟨-, -, hwrite, happly⟩ := happ
  cases c with
  | set key value tenant prev isAppend ts =>
    obtain ⟨hindex, hdisk⟩ := disk_applySet happly
    rw [hindex]
    exact h.insert hc _ hdisk
  | del key prev ts =>
    have hs : (VLog.applyDel _ t d key prev ts).1 = s' := congrArg Prod.fst (Option.some.inj happly)
    rw [← hs]
    exact h.erase hc (disk_applyDel t d key prev ts)
  | setMany pairs ts =>
    simp only [VLog.applyCont] at happly
    split at happly
    · cases happly
    · rename_i r hr
      cases happly
      have hafter : Balanced r.1.tenantDisk r.1.index :=
        Balanced.applyMembers (s := { s with acks := Function.update s.acks t none }) h hr
      exact hafter
  | relocate => cases hwrite

/-! ### Runs -/

variable {hist : List Event} {α : LogState} {raw : Nat → List (List Record)}

/-- The entries have the sizes of the values applied last. -/
theorem Rel.size_eq (h : Rel hist s α raw) (hw : Wf α) (k : Bytes) :
    (s.index.lookup k).elim 0 IndexEntry.size = (liveMap hist k).elim 0 fun v => paddedRecordSize k.length v.length := by
  have hi := h.index k
  cases he : s.index.lookup k with
  | none =>
    rw [he] at hi
    cases hm : liveMap hist k with
    | none => rfl
    | some v =>
      obtain ⟨l, hlast, hv⟩ := liveMap_eq_some h hm
      rw [hw.index_none k l hi hlast] at hv
      cases hv
  | some e =>
    rw [he] at hi
    obtain ⟨l, hlast, hval, -⟩ := hw.index_some k _ _ hi
    obtain ⟨v, hv⟩ := Option.isSome_iff_exists.mp hval
    have hm : liveMap hist k = some v := by rw [liveMap, ← h.last, hlast, Option.bind_some, hv]
    rw [hm]
    exact h.size k e l v he hlast hv

theorem Stores.size_eq {m : Bytes → Option Bytes} (h : Stores s m) (k : Bytes) :
    (s.index.lookup k).elim 0 IndexEntry.size = (m k).elim 0 fun v => paddedRecordSize k.length v.length := by
  cases hm : m k with
  | none =>
    rw [h.absent k hm]
    rfl
  | some v =>
    obtain ⟨e, ts, kind, he, -, hsize, -⟩ := h.present k v hm
    rw [he]
    exact hsize

/-- A write takes effect only on an entry as large as the one it has found. -/
def FindsSize (s : VLog) (a : VLog.Act) : Prop := ∀ c ∈ s.applying a, c.FindsSize s.index

instance (s : VLog) (a : VLog.Act) : Decidable (FindsSize s a) :=
  inferInstanceAs (Decidable (∀ c ∈ s.applying a, _))

/-- One step of the store keeps the counters exact. -/
theorem Balanced.step [LawfulHashes] {a : VLog.Act} (h : Balanced s.tenantDisk s.index) (hrel : Rel hist s α raw)
    (hw : Wf α) {α' : LogState} {raw' : Nat → List (List Record)} (hrel' : Rel (hist ++ ev) s' α' raw') (hw' : Wf α')
    (hstep : s.step a = some (s', ev)) (hfinds : FindsSize s a) : Balanced s'.tenantDisk s'.index := by
  rcases (VLog.step_cases hstep).2 with ⟨t, S, o, d, c, rfl, happ⟩ | ⟨hdisk, hquiet⟩
  · exact h.applies happ (hfinds c (VLog.applying_eq happ.lookup happ.write))
  · -- no value has changed, and so no size
    intro t
    rw [hdisk, h t]
    refine sumBy_chargedTo_congr (fun k => ?_) t
    rw [hrel.size_eq hw, hrel'.size_eq hw', liveMap_quiet hquiet]

/-- Nothing goes wrong with IO, and every write takes effect on an entry as large as the one it has found. -/
def KeepsSizes (_ : List Event) (s : VLog) (a : VLog.Act) : Prop := Sound s a ∧ FindsSize s a

instance (hist : List Event) (s : VLog) (a : VLog.Act) : Decidable (KeepsSizes hist s a) :=
  inferInstanceAs (Decidable (_ ∧ _))

/-- Nothing goes wrong with IO, the writes of a key take effect in the order of their timestamps, and a segment is read
for compaction only when no task waits for its committer. -/
def KeepsValues (hist : List Event) (s : VLog) (a : VLog.Act) : Prop :=
  Sound s a ∧ AppliesInOrder hist s a ∧ ∀ e ∈ s.emits a, e.ReadsSettled s

instance (hist : List Event) (s : VLog) (a : VLog.Act) : Decidable (KeepsValues hist s a) :=
  inferInstanceAs (Decidable (_ ∧ _ ∧ ∀ e ∈ s.emits a, e.ReadsSettled s))

/-- The counter of a tenant is the sum of the record sizes of its entries, in every state of a run whose writes take
effect on entries as large as those they have found.  A reopen that finds the values of such a run finds the same sum. -/
theorem tenant_disk_exact [LawfulHashes] {d : Disk} {max : Nat} (hd : DiskOk d raw)
    (hrun : Reaches KeepsSizes d max hist s) :
    (∀ t, 0 < t → t < 2 ^ 128 → s.tenantDiskBytes t = indexBytes s.index t) ∧
      (Reaches KeepsValues d max hist s → s.AtRest → s.snapshot = none →
        ∀ t max', (openVLog s.disk max').tenantDiskBytes t = s.tenantDiskBytes t) := by
  have hopen : ∀ d max, Balanced (openVLog d max).tenantDisk (openVLog d max).index := by
    intro d max t
    rw [(opens_openVLog d max).tenantDisk, (opens_openVLog d max).index]
    exact diskBytes_recoverTenantDisk _ t
  obtain ⟨-, -, -, -, hbalanced⟩ := hrun.invariant
    (fun hist s => ∃ α raw, Rel hist s α raw ∧ Wf α ∧ Balanced s.tenantDisk s.index)
    ⟨_, _, hd.rel max, hd.wf max, hopen d max⟩ (by
      rintro hist s a s' ev ⟨α, raw, hrel, hw, hI⟩ ⟨hsound, hfinds⟩ hstep
      obtain ⟨α', raw', hpath, hrel'⟩ := hrel.step_sound hw hsound hstep
      exact ⟨α', raw', hrel', hpath.wf hw, hI.step hrel hw hrel' (hpath.wf hw) hstep hfinds⟩)
  refine ⟨fun t h0 ht => (hbalanced t).trans (indexBytes_eq_sumBy _ h0 ht).symm, fun hvalues hrest hsnap t max' => ?_⟩
  obtain ⟨α, raw', hrel, hw, hl, hk⟩ := hvalues.log hd (fun _ _ _ h => h.1)
    (fun _ _ α => Linked α ∧ Kept α) ⟨hd.linked max, hd.kept max⟩
    fun hist s α raw a s' ev α' hrel hw hI hPa hstep hpath => by
      have hev : ∀ e ∈ ev, e.ReadsSettled s := VLog.emits_eq hstep ▸ hPa.2.2
      exact ⟨hrel.linked_step hw hI.1 hev hpath, hrel.kept_step hw hI.1 hI.2 hev hPa.2.1 hpath⟩
  have hdisk : s.disk.withoutSnapshot = s.disk := by simp [VLog.disk, Disk.withoutSnapshot, hsnap]
  have hstores := hrel.stores_fullScan hw hl hk hrest max'
  rw [hdisk] at hstores
  refine (hopen _ _ t).trans ((sumBy_chargedTo_congr (fun k => ?_) t).trans (hbalanced t).symm)
  rw [hstores.size_eq, hrel.size_eq hw]

end

section

attribute [local instance] linkedHashes

/-- A key of tenant 1. -/
def tenantKey : Bytes := toLE 16 1 ++ [9]

/-- A set that replaces another. -/
theorem tenant_disk_exact_overwrite : ∃ hist s, Reaches KeepsSizes Disk.empty 512 hist s ∧
    s.tenantDiskBytes 1 = paddedRecordSize 17 1 ∧ s.tenantDiskBytes 1 = indexBytes s.index 1 ∧
      (openVLog s.disk 512).tenantDiskBytes 1 = s.tenantDiskBytes 1 := by
  obtain ⟨hist, s, hrun, hrest, hsnap, hbytes⟩ := exists_run_of_exec
    (fun _ s => s.AtRest ∧ s.snapshot = none ∧ s.tenantDiskBytes 1 = paddedRecordSize 17 1)
    [.spawn 1 (.set tenantKey [10] .relaxed 1 none), .flush 0 1 .ok, .resume 1,
      .spawn 2 (.set tenantKey [20] .relaxed 1 none), .flush 0 1 .ok, .resume 2]
    (show (Transition.exec VLog.step (fun h s a => KeepsSizes h s a ∧ KeepsValues h s a) (recoveredEvents Disk.empty)
      (openVLog Disk.empty 512) _).any _ = true by decide +kernel)
  have hexact := tenant_disk_exact diskOk_empty (hrun.mono fun _ _ _ h => h.1)
  exact ⟨hist, s, hrun.mono fun _ _ _ h => h.1, hbytes, hexact.1 1 (by decide) (by decide),
    hexact.2 (hrun.mono fun _ _ _ h => h.2) hrest hsnap 1 512⟩

/-- Two sets of a new key at the same time. -/
theorem tenant_disk_drifts : ¬ ∀ d raw max hist s, DiskOk d raw →
    Reaches (fun _ => Sound) d max hist s → s.AtRest →
      ∀ t, 0 < t → t < 2 ^ 128 → s.tenantDiskBytes t = indexBytes s.index t := by
  intro h
  obtain ⟨hist, s, hrun, hrest, hne⟩ := exists_run_of_exec
    (fun _ s => s.AtRest ∧ s.tenantDiskBytes 1 ≠ indexBytes s.index 1)
    [.spawn 1 (.set tenantKey [10] .relaxed 1 none), .spawn 2 (.set tenantKey [20] .relaxed 1 none), .flush 0 2 .ok,
      .resume 1, .resume 2]
    (show (Transition.exec VLog.step (fun _ => Sound) (recoveredEvents Disk.empty)
      (openVLog Disk.empty 512) _).any _ = true by decide +kernel)
  exact hne (h Disk.empty _ 512 hist s diskOk_empty hrun hrest 1 (by decide) (by decide))

end

end Skeg
