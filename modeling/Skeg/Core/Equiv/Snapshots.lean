import Skeg.Core.Equiv.Runs
import Skeg.Core.Hashes

/-!
# Snapshots and full scans

Recovery from a snapshot replays the segments from the snapshot's high-water mark on, the last record
of a key winning; a full scan takes the highest timestamp.  The two can differ: a write in flight in an
older segment when the snapshot is cut is in neither half of what the snapshot path reads
(`snapshot_misses_write`).

`Recoverable` is the invariant of a store both paths recover alike; it survives every step whose
effects on the log are `Disciplined` and that cuts no snapshot over a write in an older segment
(`Recoverable.step`).  `snapshot_eq_fullScan` says so with conditions on the steps of the store.
-/

namespace Skeg

open SegLog (Rec Loc Pend Comp Label Step Wf Path Linked Kept Ordered Settled InOrder AppendOrdered Unapplied)
open Transition (exists_run_of_exec)

section

variable [H : Hashes]

/-! ### The invariant -/

/-- What `SegLog` asks of a step. -/
def Disciplined (β : LogState) (ℓ : Label Bytes Bytes) : Prop :=
  Settled β ℓ ∧ InOrder β ℓ ∧ AppendOrdered β ℓ

structure Recoverable (s : VLog) (α : LogState) : Prop where
  linked : Linked α
  kept : Kept α
  ordered : Ordered α
  snap : ∀ sn, s.HasSnapshot sn → SnapOk α sn

variable {hist ev : List Event} {s s' : VLog} {α α' β : LogState} {raw : Nat → List (List Record)}
  {a : VLog.Act} {ℓ : Label Bytes Bytes}

theorem Recoverable.step (hI : Recoverable s α) (h : Rel hist s α raw) (hw : Wf α)
    (hstep : s.step a = some (s', ev)) (hpath : Path Disciplined α α')
    (hcut : ∀ sn, .cut sn ∈ ev → ∀ i T ls, α.pend i = some (.sentWrite T ls) → α.active ≤ T) :
    Recoverable s' α' := by
  have hframe := (VLog.step_cases hstep).1
  -- a snapshot there is after the step was there before, or is cut now
  have hsnap : ∀ sn, s'.HasSnapshot sn → SnapOk α sn := by
    intro sn hsn
    rcases hframe.snapshot sn hsn with h1 | h1
    · exact hI.snap sn h1
    · rw [hframe.cut sn h1]
      exact h.snapOk_cut hw (hcut sn h1)
  have hinv := hpath.invariant (fun β => Wf β ∧ Linked β ∧ Kept β ∧ Ordered β ∧
    ∀ sn, s'.HasSnapshot sn → SnapOk β sn) ⟨hw, hI.linked, hI.kept, hI.ordered, hsnap⟩
    fun hs hd hβ => by
      obtain ⟨hw, hl, hk, ho, hsn⟩ := hβ
      exact ⟨hs.wf hw, hs.linked hw hd.1 hl, hs.kept hw hd.1 hd.2.1 hl hk,
        hs.ordered hw hd.2.2 hl ho, fun sn h => (hsn sn h).step hs ho⟩
  exact ⟨hinv.2.1, hinv.2.2.1, hinv.2.2.2.1, hinv.2.2.2.2⟩

theorem recoverable_empty (max : Nat) [LawfulHashes] : Recoverable (openVLog Disk.empty max)
    (openState Disk.empty (fun _ => []) (openVLog Disk.empty max)) where
  linked := diskOk_empty.linked max
  kept := diskOk_empty.kept max
  ordered := ordered_openState_empty max
  snap sn hsn := by
    have ho := opens_openVLog Disk.empty max
    rcases hsn with hsn | ⟨t, ht⟩
    · rw [ho.snapshot] at hsn
      cases hsn
    · rw [ho.tasks] at ht
      cases ht

/-! ### Conditions on steps -/

/-- A record appended to a segment that still exists is older than `r`, if it is of the same key. -/
def Event.SentBefore (s : VLog) (r : Rec Bytes Bytes) : Event → Prop
  | .sent _ S c => s.isReadable S = true → ∀ r' ∈ c.recs, r'.key = r.key → r'.ts < r.ts
  | _ => True

instance (s : VLog) (r : Rec Bytes Bytes) : DecidablePred (Event.SentBefore s r)
  | .sent _ S c => inferInstanceAs
      (Decidable (s.isReadable S = true → ∀ r' ∈ c.recs, r'.key = r.key → r'.ts < r.ts))
  | .spawned .. | .began .. | .applied .. | .scanned .. | .unlinked _ | .cut _ | .filled ..
  | .returned .. => isTrue trivial

/-- What a relocation copies: segment, offset and record. -/
def Cont.source : Cont → Option (Nat × Nat × Record)
  | .relocate _ seg offset rec => some (seg, offset, rec)
  | _ => none

/-- The records of a write are appended behind all older records of their keys; a relocated record
only while it still is the one needed and no write of its key is in flight. -/
def Event.AppendsInOrder (hist : List Event) (s : VLog) : Event → Prop
  | .sent _ _ c => (c.isWrite = true → ∀ r ∈ c.recs, ∀ e ∈ hist, e.SentBefore s r) ∧
      ∀ x ∈ c.source, s.isCurrent x.1 x.2.1 x.2.2 = true ∧
        ∀ p ∈ s.tasks.entries, ∀ c ∈ p.2.write, ∀ r ∈ c.recs, r.key ≠ x.2.2.key
  | _ => True

instance (hist : List Event) (s : VLog) : DecidablePred (Event.AppendsInOrder hist s)
  | .sent .. => inferInstanceAs (Decidable (_ ∧ _))
  | .spawned .. | .began .. | .applied .. | .scanned .. | .unlinked _ | .cut _ | .filled ..
  | .returned .. => isTrue trivial

/-- The segment a task waits for with a write. -/
def Pc.writeSeg : Pc → Option Nat
  | .commit S _ c => if c.isWrite then some S else none
  | _ => none

/-- A snapshot is cut only when no write waits for a segment older than the active one. -/
def Event.CutsSettled (s : VLog) : Event → Prop
  | .cut _ => ∀ p ∈ s.tasks.entries, ∀ S ∈ p.2.writeSeg, s.active.id ≤ S
  | _ => True

instance (s : VLog) : DecidablePred (Event.CutsSettled s)
  | .cut _ => inferInstanceAs (Decidable (∀ p ∈ s.tasks.entries, ∀ S ∈ p.2.writeSeg, s.active.id ≤ S))
  | .spawned .. | .began .. | .sent .. | .applied .. | .scanned .. | .unlinked _ | .filled ..
  | .returned .. => isTrue trivial

/-- Every record of the log was sent. -/
def SentHist (hist : List Event) (α : LogState) : Prop :=
  ∀ S, ∀ p ∈ α.sent S, ∃ t c, .sent t S c ∈ hist ∧ p.2 ∈ c.recs

omit H in
theorem SentHist.step (h : SentHist hist α) (hpath : Path (Traced s α a ev) α α') :
    SentHist (hist ++ ev) α' := by
  refine hpath.invariant (SentHist (hist ++ ev)) (fun S p hp => ?_) fun {β γ ℓ} hs ht hβ S p hp => ?_
  · obtain ⟨t, c, hc, hpc⟩ := h S p hp
    exact ⟨t, c, List.mem_append_left _ hc, hpc⟩
  · cases hs with
    | sendWrite i ls hi hext =>
      obtain ⟨_, c, hc, _, hrs⟩ := ht
      rcases β.mem_append_sent.mp hp with hold | ⟨rfl, hnew⟩
      · exact hβ S p hold
      · exact ⟨i, c, List.mem_append_right _ hc, hrs ▸ List.mem_map_of_mem hnew⟩
    | sendMove i c src r o hi hext =>
      obtain ⟨_, rec, hc, _, hrecs⟩ := ht
      rcases β.mem_append_sent.mp hp with hold | ⟨rfl, hnew⟩
      · exact hβ S p hold
      · refine ⟨i, _, List.mem_append_right _ hc, ?_⟩
        rw [hrecs, List.mem_singleton.mp hnew]
        exact List.mem_singleton_self r
    | apply i T d ls hi hd => exact hβ S p (by simpa using hp)
    | _ => exact hβ S p hp

/-- A write in flight is that of a task waiting for a committer. -/
theorem Rel.write_of_sentWrite (h : Rel hist s α raw) {i T : Nat} {ls : List (Nat × Rec Bytes Bytes)}
    (hi : α.pend i = some (.sentWrite T ls)) : ∃ d c, s.tasks.lookup i = some (.commit T d c) ∧
      c.isWrite = true ∧ ls.map Prod.snd = c.recs := by
  rcases (h.task i).pend_cases hi with ⟨c, hc, _⟩ | ⟨S, d, c, o, hpc, hc, _⟩
  · cases c <;> cases hc
  · have hrecs : (dataRecs (layout o c.records)).map Prod.snd = c.recs := map_snd_dataRecs_layout ..
    cases c with
    | relocate => cases hc
    | _ =>
      cases hc
      exact ⟨d, _, hpc, rfl, hrecs⟩

theorem Rel.appendOrdered (h : Rel hist s α raw) (hw : Wf α) (hsent : SentHist hist α)
    (hev : ∀ e ∈ ev, e.AppendsInOrder hist s) (ht : Traced s α a ev β ℓ) : AppendOrdered β ℓ := by
  cases ℓ with
  | sendWrite i rs =>
    obtain ⟨hready, c, hc, hwrite, rfl⟩ := ht
    intro r hr S hS p hp hk
    rw [hready.sent] at hp
    obtain ⟨t, c', hc', hpc'⟩ := hsent S p hp
    refine (hev _ hc).1 hwrite r hr _ hc' ?_ p.2 hpc' hk
    rcases hready.linked S hS with hS | hS
    · exact (h.linked S).mp hS
    · rw [hw.beyond S hS] at hp
      cases hp
  | sendMove i c src r =>
    obtain ⟨hready, rec, hc, rfl, _⟩ := ht
    obtain ⟨hcur, hfree⟩ := (hev _ hc).2 (src.1, src.2, rec) rfl
    constructor
    · have := (h.current_iff src.1 src.2 rec).mp hcur
      rwa [SegLog.State.Carries, ← hready.index] at this
    · rintro r' ⟨i, T, ls, hi, hr'⟩
      obtain ⟨d, c', hl, hwrite, hls⟩ := h.write_of_sentWrite (hready.write i T ls hi)
      exact hfree ⟨i, _⟩ (AList.mem_lookup_iff.mp hl) c' (by simp [Pc.write, hwrite]) r' (hls ▸ hr')
  | _ => trivial

theorem Rel.cut_settled (h : Rel hist s α raw) (hev : ∀ e ∈ ev, e.CutsSettled s) {sn : Snapshot}
    (hcut : .cut sn ∈ ev) {i T : Nat} {ls : List (Nat × Rec Bytes Bytes)}
    (hi : α.pend i = some (.sentWrite T ls)) : α.active ≤ T := by
  obtain ⟨d, c, hl, hwrite, _⟩ := h.write_of_sentWrite hi
  rw [h.active]
  exact hev _ hcut ⟨i, _⟩ (AList.mem_lookup_iff.mp hl) T (by simp [Pc.writeSeg, hwrite])

/-! ### Both recovery paths -/

/-- Opening the directory with its snapshot and without it gives the same value for every key. -/
def SnapshotEqFullScan (s : VLog) : Prop :=
  ∀ k tenant max, ∃ v, (openVLog s.disk max).getAlone k tenant = some (.ok (.value v)) ∧
    (openVLog s.disk.withoutSnapshot max).getAlone k tenant = some (.ok (.value v))

/-- A step in the order both recovery paths rely on. -/
def InLogOrder (hist : List Event) (s : VLog) (a : VLog.Act) : Prop :=
  Sound s a ∧ AppliesInOrder hist s a ∧
    ∀ e ∈ s.emits a, e.ReadsSettled s ∧ e.AppendsInOrder hist s ∧ e.CutsSettled s

instance (hist : List Event) (s : VLog) (a : VLog.Act) : Decidable (InLogOrder hist s a) :=
  inferInstanceAs (Decidable (_ ∧ _ ∧ _))

theorem snapshot_eq_fullScan [LawfulHashes] {max : Nat}
    (hrun : Reaches InLogOrder Disk.empty max hist s) (hrest : s.AtRest) : SnapshotEqFullScan s := by
  obtain ⟨α, raw, hrel, hw, hI, _⟩ := hrun.log diskOk_empty (fun _ _ _ h => h.1)
    (fun hist s α => Recoverable s α ∧ SentHist hist α)
    ⟨recoverable_empty max, fun S p hp => by simp [openState, openRaw, layout] at hp⟩
    fun hist s α raw a s' ev α' hrel hw hI hPa hstep hpath => by
      obtain ⟨_, happ, hev⟩ := hPa
      rw [VLog.emits_eq hstep] at hev
      refine ⟨hI.1.step hrel hw hstep (hpath.mono fun β ℓ ht => ⟨?_, ?_, ?_⟩) fun sn hsn i T ls hi => ?_,
        hI.2.step hpath⟩
      · exact hrel.settled (fun e he => (hev e he).1) ht
      · exact hrel.inOrder happ ht
      · exact hrel.appendOrdered hw hI.2 (fun e he => (hev e he).2.1) ht
      · exact hrel.cut_settled (fun e he => (hev e he).2.2) hsn hi
  intro k tenant max'
  have hsnap : ∀ sn, s.snapshot = some sn → SnapOk α sn := fun sn hsn => hI.snap sn (.inl hsn)
  exact ⟨liveMap hist k,
    getAlone_openVLog (hrel.stores_snapshot hw hI.linked hI.kept hI.ordered hrest hsnap max') k tenant,
    getAlone_openVLog (hrel.stores_fullScan hw hI.linked hI.kept hrest max') k tenant⟩

end

section

attribute [local instance] linkedHashes

/-- The operations the two recovery paths are compared after. -/
def Kind.isWriteCompactOrSnapshot : Kind → Bool
  | .set | .setMany | .del | .compact | .move | .snapshot => true
  | .get | .append => false

/-- Two sets with a rotation between them, then a snapshot, then a set of the first key. -/
theorem snapshot_eq_fullScan_sequential : ∃ hist s,
    Reaches InLogOrder Disk.empty 128 hist s ∧ s.AtRest ∧ s.snapshot.isSome = true ∧
      liveMap hist [1] = some [30] ∧ SnapshotEqFullScan s := by
  obtain ⟨hist, s, hrun, hrest, hsome, hlive⟩ := exists_run_of_exec
    (fun h s => s.AtRest ∧ s.snapshot.isSome = true ∧ liveMap h [1] = some [30])
    [.spawn 1 (.set [1] [10] .relaxed 0 none), .flush 0 1 .ok, .resume 1,
      .spawn 2 (.set [2] [20] .relaxed 0 none), .resume 2, .resume 2, .flush 1 1 .ok, .resume 2,
      .spawn 3 .writeSnapshot, .resume 3,
      .spawn 4 (.set [1] [30] .relaxed 0 none), .resume 4, .resume 4, .flush 2 1 .ok, .resume 4]
    (show (Transition.exec VLog.step InLogOrder (recoveredEvents Disk.empty)
      (openVLog Disk.empty 128) _).any _ = true by decide +kernel)
  exact ⟨hist, s, hrun, hrest, hsome, hlive, snapshot_eq_fullScan hrun hrest⟩

/-- The snapshot is cut while the first set waits for its segment, which is no longer the active
one: the snapshot path finds neither an index entry nor a record to replay. -/
theorem snapshot_misses_write : ¬ ∀ max hist s,
    Reaches (fun _ s a => Sound s a ∧ SpawnsOnly Kind.isWriteCompactOrSnapshot a) Disk.empty max hist s →
      s.AtRest → SnapshotEqFullScan s := by
  intro h
  obtain ⟨hist, s, hrun, hrest, hsnap, hfull⟩ := exists_run_of_exec
    (fun _ s => s.AtRest ∧
      (openVLog s.disk 128).getAlone [1] 0 = some (.ok (.value none)) ∧
      (openVLog s.disk.withoutSnapshot 128).getAlone [1] 0 = some (.ok (.value (some [10]))))
    [.spawn 1 (.set [1] [10] .relaxed 0 none), .spawn 2 (.set [2] [20] .relaxed 0 none), .resume 2,
      .resume 2, .spawn 3 .writeSnapshot, .resume 3, .flush 0 1 .ok, .resume 1, .flush 1 1 .ok,
      .resume 2]
    (show (Transition.exec VLog.step
      (fun _ s a => Sound s a ∧ SpawnsOnly Kind.isWriteCompactOrSnapshot a)
      (recoveredEvents Disk.empty) (openVLog Disk.empty 128) _).any _ = true by decide +kernel)
  obtain ⟨v, h1, h2⟩ := h 128 hist s hrun hrest [1] 0 128
  rw [hsnap] at h1
  rw [hfull] at h2
  cases h1
  cases h2

end

end Skeg
