import Skeg.Core.Equiv.Runs
import Skeg.Core.Hashes

/-!
# Space reclamation

A write reserves space in the active segment and updates the index only when its commit is answered.
A rotation in between seals the segment, and a compaction that reads it then finds no index entry for
the record, moves nothing and unlinks the file: the write's answer points the index at a segment that
is gone (`reclaim_loses_write`).  That is the only way to lose one: `reclaim_retains` says that
every value written is kept, as long as compactions read segments no task waits for.
-/

namespace Skeg

open SegLog (Linked)
open Transition (exists_run_of_exec)

section

variable [H : Hashes]

/-- Every key whose last completed write was a set has an index entry, which points at a record of
that key and value in an existing segment, and a get of it returns the value; a get that has to put
the value into the cache needs that insert to return. -/
def Retains (hist : List Event) (s : VLog) : Prop :=
  ∀ k v, liveMap hist k = some v →
    (∃ e ts kind, s.index.lookup k = some e ∧ e.segmentId ∈ s.dir ∧
      decodeRecord ((s.segs e.segmentId).file.pread e.offset e.size) = .ok ⟨ts, kind, k, v⟩) ∧
    ∀ tenant, ((s.cache.get k).2.insertFor k v v.length tenant).isSome = true →
      s.getAlone k tenant = some (.ok (.value (some v)))

/-- Writes and compactions. -/
def Kind.isWriteOrCompact : Kind → Bool
  | .set | .setMany | .del | .compact | .move => true
  | .get | .append | .snapshot => false

/-- A step of writes and compactions. -/
def WriteOrCompact (s : VLog) (a : VLog.Act) : Prop :=
  Sound s a ∧ SpawnsOnly Kind.isWriteOrCompact a

instance (s : VLog) (a : VLog.Act) : Decidable (WriteOrCompact s a) :=
  inferInstanceAs (Decidable (_ ∧ _))

/-- A step of writes and compactions that reads a segment only when no task waits for its
committer. -/
def SettledWriteOrCompact (s : VLog) (a : VLog.Act) : Prop :=
  WriteOrCompact s a ∧ ∀ e ∈ s.emits a, e.ReadsSettled s

instance (s : VLog) (a : VLog.Act) : Decidable (SettledWriteOrCompact s a) :=
  inferInstanceAs (Decidable (_ ∧ _))

theorem reclaim_retains [LawfulHashes] {d : Disk} {raw : Nat → List (List Record)} {max : Nat}
    {hist : List Event} {s : VLog} (hd : DiskOk d raw)
    (hrun : Reaches (fun _ => SettledWriteOrCompact) d max hist s) (hrest : s.AtRest) :
    Retains hist s := by
  obtain ⟨α, raw', hrel, hw, hl⟩ := hrun.log hd (fun _ _ _ h => h.1.1) (fun _ _ α => Linked α)
    (hd.linked max) fun hist s α raw a s' ev α' hrel hw hl hPa hstep hpath =>
      hrel.linked_step hw hl (VLog.emits_eq hstep ▸ hPa.2) hpath
  have hstores := hrel.stores hw hl hrest
  -- no operation reads, so the cache holds what was written
  have hcache := (hrun.ofKinds fun _ _ _ h => h.1.2).cache fun h s a hPa e he => by
    have := hPa.2 e he
    cases e with
    | filled => exact absurd this (by simp [Event.OfKinds, Kind.isWriteOrCompact])
    | _ => trivial
  intro k v hk
  obtain ⟨e, ts, kind, he, hread, _, hdec⟩ := hstores.present k v hk
  refine ⟨⟨e, ts, kind, he, (hrel.dir _).mpr (.inl hread), hdec⟩, fun tenant hfill => ?_⟩
  rw [← hk]
  refine hstores.getAlone (fun v' hv' => hcache k v' hv') fun v' hv' => ?_
  rw [hk] at hv'
  cases hv'
  exact hfill

end

section

attribute [local instance] linkedHashes

/-- Two sets, a rotation between them, and a compaction of the first one's segment after both have
completed. -/
theorem reclaim_retains_compacted : ∃ hist s,
    Reaches (fun _ => SettledWriteOrCompact) Disk.empty 128 hist s ∧ s.AtRest ∧
      liveMap hist [1] = some [10] ∧ s.dir = [1, 2] ∧ Retains hist s := by
  obtain ⟨hist, s, hrun, hrest, hlive, hdir⟩ := exists_run_of_exec
    (fun h s => s.AtRest ∧ liveMap h [1] = some [10] ∧ s.dir = [1, 2])
    [.spawn 1 (.set [1] [10] .relaxed 0 none), .spawn 2 (.set [2] [20] .relaxed 0 none), .resume 2,
      .resume 2, .flush 0 1 .ok, .resume 1, .flush 1 1 .ok, .resume 2,
      .spawn 3 (.compactSegment 0), .relocate 3 4, .resume 4, .resume 4, .flush 2 1 .ok, .resume 4,
      .resume 3, .resume 3, .resume 3]
    (show (Transition.exec VLog.step (fun _ => SettledWriteOrCompact) (recoveredEvents Disk.empty)
      (openVLog Disk.empty 128) _).any _ = true by decide +kernel)
  exact ⟨hist, s, hrun, hrest, hlive, hdir, reclaim_retains diskOk_empty hrun hrest⟩

/-- The first set is answered, but its task has not run again when its segment is compacted: its
index entry points at a segment that is gone. -/
theorem reclaim_loses_write : ¬ ∀ hist s,
    Reaches (fun _ => WriteOrCompact) Disk.empty 128 hist s → s.AtRest →
      Retains hist s := by
  intro h
  obtain ⟨hist, s, hrun, hrest, hlive, hgone⟩ := exists_run_of_exec
    (fun h s => s.AtRest ∧ liveMap h [1] = some [10] ∧
      (s.index.lookup [1]).any fun e => e.segmentId ∉ s.dir)
    [.spawn 1 (.set [1] [10] .relaxed 0 none), .spawn 2 (.set [2] [20] .relaxed 0 none), .resume 2,
      .resume 2, .flush 0 1 .ok, .spawn 3 (.compactSegment 0), .relocate 3 4, .resume 3, .resume 3,
      .resume 1, .flush 1 1 .ok, .resume 2]
    (show (Transition.exec VLog.step (fun _ => WriteOrCompact) (recoveredEvents Disk.empty)
      (openVLog Disk.empty 128) _).any _ = true by decide +kernel)
  obtain ⟨⟨e, _, _, he, hdir, _⟩, _⟩ := h hist s hrun hrest [1] [10] hlive
  rw [he] at hgone
  simp [hdir] at hgone

end

end Skeg
