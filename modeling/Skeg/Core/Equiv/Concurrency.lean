import Skeg.Core.Equiv.Runs
import Skeg.Core.Hashes

/-!
# Concurrent writes and a full scan

Timestamps are drawn before an append suspends, while the index is updated in the order in which the
appends are answered to their tasks.  When two writes of one key are answered in the other order, the
live store has the older timestamp and a full scan the newer one (`live_ne_recovered`).  Both agree in
every run in which the writes of a key take effect in the order of their timestamps
(`live_eq_recovered`).
-/

namespace Skeg

open SegLog (Linked Kept)
open Transition (exists_run_of_exec)

section

variable [H : Hashes]

/-- A get returns on the live store what it returns on one opened by a full scan of the directory; a
get on the live store that has to put the value into the cache needs that insert to return. -/
def LiveEqRecovered (s : VLog) : Prop :=
  ∀ k tenant max, ∃ v,
    (openVLog s.disk.withoutSnapshot max).getAlone k tenant = some (.ok (.value v)) ∧
    ((∀ x ∈ v, ((s.cache.get k).2.insertFor k x x.length tenant).isSome = true) →
      s.getAlone k tenant = some (.ok (.value v)))

def Kind.isSetOrDel : Kind → Bool
  | .set | .del => true
  | .get | .setMany | .append | .compact | .move | .snapshot => false

/-- A step of sets and dels. -/
def SetOrDel (s : VLog) (a : VLog.Act) : Prop := Sound s a ∧ SpawnsOnly Kind.isSetOrDel a

instance (s : VLog) (a : VLog.Act) : Decidable (SetOrDel s a) := inferInstanceAs (Decidable (_ ∧ _))

/-- A step of sets and dels that take effect in the order of their timestamps. -/
def SetOrDelInOrder (hist : List Event) (s : VLog) (a : VLog.Act) : Prop :=
  SetOrDel s a ∧ AppliesInOrder hist s a

instance (hist : List Event) (s : VLog) (a : VLog.Act) : Decidable (SetOrDelInOrder hist s a) :=
  inferInstanceAs (Decidable (_ ∧ _))

theorem live_eq_recovered [LawfulHashes] {d : Disk} {raw : Nat → List (List Record)} {max : Nat}
    {hist : List Event} {s : VLog} (hd : DiskOk d raw)
    (hrun : Reaches SetOrDelInOrder d max hist s) (hrest : s.AtRest) : LiveEqRecovered s := by
  -- no operation of such a run reads or compacts
  have hkinds := hrun.ofKinds fun _ _ _ h => h.1.2
  have hsettled : ∀ (s : VLog) (e : Event), e.OfKinds Kind.isSetOrDel → e.ReadsSettled s := by
    intro s e he
    cases e with
    | scanned => exact absurd he (by simp [Event.OfKinds, Kind.isSetOrDel])
    | _ => trivial
  have hcache := hkinds.cache fun h s a hPa e he => by
    have := hPa.2 e he
    cases e with
    | filled => exact absurd this (by simp [Event.OfKinds, Kind.isSetOrDel])
    | _ => trivial
  obtain ⟨α, raw', hrel, hw, hl, hk⟩ := hkinds.log hd (fun _ _ _ h => h.1.1.1)
    (fun _ _ α => Linked α ∧ Kept α) ⟨hd.linked max, hd.kept max⟩
    fun hist s α raw a s' ev α' hrel hw hI hPa hstep hpath => by
      have hev : ∀ e ∈ ev, e.ReadsSettled s := fun e he =>
        hsettled s e (hPa.2 e (VLog.emits_eq hstep ▸ he))
      exact ⟨hrel.linked_step hw hI.1 hev hpath, hrel.kept_step hw hI.1 hI.2 hev hPa.1.2 hpath⟩
  intro k tenant max'
  exact ⟨liveMap hist k, getAlone_openVLog (hrel.stores_fullScan hw hl hk hrest max') k tenant,
    fun hfill => (hrel.stores hw hl hrest).getAlone (hcache k) hfill⟩

end

section

attribute [local instance] linkedHashes

/-- Two concurrent sets of one key, answered in the order of their timestamps. -/
theorem live_eq_recovered_two_sets : ∃ hist s,
    Reaches SetOrDelInOrder Disk.empty 512 hist s ∧ s.AtRest ∧ liveMap hist [1] = some [20] ∧
      LiveEqRecovered s := by
  obtain ⟨hist, s, hrun, hrest, hlive⟩ := exists_run_of_exec
    (fun h s => s.AtRest ∧ liveMap h [1] = some [20])
    [.spawn 1 (.set [1] [10] .relaxed 0 none), .spawn 2 (.set [1] [20] .relaxed 0 none),
      .flush 0 2 .ok, .resume 1, .resume 2]
    (show (Transition.exec VLog.step SetOrDelInOrder (recoveredEvents Disk.empty)
      (openVLog Disk.empty 512) _).any _ = true by decide +kernel)
  exact ⟨hist, s, hrun, hrest, hlive, live_eq_recovered diskOk_empty hrun hrest⟩

/-- The same, answered in the other order. -/
theorem live_ne_recovered : ¬ ∀ d raw max hist s, DiskOk d raw →
    Reaches (fun _ => SetOrDel) d max hist s → s.AtRest → LiveEqRecovered s := by
  intro h
  obtain ⟨hist, s, hrun, hrest, hlive, hcached, hrecovered⟩ := exists_run_of_exec
    (fun _ s => s.AtRest ∧ s.getAlone [1] 0 = some (.ok (.value (some [10]))) ∧
      ((s.cache.get [1]).2.insertFor [1] [20] 1 0).isSome = true ∧
      (openVLog s.disk.withoutSnapshot 512).getAlone [1] 0 = some (.ok (.value (some [20]))))
    [.spawn 1 (.set [1] [10] .relaxed 0 none), .spawn 2 (.set [1] [20] .relaxed 0 none),
      .flush 0 2 .ok, .resume 2, .resume 1]
    (show (Transition.exec VLog.step (fun _ => SetOrDel) (recoveredEvents Disk.empty)
      (openVLog Disk.empty 512) _).any _ = true by decide +kernel)
  obtain ⟨v, hv, hlive'⟩ := h Disk.empty _ 512 hist s diskOk_empty hrun hrest [1] 0 512
  rw [hrecovered] at hv
  cases hv
  have := hlive' (by simpa using hcached)
  rw [hlive] at this
  cases this

end

end Skeg
