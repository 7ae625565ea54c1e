import Skeg.Core.Equiv.Runs
import Skeg.Core.Hashes

/-!
# The cache and the log

A get that misses the cache reads the index, suspends on the file and then fills the cache.  A set or
del that completes in between is overwritten in the cache by the old value, which is served from then
on (`get_serves_stale`).  `get_coherent` is what holds when every fill still is the value of the last
completed write of its key, and compactions read segments no task waits for: at rest, a get returns
what the record behind the index entry says.
-/

namespace Skeg

open SegLog (Linked)
open Transition (exists_run_of_exec)

section

variable [H : Hashes]

/-- A get returns the value of the record its index entry points at, and none when there is no
entry; a get that has to put the value into the cache needs that insert to return. -/
def Coherent (s : VLog) : Prop :=
  ∀ k tenant,
    (s.index.lookup k = none → s.getAlone k tenant = some (.ok (.value none))) ∧
    ∀ e, s.index.lookup k = some e → ∃ r,
      decodeRecord ((s.segs e.segmentId).file.pread e.offset e.size) = .ok r ∧ r.key = k ∧
      (((s.cache.get k).2.insertFor k r.value r.value.length tenant).isSome = true →
        s.getAlone k tenant = some (.ok (.value (some r.value))))

/-- A step that fills the cache with current values only, and reads a segment only when no task waits
for its committer. -/
def FillsAndReadsSettled (hist : List Event) (s : VLog) (a : VLog.Act) : Prop :=
  Sound s a ∧ ∀ e ∈ s.emits a, e.FillsCurrent hist ∧ e.ReadsSettled s

instance (hist : List Event) (s : VLog) (a : VLog.Act) : Decidable (FillsAndReadsSettled hist s a) :=
  inferInstanceAs (Decidable (_ ∧ _))

theorem get_coherent [LawfulHashes] {d : Disk} {raw : Nat → List (List Record)} {max : Nat}
    {hist : List Event} {s : VLog} (hd : DiskOk d raw)
    (hrun : Reaches FillsAndReadsSettled d max hist s) (hrest : s.AtRest) : Coherent s := by
  obtain ⟨α, raw', hrel, hw, hl⟩ := hrun.log hd (fun _ _ _ h => h.1) (fun _ _ α => Linked α)
    (hd.linked max) fun hist s α raw a s' ev α' hrel hw hl hPa hstep hpath =>
      hrel.linked_step hw hl (fun e he => (hPa.2 e (VLog.emits_eq hstep ▸ he)).2) hpath
  have hstores := hrel.stores hw hl hrest
  have hcache := hrun.cache fun h s a hPa e he => (hPa.2 e he).1
  have hget : ∀ k tenant, (∀ v, liveMap hist k = some v →
      ((s.cache.get k).2.insertFor k v v.length tenant).isSome = true) →
      s.getAlone k tenant = some (.ok (.value (liveMap hist k))) :=
    fun k tenant hfill => hstores.getAlone (hcache k) hfill
  intro k tenant
  cases hm : liveMap hist k with
  | none =>
    have hnone := hstores.absent k hm
    refine ⟨fun _ => ?_, fun e he => ?_⟩
    · rw [← hm]
      exact hget k tenant (by simp [hm])
    · rw [hnone] at he
      cases he
  | some v =>
    obtain ⟨e, ts, kind, he, _, _, hdec⟩ := hstores.present k v hm
    refine ⟨fun hnone => ?_, fun e' he' => ?_⟩
    · rw [hnone] at he
      cases he
    · rw [he] at he'
      cases he'
      refine ⟨_, hdec, rfl, fun hfill => ?_⟩
      rw [hget k tenant fun v' hv' => ?_, hm]
      rw [hm] at hv'
      cases hv'
      exact hfill

end

section

attribute [local instance] linkedHashes

/-- A directory with one segment, which holds the value 10 of the key 1. -/
def oneRecord : Disk where
  dir := [0]
  file _ := (File.create 512).writeAt 0 (encodeAll [⟨1, .scalar, [1], [10]⟩])
  snapshot := none

theorem diskOk_oneRecord : DiskOk oneRecord fun _ => [[⟨1, .scalar, [1], [10]⟩]] where
  nodup := List.nodup_singleton 0
  data S _ := by simp [oneRecord, File.writeAt, File.create, File.overwrite]
  block S _ b hb := by
    rw [List.mem_singleton.mp hb]
    refine ⟨fun r hr => ?_, .inl ⟨_, rfl, by simp⟩⟩
    rw [List.mem_singleton.mp hr]
    constructor <;> decide
  inj S _ x hx T _ y hy _ _ _ := by
    simp only [List.flatten_cons, List.flatten_nil, List.append_nil, List.mem_singleton] at hx hy
    rw [hx, hy]
  snapshot := rfl

/-- A get fills the cache, and a set completes after it. -/
theorem get_coherent_set_after_get : ∃ hist s,
    Reaches FillsAndReadsSettled oneRecord 512 hist s ∧ s.AtRest ∧
      liveMap hist [1] = some [20] ∧ Coherent s := by
  obtain ⟨hist, s, hrun, hrest, hlive⟩ := exists_run_of_exec
    (fun h s => s.AtRest ∧ liveMap h [1] = some [20])
    [.spawn 1 (.get [1] 0), .resume 1, .spawn 2 (.set [1] [20] .relaxed 0 none), .flush 0 1 .ok,
      .resume 2]
    (show (Transition.exec VLog.step FillsAndReadsSettled (recoveredEvents oneRecord)
      (openVLog oneRecord 512) _).any _ = true by decide +kernel)
  exact ⟨hist, s, hrun, hrest, hlive, get_coherent diskOk_oneRecord hrun hrest⟩

/-- A set completes while a get waits for the file: the get caches the old value, and the next one
returns it, while the index points at the new record. -/
theorem get_serves_stale : ¬ ∀ d raw max hist s, DiskOk d raw →
    Reaches (fun _ => Sound) d max hist s → s.AtRest → Coherent s := by
  intro h
  obtain ⟨hist, s, hrun, hrest, hget, hdec⟩ := exists_run_of_exec
    (fun _ s => s.AtRest ∧ s.getAlone [1] 0 = some (.ok (.value (some [10]))) ∧
      (s.index.lookup [1]).any fun e =>
        decodeRecord ((s.segs e.segmentId).file.pread e.offset e.size) =
          .ok ⟨2, .scalar, [1], [20]⟩ ∧
        ((s.cache.get [1]).2.insertFor [1] [20] 1 0).isSome = true)
    [.spawn 1 (.get [1] 0), .spawn 2 (.set [1] [20] .relaxed 0 none), .flush 0 1 .ok, .resume 2,
      .resume 1]
    (show (Transition.exec VLog.step (fun _ => Sound) (recoveredEvents oneRecord)
      (openVLog oneRecord 512) _).any _ = true by decide +kernel)
  have hcoh := h oneRecord _ 512 hist s diskOk_oneRecord hrun hrest [1] 0
  cases he : s.index.lookup [1] with
  | none => simp [he] at hdec
  | some e =>
    obtain ⟨r, hr, _, hval⟩ := hcoh.2 e he
    rw [he, Option.any_some, decide_eq_true_eq] at hdec
    rw [hdec.1] at hr
    cases hr
    have := hval hdec.2
    rw [hget] at this
    cases this

end

end Skeg
