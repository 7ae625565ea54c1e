import Skeg.Core.Equiv.Reopen
import Skeg.Core.Sequential
import Skeg.Lib.Transition

/-!
# Runs of the store

`Reaches P d max hist s`: a store opened on the directory `d` gets to the state `s` by steps that all
satisfy `P`; `hist` is what has happened, with what the directory tells in front.  `Reaches.log` is
the induction over such a run: the store stays related to a segmented log, and so does everything an
invariant says about the log along the abstract steps.

The second part are the conditions on steps under which the store behaves, each next to the condition
of `SegLog` it becomes.
-/

namespace Skeg

open SegLog (Rec Loc Pend Comp Label Step Wf Path Linked Kept Ordered Settled InOrder AppendOrdered Unapplied)
open Transition (Run)

variable [H : Hashes]

/-! ### Runs -/

/-- The events of the step `a`. -/
def VLog.emits (s : VLog) (a : VLog.Act) : List Event := (s.step a).elim [] Prod.snd

theorem VLog.emits_eq {s s' : VLog} {a : VLog.Act} {ev : List Event}
    (h : s.step a = some (s', ev)) : s.emits a = ev := by
  rw [VLog.emits, h]
  rfl

/-- Nothing goes wrong with IO, and the records written fit a segment. -/
def Sound (s : VLog) (a : VLog.Act) : Prop :=
  FlushOk a ∧ s.maxSegSize ≤ 2 ^ 32 ∧ ∀ e ∈ s.emits a, e.Fits s.maxSegSize

instance (s : VLog) (a : VLog.Act) : Decidable (Sound s a) := inferInstanceAs (Decidable (_ ∧ _ ∧ _))

/-- A sound step of the store is one of the log. -/
theorem Rel.step_sound [LawfulHashes] {hist ev : List Event} {s s' : VLog} {α : LogState}
    {raw : Nat → List (List Record)} {a : VLog.Act} (h : Rel hist s α raw) (hw : Wf α) (hsound : Sound s a)
    (hstep : s.step a = some (s', ev)) :
    ∃ α' raw', Path (Traced s α a ev) α α' ∧ Rel (hist ++ ev) s' α' raw' := by
  obtain ⟨hio, hseg, hfit⟩ := hsound
  rw [VLog.emits_eq hstep] at hfit
  exact h.step hw hstep hio ⟨hseg, hfit⟩

/-- A store opened on `d` gets to `s` by steps that satisfy `P`. -/
def Reaches (P : List Event → VLog → VLog.Act → Prop) (d : Disk) (max : Nat) (hist : List Event)
    (s : VLog) : Prop :=
  Run VLog.step P (recoveredEvents d) (openVLog d max) hist s

section

variable {P : List Event → VLog → VLog.Act → Prop} {d : Disk} {raw : Nat → List (List Record)}
  {max : Nat} {hist : List Event} {s : VLog}

/-- Along a run the store is related to a log that satisfies every invariant of its steps. -/
theorem Reaches.log [LawfulHashes] (hrun : Reaches P d max hist s) (hd : DiskOk d raw)
    (hP : ∀ h s a, P h s a → Sound s a) (I : List Event → VLog → LogState → Prop)
    (hinit : I (recoveredEvents d) (openVLog d max) (openState d raw (openVLog d max)))
    (hkeep : ∀ hist s α raw a s' ev α', Rel hist s α raw → Wf α → I hist s α → P hist s a →
      s.step a = some (s', ev) → Path (Traced s α a ev) α α' → I (hist ++ ev) s' α') :
    ∃ α raw, Rel hist s α raw ∧ Wf α ∧ I hist s α := by
  refine hrun.invariant (fun hist s => ∃ α raw, Rel hist s α raw ∧ Wf α ∧ I hist s α)
    ⟨_, _, hd.rel max, hd.wf max, hinit⟩ ?_
  rintro hist s a s' ev ⟨α, raw, hrel, hw, hI⟩ hPa hstep
  obtain ⟨α', raw', hpath, hrel'⟩ := hrel.step_sound hw (hP hist s a hPa) hstep
  exact ⟨α', raw', hrel', hpath.wf hw, hkeep hist s α raw a s' ev α' hrel hw hI hPa hstep hpath⟩

/-! ### The tasks of a run -/

/-- Only operations of the given kinds are started; a compaction starts relocations. -/
def SpawnsOnly (p : Kind → Bool) : VLog.Act → Prop
  | .spawn _ op => p op.kind = true
  | .relocate .. => p .move = true
  | _ => True

instance (p : Kind → Bool) : DecidablePred (SpawnsOnly p)
  | .spawn _ op => inferInstanceAs (Decidable (p op.kind = true))
  | .relocate .. => inferInstanceAs (Decidable (p .move = true))
  | .resume _ | .flush .. => isTrue trivial

omit H in
/-- The kind of operation an action runs is that of an operation started. -/
theorem kind_of_spawnsOnly {p : Kind → Bool} {a : VLog.Act} (ha : SpawnsOnly p a)
    (htasks : ∀ t pc, s.tasks.lookup t = some pc → p pc.kind = true) {K : Kind}
    (hK : a.kind s = some K) : p K = true := by
  have hlookup : ∀ t, (s.tasks.lookup t).map Pc.kind = some K → p K = true := by
    intro t ht
    obtain ⟨pc, hpc, rfl⟩ := Option.map_eq_some_iff.mp ht
    exact htasks t pc hpc
  cases a with
  | spawn t op =>
    cases hK
    exact ha
  | resume t => exact hlookup t hK
  | relocate t child =>
    obtain ⟨_, _, rfl⟩ := Option.map_eq_some_iff.mp hK
    exact ha
  | flush => cases hK

omit H in
theorem kind_of_sameTask {pc pc' : Option Pc} (h : SameTask pc pc') :
    pc'.map Pc.kind = pc.map Pc.kind := by
  rcases h with rfl | ⟨q, q', rfl, rfl, _⟩ <;> rfl

/-- The tasks of a run are of the kinds started, and so is every step's. -/
theorem Reaches.kinds {p : Kind → Bool} (hrun : Reaches P d max hist s)
    (hP : ∀ h s a, P h s a → SpawnsOnly p a) :
    ∀ t pc, s.tasks.lookup t = some pc → p pc.kind = true := by
  refine hrun.invariant (fun _ s => ∀ t pc, s.tasks.lookup t = some pc → p pc.kind = true) ?_ ?_
  · intro t pc hpc
    rw [(opens_openVLog d max).tasks] at hpc
    cases hpc
  · intro hist s a s' ev htasks hPa hstep t pc hpc
    have hframe := (VLog.step_cases hstep).1
    by_cases ht : a.task = some t
    · exact kind_of_spawnsOnly (hP _ _ _ hPa) htasks (hframe.kind t pc ht hpc)
    · have := kind_of_sameTask (hframe.tasks t ht)
      rw [hpc, Option.map_some] at this
      obtain ⟨pc₀, h₀, heq⟩ := Option.map_eq_some_iff.mp this.symm
      exact heq ▸ htasks t pc₀ h₀

/-- Only an operation of one of the kinds emits the event. -/
def Event.OfKinds (p : Kind → Bool) : Event → Prop
  | .scanned .. => p .compact = true
  | .filled .. => p .get = true ∨ p .append = true
  | .cut _ => p .snapshot = true
  | _ => True

theorem Reaches.ofKinds {p : Kind → Bool} (hrun : Reaches P d max hist s)
    (hP : ∀ h s a, P h s a → SpawnsOnly p a) :
    Reaches (fun h s a => P h s a ∧ ∀ e ∈ s.emits a, e.OfKinds p) d max hist s := by
  refine Run.and hrun fun h s a s' ev hrun hPa hstep => ?_
  rw [VLog.emits_eq hstep]
  intro e he
  have hK : ∀ K, a.kind s = some K → p K = true := fun K =>
    kind_of_spawnsOnly (hP _ _ _ hPa) (Reaches.kinds hrun hP)
  have hok := (VLog.step_cases hstep).1.events e he
  cases e with
  | scanned => exact hK _ hok
  | filled => exact hok.imp (hK _) (hK _)
  | cut => exact hK _ hok
  | _ => trivial

/-! ### The cache of a run -/

omit H in
theorem liveMap_quiet {hist ev : List Event} (h : ∀ e ∈ ev, e.Quiet) :
    liveMap (hist ++ ev) = liveMap hist := by
  funext k
  rw [liveMap, lastApplied_quiet h, liveMap]

omit H in
theorem liveMap_applied (hist : List Event) (key : Bytes) (val : Option Bytes) (ts : Nat)
    (d : Durability) :
    liveMap (hist ++ [.applied key val ts d]) = Function.update (liveMap hist) key val := by
  funext k
  by_cases hk : k = key
  · subst hk
    simp [liveMap, lastApplied, List.foldl_append]
  · simp [liveMap, lastApplied, List.foldl_append, hk]

/-- A read puts the current value into the cache. -/
def Event.FillsCurrent (hist : List Event) : Event → Prop
  | .filled key v => liveMap hist key = some v
  | _ => True

instance (hist : List Event) : DecidablePred (Event.FillsCurrent hist)
  | .filled key v => inferInstanceAs (Decidable (liveMap hist key = some v))
  | .spawned .. | .began .. | .sent .. | .applied .. | .scanned .. | .unlinked _ | .cut _
  | .returned .. => isTrue trivial

omit H in
/-- Values current before a step that applies nothing are current after it. -/
theorem cached_quiet {ev : List Event} {m : Bytes → Option Bytes} (hq : ∀ e ∈ ev, e.Quiet)
    (hfill : ∀ e ∈ ev, e.FillsCurrent hist) (hm : ∀ k v, m k = some v → liveMap hist k = some v) :
    ∀ k v, cached ev m k = some v → liveMap hist k = some v := by
  induction ev generalizing m with
  | nil => exact hm
  | cons e ev ih =>
    have hrest : ∀ m : Bytes → Option Bytes, (∀ k v, m k = some v → liveMap hist k = some v) →
        ∀ k v, cached ev m k = some v → liveMap hist k = some v := fun m =>
      ih (fun e he => hq e (List.mem_cons_of_mem _ he)) fun e he => hfill e (List.mem_cons_of_mem _ he)
    have he := hq e (List.mem_cons_self ..)
    cases e with
    | applied => exact he.elim
    | filled key v =>
      refine hrest (Function.update m key (some v)) fun k v' hk => ?_
      by_cases hkk : k = key
      · subst hkk
        rw [Function.update_self] at hk
        rw [← hk]
        exact hfill _ (List.mem_cons_self ..)
      · exact hm k v' (by rwa [Function.update_of_ne hkk] at hk)
    | _ => exact hrest m hm

omit H in
/-- A step that applies a write caches what it writes. -/
theorem cached_applied {ev : List Event} {m : Bytes → Option Bytes}
    (hev : ∀ e ∈ ev, (∃ k v ts d, e = .applied k v ts d) ∨ ∃ t r, e = .returned t r)
    (hm : ∀ k v, m k = some v → liveMap hist k = some v) :
    ∀ k v, cached ev m k = some v → liveMap (hist ++ ev) k = some v := by
  induction ev using List.reverseRecOn with
  | nil =>
    intro k v hk
    rw [List.append_nil]
    exact hm k v hk
  | append_singleton ev e ih =>
    have hrest := ih fun e he => hev e (List.mem_append_left _ he)
    intro k v hk
    rw [cached_append] at hk
    rw [← List.append_assoc]
    rcases hev e (by simp) with ⟨key, val, ts, d, rfl⟩ | ⟨t, r, rfl⟩
    · rw [liveMap_applied]
      change Function.update (cached ev m) key val k = some v at hk
      by_cases hkk : k = key
      · subst hkk
        simpa using hk
      · rw [Function.update_of_ne hkk] at hk ⊢
        exact hrest k v hk
    · rw [liveMap_quiet (by simp [Event.Quiet])]
      exact hrest k v hk

/-- A cache of current values stays one when reads put only current values into it. -/
theorem cache_step {a : VLog.Act} {s' : VLog} {ev : List Event}
    (hcache : ∀ k v, s.cache.peek k = some v → liveMap hist k = some v) (hstep : s.step a = some (s', ev))
    (hfill : ∀ e ∈ ev, e.FillsCurrent hist) :
    ∀ k v, s'.cache.peek k = some v → liveMap (hist ++ ev) k = some v := by
  intro k v hk
  obtain ⟨hframe, happ⟩ := VLog.step_cases hstep
  have hk' := hframe.cache k v hk
  rcases happ with ⟨t, S, o, d, c, _, happ⟩ | ⟨_, hq⟩
  · refine cached_applied (fun e he => ?_) hcache k v hk'
    rcases happ.events e he with ⟨k, v, ts, rfl⟩ | ⟨r, rfl, _⟩
    · exact .inl ⟨k, v, ts, d, rfl⟩
    · exact .inr ⟨t, r, rfl⟩
  · rw [liveMap_quiet hq]
    exact cached_quiet hq hfill hcache k v hk'

/-- When reads only cache current values, the cache holds nothing else. -/
theorem Reaches.cache (hrun : Reaches P d max hist s)
    (hP : ∀ h s a, P h s a → ∀ e ∈ s.emits a, e.FillsCurrent h) :
    ∀ k v, s.cache.peek k = some v → liveMap hist k = some v := by
  refine hrun.invariant (fun hist s => ∀ k v, s.cache.peek k = some v → liveMap hist k = some v) ?_ ?_
  · intro k v hk
    rw [(opens_openVLog d max).cache] at hk
    cases hk
  · intro hist s a s' ev hI hPa hstep
    have hfill := hP hist s a hPa
    rw [VLog.emits_eq hstep] at hfill
    exact cache_step hI hstep hfill

end

/-! ### Conditions on steps -/

/-- The task waits for the committer of `S`. -/
def Pc.awaits (S : Nat) : Pc → Bool
  | .commit S' _ _ => S' = S
  | _ => false

/-- A segment is read for compaction only when no task waits for its committer. -/
def Event.ReadsSettled (s : VLog) : Event → Prop
  | .scanned _ S => ∀ p ∈ s.tasks.entries, p.2.awaits S = false
  | _ => True

instance (s : VLog) : DecidablePred (Event.ReadsSettled s)
  | .scanned _ S => inferInstanceAs (Decidable (∀ p ∈ s.tasks.entries, p.2.awaits S = false))
  | .spawned .. | .began .. | .sent .. | .applied .. | .unlinked _ | .cut _ | .filled ..
  | .returned .. => isTrue trivial

/-- The write a task is about to apply to the index. -/
def Pc.write : Pc → Option Cont
  | .commit _ _ c => if c.isWrite then some c else none
  | _ => none

/-- The write a step applies to the index. -/
def VLog.applying (s : VLog) : VLog.Act → Option Cont
  | .resume t => (s.tasks.lookup t).bind Pc.write
  | _ => none

omit H in
theorem VLog.applying_eq {s : VLog} {t S : Nat} {d : Durability} {c : Cont}
    (hl : s.tasks.lookup t = some (.commit S d c)) (hc : c.isWrite = true) :
    s.applying (.resume t) = some c := by
  simp [VLog.applying, hl, Pc.write, hc]

/-- A write takes effect only if no write of the same key with a larger timestamp already has. -/
def AppliesInOrder (hist : List Event) (s : VLog) (a : VLog.Act) : Prop :=
  ∀ c ∈ s.applying a, ∀ r ∈ c.recs, ∀ l ∈ lastApplied hist r.key, l.ts < r.ts

instance (hist : List Event) (s : VLog) (a : VLog.Act) : Decidable (AppliesInOrder hist s a) :=
  inferInstanceAs (Decidable (∀ c ∈ s.applying a, ∀ r ∈ c.recs, ∀ l ∈ lastApplied hist r.key, _))

section

variable {hist ev : List Event} {s : VLog} {α β : LogState} {raw : Nat → List (List Record)}
  {a : VLog.Act} {ℓ : Label Bytes Bytes}

theorem Rel.settled (h : Rel hist s α raw) (hev : ∀ e ∈ ev, e.ReadsSettled s)
    (ht : Traced s α a ev β ℓ) : Settled β ℓ := by
  cases ℓ with
  | scan c S =>
    obtain ⟨_, hscan, hrest⟩ := ht
    have hidle := hev _ hscan
    intro hin
    have hin' : α.InFlight S := by
      rwa [SegLog.State.InFlight, hrest.pend, ← SegLog.State.InFlight] at hin
    obtain ⟨i, d, c, hi⟩ := (h.inFlight_iff S).mp hin'
    simpa [Pc.awaits] using hidle ⟨i, .commit S d c⟩ (AList.mem_lookup_iff.mp hi)
  | _ => trivial

theorem Rel.inOrder (h : Rel hist s α raw) (ha : AppliesInOrder hist s a)
    (ht : Traced s α a ev β ℓ) : InOrder β ℓ := by
  cases ℓ with
  | apply i S d ls =>
    obtain ⟨rfl, rfl, dur, c, hl, hc, hls, _⟩ := ht
    intro p hp l hlast
    rw [h.last] at hlast
    exact ha c (VLog.applying_eq hl hc) p.2 (hls ▸ List.mem_map_of_mem hp) l hlast
  | _ => trivial

/-- One step of the store keeps the index inside linked segments. -/
theorem Rel.linked_step (h : Rel hist s α raw) (hw : Wf α) (hl : Linked α)
    (hev : ∀ e ∈ ev, e.ReadsSettled s) {α' : LogState} (hpath : Path (Traced s α a ev) α α') :
    Linked α' :=
  (hpath.invariant (fun β => Wf β ∧ Linked β) ⟨hw, hl⟩ fun hs ht hβ =>
    ⟨hs.wf hβ.1, hs.linked hβ.1 (h.settled hev ht) hβ.2⟩).2

theorem Rel.kept_step (h : Rel hist s α raw) (hw : Wf α) (hl : Linked α) (hk : Kept α)
    (hev : ∀ e ∈ ev, e.ReadsSettled s) (ha : AppliesInOrder hist s a) {α' : LogState}
    (hpath : Path (Traced s α a ev) α α') : Kept α' :=
  (hpath.invariant (fun β => Wf β ∧ Linked β ∧ Kept β) ⟨hw, hl, hk⟩ fun hs ht hβ =>
    ⟨hs.wf hβ.1, hs.linked hβ.1 (h.settled hev ht) hβ.2.1,
      hs.kept hβ.1 (h.settled hev ht) (h.inOrder ha ht) hβ.2.1 hβ.2.2⟩).2.2

end

end Skeg
