import Skeg.Core.Equiv.Snapshots
import Skeg.Lib.SegLog.Sequential

/-!
# Operations one after the other, without IO errors

When an operation starts only once the store is at rest, all tasks but one are relocations of the
compaction that one runs (`VLog.Solo`).  The log then takes one write or one compaction at a time
(`Rel.oneAtATime`), so that the disciplines the recovery paths rely on hold by themselves:
`Orderly.step` keeps the store recoverable, with no condition on the order of its steps.
-/

namespace Skeg

open SegLog (Rec Label Step Wf Path OneAtATime)

variable [H : Hashes] {hist ev : List Event} {s s' : VLog} {α α' β : LogState} {raw : Nat → List (List Record)}
  {a : VLog.Act} {ℓ : Label Bytes Bytes} {t i : Nat} {pc : Pc}

/-! ### One task and its relocations -/

/-- Every task but `t` relocates a record. -/
def VLog.Solo (t : Nat) (s : VLog) : Prop :=
  ∀ i pc, s.tasks.lookup i = some pc → i ≠ t → pc.kind = .move

omit H in
/-- The relocation a task of that kind is about. -/
theorem Cont.eq_relocate {c : Cont} (h : c.kind = .move) : ∃ parent seg offset rec, c = .relocate parent seg offset rec := by
  cases c with
  | set _ _ _ _ isAppend _ => exact absurd h (setKind_ne_move isAppend)
  | relocate parent seg offset rec => exact ⟨parent, seg, offset, rec, rfl⟩
  | _ => cases h

/-- A relocation is under way in the log, for a compaction there is. -/
theorem Rel.of_move (h : Rel hist s α raw) (hi : s.tasks.lookup i = some pc) (hpc : pc.kind = .move) :
    α.pend i ≠ none ∧ ∃ parent q, s.tasks.lookup parent = some (.relocating q) := by
  have htask := h.task i
  rw [hi] at htask
  have hjob : ∀ job : Job, job.kind = .move → JobOk s α i job →
      α.pend i ≠ none ∧ ∃ parent q, s.tasks.lookup parent = some (.relocating q) := by
    intro job hkind hjob
    cases job with
    | sealActive => cases hkind
    | append d c =>
      obtain ⟨parent, seg, offset, rec, rfl⟩ := Cont.eq_relocate hkind
      obtain ⟨hpend, _, hparent⟩ := hjob
      obtain ⟨q, hq, _⟩ := hparent parent seg offset rec rfl
      exact ⟨by simp [hpend], parent, q, hq⟩
  cases pc with
  | lockWait job => exact hjob job hpc htask.1
  | starting id job => exact hjob job hpc htask.1.1
  | commit S d c =>
    obtain ⟨parent, seg, offset, rec, rfl⟩ := Cont.eq_relocate hpc
    obtain ⟨⟨o, hpend, _⟩, _, _, hparent⟩ := htask
    obtain ⟨q, hq, _⟩ := hparent parent seg offset rec rfl
    exact ⟨by simp [hpend], parent, q, hq⟩
  | pread key tenant e req => exact absurd hpc (readKind_ne_move req)
  | _ => cases hpc

/-- Unless the one task relocates, it is alone. -/
theorem Rel.lookup_none (h : Rel hist s α raw) (hsolo : s.Solo t)
    (ht : ∀ q, s.tasks.lookup t ≠ some (.relocating q)) (hi : i ≠ t) : s.tasks.lookup i = none := by
  cases hpc : s.tasks.lookup i with
  | none => rfl
  | some pc =>
    obtain ⟨_, parent, q, hq⟩ := h.of_move hpc (hsolo i pc hpc hi)
    by_cases hp : parent = t
    · exact absurd (hp ▸ hq) (ht q)
    · cases hsolo parent _ hq hp

omit H in
theorem VLog.Solo.of_rest (hrest : s.AtRest) (t : Nat) : s.Solo t := by
  intro i pc hi
  rw [show s.tasks = ∅ from hrest] at hi
  cases hi

/-- The task a step runs is there. -/
theorem VLog.lookup_of_step (hstep : s.step a = some (s', ev)) :
    (∀ i, a = .resume i → ∃ pc, s.tasks.lookup i = some pc ∧ s.resume i pc = some (s', ev)) ∧
      ∀ i child, a = .relocate i child → ∃ q, s.tasks.lookup i = some (.relocating q) := by
  obtain ⟨hraw, _⟩ := Option.filter_eq_some_iff.mp hstep
  refine ⟨?_, ?_⟩
  · rintro i rfl
    exact Option.bind_eq_some_iff.mp hraw
  · rintro i child rfl
    simp only [VLog.stepRaw] at hraw
    split at hraw
    · rename_i q hq
      exact ⟨q, hq⟩
    · cases hraw

/-- Operations start at rest: after a step there still is one task and its relocations. -/
theorem VLog.Solo.step (hsolo : s.Solo t) (hseq : a.starts = true → s.AtRest)
    (hstep : s.step a = some (s', ev)) : ∃ t', s'.Solo t' := by
  have hframe := (VLog.step_cases hstep).1
  -- the kinds of the tasks the action does not run
  have hother : ∀ i pc, a.task ≠ some i → s'.tasks.lookup i = some pc →
      ∃ pc₀, s.tasks.lookup i = some pc₀ ∧ pc₀.kind = pc.kind := by
    intro i pc hi hpc
    have hkind := kind_of_sameTask (hframe.tasks i hi)
    rw [hpc, Option.map_some] at hkind
    exact Option.map_eq_some_iff.mp hkind.symm
  by_cases hspawn : a.starts = true
  · cases a with
    | spawn t₁ op =>
      refine ⟨t₁, fun i pc hpc hi => ?_⟩
      obtain ⟨pc₀, hpc₀, _⟩ := hother i pc (fun heq => hi (Option.some.inj heq).symm) hpc
      rw [show s.tasks = ∅ from hseq hspawn] at hpc₀
      cases hpc₀
    | _ => cases hspawn
  · refine ⟨t, fun i pc hpc hi => ?_⟩
    by_cases hai : a.task = some i
    · have hkind := hframe.kind i pc hai hpc
      cases a with
      | spawn => exact absurd rfl hspawn
      | resume t₁ =>
        obtain rfl : t₁ = i := Option.some.inj hai
        obtain ⟨pc₀, hpc₀, heq⟩ := Option.map_eq_some_iff.mp hkind
        exact heq ▸ hsolo t₁ pc₀ hpc₀ hi
      | relocate t₁ child =>
        obtain ⟨_, _, heq⟩ := Option.map_eq_some_iff.mp hkind
        exact heq.symm
      | flush => cases hai
    · obtain ⟨pc₀, hpc₀, heq⟩ := hother i pc hai hpc
      exact heq ▸ hsolo i pc₀ hpc₀ hi

/-! ### One write or compaction at a time -/

/-- A task that is new to the log finds it idle. -/
theorem Rel.idle_others (h : Rel hist s α raw) (hsolo : s.Solo t) (hseq : a.starts = true → s.AtRest)
    (hruns : Runs s a i) (hpend : α.pend i = none) {j : Nat} (hj : j ≠ i) : α.pend j = none ∧ α.comp j = none := by
  have hnone : s.tasks.lookup j = none := by
    rcases hruns with ⟨op, rfl⟩ | ⟨rfl, hsome, hpc⟩
    · rw [show s.tasks = ∅ from hseq rfl]
      rfl
    · obtain ⟨pc, hlookup⟩ := Option.isSome_iff_exists.mp hsome
      -- relocations are under way in the log, so this is the one task that is none
      have hit : i = t := by
        by_contra hne
        exact (h.of_move hlookup (hsolo i pc hlookup hne)).1 hpend
      exact h.lookup_none hsolo (hit ▸ hpc) (hit ▸ hj)
  have htask := h.task j
  rw [hnone] at htask
  exact htask

theorem Rel.oneAtATime (h : Rel hist s α raw) (hsolo : s.Solo t) (hseq : a.starts = true → s.AtRest)
    (ht : Traced s α a ev β ℓ) : OneAtATime β ℓ := by
  cases ℓ with
  | «begin» i rs =>
    obtain ⟨hstarts, rfl⟩ := ht
    have hidle := fun j hj => h.idle_others hsolo hseq hstarts.runs hstarts.pend (j := j) hj
    refine ⟨fun j => ?_, fun j => ?_⟩
    · by_cases hj : j = i
      · exact hj ▸ hstarts.pend
      · exact (hidle j hj).1
    · by_cases hj : j = i
      · exact hj ▸ hstarts.comp
      · exact (hidle j hj).2
  | scan c S =>
    obtain ⟨hstarts, _, hrest⟩ := ht
    have hidle := fun j hj => h.idle_others hsolo hseq hstarts.runs (hrest.pend ▸ hstarts.pend) (j := j) hj
    refine ⟨fun j => ?_, fun j => ?_⟩
    · by_cases hj : j = c
      · exact hj ▸ hstarts.pend
      · rw [hrest.pend]
        exact (hidle j hj).1
    · by_cases hj : j = c
      · exact hj ▸ hstarts.comp
      · rw [hrest.comp j hj]
        exact (hidle j hj).2
  | _ => trivial

/-- A snapshot is cut at rest. -/
theorem Rel.idle_of_cut (h : Rel hist s α raw) (hsolo : s.Solo t) (hseq : a.starts = true → s.AtRest)
    (hstep : s.step a = some (s', ev)) {sn : Snapshot} (hcut : .cut sn ∈ ev) (i : Nat) : α.pend i = none := by
  have hkind : a.kind s = some .snapshot := (VLog.step_cases hstep).1.events _ hcut
  cases a with
  | spawn t₁ op => exact (h.pend_none (hseq rfl) i).1
  | resume t₁ =>
    obtain ⟨pc, hlookup, hpc⟩ := Option.map_eq_some_iff.mp hkind
    cases pc with
    | snapshotting sn' =>
      have hpend : α.pend t₁ = none := by
        have htask := h.task t₁
        rw [hlookup] at htask
        exact htask.1
      by_cases hi : i = t₁
      · exact hi ▸ hpend
      · refine (h.idle_others hsolo hseq (.inr ⟨rfl, by simp [hlookup], fun q hq => ?_⟩) hpend hi).1
        rw [hlookup] at hq
        cases hq
    | pread key tenant e req => exact absurd hpc (readKind_ne_snapshot req)
    | lockWait job => exact absurd hpc job.kind_ne_snapshot
    | starting id job => exact absurd hpc job.kind_ne_snapshot
    | commit S d c => exact absurd hpc c.kind_ne_snapshot
    | _ => cases hpc
  | relocate t₁ child =>
    obtain ⟨_, _, hpc⟩ := Option.map_eq_some_iff.mp hkind
    cases hpc
  | flush => cases hkind

/-! ### What operations one after the other keep -/

/-- No IO error, records that fit, and an operation starts only at rest. -/
def InTurn (s : VLog) (a : VLog.Act) : Prop := Sound s a ∧ (a.starts = true → s.AtRest)

instance (s : VLog) (a : VLog.Act) : Decidable (InTurn s a) := inferInstanceAs (Decidable (_ ∧ _))

structure Orderly (s : VLog) (α : LogState) : Prop where
  recoverable : Recoverable s α
  alone : SegLog.Alone α
  solo : ∃ t, s.Solo t

/-- A task that is no relocation and starts none is alone. -/
theorem Orderly.lone (hI : Orderly s α) (h : Rel hist s α raw) (hi : s.tasks.lookup i = some pc)
    (hmove : pc.kind ≠ .move) (hq : ∀ q, pc ≠ .relocating q) {j : Nat} (hj : j ≠ i) : s.tasks.lookup j = none := by
  obtain ⟨t, hsolo⟩ := hI.solo
  obtain rfl : i = t := by
    by_contra hne
    exact hmove (hsolo i pc hi hne)
  refine h.lookup_none hsolo (fun q hlookup => hq q ?_) hj
  exact Option.some.inj (hi.symm.trans hlookup)

theorem orderly_empty [LawfulHashes] (max : Nat) : Orderly (openVLog Disk.empty max)
    (openState Disk.empty (fun _ => []) (openVLog Disk.empty max)) where
  recoverable := recoverable_empty max
  alone := ⟨fun k l hl => (by cases hl), .inl ⟨fun _ => rfl, fun _ => rfl⟩⟩
  solo := ⟨0, VLog.Solo.of_rest (opens_openVLog Disk.empty max).tasks 0⟩

/-- The log takes one write or compaction at a time, so its steps keep their disciplines. -/
theorem Orderly.path (hI : Orderly s α) (h : Rel hist s α raw) (hw : Wf α) (hseq : a.starts = true → s.AtRest)
    (hpath : Path (Traced s α a ev) α α') : Path (fun β ℓ => Disciplined β ℓ ∧ OneAtATime β ℓ) α α' := by
  obtain ⟨_, halone, t, hsolo⟩ := hI
  refine hpath.strengthen (fun β => Wf β ∧ SegLog.Alone β) ⟨hw, halone⟩ fun {β γ ℓ} hs ht hβ => ?_
  obtain ⟨hwβ, haβ⟩ := hβ
  have hone := h.oneAtATime hsolo hseq ht
  exact ⟨⟨⟨hone.settled, haβ.inOrder hs, haβ.appendOrdered hwβ hs⟩, hone⟩, hs.wf hwβ, hs.alone hwβ hone haβ⟩

theorem Orderly.step (hI : Orderly s α) (h : Rel hist s α raw) (hw : Wf α)
    (hseq : a.starts = true → s.AtRest) (hstep : s.step a = some (s', ev))
    (hpath : Path (Traced s α a ev) α α') : Orderly s' α' := by
  have hone := hI.path h hw hseq hpath
  obtain ⟨hrec, halone, t, hsolo⟩ := hI
  refine ⟨hrec.step h hw hstep (hone.mono fun _ _ => And.left) fun sn hsn i T ls hi => ?_, ?_,
    hsolo.step hseq hstep⟩
  · rw [h.idle_of_cut hsolo hseq hstep hsn i] at hi
    cases hi
  · exact (hone.invariant (fun β => Wf β ∧ SegLog.Alone β) ⟨hw, halone⟩ fun hs hd hβ =>
      ⟨hs.wf hβ.1, hs.alone hβ.1 hd.2 hβ.2⟩).2

end Skeg
