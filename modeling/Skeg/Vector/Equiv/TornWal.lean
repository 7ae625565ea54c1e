import Skeg.Vector.Equiv.Views

/-!
# Torn appends

A crash in the middle of an append leaves a part of a record at the end of `delta.log`.  The next open
ignores it but leaves it there, and appends behind it: what is acknowledged from then on cannot be read.
Two reopens give the map back when nothing was torn, or nothing was written in between
(`reopen_twice`).
-/

namespace Skeg

namespace Vector

/-- An insert or a delete. -/
def Act.Write (U : Finset UInt64) : Act → Prop
  | .insert id _ => id ∈ U
  | .delete _ => True
  | _ => False

instance (U : Finset UInt64) (a : Act) : Decidable (a.Write U) :=
  match a with
  | .insert id _ => inferInstanceAs (Decidable (id ∈ U))
  | .delete _ => isTrue trivial
  | .begin _ | .build | .finish => isFalse id
  | .flush | .consolidate | .whole _ | .ivfBegin .. | .ivfBuild | .ivfFinish | .reopen | .setAutoFlush _ => isFalse id

section

variable [H : Hashes] [N : Numerics] {d : Dir} {U : Finset UInt64} {m : UInt64 → Option Vec}
  {tier : QuantKind} {torn : Bytes}

theorem job_of_write {s s' : Sys} {a : Act} {ev : List Event} (ha : a.Write U)
    (hstep : s.step a = some (s', ev)) : s'.job = s.job ∧ ev ≠ [] := by
  rw [Sys.step] at hstep
  cases a with
  | insert id v =>
    rw [Sys.exec] at hstep
    cases hins : s.index.insert s.dir id v with
    | error e =>
      rw [hins] at hstep
      cases hstep
    | ok r =>
      rw [hins] at hstep
      obtain ⟨rfl, rfl⟩ : _ = s' ∧ _ = ev := by simpa [Except.map, Except.toOption] using hstep
      exact ⟨rfl, by simp⟩
  | delete id =>
    obtain ⟨rfl, rfl⟩ : _ = s' ∧ _ = ev := by simpa [Sys.exec, Except.toOption] using hstep
    exact ⟨rfl, by simp⟩
  | _ => exact ha.elim

/-- Two reopens with writes in between give the map back, unless a torn record is in the way of the
writes. -/
theorem reopen_twice (hU : U.card < 2 ^ 32) (hd : HoldsTorn d U m torn) (htier : tier.isDisk = true)
    {s₀ s : Sys} {hist : List Event} (hopen : Sys.opened d tier = some s₀)
    (hrun : Transition.Run Sys.step (fun _ _ a => a.Write U) [] s₀ hist s)
    (hcond : torn = [] ∨ hist = []) :
    ∃ d' x', openIndex s.dir .base tier = .ok (d', x') ∧ x'.view = mapOf m hist := by
  rcases hcond with rfl | rfl
  · obtain ⟨t, ops, ht, hinv, hview, htier'⟩ := sysInv_opened hd.holds htier
    obtain rfl : t = s₀ := Option.some.inj (ht.symm.trans hopen)
    have hnone : t.job = none := by
      rw [Sys.opened, Option.map_eq_some_iff] at hopen
      obtain ⟨r, -, rfl⟩ := hopen
      rfl
    have hcalm := hrun.and (Q := fun _ s _ => s.job = none) (by
      intro h s a s' ev hrun' _ _
      exact hrun'.invariant (fun _ s => s.job = none) hnone fun _ _ _ _ _ hi ha hstep =>
        (job_of_write ha hstep).1.trans hi)
    obtain ⟨ops', hinv', hview', -, htier''⟩ := hinv.run (U := U) (by
      rintro h s a ⟨ha, hj⟩
      refine .inl ?_
      cases a with
      | insert id v => exact ⟨ha, fun _ => hj⟩
      | delete id => trivial
      | _ => exact ha.elim) hU hcalm
    obtain ⟨x', hreopen, -, hx', -⟩ := hinv'.index.reopen
    rw [htier'', htier'] at hreopen
    exact ⟨_, x', hreopen, by rw [hx', hview', hview]⟩
  · -- nothing was acknowledged, so nothing was done
    obtain ⟨x, hx, hview, hd'⟩ := hd.reopen htier
    have hs : s = s₀ := by
      generalize hnil : ([] : List Event) = hist at hrun
      cases hrun with
      | nil => rfl
      | snoc hrun' ha hstep =>
        exact absurd (List.append_eq_nil_iff.mp hnil.symm).2 (job_of_write ha hstep).2
    have hdir : s₀.dir = openedDir d .base := by
      rw [Sys.opened, hx] at hopen
      exact (congrArg Sys.dir (Option.some.inj hopen)).symm
    obtain ⟨x', hx', hview', -⟩ := hd'.reopen htier
    rw [hs, hdir]
    exact ⟨_, x', hx', hview'⟩

end

section

attribute [local instance] linkedHashes exactNumerics

theorem torn_delete : Torn .framedV2 1 [1] := ⟨.delete 0, trivial, by decide +kernel, by decide +kernel⟩

/-- Nothing is torn and one write is acknowledged; then one byte of a delete is torn and nothing is
acknowledged. -/
theorem reopen_twice_insert :
    (∃ s₀ s, HoldsTorn ((Dir.created 1 64).run [.write .log .base []]) {0} (fun _ => none) [] ∧
      Sys.opened ((Dir.created 1 64).run [.write .log .base []]) .int8 = some s₀ ∧
      Transition.Run Sys.step (fun _ _ a => a.Write {0}) [] s₀ [.inserted 0 [0x3f800000]] s ∧
        ∃ d' x', openIndex s.dir .base .int8 = .ok (d', x') ∧
          x'.view = mapOf (fun _ => none) [.inserted 0 [0x3f800000]]) ∧
    ∃ s, HoldsTorn ((Dir.created 1 64).run [.write .log .base [1]]) {0} (fun _ => none) [1] ∧
      Sys.opened ((Dir.created 1 64).run [.write .log .base [1]]) .int8 = some s ∧
        ∃ d' x', openIndex s.dir .base .int8 = .ok (d', x') ∧ x'.view = mapOf (fun _ => none) [] := by
  have hd := holdsTorn_created 1 64 (by decide) (by decide) (by decide) {0}
    (torn_nil .framedV2 1)
  have hd' := holdsTorn_created 1 64 (by decide) (by decide) (by decide) {0} torn_delete
  obtain ⟨s₀, hist, s, hopen, hrun, rfl⟩ := exists_run_opened
    ((Dir.created 1 64).run [.write .log .base []]) .int8
    (fun hist _ => hist = [.inserted 0 [0x3f800000]]) id [.insert 0 [0x3f800000]]
    (show (Option.bind _ fun s => Transition.exec Sys.step (fun _ _ a => a.Write {0}) []
      (id s) _).any _ = true by decide +kernel)
  obtain ⟨t, hopen'⟩ := Option.isSome_iff_exists.mp
    (show (Sys.opened ((Dir.created 1 64).run [.write .log .base [1]]) .int8).isSome by decide +kernel)
  exact ⟨⟨s₀, s, hd, hopen, hrun, reopen_twice (by decide) hd rfl hopen hrun (.inl rfl)⟩,
    t, hd', hopen', reopen_twice (by decide) hd' rfl hopen' .nil (.inr rfl)⟩

/-- One byte of a delete is torn; the insert acknowledged after the reopen is logged behind it, and the
second reopen fails. -/
theorem reopen_twice_torn : ¬ ∀ (U : Finset UInt64) (d : Dir) (m : UInt64 → Option Vec) (torn : Bytes)
    (s₀ s : Sys) (hist : List Event), U.card < 2 ^ 32 → HoldsTorn d U m torn →
    Sys.opened d .int8 = some s₀ → Transition.Run Sys.step (fun _ _ a => a.Write U) [] s₀ hist s →
      ∃ d' x', openIndex s.dir .base .int8 = .ok (d', x') ∧ x'.view = mapOf m hist := by
  intro h
  have hd := holdsTorn_created 1 64 (by decide) (by decide) (by decide) {0} torn_delete
  obtain ⟨s₀, hist, s, hopen, hrun, hfail⟩ := exists_run_opened
    ((Dir.created 1 64).run [.write .log .base [1]]) .int8
    (fun _ s => (openIndex s.dir .base .int8).toOption.isNone = true) id [.insert 0 [0x3f800000]]
    (show (Option.bind _ fun s => Transition.exec Sys.step (fun _ _ a => a.Write {0}) []
      (id s) _).any _ = true by decide +kernel)
  obtain ⟨d', x', hok, -⟩ := h {0} _ _ [1] s₀ s hist (by decide) hd hopen hrun
  rw [hok] at hfail
  cases hfail

end

end Vector

end Skeg
