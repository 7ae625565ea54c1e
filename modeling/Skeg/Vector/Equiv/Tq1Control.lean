import Mathlib.Data.List.Induction
import Mathlib.Tactic.Linarith
import Mathlib.Tactic.Ring
import Skeg.Vector.Tq1Control

/-!
# When the controller changes its mode

`pending` counts the decisions against the active mode.  `Streak` says what it has counted: the last `pending` calls
all decided for some mode that is not the active one.  When the active mode is one of the two that a decision can be
for, that is the other one, and a change of mode has the last `hysteresis` decisions behind it (`Streak.change`).  When
it is not, decisions for either mode count, and the modes of the last decisions may alternate (`hysteretic_iff`).
-/

namespace Skeg

namespace Vector

/-- The modes that a decision can be for. -/
def Tq1ProxyMode.Decided (m : Tq1ProxyMode) : Prop := m = .hybrid ∨ m = .asymmetric

/-- The two modes exclude each other. -/
theorem Tq1ProxyMode.Decided.eq {m m' active : Tq1ProxyMode} (hactive : active.Decided) (hm : m.Decided)
    (hm' : m'.Decided) (hne : m ≠ active) (hne' : m' ≠ active) : m = m' := by
  rcases hactive with rfl | rfl <;> rcases hm with rfl | rfl <;> rcases hm' with rfl | rfl <;> simp_all

namespace Tq1ProxyController

/-! ### Sequences of calls -/

/-- The controller after some calls of `record_shadow`. -/
def run (c : Tq1ProxyController) (calls : List (ℚ × ℚ)) : Tq1ProxyController :=
  calls.foldl (fun c r => c.recordShadow r.1 r.2) c

/-- What each of the calls decided, if it was past the warmup. -/
def decisions (c : Tq1ProxyController) : List (ℚ × ℚ) → List (Option Tq1ProxyMode)
  | [] => []
  | r :: rs => (c.sample r.1 r.2).target :: (c.recordShadow r.1 r.2).decisions rs

theorem run_snoc (c : Tq1ProxyController) (calls : List (ℚ × ℚ)) (r : ℚ × ℚ) :
    c.run (calls ++ [r]) = (c.run calls).recordShadow r.1 r.2 := by
  rw [run, run, List.foldl_append]
  rfl

theorem decisions_snoc (c : Tq1ProxyController) (calls : List (ℚ × ℚ)) (r : ℚ × ℚ) :
    c.decisions (calls ++ [r]) = c.decisions calls ++ [((c.run calls).sample r.1 r.2).target] := by
  induction calls generalizing c with
  | nil => rfl
  | cons q calls ih => exact congrArg _ (ih (c.recordShadow q.1 q.2))

/-! ### The counter -/

theorem decided_of_target {c : Tq1ProxyController} {m : Tq1ProxyMode} (h : c.target = some m) :
    m.Decided := by
  unfold target at h
  split_ifs at h
  split at h
  · cases h
    split_ifs
    · exact .inl rfl
    · exact .inr rfl
  · cases h

/-- What `pending` counts: the last decisions, all against the active mode. -/
structure Streak (c : Tq1ProxyController) (ds : List (Option Tq1ProxyMode)) : Prop where
  cold : c.samples < c.warmup → c.pending = 0
  word : c.warmup < 2 ^ 32
  byte : c.hysteresis < 2 ^ 8
  below : c.pending < c.hysteresis
  last : ∃ front tail, ds = front ++ tail ∧ tail.length = c.pending ∧
    ∀ d ∈ tail, ∃ m, d = some m ∧ m.Decided ∧ m ≠ c.mode

/-- What a call decides. -/
theorem target_sample (c : Tq1ProxyController) (f a : ℚ) :
    (c.sample f a).target =
      if min (c.samples + 1) (2 ^ 32 - 1) < c.warmup then none
      else some (if ema c.emaFast f c.alpha ≥ ema c.emaAsym a c.alpha - c.tolerance then .hybrid else .asymmetric) :=
  rfl

theorem target_sample_eq_none_iff {c : Tq1ProxyController} {f a : ℚ} :
    (c.sample f a).target = none ↔ min (c.samples + 1) (2 ^ 32 - 1) < c.warmup := by
  rw [target_sample]
  by_cases h : min (c.samples + 1) (2 ^ 32 - 1) < c.warmup
  · rw [if_pos h]
    exact iff_of_true rfl h
  · rw [if_neg h]
    exact iff_of_false (Option.some_ne_none _) h

theorem recordShadow_of_none {c : Tq1ProxyController} {f a : ℚ} (h : (c.sample f a).target = none) :
    c.recordShadow f a = c.sample f a := by
  rw [recordShadow, reconsider, h]

theorem recordShadow_of_same {c : Tq1ProxyController} {f a : ℚ} (h : (c.sample f a).target = some c.mode) :
    c.recordShadow f a = { c.sample f a with pending := 0 } := by
  rw [recordShadow, reconsider, h]
  exact if_pos rfl

/-- A decision against the active mode, while the counter is below the hysteresis. -/
theorem recordShadow_of_other {c : Tq1ProxyController} {f a : ℚ} {m : Tq1ProxyMode}
    (h : (c.sample f a).target = some m) (hm : m ≠ c.mode) (hbyte : c.hysteresis < 2 ^ 8)
    (hbelow : c.pending < c.hysteresis) :
    c.recordShadow f a =
      if c.pending + 1 = c.hysteresis then { c.sample f a with mode := m, pending := 0 }
      else { c.sample f a with pending := c.pending + 1 } := by
  have hmod : (c.pending + 1) % 2 ^ 8 = c.pending + 1 := Nat.mod_eq_of_lt (by omega)
  rw [recordShadow, reconsider, h]
  dsimp only
  rw [if_neg (show m ≠ (c.sample f a).mode from hm), show (c.sample f a).pending = c.pending from rfl,
    show (c.sample f a).hysteresis = c.hysteresis from rfl, hmod]
  by_cases hlast : c.pending + 1 = c.hysteresis
  · rw [if_pos hlast.ge, if_pos hlast]
  · rw [if_neg (by omega), if_neg hlast]

/-- One more call. -/
theorem Streak.record {c : Tq1ProxyController} {ds : List (Option Tq1ProxyMode)} (h : c.Streak ds) (f a : ℚ) :
    (c.recordShadow f a).Streak (ds ++ [(c.sample f a).target]) := by
  obtain ⟨front, tail, hds, hlen, htail⟩ := h.last
  have hpos : 0 < c.hysteresis := Nat.lt_of_le_of_lt (Nat.zero_le _) h.below
  have hnil : ∀ mode, ∃ front' tail', ds ++ [(c.sample f a).target] = front' ++ tail' ∧ tail'.length = 0 ∧
      ∀ d ∈ tail', ∃ m, d = some m ∧ m.Decided ∧ m ≠ mode := fun mode =>
    ⟨_, [], (List.append_nil _).symm, rfl, fun d hd => absurd hd List.not_mem_nil⟩
  cases htarget : (c.sample f a).target with
  | none =>
    -- before the end of the warmup nothing has been counted
    have hcold : c.pending = 0 := by
      have hlt : min (c.samples + 1) (2 ^ 32 - 1) < c.warmup := target_sample_eq_none_iff.mp htarget
      have hword := h.word
      exact h.cold (by omega)
    rw [recordShadow_of_none htarget, ← htarget]
    refine ⟨fun _ => hcold, h.word, h.byte, h.below, ?_⟩
    obtain ⟨front', tail', heq, hlen', htail'⟩ := hnil c.mode
    exact ⟨front', tail', heq, hlen'.trans hcold.symm, htail'⟩
  | some m =>
    have hwarm : ¬(c.sample f a).samples < c.warmup := fun hlt => by
      rw [target_sample_eq_none_iff.mpr hlt] at htarget
      cases htarget
    by_cases hm : m = c.mode
    · rw [recordShadow_of_same (hm ▸ htarget), ← htarget]
      exact ⟨fun _ => rfl, h.word, h.byte, hpos, hnil c.mode⟩
    · rw [recordShadow_of_other htarget hm h.byte h.below]
      split_ifs with hlast
      · rw [← htarget]
        exact ⟨fun _ => rfl, h.word, h.byte, hpos, hnil m⟩
      · have hbelow := h.below
        refine ⟨fun hlt => absurd hlt hwarm, h.word, h.byte, show c.pending + 1 < c.hysteresis by omega,
          front, tail ++ [some m], by rw [hds, List.append_assoc], ?_, fun d hd => ?_⟩
        · rw [List.length_append, hlen]
          rfl
        · rcases List.mem_append.mp hd with hd | hd
          · exact htail d hd
          · exact ⟨m, List.mem_singleton.mp hd, decided_of_target htarget, hm⟩

/-- A change has a decision for the new mode, and the counter full. -/
theorem recordShadow_changes {c : Tq1ProxyController} {f a : ℚ} (hbyte : c.hysteresis < 2 ^ 8)
    (hbelow : c.pending < c.hysteresis) (hne : (c.recordShadow f a).mode ≠ c.mode) :
    (c.sample f a).target = some (c.recordShadow f a).mode ∧ c.pending + 1 = c.hysteresis := by
  cases htarget : (c.sample f a).target with
  | none =>
    rw [recordShadow_of_none htarget] at hne
    exact absurd rfl hne
  | some m =>
    by_cases hm : m = c.mode
    · rw [recordShadow_of_same (hm ▸ htarget)] at hne
      exact absurd rfl hne
    · rw [recordShadow_of_other htarget hm hbyte hbelow] at hne ⊢
      split_ifs at hne ⊢ with hlast
      · exact ⟨rfl, hlast⟩
      · exact absurd rfl hne

/-- From a mode that decisions can be for, all the decisions counted are for the other one. -/
theorem Streak.change {c : Tq1ProxyController} {ds : List (Option Tq1ProxyMode)} (h : c.Streak ds) {f a : ℚ}
    (hne : (c.recordShadow f a).mode ≠ c.mode) (hactive : c.mode.Decided ∨ c.hysteresis = 1) :
    List.replicate c.hysteresis (some (c.recordShadow f a).mode) <:+ ds ++ [(c.sample f a).target] := by
  obtain ⟨htarget, hfull⟩ := recordShadow_changes h.byte h.below hne
  obtain ⟨front, tail, hds, hlen, htail⟩ := h.last
  have hsame : ∀ d ∈ tail, d = some (c.recordShadow f a).mode := by
    intro d hd
    obtain ⟨m, hdm, hm, hmne⟩ := htail d hd
    rcases hactive with hactive | hone
    · rw [hdm, hactive.eq hm (decided_of_target htarget) hmne hne]
    · -- nothing has been counted
      have hnil : tail = [] := List.eq_nil_of_length_eq_zero (by omega)
      rw [hnil] at hd
      cases hd
  have hreplicate : List.replicate c.hysteresis (some (c.recordShadow f a).mode) =
      tail ++ [some (c.recordShadow f a).mode] := by
    rw [← hfull, List.replicate_succ', ← hlen, List.eq_replicate_of_mem hsame, List.length_replicate]
  rw [hds, htarget, List.append_assoc, hreplicate]
  exact List.suffix_append ..

/-! ### Hysteresis -/

/-- If the call `r` behind `calls` changes the mode, the last `hysteresis` calls were past the warmup and decided for
the new one. -/
def Agreed (c : Tq1ProxyController) (calls : List (ℚ × ℚ)) (r : ℚ × ℚ) : Prop :=
  (c.run (calls ++ [r])).mode ≠ (c.run calls).mode →
    List.replicate c.hysteresis (some (c.run (calls ++ [r])).mode) <:+ c.decisions (calls ++ [r])

/-- A call that decides otherwise than the one before it does not change the mode. -/
def Steady (c : Tq1ProxyController) (calls : List (ℚ × ℚ)) (r : ℚ × ℚ) : Prop :=
  2 ≤ c.hysteresis → ∀ d d', d ≠ d' → [d, d'] <:+ c.decisions (calls ++ [r]) →
    (c.run (calls ++ [r])).mode = (c.run calls).mode

theorem Agreed.steady {c : Tq1ProxyController} {calls : List (ℚ × ℚ)} {r : ℚ × ℚ} (h : c.Agreed calls r) :
    c.Steady calls r := by
  intro htwo d d' hne hlast
  by_contra hchange
  have hboth := h hchange
  obtain ⟨n, hn⟩ : ∃ n, c.hysteresis = n + 2 := ⟨c.hysteresis - 2, by omega⟩
  rw [hn, ← List.replicate_append_replicate] at hboth
  have hpair : [d, d'] = List.replicate 2 (some (c.run (calls ++ [r])).mode) :=
    (List.suffix_of_suffix_length_le hlast ((List.suffix_append ..).trans hboth) (Nat.le_refl 2)).eq_of_length rfl
  cases hpair
  exact hne rfl

/-- A controller with its policy. -/
def start (prior : Tq1ProxyMode) (tolerance : ℚ) (warmup : UInt32) (hysteresis : UInt8) : Tq1ProxyController :=
  (new prior).withPolicy tolerance warmup hysteresis

section

variable (prior : Tq1ProxyMode) (tolerance : ℚ) (warmup : UInt32) (hysteresis : UInt8)

theorem run_hysteresis (c : Tq1ProxyController) (calls : List (ℚ × ℚ)) : (c.run calls).hysteresis = c.hysteresis := by
  induction calls using List.reverseRecOn with
  | nil => rfl
  | append_singleton calls r ih =>
    rw [run_snoc, recordShadow, reconsider, ← ih]
    split
    · rfl
    · dsimp only
      split_ifs <;> rfl

theorem streak_run (calls : List (ℚ × ℚ)) :
    ((start prior tolerance warmup hysteresis).run calls).Streak
      ((start prior tolerance warmup hysteresis).decisions calls) := by
  induction calls using List.reverseRecOn with
  | nil =>
    refine ⟨fun _ => rfl, warmup.toNat_lt, ?_, ?_, [], [], rfl, rfl, fun d hd => absurd hd List.not_mem_nil⟩
    · exact Nat.max_lt.mpr ⟨hysteresis.toNat_lt, by decide⟩
    · exact Nat.lt_of_lt_of_le Nat.zero_lt_one (Nat.le_max_right ..)
  | append_singleton calls r ih =>
    rw [run_snoc, decisions_snoc]
    exact ih.record r.1 r.2

/-- A change from a mode that decisions can be for. -/
theorem agreed_of_decided (calls : List (ℚ × ℚ)) (r : ℚ × ℚ)
    (h : ((start prior tolerance warmup hysteresis).run calls).mode.Decided ∨
      (start prior tolerance warmup hysteresis).hysteresis = 1) :
    (start prior tolerance warmup hysteresis).Agreed calls r := by
  intro hchange
  have hstreak := streak_run prior tolerance warmup hysteresis calls
  rw [run_snoc] at hchange ⊢
  rw [decisions_snoc, ← run_hysteresis _ calls]
  refine hstreak.change hchange ?_
  rw [run_hysteresis]
  exact h

/-- The active mode stays one that decisions can be for. -/
theorem decided_run {c : Tq1ProxyController} (h : c.mode.Decided) (calls : List (ℚ × ℚ)) :
    (c.run calls).mode.Decided := by
  induction calls using List.reverseRecOn with
  | nil => exact h
  | append_singleton calls r ih =>
    rw [run_snoc, recordShadow, reconsider]
    split
    · exact ih
    · rename_i m hm
      dsimp only
      split_ifs
      · exact ih
      · exact decided_of_target hm
      · exact ih

/-! ### A prior that no decision is for -/

/-- A controller that has only seen the fast proxy fall short by more than the tolerance, `k` times. -/
structure Lowered (c : Tq1ProxyController) (k : Nat) : Prop where
  mode_eq : c.mode = prior
  tolerance_eq : c.tolerance = tolerance
  alpha_eq : c.alpha = 1 / 5
  warmup_eq : c.warmup = warmup.toNat
  hysteresis_eq : c.hysteresis = max hysteresis.toNat 1
  samples_eq : c.samples = min k (2 ^ 32 - 1)
  fast : ∀ p ∈ c.emaFast, p = -(tolerance + 1)
  asym : ∀ p ∈ c.emaAsym, p = 0
  pending_eq : c.pending = k - (warmup.toNat - 1)

theorem ema_const {prev : Option ℚ} {x : ℚ} (h : ∀ p ∈ prev, p = x) (alpha : ℚ) : ema prev x alpha = x := by
  cases prev with
  | none => rfl
  | some p =>
    rw [ema, h p rfl]
    ring

variable {prior tolerance warmup hysteresis}

/-- It decides for the asymmetric proxy once it is past the warmup. -/
theorem Lowered.target {c : Tq1ProxyController} {k : Nat} (h : Lowered prior tolerance warmup hysteresis c k) :
    (c.sample (-(tolerance + 1)) 0).target = if k + 1 < warmup.toNat then none else some .asymmetric := by
  have hword : warmup.toNat < 2 ^ 32 := warmup.toNat_lt
  have hsamples : min (c.samples + 1) (2 ^ 32 - 1) < c.warmup ↔ k + 1 < warmup.toNat := by
    rw [h.samples_eq, h.warmup_eq]
    omega
  rw [target_sample, ema_const h.fast, ema_const h.asym, h.tolerance_eq,
    if_neg (show ¬-(tolerance + 1) ≥ 0 - tolerance by linarith)]
  exact if_congr hsamples rfl rfl

theorem Lowered.record (hprior : ¬prior.Decided) {c : Tq1ProxyController} {k : Nat}
    (h : Lowered prior tolerance warmup hysteresis c k) (hk : k + 1 < warmup.toNat - 1 + hysteresis.toNat) :
    Lowered prior tolerance warmup hysteresis (c.recordShadow (-(tolerance + 1)) 0) (k + 1) := by
  have hsamples : min (min k (2 ^ 32 - 1) + 1) (2 ^ 32 - 1) = min (k + 1) (2 ^ 32 - 1) := by omega
  have hsample : ∀ n, n = k + 1 - (warmup.toNat - 1) → Lowered prior tolerance warmup hysteresis
      { c.sample (-(tolerance + 1)) 0 with pending := n } (k + 1) := fun n hn =>
    ⟨h.mode_eq, h.tolerance_eq, h.alpha_eq, h.warmup_eq, h.hysteresis_eq, by rw [← hsamples, ← h.samples_eq]; rfl,
      fun p hp => by rw [← Option.some.inj hp, ema_const h.fast],
      fun p hp => by rw [← Option.some.inj hp, ema_const h.asym], hn⟩
  have hpending := h.pending_eq
  have htarget := h.target
  by_cases hcold : k + 1 < warmup.toNat
  · rw [if_pos hcold] at htarget
    rw [recordShadow_of_none htarget]
    exact hsample c.pending (by omega)
  · rw [if_neg hcold] at htarget
    have hother : Tq1ProxyMode.asymmetric ≠ c.mode := by
      rw [h.mode_eq]
      rintro rfl
      exact hprior (.inr rfl)
    have hhyst := h.hysteresis_eq
    have hbyte : hysteresis.toNat < 2 ^ 8 := hysteresis.toNat_lt
    rw [recordShadow_of_other htarget hother (by omega) (by omega), if_neg (by omega)]
    exact hsample (c.pending + 1) (by omega)

theorem lowered_run (hprior : ¬prior.Decided) {k : Nat} (hk : k < warmup.toNat - 1 + hysteresis.toNat) :
    Lowered prior tolerance warmup hysteresis
      ((start prior tolerance warmup hysteresis).run (List.replicate k (-(tolerance + 1), 0))) k := by
  induction k with
  | zero =>
    have hnone : ∀ x : ℚ, ∀ p ∈ (none : Option ℚ), p = x := fun x p hp => absurd hp (Option.not_mem_none p)
    exact ⟨rfl, rfl, rfl, rfl, rfl, rfl, hnone _, hnone _, (Nat.zero_sub _).symm⟩
  | succ k ih =>
    rw [List.replicate_succ', run_snoc]
    exact (ih (by omega)).record hprior hk

/-- Decisions for both modes count together: the mode changes on a decision unlike the one before it. -/
theorem changes_while_alternating (tolerance : ℚ) (warmup : UInt32) (hprior : ¬prior.Decided)
    (htwo : 2 ≤ hysteresis.toNat) :
    ∃ calls r, ((start prior tolerance warmup hysteresis).run calls).mode = prior ∧
      ((start prior tolerance warmup hysteresis).run (calls ++ [r])).mode = .hybrid ∧
        [some .asymmetric, some .hybrid] <:+ (start prior tolerance warmup hysteresis).decisions (calls ++ [r]) := by
  obtain ⟨n, hn⟩ : ∃ n, n + 1 = warmup.toNat - 1 + (hysteresis.toNat - 1) :=
    ⟨warmup.toNat - 1 + (hysteresis.toNat - 1) - 1, by omega⟩
  have hrun : ∀ k, k < warmup.toNat - 1 + hysteresis.toNat → Lowered prior tolerance warmup hysteresis _ k :=
    fun k hk => lowered_run hprior hk
  have hbefore := hrun n (by omega)
  have hlow := hrun (n + 1) (by omega)
  generalize hcalls : List.replicate (n + 1) (-(tolerance + 1), (0 : ℚ)) = calls at hlow
  -- one good sample brings the average of the fast proxy back to the tolerance
  have hfast : ∀ prev : Option ℚ, (∀ p ∈ prev, p = -(tolerance + 1)) →
      ema prev (4 - tolerance) (1 / 5) ≥ 0 - tolerance := by
    intro prev hprev
    cases prev with
    | none =>
      rw [ema]
      linarith
    | some p =>
      rw [ema, hprev p rfl]
      linarith
  have htarget : (((start prior tolerance warmup hysteresis).run calls).sample (4 - tolerance) 0).target =
      some .hybrid := by
    have hword : warmup.toNat < 2 ^ 32 := warmup.toNat_lt
    rw [target_sample, ema_const hlow.asym, hlow.tolerance_eq, hlow.alpha_eq, hlow.samples_eq, hlow.warmup_eq,
      if_neg (by omega), if_pos (hfast _ hlow.fast)]
  have hother : Tq1ProxyMode.hybrid ≠ ((start prior tolerance warmup hysteresis).run calls).mode := by
    rw [hlow.mode_eq]
    rintro rfl
    exact hprior (.inl rfl)
  have hpending := hlow.pending_eq
  have hhyst := hlow.hysteresis_eq
  have hbyte : hysteresis.toNat < 2 ^ 8 := hysteresis.toNat_lt
  refine ⟨calls, (4 - tolerance, 0), hlow.mode_eq, ?_, ?_⟩
  · rw [run_snoc, recordShadow_of_other htarget hother (by omega) (by omega), if_pos (by omega)]
  · rw [decisions_snoc, htarget, ← hcalls, List.replicate_succ', decisions_snoc, hbefore.target, if_neg (by omega),
      List.append_assoc]
    exact List.suffix_append ..

end

/-- **Hysteresis of the proxy controller.**  A change from a mode that a decision can be for has the last `hysteresis`
decisions behind it.  So has every change, and alternating decisions never cause one, exactly when the prior is such a
mode or a single decision is enough. -/
theorem hysteretic_iff (prior : Tq1ProxyMode) (tolerance : ℚ) (warmup : UInt32) (hysteresis : UInt8)
    (hpos : 1 ≤ hysteresis.toNat) :
    (∀ calls r, ((start prior tolerance warmup hysteresis).run calls).mode.Decided →
        (start prior tolerance warmup hysteresis).Agreed calls r) ∧
      ((∀ calls r, (start prior tolerance warmup hysteresis).Agreed calls r ∧
          (start prior tolerance warmup hysteresis).Steady calls r) ↔
        prior.Decided ∨ hysteresis.toNat = 1) := by
  have hhyst : (start prior tolerance warmup hysteresis).hysteresis = hysteresis.toNat := Nat.max_eq_left hpos
  refine ⟨fun calls r h => agreed_of_decided prior tolerance warmup hysteresis calls r (.inl h), fun h => ?_, ?_⟩
  · by_contra hnot
    obtain ⟨hprior, hone⟩ := not_or.mp hnot
    obtain ⟨calls, r, hmode, hnew, hlast⟩ :=
      changes_while_alternating tolerance warmup hprior (show 2 ≤ hysteresis.toNat by omega)
    have hsteady := (h calls r).2 (by omega) _ _ (by decide) hlast
    rw [hnew, hmode] at hsteady
    exact hprior (.inl hsteady.symm)
  · intro h calls r
    have hagreed : (start prior tolerance warmup hysteresis).Agreed calls r := by
      refine agreed_of_decided prior tolerance warmup hysteresis calls r (h.imp (fun hprior => ?_) hhyst.trans)
      exact decided_run hprior calls
    exact ⟨hagreed, hagreed.steady⟩

/-- The default policy, from the hybrid prior. -/
theorem hysteretic_default :
    1 ≤ (3 : UInt8).toNat ∧
      ∀ calls r, (start .hybrid (1 / 100) 20 3).Agreed calls r ∧ (start .hybrid (1 / 100) 20 3).Steady calls r :=
  ⟨by decide, (hysteretic_iff .hybrid (1 / 100) 20 3 (by decide)).2.mpr (.inl (.inl rfl))⟩

/-- From the popcount prior, a decision for the asymmetric proxy and one for the hybrid change the mode. -/
theorem popcount_prior_changes :
    ((start .popcount 0 0 2).run [(0, 1)]).mode = .popcount ∧
      ((start .popcount 0 0 2).run [(0, 1), (5, 1)]).mode = .hybrid ∧
        (start .popcount 0 0 2).decisions [(0, 1), (5, 1)] = [some .asymmetric, some .hybrid] ∧
          ¬(start .popcount 0 0 2).Agreed [(0, 1)] (5, 1) ∧ ¬(start .popcount 0 0 2).Steady [(0, 1)] (5, 1) := by
  have hbefore : ((start .popcount 0 0 2).run [(0, 1)]).mode = .popcount := by decide +kernel
  have hafter : ((start .popcount 0 0 2).run [(0, 1), (5, 1)]).mode = .hybrid := by decide +kernel
  have hdecisions : (start .popcount 0 0 2).decisions [(0, 1), (5, 1)] = [some .asymmetric, some .hybrid] := by
    decide +kernel
  have hsteady : ¬(start .popcount 0 0 2).Steady [(0, 1)] (5, 1) := by
    intro h
    have hsame := h (by decide) (some .asymmetric) (some .hybrid) (by decide) ⟨[], hdecisions.symm⟩
    rw [hbefore, List.singleton_append, hafter] at hsame
    cases hsame
  exact ⟨hbefore, hafter, hdecisions, fun h => hsteady h.steady, hsteady⟩

end Tq1ProxyController

end Vector

end Skeg
