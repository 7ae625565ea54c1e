import Mathlib.Data.Set.Card
import Mathlib.Data.Finset.Filter
import Mathlib.Tactic.Common

/-!
# Layered maps with a write-ahead log

A map in layers: a base, runs over it, a staged batch on its way to becoming a run, a delta, and a set of
dead keys that masks all of them.  A log holds the operations since the base was written; replayed over
the base it gives the map back.

`Inv` ties the layers to the log.  Writes keep it and change the map as a write should (`Inv.apply`,
`view_apply`); maintenance keeps it and does not change the map.  A background job is started in one
state and takes effect in a later one: `JobOk` says what must still be true of its result then, and it
survives the writes in between (`JobOk.apply`).
-/

namespace Lsm

variable {K V : Type*} [DecidableEq K]

/-! ### Logs -/

inductive Op (K V : Type*) where
  | put (k : K) (v : V)
  | del (k : K)

namespace Op

def key : Op K V → K
  | put k _ => k
  | del k => k

def value : Op K V → Option V
  | put _ v => some v
  | del _ => none

end Op

/-- The map the operations make of `m`. -/
def replay (ops : List (Op K V)) (m : K → Option V) : K → Option V :=
  ops.foldl (fun m op => Function.update m op.key op.value) m

@[simp] theorem replay_nil (m : K → Option V) : replay [] m = m := rfl

theorem replay_append (ops ops' : List (Op K V)) (m : K → Option V) :
    replay (ops ++ ops') m = replay ops' (replay ops m) := List.foldl_append

theorem replay_concat (ops : List (Op K V)) (op : Op K V) (m : K → Option V) :
    replay (ops ++ [op]) m = Function.update (replay ops m) op.key op.value := replay_append ..

/-- A key that no operation names keeps its value. -/
theorem replay_of_not_mem {ops : List (Op K V)} {k : K} (h : k ∉ ops.map Op.key)
    (m : K → Option V) : replay ops m k = m k := by
  induction ops using List.reverseRecOn with
  | nil => rfl
  | append_singleton ops op ih =>
    simp only [List.map_append, List.map_cons, List.map_nil, List.mem_append, List.mem_singleton,
      not_or] at h
    rw [replay_concat, Function.update_of_ne h.2, ih h.1]

/-- The value of a key that some operation names does not depend on the map below. -/
theorem replay_of_mem {ops : List (Op K V)} {k : K} (h : k ∈ ops.map Op.key) (m m' : K → Option V) :
    replay ops m k = replay ops m' k := by
  induction ops using List.reverseRecOn with
  | nil => cases h
  | append_singleton ops op ih =>
    rw [replay_concat, replay_concat]
    by_cases hk : k = op.key
    · rw [hk, Function.update_self, Function.update_self]
    · rw [Function.update_of_ne hk, Function.update_of_ne hk]
      simp only [List.map_append, List.map_cons, List.map_nil, List.mem_append,
        List.mem_singleton] at h
      exact ih (h.resolve_right hk)

/-! ### Layers -/

structure State (K V : Type*) where
  dead : Finset K
  delta : K → Option V
  staged : K → Option V
  runs : K → Option V
  base : K → Option V
  /-- The operations since the base was written. -/
  log : List (Op K V)
  /-- The number of keys the map has. -/
  count : Nat

namespace State

/-- The newest copy above the base. -/
def newer (s : State K V) (k : K) : Option V := (s.delta k).or ((s.staged k).or (s.runs k))

/-- The map: what is dead is not there, and newer layers win. -/
def view (s : State K V) (k : K) : Option V := if k ∈ s.dead then none else (s.newer k).or (s.base k)

def put (s : State K V) (k : K) (v : V) : State K V :=
  { s with
    dead := s.dead.erase k
    delta := Function.update s.delta k (some v)
    log := s.log ++ [.put k v]
    count := if (s.view k).isSome then s.count else s.count + 1 }

def del (s : State K V) (k : K) : State K V :=
  { s with
    dead := insert k s.dead
    delta := Function.update s.delta k none
    staged := Function.update s.staged k none
    log := s.log ++ [.del k]
    count := if (s.view k).isSome then s.count - 1 else s.count }

def apply (s : State K V) : Op K V → State K V
  | .put k v => s.put k v
  | .del k => s.del k

def applyAll (s : State K V) (ops : List (Op K V)) : State K V := ops.foldl apply s

/-- Nothing but a base with `n` keys. -/
def fresh (base : K → Option V) (n : Nat) : State K V :=
  ⟨∅, fun _ => none, fun _ => none, fun _ => none, base, [], n⟩

end State

variable {s : State K V}

theorem view_of_dead {k : K} (h : k ∈ s.dead) : s.view k = none := if_pos h

theorem view_of_alive {k : K} (h : k ∉ s.dead) : s.view k = (s.newer k).or (s.base k) := if_neg h

/-- A change of the layers that masks nothing else. -/
theorem view_congr {s' : State K V} (hdead : s'.dead = s.dead)
    (h : ∀ k, k ∉ s.dead → (s'.newer k).or (s'.base k) = (s.newer k).or (s.base k)) :
    s'.view = s.view := by
  funext k
  by_cases hk : k ∈ s.dead
  · rw [view_of_dead hk, view_of_dead (hdead ▸ hk)]
  · rw [view_of_alive hk, view_of_alive (hdead ▸ hk), h k hk]

structure Inv (s : State K V) : Prop where
  delta : ∀ k ∈ s.dead, s.delta k = none
  staged : ∀ k ∈ s.dead, s.staged k = none
  /-- Whatever differs from the base is in the log. -/
  logged : ∀ k, k ∈ s.dead ∨ s.newer k ≠ none → k ∈ s.log.map Op.key
  replay : replay s.log s.base = s.view
  count : {k | s.view k ≠ none}.encard = s.count

theorem view_fresh (base : K → Option V) (n : Nat) : (State.fresh base n).view = base := by
  funext k
  simp [State.fresh, State.view, State.newer]

theorem inv_fresh {base : K → Option V} {n : Nat} (h : {k | base k ≠ none}.encard = n) :
    Inv (State.fresh base n) where
  delta _ _ := rfl
  staged _ _ := rfl
  logged k hk := by simp [State.fresh, State.newer] at hk
  replay := (view_fresh base n).symm
  count := by rw [view_fresh]; exact h

/-! ### Writes -/

theorem view_put (s : State K V) (k : K) (v : V) :
    (s.put k v).view = Function.update s.view k (some v) := by
  funext k'
  by_cases hk : k' = k
  · subst hk
    simp [State.view, State.put, State.newer]
  · simp [State.view, State.put, State.newer, hk]

theorem view_del (s : State K V) (k : K) : (s.del k).view = Function.update s.view k none := by
  funext k'
  by_cases hk : k' = k
  · subst hk
    simp [State.view, State.del]
  · simp [State.view, State.del, State.newer, hk]

theorem view_apply (s : State K V) (op : Op K V) :
    (s.apply op).view = Function.update s.view op.key op.value := by
  cases op with
  | put k v => exact view_put s k v
  | del k => exact view_del s k

theorem log_apply (s : State K V) (op : Op K V) : (s.apply op).log = s.log ++ [op] := by
  cases op <;> rfl

theorem base_apply (s : State K V) (op : Op K V) : (s.apply op).base = s.base := by
  cases op <;> rfl

theorem runs_apply (s : State K V) (op : Op K V) : (s.apply op).runs = s.runs := by
  cases op <;> rfl

/-- Setting a key changes the number of keys by at most one. -/
theorem encard_update {m : K → Option V} {n : Nat} (h : {k | m k ≠ none}.encard = n) (k : K)
    (o : Option V) : {k' | Function.update m k o k' ≠ none}.encard =
      ((if o.isSome then if (m k).isSome then n else n + 1
        else if (m k).isSome then n - 1 else n : Nat) : ℕ∞) := by
  cases o with
  | none =>
    have hset : {k' | Function.update m k none k' ≠ none} = {k' | m k' ≠ none} \ {k} := by
      ext k'
      by_cases hk : k' = k
      · subst hk
        simp
      · simp [hk]
    rw [hset]
    cases hm : m k with
    | none =>
      rw [Set.sdiff_singleton_eq_self (by simpa using hm), h]
      rfl
    | some v =>
      have hmem : k ∈ {k' | m k' ≠ none} := by simp [hm]
      have hadd := Set.encard_sdiff_singleton_add_one hmem
      rw [h] at hadd
      have hfin : ({k' | m k' ≠ none} \ {k}).encard ≠ ⊤ := by
        intro htop
        rw [htop] at hadd
        exact ENat.natCast_ne_top n hadd.symm
      obtain ⟨c, hc⟩ := ENat.ne_top_iff_exists.mp hfin
      rw [← hc] at hadd ⊢
      norm_cast at hadd
      simp [← hadd]
  | some v =>
    have hset : {k' | Function.update m k (some v) k' ≠ none} = insert k {k' | m k' ≠ none} := by
      ext k'
      by_cases hk : k' = k
      · subst hk
        simp
      · simp [hk]
    rw [hset]
    cases hm : m k with
    | none =>
      rw [Set.encard_insert_of_notMem (by simpa using hm), h]
      rfl
    | some w =>
      rw [Set.insert_eq_of_mem (show k ∈ {k' | m k' ≠ none} by simp [hm]), h]
      rfl

theorem count_apply (s : State K V) (op : Op K V) : (s.apply op).count =
    if op.value.isSome then if (s.view op.key).isSome then s.count else s.count + 1
      else if (s.view op.key).isSome then s.count - 1 else s.count := by
  cases op <;> rfl

theorem Inv.apply (h : Inv s) (op : Op K V) : Inv (s.apply op) where
  delta k hk := by
    cases op with
    | put j v =>
      obtain ⟨hne, hk⟩ := Finset.mem_erase.mp hk
      simpa [State.apply, State.put, hne] using h.delta k hk
    | del j =>
      by_cases hj : k = j
      · simp [State.apply, State.del, hj]
      · simpa [State.apply, State.del, hj] using
          h.delta k ((Finset.mem_insert.mp hk).resolve_left hj)
  staged k hk := by
    cases op with
    | put j v => exact h.staged k (Finset.mem_erase.mp hk).2
    | del j =>
      by_cases hj : k = j
      · simp [State.apply, State.del, hj]
      · simpa [State.apply, State.del, hj] using
          h.staged k ((Finset.mem_insert.mp hk).resolve_left hj)
  logged k hk := by
    rw [log_apply, List.map_append, List.mem_append]
    by_cases hj : k = op.key
    · exact .inr (by simp [hj])
    · refine .inl (h.logged k ?_)
      cases op with
      | put j v =>
        have hj : k ≠ j := hj
        simpa [State.apply, State.put, State.newer, hj] using hk
      | del j =>
        have hj : k ≠ j := hj
        simpa [State.apply, State.del, State.newer, hj] using hk
  replay := by rw [log_apply, base_apply, replay_concat, h.replay, view_apply]
  count := by
    rw [view_apply, count_apply]
    exact encard_update h.count op.key op.value

theorem Inv.applyAll (h : Inv s) (ops : List (Op K V)) : Inv (s.applyAll ops) := by
  induction ops generalizing s with
  | nil => exact h
  | cons op ops ih => exact ih (h.apply op)

theorem view_applyAll (s : State K V) (ops : List (Op K V)) :
    (s.applyAll ops).view = Lsm.replay ops s.view := by
  induction ops generalizing s with
  | nil => rfl
  | cons op ops ih =>
    rw [State.applyAll, List.foldl_cons, ← State.applyAll, ih, view_apply]
    rfl

theorem staged_apply (h : s.staged = fun _ => none) (op : Op K V) :
    (s.apply op).staged = fun _ => none := by
  cases op with
  | put k v => exact h
  | del k => simp [State.apply, State.del, h]

theorem staged_applyAll (h : s.staged = fun _ => none) (ops : List (Op K V)) :
    (s.applyAll ops).staged = fun _ => none := by
  induction ops generalizing s with
  | nil => exact h
  | cons op ops ih => exact ih (staged_apply h op)

/-! ### Maintenance -/

namespace State

/-- The delta becomes the staged batch. -/
def stage (s : State K V) : State K V := { s with staged := s.delta, delta := fun _ => none }

/-- The delta becomes the newest run. -/
def flush (s : State K V) : State K V :=
  { s with runs := fun k => (s.delta k).or (s.runs k), delta := fun _ => none }

/-- A batch becomes the newest run, in the place of the staged one. -/
def pushRun (s : State K V) (batch : K → Option V) : State K V :=
  { s with runs := fun k => (batch k).or (s.runs k), staged := fun _ => none }

def replaceRuns (s : State K V) (merged : K → Option V) : State K V := { s with runs := merged }

def replaceBase (s : State K V) (kept : K → Option V) (dead : Finset K) : State K V :=
  { s with base := kept, dead := dead }

/-- A base of `n` keys, with the operations from `mark` on replayed over it. -/
def refold (s : State K V) (folded : K → Option V) (n mark : Nat) : State K V :=
  (fresh folded n).applyAll (s.log.drop mark)

end State

/-- A background job with its result. -/
inductive Job (K V : Type*) where
  | flush (batch : K → Option V)
  | merge (merged : K → Option V)
  | fold (folded : K → Option V) (n mark : Nat)
  | patch (kept : K → Option V)

/-- The job can take effect without changing the map. -/
def JobOk (s : State K V) : Job K V → Prop
  | .flush batch => (∀ k, k ∉ s.dead → s.delta k = none → batch k = s.staged k) ∧
      ∀ k, batch k ≠ none → k ∈ s.log.map Op.key
  | .merge merged =>
      (∀ k, k ∉ s.dead → s.delta k = none → s.staged k = none → merged k = s.runs k) ∧
        ∀ k, merged k ≠ none → s.runs k ≠ none
  | .fold folded n mark => s.staged = (fun _ => none) ∧ mark ≤ s.log.length ∧
      replay (s.log.drop mark) folded = s.view ∧ {k | folded k ≠ none}.encard = n
  | .patch kept => ∀ k, kept k = s.base k ∨ kept k = none ∧ (k ∈ s.dead ∨ s.newer k ≠ none)

/-- Writes that race with a job do not disturb it. -/
theorem JobOk.apply {job : Job K V} (h : JobOk s job) (op : Op K V) : JobOk (s.apply op) job := by
  cases job with
  | flush batch =>
    refine ⟨fun k hk hd => ?_, fun k hk => ?_⟩
    · cases op with
      | put j v =>
        by_cases hj : k = j
        · simp [State.apply, State.put, hj] at hd
        · simp only [State.apply, State.put, Finset.mem_erase, ne_eq, hj, not_false_eq_true, true_and,
            Function.update_of_ne] at hk hd ⊢
          exact h.1 k hk hd
      | del j =>
        have hj : k ≠ j := by
          rintro rfl
          exact hk (Finset.mem_insert_self ..)
        simp only [State.apply, State.del, Finset.mem_insert, hj, false_or, ne_eq, not_false_eq_true,
          Function.update_of_ne] at hk hd ⊢
        exact h.1 k hk hd
    · rw [log_apply, List.map_append]
      exact List.mem_append_left _ (h.2 k hk)
  | merge merged =>
    refine ⟨fun k hk hd hs => ?_, fun k hk => ?_⟩
    · rw [runs_apply]
      cases op with
      | put j v =>
        by_cases hj : k = j
        · simp [State.apply, State.put, hj] at hd
        · simp only [State.apply, State.put, Finset.mem_erase, ne_eq, hj, not_false_eq_true, true_and,
            Function.update_of_ne] at hk hd hs
          exact h.1 k hk hd hs
      | del j =>
        have hj : k ≠ j := by
          rintro rfl
          exact hk (Finset.mem_insert_self ..)
        simp only [State.apply, State.del, Finset.mem_insert, hj, false_or, ne_eq, not_false_eq_true,
          Function.update_of_ne] at hk hd hs
        exact h.1 k hk hd hs
    · rw [runs_apply]
      exact h.2 k hk
  | fold folded n mark =>
    obtain ⟨hst, hmark, hview, hn⟩ := h
    refine ⟨?_, ?_, ?_, hn⟩
    · exact staged_apply hst op
    · rw [log_apply, List.length_append]
      omega
    · rw [log_apply, List.drop_append_of_le_length hmark, replay_concat, hview, view_apply]
  | patch kept =>
    intro k
    rw [base_apply]
    refine (h k).imp id fun hdead => ⟨hdead.1, ?_⟩
    cases op with
    | put j v =>
      by_cases hj : k = j
      · exact .inr (by simp [State.apply, State.put, State.newer, hj])
      · simpa [State.apply, State.put, State.newer, hj] using hdead.2
    | del j =>
      by_cases hj : k = j
      · exact .inl (by simp [State.apply, State.del, hj])
      · simpa [State.apply, State.del, State.newer, hj] using hdead.2

/-! ### Jobs when they begin -/

theorem Inv.jobOk_flush (h : Inv s) : JobOk s (.flush s.staged) :=
  ⟨fun _ _ _ => rfl, fun k hk => h.logged k (.inr (by
    simp only [State.newer, ne_eq, Option.or_eq_none_iff, not_and]
    exact fun _ hst => absurd hst hk))⟩

theorem jobOk_merge {merged : K → Option V}
    (h : ∀ k, merged k = if k ∈ s.dead then none else s.runs k) : JobOk s (.merge merged) := by
  refine ⟨fun k hk _ _ => by rw [h, if_neg hk], fun k hk => ?_⟩
  rw [h] at hk
  split at hk
  · exact absurd rfl hk
  · exact hk

theorem Inv.jobOk_fold (h : Inv s) (hst : s.staged = fun _ => none) {folded : K → Option V} {n : Nat}
    (hf : folded = s.view) (hn : n = s.count) : JobOk s (.fold folded n s.log.length) :=
  ⟨hst, Nat.le_refl _, by rw [List.drop_length, hf]; rfl, by rw [hf, hn]; exact h.count⟩

theorem jobOk_patch {kept : K → Option V}
    (h : ∀ k, kept k = if k ∈ s.dead ∨ s.newer k ≠ none then none else s.base k) :
    JobOk s (.patch kept) := by
  intro k
  rw [h]
  split
  · exact .inr ⟨rfl, ‹_›⟩
  · exact .inl rfl

/-! ### Taking effect -/

/-- A change that leaves the map, the log and the base alone, and loses no trace of what is newer than
the base. -/
theorem Inv.of_same {s' : State K V} (h : Inv s) (hview : s'.view = s.view) (hlog : s'.log = s.log)
    (hbase : s'.base = s.base) (hcount : s'.count = s.count) (hdead : s'.dead = s.dead)
    (hdelta : ∀ k ∈ s.dead, s'.delta k = none) (hstaged : ∀ k ∈ s.dead, s'.staged k = none)
    (hnewer : ∀ k, s'.newer k ≠ none → k ∈ s.log.map Op.key) : Inv s' where
  delta k hk := hdelta k (hdead ▸ hk)
  staged k hk := hstaged k (hdead ▸ hk)
  logged k hk := by
    rw [hlog]
    rcases hk with hk | hk
    · exact h.logged k (.inl (hdead ▸ hk))
    · exact hnewer k hk
  replay := by rw [hlog, hbase, hview, h.replay]
  count := by rw [hview, hcount, h.count]

theorem view_stage (hst : s.staged = fun _ => none) : s.stage.view = s.view :=
  view_congr rfl fun k _ => by simp [State.newer, State.stage, hst]

theorem Inv.stage (h : Inv s) (hst : s.staged = fun _ => none) : Inv s.stage := by
  refine h.of_same (view_stage hst) rfl rfl rfl rfl (fun _ _ => rfl) h.delta fun k hk => ?_
  refine h.logged k (.inr ?_)
  simpa [State.newer, State.stage, hst] using hk

theorem view_flush (hst : s.staged = fun _ => none) : s.flush.view = s.view :=
  view_congr rfl fun k _ => by simp [State.newer, State.flush, hst]

theorem Inv.flush (h : Inv s) (hst : s.staged = fun _ => none) : Inv s.flush := by
  refine h.of_same (view_flush hst) rfl rfl rfl rfl (fun _ _ => rfl) h.staged fun k hk => ?_
  refine h.logged k (.inr ?_)
  simpa [State.newer, State.flush, hst] using hk

theorem view_pushRun {batch : K → Option V} (hjob : JobOk s (.flush batch)) :
    (s.pushRun batch).view = s.view := by
  refine view_congr rfl fun k hk => ?_
  cases hd : s.delta k with
  | some v => simp [State.newer, State.pushRun, hd]
  | none => simp [State.newer, State.pushRun, hd, hjob.1 k hk hd]

theorem Inv.pushRun (h : Inv s) {batch : K → Option V} (hjob : JobOk s (.flush batch)) :
    Inv (s.pushRun batch) := by
  refine h.of_same (view_pushRun hjob) rfl rfl rfl rfl h.delta (fun _ _ => rfl) fun k hk => ?_
  by_cases hb : batch k = none
  · refine h.logged k (.inr ?_)
    simp only [State.newer, State.pushRun, hb, Option.none_or, ne_eq, Option.or_eq_none_iff,
      not_and] at hk ⊢
    exact fun hd _ => hk hd
  · exact hjob.2 k hb

theorem view_replaceRuns {merged : K → Option V} (hjob : JobOk s (.merge merged)) :
    (s.replaceRuns merged).view = s.view := by
  refine view_congr rfl fun k hk => ?_
  cases hd : s.delta k with
  | some v => simp [State.newer, State.replaceRuns, hd]
  | none =>
    cases hs : s.staged k with
    | some v => simp [State.newer, State.replaceRuns, hd, hs]
    | none => simp [State.newer, State.replaceRuns, hd, hs, hjob.1 k hk hd hs]

theorem Inv.replaceRuns (h : Inv s) {merged : K → Option V} (hjob : JobOk s (.merge merged)) :
    Inv (s.replaceRuns merged) := by
  refine h.of_same (view_replaceRuns hjob) rfl rfl rfl rfl h.delta h.staged fun k hk => ?_
  refine h.logged k (.inr fun hnone => hk ?_)
  simp only [State.newer, State.replaceRuns, Option.or_eq_none_iff] at hnone ⊢
  exact ⟨hnone.1, hnone.2.1, by_contra fun hm => hjob.2 k hm hnone.2.2⟩

/-- The dead keys that stay are those that still mask something. -/
structure Masks (s : State K V) (kept : K → Option V) (dead : Finset K) : Prop where
  subset : dead ⊆ s.dead
  gone : ∀ k ∈ s.dead, k ∉ dead → kept k = none ∧ s.runs k = none

theorem view_replaceBase (h : Inv s) {kept : K → Option V} {dead : Finset K}
    (hjob : JobOk s (.patch kept)) (hm : Masks s kept dead) :
    (s.replaceBase kept dead).view = s.view := by
  funext k
  have hnewer : (s.replaceBase kept dead).newer k = s.newer k := rfl
  by_cases hk : k ∈ s.dead
  · rw [view_of_dead hk]
    by_cases hk' : k ∈ dead
    · exact view_of_dead hk'
    · obtain ⟨h1, h2⟩ := hm.gone k hk hk'
      rw [view_of_alive hk', hnewer]
      simp [State.newer, State.replaceBase, h1, h2, h.delta k hk, h.staged k hk]
  · rw [view_of_alive hk, view_of_alive fun h => hk (hm.subset h), hnewer]
    rcases hjob k with hb | ⟨hb, hdead | hn⟩
    · exact congrArg _ hb
    · exact absurd hdead hk
    · obtain ⟨v, hv⟩ := Option.ne_none_iff_exists'.mp hn
      rw [hv]
      rfl

theorem Inv.replaceBase (h : Inv s) {kept : K → Option V} {dead : Finset K}
    (hjob : JobOk s (.patch kept)) (hm : Masks s kept dead) : Inv (s.replaceBase kept dead) where
  delta k hk := h.delta k (hm.subset hk)
  staged k hk := h.staged k (hm.subset hk)
  logged k hk := h.logged k (hk.imp (fun hk => hm.subset hk) id)
  replay := by
    rw [view_replaceBase h hjob hm, ← h.replay]
    funext k
    -- a key the patch took from the base is in the log, so the base does not matter
    by_cases hk : k ∈ s.log.map Op.key
    · exact replay_of_mem hk ..
    · have hnot : ¬ (k ∈ s.dead ∨ s.newer k ≠ none) := fun h' => hk (h.logged k h')
      have hkept : kept k = s.base k := (hjob k).resolve_right fun h' => hnot h'.2
      change Lsm.replay s.log kept k = Lsm.replay s.log s.base k
      rw [replay_of_not_mem hk, replay_of_not_mem hk, hkept]
  count := by
    rw [view_replaceBase h hjob hm]
    exact h.count

theorem view_refold {folded : K → Option V} {n mark : Nat} (hjob : JobOk s (.fold folded n mark)) :
    (s.refold folded n mark).view = s.view := by
  rw [State.refold, view_applyAll, view_fresh, hjob.2.2.1]

/-- The log may be replayed over any base that agrees with the map where the log has nothing. -/
theorem Inv.replay_of_agrees (h : Inv s) {m : K → Option V}
    (hm : ∀ k, k ∉ s.log.map Op.key → m k = s.view k) : Lsm.replay s.log m = s.view := by
  funext k
  by_cases hk : k ∈ s.log.map Op.key
  · rw [replay_of_mem hk m s.base, h.replay]
  · rw [replay_of_not_mem hk, hm k hk]

theorem Inv.replay_fold (h : Inv s) {folded : K → Option V} {n mark : Nat}
    (hjob : JobOk s (.fold folded n mark)) : Lsm.replay s.log folded = s.view := by
  refine h.replay_of_agrees fun k hk => ?_
  have hdrop : k ∉ (s.log.drop mark).map Op.key := fun hmem =>
    hk (List.map_subset _ (List.drop_subset _ _) hmem)
  rw [← hjob.2.2.1, replay_of_not_mem hdrop]

theorem Inv.replay_patch (h : Inv s) {kept : K → Option V} (hjob : JobOk s (.patch kept)) :
    Lsm.replay s.log kept = s.view := by
  refine h.replay_of_agrees fun k hk => ?_
  rcases hjob k with hkept | ⟨-, hnewer⟩
  · rw [hkept, ← h.replay, replay_of_not_mem hk]
  · exact absurd (h.logged k hnewer) hk

end Lsm
