import Skeg.Core.Equiv.Accounting

/-!
# The budget of the cache and its eviction loop

`total_bytes` is the sum of the sizes of the resident entries whatever the queues hold.  It stays within the
budget as long as no entry is larger than the budget and no overwrite makes the sum larger than it
(`bytes_within_budget`).

A round of the loop of `insert_for` evicts an entry, unless `small` is below its share and no key of `main` is
resident.  The entries are all in `small` then, and a loop that has to evict one of them never ends
(`insertFor_spins`).  It ends if the new entry fits beside what `small` can keep (`insertFor_returns`).
-/

namespace Skeg

namespace S3Fifo

open FiniteMap (sumBy)

section

variable {V : Type} {c c' c'' : S3Fifo V} {key : Bytes} {e e' : CacheEntry V}

/-! ### Evictions -/

/-- `total_bytes` is the sum of the sizes, and fits a `usize`. -/
def TotalExact (c : S3Fifo V) : Prop := (c.totalBytes = c.sizes fun _ => true) ∧ c.totalBytes < 2 ^ 64

theorem TotalExact.size_le (h : c.TotalExact) (he : c.map.lookup key = some e) : e.size ≤ c.totalBytes := by
  have hsum := sizes_erase { c with map := c.map.erase key } he rfl fun _ => true
  rw [if_pos rfl] at hsum
  have htotal := h.1
  omega

theorem TotalExact.erase (h : c.TotalExact) (he : c.map.lookup key = some e) (hmap : c'.map = c.map.erase key)
    (htotal : c'.totalBytes = wrapSub c.totalBytes e.size) : c'.TotalExact := by
  have hle := h.size_le he
  have hsum := sizes_erase c' he hmap fun _ => true
  rw [wrapSub_of_le hle h.2] at htotal
  rw [if_pos rfl] at hsum
  obtain ⟨h1, h2⟩ := h
  exact ⟨by omega, by omega⟩

/-- Evictions have taken `c` to `c'`: the entries left are entries of `c`, and none has moved into `small`. -/
structure Drained (c c' : S3Fifo V) : Prop where
  budget : c'.budgetBytes = c.budgetBytes
  share : c'.smallBudget = c.smallBudget
  total : c.TotalExact → c'.TotalExact
  all : (c'.sizes fun _ => true) ≤ c.sizes fun _ => true
  small : c'.sizes CacheEntry.inSmall ≤ c.sizes CacheEntry.inSmall
  kept : ∀ k x, c'.map.lookup k = some x → ∃ x', c.map.lookup k = some x' ∧ (x.inSmall = true → x'.inSmall = true)

theorem Drained.refl (c : S3Fifo V) : Drained c c :=
  ⟨rfl, rfl, id, Nat.le_refl _, Nat.le_refl _, fun _ x hx => ⟨x, hx, id⟩⟩

theorem Drained.trans (h : Drained c c') (h' : Drained c' c'') : Drained c c'' := by
  refine ⟨h'.budget.trans h.budget, h'.share.trans h.share, fun ht => h'.total (h.total ht),
    h'.all.trans h.all, h'.small.trans h.small, fun k x hx => ?_⟩
  obtain ⟨x', hx', himp⟩ := h'.kept k x hx
  obtain ⟨x'', hx'', himp'⟩ := h.kept k x' hx'
  exact ⟨x'', hx'', fun hin => himp' (himp hin)⟩

/-- The queues do not matter. -/
theorem Drained.of_map (hmap : c'.map = c.map) (htotal : c'.totalBytes = c.totalBytes)
    (hbudget : c'.budgetBytes = c.budgetBytes) (hshare : c'.smallBudget = c.smallBudget) : Drained c c' := by
  have hsizes : ∀ p, c'.sizes p = c.sizes p := fun p => by rw [sizes, hmap, sizes]
  refine ⟨hbudget, hshare, fun h => ?_, (hsizes _).le, (hsizes _).le, fun k x hx => ⟨x, hmap ▸ hx, id⟩⟩
  rwa [TotalExact, hsizes, htotal]

/-- An entry keeps its size and does not move into `small`. -/
theorem Drained.touch (he : c.map.lookup key = some e) (hmap : c'.map = c.map.insert key e')
    (hsize : e'.size = e.size) (hin : e'.inSmall = true → e.inSmall = true) (htotal : c'.totalBytes = c.totalBytes)
    (hbudget : c'.budgetBytes = c.budgetBytes) (hshare : c'.smallBudget = c.smallBudget) : Drained c c' := by
  have hall := sizes_replace c' he hmap fun _ => true
  rw [if_pos rfl, if_pos rfl, hsize] at hall
  refine ⟨hbudget, hshare, fun h => ?_, by omega, ?_, fun k x hx => ?_⟩
  · obtain ⟨h1, h2⟩ := h
    exact ⟨by omega, by omega⟩
  · have hsum := sizes_replace c' he hmap CacheEntry.inSmall
    rw [hsize] at hsum
    split_ifs at hsum with h1 h2 h2 <;> first | omega | exact absurd (hin h2) h1
  · rw [hmap] at hx
    by_cases hk : k = key
    · subst hk
      obtain rfl : e' = x := Option.some.inj ((AList.lookup_insert c.map).symm.trans hx)
      exact ⟨e, he, hin⟩
    · exact ⟨x, AList.lookup_insert_ne hk ▸ hx, id⟩

theorem Drained.erase (he : c.map.lookup key = some e) (hmap : c'.map = c.map.erase key)
    (htotal : c'.totalBytes = wrapSub c.totalBytes e.size) (hbudget : c'.budgetBytes = c.budgetBytes)
    (hshare : c'.smallBudget = c.smallBudget) : Drained c c' := by
  have hle : ∀ p, c'.sizes p ≤ c.sizes p := fun p => Nat.le.intro (sizes_erase c' he hmap p)
  refine ⟨hbudget, hshare, fun h => h.erase he hmap htotal, hle _, hle _, fun k x hx => ?_⟩
  obtain ⟨x', hx', hsame⟩ := lookup_erase_touched k x (hmap ▸ hx)
  exact ⟨x', hx', fun hin => hsame.trans hin⟩

theorem length_erase (he : c.map.lookup key = some e) :
    (c.map.erase key).entries.length + 1 = c.map.entries.length := by
  have h := FiniteMap.sumBy_erase (fun _ _ => 1) c.map key
  rw [he, Option.elim_some] at h
  simpa [sumBy, Nat.add_comm] using h

theorem length_insert (he : c.map.lookup key = some e) (e' : CacheEntry V) :
    (c.map.insert key e').entries.length = c.map.entries.length := by
  have h := FiniteMap.sumBy_insert (fun _ _ => 1) c.map key e'
  rw [he, Option.elim_some] at h
  simpa [sumBy, Nat.add_comm] using h

theorem drainMain_drained (target : Nat) (overExists : Bool) (fuel skips : Nat) (c : S3Fifo V) :
    Drained c (drainMain target overExists fuel skips c) := by
  induction fuel generalizing skips c with
  | zero => exact .refl c
  | succ fuel ih =>
    unfold drainMain
    cases c.main with
    | nil => exact .refl c
    | cons key main =>
      dsimp only
      cases he : c.map.lookup key with
      | none =>
        dsimp only
        refine Drained.trans ?_ (ih skips _)
        exact .of_map rfl rfl rfl rfl
      | some e =>
        dsimp only
        split_ifs
        · refine Drained.trans ?_ (ih skips _)
          exact .touch he rfl rfl (fun h => h) rfl rfl rfl
        · refine Drained.trans ?_ (ih (skips + 1) _)
          exact .of_map rfl rfl rfl rfl
        · obtain ⟨a, p, hsub⟩ := subTenantBytes_eq { c with
            main := main
            map := c.map.erase key
            totalBytes := wrapSub c.totalBytes e.size } e.tenant e.size
          rw [hsub]
          exact .erase he rfl rfl rfl rfl

theorem evictFromMain_drained (c : S3Fifo V) : Drained c c.evictFromMain := by
  unfold evictFromMain
  split_ifs <;> exact drainMain_drained _ _ _ _ c

section

variable [H : Hashes]

theorem drainSmall_drained (small : List Bytes) (c : S3Fifo V) : Drained c (drainSmall small c).2 := by
  induction small generalizing c with
  | nil => exact .of_map rfl rfl rfl rfl
  | cons key small ih =>
    unfold drainSmall
    cases he : c.map.lookup key with
    | none => exact ih c
    | some e =>
      dsimp only
      split_ifs
      · refine Drained.trans ?_ (ih _)
        exact .touch he rfl rfl (fun h => absurd h Bool.false_ne_true) rfl rfl rfl
      · obtain ⟨a, p, hsub⟩ := subTenantBytes_eq { c with
          small := small
          map := c.map.erase key
          totalBytes := wrapSub c.totalBytes e.size
          smallBytes := wrapSub c.smallBytes e.size } e.tenant e.size
        rw [hsub]
        exact .erase he rfl rfl rfl rfl

theorem evictOne_drained (c : S3Fifo V) : Drained c c.evictOne := by
  unfold evictOne
  dsimp only
  split_ifs
  · exact drainSmall_drained _ c
  · exact (drainSmall_drained _ c).trans (evictFromMain_drained _)
  · exact evictFromMain_drained c

/-- The loop ends with room for the new entry, or with an empty cache. -/
theorem evictLoop_drained {fuel entrySize : Nat} (h : evictLoop fuel entrySize c = some c') :
    Drained c c' ∧ (wrapAdd c'.totalBytes entrySize ≤ c'.budgetBytes ∨ c'.map.entries = []) := by
  have hstop : ∀ {c : S3Fifo V}, ¬ (wrapAdd c.totalBytes entrySize > c.budgetBytes ∧ ¬ c.map.entries.isEmpty) →
      wrapAdd c.totalBytes entrySize ≤ c.budgetBytes ∨ c.map.entries = [] := by
    intro c hnot
    by_cases hroom : wrapAdd c.totalBytes entrySize > c.budgetBytes
    · exact .inr (by simpa [hroom] using hnot)
    · exact .inl (Nat.le_of_not_lt hroom)
  induction fuel generalizing c with
  | zero =>
    unfold evictLoop at h
    split_ifs at h with hcond
    obtain rfl := Option.some.inj h
    exact ⟨.refl c, hstop hcond⟩
  | succ fuel ih =>
    unfold evictLoop at h
    split_ifs at h with hcond
    · obtain ⟨hdrained, hroom⟩ := ih h
      exact ⟨(evictOne_drained c).trans hdrained, hroom⟩
    · obtain rfl := Option.some.inj h
      exact ⟨.refl c, hstop hcond⟩

/-! ### The budget -/

/-- The entry fits the budget, on its own if its key is new and else in the place of the old entry. -/
def Budgeted (c : S3Fifo V) : CacheOp V → Prop
  | .insertFor key _ valueBytes _ =>
    let entrySize := key.length + valueBytes + entryOverhead
    match c.map.lookup key with
    | some e => (c.sizes fun _ => true) + entrySize ≤ c.budgetBytes + e.size
    | none => entrySize ≤ c.budgetBytes
  | _ => True

instance (c : S3Fifo V) : (op : CacheOp V) → Decidable (c.Budgeted op)
  | .insertFor key _ valueBytes _ => by
    unfold Budgeted
    dsimp only
    exact match c.map.lookup key with
      | some _ => inferInstance
      | none => inferInstance
  | .get _ | .remove _ | .evict => inferInstanceAs (Decidable True)

/-- The bytes are counted, and there are not more of them than the budget. -/
structure Bounded (budget : Nat) (c : S3Fifo V) : Prop where
  limit : c.budgetBytes = budget
  total : c.TotalExact
  le : c.totalBytes ≤ budget

omit H in
theorem Bounded.drained {budget : Nat} (h : Bounded budget c) (hd : Drained c c') : Bounded budget c' := by
  have htotal := hd.total h.total
  exact ⟨hd.budget.trans h.limit, htotal, htotal.1.trans_le (hd.all.trans (h.total.1 ▸ h.le))⟩

omit H in
theorem Bounded.get {budget : Nat} (h : Bounded budget c) (key : Bytes) : Bounded budget (c.get key).2 := by
  unfold S3Fifo.get
  cases he : c.map.lookup key with
  | none => exact ⟨h.limit, h.total, h.le⟩
  | some e =>
    refine h.drained ?_
    exact .touch he rfl rfl (fun hin => hin) rfl rfl rfl

omit H in
theorem Bounded.remove {budget : Nat} (h : Bounded budget c) (key : Bytes) : Bounded budget (c.remove key) := by
  unfold S3Fifo.remove
  cases he : c.map.lookup key with
  | none => exact h
  | some e =>
    dsimp only
    obtain ⟨a, p, hsub⟩ := subTenantBytes_eq { c with
      map := c.map.erase key
      totalBytes := wrapSub c.totalBytes e.size
      smallBytes := if e.inSmall then wrapSub c.smallBytes e.size else c.smallBytes } e.tenant e.size
    rw [hsub]
    exact h.drained (.erase he rfl rfl rfl rfl)

omit H in
/-- An overwrite replaces one size by another. -/
theorem Bounded.overwritten {budget : Nat} (e' : CacheEntry V) (h : Bounded budget c) (he : c.map.lookup key = some e)
    (hfits : c.totalBytes + e'.size < 2 ^ 64) (hroom : c.totalBytes + e'.size ≤ budget + e.size) :
    Bounded budget (((c.overwritten key e e').subTenantBytes e.tenant e.size).addTenantBytes e'.tenant e'.size) := by
  have hle := h.total.size_le he
  have htotal : (c.overwritten key e e').totalBytes = c.totalBytes + e'.size - e.size := by
    rw [S3Fifo.overwritten, wrapAdd_of_lt hfits, wrapSub_of_le (by omega) hfits]
  have hsum := sizes_replace (c.overwritten key e e') he rfl fun _ => true
  rw [if_pos rfl, if_pos rfl] at hsum
  obtain ⟨a, p, hsub⟩ := (c.overwritten key e e').subTenantBytes_eq e.tenant e.size
  rw [hsub]
  obtain ⟨a', p', hadd⟩ := addTenantBytes_eq { c.overwritten key e e' with tenant0Bytes := a, perTenant := p }
    e'.tenant e'.size
  rw [hadd]
  have hall := h.total.1
  refine ⟨h.limit, ⟨htotal.trans ?_, htotal.trans_lt ?_⟩, htotal.trans_le ?_⟩
  · change _ = (c.overwritten key e e').sizes fun _ => true
    omega
  · omega
  · omega

omit H in
theorem Bounded.admitted {budget : Nat} {ghosts : List UInt64} (h : Bounded budget c)
    (hnone : c.map.lookup key = none) (hfits : c.totalBytes + e'.size < 2 ^ 64)
    (hroom : c.totalBytes + e'.size ≤ budget) :
    Bounded budget ((c.admitted key e' ghosts).addTenantBytes e'.tenant e'.size) := by
  have htotal : (c.admitted key e' ghosts).totalBytes = c.totalBytes + e'.size := wrapAdd_of_lt hfits
  have hsum := sizes_new (c.admitted key e' ghosts) hnone rfl fun _ => true
  rw [if_pos rfl, ← h.total.1] at hsum
  obtain ⟨a, p, hadd⟩ := (c.admitted key e' ghosts).addTenantBytes_eq e'.tenant e'.size
  rw [hadd]
  exact ⟨h.limit, ⟨htotal.trans hsum.symm, htotal.trans_lt hfits⟩, htotal.trans_le hroom⟩

theorem Bounded.insertFor {budget : Nat} {value : V} {valueBytes tenant : Nat} (h : Bounded budget c)
    (hfits : c.Fits (.insertFor key value valueBytes tenant))
    (hbudgeted : c.Budgeted (.insertFor key value valueBytes tenant))
    (hinsert : c.insertFor key value valueBytes tenant = some c') : Bounded budget c' := by
  unfold Fits at hfits
  unfold Budgeted at hbudgeted
  dsimp only at hbudgeted
  rw [← h.total.1] at hfits hbudgeted
  unfold S3Fifo.insertFor at hinsert
  dsimp only at hinsert
  cases he : c.map.lookup key with
  | some e =>
    rw [he] at hinsert hbudgeted
    obtain rfl := Option.some.inj hinsert
    rw [h.limit] at hbudgeted
    exact Bounded.overwritten { e with value, size := _, tenant := tenant % 2 ^ 64 } h he hfits hbudgeted
  | none =>
    rw [he] at hinsert hbudgeted
    dsimp only at hinsert hbudgeted
    cases hloop : evictLoop c.map.entries.length (key.length + valueBytes + entryOverhead) c with
    | none =>
      rw [hloop] at hinsert
      cases hinsert
    | some c₁ =>
      rw [hloop] at hinsert
      obtain rfl := Option.some.inj hinsert
      obtain ⟨hdrained, hroom⟩ := evictLoop_drained hloop
      have hbounded := h.drained hdrained
      have hless : c₁.totalBytes ≤ c.totalBytes := by
        rw [hbounded.total.1, h.total.1]
        exact hdrained.all
      have hfits₁ : c₁.totalBytes + (key.length + valueBytes + entryOverhead) < 2 ^ 64 :=
        (Nat.add_le_add_right hless _).trans_lt hfits
      have hnone : c₁.map.lookup key = none := by
        cases hk : c₁.map.lookup key with
        | none => rfl
        | some x =>
          obtain ⟨x', hx', -⟩ := hdrained.kept key x hk
          rw [he] at hx'
          cases hx'
      refine Bounded.admitted hbounded hnone hfits₁ ?_
      rcases hroom with hroom | hempty
      · rwa [wrapAdd_of_lt hfits₁, hbounded.limit] at hroom
      · -- an empty cache has no bytes
        have hzero : c₁.totalBytes = 0 := by
          rw [hbounded.total.1, S3Fifo.sizes, sumBy, hempty]
          rfl
        rw [hzero, Nat.zero_add]
        exact hbudgeted.trans_eq h.limit

theorem Bounded.step {budget : Nat} {op : CacheOp V} {ev : List Empty} (h : Bounded budget c) (hfits : c.Fits op)
    (hbudgeted : c.Budgeted op) (hstep : c.step op = some (c', ev)) : Bounded budget c' := by
  cases op with
  | insertFor key value valueBytes tenant =>
    obtain ⟨c₁, hinsert, heq⟩ := Option.map_eq_some_iff.mp hstep
    obtain rfl : c₁ = c' := congrArg Prod.fst heq
    exact h.insertFor hfits hbudgeted hinsert
  | get key =>
    obtain rfl : (c.get key).2 = c' := congrArg Prod.fst (Option.some.inj hstep)
    exact h.get key
  | remove key =>
    obtain rfl : c.remove key = c' := congrArg Prod.fst (Option.some.inj hstep)
    exact h.remove key
  | evict =>
    obtain rfl : c.evictOne = c' := congrArg Prod.fst (Option.some.inj hstep)
    exact h.drained (evictOne_drained c)

/-- The resident bytes stay within the budget if every entry that is inserted fits it, and every entry that is
overwritten fits it in the place of the old one. -/
theorem bytes_within_budget {budget : Nat} {h : List Empty} {c : S3Fifo V}
    (hrun : Transition.Run step (fun _ c op => c.Fits op ∧ c.Budgeted op) [] (new budget) h c) :
    (c.sizes fun _ => true) ≤ budget ∧ c.totalBytes = c.sizes fun _ => true := by
  have hall : Bounded budget c := hrun.invariant (fun _ c => Bounded budget c)
    ⟨rfl, ⟨rfl, show (0 : Nat) < 2 ^ 64 by decide⟩, Nat.zero_le _⟩
    fun _ _ _ _ _ hc hP hstep => hc.step hP.1 hP.2 hstep
  exact ⟨hall.total.1 ▸ hall.le, hall.total.1⟩

end

/-! ### Rounds of `evict_from_main` -/

/-- The rounds left but the last: one for each touch, each entry of the queue and each skip. -/
def rounds (skips : Nat) (c : S3Fifo V) : Nat :=
  sumBy (fun _ e => (e.freq : Nat)) c.map + c.main.length + (maxFairSkips - skips)

theorem rounds_touch (he : c.map.lookup key = some e) (hfreq : e.freq > 0) {main : List Bytes}
    (hmain : c.main = key :: main) (skips : Nat) :
    rounds skips { c with map := c.map.insert key { e with freq := e.freq - 1 }, main := main ++ [key] } + 1 =
      rounds skips c := by
  have hsum := FiniteMap.sumBy_insert (fun _ e => (e.freq : Nat)) c.map key { e with freq := e.freq - 1 }
  rw [he, Option.elim_some] at hsum
  dsimp only at hsum
  have hpred : ((e.freq - 1 : Fin 4) : Nat) + 1 = e.freq := by
    have hpos : 0 < (e.freq : Nat) := hfreq
    generalize e.freq = f at hpos ⊢
    revert f
    decide
  simp only [rounds, hmain, List.length_append, List.length_cons, List.length_nil]
  omega

/-- A round that does not end the loop leaves one round less to go. -/
theorem drainMain_eq_of_rounds (target : Nat) (overExists : Bool) {fuel fuel' skips : Nat} {c : S3Fifo V}
    (h : rounds skips c < fuel) (h' : rounds skips c < fuel') :
    drainMain target overExists fuel skips c = drainMain target overExists fuel' skips c := by
  induction fuel generalizing fuel' skips c with
  | zero => omega
  | succ fuel ih =>
    obtain ⟨fuel', rfl⟩ : ∃ m, fuel' = m + 1 := ⟨fuel' - 1, by omega⟩
    unfold drainMain
    cases hmain : c.main with
    | nil => rfl
    | cons key main =>
      dsimp only
      cases he : c.map.lookup key with
      | none =>
        have hless : rounds skips { c with main := main } + 1 = rounds skips c := by
          simp only [rounds, hmain, List.length_cons]
          omega
        exact ih (by omega) (by omega)
      | some e =>
        dsimp only
        split_ifs with hfreq hspare
        · have hless := rounds_touch he hfreq hmain skips
          exact ih (by omega) (by omega)
        · have hskips : skips < maxFairSkips := by simp only [Bool.and_eq_true, decide_eq_true_eq] at hspare; tauto
          have hless : rounds (skips + 1) { c with main := main ++ [key] } + 1 = rounds skips c := by
            simp only [rounds, hmain, List.length_append, List.length_cons, List.length_nil]
            omega
          exact ih (by omega) (by omega)
        · rfl

/-- A loop over a queue with the key of a resident entry evicts one. -/
theorem drainMain_length (target : Nat) (overExists : Bool) {fuel skips : Nat} {c : S3Fifo V}
    (h : rounds skips c < fuel) {k : Bytes} (hk : k ∈ c.main) (hres : (c.map.lookup k).isSome) :
    (drainMain target overExists fuel skips c).map.entries.length + 1 = c.map.entries.length := by
  induction fuel generalizing skips c k with
  | zero => omega
  | succ fuel ih =>
    unfold drainMain
    cases hmain : c.main with
    | nil =>
      rw [hmain] at hk
      cases hk
    | cons key main =>
      rw [hmain] at hk
      have hback : k ∈ main ++ [key] := by simpa [or_comm] using hk
      dsimp only
      cases he : c.map.lookup key with
      | none =>
        have hless : rounds skips { c with main := main } + 1 = rounds skips c := by
          simp only [rounds, hmain, List.length_cons]
          omega
        have hin : k ∈ main := by
          refine (List.mem_cons.mp hk).resolve_left ?_
          rintro rfl
          rw [he] at hres
          cases hres
        exact ih (c := { c with main := main }) (by omega) hin hres
      | some e =>
        dsimp only
        split_ifs with hfreq hspare
        · have hless := rounds_touch he hfreq hmain skips
          have hres' : ((c.map.insert key { e with freq := e.freq - 1 }).lookup k).isSome := by
            by_cases hkey : k = key
            · rw [hkey, AList.lookup_insert]
              rfl
            · rwa [AList.lookup_insert_ne hkey]
          refine Eq.trans ?_ (length_insert he { e with freq := e.freq - 1 })
          exact ih (by omega) hback hres'
        · have hskips : skips < maxFairSkips := by simp only [Bool.and_eq_true, decide_eq_true_eq] at hspare; tauto
          have hless : rounds (skips + 1) { c with main := main ++ [key] } + 1 = rounds skips c := by
            simp only [rounds, hmain, List.length_append, List.length_cons, List.length_nil]
            omega
          exact ih (c := { c with main := main ++ [key] }) (by omega) hback hres
        · obtain ⟨a, p, hsub⟩ := subTenantBytes_eq { c with
            main := main
            map := c.map.erase key
            totalBytes := wrapSub c.totalBytes e.size } e.tenant e.size
          rw [hsub]
          exact length_erase he

theorem rounds_lt_mainFuel (c : S3Fifo V) : rounds 0 c < c.mainFuel := Nat.lt_succ_self _

theorem evictFromMain_length {k : Bytes} (hk : k ∈ c.main) (hres : (c.map.lookup k).isSome) :
    c.evictFromMain.map.entries.length + 1 = c.map.entries.length := by
  unfold evictFromMain
  split_ifs <;> exact drainMain_length _ _ c.rounds_lt_mainFuel hk hres

/-! ### The loop of `insert_for` -/

/-- Every resident entry has its key in a queue, of which `small` is left of the one of that name. -/
def Covered (small : List Bytes) (c : S3Fifo V) : Prop :=
  ∀ k, (c.map.lookup k).isSome → k ∈ small ∨ k ∈ c.main

theorem isSome_lookup_erase {k : Bytes} (h : ((c.map.erase key).lookup k).isSome) :
    k ≠ key ∧ (c.map.lookup k).isSome := by
  by_cases hk : k = key
  · rw [hk, AList.lookup_erase] at h
    cases h
  · exact ⟨hk, AList.lookup_erase_ne hk ▸ h⟩

theorem isSome_lookup_insert (he : c.map.lookup key = some e) {k : Bytes}
    (h : ((c.map.insert key e').lookup k).isSome) : (c.map.lookup k).isSome := by
  by_cases hk : k = key
  · rw [hk, he]
    rfl
  · exact AList.lookup_insert_ne hk ▸ h

theorem drainMain_covered (target : Nat) (overExists : Bool) (fuel skips : Nat) {c : S3Fifo V} (h : Covered c.small c) :
    Covered (drainMain target overExists fuel skips c).small (drainMain target overExists fuel skips c) := by
  induction fuel generalizing skips c with
  | zero => exact h
  | succ fuel ih =>
    unfold drainMain
    cases hmain : c.main with
    | nil => exact h
    | cons key main =>
      have hback : ∀ k, (c.map.lookup k).isSome → k ∈ c.small ∨ k ∈ main ++ [key] := fun k hk =>
        (h k hk).imp_right fun hin => by simpa [hmain, or_comm] using hin
      have hrest : ∀ k, k ≠ key → (c.map.lookup k).isSome → k ∈ c.small ∨ k ∈ main := fun k hne hk =>
        (h k hk).imp_right fun hin => by simpa [hmain, hne] using hin
      dsimp only
      cases he : c.map.lookup key with
      | none =>
        refine ih skips (c := { c with main := main }) fun k hk => hrest k ?_ hk
        rintro rfl
        rw [he] at hk
        cases hk
      | some e =>
        dsimp only
        split_ifs
        · refine ih skips fun k hk => hback k (isSome_lookup_insert he hk)
        · exact ih (skips + 1) (c := { c with main := main ++ [key] }) hback
        · obtain ⟨a, p, hsub⟩ := subTenantBytes_eq { c with
            main := main
            map := c.map.erase key
            totalBytes := wrapSub c.totalBytes e.size } e.tenant e.size
          rw [hsub]
          intro k hk
          obtain ⟨hne, hres⟩ := isSome_lookup_erase hk
          exact hrest k hne hres

theorem evictFromMain_covered (h : Covered c.small c) : Covered c.evictFromMain.small c.evictFromMain := by
  unfold evictFromMain
  split_ifs <;> exact drainMain_covered _ _ _ _ h

section

variable [H : Hashes]

theorem drainSmall_covered {small : List Bytes} {c : S3Fifo V} (h : Covered small c) :
    Covered (drainSmall small c).2.small (drainSmall small c).2 := by
  induction small generalizing c with
  | nil => exact h
  | cons key small ih =>
    have hrest : ∀ k, k ≠ key → (c.map.lookup k).isSome → k ∈ small ∨ k ∈ c.main := fun k hne hk =>
      (h k hk).imp_left fun hin => (List.mem_cons.mp hin).resolve_left hne
    unfold drainSmall
    cases he : c.map.lookup key with
    | none =>
      refine ih fun k hk => hrest k ?_ hk
      rintro rfl
      rw [he] at hk
      cases hk
    | some e =>
      dsimp only
      split_ifs
      · refine ih (c := c.promoted key e) fun k hk => ?_
        by_cases hne : k = key
        · exact .inr (List.mem_append_right _ (List.mem_singleton.mpr hne))
        · exact (hrest k hne (isSome_lookup_insert he hk)).imp_right (List.mem_append_left _)
      · obtain ⟨a, p, hsub⟩ := subTenantBytes_eq { c with
          small := small
          map := c.map.erase key
          totalBytes := wrapSub c.totalBytes e.size
          smallBytes := wrapSub c.smallBytes e.size } e.tenant e.size
        rw [hsub]
        intro k hk
        obtain ⟨hne, hres⟩ := isSome_lookup_erase hk
        exact hrest k hne hres

/-- `evict_from_small` evicts one entry, or empties the queue. -/
theorem drainSmall_length (small : List Bytes) (c : S3Fifo V) :
    if (drainSmall small c).1 then (drainSmall small c).2.map.entries.length + 1 = c.map.entries.length
    else (drainSmall small c).2.map.entries.length = c.map.entries.length ∧ (drainSmall small c).2.small = [] := by
  induction small generalizing c with
  | nil => exact ⟨rfl, rfl⟩
  | cons key small ih =>
    unfold drainSmall
    cases he : c.map.lookup key with
    | none => exact ih c
    | some e =>
      by_cases hfreq : e.freq > 1
      · simp only [if_pos hfreq]
        have hlen : (c.promoted key e).map.entries.length = c.map.entries.length := length_insert he _
        have hrec := ih (c.promoted key e)
        rwa [hlen] at hrec
      · obtain ⟨a, p, hsub⟩ := subTenantBytes_eq { c with
          small := small
          map := c.map.erase key
          totalBytes := wrapSub c.totalBytes e.size
          smallBytes := wrapSub c.smallBytes e.size } e.tenant e.size
        simp only [if_neg hfreq, hsub, if_true]
        exact length_erase he

theorem evictOne_covered (h : Covered c.small c) : Covered c.evictOne.small c.evictOne := by
  unfold evictOne
  dsimp only
  split_ifs
  · exact drainSmall_covered h
  · exact evictFromMain_covered (drainSmall_covered h)
  · exact evictFromMain_covered h

/-- A round evicts an entry if `small` has its share or `main` the key of a resident entry. -/
theorem evictOne_length (h : Covered c.small c) (hne : c.map.entries ≠ [])
    (hgo : c.smallBudget ≤ c.smallBytes ∨ ∃ k ∈ c.main, (c.map.lookup k).isSome) :
    c.evictOne.map.entries.length + 1 = c.map.entries.length := by
  unfold evictOne
  dsimp only
  split_ifs with hshare hevicted
  · have hlen := drainSmall_length c.small c
    rwa [if_pos (show (drainSmall c.small c).1 = true from hevicted)] at hlen
  · -- `small` is empty now, so that what is resident is in `main`
    have hlen := drainSmall_length c.small c
    rw [if_neg (show ¬ (drainSmall c.small c).1 = true from hevicted)] at hlen
    obtain ⟨hlen, hempty⟩ := hlen
    have hcovered := drainSmall_covered h
    have hne' : c.evictFromSmall.2.map.entries ≠ [] := by
      rw [← List.length_pos_iff_ne_nil] at hne ⊢
      exact hlen.symm ▸ hne
    obtain ⟨x, hx⟩ := List.exists_mem_of_ne_nil _ hne'
    have hres : (c.evictFromSmall.2.map.lookup x.1).isSome := by
      rw [AList.mem_lookup_iff.mpr hx]
      rfl
    have hmain : x.1 ∈ c.evictFromSmall.2.main := by
      refine (hcovered x.1 hres).resolve_left ?_
      rw [hempty]
      exact List.not_mem_nil
    exact (evictFromMain_length hmain hres).trans hlen
  · obtain ⟨k, hk, hres⟩ := hgo.resolve_left hshare
    exact evictFromMain_length hk hres

/-- No entry is in `small`, or the new one fits beside what `small` can keep: all it has, or what is below its
share. -/
def HasRoom (entrySize : Nat) (c : S3Fifo V) : Prop :=
  (∀ p ∈ c.map.entries, p.2.inSmall = false) ∨
    min (c.sizes CacheEntry.inSmall) (c.smallBudget - 1) + entrySize ≤ c.budgetBytes

instance (entrySize : Nat) (c : S3Fifo V) : Decidable (HasRoom entrySize c) :=
  inferInstanceAs (Decidable (_ ∨ _))

omit H in
theorem HasRoom.drained {entrySize : Nat} (h : c.HasRoom entrySize) (hd : Drained c c') : c'.HasRoom entrySize := by
  refine h.imp (fun hnone p hp => ?_) fun hroom => ?_
  · obtain ⟨x, hx, himp⟩ := hd.kept p.1 p.2 (AList.mem_lookup_iff.mpr hp)
    have hout := hnone ⟨p.1, x⟩ (AList.mem_lookup_iff.mp hx)
    cases hin : p.2.inSmall with
    | false => rfl
    | true => exact (himp hin).symm.trans hout
  · rw [hd.budget, hd.share]
    exact (Nat.add_le_add_right (min_le_min_right _ hd.small) _).trans hroom

omit H in
/-- If no key of `main` is resident, all the bytes are in `small`. -/
theorem sizes_eq_of_main (hq : Queued c.small c) (hcov : Covered c.small c)
    (hmain : ¬ ∃ k ∈ c.main, (c.map.lookup k).isSome) :
    (c.sizes fun _ => true) = c.sizes CacheEntry.inSmall ∧ ∀ p ∈ c.map.entries, p.2.inSmall = true := by
  have hin : ∀ p ∈ c.map.entries, p.2.inSmall = true := by
    intro p hp
    have hlook : c.map.lookup p.1 = some p.2 := AList.mem_lookup_iff.mpr hp
    have hres : (c.map.lookup p.1).isSome := by rw [hlook]; rfl
    have hsmall : p.1 ∈ c.small := (hcov p.1 hres).resolve_right fun hk => hmain ⟨p.1, hk, hres⟩
    exact hq.inSmall p.1 hsmall p.2 hlook
  refine ⟨?_, hin⟩
  rw [sizes, sizes, sumBy, sumBy]
  refine congrArg List.sum (List.map_congr_left fun p hp => ?_)
  rw [hin p hp]

theorem evictLoop_isSome {fuel entrySize : Nat} (h : c.Accounted) (hcov : Covered c.small c)
    (hfits : c.totalBytes + entrySize < 2 ^ 64) (hroom : c.HasRoom entrySize)
    (hfuel : c.map.entries.length ≤ fuel) : (evictLoop fuel entrySize c).isSome := by
  induction fuel generalizing c with
  | zero =>
    have hempty : c.map.entries = [] := List.eq_nil_of_length_eq_zero (Nat.le_zero.mp hfuel)
    unfold evictLoop
    rw [if_neg (by rw [hempty]; simp)]
    rfl
  | succ fuel ih =>
    unfold evictLoop
    split_ifs with hcond
    · obtain ⟨hover, hne⟩ := hcond
      rw [wrapAdd_of_lt hfits] at hover
      have hne : c.map.entries ≠ [] := by simpa using hne
      -- otherwise the entries are all in `small` and below its share
      have hgo : c.smallBudget ≤ c.smallBytes ∨ ∃ k ∈ c.main, (c.map.lookup k).isSome := by
        by_contra hstuck
        obtain ⟨hshare, hmain⟩ := not_or.mp hstuck
        obtain ⟨hall, hin⟩ := sizes_eq_of_main h.queued hcov hmain
        have htotal := h.exact.total
        have hsmall := h.exact.small
        rcases hroom with hnone | hroom
        · obtain ⟨p, hp⟩ := List.exists_mem_of_ne_nil _ hne
          exact Bool.false_ne_true ((hnone p hp).symm.trans (hin p hp))
        · have hmin : min (c.sizes CacheEntry.inSmall) (c.smallBudget - 1) = c.sizes CacheEntry.inSmall :=
            min_eq_left (by omega)
          omega
      have hlen := evictOne_length hcov hne hgo
      obtain ⟨-, hevicts⟩ := evictOne_evicts h.exact h.queued
      exact ih ⟨hevicts.exact, hevicts.queued⟩ (evictOne_covered hcov)
        ((Nat.add_le_add_right hevicts.bytes _).trans_lt hfits) (hroom.drained (evictOne_drained c)) (by omega)
    · rfl

/-! ### Runs -/

theorem evictLoop_covered {fuel entrySize : Nat} (h : Covered c.small c)
    (hloop : evictLoop fuel entrySize c = some c') : Covered c'.small c' := by
  induction fuel generalizing c with
  | zero =>
    unfold evictLoop at hloop
    split_ifs at hloop
    obtain rfl := Option.some.inj hloop
    exact h
  | succ fuel ih =>
    unfold evictLoop at hloop
    split_ifs at hloop
    · exact ih (evictOne_covered h) hloop
    · obtain rfl := Option.some.inj hloop
      exact h

omit H in
theorem Covered.overwritten (e' : CacheEntry V) (h : Covered c.small c) (he : c.map.lookup key = some e) :
    Covered (((c.overwritten key e e').subTenantBytes e.tenant e.size).addTenantBytes e'.tenant e'.size).small
      (((c.overwritten key e e').subTenantBytes e.tenant e.size).addTenantBytes e'.tenant e'.size) := by
  obtain ⟨a, p, hsub⟩ := (c.overwritten key e e').subTenantBytes_eq e.tenant e.size
  rw [hsub]
  obtain ⟨a', p', hadd⟩ := addTenantBytes_eq { c.overwritten key e e' with tenant0Bytes := a, perTenant := p }
    e'.tenant e'.size
  rw [hadd]
  exact fun k hk => h k (isSome_lookup_insert he hk)

omit H in
theorem Covered.admitted {ghosts : List UInt64} (h : Covered c.small c) :
    Covered ((c.admitted key e' ghosts).addTenantBytes e'.tenant e'.size).small
      ((c.admitted key e' ghosts).addTenantBytes e'.tenant e'.size) := by
  obtain ⟨a, p, hadd⟩ := (c.admitted key e' ghosts).addTenantBytes_eq e'.tenant e'.size
  rw [hadd]
  intro k hk
  have hk : ((c.map.insert key e').lookup k).isSome := hk
  change k ∈ (if e'.inSmall then c.small ++ [key] else c.small) ∨ k ∈ if e'.inSmall then c.main else c.main ++ [key]
  by_cases hne : k = key
  · subst hne
    cases e'.inSmall <;> simp
  · rw [AList.lookup_insert_ne hne] at hk
    have hin := h k hk
    cases e'.inSmall <;> simp [hin, hne]

theorem insertFor_covered {value : V} {valueBytes tenant : Nat} (h : Covered c.small c)
    (hinsert : c.insertFor key value valueBytes tenant = some c') : Covered c'.small c' := by
  unfold S3Fifo.insertFor at hinsert
  dsimp only at hinsert
  cases he : c.map.lookup key with
  | some e =>
    rw [he] at hinsert
    obtain rfl := Option.some.inj hinsert
    exact Covered.overwritten { e with value, size := _, tenant := tenant % 2 ^ 64 } h he
  | none =>
    rw [he] at hinsert
    dsimp only at hinsert
    cases hloop : evictLoop c.map.entries.length (key.length + valueBytes + entryOverhead) c with
    | none =>
      rw [hloop] at hinsert
      cases hinsert
    | some c₁ =>
      rw [hloop] at hinsert
      obtain rfl := Option.some.inj hinsert
      exact Covered.admitted (evictLoop_covered h hloop)

theorem step_covered {op : CacheOp V} {ev : List Empty} (h : Covered c.small c) (hstep : c.step op = some (c', ev)) :
    Covered c'.small c' := by
  cases op with
  | insertFor key value valueBytes tenant =>
    obtain ⟨c₁, hinsert, heq⟩ := Option.map_eq_some_iff.mp hstep
    obtain rfl : c₁ = c' := congrArg Prod.fst heq
    exact insertFor_covered h hinsert
  | get key =>
    obtain rfl : (c.get key).2 = c' := congrArg Prod.fst (Option.some.inj hstep)
    unfold S3Fifo.get
    cases he : c.map.lookup key with
    | none => exact h
    | some e => exact fun k hk => h k (isSome_lookup_insert he hk)
  | remove key =>
    obtain rfl : c.remove key = c' := congrArg Prod.fst (Option.some.inj hstep)
    unfold S3Fifo.remove
    cases he : c.map.lookup key with
    | none => exact h
    | some e =>
      dsimp only
      obtain ⟨a, p, hsub⟩ := subTenantBytes_eq { c with
        map := c.map.erase key
        totalBytes := wrapSub c.totalBytes e.size
        smallBytes := if e.inSmall then wrapSub c.smallBytes e.size else c.smallBytes } e.tenant e.size
      rw [hsub]
      exact fun k hk => h k (isSome_lookup_erase hk).2
  | evict =>
    obtain rfl : c.evictOne = c' := congrArg Prod.fst (Option.some.inj hstep)
    exact evictOne_covered h

/-- In a cache whose keys are inserted only when no queue has them, an insert returns if the new entry has room
beside what `small` can keep; the loop of `evict_from_main` always ends by itself. -/
theorem insertFor_returns {budget : Nat} {h : List Empty} {c : S3Fifo V}
    (hrun : Transition.Run step (fun _ c op => c.Fits op ∧ c.Unqueued op) [] (new budget) h c) {key : Bytes} {value : V}
    {valueBytes tenant : Nat} (hfits : c.Fits (.insertFor key value valueBytes tenant))
    (hroom : c.map.lookup key = none → c.HasRoom (key.length + valueBytes + entryOverhead)) :
    (∃ c', c.insertFor key value valueBytes tenant = some c') ∧
      ∀ (c : S3Fifo V) (target : Nat) (overExists : Bool) (more : Nat),
        drainMain target overExists (c.mainFuel + more) 0 c = drainMain target overExists c.mainFuel 0 c := by
  have hall : c.Accounted ∧ Covered c.small c := hrun.invariant (fun _ c => c.Accounted ∧ Covered c.small c)
    ⟨⟨exact_new budget, List.nodup_nil, fun _ hk => absurd hk List.not_mem_nil,
      fun _ hk => absurd hk List.not_mem_nil⟩, fun _ hk => absurd hk Bool.false_ne_true⟩
    fun _ _ _ _ _ hc hP hstep => ⟨hc.1.step hP.1 hP.2 hstep, step_covered hc.2 hstep⟩
  refine ⟨?_, fun c target overExists more => ?_⟩
  · unfold Fits at hfits
    rw [← hall.1.exact.total] at hfits
    unfold S3Fifo.insertFor
    dsimp only
    cases he : c.map.lookup key with
    | some e => exact ⟨_, rfl⟩
    | none =>
      obtain ⟨c₁, hloop⟩ := Option.isSome_iff_exists.mp
        (evictLoop_isSome hall.1 hall.2 hfits (hroom he) (Nat.le_refl _))
      rw [hloop]
      exact ⟨_, rfl⟩
  · have hfuel := c.rounds_lt_mainFuel
    exact drainMain_eq_of_rounds target overExists (by omega) hfuel

/-- A loop that finds `small` below its share and `main` empty goes on for ever. -/
theorem evictLoop_spins {entrySize : Nat} (hshare : c.smallBytes < c.smallBudget) (hmain : c.main = [])
    (hover : wrapAdd c.totalBytes entrySize > c.budgetBytes) (hne : ¬ c.map.entries.isEmpty) (fuel : Nat) :
    evictLoop fuel entrySize c = none := by
  have hone : c.evictOne = c := by
    have hdrain : ∀ target overExists fuel, drainMain target overExists fuel 0 c = c := by
      intro target overExists fuel
      cases fuel with
      | zero => rfl
      | succ fuel => rw [drainMain, hmain]
    rw [evictOne, if_neg (Nat.not_le.mpr hshare), evictFromMain, hdrain, hdrain, ite_self]
  induction fuel with
  | zero => rw [evictLoop, if_pos ⟨hover, hne⟩]
  | succ fuel ih => rw [evictLoop, if_pos ⟨hover, hne⟩, hone, ih]

end

end

section

attribute [local instance] linkedHashes

/-- The second entry pushes the first out, and is overwritten by a larger one. -/
def growing : List (CacheOp Unit) :=
  [.insertFor [97] () 435 0, .insertFor [98] () 535 7, .get [98], .insertFor [98] () 935 7]

theorem bytes_within_budget_growing : ∃ h c,
    Transition.Run step (fun _ c op => c.Fits op ∧ c.Budgeted op) [] (new 1000 : S3Fifo Unit) h c ∧
    c.evictions = 1 ∧ c.totalBytes = 1000 ∧ (c.sizes fun _ => true) ≤ 1000 ∧ c.totalBytes = c.sizes fun _ => true := by
  obtain ⟨h, c, hrun, hone, hfull⟩ := Transition.exists_run_of_exec
    (fun _ c => c.evictions = 1 ∧ c.totalBytes = 1000) growing
    (show (Transition.exec step (fun _ c op => c.Fits op ∧ c.Budgeted op) [] (new 1000 : S3Fifo Unit) growing).any _ =
      true by decide +kernel)
  exact ⟨h, c, hrun, hone, hfull, bytes_within_budget hrun⟩

/-- An overwrite does not look at the budget, and an entry larger than the budget goes into the empty cache. -/
theorem budget_exceeded :
    (((new 1000 : S3Fifo Unit).insertFor [97] () 35 0).bind fun c => c.insertFor [97] () 936 0).map
        (fun c => c.sizes fun _ => true) = some 1001 ∧
      ((new 1000 : S3Fifo Unit).insertFor [97] () 936 0).map (fun c => c.sizes fun _ => true) = some 1001 := by
  decide +kernel

/-- The entries are too many for the new one, and both queues have some. -/
theorem insertFor_returns_fairUse : ∃ h c,
    Transition.Run step (fun _ c op => c.Fits op ∧ c.Unqueued op) [] (new 1000 : S3Fifo Unit) h c ∧
    wrapAdd c.totalBytes 900 > c.budgetBytes ∧ c.main ≠ [] ∧ (∃ c', c.insertFor [101] () 835 7 = some c') ∧
      ∀ (c : S3Fifo Unit) (target : Nat) (overExists : Bool) (more : Nat),
        drainMain target overExists (c.mainFuel + more) 0 c = drainMain target overExists c.mainFuel 0 c := by
  obtain ⟨h, c, hrun, hover, hmain, hfits, hroom⟩ := Transition.exists_run_of_exec
    (fun _ c => wrapAdd c.totalBytes 900 > c.budgetBytes ∧ c.main ≠ [] ∧ c.Fits (.insertFor [101] () 835 7) ∧
      c.HasRoom 900) fairUse
    (show (Transition.exec step (fun _ c op => c.Fits op ∧ c.Unqueued op) [] (new 1000 : S3Fifo Unit) fairUse).any _ =
      true by decide +kernel)
  exact ⟨h, c, hrun, hover, hmain, insertFor_returns hrun hfits fun _ => hroom⟩

def oneEntry : List (CacheOp Unit) := [.insertFor [97] () 30 0]

/-- An entry below the share of `small` is all there is, and the new one does not fit beside it. -/
theorem insertFor_spins : ∃ h c,
    Transition.Run step (fun _ c op => c.Fits op ∧ c.Unqueued op) [] (new 1000 : S3Fifo Unit) h c ∧
    c.Fits (.insertFor [98] () 885 0) ∧ c.map.lookup [98] = none ∧ ∀ fuel, evictLoop fuel 950 c = none := by
  obtain ⟨h, c, hrun, hfits, hnew, hshare, hmain, hover, hne⟩ := Transition.exists_run_of_exec
    (fun _ c => c.Fits (.insertFor [98] () 885 0) ∧ (c.map.lookup [98]).isNone ∧ c.smallBytes < c.smallBudget ∧
      c.main = [] ∧ wrapAdd c.totalBytes 950 > c.budgetBytes ∧ ¬ c.map.entries.isEmpty) oneEntry
    (show (Transition.exec step (fun _ c op => c.Fits op ∧ c.Unqueued op) [] (new 1000 : S3Fifo Unit) oneEntry).any _ =
      true by decide +kernel)
  exact ⟨h, c, hrun, hfits, Option.isNone_iff_eq_none.mp hnew, evictLoop_spins hshare hmain hover hne⟩

end

end S3Fifo

end Skeg
