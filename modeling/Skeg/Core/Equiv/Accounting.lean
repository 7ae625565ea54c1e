import Skeg.Core.Cache
import Skeg.Core.Hashes
import Skeg.Lib.FiniteMap
import Skeg.Lib.Transition

/-!
# The byte counters of the cache

`Exact` says that the counters are the sums of the sizes of the resident entries: of all of them, of those marked
as being in `small`, and of those of each tenant.  An entry that is removed leaves its key in its queue.  When the
key is inserted again, the old key in the queue stands for the new entry as well, and the entry can be taken out of
`small` twice: `small_bytes` then goes below zero (`small_bytes_wraps`).  The counters are exact, and none of their
subtractions goes below zero, as long as a key is inserted only when no queue has it any more (`counters_exact`).
-/

namespace Skeg

namespace S3Fifo

open FiniteMap (sumBy)

/-! ### Sums -/

section

variable {V : Type} {c c' : S3Fifo V} {key : Bytes} {e e' : CacheEntry V} {n t : Nat}

/-- The sizes of the entries that a counter stands for. -/
def sizes (p : CacheEntry V → Bool) (c : S3Fifo V) : Nat :=
  sumBy (fun _ e => if p e then e.size else 0) c.map

theorem wrapSub_of_le {a b : Nat} (hb : b ≤ a) (ha : a < 2 ^ 64) : wrapSub a b = a - b := by
  unfold wrapSub
  omega

theorem wrapAdd_of_lt {a b : Nat} (h : a + b < 2 ^ 64) : wrapAdd a b = a + b := Nat.mod_eq_of_lt h

/-- The counters are those of the resident entries, and fit a `usize`. -/
structure Exact (c : S3Fifo V) : Prop where
  total : c.totalBytes = c.sizes fun _ => true
  small : c.smallBytes = c.sizes CacheEntry.inSmall
  tenants : ∀ t, c.tenantCharged t = c.sizes fun e => e.tenant = t
  fits : c.totalBytes < 2 ^ 64

theorem exact_new (budget : Nat) : (new budget : S3Fifo V).Exact := by
  refine ⟨rfl, rfl, fun t => ?_, show (0 : Nat) < 2 ^ 64 by decide⟩
  unfold tenantCharged new
  split_ifs <;> rfl

theorem sizes_erase (c' : S3Fifo V) (he : c.map.lookup key = some e) (hmap : c'.map = c.map.erase key)
    (p : CacheEntry V → Bool) : c'.sizes p + (if p e then e.size else 0) = c.sizes p := by
  have h := FiniteMap.sumBy_erase (fun _ e => if p e then e.size else 0) c.map key
  rw [he, Option.elim_some] at h
  rw [sizes, hmap]
  exact h

theorem sizes_replace (c' : S3Fifo V) (he : c.map.lookup key = some e) (hmap : c'.map = c.map.insert key e')
    (p : CacheEntry V → Bool) :
    c'.sizes p + (if p e then e.size else 0) = c.sizes p + if p e' then e'.size else 0 := by
  have h := FiniteMap.sumBy_insert (fun _ e => if p e then e.size else 0) c.map key e'
  rw [he, Option.elim_some] at h
  rw [sizes, hmap]
  exact h

theorem sizes_new (c' : S3Fifo V) (hnone : c.map.lookup key = none) (hmap : c'.map = c.map.insert key e')
    (p : CacheEntry V → Bool) : c'.sizes p = c.sizes p + if p e' then e'.size else 0 := by
  have h := FiniteMap.sumBy_insert (fun _ e => if p e then e.size else 0) c.map key e'
  rw [hnone, Option.elim_none] at h
  rw [sizes, hmap]
  exact h

theorem sizes_le (c : S3Fifo V) (p : CacheEntry V → Bool) : c.sizes p ≤ c.sizes fun _ => true := by
  unfold sizes sumBy
  induction c.map.entries with
  | nil => exact Nat.le_refl 0
  | cons x l ih =>
    simp only [List.map_cons, List.sum_cons, if_true] at ih ⊢
    split_ifs <;> omega

/-! ### The counters of the tenants -/

/-- The subtraction from the counter of a tenant, where there is one, does not go below zero. -/
def SubTenantWithin (c : S3Fifo V) (tenant n : Nat) : Prop :=
  if tenant = 0 then n ≤ c.tenant0Bytes else ∀ v ∈ c.perTenant.lookup tenant, n ≤ v

theorem subTenantWithin_of_le (h : n ≤ c.tenantCharged t) : c.SubTenantWithin t n := by
  unfold SubTenantWithin
  unfold tenantCharged at h
  split_ifs at h ⊢
  · exact h
  · intro v hv
    rw [Option.mem_def.mp hv] at h
    exact h

theorem tenantCharged_subTenantBytes (hn : n ≤ c.tenantCharged t) (hc : c.tenantCharged t < 2 ^ 64) (u : Nat) :
    (c.subTenantBytes t n).tenantCharged u = if u = t then c.tenantCharged t - n else c.tenantCharged u := by
  unfold subTenantBytes
  by_cases ht : t = 0
  · subst ht
    simp only [tenantCharged, if_true] at hn hc ⊢
    by_cases hu : u = 0 <;> simp [hu, wrapSub_of_le hn hc]
  · simp only [tenantCharged, ht, if_false] at hn hc ⊢
    cases hv : c.perTenant.lookup t with
    | none =>
      rw [hv] at hn
      by_cases hu : u = t
      · subst hu
        simp [ht, hv]
      · simp [hu]
    | some v =>
      rw [hv, Option.getD_some] at hn hc
      simp only [wrapSub_of_le hn hc]
      by_cases hu : u = t
      · subst hu
        by_cases hz : v - n = 0 <;> simp [ht, hz]
      · by_cases hz : v - n = 0 <;> simp [hz, hu]

theorem tenantCharged_addTenantBytes (hc : c.tenantCharged t + n < 2 ^ 64) (u : Nat) :
    (c.addTenantBytes t n).tenantCharged u = if u = t then c.tenantCharged t + n else c.tenantCharged u := by
  unfold addTenantBytes
  by_cases ht : t = 0
  · subst ht
    simp only [tenantCharged, if_true] at hc ⊢
    by_cases hu : u = 0 <;> simp [hu, wrapAdd_of_lt hc]
  · simp only [tenantCharged, ht, if_false] at hc ⊢
    by_cases hu : u = t
    · subst hu
      simp [ht, wrapAdd_of_lt hc]
    · simp [hu]

/-- Nothing else depends on the counters of the tenants. -/
theorem subTenantBytes_eq (c : S3Fifo V) (t n : Nat) :
    ∃ a p, c.subTenantBytes t n = { c with tenant0Bytes := a, perTenant := p } := by
  unfold subTenantBytes
  split_ifs
  · exact ⟨_, _, rfl⟩
  · split
    · exact ⟨_, _, rfl⟩
    · split_ifs <;> exact ⟨_, _, rfl⟩

theorem addTenantBytes_eq (c : S3Fifo V) (t n : Nat) :
    ∃ a p, c.addTenantBytes t n = { c with tenant0Bytes := a, perTenant := p } := by
  unfold addTenantBytes
  split_ifs <;> exact ⟨_, _, rfl⟩

/-! ### What happens to an entry -/

/-- A resident entry is part of its sums. -/
theorem Exact.size_le (h : c.Exact) (he : c.map.lookup key = some e) :
    e.size ≤ c.totalBytes ∧ (e.inSmall = true → e.size ≤ c.smallBytes) ∧ e.size ≤ c.tenantCharged e.tenant := by
  have hpart : ∀ p : CacheEntry V → Bool, p e = true → e.size ≤ c.sizes p := fun p hp => by
    have hsum := sizes_erase { c with map := c.map.erase key } he rfl p
    rw [if_pos hp] at hsum
    omega
  refine ⟨h.total ▸ hpart _ rfl, fun hs => h.small ▸ hpart _ hs, ?_⟩
  rw [h.tenants]
  exact hpart _ (by simp)

theorem Exact.small_le (h : c.Exact) : c.smallBytes ≤ c.totalBytes := by
  rw [h.small, h.total]
  exact c.sizes_le _

theorem Exact.tenant_le (h : c.Exact) (t : Nat) : c.tenantCharged t ≤ c.totalBytes := by
  rw [h.tenants, h.total]
  exact c.sizes_le _

/-- The entry stays with its size, its tenant and its queue. -/
theorem Exact.touch (h : c.Exact) (he : c.map.lookup key = some e) (hsize : e'.size = e.size)
    (hsmall : e'.inSmall = e.inSmall) (htenant : e'.tenant = e.tenant) {m : List Bytes} :
    Exact { c with map := c.map.insert key e', main := m } := by
  have hsame : ∀ p : CacheEntry V → Bool, p e' = p e →
      sizes p { c with map := c.map.insert key e', main := m } = c.sizes p := fun p hp => by
    have hsum := sizes_replace { c with map := c.map.insert key e', main := m } he rfl p
    rw [hp, hsize] at hsum
    omega
  refine ⟨?_, ?_, fun t => ?_, h.fits⟩
  · exact h.total.trans (hsame _ rfl).symm
  · exact h.small.trans (hsame _ hsmall).symm
  · exact (h.tenants t).trans (hsame _ (by rw [htenant])).symm

/-- An entry of `small` moves to `main`. -/
theorem Exact.promote (h : c.Exact) (he : c.map.lookup key = some e) (hin : e.inSmall = true)
    (hsize : e'.size = e.size) (hout : e'.inSmall = false) (htenant : e'.tenant = e.tenant) {m : List Bytes} :
    Exact { c with map := c.map.insert key e', smallBytes := wrapSub c.smallBytes e.size, main := m } := by
  obtain ⟨-, hle, -⟩ := h.size_le he
  have hlt := h.small_le.trans_lt h.fits
  have hsum := fun p : CacheEntry V → Bool =>
    sizes_replace { c with map := c.map.insert key e', smallBytes := wrapSub c.smallBytes e.size, main := m }
      he rfl p
  refine ⟨h.total.trans ?_, ?_, fun t => (h.tenants t).trans ?_, h.fits⟩
  · have := hsum fun _ => true
    rw [if_pos rfl, if_pos rfl, hsize] at this
    omega
  · have := hsum CacheEntry.inSmall
    rw [hin, hout, if_pos rfl, ← h.small] at this
    refine (wrapSub_of_le (hle hin) hlt).trans ?_
    simp only [Bool.false_eq_true, if_false] at this
    omega
  · have := hsum fun e => e.tenant = t
    rw [htenant, hsize] at this
    omega

/-- An entry goes. -/
theorem Exact.forget (h : c.Exact) (he : c.map.lookup key = some e) (hmap : c'.map = c.map.erase key)
    (htotal : c'.totalBytes = wrapSub c.totalBytes e.size)
    (hsmall : c'.smallBytes = if e.inSmall then wrapSub c.smallBytes e.size else c.smallBytes)
    (htenants : ∀ u, c'.tenantCharged u =
      if u = e.tenant then c.tenantCharged e.tenant - e.size else c.tenantCharged u) : c'.Exact := by
  obtain ⟨hle, hles, hlet⟩ := h.size_le he
  have hsum := fun p : CacheEntry V → Bool => sizes_erase c' he hmap p
  have hfits := h.fits
  have hlt := h.small_le.trans_lt h.fits
  have htotal' : c'.totalBytes = c'.sizes fun _ => true := by
    have := hsum fun _ => true
    rw [if_pos rfl, ← h.total] at this
    rw [htotal, wrapSub_of_le hle hfits]
    omega
  refine ⟨htotal', ?_, fun u => ?_, ?_⟩
  · have := hsum CacheEntry.inSmall
    rw [hsmall]
    rw [← h.small] at this
    split_ifs at this ⊢ with hin
    · rw [wrapSub_of_le (hles hin) hlt]
      omega
    · omega
  · have := hsum fun e => e.tenant = u
    rw [← h.tenants] at this
    rw [htenants]
    simp only [decide_eq_true_eq] at this
    by_cases hu : u = e.tenant
    · subst hu
      rw [if_pos rfl] at this ⊢
      omega
    · rw [if_neg (Ne.symm hu)] at this
      rw [if_neg hu]
      omega
  · rw [htotal, wrapSub_of_le hle hfits]
    omega

/-- An entry goes, with its bytes of the tenant's counter. -/
theorem Exact.erase (c' : S3Fifo V) (h : c.Exact) (he : c.map.lookup key = some e) (hmap : c'.map = c.map.erase key)
    (htotal : c'.totalBytes = wrapSub c.totalBytes e.size)
    (hsmall : c'.smallBytes = if e.inSmall then wrapSub c.smallBytes e.size else c.smallBytes)
    (hanon : c'.tenant0Bytes = c.tenant0Bytes) (hper : c'.perTenant = c.perTenant) :
    (c'.subTenantBytes e.tenant e.size).Exact := by
  obtain ⟨-, -, hle⟩ := h.size_le he
  have hcharged : ∀ u, c'.tenantCharged u = c.tenantCharged u := fun u => by
    unfold tenantCharged
    rw [hanon, hper]
  have htenants : ∀ u, (c'.subTenantBytes e.tenant e.size).tenantCharged u =
      if u = e.tenant then c.tenantCharged e.tenant - e.size else c.tenantCharged u := fun u => by
    rw [tenantCharged_subTenantBytes ((hcharged _).symm ▸ hle) ((hcharged _).symm ▸ (h.tenant_le _).trans_lt h.fits), hcharged,
      hcharged]
  obtain ⟨a, p, hsub⟩ := c'.subTenantBytes_eq e.tenant e.size
  rw [hsub] at htenants ⊢
  exact h.forget he hmap htotal hsmall htenants

/-! ### The queues -/

/-- A key is in `small` at most once, and the queues have the keys of their own entries only. -/
structure Queued (small : List Bytes) (c : S3Fifo V) : Prop where
  once : small.Nodup
  inSmall : ∀ k ∈ small, ∀ e, c.map.lookup k = some e → e.inSmall = true
  inMain : ∀ k ∈ c.main, ∀ e, c.map.lookup k = some e → e.inSmall = false

/-- Evictions have taken `c`, with `small` left in its queue, to `c'`. -/
structure Evicts (small : List Bytes) (c c' : S3Fifo V) : Prop where
  exact : c'.Exact
  queued : Queued c'.small c'
  queues : ∀ k, k ∈ c'.small ∨ k ∈ c'.main → k ∈ small ∨ k ∈ c.main
  absent : ∀ k, c.map.lookup k = none → c'.map.lookup k = none
  bytes : c'.totalBytes ≤ c.totalBytes

/-- Nothing new in the queues, and every entry where it was. -/
theorem Queued.mono {small small' : List Bytes} (h : Queued small c) (hsub : small'.Sublist small)
    (hmain : ∀ k ∈ c'.main, k ∈ c.main)
    (hmap : ∀ k x, c'.map.lookup k = some x → ∃ x', c.map.lookup k = some x' ∧ x'.inSmall = x.inSmall) :
    Queued small' c' := by
  refine ⟨h.once.sublist hsub, fun k hk x hx => ?_, fun k hk x hx => ?_⟩
  · obtain ⟨x', hx', hsame⟩ := hmap k x hx
    exact hsame.symm.trans (h.inSmall k (hsub.subset hk) x' hx')
  · obtain ⟨x', hx', hsame⟩ := hmap k x hx
    exact hsame.symm.trans (h.inMain k (hmain k hk) x' hx')

/-- What was evicted before is forgotten as well. -/
theorem Evicts.after {small small' : List Bytes} {c₁ : S3Fifo V} (h : Evicts small' c₁ c')
    (hqueues : ∀ k, k ∈ small' ∨ k ∈ c₁.main → k ∈ small ∨ k ∈ c.main)
    (habsent : ∀ k, c.map.lookup k = none → c₁.map.lookup k = none) (hbytes : c₁.totalBytes ≤ c.totalBytes) :
    Evicts small c c' :=
  ⟨h.exact, h.queued, fun k hk => hqueues k (h.queues k hk), fun k hk => h.absent k (habsent k hk),
    h.bytes.trans hbytes⟩

theorem Evicts.trans {small : List Bytes} {c₁ : S3Fifo V} (h : Evicts small c c₁) (h' : Evicts c₁.small c₁ c') :
    Evicts small c c' :=
  h'.after h.queues h.absent h.bytes

/-! ### Evictions -/

/-- `drainSmall` with `key` moved to `main`. -/
def promoted (key : Bytes) (e : CacheEntry V) (c : S3Fifo V) : S3Fifo V :=
  { c with
    map := c.map.insert key { e with freq := 0, inSmall := false }
    smallBytes := wrapSub c.smallBytes e.size
    main := c.main ++ [key] }

/-- The subtractions of `evict_from_small` do not go below zero. -/
def DrainSmallWithin : List Bytes → S3Fifo V → Prop
  | [], _ => True
  | key :: small, c =>
    match c.map.lookup key with
    | none => DrainSmallWithin small c
    | some e =>
      e.size ≤ c.smallBytes ∧
        if e.freq > 1 then DrainSmallWithin small (c.promoted key e)
        else e.size ≤ c.totalBytes ∧ c.SubTenantWithin e.tenant e.size

/-- The subtractions of `evict_from_main` do not go below zero. -/
def DrainMainWithin (target : Nat) (overExists : Bool) : Nat → Nat → S3Fifo V → Prop
  | 0, _, _ => True
  | fuel + 1, skips, c =>
    match c.main with
    | [] => True
    | key :: main =>
      match c.map.lookup key with
      | none => DrainMainWithin target overExists fuel skips { c with main := main }
      | some e =>
        if e.freq > 0 then
          DrainMainWithin target overExists fuel skips { c with
            map := c.map.insert key { e with freq := e.freq - 1 }
            main := main ++ [key] }
        else if overExists && decide (skips < maxFairSkips) &&
            decide (c.tenantCharged e.tenant ≤ target) then
          DrainMainWithin target overExists fuel (skips + 1) { c with main := main ++ [key] }
        else e.size ≤ c.totalBytes ∧ c.SubTenantWithin e.tenant e.size

theorem lookup_insert_eq_none {e' : CacheEntry V} (he : c.map.lookup key = some e) {k : Bytes}
    (hk : c.map.lookup k = none) : (c.map.insert key e').lookup k = none := by
  have hne : k ≠ key := by
    rintro rfl
    rw [he] at hk
    cases hk
  rw [AList.lookup_insert_ne hne, hk]

theorem lookup_insert_touched {e' : CacheEntry V} (he : c.map.lookup key = some e) (hsame : e'.inSmall = e.inSmall)
    (k : Bytes) (x : CacheEntry V) (h : (c.map.insert key e').lookup k = some x) :
    ∃ x', c.map.lookup k = some x' ∧ x'.inSmall = x.inSmall := by
  by_cases hk : k = key
  · subst hk
    obtain rfl : e' = x := Option.some.inj ((AList.lookup_insert c.map).symm.trans h)
    exact ⟨e, he, hsame.symm⟩
  · exact ⟨x, AList.lookup_insert_ne hk ▸ h, rfl⟩

theorem lookup_erase_touched (k : Bytes) (x : CacheEntry V) (h : (c.map.erase key).lookup k = some x) :
    ∃ x', c.map.lookup k = some x' ∧ x'.inSmall = x.inSmall := by
  have hne : k ≠ key := by
    rintro rfl
    rw [AList.lookup_erase] at h
    cases h
  exact ⟨x, AList.lookup_erase_ne hne ▸ h, rfl⟩

theorem lookup_erase_eq_none {k : Bytes} (h : c.map.lookup k = none) : (c.map.erase key).lookup k = none := by
  by_cases hk : k = key
  · rw [hk, AList.lookup_erase]
  · rw [AList.lookup_erase_ne hk, h]

theorem Queued.promoted {small : List Bytes} (h : Queued (key :: small) c) :
    Queued small (c.promoted key e) := by
  have hnotin : key ∉ small := (List.nodup_cons.mp h.once).1
  refine ⟨h.once.tail, fun k hk x hx => ?_, fun k hk x hx => ?_⟩
  · have hne : k ≠ key := fun he => hnotin (he ▸ hk)
    exact h.inSmall k (List.mem_cons_of_mem _ hk) x (AList.lookup_insert_ne hne ▸ hx)
  · by_cases hne : k = key
    · subst hne
      obtain rfl : _ = x := Option.some.inj ((AList.lookup_insert c.map).symm.trans hx)
      rfl
    · have hmain : k ∈ c.main := by simpa [S3Fifo.promoted, hne] using hk
      exact h.inMain k hmain x (AList.lookup_insert_ne hne ▸ hx)

theorem drainMain_evicts (target : Nat) (overExists : Bool) (fuel skips : Nat) (c : S3Fifo V) (h : c.Exact)
    (hq : Queued c.small c) :
    DrainMainWithin target overExists fuel skips c ∧ Evicts c.small c (drainMain target overExists fuel skips c) := by
  induction fuel generalizing skips c with
  | zero => exact ⟨trivial, h, hq, fun _ hk => hk, fun _ hk => hk, Nat.le_refl _⟩
  | succ fuel ih =>
    unfold DrainMainWithin drainMain
    cases hmain : c.main with
    | nil => exact ⟨trivial, h, hq, fun _ hk => hk, fun _ hk => hk, Nat.le_refl _⟩
    | cons key main =>
      have hin : ∀ k ∈ main, k ∈ c.main := fun k hk => hmain ▸ List.mem_cons_of_mem _ hk
      have hback : ∀ k ∈ main ++ [key], k ∈ c.main := fun k hk => by
        rw [hmain]
        simpa [or_comm] using hk
      have hsame : ∀ k x, c.map.lookup k = some x → ∃ x', c.map.lookup k = some x' ∧ x'.inSmall = x.inSmall :=
        fun _ x hx => ⟨x, hx, rfl⟩
      dsimp only
      cases he : c.map.lookup key with
      | none =>
        dsimp only
        obtain ⟨hwithin, hevicts⟩ := ih skips { c with main := main } ⟨h.total, h.small, h.tenants, h.fits⟩
          (hq.mono (List.Sublist.refl _) hin hsame)
        exact ⟨hwithin, hevicts.after (fun k hk => hk.imp_right (hin k)) (fun _ hk => hk) (Nat.le_refl _)⟩
      | some e =>
        dsimp only
        split_ifs with hfreq hspare
        · obtain ⟨hwithin, hevicts⟩ := ih skips
            { c with map := c.map.insert key { e with freq := e.freq - 1 }, main := main ++ [key] }
            (h.touch he (by rfl) (by rfl) (by rfl))
            (hq.mono (List.Sublist.refl _) hback (lookup_insert_touched he (by rfl)))
          exact ⟨hwithin, hevicts.after (fun k hk => hk.imp_right (hback k)) (fun _ => lookup_insert_eq_none he)
            (Nat.le_refl _)⟩
        · obtain ⟨hwithin, hevicts⟩ := ih (skips + 1) { c with main := main ++ [key] }
            ⟨h.total, h.small, h.tenants, h.fits⟩ (hq.mono (List.Sublist.refl _) hback hsame)
          exact ⟨hwithin, hevicts.after (fun k hk => hk.imp_right (hback k)) (fun _ hk => hk) (Nat.le_refl _)⟩
        · obtain ⟨hle, -, htenant⟩ := h.size_le he
          refine ⟨⟨hle, subTenantWithin_of_le htenant⟩, ?_⟩
          -- an entry of `main` is not counted in `small_bytes`
          have hout : e.inSmall = false := hq.inMain key (hmain ▸ List.mem_cons_self) e he
          have hexact := Exact.erase { c with
            main := main
            map := c.map.erase key
            totalBytes := wrapSub c.totalBytes e.size } h he rfl rfl (by rw [hout]; rfl) rfl rfl
          obtain ⟨a, p, hsub⟩ := subTenantBytes_eq { c with
            main := main
            map := c.map.erase key
            totalBytes := wrapSub c.totalBytes e.size } e.tenant e.size
          rw [hsub] at hexact ⊢
          exact ⟨⟨hexact.total, hexact.small, hexact.tenants, hexact.fits⟩,
            hq.mono (List.Sublist.refl _) hin lookup_erase_touched,
            fun k hk => hk.imp_right (hin k), fun _ => lookup_erase_eq_none,
            (wrapSub_of_le hle h.fits).trans_le (Nat.sub_le _ _)⟩

variable [H : Hashes]

theorem drainSmall_evicts (small : List Bytes) (c : S3Fifo V) (h : c.Exact) (hq : Queued small c) :
    DrainSmallWithin small c ∧ Evicts small c (drainSmall small c).2 := by
  induction small generalizing c with
  | nil =>
    exact ⟨trivial, ⟨h.total, h.small, h.tenants, h.fits⟩, ⟨hq.once, hq.inSmall, hq.inMain⟩, fun _ hk => hk,
      fun _ hk => hk, Nat.le_refl _⟩
  | cons key small ih =>
    unfold DrainSmallWithin drainSmall
    have htail : Queued small c := hq.mono (List.sublist_cons_self _ _) (fun _ hk => hk) fun _ x hx => ⟨x, hx, rfl⟩
    cases he : c.map.lookup key with
    | none =>
      dsimp only
      obtain ⟨hwithin, hevicts⟩ := ih c h htail
      exact ⟨hwithin, hevicts.after (fun k hk => hk.imp_left (List.mem_cons_of_mem _)) (fun _ hk => hk)
        (Nat.le_refl _)⟩
    | some e =>
      dsimp only
      have hin : e.inSmall = true := hq.inSmall key List.mem_cons_self e he
      obtain ⟨hle, hsmall, htenant⟩ := h.size_le he
      split_ifs with hfreq
      · obtain ⟨hwithin, hevicts⟩ := ih (c.promoted key e) (h.promote he hin (by rfl) (by rfl) (by rfl)) hq.promoted
        refine ⟨⟨hsmall hin, hwithin⟩, hevicts.after (fun k hk => ?_) (fun _ => lookup_insert_eq_none he)
          (Nat.le_refl _)⟩
        have hmain : (c.promoted key e).main = c.main ++ [key] := rfl
        rw [hmain, List.mem_append, List.mem_singleton] at hk
        rw [List.mem_cons]
        tauto
      · refine ⟨⟨hsmall hin, hle, subTenantWithin_of_le htenant⟩, ?_⟩
        have hexact := Exact.erase { c with
          small := small
          map := c.map.erase key
          totalBytes := wrapSub c.totalBytes e.size
          smallBytes := wrapSub c.smallBytes e.size } h he rfl rfl (by rw [if_pos hin]) rfl rfl
        obtain ⟨a, p, hsub⟩ := subTenantBytes_eq { c with
          small := small
          map := c.map.erase key
          totalBytes := wrapSub c.totalBytes e.size
          smallBytes := wrapSub c.smallBytes e.size } e.tenant e.size
        rw [hsub] at hexact ⊢
        exact ⟨⟨hexact.total, hexact.small, hexact.tenants, hexact.fits⟩,
          htail.mono (List.Sublist.refl _) (fun _ hk => hk) lookup_erase_touched,
          fun k hk => hk.imp_left (List.mem_cons_of_mem _), fun _ => lookup_erase_eq_none,
          (wrapSub_of_le hle h.fits).trans_le (Nat.sub_le _ _)⟩

def EvictFromMainWithin (c : S3Fifo V) : Prop :=
  if c.perTenant.entries.isEmpty then DrainMainWithin 0 false c.mainFuel 0 c
  else DrainMainWithin c.shareTarget (c.hasOverShare c.shareTarget) c.mainFuel 0 c

def EvictOneWithin (c : S3Fifo V) : Prop :=
  if c.smallBytes ≥ c.smallBudget then
    DrainSmallWithin c.small c ∧ (c.evictFromSmall.1 = false → EvictFromMainWithin c.evictFromSmall.2)
  else EvictFromMainWithin c

/-- The first rounds of the loop of `insert_for`. -/
def EvictLoopWithin : Nat → Nat → S3Fifo V → Prop
  | 0, _, _ => True
  | rounds + 1, entrySize, c =>
    wrapAdd c.totalBytes entrySize > c.budgetBytes ∧ ¬ c.map.entries.isEmpty →
      EvictOneWithin c ∧ EvictLoopWithin rounds entrySize c.evictOne

omit H in
theorem evictFromMain_evicts (h : c.Exact) (hq : Queued c.small c) :
    EvictFromMainWithin c ∧ Evicts c.small c c.evictFromMain := by
  unfold EvictFromMainWithin evictFromMain
  split_ifs <;> exact drainMain_evicts _ _ _ _ c h hq

theorem evictOne_evicts (h : c.Exact) (hq : Queued c.small c) :
    EvictOneWithin c ∧ Evicts c.small c c.evictOne := by
  unfold EvictOneWithin evictOne
  obtain ⟨hwithin, hevicts⟩ := drainSmall_evicts c.small c h hq
  obtain ⟨hwithin', hevicts'⟩ := evictFromMain_evicts hevicts.exact hevicts.queued
  dsimp only
  split_ifs
  · exact ⟨⟨hwithin, fun _ => hwithin'⟩, hevicts⟩
  · exact ⟨⟨hwithin, fun _ => hwithin'⟩, hevicts.trans hevicts'⟩
  · exact evictFromMain_evicts h hq

theorem evictLoopWithin_of_exact (h : c.Exact) (hq : Queued c.small c) (rounds entrySize : Nat) :
    EvictLoopWithin rounds entrySize c := by
  induction rounds generalizing c with
  | zero => trivial
  | succ rounds ih =>
    intro _
    obtain ⟨hwithin, hevicts⟩ := evictOne_evicts h hq
    exact ⟨hwithin, ih hevicts.exact hevicts.queued⟩

theorem evictLoop_evicts {fuel entrySize : Nat} (h : c.Exact) (hq : Queued c.small c)
    (hloop : evictLoop fuel entrySize c = some c') : Evicts c.small c c' := by
  induction fuel generalizing c with
  | zero =>
    unfold evictLoop at hloop
    split_ifs at hloop
    obtain rfl := Option.some.inj hloop
    exact ⟨h, hq, fun _ hk => hk, fun _ hk => hk, Nat.le_refl _⟩
  | succ fuel ih =>
    unfold evictLoop at hloop
    split_ifs at hloop
    · obtain ⟨-, hevicts⟩ := evictOne_evicts h hq
      exact hevicts.trans (ih hevicts.exact hevicts.queued hloop)
    · obtain rfl := Option.some.inj hloop
      exact ⟨h, hq, fun _ hk => hk, fun _ hk => hk, Nat.le_refl _⟩

/-! ### Inserts -/

omit H in
/-- The bytes of an entry move from the old size and tenant to the new ones. -/
theorem Exact.replace (h : c.Exact) (he : c.map.lookup key = some e) (hfits : c.totalBytes + e'.size < 2 ^ 64)
    (hin : e'.inSmall = e.inSmall) (hmap : c'.map = c.map.insert key e')
    (htotal : c'.totalBytes = wrapSub (wrapAdd c.totalBytes e'.size) e.size)
    (hsmall : c'.smallBytes = if e.inSmall then wrapSub (wrapAdd c.smallBytes e'.size) e.size else c.smallBytes)
    (htenants : ∀ u, c'.tenantCharged u = (if u = e'.tenant then e'.size else 0) +
      if u = e.tenant then c.tenantCharged u - e.size else c.tenantCharged u) : c'.Exact := by
  obtain ⟨hle, hles, hlet⟩ := h.size_le he
  have hsmalls := h.small_le
  have hsum := fun q : CacheEntry V → Bool => sizes_replace c' he hmap q
  have hnew : c'.totalBytes = c.totalBytes + e'.size - e.size := by
    rw [htotal, wrapAdd_of_lt hfits, wrapSub_of_le (by omega) hfits]
  refine ⟨?_, ?_, fun u => ?_, by omega⟩
  · have := hsum fun _ => true
    rw [if_pos rfl, if_pos rfl, ← h.total] at this
    omega
  · have := hsum CacheEntry.inSmall
    rw [hin, ← h.small] at this
    rw [hsmall]
    split_ifs at this ⊢ with hs
    · have hles := hles hs
      rw [wrapAdd_of_lt (by omega), wrapSub_of_le (by omega) (by omega)]
      omega
    · omega
  · have := hsum fun e => e.tenant = u
    rw [← h.tenants] at this
    simp only [decide_eq_true_eq, eq_comm (a := e.tenant), eq_comm (a := e'.tenant)] at this
    rw [htenants]
    by_cases hu : u = e.tenant
    · subst hu
      rw [if_pos rfl] at this ⊢
      omega
    · rw [if_neg hu] at this ⊢
      omega

/-- The entry of a resident key is `e'` now, the counters of the tenants as before. -/
def overwritten (key : Bytes) (e e' : CacheEntry V) (c : S3Fifo V) : S3Fifo V :=
  { c with
    map := c.map.insert key e'
    totalBytes := wrapSub (wrapAdd c.totalBytes e'.size) e.size
    smallBytes := if e.inSmall then wrapSub (wrapAdd c.smallBytes e'.size) e.size else c.smallBytes }

omit H in
theorem Exact.overwritten (h : c.Exact) (he : c.map.lookup key = some e) (hfits : c.totalBytes + e'.size < 2 ^ 64)
    (hin : e'.inSmall = e.inSmall) :
    (((c.overwritten key e e').subTenantBytes e.tenant e.size).addTenantBytes e'.tenant e'.size).Exact := by
  obtain ⟨-, -, hlet⟩ := h.size_le he
  have hcharged : ∀ u, (c.overwritten key e e').tenantCharged u = c.tenantCharged u := fun _ => rfl
  have hsub : ∀ u, ((c.overwritten key e e').subTenantBytes e.tenant e.size).tenantCharged u =
      if u = e.tenant then c.tenantCharged u - e.size else c.tenantCharged u := fun u => by
    rw [tenantCharged_subTenantBytes ((hcharged _).symm ▸ hlet)
      ((hcharged _).symm ▸ (h.tenant_le _).trans_lt h.fits), hcharged, hcharged]
    split_ifs with hu
    · rw [hu]
    · rfl
  have hroom : ((c.overwritten key e e').subTenantBytes e.tenant e.size).tenantCharged e'.tenant + e'.size < 2 ^ 64 := by
    have hle := h.tenant_le e'.tenant
    rw [hsub]
    split_ifs <;> omega
  have hadd : ∀ u, (((c.overwritten key e e').subTenantBytes e.tenant e.size).addTenantBytes e'.tenant e'.size).tenantCharged u =
      (if u = e'.tenant then e'.size else 0) +
        if u = e.tenant then c.tenantCharged u - e.size else c.tenantCharged u := fun u => by
    rw [tenantCharged_addTenantBytes hroom, ← hsub u]
    split_ifs with hu
    · rw [hu, Nat.add_comm]
    · rw [Nat.zero_add]
  obtain ⟨a, p, hd⟩ := (c.overwritten key e e').subTenantBytes_eq e.tenant e.size
  rw [hd] at hadd ⊢
  obtain ⟨a', p', hd'⟩ := addTenantBytes_eq { c.overwritten key e e' with tenant0Bytes := a, perTenant := p } e'.tenant
    e'.size
  rw [hd'] at hadd ⊢
  exact h.replace he hfits hin rfl rfl rfl hadd

omit H in
theorem Exact.newEntry (h : c.Exact) (hnone : c.map.lookup key = none) (hfits : c.totalBytes + e'.size < 2 ^ 64)
    (hmap : c'.map = c.map.insert key e') (htotal : c'.totalBytes = wrapAdd c.totalBytes e'.size)
    (hsmall : c'.smallBytes = if e'.inSmall then wrapAdd c.smallBytes e'.size else c.smallBytes)
    (htenants : ∀ u, c'.tenantCharged u = c.tenantCharged u + if u = e'.tenant then e'.size else 0) : c'.Exact := by
  have hsum := fun q : CacheEntry V → Bool => sizes_new c' hnone hmap q
  have hsmalls := h.small_le
  rw [wrapAdd_of_lt hfits] at htotal
  refine ⟨?_, ?_, fun u => ?_, by omega⟩
  · have := hsum fun _ => true
    rw [if_pos rfl, ← h.total] at this
    omega
  · have := hsum CacheEntry.inSmall
    rw [← h.small] at this
    rw [this, hsmall]
    split_ifs
    · exact wrapAdd_of_lt (by omega)
    · rfl
  · have := hsum fun e => e.tenant = u
    rw [← h.tenants] at this
    simp only [decide_eq_true_eq, eq_comm (a := e'.tenant)] at this
    rw [htenants, this]

omit H in
/-- A key that no queue has joins the queue of its entry. -/
theorem Queued.push (h : Queued c.small c) (hsmall : key ∉ c.small) (hmain : key ∉ c.main)
    (hmap : c'.map = c.map.insert key e') (hnew : c'.small = if e'.inSmall then c.small ++ [key] else c.small)
    (hnew' : c'.main = if e'.inSmall then c.main else c.main ++ [key]) : Queued c'.small c' := by
  have hother : ∀ k, k ≠ key → c'.map.lookup k = c.map.lookup k := fun k hk => by
    rw [hmap, AList.lookup_insert_ne hk]
  have hself : ∀ x, c'.map.lookup key = some x → x = e' := fun x hx => by
    rw [hmap, AList.lookup_insert] at hx
    exact (Option.some.inj hx).symm
  rw [hnew]
  refine ⟨?_, fun k hk x hx => ?_, fun k hk x hx => ?_⟩
  · split_ifs
    · exact List.nodup_append.mpr ⟨h.once, List.nodup_singleton _, fun a ha b hb => by
        rintro rfl
        exact hsmall (List.mem_singleton.mp hb ▸ ha)⟩
    · exact h.once
  · by_cases hkk : k = key
    · subst hkk
      rw [hself x hx]
      split_ifs at hk with hin
      · exact hin
      · exact absurd hk hsmall
    · have hold : k ∈ c.small := by
        split_ifs at hk
        · simpa [hkk] using hk
        · exact hk
      exact h.inSmall k hold x (hother k hkk ▸ hx)
  · rw [hnew'] at hk
    by_cases hkk : k = key
    · subst hkk
      rw [hself x hx]
      split_ifs at hk with hin
      · exact absurd hk hmain
      · exact Bool.eq_false_iff.mpr hin
    · have hold : k ∈ c.main := by
        split_ifs at hk
        · exact hk
        · simpa [hkk] using hk
      exact h.inMain k hold x (hother k hkk ▸ hx)

/-- The key is resident and in the queue of its entry, the counters of the tenants as before. -/
def admitted (key : Bytes) (e' : CacheEntry V) (ghosts : List UInt64) (c : S3Fifo V) : S3Fifo V :=
  { c with
    ghostSet := ghosts
    small := if e'.inSmall then c.small ++ [key] else c.small
    smallBytes := if e'.inSmall then wrapAdd c.smallBytes e'.size else c.smallBytes
    main := if e'.inSmall then c.main else c.main ++ [key]
    map := c.map.insert key e'
    totalBytes := wrapAdd c.totalBytes e'.size }

structure Accounted (c : S3Fifo V) : Prop where
  exact : c.Exact
  queued : Queued c.small c

omit H in
theorem Accounted.overwritten (e' : CacheEntry V) (h : c.Accounted) (he : c.map.lookup key = some e)
    (hfits : c.totalBytes + e'.size < 2 ^ 64) (hin : e'.inSmall = e.inSmall) :
    (((c.overwritten key e e').subTenantBytes e.tenant e.size).addTenantBytes e'.tenant e'.size).Accounted := by
  refine ⟨h.exact.overwritten he hfits hin, ?_⟩
  obtain ⟨a, p, hsub⟩ := (c.overwritten key e e').subTenantBytes_eq e.tenant e.size
  rw [hsub]
  obtain ⟨a', p', hadd⟩ := addTenantBytes_eq { c.overwritten key e e' with tenant0Bytes := a, perTenant := p } e'.tenant
    e'.size
  rw [hadd]
  exact h.queued.mono (List.Sublist.refl _) (fun _ hk => hk) (lookup_insert_touched he hin)

omit H in
theorem Accounted.admitted {ghosts : List UInt64} (h : c.Accounted) (hnone : c.map.lookup key = none)
    (hfits : c.totalBytes + e'.size < 2 ^ 64) (hsmall : key ∉ c.small) (hmain : key ∉ c.main) :
    ((c.admitted key e' ghosts).addTenantBytes e'.tenant e'.size).Accounted := by
  have hroom : (c.admitted key e' ghosts).tenantCharged e'.tenant + e'.size < 2 ^ 64 :=
    (Nat.add_le_add_right (h.exact.tenant_le _) _).trans_lt hfits
  have htenants : ∀ u, ((c.admitted key e' ghosts).addTenantBytes e'.tenant e'.size).tenantCharged u =
      c.tenantCharged u + if u = e'.tenant then e'.size else 0 := fun u => by
    rw [tenantCharged_addTenantBytes hroom]
    split_ifs with hu
    · rw [hu]
      rfl
    · rfl
  obtain ⟨a, p, hadd⟩ := (c.admitted key e' ghosts).addTenantBytes_eq e'.tenant e'.size
  rw [hadd] at htenants ⊢
  exact ⟨h.exact.newEntry hnone hfits rfl rfl rfl htenants, h.queued.push hsmall hmain rfl rfl rfl⟩

/-! ### The operations -/

inductive CacheOp (V : Type) where
  | insertFor (key : Bytes) (value : V) (valueBytes tenant : Nat)
  | get (key : Bytes)
  | remove (key : Bytes)
  | evict

def step (c : S3Fifo V) : CacheOp V → Option (S3Fifo V × List Empty)
  | .insertFor key value valueBytes tenant => (c.insertFor key value valueBytes tenant).map (·, [])
  | .get key => some ((c.get key).2, [])
  | .remove key => some (c.remove key, [])
  | .evict => some (c.evictOne, [])

/-- No subtraction of the operation goes below zero. -/
def Within (c : S3Fifo V) : CacheOp V → Prop
  | .insertFor key _ valueBytes _ =>
    let entrySize := key.length + valueBytes + entryOverhead
    match c.map.lookup key with
    | some e =>
      e.size ≤ wrapAdd c.totalBytes entrySize ∧ (e.inSmall = true → e.size ≤ wrapAdd c.smallBytes entrySize) ∧
        c.SubTenantWithin e.tenant e.size
    | none => ∀ rounds, EvictLoopWithin rounds entrySize c
  | .get _ => True
  | .remove key => ∀ e ∈ c.map.lookup key,
      e.size ≤ c.totalBytes ∧ (e.inSmall = true → e.size ≤ c.smallBytes) ∧ c.SubTenantWithin e.tenant e.size
  | .evict => EvictOneWithin c

/-- The resident bytes and the new entry fit a `usize`. -/
def Fits (c : S3Fifo V) : CacheOp V → Prop
  | .insertFor key _ valueBytes _ =>
    (c.sizes fun _ => true) + (key.length + valueBytes + entryOverhead) < 2 ^ 64
  | _ => True

/-- A key that is not resident is inserted only when no queue has it. -/
def Unqueued (c : S3Fifo V) : CacheOp V → Prop
  | .insertFor key _ _ _ => c.map.lookup key = none → key ∉ c.small ∧ key ∉ c.main
  | _ => True

instance (c : S3Fifo V) : (op : CacheOp V) → Decidable (c.Fits op)
  | .insertFor key _ valueBytes _ =>
    inferInstanceAs (Decidable ((c.sizes fun _ => true) + (key.length + valueBytes + entryOverhead) < 2 ^ 64))
  | .get _ | .remove _ | .evict => inferInstanceAs (Decidable True)

instance (c : S3Fifo V) : (op : CacheOp V) → Decidable (c.Unqueued op)
  | .insertFor key _ _ _ => inferInstanceAs (Decidable (c.map.lookup key = none → key ∉ c.small ∧ key ∉ c.main))
  | .get _ | .remove _ | .evict => inferInstanceAs (Decidable True)

theorem Accounted.within {op : CacheOp V} (h : c.Accounted) (hfits : c.Fits op) : c.Within op := by
  cases op with
  | insertFor key value valueBytes tenant =>
    unfold Within
    unfold Fits at hfits
    rw [← h.exact.total] at hfits
    have hsmall := h.exact.small_le
    dsimp only
    cases he : c.map.lookup key with
    | none => exact fun rounds => evictLoopWithin_of_exact h.exact h.queued rounds _
    | some e =>
      obtain ⟨hle, hles, hlet⟩ := h.exact.size_le he
      refine ⟨?_, fun hin => ?_, subTenantWithin_of_le hlet⟩
      · rw [wrapAdd_of_lt hfits]
        omega
      · have hles := hles hin
        rw [wrapAdd_of_lt (by omega)]
        omega
  | get key => trivial
  | remove key =>
    intro e he
    obtain ⟨hle, hles, hlet⟩ := h.exact.size_le (Option.mem_def.mp he)
    exact ⟨hle, hles, subTenantWithin_of_le hlet⟩
  | evict => exact (evictOne_evicts h.exact h.queued).1

omit H in
theorem Accounted.get (h : c.Accounted) (key : Bytes) : (c.get key).2.Accounted := by
  unfold S3Fifo.get
  cases he : c.map.lookup key with
  | none => exact ⟨⟨h.exact.total, h.exact.small, h.exact.tenants, h.exact.fits⟩,
      ⟨h.queued.once, h.queued.inSmall, h.queued.inMain⟩⟩
  | some e =>
    have hexact : Exact { c with map := c.map.insert key { e with freq := bump e.freq }, main := c.main } :=
      h.exact.touch he (by rfl) (by rfl) (by rfl)
    exact ⟨⟨hexact.total, hexact.small, hexact.tenants, hexact.fits⟩,
      h.queued.mono (List.Sublist.refl _) (fun _ hk => hk) (lookup_insert_touched he (by rfl))⟩

omit H in
theorem Accounted.remove (h : c.Accounted) (key : Bytes) : (c.remove key).Accounted := by
  unfold S3Fifo.remove
  cases he : c.map.lookup key with
  | none => exact h
  | some e =>
    dsimp only
    have hexact := Exact.erase { c with
      map := c.map.erase key
      totalBytes := wrapSub c.totalBytes e.size
      smallBytes := if e.inSmall then wrapSub c.smallBytes e.size else c.smallBytes } h.exact he rfl rfl rfl rfl rfl
    obtain ⟨a, p, hsub⟩ := subTenantBytes_eq { c with
      map := c.map.erase key
      totalBytes := wrapSub c.totalBytes e.size
      smallBytes := if e.inSmall then wrapSub c.smallBytes e.size else c.smallBytes } e.tenant e.size
    rw [hsub] at hexact ⊢
    exact ⟨hexact, h.queued.mono (List.Sublist.refl _) (fun _ hk => hk) lookup_erase_touched⟩

theorem Accounted.insertFor {value : V} {valueBytes tenant : Nat} (h : c.Accounted)
    (hfits : c.Fits (.insertFor key value valueBytes tenant))
    (hqueue : c.Unqueued (.insertFor key value valueBytes tenant))
    (hinsert : c.insertFor key value valueBytes tenant = some c') : c'.Accounted := by
  unfold Fits at hfits
  rw [← h.exact.total] at hfits
  unfold S3Fifo.insertFor at hinsert
  dsimp only at hinsert
  cases he : c.map.lookup key with
  | some e =>
    rw [he] at hinsert
    obtain rfl := Option.some.inj hinsert
    exact Accounted.overwritten { e with value, size := _, tenant := tenant % 2 ^ 64 } h he hfits rfl
  | none =>
    rw [he] at hinsert
    dsimp only at hinsert
    cases hloop : evictLoop c.map.entries.length (key.length + valueBytes + entryOverhead) c with
    | none =>
      rw [hloop] at hinsert
      cases hinsert
    | some c₁ =>
      rw [hloop] at hinsert
      obtain rfl := Option.some.inj hinsert
      have hevicts := evictLoop_evicts h.exact h.queued hloop
      have hroom : c₁.totalBytes + (key.length + valueBytes + entryOverhead) < 2 ^ 64 :=
        (Nat.add_le_add_right hevicts.bytes _).trans_lt hfits
      obtain ⟨hsmall, hmain⟩ := hqueue he
      exact Accounted.admitted ⟨hevicts.exact, hevicts.queued⟩ (hevicts.absent key he) hroom
        (fun hk => (hevicts.queues key (.inl hk)).elim hsmall hmain)
        fun hk => (hevicts.queues key (.inr hk)).elim hsmall hmain

theorem Accounted.step {op : CacheOp V} {ev : List Empty} (h : c.Accounted) (hfits : c.Fits op)
    (hqueue : c.Unqueued op) (hstep : c.step op = some (c', ev)) : c'.Accounted := by
  cases op with
  | insertFor key value valueBytes tenant =>
    obtain ⟨c₁, hinsert, heq⟩ := Option.map_eq_some_iff.mp hstep
    obtain rfl : c₁ = c' := congrArg Prod.fst heq
    exact h.insertFor hfits hqueue hinsert
  | get key =>
    obtain rfl : (c.get key).2 = c' := congrArg Prod.fst (Option.some.inj hstep)
    exact h.get key
  | remove key =>
    obtain rfl : c.remove key = c' := congrArg Prod.fst (Option.some.inj hstep)
    exact h.remove key
  | evict =>
    obtain rfl : c.evictOne = c' := congrArg Prod.fst (Option.some.inj hstep)
    obtain ⟨-, hevicts⟩ := evictOne_evicts h.exact h.queued
    exact ⟨hevicts.exact, hevicts.queued⟩

/-- After any operations that insert a key only when no queue has it, the counters are the sums over the resident
entries, and no subtraction of the operation that is next goes below zero. -/
theorem counters_exact {budget : Nat} {h : List Empty} {c : S3Fifo V}
    (hrun : Transition.Run step (fun _ c op => c.Fits op ∧ c.Unqueued op) [] (new budget) h c) :
    c.totalBytes = (c.sizes fun _ => true) ∧ c.smallBytes = c.sizes CacheEntry.inSmall ∧
      (∀ t, c.tenantCharged t = c.sizes fun e => e.tenant = t) ∧ ∀ op, c.Fits op → c.Within op := by
  have hall : c.Accounted := hrun.invariant (fun _ c => c.Accounted)
    ⟨exact_new budget, List.nodup_nil, fun _ hk => absurd hk List.not_mem_nil, fun _ hk => absurd hk List.not_mem_nil⟩
    fun _ _ _ _ _ hc hP hstep => hc.step hP.1 hP.2 hstep
  exact ⟨hall.exact.total, hall.exact.small, hall.exact.tenants, fun _ => hall.within⟩

end

section

attribute [local instance] linkedHashes

/-- A key is inserted, removed, inserted again and used twice; the next insert has to evict. -/
def reinsert : List (CacheOp Unit) :=
  [.insertFor [97] () 35 0, .remove [97], .insertFor [97] () 35 0, .get [97], .get [97], .insertFor [98] () 885 0]

/-- The first copy of the key in `small` moves the entry to `main`, the second evicts it, and both take its bytes
from `small_bytes`. -/
theorem small_bytes_wraps : ∃ h c, Transition.Run step (fun _ c op => c.Fits op) [] (new 1000 : S3Fifo Unit) h c ∧
    c.smallBytes ≠ c.sizes CacheEntry.inSmall :=
  Transition.exists_run_of_exec (fun _ c => c.smallBytes ≠ c.sizes CacheEntry.inSmall) reinsert
    (show (Transition.exec step _ [] (new 1000) reinsert).any _ = true by decide +kernel)

/-- Two tenants, with an entry that is used, one that is removed and one that is evicted. -/
def fairUse : List (CacheOp Unit) :=
  [.insertFor [97] () 35 0, .insertFor [98] () 335 7, .get [97], .get [97], .remove [98], .insertFor [99] () 435 7,
    .insertFor [100] () 535 0]

theorem counters_exact_fairUse : ∃ h c,
    Transition.Run step (fun _ c op => c.Fits op ∧ c.Unqueued op) [] (new 1000 : S3Fifo Unit) h c ∧
    c.evictions = 1 ∧ c.totalBytes = (c.sizes fun _ => true) ∧ c.smallBytes = c.sizes CacheEntry.inSmall ∧
      (∀ t, c.tenantCharged t = c.sizes fun e => e.tenant = t) ∧ ∀ op, c.Fits op → c.Within op := by
  obtain ⟨h, c, hrun, hone⟩ := Transition.exists_run_of_exec (fun _ c => c.evictions = 1) fairUse
    (show (Transition.exec step (fun _ c op => c.Fits op ∧ c.Unqueued op) [] (new 1000 : S3Fifo Unit) fairUse).any _ =
      true by decide +kernel)
  exact ⟨h, c, hrun, hone, counters_exact hrun⟩

end

end S3Fifo

end Skeg
