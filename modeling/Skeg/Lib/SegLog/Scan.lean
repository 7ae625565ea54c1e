import Skeg.Lib.SegLog.Reclaim

/-!
# Recovery by timestamp

Reading every linked segment and keeping, for each key, the record with the highest timestamp gives
back the last applied write of the key, provided the writes of a key take effect in the order of
their timestamps (`InOrder`) and no segment was read for compaction with an append to it in flight
(`Settled`).  `Kept` is the invariant, `Kept.winner` what a scan of the log finds.
-/

namespace SegLog

variable {K V : Type*} [DecidableEq K]

/-- A write takes effect only if no write of the same key with a larger timestamp already has. -/
def InOrder (α : State K V) : Label K V → Prop
  | .apply _ _ _ ls => ∀ p ∈ ls, ∀ l, α.last p.2.key = some l → l.ts < p.2.ts
  | _ => True

/-- The record is in a linked segment, and still ahead of every compaction of that segment. -/
def Held (α : State K V) (l : Rec K V) : Prop :=
  ∃ S o, α.linked S ∧ (o, l) ∈ α.sent S ∧ ∀ c C, α.comp c = some C → C.seg = S →
    C.failed = true ∨ (∃ o, (o, l) ∈ C.todo) ∨ ∃ i o, α.Moving i c (S, o) l

/-- Operation `i` has appended `r` and not applied it. -/
def Unapplied (α : State K V) (r : Rec K V) : Prop :=
  ∃ i T ls, α.pend i = some (.sentWrite T ls) ∧ r ∈ ls.map Prod.snd

structure Kept (α : State K V) : Prop where
  seen : ∀ S, ∀ p ∈ α.sent S,
    Unapplied α p.2 ∨ ∃ l, α.last p.2.key = some l ∧ p.2.ts ≤ l.ts
  tomb : ∀ k l, α.last k = some l → l.val = none → Held α l

/-! ### Tombstones -/

omit [DecidableEq K] in
/-- A step that unlinks nothing and starts no compaction, and after which each compaction still has
ahead of it what it had, unless the record has been moved. -/
theorem Held.of_step {α α' : State K V} {l : Rec K V} (h : Held α l)
    (hlink : ∀ S, α.linked S → α'.linked S) (hsent : ∀ S, ∀ p ∈ α.sent S, p ∈ α'.sent S)
    (hcomp : ∀ c C', α'.comp c = some C' → ∃ C, α.comp c = some C ∧ C'.seg = C.seg ∧
      (C.failed = true → C'.failed = true) ∧
      (∀ o, (o, l) ∈ C.todo → (o, l) ∈ C'.todo ∨ ∃ i, α'.Moving i c (C.seg, o) l) ∧
      ∀ i o, α.Moving i c (C.seg, o) l →
        C'.failed = true ∨ α'.Moving i c (C.seg, o) l ∨ Held α' l) : Held α' l := by
  classical
  by_contra hnot
  obtain ⟨S, o, hS, ho, hah⟩ := h
  refine hnot ⟨S, o, hlink S hS, hsent S _ ho, fun c C' hc' hseg' => ?_⟩
  obtain ⟨C, hc, hseg, hf, htodo, hmv⟩ := hcomp c C' hc'
  have hCS : C.seg = S := hseg ▸ hseg'
  rcases hah c C hc hCS with h | ⟨o', h⟩ | ⟨i, o', h⟩
  · exact .inl (hf h)
  · rcases htodo o' h with h | ⟨i, h⟩
    · exact .inr (.inl ⟨o', h⟩)
    · exact .inr (.inr ⟨i, o', hCS ▸ h⟩)
  · rcases hmv i o' (hCS ▸ h) with h | h | h
    · exact .inl h
    · exact .inr (.inr ⟨i, o', hCS ▸ h⟩)
    · exact absurd h hnot

omit [DecidableEq K] in
theorem Held.of_pend {α α' : State K V} {l : Rec K V} (h : Held α l)
    (hlink : ∀ S, α.linked S → α'.linked S) (hsent : ∀ S, ∀ p ∈ α.sent S, p ∈ α'.sent S)
    (hcomp : α'.comp = α.comp)
    (hmv : ∀ i c src r, α.Moving i c src r → α'.Moving i c src r) : Held α' l :=
  h.of_step hlink hsent fun c C hc => ⟨C, hcomp ▸ hc, rfl, id, fun _ ho => .inl ho,
    fun i _ hm => .inr (.inl (hmv i c _ l hm))⟩

omit [DecidableEq K] in
/-- A step of compaction `c`. -/
theorem Held.of_comp {α α' : State K V} {l : Rec K V} (h : Held α l) {c : Nat} {C D : Comp K V}
    (hlink : α'.linked = α.linked) (hsent : α'.sent = α.sent) (hc : α.comp c = some C)
    (hcomp : α'.comp = Function.update α.comp c (some D)) (hseg : D.seg = C.seg)
    (hf : C.failed = true → D.failed = true)
    (htodo : ∀ o, (o, l) ∈ C.todo → (o, l) ∈ D.todo ∨ ∃ i, α'.Moving i c (C.seg, o) l)
    (hmv : ∀ i o, α.Moving i c (C.seg, o) l →
      D.failed = true ∨ α'.Moving i c (C.seg, o) l ∨ Held α' l)
    (hother : ∀ i c' src r, c' ≠ c → α.Moving i c' src r → α'.Moving i c' src r) : Held α' l := by
  refine h.of_step (fun S hS => hlink ▸ hS) (fun S p hp => hsent ▸ hp) fun c' C' hc' => ?_
  rw [hcomp] at hc'
  rcases comp_of_update hc' with ⟨rfl, rfl⟩ | ⟨hne, hc'⟩
  · exact ⟨C, hc, hseg, hf, htodo, hmv⟩
  · exact ⟨C', hc', rfl, id, fun _ ho => .inl ho, fun i o hm => .inr (.inl (hother i c' _ l hne hm))⟩

omit [DecidableEq K] in
/-- A record just appended, by an operation still in flight, is held. -/
theorem Linked.held {α : State K V} (h : Linked α) {S o : Nat} {l : Rec K V} (hS : α.InFlight S)
    (ho : (o, l) ∈ α.sent S) : Held α l :=
  ⟨S, o, (h.inFlight S hS).1, ho, fun c C hc hseg => absurd hseg ((h.inFlight S hS).2 c C hc)⟩

theorem Held.apply {α : State K V} {l : Rec K V} (h : Held α l) {i S : Nat} {d : Bool}
    {ls : List (Nat × Rec K V)} (hi : α.pend i = some (.sentWrite S ls)) :
    Held ((α.applyAll S d ls).setPend i none) l := by
  refine h.of_pend (fun T hT => by simpa using hT) (fun T p hp => by simpa using hp)
    (α.applyAll_comp S d ls) fun j c src r hm => ?_
  refine moving_setPend (not_moving (p := some (.sentWrite S ls)) (by simpa using hi) (by simp)) ?_
  simpa [State.Moving] using hm

/-- A tombstone of a key that is absent from the index stays in the log. -/
theorem Step.held {α α' : State K V} {ℓ : Label K V} (h : Step α ℓ α') (hw : Wf α)
    (hq : Settled α ℓ) (hα : Linked α) {l : Rec K V} (hl : l.val = none)
    (habs : α.index l.key = none) (hh : Held α l) : Held α' l := by
  cases h with
  | tick n hn => exact hh
  | begin i rs n hi hn hts hrs =>
    exact hh.of_pend (fun _ => id) (fun _ _ => id) rfl
      fun j c src r hm => moving_setPend (not_moving hi (by simp)) hm
  | sendWrite i ls hi hext =>
    exact hh.of_pend (fun _ => id) (fun S p hp => α.mem_append_sent.mpr (.inl hp)) rfl
      fun j c src r hm => moving_setPend (not_moving hi (by simp)) hm
  | sendMove i c src r o hi hext =>
    exact hh.of_pend (fun _ => id) (fun S p hp => α.mem_append_sent.mpr (.inl hp)) rfl
      fun j c' src' r' => moving_of_sendMove hi
  | cancel i rs hi =>
    exact hh.of_pend (fun _ => id) (fun _ _ => id) rfl
      fun j c src r hm => moving_setPend (not_moving hi (by simp)) hm
  | rotate =>
    refine hh.of_pend (fun S hS => ?_) (fun _ _ => id) rfl fun _ _ _ _ => id
    by_cases h : S = α.active + 1 <;> simp [h, hS]
  | apply i S d ls hi hd =>
    exact hh.apply hi
  | moved i c src r dst C hi hc hdst =>
    have hp := hw.pend i _ hi
    refine hh.of_comp rfl rfl hc rfl rfl id (fun _ ho => .inl ho) (fun j o hm => .inr ?_)
      fun j c' src' r' hne hm => moving_of_clearPend_ne (.inr ⟨dst, hi⟩) (by simp [hne]) hm
    by_cases heq : (c, (C.seg, o), l) = (c, src, r)
    · -- the copy is in a segment no compaction reads
      obtain ⟨rfl, rfl⟩ : (C.seg, o) = src ∧ l = r := by simpa using heq
      refine .inr ⟨dst.1, dst.2, hdst, hp.2.1, fun c' C' hc' hseg => ?_⟩
      have hfree := (hα.inFlight _ (inFlight_of_sentMove hi)).2
      rcases comp_of_update hc' with ⟨rfl, rfl⟩ | ⟨_, hc'⟩
      · exact absurd hseg (hfree c' C hc)
      · exact absurd hseg (hfree c' C' hc')
    · exact .inl (moving_of_clearPend_ne (.inr ⟨dst, hi⟩) heq hm)
  | scan c S todo hc hS hlS htodo hall =>
    obtain ⟨T, o, hT, ho, hah⟩ := hh
    refine ⟨T, o, hT, ho, fun c' C' hc' hseg => ?_⟩
    rcases comp_of_update hc' with ⟨rfl, rfl⟩ | ⟨_, hc'⟩
    · obtain rfl : S = T := hseg
      exact .inr (.inl ⟨o, by rw [hall hq]; exact ho⟩)
    · exact hah c' C' hc' hseg
  | pull c i C p todo hc htodo hi hp =>
    have hmv : ∀ j c' src r, α.Moving j c' src r →
        ((α.setComp c (some { C with todo := todo })).setPend i
          (some (.queuedMove c (C.seg, p.1) p.2))).Moving j c' src r :=
      fun j c' src r hm => moving_setPend (α := α.setComp c _) (not_moving hi (by simp)) hm
    refine hh.of_comp rfl rfl hc rfl rfl id (fun o ho => ?_) (fun j o hm => .inr (.inl (hmv _ _ _ _ hm)))
      fun j c' src r _ => hmv j c' src r
    rw [htodo] at ho
    rcases List.mem_cons.mp ho with rfl | ho
    · exact .inr ⟨i, .inl (by simp)⟩
    · exact .inl ho
  | skip c C p todo hc htodo hp =>
    refine hh.of_comp rfl rfl hc rfl rfl id (fun o ho => ?_) (fun j o hm => .inr (.inl hm))
      fun _ _ _ _ _ => id
    rw [htodo] at ho
    rcases List.mem_cons.mp ho with rfl | ho
    · exact absurd (by simpa [State.Carries, hl] using habs) hp
    · exact .inl ho
  | fail i c src r C hi hc =>
    exact hh.of_comp rfl rfl hc rfl rfl (fun _ => rfl) (fun _ ho => .inl ho) (fun _ _ _ => .inl rfl)
      fun j c' src' r' hne hm => moving_of_clearPend_ne hi (by simp [hne]) hm
  | sync S n hn => exact hh
  | syncDest c S n C ds hc hds hm hn hall =>
    exact hh.of_comp rfl rfl hc rfl rfl id (fun _ ho => .inl ho) (fun _ _ hm => .inr (.inl hm))
      fun _ _ _ _ _ => id
  | unlink c C hc htodo hd hf hm =>
    obtain ⟨S, o, hS, ho, hah⟩ := hh
    have hne : S ≠ C.seg := by
      rintro rfl
      rcases hah c C hc rfl with h | ⟨_, h⟩ | ⟨i, o', h⟩
      · simp [hf] at h
      · simp [htodo] at h
      · exact hm i _ l h
    refine ⟨S, o, by simpa [hne] using hS, ho, fun c' C' hc' => hah c' C' (comp_of_clear hc')⟩
  | abandon c C hc hf hm =>
    exact hh.of_step (fun _ => id) (fun _ _ => id) fun c' C' hc' => ⟨C', comp_of_clear hc', rfl, id,
      fun _ ho => .inl ho, fun _ _ hm => .inr (.inl hm)⟩

/-! ### The log holds the last applied writes -/

/-- The writes applied so far change with `apply` only. -/
theorem Step.last_eq {α α' : State K V} {ℓ : Label K V} (h : Step α ℓ α') (k : K) :
    α'.last k = α.last k ∨ ∃ i S d ls pre p post, ℓ = .apply i S d ls ∧
      α.pend i = some (.sentWrite S ls) ∧ ls = pre ++ p :: post ∧ p.2.key = k ∧
      (∀ q ∈ post, q.2.key ≠ k) ∧ α'.last k = some p.2 := by
  cases h with
  | apply i S d ls hi hd =>
    rcases α.applyAll_cases S d ls k with ⟨_, _, h, _⟩ | ⟨pre, p, post, hls, hk, hpost, _, h, _⟩
    · exact .inl h
    · exact .inr ⟨i, S, d, ls, pre, p, post, rfl, hi, hls, hk, hpost, h⟩
  | _ => exact .inl rfl

theorem Step.last_mono {α α' : State K V} {ℓ : Label K V} (h : Step α ℓ α') (ho : InOrder α ℓ)
    {k : K} {l : Rec K V} (hl : α.last k = some l) : ∃ l', α'.last k = some l' ∧ l.ts ≤ l'.ts := by
  rcases h.last_eq k with heq | ⟨i, S, d, ls, pre, p, post, rfl, _, rfl, rfl, _, hp⟩
  · exact ⟨l, heq ▸ hl, Nat.le_refl _⟩
  · exact ⟨p.2, hp, Nat.le_of_lt (ho p (by simp) l hl)⟩

omit [DecidableEq K] in
theorem Unapplied.setPend {α : State K V} {r : Rec K V} {i : Nat} {p : Option (Pend K V)}
    (h : Unapplied α r) (hi : ∀ T ls, α.pend i ≠ some (.sentWrite T ls)) :
    Unapplied (α.setPend i p) r := by
  obtain ⟨j, T, ls, hj, hr⟩ := h
  have hji : j ≠ i := by rintro rfl; exact hi T ls hj
  exact ⟨j, T, ls, by simpa [hji] using hj, hr⟩

/-- An unapplied record stays so until its write is applied. -/
theorem Step.unapplied {α α' : State K V} {ℓ : Label K V} (h : Step α ℓ α') {r : Rec K V}
    (hr : Unapplied α r) : Unapplied α' r ∨ ∃ i S d ls, ℓ = .apply i S d ls ∧ r ∈ ls.map Prod.snd := by
  cases h with
  | begin i rs n hi hn hts hrs => exact .inl (Unapplied.setPend hr (by simp [hi]))
  | sendWrite i ls hi hext => exact .inl (Unapplied.setPend (α := α.append ls) hr (by simp [hi]))
  | sendMove i c src r o hi hext =>
    exact .inl (Unapplied.setPend (α := α.append [(o, r)]) hr (by simp [hi]))
  | cancel i rs hi => exact .inl (Unapplied.setPend hr (by simp [hi]))
  | apply i S d ls hi hd =>
    obtain ⟨j, T, ls', hj, hr⟩ := hr
    by_cases hji : j = i
    · subst hji
      obtain ⟨rfl, rfl⟩ : S = T ∧ ls = ls' := by simpa [hi] using hj
      exact .inr ⟨j, S, d, ls, rfl, hr⟩
    · exact .inl ⟨j, T, ls', by simpa [hji] using hj, hr⟩
  | moved i c src r dst C hi hc hdst => exact .inl (Unapplied.setPend hr (by simp [hi]))
  | pull c i C p todo hc htodo hi hp => exact .inl (Unapplied.setPend hr (by simp [hi]))
  | fail i c src r C hi hc =>
    exact .inl (Unapplied.setPend hr (by rcases hi with hi | ⟨_, hi⟩ <;> simp [hi]))
  | _ => exact .inl hr

/-- What a step appends: the records of a write, still to be applied, or a copy. -/
theorem Step.sent_cases {α α' : State K V} {ℓ : Label K V} (h : Step α ℓ α') (hw : Wf α) {S : Nat}
    {p : Nat × Rec K V} (hp : p ∈ α'.sent S) :
    p ∈ α.sent S ∨ Unapplied α' p.2 ∨ ∃ T o, (o, p.2) ∈ α.sent T := by
  cases h with
  | sendWrite i ls hi hext =>
    rcases α.mem_append_sent.mp hp with hp | ⟨_, hp⟩
    · exact .inl hp
    · exact .inr (.inl ⟨i, α.active, ls, by simp, List.mem_map_of_mem hp⟩)
  | sendMove i c src r o hi hext =>
    rcases α.mem_append_sent.mp hp with hp | ⟨_, hp⟩
    · exact .inl hp
    · rw [List.mem_singleton.mp hp]
      exact .inr (.inr ⟨src.1, src.2, (hw.pend i _ hi).1⟩)
  | apply i S d ls hi hd => exact .inl (by simpa using hp)
  | _ => exact .inl hp

omit [DecidableEq K] in
/-- The record a write leaves as the last one of a key is the newest of the write. -/
theorem Wf.ts_le_of_applied {α : State K V} (hw : Wf α) {i S : Nat} {pre post : List (Nat × Rec K V)}
    {p q : Nat × Rec K V} (hi : α.pend i = some (.sentWrite S (pre ++ p :: post)))
    (hpost : ∀ q ∈ post, q.2.key ≠ p.2.key) (hq : q ∈ pre ++ p :: post) (hk : q.2.key = p.2.key) :
    q.2.ts ≤ p.2.ts := by
  have hsorted := (List.pairwise_append.mp (hw.pend i _ hi).2.1).2.2
  rcases List.mem_append.mp hq with hq | hq
  · exact Nat.le_of_lt (hsorted q hq p (List.mem_cons_self ..)).2
  · rcases List.mem_cons.mp hq with rfl | hq
    · exact Nat.le_refl _
    · exact absurd hk (hpost q hq)

theorem Step.kept {α α' : State K V} {ℓ : Label K V} (h : Step α ℓ α') (hw : Wf α)
    (hq : Settled α ℓ) (ho : InOrder α ℓ) (hl : Linked α) (hα : Kept α) : Kept α' := by
  have hold : ∀ r : Rec K V, (Unapplied α r ∨ ∃ l, α.last r.key = some l ∧ r.ts ≤ l.ts) →
      Unapplied α' r ∨ ∃ l, α'.last r.key = some l ∧ r.ts ≤ l.ts := by
    rintro r (hr | ⟨l, hr, hle⟩)
    · rcases h.unapplied hr with hr | ⟨i, S, d, ls, rfl, hr⟩
      · exact .inl hr
      · obtain ⟨q, hqls, rfl⟩ := List.mem_map.mp hr
        cases h with
        | apply i S d ls hi hd =>
          rcases α.applyAll_cases S d ls q.2.key with ⟨hno, _⟩ | ⟨pre, p, post, rfl, hk, hpost, _, h, _⟩
          · exact absurd rfl (hno q hqls)
          · exact .inr ⟨p.2, h, hw.ts_le_of_applied hi (hk ▸ hpost) hqls hk.symm⟩
    · obtain ⟨l', hl', hle'⟩ := h.last_mono ho hr
      exact .inr ⟨l', hl', Nat.le_trans hle hle'⟩
  constructor
  · intro S p hp
    rcases h.sent_cases hw hp with hp | hp | ⟨T, o, hp⟩
    · exact hold p.2 (hα.seen S p hp)
    · exact .inl hp
    · exact hold p.2 (hα.seen T (o, p.2) hp)
  · intro k l hkl hval
    rcases h.last_eq k with heq | ⟨i, S, d, ls, pre, p, post, rfl, hi, rfl, rfl, _, hp⟩
    · rw [heq] at hkl
      refine h.held hw hq hl hval ?_ (hα.tomb k l hkl hval)
      cases hidx : α.index l.key with
      | none => rfl
      | some loc =>
        obtain ⟨r, hr, hsome, _⟩ := hw.index_some _ loc.1 loc.2 hidx
        rw [hw.last_key k l hkl, hkl] at hr
        cases hr
        simp [hval] at hsome
    · rw [hp] at hkl
      cases hkl
      have hheld : Held α p.2 := hl.held (o := p.1) (inFlight_of_sentWrite hi)
        ((hw.pend i _ hi).2.2 p (by simp))
      cases h with
      | apply i S d ls hi hd => exact hheld.apply hi

omit [DecidableEq K] in
/-- The last applied write of a key is in a linked segment. -/
theorem Kept.exists_linked {α : State K V} (h : Kept α) (hw : Wf α) (hl : Linked α) {k : K}
    {l : Rec K V} (hk : α.last k = some l) : ∃ S o, α.linked S ∧ (o, l) ∈ α.sent S := by
  cases hidx : α.index k with
  | none =>
    obtain ⟨S, o, hS, ho, _⟩ := h.tomb k l hk (hw.index_none k l hidx hk)
    exact ⟨S, o, hS, ho⟩
  | some loc =>
    obtain ⟨r, hr, _, hmem⟩ := hw.index_some k loc.1 loc.2 hidx
    obtain rfl : l = r := by simpa [hk] using hr
    exact ⟨loc.1, loc.2, (hl.index k _ _ hidx).1, hmem⟩

omit [DecidableEq K] in
/-- Once no write is in flight, no record of a key is newer than its last applied write, and a key
without one has no record at all. -/
theorem Kept.newest {α : State K V} (h : Kept α) (hidle : ∀ r, ¬ Unapplied α r) {S : Nat}
    {p : Nat × Rec K V} (hp : p ∈ α.sent S) : ∃ l, α.last p.2.key = some l ∧ p.2.ts ≤ l.ts :=
  (h.seen S p hp).resolve_left (hidle p.2)

end SegLog
