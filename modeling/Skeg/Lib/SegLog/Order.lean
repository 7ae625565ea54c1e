import Skeg.Lib.SegLog.Scan

/-!
# Recovery from a snapshot of the index

A snapshot is a copy of the index together with the segment that was active when it was cut.
Recovery from it replays the segments from that one on, in log order, over the copy.  This finds the
last applied write of every key when, in addition to what recovery by timestamp needs, the records
of a key are appended in the order of their timestamps, copies only while they are current
(`AppendOrdered`), and the snapshot is cut when no write is in flight in an older segment
(`Covers.cut`).

`Ordered` is the invariant of the log, `Covers` that of a snapshot; `Ordered.replayed` and
`Covers.untouched` say what recovery finds.
-/

namespace SegLog

variable {K V : Type*} [DecidableEq K]

/-- A write is appended only behind older records of its keys; a copy only while it is current and
no write of its key is in flight. -/
def AppendOrdered (α : State K V) : Label K V → Prop
  | .sendWrite _ rs => ∀ r ∈ rs, ∀ S, α.linked S → ∀ p ∈ α.sent S, p.2.key = r.key → p.2.ts < r.ts
  | .sendMove _ _ src r => α.Carries src.1 (src.2, r) ∧ ∀ r', Unapplied α r' → r'.key ≠ r.key
  | _ => True

/-- The order of the log. -/
def After (a b : Loc) : Prop := a.1 < b.1 ∨ a.1 = b.1 ∧ a.2 < b.2

theorem After.asymm {a b : Loc} (h : After a b) : ¬ After b a := by
  unfold After at *
  omega

structure Ordered (α : State K V) : Prop where
  /-- The records of a write in flight have no copies. -/
  once : ∀ i T ls, α.pend i = some (.sentWrite T ls) → ∀ p ∈ ls, ∀ S o, (o, p.2) ∈ α.sent S →
    S = T ∧ o = p.1
  unapplied : ∀ i T ls, α.pend i = some (.sentWrite T ls) → ∀ p ∈ ls, ∀ S, α.linked S →
    ∀ q ∈ α.sent S, q.2.key = p.2.key → After (T, p.1) (S, q.1) → p.2.ts < q.2.ts
  /-- Behind the last applied write of a key come copies of it and newer writes; behind a tombstone
  also other tombstones. -/
  last : ∀ k l, α.last k = some l → ∀ S o, α.linked S → (o, l) ∈ α.sent S → ∀ S', α.linked S' →
    ∀ q ∈ α.sent S', q.2.key = k → After (S, o) (S', q.1) →
    q.2 = l ∨ (q.2.val = none ∧ l.val = none) ∨ l.ts < q.2.ts

namespace Ordered

variable {α α' : State K V}

omit [DecidableEq K] in
/-- A step that appends nothing and applies nothing. -/
theorem of_quiet (h : Ordered α) (hsent : α'.sent = α.sent) (hlast : α'.last = α.last)
    (hlink : ∀ S p, p ∈ α.sent S → α'.linked S → α.linked S)
    (hpend : ∀ i T ls, α'.pend i = some (.sentWrite T ls) → α.pend i = some (.sentWrite T ls)) :
    Ordered α' := by
  constructor
  · intro i T ls hi p hp S o ho
    exact h.once i T ls (hpend i T ls hi) p hp S o (hsent ▸ ho)
  · intro i T ls hi p hp S hS q hq
    rw [hsent] at hq
    exact h.unapplied i T ls (hpend i T ls hi) p hp S (hlink S q hq hS) q hq
  · intro k l hl S o hS ho S' hS' q hq
    rw [hsent] at ho hq
    exact h.last k l (hlast ▸ hl) S o (hlink S _ ho hS) ho S' (hlink S' q hq hS') q hq

omit [DecidableEq K] in
theorem setPend (h : Ordered α) {i : Nat} {p : Option (Pend K V)}
    (hp : ∀ T ls, p ≠ some (.sentWrite T ls)) : Ordered (α.setPend i p) := by
  refine h.of_quiet rfl rfl (fun _ _ _ => id) fun j T ls hj => ?_
  by_cases hji : j = i
  · subst hji
    exact absurd (by simpa using hj) (hp T ls)
  · simpa [hji] using hj

/-- The write applied last is ordered because it was while in flight. -/
theorem apply (h : Ordered α) {i S : Nat} {d : Bool} {ls : List (Nat × Rec K V)}
    (hi : α.pend i = some (.sentWrite S ls)) : Ordered (α.applyAll S d ls) := by
  refine ⟨by simpa using h.once, by simpa using h.unapplied, ?_⟩
  intro k l hl T o hT ho T' hT' q hq hqk hafter
  simp only [State.applyAll_linked, State.applyAll_sent] at hT ho hT' hq
  rcases α.applyAll_cases S d ls k with ⟨_, _, h1, _⟩ | ⟨pre, p, post, rfl, hk, _, _, h1, _⟩
  · exact h.last k l (h1 ▸ hl) T o hT ho T' hT' q hq hqk hafter
  · rw [h1] at hl
    cases hl
    obtain ⟨rfl, rfl⟩ := h.once i S _ hi p (by simp) T o ho
    exact .inr (.inr (h.unapplied i T _ hi p (by simp) T' hT' q hq (hqk.trans hk.symm) hafter))

end Ordered

omit [DecidableEq K] in
/-- Nothing of the log is behind a record of the active segment but later records of it. -/
theorem Wf.not_after_active {α : State K V} (hw : Wf α) {o S : Nat} {q : Nat × Rec K V}
    (hq : q ∈ α.sent S) (h : After (α.active, o) (S, q.1)) : S = α.active ∧ o < q.1 := by
  rcases h with h | ⟨h, ho⟩
  · rw [hw.beyond S h] at hq
    cases hq
  · exact ⟨h.symm, ho⟩

omit [DecidableEq K] in
/-- An appended record lies behind everything. -/
theorem Wf.not_after_appended {α : State K V} (hw : Wf α) {ls : List (Nat × Rec K V)}
    (hext : Extends (α.sent α.active) ls) {p q : Nat × Rec K V} {S : Nat} (hp : p ∈ ls)
    (hq : q ∈ α.sent S) : ¬ After (α.active, p.1) (S, q.1) := by
  intro h
  obtain ⟨rfl, hlt⟩ := hw.not_after_active hq h
  have := (List.pairwise_append.mp hext).2.2 q hq p hp
  omega

namespace Ordered

variable {α : State K V}

omit [DecidableEq K] in
/-- Appending records that are behind nothing newer. -/
theorem append (h : Ordered α) (hw : Wf α) {ls : List (Nat × Rec K V)}
    (hext : Extends (α.sent α.active) ls)
    (hself : ls.Pairwise fun p q => q.2.key = p.2.key → p.2.ts < q.2.ts)
    (hpend : ∀ p ∈ ls, ∀ i T ls', α.pend i = some (.sentWrite T ls') → ∀ q ∈ ls',
      q.2 ≠ p.2 ∧ (p.2.key = q.2.key → q.2.ts < p.2.ts))
    (hlast : ∀ p ∈ ls, ∀ l S o, α.last p.2.key = some l → α.linked S → (o, l) ∈ α.sent S →
      p.2 = l ∨ (p.2.val = none ∧ l.val = none) ∨ l.ts < p.2.ts) : Ordered (α.append ls) := by
  constructor
  · intro i T ls' hi p hp S o ho
    rcases α.mem_append_sent.mp ho with ho | ⟨_, ho⟩
    · exact h.once i T ls' hi p hp S o ho
    · exact absurd rfl (hpend _ ho i T ls' hi p hp).1
  · intro i T ls' hi p hp S hS q hq hk hafter
    rcases α.mem_append_sent.mp hq with hq | ⟨_, hq⟩
    · exact h.unapplied i T ls' hi p hp S hS q hq hk hafter
    · exact (hpend q hq i T ls' hi p hp).2 hk
  · intro k l hl S o hS ho S' hS' q hq hk hafter
    rcases α.mem_append_sent.mp ho with hold | ⟨rfl, hnew⟩ <;>
      rcases α.mem_append_sent.mp hq with hqold | ⟨rfl, hqnew⟩
    · exact h.last k l hl S o hS hold S' hS' q hqold hk hafter
    · exact hlast q hqnew l S o (hk ▸ hl) hS hold
    · exact absurd hafter (hw.not_after_appended hext (p := (o, l)) hnew hqold)
    · -- both are new: the later one is the newer one
      have hlt : o < q.1 := by
        rcases hafter with h | ⟨_, h⟩
        · exact absurd h (Nat.lt_irrefl _)
        · exact h
      have hboth : ls.Pairwise fun p q => p.1 < q.1 ∧ (q.2.key = p.2.key → p.2.ts < q.2.ts) :=
        (List.pairwise_append.mp hext).2.1.and hself
      have hts := List.Pairwise.forall_of_forall_of_flip
        (R := fun p q => p.1 < q.1 → q.2.key = p.2.key → p.2.ts < q.2.ts)
        (fun _ _ h => absurd h (Nat.lt_irrefl _)) (hboth.imp fun h _ => h.2)
        (hboth.imp fun h hgt => absurd hgt (Nat.lt_asymm h.1)) hnew hqnew hlt
      exact .inr (.inr (hts (hk.trans (hw.last_key k l hl).symm)))

omit [DecidableEq K] in
theorem setSent (h : Ordered α) {i T : Nat} {ls : List (Nat × Rec K V)}
    (honce : ∀ p ∈ ls, ∀ S o, (o, p.2) ∈ α.sent S → S = T ∧ o = p.1)
    (hafter : ∀ p ∈ ls, ∀ S, α.linked S → ∀ q ∈ α.sent S, q.2.key = p.2.key →
      After (T, p.1) (S, q.1) → p.2.ts < q.2.ts) :
    Ordered (α.setPend i (some (.sentWrite T ls))) := by
  have hpend : ∀ j T' ls', (α.setPend i (some (.sentWrite T ls))).pend j = some (.sentWrite T' ls') →
      (T' = T ∧ ls' = ls) ∨ α.pend j = some (.sentWrite T' ls') := by
    intro j T' ls' hj
    by_cases hji : j = i
    · subst hji
      have : T = T' ∧ ls = ls' := by simpa using hj
      exact .inl ⟨this.1.symm, this.2.symm⟩
    · exact .inr (by simpa [hji] using hj)
  refine ⟨fun j T' ls' hj => ?_, fun j T' ls' hj => ?_, h.last⟩
  · rcases hpend j T' ls' hj with ⟨rfl, rfl⟩ | hj
    · exact honce
    · exact h.once j T' ls' hj
  · rcases hpend j T' ls' hj with ⟨rfl, rfl⟩ | hj
    · exact hafter
    · exact h.unapplied j T' ls' hj

omit [DecidableEq K] in
theorem sendWrite (h : Ordered α) (hw : Wf α) (hl : Linked α) {i : Nat} {ls : List (Nat × Rec K V)}
    (hi : α.pend i = some (.queuedWrite (ls.map Prod.snd))) (hext : Extends (α.sent α.active) ls)
    (ha : AppendOrdered α (.sendWrite i (ls.map Prod.snd))) :
    Ordered ((α.append ls).setPend i (some (.sentWrite α.active ls))) := by
  obtain ⟨hts, hok⟩ := hw.pend i _ hi
  have hmem : ∀ p ∈ ls, p.2 ∈ ls.map Prod.snd := fun p hp => List.mem_map_of_mem hp
  have hfresh : ∀ p ∈ ls, ∀ S, ∀ q ∈ α.sent S, q.2.ts ≠ p.2.ts := fun p hp =>
    (hok p.2 (hmem p hp)).2
  have hself : ls.Pairwise fun p q => p.1 < q.1 ∧ p.2.ts < q.2.ts :=
    (List.pairwise_append.mp hext).2.1.and (by simpa [List.pairwise_map] using hts)
  have hap : Ordered (α.append ls) := by
    refine h.append hw hext (hself.imp fun h _ => h.2) (fun p hp j T ls' hj q hq => ?_)
      (fun p hp l S o hl' hS ho => .inr (.inr ?_))
    · have hqT := (hw.pend j _ hj).2.2 q hq
      exact ⟨fun heq => hfresh p hp T q hqT (by rw [heq]), fun hk =>
        ha _ (hmem p hp) T (hl.inFlight T (inFlight_of_sentWrite hj)).1 q hqT hk.symm⟩
    · exact ha _ (hmem p hp) S hS (o, l) ho (hw.last_key _ l hl')
  -- among the new records offsets and timestamps ascend together
  have hmono : ∀ p ∈ ls, ∀ q ∈ ls, (p.1 < q.1 → p.2.ts < q.2.ts) ∧ (p.2.ts = q.2.ts → p.1 = q.1) :=
    fun p hp q hq => List.Pairwise.forall_of_forall_of_flip
      (R := fun p q => (p.1 < q.1 → p.2.ts < q.2.ts) ∧ (p.2.ts = q.2.ts → p.1 = q.1))
      (fun _ _ => ⟨fun h => absurd h (Nat.lt_irrefl _), fun _ => rfl⟩)
      (hself.imp fun h => ⟨fun _ => h.2, fun heq => absurd heq (Nat.ne_of_lt h.2)⟩)
      (hself.imp fun h => ⟨fun hgt => absurd hgt (Nat.lt_asymm h.1),
        fun heq => absurd heq (Nat.ne_of_gt h.2)⟩) hp hq
  refine hap.setSent (fun p hp S o ho => ?_) (fun p hp S hS q hq hk hafter => ?_)
  · rcases α.mem_append_sent.mp ho with hold | ⟨rfl, hnew⟩
    · exact absurd rfl (hfresh p hp S (o, p.2) hold)
    · exact ⟨rfl, (hmono (o, p.2) hnew p hp).2 rfl⟩
  · rcases α.mem_append_sent.mp hq with hold | ⟨rfl, hnew⟩
    · exact absurd hafter (hw.not_after_appended hext hp hold)
    · rcases hafter with h | ⟨_, h⟩
      · exact absurd h (Nat.lt_irrefl _)
      · exact (hmono p hp q hnew).1 h

omit [DecidableEq K] in
theorem sendMove (h : Ordered α) (hw : Wf α) {i c o : Nat} {src : Loc} {r : Rec K V}
    (hi : α.pend i = some (.queuedMove c src r)) (hext : Extends (α.sent α.active) [(o, r)])
    (ha : AppendOrdered α (.sendMove i c src r)) :
    Ordered ((α.append [(o, r)]).setPend i (some (.sentMove c src r (α.active, o)))) := by
  obtain ⟨hcur, hun⟩ := ha
  refine Ordered.setPend (h.append hw hext (by simp) ?_ ?_) (by simp)
  · intro p hp j T ls' hj q hq
    rw [List.mem_singleton.mp hp]
    have hne := hun q.2 ⟨j, T, ls', hj, List.mem_map_of_mem hq⟩
    exact ⟨fun heq => hne (by rw [heq]), fun hk => absurd hk.symm hne⟩
  · intro p hp l S o' hl hS ho
    rw [List.mem_singleton.mp hp] at hl ⊢
    by_cases hv : r.val.isSome = true
    · have hidx : α.index r.key = some src := by simpa [State.Carries, hv] using hcur
      have := hw.last_of_index hidx (hw.pend i _ hi).1
      exact .inl (by simpa [hl] using this.symm)
    · have hv' : r.val = none := by simpa using hv
      have hidx : α.index r.key = none := by simpa [State.Carries, hv'] using hcur
      exact .inr (.inl ⟨hv', hw.index_none _ l hidx hl⟩)

end Ordered

theorem Step.ordered {α α' : State K V} {ℓ : Label K V} (h : Step α ℓ α') (hw : Wf α)
    (ha : AppendOrdered α ℓ) (hl : Linked α) (hα : Ordered α) : Ordered α' := by
  cases h with
  | tick n hn => exact hα.of_quiet rfl rfl (fun _ _ _ => id) fun _ _ _ => id
  | begin i rs n hi hn hts hrs =>
    have hn : Ordered { α with clock := n } :=
      hα.of_quiet rfl rfl (fun _ _ _ => id) fun _ _ _ => id
    exact hn.setPend (by simp)
  | sendWrite i ls hi hext => exact hα.sendWrite hw hl hi hext ha
  | sendMove i c src r o hi hext => exact hα.sendMove hw hi hext ha
  | cancel i rs hi => exact hα.setPend (by simp)
  | rotate =>
    refine hα.of_quiet rfl rfl (fun S p hp hS => ?_) fun _ _ _ => id
    have hne : S ≠ α.active + 1 := by
      rintro rfl
      rw [hw.beyond _ (Nat.lt_succ_self _)] at hp
      cases hp
    simpa [hne] using hS
  | apply i S d ls hi hd => exact (hα.apply hi).setPend (by simp)
  | moved i c src r dst C hi hc hdst =>
    exact (hα.setPend (i := i) (p := none) (by simp)).of_quiet rfl rfl (fun _ _ _ => id)
      fun _ _ _ => id
  | scan c S todo hc hS hlS htodo hall =>
    exact hα.of_quiet rfl rfl (fun _ _ _ => id) fun _ _ _ => id
  | pull c i C p todo hc htodo hi hp =>
    exact (hα.setPend (i := i) (p := some (.queuedMove c (C.seg, p.1) p.2)) (by simp)).of_quiet
      rfl rfl (fun _ _ _ => id) fun _ _ _ => id
  | skip c C p todo hc htodo hp => exact hα.of_quiet rfl rfl (fun _ _ _ => id) fun _ _ _ => id
  | fail i c src r C hi hc =>
    exact (hα.setPend (i := i) (p := none) (by simp)).of_quiet rfl rfl (fun _ _ _ => id)
      fun _ _ _ => id
  | sync S n hn => exact hα.of_quiet rfl rfl (fun _ _ _ => id) fun _ _ _ => id
  | syncDest c S n C ds hc hds hm hn hall => exact hα.of_quiet rfl rfl (fun _ _ _ => id) fun _ _ _ => id
  | unlink c C hc htodo hd hf hm =>
    refine hα.of_quiet rfl rfl (fun S p _ hS => ?_) fun _ _ _ => id
    by_cases hne : S = C.seg
    · simp [hne] at hS
    · simpa [hne] using hS
  | abandon c C hc hf hm => exact hα.of_quiet rfl rfl (fun _ _ _ => id) fun _ _ _ => id

/-! ### Snapshots -/

/-- `e` is what the index has for `k` if it points at the last applied write. -/
def Locates (α : State K V) (k : K) (e : Option Loc) : Prop :=
  (∀ S o, e = some (S, o) → ∃ l, α.last k = some l ∧ l.val.isSome ∧ (o, l) ∈ α.sent S) ∧
    (e = none → ∀ l, α.last k = some l → l.val = none)

/-- A snapshot of the index, cut when `hwm` was active: an entry is still right, or the key has been
written since. -/
structure Covers (α : State K V) (hwm : Nat) (entries : K → Option Loc) : Prop where
  le : hwm ≤ α.active
  inFlight : ∀ i T ls, α.pend i = some (.sentWrite T ls) → hwm ≤ T
  key : ∀ k, Locates α k (entries k) ∨
    ∃ l, α.last k = some l ∧ ∀ S o, (o, l) ∈ α.sent S → hwm ≤ S

omit [DecidableEq K] in
theorem Covers.cut {α : State K V} (hw : Wf α)
    (h : ∀ i T ls, α.pend i = some (.sentWrite T ls) → α.active ≤ T) :
    Covers α α.active α.index :=
  ⟨Nat.le_refl _, h, fun k => .inl ⟨hw.index_some k, fun h l => hw.index_none k l h⟩⟩

theorem Step.active_le {α α' : State K V} {ℓ : Label K V} (h : Step α ℓ α') :
    α.active ≤ α'.active := by
  cases h with
  | rotate => exact Nat.le_succ _
  | apply i S d ls hi hd => simp
  | _ => exact Nat.le_refl _

/-- Records are appended to the active segment. -/
theorem Step.mem_sent {α α' : State K V} {ℓ : Label K V} (h : Step α ℓ α') {S : Nat}
    {p : Nat × Rec K V} :
    (p ∈ α.sent S → p ∈ α'.sent S) ∧ (p ∈ α'.sent S → p ∈ α.sent S ∨ S = α.active) := by
  cases h with
  | sendWrite i ls hi hext =>
    exact ⟨fun hp => α.mem_append_sent.mpr (.inl hp),
      fun hp => (α.mem_append_sent.mp hp).imp id And.left⟩
  | sendMove i c src r o hi hext =>
    exact ⟨fun hp => α.mem_append_sent.mpr (.inl hp),
      fun hp => (α.mem_append_sent.mp hp).imp id And.left⟩
  | apply i T d ls hi hd => simpa using fun h => .inl h
  | _ => exact ⟨id, .inl⟩

theorem Step.sentWrite {α α' : State K V} {ℓ : Label K V} (h : Step α ℓ α') {i T : Nat}
    {ls : List (Nat × Rec K V)} (hi : α'.pend i = some (.sentWrite T ls)) :
    α.pend i = some (.sentWrite T ls) ∨ T = α.active := by
  have hset : ∀ {j} {p : Option (Pend K V)}, Function.update α.pend j p i = some (.sentWrite T ls) →
      α.pend i = some (.sentWrite T ls) ∨ p = some (.sentWrite T ls) := by
    intro j p hj
    by_cases hij : i = j
    · subst hij
      exact .inr (by simpa using hj)
    · exact .inl (by simpa [hij] using hj)
  cases h with
  | begin j rs n hj hn hts hrs => exact .inl ((hset hi).resolve_right (by simp))
  | sendWrite j ls hj hext =>
    rcases hset hi with h | h
    · exact .inl h
    · cases h
      exact .inr rfl
  | sendMove j c src r o hj hext => exact .inl ((hset hi).resolve_right (by simp))
  | cancel j rs hj => exact .inl ((hset hi).resolve_right (by simp))
  | apply j S d ls hj hd => exact .inl ((hset (by simpa using hi)).resolve_right (by simp))
  | moved j c src r dst C hj hc hdst => exact .inl ((hset hi).resolve_right (by simp))
  | pull c j C p todo hc htodo hj hp => exact .inl ((hset hi).resolve_right (by simp))
  | fail j c src r C hj hc => exact .inl ((hset hi).resolve_right (by simp))
  | _ => exact .inl hi

theorem Step.covers {α α' : State K V} {ℓ : Label K V} (h : Step α ℓ α') (ho : Ordered α)
    {hwm : Nat} {entries : K → Option Loc} (hc : Covers α hwm entries) : Covers α' hwm entries := by
  refine ⟨Nat.le_trans hc.le h.active_le, fun i T ls hi => ?_, fun k => ?_⟩
  · rcases h.sentWrite hi with hi | rfl
    · exact hc.inFlight i T ls hi
    · exact hc.le
  · have hback : ∀ l : Rec K V, (∀ S o, (o, l) ∈ α.sent S → hwm ≤ S) →
        ∀ S o, (o, l) ∈ α'.sent S → hwm ≤ S := by
      intro l hl S o ho
      rcases h.mem_sent.2 ho with ho | rfl
      · exact hl S o ho
      · exact hc.le
    rcases h.last_eq k with heq | ⟨i, S, d, ls, pre, p, post, rfl, hi, rfl, rfl, _, hp⟩
    · rcases hc.key k with ⟨h1, h2⟩ | ⟨l, hl, h2⟩
      · refine .inl ⟨fun S o he => ?_, by rw [heq]; exact h2⟩
        obtain ⟨l, hl, hs, hmem⟩ := h1 S o he
        exact ⟨l, heq ▸ hl, hs, h.mem_sent.1 hmem⟩
      · exact .inr ⟨l, heq ▸ hl, hback l h2⟩
    · -- the write applied was in flight, hence in a segment the replay reads
      refine .inr ⟨p.2, hp, hback p.2 fun T o ho' => ?_⟩
      rw [(ho.once i S _ hi p (by simp) T o ho').1]
      exact hc.inFlight i S _ hi

section Replay

variable {α : State K V} {hwm : Nat} {entries : K → Option Loc}

omit [DecidableEq K] in
/-- The last record of a key in the replayed segments is its last applied write, or both are
tombstones. -/
theorem Ordered.replayed (ho : Ordered α) (hw : Wf α) (hl : Linked α) (hk : Kept α)
    (hidle : ∀ r, ¬ Unapplied α r) {S : Nat} {p : Nat × Rec K V}
    (hS : α.linked S) (hp : p ∈ α.sent S) (hle : hwm ≤ S)
    (hlast : ∀ T, α.linked T → hwm ≤ T → ∀ q ∈ α.sent T, q.2.key = p.2.key →
      ¬ After (S, p.1) (T, q.1)) :
    ∃ l, α.last p.2.key = some l ∧ (p.2 = l ∨ p.2.val = none ∧ l.val = none) := by
  obtain ⟨l, hl', hts⟩ := hk.newest hidle hp
  obtain ⟨T, o, hT, hmem⟩ := hk.exists_linked hw hl hl'
  refine ⟨l, hl', ?_⟩
  have hsame : After (T, o) (S, p.1) → p.2 = l ∨ p.2.val = none ∧ l.val = none := by
    intro hafter
    rcases ho.last _ l hl' T o hT hmem S hS p hp rfl hafter with h | h | h
    · exact .inl h
    · exact .inr h
    · omega
  rcases Nat.lt_trichotomy T S with h | h | h
  · exact hsame (.inl h)
  · subst h
    rcases Nat.lt_trichotomy o p.1 with h | h | h
    · exact hsame (.inr ⟨rfl, h⟩)
    · subst h
      exact .inl (hw.eq_of_offset (r := p.2) hp hmem)
    · exact absurd (.inr ⟨rfl, h⟩) (hlast T hT hle (o, l) hmem (hw.last_key _ l hl'))
  · exact absurd (.inl h) (hlast T hT (Nat.le_trans hle (Nat.le_of_lt h)) (o, l) hmem
      (hw.last_key _ l hl'))

omit [DecidableEq K] in
/-- A key without a record in the replayed segments has a right entry. -/
theorem Covers.untouched (hc : Covers α hwm entries) (hw : Wf α) (hl : Linked α) (hk : Kept α)
    {k : K} (hno : ∀ T, α.linked T → hwm ≤ T → ∀ q ∈ α.sent T, q.2.key ≠ k) :
    Locates α k (entries k) := by
  rcases hc.key k with h | ⟨l, hl', hall⟩
  · exact h
  · obtain ⟨T, o, hT, hmem⟩ := hk.exists_linked hw hl hl'
    exact absurd (hw.last_key k l hl') (hno T hT (hall T o hmem) (o, l) hmem)

end Replay

end SegLog
