import Skeg.Lib.SegLog.Order

/-!
# One operation at a time

When a write begins, or a segment is read for compaction, only while nothing else is under way
(`OneAtATime`), the log is idle, writing or compacting (`Alone`), and all the disciplines of the
sibling modules hold by themselves: a write is newer than everything there is, and what a compaction
moves stays current until it has been moved.  The relocations of one compaction still interleave.
-/

namespace SegLog

variable {K V : Type*} [DecidableEq K]

/-- Nothing is under way. -/
structure Idle (α : State K V) : Prop where
  pend : ∀ i, α.pend i = none
  comp : ∀ c, α.comp c = none

/-- A write begins and a segment is read only when nothing is under way. -/
def OneAtATime (α : State K V) : Label K V → Prop
  | .begin _ _ => Idle α
  | .scan _ _ => Idle α
  | _ => True

/-- The write `i` is under way, newer than everything before it. -/
structure Writing (α : State K V) (i : Nat) : Prop where
  others : ∀ j, j ≠ i → α.pend j = none
  comp : ∀ c, α.comp c = none
  write : (∃ rs, α.pend i = some (.queuedWrite rs) ∧ ∀ r ∈ rs,
      (∀ k l, α.last k = some l → l.ts < r.ts) ∧ ∀ S, ∀ p ∈ α.sent S, p.2.ts < r.ts) ∨
    ∃ T ls, α.pend i = some (.sentWrite T ls) ∧ ∀ p ∈ ls, ∀ k l, α.last k = some l → l.ts < p.2.ts

/-- Compaction `c` is under way: the records it moves are current and pairwise different, and it has
others ahead of it. -/
structure Compacting (α : State K V) (c : Nat) (C : Comp K V) : Prop where
  comp : α.comp c = some C
  others : ∀ c', c' ≠ c → α.comp c' = none
  moves : ∀ i p, α.pend i = some p → ∃ o r, α.Moving i c (C.seg, o) r
  carried : ∀ i o r, α.pend i = some (.queuedMove c (C.seg, o) r) → α.Carries C.seg (o, r)
  distinct : ∀ i j o r r', α.Moving i c (C.seg, o) r → α.Moving j c (C.seg, o) r' → i = j
  ahead : ∀ i o r, α.Moving i c (C.seg, o) r → ∀ p ∈ C.todo, o ≠ p.1
  sorted : C.todo.Pairwise fun p q => p.1 < q.1

structure Alone (α : State K V) : Prop where
  last_clock : ∀ k l, α.last k = some l → l.ts < α.clock
  mode : Idle α ∨ (∃ i, Writing α i) ∨ ∃ c C, Compacting α c C

/-! ### What is under way -/

section

variable {α : State K V}

omit [DecidableEq K] in
theorem Idle.not_inFlight (h : Idle α) (S : Nat) : ¬ α.InFlight S := by
  rintro (⟨i, ls, hi⟩ | ⟨i, c, src, r, o, hi⟩) <;> simp [h.pend i] at hi

omit [DecidableEq K] in
/-- A write under way is the only thing that is. -/
theorem Alone.writing (h : Alone α) {i : Nat} {p : Pend K V} (hi : α.pend i = some p)
    (hp : ∀ c src r, ¬ α.Moving i c src r) : Writing α i := by
  rcases h.mode with hm | ⟨j, hm⟩ | ⟨c, C, hm⟩
  · simp [hm.pend i] at hi
  · have hij : i = j := by
      by_contra hne
      simp [hm.others i hne] at hi
    exact hij ▸ hm
  · obtain ⟨o, r, hmv⟩ := hm.moves i p hi
    exact absurd hmv (hp c _ r)

omit [DecidableEq K] in
/-- A compaction under way is the only thing that is. -/
theorem Alone.compacting (h : Alone α) {c : Nat} {C : Comp K V} (hc : α.comp c = some C) :
    Compacting α c C := by
  rcases h.mode with hm | ⟨j, hm⟩ | ⟨c', C', hm⟩
  · simp [hm.comp c] at hc
  · simp [hm.comp c] at hc
  · have hcc : c = c' := by
      by_contra hne
      simp [hm.others c hne] at hc
    subst hcc
    rw [hm.comp] at hc
    cases hc
    exact hm

end

/-! ### The disciplines -/

section

variable {α α' : State K V} {ℓ : Label K V}

omit [DecidableEq K] in
theorem OneAtATime.settled (h : OneAtATime α ℓ) : Settled α ℓ := by
  cases ℓ with
  | scan c S => exact Idle.not_inFlight h S
  | _ => trivial

omit [DecidableEq K] in
/-- A write that has been sent is newer than every write applied. -/
theorem Alone.newer (hα : Alone α) {i T : Nat} {ls : List (Nat × Rec K V)} (hi : α.pend i = some (.sentWrite T ls)) :
    ∀ p ∈ ls, ∀ k l, α.last k = some l → l.ts < p.2.ts := by
  rcases (hα.writing hi (not_moving hi (by simp))).write with ⟨rs, hrs, _⟩ | ⟨T', ls', hls, hlt⟩
  · simp [hi] at hrs
  · rw [hi] at hls
    cases hls
    exact hlt

theorem Alone.inOrder (hα : Alone α) (h : Step α ℓ α') : InOrder α ℓ := by
  cases h with
  | apply i S d ls hi hd => exact fun p hp l hl => hα.newer hi p hp _ l hl
  | _ => trivial

theorem Alone.appendOrdered (hα : Alone α) (hw : Wf α) (h : Step α ℓ α') : AppendOrdered α ℓ := by
  cases h with
  | sendWrite i ls hi hext =>
    rcases (hα.writing hi (not_moving hi (by simp))).write with ⟨rs, hrs, hlt⟩ | ⟨T, ls', hls, _⟩
    · rw [hi] at hrs
      cases hrs
      exact fun r hr S _ p hp _ => (hlt r hr).2 S p hp
    · simp [hi] at hls
  | sendMove i c src r o hi hext =>
    obtain ⟨C, hc, hseg⟩ := (hw.moving (.inl hi)).2
    obtain ⟨S, o'⟩ := src
    cases hseg
    refine ⟨(hα.compacting hc).carried i o' r hi, ?_⟩
    rintro r' ⟨j, T, ls, hj, _⟩
    have hwr := hα.writing hj (not_moving hj (by simp))
    simp [hwr.comp c] at hc
  | _ => trivial

end

/-! ### What a step keeps -/

section

variable {α α' : State K V} {c : Nat} {C : Comp K V}

omit [DecidableEq K] in
/-- A step that touches neither the operations under way nor the index. -/
theorem Alone.of_same (h : Alone α) (hpend : α'.pend = α.pend) (hcomp : α'.comp = α.comp)
    (hindex : α'.index = α.index) (hlast : α'.last = α.last) (hsent : α'.sent = α.sent)
    (hclock : α.clock ≤ α'.clock) : Alone α' := by
  refine ⟨fun k l hl => ?_, ?_⟩
  · have := h.last_clock k l (hlast ▸ hl)
    omega
  · have hmv : ∀ i c src r, α'.Moving i c src r ↔ α.Moving i c src r := by
      simp [State.Moving, hpend]
    rcases h.mode with hm | ⟨i, hm⟩ | ⟨c, C, hm⟩
    · exact .inl ⟨hpend ▸ hm.pend, hcomp ▸ hm.comp⟩
    · refine .inr (.inl ⟨i, hpend ▸ hm.others, hcomp ▸ hm.comp, ?_⟩)
      rw [hpend, hlast, hsent]
      exact hm.write
    · refine .inr (.inr ⟨c, C, hcomp ▸ hm.comp, hcomp ▸ hm.others, ?_, ?_, ?_, ?_, hm.sorted⟩)
      · simpa only [hpend, hmv] using hm.moves
      · simpa only [hpend, State.Carries, hindex] using hm.carried
      · simpa only [hmv] using hm.distinct
      · simpa only [hmv] using hm.ahead

omit [DecidableEq K] in
/-- A step of the compaction under way that starts no relocation. -/
theorem Compacting.of_step (h : Compacting α c C) {D : Comp K V}
    (hcomp : α'.comp = Function.update α.comp c (some D)) (hseg : D.seg = C.seg) (htodo : D.todo.Sublist C.todo)
    (hmoves : ∀ i p, α'.pend i = some p → ∃ o r, α'.Moving i c (C.seg, o) r)
    (hmv : ∀ i o r, α'.Moving i c (C.seg, o) r → α.Moving i c (C.seg, o) r)
    (hcar : ∀ i o r, α'.pend i = some (.queuedMove c (C.seg, o) r) → α'.Carries C.seg (o, r)) :
    Compacting α' c D where
  comp := by simp [hcomp]
  others c' hne := by simp [hcomp, hne, h.others c' hne]
  moves := hseg ▸ hmoves
  carried := hseg ▸ hcar
  distinct i j o r r' hi hj := by
    rw [hseg] at hi hj
    exact h.distinct i j o r r' (hmv i o r hi) (hmv j o r' hj)
  ahead i o r hi p hp := by
    rw [hseg] at hi
    exact h.ahead i o r (hmv i o r hi) p (htodo.mem hp)
  sorted := h.sorted.sublist htodo

omit [DecidableEq K] in
/-- Without relocations, nothing is under way once the compaction has ended. -/
theorem Compacting.idle (h : Compacting α c C) (hm : α.NoMoves c) (hpend : α'.pend = α.pend)
    (hcomp : α'.comp = Function.update α.comp c none) : Idle α' where
  pend i := by
    rw [hpend]
    cases hi : α.pend i with
    | none => rfl
    | some p =>
      obtain ⟨o, r, hmv⟩ := h.moves i p hi
      exact absurd hmv (hm i _ r)
  comp c' := by
    by_cases hcc : c' = c
    · simp [hcomp, hcc]
    · simp [hcomp, hcc, h.others c' hcc]

omit [DecidableEq K] in
theorem Compacting.pull (h : Compacting α c C) {i : Nat} {p : Nat × Rec K V}
    {todo : List (Nat × Rec K V)} (htodo : C.todo = p :: todo) (hi : α.pend i = none)
    (hp : α.Carries C.seg p) :
    Compacting ((α.setComp c (some { C with todo := todo })).setPend i
      (some (.queuedMove c (C.seg, p.1) p.2))) c { C with todo := todo } := by
  obtain ⟨hhead, htail⟩ := List.pairwise_cons.mp (htodo ▸ h.sorted)
  -- a relocation afterwards is the new one or was there before
  have hmv : ∀ {j o r}, ((α.setComp c (some { C with todo := todo })).setPend i
      (some (.queuedMove c (C.seg, p.1) p.2))).Moving j c (C.seg, o) r →
      (j = i ∧ o = p.1) ∨ j ≠ i ∧ α.Moving j c (C.seg, o) r := by
    intro j o r hj
    by_cases hji : j = i
    · subst hji
      have : p.1 = o ∧ p.2 = r := by simpa [State.Moving] using hj
      exact .inl ⟨rfl, this.1.symm⟩
    · exact .inr ⟨hji, by simpa [State.Moving, hji] using hj⟩
  refine ⟨by simp, fun c' hne => by simp [hne, h.others c' hne], fun j q hj => ?_, fun j o r hj => ?_,
    fun j j' o r r' hj hj' => ?_, fun j o r hj q hq => ?_, htail⟩
  · by_cases hji : j = i
    · subst hji
      exact ⟨p.1, p.2, .inl (by simp)⟩
    · obtain ⟨o, r, hmv⟩ := h.moves j q (by simpa [hji] using hj)
      exact ⟨o, r, by simpa [State.Moving, hji] using hmv⟩
  · by_cases hji : j = i
    · subst hji
      have : p.1 = o ∧ p.2 = r := by simpa using hj
      obtain ⟨rfl, rfl⟩ := this
      exact hp
    · exact h.carried j o r (by simpa [hji] using hj)
  · rcases hmv hj with ⟨h1, ho⟩ | ⟨_, hold⟩ <;> rcases hmv hj' with ⟨h2, ho'⟩ | ⟨_, hold'⟩
    · rw [h1, h2]
    · exact absurd ho (h.ahead j' o r' hold' p (by simp [htodo]))
    · exact absurd ho' (h.ahead j o r hold p (by simp [htodo]))
    · exact h.distinct j j' o r r' hold hold'
  · rcases hmv hj with ⟨rfl, rfl⟩ | ⟨_, hj⟩
    · exact Nat.ne_of_lt (hhead q hq)
    · exact h.ahead j o r hj q (by simp only [htodo]; exact List.mem_cons_of_mem _ hq)

omit [DecidableEq K] in
/-- A relocation of the compaction under way is sent. -/
theorem Compacting.sendMove (h : Compacting α c C) {i o o' : Nat} {r : Rec K V}
    (hi : α.pend i = some (.queuedMove c (C.seg, o') r)) :
    Compacting ((α.append [(o, r)]).setPend i (some (.sentMove c (C.seg, o') r (α.active, o)))) c C := by
  -- the relocation goes on; the others are where they were
  have hmv : ∀ j o₁ r₁, ((α.append [(o, r)]).setPend i
      (some (.sentMove c (C.seg, o') r (α.active, o)))).Moving j c (C.seg, o₁) r₁ →
      α.Moving j c (C.seg, o₁) r₁ := by
    intro j o₁ r₁ hj
    by_cases hji : j = i
    · subst hji
      have : o' = o₁ ∧ r = r₁ := by simpa [State.Moving] using hj
      obtain ⟨rfl, rfl⟩ := this
      exact .inl hi
    · simpa [State.Moving, hji] using hj
  refine h.of_step ?_ rfl (List.Sublist.refl _) ?_ hmv ?_
  · funext c'
    by_cases hcc : c' = c
    · simp [hcc, h.comp]
    · simp [hcc]
  · intro j p hj
    by_cases hji : j = i
    · subst hji
      exact ⟨o', r, .inr ⟨(α.active, o), by simp⟩⟩
    · obtain ⟨o₁, r₁, hmj⟩ := h.moves j p (by simpa [hji] using hj)
      exact ⟨o₁, r₁, by simpa [State.Moving, hji] using hmj⟩
  · intro j o₁ r₁ hj
    by_cases hji : j = i
    · subst hji
      simp at hj
    · exact h.carried j o₁ r₁ (by simpa [hji] using hj)

omit [DecidableEq K] in
/-- A relocation of the compaction under way ends; the others still carry their records. -/
theorem Compacting.endMove (h : Compacting α c C) {i : Nat} {D : Comp K V}
    (hpend : α'.pend = Function.update α.pend i none) (hcomp : α'.comp = Function.update α.comp c (some D))
    (hseg : D.seg = C.seg) (htodo : D.todo = C.todo)
    (hcar : ∀ j ≠ i, ∀ o r, α.pend j = some (.queuedMove c (C.seg, o) r) → α'.Carries C.seg (o, r)) :
    Compacting α' c D := by
  have hself : α'.pend i = none := by simp [hpend]
  have hother : ∀ {j p}, α'.pend j = some p → j ≠ i ∧ α.pend j = some p := by
    intro j p hj
    have hji : j ≠ i := by
      rintro rfl
      simp [hself] at hj
    exact ⟨hji, by simpa [hpend, hji] using hj⟩
  refine h.of_step hcomp hseg (htodo ▸ List.Sublist.refl _) (fun j p hj => ?_) (fun j o r hj => ?_)
    fun j o r hj => ?_
  · obtain ⟨hji, hj⟩ := hother hj
    obtain ⟨o, r, hm⟩ := h.moves j p hj
    exact ⟨o, r, by simpa [State.Moving, hpend, hji] using hm⟩
  · exact hj.imp (fun hj => (hother hj).2) (Exists.imp fun _ hj => (hother hj).2)
  · exact hcar j (hother hj).1 o r (hother hj).2

/-- The entry that a relocation redirects is that of the record moved, which no other one carries. -/
theorem State.Carries.redirected {S o o₁ : Nat} {r₁ : Rec K V} (h : α.Carries S (o₁, r₁)) (hne : o₁ ≠ o)
    (r : Rec K V) (dst : Loc) :
    (if r.val.isSome ∧ α.index r.key = some (S, o) then Function.update α.index r.key (some dst)
      else α.index) r₁.key = α.index r₁.key := by
  split
  · rename_i hmove
    refine Function.update_of_ne (fun hk => ?_) ..
    unfold State.Carries at h
    rw [hk, hmove.2] at h
    split at h
    · exact hne (Prod.mk.inj (Option.some.inj h)).2.symm
    · cases h
  · rfl

omit [DecidableEq K] in
/-- A compaction starts when nothing else is under way. -/
theorem Idle.scan (h : Idle α) (hw : Wf α) {S : Nat} {todo : List (Nat × Rec K V)} (htodo : todo <+: α.sent S) :
    Compacting (α.setComp c (some ⟨S, todo, [], false⟩)) c ⟨S, todo, [], false⟩ where
  comp := by simp
  others c' hne := by simp [hne, h.comp c']
  moves j p hj := by simp [h.pend j] at hj
  carried j o r hj := by simp [h.pend j] at hj
  distinct i j o r r' hi := by simp [State.Moving, h.pend i] at hi
  ahead i o r hi := by simp [State.Moving, h.pend i] at hi
  sorted := (hw.sorted S).sublist htodo.sublist

end

theorem Step.alone {α α' : State K V} {ℓ : Label K V} (h : Step α ℓ α') (hw : Wf α)
    (hone : OneAtATime α ℓ) (hα : Alone α) : Alone α' := by
  cases h with
  | tick n hn => exact hα.of_same rfl rfl rfl rfl rfl hn
  | begin i rs n hi hn hts hrs =>
    have hidle : Idle α := hone
    refine ⟨fun k l hl => ?_, .inr (.inl ⟨i, ?_⟩)⟩
    · exact Nat.lt_of_lt_of_le (hα.last_clock k l hl) hn
    · refine ⟨fun j hj => by simp [hj, hidle.pend j], hidle.comp, .inl ⟨rs, by simp, fun r hr => ?_⟩⟩
      exact ⟨fun k l hl => Nat.lt_of_lt_of_le (hα.last_clock k l hl) (hts r hr).1,
        fun S p hp => Nat.lt_of_lt_of_le (hw.sent_clock S p hp) (hts r hr).1⟩
  | sendWrite i ls hi hext =>
    have hm := hα.writing hi (not_moving hi (by simp))
    refine ⟨hα.last_clock, .inr (.inl ⟨i, fun j hj => ?_, hm.comp, .inr ⟨α.active, ls, by simp, ?_⟩⟩)⟩
    · simp [hj, hm.others j hj]
    · rcases hm.write with ⟨rs, hrs, hlt⟩ | ⟨T, ls', hls, _⟩
      · rw [hi] at hrs
        cases hrs
        exact fun p hp => (hlt p.2 (List.mem_map_of_mem hp)).1
      · simp [hi] at hls
  | sendMove i c src r o hi hext =>
    obtain ⟨C, hc, hseg⟩ := (hw.moving (.inl hi)).2
    obtain ⟨S, o'⟩ := src
    cases hseg
    exact ⟨hα.last_clock, .inr (.inr ⟨c, C, (hα.compacting hc).sendMove hi⟩)⟩
  | cancel i rs hi =>
    have hm := hα.writing hi (not_moving hi (by simp))
    refine ⟨hα.last_clock, .inl ⟨fun j => ?_, hm.comp⟩⟩
    by_cases hji : j = i
    · simp [hji]
    · simp [hji, hm.others j hji]
  | rotate => exact hα.of_same rfl rfl rfl rfl rfl (Nat.le_refl _)
  | apply i S d ls hi hd =>
    have hm := hα.writing hi (not_moving hi (by simp))
    refine ⟨fun k l hl => ?_, .inl ⟨fun j => ?_, by simpa using hm.comp⟩⟩
    · simp only [State.setPend_last, State.setPend_clock, State.applyAll_clock] at hl ⊢
      rcases α.applyAll_cases S d ls k with ⟨_, _, h1, _⟩ | ⟨pre, p, post, rfl, _, _, _, h1, _⟩
      · exact hα.last_clock k l (h1 ▸ hl)
      · rw [h1] at hl
        cases hl
        exact hw.sent_clock S p ((hw.pend i _ hi).2.2 p (by simp))
    · by_cases hji : j = i
      · simp [hji]
      · simp [hji, hm.others j hji]
  | moved i c src r dst C hi hc hdst =>
    have hm := hα.compacting hc
    have hseg := hw.seg_of_moving hc (.inr ⟨dst, hi⟩)
    obtain ⟨S, o⟩ := src
    cases hseg
    refine ⟨hα.last_clock, .inr (.inr ⟨c, _, hm.endMove rfl rfl rfl rfl fun j hji o₁ r₁ hj => ?_⟩)⟩
    have hcar := hm.carried j o₁ r₁ hj
    -- no other relocation has the record that was moved
    have hne : o₁ ≠ o := fun ho => hji (hm.distinct j i o r₁ r (.inl (ho ▸ hj)) (.inr ⟨dst, hi⟩))
    have hsame := hcar.redirected hne r dst
    unfold State.Carries at hcar ⊢
    simp only [State.setComp_index, State.setPend_index]
    rw [hsame]
    exact hcar
  | scan c S todo hc hS hl htodo hall =>
    exact ⟨hα.last_clock, .inr (.inr ⟨c, _, Idle.scan hone hw htodo⟩)⟩
  | pull c i C p todo hc htodo hi hp =>
    exact ⟨hα.last_clock, .inr (.inr ⟨c, _, (hα.compacting hc).pull htodo hi hp⟩)⟩
  | skip c C p todo hc htodo hp =>
    have hm := hα.compacting hc
    refine ⟨hα.last_clock, .inr (.inr ⟨c, _, hm.of_step rfl rfl ?_ hm.moves (fun _ _ _ h => h)
      hm.carried⟩)⟩
    rw [htodo]
    exact List.sublist_cons_self p todo
  | fail i c src r C hi hc =>
    have hm := hα.compacting hc
    exact ⟨hα.last_clock, .inr (.inr ⟨c, _, hm.endMove rfl rfl rfl rfl fun j _ => hm.carried j⟩)⟩
  | sync S n hn => exact hα.of_same rfl rfl rfl rfl rfl (Nat.le_refl _)
  | syncDest c S n C ds hc hds hm hn hall =>
    have hm := hα.compacting hc
    exact ⟨hα.last_clock, .inr (.inr ⟨c, _, hm.of_step rfl rfl (List.Sublist.refl _) hm.moves
      (fun _ _ _ h => h) hm.carried⟩)⟩
  | unlink c C hc htodo hd hf hm =>
    exact ⟨hα.last_clock, .inl ((hα.compacting hc).idle hm rfl rfl)⟩
  | abandon c C hc hf hm =>
    exact ⟨hα.last_clock, .inl ((hα.compacting hc).idle hm rfl rfl)⟩

end SegLog
