import Skeg.Lib.SegLog.Machine

/-!
# Reclaiming a segment loses nothing

A compaction unlinks the segment it read once every record it found current has been moved.  That
is safe when no operation had an append in flight to the segment at the moment it was read
(`Settled`): such an append is invisible to the compaction, and its operation points the index at
the unlinked segment afterwards.  Under that discipline every index entry points into a linked
segment (`Step.linked`), and so does the last tombstone of every deleted key (`Step.kept`).
-/

namespace SegLog

variable {K V : Type*} [DecidableEq K]

/-- A segment is read for compaction only when no append to it is in flight. -/
def Settled (α : State K V) : Label K V → Prop
  | .scan _ S => ¬ α.InFlight S
  | _ => True

/-- Compaction `c` still has the record at `o` of its segment ahead of it or under way. -/
def Ahead (α : State K V) (c : Nat) (C : Comp K V) (o : Nat) : Prop :=
  C.failed = true ∨ (∃ r, (o, r) ∈ C.todo) ∨ ∃ i r, α.Moving i c (C.seg, o) r

/-- The index points into linked segments, and at nothing a compaction is done with. -/
structure Linked (α : State K V) : Prop where
  active : α.linked α.active
  inFlight : ∀ S, α.InFlight S → α.linked S ∧ ∀ c C, α.comp c = some C → C.seg ≠ S
  index : ∀ k S o, α.index k = some (S, o) → α.linked S ∧
    ∀ c C, α.comp c = some C → C.seg = S → Ahead α c C o

/-! ### Appends in flight -/

section InFlight

variable {α : State K V} {i S : Nat}

omit [DecidableEq K] in
theorem inFlight_of_sentWrite {ls : List (Nat × Rec K V)}
    (h : α.pend i = some (.sentWrite S ls)) : α.InFlight S := .inl ⟨i, ls, h⟩

omit [DecidableEq K] in
theorem inFlight_of_sentMove {c : Nat} {src : Loc} {r : Rec K V} {dst : Loc}
    (h : α.pend i = some (.sentMove c src r dst)) : α.InFlight dst.1 :=
  .inr ⟨i, c, src, r, dst.2, h⟩

omit [DecidableEq K] in
theorem inFlight_of_clearPend (h : (α.setPend i none).InFlight S) : α.InFlight S := by
  rcases h with ⟨j, ls, h⟩ | ⟨j, c, src, r, o, h⟩
  · by_cases hji : j = i
    · simp [hji] at h
    · exact .inl ⟨j, ls, by simpa [hji] using h⟩
  · by_cases hji : j = i
    · simp [hji] at h
    · exact .inr ⟨j, c, src, r, o, by simpa [hji] using h⟩

omit [DecidableEq K] in
/-- Setting an operation that is not appended, or appended to `T`, adds at most `T`. -/
theorem inFlight_of_setPend {p : Pend K V} {T : Nat}
    (hp : ∀ S, (∃ ls, p = .sentWrite S ls) ∨ (∃ c src r o, p = .sentMove c src r (S, o)) → S = T)
    (h : (α.setPend i (some p)).InFlight S) : S = T ∨ α.InFlight S := by
  rcases h with ⟨j, ls, h⟩ | ⟨j, c, src, r, o, h⟩
  · by_cases hji : j = i
    · subst hji
      exact .inl (hp S (.inl ⟨ls, by simpa using h⟩))
    · exact .inr (.inl ⟨j, ls, by simpa [hji] using h⟩)
  · by_cases hji : j = i
    · subst hji
      exact .inl (hp S (.inr ⟨c, src, r, o, by simpa using h⟩))
    · exact .inr (.inr ⟨j, c, src, r, o, by simpa [hji] using h⟩)

omit [DecidableEq K] in
theorem moving_setPend {p : Option (Pend K V)} (hi : ∀ c src r, ¬ α.Moving i c src r)
    {j c : Nat} {src : Loc} {r : Rec K V} (h : α.Moving j c src r) :
    (α.setPend i p).Moving j c src r := by
  have hji : j ≠ i := by rintro rfl; exact hi _ _ _ h
  simpa [State.Moving, hji] using h

omit [DecidableEq K] in
theorem not_moving {p : Option (Pend K V)} (hi : α.pend i = p)
    (hp : ∀ c src r, p ≠ some (.queuedMove c src r) ∧ ∀ dst, p ≠ some (.sentMove c src r dst))
    (c : Nat) (src : Loc) (r : Rec K V) : ¬ α.Moving i c src r := by
  rintro (h | ⟨dst, h⟩)
  · exact (hp c src r).1 (hi ▸ h)
  · exact (hp c src r).2 dst (hi ▸ h)

omit [DecidableEq K] in
/-- Appending a relocated record does not end any relocation. -/
theorem moving_of_sendMove {c o : Nat} {src : Loc} {r : Rec K V}
    (hi : α.pend i = some (.queuedMove c src r)) {j c' : Nat} {src' : Loc} {r' : Rec K V}
    (hm : α.Moving j c' src' r') :
    ((α.append [(o, r)]).setPend i (some (.sentMove c src r (α.active, o)))).Moving j c' src' r' := by
  by_cases hji : j = i
  · subst hji
    have hm' : c = c' ∧ src = src' ∧ r = r' := by simpa [State.Moving, hi] using hm
    obtain ⟨rfl, rfl, rfl⟩ := hm'
    exact .inr ⟨(α.active, o), by simp⟩
  · simpa [State.Moving, hji] using hm

omit [DecidableEq K] in
/-- A relocation that ends leaves those of the other compactions alone. -/
theorem moving_of_clearPend_ne {c : Nat} {src : Loc} {r : Rec K V} (hi : α.Moving i c src r)
    {j c' : Nat} {src' : Loc} {r' : Rec K V} (hne : (c', src', r') ≠ (c, src, r))
    (hm : α.Moving j c' src' r') : (α.setPend i none).Moving j c' src' r' := by
  have hji : j ≠ i := by
    rintro rfl
    rcases hi with hi | ⟨_, hi⟩ <;> rcases hm with hm | ⟨_, hm⟩ <;> simp [hi] at hm <;>
      exact hne (by simp [hm])
  simpa [State.Moving, hji] using hm

end InFlight

/-! ### The index stays linked -/

omit [DecidableEq K] in
theorem Ahead.mono {α α' : State K V} {c o : Nat} {C C' : Comp K V} (h : Ahead α c C o)
    (hseg : C'.seg = C.seg) (hf : C.failed = true → C'.failed = true)
    (htodo : ∀ r, (o, r) ∈ C.todo → Ahead α' c C' o)
    (hmv : ∀ i r, α.Moving i c (C.seg, o) r → ∃ j, α'.Moving j c (C.seg, o) r) :
    Ahead α' c C' o := by
  rcases h with h | ⟨r, h⟩ | ⟨i, r, h⟩
  · exact .inl (hf h)
  · exact htodo r h
  · obtain ⟨j, hj⟩ := hmv i r h
    exact .inr (.inr ⟨j, r, hseg ▸ hj⟩)

omit [DecidableEq K] in
/-- A step that unlinks nothing and starts no compaction: it appends at most to the active segment,
points the index at most at records in flight, and leaves ahead of each compaction what the index
still points at. -/
theorem Linked.of_step {α α' : State K V} (h : Linked α) (hw : Wf α)
    (hact : α'.linked α'.active) (hlink : ∀ S, α.linked S → α'.linked S)
    (hin : ∀ S, α'.InFlight S → S = α.active ∨ α.InFlight S)
    (hidx : ∀ k, α'.index k = α.index k ∨ ∀ S o, α'.index k = some (S, o) → α.InFlight S)
    (hcomp : ∀ c C', α'.comp c = some C' → ∃ C, α.comp c = some C ∧ C'.seg = C.seg ∧
      ∀ k o, α.index k = some (C.seg, o) → α'.index k = α.index k →
        Ahead α c C o → Ahead α' c C' o) : Linked α' := by
  have hfree : ∀ S, α.InFlight S → ∀ c C', α'.comp c = some C' → C'.seg ≠ S := by
    intro S hS c C' hc'
    obtain ⟨C, hc, hseg, _⟩ := hcomp c C' hc'
    exact hseg ▸ (h.inFlight S hS).2 c C hc
  refine ⟨hact, fun S hS => ?_, fun k S o hk => ?_⟩
  · rcases hin S hS with rfl | hS
    · refine ⟨hlink _ h.active, fun c C' hc' => ?_⟩
      obtain ⟨C, hc, hseg, _⟩ := hcomp c C' hc'
      exact hseg ▸ Nat.ne_of_lt (hw.comp c C hc).1
    · exact ⟨hlink S (h.inFlight S hS).1, hfree S hS⟩
  · rcases hidx k with heq | hnew
    · have hk' : α.index k = some (S, o) := heq ▸ hk
      refine ⟨hlink S (h.index k S o hk').1, fun c C' hc' hS => ?_⟩
      obtain ⟨C, hc, hseg, hahead⟩ := hcomp c C' hc'
      have hCS : C.seg = S := hseg ▸ hS
      exact hahead k o (hCS ▸ hk') heq ((h.index k S o hk').2 c C hc hCS)
    · have hS := hnew S o hk
      exact ⟨hlink S (h.inFlight S hS).1, fun c C' hc' hseg => absurd hseg (hfree S hS c C' hc')⟩

omit [DecidableEq K] in
/-- A step on one operation that is no relocation, or stays the same relocation. -/
theorem Linked.of_pend {α α' : State K V} (h : Linked α) (hw : Wf α)
    (hact : α'.linked α'.active) (hlink : ∀ S, α.linked S → α'.linked S)
    (hin : ∀ S, α'.InFlight S → S = α.active ∨ α.InFlight S)
    (hidx : ∀ k, α'.index k = α.index k ∨ ∀ S o, α'.index k = some (S, o) → α.InFlight S)
    (hcomp : α'.comp = α.comp)
    (hmv : ∀ i c src r, α.Moving i c src r → α'.Moving i c src r) : Linked α' := by
  refine h.of_step hw hact hlink hin hidx fun c C hc => ⟨C, hcomp ▸ hc, rfl, fun k o _ _ ha => ?_⟩
  exact ha.mono rfl id (fun r hr => .inr (.inl ⟨r, hr⟩)) fun i r hm => ⟨i, hmv i c _ r hm⟩

omit [DecidableEq K] in
theorem comp_of_update {f : Nat → Option (Comp K V)} {c c' : Nat} {D C' : Comp K V}
    (h : Function.update f c (some D) c' = some C') : c' = c ∧ C' = D ∨ c' ≠ c ∧ f c' = some C' := by
  by_cases hcc : c' = c
  · subst hcc
    exact .inl ⟨rfl, by simpa using h.symm⟩
  · exact .inr ⟨hcc, by simpa [hcc] using h⟩

omit [DecidableEq K] in
theorem comp_of_clear {f : Nat → Option (Comp K V)} {c c' : Nat} {C' : Comp K V}
    (h : Function.update f c none c' = some C') : f c' = some C' := by
  have hne : c' ≠ c := by rintro rfl; simp at h
  simpa [hne] using h

omit [DecidableEq K] in
/-- A step of compaction `c`. -/
theorem Linked.of_comp {α α' : State K V} (h : Linked α) (hw : Wf α) {c : Nat} {C D : Comp K V}
    (hc : α.comp c = some C) (hcomp : α'.comp = Function.update α.comp c (some D))
    (hseg : D.seg = C.seg) (hlinked : α'.linked = α.linked) (hactive : α'.active = α.active)
    (hin : ∀ S, α'.InFlight S → α.InFlight S)
    (hidx : ∀ k, α'.index k = α.index k ∨ ∀ S o, α'.index k = some (S, o) → α.InFlight S)
    (hmv : ∀ i c' src r, c' ≠ c → α.Moving i c' src r → α'.Moving i c' src r)
    (hahead : ∀ k o, α.index k = some (C.seg, o) → α'.index k = α.index k → Ahead α c C o →
      Ahead α' c D o) : Linked α' := by
  refine h.of_step hw (by rw [hlinked, hactive]; exact h.active) (fun S hS => hlinked ▸ hS)
    (fun S hS => .inr (hin S hS)) hidx fun c' C' hc' => ?_
  rw [hcomp] at hc'
  rcases comp_of_update hc' with ⟨rfl, rfl⟩ | ⟨hne, hc'⟩
  · exact ⟨C, hc, hseg, hahead⟩
  · refine ⟨C', hc', rfl, fun k o _ _ ha => ?_⟩
    exact ha.mono rfl id (fun r hr => .inr (.inl ⟨r, hr⟩)) fun i r hm => ⟨i, hmv i c' _ r hne hm⟩

/-- A relocation resolves: the index no longer points at its source. -/
theorem Linked.moved {α : State K V} (h : Linked α) (hw : Wf α) {i c : Nat} {src dst : Loc} {r : Rec K V}
    {C D : Comp K V} (hi : α.pend i = some (.sentMove c src r dst)) (hc : α.comp c = some C)
    (hseg : D.seg = C.seg) (htodo : D.todo = C.todo) (hfailed : D.failed = C.failed) :
    Linked (({ α with
        index := if r.val.isSome ∧ α.index r.key = some src
          then Function.update α.index r.key (some dst) else α.index }.setPend i none).setComp c (some D)) := by
  have hp := hw.pend i _ hi
  refine h.of_comp hw hc rfl hseg rfl rfl (fun S hS => inFlight_of_clearPend hS) (fun k => ?_)
    (fun j c' src' r' hne hm => ?_) (fun k o hk hk' ha => ?_)
  · by_cases hcas : r.val.isSome = true ∧ α.index r.key = some src
    · by_cases hkr : k = r.key
      · refine .inr fun S o hk => ?_
        obtain rfl : dst = (S, o) := by simpa [hcas, hkr] using hk
        exact inFlight_of_sentMove hi
      · exact .inl (by simp [hcas, hkr])
    · exact .inl (by simp [hcas])
  · exact moving_of_clearPend_ne (.inr ⟨dst, hi⟩) (by simp [hne]) hm
  · refine ha.mono hseg (fun h => hfailed.trans h) (fun r hr => .inr (.inl ⟨r, htodo ▸ hr⟩)) fun j r' hm => ⟨j, ?_⟩
    refine moving_of_clearPend_ne (.inr ⟨dst, hi⟩) ?_ hm
    intro heq
    obtain ⟨rfl, rfl⟩ : (C.seg, o) = src ∧ r' = r := by simpa using heq
    obtain ⟨l, hl, hsome, hlS⟩ := hw.index_some k _ _ hk
    obtain rfl : r' = l := hw.eq_of_offset hp.1.1 hlS
    obtain rfl : r'.key = k := hw.last_key _ _ hl
    have hdst' : dst = (C.seg, o) := by simpa [hsome, hk] using hk'
    exact Nat.lt_irrefl _ (hdst' ▸ hp.2.2.1)

omit [DecidableEq K] in
/-- A compaction that starts while no append to its segment is in flight reads every record of it. -/
theorem Linked.scan {α : State K V} (h : Linked α) (hw : Wf α) {c S : Nat} (hnot : ¬ α.InFlight S) :
    Linked (α.setComp c (some ⟨S, α.sent S, [], false⟩)) := by
  refine ⟨h.active, fun T hT => ⟨(h.inFlight T hT).1, fun c' C' hc' => ?_⟩, fun k T o hk =>
    ⟨(h.index k T o hk).1, fun c' C' hc' hseg => ?_⟩⟩
  · rcases comp_of_update hc' with ⟨rfl, rfl⟩ | ⟨_, hc'⟩
    · rintro rfl
      exact hnot hT
    · exact (h.inFlight T hT).2 c' C' hc'
  · rcases comp_of_update hc' with ⟨rfl, rfl⟩ | ⟨_, hc'⟩
    · obtain ⟨r, _, _, hr⟩ := hw.index_some k T o hk
      obtain rfl : S = T := hseg
      exact .inr (.inl ⟨r, hr⟩)
    · exact (h.index k T o hk).2 c' C' hc' hseg

omit [DecidableEq K] in
/-- Nothing points into the segment of a compaction that has moved every record. -/
theorem Linked.unlink {α : State K V} (h : Linked α) (hw : Wf α) {c : Nat} {C : Comp K V}
    (hc : α.comp c = some C) (htodo : C.todo = []) (hf : C.failed = false) (hm : α.NoMoves c) :
    Linked ({ α with linked := Function.update α.linked C.seg False }.setComp c none) := by
  have hkeep : ∀ S, α.linked S → S ≠ C.seg →
      (({ α with linked := Function.update α.linked C.seg False }.setComp c none).linked S) :=
    fun S hS hne => by simpa [hne] using hS
  refine ⟨hkeep _ h.active (Nat.ne_of_gt (hw.comp c C hc).1), fun S hS => ?_, fun k S o hk => ?_⟩
  · obtain ⟨h1, h2⟩ := h.inFlight S hS
    exact ⟨hkeep S h1 (h2 c C hc).symm, fun c' C' hc' => h2 c' C' (comp_of_clear hc')⟩
  · obtain ⟨h1, h2⟩ := h.index k S o hk
    refine ⟨hkeep S h1 ?_, fun c' C' hc' => h2 c' C' (comp_of_clear hc')⟩
    rintro rfl
    -- a record still ahead of the compaction would keep the segment
    rcases h2 c C hc rfl with h | ⟨r, h⟩ | ⟨i, r, h⟩
    · simp [hf] at h
    · simp [htodo] at h
    · exact hm i _ r h

theorem Step.linked {α α' : State K V} {ℓ : Label K V} (h : Step α ℓ α') (hw : Wf α)
    (hq : Settled α ℓ) (hα : Linked α) : Linked α' := by
  cases h with
  | tick n hn => exact ⟨hα.active, hα.inFlight, hα.index⟩
  | begin i rs n hi hn hts hrs =>
    refine hα.of_pend hw hα.active (fun _ => id) (fun S hS => ?_) (fun _ => .inl rfl) rfl ?_
    · exact inFlight_of_setPend (α := { α with clock := n }) (by simp) hS
    · exact fun j c src r hm => moving_setPend (not_moving hi (by simp)) hm
  | sendWrite i ls hi hext =>
    refine hα.of_pend hw hα.active (fun _ => id) (fun S hS => ?_) (fun _ => .inl rfl) rfl ?_
    · exact inFlight_of_setPend (α := α.append ls) (by simp) hS
    · exact fun j c src r hm => moving_setPend (not_moving hi (by simp)) hm
  | sendMove i c src r o hi hext =>
    refine hα.of_pend hw hα.active (fun _ => id) (fun S hS => ?_) (fun _ => .inl rfl) rfl ?_
    · exact inFlight_of_setPend (α := α.append [(o, r)]) (by simp) hS
    · exact fun j c' src' r' => moving_of_sendMove hi
  | cancel i rs hi =>
    refine hα.of_pend hw hα.active (fun _ => id) (fun S hS => ?_) (fun _ => .inl rfl) rfl ?_
    · exact .inr (inFlight_of_clearPend hS)
    · exact fun j c src r hm => moving_setPend (not_moving hi (by simp)) hm
  | rotate =>
    refine hα.of_pend hw (by simp) (fun S hS => ?_) (fun S hS => .inr hS) (fun _ => .inl rfl) rfl
      fun _ _ _ _ => id
    by_cases h : S = α.active + 1 <;> simp [h, hS]
  | apply i S d ls hi hd =>
    refine hα.of_pend hw (by simpa using hα.active) (fun T hT => by simpa using hT)
      (fun T hT => .inr ?_) (fun k => ?_) (α.applyAll_comp S d ls) ?_
    · simpa [State.InFlight] using inFlight_of_clearPend hT
    · rcases α.applyAll_cases S d ls k with ⟨_, h1, _⟩ | ⟨_, p, _, _, _, _, h1, _⟩
      · exact .inl h1
      · refine .inr fun T o hk => ?_
        obtain ⟨_, rfl, _⟩ : p.2.val.isSome = true ∧ S = T ∧ p.1 = o := by simpa [h1] using hk
        exact inFlight_of_sentWrite hi
    · intro j c src r hm
      refine moving_setPend (not_moving (p := some (.sentWrite S ls)) (by simpa using hi) (by simp)) ?_
      simpa [State.Moving] using hm
  | moved i c src r dst C hi hc hdst => exact hα.moved hw hi hc rfl rfl rfl
  | scan c S todo hc hS hl htodo hall =>
    have hnot : ¬ α.InFlight S := hq
    rw [hall hnot]
    exact hα.scan hw hnot
  | pull c i C p todo hc htodo hi hp =>
    have hmv : ∀ j c' src r, α.Moving j c' src r → ((α.setComp c (some { C with todo := todo })).setPend
        i (some (.queuedMove c (C.seg, p.1) p.2))).Moving j c' src r :=
      fun j c' src r hm => moving_setPend (α := α.setComp c _) (not_moving hi (by simp)) hm
    refine hα.of_comp hw hc rfl rfl rfl rfl (fun S hS => ?_) (fun _ => .inl rfl)
      (fun j c' src r _ => hmv j c' src r) fun k o _ _ ha => ?_
    · exact (inFlight_of_setPend (α := α.setComp c _) (T := S + 1) (by simp) hS).elim
        (fun h => absurd h (Nat.ne_of_lt (Nat.lt_succ_self S))) id
    · refine ha.mono rfl id (fun r hr => ?_) fun j r hm => ⟨j, hmv j c _ r hm⟩
      rw [htodo] at hr
      rcases List.mem_cons.mp hr with rfl | hr
      · exact .inr (.inr ⟨i, r, .inl (by simp)⟩)
      · exact .inr (.inl ⟨r, hr⟩)
  | skip c C p todo hc htodo hp =>
    refine hα.of_comp hw hc rfl rfl rfl rfl (fun S hS => hS) (fun _ => .inl rfl)
      (fun _ _ _ _ _ => id) fun k o hk _ ha => ?_
    refine ha.mono rfl id (fun r hr => ?_) fun j r hm => ⟨j, hm⟩
    rw [htodo] at hr
    rcases List.mem_cons.mp hr with rfl | hr
    · -- the record the index points at would have been current
      have hmem := (hw.comp c C hc).2 (o, r) (htodo ▸ List.mem_cons_self ..)
      obtain ⟨r', hl, hsome, hr'⟩ := hw.index_some k _ _ hk
      obtain rfl : r = r' := hw.eq_of_offset hmem hr'
      exact absurd (by simpa [State.Carries, hsome, hw.last_key _ _ hl] using hk) hp
    · exact .inr (.inl ⟨r, hr⟩)
  | fail i c src r C hi hc =>
    refine hα.of_comp hw hc rfl rfl rfl rfl (fun S hS => inFlight_of_clearPend hS)
      (fun _ => .inl rfl) (fun j c' src' r' hne hm => ?_) fun k o _ _ _ => .inl rfl
    exact moving_of_clearPend_ne hi (by simp [hne]) hm
  | sync S n hn => exact ⟨hα.active, hα.inFlight, hα.index⟩
  | syncDest c S n C ds hc hds hm hn hall =>
    exact hα.of_comp hw hc rfl rfl rfl rfl (fun S hS => hS) (fun _ => .inl rfl)
      (fun _ _ _ _ _ => id) fun k o _ _ ha => ha.mono rfl id (fun r hr => .inr (.inl ⟨r, hr⟩))
        fun j r hm => ⟨j, hm⟩
  | unlink c C hc htodo hd hf hm => exact hα.unlink hw hc htodo hf hm
  | abandon c C hc hf hm =>
    exact hα.of_step hw hα.active (fun _ => id) (fun S hS => .inr hS) (fun _ => .inl rfl)
      fun c' C' hc' => ⟨C', comp_of_clear hc', rfl, fun k o _ _ ha => ha⟩

end SegLog
