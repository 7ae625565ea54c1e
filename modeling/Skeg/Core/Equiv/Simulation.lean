import Skeg.Core.Equiv.Compacting

/-!
# The store simulates the segmented log

Every step of the store is a few steps of the abstract log (`Rel.step`), as long as flushes succeed
and records fit their segment.  `Traced` says which abstract steps a step of the store can take, and
in which state each is taken, so that a condition on the steps of the store becomes one on the steps
of the log.
-/

namespace Skeg

open SegLog (Rec Loc Pend Comp Label Step Wf Path)

/-! ### What a step of the store can do to the log -/

/-- `β` has the records and the index of `α`. -/
structure SameData (α β : LogState) : Prop where
  sent : β.sent = α.sent
  synced : β.synced = α.synced
  index : β.index = α.index
  last : β.last = α.last
  durable : β.durable = α.durable

theorem SameData.rfl {α : LogState} : SameData α α :=
  ⟨Eq.refl _, Eq.refl _, Eq.refl _, Eq.refl _, Eq.refl _⟩

/-- `β` is `α` but for writes and relocations begun and a segment started. -/
structure Readies (α β : LogState) : Prop extends SameData α β where
  linked : ∀ T, β.linked T → α.linked T ∨ α.active < T
  write : ∀ i T ls, β.pend i = some (.sentWrite T ls) → α.pend i = some (.sentWrite T ls)

theorem Readies.rfl {α : LogState} : Readies α α :=
  ⟨.rfl, fun _ => .inl, fun _ _ _ => id⟩

/-- `β` is `α` but for the compaction of `t` and the links the events `ev` tell of. -/
structure Rests (t : Nat) (ev : List Event) (α β : LogState) : Prop extends SameData α β where
  pend : β.pend = α.pend
  comp : ∀ i, i ≠ t → β.comp i = α.comp i
  linked : ∀ T, α.linked T → .unlinked T ∉ ev → β.linked T

theorem Rests.rfl {t : Nat} {ev : List Event} {α : LogState} : Rests t ev α α :=
  ⟨.rfl, Eq.refl _, fun _ _ => Eq.refl _, fun _ hT _ => hT⟩

/-- The step runs task `t`, which is new or is not relocating. -/
def Runs (s : VLog) (a : VLog.Act) (t : Nat) : Prop :=
  (∃ op, a = .spawn t op) ∨
    a = .resume t ∧ (s.tasks.lookup t).isSome ∧ ∀ q, s.tasks.lookup t ≠ some (.relocating q)

/-- The step runs task `t`, which is not under way in the log. -/
structure Starts (s : VLog) (a : VLog.Act) (t : Nat) (β : LogState) : Prop where
  runs : Runs s a t
  pend : β.pend t = none
  comp : β.comp t = none

/-- The label of sending the records of `c`. -/
def sendLabel (t : Nat) : Cont → Label Bytes Bytes
  | .relocate parent seg offset rec => .sendMove t parent (seg, offset) (absRec rec)
  | c => .sendWrite t c.recs

/-- The step `a` of store `s`, which emits `ev`, takes the abstract step `ℓ` in `β`; `α` is the
abstract state before the step. -/
def Traced (s : VLog) (α : LogState) (a : VLog.Act) (ev : List Event) (β : LogState) :
    Label Bytes Bytes → Prop
  | .begin i _ => Starts s a i β ∧ β = α
  | .sendWrite i rs => Readies α β ∧ ∃ c, .sent i β.active c ∈ ev ∧ c.isWrite = true ∧ rs = c.recs
  | .sendMove i c src r => Readies α β ∧ ∃ rec, .sent i β.active (.relocate c src.1 src.2 rec) ∈ ev ∧
      absRec rec = r ∧ (Cont.relocate c src.1 src.2 rec).recs = [r]
  | .apply i S d ls => β = α ∧ a = .resume i ∧ ∃ dur c,
      s.tasks.lookup i = some (.commit S dur c) ∧ c.isWrite = true ∧ ls.map Prod.snd = c.recs ∧
      d = decide (dur ≠ .relaxed)
  | .scan c S => Starts s a c β ∧ .scanned c S ∈ ev ∧ Rests c ev α β
  | .unlink _ S => .unlinked S ∈ ev
  | _ => True

variable [H : Hashes] {hist ev : List Event} {s s₀ : VLog} {α β : LogState} {a : VLog.Act}
  {raw : Nat → List (List Record)} {t : Nat}

/-- From `β`, the steps of a store lead to `r`. -/
def Sim (s₀ : VLog) (α : LogState) (a : VLog.Act) (ev hist : List Event) (β : LogState)
    (r : VLog × List Event) : Prop :=
  ∃ β' raw', Path (Traced s₀ α a ev) β β' ∧ Rel (hist ++ r.2) r.1 β' raw'

omit H in
theorem recs_relocate {parent seg offset : Nat} {rec : Record}
    (hb : IsBlock (Cont.relocate parent seg offset rec).records) :
    rec.kind ≠ .batchBegin ∧ (Cont.relocate parent seg offset rec).recs = [absRec rec] := by
  have hk : rec.kind ≠ .batchBegin := by
    rcases hb.shape with ⟨r, hr, hk⟩ | ⟨ts, pairs, hr, hne, _⟩
    · simp only [Cont.records, List.cons.injEq, and_true] at hr
      rw [← hr] at hk
      exact hk
    · obtain ⟨p, pairs, rfl⟩ := List.exists_cons_of_ne_nil hne
      simp [Cont.records, batchRecords, batchMembers] at hr
  exact ⟨hk, by simp [Cont.recs, Cont.records, hk, absRec_relocated]⟩

omit H in
theorem traced_sendLabel {c : Cont} (hb : IsBlock c.records) (hβ : Readies α β)
    (hc : .sent t β.active c ∈ ev) : Traced s₀ α a ev β (sendLabel t c) := by
  cases c with
  | relocate parent seg offset rec => exact ⟨hβ, rec, hc, rfl, (recs_relocate hb).2⟩
  | set => exact ⟨hβ, _, hc, rfl, rfl⟩
  | del => exact ⟨hβ, _, hc, rfl, rfl⟩
  | setMany => exact ⟨hβ, _, hc, rfl, rfl⟩

/-- No abstract step. -/
theorem Sim.stay {r : VLog × List Event} (h : Rel hist r.1 β raw) (hev : ∀ e ∈ r.2, e.Quiet) :
    Sim s₀ α a ev hist β r := ⟨β, raw, .refl β, h.emit hev⟩

/-- One abstract step. -/
theorem Sim.one {r : VLog × List Event} {β' : LogState} {ℓ : Label Bytes Bytes}
    (hstep : Step β ℓ β') (hP : Traced s₀ α a ev β ℓ) (h : Rel hist r.1 β' raw)
    (hev : ∀ e ∈ r.2, e.Quiet) : Sim s₀ α a ev hist β r :=
  ⟨β', raw, .single hstep hP, h.emit hev⟩

/-- One abstract step and more. -/
theorem Sim.step {r : VLog × List Event} {β' : LogState} {ℓ : Label Bytes Bytes}
    (hstep : Step β ℓ β') (hP : Traced s₀ α a ev β ℓ) (h : Sim s₀ α a ev hist β' r) :
    Sim s₀ α a ev hist β r := by
  obtain ⟨γ, raw', hpath, hrel⟩ := h
  exact ⟨γ, raw', .step hstep hP hpath, hrel⟩

/-- An event in front. -/
theorem Sim.cons {s' : VLog} {evs : List Event} {e : Event}
    (h : Sim s₀ α a ev (hist ++ [e]) β (s', evs)) : Sim s₀ α a ev hist β (s', e :: evs) := by
  obtain ⟨γ, raw', hpath, hrel⟩ := h
  exact ⟨γ, raw', hpath, by simpa using hrel⟩

/-! ### Appending -/

theorem Rel.simSend (h : Rel hist s β raw) {d : Durability} {c : Cont}
    (hl : s.tasks.lookup t = some (.lockWait (.append d c))) (hβ : Readies α β)
    (hsub : ∀ e ∈ (s.send t d c).2, e ∈ ev) : Sim s₀ α a ev hist β (s.send t d c) := by
  have hrel := h.send hl
  obtain ⟨⟨hpend, hb, _⟩, _⟩ : JobOk s β t (.append d c) ∧ β.comp t = none := by
    have := h.task t
    rwa [hl] at this
  have hext : SegLog.Extends (β.sent β.active)
      (dataRecs (layout (encodeAll (raw s.active.id).flatten).length c.records)) := by
    rw [h.active, h.sent]
    exact extends_dataRecs _ _
  have htr : Traced s₀ α a ev β (sendLabel t c) :=
    traced_sendLabel hb hβ (hsub _ (by simp [VLog.send, h.active]))
  have hq : ∀ e ∈ (s.send t d c).2, e.Quiet := by simp [VLog.send, Event.Quiet]
  have hwrite : queuedOf c = .queuedWrite c.recs → sendLabel t c = .sendWrite t c.recs →
      (∀ S o, sentOf S o c = .sentWrite S (dataRecs (layout o c.records))) →
      Sim s₀ α a ev hist β (s.send t d c) := by
    intro hqueued hlabel hsent
    rw [hqueued, Cont.recs, ← map_snd_dataRecs_layout (encodeAll (raw s.active.id).flatten).length]
      at hpend
    have hstep := Step.sendWrite t _ hpend hext
    rw [map_snd_dataRecs_layout, h.active] at hstep
    rw [hsent] at hrel
    exact Sim.one hstep (hlabel ▸ htr) hrel hq
  cases c with
  | relocate parent seg offset rec =>
    have hk := (recs_relocate hb).1
    have hdata : dataRecs (layout (encodeAll (raw s.active.id).flatten).length
        (Cont.relocate parent seg offset rec).records) =
        [((encodeAll (raw s.active.id).flatten).length, absRec rec)] := by
      simp [Cont.records, layout, dataRecs, isData, hk, absRec_relocated]
    rw [hdata] at hrel hext
    have hstep := Step.sendMove t parent (seg, offset) (absRec rec) _ hpend hext
    rw [h.active] at hstep
    exact Sim.one hstep htr hrel hq
  | set => exact hwrite rfl rfl fun _ _ => rfl
  | del => exact hwrite rfl rfl fun _ _ => rfl
  | setMany => exact hwrite rfl rfl fun _ _ => rfl

omit H in
theorem lookup_setTask_self (s : VLog) (t : Nat) (pc : Pc) :
    (s.setTask t pc).tasks.lookup t = some pc := AList.lookup_insert _

/-- Sending does not look at the task that sends. -/
theorem Rel.of_send_setTask {hist : List Event} {d : Durability} {c : Cont} {pc : Pc}
    (h : Rel hist ((s.setTask t pc).send t d c).1 β raw) : Rel hist (s.send t d c).1 β raw := by
  refine h.congr ⟨⟨rfl, rfl, rfl, rfl, fun _ => rfl⟩, rfl, rfl⟩ rfl fun i => ?_
  by_cases hi : i = t
  · subst hi
    simp [VLog.send, VLog.setTask]
  · simp [VLog.send, VLog.setTask, hi]

theorem Rel.simSendAs {d : Durability} {c : Cont}
    (h : Rel hist (s.setTask t (.lockWait (.append d c))) β raw) (hβ : Readies α β)
    (hsub : ∀ e ∈ (s.send t d c).2, e ∈ ev) : Sim s₀ α a ev hist β (s.send t d c) := by
  obtain ⟨β', raw', hpath, hrel⟩ := (h.simSend (lookup_setTask_self ..) hβ hsub : Sim s₀ α a ev hist β _)
  exact ⟨β', raw', hpath, Rel.of_send_setTask hrel⟩

theorem Rel.simStartAppend {d : Durability} {c : Cont}
    (h : Rel hist (s.setTask t (.lockWait (.append d c))) β raw) (hβ : Readies α β)
    (hsub : ∀ e ∈ (s.startAppend t d c).2, e ∈ ev) : Sim s₀ α a ev hist β (s.startAppend t d c) := by
  unfold VLog.startAppend at hsub ⊢
  by_cases hr : s.needsRotation (encodeAll c.records).length
  · simp only [if_pos hr] at hsub ⊢
    exact Sim.stay h (by simp [Event.Quiet])
  · simp only [if_neg hr] at hsub ⊢
    refine Sim.cons ?_
    have h' : Rel (hist ++ [.began t c]) _ β raw := h.emit (by simp [Event.Quiet])
    exact h'.simSendAs hβ
      fun e he => hsub e (List.mem_cons_of_mem _ he)

/-! ### Starting a write -/

omit H in
theorem Rel.inert_without [H : Hashes] (h : Rel hist s β raw) (hi : Inert (s.tasks.lookup t)) :
    Rel hist (s.without t) β raw := by
  have hs : SameLog s (s.without t) := ⟨⟨rfl, rfl, rfl, rfl, fun _ => rfl⟩, rfl, rfl⟩
  have := h.inert hs hi
    (by rw [VLog.lookup_without_self]; exact trivial) fun i hi => VLog.lookup_without_ne hi
  rwa [show (s.without t).clock = β.clock from h.clock.symm] at this

/-- A task that is none is not under way in the log. -/
theorem Rel.starts (h : Rel hist (s.without t) β raw) (hruns : Runs s₀ a t) : Starts s₀ a t β := by
  have htask := h.task t
  rw [VLog.lookup_without_self] at htask
  exact ⟨hruns, htask.1, htask.2⟩

omit H in
/-- Parts of the store the relation does not look at may change. -/
theorem Rel.finish [H : Hashes] {s' : VLog} (h : Rel hist (s.without t) β raw) (hs : SameLog s s')
    (hclock : s'.clock = s.clock) (htasks : s'.tasks = s.tasks.erase t) : Rel hist s' β raw :=
  h.congr ⟨⟨hs.active, hs.segs, hs.dir, hs.rotateLock, hs.readable⟩, hs.index, hs.acks⟩ hclock
    fun i => by rw [htasks]; rfl

omit H in
theorem queued_not_write {α : LogState} {n i : Nat} {rs : List (Rec Bytes Bytes)} :
    Readies α ({ α with clock := n }.setPend i (some (.queuedWrite rs))) := by
  refine ⟨⟨rfl, rfl, rfl, rfl, rfl⟩, fun _ => .inl, fun j T ls hj => ?_⟩
  by_cases hji : j = i
  · subst hji
    simp at hj
  · simpa [hji] using hj

/-- A write draws its timestamps, from the clock on, and starts appending. -/
theorem Rel.simBegin (h : Rel hist (s.without t) α raw) {d : Durability} {c : Cont} {n : Nat}
    (hruns : Runs s₀ a t) (hn : s.clock ≤ n) (hq : queuedOf c = .queuedWrite c.recs)
    (hb : IsBlock c.records) (hts : ∀ r ∈ c.recs, s.clock ≤ r.ts ∧ r.ts < n)
    (hinc : c.recs.Pairwise fun r r' => r.ts < r'.ts)
    (hsub : ∀ e ∈ ({ s with clock := n }.startAppend t d c).2, e ∈ ev) :
    Sim s₀ α a ev hist α ({ s with clock := n }.startAppend t d c) := by
  have hcl : α.clock = s.clock := h.clock
  have hstarts := h.starts hruns
  refine Sim.step (Step.begin t c.recs n hstarts.pend (hcl ▸ hn) (hcl ▸ hts) hinc) ⟨hstarts, rfl⟩ ?_
  refine Rel.simStartAppend (?_ : Rel hist _ _ raw) queued_not_write hsub
  refine (h.begin (d := d) (n := n) (by rw [VLog.lookup_without_self]; trivial) hq hb).congr
    ⟨⟨rfl, rfl, rfl, rfl, fun _ => rfl⟩, rfl, rfl⟩ rfl fun i => ?_
  by_cases hi : i = t
  · subst hi
    simp [VLog.setTask]
  · simp [VLog.setTask, VLog.without, hi]

/-- The records of an append fit into `n` bytes. -/
def Event.Fits (n : Nat) : Event → Prop
  | .began _ c => ∀ r ∈ c.records, r.size ≤ n
  | _ => True

instance (n : Nat) : DecidablePred (Event.Fits n)
  | .began _ c => inferInstanceAs (Decidable (∀ r ∈ c.records, r.size ≤ n))
  | .spawned .. | .sent .. | .applied .. | .scanned .. | .unlinked _ | .cut _ | .filled ..
  | .returned .. => isTrue trivial

/-- The records of a store fit its segments, and offsets into a segment fit 32 bits. -/
structure Fits (s : VLog) (ev : List Event) : Prop where
  seg : s.maxSegSize ≤ 2 ^ 32
  began : ∀ e ∈ ev, e.Fits s.maxSegSize

omit H in
theorem Fits.wf {s : VLog} (h : Fits s ev) {c : Cont} (hc : .began t c ∈ ev) {r : Record}
    (hr : r ∈ c.records) (hts : r.ts < 2 ^ 64) : r.Wf := by
  have h1 := h.began _ hc r hr
  have h2 := h.seg
  have h3 := le_paddedRecordSize r.key.length r.value.length
  unfold headerSize at h3
  unfold Record.size at h1
  exact ⟨hts, by omega, by omega⟩

theorem VLog.mem_startAppend (s : VLog) (t : Nat) (d : Durability) (c : Cont) :
    .began t c ∈ (s.startAppend t d c).2 := by
  unfold VLog.startAppend
  split <;> simp

theorem VLog.clock_startAppend (s : VLog) (t : Nat) (d : Durability) (c : Cont) :
    (s.startAppend t d c).1.clock = s.clock := by
  unfold VLog.startAppend
  split <;> rfl

theorem Rel.simBeginSet (h : Rel hist (s.without t) α raw) (hruns : Runs s₀ a t) {key value : Bytes}
    {d : Durability} {tenant : Nat} {diskLimit : Option Nat} {isAppend : Bool}
    (hfit : Fits s ev) (hsub : ∀ e ∈ (s.beginSet t key value d tenant diskLimit isAppend).2, e ∈ ev)
    (hclock : (s.beginSet t key value d tenant diskLimit isAppend).1.clock ≤ 2 ^ 64) :
    Sim s₀ α a ev hist α (s.beginSet t key value d tenant diskLimit isAppend) := by
  unfold VLog.beginSet at hsub hclock ⊢
  dsimp only at hsub hclock ⊢
  split at hsub
  · rename_i hlim
    rw [if_pos hlim]
    refine Sim.stay (h.finish ⟨⟨rfl, rfl, rfl, rfl, fun _ => rfl⟩, rfl, rfl⟩ rfl rfl) ?_
    simp [VLog.respond, VLog.finish, Event.Quiet]
  · rename_i hlim
    rw [if_neg hlim] at hclock ⊢
    rw [VLog.clock_startAppend] at hclock
    refine h.simBegin hruns (Nat.le_succ _) rfl ⟨fun r hr => ?_, .inl ⟨_, rfl, by simp⟩⟩ ?_ ?_ hsub
    · refine hfit.wf (hsub _ (VLog.mem_startAppend ..)) hr ?_
      rw [List.mem_singleton.mp hr]
      exact hclock
    · simp [Cont.recs, Cont.records, absRec]
    · simp [Cont.recs, Cont.records]

theorem Rel.simBeginDel (h : Rel hist (s.without t) α raw) (hruns : Runs s₀ a t) {key : Bytes}
    {d : Durability} (hfit : Fits s ev) (hsub : ∀ e ∈ (s.beginDel t key d).2, e ∈ ev)
    (hclock : (s.beginDel t key d).1.clock ≤ 2 ^ 64) :
    Sim s₀ α a ev hist α (s.beginDel t key d) := by
  unfold VLog.beginDel at hsub hclock ⊢
  split at hsub
  · exact Sim.stay h (by simp [VLog.finish, Event.Quiet])
  · rename_i prev hsome
    simp only [hsome] at hclock ⊢
    rw [VLog.clock_startAppend] at hclock
    refine h.simBegin hruns (Nat.le_succ _) rfl ⟨fun r hr => ?_, .inl ⟨_, rfl, by simp⟩⟩ ?_ ?_ hsub
    · refine hfit.wf (hsub _ (VLog.mem_startAppend ..)) hr ?_
      rw [List.mem_singleton.mp hr]
      exact hclock
    · simp [Cont.recs, Cont.records, absRec]
    · simp [Cont.recs, Cont.records]

omit H in
theorem ts_batchMembers {ts : Nat} {pairs : List (Bytes × Bytes)} :
    (∀ r ∈ batchMembers ts pairs, ts ≤ r.ts ∧ r.ts < ts + pairs.length) ∧
      (batchMembers ts pairs).Pairwise fun r r' => r.ts < r'.ts := by
  induction pairs generalizing ts with
  | nil => simp [batchMembers]
  | cons p pairs ih =>
    obtain ⟨h1, h2⟩ := @ih (ts + 1)
    constructor
    · intro r hr
      rcases List.mem_cons.mp hr with rfl | hr
      · simp
      · have := h1 r hr
        simp only [List.length_cons]
        omega
    · exact List.pairwise_cons.mpr ⟨fun r hr => (h1 r hr).1, h2⟩

omit H in
theorem recs_setMany (pairs : List (Bytes × Bytes)) (ts : Nat) :
    (Cont.setMany pairs ts).recs = (batchMembers (ts + 1) pairs).map absRec := by
  have : (batchMembers (ts + 1) pairs).filter (fun r => r.kind ≠ .batchBegin) =
      batchMembers (ts + 1) pairs := by
    refine List.filter_eq_self.mpr fun r hr => ?_
    simp [batchMembers_kind hr]
  simp only [Cont.recs, Cont.records, batchRecords]
  rw [List.filter_cons_of_neg (by simp), this]

theorem Rel.simBeginSetMany (h : Rel hist (s.without t) α raw) (hruns : Runs s₀ a t)
    {pairs : List (Bytes × Bytes)} {d : Durability} (hfit : Fits s ev)
    (hsub : ∀ e ∈ (s.beginSetMany t pairs d).2, e ∈ ev)
    (hclock : (s.beginSetMany t pairs d).1.clock ≤ 2 ^ 64) :
    Sim s₀ α a ev hist α (s.beginSetMany t pairs d) := by
  have hdone : ∀ r : Res, Sim s₀ α a ev hist α (s.finish t r) := fun r =>
    Sim.stay h (by simp [VLog.finish, Event.Quiet])
  unfold VLog.beginSetMany at hsub hclock ⊢
  dsimp only at hsub hclock ⊢
  by_cases hempty : pairs.isEmpty = true
  · rw [if_pos hempty]
    exact hdone _
  rw [if_neg hempty] at hsub hclock ⊢
  by_cases hlen : pairs.length ≥ 2 ^ 32
  · rw [if_pos hlen]
    exact hdone _
  rw [if_neg hlen] at hsub hclock ⊢
  set fit := ((VLog.memberOffsets (paddedRecordSize 0 4) pairs).takeWhile (· < 2 ^ 32)).length
  -- an early error still uses up timestamps
  have htick : ∀ r : Res, Sim s₀ α a ev hist α ({ s with clock := s.clock + 1 + fit }.finish t r) := by
    intro r
    have hcl : α.clock = s.clock := h.clock
    have hs : SameLog (s.without t) ({ s with clock := s.clock + 1 + fit }.finish t r).1 :=
      ⟨⟨rfl, rfl, rfl, rfl, fun _ => rfl⟩, rfl, rfl⟩
    refine Sim.one (.tick (s.clock + 1 + fit) (by omega)) trivial
      (h.inert hs (t := t) ?_ ?_ fun i _ => rfl) ?_
    · rw [VLog.lookup_without_self]
      trivial
    · simp [VLog.finish, Inert]
    · simp [VLog.finish, Event.Quiet]
  by_cases hfitlen : fit < pairs.length
  · rw [if_pos hfitlen]
    exact htick _
  rw [if_neg hfitlen] at hsub hclock ⊢
  by_cases hseg : (encodeAll (batchRecords s.clock pairs)).length > s.maxSegSize
  · rw [if_pos hseg]
    exact htick _
  rw [if_neg hseg] at hsub hclock ⊢
  rw [VLog.clock_startAppend] at hclock
  obtain ⟨hts, hinc⟩ := @ts_batchMembers (s.clock + 1) pairs
  have hrts : ∀ r ∈ batchRecords s.clock pairs, r.ts < s.clock + 1 + fit := by
    intro r hr
    rcases List.mem_cons.mp hr with rfl | hr
    · simp only
      omega
    · have := (hts r hr).2
      omega
  refine h.simBegin hruns (by omega) rfl ⟨fun r hr => ?_, .inr ⟨s.clock, pairs, rfl, ?_, by omega⟩⟩
    ?_ ?_ hsub
  · exact hfit.wf (hsub _ (VLog.mem_startAppend ..)) hr (Nat.lt_of_lt_of_le (hrts r hr) hclock)
  · simpa using hempty
  · intro r hr
    rw [recs_setMany] at hr
    obtain ⟨r', hr', rfl⟩ := List.mem_map.mp hr
    have := hts r' hr'
    simp only [absRec]
    omega
  · rw [recs_setMany, List.pairwise_map]
    exact hinc

/-! ### Reading -/

/-- A task that was none moves on to something inert. -/
theorem Rel.setInert {s' : VLog} {pc : Pc} (h : Rel hist (s.without t) β raw) (hs : SameLog s s')
    (hclock : s'.clock = s.clock) (htasks : s'.tasks = s.tasks.insert t pc) (hpc : Inert (some pc)) :
    Rel hist s' β raw := by
  have hs' : SameLog (s.without t) s' :=
    ⟨⟨hs.active, hs.segs, hs.dir, hs.rotateLock, hs.readable⟩, hs.index, hs.acks⟩
  have := h.inert hs' (t := t)
    (by rw [VLog.lookup_without_self]; trivial) (by rw [htasks, AList.lookup_insert]; exact hpc)
    fun i hi => by rw [htasks, AList.lookup_insert_ne hi, VLog.lookup_without_ne hi]
  rwa [show s'.clock = β.clock from hclock.trans h.clock.symm] at this

theorem Rel.simGotValue (h : Rel hist (s.without t) α raw) (hruns : Runs s₀ a t) {key : Bytes}
    {tenant : Nat} {req : Option AppendReq} {v : Option Bytes} (hfit : Fits s ev)
    (hsub : ∀ e ∈ (s.gotValue t key tenant req v).2, e ∈ ev)
    (hclock : (s.gotValue t key tenant req v).1.clock ≤ 2 ^ 64) :
    Sim s₀ α a ev hist α (s.gotValue t key tenant req v) := by
  cases req with
  | none => exact Sim.stay h (by simp [VLog.gotValue, VLog.finish, Event.Quiet])
  | some req => exact h.simBeginSet hruns hfit hsub hclock

theorem Rel.simBeginGet (h : Rel hist (s.without t) α raw) (hruns : Runs s₀ a t) {key : Bytes}
    {tenant : Nat} {req : Option AppendReq} (hfit : Fits s ev)
    (hsub : ∀ e ∈ (s.beginGet t key tenant req).2, e ∈ ev)
    (hclock : (s.beginGet t key tenant req).1.clock ≤ 2 ^ 64) :
    Sim s₀ α a ev hist α (s.beginGet t key tenant req) := by
  have hcache : Rel hist (({ s with cache := (s.cache.get key).2 } : VLog).without t) α raw :=
    h.congr ⟨⟨rfl, rfl, rfl, rfl, fun _ => rfl⟩, rfl, rfl⟩ rfl fun _ => rfl
  have hfit' : Fits { s with cache := (s.cache.get key).2 } ev := ⟨hfit.seg, hfit.began⟩
  unfold VLog.beginGet at hsub hclock ⊢
  dsimp only at hsub hclock ⊢
  cases hv : (s.cache.get key).1 with
  | some v =>
    rw [hv] at hsub hclock
    exact hcache.simGotValue hruns hfit' hsub hclock
  | none =>
    rw [hv] at hsub hclock
    cases hidx : s.index.lookup key with
    | none =>
      simp only [hidx] at hsub hclock ⊢
      exact hcache.simGotValue hruns hfit' hsub hclock
    | some entry =>
      dsimp only
      split
      · exact Sim.stay (hcache.setInert ⟨⟨rfl, rfl, rfl, rfl, fun _ => rfl⟩, rfl, rfl⟩ rfl rfl trivial)
          (by simp)
      · exact Sim.stay (hcache.finish ⟨⟨rfl, rfl, rfl, rfl, fun _ => rfl⟩, rfl, rfl⟩ rfl rfl)
          (by simp [VLog.respond, VLog.finish, Event.Quiet])

theorem Rel.simEndGet (h : Rel hist (s.without t) α raw) (hruns : Runs s₀ a t) {key : Bytes}
    {tenant : Nat} {entry : IndexEntry} {req : Option AppendReq} {r : VLog × List Event}
    (hr : s.endGet t key tenant entry req = some r) (hfit : Fits s ev)
    (hsub : ∀ e ∈ r.2, e ∈ ev) (hclock : r.1.clock ≤ 2 ^ 64) : Sim s₀ α a ev hist α r := by
  unfold VLog.endGet at hr
  split at hr
  · cases hr
    exact Sim.stay (h.finish ⟨⟨rfl, rfl, rfl, rfl, fun _ => rfl⟩, rfl, rfl⟩ rfl rfl)
      (by simp [VLog.respond, VLog.finish, Event.Quiet])
  · split at hr
    · cases hr
    · rename_i rec _ _ cache _
      cases hr
      have hcache : Rel hist (({ s with cache := cache } : VLog).without t) α raw :=
        h.congr ⟨⟨rfl, rfl, rfl, rfl, fun _ => rfl⟩, rfl, rfl⟩ rfl fun _ => rfl
      have hfilled : Rel (hist ++ [.filled key rec.value]) _ α raw :=
        hcache.emit (by simp [Event.Quiet])
      exact Sim.cons (hfilled.simGotValue hruns ⟨hfit.seg, hfit.began⟩
        (fun e he => hsub e (List.mem_cons_of_mem _ he)) hclock)

/-! ### Compaction -/

section

variable [LawfulHashes]

theorem Rel.simRunTargets (h : Rel hist (s.without t) β raw) (hruns : Runs s₀ a t)
    (hβ : Rests t ev α β) {targets : List (Nat × Nat)} {freed : Nat}
    (hsub : ∀ e ∈ (s.runTargets t targets freed).2, e ∈ ev) :
    Sim s₀ α a ev hist β (s.runTargets t targets freed) := by
  induction targets generalizing freed with
  | nil => exact Sim.stay h (by simp [VLog.runTargets, VLog.finish, Event.Quiet])
  | cons p targets ih =>
    obtain ⟨S, dead⟩ := p
    unfold VLog.runTargets at hsub ⊢
    by_cases hskip : s.compactSkips S
    · rw [if_pos hskip] at hsub ⊢
      exact ih hsub
    · rw [if_neg hskip] at hsub ⊢
      obtain ⟨todo, hstep, hrel⟩ := h.scan (.reclaim targets freed dead) hskip
      exact Sim.one hstep ⟨h.starts hruns, hsub _ (by simp [VLog.startCompaction]), hβ⟩ hrel
        (by simp [VLog.startCompaction, Event.Quiet])

theorem Rel.simCompactDone (h : Rel hist (s.without t) β raw) (hruns : Runs s₀ a t)
    (hβ : Rests t ev α β) {id moved : Nat} {caller : Caller}
    (hsub : ∀ e ∈ (s.compactDone t id moved caller).2, e ∈ ev) :
    Sim s₀ α a ev hist β (s.compactDone t id moved caller) := by
  cases caller with
  | reclaim rest freed dead => exact h.simRunTargets hruns hβ hsub
  | direct => exact Sim.stay h (by simp [VLog.compactDone, VLog.finish, Event.Quiet])
  | maybeCompact =>
    exact Sim.stay h (by simp [VLog.compactDone, VLog.finish, Event.Quiet])

theorem Rel.simCompactSegment (h : Rel hist (s.without t) α raw) (hruns : Runs s₀ a t)
    {id : Nat} {caller : Caller} (hsub : ∀ e ∈ (s.compactSegment t id caller).2, e ∈ ev) :
    Sim s₀ α a ev hist α (s.compactSegment t id caller) := by
  unfold VLog.compactSegment at hsub ⊢
  by_cases hskip : s.compactSkips id
  · rw [if_pos hskip] at hsub ⊢
    exact h.simCompactDone hruns .rfl hsub
  · rw [if_neg hskip] at hsub ⊢
    obtain ⟨todo, hstep, hrel⟩ := h.scan caller hskip
    exact Sim.one hstep ⟨h.starts hruns, hsub _ (by simp [VLog.startCompaction]), .rfl⟩ hrel
      (by simp [VLog.startCompaction, Event.Quiet])

theorem Rel.simUnlinkSource (h : Rel hist s α raw) (hw : Wf α) (hruns : Runs s₀ a t)
    {seg moved : Nat} {caller : Caller} (hl : s.tasks.lookup t = some (.syncing seg [] moved caller))
    (hsub : ∀ e ∈ (s.unlinkSource t seg moved caller).2, e ∈ ev) :
    Sim s₀ α a ev hist α (s.unlinkSource t seg moved caller) := by
  obtain ⟨β, hstep, hβ, hrel⟩ := h.unlink hw hl
  have hin : .unlinked seg ∈ ev := hsub _ (by simp [VLog.unlinkSource])
  have hgone : Rel (hist ++ [.unlinked seg]) _ β raw := hrel.emit (by simp [Event.Quiet])
  refine Sim.step hstep hin (Sim.cons (hgone.simCompactDone hruns ?_ ?_))
  rotate_left
  · exact fun e he => hsub e (List.mem_cons_of_mem _ he)
  exact ⟨⟨hβ.sent, hβ.synced, hβ.index, hβ.last, hβ.durable⟩, hβ.pend, hβ.comp,
    fun T hT hnot => hβ.linked T (by rintro rfl; exact hnot hin) hT⟩

/-! ### Rotation -/

omit [LawfulHashes] in
theorem Rel.simFailJob (h : Rel hist s α raw) {job : Job} {e : Error}
    (hl : s.tasks.lookup t = some (.lockWait job)) :
    Sim s₀ α a ev hist α (s.failJob t e job) := by
  cases job with
  | sealActive =>
    exact Sim.stay (h.inert_without (by rw [hl]; trivial))
      (by simp [VLog.failJob, VLog.finish, Event.Quiet])
  | append d c =>
    have hcancel : queuedOf c = .queuedWrite c.recs →
        ∀ r : VLog × List Event, SameLog s r.1 → r.1.clock = s.clock → r.1.tasks = s.tasks.erase t →
        (∀ e ∈ r.2, e.Quiet) → Sim s₀ α a ev hist α r := by
      intro hq r hs hclock htasks hevs
      obtain ⟨hstep, hrel⟩ := h.cancel hl hq hs hclock (by rw [htasks, AList.lookup_erase]; trivial)
        fun i hi => by rw [htasks, AList.lookup_erase_ne hi]
      exact Sim.one hstep trivial hrel hevs
    cases c with
    | relocate parent seg offset rec =>
      obtain ⟨α', hstep, hrel⟩ := h.failQueued (e := e) hl
      exact Sim.one hstep trivial hrel (by simp [VLog.failJob, VLog.failCont])
    | set =>
      exact hcancel rfl (s.respond t _ (.error e)) ⟨⟨rfl, rfl, rfl, rfl, fun _ => rfl⟩, rfl, rfl⟩
        rfl rfl (by simp [VLog.respond, VLog.finish, Event.Quiet])
    | del =>
      exact hcancel rfl (s.finish t (.error e)) ⟨⟨rfl, rfl, rfl, rfl, fun _ => rfl⟩, rfl, rfl⟩
        rfl rfl (by simp [VLog.finish, Event.Quiet])
    | setMany =>
      exact hcancel rfl (s.finish t (.error e)) ⟨⟨rfl, rfl, rfl, rfl, fun _ => rfl⟩, rfl, rfl⟩
        rfl rfl (by simp [VLog.finish, Event.Quiet])

theorem Rel.simRunJob {job : Job} (h : Rel hist (s.setTask t (.lockWait job)) β raw)
    (hruns : Runs s₀ a t) (hready : Readies α β) (hrest : Rests t ev α β)
    (hsub : ∀ e ∈ (s.runJob t job).2, e ∈ ev) : Sim s₀ α a ev hist β (s.runJob t job) := by
  cases job with
  | append d c => exact h.simSendAs hready hsub
  | sealActive =>
    refine Rel.simRunTargets (?_ : Rel hist _ _ raw) hruns hrest hsub
    refine (h.inert_without (t := t) (by rw [lookup_setTask_self]; trivial)).congr
      ⟨⟨rfl, rfl, rfl, rfl, fun _ => rfl⟩, rfl, rfl⟩ rfl fun i => ?_
    by_cases hi : i = t
    · subst hi
      simp
    · simp [VLog.without, VLog.setTask, hi]

theorem Rel.simRotate (h : Rel hist s α raw) (hw : Wf α) (hruns : Runs s₀ a t) {job : Job}
    (hl : s.tasks.lookup t = some (.lockWait job)) (hfree : s.rotateLock = none)
    (hsub : ∀ e ∈ (s.rotate t job).2, e ∈ ev) : Sim s₀ α a ev hist α (s.rotate t job) := by
  unfold VLog.rotate at hsub ⊢
  by_cases hneed : s.needsRotation (VLog.Job.incoming s job)
  · rw [if_neg (by simpa using hneed)] at hsub ⊢
    dsimp only at hsub ⊢
    split
    · exact h.simFailJob hl
    · split
      · exact h.simFailJob hl
      · rename_i hnew
        exact Sim.stay (h.startSegment hw hl hfree hnew) (by simp)
  · rw [if_pos hneed] at hsub ⊢
    refine Rel.simRunJob (?_ : Rel hist _ _ raw) hruns .rfl .rfl hsub
    refine h.congr ⟨⟨rfl, rfl, rfl, rfl, fun _ => rfl⟩, rfl, rfl⟩ rfl fun i => ?_
    by_cases hi : i = t
    · subst hi
      rw [lookup_setTask_self, hl]
    · exact AList.lookup_insert_ne hi

theorem Rel.simActivate (h : Rel hist s α raw) (hruns : Runs s₀ a t) {id : Nat} {job : Job}
    (hl : s.tasks.lookup t = some (.starting id job))
    (hsub : ∀ e ∈ ((s.activate id).runJob t job).2, e ∈ ev) :
    Sim s₀ α a ev hist α ((s.activate id).runJob t job) := by
  refine Sim.step .rotate trivial ((h.activate hl).simRunJob hruns ?_ ?_ hsub)
  · refine ⟨⟨rfl, rfl, rfl, rfl, rfl⟩, fun T hT => ?_, fun _ _ _ hi => hi⟩
    by_cases hne : T = α.active + 1
    · exact .inr (hne ▸ Nat.lt_succ_self _)
    · simp only [Function.update_of_ne hne] at hT
      exact .inl hT
  · refine ⟨⟨rfl, rfl, rfl, rfl, rfl⟩, rfl, fun _ _ => rfl, fun T hT _ => ?_⟩
    by_cases hne : T = α.active + 1
    · simp [hne]
    · simpa [hne] using hT

/-! ### Steps of the store -/

omit [LawfulHashes] in
/-- The answer of a committer whose flushes succeed is no error. -/
theorem Rel.ack_ok (h : Rel hist s α raw) {S : Nat} {d : Durability} {c : Cont} {e : Error}
    (hl : s.tasks.lookup t = some (.commit S d c)) : s.acks t ≠ some (.error e) := by
  intro hack
  have htask := h.task t
  rw [hl] at htask
  obtain ⟨⟨o, _, hplaced⟩, _⟩ := htask
  rcases hplaced with ⟨hnone, _⟩ | ⟨⟨n, hok⟩, _⟩
  · rw [hack] at hnone
    cases hnone
  · rw [hack] at hok
    cases hok

omit [LawfulHashes] in
theorem Rel.simApply (h : Rel hist s α raw) (hw : Wf α) {S o n : Nat} {d : Durability} {c : Cont}
    (hl : s.tasks.lookup t = some (.commit S d c)) (hack : s.acks t = some (.ok (o, n)))
    {r : VLog × List Event} (hr : (s.takeAck t).applyCont t S o d c = some r) :
    Sim s α (.resume t) ev hist α r := by
  have htr : c.isWrite = true → ∀ ls, ls.map Prod.snd = c.recs →
      Traced s α (.resume t) ev α (.apply t S (d ≠ .relaxed) ls) := fun hc ls hls =>
    ⟨rfl, rfl, d, c, hl, hc, hls, rfl⟩
  cases c with
  | set key value tenant prev isAppend ts =>
    obtain ⟨α', hstep, hrel⟩ := h.applySet hl hack hr
    exact ⟨α', raw, .single hstep (htr rfl _ rfl), hrel⟩
  | del key prev ts =>
    cases hr
    obtain ⟨α', hstep, hrel⟩ := h.applyDel hl hack
    exact ⟨α', raw, .single hstep (htr rfl _ rfl), hrel⟩
  | setMany pairs ts =>
    simp only [VLog.applyCont] at hr
    split at hr
    · cases hr
    · rename_i r' hmem
      cases hr
      obtain ⟨α', hstep, hrel⟩ := h.applySetMany hl hack hmem
      exact ⟨α', raw, .single hstep (htr rfl _ (map_snd_dataRecs_layout ..)), hrel⟩
  | relocate parent seg offset rec =>
    cases hr
    obtain ⟨ℓ, α', hstep, hℓ, hrel⟩ := h.applyRelocate hw hl hack
    refine Sim.one hstep ?_ hrel (by simp)
    rcases hℓ with rfl | rfl <;> trivial

theorem Rel.simResume (h : Rel hist s α raw) (hw : Wf α) {pc : Pc} (hl : s.tasks.lookup t = some pc)
    {r : VLog × List Event} (hr : s.resume t pc = some r) (hfit : Fits s r.2)
    (hclock : r.1.clock ≤ 2 ^ 64) : Sim s α (.resume t) r.2 hist α r := by
  have hruns : (∀ q, pc ≠ .relocating q) → Runs s (.resume t) t := by
    intro hpc
    refine .inr ⟨rfl, by simp [hl], fun q hq => hpc q ?_⟩
    rw [hl] at hq
    exact Option.some.inj hq
  cases pc with
  | appendLock key tenant req =>
    simp only [VLog.resume] at hr
    split at hr
    · cases hr
    · cases hr
      refine Rel.simBeginGet (?_ : Rel hist _ _ raw) (hruns (by simp)) ⟨hfit.seg, hfit.began⟩ (fun _ he => he)
        hclock
      exact (h.inert_without (t := t) (by rw [hl]; trivial)).congr
        ⟨⟨rfl, rfl, rfl, rfl, fun _ => rfl⟩, rfl, rfl⟩ rfl fun _ => rfl
  | pread key tenant entry req =>
    exact (h.inert_without (t := t) (by rw [hl]; trivial)).simEndGet (hruns (by simp)) hr hfit
      (fun _ he => he) hclock
  | lockWait job =>
    simp only [VLog.resume] at hr
    split at hr
    · cases hr
    · rename_i hlock
      cases hr
      exact h.simRotate hw (hruns (by simp)) hl (by simpa using hlock) fun _ he => he
  | starting id job =>
    cases hr
    exact h.simActivate (hruns (by simp)) hl fun _ he => he
  | commit S d c =>
    simp only [VLog.resume] at hr
    split at hr
    · cases hr
    · rename_i e hack
      exact absurd hack (h.ack_ok hl)
    · rename_i o n hack
      exact h.simApply hw hl hack hr
  | relocating q =>
    simp only [VLog.resume] at hr
    split at hr
    · rename_i hdone
      simp only [Bool.and_eq_true, List.isEmpty_iff] at hdone
      split at hr
      · rename_i e he
        cases hr
        obtain ⟨hstep, hrel⟩ := h.abandon hl hdone.2 he
        exact Sim.one hstep trivial hrel (by simp [VLog.finish, Event.Quiet])
      · rename_i he
        cases hr
        exact Sim.stay (h.startSync hl hdone.1 hdone.2 he) (by simp)
    · cases hr
  | syncing seg dests moved caller =>
    cases dests with
    | nil =>
      cases hr
      exact h.simUnlinkSource hw (hruns (by simp)) hl fun _ he => he
    | cons d dests =>
      cases hr
      obtain ⟨α', hstep, hrel⟩ := h.syncDest hl
      exact Sim.one hstep trivial hrel (by simp)
  | snapshotting sn =>
    cases hr
    exact Sim.stay ((h.inert_without (t := t) (by rw [hl]; trivial)).finish
      ⟨⟨rfl, rfl, rfl, rfl, fun _ => rfl⟩, rfl, rfl⟩ rfl rfl) (by simp [VLog.finish, Event.Quiet])

theorem Rel.simSpawn (h : Rel hist s α raw) {op : Op} (hnew : s.tasks.lookup t = none)
    (hfit : Fits s (.spawned t op :: (s.spawn t op).2)) (hclock : (s.spawn t op).1.clock ≤ 2 ^ 64) :
    Sim s α (.spawn t op) (.spawned t op :: (s.spawn t op).2) hist α
      ((s.spawn t op).1, .spawned t op :: (s.spawn t op).2) := by
  have hruns : Runs s (.spawn t op) t := .inl ⟨op, rfl⟩
  have hsub : ∀ e ∈ (s.spawn t op).2, e ∈ Event.spawned t op :: (s.spawn t op).2 :=
    fun e he => List.mem_cons_of_mem _ he
  have h' : Rel (hist ++ [.spawned t op]) (s.without t) α raw :=
    (h.inert_without (by rw [hnew]; trivial)).emit (by simp [Event.Quiet])
  refine Sim.cons ?_
  cases op with
  | get key tenant => exact h'.simBeginGet hruns hfit hsub hclock
  | set key value d tenant diskLimit => exact h'.simBeginSet hruns hfit hsub hclock
  | append key value d tenant diskLimit =>
    exact Sim.stay (h'.setInert ⟨⟨rfl, rfl, rfl, rfl, fun _ => rfl⟩, rfl, rfl⟩ rfl rfl trivial)
      (by simp [VLog.spawn])
  | setMany pairs d => exact h'.simBeginSetMany hruns hfit hsub hclock
  | del key d => exact h'.simBeginDel hruns hfit hsub hclock
  | compactSegment id => exact h'.simCompactSegment hruns hsub
  | maybeCompact =>
    simp only [VLog.spawn] at hsub ⊢
    split
    · rename_i id hid
      simp only [hid] at hsub
      exact h'.simCompactSegment hruns hsub
    · exact Sim.stay h' (by simp [VLog.finish, Event.Quiet])
  | reclaimAllDead =>
    simp only [VLog.spawn] at hsub ⊢
    split
    · exact Sim.stay (h'.setInert ⟨⟨rfl, rfl, rfl, rfl, fun _ => rfl⟩, rfl, rfl⟩ rfl rfl trivial)
        (by simp)
    · rename_i hroom
      rw [if_neg hroom] at hsub
      exact h'.simRunTargets hruns .rfl hsub
  | writeSnapshot =>
    exact Sim.stay (h'.setInert ⟨⟨rfl, rfl, rfl, rfl, fun _ => rfl⟩, rfl, rfl⟩ rfl rfl trivial)
      (by simp [VLog.spawn, Event.Quiet])

omit [LawfulHashes] in
theorem Rel.simRelocate (h : Rel hist s α raw) (hw : Wf α) {child : Nat} {q : Relocation}
    (hl : s.tasks.lookup t = some (.relocating q)) (hchild : s.tasks.lookup child = none)
    {r : VLog × List Event} (hr : s.relocateNext t child q = some r) :
    Sim s α (.relocate t child) r.2 hist α r := by
  unfold VLog.relocateNext at hr
  split at hr
  · cases hr
  · rename_i o rec todo htodo
    by_cases hcur : s.isCurrent q.seg o rec = true
    · rw [if_pos hcur] at hr
      cases hr
      obtain ⟨β, hstep, hrel⟩ := h.takeUp hw hl hchild htodo hcur
      have hready : Readies α β := by
        cases hstep
        refine ⟨⟨rfl, rfl, rfl, rfl, rfl⟩, fun _ => .inl, fun i T ls hi => ?_⟩
        by_cases hic : i = child
        · subst hic
          simp at hi
        · simpa [hic] using hi
      exact Sim.step hstep trivial (hrel.simStartAppend hready fun _ he => he)
    · rw [if_neg hcur] at hr
      cases hr
      obtain ⟨β, hβ, hrel⟩ := h.passOver hl htodo hcur
      rcases hβ with hstep | rfl
      · exact Sim.one hstep trivial hrel (by simp)
      · exact Sim.stay hrel (by simp)

/-- The flushes among the actions succeed. -/
def FlushOk : VLog.Act → Prop
  | .flush _ _ io => io = .ok
  | _ => True

instance : DecidablePred FlushOk
  | .flush _ _ io => inferInstanceAs (Decidable (io = .ok))
  | .spawn .. | .resume _ | .relocate .. => isTrue trivial

/-- A step of the store is some steps of the log. -/
theorem Rel.step (h : Rel hist s α raw) (hw : Wf α) {a : VLog.Act} {s' : VLog} {ev : List Event}
    (hstep : s.step a = some (s', ev)) (hio : FlushOk a) (hfit : Fits s ev) :
    ∃ α' raw', Path (Traced s α a ev) α α' ∧ Rel (hist ++ ev) s' α' raw' := by
  obtain ⟨hraw, hclock⟩ : s.stepRaw a = some (s', ev) ∧ s'.clock ≤ 2 ^ 64 := by
    simpa [VLog.step, Option.filter_eq_some_iff] using hstep
  cases a with
  | spawn t op =>
    simp only [VLog.stepRaw] at hraw
    split at hraw
    · cases hraw
    · rename_i hnew
      cases hraw
      exact h.simSpawn (by simpa using hnew) hfit hclock
  | resume t =>
    obtain ⟨pc, hl, hr⟩ := Option.bind_eq_some_iff.mp hraw
    exact h.simResume hw hl hr hfit hclock
  | relocate t child =>
    simp only [VLog.stepRaw] at hraw
    split at hraw
    · rename_i q hl
      split at hraw
      · cases hraw
      · rename_i hfree
        rw [not_or] at hfree
        exact h.simRelocate hw hl (by simpa using hfree.1) hraw
    · cases hraw
  | flush S n io =>
    cases (show io = .ok from hio)
    obtain ⟨rfl, hs, hrel⟩ := h.flush hraw
    exact Sim.one (r := (s', [])) hs trivial hrel (by simp)

end

end Skeg
