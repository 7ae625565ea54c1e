import Mathlib.Data.List.Induction
import Mathlib.Logic.Function.Basic
import Mathlib.Data.Option.Basic
import Mathlib.Tactic.Common
import Mathlib.Tactic.Simps.Basic

/-!
# A segmented append-only log with an in-memory index

The machine of a log-structured store, over arbitrary keys `K` and values `V`: timestamped records
are appended to the active segment, a write takes effect on the index only after its append, and a
compaction moves the records it still finds current into the active segment before it unlinks the
segment it read.  Everything a store does between two appends (batching, caching, flushing) is
invisible here.

* `Step` is the transition relation, one constructor for each indivisible effect;
* `Wf` collects what holds after any steps at all (`Step.wf`): timestamps identify records, an
  index entry points at the last applied write of its key.

What additionally holds when the steps respect some discipline is in the sibling modules.
-/

namespace SegLog

variable {K V : Type*}

/-- A record of the log; `val = none` is a tombstone. -/
structure Rec (K V : Type*) where
  ts : Nat
  key : K
  val : Option V

/-- A segment and an offset in it. -/
abbrev Loc := Nat × Nat

/-- An operation between its first effect and its last. -/
inductive Pend (K V : Type*) where
  /-- A write that has drawn its timestamps and not yet appended. -/
  | queuedWrite (rs : List (Rec K V))
  /-- A write appended to `seg` at the given offsets and not yet applied to the index. -/
  | sentWrite (seg : Nat) (ls : List (Nat × Rec K V))
  /-- A relocation of the record at `src`, for compaction `c`, not yet appended. -/
  | queuedMove (c : Nat) (src : Loc) (r : Rec K V)
  /-- The same, appended at `dst`. -/
  | sentMove (c : Nat) (src : Loc) (r : Rec K V) (dst : Loc)

/-- A compaction of `seg`: the records still to look at, the segments it has moved records to and
not synced yet, and whether one of its relocations failed. -/
structure Comp (K V : Type*) where
  seg : Nat
  todo : List (Nat × Rec K V)
  dests : List Nat
  failed : Bool

structure State (K V : Type*) where
  active : Nat
  clock : Nat
  /-- The records appended to a segment so far, in append order. -/
  sent : Nat → List (Nat × Rec K V)
  /-- Bytes of a segment that survive a power loss. -/
  synced : Nat → Nat
  linked : Nat → Prop
  index : K → Option Loc
  /-- The last applied write of a key. -/
  last : K → Option (Rec K V)
  /-- The last applied write of a key that was acknowledged as durable. -/
  durable : K → Option (Rec K V)
  pend : Nat → Option (Pend K V)
  comp : Nat → Option (Comp K V)

namespace State

variable (α : State K V)

/-- One record of a write takes effect. -/
def applyOne [DecidableEq K] (S : Nat) (d : Bool) (α : State K V) (p : Nat × Rec K V) : State K V :=
  { α with
    index := Function.update α.index p.2.key (if p.2.val.isSome then some (S, p.1) else none)
    last := Function.update α.last p.2.key (some p.2)
    durable := if d then Function.update α.durable p.2.key (some p.2) else α.durable }

def applyAll [DecidableEq K] (S : Nat) (d : Bool) (ls : List (Nat × Rec K V)) : State K V :=
  ls.foldl (applyOne S d) α

@[simps] def setPend (i : Nat) (p : Option (Pend K V)) : State K V :=
  { α with pend := Function.update α.pend i p }

@[simps] def setComp (c : Nat) (C : Option (Comp K V)) : State K V :=
  { α with comp := Function.update α.comp c C }

@[simps] def append (ls : List (Nat × Rec K V)) : State K V :=
  { α with sent := Function.update α.sent α.active (α.sent α.active ++ ls) }

/-- The record at `p` of segment `S` is current: the index points at it, or it is a tombstone of an
absent key. -/
def Carries (S : Nat) (p : Nat × Rec K V) : Prop :=
  if p.2.val.isSome then α.index p.2.key = some (S, p.1) else α.index p.2.key = none

/-- Some operation has appended to `S` and not finished. -/
def InFlight (S : Nat) : Prop :=
  (∃ i ls, α.pend i = some (.sentWrite S ls)) ∨
    ∃ i c src r o, α.pend i = some (.sentMove c src r (S, o))

/-- Operation `i` is relocating the record `r` at `src` for compaction `c`. -/
def Moving (i c : Nat) (src : Loc) (r : Rec K V) : Prop :=
  α.pend i = some (.queuedMove c src r) ∨ ∃ dst, α.pend i = some (.sentMove c src r dst)

/-- Compaction `c` has no relocation under way. -/
def NoMoves (c : Nat) : Prop := ∀ i src r, ¬ α.Moving i c src r

end State

/-- The offsets of `ls` ascend and lie behind those of `old`. -/
def Extends (old ls : List (Nat × Rec K V)) : Prop :=
  (old ++ ls).Pairwise fun p q => p.1 < q.1

inductive Label (K V : Type*) where
  | tick
  | begin (i : Nat) (rs : List (Rec K V))
  | sendWrite (i : Nat) (rs : List (Rec K V))
  | sendMove (i c : Nat) (src : Loc) (r : Rec K V)
  | cancel (i : Nat)
  | rotate
  | apply (i S : Nat) (d : Bool) (ls : List (Nat × Rec K V))
  | moved (i c : Nat)
  | scan (c S : Nat)
  | pull (c i : Nat)
  | skip (c : Nat)
  | fail (i c : Nat)
  | sync (S : Nat)
  | syncDest (c : Nat)
  | unlink (c S : Nat)
  | abandon (c : Nat)

variable [DecidableEq K]

/-- The indivisible effects of the store. -/
inductive Step : State K V → Label K V → State K V → Prop where
  | tick {α : State K V} (n : Nat) (hn : α.clock ≤ n) : Step α .tick { α with clock := n }
  | begin {α : State K V} (i : Nat) (rs : List (Rec K V)) (n : Nat) (hi : α.pend i = none)
      (hn : α.clock ≤ n) (hts : ∀ r ∈ rs, α.clock ≤ r.ts ∧ r.ts < n)
      (hrs : rs.Pairwise fun r r' => r.ts < r'.ts) :
      Step α (.begin i rs) ({ α with clock := n }.setPend i (some (.queuedWrite rs)))
  | sendWrite {α : State K V} (i : Nat) (ls : List (Nat × Rec K V))
      (hi : α.pend i = some (.queuedWrite (ls.map Prod.snd)))
      (hext : Extends (α.sent α.active) ls) :
      Step α (.sendWrite i (ls.map Prod.snd))
        ((α.append ls).setPend i (some (.sentWrite α.active ls)))
  | sendMove {α : State K V} (i c : Nat) (src : Loc) (r : Rec K V) (o : Nat)
      (hi : α.pend i = some (.queuedMove c src r)) (hext : Extends (α.sent α.active) [(o, r)]) :
      Step α (.sendMove i c src r)
        ((α.append [(o, r)]).setPend i (some (.sentMove c src r (α.active, o))))
  /-- A write that could not be appended returns an error. -/
  | cancel {α : State K V} (i : Nat) (rs : List (Rec K V)) (hi : α.pend i = some (.queuedWrite rs)) :
      Step α (.cancel i) (α.setPend i none)
  | rotate {α : State K V} : Step α .rotate
      { α with active := α.active + 1, linked := Function.update α.linked (α.active + 1) True }
  | apply {α : State K V} (i S : Nat) (d : Bool) (ls : List (Nat × Rec K V))
      (hi : α.pend i = some (.sentWrite S ls)) (hd : d = true → ∀ p ∈ ls, p.1 < α.synced S) :
      Step α (.apply i S d ls) ((α.applyAll S d ls).setPend i none)
  /-- A relocation resolves; the index adopts the copy only if it still points at the source. -/
  | moved {α : State K V} (i c : Nat) (src : Loc) (r : Rec K V) (dst : Loc) (C : Comp K V)
      (hi : α.pend i = some (.sentMove c src r dst)) (hc : α.comp c = some C)
      (hdst : α.linked dst.1) :
      Step α (.moved i c)
        (({ α with
            index := if r.val.isSome ∧ α.index r.key = some src
              then Function.update α.index r.key (some dst) else α.index }.setPend i none).setComp c
          (some { C with dests := if dst.1 ∈ C.dests then C.dests else C.dests ++ [dst.1] }))
  /-- A compaction starts: it reads the records of `S` that have reached the file, which are all
  of them unless an append to `S` is in flight. -/
  | scan {α : State K V} (c S : Nat) (todo : List (Nat × Rec K V)) (hc : α.comp c = none)
      (hS : S < α.active) (hl : α.linked S) (htodo : todo <+: α.sent S)
      (hall : ¬ α.InFlight S → todo = α.sent S) :
      Step α (.scan c S) (α.setComp c (some ⟨S, todo, [], false⟩))
  | pull {α : State K V} (c i : Nat) (C : Comp K V) (p : Nat × Rec K V)
      (todo : List (Nat × Rec K V)) (hc : α.comp c = some C) (htodo : C.todo = p :: todo)
      (hi : α.pend i = none) (hp : α.Carries C.seg p) :
      Step α (.pull c i) ((α.setComp c (some { C with todo := todo })).setPend i
        (some (.queuedMove c (C.seg, p.1) p.2)))
  | skip {α : State K V} (c : Nat) (C : Comp K V) (p : Nat × Rec K V)
      (todo : List (Nat × Rec K V)) (hc : α.comp c = some C) (htodo : C.todo = p :: todo)
      (hp : ¬ α.Carries C.seg p) :
      Step α (.skip c) (α.setComp c (some { C with todo := todo }))
  /-- A relocation fails: it could not be appended, or its destination is gone. -/
  | fail {α : State K V} (i c : Nat) (src : Loc) (r : Rec K V) (C : Comp K V)
      (hi : α.Moving i c src r) (hc : α.comp c = some C) :
      Step α (.fail i c)
        ((α.setPend i none).setComp c (some { C with failed := true }))
  | sync {α : State K V} (S n : Nat) (hn : α.synced S ≤ n) :
      Step α (.sync S) { α with synced := Function.update α.synced S n }
  /-- With its relocations done, the compaction syncs one of its destinations: every
  record of it becomes durable, unless an operation still waits for one. -/
  | syncDest {α : State K V} (c S n : Nat) (C : Comp K V) (ds : List Nat) (hc : α.comp c = some C)
      (hds : C.dests = S :: ds) (hm : α.NoMoves c) (hn : α.synced S ≤ n)
      (hall : ¬ α.InFlight S → ∀ p ∈ α.sent S, p.1 < n) :
      Step α (.syncDest c) ({ α with synced := Function.update α.synced S n }.setComp c
        (some { C with dests := ds }))
  | unlink {α : State K V} (c : Nat) (C : Comp K V) (hc : α.comp c = some C) (htodo : C.todo = [])
      (hd : C.dests = []) (hf : C.failed = false) (hm : α.NoMoves c) :
      Step α (.unlink c C.seg)
        ({ α with linked := Function.update α.linked C.seg False }.setComp c none)
  | abandon {α : State K V} (c : Nat) (C : Comp K V) (hc : α.comp c = some C)
      (hf : C.failed = true) (hm : α.NoMoves c) :
      Step α (.abandon c) (α.setComp c none)

/-! ### The updates, field by field -/

namespace State

variable (α : State K V)

omit [DecidableEq K] in
theorem mem_append_sent {ls : List (Nat × Rec K V)} {S : Nat} {p : Nat × Rec K V} :
    p ∈ (α.append ls).sent S ↔ p ∈ α.sent S ∨ S = α.active ∧ p ∈ ls := by
  unfold append
  by_cases h : S = α.active
  · subst h
    simp
  · simp [h]

/-- Applying a write only touches the index and the record of applied writes. -/
theorem applyAll_frame (S : Nat) (d : Bool) (ls : List (Nat × Rec K V)) :
    ∃ i l u, α.applyAll S d ls = { α with index := i, last := l, durable := u } := by
  induction ls generalizing α with
  | nil => exact ⟨α.index, α.last, α.durable, rfl⟩
  | cons p ls ih =>
    obtain ⟨i, l, u, h⟩ := ih (applyOne S d α p)
    exact ⟨i, l, u, h⟩

@[simp] theorem applyAll_sent (S d ls) : (α.applyAll S d ls).sent = α.sent := by
  obtain ⟨i, l, u, h⟩ := α.applyAll_frame S d ls
  rw [h]
@[simp] theorem applyAll_linked (S d ls) : (α.applyAll S d ls).linked = α.linked := by
  obtain ⟨i, l, u, h⟩ := α.applyAll_frame S d ls
  rw [h]
@[simp] theorem applyAll_synced (S d ls) : (α.applyAll S d ls).synced = α.synced := by
  obtain ⟨i, l, u, h⟩ := α.applyAll_frame S d ls
  rw [h]
@[simp] theorem applyAll_active (S d ls) : (α.applyAll S d ls).active = α.active := by
  obtain ⟨i, l, u, h⟩ := α.applyAll_frame S d ls
  rw [h]
@[simp] theorem applyAll_clock (S d ls) : (α.applyAll S d ls).clock = α.clock := by
  obtain ⟨i, l, u, h⟩ := α.applyAll_frame S d ls
  rw [h]
@[simp] theorem applyAll_pend (S d ls) : (α.applyAll S d ls).pend = α.pend := by
  obtain ⟨i, l, u, h⟩ := α.applyAll_frame S d ls
  rw [h]
@[simp] theorem applyAll_comp (S d ls) : (α.applyAll S d ls).comp = α.comp := by
  obtain ⟨i, l, u, h⟩ := α.applyAll_frame S d ls
  rw [h]

/-- A key after a write: its last record in the write if there is one, else as before. -/
theorem applyAll_cases (S : Nat) (d : Bool) (ls : List (Nat × Rec K V)) (k : K) :
    ((∀ p ∈ ls, p.2.key ≠ k) ∧ (α.applyAll S d ls).index k = α.index k ∧
      (α.applyAll S d ls).last k = α.last k ∧ (α.applyAll S d ls).durable k = α.durable k) ∨
    ∃ pre p post, ls = pre ++ p :: post ∧ p.2.key = k ∧ (∀ q ∈ post, q.2.key ≠ k) ∧
      (α.applyAll S d ls).index k = (if p.2.val.isSome then some (S, p.1) else none) ∧
      (α.applyAll S d ls).last k = some p.2 ∧
      (α.applyAll S d ls).durable k = if d then some p.2 else α.durable k := by
  induction ls using List.reverseRecOn with
  | nil => exact .inl ⟨by simp, rfl, rfl, rfl⟩
  | append_singleton ls p ih =>
    have happ : α.applyAll S d (ls ++ [p]) = applyOne S d (α.applyAll S d ls) p := by
      simp [applyAll, List.foldl_append]
    by_cases hk : p.2.key = k
    · subst hk
      refine .inr ⟨ls, p, [], rfl, rfl, by simp, ?_, ?_, ?_⟩
      · simp [happ, applyOne]
      · simp [happ, applyOne]
      · cases d
        · -- without durability the durable record is that of the state before
          have : (α.applyAll S false ls).durable p.2.key = α.durable p.2.key := by
            rcases ih with ⟨_, _, _, h⟩ | ⟨_, _, _, _, _, _, _, _, h⟩
            · exact h
            · simpa using h
          simpa [happ, applyOne] using this
        · simp [happ, applyOne]
    · have hk' : k ≠ p.2.key := fun h => hk h.symm
      rcases ih with ⟨h1, h2, h3, h4⟩ | ⟨pre, q, post, hls, h1, h2, h3, h4, h5⟩
      · refine .inl ⟨?_, ?_, ?_, ?_⟩
        · intro q hq
          rcases List.mem_append.mp hq with hq | hq
          · exact h1 q hq
          · rw [List.mem_singleton.mp hq]; exact hk
        · simpa [happ, applyOne, hk'] using h2
        · simpa [happ, applyOne, hk'] using h3
        · cases d <;> simpa [happ, applyOne, hk'] using h4
      · refine .inr ⟨pre, q, post ++ [p], by simp [hls], h1, ?_, ?_, ?_, ?_⟩
        · intro q' hq'
          rcases List.mem_append.mp hq' with hq' | hq'
          · exact h2 q' hq'
          · rw [List.mem_singleton.mp hq']; exact hk
        · simpa [happ, applyOne, hk'] using h3
        · simpa [happ, applyOne, hk'] using h4
        · cases d <;> simpa [happ, applyOne, hk'] using h5

end State

/-! ### What holds after any steps -/

/-- What an operation in flight knows of the log. -/
def PendOk (α : State K V) : Pend K V → Prop
  | .queuedWrite rs => (rs.Pairwise fun r r' => r.ts < r'.ts) ∧
      ∀ r ∈ rs, r.ts < α.clock ∧ ∀ S, ∀ p ∈ α.sent S, p.2.ts ≠ r.ts
  | .sentWrite S ls => S ≤ α.active ∧ (ls.Pairwise fun p q => p.1 < q.1 ∧ p.2.ts < q.2.ts) ∧
      ∀ p ∈ ls, p ∈ α.sent S
  | .queuedMove c src r => (src.2, r) ∈ α.sent src.1 ∧ ∃ C, α.comp c = some C ∧ C.seg = src.1
  | .sentMove c src r dst => ((src.2, r) ∈ α.sent src.1 ∧ ∃ C, α.comp c = some C ∧ C.seg = src.1) ∧
      (dst.2, r) ∈ α.sent dst.1 ∧ src.1 < dst.1 ∧ dst.1 ≤ α.active

/-- Timestamps identify records, operations in flight own what they appended, and an index entry
points at the last applied write of its key. -/
structure Wf (α : State K V) : Prop where
  sorted : ∀ S, (α.sent S).Pairwise fun p q => p.1 < q.1
  beyond : ∀ S, α.active < S → α.sent S = []
  sent_clock : ∀ S, ∀ p ∈ α.sent S, p.2.ts < α.clock
  sent_inj : ∀ S, ∀ p ∈ α.sent S, ∀ S', ∀ q ∈ α.sent S', p.2.ts = q.2.ts → p.2 = q.2
  pend : ∀ i p, α.pend i = some p → PendOk α p
  queued_inj : ∀ i rs j rs', α.pend i = some (.queuedWrite rs) →
    α.pend j = some (.queuedWrite rs') → i ≠ j → ∀ r ∈ rs, ∀ r' ∈ rs', r.ts ≠ r'.ts
  comp : ∀ c C, α.comp c = some C → C.seg < α.active ∧ ∀ p ∈ C.todo, p ∈ α.sent C.seg
  index_some : ∀ k S o, α.index k = some (S, o) →
    ∃ r, α.last k = some r ∧ r.val.isSome ∧ (o, r) ∈ α.sent S
  index_none : ∀ k r, α.index k = none → α.last k = some r → r.val = none
  last_key : ∀ k r, α.last k = some r → r.key = k

namespace Wf

variable {α : State K V}

omit [DecidableEq K] in
/-- Two records at one offset of a segment are the same. -/
theorem eq_of_offset (h : Wf α) {S o : Nat} {r r' : Rec K V} (hr : (o, r) ∈ α.sent S)
    (hr' : (o, r') ∈ α.sent S) : r = r' := by
  have hfwd : (α.sent S).Pairwise fun p q => p.1 = q.1 → p.2 = q.2 :=
    (h.sorted S).imp fun hlt heq => absurd heq (Nat.ne_of_lt hlt)
  have hbwd : (α.sent S).Pairwise (flip fun p q => p.1 = q.1 → p.2 = q.2) :=
    (h.sorted S).imp fun hlt heq => absurd heq.symm (Nat.ne_of_lt hlt)
  exact hfwd.forall_of_forall_of_flip (fun _ _ _ => rfl) hbwd hr hr' rfl

omit [DecidableEq K] in
/-- The record an index entry points at is the last applied write of the key. -/
theorem last_of_index (h : Wf α) {k : K} {S o : Nat} {r : Rec K V}
    (hk : α.index k = some (S, o)) (hr : (o, r) ∈ α.sent S) : α.last k = some r := by
  obtain ⟨r', hl, _, hr'⟩ := h.index_some k S o hk
  rw [hl, h.eq_of_offset hr hr']

omit [DecidableEq K] in
theorem moving (h : Wf α) {i c : Nat} {src : Loc} {r : Rec K V} (hm : α.Moving i c src r) :
    (src.2, r) ∈ α.sent src.1 ∧ ∃ C, α.comp c = some C ∧ C.seg = src.1 := by
  rcases hm with hm | ⟨dst, hm⟩
  · exact h.pend i _ hm
  · exact (h.pend i _ hm).1

omit [DecidableEq K] in
theorem seg_of_moving (h : Wf α) {i c : Nat} {src : Loc} {r : Rec K V} {C : Comp K V}
    (hc : α.comp c = some C) (hm : α.Moving i c src r) : C.seg = src.1 := by
  obtain ⟨C', hC', hseg⟩ := (h.moving hm).2
  rw [hc] at hC'
  cases hC'
  exact hseg

omit [DecidableEq K] in
theorem moving_of_clearPend {i j c : Nat} {src : Loc} {r : Rec K V}
    (hm : (α.setPend i none).Moving j c src r) : α.Moving j c src r := by
  by_cases hji : j = i
  · simp [State.Moving, hji] at hm
  · simpa [State.Moving, hji] using hm

/-! The steps change one part of the state at a time; each part has its own lemma. -/

omit [DecidableEq K] in
theorem clearPend (h : Wf α) (i : Nat) : Wf (α.setPend i none) := by
  have hpend : ∀ {j p}, (α.setPend i none).pend j = some p → α.pend j = some p := by
    intro j p hj
    by_cases hji : j = i
    · simp [hji] at hj
    · simpa [hji] using hj
  refine { h with pend := fun j p hj => ?_, queued_inj := fun j rs j' rs' hj hj' => ?_ }
  · have := h.pend j p (hpend hj)
    cases p <;> exact this
  · exact h.queued_inj j rs j' rs' (hpend hj) (hpend hj')

omit [DecidableEq K] in
theorem setPend (h : Wf α) {i : Nat} {p : Pend K V} (hp : PendOk α p)
    (hinj : ∀ rs, p = .queuedWrite rs → ∀ j rs', j ≠ i → α.pend j = some (.queuedWrite rs') →
      ∀ r ∈ rs, ∀ r' ∈ rs', r.ts ≠ r'.ts) : Wf (α.setPend i (some p)) := by
  have hpend : ∀ {j q}, (α.setPend i (some p)).pend j = some q →
      j = i ∧ q = p ∨ j ≠ i ∧ α.pend j = some q := by
    intro j q hj
    by_cases hji : j = i
    · subst hji; exact .inl ⟨rfl, by simpa using hj.symm⟩
    · exact .inr ⟨hji, by simpa [hji] using hj⟩
  refine { h with pend := fun j q hj => ?_, queued_inj := fun j rs j' rs' hj hj' hne => ?_ }
  · rcases hpend hj with ⟨rfl, rfl⟩ | ⟨_, hj⟩
    · cases q <;> exact hp
    · have := h.pend j q hj
      cases q <;> exact this
  · rcases hpend hj with ⟨rfl, hq⟩ | ⟨hji, h1⟩
    · rcases hpend hj' with ⟨rfl, _⟩ | ⟨hji', h2⟩
      · exact absurd rfl hne
      · exact hinj rs hq.symm j' rs' hji' h2
    · rcases hpend hj' with ⟨rfl, hq⟩ | ⟨_, h2⟩
      · intro r hr r' hr' heq
        exact hinj rs' hq.symm j rs hji h1 r' hr' r hr heq.symm
      · exact h.queued_inj j rs j' rs' h1 h2 hne

omit [DecidableEq K] in
/-- Appending records that are new or known, but not those of a write still to be appended. -/
theorem append (h : Wf α) {ls : List (Nat × Rec K V)} (hext : Extends (α.sent α.active) ls)
    (hclock : ∀ p ∈ ls, p.2.ts < α.clock)
    (hold : ∀ p ∈ ls, ∀ S, ∀ q ∈ α.sent S, q.2.ts = p.2.ts → q.2 = p.2)
    (hself : ∀ p ∈ ls, ∀ q ∈ ls, p.2.ts = q.2.ts → p.2 = q.2)
    (hqueued : ∀ i rs, α.pend i = some (.queuedWrite rs) → ∀ r ∈ rs, ∀ p ∈ ls, p.2.ts ≠ r.ts) :
    Wf (α.append ls) := by
  have hmono : ∀ S, ∀ p ∈ α.sent S, p ∈ (α.append ls).sent S := fun S p hp =>
    α.mem_append_sent.mpr (.inl hp)
  constructor
  · intro S
    by_cases hS : S = α.active
    · subst hS
      simpa [Extends] using hext
    · simpa [hS] using h.sorted S
  · intro S hS
    have hne : S ≠ α.active := Nat.ne_of_gt hS
    simpa [hne] using h.beyond S hS
  · intro S p hp
    rcases α.mem_append_sent.mp hp with hp | ⟨_, hp⟩
    · exact h.sent_clock S p hp
    · exact hclock p hp
  · intro S p hp S' q hq heq
    rcases α.mem_append_sent.mp hp with hp | ⟨_, hp⟩ <;>
      rcases α.mem_append_sent.mp hq with hq | ⟨_, hq⟩
    · exact h.sent_inj S p hp S' q hq heq
    · exact hold q hq S p hp heq
    · exact (hold p hp S' q hq heq.symm).symm
    · exact hself p hp q hq heq
  · intro i p hi
    have hp := h.pend i p hi
    cases p with
    | queuedWrite rs =>
      refine ⟨hp.1, fun r hr => ⟨(hp.2 r hr).1, fun S p hpS => ?_⟩⟩
      rcases α.mem_append_sent.mp hpS with hpS | ⟨_, hpS⟩
      · exact (hp.2 r hr).2 S p hpS
      · exact hqueued i rs hi r hr p hpS
    | sentWrite S ls' => exact ⟨hp.1, hp.2.1, fun p hpl => hmono S p (hp.2.2 p hpl)⟩
    | queuedMove c src r => exact ⟨hmono _ _ hp.1, hp.2⟩
    | sentMove c src r dst => exact ⟨⟨hmono _ _ hp.1.1, hp.1.2⟩, hmono _ _ hp.2.1, hp.2.2⟩
  · exact h.queued_inj
  · intro c C hc
    exact ⟨(h.comp c C hc).1, fun p hp => hmono _ _ ((h.comp c C hc).2 p hp)⟩
  · intro k S o hk
    obtain ⟨r, h1, h2, h3⟩ := h.index_some k S o hk
    exact ⟨r, h1, h2, hmono _ _ h3⟩
  · exact h.index_none
  · exact h.last_key

omit [DecidableEq K] in
theorem setComp (h : Wf α) {c : Nat} {C : Comp K V} (hseg : C.seg < α.active)
    (htodo : ∀ p ∈ C.todo, p ∈ α.sent C.seg)
    (hmoves : ∀ i src r, α.Moving i c src r → C.seg = src.1) : Wf (α.setComp c (some C)) := by
  -- the relocations of `c` keep their compaction
  have hcomp : ∀ i c' src r, α.Moving i c' src r →
      ∃ C', (α.setComp c (some C)).comp c' = some C' ∧ C'.seg = src.1 := by
    intro i c' src r hm
    by_cases hc : c' = c
    · subst hc
      exact ⟨C, by simp, hmoves i src r hm⟩
    · simpa [hc] using (h.moving hm).2
  refine { h with pend := fun i p hi => ?_, comp := fun c' C' hc' => ?_ }
  · have hp := h.pend i p hi
    cases p with
    | queuedWrite rs => exact hp
    | sentWrite S ls => exact hp
    | queuedMove c' src r => exact ⟨hp.1, hcomp i c' src r (.inl hi)⟩
    | sentMove c' src r dst => exact ⟨⟨hp.1.1, hcomp i c' src r (.inr ⟨dst, hi⟩)⟩, hp.2⟩
  · by_cases hc : c' = c
    · subst hc
      obtain rfl : C = C' := by simpa using hc'
      exact ⟨hseg, htodo⟩
    · exact h.comp c' C' (by simpa [hc] using hc')

omit [DecidableEq K] in
theorem clearComp (h : Wf α) {c : Nat} (hm : α.NoMoves c) : Wf (α.setComp c none) := by
  have hcomp : ∀ i c' src r, α.Moving i c' src r →
      ∃ C', (α.setComp c none).comp c' = some C' ∧ C'.seg = src.1 := by
    intro i c' src r hmv
    have hc : c' ≠ c := fun hc => hm i src r (hc ▸ hmv)
    simpa [hc] using (h.moving hmv).2
  refine { h with pend := fun i p hi => ?_, comp := fun c' C' hc' => ?_ }
  · have hp := h.pend i p hi
    cases p with
    | queuedWrite rs => exact hp
    | sentWrite S ls => exact hp
    | queuedMove c' src r => exact ⟨hp.1, hcomp i c' src r (.inl hi)⟩
    | sentMove c' src r dst => exact ⟨⟨hp.1.1, hcomp i c' src r (.inr ⟨dst, hi⟩)⟩, hp.2⟩
  · have hc : c' ≠ c := by rintro rfl; simp at hc'
    exact h.comp c' C' (by simpa [hc] using hc')

theorem applyAll (h : Wf α) {S : Nat} {d : Bool} {ls : List (Nat × Rec K V)}
    (hls : ∀ p ∈ ls, p ∈ α.sent S) : Wf (α.applyAll S d ls) := by
  have hpend : ∀ p, PendOk α p → PendOk (α.applyAll S d ls) p := by
    intro p hp
    cases p <;> simpa [PendOk] using hp
  refine ⟨by simpa using h.sorted, by simpa using h.beyond, by simpa using h.sent_clock,
    by simpa using h.sent_inj, fun i p hi => hpend p (h.pend i p (by simpa using hi)),
    by simpa using h.queued_inj, by simpa using h.comp, ?_, ?_, ?_⟩
  · intro k T o hk
    rcases α.applyAll_cases S d ls k with ⟨_, h1, h2, _⟩ | ⟨pre, p, post, rfl, _, _, h1, h2, _⟩
    · simpa [h2] using h.index_some k T o (h1 ▸ hk)
    · rw [h1] at hk
      split at hk
      · rename_i hv
        cases hk
        exact ⟨p.2, h2, hv, by simpa using hls p (by simp)⟩
      · cases hk
  · intro k r hk hr
    rcases α.applyAll_cases S d ls k with ⟨_, h1, h2, _⟩ | ⟨pre, p, post, rfl, _, _, h1, h2, _⟩
    · exact h.index_none k r (h1 ▸ hk) (h2 ▸ hr)
    · rw [h2] at hr
      cases hr
      rw [h1] at hk
      split at hk
      · cases hk
      · rename_i hv
        simpa using hv
  · intro k r hr
    rcases α.applyAll_cases S d ls k with ⟨_, _, h2, _⟩ | ⟨pre, p, post, rfl, hk, _, _, h2, _⟩
    · exact h.last_key k r (h2 ▸ hr)
    · rw [h2] at hr
      cases hr
      exact hk

/-- Redirecting the index from a record to a copy of it. -/
theorem redirect (h : Wf α) {src dst : Loc} {r : Rec K V} (hsrc : (src.2, r) ∈ α.sent src.1)
    (hdst : (dst.2, r) ∈ α.sent dst.1) :
    Wf { α with index := if r.val.isSome ∧ α.index r.key = some src
        then Function.update α.index r.key (some dst) else α.index } := by
  split
  · rename_i hc
    have hlast : α.last r.key = some r := h.last_of_index hc.2 hsrc
    refine { h with index_some := fun k S o hk => ?_, index_none := fun k r' hk => ?_, pend := ?_ }
    · intro i p hi
      have := h.pend i p hi
      cases p <;> exact this
    · by_cases hkr : k = r.key
      · subst hkr
        obtain rfl : dst = (S, o) := by simpa using hk
        exact ⟨r, hlast, hc.1, hdst⟩
      · exact h.index_some k S o (by simpa [hkr] using hk)
    · by_cases hkr : k = r.key
      · subst hkr
        simp at hk
      · exact h.index_none k r' (by simpa [hkr] using hk)
  · exact h

omit [DecidableEq K] in
theorem tick (h : Wf α) {n : Nat} (hn : α.clock ≤ n) : Wf { α with clock := n } := by
  refine { h with
    sent_clock := fun S p hp => Nat.lt_of_lt_of_le (h.sent_clock S p hp) hn
    pend := fun i p hi => ?_ }
  have hp := h.pend i p hi
  cases p with
  | queuedWrite rs =>
    exact ⟨hp.1, fun r hr => ⟨Nat.lt_of_lt_of_le (hp.2 r hr).1 hn, (hp.2 r hr).2⟩⟩
  | sentWrite S ls => exact hp
  | queuedMove c src r => exact hp
  | sentMove c src r dst => exact hp

omit [DecidableEq K] in
theorem rotate (h : Wf α) (l : Nat → Prop) :
    Wf { α with active := α.active + 1, linked := l } := by
  refine { h with
    beyond := fun S (hS : α.active + 1 < S) => h.beyond S (by omega)
    comp := fun c C hc => ⟨Nat.lt_succ_of_lt (h.comp c C hc).1, (h.comp c C hc).2⟩
    pend := fun i p hi => ?_ }
  have hp := h.pend i p hi
  cases p with
  | queuedWrite rs => exact hp
  | sentWrite S ls => exact ⟨Nat.le_succ_of_le hp.1, hp.2⟩
  | queuedMove c src r => exact hp
  | sentMove c src r dst => exact ⟨hp.1, hp.2.1, hp.2.2.1, Nat.le_succ_of_le hp.2.2.2⟩

omit [DecidableEq K] in
/-- Links and synced lengths do not matter to `Wf`. -/
theorem of_disk (h : Wf α) (l : Nat → Prop) (y : Nat → Nat) :
    Wf { α with linked := l, synced := y } := by
  refine { h with pend := fun i p hi => ?_ }
  have hp := h.pend i p hi
  cases p <;> exact hp

omit [DecidableEq K] in
theorem begin (h : Wf α) {i : Nat} {rs : List (Rec K V)} {n : Nat} (hn : α.clock ≤ n)
    (hts : ∀ r ∈ rs, α.clock ≤ r.ts ∧ r.ts < n) (hrs : rs.Pairwise fun r r' => r.ts < r'.ts) :
    Wf ({ α with clock := n }.setPend i (some (.queuedWrite rs))) := by
  refine (h.tick hn).setPend ⟨hrs, fun r hr => ⟨(hts r hr).2, fun S p hp heq => ?_⟩⟩ ?_
  · have h1 : p.2.ts < α.clock := h.sent_clock S p hp
    have h2 := (hts r hr).1
    omega
  · intro rs' hrs' j rs'' _ hj r hr r' hr' heq
    cases hrs'
    have h1 : r'.ts < α.clock := ((h.pend j _ hj).2 r' hr').1
    have h2 := (hts r hr).1
    omega

omit [DecidableEq K] in
theorem sendWrite (h : Wf α) {i : Nat} {ls : List (Nat × Rec K V)}
    (hi : α.pend i = some (.queuedWrite (ls.map Prod.snd)))
    (hext : Extends (α.sent α.active) ls) :
    Wf ((α.append ls).setPend i (some (.sentWrite α.active ls))) := by
  obtain ⟨hts, hok⟩ := h.pend i _ hi
  have hmem : ∀ p ∈ ls, p.2 ∈ ls.map Prod.snd := fun p hp => List.mem_map_of_mem hp
  have hsorted : ls.Pairwise fun p q => p.1 < q.1 ∧ p.2.ts < q.2.ts :=
    (List.pairwise_append.mp hext).2.1.and (by simpa [List.pairwise_map] using hts)
  have hself : ∀ p ∈ ls, ∀ q ∈ ls, p.2.ts = q.2.ts → p.2 = q.2 := fun p hp q hq =>
    List.Pairwise.forall_of_forall_of_flip (R := fun p q => p.2.ts = q.2.ts → p.2 = q.2)
      (fun _ _ _ => rfl) (hsorted.imp fun hlt heq => absurd heq (Nat.ne_of_lt hlt.2))
      (hsorted.imp fun hlt heq => absurd heq.symm (Nat.ne_of_lt hlt.2)) hp hq
  have hap : Wf ((α.setPend i none).append ls) := by
    refine (h.clearPend i).append hext (fun p hp => (hok _ (hmem p hp)).1)
      (fun p hp S q hq heq => absurd heq ((hok _ (hmem p hp)).2 S q hq)) hself ?_
    intro j rs hj r hr p hp
    have hji : j ≠ i := by rintro rfl; simp at hj
    exact h.queued_inj i _ j rs hi (by simpa [hji] using hj) hji.symm _ (hmem p hp) r hr
  have hset := hap.setPend (i := i) (p := .sentWrite α.active ls)
    ⟨Nat.le_refl _, hsorted, fun p hp => by simp [hp]⟩ (fun _ heq => by cases heq)
  simpa [State.setPend, State.append] using hset

omit [DecidableEq K] in
theorem sendMove (h : Wf α) {i c : Nat} {src : Loc} {r : Rec K V} {o : Nat}
    (hi : α.pend i = some (.queuedMove c src r)) (hext : Extends (α.sent α.active) [(o, r)]) :
    Wf ((α.append [(o, r)]).setPend i (some (.sentMove c src r (α.active, o)))) := by
  obtain ⟨hsrc, C, hC, hseg⟩ := h.pend i _ hi
  have hlt : src.1 < α.active := hseg ▸ (h.comp c C hC).1
  have hap : Wf (α.append [(o, r)]) := by
    refine h.append hext ?_ ?_ (by simp) ?_
    · simpa using h.sent_clock _ _ hsrc
    · simpa using fun S a b hab heq => h.sent_inj S (a, b) hab _ _ hsrc heq
    · intro j rs hj r' hr' p hp
      rw [List.mem_singleton.mp hp]
      exact ((h.pend j _ hj).2 r' hr').2 _ (src.2, r) hsrc
  refine hap.setPend ⟨⟨α.mem_append_sent.mpr (.inl hsrc), C, hC, hseg⟩, ?_, hlt, Nat.le_refl _⟩
    (fun _ heq => by cases heq)
  exact α.mem_append_sent.mpr (.inr ⟨rfl, by simp⟩)

end Wf

theorem Step.wf {α α' : State K V} {ℓ : Label K V} (h : Step α ℓ α') (hα : Wf α) : Wf α' := by
  cases h with
  | tick n hn => exact hα.tick hn
  | begin i rs n hi hn hts hrs => exact hα.begin hn hts hrs
  | sendWrite i ls hi hext => exact hα.sendWrite hi hext
  | sendMove i c src r o hi hext => exact hα.sendMove hi hext
  | cancel i rs hi => exact hα.clearPend i
  | rotate => exact hα.rotate _
  | apply i S d ls hi hd => exact (hα.applyAll (hα.pend i _ hi).2.2).clearPend i
  | moved i c src r dst C hi hc hdst =>
    have hp := hα.pend i _ hi
    refine ((hα.redirect hp.1.1 hp.2.1).clearPend i).setComp (hα.comp c C hc).1 (hα.comp c C hc).2 ?_
    exact fun j src' r' hm => hα.seg_of_moving (C := C) hc (Wf.moving_of_clearPend hm)
  | scan c S todo hc hS hl htodo hall =>
    refine hα.setComp hS (fun p hp => htodo.subset hp) fun i src r hm => ?_
    obtain ⟨C, hC, _⟩ := (hα.moving hm).2
    rw [hc] at hC
    cases hC
  | pull c i C p todo hc htodo hi hp =>
    obtain ⟨hseg, hmem⟩ := hα.comp c C hc
    have hrest : Wf (α.setComp c (some { C with todo := todo })) :=
      hα.setComp hseg (fun q hq => hmem q (htodo ▸ List.mem_cons_of_mem _ hq))
        fun j src r hm => hα.seg_of_moving (C := C) hc hm
    exact hrest.setPend (p := .queuedMove c (C.seg, p.1) p.2)
      ⟨hmem p (htodo ▸ List.mem_cons_self ..), _, Function.update_self .., rfl⟩
      fun _ heq => by cases heq
  | skip c C p todo hc htodo hp =>
    obtain ⟨hseg, hmem⟩ := hα.comp c C hc
    refine hα.setComp hseg (fun q hq => hmem q (htodo ▸ List.mem_cons_of_mem _ hq)) ?_
    exact fun j src r hm => hα.seg_of_moving (C := C) hc hm
  | fail i c src r C hi hc =>
    refine (hα.clearPend i).setComp (hα.comp c C hc).1 (hα.comp c C hc).2 ?_
    exact fun j src' r' hm => hα.seg_of_moving (C := C) hc (Wf.moving_of_clearPend hm)
  | sync S n hn => exact hα.of_disk _ _
  | syncDest c S n C ds hc hds hm hn hall =>
    refine (hα.of_disk α.linked _).setComp (hα.comp c C hc).1 (hα.comp c C hc).2 ?_
    exact fun j src r hm => hα.seg_of_moving (C := C) hc hm
  | unlink c C hc htodo hd hf hm => exact (hα.of_disk _ α.synced).clearComp hm
  | abandon c C hc hf hm => exact hα.clearComp hm

/-! ### Sequences of steps -/

/-- Steps that all satisfy a condition on the state before them. -/
inductive Path (P : State K V → Label K V → Prop) : State K V → State K V → Prop where
  | refl (α : State K V) : Path P α α
  | step {α β γ : State K V} {ℓ : Label K V} (h : Step α ℓ β) (hP : P α ℓ) (rest : Path P β γ) :
      Path P α γ

namespace Path

variable {P Q : State K V → Label K V → Prop} {α β γ : State K V}

theorem single {ℓ : Label K V} (h : Step α ℓ β) (hP : P α ℓ) : Path P α β := .step h hP (.refl β)

theorem mono (h : Path P α β) (hPQ : ∀ α ℓ, P α ℓ → Q α ℓ) : Path Q α β := by
  induction h with
  | refl => exact .refl _
  | step h hP _ ih => exact .step h (hPQ _ _ hP) ih

theorem invariant (h : Path P α β) (I : State K V → Prop) (hα : I α)
    (hkeep : ∀ {α β ℓ}, Step α ℓ β → P α ℓ → I α → I β) : I β := by
  induction h with
  | refl => exact hα
  | step h hP _ ih => exact ih (hkeep h hP hα)

/-- What an invariant of a path says about its steps. -/
theorem strengthen (h : Path P α β) (I : State K V → Prop) (hα : I α)
    (hkeep : ∀ {α β ℓ}, Step α ℓ β → P α ℓ → I α → Q α ℓ ∧ I β) : Path Q α β := by
  induction h with
  | refl => exact .refl _
  | step h hP _ ih => exact .step h (hkeep h hP hα).1 (ih (hkeep h hP hα).2)

theorem wf (h : Path P α β) (hα : Wf α) : Wf β := h.invariant Wf hα fun hs _ hw => hs.wf hw

end Path

end SegLog
