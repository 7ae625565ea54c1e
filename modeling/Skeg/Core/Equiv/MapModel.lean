import Skeg.Core.Equiv.Sequential
import Skeg.Core.Hashes

/-!
# Recovery of a store used by one caller

A store whose operations run one after the other stands for a map: `mapModel` is what the operations
that have returned without an error make of it.  Whatever they were, compactions, rotations and
snapshots included, the directory opened again holds that map, from its snapshot or by a full scan
(`sequential_recovery`).

An operation changes the map in the step in which it returns; until then its task carries what it will
change (`Pc.Serves`), and `Continues` says that the part of a step that runs it goes on doing so.  For
an `append` that is the value it has read, so the cache has to hold current values: nothing else runs
while a read waits for its file.
-/

namespace Skeg

open SegLog (Wf Linked Path)
open Transition (exists_run_of_exec)

section

variable [H : Hashes] {hist ev : List Event} {s s' : VLog} {α α' : LogState} {raw : Nat → List (List Record)}
  {a : VLog.Act} {t i : Nat} {pc : Pc} {op : Op} {m : Bytes → Option Bytes} {r : VLog × List Event} {c : Cont}

/-! ### What an operation under way will do -/

/-- What the records of an append make of the map. -/
def Cont.effect (c : Cont) (m : Bytes → Option Bytes) : Bytes → Option Bytes :=
  match c with
  | .set key value _ _ _ _ => Function.update m key (some value)
  | .del key _ _ => Function.update m key none
  | .setMany pairs _ => putAll m pairs
  | .relocate .. => m

/-- The operation appends the bytes of `req` to the value of `key`. -/
def Op.Appends (key : Bytes) (req : AppendReq) (op : Op) : Prop :=
  ∃ tenant, op = .append key req.value req.durability tenant req.diskLimit

/-- The task is one of the operation `op` on a store that stands for `m`. -/
def Pc.Serves (op : Op) (m : Bytes → Option Bytes) : Pc → Prop
  | .appendLock key _ req => op.Appends key req
  | .pread key _ _ (some req) => op.Appends key req
  | .lockWait (.append _ c) | .starting _ (.append _ c) | .commit _ _ c => c.effect m = op.effect m
  | _ => True

/-- Operations of the kind leave the map as it is. -/
def Kind.reads : Kind → Bool
  | .get | .compact | .snapshot => true
  | .set | .append | .setMany | .del | .move => false

omit H in
theorem Op.effect_of_reads (h : op.kind.reads = true) : op.effect m = m := by
  cases op with
  | set | append | setMany | del => cases h
  | _ => rfl

omit H in
theorem Cont.reads_kind (hc : c.isWrite = true) : c.kind.reads = false := by
  cases c with
  | set _ _ _ _ isAppend _ => cases isAppend <;> rfl
  | relocate => cases hc
  | _ => rfl

omit H in
theorem Pc.serves_of_reads (h : pc.kind.reads = true) : pc.Serves op m := by
  have hc : ∀ c : Cont, c.kind.reads = true → False := fun c hc => by
    cases c with
    | set _ _ _ _ isAppend _ => cases isAppend <;> cases hc
    | _ => cases hc
  cases pc with
  | appendLock => cases h
  | pread key tenant e req =>
    cases req with
    | none => trivial
    | some req => cases h
  | lockWait job =>
    cases job with
    | sealActive => trivial
    | append d c => exact (hc c h).elim
  | starting id job =>
    cases job with
    | sealActive => trivial
    | append d c => exact (hc c h).elim
  | commit S d c => exact (hc c h).elim
  | _ => trivial

/-! ### The part of a step that runs an operation -/

/-- Task `t` of the operation goes on, or returns; without an error only if there was nothing to change. -/
structure Continues (t : Nat) (op : Op) (m : Bytes → Option Bytes) (r : VLog × List Event) : Prop where
  serves : ∀ pc, r.1.tasks.lookup t = some pc → pc.Serves op m
  returns : ∀ i out, .returned i (.ok out) ∈ r.2 → op.effect m = m

omit H in
theorem continues_setTask {pc : Pc} (hpc : pc.Serves op m) (hev : ∀ i out, .returned i (.ok out) ∉ ev) :
    Continues t op m (s.setTask t pc, ev) where
  serves pc' h := by
    obtain rfl := Option.some.inj ((AList.lookup_insert s.tasks).symm.trans h)
    exact hpc
  returns i out h := absurd h (hev i out)

omit H in
theorem continues_finish {res : Res} (hres : ∀ out, res = .ok out → op.effect m = m) :
    Continues t op m (s.finish t res) where
  serves pc h := by cases (AList.lookup_erase t s.tasks).symm.trans h
  returns i out h := by
    simp only [VLog.finish, List.mem_singleton, Event.returned.injEq] at h
    exact hres out h.2.symm

omit H in
theorem continues_error (e : Error) : Continues t op m (s.finish t (.error e)) :=
  continues_finish fun _ h => by cases h

omit H in
theorem continues_respond (isAppend : Bool) (e : Error) : Continues t op m (s.respond t isAppend (.error e)) :=
  continues_error e

theorem continues_send (d : Durability) (hc : c.effect m = op.effect m) : Continues t op m (s.send t d c) where
  serves pc h := by
    obtain rfl := Option.some.inj ((AList.lookup_insert s.tasks).symm.trans h)
    exact hc
  returns i out h := by simp [VLog.send] at h

theorem continues_startAppend (d : Durability) (hc : c.effect m = op.effect m) :
    Continues t op m (s.startAppend t d c) := by
  unfold VLog.startAppend
  split_ifs
  · exact continues_setTask hc (by simp)
  · obtain ⟨hserves, hreturns⟩ := continues_send (s := s) (t := t) d hc
    refine ⟨hserves, fun i out h => hreturns i out ?_⟩
    exact (List.mem_cons.mp h).resolve_left (by simp)

theorem continues_beginSet {key value : Bytes} (d : Durability) (tenant : Nat) (diskLimit : Option Nat)
    (isAppend : Bool) (hop : op.effect m = Function.update m key (some value)) :
    Continues t op m (s.beginSet t key value d tenant diskLimit isAppend) := by
  unfold VLog.beginSet
  dsimp only
  split_ifs
  · exact continues_respond isAppend _
  · exact continues_startAppend d hop.symm

theorem continues_beginDel {key : Bytes} (d : Durability) (hop : op.effect m = Function.update m key none)
    (hm : s.index.lookup key = none → m key = none) : Continues t op m (s.beginDel t key d) := by
  unfold VLog.beginDel
  split
  · rename_i hnone
    refine continues_finish fun _ _ => ?_
    rw [hop, Function.update_eq_self_iff]
    exact (hm hnone).symm
  · exact continues_startAppend d hop.symm

theorem continues_beginSetMany {pairs : List (Bytes × Bytes)} (d : Durability)
    (hop : op.effect m = putAll m pairs) :
    Continues t op m (s.beginSetMany t pairs d) := by
  unfold VLog.beginSetMany
  dsimp only
  split_ifs with hempty
  · refine continues_finish fun _ _ => ?_
    rw [hop, List.isEmpty_iff.mp hempty]
    rfl
  · exact continues_error _
  · exact continues_error _
  · exact continues_error _
  · exact continues_startAppend d hop.symm

/-- An append has read the value of its key. -/
theorem continues_gotValue {key : Bytes} {tenant : Nat} {req : AppendReq} {v : Option Bytes}
    (hop : op.Appends key req) (hv : m key = v) : Continues t op m (s.gotValue t key tenant (some req) v) := by
  obtain ⟨tenant', rfl⟩ := hop
  refine continues_beginSet req.durability tenant req.diskLimit true ?_
  rw [← hv]
  rfl

theorem continues_beginGet {key : Bytes} {tenant : Nat} {req : AppendReq} (hop : op.Appends key req)
    (hcache : ∀ v, s.cache.peek key = some v → m key = some v)
    (hm : s.index.lookup key = none → m key = none) :
    Continues t op m (s.beginGet t key tenant (some req)) := by
  unfold VLog.beginGet
  dsimp only
  split
  · rename_i v hget
    rw [S3Fifo.get_fst] at hget
    exact continues_gotValue hop (hcache v hget)
  · split
    · rename_i hnone
      exact continues_gotValue hop (hm hnone)
    · split_ifs
      · exact continues_setTask hop (by simp)
      · exact continues_respond _ _

theorem continues_endGet {key : Bytes} {tenant : Nat} {e : IndexEntry} {req : AppendReq} (hop : op.Appends key req)
    (hread : ∀ rec, decodeRecord ((s.segs e.segmentId).file.pread e.offset e.size) = .ok rec →
      m key = some rec.value) (hr : s.endGet t key tenant e (some req) = some r) : Continues t op m r := by
  unfold VLog.endGet at hr
  split at hr
  · obtain rfl := Option.some.inj hr
    exact continues_respond _ _
  · rename_i rec hdecode
    split at hr
    · cases hr
    · rename_i cache _
      obtain rfl := Option.some.inj hr
      have hcont : Continues t op m ({ s with cache := cache }.gotValue t key tenant (some req) (some rec.value)) :=
        continues_gotValue hop (hread rec hdecode)
      refine ⟨hcont.1, fun i out h => hcont.2 i out ?_⟩
      exact (List.mem_cons.mp h).resolve_left (by simp)

omit H in
theorem continues_failCont (hc : c.isWrite = true) (e : Error) : Continues t op m (s.failCont t c e) := by
  cases c with
  | set _ _ _ _ isAppend _ => exact continues_respond isAppend e
  | relocate => cases hc
  | _ => exact continues_error e

theorem continues_rotate {d : Durability} (hw : c.isWrite = true) (hc : c.effect m = op.effect m) :
    Continues t op m (s.rotate t (.append d c)) := by
  unfold VLog.rotate
  dsimp only
  split_ifs
  · exact continues_failCont hw _
  · exact continues_failCont hw _
  · refine ⟨fun pc h => ?_, by simp⟩
    obtain rfl := Option.some.inj ((AList.lookup_insert s.tasks).symm.trans h)
    exact hc
  · exact continues_send d hc

/-! ### Writes taking effect -/

omit H in
/-- Events that start no other operation and return nothing that changes the map. -/
theorem MapModel.foldl_record {M : MapModel} (hspawn : ∀ i op, .spawned i op ∈ ev → M.op = some op)
    (hret : ∀ i out, .returned i (.ok out) ∈ ev → ∀ op ∈ M.op, op.effect M.map = M.map) :
    ev.foldl MapModel.record M = M := by
  induction ev with
  | nil => rfl
  | cons e ev ih =>
    have he : M.record e = M := by
      cases e with
      | spawned i op => rw [MapModel.record, ← hspawn i op List.mem_cons_self]
      | returned i res =>
        cases res with
        | error => rfl
        | ok out =>
          have heffect := hret i out List.mem_cons_self
          obtain ⟨op, map⟩ := M
          cases op with
          | none => rfl
          | some op => exact congrArg (MapModel.mk (some op)) (heffect op rfl)
      | _ => rfl
    rw [List.foldl_cons, he]
    exact ih (fun i op h => hspawn i op (List.mem_cons_of_mem _ h))
      fun i out h => hret i out (List.mem_cons_of_mem _ h)

omit H in
theorem mapModel_append (hist ev : List Event) : mapModel (hist ++ ev) = ev.foldl MapModel.record (mapModel hist) :=
  List.foldl_append

theorem liveMap_applyMembers {S : Nat} {d : Durability} {offset ts : Nat} {pairs : List (Bytes × Bytes)}
    (h : s.applyMembers S d offset ts pairs = some (s', ev)) (hist : List Event) :
    liveMap (hist ++ ev) = putAll (liveMap hist) pairs := by
  induction pairs generalizing s offset ts ev hist with
  | nil =>
    cases h
    rw [List.append_nil]
    rfl
  | cons p pairs ih =>
    rw [VLog.applyMembers] at h
    split at h
    · cases h
    · split at h
      · cases h
      · rename_i r hrest
        cases h
        rw [List.append_cons, ih hrest, liveMap_applied]
        rfl

/-- A write takes effect, on the map of the store and on that of the model, in the step that ends its task. -/
theorem VLog.Applies.effect {S o : Nat} {d : Durability} (h : VLog.Applies s t S o d c s' ev) (hist : List Event) :
    liveMap (hist ++ ev) = c.effect (liveMap hist) ∧ s'.tasks = s.tasks.erase t ∧
      ∀ M : MapModel, ev.foldl MapModel.record M = { M with map := M.op.elim M.map fun op => op.effect M.map } := by
  obtain ⟨_, _, hwrite, happly⟩ := h
  cases c with
  | set key value tenant prev isAppend ts =>
    simp only [VLog.applyCont, VLog.applySet] at happly
    split at happly
    · cases happly
    · cases happly
      refine ⟨?_, rfl, fun M => rfl⟩
      rw [List.append_cons, liveMap_quiet (by simp [VLog.respond, VLog.finish, Event.Quiet]), liveMap_applied]
      rfl
  | del key prev ts =>
    cases happly
    refine ⟨?_, rfl, fun M => rfl⟩
    rw [List.append_cons, liveMap_quiet (by simp [VLog.finish, Event.Quiet]), liveMap_applied]
    rfl
  | setMany pairs ts =>
    simp only [VLog.applyCont] at happly
    split at happly
    · cases happly
    · rename_i r hr
      cases happly
      obtain ⟨htasks, _, hev, _⟩ := VLog.applyMembers_frame hr
      refine ⟨?_, by simp [VLog.finish, htasks], fun M => ?_⟩
      · rw [← List.append_assoc, liveMap_quiet (by simp [VLog.finish, Event.Quiet]), liveMap_applyMembers hr]
        rfl
      · have hfold : r.2.foldl MapModel.record M = M := by
          refine MapModel.foldl_record (fun i op h => ?_) fun i out h => ?_ <;>
            · obtain ⟨_, _, _, he⟩ := hev _ h
              cases he
        rw [List.foldl_append, hfold]
        rfl
  | relocate => cases hwrite

/-! ### Steps -/

/-- The store stands for the map of the model, and its one task for the operation of the model. -/
structure Follows (hist : List Event) (s : VLog) : Prop where
  map : (mapModel hist).map = liveMap hist
  lead : ∀ i pc, s.tasks.lookup i = some pc → pc.kind ≠ .move →
    ∃ op, (mapModel hist).op = some op ∧ op.kind = pc.kind ∧ pc.Serves op (liveMap hist)

/-- Also, reads are of current entries and the cache holds current values. -/
structure Serving (hist : List Event) (s : VLog) : Prop extends Follows hist s where
  entry : ∀ i pc, s.tasks.lookup i = some pc → ∀ x ∈ pc.entry, s.index.lookup x.1 = some x.2
  cache : ∀ k v, s.cache.peek k = some v → liveMap hist k = some v

/-- Nothing is written while a read waits for its file. -/
theorem Orderly.stores_of_read (hI : Orderly s α) (h : Rel hist s α raw) (hw : Wf α) {key : Bytes} {tenant : Nat}
    {e : IndexEntry} {req : Option AppendReq} (hi : s.tasks.lookup i = some (.pread key tenant e req)) :
    Stores s (liveMap hist) := by
  refine h.stores_of_settled hw hI.recoverable.linked fun S hS => ?_
  obtain ⟨j, d, c, hj⟩ := (h.inFlight_iff S).mp hS
  by_cases hji : j = i
  · subst hji
    cases hi.symm.trans hj
  · rw [hI.lone h hi (readKind_ne_move req) (by simp) hji] at hj
    cases hj

/-- A store without an entry has no value. -/
theorem Rel.liveMap_none (h : Rel hist s α raw) (hw : Wf α) {k : Bytes} (hk : s.index.lookup k = none) :
    liveMap hist k = none := by
  cases hm : liveMap hist k with
  | none => rfl
  | some v =>
    obtain ⟨l, hl, hv⟩ := liveMap_eq_some h hm
    have hindex := h.index k
    rw [hk] at hindex
    rw [hw.index_none k l hindex hl] at hv
    cases hv

/-- A read finds the current value. -/
theorem Serving.read (h : Serving hist s) (hrel : Rel hist s α raw) (hw : Wf α) (hI : Orderly s α) {key : Bytes}
    {tenant : Nat} {e : IndexEntry} {req : Option AppendReq}
    (hi : s.tasks.lookup i = some (.pread key tenant e req)) {rec : Record}
    (hrec : decodeRecord ((s.segs e.segmentId).file.pread e.offset e.size) = .ok rec) :
    liveMap hist key = some rec.value := by
  have hstores := hI.stores_of_read hrel hw hi
  have he : s.index.lookup key = some e := h.entry i _ hi (key, e) rfl
  cases hm : liveMap hist key with
  | none =>
    rw [hstores.absent key hm] at he
    cases he
  | some v =>
    obtain ⟨e', ts, kind, he', _, _, hdecode⟩ := hstores.present key v hm
    obtain rfl := Option.some.inj (he.symm.trans he')
    rw [hrec] at hdecode
    obtain rfl := Except.ok.inj hdecode
    rfl

/-- Nothing but the committers runs while a read waits for its file. -/
theorem Serving.entry_step (h : Serving hist s) (hrel : Rel hist s α raw) (hI : Orderly s α)
    (hseq : a.starts = true → s.AtRest) (hstep : s.step a = some (s', ev)) :
    ∀ i pc, s'.tasks.lookup i = some pc → ∀ x ∈ pc.entry, s'.index.lookup x.1 = some x.2 := by
  intro i pc hi x hx
  have hframe := (VLog.step_cases hstep).1
  by_cases hai : a.task = some i
  · exact hframe.read i pc hai hi x hx
  · rcases hframe.tasks i hai with heq | ⟨_, q', _, hq', _⟩
    · rw [heq] at hi
      have hread : pc.kind ≠ .move ∧ ∀ q, pc ≠ .relocating q := by
        cases pc with
        | pread key tenant e req => exact ⟨readKind_ne_move req, by simp⟩
        | _ => cases hx
      have hnone : ∀ j, j ≠ i → s.tasks.lookup j = none := fun j => hI.lone hrel hi hread.1 hread.2
      obtain ⟨hresume, hrelocate⟩ := VLog.lookup_of_step hstep
      cases a with
      | spawn t op =>
        rw [show s.tasks = ∅ from hseq rfl] at hi
        cases hi
      | resume j =>
        obtain ⟨pc', hj, _⟩ := hresume j rfl
        rw [hnone j fun hji => hai (congrArg some hji)] at hj
        cases hj
      | relocate j child =>
        obtain ⟨q, hj⟩ := hrelocate j child rfl
        by_cases hji : j = i
        · subst hji
          exact absurd (Option.some.inj (hi.symm.trans hj)) (hread.2 q)
        · rw [hnone j hji] at hj
          cases hj
      | flush S n io =>
        have hindex : s'.index = s.index := by
          obtain ⟨hraw, _⟩ := Option.filter_eq_some_iff.mp hstep
          simp only [VLog.stepRaw, VLog.flush] at hraw
          split_ifs at hraw
          cases hraw
          rfl
        rw [hindex]
        exact h.entry i pc hi x hx
    · obtain rfl := Option.some.inj (hi.symm.trans hq')
      cases hx

/-- A step that changes neither map, and after which the tasks it runs still serve the operation. -/
theorem Follows.lead_step (h : Follows hist s) (hstep : s.step a = some (s', ev)) (hquiet : ∀ e ∈ ev, e.Quiet)
    (hmodel : mapModel (hist ++ ev) = mapModel hist)
    (hself : ∀ i pc, a.task = some i → s'.tasks.lookup i = some pc → pc.kind ≠ .move →
      ∃ op, (mapModel hist).op = some op ∧ op.kind = pc.kind ∧ pc.Serves op (liveMap hist)) :
    Follows (hist ++ ev) s' := by
  have hlive : liveMap (hist ++ ev) = liveMap hist := liveMap_quiet hquiet
  refine ⟨by rw [hmodel, hlive, h.map], fun i pc hi hmove => ?_⟩
  rw [hmodel, hlive]
  by_cases hai : a.task = some i
  · exact hself i pc hai hi hmove
  · rcases (VLog.step_cases hstep).1.tasks i hai with heq | ⟨q, q', hq, hq', _⟩
    · exact h.lead i pc (heq ▸ hi) hmove
    · obtain rfl := Option.some.inj (hi.symm.trans hq')
      obtain ⟨op, hop, hkind, _⟩ := h.lead i _ hq (by simp [Pc.kind])
      exact ⟨op, hop, hkind, trivial⟩

/-- A relocation changes nothing. -/
theorem Follows.move_step (h : Follows hist s) (hstep : s.step a = some (s', ev)) (ha : a.kind s = some .move)
    (hspawn : a.starts = false) : Follows (hist ++ ev) s' := by
  obtain ⟨hframe, happ⟩ := VLog.step_cases hstep
  have hquiet : ∀ e ∈ ev, e.Quiet := by
    rcases happ with ⟨t, S, o, d, c, rfl, happ⟩ | ⟨_, hquiet⟩
    · rw [VLog.Act.kind, happ.lookup] at ha
      exact absurd (Option.some.inj ha) (Cont.kind_ne_move happ.write)
    · exact hquiet
  refine h.lead_step hstep hquiet ?_ fun i pc hai hi hmove => ?_
  · rw [mapModel_append]
    refine MapModel.foldl_record (fun i op he => ?_) fun i out he => ?_
    · rw [show a = .spawn i op from hframe.events _ he] at hspawn
      cases hspawn
    · exact absurd ha (hframe.events _ he).1
  · exact absurd (Option.some.inj (ha.symm.trans (hframe.kind i pc hai hi))).symm hmove

/-- The write of the one task takes effect. -/
theorem Follows.apply_step (h : Follows hist s) (hone : ∀ j, j ≠ i → s.tasks.lookup j = none) {S o : Nat}
    {d : Durability} (happ : VLog.Applies s i S o d c s' ev) : Follows (hist ++ ev) s' := by
  obtain ⟨hlive, htasks, hmodel⟩ := happ.effect hist
  obtain ⟨op, hop, _, hserves⟩ := h.lead i _ happ.lookup (Cont.kind_ne_move happ.write)
  refine ⟨?_, fun j pc hj _ => ?_⟩
  · rw [mapModel_append, hmodel, hlive, show c.effect (liveMap hist) = op.effect (liveMap hist) from hserves, ← h.map,
      hop]
    rfl
  · rw [htasks] at hj
    by_cases hji : j = i
    · subst hji
      cases (AList.lookup_erase j s.tasks).symm.trans hj
    · rw [AList.lookup_erase_ne hji, hone j hji] at hj
      cases hj

/-- Any other step of the one task. -/
theorem Follows.continue_step (h : Follows hist s) (hstep : s.step (.resume i) = some (s', ev))
    (hi : s.tasks.lookup i = some pc) (hop : (mapModel hist).op = some op) (hkind : op.kind = pc.kind)
    (hquiet : ∀ e ∈ ev, e.Quiet) (hcont : Continues i op (liveMap hist) (s', ev)) : Follows (hist ++ ev) s' := by
  have hframe := (VLog.step_cases hstep).1
  refine h.lead_step hstep hquiet ?_ fun j pc' hj hpc' _ => ?_
  · rw [mapModel_append]
    refine MapModel.foldl_record (fun j op' he => ?_) fun j out he op' hop' => ?_
    · cases hframe.events _ he
    · obtain rfl : op = op' := Option.some.inj (hop.symm.trans hop')
      rw [h.map]
      exact hcont.returns j out he
  · obtain rfl := Option.some.inj hj
    refine ⟨op, hop, ?_, hcont.serves pc' hpc'⟩
    have hk := hframe.kind i pc' hj hpc'
    rw [VLog.Act.kind, hi] at hk
    exact hkind.trans (Option.some.inj hk)

omit H in
/-- An operation that only reads goes on. -/
theorem continues_of_reads (hop : op.kind.reads = true) (hkind : ∀ pc, r.1.tasks.lookup t = some pc → op.kind = pc.kind) :
    Continues t op m r where
  serves pc hpc := Pc.serves_of_reads (hkind pc hpc ▸ hop)
  returns _ _ _ := Op.effect_of_reads hop

theorem Serving.resume_step (h : Serving hist s) (hrel : Rel hist s α raw) (hw : Wf α) (hI : Orderly s α)
    (hstep : s.step (.resume i) = some (s', ev)) : Follows (hist ++ ev) s' := by
  obtain ⟨pc, hi, hr⟩ := (VLog.lookup_of_step hstep).1 i rfl
  obtain ⟨hframe, happ⟩ := VLog.step_cases hstep
  by_cases hmove : pc.kind = .move
  · exact h.move_step hstep (by simp [VLog.Act.kind, hi, hmove]) rfl
  obtain ⟨op, hop, hkind, hserves⟩ := h.lead i pc hi hmove
  have hdone : Continues i op (liveMap hist) (s', ev) → (∀ S d c, pc ≠ .commit S d c) → Follows (hist ++ ev) s' := by
    intro hcont hpc
    refine h.continue_step hstep hi hop hkind ?_ hcont
    rcases happ with ⟨t, S, o, d, c, ha, happ⟩ | ⟨_, hquiet⟩
    · cases ha
      exact absurd (Option.some.inj (hi.symm.trans happ.lookup)) (hpc S d c)
    · exact hquiet
  by_cases hreads : pc.kind.reads = true
  · refine hdone (continues_of_reads (hkind ▸ hreads) fun pc' hpc' => ?_) ?_
    · have hk := hframe.kind i pc' rfl hpc'
      rw [VLog.Act.kind, hi] at hk
      exact hkind.trans (Option.some.inj hk)
    · rintro S d c rfl
      rw [show (Pc.commit S d c).kind = c.kind from rfl, Cont.reads_kind] at hreads
      · cases hreads
      · by_contra hc
        cases c with
        | relocate => exact hmove rfl
        | _ => exact hc rfl
  have hwrite : ∀ c : Cont, pc.kind = c.kind → c.isWrite = true := fun c hc => by
    cases c with
    | relocate => exact absurd hc hmove
    | _ => rfl
  cases pc with
  | appendLock key tenant req =>
    simp only [VLog.resume] at hr
    split_ifs at hr
    rw [← Option.some.inj hr] at hdone
    exact hdone (continues_beginGet hserves (h.cache key) fun hk => hrel.liveMap_none hw hk) (by simp)
  | pread key tenant e req =>
    cases req with
    | none => exact absurd rfl hreads
    | some req => exact hdone (continues_endGet hserves (fun rec hrec => h.read hrel hw hI hi hrec) hr) (by simp)
  | lockWait job =>
    cases job with
    | sealActive => exact absurd rfl hreads
    | append d c =>
      simp only [VLog.resume] at hr
      split_ifs at hr
      rw [← Option.some.inj hr] at hdone
      exact hdone (continues_rotate (hwrite c rfl) hserves) (by simp)
  | starting id job =>
    cases job with
    | sealActive => exact absurd rfl hreads
    | append d c =>
      rw [← Option.some.inj hr] at hdone
      exact hdone (continues_send d hserves) (by simp)
  | commit S d c =>
    simp only [VLog.resume] at hr
    split at hr
    · cases hr
    · rename_i e hack
      have hcont : Continues i op (liveMap hist) (s', ev) := by
        rw [← Option.some.inj hr]
        exact continues_failCont (hwrite c rfl) e
      refine h.continue_step hstep hi hop hkind ?_ hcont
      rcases happ with ⟨t, S', o, d', c', ha, happ⟩ | ⟨_, hquiet⟩
      · cases ha
        obtain ⟨n, hok⟩ := happ.ack
        cases hack.symm.trans hok
      · exact hquiet
    · rename_i o n hack
      exact h.apply_step (fun j => hI.lone hrel hi hmove (by simp)) ⟨hi, ⟨n, hack⟩, hwrite c rfl, hr⟩
  | _ => exact absurd rfl hreads

theorem Rel.continues_spawn (hrel : Rel hist s α raw) (hw : Wf α)
    (hstep : s.step (.spawn t op) = some (s', ev)) (hs' : s' = (s.spawn t op).1) :
    Continues t op (liveMap hist) (s.spawn t op) := by
  have hreads : op.kind.reads = true → Continues t op (liveMap hist) (s.spawn t op) := fun hop =>
    continues_of_reads hop fun pc hpc => Option.some.inj ((VLog.step_cases hstep).1.kind t pc rfl (hs' ▸ hpc))
  cases op with
  | set key value d tenant limit => exact continues_beginSet d tenant limit false rfl
  | append key value d tenant limit => exact continues_setTask ⟨tenant, rfl⟩ (by simp)
  | setMany pairs d => exact continues_beginSetMany d rfl
  | del key d => exact continues_beginDel d rfl fun hk => hrel.liveMap_none hw hk
  | _ => exact hreads rfl

theorem Serving.spawn_step (h : Serving hist s) (hrel : Rel hist s α raw) (hw : Wf α) (hrest : s.AtRest)
    (hstep : s.step (.spawn t op) = some (s', ev)) : Follows (hist ++ ev) s' := by
  have hframe := (VLog.step_cases hstep).1
  obtain ⟨rfl, rfl⟩ : s' = (s.spawn t op).1 ∧ ev = .spawned t op :: (s.spawn t op).2 := by
    obtain ⟨hraw, _⟩ := Option.filter_eq_some_iff.mp hstep
    simp only [VLog.stepRaw] at hraw
    split_ifs at hraw
    cases hraw
    exact ⟨rfl, rfl⟩
  have hcont := hrel.continues_spawn hw hstep rfl
  have hlive : liveMap (hist ++ .spawned t op :: (s.spawn t op).2) = liveMap hist := by
    refine liveMap_quiet fun e he => ?_
    rcases List.mem_cons.mp he with rfl | he
    · trivial
    · exact (VLog.spawn_cases op).2.2 e he
  have hmodel : mapModel (hist ++ .spawned t op :: (s.spawn t op).2) = { mapModel hist with op := some op } := by
    rw [mapModel_append]
    refine MapModel.foldl_record (M := { mapModel hist with op := some op }) (fun i op' he => ?_)
      fun i out he op' hop' => ?_
    · cases hframe.events _ (List.mem_cons_of_mem _ he)
      rfl
    · cases hop'
      rw [h.map]
      exact hcont.returns i out he
  refine ⟨by rw [hmodel, hlive, h.map], fun i pc hi _ => ?_⟩
  rw [hmodel, hlive]
  have hit : t = i := by
    by_contra hne
    rcases hframe.tasks i (fun heq => hne (Option.some.inj heq)) with heq | ⟨q, _, hq, _⟩
    · rw [heq, show s.tasks = ∅ from hrest] at hi
      cases hi
    · rw [show s.tasks = ∅ from hrest] at hq
      cases hq
  subst hit
  exact ⟨op, rfl, Option.some.inj (hframe.kind t pc rfl hi), hcont.serves pc hi⟩

theorem Serving.step (h : Serving hist s) (hrel : Rel hist s α raw) (hw : Wf α) (hI : Orderly s α)
    (hseq : a.starts = true → s.AtRest) (hstep : s.step a = some (s', ev)) : Serving (hist ++ ev) s' := by
  have hfill : ∀ e ∈ ev, e.FillsCurrent hist := fun e he => by
    cases e with
    | filled key v =>
      obtain ⟨i, tenant, e, req, rec, _, hi, hrec, rfl⟩ := (VLog.step_cases hstep).1.fill key v he
      exact h.read hrel hw hI hi hrec
    | _ => trivial
  refine ⟨?_, h.entry_step hrel hI hseq hstep, cache_step h.cache hstep hfill⟩
  cases a with
  | spawn t op => exact h.spawn_step hrel hw (hseq rfl) hstep
  | resume i => exact h.resume_step hrel hw hI hstep
  | relocate i child =>
    obtain ⟨q, hi⟩ := (VLog.lookup_of_step hstep).2 i child rfl
    exact h.move_step hstep (by simp [VLog.Act.kind, hi]) rfl
  | flush S n io =>
    obtain ⟨hraw, _⟩ := Option.filter_eq_some_iff.mp hstep
    simp only [VLog.stepRaw, VLog.flush] at hraw
    split_ifs at hraw
    cases hraw
    rw [List.append_nil]
    exact ⟨h.map, h.lead⟩

/-! ### Runs -/

theorem serving_empty (max : Nat) : Serving [] (openVLog Disk.empty max) := by
  have hopens := opens_openVLog Disk.empty max
  refine ⟨⟨rfl, fun i pc hi => ?_⟩, fun i pc hi => ?_, fun k v hk => ?_⟩
  · rw [hopens.tasks] at hi
    cases hi
  · rw [hopens.tasks] at hi
    cases hi
  · rw [hopens.cache] at hk
    cases hk

/-- A store opened on an empty directory, and whose operations run one after the other without IO errors:
opening its directory again gives every key the value the map model gives it, from the snapshot if there is
one and by a full scan. -/
theorem sequential_recovery [LawfulHashes] (max : Nat) (hist : List Event) (s : VLog)
    (hrun : Reaches (fun _ => InTurn) Disk.empty max hist s) (hrest : s.AtRest) (k : Bytes) (tenant max' : Nat) :
    (openVLog s.disk max').getAlone k tenant = some (.ok (.value ((mapModel hist).map k))) ∧
      (openVLog s.disk.withoutSnapshot max').getAlone k tenant = some (.ok (.value ((mapModel hist).map k))) := by
  obtain ⟨α, raw, hrel, hw, ⟨hrec, _, _⟩, hserving⟩ := hrun.log diskOk_empty (fun _ _ _ h => h.1)
    (fun hist s α => Orderly s α ∧ Serving hist s) ⟨orderly_empty max, serving_empty max⟩
    fun hist s α raw a s' ev α' hrel hw hI ha hstep hpath =>
      ⟨hI.1.step hrel hw ha.2 hstep hpath, hI.2.step hrel hw hI.1 ha.2 hstep⟩
  have hsnap : ∀ sn, s.snapshot = some sn → SnapOk α sn := fun sn hsn => hrec.snap sn (.inl hsn)
  rw [hserving.map]
  exact ⟨getAlone_openVLog (hrel.stores_snapshot hw hrec.linked hrec.kept hrec.ordered hrest hsnap max') k tenant,
    getAlone_openVLog (hrel.stores_fullScan hw hrec.linked hrec.kept hrest max') k tenant⟩

end

section

attribute [local instance] linkedHashes

/-- A set, an append to it and a batch over two segments, a deletion, a compaction of the first segment, a
snapshot, and a set behind it. -/
def oneCaller : List VLog.Act :=
  [.spawn 1 (.set [1] [10] .relaxed 0 none), .flush 0 1 .ok, .resume 1,
    .spawn 2 (.append [1] [11] .relaxed 0 none), .resume 2, .flush 0 1 .ok, .resume 2,
    .spawn 3 (.setMany [([2], [20]), ([3], [30])] .kernel), .resume 3, .resume 3, .flush 1 1 .ok, .resume 3,
    .spawn 4 (.del [2] .relaxed), .resume 4, .resume 4, .flush 2 1 .ok, .resume 4,
    .spawn 5 (.compactSegment 0), .relocate 5 6, .relocate 5 6, .flush 2 1 .ok, .resume 6, .resume 5, .resume 5, .resume 5,
    .spawn 7 .writeSnapshot, .resume 7,
    .spawn 8 (.set [4] [40] .relaxed 0 none), .flush 2 1 .ok, .resume 8]

theorem sequential_recovery_oneCaller : ∃ hist s,
    Reaches (fun _ => InTurn) Disk.empty 384 hist s ∧ s.AtRest ∧ s.snapshot.isSome = true ∧
      (openVLog s.disk 384).getAlone [1] 0 = some (.ok (.value (some [10, 11]))) ∧
      (openVLog s.disk.withoutSnapshot 384).getAlone [2] 0 = some (.ok (.value none)) := by
  obtain ⟨hist, s, hrun, hrest, hsnap, h1, h2⟩ := exists_run_of_exec
    (fun hist s => s.AtRest ∧ s.snapshot.isSome = true ∧ (mapModel hist).map [1] = some [10, 11] ∧
      (mapModel hist).map [2] = none) oneCaller
    (show (Transition.exec VLog.step (fun _ => InTurn) (recoveredEvents Disk.empty)
      (openVLog Disk.empty 384) _).any _ = true by decide +kernel)
  refine ⟨hist, s, hrun, hrest, hsnap, ?_, ?_⟩
  · rw [(sequential_recovery 384 hist s hrun hrest [1] 0 384).1, h1]
  · rw [(sequential_recovery 384 hist s hrun hrest [2] 0 384).2, h2]

end

end Skeg
