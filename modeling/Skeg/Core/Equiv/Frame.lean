import Skeg.Core.Equiv.Refine
import Skeg.Core.Equiv.Cache

/-!
# What a step leaves alone

Most steps only move tasks along.  `Local t s r` says so of the part of a step that runs task `t`: the
tenants' counters and the cached values stay, and of the other tasks at most a compaction hears of its
relocation.  `VLog.step_cases` divides the steps of the store into those that apply a write and the
rest, `Plain`.
-/

namespace Skeg

/-! ### Kinds of operations -/

/-- What a task is for; `move` is the relocation of one record by a compaction. -/
inductive Kind where
  | get | set | append | setMany | del | compact | move | snapshot
  deriving DecidableEq

def Op.kind : Op → Kind
  | .get .. => .get
  | .set .. => .set
  | .append .. => .append
  | .setMany .. => .setMany
  | .del .. => .del
  | .compactSegment _ | .maybeCompact | .reclaimAllDead => .compact
  | .writeSnapshot => .snapshot

/-- The kind of a write of one value, which is one of an `append` or for itself. -/
def setKind (isAppend : Bool) : Kind := if isAppend then .append else .set

def Cont.kind : Cont → Kind
  | .set _ _ _ _ isAppend _ => setKind isAppend
  | .del .. => .del
  | .setMany .. => .setMany
  | .relocate .. => .move

def Job.kind : Job → Kind
  | .append _ c => c.kind
  | .sealActive => .compact

/-- The kind of a read, which is one of an `append` or for itself. -/
def readKind (req : Option AppendReq) : Kind := if req.isSome then .append else .get

def Pc.kind : Pc → Kind
  | .appendLock .. => .append
  | .pread _ _ _ req => readKind req
  | .lockWait job | .starting _ job => job.kind
  | .commit _ _ c => c.kind
  | .relocating _ | .syncing .. => .compact
  | .snapshotting _ => .snapshot

theorem Cont.kind_ne_snapshot (c : Cont) : c.kind ≠ .snapshot := by
  cases c with
  | set _ _ _ _ isAppend _ => cases isAppend <;> simp [Cont.kind, setKind]
  | _ => simp [Cont.kind]

theorem Job.kind_ne_snapshot (job : Job) : job.kind ≠ .snapshot := by
  cases job with
  | append d c => exact c.kind_ne_snapshot
  | sealActive => simp [Job.kind]

theorem readKind_ne_snapshot (req : Option AppendReq) : readKind req ≠ .snapshot := by
  cases req <;> simp [readKind]

theorem setKind_ne_move (isAppend : Bool) : setKind isAppend ≠ .move := by
  cases isAppend <;> simp [setKind]

theorem readKind_ne_move (req : Option AppendReq) : readKind req ≠ .move := by
  cases req <;> simp [readKind]

theorem Cont.kind_ne_move {c : Cont} (h : c.isWrite = true) : c.kind ≠ .move := by
  cases c with
  | set _ _ _ _ isAppend => exact setKind_ne_move isAppend
  | del => simp [Cont.kind]
  | setMany => simp [Cont.kind]
  | relocate => cases h

/-- The index entry a read has looked up. -/
def Pc.entry : Pc → Option (Bytes × IndexEntry)
  | .pread key _ e _ => some (key, e)
  | _ => none

/-- The answer of a `reclaim_all_dead`. -/
def Res.isFreed : Res → Bool
  | .ok (.freed _) => true
  | _ => false

/-- An event of an operation of kind `K` under way that does not tell of the index or the cache. -/
def Event.Silent (K : Kind) : Event → Prop
  | .spawned .. | .applied .. | .filled .. | .cut _ | .unlinked _ => False
  | .began _ c => K = c.kind
  | .scanned .. => K = .compact
  | .returned _ r => K ≠ .move ∧ (r.isFreed = true → K = .compact)
  | _ => True

theorem Event.Silent.quiet {K : Kind} {e : Event} (h : e.Silent K) : e.Quiet := by
  cases e <;> first | exact trivial | exact h.elim

/-! ### One task -/

/-- The same task, or the same compaction at another point. -/
def SameTask (pc pc' : Option Pc) : Prop :=
  pc' = pc ∨ ∃ q q', pc = some (.relocating q) ∧ pc' = some (.relocating q') ∧ q'.seg = q.seg ∧ q'.caller = q.caller

structure Local (K : Kind) (t : Nat) (s : VLog) (r : VLog × List Event) : Prop where
  disk : r.1.tenantDisk = s.tenantDisk
  cache : ∀ k, r.1.cache.peek k = s.cache.peek k
  silent : ∀ e ∈ r.2, e.Silent K
  snapshot : r.1.snapshot = s.snapshot ∨ r.1.snapshot = none
  task : ∀ pc, r.1.tasks.lookup t = some pc →
    pc.kind = K ∧ ∀ x ∈ pc.entry, r.1.index.lookup x.1 = some x.2
  tasks : ∀ i, i ≠ t → SameTask (s.tasks.lookup i) (r.1.tasks.lookup i)

namespace Local

variable {K : Kind} {t : Nat} {s s₁ : VLog} {r : VLog × List Event}

theorem insert {pc : Pc} (htasks : r.1.tasks = s.tasks.insert t pc)
    (hpc : pc.kind = K) (hread : ∀ x ∈ pc.entry, r.1.index.lookup x.1 = some x.2) (hdisk : r.1.tenantDisk = s.tenantDisk)
    (hcache : r.1.cache = s.cache) (hsnap : r.1.snapshot = s.snapshot)
    (hev : ∀ e ∈ r.2, e.Silent K) : Local K t s r where
  disk := hdisk
  cache k := by rw [hcache]
  silent := hev
  snapshot := .inl hsnap
  task pc' h := by
    rw [htasks, AList.lookup_insert] at h
    cases h
    exact ⟨hpc, hread⟩
  tasks i hi := .inl (by rw [htasks, AList.lookup_insert_ne hi])

theorem erase (htasks : r.1.tasks = s.tasks.erase t) (hdisk : r.1.tenantDisk = s.tenantDisk)
    (hcache : r.1.cache = s.cache) (hsnap : r.1.snapshot = s.snapshot)
    (hev : ∀ e ∈ r.2, e.Silent K) : Local K t s r where
  disk := hdisk
  cache k := by rw [hcache]
  silent := hev
  snapshot := .inl hsnap
  task pc' h := by
    rw [htasks, AList.lookup_erase] at h
    cases h
  tasks i hi := .inl (by rw [htasks, AList.lookup_erase_ne hi])

/-- The step may start from a store that differs in other fields. -/
theorem of_same (h : Local K t s₁ r) (hdisk : s₁.tenantDisk = s.tenantDisk)
    (hcache : ∀ k, s₁.cache.peek k = s.cache.peek k) (hsnap : s₁.snapshot = s.snapshot ∨ s₁.snapshot = none)
    (htasks : s₁.tasks = s.tasks) : Local K t s r where
  disk := h.disk.trans hdisk
  cache k := (h.cache k).trans (hcache k)
  silent := h.silent
  snapshot := by
    rcases h.snapshot with h1 | h1
    · rw [h1]
      exact hsnap
    · exact .inr h1
  task := h.task
  tasks i hi := htasks ▸ h.tasks i hi

theorem cons {s' : VLog} {ev : List Event} {e : Event} (h : Local K t s (s', ev)) (he : e.Silent K) :
    Local K t s (s', e :: ev) := by
  refine ⟨h.disk, h.cache, fun e' he' => ?_, h.snapshot, h.task, h.tasks⟩
  rcases List.mem_cons.mp he' with rfl | he'
  · exact he
  · exact h.silent e' he'

end Local

namespace VLog

variable {K : Kind} {s : VLog} {t : Nat}

theorem local_finish (r : Res) (hK : K ≠ .move) (hr : r.isFreed = true → K = .compact) :
    Local K t s (s.finish t r) :=
  .erase rfl rfl rfl rfl (by simpa [finish, Event.Silent, hK] using hr)

theorem local_respond (isAppend : Bool) (r : Res) (hK : K ≠ .move) (hr : r.isFreed = true → K = .compact) :
    Local K t s (s.respond t isAppend r) :=
  .erase rfl rfl rfl rfl (by simpa [respond, finish, Event.Silent, hK] using hr)

theorem childDone_cases (child parent : Nat) (outcome : Except Error (Nat × Bool)) :
    (∃ q, (s.tasks.erase child).lookup parent = some (.relocating q) ∧
      s.childDone child parent outcome = { s with
        tasks := (s.tasks.erase child).insert parent (.relocating (q.record child outcome)) }) ∨
    s.childDone child parent outcome = { s with tasks := s.tasks.erase child } := by
  unfold childDone
  dsimp only
  split
  · rename_i q hq
    exact .inl ⟨q, hq, rfl⟩
  · exact .inr rfl

theorem local_childDone (parent : Nat) (outcome : Except Error (Nat × Bool)) :
    Local K t s (s.childDone t parent outcome, []) := by
  rcases childDone_cases (s := s) t parent outcome with ⟨q, hq, heq⟩ | heq
  · have hne : parent ≠ t := by
      rintro rfl
      simp at hq
    rw [heq]
    refine ⟨rfl, fun _ => rfl, by simp, .inl rfl, fun pc h => ?_, fun i hi => ?_⟩
    · simp [AList.lookup_insert_ne hne.symm] at h
    · by_cases hip : i = parent
      · subst hip
        rw [AList.lookup_erase_ne hi] at hq
        obtain ⟨hseg, hcaller⟩ : (q.record t outcome).seg = q.seg ∧ (q.record t outcome).caller = q.caller := by
          cases outcome <;> exact ⟨rfl, rfl⟩
        exact .inr ⟨q, _, hq, AList.lookup_insert _, hseg, hcaller⟩
      · left
        simp only
        rw [AList.lookup_insert_ne hip, AList.lookup_erase_ne hi]
  · rw [heq]
    exact .erase rfl rfl rfl rfl (by simp)

theorem local_failCont (c : Cont) (e : Error) : Local c.kind t s (s.failCont t c e) := by
  cases c with
  | set _ _ _ _ isAppend => exact local_respond _ _ (setKind_ne_move isAppend) nofun
  | del => exact local_finish _ (by simp [Cont.kind]) nofun
  | setMany => exact local_finish _ (by simp [Cont.kind]) nofun
  | relocate parent => exact local_childDone ..

section

variable [H : Hashes]

theorem local_send (d : Durability) (c : Cont) (hK : c.kind = K) : Local K t s (s.send t d c) :=
  .insert rfl hK (by simp [Pc.entry]) rfl rfl rfl (by simp [send, Event.Silent])

theorem local_startAppend (d : Durability) (c : Cont) (hK : c.kind = K) :
    Local K t s (s.startAppend t d c) := by
  unfold startAppend
  split
  · exact .insert rfl hK (by simp [Pc.entry]) rfl rfl rfl (by simp [Event.Silent, hK])
  · exact (local_send d c hK).cons hK.symm

theorem local_beginSet (key value : Bytes) (d : Durability) (tenant : Nat) (diskLimit : Option Nat)
    (isAppend : Bool) : Local (setKind isAppend) t s
      (s.beginSet t key value d tenant diskLimit isAppend) := by
  unfold beginSet
  dsimp only
  split
  · exact local_respond _ _ (setKind_ne_move isAppend) nofun
  · exact (local_startAppend _ _ (by rfl)).of_same rfl (fun _ => rfl) (.inl rfl) rfl

theorem local_beginDel (key : Bytes) (d : Durability) : Local .del t s (s.beginDel t key d) := by
  unfold beginDel
  split
  · exact local_finish _ (by simp) nofun
  · exact (local_startAppend _ _ (by rfl)).of_same rfl (fun _ => rfl) (.inl rfl) rfl

theorem local_beginSetMany (pairs : List (Bytes × Bytes)) (d : Durability) :
    Local .setMany t s (s.beginSetMany t pairs d) := by
  unfold beginSetMany
  dsimp only
  split
  · exact local_finish _ (by simp) nofun
  · split
    · exact local_finish _ (by simp) nofun
    · split
      · exact (local_finish _ (by simp) (by simp [Res.isFreed])).of_same rfl (fun _ => rfl) (.inl rfl) rfl
      · split
        · exact (local_finish _ (by simp) (by simp [Res.isFreed])).of_same rfl (fun _ => rfl) (.inl rfl) rfl
        · exact (local_startAppend _ _ (by rfl)).of_same rfl (fun _ => rfl) (.inl rfl) rfl

theorem local_gotValue (key : Bytes) (tenant : Nat) (req : Option AppendReq) (v : Option Bytes) :
    Local (readKind req) t s (s.gotValue t key tenant req v) := by
  cases req with
  | none => exact local_finish _ (by simp [readKind]) nofun
  | some req => exact local_beginSet _ _ _ _ _ true

theorem local_beginGet (key : Bytes) (tenant : Nat) (req : Option AppendReq) :
    Local (readKind req) t s (s.beginGet t key tenant req) := by
  have hcache : ∀ k, ({ s with cache := (s.cache.get key).2 } : VLog).cache.peek k = s.cache.peek k :=
    fun k => S3Fifo.peek_get key k
  unfold beginGet
  dsimp only
  split
  · exact (local_gotValue ..).of_same rfl hcache (.inl rfl) rfl
  · split
    · exact (local_gotValue ..).of_same rfl hcache (.inl rfl) rfl
    · split
      · rename_i entry he _
        have hread : ∀ x ∈ (Pc.pread key tenant entry req).entry, s.index.lookup x.1 = some x.2 := by
          rintro _ ⟨⟩
          exact he
        exact (Local.insert (s := { s with cache := (s.cache.get key).2 }) rfl (by rfl) hread rfl rfl
          rfl (by simp)).of_same rfl hcache (.inl rfl) rfl
      · exact (local_respond _ _ (readKind_ne_move req) (by simp [Res.isFreed])).of_same rfl hcache (.inl rfl) rfl

theorem local_startCompaction (id : Nat) (caller : Caller) :
    Local .compact t s (s.startCompaction t id caller) :=
  .insert rfl rfl (by simp [Pc.entry]) rfl rfl rfl (by simp [startCompaction, Event.Silent])

theorem local_runTargets (targets : List (Nat × Nat)) (freed : Nat) :
    Local .compact t s (s.runTargets t targets freed) := by
  induction targets generalizing freed with
  | nil => exact local_finish _ (by simp) fun _ => rfl
  | cons p targets ih =>
    unfold runTargets
    split
    · exact ih _
    · exact local_startCompaction ..

theorem local_compactDone (id moved : Nat) (caller : Caller) :
    Local .compact t s (s.compactDone t id moved caller) := by
  cases caller with
  | direct => exact local_finish _ (by simp) fun _ => rfl
  | maybeCompact => exact local_finish _ (by simp) fun _ => rfl
  | reclaim => exact local_runTargets ..

theorem local_compactSegment (id : Nat) (caller : Caller) :
    Local .compact t s (s.compactSegment t id caller) := by
  unfold compactSegment
  split
  · exact local_compactDone ..
  · exact local_startCompaction ..

/-- Unlinking the source of a compaction, apart from the event that says so. -/
theorem local_unlinkSource (seg moved : Nat) (caller : Caller) :
    Local .compact t s ((s.unlinkSource t seg moved caller).1, (s.unlinkSource t seg moved caller).2.tail) :=
  (local_compactDone ..).of_same rfl (fun _ => rfl) (.inr rfl) rfl

theorem snapshot_unlinkSource (seg moved : Nat) (caller : Caller) :
    (s.unlinkSource t seg moved caller).1.snapshot = none :=
  (local_compactDone (t := t) seg moved caller).snapshot.elim id id

theorem local_runJob (job : Job) : Local job.kind t s (s.runJob t job) := by
  cases job with
  | append d c => exact local_send _ _ rfl
  | sealActive => exact local_runTargets ..

omit H in
theorem local_failJob (e : Error) (job : Job) : Local job.kind t s (s.failJob t e job) := by
  cases job with
  | append d c => exact local_failCont ..
  | sealActive => exact local_finish _ (by simp [Job.kind]) fun _ => rfl

theorem local_rotate (job : Job) : Local job.kind t s (s.rotate t job) := by
  unfold rotate
  split
  · exact local_runJob _
  · dsimp only
    split
    · exact local_failJob ..
    · split
      · exact local_failJob ..
      · exact .insert rfl rfl (by simp [Pc.entry]) rfl rfl rfl (by simp)

theorem local_activate (id : Nat) (job : Job) : Local job.kind t s ((s.activate id).runJob t job) :=
  (local_runJob job).of_same rfl (fun _ => rfl) (.inl rfl) rfl

theorem local_applyRelocate (dest offset parent seg srcOffset : Nat) (rec : Record) :
    Local .move t s (s.applyRelocate t dest offset parent seg srcOffset rec, []) := by
  unfold applyRelocate
  split
  · exact local_childDone ..
  · split
    · exact local_childDone ..
    · split
      · exact (local_childDone ..).of_same rfl (fun _ => rfl) (.inl rfl) rfl
      · exact local_childDone ..

end

end VLog

/-! ### Whole steps -/

/-- The values put into the cache by the events `ev`, over those of `m`. -/
def cached (ev : List Event) (m : Bytes → Option Bytes) : Bytes → Option Bytes :=
  ev.foldl (fun m e =>
    match e with
    | .applied key val _ _ => Function.update m key val
    | .filled key v => Function.update m key (some v)
    | _ => m) m

theorem cached_append (ev ev' : List Event) (m : Bytes → Option Bytes) :
    cached (ev ++ ev') m = cached ev' (cached ev m) := List.foldl_append

theorem cached_silent {K : Kind} {ev : List Event} (h : ∀ e ∈ ev, e.Silent K) (m : Bytes → Option Bytes) :
    cached ev m = m := by
  induction ev generalizing m with
  | nil => rfl
  | cons e ev ih =>
    have hrest := ih (fun e he => h e (List.mem_cons_of_mem _ he))
    have he := h e (List.mem_cons_self ..)
    cases e <;> first | exact hrest m | exact he.elim

/-- A map with fewer values stays one. -/
theorem cached_mono {m m' : Bytes → Option Bytes} (h : ∀ k v, m k = some v → m' k = some v)
    (ev : List Event) : ∀ k v, cached ev m k = some v → cached ev m' k = some v := by
  have hup : ∀ (m m' : Bytes → Option Bytes) (key : Bytes) (x : Option Bytes),
      (∀ k v, m k = some v → m' k = some v) →
      ∀ k v, Function.update m key x k = some v → Function.update m' key x k = some v := by
    intro m m' key x h k v hk
    by_cases hkk : k = key
    · subst hkk
      simpa using hk
    · simp only [Function.update_of_ne hkk] at hk ⊢
      exact h k v hk
  induction ev generalizing m m' with
  | nil => exact h
  | cons e ev ih =>
    cases e with
    | applied key val ts d => exact ih (hup m m' key val h)
    | filled key v => exact ih (hup m m' key (some v) h)
    | _ => exact ih h

namespace VLog

/-- A snapshot file, installed or being written. -/
def HasSnapshot (s : VLog) (sn : Snapshot) : Prop :=
  s.snapshot = some sn ∨ ∃ t, s.tasks.lookup t = some (.snapshotting sn)

/-- The snapshot `write_snapshot` takes. -/
def cutSnapshot (s : VLog) : Snapshot :=
  ⟨s.active.id, s.clock, s.index.entries.map fun p => (p.1, p.2)⟩

/-- The task an action runs; a new relocation for the one that starts it. -/
def Act.task : Act → Option Nat
  | .spawn t _ => some t
  | .resume t => some t
  | .relocate _ child => some child
  | .flush .. => none

/-- The kind of operation an action runs. -/
def Act.kind (s : VLog) : Act → Option Kind
  | .spawn _ op => some op.kind
  | .resume t => (s.tasks.lookup t).map Pc.kind
  | .relocate t _ => (s.tasks.lookup t).map fun _ => .move
  | .flush .. => none

/-- Events that only operations of some kinds emit, and only a step that starts an operation. -/
def KindOk (a : Act) (K : Option Kind) : Event → Prop
  | .spawned t op => a = .spawn t op
  | .began _ c => K = some c.kind
  | .unlinked _ => K = some .compact
  | .scanned .. => K = some .compact
  | .filled .. => K = some .get ∨ K = some .append
  | .cut _ => K = some .snapshot
  | .returned _ r => K ≠ some .move ∧ (r.isFreed = true → K = some .compact)
  | _ => True

theorem kindOk_of_silent {a : Act} {K : Kind} {e : Event} (h : e.Silent K) : KindOk a (some K) e := by
  cases e <;> first | exact trivial | exact h.elim | exact congrArg some h |
    exact ⟨fun hK => h.1 (Option.some.inj hK), fun hr => congrArg some (h.2 hr)⟩

/-- The action resumes a read of `k`, which finds the value `v`. -/
def Fills [H : Hashes] (s : VLog) (a : Act) (k v : Bytes) : Prop :=
  ∃ i tenant e req rec, a = .resume i ∧ s.tasks.lookup i = some (.pread k tenant e req) ∧
    decodeRecord ((s.segs e.segmentId).file.pread e.offset e.size) = .ok rec ∧ rec.value = v

/-- What holds of every step. -/
structure Frame [H : Hashes] (s : VLog) (a : Act) (s' : VLog) (ev : List Event) : Prop where
  cache : ∀ k v, s'.cache.peek k = some v → cached ev s.cache.peek k = some v
  snapshot : ∀ sn, s'.HasSnapshot sn → s.HasSnapshot sn ∨ .cut sn ∈ ev
  cut : ∀ sn, .cut sn ∈ ev → sn = s.cutSnapshot
  tasks : ∀ i, a.task ≠ some i → SameTask (s.tasks.lookup i) (s'.tasks.lookup i)
  kind : ∀ i pc, a.task = some i → s'.tasks.lookup i = some pc → a.kind s = some pc.kind
  read : ∀ i pc, a.task = some i → s'.tasks.lookup i = some pc →
    ∀ x ∈ pc.entry, s'.index.lookup x.1 = some x.2
  fill : ∀ k v, .filled k v ∈ ev → Fills s a k v
  unlinked : ∀ S, .unlinked S ∈ ev → s'.snapshot = none
  events : ∀ e ∈ ev, KindOk a (a.kind s) e

/-- The step applies a write that has been written at `o` of segment `S`. -/
structure Applies [H : Hashes] (s : VLog) (t S o : Nat) (d : Durability) (c : Cont) (s' : VLog)
    (ev : List Event) : Prop where
  lookup : s.tasks.lookup t = some (.commit S d c)
  ack : ∃ n, s.acks t = some (.ok (o, n))
  write : c.isWrite = true
  apply : { s with acks := Function.update s.acks t none }.applyCont t S o d c = some (s', ev)

theorem snapshotting_of_same {pc pc' : Option Pc} (h : SameTask pc pc') {sn : Snapshot}
    (hsn : pc' = some (.snapshotting sn)) : pc = some (.snapshotting sn) := by
  rcases h with rfl | ⟨q, q', _, rfl, _⟩
  · exact hsn
  · cases hsn

section

variable [H : Hashes] {K : Kind} {s s₁ : VLog} {a : Act} {t : Nat} {r : VLog × List Event}
  {ev : List Event}

/-- The frame of the step of one task that runs from `s₁`. -/
theorem frame_of_local (h : Local K t s₁ r) (ha : a.task = some t) (hkind : a.kind s = some K)
    (hK : K ≠ .snapshot)
    (htasks : ∀ i, i ≠ t → SameTask (s.tasks.lookup i) (s₁.tasks.lookup i))
    (hsnap : s₁.snapshot = s.snapshot)
    (hcache : ∀ k v, s₁.cache.peek k = some v → cached ev s.cache.peek k = some v)
    (hfill : ∀ k v, .filled k v ∈ ev → Fills s a k v)
    (hunlink : ∀ S, .unlinked S ∈ ev → r.1.snapshot = none)
    (hev : ∀ e ∈ ev, KindOk a (some K) e) : Frame s a r.1 ev := by
  have hsame : ∀ i, i ≠ t → SameTask (s.tasks.lookup i) (r.1.tasks.lookup i) := by
    intro i hi
    rcases h.tasks i hi with h1 | ⟨q, q', h1, h2⟩
    · rw [h1]
      exact htasks i hi
    · rcases htasks i hi with h3 | ⟨q₀, q₁, h3, h4, hseg, hcaller⟩
      · exact .inr ⟨q, q', h3 ▸ h1, h2⟩
      · rw [h1] at h4
        cases h4
        exact .inr ⟨q₀, q', h3, h2.1, h2.2.1.trans hseg, h2.2.2.trans hcaller⟩
  refine ⟨fun k v hk => hcache k v (by rw [← h.cache k]; exact hk), fun sn hsn => .inl ?_,
    fun sn hsn => absurd (Option.some.inj (hev _ hsn)) hK, fun i hi => hsame i ?_,
    fun i pc hi hpc => ?_, fun i pc hi hpc => ?_, hfill, hunlink, hkind ▸ hev⟩
  · rcases hsn with hsn | ⟨i, hi⟩
    · rcases h.snapshot with h1 | h1
      · exact .inl (by rw [← hsnap, ← h1, hsn])
      · rw [h1] at hsn
        cases hsn
    · by_cases hit : i = t
      · subst hit
        exact absurd (h.task _ hi).1.symm hK
      · exact .inr ⟨i, snapshotting_of_same (hsame i hit) hi⟩
  · rintro rfl
    exact hi ha
  · rw [ha] at hi
    cases hi
    rw [hkind, (h.task pc hpc).1]
  · rw [ha] at hi
    cases hi
    exact (h.task pc hpc).2

theorem frame_local (h : Local K t s r) (ha : a.task = some t) (hkind : a.kind s = some K)
    (hK : K ≠ .snapshot) : Frame s a r.1 r.2 :=
  frame_of_local h ha hkind hK (fun _ _ => .inl rfl) rfl
    (fun k v hk => by rwa [cached_silent h.silent]) (fun k v hf => (h.silent _ hf).elim)
    (fun S hS => (h.silent _ hS).elim) fun e he => kindOk_of_silent (h.silent e he)

omit H in
/-- A silent step of one task. -/
theorem quiet_of_local (h : Local K t s r) : r.1.tenantDisk = s.tenantDisk ∧ ∀ e ∈ r.2, e.Quiet :=
  ⟨h.disk, fun e he => (h.silent e he).quiet⟩

end

section

variable [H : Hashes] {s s' : VLog} {t : Nat} {ev : List Event}

theorem applyMembers_frame {seg : Nat} {d : Durability} {offset ts : Nat}
    {pairs : List (Bytes × Bytes)} (h : s.applyMembers seg d offset ts pairs = some (s', ev)) :
    s'.tasks = s.tasks ∧ s'.snapshot = s.snapshot ∧ (∀ e ∈ ev, ∃ k v ts, e = .applied k v ts d) ∧
      ∀ k v, s'.cache.peek k = some v → cached ev s.cache.peek k = some v := by
  induction pairs generalizing s offset ts ev with
  | nil =>
    cases h
    exact ⟨rfl, rfl, by simp, fun _ _ hk => hk⟩
  | cons p pairs ih =>
    rw [applyMembers] at h
    split at h
    · cases h
    · rename_i s₁ hone
      split at h
      · cases h
      · rename_i r hrest
        cases h
        obtain ⟨h1, h2, h3, h4⟩ := ih hrest
        simp only [applyMember, Option.map_eq_some_iff] at hone
        obtain ⟨cache, hcache, rfl⟩ := hone
        refine ⟨h1, h2, fun e he => ?_, fun k v hk => ?_⟩
        · rcases List.mem_cons.mp he with rfl | he
          · exact ⟨_, _, _, rfl⟩
          · exact h3 e he
        · exact cached_mono (fun k v hk => S3Fifo.update_of_peek_insertFor hcache hk) r.2 k v (h4 k v hk)

/-- A step that applies a write emits nothing but that and its answer. -/
theorem Applies.events {S o : Nat} {d : Durability} {c : Cont} (h : Applies s t S o d c s' ev) :
    ∀ e ∈ ev, (∃ k v ts, e = .applied k v ts d) ∨ ∃ r, e = .returned t r ∧ r.isFreed = false := by
  obtain ⟨_, _, hwrite, happly⟩ := h
  cases c with
  | set key value tenant prev isAppend ts =>
    simp only [applyCont, applySet] at happly
    split at happly
    · cases happly
    · cases happly
      cases isAppend <;> simp [respond, finish, Res.isFreed]
  | del key prev ts =>
    cases happly
    simp [finish, Res.isFreed]
  | setMany pairs ts =>
    simp only [applyCont] at happly
    split at happly
    · cases happly
    · rename_i r hr
      cases happly
      intro e he
      rcases List.mem_append.mp he with he | he
      · exact .inl ((applyMembers_frame hr).2.2.1 e he)
      · exact .inr ⟨_, List.mem_singleton.mp he, rfl⟩
  | relocate => cases hwrite

theorem Applies.frame {S o : Nat} {d : Durability} {c : Cont} (h : Applies s t S o d c s' ev) :
    Frame s (.resume t) s' ev := by
  have hevents := h.events
  obtain ⟨hl, _, hwrite, happly⟩ := h
  -- of the task nothing is left but its answer
  have hdone : s'.tasks = s.tasks.erase t → s'.snapshot = s.snapshot →
      (∀ k v, s'.cache.peek k = some v → cached ev s.cache.peek k = some v) →
      Frame s (.resume t) s' ev := by
    intro htasks hsnap hcache
    refine ⟨hcache, fun sn hsn => .inl ?_, fun sn hsn => ?_, fun i hi => .inl ?_,
      fun i pc hi hpc => ?_, fun i pc hi hpc => ?_, fun k v hf => ?_, fun S hS => ?_, fun e he => ?_⟩
    · rcases hsn with hsn | ⟨i, hi⟩
      · exact .inl (hsnap ▸ hsn)
      · rw [htasks] at hi
        by_cases hit : i = t
        · subst hit
          simp at hi
        · exact .inr ⟨i, by rwa [AList.lookup_erase_ne hit] at hi⟩
    · rcases hevents _ hsn with ⟨_, _, _, he⟩ | ⟨_, he, _⟩ <;> cases he
    · have hit : i ≠ t := by
        rintro rfl
        exact hi rfl
      rw [htasks, AList.lookup_erase_ne hit]
    · cases hi
      rw [htasks, AList.lookup_erase] at hpc
      cases hpc
    · cases hi
      rw [htasks, AList.lookup_erase] at hpc
      cases hpc
    · rcases hevents _ hf with ⟨_, _, _, he⟩ | ⟨_, he, _⟩ <;> cases he
    · rcases hevents _ hS with ⟨_, _, _, he⟩ | ⟨_, he, _⟩ <;> cases he
    · rcases hevents e he with ⟨_, _, _, rfl⟩ | ⟨_, rfl, hfreed⟩
      · exact trivial
      · simp only [KindOk, Act.kind, hl, Option.map_some, Pc.kind, ne_eq, Option.some.injEq, hfreed]
        exact ⟨Cont.kind_ne_move hwrite, nofun⟩
  cases c with
  | set key value tenant prev isAppend ts =>
    simp only [applyCont, applySet] at happly
    split at happly
    · cases happly
    · rename_i cache hcache
      cases happly
      exact hdone rfl rfl fun k v hk => S3Fifo.update_of_peek_insertFor hcache hk
  | del key prev ts =>
    cases happly
    refine hdone rfl rfl fun k v hk => ?_
    change Function.update s.cache.peek key none k = some v
    replace hk : (s.cache.remove key).peek k = some v := hk
    rw [S3Fifo.peek_remove] at hk
    split at hk
    · cases hk
    · rename_i hkk
      rwa [Function.update_of_ne hkk]
  | setMany pairs ts =>
    simp only [applyCont] at happly
    split at happly
    · cases happly
    · rename_i r hr
      cases happly
      obtain ⟨h1, h2, _, h4⟩ := applyMembers_frame hr
      refine hdone (by simp [finish, h1]) h2 fun k v hk => ?_
      have hsilent : ∀ e ∈ (r.1.finish t (.ok .unit)).2, e.Silent .setMany := by
        simp [finish, Event.Silent, Res.isFreed]
      rw [cached_append, cached_silent hsilent]
      exact h4 k v hk
  | relocate => cases hwrite

/-- A step applies a write, or leaves the counters alone and applies nothing. -/
def Applying (s : VLog) (a : Act) (s' : VLog) (ev : List Event) : Prop :=
  (∃ t S o d c, a = .resume t ∧ Applies s t S o d c s' ev) ∨
    s'.tenantDisk = s.tenantDisk ∧ ∀ e ∈ ev, e.Quiet

theorem frame_endGet {key : Bytes} {tenant : Nat} {entry : IndexEntry} {req : Option AppendReq}
    (hl : s.tasks.lookup t = some (.pread key tenant entry req))
    (h : s.endGet t key tenant entry req = some (s', ev)) :
    Frame s (.resume t) s' ev ∧ s'.tenantDisk = s.tenantDisk ∧ ∀ e ∈ ev, e.Quiet := by
  have hkind : Act.kind s (.resume t) = some (readKind req) := by simp [Act.kind, hl, Pc.kind]
  have hK : readKind req = .get ∨ readKind req = .append := by cases req <;> simp [readKind]
  unfold endGet at h
  split at h
  · rename_i e _
    cases h
    have hloc : Local (readKind req) t s (s.respond t req.isSome (.error e)) :=
      local_respond _ _ (readKind_ne_move req) nofun
    exact ⟨frame_local hloc rfl hkind (readKind_ne_snapshot req), quiet_of_local hloc⟩
  · split at h
    · cases h
    · rename_i rec _ _ cache hcache
      cases h
      have hloc := local_gotValue (s := { s with cache := cache }) (t := t) key tenant req
        (some rec.value)
      refine ⟨frame_of_local hloc rfl hkind (readKind_ne_snapshot req) (fun _ _ => .inl rfl) rfl
        (fun k v hk => ?_) (fun k v hf => ?_) (fun S hS => ?_) (fun e he => ?_), hloc.disk, fun e he => ?_⟩
      · change cached _ (Function.update s.cache.peek key (some rec.value)) k = some v
        rw [cached_silent hloc.silent]
        exact S3Fifo.update_of_peek_insertFor hcache hk
      · rcases List.mem_cons.mp hf with hf | hf
        · cases hf
          exact ⟨t, tenant, entry, req, rec, rfl, hl, ‹_›, rfl⟩
        · exact (hloc.silent _ hf).elim
      · rcases List.mem_cons.mp hS with hS | hS
        · cases hS
        · exact (hloc.silent _ hS).elim
      · rcases List.mem_cons.mp he with rfl | he
        · exact hK.imp (congrArg some) (congrArg some)
        · exact kindOk_of_silent (hloc.silent e he)
      · rcases List.mem_cons.mp he with rfl | he
        · exact trivial
        · exact (hloc.silent e he).quiet

theorem resume_cases {pc : Pc} (hl : s.tasks.lookup t = some pc)
    (h : s.resume t pc = some (s', ev)) :
    Frame s (.resume t) s' ev ∧ Applying s (.resume t) s' ev := by
  have hlocal : pc.kind ≠ .snapshot → ∀ r : VLog × List Event, Local pc.kind t s r → r = (s', ev) →
      Frame s (.resume t) s' ev ∧ Applying s (.resume t) s' ev := by
    rintro hK r hr rfl
    exact ⟨frame_local hr rfl (by simp [Act.kind, hl]) hK, .inr (quiet_of_local hr)⟩
  cases pc with
  | appendLock key tenant req =>
    simp only [resume] at h
    split at h
    · cases h
    · refine hlocal (by simp [Pc.kind]) _ ?_ (Option.some.inj h)
      exact (local_beginGet _ _ (some req)).of_same rfl (fun _ => rfl) (.inl rfl) rfl
  | pread key tenant entry req => exact ⟨(frame_endGet hl h).1, .inr (frame_endGet hl h).2⟩
  | lockWait job =>
    simp only [resume] at h
    split at h
    · cases h
    · exact hlocal job.kind_ne_snapshot _ (local_rotate job) (Option.some.inj h)
  | starting id job =>
    exact hlocal job.kind_ne_snapshot _ (local_activate id job) (Option.some.inj h)
  | commit S d c =>
    simp only [resume] at h
    split at h
    · cases h
    · refine hlocal c.kind_ne_snapshot _ ?_ (Option.some.inj h)
      exact (local_failCont ..).of_same rfl (fun _ => rfl) (.inl rfl) rfl
    · rename_i o n hack
      by_cases hw : c.isWrite = true
      · have happ : Applies s t S o d c s' ev := ⟨hl, ⟨n, hack⟩, hw, h⟩
        exact ⟨happ.frame, .inl ⟨t, S, o, d, c, rfl, happ⟩⟩
      · cases c with
        | relocate =>
          refine hlocal (by simp [Pc.kind, Cont.kind]) _ ?_ (Option.some.inj h)
          exact (local_applyRelocate ..).of_same rfl (fun _ => rfl) (.inl rfl) rfl
        | _ => exact absurd rfl hw
  | relocating q =>
    simp only [resume] at h
    split at h
    · split at h
      · exact hlocal (by simp [Pc.kind]) _ (local_finish _ (by simp [Pc.kind]) (fun _ => rfl)) (Option.some.inj h)
      · refine hlocal (by simp [Pc.kind]) _ ?_ (Option.some.inj h)
        exact .insert rfl (by rfl) (by simp [Pc.entry]) rfl rfl rfl (by simp)
    · cases h
  | syncing seg dests moved caller =>
    cases dests with
    | nil =>
      obtain ⟨rfl, rfl⟩ : (s.unlinkSource t seg moved caller).1 = s' ∧ (s.unlinkSource t seg moved caller).2 = ev :=
        Prod.mk.inj (Option.some.inj h)
      have hloc := local_unlinkSource (s := s) (t := t) seg moved caller
      have hkind : Act.kind s (.resume t) = some .compact := by simp [Act.kind, hl, Pc.kind]
      refine ⟨frame_of_local (r := (_, (s.unlinkSource t seg moved caller).2.tail)) hloc rfl hkind (by simp)
        (fun _ _ => .inl rfl) rfl (fun k v hk => ?_) (fun k v hf => ?_) (fun _ _ => snapshot_unlinkSource ..)
        fun e he => ?_, .inr ⟨hloc.disk, fun e he => ?_⟩⟩
      · change cached (s.unlinkSource t seg moved caller).2.tail s.cache.peek k = some v
        rwa [cached_silent hloc.silent]
      · rcases List.mem_cons.mp hf with hf | hf
        · cases hf
        · exact (hloc.silent _ hf).elim
      · rcases List.mem_cons.mp he with rfl | he
        · rfl
        · exact kindOk_of_silent (hloc.silent e he)
      · rcases List.mem_cons.mp he with rfl | he
        · trivial
        · exact (hloc.silent e he).quiet
    | cons d dests =>
      refine hlocal (by simp [Pc.kind]) _ ?_ (Option.some.inj h)
      exact .insert rfl (by rfl) (by simp [Pc.entry]) rfl rfl rfl (by simp)
  | snapshotting sn =>
    cases h
    refine ⟨⟨fun k v hk => hk, fun sn' hsn => .inl ?_, by simp, fun i hi => .inl ?_,
      fun i pc hi hpc => ?_, fun i pc hi hpc => ?_, by simp, by simp,
      by simp [KindOk, Act.kind, hl, Pc.kind, Res.isFreed]⟩, .inr ⟨rfl, by simp [Event.Quiet]⟩⟩
    · rcases hsn with hsn | ⟨i, hi⟩
      · cases hsn
        exact .inr ⟨t, hl⟩
      · by_cases hit : i = t
        · subst hit
          simp at hi
        · exact .inr ⟨i, by simpa [hit] using hi⟩
    · have hit : i ≠ t := by
        rintro rfl
        exact hi rfl
      simp [hit]
    · cases hi
      simp at hpc
    · cases hi
      simp at hpc

theorem spawn_cases (op : Op) : Frame s (.spawn t op) (s.spawn t op).1 (.spawned t op :: (s.spawn t op).2) ∧
    (s.spawn t op).1.tenantDisk = s.tenantDisk ∧ ∀ e ∈ (s.spawn t op).2, e.Quiet := by
  have hlocal : op.kind ≠ .snapshot → ∀ r : VLog × List Event, Local op.kind t s r →
      Frame s (.spawn t op) r.1 (.spawned t op :: r.2) ∧ r.1.tenantDisk = s.tenantDisk ∧
        ∀ e ∈ r.2, e.Quiet := by
    intro hK r hr
    refine ⟨frame_of_local hr rfl rfl hK (fun _ _ => .inl rfl) rfl (fun k v hk => ?_) (fun k v hf => ?_)
      (fun S hS => ?_) fun e he => ?_, quiet_of_local hr⟩
    · change cached r.2 s.cache.peek k = some v
      rwa [cached_silent hr.silent]
    · rcases List.mem_cons.mp hf with hf | hf
      · cases hf
      · exact (hr.silent _ hf).elim
    · rcases List.mem_cons.mp hS with hS | hS
      · cases hS
      · exact (hr.silent _ hS).elim
    · rcases List.mem_cons.mp he with rfl | he
      · rfl
      · exact kindOk_of_silent (hr.silent e he)
  cases op with
  | get => exact hlocal (by simp [Op.kind]) _ (local_beginGet _ _ none)
  | set => exact hlocal (by simp [Op.kind]) _ (local_beginSet _ _ _ _ _ false)
  | append =>
    exact hlocal (by simp [Op.kind]) _
      (.insert rfl (by rfl) (by simp [Pc.entry]) rfl rfl rfl (by simp [spawn]))
  | setMany => exact hlocal (by simp [Op.kind]) _ (local_beginSetMany ..)
  | del => exact hlocal (by simp [Op.kind]) _ (local_beginDel ..)
  | compactSegment => exact hlocal (by simp [Op.kind]) _ (local_compactSegment ..)
  | maybeCompact =>
    refine hlocal (by simp [Op.kind]) _ ?_
    simp only [spawn]
    split
    · exact local_compactSegment ..
    · exact local_finish _ (by simp [Op.kind]) fun _ => rfl
  | reclaimAllDead =>
    refine hlocal (by simp [Op.kind]) _ ?_
    simp only [spawn]
    split
    · exact .insert rfl (by rfl) (by simp [Pc.entry]) rfl rfl rfl (by simp)
    · exact local_runJob .sealActive
  | writeSnapshot =>
    refine ⟨⟨fun k v hk => hk, fun sn hsn => ?_, ?_, fun i hi => .inl ?_, fun i pc hi hpc => ?_,
      fun i pc hi hpc => ?_, by simp [spawn], by simp [spawn], by simp [spawn, KindOk, Act.kind, Op.kind]⟩, rfl,
      by simp [spawn, Event.Quiet]⟩
    · rcases hsn with hsn | ⟨i, hi⟩
      · exact .inl (.inl hsn)
      · by_cases hit : i = t
        · subst hit
          simp only [spawn, setTask, AList.lookup_insert, Option.some.injEq,
            Pc.snapshotting.injEq] at hi
          exact .inr (by simp [spawn, hi])
        · exact .inl (.inr ⟨i, by simpa [spawn, setTask, hit] using hi⟩)
    · intro sn hsn
      simpa [spawn, cutSnapshot] using hsn
    · have hit : i ≠ t := by
        rintro rfl
        exact hi rfl
      simp [spawn, setTask, hit]
    · cases hi
      simp only [spawn, setTask, AList.lookup_insert, Option.some.injEq] at hpc
      rw [← hpc]
      rfl
    · cases hi
      simp only [spawn, setTask, AList.lookup_insert, Option.some.injEq] at hpc
      simp [← hpc, Pc.entry]

theorem relocateNext_cases {child : Nat} {q : Relocation} (hl : s.tasks.lookup t = some (.relocating q))
    (hnew : s.tasks.lookup child = none)
    (h : s.relocateNext t child q = some (s', ev)) :
    Frame s (.relocate t child) s' ev ∧ s'.tenantDisk = s.tenantDisk ∧ ∀ e ∈ ev, e.Quiet := by
  have hne : child ≠ t := by
    rintro rfl
    rw [hl] at hnew
    cases hnew
  have hkind : Act.kind s (.relocate t child) = some .move := by simp [Act.kind, hl]
  have hset : ∀ todo running i, SameTask (s.tasks.lookup i)
      ((s.setTask t (.relocating { q with todo := todo, running := running })).tasks.lookup i) := by
    intro todo running i
    by_cases hit : i = t
    · subst hit
      exact .inr ⟨q, _, hl, AList.lookup_insert _, rfl, rfl⟩
    · exact .inl (AList.lookup_insert_ne hit)
  unfold relocateNext at h
  split at h
  · cases h
  · rename_i offset rec todo _
    by_cases hcur : s.isCurrent q.seg offset rec = true
    · rw [if_pos hcur] at h
      have hloc := local_startAppend (s := s.setTask t (.relocating { q with
        todo := todo, running := q.running ++ [child] })) (t := child) .relaxed
        (.relocate t q.seg offset rec) rfl
      rw [Option.some.inj h] at hloc
      exact ⟨frame_of_local hloc rfl hkind (by simp [Cont.kind]) (fun i _ => hset _ _ i) rfl
        (fun k v hk => by rwa [cached_silent hloc.silent]) (fun k v hf => (hloc.silent _ hf).elim)
        (fun S hS => (hloc.silent _ hS).elim) fun e he => kindOk_of_silent (hloc.silent e he), hloc.disk,
        fun e he => (hloc.silent e he).quiet⟩
    · rw [if_neg hcur] at h
      cases h
      refine ⟨⟨fun k v hk => hk, fun sn hsn => .inl ?_, by simp, fun i _ => hset _ _ i,
        fun i pc hi hpc => ?_, fun i pc hi hpc => ?_, by simp, by simp, by simp⟩, rfl, by simp⟩
      · rcases hsn with hsn | ⟨i, hi⟩
        · exact .inl hsn
        · exact .inr ⟨i, snapshotting_of_same (hset _ _ i) hi⟩
      · cases hi
        simp [setTask, AList.lookup_insert_ne hne, hnew] at hpc
      · cases hi
        simp [setTask, AList.lookup_insert_ne hne, hnew] at hpc

theorem step_cases {a : Act} (h : s.step a = some (s', ev)) :
    Frame s a s' ev ∧ Applying s a s' ev := by
  obtain ⟨hraw, _⟩ : s.stepRaw a = some (s', ev) ∧ s'.clock ≤ 2 ^ 64 := by
    simpa [step, Option.filter_eq_some_iff] using h
  cases a with
  | spawn t op =>
    simp only [stepRaw] at hraw
    split at hraw
    · cases hraw
    · cases hraw
      obtain ⟨h1, h2, h3⟩ := spawn_cases (s := s) (t := t) op
      refine ⟨h1, .inr ⟨h2, fun e he => ?_⟩⟩
      rcases List.mem_cons.mp he with rfl | he
      · exact trivial
      · exact h3 e he
  | resume t =>
    obtain ⟨pc, hl, hr⟩ := Option.bind_eq_some_iff.mp hraw
    exact resume_cases hl hr
  | relocate t child =>
    simp only [stepRaw] at hraw
    split at hraw
    · rename_i q hl
      split at hraw
      · cases hraw
      · rename_i hfree
        rw [not_or, Option.not_isSome_iff_eq_none] at hfree
        obtain ⟨h1, h2⟩ := relocateNext_cases hl hfree.1 hraw
        exact ⟨h1, .inr h2⟩
    · cases hraw
  | flush S n io =>
    simp only [stepRaw, flush] at hraw
    split at hraw
    · cases hraw
      exact ⟨⟨fun k v hk => hk, fun sn hsn => .inl hsn, by simp, fun i _ => .inl rfl,
        by simp [Act.task], by simp [Act.task], by simp, by simp, by simp⟩,
        .inr ⟨rfl, by simp⟩⟩
    · cases hraw

end

end VLog

end Skeg
