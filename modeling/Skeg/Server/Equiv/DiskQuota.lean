import Skeg.Core.Equiv.TenantDisk
import Skeg.Server.Equiv.Isolation

/-!
# The disk quota of a tenant

A SET or an APPEND of a tenant with a limit is checked against the counter of the tenant when it begins, and charged when
it takes effect, after it has waited for the committer.  `Fits` says of a write in between that it still passes its check.
As long as a tenant writes with SET, APPEND and DEL only, and no two of its SETs and APPENDs are between check and effect
at the same time, the counter stays within the limit (`disk_quota_kept`): the write that takes effect is the one whose
check saw the counter.

The other commands are not checked: MSET and the INCR family write whatever the counter says (`quota_exceeded`).
-/

namespace Skeg.Server

open VLog (Act)
open Transition (Run exists_run_of_exec)

/-! ### The requests of a command -/

/-- The handler may hand the request to a shard. -/
def Prog.Issues (req : KvReq) {α : Type} : Prog α → Prop
  | .ret _ => False
  | .call _ req' k => req' = req ∨ ∃ r, (k r).Issues req

theorem Prog.issues_bind {req : KvReq} {α β : Type} {p : Prog α} {f : α → Prog β} (h : (p >>= f).Issues req) :
    p.Issues req ∨ ∃ a, (f a).Issues req := by
  induction p with
  | ret a => exact .inr ⟨a, h⟩
  | call shard req' k ih =>
    rcases h with h | ⟨r, h⟩
    · exact .inl (.inl h)
    · exact (ih r h).imp (fun h => .inr ⟨r, h⟩) id

/-- The commands that are checked against the limit, or free space. -/
def Command.isChecked : Command → Bool
  | .set .. | .append .. | .del _ => true
  | .get _ | .exists_ _ | .mget _ | .mset _ | .incr _ | .decr _ | .incrBy .. | .decrBy .. => false

/-- The request is checked against the limit `L`, or writes nothing. -/
def KvReq.Checked (L : Nat) : KvReq → Prop
  | .set _ _ _ _ limit | .append _ _ _ _ limit => limit = some L
  | .setMany .. => False
  | .get .. | .del .. => True

section

variable [H : Hashes] {n L : Nat} {tenant : TenantId} {be : TenantBackend} {req : KvReq}

theorem ShardTenantView.set_issues {v : ShardTenantView} {key value : Bytes} {d : Durability}
    (h : (v.set key value d).Issues req) : req = .set key value d v.tenant v.diskLimit := by
  rcases h with h | ⟨r, h⟩
  · exact h.symm
  · cases r <;> exact h.elim

theorem ShardTenantView.append_issues {v : ShardTenantView} {key value : Bytes} {d : Durability}
    (h : (v.append key value d).Issues req) : req = .append key value d v.tenant v.diskLimit := by
  rcases h with h | ⟨r, h⟩
  · exact h.symm
  · cases r <;> exact h.elim

theorem ShardSet.del_issues {key : Bytes} {d : Durability} (h : (ShardSet.del n key d).Issues req) :
    req = .del key d := by
  rcases h with h | ⟨r, h⟩
  · exact h.symm
  · cases r <;> exact h.elim

theorem delLoop_issues {keys : List Bytes} {count : Int} (h : (delLoop n tenant keys count).Issues req) :
    ∃ key d, req = .del key d := by
  induction keys generalizing count with
  | nil => exact h.elim
  | cons key keys ih =>
    rcases Prog.issues_bind h with h | ⟨r, h⟩
    · exact ⟨_, _, ShardSet.del_issues h⟩
    · rcases r with e | b
      · exact h.elim
      · cases b with
        | true => exact ih h
        | false => exact ih h

/-- The requests of the checked commands are. -/
theorem checked_of_issues (hlimit : be.maxDiskBytes tenant = some L) {cmd : Command} (hcmd : cmd.isChecked = true)
    (h : (dispatchCommand n tenant (some be) cmd).Issues req) : req.Checked L := by
  cases cmd with
  | set key value =>
    simp only [dispatchCommand, kvSet] at h
    split at h
    · exact h.elim
    · rcases Prog.issues_bind h with h | ⟨r, h⟩
      · rw [ShardTenantView.set_issues h]
        exact hlimit
      · cases r <;> exact h.elim
  | append key value =>
    simp only [dispatchCommand, kvAppend] at h
    split at h
    · exact h.elim
    · rcases Prog.issues_bind h with h | ⟨r, h⟩
      · rw [ShardTenantView.append_issues h]
        exact hlimit
      · cases r <;> exact h.elim
  | del keys =>
    simp only [dispatchCommand, kvDel] at h
    split_ifs at h
    · exact h.elim
    · exact h.elim
    · obtain ⟨key, d, rfl⟩ := delLoop_issues h
      trivial
  | _ => cases hcmd

end

/-! ### Writes between check and effect -/

/-- The append a task is in. -/
def cont : Pc → Option Cont
  | .lockWait (.append _ c) | .starting _ (.append _ c) | .commit _ _ c => some c
  | _ => none

/-- The write charges tenant `t`. -/
def Charges (t : Nat) : Cont → Prop
  | .set key _ _ _ _ _ => tenantFromKey key = t
  | .setMany pairs _ => ∃ p ∈ pairs, tenantFromKey p.1 = t
  | .del .. | .relocate .. => False

/-- No two writes that charge `t` are between check and effect. -/
def Apart (t : Nat) (s : VLog) : Prop :=
  ∀ i j pc pc' c c', s.tasks.lookup i = some pc → s.tasks.lookup j = some pc' → cont pc = some c →
    cont pc' = some c' → Charges t c → Charges t c' → i = j

/-- The bytes of `t` once the write has taken effect are within `L`, when they are `u` before. -/
def Fits (t L u : Nat) : Cont → Prop
  | .set key value _ prev _ _ => tenantFromKey key = t →
      u - prev.elim 0 IndexEntry.size + paddedRecordSize key.length value.length ≤ L
  | .setMany pairs _ => ∀ p ∈ pairs, tenantFromKey p.1 ≠ t
  | .del .. | .relocate .. => True

/-- The task is in a write that fits, or will append under the limit. -/
def Within (t L u : Nat) : Pc → Prop
  | .appendLock key _ req | .pread key _ _ (some req) => tenantFromKey key = t → req.diskLimit = some L
  | .pread _ _ _ none => True
  | .lockWait (.append _ c) | .starting _ (.append _ c) | .commit _ _ c => Fits t L u c
  | .lockWait .sealActive | .starting _ .sealActive | .relocating _ | .syncing .. | .snapshotting _ => True

section

variable {t L u u' : Nat} {pc : Pc} {c : Cont}

theorem Fits.mono (h : Fits t L u c) (hu : u' ≤ u) : Fits t L u' c := by
  cases c with
  | set key value tenant prev isAppend ts =>
    intro hkey
    have := h hkey
    omega
  | _ => exact h

theorem fits_of_not_charges (h : Fits t L u c) (hc : ¬ Charges t c) : Fits t L u' c := by
  cases c with
  | set key value tenant prev isAppend ts => exact fun hkey => absurd hkey hc
  | _ => exact h

/-- A task is affected by the bytes of `t` only through its append. -/
theorem Within.of_fits (h : Within t L u pc) (hcont : ∀ c, cont pc = some c → Fits t L u c → Fits t L u' c) :
    Within t L u' pc := by
  cases pc with
  | appendLock => exact h
  | pread key tenant e req => cases req <;> exact h
  | lockWait job =>
    cases job with
    | append d c => exact hcont c rfl h
    | sealActive => trivial
  | starting id job =>
    cases job with
    | append d c => exact hcont c rfl h
    | sealActive => trivial
  | commit S d c => exact hcont c rfl h
  | _ => trivial

/-- Only writes of values are charged. -/
theorem within_of_kind (h : pc.kind ≠ .set ∧ pc.kind ≠ .append ∧ pc.kind ≠ .setMany) : Within t L u pc := by
  have hfits : ∀ c : Cont, c.kind ≠ .set ∧ c.kind ≠ .append ∧ c.kind ≠ .setMany → Fits t L u c := by
    intro c hc
    cases c with
    | set _ _ _ _ isAppend => cases isAppend <;> simp [Cont.kind, setKind] at hc
    | setMany => simp [Cont.kind] at hc
    | del => trivial
    | relocate => trivial
  cases pc with
  | appendLock => simp [Pc.kind] at h
  | pread key tenant e req =>
    cases req with
    | none => trivial
    | some req => simp [Pc.kind, readKind] at h
  | lockWait job =>
    cases job with
    | append d c => exact hfits c h
    | sealActive => trivial
  | starting id job =>
    cases job with
    | append d c => exact hfits c h
    | sealActive => trivial
  | commit S d c => exact hfits c h
  | _ => trivial

end

/-! ### What a step leaves in flight -/

section

variable [H : Hashes] {s s' : VLog} {i t L u : Nat} {ev : List Event}

/-- Whatever the task `i` does next, it is within the limit. -/
def Leaves (t L u i : Nat) (s : VLog) : Prop := ∀ pc, s.tasks.lookup i = some pc → Within t L u pc

omit H in
theorem leaves_of_none (h : s.tasks.lookup i = none) : Leaves t L u i s := by
  intro pc hpc
  rw [h] at hpc
  cases hpc

omit H in
theorem leaves_of_insert {tasks : AList fun _ : Nat => Pc} {pc : Pc} (h : s.tasks = tasks.insert i pc)
    (hpc : Within t L u pc) : Leaves t L u i s := by
  intro pc' h'
  rw [h, AList.lookup_insert] at h'
  exact Option.some.inj h' ▸ hpc

omit H in
theorem leaves_finish (r : Res) : Leaves t L u i (s.finish i r).1 := leaves_of_none (AList.lookup_erase _ _)

omit H in
theorem leaves_respond (isAppend : Bool) (r : Res) : Leaves t L u i (s.respond i isAppend r).1 :=
  leaves_of_none (AList.lookup_erase _ _)

theorem leaves_send {d : Durability} {c : Cont} (hc : Fits t L u c) : Leaves t L u i (s.send i d c).1 :=
  leaves_of_insert rfl hc

theorem leaves_startAppend {d : Durability} {c : Cont} (hc : Fits t L u c) : Leaves t L u i (s.startAppend i d c).1 := by
  unfold VLog.startAppend
  split
  · exact leaves_of_insert rfl hc
  · exact leaves_send hc

/-- A set that has passed its check fits. -/
theorem leaves_beginSet (hu : u = s.tenantDiskBytes t) {key : Bytes} {diskLimit : Option Nat}
    (hlimit : tenantFromKey key = t → diskLimit = some L) (value : Bytes) (d : Durability) (tenant : Nat)
    (isAppend : Bool) : Leaves t L u i (s.beginSet i key value d tenant diskLimit isAppend).1 := by
  unfold VLog.beginSet
  dsimp only
  split
  · exact leaves_respond _ _
  · rename_i hcheck
    refine leaves_startAppend fun hkey => ?_
    rw [hlimit hkey, hkey, ← hu] at hcheck
    simpa using hcheck

theorem leaves_beginSetMany {pairs : List (Bytes × Bytes)} (hpairs : ∀ p ∈ pairs, tenantFromKey p.1 ≠ t)
    (d : Durability) : Leaves t L u i (s.beginSetMany i pairs d).1 := by
  unfold VLog.beginSetMany
  dsimp only
  split_ifs
  · exact leaves_finish _
  · exact leaves_finish _
  · exact leaves_finish _
  · exact leaves_finish _
  · exact leaves_startAppend hpairs

theorem leaves_gotValue (hu : u = s.tenantDiskBytes t) {key : Bytes} {req : AppendReq}
    (hreq : tenantFromKey key = t → req.diskLimit = some L) (tenant : Nat) (v : Option Bytes) :
    Leaves t L u i (s.gotValue i key tenant (some req) v).1 := leaves_beginSet hu hreq _ _ _ _

theorem leaves_beginGet (hu : u = s.tenantDiskBytes t) {key : Bytes} {req : AppendReq}
    (hreq : tenantFromKey key = t → req.diskLimit = some L) (tenant : Nat) :
    Leaves t L u i (s.beginGet i key tenant (some req)).1 := by
  have hcache : u = ({ s with cache := (s.cache.get key).2 } : VLog).tenantDiskBytes t := hu
  unfold VLog.beginGet
  dsimp only
  split
  · exact leaves_gotValue hcache hreq _ _
  · split
    · exact leaves_gotValue hcache hreq _ _
    · split
      · exact leaves_of_insert rfl hreq
      · exact leaves_respond _ _

theorem leaves_endGet (hu : u = s.tenantDiskBytes t) {key : Bytes} {req : AppendReq}
    (hreq : tenantFromKey key = t → req.diskLimit = some L) {tenant : Nat} {entry : IndexEntry} {r : VLog × List Event}
    (hr : s.endGet i key tenant entry (some req) = some r) : Leaves t L u i r.1 := by
  unfold VLog.endGet at hr
  split at hr
  · cases hr
    exact leaves_respond _ _
  · rename_i rec _
    split at hr
    · cases hr
    · rename_i cache _
      cases hr
      have hcache : u = ({ s with cache := cache } : VLog).tenantDiskBytes t := hu
      exact leaves_gotValue hcache hreq tenant (some rec.value)

omit H in
theorem leaves_failCont {c : Cont} (hc : c.isWrite = true) (e : Error) : Leaves t L u i (s.failCont i c e).1 := by
  cases c with
  | set => exact leaves_respond _ _
  | del => exact leaves_finish _
  | setMany => exact leaves_finish _
  | relocate => cases hc

theorem leaves_rotate {d : Durability} {c : Cont} (hwrite : c.isWrite = true) (hc : Fits t L u c) :
    Leaves t L u i (s.rotate i (.append d c)).1 := by
  unfold VLog.rotate
  split
  · exact leaves_send hc
  · dsimp only
    split
    · exact leaves_failCont hwrite _
    · split
      · exact leaves_failCont hwrite _
      · exact leaves_of_insert rfl hc

/-- A write that takes effect is done. -/
theorem lookup_applyCont {S o : Nat} {d : Durability} {c : Cont} (hwrite : c.isWrite = true) {r : VLog × List Event}
    (hr : s.applyCont i S o d c = some r) : r.1.tasks.lookup i = none := by
  cases c with
  | set key value tenant prev isAppend ts =>
    simp only [VLog.applyCont, VLog.applySet] at hr
    split at hr
    · cases hr
    · cases hr
      exact AList.lookup_erase _ _
  | del key prev ts =>
    cases hr
    exact AList.lookup_erase _ _
  | setMany pairs ts =>
    simp only [VLog.applyCont] at hr
    split at hr
    · cases hr
    · cases hr
      exact AList.lookup_erase _ _
  | relocate => cases hwrite

/-- The limit with which an operation may be started. -/
def Limited (t L : Nat) : Op → Prop
  | .set key _ _ _ limit | .append key _ _ _ limit => tenantFromKey key = t → limit = some L
  | .setMany pairs _ => ∀ p ∈ pairs, tenantFromKey p.1 ≠ t
  | _ => True

/-- A task of one of the kinds that charge a tenant goes on. -/
theorem leaves_resume (hu : u = s.tenantDiskBytes t) {pc : Pc} (hpc : Within t L u pc)
    (hkind : pc.kind = .set ∨ pc.kind = .append ∨ pc.kind = .setMany) {r : VLog × List Event}
    (hr : s.resume i pc = some r) : Leaves t L u i r.1 := by
  have hwrite : ∀ c : Cont, c.kind = .set ∨ c.kind = .append ∨ c.kind = .setMany → c.isWrite = true := by
    intro c hc
    cases c with
    | relocate => simp [Cont.kind] at hc
    | _ => rfl
  cases pc with
  | appendLock key tenant req =>
    simp only [VLog.resume] at hr
    split at hr
    · cases hr
    · cases hr
      have hlock : u = ({ s with appendLock := some i } : VLog).tenantDiskBytes t := hu
      exact leaves_beginGet hlock hpc tenant
  | pread key tenant entry req =>
    cases req with
    | none => simp [Pc.kind, readKind] at hkind
    | some req => exact leaves_endGet hu hpc hr
  | lockWait job =>
    cases job with
    | sealActive => simp [Pc.kind, Job.kind] at hkind
    | append d c =>
      simp only [VLog.resume] at hr
      split at hr
      · cases hr
      · cases hr
        exact leaves_rotate (hwrite c hkind) hpc
  | starting id job =>
    cases job with
    | sealActive => simp [Pc.kind, Job.kind] at hkind
    | append d c =>
      cases hr
      exact leaves_send hpc
  | commit S d c =>
    simp only [VLog.resume] at hr
    split at hr
    · cases hr
    · cases hr
      exact leaves_failCont (hwrite c hkind) _
    · exact leaves_of_none (lookup_applyCont (hwrite c hkind) hr)
  | relocating => simp [Pc.kind] at hkind
  | syncing => simp [Pc.kind] at hkind
  | snapshotting => simp [Pc.kind] at hkind

theorem leaves_spawn (hu : u = s.tenantDiskBytes t) {op : Op} (hop : Limited t L op)
    (hkind : op.kind = .set ∨ op.kind = .append ∨ op.kind = .setMany) : Leaves t L u i (s.spawn i op).1 := by
  cases op with
  | set key value d tenant limit => exact leaves_beginSet hu hop _ _ _ _
  | append key value d tenant limit => exact leaves_of_insert rfl hop
  | setMany pairs d => exact leaves_beginSetMany hop d
  | _ => simp [Op.kind] at hkind

/-- One step keeps all tasks within the limit, for the counter before it. -/
theorem within_step {a : Act} (hstep : s.step a = some (s', ev)) (hu : u = s.tenantDiskBytes t)
    (hw : ∀ i, Leaves t L u i s) (hspawn : ∀ i op, a = .spawn i op → Limited t L op) :
    ∀ i, Leaves t L u i s' := by
  intro i pc hpc
  have hframe := (VLog.step_cases hstep).1
  by_cases ha : a.task = some i
  · have hkind := hframe.kind i pc ha hpc
    by_cases hcharges : pc.kind = .set ∨ pc.kind = .append ∨ pc.kind = .setMany
    · obtain ⟨hraw, -⟩ : s.stepRaw a = some (s', ev) ∧ s'.clock ≤ 2 ^ 64 := by
        simpa [VLog.step, Option.filter_eq_some_iff] using hstep
      cases a with
      | spawn j op =>
        cases ha
        rw [← Option.some.inj hkind] at hcharges
        simp only [VLog.stepRaw] at hraw
        split at hraw
        · cases hraw
        · cases hraw
          exact leaves_spawn hu (hspawn _ _ rfl) hcharges pc hpc
      | resume j =>
        cases ha
        obtain ⟨pc₀, hl, hr⟩ := Option.bind_eq_some_iff.mp hraw
        simp only [Act.kind, hl, Option.map_some, Option.some.injEq] at hkind
        rw [← hkind] at hcharges
        exact leaves_resume hu (hw _ pc₀ hl) hcharges hr pc hpc
      | relocate j child =>
        simp only [Act.kind, Option.map_eq_some_iff] at hkind
        obtain ⟨-, -, hmove⟩ := hkind
        rw [← hmove] at hcharges
        simp at hcharges
      | flush => cases ha
    · rw [not_or, not_or] at hcharges
      exact within_of_kind hcharges
  · rcases hframe.tasks i ha with hsame | ⟨q, q', -, hq, -⟩
    · exact hw i pc (hsame ▸ hpc)
    · rw [hpc] at hq
      cases hq
      trivial

/-! ### Runs -/

/-- Pairs of other tenants. -/
theorem diskBytes_applyMembers {seg : Nat} {d : Durability} {offset ts : Nat} {pairs : List (Bytes × Bytes)}
    (hpairs : ∀ p ∈ pairs, tenantFromKey p.1 ≠ t) (hs : s.applyMembers seg d offset ts pairs = some (s', ev)) :
    diskBytes s'.tenantDisk t = diskBytes s.tenantDisk t := by
  induction pairs generalizing s offset ts ev with
  | nil =>
    cases hs
    rfl
  | cons p pairs ih =>
    rw [VLog.applyMembers] at hs
    split at hs
    · cases hs
    · rename_i s₁ hone
      split at hs
      · cases hs
      · rename_i r hrest
        cases hs
        rw [ih (fun q hq => hpairs q (List.mem_cons_of_mem _ hq)) hrest]
        simp only [VLog.applyMember, Option.map_eq_some_iff] at hone
        obtain ⟨cache, -, rfl⟩ := hone
        have hne : t ≠ tenantFromKey p.1 := Ne.symm (hpairs p List.mem_cons_self)
        refine (diskBytes_insert ..).trans ((if_neg hne).trans ?_)
        split
        · exact (diskBytes_insert ..).trans (if_neg hne)
        · rfl

/-- The counter is within the limit, and stays so when any one of the writes in flight takes effect. -/
structure Kept (t L : Nat) (s : VLog) : Prop where
  bytes : s.tenantDiskBytes t ≤ L
  tasks : ∀ i, Leaves t L (s.tenantDiskBytes t) i s

/-- The write that takes effect is the only one that charges the tenant. -/
theorem Kept.applies {S o : Nat} {d : Durability} {c : Cont} (h : Kept t L s) (happ : VLog.Applies s i S o d c s' ev)
    (hleaves : ∀ j, Leaves t L (s.tenantDiskBytes t) j s') (hapart : Apart t s) : Kept t L s' := by
  have hfits : Fits t L (s.tenantDiskBytes t) c := h.tasks i _ happ.lookup
  have hdone : s'.tasks.lookup i = none := lookup_applyCont happ.write happ.apply
  -- the others are in no write that charges the tenant, if this one does
  have hothers : Charges t c → ∀ u j, Leaves t L u j s' := by
    intro hc u j pc hpc
    have hne : i ≠ j := by
      rintro rfl
      rw [hdone] at hpc
      cases hpc
    rcases happ.frame.tasks j (fun heq => hne (Option.some.inj heq)) with hsame | ⟨q, q', -, hq, -⟩
    · refine (hleaves j pc hpc).of_fits fun c' hc' hf => fits_of_not_charges hf fun hcharges => ?_
      exact hne (hapart i j _ pc c c' happ.lookup (hsame ▸ hpc) rfl hc' hc hcharges)
    · rw [hpc] at hq
      cases hq
      trivial
  have hmono : s'.tenantDiskBytes t ≤ s.tenantDiskBytes t → Kept t L s' := fun hle =>
    ⟨hle.trans h.bytes, fun j pc hpc => (hleaves j pc hpc).of_fits fun c _ hc => hc.mono hle⟩
  have hwrite := happ.write
  have happly := happ.apply
  cases c with
  | set key value tenant prev isAppend ts =>
    have hdisk := (disk_applySet happly).2 t
    by_cases hkey : tenantFromKey key = t
    · rw [if_pos hkey.symm] at hdisk
      exact ⟨hdisk.trans_le (hfits hkey), hothers hkey _⟩
    · rw [if_neg (Ne.symm hkey)] at hdisk
      exact hmono hdisk.le
  | del key prev ts =>
    have hs : (VLog.applyDel _ i d key prev ts).1 = s' := congrArg Prod.fst (Option.some.inj happly)
    have hdisk := disk_applyDel (s := { s with acks := Function.update s.acks i none }) i d key prev ts t
    rw [hs] at hdisk
    refine hmono (hdisk.trans_le ?_)
    split_ifs
    · exact Nat.sub_le _ _
    · exact Nat.le_refl _
  | setMany pairs ts =>
    simp only [VLog.applyCont] at happly
    split at happly
    · cases happly
    · rename_i r hr
      cases happly
      exact hmono (diskBytes_applyMembers hfits hr).le
  | relocate => cases hwrite

/-- The operation writes a key of tenant `t`. -/
def Writes (t : Nat) : Op → Prop
  | .set key .. | .append key .. | .del key _ => tenantFromKey key = t
  | .setMany pairs _ => ∃ p ∈ pairs, tenantFromKey p.1 = t
  | _ => False

/-- The tenant's keys are written for its own commands, and only for those that satisfy `p`. -/
def Served (p : Command → Bool) (n : Nat) (be : TenantBackend) (tenant : TenantId) : Act → Prop
  | .spawn _ op => Writes tenant.toNat op → ∃ cmd req, p cmd = true ∧
      (dispatchCommand n tenant (some be) cmd).Issues req ∧ op = req.op
  | _ => True

theorem limited_of_served {n : Nat} {be : TenantBackend} {tenant : TenantId} (hlimit : be.maxDiskBytes tenant = some L)
    {op : Op} (h : Served Command.isChecked n be tenant (.spawn i op)) : Limited tenant.toNat L op := by
  have hchecked : Writes tenant.toNat op → ∃ req : KvReq, req.Checked L ∧ op = req.op := fun hw => by
    obtain ⟨cmd, req, hcmd, hissues, hop⟩ := h hw
    exact ⟨req, checked_of_issues hlimit hcmd hissues, hop⟩
  cases op with
  | set key value d acct limit =>
    intro hkey
    obtain ⟨req, hreq, hop⟩ := hchecked hkey
    cases req <;> cases hop
    exact hreq
  | append key value d acct limit =>
    intro hkey
    obtain ⟨req, hreq, hop⟩ := hchecked hkey
    cases req <;> cases hop
    exact hreq
  | setMany pairs d =>
    intro p hp hkey
    obtain ⟨req, hreq, hop⟩ := hchecked ⟨p, hp, hkey⟩
    cases req <;> cases hop
    exact hreq
  | _ => trivial

/-- The counter of a tenant stays within its limit while its keys are written for SET, APPEND and DEL only, and no two of
its writes are between check and effect at the same time. -/
theorem disk_quota_kept (n : Nat) (be : TenantBackend) (tenant : TenantId) (L : Nat)
    (hlimit : be.maxDiskBytes tenant = some L) {hist₀ hist : List Event} {s₀ s : VLog} (hrest : s₀.AtRest)
    (hstart : s₀.tenantDiskBytes tenant.toNat ≤ L)
    (hrun : Run VLog.step (fun _ s a => Served Command.isChecked n be tenant a ∧ Apart tenant.toNat s)
      hist₀ s₀ hist s) :
    s.tenantDiskBytes tenant.toNat ≤ L := by
  refine (hrun.invariant (fun _ s => Kept tenant.toNat L s) ⟨hstart, fun i => leaves_of_none ?_⟩ ?_).bytes
  · rw [hrest]
    rfl
  · rintro hist s a s' ev hkept ⟨hserved, hapart⟩ hstep
    have hleaves := within_step hstep rfl hkept.tasks fun i op ha => limited_of_served hlimit (ha ▸ hserved)
    rcases (VLog.step_cases hstep).2 with ⟨i, S, o, d, c, -, happ⟩ | ⟨hdisk, -⟩
    · exact hkept.applies happ hleaves hapart
    · have hbytes : s'.tenantDiskBytes tenant.toNat = s.tenantDiskBytes tenant.toNat := by
        rw [VLog.tenantDiskBytes, hdisk, VLog.tenantDiskBytes]
      exact ⟨hbytes ▸ hkept.bytes, hbytes ▸ hleaves⟩

end

section

attribute [local instance] linkedHashes

/-- A tenant that may have 200 bytes. -/
def tenantOne : TenantId := ⟨toLE 16 1, length_toLE 16 1⟩

def smallQuota : TenantBackend := ⟨fun _ => true, fun _ => some 200⟩

/-- The operations that SET, MSET and INCR start for the tenant. -/
def setOp (key value : Bytes) : Op := .set (tenantOne.bytes ++ key) value .kernel 1 (some 200)

def msetOp (key value : Bytes) : Op := .setMany [(tenantOne.bytes ++ key, value)] .kernel

def incrOp (key : Bytes) : Op := .set (tenantOne.bytes ++ key) (formatI64 1) .kernel 1 none

theorem served_set {p : Command → Bool} {key value : Bytes} (hp : p (.set key value) = true) (i : Nat) :
    Served p 1 smallQuota tenantOne (.spawn i (setOp key value)) := fun _ =>
  ⟨.set key value, _, hp, (show _ ∨ _ from .inl rfl), rfl⟩

theorem served_mset (key value : Bytes) (i : Nat) :
    Served (· matches .mset _) 1 smallQuota tenantOne (.spawn i (msetOp key value)) := by
  intro _
  refine ⟨.mset [(key, value)], .setMany [(tenantOne.bytes ++ key, value)] .kernel, rfl, ?_, rfl⟩
  have hshard : shardFor (tenantOne.bytes ++ key) 1 = 0 := Nat.mod_one _
  obtain ⟨k, hmset⟩ : ∃ k, ShardSet.mset 1 [(tenantOne.bytes ++ key, value)] .kernel =
      .call 0 (.setMany [(tenantOne.bytes ++ key, value)] .kernel) k := by
    simp only [ShardSet.mset, ShardSet.msetFrom, List.filter_cons, hshard]
    exact ⟨_, rfl⟩
  change Prog.Issues _ (kvMset 1 tenantOne (some smallQuota) [key, value])
  have hchunks : chunks [key, value] = [(key, value)] := by simp [chunks]
  have hargs : ¬ (([key, value].isEmpty || decide ([key, value].length % 2 ≠ 0)) = true) := by simp
  have hscope : (scopeKey tenantOne key).bytes = tenantOne.bytes ++ key := rfl
  have hfree : anonKeyCollidesWithTenant tenantOne key (some smallQuota) = false := rfl
  rw [kvMset, if_neg hargs]
  simp only [hchunks, List.any_cons, List.any_nil, hfree, Bool.or_self, Bool.false_eq_true, if_false, List.map_cons,
    List.map_nil, hscope, defaultDurability, hmset]
  exact .inl rfl

theorem served_incr (key : Bytes) (i : Nat) :
    Served (· matches .incr _) 1 smallQuota tenantOne (.spawn i (incrOp key)) := fun _ =>
  ⟨.incr key, _, rfl, (show _ ∨ _ from .inr ⟨.value none, .inl rfl⟩), rfl⟩

/-- A SET that fits, and one that does not. -/
theorem disk_quota_kept_two_sets : ∃ hist s, Run VLog.step
    (fun _ s a => Served Command.isChecked 1 smallQuota tenantOne a ∧ Apart tenantOne.toNat s)
      [] (openVLog Disk.empty 512) hist s ∧
    0 < s.tenantDiskBytes tenantOne.toNat ∧ s.tenantDiskBytes tenantOne.toNat ≤ 200 := by
  obtain ⟨hist, s, hrun, hpos⟩ := exists_run_of_exec (fun _ s => 0 < s.tenantDiskBytes tenantOne.toNat)
    [.spawn 1 (setOp [1] [10]), .flush 0 1 .ok, .resume 1, .spawn 2 (setOp [2] (zeros 200))]
    (show (Transition.exec VLog.step (fun _ s a => (a = .spawn 1 (setOp [1] [10]) ∨
        a = .spawn 2 (setOp [2] (zeros 200)) ∨ a = .flush 0 1 .ok ∨ a = .resume 1) ∧ ∀ p ∈ s.tasks.entries, p.1 = 1)
      [] (openVLog Disk.empty 512) _).any _ = true by decide +kernel)
  have hrun' : Run VLog.step (fun _ s a => Served Command.isChecked 1 smallQuota tenantOne a ∧ Apart tenantOne.toNat s)
      [] (openVLog Disk.empty 512) hist s := by
    refine hrun.mono fun _ s a ⟨ha, hone⟩ => ⟨?_, fun i j pc pc' _ _ hi hj _ _ _ _ => ?_⟩
    · rcases ha with rfl | rfl | rfl | rfl
      · exact served_set rfl 1
      · exact served_set rfl 2
      · trivial
      · trivial
    · exact (hone ⟨i, pc⟩ (AList.mem_lookup_iff.mp hi)).trans (hone ⟨j, pc'⟩ (AList.mem_lookup_iff.mp hj)).symm
  have hrest : (openVLog Disk.empty 512).AtRest := rfl
  exact ⟨hist, s, hrun', hpos, disk_quota_kept 1 smallQuota tenantOne 200 rfl hrest (by decide +kernel) hrun'⟩

/-- The tenant gets over its limit with commands that satisfy `p`. -/
def Exceeds (p : Command → Bool) : Prop := ∃ hist s,
  Run VLog.step (fun _ _ a => Served p 1 smallQuota tenantOne a) [] (openVLog Disk.empty 512) hist s ∧
    200 < s.tenantDiskBytes tenantOne.toNat

theorem exceeds_of_exec {p : Command → Bool} (as : List Act) (hserved : ∀ a ∈ as, Served p 1 smallQuota tenantOne a)
    (hexec : (Transition.exec VLog.step (fun _ _ _ => True) [] (openVLog Disk.empty 512) as).any
      (fun r => 200 < r.2.tenantDiskBytes tenantOne.toNat) = true) : Exceeds p :=
  Transition.exists_run_of_forall (fun _ (s : VLog) => 200 < s.tenantDiskBytes tenantOne.toNat) as hserved hexec

/-- MSET and INCR are not checked, and two SETs at the same time are both checked before either is charged. -/
theorem quota_exceeded :
    Exceeds (· matches .mset _) ∧ Exceeds (· matches .incr _) ∧ Exceeds (· matches .set ..) := by
  refine ⟨exceeds_of_exec [.spawn 1 (msetOp [1] (zeros 200)), .flush 0 1 .ok, .resume 1] ?_ (by decide +kernel),
    exceeds_of_exec [.spawn 1 (incrOp (zeros 200)), .flush 0 1 .ok, .resume 1] ?_ (by decide +kernel),
    exceeds_of_exec [.spawn 1 (setOp [1] (zeros 30)), .spawn 2 (setOp [2] (zeros 30)), .flush 0 2 .ok,
      .resume 1, .resume 2] ?_ (by decide +kernel)⟩
  · simp only [List.forall_mem_cons, List.not_mem_nil, false_imp_iff, implies_true, and_true]
    exact ⟨served_mset _ _ _, trivial, trivial⟩
  · simp only [List.forall_mem_cons, List.not_mem_nil, false_imp_iff, implies_true, and_true]
    exact ⟨served_incr _ _, trivial, trivial⟩
  · simp only [List.forall_mem_cons, List.not_mem_nil, false_imp_iff, implies_true, and_true]
    exact ⟨served_set rfl _, served_set rfl _, trivial, trivial, trivial⟩

end

end Skeg.Server
