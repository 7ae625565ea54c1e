import Skeg.Lib.Transition
import Skeg.Server.Kv
import Skeg.Core.Equiv.Cache
import Skeg.Core.Hashes

/-!
# Tenants do not see each other

Every key a command hands to the shards is charged to an id its tenant owns (`dispatch_within`), and
different tenants own different ids (`Owns.disjoint`).  A request only reads and writes the keys and
the counter of the ids it is charged to (`Store.process_frame`, `Store.process_agree`).  So leaving
out the commands of one tenant changes no reply to another (`outputs_isolated`), if there is one: all
tenants of a shard share its cache, and an insert into a cache need not return.  The caches only hold
current values (`Shards.Coherent`), so that nothing else shows of them (`kv_isolation`).
-/

namespace Skeg.Server

/-! ### Who owns which ids -/

namespace TenantId

theorem eq_zero_of_isZero {t : TenantId} (h : t.isZero = true) : t = zero := by
  cases t
  simp only [isZero, decide_eq_true_eq] at h
  cases h
  rfl

end TenantId

/-- The ids that the keys of tenant `t` are charged to: its own, or for the anonymous tenant all that
no bound tenant has. -/
def Owns (be : TenantBackend) (t : TenantId) (n : Nat) : Prop :=
  if t.isZero then ∀ u : TenantId, u.isZero = false → be.hasTenant u → n ≠ u.toNat
  else n = t.toNat

variable {be : TenantBackend}

theorem Owns.disjoint {a b : Session be} (hab : a ≠ b) {n : Nat} (ha : Owns be a.tenant n) :
    ¬ Owns be b.tenant n := by
  intro hb
  have hne : a.tenant ≠ b.tenant := fun h => hab (by cases a; cases b; cases h; rfl)
  unfold Owns at ha hb
  cases hza : a.tenant.isZero <;> cases hzb : b.tenant.isZero <;> simp only [hza, hzb] at ha hb
  · exact hne (TenantId.toNat_injective (ha.symm.trans hb))
  · have hknown : be.hasTenant a.tenant := by simpa [hza] using a.known
    exact hb a.tenant hza hknown ha
  · have hknown : be.hasTenant b.tenant := by simpa [hzb] using b.known
    exact ha b.tenant hzb hknown hb
  · exact hne ((TenantId.eq_zero_of_isZero hza).trans (TenantId.eq_zero_of_isZero hzb).symm)

theorem scopeKey_anonymous {t : TenantId} (h : t.isZero = true) (key : Bytes) :
    (scopeKey t key).bytes = key := if_pos h

theorem scopeKey_named {t : TenantId} (h : t.isZero = false) (key : Bytes) :
    (scopeKey t key).bytes = t.bytes ++ key := if_neg (by simp [h])

/-- A key that passes the check is charged to an id of the tenant it is scoped to. -/
theorem owns_scopeKey {t : TenantId} {key : Bytes}
    (h : anonKeyCollidesWithTenant t key (some be) = false) :
    Owns be t (tenantFromKey (scopeKey t key).bytes) := by
  cases hz : t.isZero with
  | false =>
    have hlen := t.length_bytes
    rw [Owns, if_neg (by simp [hz]), scopeKey_named hz, tenantFromKey,
      if_pos (by rw [List.length_append]; omega), List.take_left' hlen]
    rfl
  | true =>
    rw [Owns, if_pos hz, scopeKey_anonymous hz]
    intro u hu hbound hcharge
    by_cases hlen : key.length < 16
    · -- a short key is charged to the anonymous tenant itself
      rw [tenantFromKey, if_neg (by omega), ← fromLE_zeros 16] at hcharge
      have : TenantId.zero = u := TenantId.toNat_injective hcharge
      subst this
      cases hu
    · rw [tenantFromKey, if_pos (by omega)] at hcharge
      have hcand : (⟨key.take 16, by simp; omega⟩ : TenantId) = u := TenantId.toNat_injective hcharge
      simp [anonKeyCollidesWithTenant, hz, hlen, hcand, hu, hbound] at h

/-! ### The keys of a handler -/

def KvReq.keys : KvReq → List Bytes
  | .get key _ => [key]
  | .set key _ _ _ _ => [key]
  | .setMany pairs _ => pairs.map Prod.fst
  | .append key _ _ _ _ => [key]
  | .del key _ => [key]

/-- Every key of the request is charged to an id in `P`. -/
def KvReq.Within (P : Nat → Prop) (req : KvReq) : Prop := ∀ key ∈ req.keys, P (tenantFromKey key)

def Prog.Within (P : Nat → Prop) {α : Type} : Prog α → Prop
  | .ret _ => True
  | .call _ req k => req.Within P ∧ ∀ r, (k r).Within P

/-- Every key a handler hands to the shards is in `Q`. -/
def Prog.Names (Q : Bytes → Prop) {α : Type} : Prog α → Prop
  | .ret _ => True
  | .call _ req k => (∀ key ∈ req.keys, Q key) ∧ ∀ r, (k r).Names Q

theorem Prog.Names.within {P : Nat → Prop} {α : Type} {p : Prog α}
    (h : p.Names fun key => P (tenantFromKey key)) : p.Within P := by
  induction p with
  | ret a => trivial
  | call shard req k ih => exact ⟨h.1, fun r => ih r (h.2 r)⟩

section

variable {Q : Bytes → Prop}

theorem Prog.Names.bind {α β : Type} {p : Prog α} (hp : p.Names Q) {f : α → Prog β}
    (hf : ∀ a, (f a).Names Q) : (p >>= f).Names Q := by
  induction p with
  | ret a => exact hf a
  | call shard req k ih => exact ⟨hp.1, fun r => ih r (hp.2 r)⟩

/-- A call for one key whose answer is only translated. -/
theorem Prog.names_call {α : Type} {shard : Nat} {req : KvReq} {key : Bytes} {g : KvResp → Prog α}
    (hreq : req.keys = [key]) (hkey : Q key) (hg : ∀ r, ∃ a, g r = .ret a) :
    (Prog.call shard req g).Names Q := by
  refine ⟨fun k hk => ?_, fun r => ?_⟩
  · rw [hreq, List.mem_singleton] at hk
    exact hk ▸ hkey
  · obtain ⟨a, ha⟩ := hg r
    rw [ha]
    trivial

variable [H : Hashes]

theorem ShardTenantView.get_names {v : ShardTenantView} {key : Bytes} (h : Q key) : (v.get key).Names Q :=
  Prog.names_call rfl h fun r => by cases r <;> exact ⟨_, rfl⟩

theorem ShardTenantView.set_names {v : ShardTenantView} {key value : Bytes} {d : Durability} (h : Q key) :
    (v.set key value d).Names Q :=
  Prog.names_call rfl h fun r => by cases r <;> exact ⟨_, rfl⟩

theorem ShardTenantView.append_names {v : ShardTenantView} {key value : Bytes} {d : Durability} (h : Q key) :
    (v.append key value d).Names Q :=
  Prog.names_call rfl h fun r => by cases r <;> exact ⟨_, rfl⟩

theorem ShardSet.del_names {n : Nat} {key : Bytes} {d : Durability} (h : Q key) : (ShardSet.del n key d).Names Q :=
  Prog.names_call rfl h fun r => by cases r <;> exact ⟨_, rfl⟩

theorem ShardSet.msetFrom_names {n : Nat} {pairs : List (Bytes × Bytes)} {d : Durability}
    (h : ∀ p ∈ pairs, Q p.1) (shard fuel : Nat) : (ShardSet.msetFrom n pairs d shard fuel).Names Q := by
  induction fuel generalizing shard with
  | zero => trivial
  | succ fuel ih =>
    rw [msetFrom]
    split
    · exact ih (shard + 1)
    · refine ⟨fun key hkey => ?_, fun r => ?_⟩
      · obtain ⟨p, hp, rfl⟩ := List.mem_map.mp hkey
        exact h p (List.mem_filter.mp hp).1
      · cases r with
        | done => exact ih (shard + 1)
        | _ => trivial

theorem incrApply_names {n t : Nat} {key : Bytes} {delta : Int64} (h : Q key) :
    (incrApply n key delta t).Names Q := by
  refine (ShardTenantView.get_names h).bind fun r => ?_
  cases r with
  | error e => trivial
  | ok v =>
    dsimp only
    split
    · trivial
    · split
      · trivial
      · refine (ShardTenantView.set_names h).bind fun r => ?_
        cases r <;> trivial

end

/-! ### The keys of a command -/

/-- The keys of a command, as the client writes them. -/
def Command.userKeys : Command → List Bytes
  | .get key | .set key _ | .append key _ | .incr key | .decr key | .incrBy key _ | .decrBy key _ => [key]
  | .del keys | .exists_ keys | .mget keys => keys
  | .mset pairs => pairs.map Prod.fst

section

variable [H : Hashes] {n : Nat} {t : TenantId} {ctx : Option TenantBackend} {Q : Bytes → Prop}

theorem delLoop_names {keys : List Bytes} (h : ∀ key ∈ keys, Q (scopeKey t key).bytes) (count : Int) :
    (delLoop n t keys count).Names Q := by
  induction keys generalizing count with
  | nil => trivial
  | cons key keys ih =>
    have ih := ih fun k hk => h k (by simp [hk])
    refine (ShardSet.del_names (h key (by simp))).bind fun r => ?_
    rcases r with e | b
    · trivial
    · cases b
      · exact ih count
      · exact ih (count + 1)

theorem existsLoop_names {keys : List Bytes} (h : ∀ key ∈ keys, Q (scopeKey t key).bytes) (count : Int) :
    (existsLoop n t keys count).Names Q := by
  induction keys generalizing count with
  | nil => trivial
  | cons key keys ih =>
    have ih := ih fun k hk => h k (by simp [hk])
    refine (ShardTenantView.get_names (h key (by simp))).bind fun r => ?_
    rcases r with e | _ | v
    · trivial
    · exact ih count
    · exact ih (count + 1)

theorem mgetLoop_names {keys : List Bytes} (h : ∀ key ∈ keys, Q (scopeKey t key).bytes) (out : List Frame) :
    (mgetLoop n t keys out).Names Q := by
  induction keys generalizing out with
  | nil => trivial
  | cons key keys ih =>
    have ih := ih fun k hk => h k (by simp [hk])
    refine (ShardTenantView.get_names (h key (by simp))).bind fun r => ?_
    rcases r with e | _ | v
    · trivial
    · exact ih _
    · exact ih _

omit H in
/-- Nothing is called unless the keys pass the check. -/
theorem names_of_checks {keys : List Bytes} {p : Prog Frame}
    (h : (∀ key ∈ keys, anonKeyCollidesWithTenant t key ctx = false) → p.Names Q) :
    (if keys.any fun key => anonKeyCollidesWithTenant t key ctx then pure anonForgeryError else p).Names Q := by
  split
  · trivial
  · rename_i hc
    exact h fun key hkey => by simpa using fun hbad => hc (List.any_eq_true.mpr ⟨key, hkey, hbad⟩)

omit H in
/-- The same for one key. -/
theorem names_of_check {key : Bytes} {p : Prog Frame}
    (h : anonKeyCollidesWithTenant t key ctx = false → p.Names Q) :
    (if anonKeyCollidesWithTenant t key ctx then pure anonForgeryError else p).Names Q := by
  split
  · trivial
  · rename_i hc
    exact h (by simpa using hc)

omit H in
theorem chunks_flatMap (pairs : List (Bytes × Bytes)) : chunks (pairs.flatMap fun p => [p.1, p.2]) = pairs := by
  induction pairs with
  | nil => rfl
  | cons p pairs ih =>
    rw [List.flatMap_cons]
    exact congrArg (p :: ·) ih

/-- A command hands to the shards the keys it names, scoped, and only those that pass the check. -/
theorem dispatch_names (cmd : Command)
    (h : ∀ key ∈ cmd.userKeys, anonKeyCollidesWithTenant t key ctx = false → Q (scopeKey t key).bytes) :
    (dispatchCommand n t ctx cmd).Names Q := by
  have hone : ∀ key, cmd.userKeys = [key] → anonKeyCollidesWithTenant t key ctx = false → Q (scopeKey t key).bytes :=
    fun key hkeys => h key (hkeys ▸ List.mem_singleton.mpr rfl)
  cases cmd with
  | get key =>
    refine names_of_check fun hc => (ShardTenantView.get_names (hone key rfl hc)).bind fun r => ?_
    rcases r with e | _ | v <;> trivial
  | set key value =>
    refine names_of_check fun hc => (ShardTenantView.set_names (hone key rfl hc)).bind fun r => ?_
    cases r <;> trivial
  | append key value =>
    refine names_of_check fun hc => (ShardTenantView.append_names (hone key rfl hc)).bind fun r => ?_
    cases r <;> trivial
  | del keys =>
    rw [dispatchCommand, kvDel]
    split
    · trivial
    · exact names_of_checks fun hc => delLoop_names (fun key hkey => h key hkey (hc key hkey)) 0
  | exists_ keys =>
    rw [dispatchCommand, kvExists]
    split
    · trivial
    · exact names_of_checks fun hc => existsLoop_names (fun key hkey => h key hkey (hc key hkey)) 0
  | mget keys =>
    rw [dispatchCommand, kvMget]
    split
    · trivial
    · exact names_of_checks fun hc => mgetLoop_names (fun key hkey => h key hkey (hc key hkey)) []
  | mset pairs =>
    rw [dispatchCommand, kvMset, chunks_flatMap]
    split
    · trivial
    · split
      · trivial
      · rename_i hc
        refine (ShardSet.msetFrom_names (fun p hp => ?_) 0 n).bind fun r => by cases r <;> trivial
        obtain ⟨c, hmem, rfl⟩ := List.mem_map.mp hp
        refine h c.1 (List.mem_map_of_mem hmem) ?_
        simpa using fun hbad => hc (List.any_eq_true.mpr ⟨c, hmem, hbad⟩)
  | incr key => exact names_of_check fun hc => incrApply_names (hone key rfl hc)
  | decr key => exact names_of_check fun hc => incrApply_names (hone key rfl hc)
  | incrBy key delta => exact names_of_check fun hc => incrApply_names (hone key rfl hc)
  | decrBy key delta =>
    rw [dispatchCommand]
    split
    · exact names_of_check fun hc => incrApply_names (hone key rfl hc)
    · trivial

/-- A command hands to the shards only keys of its tenant. -/
theorem dispatch_within (cmd : Command) : (dispatchCommand n t (some be) cmd).Within (Owns be t) :=
  Prog.Names.within (dispatch_names cmd fun _ _ hc => owns_scopeKey hc)

end

/-! ### What a request reads and writes -/

namespace Store

/-- The two stores have the same keys and counters for the ids in `P`. -/
structure Agree (P : Nat → Prop) (s s' : Store) : Prop where
  maxSegSize : s.maxSegSize = s'.maxSegSize
  vals : ∀ key, P (tenantFromKey key) → s.vals.lookup key = s'.vals.lookup key
  tenantDisk : ∀ n, P n → s.tenantDisk.lookup n = s'.tenantDisk.lookup n

/-- From `s` to `t`, only `key` and the counter it is charged to have changed. -/
structure Writes (key : Bytes) (s t : Store) : Prop where
  maxSegSize : t.maxSegSize = s.maxSegSize
  vals : ∀ k, k ≠ key → t.vals.lookup k = s.vals.lookup k
  tenantDisk : ∀ n, n ≠ tenantFromKey key → t.tenantDisk.lookup n = s.tenantDisk.lookup n

variable {P : Nat → Prop} {s s' t t' : Store} {key value : Bytes}

theorem Agree.refl (s : Store) : Agree P s s := ⟨rfl, fun _ _ => rfl, fun _ _ => rfl⟩

/-- A write outside of `P`. -/
theorem Agree.write_left (h : Agree P s s') (hw : Writes key s t) (hkey : ¬ P (tenantFromKey key)) :
    Agree P t s' where
  maxSegSize := hw.maxSegSize.trans h.maxSegSize
  vals k hk := (hw.vals k fun heq => hkey (heq ▸ hk)).trans (h.vals k hk)
  tenantDisk n hn := (hw.tenantDisk n fun heq => hkey (heq ▸ hn)).trans (h.tenantDisk n hn)

/-- The same write on both sides. -/
theorem Agree.write_both (h : Agree P s s') (hw : Writes key s t) (hw' : Writes key s' t')
    (hval : t.vals.lookup key = t'.vals.lookup key)
    (hdisk : t.tenantDisk.lookup (tenantFromKey key) = t'.tenantDisk.lookup (tenantFromKey key)) :
    Agree P t t' where
  maxSegSize := by rw [hw.maxSegSize, hw'.maxSegSize, h.maxSegSize]
  vals k hk := by
    by_cases heq : k = key
    · rw [heq, hval]
    · rw [hw.vals k heq, hw'.vals k heq, h.vals k hk]
  tenantDisk n hn := by
    by_cases heq : n = tenantFromKey key
    · rw [heq, hdisk]
    · rw [hw.tenantDisk n heq, hw'.tenantDisk n heq, h.tenantDisk n hn]

theorem Agree.diskSize (h : Agree P s s') (hkey : P (tenantFromKey key)) :
    s.diskSize key = s'.diskSize key := by
  rw [Store.diskSize, Store.diskSize, h.vals key hkey]

/-! One lemma for what a write touches, one for what it leaves in stores that agree. -/

theorem set_writes {limit : Option Nat} (h : s.set key value limit = .ok t) : Writes key s t := by
  simp only [set] at h
  split at h
  · cases h
  · cases h
    exact ⟨rfl, fun k hk => AList.lookup_insert_ne hk, fun n hn => AList.lookup_insert_ne hn⟩

theorem setMember_writes (s : Store) (p : Bytes × Bytes) : Writes p.1 s (s.setMember p) := by
  refine ⟨rfl, fun k hk => AList.lookup_insert_ne hk, fun n hn => ?_⟩
  rw [setMember]
  dsimp only
  rw [AList.lookup_insert_ne hn]
  split
  · exact AList.lookup_insert_ne hn
  · rfl

theorem del_writes (s : Store) (key : Bytes) : Writes key s (s.del key) := by
  refine ⟨rfl, fun k hk => AList.lookup_erase_ne hk, fun n hn => ?_⟩
  rw [del]
  dsimp only
  split
  · rfl
  · split
    · exact AList.lookup_erase_ne hn
    · exact AList.lookup_insert_ne hn

/-- Setting a key in stores that agree on it: refused in both, or written in both. -/
theorem Agree.set (h : Agree P s s') (hkey : P (tenantFromKey key)) (value : Bytes) (limit : Option Nat) :
    (∃ e, s.set key value limit = .error e ∧ s'.set key value limit = .error e) ∨
      ∃ t t', s.set key value limit = .ok t ∧ s'.set key value limit = .ok t' ∧ Agree P t t' := by
  have hsize := h.diskSize hkey
  have hdisk := h.tenantDisk _ hkey
  simp only [Store.set, hsize, hdisk]
  split
  · exact .inl ⟨_, rfl, rfl⟩
  · refine .inr ⟨_, _, rfl, rfl, h.maxSegSize, fun k hk => ?_, fun n hn => ?_⟩
    · by_cases heq : k = key
      · rw [heq, AList.lookup_insert, AList.lookup_insert]
      · rw [AList.lookup_insert_ne heq, AList.lookup_insert_ne heq, h.vals k hk]
    · by_cases heq : n = tenantFromKey key
      · rw [heq, AList.lookup_insert, AList.lookup_insert]
      · rw [AList.lookup_insert_ne heq, AList.lookup_insert_ne heq, h.tenantDisk n hn]

theorem Agree.setMember (h : Agree P s s') {p : Bytes × Bytes} (hkey : P (tenantFromKey p.1)) :
    Agree P (s.setMember p) (s'.setMember p) := by
  refine h.write_both (setMember_writes s p) (setMember_writes s' p) ?_ ?_
  · simp [Store.setMember]
  · simp only [Store.setMember, h.diskSize hkey, AList.lookup_insert, h.vals p.1 hkey,
      h.tenantDisk _ hkey]
    cases s'.vals.lookup p.1 <;> cases hd : s'.tenantDisk.lookup (tenantFromKey p.1) <;>
      simp [h.tenantDisk _ hkey, hd]

theorem Agree.del (h : Agree P s s') (hkey : P (tenantFromKey key)) :
    Agree P (s.del key) (s'.del key) := by
  refine h.write_both (del_writes s key) (del_writes s' key) ?_ ?_
  · simp [Store.del]
  · simp only [Store.del, h.diskSize hkey, h.tenantDisk _ hkey]
    cases hd : s'.tenantDisk.lookup (tenantFromKey key) with
    | none => simp [h.tenantDisk _ hkey, hd]
    | some e =>
      dsimp only
      split <;> simp

/-- A request outside of `P` changes nothing there. -/
theorem process_frame {req : KvReq} (hreq : req.Within fun n => ¬ P n) (h : Agree P s s') :
    Agree P (s.process req).1 s' := by
  cases req with
  | get key tenant => exact h
  | set key value durability tenant limit =>
    rw [process]
    split
    · rename_i t ht
      exact h.write_left (set_writes ht) (hreq key (by simp [KvReq.keys]))
    · exact h
  | append key value durability tenant limit =>
    rw [process]
    split
    · rename_i t ht
      exact h.write_left (set_writes ht) (hreq key (by simp [KvReq.keys]))
    · exact h
  | del key durability =>
    rw [process]
    split
    · exact h
    · exact h.write_left (del_writes s key) (hreq key (by simp [KvReq.keys]))
  | setMany pairs durability =>
    rw [process]
    split
    · exact h
    · split
      · exact h
      · -- the members one by one
        have hpairs : ∀ p ∈ pairs, ¬ P (tenantFromKey p.1) := fun p hp =>
          hreq p.1 (List.mem_map_of_mem hp)
        clear * - h hpairs
        induction pairs generalizing s with
        | nil => exact h
        | cons p pairs ih =>
          exact ih (h.write_left (setMember_writes s p) (hpairs p (by simp)))
            fun q hq => hpairs q (by simp [hq])

/-- A request within `P` gets the same answer from stores that agree there, and they still agree. -/
theorem process_agree {req : KvReq} (hreq : req.Within P) (h : Agree P s s') :
    (s.process req).2 = (s'.process req).2 ∧ Agree P (s.process req).1 (s'.process req).1 := by
  cases req with
  | get key tenant =>
    have hval := h.vals key (hreq key (by simp [KvReq.keys]))
    exact ⟨by simp [process, hval], h⟩
  | set key value durability tenant limit =>
    have hkey := hreq key (by simp [KvReq.keys])
    rcases h.set hkey value limit with ⟨e, h1, h2⟩ | ⟨t, t', h1, h2, hagree⟩
    · simp [process, h1, h2, h]
    · simp [process, h1, h2, hagree]
  | append key value durability tenant limit =>
    have hkey := hreq key (by simp [KvReq.keys])
    have hval := h.vals key hkey
    rcases h.set hkey ((s'.vals.lookup key).getD [] ++ value) limit with
      ⟨e, h1, h2⟩ | ⟨t, t', h1, h2, hagree⟩
    · simp [process, hval, h1, h2, h]
    · simp [process, hval, h1, h2, hagree]
  | del key durability =>
    have hkey := hreq key (by simp [KvReq.keys])
    simp only [process, h.vals key hkey]
    cases s'.vals.lookup key with
    | none => exact ⟨rfl, h⟩
    | some v => exact ⟨rfl, h.del hkey⟩
  | setMany pairs durability =>
    have hpairs : ∀ p ∈ pairs, P (tenantFromKey p.1) := fun p hp =>
      hreq p.1 (List.mem_map_of_mem hp)
    have herr : s.batchError pairs = s'.batchError pairs := by
      rw [batchError, batchError, h.maxSegSize]
    simp only [process, herr]
    split
    · exact ⟨rfl, h⟩
    · split
      · exact ⟨rfl, h⟩
      · refine ⟨rfl, ?_⟩
        clear * - h hpairs
        induction pairs generalizing s s' with
        | nil => exact h
        | cons p pairs ih =>
          exact ih (h.setMember (hpairs p (by simp))) fun q hq => hpairs q (by simp [hq])

end Store

/-! ### Commands -/

section

variable {P : Nat → Prop} {s s' : Store} {α : Type} {p : Prog α}

theorem Prog.run_frame (hp : p.Within fun n => ¬ P n) (h : Store.Agree P s s') :
    Store.Agree P (p.run s).1 s' := by
  induction p generalizing s with
  | ret a => exact h
  | call shard req k ih => exact ih _ (hp.2 _) (Store.process_frame hp.1 h)

theorem Prog.run_agree (hp : p.Within P) (h : Store.Agree P s s') :
    (p.run s).2 = (p.run s').2 ∧ Store.Agree P (p.run s).1 (p.run s').1 := by
  induction p generalizing s s' with
  | ret a => exact ⟨rfl, h⟩
  | call shard req k ih =>
    obtain ⟨hresp, hagree⟩ := Store.process_agree hp.1 h
    rw [run, run, ← hresp]
    exact ih _ (hp.2 _) hagree

theorem Prog.Within.mono {Q : Nat → Prop} (hp : p.Within P) (hPQ : ∀ n, P n → Q n) : p.Within Q := by
  induction p with
  | ret a => trivial
  | call shard req k ih => exact ⟨fun key hkey => hPQ _ (hp.1 key hkey), fun r => ih r (hp.2 r)⟩

end

section

variable [H : Hashes]

/-- What is left of the store for the other tenants does not depend on the commands of `a`. -/
theorem serve_unwinding (n : Nat) (a : Session be) :
    Noninterference.Unwinding (serve n) (fun r : Request be => r.session = a)
      (Store.Agree fun m => ¬ Owns be a.tenant m) where
  hidden_step := by
    intro s s' r hr h
    rw [serve]
    split
    · exact h
    · refine Prog.run_frame ((dispatch_within r.command).mono fun m hm => ?_) h
      rw [← hr]
      exact fun hnot => hnot hm
  visible_step := by
    intro s s' r hr h
    rw [serve, serve]
    split
    · exact ⟨rfl, h⟩
    · exact Prog.run_agree ((dispatch_within r.command).mono fun m hm => Owns.disjoint hr hm) h

/-- Without the caches, the replies to tenant `b` do not depend on the commands of another tenant `a`, whatever other
tenants do in between. -/
theorem outputs_isolated (n : Nat) (s : Store) {a b : Session be} (hab : a ≠ b) (reqs : List (Request be)) :
    (Noninterference.outputs (serve n) s reqs).filter (fun p => p.1.session = b) =
      (Noninterference.outputs (serve n) s (reqs.filter fun r => r.session ≠ a)).filter
        fun p => p.1.session = b := by
  rw [← (serve_unwinding n a).outputs_eq (Store.Agree.refl s) reqs, List.filter_filter]
  refine List.filter_congr fun p _ => ?_
  by_cases hp : p.1.session = b
  · simp [hp, Ne.symm hab]
  · simp [hp]

end

/-! ### The caches -/

namespace Shards

variable [H : Hashes] {n : Nat} {s s' : Shards} {key value : Bytes}

/-- What a cache has of a key is its current value. -/
def Coherent (n : Nat) (s : Shards) : Prop :=
  ∀ key v, (s.caches (shardFor key n)).peek key = some v → s.store.vals.lookup key = some v

/-- One cache is replaced.  It is enough that what it has of its shard's keys is current. -/
theorem Coherent.putCache (h : s.Coherent n) {store : Store} {cache : S3Fifo Bytes}
    (hcache : ∀ k v, cache.peek k = some v → shardFor k n = shardFor key n → store.vals.lookup k = some v)
    (hother : ∀ k, k ≠ key → store.vals.lookup k = s.store.vals.lookup k) :
    (Shards.putCache n { s with store := store } key cache).Coherent n := by
  intro k v hk
  dsimp only [Shards.putCache] at hk
  by_cases hshard : shardFor k n = shardFor key n
  · rw [hshard, Function.update_self] at hk
    exact hcache k v hk hshard
  · rw [Function.update_of_ne hshard] at hk
    exact (hother k fun heq => hshard (heq ▸ rfl)).trans (h k v hk)

/-- A filled cache is coherent with a store that has the value, and differs in no other key. -/
theorem Coherent.fill (h : s.Coherent n) {store : Store} {tenant : Nat} (hkey : store.vals.lookup key = some value)
    (hother : ∀ k, k ≠ key → store.vals.lookup k = s.store.vals.lookup k)
    (hfill : Shards.fill n { s with store := store } key value tenant = some s') :
    s'.store = store ∧ s'.Coherent n := by
  obtain ⟨cache, hcache, rfl⟩ := Option.map_eq_some_iff.mp hfill
  refine ⟨rfl, h.putCache (fun k v hk hshard => ?_) hother⟩
  have hnew := S3Fifo.update_of_peek_insertFor hcache hk
  by_cases heq : k = key
  · subst heq
    rw [Function.update_self] at hnew
    exact hkey.trans hnew
  · rw [Function.update_of_ne heq] at hnew
    exact (hother k heq).trans (h k v (hshard ▸ hnew))

theorem Coherent.get (h : s.Coherent n) {tenant : Nat} {v : Option Bytes} (hget : s.get n key tenant = some (s', v)) :
    s'.store = s.store ∧ v = s.store.vals.lookup key ∧ s'.Coherent n := by
  have htouched : (Shards.putCache n s key ((s.caches (shardFor key n)).get key).2).Coherent n :=
    h.putCache (fun k v hk hshard => h k v (hshard ▸ S3Fifo.peek_get key k ▸ hk)) fun _ _ => rfl
  simp only [Shards.get, S3Fifo.get_fst] at hget
  split at hget
  · rename_i w hw
    cases hget
    exact ⟨rfl, (h key w hw).symm, htouched⟩
  · split at hget
    · rename_i hnone
      cases hget
      exact ⟨rfl, hnone.symm, htouched⟩
    · -- a miss that the store answers fills the cache
      rename_i w hw
      obtain ⟨filled, hfill, heq⟩ := Option.map_eq_some_iff.mp hget
      cases heq
      obtain ⟨hstore, hcoherent⟩ := htouched.fill hw (fun _ _ => rfl) hfill
      exact ⟨hstore, hw.symm, hcoherent⟩

theorem Coherent.set (h : s.Coherent n) {tenant : Nat} {limit : Option Nat} {resp resp' : KvResp}
    (hset : s.set n key value tenant limit resp = some (s', resp')) :
    s'.Coherent n ∧ ((s.store.set key value limit = .ok s'.store ∧ resp' = resp) ∨
      ∃ e, s.store.set key value limit = .error e ∧ s'.store = s.store ∧ resp' = .err (errorText e)) := by
  unfold Shards.set at hset
  split at hset
  · rename_i store hstore
    obtain ⟨filled, hfill, heq⟩ := Option.map_eq_some_iff.mp hset
    cases heq
    have hval : store.vals.lookup key = some value := by
      unfold Store.set at hstore
      dsimp only at hstore
      split at hstore
      · cases hstore
      · cases hstore
        exact AList.lookup_insert _
    obtain ⟨hfilled, hcoherent⟩ := h.fill hval (Store.set_writes hstore).vals hfill
    exact ⟨hcoherent, .inl ⟨hfilled ▸ hstore, rfl⟩⟩
  · rename_i e he
    cases hset
    exact ⟨h, .inr ⟨e, he, rfl, rfl⟩⟩

theorem Coherent.setMembers (h : s.Coherent n) {pairs : List (Bytes × Bytes)}
    (hset : pairs.foldlM (Shards.setMember n) s = some s') :
    s'.store = pairs.foldl Store.setMember s.store ∧ s'.Coherent n := by
  induction pairs generalizing s with
  | nil =>
    cases hset
    exact ⟨rfl, h⟩
  | cons p pairs ih =>
    rw [List.foldlM_cons] at hset
    obtain ⟨t, ht, hrest⟩ := Option.bind_eq_some_iff.mp hset
    obtain ⟨hstore, hcoherent⟩ := h.fill (AList.lookup_insert _) (Store.setMember_writes s.store p).vals ht
    rw [List.foldl_cons, ← hstore]
    exact ih hcoherent hrest

/-- A request that is answered is answered from the store, and the caches stay coherent. -/
theorem Coherent.process (h : s.Coherent n) {req : KvReq} {resp : KvResp}
    (hreq : s.process n req = some (s', resp)) : s.store.process req = (s'.store, resp) ∧ s'.Coherent n := by
  cases req with
  | get key tenant =>
    obtain ⟨⟨t, v⟩, hget, heq⟩ := Option.map_eq_some_iff.mp hreq
    cases heq
    obtain ⟨hstore, rfl, hcoherent⟩ := h.get hget
    exact ⟨by rw [Store.process, hstore], hcoherent⟩
  | set key value durability tenant limit =>
    obtain ⟨hcoherent, ⟨hset, rfl⟩ | ⟨e, hset, hstore, rfl⟩⟩ := h.set hreq
    · exact ⟨by rw [Store.process, hset], hcoherent⟩
    · exact ⟨by rw [Store.process, hset, hstore], hcoherent⟩
  | append key value durability tenant limit =>
    obtain ⟨⟨t, v⟩, hget, hwrite⟩ := Option.bind_eq_some_iff.mp hreq
    obtain ⟨hstore, rfl, hread⟩ := h.get hget
    obtain ⟨hcoherent, hset⟩ := hread.set hwrite
    rw [hstore] at hset
    dsimp only at hset
    obtain ⟨hset, rfl⟩ | ⟨e, hset, hstore, rfl⟩ := hset
    · exact ⟨by simp only [Store.process, hset], hcoherent⟩
    · exact ⟨by simp only [Store.process, hset, hstore], hcoherent⟩
  | setMany pairs durability =>
    rw [Shards.process] at hreq
    rw [Store.process]
    split at hreq
    · rename_i hempty
      cases hreq
      exact ⟨if_pos hempty, h⟩
    · rename_i hsome
      rw [if_neg hsome]
      split at hreq
      · cases hreq
        exact ⟨rfl, h⟩
      · obtain ⟨t, ht, heq⟩ := Option.map_eq_some_iff.mp hreq
        cases heq
        obtain ⟨hstore, hcoherent⟩ := h.setMembers ht
        exact ⟨by rw [hstore], hcoherent⟩
  | del key durability =>
    rw [Shards.process] at hreq
    rw [Store.process]
    split at hreq
    · cases hreq
      exact ⟨rfl, h⟩
    · cases hreq
      -- the cache forgets the key that the store has lost
      refine ⟨rfl, h.putCache (fun k w hk hshard => ?_) (Store.del_writes s.store key).vals⟩
      rw [S3Fifo.peek_remove] at hk
      split at hk
      · cases hk
      · rename_i hne
        exact ((Store.del_writes s.store key).vals k hne).trans (h k w (hshard ▸ hk))

theorem Coherent.run (h : s.Coherent n) {α : Type} {p : Prog α} {a : α} (hrun : s.run n p = some (s', a)) :
    p.run s.store = (s'.store, a) ∧ s'.Coherent n := by
  induction p generalizing s with
  | ret b =>
    cases hrun
    exact ⟨rfl, h⟩
  | call shard req k ih =>
    obtain ⟨⟨t, resp⟩, hreq, hrest⟩ := Option.bind_eq_some_iff.mp hrun
    obtain ⟨hstore, hcoherent⟩ := h.process hreq
    rw [Prog.run, hstore]
    exact ih resp hcoherent hrest

theorem Coherent.replies (h : s.Coherent n) {reqs : List (Request be)} {out : List (Request be × Frame)}
    (hout : s.replies n reqs = some out) : out = Noninterference.outputs (Server.serve n) s.store reqs := by
  induction reqs generalizing s out with
  | nil =>
    cases hout
    rfl
  | cons r reqs ih =>
    obtain ⟨⟨t, reply⟩, hserved, hrest⟩ := Option.bind_eq_some_iff.mp hout
    obtain ⟨rest, hreplies, rfl⟩ := Option.map_eq_some_iff.mp hrest
    have hserve : Server.serve n s.store r = (t.store, reply) ∧ t.Coherent n := by
      rw [Server.serve]
      unfold Shards.serve at hserved
      split at hserved
      · cases hserved
        exact ⟨rfl, h⟩
      · exact h.run hserved
    rw [Noninterference.outputs, hserve.1, ih hserve.2 hreplies]

end Shards

section

attribute [local instance] linkedHashes

/-- A tenant whose id is sixteen times the byte 7. -/
def namedTenant : TenantId := ⟨List.replicate 16 7, by decide⟩

def oneTenant : TenantBackend where
  hasTenant t := t = namedTenant
  maxDiskBytes _ := none

def namedSession : Session oneTenant := ⟨namedTenant, .inr (by decide)⟩

def anonymousSession : Session oneTenant := ⟨TenantId.zero, .inl (by decide)⟩

/-- Shards just opened, with the budget of the caches in the source. -/
def opened : Shards := ⟨⟨1024, ∅, ∅⟩, fun _ => .new (32 * 1024 * 1024)⟩

theorem coherent_opened (n : Nat) : opened.Coherent n := by
  intro key v hv
  cases hv

/-- The named tenant writes and reads a key, and the anonymous one writes to its stored form in between. -/
def forgery : List (Request oneTenant) :=
  [⟨namedSession, .set [97] [1], none⟩, ⟨anonymousSession, .set (List.replicate 16 7 ++ [97]) [2], none⟩,
    ⟨anonymousSession, .set [97] [3], none⟩, ⟨namedSession, .get [97], none⟩]

/-- With one shard and no limit, a SET of the named tenant returns if its cache insert does. -/
theorem isSome_serve_set (s : Shards) (key value : Bytes) :
    (s.serve 1 (⟨namedSession, .set key value, none⟩ : Request oneTenant)).isSome =
      ((s.caches 0).insertFor (namedTenant.bytes ++ key) value value.length namedTenant.toNat).isSome := by
  have hshard : shardFor (namedTenant.bytes ++ key) 1 = 0 := Nat.mod_one _
  change (((Shards.fill 1 _ (namedTenant.bytes ++ key) value namedTenant.toNat).map _).bind _).isSome = _
  rw [Shards.fill, hshard]
  cases (s.caches 0).insertFor (namedTenant.bytes ++ key) value value.length namedTenant.toNat <;> rfl

def smallSet : Request oneTenant := ⟨anonymousSession, .set [120] [1], none⟩

end

end Skeg.Server
