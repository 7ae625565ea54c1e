import Skeg.Lib.Counters
import Skeg.Server.Kv

/-!
# The counters of a tenant's quota

`TenantQuota` of `skeg-tenant` and the calls of `TenantHandle` that charge and refund it.  A counter is changed by a
loop of a load and a weak compare-and-exchange; the limits do not change while the calls run.
-/

namespace Skeg.Tenant

open Counters (Action Choice Setting State Task)
open Server (TenantId)

inductive Counter where
  | cacheBytes | nVectors
  deriving DecidableEq, Repr

inductive QuotaError where
  | cacheBudgetExceeded (tenant : TenantId) (wouldBe limit : Nat)
  | vectorCountExceeded (tenant : TenantId) (wouldBe limit : Nat)
  deriving DecidableEq

/-- The errors of `insert` and `delete`: of the quota, and of the adapter, with its text. -/
inductive MultiTenantError where
  | quota (e : QuotaError)
  | tenant (e : String)
  deriving DecidableEq

inductive Reply where
  | insert (r : Except MultiTenantError Unit)
  | delete (r : Except MultiTenantError Bool)
  | subUsageOnDelete

/-- What the adapter answers to an insert or a delete; the flag is that of a delete. -/
abbrev AdapterAnswer : Type := Except String Bool

abbrev QuotaTask : Type := Task Counter AdapterAnswer Reply

/-- Two 64-bit counters; a limit of zero is none. -/
def setting (cacheLimit vectorsLimit : UInt64) : Setting Counter where
  limit
    | .cacheBytes => cacheLimit.toNat
    | .nVectors => vectorsLimit.toNat
  top := 2 ^ 64 - 1

/-! ### `TenantQuota` -/

def tryAddCacheBytes (S : Setting Counter) (tenant : TenantId) (delta : Nat) (ok : QuotaTask)
    (err : QuotaError → QuotaTask) : QuotaTask :=
  .update .cacheBytes .add delta ok fun wouldBe => err (.cacheBudgetExceeded tenant wouldBe (S.limit .cacheBytes))

def subCacheBytes (delta : Nat) (next : QuotaTask) : QuotaTask := .update .cacheBytes .sub delta next fun _ => next

def tryAddVectors (S : Setting Counter) (tenant : TenantId) (delta : Nat) (ok : QuotaTask)
    (err : QuotaError → QuotaTask) : QuotaTask :=
  .update .nVectors .add delta ok fun wouldBe => err (.vectorCountExceeded tenant wouldBe (S.limit .nVectors))

def subVectors (delta : Nat) (next : QuotaTask) : QuotaTask := .update .nVectors .sub delta next fun _ => next

/-! ### `TenantHandle` -/

/-- What a record is charged: the floats of its embedding, its payload and its tags. -/
def bytesDelta (embedding : List UInt32) (tags : List Bytes) (payload : Bytes) : Nat :=
  (4 * embedding.length + payload.length + (tags.map List.length).sum) % 2 ^ 64

def insert (S : Setting Counter) (tenant : TenantId) (embedding : List UInt32) (tags : List Bytes) (payload : Bytes) :
    QuotaTask :=
  let bytes := bytesDelta embedding tags payload
  tryAddVectors S tenant 1
    (tryAddCacheBytes S tenant bytes
      (.ask fun
        | .ok _ => .ret (.insert (.ok ()))
        | .error e => subVectors 1 (subCacheBytes bytes (.ret (.insert (.error (.tenant e))))))
      fun e => subVectors 1 (.ret (.insert (.error (.quota e)))))
    fun e => .ret (.insert (.error (.quota e)))

def subUsageOnDelete (vectorCount byteCount : UInt64) : QuotaTask :=
  subVectors vectorCount.toNat (subCacheBytes byteCount.toNat (.ret .subUsageOnDelete))

def delete : QuotaTask :=
  .ask fun
    | .ok removed =>
      if removed then subVectors 1 (.ret (.delete (.ok removed))) else .ret (.delete (.ok removed))
    | .error e => .ret (.delete (.error (.tenant e)))

/-! ### Calls at the same time -/

inductive Request where
  | insert (embedding : List UInt32) (tags : List Bytes) (payload : Bytes)
  | delete
  | subUsageOnDelete (vectorCount byteCount : UInt64)

def Request.task (S : Setting Counter) (tenant : TenantId) : Request → QuotaTask
  | .insert embedding tags payload => Tenant.insert S tenant embedding tags payload
  | .delete => Tenant.delete
  | .subUsageOnDelete vectorCount byteCount => Tenant.subUsageOnDelete vectorCount byteCount

inductive QuotaAction where
  | call (r : Request)
  | step (i : Nat) (choice : Choice AdapterAnswer)

def QuotaAction.action (S : Setting Counter) (tenant : TenantId) : QuotaAction → Action Counter AdapterAnswer Reply
  | .call r => .start (r.task S tenant)
  | .step i choice => .step i choice

/-- The calls of one tenant's handles take their steps in any order. -/
def quotaStep (S : Setting Counter) (tenant : TenantId) (s : State Counter AdapterAnswer Reply) (a : QuotaAction) :
    Option (State Counter AdapterAnswer Reply × List Unit) :=
  Counters.step S s (a.action S tenant)

end Skeg.Tenant
