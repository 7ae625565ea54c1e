import Skeg.Tenant.Quota

/-!
# The quota counters under concurrent calls

Every call returns with its account settled (`Request.ends`): an insert that fails has released what it was granted.
Over all interleavings the counters are the balance of the accounts, and within their limits (`quota_counters`, from
`Counters.run_ledger`).
-/

namespace Skeg.Tenant

open Counters (Choice Fair Setting State Task)
open Server (TenantId)

/-- An insert that returns an error has a net change of zero. -/
def Settled (r : Reply) (granted released : Counter → Nat) : Prop :=
  ∀ e, r = .insert (.error e) → granted = released

section

variable (S : Setting Counter) (tenant : TenantId)

theorem ends_insert (embedding : List UInt32) (tags : List Bytes) (payload : Bytes) :
    (Tenant.insert S tenant embedding tags payload).Ends Settled (fun _ => 0) fun _ => 0 := by
  refine ⟨⟨fun answer => ?_, fun wouldBe => ?_⟩, fun wouldBe => ?_⟩
  · cases answer with
    | ok removed =>
      intro e he
      cases he
    | error e => exact fun _ _ => rfl
  · exact fun _ _ => rfl
  · exact fun _ _ => rfl

theorem Request.ends (r : Request) : (r.task S tenant).Ends Settled (fun _ => 0) fun _ => 0 := by
  cases r with
  | insert embedding tags payload => exact ends_insert S tenant embedding tags payload
  | delete =>
    intro answer
    cases answer with
    | ok removed =>
      cases removed <;> exact fun e he => by cases he
    | error e => exact fun e he => by cases he
  | subUsageOnDelete vectorCount byteCount => exact fun e he => by cases he

end

instance (S : Setting Counter) (s : State Counter AdapterAnswer Reply)
    (a : Counters.Action Counter AdapterAnswer Reply) : Decidable (Fair S s a) :=
  decidable_of_iff (∀ r ∈ Counters.step S s a,
    (r.1.released .cacheBytes ≤ r.1.granted .cacheBytes ∧ r.1.granted .cacheBytes ≤ S.top) ∧
      r.1.released .nVectors ≤ r.1.granted .nVectors ∧ r.1.granted .nVectors ≤ S.top)
    ⟨fun h s' ev hstep c => match c with
      | .cacheBytes => (h (s', ev) hstep).1
      | .nVectors => (h (s', ev) hstep).2,
    fun h r hr => ⟨h r.1 r.2 hr .cacheBytes, h r.1 r.2 hr .nVectors⟩⟩

/-- The error of an insert that has returned one. -/
def insertError : QuotaTask → Option MultiTenantError
  | .ret (.insert (.error e)) => some e
  | _ => none

/-- Both inserts load the counter of vectors before either exchanges it; the limit is one vector. -/
def raceForOne : List QuotaAction :=
  [.call (.insert [0] [] [1, 2]), .call (.insert [0] [] [1, 2]), .step 0 .go, .step 1 .go, .step 0 .go, .step 1 .go,
    .step 1 .go]

end Skeg.Tenant
