import Skeg.Server.Shard

/-!
# Erasing a tenant on a shard

The requests EraseTenant and ErasePrefix of `shard.rs`.  The first drops the resident indexes of the
tenant, one after the other, and then deletes every key that starts with the tenant's 16 bytes; the second
deletes the keys below a longer prefix.  As with other requests, `Erasing` is what a request waits for.
-/

namespace Skeg.Server

/-! ### Whose index it is -/

/-- The value of a hexadecimal digit. -/
def hexDigit (c : Char) : Option Nat :=
  let n := c.toNat
  if 48 ≤ n ∧ n ≤ 57 then some (n - 48)
  else if 97 ≤ n ∧ n ≤ 102 then some (n - 87)
  else if 65 ≤ n ∧ n ≤ 70 then some (n - 55)
  else none

/-- `u8::from_str_radix` of two characters: a sign may stand for the first digit. -/
def hexByte (a b : Char) : Option UInt8 :=
  if a = '+' then (hexDigit b).map UInt8.ofNat
  else (hexDigit a).bind fun x => (hexDigit b).map fun y => UInt8.ofNat (16 * x + y)

/-- The bytes written in hexadecimal. -/
def hexBytes : List Char → Option Bytes
  | [] => some []
  | [_] => none
  | a :: b :: rest => (hexByte a b).bind fun x => (hexBytes rest).map (x :: ·)

/-- The parts in front of and behind the first `::`. -/
def splitScope : List Char → Option (List Char × List Char)
  | ':' :: ':' :: rest => some ([], rest)
  | [] => none
  | c :: cs => (splitScope cs).map fun p => (c :: p.1, p.2)

/-- The tenant of an index, and its name without it. -/
def unscopeKey (key : String) : Nat × String :=
  match splitScope key.toList with
  | none => (0, key)
  | some (scope, index) =>
    if scope.length = 32 then
      match hexBytes scope with
      | some bytes => (fromLE bytes, String.ofList index)
      | none => (0, key)
    else (0, key)

/-! ### The requests -/

inductive EraseReq where
  | tenant (tenant : Nat)
  | subject (tenant : Nat) (subject : Bytes)

inductive EraseResp where
  | erased (vindexes keys : Nat)
  | err (msg : String)

inductive Erasing where
  /-- The payloads of an index that has been dropped, those not deleted yet and those being deleted, and
  the indexes that are left. -/
  | dropping (tenant : Nat) (todo running : List Bytes) (names : List String) (dropped : Nat)
  /-- The keys of the sweep, likewise. -/
  | sweeping (todo running : List Bytes) (dropped erased : Nat)

/-- What `SKEG.SUBJECT.ERASE` asks of every shard, unless it is refused. -/
def skegSubjectErase (tenant : TenantId) : List Bytes → Except Frame EraseReq
  | [subject] =>
    if tenant.isZero then .error (.error "ERR SKEG.SUBJECT.ERASE requires an authenticated tenant")
    else if subject.isEmpty then .error (.error "ERR subject prefix must not be empty")
    else .ok (.subject tenant.toNat subject)
  | _ => .error (.error "ERR wrong number of arguments for 'SKEG.SUBJECT.ERASE'")

namespace Shard

variable (s : Shard)

/-- The keys below a prefix. -/
def victims (start : Bytes) : List Bytes := s.blobs.keys.filter fun k => start.isPrefixOf k

def sweepStep (todo running : List Bytes) (dropped erased : Nat) : EraseResp ⊕ Erasing :=
  let r := s.startDels todo running
  if r.1.isEmpty && r.2.isEmpty then .inl (.erased dropped erased)
  else .inr (.sweeping r.1 r.2 dropped erased)

/-- `sweep_prefix`. -/
def sweep (start : Bytes) (dropped : Nat) : EraseResp ⊕ Erasing :=
  s.sweepStep (s.victims start) [] dropped 0

section

variable [N : Vector.Numerics]

/-- Drop the indexes, up to one whose payloads have to be deleted. -/
def eraseNames (tenant : Nat) : Shard → List String → Nat → Shard × (EraseResp ⊕ Erasing)
  | s, [], dropped => (s, s.sweep (toLE 16 tenant) dropped)
  | s, name :: names, dropped =>
    match s.vindexes.lookup name with
    -- somebody else has dropped it
    | none => eraseNames tenant s names dropped
    | some _ =>
      let r := s.dropVindex name tenant
      match r.2 with
      | .inr (.dropPayloads todo running) => (r.1, .inr (.dropping tenant todo running names (dropped + 1)))
      | _ => eraseNames tenant r.1 names (dropped + 1)

def startErase : EraseReq → Shard × (EraseResp ⊕ Erasing)
  | .tenant tenant =>
    if tenant = 0 then (s, .inl (.err "cannot erase the anonymous tenant (0)"))
    else eraseNames tenant s (s.vindexes.keys.filter fun k => (unscopeKey k).1 = tenant) 0
  | .subject tenant subject =>
    if tenant = 0 then (s, .inl (.err "cannot erase under the anonymous tenant (0)"))
    else (s, s.sweep (toLE 16 tenant ++ subject) 0)

/-- What the request does once a deletion has ended: `choice` is which, of those that are running. -/
def resumeErase (choice : Nat) : Erasing → Shard × (EraseResp ⊕ Erasing)
  | .dropping tenant todo running names dropped =>
    match running[choice]? with
    | none => (s, .inr (.dropping tenant todo running names dropped))
    | some key =>
      let s := { s with blobs := s.blobs.erase key }
      let r := s.startDels todo (running.eraseIdx choice)
      if r.1.isEmpty && r.2.isEmpty then eraseNames tenant s names dropped
      else (s, .inr (.dropping tenant r.1 r.2 names dropped))
  | .sweeping todo running dropped erased =>
    match running[choice]? with
    | none => (s, .inr (.sweeping todo running dropped erased))
    | some key =>
      let s := { s with blobs := s.blobs.erase key }
      (s, s.sweepStep todo (running.eraseIdx choice) dropped (erased + 1))

end

end Shard

end Skeg.Server
