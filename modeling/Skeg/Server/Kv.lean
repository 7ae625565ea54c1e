import Skeg.Core.Text
import Skeg.Core.VLog

/-!
# The key-value commands of the RESP3 handler

The handlers of `resp3_handler.rs` for GET, SET, APPEND, DEL, EXISTS, MGET, MSET and the INCR family.
A handler checks and scopes its keys and then calls the shards; `Prog` is such a computation up to
the answers of the shards.  `Shards` are what they answer from when one client comes after the other:
the values of the keys with the disk bytes charged to every tenant, and the caches in front of them.
`Store` is the first half, a map that a client sees as long as the caches are coherent.

A named tenant's keys are stored behind the 16 bytes of its id, those of the anonymous tenant as
they are; a key of the latter that starts with the id of a bound tenant is refused.
-/

namespace Skeg.Server

/-! ### Tenants -/

structure TenantId where
  bytes : Bytes
  length_bytes : bytes.length = 16
  deriving DecidableEq

namespace TenantId

/-- The anonymous tenant. -/
def zero : TenantId := ⟨zeros 16, length_zeros 16⟩

def isZero (t : TenantId) : Bool := t.bytes = zeros 16

/-- `tenant_u128`. -/
def toNat (t : TenantId) : Nat := fromLE t.bytes

theorem toNat_injective {t u : TenantId} (h : t.toNat = u.toNat) : t = u := by
  have hbytes : t.bytes = u.bytes := fromLE_injective (t.length_bytes.trans u.length_bytes.symm) h
  cases t
  cases u
  cases hbytes
  rfl

end TenantId

/-- The multi-tenant layer, as far as the key-value commands ask it. -/
structure TenantBackend where
  hasTenant : TenantId → Bool
  /-- `limits(id).max_disk_bytes`. -/
  maxDiskBytes : TenantId → Option Nat

/-- A key with its tenant's prefix in front, unless the tenant is the anonymous one. -/
structure ScopedKey where
  bytes : Bytes
  tenant : TenantId
  prefixed : tenant.isZero = false → tenant.bytes <+: bytes

def scopeKey (tenant : TenantId) (key : Bytes) : ScopedKey where
  bytes := if tenant.isZero then key else tenant.bytes ++ key
  tenant := tenant
  prefixed h := by simp [h]

def ScopedKey.accountingTenant (k : ScopedKey) : Nat := k.tenant.toNat

def anonKeyCollidesWithTenant (tenant : TenantId) (key : Bytes) (ctx : Option TenantBackend) : Bool :=
  if tenant.isZero = false then false
  else if h : key.length < 16 then false
  else
    match ctx with
    | none => false
    | some ctx =>
      let candidate : TenantId := ⟨key.take 16, by simp; omega⟩
      if candidate.isZero then false else ctx.hasTenant candidate

/-! ### Replies -/

inductive Frame where
  | simple (line : String)
  | error (line : String)
  | integer (n : Int)
  | bulk (data : Bytes)
  | null
  | array (items : List Frame)

def Frame.ok : Frame := .simple "OK"

def anonForgeryError : Frame :=
  .error ("ERR key prefix collides with a bound tenant id; " ++
    "authenticate with HELLO 3 AUTH to use scoped keys")

/-- `n` in hexadecimal, with at least `w` digits. -/
def hex (w n : Nat) : String :=
  let digits := Nat.toDigits 16 n
  "0x" ++ String.ofList (List.replicate (w - digits.length) '0' ++ digits)

def errorText : Error → String
  | .io msg => "I/O error: " ++ msg
  | .crcMismatch expected got =>
    "CRC mismatch: computed " ++ hex 8 expected.toNat ++ ", stored " ++ hex 8 got.toNat
  | .invalidRecord msg => "invalid record: " ++ msg
  | .unknownKind kind => "unknown record kind: " ++ hex 2 kind.toNat
  | .diskQuota => "tenant disk quota exceeded"

inductive ShardError where
  | unavailable
  | busy
  | storage (msg : String)

def ShardError.text : ShardError → String
  | .unavailable => "shard unavailable"
  | .busy => "vsearch queue is full"
  | .storage msg => "storage error: " ++ msg

def shardError (e : ShardError) : Frame := .error ("ERR " ++ e.text)

/-! ### Calling the shards -/

/-- The requests a shard answers from its value log. -/
inductive KvReq where
  | get (key : Bytes) (tenant : Nat)
  | set (key value : Bytes) (durability : Durability) (tenant : Nat) (diskLimit : Option Nat)
  | setMany (pairs : List (Bytes × Bytes)) (durability : Durability)
  | append (key value : Bytes) (durability : Durability) (tenant : Nat) (diskLimit : Option Nat)
  | del (key : Bytes) (durability : Durability)

inductive KvResp where
  | value (v : Option Bytes)
  | done
  | len (n : Nat)
  | existed (b : Bool)
  | err (msg : String)

/-- The operation of the value log that a shard runs for a request. -/
def KvReq.op : KvReq → Op
  | .get key tenant => .get key tenant
  | .set key value durability tenant diskLimit => .set key value durability tenant diskLimit
  | .setMany pairs durability => .setMany pairs durability
  | .append key value durability tenant diskLimit => .append key value durability tenant diskLimit
  | .del key durability => .del key durability

/-- A handler: it is done, or it waits for the answer of a shard. -/
inductive Prog (α : Type) where
  | ret (a : α)
  | call (shard : Nat) (req : KvReq) (k : KvResp → Prog α)

namespace Prog

def bind {α β : Type} : Prog α → (α → Prog β) → Prog β
  | ret a, f => f a
  | call shard req k, f => call shard req fun r => (k r).bind f

instance : Monad Prog where
  pure := ret
  bind := bind

end Prog

section

variable [H : Hashes]

def shardFor (key : Bytes) (n : Nat) : Nat := (xxh3_64 key).toNat % n

/-- The shards, and the tenant and limit a view of them is for. -/
structure ShardTenantView where
  n : Nat
  tenant : Nat
  diskLimit : Option Nat

namespace ShardTenantView

variable (v : ShardTenantView)

def get (key : Bytes) : Prog (Except ShardError (Option Bytes)) :=
  .call (shardFor key v.n) (.get key v.tenant) fun
    | .value x => .ret (.ok x)
    | .err e => .ret (.error (.storage e))
    | _ => .ret (.error .unavailable)

def set (key value : Bytes) (durability : Durability) : Prog (Except ShardError Unit) :=
  .call (shardFor key v.n) (.set key value durability v.tenant v.diskLimit) fun
    | .done => .ret (.ok ())
    | .err e => .ret (.error (.storage e))
    | _ => .ret (.error .unavailable)

def append (key value : Bytes) (durability : Durability) : Prog (Except ShardError Nat) :=
  .call (shardFor key v.n) (.append key value durability v.tenant v.diskLimit) fun
    | .len n => .ret (.ok n)
    | .err e => .ret (.error (.storage e))
    | _ => .ret (.error .unavailable)

end ShardTenantView

namespace ShardSet

/-- `ShardSet::tenant`. -/
def tenant (n tenant : Nat) : ShardTenantView := ⟨n, tenant, none⟩

def del (n : Nat) (key : Bytes) (durability : Durability) : Prog (Except ShardError Bool) :=
  .call (shardFor key n) (.del key durability) fun
    | .existed b => .ret (.ok b)
    | .err e => .ret (.error (.storage e))
    | _ => .ret (.error .unavailable)

/-- The batches of the shards from `shard` on, `fuel` of them. -/
def msetFrom (n : Nat) (pairs : List (Bytes × Bytes)) (durability : Durability) :
    Nat → Nat → Prog (Except ShardError Unit)
  | _, 0 => .ret (.ok ())
  | shard, fuel + 1 =>
    let batch := pairs.filter fun p => shardFor p.1 n = shard
    if batch.isEmpty then msetFrom n pairs durability (shard + 1) fuel
    else .call shard (.setMany batch durability) fun
      | .done => msetFrom n pairs durability (shard + 1) fuel
      | .err e => .ret (.error (.storage e))
      | _ => .ret (.error .unavailable)

def mset (n : Nat) (pairs : List (Bytes × Bytes)) (durability : Durability) :
    Prog (Except ShardError Unit) :=
  msetFrom n pairs durability 0 n

end ShardSet

/-! ### Handlers -/

inductive Command where
  | get (key : Bytes)
  | set (key value : Bytes)
  | append (key value : Bytes)
  | del (keys : List Bytes)
  | exists_ (keys : List Bytes)
  | mget (keys : List Bytes)
  | mset (pairs : List (Bytes × Bytes))
  | incr (key : Bytes)
  | decr (key : Bytes)
  | incrBy (key : Bytes) (delta : Int64)
  | decrBy (key : Bytes) (delta : Int64)

def defaultDurability : Durability := .kernel

variable (n : Nat) (tenant : TenantId) (ctx : Option TenantBackend)

def kvGet : List Bytes → Prog Frame
  | [key] =>
    if anonKeyCollidesWithTenant tenant key ctx then pure anonForgeryError
    else do
      let k := scopeKey tenant key
      match ← (ShardSet.tenant n k.accountingTenant).get k.bytes with
      | .ok (some v) => pure (.bulk v)
      | .ok none => pure .null
      | .error e => pure (shardError e)
  | _ => pure (.error "ERR wrong number of arguments for 'GET'")

def kvSet : List Bytes → Prog Frame
  | [key, value] =>
    if anonKeyCollidesWithTenant tenant key ctx then pure anonForgeryError
    else do
      let k := scopeKey tenant key
      let diskLimit := ctx.bind fun b => b.maxDiskBytes tenant
      let view := { ShardSet.tenant n k.accountingTenant with diskLimit := diskLimit }
      match ← view.set k.bytes value defaultDurability with
      | .ok () => pure .ok
      | .error e => pure (shardError e)
  | _ => pure (.error "ERR wrong number of arguments for 'SET'")

def kvAppend : List Bytes → Prog Frame
  | [key, value] =>
    if anonKeyCollidesWithTenant tenant key ctx then pure anonForgeryError
    else do
      let k := scopeKey tenant key
      let diskLimit := ctx.bind fun b => b.maxDiskBytes tenant
      let view := { ShardSet.tenant n k.accountingTenant with diskLimit := diskLimit }
      match ← view.append k.bytes value defaultDurability with
      | .ok len => pure (.integer len)
      | .error e => pure (shardError e)
  | _ => pure (.error "ERR wrong number of arguments for 'APPEND'")

/-- The loop of `kv_del`, with the keys deleted so far. -/
def delLoop : List Bytes → Int → Prog Frame
  | [], count => pure (.integer count)
  | key :: keys, count => do
    match ← ShardSet.del n (scopeKey tenant key).bytes defaultDurability with
    | .ok true => delLoop keys (count + 1)
    | .ok false => delLoop keys count
    | .error e => pure (shardError e)

def kvDel (args : List Bytes) : Prog Frame :=
  if args.isEmpty then pure (.error "ERR wrong number of arguments for 'DEL'")
  else if args.any fun key => anonKeyCollidesWithTenant tenant key ctx then pure anonForgeryError
  else delLoop n tenant args 0

/-- The loop of `kv_exists`, with the keys found so far. -/
def existsLoop : List Bytes → Int → Prog Frame
  | [], count => pure (.integer count)
  | key :: keys, count => do
    let k := scopeKey tenant key
    match ← (ShardSet.tenant n k.accountingTenant).get k.bytes with
    | .ok (some _) => existsLoop keys (count + 1)
    | .ok none => existsLoop keys count
    | .error e => pure (shardError e)

def kvExists (args : List Bytes) : Prog Frame :=
  if args.isEmpty then pure (.error "ERR wrong number of arguments for 'EXISTS'")
  else if args.any fun key => anonKeyCollidesWithTenant tenant key ctx then pure anonForgeryError
  else existsLoop n tenant args 0

/-- The loop of `kv_mget`, with the replies so far. -/
def mgetLoop : List Bytes → List Frame → Prog Frame
  | [], out => pure (.array out)
  | key :: keys, out => do
    let k := scopeKey tenant key
    match ← (ShardSet.tenant n k.accountingTenant).get k.bytes with
    | .ok (some v) => mgetLoop keys (out ++ [.bulk v])
    | .ok none => mgetLoop keys (out ++ [.null])
    | .error e => pure (shardError e)

def kvMget (args : List Bytes) : Prog Frame :=
  if args.isEmpty then pure (.error "ERR wrong number of arguments for 'MGET'")
  else if args.any fun key => anonKeyCollidesWithTenant tenant key ctx then pure anonForgeryError
  else mgetLoop n tenant args []

/-- `args.chunks(2)` of an even number of arguments. -/
def chunks : List Bytes → List (Bytes × Bytes)
  | key :: value :: args => (key, value) :: chunks args
  | _ => []

def kvMset (args : List Bytes) : Prog Frame :=
  if args.isEmpty || args.length % 2 ≠ 0 then
    pure (.error "ERR wrong number of arguments for 'MSET'")
  else if (chunks args).any fun c => anonKeyCollidesWithTenant tenant c.1 ctx then
    pure anonForgeryError
  else do
    let pairs := (chunks args).map fun c => ((scopeKey tenant c.1).bytes, c.2)
    -- no disk limit on this path
    match ← ShardSet.mset n pairs defaultDurability with
    | .ok () => pure .ok
    | .error e => pure (shardError e)

/-- A read and a write of the key, each on its own; no disk limit on this path either. -/
def incrApply (key : Bytes) (delta : Int64) (tenant : Nat) : Prog Frame := do
  let store := ShardSet.tenant n tenant
  match ← store.get key with
  | .error e => pure (shardError e)
  | .ok v =>
    match v.elim (some 0) parseI64 with
    | none => pure (.error "ERR value is not an integer or out of range")
    | some current =>
      match checkedAdd current delta with
      | none => pure (.error "ERR increment or decrement would overflow")
      | some new =>
        match ← store.set key (formatI64 new) defaultDurability with
        | .ok () => pure (.integer new.toInt)
        | .error e => pure (shardError e)

def kvIncrBy (sign : Int64) : List Bytes → Prog Frame
  | [key] =>
    if anonKeyCollidesWithTenant tenant key ctx then pure anonForgeryError
    else
      let k := scopeKey tenant key
      incrApply n k.bytes sign k.accountingTenant
  | _ => pure (.error "ERR wrong number of arguments for 'INCR/DECR'")

def kvIncrbyApply (key : Bytes) (delta : Int64) : Prog Frame :=
  if anonKeyCollidesWithTenant tenant key ctx then pure anonForgeryError
  else
    let k := scopeKey tenant key
    incrApply n k.bytes delta k.accountingTenant

def dispatchCommand : Command → Prog Frame
  | .get key => kvGet n tenant ctx [key]
  | .set key value => kvSet n tenant ctx [key, value]
  | .append key value => kvAppend n tenant ctx [key, value]
  | .del keys => kvDel n tenant ctx keys
  | .exists_ keys => kvExists n tenant ctx keys
  | .mget keys => kvMget n tenant ctx keys
  | .mset pairs => kvMset n tenant ctx (pairs.flatMap fun p => [p.1, p.2])
  | .incr key => kvIncrBy n tenant ctx 1 [key]
  | .decr key => kvIncrBy n tenant ctx (-1) [key]
  | .incrBy key delta => kvIncrbyApply n tenant ctx key delta
  | .decrBy key delta =>
    match checkedNeg delta with
    | some signed => kvIncrbyApply n tenant ctx key signed
    | none => pure (.error "ERR value out of range")

end

/-! ### The shards, seen by one client after the other -/

structure Store where
  maxSegSize : Nat
  /-- The current value of every key, on whichever shard it is. -/
  vals : AList fun _ : Bytes => Bytes
  /-- The counters are shared by all shards. -/
  tenantDisk : AList fun _ : Nat => Nat

namespace Store

variable (s : Store)

/-- The bytes the current record of `key` takes. -/
def diskSize (key : Bytes) : Nat :=
  (s.vals.lookup key).elim 0 fun v => paddedRecordSize key.length v.length

def set (key value : Bytes) (diskLimit : Option Nat) : Except Error Store :=
  let charged := (s.tenantDisk.lookup (tenantFromKey key)).getD 0
  let projected := charged - s.diskSize key + paddedRecordSize key.length value.length
  if diskLimit.any fun limit => projected > limit then .error .diskQuota
  else .ok { s with
    vals := s.vals.insert key value
    tenantDisk := s.tenantDisk.insert (tenantFromKey key) projected }

/-- One pair of a batch; only a tenant with a counter is discharged for the record it replaces. -/
def setMember (p : Bytes × Bytes) : Store :=
  let dtenant := tenantFromKey p.1
  let disk := match s.vals.lookup p.1, s.tenantDisk.lookup dtenant with
    | some _, some e => s.tenantDisk.insert dtenant (e - s.diskSize p.1)
    | _, _ => s.tenantDisk
  { s with
    vals := s.vals.insert p.1 p.2
    tenantDisk := disk.insert dtenant
      ((disk.lookup dtenant).getD 0 + paddedRecordSize p.1.length p.2.length) }

def del (key : Bytes) : Store :=
  let dtenant := tenantFromKey key
  { s with
    vals := s.vals.erase key
    tenantDisk := match s.tenantDisk.lookup dtenant with
      | none => s.tenantDisk
      | some e => if e - s.diskSize key = 0 then s.tenantDisk.erase dtenant
        else s.tenantDisk.insert dtenant (e - s.diskSize key) }

/-- Why `set_many` refuses a batch. -/
def batchError (pairs : List (Bytes × Bytes)) : Option Error :=
  let sizes := pairs.map fun p => paddedRecordSize p.1.length p.2.length
  if pairs.length ≥ 2 ^ 32 then some (.invalidRecord "batch too large")
  else if (VLog.memberOffsets (paddedRecordSize 0 4) pairs).any (2 ^ 32 ≤ ·) then
    some (.invalidRecord "batch too large")
  else if paddedRecordSize 0 4 + sizes.sum > s.maxSegSize then
    some (.invalidRecord "batch exceeds one segment")
  else none

def process : KvReq → Store × KvResp
  | .get key _ => (s, .value (s.vals.lookup key))
  | .set key value _ _ diskLimit =>
    match s.set key value diskLimit with
    | .ok s' => (s', .done)
    | .error e => (s, .err (errorText e))
  | .setMany pairs _ =>
    if pairs.isEmpty then (s, .done)
    else
      match s.batchError pairs with
      | some e => (s, .err (errorText e))
      | none => (pairs.foldl setMember s, .done)
  | .append key value _ _ diskLimit =>
    let new := (s.vals.lookup key).getD [] ++ value
    match s.set key new diskLimit with
    | .ok s' => (s', .len new.length)
    | .error e => (s, .err (errorText e))
  | .del key _ =>
    match s.vals.lookup key with
    | none => (s, .existed false)
    | some _ => (s.del key, .existed true)

end Store

/-- A handler runs to its end. -/
def Prog.run {α : Type} (s : Store) : Prog α → Store × α
  | .ret a => (s, a)
  | .call _ req k => Prog.run (s.process req).1 (k (s.process req).2)

/-- A tenant a connection can be authenticated as, or the anonymous one. -/
structure Session (be : TenantBackend) where
  tenant : TenantId
  known : tenant.isZero ∨ be.hasTenant tenant
  deriving DecidableEq

structure Request (be : TenantBackend) where
  session : Session be
  command : Command
  /-- The message with which the backend's admission gate turns the command away, if it does. -/
  rejected : Option String

/-- A command that gets its reply before the next one starts. -/
def serve [H : Hashes] (n : Nat) {be : TenantBackend} (s : Store) (r : Request be) : Store × Frame :=
  match r.rejected with
  | some message => (s, .error message)
  | none => (dispatchCommand n r.session.tenant (some be) r.command).run s

/-! ### The shards with their caches -/

structure Shards where
  store : Store
  /-- One for every shard, which all tenants share. -/
  caches : Nat → S3Fifo Bytes

namespace Shards

variable [H : Hashes] (n : Nat)

/-- The cache of the shard of a key is replaced. -/
def putCache (s : Shards) (key : Bytes) (cache : S3Fifo Bytes) : Shards :=
  { s with caches := Function.update s.caches (shardFor key n) cache }

/-- A value goes into the cache.  `none` when the cache insert does not return. -/
def fill (s : Shards) (key value : Bytes) (tenant : Nat) : Option Shards :=
  ((s.caches (shardFor key n)).insertFor key value value.length tenant).map (s.putCache n key)

/-- `get_scoped`. -/
def get (s : Shards) (key : Bytes) (tenant : Nat) : Option (Shards × Option Bytes) :=
  let r := (s.caches (shardFor key n)).get key
  let s := s.putCache n key r.2
  match r.1 with
  | some v => some (s, some v)
  | none =>
    match s.store.vals.lookup key with
    | none => some (s, none)
    | some v => (s.fill n key v tenant).map (·, some v)

/-- `set_scoped`, which answers `resp` when it has written. -/
def set (s : Shards) (key value : Bytes) (tenant : Nat) (diskLimit : Option Nat) (resp : KvResp) :
    Option (Shards × KvResp) :=
  match s.store.set key value diskLimit with
  | .ok store => (fill n { s with store := store } key value tenant).map (·, resp)
  | .error e => some (s, .err (errorText e))

def setMember (s : Shards) (p : Bytes × Bytes) : Option Shards :=
  fill n { s with store := s.store.setMember p } p.1 p.2 (tenantFromKey p.1)

def process (s : Shards) : KvReq → Option (Shards × KvResp)
  | .get key tenant => (s.get n key tenant).map fun r => (r.1, .value r.2)
  | .set key value _ tenant diskLimit => s.set n key value tenant diskLimit .done
  | .setMany pairs _ =>
    if pairs.isEmpty then some (s, .done)
    else
      match s.store.batchError pairs with
      | some e => some (s, .err (errorText e))
      | none => (pairs.foldlM (setMember n) s).map (·, .done)
  | .append key value _ tenant diskLimit =>
    (s.get n key tenant).bind fun r =>
      let new := r.2.getD [] ++ value
      r.1.set n key new tenant diskLimit (.len new.length)
  | .del key _ =>
    match s.store.vals.lookup key with
    | none => some (s, .existed false)
    | some _ =>
      some (putCache n { s with store := s.store.del key } key ((s.caches (shardFor key n)).remove key), .existed true)

/-- A handler runs to its end, if every request it makes is answered. -/
def run {α : Type} (s : Shards) : Prog α → Option (Shards × α)
  | .ret a => some (s, a)
  | .call _ req k => (s.process n req).bind fun r => run r.1 (k r.2)

def serve {be : TenantBackend} (s : Shards) (r : Request be) : Option (Shards × Frame) :=
  match r.rejected with
  | some message => some (s, .error message)
  | none => s.run n (dispatchCommand n r.session.tenant (some be) r.command)

/-- The commands with their replies, if there is one to each. -/
def replies {be : TenantBackend} (s : Shards) : List (Request be) → Option (List (Request be × Frame))
  | [] => some []
  | r :: reqs => (s.serve n r).bind fun p => (replies p.1 reqs).map ((r, p.2) :: ·)

end Shards

end Skeg.Server
