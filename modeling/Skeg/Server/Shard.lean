import Skeg.Server.Payload
import Skeg.Server.Registry
import Skeg.Vector.Flat
import Skeg.Vector.Search

/-!
# The vector indexes of a shard

The state of a shard in `shard.rs`: the map from names to resident indexes, their directories and the registry, the
payload blobs in the value log, and the vector quota, with the requests and replies of its mailbox.  A shard runs on one
thread and its requests interleave where they wait; `Pending` is what a request waits for.

An index that is resident is an instance on the heap: a request that has looked it up keeps it, also when its name is
gone from the map.  The value log is its current values; a write of it takes effect when the request that waits for it
resumes.  `dropVindex` is VINDEX.DROP up to the deletion of the payloads.
-/

namespace Skeg.Server

open Skeg.Vector (Dir Fault FlatIndex IoError QuantKind Vec openIndex)

/-! ### State -/

inductive VectorBackend where
  | flat (i : FlatIndex)
  | disk (i : Vector.Index)

structure Vindex where
  backend : VectorBackend
  kind : UInt8

structure Shard where
  /-- The tier for registry entries without a kind. -/
  tier : QuantKind
  /-- Searches run on worker threads. -/
  pool : Bool
  /-- The resident indexes, by name. -/
  vindexes : AList fun _ : String => Nat
  /-- The instances there have been, resident or not. -/
  instances : List Vindex
  /-- The files under `vindex-<name>`. -/
  dirs : String → Dir
  /-- The directory exists. -/
  present : String → Bool
  registry : Option Bytes
  /-- The value log. -/
  blobs : AList fun _ : Bytes => Bytes
  /-- The vectors reserved by each tenant that has a limit. -/
  quota : AList fun _ : Nat => Nat

/-- A shard on an empty directory. -/
def Shard.fresh (tier : QuantKind) (pool : Bool) : Shard where
  tier := tier
  pool := pool
  vindexes := ∅
  instances := []
  dirs := fun _ => Vector.Dir.empty
  present := fun _ => false
  registry := none
  blobs := ∅
  quota := ∅

/-! ### Requests -/

structure Vsearch where
  name : String
  query : Vec
  k : Nat
  lSearch : Nat
  tenant : Nat
  wantPayload : Bool
  filter : Option Filter

inductive ShardReq where
  | vindexCreate (name : String) (dim : Nat) (kind : QuantKind) (disk : Bool)
  | vindexList
  | vindexConsolidate (name : String)
  | evict (name : String)
  | vindexDrop (name : String) (tenant : Nat)
  | vset (name : String) (id : UInt64) (vector : Vec) (tenant : Nat) (limit : Option Nat)
      (payload : Option Bytes)
  | vget (name : String) (id : UInt64)
  | vdel (name : String) (id : UInt64) (tenant : Nat)
  | vsearch (v : Vsearch)

section

variable [N : Vector.Numerics]

inductive ShardResp where
  | done
  | err (msg : String)
  /-- Name, dimension, kind, backend and length. -/
  | vindexList (rows : List (String × Nat × UInt8 × UInt8 × Nat))
  | evicted (b : Bool)
  | vector (v : Option Vec)
  | existed (b : Bool)
  | vsearch (hits : List (UInt64 × N.Score × Option Bytes))
  /-- The task has panicked: there is no reply. -/
  | lost

/-- What a request waits for once it has its index. -/
inductive Pending where
  /-- The deletions of `drop_vindex`, not started and started. -/
  | dropPayloads (todo running : List Bytes)

end

namespace VectorBackend

def dim : VectorBackend → Nat
  | flat i => i.dim
  | disk i => i.dim

def len : VectorBackend → Nat
  | flat i => i.liveCount
  | disk i => i.len

def isDisk : VectorBackend → Bool
  | flat _ => false
  | disk _ => true

def liveIds : VectorBackend → List UInt64
  | flat i => i.liveIds
  | disk i => i.liveIds

end VectorBackend

/-! ### Parts of the shard -/

/-- `\0vp`, between the tenant and the name. -/
def payloadMarker : Bytes := [0, 118, 112]

def payloadKey (tenant : Nat) (name : String) (id : UInt64) : Bytes :=
  toLE 16 tenant ++ payloadMarker ++ utf8 name ++ toLE 8 id.toNat

def quotaSub (q : AList fun _ : Nat => Nat) (tenant delta : Nat) : AList fun _ : Nat => Nat :=
  match q.lookup tenant with
  | none => q
  | some c => if c - delta = 0 then q.erase tenant else q.insert tenant (c - delta)

/-- `remove_dir_all`; files that are open keep their contents. -/
def removeDir (d : Dir) : Dir := fun k => { d k with entry := fun _ => none }

namespace Shard

variable (s : Shard)

/-- The resident disk indexes with what the registry has of them. -/
def residentDisks : List (String × Nat × UInt8) :=
  s.vindexes.entries.filterMap fun e =>
    match s.instances[e.2]? with
    | some v => if v.backend.isDisk then some (e.1, v.backend.dim, v.kind) else none
    | none => none

/-- The registered indexes and the resident ones, as far as their directories exist, by name. -/
def registered : List (String × Nat × UInt8) :=
  let known := (readRegistry s.registry).map fun e => (e.name, e.dim, e.kind.getD 1)
  let byName : AList fun _ : String => Nat × UInt8 :=
    (known ++ s.residentDisks).foldl (fun m e => m.insert e.1 e.2) ∅
  ((byName.entries.map fun e => (e.1, e.2)).filter fun e => s.present e.1).insertionSort
    fun a b => a.1 ≤ b.1

def persistRegistry : Shard := { s with registry := some (writeRegistry s.registered) }

section

variable [H : Hashes] [N : Vector.Numerics]

/-! ### Deleting payloads -/

/-- The deletions `drop_vindex` runs at the same time. -/
def eraseConcurrency : Nat := 256

/-- Start deletions while there is room; one of a key that is not there ends at once. -/
def startDels : List Bytes → List Bytes → List Bytes × List Bytes
  | [], running => ([], running)
  | key :: todo, running =>
    if eraseConcurrency ≤ running.length then (key :: todo, running)
    else if (s.blobs.lookup key).isSome then startDels todo (running ++ [key])
    else startDels todo running

def dropStep (todo running : List Bytes) : ShardResp ⊕ Pending :=
  let r := s.startDels todo running
  if r.1.isEmpty && r.2.isEmpty then .inl .done else .inr (.dropPayloads r.1 r.2)

/-! ### Requests -/

/-- Up to the deletion of the payloads. -/
def dropVindex (name : String) (tenant : Nat) : Shard × (ShardResp ⊕ Pending) :=
  match (s.vindexes.lookup name).bind fun inst => s.instances[inst]? with
  | none => (s, .inl (.err s!"vindex '{name}' not found"))
  | some x =>
    let s := { s with
      vindexes := s.vindexes.erase name, quota := quotaSub s.quota tenant x.backend.len }
    let s := if x.backend.isDisk then
        { s with
          dirs := Function.update s.dirs name (removeDir (s.dirs name))
          present := Function.update s.present name false }.persistRegistry
      else s
    (s, s.dropStep (x.backend.liveIds.map (payloadKey tenant name)) [])

end

end Shard

end Skeg.Server
