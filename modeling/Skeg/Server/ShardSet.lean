import Skeg.Lib.Interaction
import Skeg.Resp3.Frame
import Skeg.Server.Shard

/-!
# Calling the shards

What a method of `ShardSet` asks: requests to the mailboxes of the shards and their replies (`send`, `recv`), and the
permits of the search pool.  A handler is a `Program` of these operations.  Then the methods that send a request to every
shard.
-/

namespace Skeg.Server

open Interaction (Signature Program)
open Skeg.Vector (QuantKind Vec)

/-! ### Operations -/

section

variable [N : Vector.Numerics]

/-- The requests in the mailbox of a shard. -/
inductive ShardMsg where
  | kv (req : KvReq)
  /-- `MgetBatch`: keys, each with its place in the reply. -/
  | mget (items : List (Nat × Bytes)) (tenant : Nat)
  | vector (req : ShardReq)
  | eraseTenant (tenant : Nat) (durability : Durability)
  | erasePrefix (tenant : Nat) (subject : Bytes) (durability : Durability)
  | reclaim
  | stats

inductive ShardReply where
  | kv (resp : KvResp)
  | mget (items : List (Nat × Option Bytes))
  | vector (resp : ShardResp)
  | erased (vindexes keys : Nat)
  | reclaimed (bytes : Nat)
  | stats (cacheBytes evictions nKeys budget : Nat)
  | err (msg : String)

inductive HandlerOp where
  /-- Put a request into a mailbox. -/
  | send (shard : Nat) (req : ShardMsg)
  /-- Wait for the reply to a request that has been sent. -/
  | recv (ticket : Nat)
  /-- A permit of the search pool. -/
  | tryAcquire
  | release

/-- The answers: `none` to `send` for a mailbox that is closed, to `recv` for a reply that does not come. -/
def HandlerOp.Ret : HandlerOp → Type
  | send .. => Option Nat
  | recv _ => Option ShardReply
  | tryAcquire => Bool
  | release => Unit

abbrev Ops : Signature := ⟨HandlerOp, HandlerOp.Ret⟩

abbrev Handler (α : Type) := Program Ops α

namespace Handler

def send (shard : Nat) (req : ShardMsg) : Handler (Option Nat) := Program.perform (S := Ops) (.send shard req)

def recv (ticket : Nat) : Handler (Option ShardReply) := Program.perform (S := Ops) (.recv ticket)

def tryAcquire : Handler Bool := Program.perform (S := Ops) .tryAcquire

def release : Handler Unit := Program.perform (S := Ops) .release

end Handler

open Handler

/-! ### ShardSet -/

namespace ShardSet

/-- Send to the shards one after the other, while their mailboxes are open. -/
def sendAll (req : ShardMsg) : List Nat → Handler (Option (List Nat))
  | [] => pure (some [])
  | shard :: shards => do
    match ← send shard req with
    | none => pure none
    | some ticket =>
      match ← sendAll req shards with
      | none => pure none
      | some tickets => pure (some (ticket :: tickets))

/-- The replies of `broadcast`, with the first error so far. -/
def recvDone : List Nat → Option String → Handler (Except ShardError Unit)
  | [], none => pure (.ok ())
  | [], some e => pure (.error (.storage e))
  | ticket :: tickets, first => do
    match ← recv ticket with
    | some (.vector .done) => recvDone tickets first
    | some (.vector (.err e)) => recvDone tickets (first.or (some e))
    | _ => pure (.error .unavailable)

def broadcast (n : Nat) (req : ShardMsg) : Handler (Except ShardError Unit) := do
  match ← sendAll req (List.range n) with
  | none => pure (.error .unavailable)
  | some tickets => recvDone tickets none

/-- The reasons not to create an index of this dimension. -/
def validateDim (dim : Nat) : QuantKind → Except String Unit
  | .turboQuant bits =>
    let codesPerByte := 8 / bits
    if dim % codesPerByte ≠ 0 then
      .error s!"tq{bits} requires a dimension divisible by {codesPerByte} (got {dim})"
    else .ok ()
  | .pq m _ =>
    if m = 0 ∨ dim % m ≠ 0 then
      .error s!"PQ requires the dimension ({dim}) to be divisible by m ({m})"
    else .ok ()
  | _ => .ok ()

def vindexCreate (n : Nat) (name : String) (dim : Nat) (kind backend : UInt8) :
    Handler (Except ShardError Unit) :=
  if dim = 0 then pure (.error (.storage "vindex dim must be positive"))
  else
    match fromWire kind with
    | none => pure (.error (.storage s!"unknown vindex kind {kind}"))
    | some quant =>
      if backend ≠ 0 ∧ backend ≠ 1 then
        pure (.error (.storage s!"unknown vindex backend {backend}"))
      else
        match validateDim dim quant with
        | .error reason => pure (.error (.storage reason))
        | .ok () => broadcast n (.vector (.vindexCreate name dim quant (backend = 1)))

section

variable [H : Hashes]

/-- The replies of `vsearch`, with the hits and the first error so far. -/
def recvHits : List Nat → List (UInt64 × N.Score × Option Bytes) → Option String →
    Handler (Except ShardError (List (UInt64 × N.Score × Option Bytes)))
  | [], merged, first =>
    match merged, first with
    | [], some e => pure (.error (.storage e))
    | _, _ => pure (.ok merged)
  | ticket :: tickets, merged, first => do
    match ← recv ticket with
    | some (.vector (.vsearch hits)) => recvHits tickets (merged ++ hits) first
    | some (.vector (.err e)) => recvHits tickets merged (first.or (some e))
    | _ => pure (.error .unavailable)

def vsearch (n : Nat) (v : Vsearch) :
    Handler (Except ShardError (List (UInt64 × N.Score × Option Bytes))) := do
  if ← tryAcquire then
    let result ← do
      match ← sendAll (.vector (.vsearch v)) (List.range n) with
      | none => pure (.error .unavailable)
      | some tickets =>
        match ← recvHits tickets [] none with
        | .error e => pure (.error e)
        | .ok merged =>
          pure (.ok ((merged.insertionSort fun a b => b.2.1 ≤ a.2.1).take v.k))
    release
    pure result
  else pure (.error .busy)

end

end ShardSet

end

end Skeg.Server
