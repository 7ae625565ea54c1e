import Skeg.Resp3.Frame
import Skeg.Server.Shard

/-!
# What a vector search reserves

The sizes that a search computes from its arguments before it looks at a row: the capacity of the heap of a flat index,
of the visited sets and of the list of each graph walk, and of the shortlist of the router.  Sums and products are of
`usize`; those the source lets saturate are cut by a number of rows at once and need no bound here.  The numbers come
from the arguments of a RESP3 command.
-/

namespace Skeg

namespace Vector

/-- A computed size, unless it overflows. -/
def usize (n : Nat) : Except Fault Nat :=
  if n < 2 ^ 64 then .ok n else .error (.panic "attempt to compute a size with overflow")

/-- The heap of `FlatIndex::search`. -/
def FlatIndex.reserved (x : FlatIndex) (k : Nat) : Except Fault (List Nat) :=
  if k = 0 ∨ x.liveCount = 0 then .ok []
  else
    match x.kind with
    | .f32 => (usize (k + 1)).map ([·])
    | .turboQuant 4 => (usize (min (FlatIndex.rerankWidth k) x.rows.length + 1)).map ([·])
    | _ => (usize (min (FlatIndex.rerankWidth k) x.liveCount + 1)).map ([·])

namespace Index

/-- The list length of a walk that is not filtered. -/
def walkBase (x : Index) (k lSearch segIdx : Nat) : Except Fault Nat :=
  if segIdx = 0 then .ok (if lSearch = 0 then x.lSearch else lSearch) else (usize (k * 4)).map (max · 16)

/-- The visited sets and the list of the walks from segment number `i` on. -/
def reservedWalks (x : Index) (k lSearch : Nat) : Nat → List Segment → Except Fault (List Nat)
  | _, [] => .ok []
  | i, seg :: segs =>
    if seg.mainN = 0 then reservedWalks x k lSearch (i + 1) segs
    else do
      let listSize ← (x.walkBase k lSearch i).map (max · k)
      let list ← usize (max listSize 1 + 1)
      let rest ← reservedWalks x k lSearch (i + 1) segs
      .ok (seg.mainN :: seg.mainN :: list :: rest)

/-- `search_with_l`. -/
def reserved (x : Index) (k lSearch : Nat) : Except Fault (List Nat) :=
  if x.liveCount = 0 ∨ k = 0 then .ok []
  else do
    -- the reads of the rerank are bounded by this, nothing is reserved for them
    let _ ← usize (k * 8)
    x.reservedWalks k lSearch 0 x.segs

/-- `search_filtered_hybrid`, which reserves a shortlist when it probes the router. -/
def reservedHybrid (x : Index) (ids : List UInt64) (k rerank : Nat) : Except Fault (List Nat) :=
  match x.ivf with
  | none => .ok []
  | some router =>
    let rows := ids.filterMap x.base.row
    let budget := max shortlistSize rerank
    if k = 0 ∨ ids.length ≤ scanMax ∨ rows.length < ids.length ∨ rows.length ≤ budget then .ok []
    else (usize (budget + rows.length / max router.centroids.length 1)).map ([·])

end Index

end Vector

namespace Server

/-! ### The arguments -/

def parseUtf8Arg (b : Bytes) (label : String) : Except Resp3.Frame String :=
  match fromUtf8 b with
  | some s => .ok s
  | none => .error (.error ("ERR " ++ label ++ " must be UTF-8"))

/-- An unsigned argument. -/
def parseUnsignedArg (bits : Nat) (what : String) (b : Bytes) (label : String) :
    Except Resp3.Frame Nat :=
  match parseUtf8Arg b label with
  | .error e => .error e
  | .ok s =>
    match parseUnsigned bits (utf8 s) with
    | some n => .ok n
    | none => .error (.error ("ERR " ++ label ++ " must be a non-negative " ++ what))

def parseUsizeArg := parseUnsignedArg 64 "integer"

/-! ### The capacities -/

namespace VectorBackend

/-- The capacities a VSEARCH reserves in an index, with the ids its filter selects. -/
def reserved (k lSearch : Nat) : Option (List UInt64) → VectorBackend → Except Vector.Fault (List Nat)
  | none, flat i => i.reserved k
  | none, disk i => i.reserved k lSearch
  | some ids, b => do
    let rerank ← (Vector.usize (k * 8)).map (max · 64)
    match b with
    | flat _ => .ok []
    | disk i => i.reservedHybrid ids k rerank

/-- The rows an index holds. -/
def rows : VectorBackend → Nat
  | flat i => i.rows.length
  | disk i => (i.segs.map Vector.Segment.mainN).sum + i.delta.entries.length + i.flushing.entries.length

end VectorBackend

end Server

end Skeg
