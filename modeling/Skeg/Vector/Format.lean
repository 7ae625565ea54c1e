import Skeg.Vector.Wal

/-!
# The base files of a disk vector index

`graph.vmn` is a 64-byte header, the ids and the nodes; `vectors.bin` is a 64-byte header and the rows.
`readGraph` and `readVectors` are the parts of `open_with_tier_full` that read them.  Opening can fail
in two ways: it returns an error, or it panics, on a slice that is out of range or on one of its
assertions.
-/

namespace Skeg

namespace Vector

/-- How a call ends that does not return `Ok`. -/
inductive Fault where
  | err (e : IoError)
  | panic (msg : String)
  deriving DecidableEq, Repr

/-- `with_capacity` for `n` entries, a sum that wraps in a release build, where the allocator has room for `room`. -/
def reserve (room n : Nat) : Except Fault Unit :=
  if n % 2 ^ 64 ≤ room then .ok () else .error (.panic "capacity overflow")

/-- `MAX_R`, the neighbours a node has room for. -/
def maxR : Nat := 64

structure Node where
  degree : UInt32
  neighbors : List UInt32
  length_neighbors : neighbors.length = maxR
  deriving DecidableEq

namespace Node

/-- The out-edges; slicing beyond the array panics. -/
def slice (n : Node) : Except Fault (List UInt32) :=
  if maxR < n.degree.toNat then .error (.panic "range end index out of range for slice of length 64")
  else .ok (n.neighbors.take n.degree.toNat)

def words (n : Node) : List Nat := n.degree.toNat :: n.neighbors.map UInt32.toNat

/-- The node of a degree and `MAX_R` neighbours. -/
def ofWords (ws : List Nat) : Node where
  degree := UInt32.ofNat (ws.headD 0)
  neighbors := (ws.tail.map UInt32.ofNat ++ List.replicate maxR 0).take maxR
  length_neighbors := by simp

/-- A node without out-edges. -/
def new : Node := ⟨0, List.replicate maxR 0, List.length_replicate⟩

end Node

def graphMagic : Nat := 0x4E4D5647

def vecMagic : Nat := 0x4E494256

def formatVersion : Nat := 1

def headerLen : Nat := 64

/-- Header fields of four bytes each, and zeros. -/
def header (fields : List Nat) : Bytes := toLEs 4 fields ++ zeros (headerLen - fields.length * 4)

/-- What `graph.vmn` holds. -/
structure Graph where
  dim : Nat
  medoid : Nat
  r : Nat
  lSearch : Nat
  ids : List UInt64
  nodes : List Node
  deriving DecidableEq

/-- The bytes `write_graph_vmn` writes. -/
def graphVmn (g : Graph) : Bytes :=
  header [graphMagic, formatVersion, g.ids.length, g.dim, g.medoid, g.r, g.lSearch] ++
    toLEs 8 (g.ids.map UInt64.toNat) ++ g.nodes.flatMap fun n => toLEs 4 n.words

/-- The bytes `write_vectors_bin` writes. -/
def vectorsBin (dim : Nat) (rows : List Vec) : Bytes :=
  header [vecMagic, formatVersion, rows.length, dim] ++ rows.flatMap encodeF32s

/-! ### Reading -/

def readU32 (b : Bytes) (at_ : Nat) : Nat := fromLE ((b.drop at_).take 4)

def readNodes : Nat → Bytes → Option (List Node)
  | 0, _ => some []
  | n + 1, bs =>
    match readLEs 4 (1 + maxR) bs with
    | none => none
    | some (ws, rest) => (readNodes n rest).map (Node.ofWords ws :: ·)

/-- `graph.vmn` as it is opened; `r` is not read. -/
def readGraph (b : Bytes) : Except Fault Graph :=
  if b.length < headerLen ∨ readU32 b 0 ≠ graphMagic ∨ readU32 b 4 ≠ formatVersion then
    .error (.err (.invalidData "bad graph.vmn header"))
  else
    let n := readU32 b 8
    match readLEs 8 n (b.drop headerLen) with
    | none => .error (.panic "range end index out of range for slice")
    | some (ids, rest) =>
      match readNodes n rest with
      | none => .error (.panic "index out of bounds")
      | some nodes =>
        .ok ⟨readU32 b 12, readU32 b 16, 0, readU32 b 24, ids.map UInt64.ofNat, nodes⟩

/-- One row, read at its position. -/
def readVector (b : Bytes) (dim row : Nat) : Except Fault Vec :=
  let offset := headerLen + row * dim * 4
  if 0 < dim ∧ b.length < offset + dim * 4 then .error (.err .unexpectedEof)
  else .ok (decodeF32s ((b.drop offset).take (dim * 4)))

/-- The rows of `vectors.bin`, for a graph of `n` rows of dimension `dim`. -/
def readVectors (b : Bytes) (n dim : Nat) : Except Fault (List Vec) :=
  if b.length < headerLen then .error (.err .unexpectedEof)
  else if readU32 b 0 ≠ vecMagic ∨ readU32 b 4 ≠ formatVersion then
    .error (.err (.invalidData "bad vectors.bin header"))
  else if readU32 b 8 ≠ n then .error (.panic "graph/vectors disagree on n")
  else if readU32 b 12 ≠ dim then .error (.panic "graph/vectors disagree on dim")
  else if 0 < n ∧ dim = 0 then .error (.panic "chunk size must be non-zero")
  else (List.range n).mapM (readVector b dim)

end Vector

end Skeg
