import Skeg.Vector.Numerics
import Mathlib.Data.List.Sort

/-!
# The coarse router of a vector index

`ivf_router.rs`: k-means centroids, and for every base row the cell of its nearest centroid.  `probe`
narrows the rows a filter matches down to those in the cells nearest to a query.  A zone map of an attribute, which
the source keeps with the router, tells `probe_range` the cells that have no row in a range.
-/

namespace Skeg

namespace Vector

structure IvfRouter where
  centroids : List Vec
  dim : Nat
  cellOf : List UInt32
  deriving DecidableEq

namespace IvfRouter

variable [N : Numerics]

/-- The first centroid with the greatest similarity. -/
def nearest (cents : List Vec) (v : Vec) : Nat :=
  (cents.zipIdx.foldl (fun (best : Nat × Option N.Score) c =>
    let d := N.cosine v c.1
    if best.2.all (· < d) then (c.2, some d) else best) (0, none)).1

/-- `IvfRouter::build`: every row goes to its nearest centroid. -/
def build (rows : List Vec) (dim nCells iters : Nat) : IvfRouter :=
  let cents := N.centroids rows dim (max (min nCells rows.length) 1) iters
  ⟨cents, dim, rows.map fun v => UInt32.ofNat (nearest cents v)⟩

def nCells (r : IvfRouter) : Nat := r.centroids.length

def len (r : IvfRouter) : Nat := r.cellOf.length

def toBytes (r : IvfRouter) : Bytes :=
  toLEs 4 [r.nCells, r.dim, r.len] ++ r.centroids.flatMap encodeF32s ++
    toLEs 4 (r.cellOf.map UInt32.toNat)

/-- The sidecar read back; `None` unless its length is right and every cell exists. -/
def fromBytes (b : Bytes) : Option IvfRouter :=
  if b.length < 12 then none
  else
    let nCells := readU32 b 0
    let dim := readU32 b 4
    let n := readU32 b 8
    if nCells = 0 ∨ dim = 0 then none
    else if b.length ≠ 12 + nCells * dim * 4 + n * 4 then none
    else
      let centroids := (List.range nCells).map fun c =>
        decodeF32s ((b.drop (12 + c * dim * 4)).take (dim * 4))
      let cellOf := decodeF32s (b.drop (12 + nCells * dim * 4))
      if cellOf.any fun c => nCells ≤ c.toNat then none else some ⟨centroids, dim, cellOf⟩

/-- The members of the cells, nearest first, until the budget is met. -/
def gather (members : Nat → List Nat) (budget : Nat) : List Nat → List Nat → List Nat
  | out, [] => out
  | out, c :: cells =>
    if budget ≤ (out ++ members c).length then out ++ members c
    else gather members budget (out ++ members c) cells

/-- The rows of `s` in the cells nearest to the query that hold any of them.  Indexing the cells or the
centroids out of range panics, and so does reserving more rows than there is room for. -/
def probe (room : Nat) (r : IvfRouter) (query : Vec) (s : List Nat) (budget : Nat) : Except Fault (List Nat) :=
  if s.length ≤ budget then .ok s
  else
    match s.mapM fun row => r.cellOf[row]?.map fun c => (c.toNat, row) with
    | none => .error (.panic "index out of bounds")
    | some byRow =>
      match (byRow.map Prod.fst).dedup.mapM fun c => r.centroids[c]?.map fun v => (N.cosine query v, c) with
      | none => .error (.panic "range end index out of range for slice")
      | some ranked =>
        let cells := ranked.insertionSort fun a b => b.1 ≤ a.1
        (reserve room (budget + s.length / max r.nCells 1)).map fun _ =>
          gather (fun c => (byRow.filter fun p => p.1 = c).map Prod.snd) budget [] (cells.map Prod.snd)

end IvfRouter

/-! ### The zone map -/

/-- The least and the greatest attribute of the rows of a cell, and the rows. -/
structure Zone where
  min : UInt64
  max : UInt64
  members : List Nat
  deriving DecidableEq

namespace Zone

/-- `u64::MAX` and `u64::MIN`. -/
def empty : Zone := ⟨UInt64.ofNat (2 ^ 64 - 1), 0, []⟩

def add (z : Zone) (row : Nat) (a : UInt64) : Zone := ⟨Min.min z.min a, Max.max z.max a, z.members ++ [row]⟩

/-- The cell has rows, and their attributes may be in the range. -/
def overlaps (lo hi : UInt64) (z : Zone) : Bool := !(z.members.isEmpty || z.max < lo || hi < z.min)

/-- The rows of the cell in the range: all of them if it covers the cell. -/
def rowsIn (attr : List UInt64) (lo hi : UInt64) (z : Zone) : Except Fault (List Nat) :=
  if lo ≤ z.min ∧ z.max ≤ hi then .ok z.members
  else if z.members.all fun row => row < attr.length then
    .ok (z.members.filter fun row => attr[row]?.any fun a => lo ≤ a && a ≤ hi)
  else .error (.panic "index out of bounds")

end Zone

namespace IvfRouter

variable [N : Numerics]

/-- The loop of `set_zonemap` from `row` on. -/
def addRows (r : IvfRouter) : Nat → List UInt64 → List Zone → Except Fault (List Zone)
  | _, [], zones => .ok zones
  | row, a :: attr, zones =>
    match r.cellOf[row]? with
    | none => .error (.panic "index out of bounds")
    | some c =>
      if c.toNat < zones.length then
        addRows r (row + 1) attr (zones.modify c.toNat fun z => z.add row a)
      else .error (.panic "index out of bounds")

/-- The zones of the cells, in their order. -/
def setZonemap (r : IvfRouter) (attr : List UInt64) : Except Fault (List Zone) :=
  if attr.length ≠ r.len then .error (.panic "attr/rows length mismatch")
  else addRows r 0 attr (List.replicate r.nCells .empty)

/-- The rows in the range of the cells, nearest first, until the budget is met. -/
def gatherRange (attr : List UInt64) (lo hi : UInt64) (budget : Nat) :
    List Nat → List Zone → Except Fault (List Nat)
  | out, [] => .ok out
  | out, z :: zones =>
    match z.rowsIn attr lo hi with
    | .error e => .error e
    | .ok rows =>
      if budget ≤ (out ++ rows).length then .ok (out ++ rows) else gatherRange attr lo hi budget (out ++ rows) zones

/-- The rows with an attribute in the range, from the cells nearest to the query; none without a zone map. -/
def probeRange (room : Nat) (r : IvfRouter) (zones : Option (List Zone)) (query : Vec) (lo hi : UInt64)
    (attr : List UInt64) (budget : Nat) : Except Fault (List Nat) :=
  match zones with
  | none => .ok []
  | some zones =>
    match (zones.zipIdx.filter fun p => p.1.overlaps lo hi).mapM
        fun p => r.centroids[p.2]?.map fun v => (N.cosine query v, p.1) with
    | none => .error (.panic "range end index out of range for slice")
    | some ranked =>
      (reserve room (budget + 64)).bind fun _ =>
        gatherRange attr lo hi budget [] ((ranked.insertionSort fun a b => b.1 ≤ a.1).map Prod.snd)

end IvfRouter

end Vector

end Skeg
