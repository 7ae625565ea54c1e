import Skeg.Vector.Maintain
import Skeg.Vector.Walk

/-!
# Searching a disk vector index

`search` and `search_filtered` walk the graph of every segment, order all candidates by their quantised
distance and score the first of them with the vectors on disk, up to a budget of reads; the delta and the
batch that is being flushed are scored one by one.  The environment switches have their defaults.
-/

namespace Skeg

namespace Vector

section

variable [N : Numerics]

namespace Index

/-! ### Candidates -/

/-- Disk reads for scoring. -/
def rerankBudget (k : Nat) (dense : Bool) (selectivity : F32) : Option Nat → Nat
  | some r => max r k
  | none => if dense then min (max (N.oversampled k selectivity * 2) 64) 1024 else max (k * 8) 64

/-- Whether a stored copy of an id may be a hit. -/
def admits (x : Index) (matching : Option (UInt64 → Bool)) (id : UInt64) : Bool :=
  decide (id ∉ x.tombstones) && (x.delta.lookup id).isNone && (x.flushing.lookup id).isNone &&
    matching.all fun m => m id

/-- The rows the walk of a segment ends with, nearest first. -/
def walkSegment (x : Index) (query : Vec) (k lSearch : Nat) (matching : Option (UInt64 → Bool))
    (seeds : List UInt64) (dense : Bool) (segIdx : Nat) (seg : Segment) :
    Except Fault (List (N.Dist × Nat)) :=
  -- the base is walked with the deep list, the runs with a shallow one
  let walkBase := if segIdx = 0 then (if lSearch = 0 then x.lSearch else lSearch) else max (k * 4) 16
  let sparse := matching.isSome && !dense
  let listSize := if sparse then min (max walkBase k * 4) seg.mainN else max walkBase k
  let seedRows := seg.medoid ::
    seeds.filterMap fun id => if id ∈ x.tombstones then none else seg.row id
  let dist := fun row => N.proxy x.tier seg.quant row (N.normalized query)
  let neighbors := fun row => match seg.nodes[row]? with
    | none => .error (.panic "index out of bounds")
    | some node => node.slice
  let walk := fun seeds admits => greedySearch seg.mainN seeds listSize dist neighbors admits
  if sparse then
    match walk seedRows fun row => seg.ids[row]?.any (x.admits matching) with
    | .error e => .error e
    | .ok admitted => (walk [seg.medoid] fun _ => true).map fun all => admitted ++ all
  else walk seedRows fun _ => true

/-- The candidates of the segments from number `i` on. -/
def candidates (walk : Nat → Segment → Except Fault (List (N.Dist × Nat)))
    (rescore : Segment → Nat → N.Dist → N.Dist) :
    Nat → List Segment → Except Fault (List (N.Dist × Segment × Nat))
  | _, [] => .ok []
  | i, seg :: segs =>
    if seg.mainN = 0 then candidates walk rescore (i + 1) segs
    else
      match walk i seg with
      | .error e => .error e
      | .ok cand =>
        (candidates walk rescore (i + 1) segs).map fun rest =>
          cand.map (fun c => (rescore seg c.2 c.1, seg, c.2)) ++ rest

/-! ### Scoring -/

/-- Score the candidates in their order, each id once, until the reads are spent. -/
def rerank (d : Dir) (x : Index) (query : Vec) (matching : Option (UInt64 → Bool)) (budget : Nat) :
    List (N.Dist × Segment × Nat) → Nat → Finset UInt64 → List (N.Score × UInt64) →
      Except Fault (List (N.Score × UInt64))
  | [], _, _, scored => .ok scored
  | (_, seg, row) :: cands, reads, seen, scored =>
    if budget ≤ reads then .ok scored
    else
      match seg.ids[row]? with
      | none => .error (.panic "index out of bounds")
      | some id =>
        if x.admits matching id = false ∨ id ∈ seen then
          rerank d x query matching budget cands reads seen scored
        else
          match readRow d x.dim seg row with
          | .error e => .error e
          | .ok v =>
            rerank d x query matching budget cands (reads + 1) (Insert.insert id seen)
              (scored ++ [(N.cosine query v, id)])

/-- The delta, and what is being flushed and is not in the delta. -/
def scanDelta (x : Index) (query : Vec) (matching : Option (UInt64 → Bool)) : List (N.Score × UInt64) :=
  ((x.delta.entries.filter fun e => matching.all fun m => m e.1) ++
    (x.flushing.entries.filter fun e =>
      (x.delta.lookup e.1).isNone && matching.all fun m => m e.1)).map fun e => (N.cosine query e.2, e.1)

/-- `search_inner`. -/
def searchInner (d : Dir) (x : Index) (query : Vec) (k lSearch : Nat) (matching : Option (UInt64 → Bool))
    (seeds : List UInt64) (selectivity : F32) (rerankOverride : Option Nat) :
    Except Fault (List (UInt64 × N.Score)) :=
  let dense := matching.isSome && N.isDense selectivity
  if query.length ≠ x.dim then
    .error (.err (.invalidInput s!"query has {query.length} dims, index has {x.dim}"))
  else if x.liveCount = 0 ∨ k = 0 then .ok []
  else
    let budget := rerankBudget k dense selectivity rerankOverride
    match candidates (x.walkSegment query k lSearch matching seeds dense)
        (fun seg row => N.rescore x.tier seg.quant row (N.normalized query)) 0 x.segs with
    | .error e => .error e
    | .ok all =>
      match x.rerank d query matching budget (all.insertionSort fun a b => a.1 ≤ b.1) 0 ∅ [] with
      | .error e => .error e
      | .ok scored =>
        let hits := (scored ++ x.scanDelta query matching).insertionSort fun a b => b.1 ≤ a.1
        .ok ((hits.take k).map fun h => (h.2, h.1))

def search (d : Dir) (x : Index) (query : Vec) (k : Nat) : Except Fault (List (UInt64 × N.Score)) :=
  x.searchInner d query k 0 none [] 0x3f800000 none

def searchFiltered (d : Dir) (x : Index) (query : Vec) (k lSearch : Nat) (matching : UInt64 → Bool)
    (seeds : List UInt64) (selectivity : F32) : Except Fault (List (UInt64 × N.Score)) :=
  x.searchInner d query k lSearch (some matching) seeds selectivity none

/-! ### The routed filtered search -/

/-- Up to this many matches are scanned. -/
def scanMax : Nat := 12288

/-- What the router narrows the matches down to. -/
def shortlistSize : Nat := 4096

/-- The stored copy of an id that a scan scores: the newest run wins, then the base. -/
def newestRow (x : Index) (id : UInt64) : Option (Segment × Nat) :=
  (x.runs.reverse ++ [x.base]).findSome? fun s => (s.row id).map fun row => (s, row)

/-- The loop of `score_ids_quantized` over the ids: the stored candidates with their proxies, and the
scores of the ids in the delta.  What is being flushed is not looked at. -/
def scanIds (x : Index) (query : Vec) : List UInt64 → Finset UInt64 →
    List (N.Dist × Segment × Nat) × List (N.Score × UInt64)
  | [], _ => ([], [])
  | id :: ids, seen =>
    if id ∈ x.tombstones ∨ id ∈ seen then scanIds x query ids seen
    else
      let r := scanIds x query ids (Insert.insert id seen)
      match x.delta.lookup id with
      | some v => (r.1, (N.cosine query v, id) :: r.2)
      | none =>
        match x.newestRow id with
        | none => r
        | some (s, row) => ((N.proxyRescore x.tier s.quant row query, s, row) :: r.1, r.2)

/-- Read a stored candidate and score it. -/
def scoreRow (d : Dir) (x : Index) (query : Vec) (c : N.Dist × Segment × Nat) :
    Except Fault (N.Score × UInt64) :=
  match readRow d x.dim c.2.1 c.2.2 with
  | .error e => .error e
  | .ok v =>
    match c.2.1.ids[c.2.2]? with
    | none => .error (.panic "index out of bounds")
    | some id => .ok (N.cosine query v, id)

def scoreIdsQuantized (d : Dir) (x : Index) (query : Vec) (ids : List UInt64) (k rerank : Nat) :
    Except Fault (List (UInt64 × N.Score)) :=
  if k = 0 then .ok []
  else
    let (cand, scored) := x.scanIds query ids ∅
    let kept := (cand.insertionSort fun a b => b.1 ≤ a.1).take (max rerank k)
    match kept.mapM (x.scoreRow d query) with
    | .error e => .error e
    | .ok more =>
      .ok ((((scored ++ more).insertionSort fun a b => b.1 ≤ a.1).take k).map fun h => (h.2, h.1))

end Index

end

end Vector

end Skeg
