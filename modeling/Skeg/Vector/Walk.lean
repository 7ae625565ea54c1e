import Skeg.Vector.Format
import Mathlib.Data.Finset.Card
import Mathlib.Order.Basic

/-!
# The graph walk

`greedy_search` of `vamana.rs`, with its bounded list of candidates and its two bitsets.  Early
termination and tracing are off.  The walk expands every row at most once, so that as many rounds as there
are rows are enough.
-/

namespace Skeg

namespace Vector

/-- The `capacity` entries that are nearest to the target, nearest first; an entry has its distance, its
row and whether it was expanded.  No entry before `nextUnvisited` is left to expand. -/
structure SearchList (δ : Type) where
  items : List (δ × Nat × Bool)
  capacity : Nat
  nextUnvisited : Nat
  deriving DecidableEq

namespace SearchList

variable {δ : Type} [LinearOrder δ]

omit [LinearOrder δ] in
def new (capacity : Nat) : SearchList δ := ⟨[], capacity, 0⟩

def insert (l : SearchList δ) (dist : δ) (row : Nat) : SearchList δ :=
  let pos := (l.items.takeWhile fun e => e.1 < dist).length
  if l.capacity ≤ pos then l
  else
    { l with
      items := (l.items.insertIdx pos (dist, row, false)).take l.capacity
      nextUnvisited := if pos ≤ l.nextUnvisited then pos else l.nextUnvisited }

/-- The nearest entry that was not expanded, which it now is. -/
def popNextUnvisited (l : SearchList δ) : Option Nat × SearchList δ :=
  match (l.items.drop l.nextUnvisited).findIdx? fun e => !e.2.2 with
  | none => (none, { l with nextUnvisited := max l.nextUnvisited l.items.length })
  | some j =>
    let i := l.nextUnvisited + j
    (l.items[i]?.map fun e => e.2.1,
      { l with items := l.items.modify i fun e => (e.1, e.2.1, true), nextUnvisited := i + 1 })

def iter (l : SearchList δ) : List (δ × Nat) := l.items.map fun e => (e.1, e.2.1)

end SearchList

structure VisitedBitset where
  bits : Finset Nat
  capacity : Nat
  deriving DecidableEq

namespace VisitedBitset

def new (n : Nat) : VisitedBitset := ⟨∅, n⟩

/-- Also returns whether the bit was set. -/
def testAndSet (b : VisitedBitset) (i : Nat) : Except Fault (Bool × VisitedBitset) :=
  if b.capacity ≤ i then .error (.panic "index out of bounds")
  else .ok (decide (i ∈ b.bits), { b with bits := Insert.insert i b.bits })

end VisitedBitset

structure Walk (δ : Type) where
  list : SearchList δ
  visited : VisitedBitset
  seen : VisitedBitset

namespace Walk

variable {δ : Type} [LinearOrder δ] (dist : Nat → δ) (admits : Nat → Bool)

/-- A seed or a neighbour: the first time it is seen it may enter the list. -/
def offer (w : Walk δ) (row : Nat) : Except Fault (Walk δ) :=
  match w.seen.testAndSet row with
  | .error e => .error e
  | .ok (true, seen) => .ok { w with seen := seen }
  | .ok (false, seen) =>
    .ok { w with seen := seen, list := if admits row then w.list.insert (dist row) row else w.list }

def offerAll : Walk δ → List Nat → Except Fault (Walk δ)
  | w, [] => .ok w
  | w, row :: rows =>
    match w.offer dist admits row with
    | .error e => .error e
    | .ok w => offerAll w rows

variable (neighbors : Nat → Except Fault (List UInt32))

/-- At most so many rounds of expanding the nearest entry. -/
def expand : Nat → Walk δ → Except Fault (List (δ × Nat))
  | 0, w => .ok w.list.iter
  | fuel + 1, w =>
    match w.list.popNextUnvisited with
    | (none, list) => .ok list.iter
    | (some row, list) =>
      match w.visited.testAndSet row with
      | .error e => .error e
      | .ok (true, visited) => expand fuel { w with list := list, visited := visited }
      | .ok (false, visited) =>
        match neighbors row with
        | .error e => .error e
        | .ok nbrs =>
          match { w with list := list, visited := visited }.offerAll dist admits
              (nbrs.map UInt32.toNat) with
          | .error e => .error e
          | .ok w => expand fuel w

end Walk

/-- The walk over `n` rows from the seeds. -/
def greedySearch {δ : Type} [LinearOrder δ] (n : Nat) (seeds : List Nat) (listSize : Nat) (dist : Nat → δ)
    (neighbors : Nat → Except Fault (List UInt32)) (admits : Nat → Bool) :
    Except Fault (List (δ × Nat)) :=
  match (⟨SearchList.new (max listSize 1), .new n, .new n⟩ : Walk δ).offerAll dist admits seeds with
  | .error e => .error e
  | .ok w => w.expand dist admits neighbors n

end Vector

end Skeg
