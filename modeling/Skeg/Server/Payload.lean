import Skeg.Server.Kv
import Skeg.Vector.Index
import Mathlib.Data.Finmap
import Mathlib.Data.Finset.Sort
import Mathlib.Data.String.Basic
import Mathlib.Data.Sum.Order

/-!
# Payload fields, their index, and filters

`payload.rs`: the fields parsed from a payload blob, the index from fields to vector ids, and the
evaluation of a filter to the sorted list of matching ids.  `BTreeMap::range` panics on an empty range;
this is a `Fault`.
-/

namespace Skeg.Server

open Skeg.Vector (Fault)

/-! ### Fields -/

/-- A token that parses as an `i64` is an `int`. -/
inductive Value where
  | keyword (s : String)
  | int (n : Int)
  deriving DecidableEq

namespace Value

/-- Keywords come before integers. -/
def toSum : Value → Lex (String ⊕ Int)
  | keyword s => toLex (.inl s)
  | int n => toLex (.inr n)

theorem toSum_injective : Function.Injective toSum := by
  intro a b h
  cases a <;> cases b <;> simp [toSum] at h <;> simp [h]

instance : LinearOrder Value := LinearOrder.lift' toSum toSum_injective

def parse (tok : String) : Value :=
  match parseI64 (utf8 tok) with
  | some n => int n.toInt
  | none => keyword tok

end Value

/-- The characters with the Unicode property `White_Space`. -/
def isWhitespace (c : Char) : Bool :=
  let n := c.toNat
  (9 ≤ n && n ≤ 13) || n = 0x20 || n = 0x85 || n = 0xa0 || n = 0x1680 || (0x2000 ≤ n && n ≤ 0x200a) ||
    n = 0x2028 || n = 0x2029 || n = 0x202f || n = 0x205f || n = 0x3000

/-- The words of a text, `word` being the one that has begun. -/
def splitWhitespace : List Char → List Char → List (List Char)
  | [], word => if word.isEmpty then [] else [word]
  | c :: cs, word =>
    if isWhitespace c then
      if word.isEmpty then splitWhitespace cs [] else word :: splitWhitespace cs []
    else splitWhitespace cs (word ++ [c])

abbrev Fields := List (String × Value)

/-! ### The index -/

abbrev Postings := Finmap fun _ : Value => Finset UInt64

structure PayloadIndex where
  byField : Finmap fun _ : String => Postings
  byId : Finmap fun _ : UInt64 => Fields
  deriving DecidableEq

namespace PayloadIndex

def empty : PayloadIndex := ⟨∅, ∅⟩

/-- Empty sets and empty maps do not stay. -/
def dropPosting (id : UInt64) (m : Finmap fun _ : String => Postings) (fv : String × Value) :
    Finmap fun _ : String => Postings :=
  match m.lookup fv.1 with
  | none => m
  | some values =>
    let values := match values.lookup fv.2 with
      | none => values
      | some ids => if ids.erase id = ∅ then values.erase fv.2 else values.insert fv.2 (ids.erase id)
    if values.keys = ∅ then m.erase fv.1 else m.insert fv.1 values

def addPosting (id : UInt64) (m : Finmap fun _ : String => Postings) (fv : String × Value) :
    Finmap fun _ : String => Postings :=
  let values := (m.lookup fv.1).getD ∅
  m.insert fv.1 (values.insert fv.2 (insert id ((values.lookup fv.2).getD ∅)))

def remove (p : PayloadIndex) (id : UInt64) : PayloadIndex :=
  match p.byId.lookup id with
  | none => p
  | some fields => ⟨fields.foldl (dropPosting id) p.byField, p.byId.erase id⟩

def upsert (p : PayloadIndex) (id : UInt64) (fields : Fields) : PayloadIndex :=
  let p := p.remove id
  ⟨fields.foldl (addPosting id) p.byField,
    if fields.isEmpty then p.byId else p.byId.insert id fields⟩

def postings (p : PayloadIndex) (field : String) (value : Value) : Option (Finset UInt64) :=
  (p.byField.lookup field).bind fun vs => vs.lookup value

/-- Every indexed id. -/
def allIds (p : PayloadIndex) : List UInt64 := p.byId.keys.sort (· ≤ ·)

end PayloadIndex

def sortDedup (ids : List UInt64) : List UInt64 :=
  Vector.Index.dedupAdjacent (ids.insertionSort fun a b => a ≤ b)

/-- The ids of the values in a set, in the order of the values. -/
def Postings.idsOf (vs : Postings) (p : Value → Bool) : List UInt64 :=
  ((vs.keys.filter fun v => p v = true).sort (· ≤ ·)).flatMap fun v =>
    ((vs.lookup v).getD ∅).sort (· ≤ ·)

/-! ### Filters -/

inductive Bound where
  | included (v : Value)
  | excluded (v : Value)
  | unbounded
  deriving DecidableEq

namespace Bound

def below (v : Value) : Bound → Bool
  | included lo => lo ≤ v
  | excluded lo => lo < v
  | unbounded => true

def above (v : Value) : Bound → Bool
  | included hi => v ≤ hi
  | excluded hi => v < hi
  | unbounded => true

/-- The ranges `BTreeMap::range` panics on. -/
def panics : Bound → Bound → Bool
  | excluded lo, excluded hi => hi ≤ lo
  | included lo, included hi => hi < lo
  | included lo, excluded hi => hi < lo
  | excluded lo, included hi => hi < lo
  | _, _ => false

end Bound

namespace PayloadIndex

def fieldIds (p : PayloadIndex) (field : String) : List UInt64 :=
  match p.byField.lookup field with
  | none => []
  | some vs => sortDedup (vs.idsOf fun _ => true)

def rangeIds (p : PayloadIndex) (field : String) (lo hi : Bound) : Except Fault (List UInt64) :=
  match p.byField.lookup field with
  | none => .ok []
  | some vs =>
    if Bound.panics lo hi then .error (.panic "range start is greater than range end in BTreeMap")
    else .ok (sortDedup (vs.idsOf fun v => lo.below v && hi.above v))

end PayloadIndex

inductive Filter where
  | eq (field : String) (value : Value)
  | in_ (field : String) (values : List Value)
  | range (field : String) (lo hi : Bound)
  | exists_ (field : String)
  | and (parts : List Filter)
  | or (parts : List Filter)
  | not (inner : Filter)

/-- The common members of two sorted lists. -/
def intersectSorted : List UInt64 → List UInt64 → List UInt64
  | [], _ => []
  | _ :: _, [] => []
  | a :: as, b :: bs =>
    if a < b then intersectSorted as (b :: bs)
    else if b < a then intersectSorted (a :: as) bs
    else a :: intersectSorted as bs
termination_by as bs => as.length + bs.length

/-- Intersect until nothing is left. -/
def intersectAll : List UInt64 → List (List UInt64) → List UInt64
  | acc, [] => acc
  | acc, s :: sets =>
    let acc := intersectSorted acc s
    if acc.isEmpty then acc else intersectAll acc sets

/-- Take away the negated sets until nothing is left; the others are not evaluated then. -/
def subtractAll : List UInt64 → List (Except Fault (List UInt64)) → Except Fault (List UInt64)
  | acc, [] => .ok acc
  | acc, s :: sets =>
    if acc.isEmpty then .ok acc
    else
      match s with
      | .error e => .error e
      | .ok b => subtractAll (acc.filter fun id => id ∉ b) sets

/-- A conjunction, from its positive parts and the insides of its negated ones. -/
def conjoin (all : List UInt64) (positives negated : List (Except Fault (List UInt64))) :
    Except Fault (List UInt64) :=
  match positives.mapM id with
  | .error e => .error e
  | .ok sets =>
    -- smallest first
    match sets.insertionSort fun a b => a.length ≤ b.length with
    | [] => subtractAll all negated
    | a :: rest => subtractAll (intersectAll a rest) negated

mutual

def Filter.evaluate (p : PayloadIndex) : Filter → Except Fault (List UInt64)
  | .eq f v => .ok (((p.postings f v).getD ∅).sort (· ≤ ·))
  | .in_ f vs => .ok (sortDedup (vs.flatMap fun v => ((p.postings f v).getD ∅).sort (· ≤ ·)))
  | .range f lo hi => p.rangeIds f lo hi
  | .exists_ f => .ok (p.fieldIds f)
  | .and parts => conjoin p.allIds (Filter.positives p parts) (Filter.negated p parts)
  | .or parts =>
    match (Filter.evaluateAll p parts).mapM id with
    | .error e => .error e
    | .ok sets => .ok (sortDedup sets.flatten)
  | .not inner =>
    match inner.evaluate p with
    | .error e => .error e
    | .ok excluded => .ok (p.allIds.filter fun id => id ∉ excluded)

def Filter.evaluateAll (p : PayloadIndex) : List Filter → List (Except Fault (List UInt64))
  | [] => []
  | f :: fs => f.evaluate p :: Filter.evaluateAll p fs

/-- The parts of a conjunction that are not negations. -/
def Filter.positives (p : PayloadIndex) : List Filter → List (Except Fault (List UInt64))
  | [] => []
  | .not _ :: fs => Filter.positives p fs
  | f :: fs => f.evaluate p :: Filter.positives p fs

/-- The insides of the parts that are. -/
def Filter.negated (p : PayloadIndex) : List Filter → List (Except Fault (List UInt64))
  | [] => []
  | .not inner :: fs => inner.evaluate p :: Filter.negated p fs
  | _ :: fs => Filter.negated p fs

end

end Skeg.Server
