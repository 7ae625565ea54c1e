import Skeg.Vector.Format

/-!
# The bitset of visited nodes

`VisitedBitset` and `SetBitsIter` of `visited.rs`, word by word.  The walk (`Vector/Walk.lean`) has a finite set in
its place; `Equiv/Visited.lean` proves that the words are one.

`debug` says whether debug assertions are compiled in.
-/

namespace Skeg.Vector.Visited

abbrev Word := BitVec 64

/-- `WORD_BITS`. -/
def wordBits : Nat := 64

structure VisitedBitset where
  bits : List Word
  capacity : Nat
  deriving DecidableEq

namespace VisitedBitset

def new (n : Nat) : Except Fault VisitedBitset :=
  if n < 2 ^ 32 then .ok ⟨List.replicate ((n + wordBits - 1) / wordBits) 0, n⟩
  else .error (.panic "VisitedBitset capacity must fit u32")

/-- Also returns whether the bit was set. -/
def testAndSet (debug : Bool) (b : VisitedBitset) (idx : Nat) : Except Fault (Bool × VisitedBitset) :=
  if debug ∧ b.capacity ≤ idx then .error (.panic ("idx " ++ toString idx ++ " >= capacity " ++ toString b.capacity))
  else
    let wordIdx := idx / wordBits
    let mask : Word := 1#64 <<< (idx % wordBits)
    match b.bits[wordIdx]? with
    | none => .error (.panic "index out of bounds")
    | some w => .ok (w &&& mask ≠ 0, { b with bits := b.bits.set wordIdx (w ||| mask) })

def isSet (debug : Bool) (b : VisitedBitset) (idx : Nat) : Except Fault Bool :=
  if debug ∧ b.capacity ≤ idx then .error (.panic "assertion failed: idx < self.capacity")
  else
    match b.bits[idx / wordBits]? with
    | none => .error (.panic "index out of bounds")
    | some w => .ok (w &&& 1#64 <<< (idx % wordBits) ≠ 0)

def clear (b : VisitedBitset) : VisitedBitset := { b with bits := b.bits.map fun _ => 0 }

end VisitedBitset

/-- What is left of `currentWord`, number `wordIdx` of the words. -/
structure SetBitsIter where
  bits : List Word
  wordIdx : Nat
  currentWord : Word
  deriving DecidableEq

def VisitedBitset.iter (b : VisitedBitset) : SetBitsIter := ⟨b.bits, 0, b.bits.head?.getD 0⟩

namespace SetBitsIter

/-- The loop of `next`, on to a word with a bit; and whether there is one. -/
def advance (it : SetBitsIter) : Bool × SetBitsIter :=
  if it.currentWord = 0 then
    if h : it.wordIdx + 1 < it.bits.length then
      advance { it with wordIdx := it.wordIdx + 1, currentWord := it.bits[it.wordIdx + 1] }
    else (false, { it with wordIdx := it.wordIdx + 1 })
  else (true, it)
termination_by it.bits.length - it.wordIdx

/-- The checked `u32` arithmetic ends the iteration where an index does not fit. -/
def next (it : SetBitsIter) : Option Nat × SetBitsIter :=
  match it.advance with
  | (false, it) => (none, it)
  | (true, it) =>
    let bit := it.currentWord.ctz.toNat
    let it' := { it with currentWord := it.currentWord &&& (it.currentWord - 1) }
    if it.wordIdx < 2 ^ 32 ∧ it.wordIdx * wordBits < 2 ^ 32 ∧ it.wordIdx * wordBits + bit < 2 ^ 32 then
      (some (it.wordIdx * wordBits + bit), it')
    else (none, it')

/-- `collect`: the indices up to the first `None`.  `none` if that takes more than `fuel` calls. -/
def collect : Nat → SetBitsIter → Option (List Nat)
  | 0, _ => none
  | fuel + 1, it =>
    match it.next with
    | (none, _) => some []
    | (some i, it) => (collect fuel it).map (i :: ·)

end SetBitsIter

/-! ### Sequences of calls -/

inductive Call where
  | testAndSet (idx : Nat)
  | isSet (idx : Nat)
  | clear
  deriving DecidableEq, Repr

namespace Call

/-- The index of the call, if it has one, is below `n`. -/
def Below (n : Nat) : Call → Prop
  | testAndSet idx | isSet idx => idx < n
  | clear => True

instance decidableBelow (n : Nat) : (c : Call) → Decidable (c.Below n)
  | testAndSet idx | isSet idx => inferInstanceAs (Decidable (idx < n))
  | clear => isTrue trivial

end Call

namespace VisitedBitset

/-- The answer of a call, which `clear` has none of. -/
def call (debug : Bool) (b : VisitedBitset) : Call → Except Fault (Option Bool × VisitedBitset)
  | .testAndSet idx => (b.testAndSet debug idx).map fun r => (some r.1, r.2)
  | .isSet idx => (b.isSet debug idx).map fun r => (some r, b)
  | .clear => .ok (none, b.clear)

def calls (debug : Bool) (b : VisitedBitset) : List Call → Except Fault (List (Option Bool) × VisitedBitset)
  | [] => .ok ([], b)
  | c :: cs =>
    match b.call debug c with
    | .error e => .error e
    | .ok (answer, b) => (calls debug b cs).map fun r => (answer :: r.1, r.2)

end VisitedBitset

end Skeg.Vector.Visited
