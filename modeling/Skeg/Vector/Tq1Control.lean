import Mathlib.Algebra.Order.Field.Rat

/-!
# The controller of the 1-bit proxy

`Tq1ProxyController`: it chooses how a query is compared with 1-bit codes, from the recall measured on sampled queries.
Recalls and their averages are rationals.
-/

namespace Skeg

namespace Vector

inductive Tq1ProxyMode where
  | asymmetric | popcount | hybrid | bitPlane
  deriving DecidableEq, Repr

structure Tq1ProxyController where
  mode : Tq1ProxyMode
  tolerance : ℚ
  /-- The weight of a new sample. -/
  alpha : ℚ
  emaFast : Option ℚ
  emaAsym : Option ℚ
  samples : Nat
  warmup : Nat
  pending : Nat
  hysteresis : Nat

/-- An exponential moving average, with one more sample. -/
def ema (prev : Option ℚ) (x alpha : ℚ) : ℚ :=
  match prev with
  | none => x
  | some p => alpha * x + (1 - alpha) * p

namespace Tq1ProxyController

def new (prior : Tq1ProxyMode) : Tq1ProxyController where
  mode := prior
  tolerance := 1 / 100
  alpha := 1 / 5
  emaFast := none
  emaAsym := none
  samples := 0
  warmup := 20
  pending := 0
  hysteresis := 3

def withPolicy (c : Tq1ProxyController) (tolerance : ℚ) (warmup : UInt32) (hysteresis : UInt8) :
    Tq1ProxyController :=
  { c with tolerance := tolerance, warmup := warmup.toNat, hysteresis := max hysteresis.toNat 1 }

/-- The averages with one more measurement. -/
def sample (c : Tq1ProxyController) (recallFast recallAsym : ℚ) : Tq1ProxyController :=
  { c with
    samples := min (c.samples + 1) (2 ^ 32 - 1)
    emaFast := some (ema c.emaFast recallFast c.alpha)
    emaAsym := some (ema c.emaAsym recallAsym c.alpha) }

/-- The mode the averages speak for: the fast one while it stays within the tolerance.  There is no evidence before the
warmup is over. -/
def target (c : Tq1ProxyController) : Option Tq1ProxyMode :=
  if c.samples < c.warmup then none
  else
    match c.emaFast, c.emaAsym with
    | some p, some a => some (if p ≥ a - c.tolerance then .hybrid else .asymmetric)
    | _, _ => none

/-- The second half of `record_shadow`; `pending` is a byte. -/
def reconsider (c : Tq1ProxyController) : Tq1ProxyController :=
  match c.target with
  | none => c
  | some target =>
    if target = c.mode then { c with pending := 0 }
    else
      let pending := (c.pending + 1) % 2 ^ 8
      if pending ≥ c.hysteresis then { c with mode := target, pending := 0 }
      else { c with pending := pending }

def recordShadow (c : Tq1ProxyController) (recallFast recallAsym : ℚ) : Tq1ProxyController :=
  (c.sample recallFast recallAsym).reconsider

end Tq1ProxyController

end Vector

end Skeg
