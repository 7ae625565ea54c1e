import Skeg.Core.Record
import Mathlib.Data.List.AList

/-!
# The S3-FIFO cache

The byte-budgeted cache of `cache.rs`: newcomers enter the queue `small`, entries touched often
enough move to `main`, and `ghost` remembers hashes of recent evictions from `small`.  Removing a
key leaves its queue entries behind; they are skipped when an eviction meets them.

The loops of the eviction code are fuelled recursions.  `evictMain` always finishes within its fuel.
The loop of `insert_for` need not terminate in the code: when the entries all sit in `small` below
its share of the budget and nothing in `main` is alive, `evict_one` evicts nothing and the loop
spins.  `insertFor` is `none` exactly then.
-/

namespace Skeg

/-- Addition on `usize`, which wraps in a release build. -/
def wrapAdd (a b : Nat) : Nat := (a + b) % 2 ^ 64

def wrapSub (a b : Nat) : Nat := (a + 2 ^ 64 - b % 2 ^ 64) % 2 ^ 64

instance neZero_freq : NeZero 4 := ⟨by decide⟩

structure CacheEntry (V : Type) where
  value : V
  /-- Bytes charged against the budget. -/
  size : Nat
  freq : Fin 4
  inSmall : Bool
  /-- The low 64 bits of the tenant id. -/
  tenant : Nat
  deriving DecidableEq

structure S3Fifo (V : Type) where
  map : AList fun _ : Bytes => CacheEntry V
  small : List Bytes
  main : List Bytes
  ghost : List UInt64
  ghostSet : List UInt64
  tenant0Bytes : Nat
  perTenant : AList fun _ : Nat => Nat
  budgetBytes : Nat
  smallBudget : Nat
  totalBytes : Nat
  smallBytes : Nat
  hits : Nat
  misses : Nat
  evictions : Nat

namespace S3Fifo

variable {V : Type}

def entryOverhead : Nat := 64
def ghostCapacity : Nat := 2 ^ 16
def maxFairSkips : Nat := 16

def new (budgetBytes : Nat) : S3Fifo V where
  map := ∅
  small := []
  main := []
  ghost := []
  ghostSet := []
  tenant0Bytes := 0
  perTenant := ∅
  budgetBytes := budgetBytes
  smallBudget := max (budgetBytes / 10) 1
  totalBytes := 0
  smallBytes := 0
  hits := 0
  misses := 0
  evictions := 0

/-- One more use, saturating. -/
def bump (f : Fin 4) : Fin 4 := if f = 3 then 3 else f + 1

def get (c : S3Fifo V) (key : Bytes) : Option V × S3Fifo V :=
  match c.map.lookup key with
  | some e =>
    (some e.value, { c with map := c.map.insert key { e with freq := bump e.freq }, hits := c.hits + 1 })
  | none => (none, { c with misses := c.misses + 1 })

def addTenantBytes (c : S3Fifo V) (tenant n : Nat) : S3Fifo V :=
  if tenant = 0 then { c with tenant0Bytes := wrapAdd c.tenant0Bytes n }
  else { c with perTenant := c.perTenant.insert tenant (wrapAdd ((c.perTenant.lookup tenant).getD 0) n) }

def subTenantBytes (c : S3Fifo V) (tenant n : Nat) : S3Fifo V :=
  if tenant = 0 then { c with tenant0Bytes := wrapSub c.tenant0Bytes n }
  else
    match c.perTenant.lookup tenant with
    | none => c
    | some v =>
      if wrapSub v n = 0 then { c with perTenant := c.perTenant.erase tenant }
      else { c with perTenant := c.perTenant.insert tenant (wrapSub v n) }

def tenantCharged (c : S3Fifo V) (tenant : Nat) : Nat :=
  if tenant = 0 then c.tenant0Bytes else (c.perTenant.lookup tenant).getD 0

/-- Equal share of the budget for each tenant with residency. -/
def shareTarget (c : S3Fifo V) : Nat :=
  c.budgetBytes / max (c.perTenant.keys.length + if c.tenant0Bytes > 0 then 1 else 0) 1

def hasOverShare (c : S3Fifo V) (target : Nat) : Bool :=
  decide (c.tenant0Bytes > target) || c.perTenant.entries.any fun p => decide (p.2 > target)

def remove (c : S3Fifo V) (key : Bytes) : S3Fifo V :=
  match c.map.lookup key with
  | none => c
  | some e =>
    let c := { c with
      map := c.map.erase key
      totalBytes := wrapSub c.totalBytes e.size
      smallBytes := if e.inSmall then wrapSub c.smallBytes e.size else c.smallBytes }
    c.subTenantBytes e.tenant e.size

/-- The `while` loop of `ghost_push`: forget the oldest hashes beyond the capacity. -/
def trimGhost : List UInt64 → List UInt64 → List UInt64 × List UInt64
  | [], set => ([], set)
  | old :: ghost, set =>
    if (old :: ghost).length > ghostCapacity then trimGhost ghost (set.erase old)
    else (old :: ghost, set)

def ghostPush (c : S3Fifo V) (kh : UInt64) : S3Fifo V :=
  let fresh := !c.ghostSet.contains kh
  let ghost := if fresh then c.ghost ++ [kh] else c.ghost
  let ghostSet := if fresh then kh :: c.ghostSet else c.ghostSet
  let trimmed := trimGhost ghost ghostSet
  { c with ghost := trimmed.1, ghostSet := trimmed.2 }

section

variable [H : Hashes]

/-- The loop of `evict_from_small` over the queue: touched entries move to `main`, the first cold one
is evicted.  `true` if one was. -/
def drainSmall : List Bytes → S3Fifo V → Bool × S3Fifo V
  | [], c => (false, { c with small := [] })
  | key :: small, c =>
    match c.map.lookup key with
    | none => drainSmall small c  -- stale
    | some e =>
      if e.freq > 1 then
        drainSmall small { c with
          map := c.map.insert key { e with freq := 0, inSmall := false }
          smallBytes := wrapSub c.smallBytes e.size
          main := c.main ++ [key] }
      else
        let c := { c with
          small := small
          map := c.map.erase key
          totalBytes := wrapSub c.totalBytes e.size
          smallBytes := wrapSub c.smallBytes e.size }
        let c := (c.subTenantBytes e.tenant e.size).ghostPush (xxh3_64 key)
        (true, { c with evictions := c.evictions + 1 })

def evictFromSmall (c : S3Fifo V) : Bool × S3Fifo V := drainSmall c.small c

/-- The loop of `evict_from_main`.  A round drops a stale entry, uses up a touch, uses up a skip, or
evicts. -/
def drainMain (target : Nat) (overExists : Bool) : Nat → Nat → S3Fifo V → S3Fifo V
  | 0, _, c => c
  | fuel + 1, skips, c =>
    match c.main with
    | [] => c
    | key :: main =>
      match c.map.lookup key with
      | none => drainMain target overExists fuel skips { c with main := main }  -- stale
      | some e =>
        if e.freq > 0 then
          drainMain target overExists fuel skips { c with
            map := c.map.insert key { e with freq := e.freq - 1 }
            main := main ++ [key] }
        -- spare a tenant within its share while another is over it
        else if overExists && decide (skips < maxFairSkips) &&
            decide (c.tenantCharged e.tenant ≤ target) then
          drainMain target overExists fuel (skips + 1) { c with main := main ++ [key] }
        else
          let c := { c with
            main := main
            map := c.map.erase key
            totalBytes := wrapSub c.totalBytes e.size }
          let c := c.subTenantBytes e.tenant e.size
          { c with evictions := c.evictions + 1 }

/-- Rounds `evict_from_main` can need: one for each touch, skip and stale entry, and the last. -/
def mainFuel (c : S3Fifo V) : Nat :=
  (c.map.entries.map fun p => (p.2.freq : Nat)).sum + c.main.length + maxFairSkips + 1

def evictFromMain (c : S3Fifo V) : S3Fifo V :=
  if c.perTenant.entries.isEmpty then drainMain 0 false c.mainFuel 0 c
  else drainMain c.shareTarget (c.hasOverShare c.shareTarget) c.mainFuel 0 c

def evictOne (c : S3Fifo V) : S3Fifo V :=
  if c.smallBytes ≥ c.smallBudget then
    let r := c.evictFromSmall
    if r.1 then r.2 else r.2.evictFromMain
  else c.evictFromMain

/-- The loop of `insert_for`.  A round that evicts nothing changes nothing that the next round looks
at, so a loop that has not ended after as many rounds as there are entries never does. -/
def evictLoop : Nat → Nat → S3Fifo V → Option (S3Fifo V)
  | fuel, entrySize, c =>
    if wrapAdd c.totalBytes entrySize > c.budgetBytes ∧ ¬ c.map.entries.isEmpty then
      match fuel with
      | 0 => none
      | fuel + 1 => evictLoop fuel entrySize c.evictOne
    else some c

/-- Insert or overwrite; `none` when the eviction loop does not terminate. -/
def insertFor (c : S3Fifo V) (key : Bytes) (value : V) (valueBytes tenant : Nat) :
    Option (S3Fifo V) :=
  let tenant := tenant % 2 ^ 64
  let entrySize := key.length + valueBytes + entryOverhead
  match c.map.lookup key with
  | some e =>
    let c := { c with
      map := c.map.insert key { e with value := value, size := entrySize, tenant := tenant }
      totalBytes := wrapSub (wrapAdd c.totalBytes entrySize) e.size
      smallBytes := if e.inSmall then wrapSub (wrapAdd c.smallBytes entrySize) e.size else c.smallBytes }
    some ((c.subTenantBytes e.tenant e.size).addTenantBytes tenant entrySize)
  | none =>
    match evictLoop c.map.entries.length entrySize c with
    | none => none
    | some c =>
      let kh := xxh3_64 key
      let inSmall := !c.ghostSet.contains kh
      let c := { c with
        ghostSet := c.ghostSet.erase kh
        small := if inSmall then c.small ++ [key] else c.small
        smallBytes := if inSmall then wrapAdd c.smallBytes entrySize else c.smallBytes
        main := if inSmall then c.main else c.main ++ [key]
        map := c.map.insert key ⟨value, entrySize, 0, inSmall, tenant⟩
        totalBytes := wrapAdd c.totalBytes entrySize }
      some (c.addTenantBytes tenant entrySize)

end

end S3Fifo

end Skeg
