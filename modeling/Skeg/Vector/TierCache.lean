import Skeg.Vector.Machine

/-!
# Memory-mapped codes

An open with `mmap_tier` writes the codes of a TurboQuant tier to `tier.cache.bin` and reads them through a mapping of
that file, unless there is a file of the right size already (`swap_turboquant_codes_to_mmap`).  No other code touches
the file, so it is a state of its own beside the index.  The encoding of a row is a parameter; its statistics are taken
from all rows.
-/

namespace Skeg

namespace Vector

/-- The encoding of one tier and dimension. -/
structure TierCodec where
  codeBytes : Nat
  encode : (rows : List Vec) → Vec → Bytes
  length_encode : ∀ rows v, (encode rows v).length = codeBytes

/-- The codes buffer of some rows. -/
def TierCodec.codes (c : TierCodec) (rows : List Vec) : Bytes := rows.flatMap (c.encode rows)

/-- The cache file afterwards, and the bytes that the tier reads. -/
def swapTurboquantCodesToMmap (cache : Option Bytes) (codes : Bytes) : Option Bytes × Bytes :=
  if codes.length = 0 then (cache, codes)
  else
    match cache with
    | none => (some codes, codes)
    | some file => if file.length ≠ codes.length then (some codes, codes) else (some file, file)

structure TierSys where
  sys : Sys
  /-- `tier.cache.bin`. -/
  cache : Option Bytes

inductive TierAct where
  /-- Anything that does not map the codes, an open without `mmap_tier` included. -/
  | act (a : Act)
  | openMmap
  deriving DecidableEq

/-- What an open mapped: the rows in `vectors.bin` and the bytes of their codes. -/
structure Mapped where
  rows : List Vec
  bytes : Bytes
  deriving DecidableEq

/-- The bytes of every row are its encoding. -/
def Mapped.Current (c : TierCodec) (e : Mapped) : Prop :=
  ∀ p ∈ e.rows.zipIdx, (e.bytes.drop (p.2 * c.codeBytes)).take c.codeBytes = c.encode e.rows p.1

instance (c : TierCodec) (e : Mapped) : Decidable (e.Current c) :=
  inferInstanceAs (Decidable (∀ p ∈ e.rows.zipIdx, _))

namespace TierSys

variable [H : Hashes] [N : Numerics]

def step (c : TierCodec) (s : TierSys) : TierAct → Option (TierSys × List Mapped)
  | .act a => (s.sys.step a).map fun r => (⟨r.1, s.cache⟩, [])
  | .openMmap =>
    (s.sys.step .reopen).map fun r =>
      match r.1.index.tier with
      | .turboQuant _ =>
        let rows := r.1.index.base.quant
        let (cache, bytes) := swapTurboquantCodesToMmap s.cache (c.codes rows)
        (⟨r.1, cache⟩, [⟨rows, bytes⟩])
      | _ => (⟨r.1, s.cache⟩, [])

/-- The rows in `vectors.bin`. -/
def baseRows (s : TierSys) : Option (List Vec) := (openSegment s.sys.dir .base).toOption.map fun r => r.2.quant

end TierSys

end Vector

end Skeg
