import Skeg.Server.Kv
import Skeg.Vector.Numerics

/-!
# The registry of disk-backed indexes

`vindexes.registry` of a shard: magic and count, then `[u16 nlen][name][u32 dim][u8 kind]` for every
disk-backed index.  `readRegistry` returns what parses cleanly; a file without the magic has the older
format, which has no kinds.
-/

namespace Skeg.Server

open Skeg.Vector (QuantKind)

/-! ### Kinds on the wire -/

def wireKinds : List (UInt8 × QuantKind) :=
  [(0, .f32), (1, .int8), (2, .binary), (3, .turboQuant 1), (4, .turboQuant 2), (5, .turboQuant 4)]

def fromWire (byte : UInt8) : Option QuantKind := (wireKinds.find? fun p => p.1 = byte).map Prod.snd

/-! ### The file -/

/-- `SVI2`. -/
def registryMagic : Bytes := [83, 86, 73, 50]

structure RegistryEntry where
  name : String
  dim : Nat
  /-- Missing in the older format. -/
  kind : Option UInt8
  deriving DecidableEq

def writeEntry (e : String × Nat × UInt8) : Bytes :=
  toLE 2 (utf8 e.1).length ++ utf8 e.1 ++ toLE 4 e.2.1 ++ [e.2.2]

def writeRegistry (entries : List (String × Nat × UInt8)) : Bytes :=
  registryMagic ++ toLE 4 entries.length ++ entries.flatMap writeEntry

/-- The next `n` entries, as far as they are there. -/
def readEntries (versioned : Bool) : Nat → Bytes → List RegistryEntry
  | 0, _ => []
  | n + 1, bytes =>
    if bytes.length < 2 then []
    else
      let nlen := fromLE (bytes.take 2)
      let rest := bytes.drop 2
      let tail := 4 + versioned.toNat
      if rest.length < nlen + tail then []
      else
        let kind := if versioned then rest[nlen + 4]? else none
        -- a name that is not UTF-8 is never written
        ⟨(fromUtf8 (rest.take nlen)).getD "", fromLE ((rest.drop nlen).take 4),
          kind.filter fun k => (fromWire k).isSome⟩ ::
          readEntries versioned n (rest.drop (nlen + tail))

/-- A missing file has no entries. -/
def readRegistry (file : Option Bytes) : List RegistryEntry :=
  match file with
  | none => []
  | some bytes =>
    let versioned := registryMagic.isPrefixOf bytes
    let body := if versioned then bytes.drop 4 else bytes
    if body.length < 4 then []
    else readEntries versioned (fromLE (body.take 4)) (body.drop 4)

end Skeg.Server
