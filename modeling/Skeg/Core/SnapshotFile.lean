import Skeg.Core.VLog
import Skeg.Lib.LittleEndian

/-!
# The snapshot file

`encode` and `decode` of `snapshot.rs`: a header of 19 bytes `[magic 4][version 1][hwm 2][max_ts 8][n 4]`, the entries
`[klen 4][key][fingerprint 4][segment 2][offset 4][size 4]`, and a CRC-32C of all the bytes before it; integers are
little-endian.  A slice that ends behind the buffer panics.
-/

namespace Skeg.Snapshot

open Cursor (slice)

def magic : Nat := 0x534B5350

def version : Nat := 1

def headerLen : Nat := 4 + 1 + 2 + 8 + 4

def encodeEntry (p : Bytes × IndexEntry) : Bytes :=
  toLE 4 p.1.length ++ (p.1 ++ (toLE 4 p.2.fingerprint.toNat ++ (toLE 2 p.2.segmentId ++
    (toLE 4 p.2.offset ++ toLE 4 p.2.size))))

/-- The bytes the checksum is taken of. -/
def body (hwm maxTs : Nat) (entries : List (Bytes × IndexEntry)) : Bytes :=
  toLE 4 magic ++ (toLE 1 version ++ (toLE 2 hwm ++ (toLE 8 maxTs ++
    (toLE 4 entries.length ++ entries.flatMap encodeEntry))))

/-- `buf[pos..pos + len]`. -/
def sliceOf (buf : Bytes) (pos len : Nat) : Except String Bytes :=
  if pos + len ≤ buf.length then .ok (slice buf pos len) else .error "range end index out of range for slice"

/-- `from_le_bytes` of `buf[pos..pos + w]`. -/
def readLE (w : Nat) (buf : Bytes) (pos : Nat) : Except String Nat := (sliceOf buf pos w).map fromLE

/-- One turn of the loop of `decode`: an entry and the position behind it. -/
def decodeEntry (buf : Bytes) (stop pos : Nat) : Except String (Option ((Bytes × IndexEntry) × Nat)) :=
  if pos + 4 > stop then pure none
  else do
    let klen ← readLE 4 buf pos
    let pos := pos + 4
    if pos + klen + 14 > stop then pure none
    else do
      let key ← sliceOf buf pos klen
      let pos := pos + klen
      let fingerprint ← readLE 4 buf pos
      let segmentId ← readLE 2 buf (pos + 4)
      let offset ← readLE 4 buf (pos + 6)
      let size ← readLE 4 buf (pos + 10)
      pure (some ((key, ⟨UInt32.ofNat fingerprint, segmentId, offset, size⟩), pos + 14))

def decodeEntries (buf : Bytes) (stop : Nat) : Nat → Nat → Except String (Option (List (Bytes × IndexEntry)))
  | 0, _ => pure (some [])
  | n + 1, pos => do
    match ← decodeEntry buf stop pos with
    | none => pure none
    | some (p, pos) => return (← decodeEntries buf stop n pos).map (p :: ·)

variable [Hashes]

def encode (hwm maxTs : Nat) (entries : List (Bytes × IndexEntry)) : Bytes :=
  body hwm maxTs entries ++ toLE 4 (crc32c (body hwm maxTs entries)).toNat

/-- The part of `decode` behind the check of the checksum. -/
def decodeBody (buf : Bytes) : Except String (Option Snapshot) := do
  if (← readLE 4 buf 0) ≠ magic then pure none
  else if (← readLE 1 buf 4) ≠ version then pure none
  else do
    let hwm ← readLE 2 buf 5
    let maxTs ← readLE 8 buf 7
    let n ← readLE 4 buf 15
    return (← decodeEntries buf (buf.length - 4) n headerLen).map fun entries => ⟨hwm, maxTs, entries⟩

def decode (buf : Bytes) : Except String (Option Snapshot) :=
  if buf.length < headerLen + 4 then pure none
  else do
    let crcStored ← readLE 4 buf (buf.length - 4)
    if (crc32c (← sliceOf buf 0 (buf.length - 4))).toNat ≠ crcStored then pure none
    else decodeBody buf

end Skeg.Snapshot
