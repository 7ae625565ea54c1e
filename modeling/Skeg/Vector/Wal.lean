import Skeg.Core.Record

/-!
# The delta log of a disk vector index

`delta.log` of `vamana.rs`: the inserts and deletes since the last consolidation, replayed on open.  The
V1 format is a headerless sequence of records `[op 1][id 8][vector 4 * dim]`; V2 has a five-byte header
and a CRC-32C behind every record.  A record has no length of its own: the decoder knows how long it is
from its first byte.
-/

namespace Skeg

namespace Vector

/-- An `f32`, as its bit pattern. -/
abbrev F32 := UInt32

abbrev Vec := List F32

inductive IoError where
  | invalidData (msg : String)
  | invalidInput (msg : String)
  | unexpectedEof
  | notFound
  deriving DecidableEq, Repr

inductive DeltaWalFormat where
  | legacyV1 | framedV2
  deriving DecidableEq, Repr

inductive DeltaWalOp where
  | insert (id : UInt64) (vector : Vec)
  | delete (id : UInt64)
  deriving DecidableEq, Repr

/-- `SKWL\x02`. -/
def deltaWalV2Magic : Bytes := [83, 75, 87, 76, 2]

def DeltaWalFormat.detect (bytes : Bytes) : Except IoError (DeltaWalFormat × Bytes) :=
  if deltaWalV2Magic.isPrefixOf bytes then .ok (.framedV2, bytes.drop deltaWalV2Magic.length)
  -- a malformed V2 header is never parsed as V1
  else if (deltaWalV2Magic.take 4).isPrefixOf bytes || bytes.head?.any (1 < ·) then
    .error (.invalidData "invalid vector delta WAL header")
  else .ok (.legacyV1, bytes)

/-! ### Vectors as bytes -/

def encodeF32s (v : Vec) : Bytes := toLEs 4 (v.map UInt32.toNat)

/-- Whole groups of four bytes; what is left over at the end is ignored. -/
def decodeF32s : Bytes → Vec
  | b₀ :: b₁ :: b₂ :: b₃ :: bs => UInt32.ofNat (fromLE [b₀, b₁, b₂, b₃]) :: decodeF32s bs
  | _ => []

def encodeWalBody : DeltaWalOp → Bytes
  | .insert id vector => 0 :: toLE 8 id.toNat ++ encodeF32s vector
  | .delete id => 1 :: toLE 8 id.toNat

/-! ### Decoding -/

/-- The `checked_add` and `checked_mul` of `usize` fail from here on. -/
def usizeBound : Nat := 2 ^ 64

def walRecordBodyLen (op : UInt8) (dim : Nat) : Except IoError Nat :=
  if op = 0 then
    if 1 + 8 + dim * 4 < usizeBound then .ok (1 + 8 + dim * 4)
    else .error (.invalidData "vector WAL record too large")
  else if op = 1 then .ok (1 + 8)
  else .error (.invalidData s!"unknown vector WAL operation {op}")

/-- The length of a record with its checksum. -/
def walRecordLen (format : DeltaWalFormat) (bodyLen : Nat) : Except IoError Nat :=
  match format with
  | .legacyV1 => .ok bodyLen
  | .framedV2 =>
    if bodyLen + 4 < usizeBound then .ok (bodyLen + 4)
    else .error (.invalidData "vector WAL record too large")

def decodeWalOp (body : Bytes) : DeltaWalOp :=
  let id := UInt64.ofNat (fromLE ((body.drop 1).take 8))
  if body.head? = some 0 then .insert id (decodeF32s (body.drop 9)) else .delete id

section

variable [H : Hashes]

/-- The loop of `decode_wal_payload` at byte `pos`, with `rest` still to read; every record is at least
one byte long. -/
def decodeWalFrom (format : DeltaWalFormat) (dim : Nat) :
    Nat → Nat → Bytes → Except IoError (List DeltaWalOp)
  | 0, _, _ => .ok []
  | _ + 1, _, [] => .ok []
  | fuel + 1, pos, op :: tail =>
    let rest := op :: tail
    match walRecordBodyLen op dim with
    | .error e => .error e
    | .ok bodyLen =>
      match walRecordLen format bodyLen with
      | .error e => .error e
      | .ok recordLen =>
        -- a crash during the final append: no complete record to apply
        if rest.length < recordLen then .ok []
        else
          let body := rest.take bodyLen
          let stored := UInt32.ofNat (fromLE ((rest.drop bodyLen).take 4))
          if format = .framedV2 ∧ stored ≠ crc32c body then
            .error (.invalidData s!"vector WAL checksum mismatch at byte {pos}")
          else
            match decodeWalFrom format dim fuel (pos + recordLen) (rest.drop recordLen) with
            | .error e => .error e
            | .ok ops => .ok (decodeWalOp body :: ops)

def decodeWalPayload (format : DeltaWalFormat) (payload : Bytes) (dim : Nat) :
    Except IoError (List DeltaWalOp) :=
  decodeWalFrom format dim payload.length 0 payload

def decodeWal (bytes : Bytes) (dim : Nat) : Except IoError (DeltaWalFormat × List DeltaWalOp) :=
  match DeltaWalFormat.detect bytes with
  | .error e => .error e
  | .ok (format, payload) =>
    match decodeWalPayload format payload dim with
    | .error e => .error e
    | .ok ops => .ok (format, ops)

/-! ### Encoding -/

def encodeWalRecord (format : DeltaWalFormat) (op : DeltaWalOp) : Bytes :=
  match format with
  | .legacyV1 => encodeWalBody op
  | .framedV2 => encodeWalBody op ++ toLE 4 (crc32c (encodeWalBody op)).toNat

def encodeWalRecords (format : DeltaWalFormat) (ops : List DeltaWalOp) : Bytes :=
  ops.flatMap (encodeWalRecord format)

/-- What `write_framed_wal` puts into the file. -/
def framedWal (ops : List DeltaWalOp) : Bytes := deltaWalV2Magic ++ encodeWalRecords .framedV2 ops

end

end Vector

end Skeg
