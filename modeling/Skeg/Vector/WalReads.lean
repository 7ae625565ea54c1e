import Skeg.Core.SnapshotFile
import Skeg.Vector.Wal

/-!
# Reading the delta log by index

`decode_wal` once more, on the whole buffer: an index or a slice outside of it panics, with the message as the error.
-/

namespace Skeg

namespace Vector

open Snapshot (sliceOf readLE)

/-- `buf[pos]`. -/
def byteOf (buf : Bytes) (pos : Nat) : Except String UInt8 :=
  (sliceOf buf pos 1).map fun b => b.headD 0

def readWalOp (body : Bytes) : Except String DeltaWalOp := do
  let id ← readLE 8 body 1
  let op ← byteOf body 0
  if op = 0 then
    let floats ← sliceOf body 9 (body.length - 9)
    return .insert (UInt64.ofNat id) (decodeF32s floats)
  else if op = 1 then return .delete (UInt64.ofNat id)
  else throw "internal error: entered unreachable code: operation byte validated before decoding"

section

variable [H : Hashes]

/-- The checksum of a body is the one stored behind it; the old format stores none. -/
def readChecksum (format : DeltaWalFormat) (payload : Bytes) (pos bodyLen recordLen : Nat) (body : Bytes) :
    Except String Bool :=
  if format = .framedV2 then do
    let stored ← readLE (recordLen - bodyLen) payload (pos + bodyLen)
    return UInt32.ofNat stored = crc32c body
  else return true

/-- The loop of `decode_wal_payload`. -/
def readWalFrom (format : DeltaWalFormat) (payload : Bytes) (dim : Nat) :
    Nat → Nat → List DeltaWalOp → Except String (Except IoError (List DeltaWalOp))
  | 0, _, ops => return .ok ops
  | fuel + 1, pos, ops =>
    if pos < payload.length then do
      let op ← byteOf payload pos
      match walRecordBodyLen op dim with
      | .error e => return .error e
      | .ok bodyLen =>
        match walRecordLen format bodyLen with
        | .error e => return .error e
        | .ok recordLen =>
          if payload.length - pos < recordLen then return .ok ops
          else do
            let body ← sliceOf payload pos bodyLen
            if ← readChecksum format payload pos bodyLen recordLen body then
              let o ← readWalOp body
              readWalFrom format payload dim fuel (pos + recordLen) (ops ++ [o])
            else return .error (.invalidData s!"vector WAL checksum mismatch at byte {pos}")
    else return .ok ops

/-- `DeltaWalFormat::detect`. -/
def readFormat (bytes : Bytes) : Except String (Except IoError (DeltaWalFormat × Bytes)) :=
  if deltaWalV2Magic.isPrefixOf bytes then do
    let payload ← sliceOf bytes deltaWalV2Magic.length (bytes.length - deltaWalV2Magic.length)
    return .ok (.framedV2, payload)
  else return DeltaWalFormat.detect bytes

def readWal (bytes : Bytes) (dim : Nat) : Except String (Except IoError (DeltaWalFormat × List DeltaWalOp)) := do
  match ← readFormat bytes with
  | .error e => return .error e
  | .ok (format, payload) =>
    match ← readWalFrom format payload dim payload.length 0 [] with
    | .error e => return .error e
    | .ok ops => return .ok (format, ops)

end

end Vector

end Skeg
