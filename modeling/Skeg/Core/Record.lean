import Skeg.Lib.LittleEndian

/-!
# Records of the value log

The on-disk record of `record.rs`: a 21-byte header `[crc 4][ts 8][ksz 4][vsz 4][kind 1]`, the key,
the value, and zeros up to a multiple of 128 bytes; all integers little-endian.  `encodeRecord` and
`decodeRecord` are the two directions, `paddedRecordSize` is the size on disk.

The checksum `crc32c` and the hash `xxh3_64` come from other crates; they are parameters here.
-/

namespace Skeg

/-- The functions the store takes from other crates. -/
class Hashes where
  crc32c : Bytes → UInt32
  xxh3_64 : Bytes → UInt64

export Hashes (crc32c xxh3_64)

/-- What recovery needs of the checksum: 17 zero bytes, the checksummed part of a header read from
preallocated space, do not have checksum zero. -/
class LawfulHashes [H : Hashes] : Prop where
  crc32c_zeros : crc32c (zeros 17) ≠ 0

inductive RecordKind where
  | scalar | tombstone | vecF32 | vecInt8 | vecBinary | batchBegin
  deriving DecidableEq, Repr

inductive Error where
  | io (msg : String)
  | crcMismatch (expected got : UInt32)
  | invalidRecord (msg : String)
  | unknownKind (kind : UInt8)
  | diskQuota
  deriving DecidableEq, Repr

namespace RecordKind

def toU8 : RecordKind → UInt8
  | scalar => 0
  | tombstone => 1
  | vecF32 => 2
  | vecInt8 => 3
  | vecBinary => 4
  | batchBegin => 5

def fromU8 (k : UInt8) : Except Error RecordKind :=
  if k = 0 then .ok scalar
  else if k = 1 then .ok tombstone
  else if k = 2 then .ok vecF32
  else if k = 3 then .ok vecInt8
  else if k = 4 then .ok vecBinary
  else if k = 5 then .ok batchBegin
  else .error (.unknownKind k)

@[simp] theorem fromU8_toU8 (k : RecordKind) : fromU8 k.toU8 = .ok k := by
  cases k <;> rfl

end RecordKind

structure Record where
  ts : Nat
  kind : RecordKind
  key : Bytes
  value : Bytes
  deriving DecidableEq, Repr

/-- crc(4) + ts(8) + ksz(4) + vsz(4) + kind(1). -/
def headerSize : Nat := 21

/-- Size on disk: the record rounded up to a multiple of 128 bytes. -/
def paddedRecordSize (ksz vsz : Nat) : Nat :=
  (headerSize + ksz + vsz + 127) / 128 * 128

def Record.size (r : Record) : Nat := paddedRecordSize r.key.length r.value.length

section Codec

variable [H : Hashes]

/-- The part of a record its checksum covers. -/
def recordBody (key value : Bytes) (kind : RecordKind) (ts : Nat) : Bytes :=
  toLE 8 ts ++ toLE 4 key.length ++ toLE 4 value.length ++ [kind.toU8] ++ key ++ value

def encodeRecord (key value : Bytes) (kind : RecordKind) (ts : Nat) : Bytes :=
  let body := recordBody key value kind ts
  toLE 4 (crc32c body).toNat ++ body ++
    zeros (paddedRecordSize key.length value.length - (headerSize + key.length + value.length))

def Record.encode (r : Record) : Bytes := encodeRecord r.key r.value r.kind r.ts

def decodeRecord (buf : Bytes) : Except Error Record :=
  if buf.length < headerSize then .error (.invalidRecord "buffer too short for header")
  else
    let storedCrc := UInt32.ofNat (fromLE (buf.take 4))
    let ts := fromLE ((buf.drop 4).take 8)
    let ksz := fromLE ((buf.drop 12).take 4)
    let vsz := fromLE ((buf.drop 16).take 4)
    match RecordKind.fromU8 ((buf.drop 20).headD 0) with
    | .error e => .error e
    | .ok kind =>
      let payloadEnd := headerSize + ksz + vsz
      if buf.length < payloadEnd then .error (.invalidRecord "buffer too short for key/value")
      else
        let computed := crc32c ((buf.take payloadEnd).drop 4)
        if computed ≠ storedCrc then .error (.crcMismatch computed storedCrc)
        else .ok ⟨ts, kind, (buf.drop headerSize).take ksz, (buf.drop (headerSize + ksz)).take vsz⟩

end Codec

end Skeg
