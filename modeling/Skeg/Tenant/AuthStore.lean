import Skeg.Lib.LittleEndian
import Skeg.Server.Kv
import Mathlib.Data.List.AList

/-!
# The file of the auth store

`encode`, `parse_into` and `open` of `AuthStore`: a header with the number of records, and the records one behind the
other, each with its checksum and the lengths of the user's name and of the hash.  A table is written in the order in
which the map gives its entries.
-/

namespace Skeg.Tenant

open Cursor (leAt slice)
open Server (TenantId)

/-- `MAGIC`: `SKEGAUTH`. -/
def authMagic : Bytes := [0x53, 0x4b, 0x45, 0x47, 0x41, 0x55, 0x54, 0x48]

/-- `VERSION`. -/
def authVersion : Nat := 1

/-- The errors of reading a file. -/
inductive StoreError where
  | badMagic
  | badVersion (version : Nat)
  | truncated (off : Nat)
  | badCrc (idx : Nat)
  deriving DecidableEq, Repr

structure AuthRecord where
  tenant : TenantId
  hash : String
  deriving DecidableEq

/-- A user with the record. -/
abbrev AuthEntry : Type := Sigma fun _ : String => AuthRecord

structure AuthStore where
  byUser : AList fun _ : String => AuthRecord

variable [Hashes]

/-! ### Writing -/

def encodeBody (e : AuthEntry) : Bytes :=
  e.2.tenant.bytes ++ (toLE 4 (utf8 e.1).length ++ (toLE 4 (utf8 e.2.hash).length ++ (utf8 e.1 ++ utf8 e.2.hash)))

/-- A record with a length that does not fit is skipped. -/
def encodeRecord (e : AuthEntry) : Bytes :=
  if (utf8 e.1).length < 2 ^ 32 ∧ (utf8 e.2.hash).length < 2 ^ 32 then
    toLE 4 (crc32c (encodeBody e)).toNat ++ encodeBody e
  else []

/-- The table whose entries come in an order. -/
def encode (order : List AuthEntry) : Bytes :=
  let n := if order.length < 2 ^ 32 then order.length else 2 ^ 32 - 1
  authMagic ++ (toLE 4 authVersion ++ (toLE 4 n ++ order.flatMap encodeRecord))

/-! ### Reading -/

/-- Record number `idx`, which begins at `off`; and the offset behind it. -/
def parseRecord (bytes : Bytes) (idx off : Nat) : Except StoreError (AuthEntry × Nat) :=
  if h : bytes.length < off + 4 + 16 + 4 + 4 then .error (.truncated off)
  else
    let tenant : TenantId :=
      ⟨slice bytes (off + 4) 16, by rw [slice, List.length_take, List.length_drop]; omega⟩
    let userLen := leAt 4 bytes (off + 20)
    let hashLen := leAt 4 bytes (off + 24)
    if bytes.length < off + 28 + userLen + hashLen then .error (.truncated (off + 28))
    else
      match fromUtf8 (slice bytes (off + 28) userLen) with
      | none => .error (.truncated (off + 28))
      | some user =>
        match fromUtf8 (slice bytes (off + 28 + userLen) hashLen) with
        | none => .error (.truncated (off + 28 + userLen))
        | some hash =>
          if (crc32c (slice bytes (off + 4) (24 + userLen + hashLen))).toNat ≠ leAt 4 bytes off then
            .error (.badCrc idx)
          else .ok (⟨user, tenant, hash⟩, off + 28 + userLen + hashLen)

/-- `n` more records, from number `idx` on. -/
def parseRecords (bytes : Bytes) : Nat → Nat → Nat → (AList fun _ : String => AuthRecord) →
    Except StoreError (AList fun _ : String => AuthRecord)
  | 0, _, _, byUser => .ok byUser
  | n + 1, idx, off, byUser =>
    match parseRecord bytes idx off with
    | .error e => .error e
    | .ok (entry, off) => parseRecords bytes n (idx + 1) off (byUser.insert entry.1 entry.2)

def parseInto (s : AuthStore) (bytes : Bytes) : Except StoreError AuthStore :=
  if bytes.length < 16 ∨ slice bytes 0 8 ≠ authMagic then .error .badMagic
  else
    let version := leAt 4 bytes 8
    if version ≠ authVersion then .error (.badVersion version)
    else (parseRecords bytes (leAt 4 bytes 12) 0 16 s.byUser).map AuthStore.mk

/-- `AuthStore::open` of a file that may be missing. -/
def openAuth (file : Option Bytes) : Except StoreError AuthStore :=
  match file with
  | none => .ok ⟨∅⟩
  | some bytes => parseInto ⟨∅⟩ bytes

end Skeg.Tenant
