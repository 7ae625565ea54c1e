import Skeg.Core.Record
import Mathlib.Data.List.Sort

/-!
# Segment files

A segment is a file of back-to-back padded records, preallocated to its full length.  `File` keeps
the bytes written so far apart from the preallocated zeros behind them and knows how many of them
survive a power loss; `scanFile` is the recovery scan of `segment.rs`.
-/

namespace Skeg

/-- A file: the bytes written, the length (zeros fill it up), and how far it has been synced. -/
structure File where
  data : Bytes
  len : Nat
  synced : Nat
  le_len : data.length ≤ len
  synced_le : synced ≤ data.length
  deriving DecidableEq

namespace File

def content (f : File) : Bytes := f.data ++ zeros (f.len - f.data.length)

/-- A new file preallocated to `len` bytes. -/
def create (len : Nat) : File := ⟨[], len, 0, Nat.zero_le _, Nat.zero_le _⟩

instance : Inhabited File := ⟨create 0⟩

/-- Up to `size` bytes from `offset`, fewer at the end of the file. -/
def pread (f : File) (offset size : Nat) : Bytes := (f.content.drop offset).take size

/-- What a write of `bytes` at `offset` makes of `data`; an empty write does nothing, also behind the end. -/
def overwrite (data : Bytes) (offset : Nat) (bytes : Bytes) : Bytes :=
  if bytes = [] then data
  else data.take offset ++ zeros (offset - data.length) ++ bytes ++ data.drop (offset + bytes.length)

theorem length_overwrite {data bytes : Bytes} (offset : Nat) (h : bytes ≠ []) :
    (overwrite data offset bytes).length = max data.length (offset + bytes.length) := by
  simp [overwrite, h]
  omega

theorem length_le_overwrite (data : Bytes) (offset : Nat) (bytes : Bytes) :
    data.length ≤ (overwrite data offset bytes).length := by
  by_cases h : bytes = []
  · rw [overwrite, if_pos h]
  · rw [length_overwrite offset h]
    exact le_max_left _ _

def writeAt (f : File) (offset : Nat) (bytes : Bytes) : File where
  data := overwrite f.data offset bytes
  len := if bytes = [] then f.len else max f.len (offset + bytes.length)
  synced := f.synced
  le_len := by
    split_ifs with h
    · rw [overwrite, if_pos h]
      exact f.le_len
    · rw [length_overwrite offset h]
      exact max_le_max f.le_len (Nat.le_refl _)
  synced_le := f.synced_le.trans (length_le_overwrite _ _ _)

/-- Both `sync_data` and `sync_durable`. -/
def sync (f : File) : File :=
  { f with synced := f.data.length, synced_le := Nat.le_refl _ }

/-- Set the length to `n`, cutting the bytes behind it. -/
def truncate (f : File) (n : Nat) : File where
  data := f.data.take n
  len := n
  synced := min f.synced n
  le_len := by simp
  synced_le := by
    have := f.synced_le
    simp
    omega

/-- Extend the length to `n`; `fallocate` never shortens a file. -/
def preallocate (f : File) (n : Nat) : File :=
  { f with len := max f.len n, le_len := Nat.le_trans f.le_len (le_max_left _ _) }

end File

/-- The segment ids present in the directory, ascending. -/
def listSegments (dir : List Nat) : List Nat := dir.insertionSort (· ≤ ·)

section

variable [H : Hashes]

/-- Records back to back. -/
def encodeAll (rs : List Record) : Bytes := rs.flatMap Record.encode

/-- One round of `scan_file`: the record at the start of `bytes` and its padded size, or `none` where
the scan ends. -/
def nextRecord (bytes : Bytes) : Option (Record × Nat) :=
  if bytes.length < headerSize then none  -- EOF or partial header
  else
    let ksz := fromLE ((bytes.drop 12).take 4)
    let vsz := fromLE ((bytes.drop 16).take 4)
    let padded := paddedRecordSize ksz vsz
    if bytes.length < padded then none  -- truncated record
    else
      match decodeRecord (bytes.take padded) with
      | .ok rec => some (rec, padded)
      | .error _ => none  -- CRC failure / corrupt kind: recovery boundary

/-- The loop of `scan_file` at `offset`, with `bytes` the file from there on: the records found, and
the offset behind the last one.  Every record takes at least 128 bytes, so `bytes.length` rounds are
more than enough. -/
def scanFrom : Nat → Nat → Bytes → List (Nat × Record) × Nat
  | 0, offset, _ => ([], offset)
  | fuel + 1, offset, bytes =>
    match nextRecord bytes with
    | none => ([], offset)
    | some (rec, padded) =>
      let rest := scanFrom fuel (offset + padded) (bytes.drop padded)
      ((offset, rec) :: rest.1, rest.2)

def scanFile (content : Bytes) : List (Nat × Record) × Nat :=
  scanFrom content.length 0 content

end

end Skeg
