import Skeg.Core.Hashes
import Skeg.Vector.Equiv.Wal
import Skeg.Vector.WalReads

/-!
# The codec of the delta log

The decoder that reads the buffer by index is the decoder of `decode_wal` without a read outside of the buffer
(`readWal_eq`).  It reads back what was written, up to a record that is cut off, and reports a whole record that is
damaged (`deltaWal_codec`).
-/

namespace Skeg

namespace Vector

open Snapshot (sliceOf readLE)

theorem sliceOf_of_le {buf : Bytes} {pos len : Nat} (h : pos + len ≤ buf.length) :
    sliceOf buf pos len = .ok ((buf.drop pos).take len) := if_pos h

theorem byteOf_drop {buf rest : Bytes} {pos : Nat} {b : UInt8} (h : buf.drop pos = b :: rest) :
    byteOf buf pos = .ok b := by
  have hlen := congrArg List.length h
  rw [List.length_drop, List.length_cons] at hlen
  rw [byteOf, sliceOf_of_le (by omega), h]
  rfl

theorem readWalOp_eq {body tail : Bytes} {op : UInt8} (hbody : body = op :: tail) (hlen : 9 ≤ body.length)
    (hop : op = 0 ∨ op = 1) : readWalOp body = .ok (decodeWalOp body) := by
  have hhead : byteOf body 0 = .ok op := byteOf_drop (by rw [List.drop_zero, hbody])
  have hfloats : (body.drop 9).take (body.length - 9) = body.drop 9 :=
    List.take_of_length_le (by rw [List.length_drop])
  rw [readWalOp, readLE, sliceOf_of_le (show 1 + 8 ≤ body.length from hlen), hhead,
    sliceOf_of_le (show 9 + (body.length - 9) ≤ body.length by omega), hfloats, decodeWalOp]
  rcases hop with rfl | rfl
  · rw [if_pos (show body.head? = some 0 by rw [hbody]; rfl)]
    rfl
  · rw [if_neg (show body.head? ≠ some 0 by rw [hbody, List.head?_cons]; decide)]
    rfl

/-- What a body length says of the operation byte. -/
theorem op_of_walRecordBodyLen {op : UInt8} {dim n : Nat} (h : walRecordBodyLen op dim = .ok n) :
    (op = 0 ∨ op = 1) ∧ 9 ≤ n := by
  rw [walRecordBodyLen] at h
  by_cases h0 : op = 0
  · rw [if_pos h0] at h
    split at h
    · cases h
      exact ⟨.inl h0, by omega⟩
    · cases h
  · rw [if_neg h0] at h
    by_cases h1 : op = 1
    · rw [if_pos h1] at h
      cases h
      exact ⟨.inr h1, by decide⟩
    · rw [if_neg h1] at h
      cases h

theorem walRecordLen_eq {format : DeltaWalFormat} {n m : Nat} (h : walRecordLen format n = .ok m) :
    m = if format = .framedV2 then n + 4 else n := by
  cases format with
  | legacyV1 =>
    cases h
    rfl
  | framedV2 =>
    rw [walRecordLen] at h
    split at h
    · cases h
      rfl
    · cases h

section

variable [H : Hashes]

/-- The stored checksum is read within the buffer. -/
theorem readChecksum_eq {format : DeltaWalFormat} {payload body : Bytes} {pos n m : Nat}
    (hm : m = if format = .framedV2 then n + 4 else n) (h : pos + m ≤ payload.length) :
    readChecksum format payload pos n m body = .ok (¬(format = .framedV2 ∧
      UInt32.ofNat (fromLE (((payload.drop pos).drop n).take 4)) ≠ crc32c body)) := by
  rw [readChecksum]
  by_cases hv2 : format = .framedV2
  · rw [if_pos hv2] at hm ⊢
    have hwidth : m - n = 4 := by omega
    rw [hwidth, readLE, sliceOf_of_le (by omega), List.drop_drop]
    simp only [hv2, true_and, not_not]
    rfl
  · rw [if_neg hv2]
    simp only [hv2, false_and, not_false_iff, decide_true]
    rfl

/-- The loop reads within the buffer, and comes to what the decoder makes of the rest of it. -/
theorem readWalFrom_eq (format : DeltaWalFormat) (payload : Bytes) (dim fuel pos : Nat) (ops : List DeltaWalOp) :
    readWalFrom format payload dim fuel pos ops =
      .ok ((decodeWalFrom format dim fuel pos (payload.drop pos)).map (ops ++ ·)) := by
  induction fuel generalizing pos ops with
  | zero => rw [readWalFrom, decodeWalFrom, Except.map, List.append_nil]; rfl
  | succ fuel ih =>
    rw [readWalFrom]
    cases hrest : payload.drop pos with
    | nil =>
      rw [if_neg (Nat.not_lt.mpr (List.drop_eq_nil_iff.mp hrest)), decodeWalFrom, Except.map, List.append_nil]
      rfl
    | cons op tail =>
      have hpos : pos < payload.length := by
        by_contra hle
        rw [List.drop_eq_nil_of_le (by omega)] at hrest
        cases hrest
      have hlen : (op :: tail).length = payload.length - pos := by rw [← hrest, List.length_drop]
      rw [if_pos hpos, byteOf_drop hrest, decodeWalFrom]
      simp only [bind, Except.bind]
      cases hbody : walRecordBodyLen op dim with
      | error e => rfl
      | ok n =>
        simp only
        cases hrecord : walRecordLen format n with
        | error e => rfl
        | ok m =>
          obtain ⟨hop, h9⟩ := op_of_walRecordBodyLen hbody
          have hm := walRecordLen_eq hrecord
          simp only [hlen]
          by_cases htorn : payload.length - pos < m
          · rw [if_pos htorn, if_pos htorn, Except.map, List.append_nil]
            rfl
          · have hnm : n ≤ m := by
              rw [hm]
              split <;> omega
            have htake : ((op :: tail).take n).length = n := by
              rw [List.length_take, hlen]
              omega
            have hread : readWalOp ((op :: tail).take n) = .ok (decodeWalOp ((op :: tail).take n)) := by
              obtain ⟨k, rfl⟩ : ∃ k, n = k + 1 := ⟨n - 1, by omega⟩
              exact readWalOp_eq List.take_succ_cons (by rw [htake]; exact h9) hop
            have hnext : (op :: tail).drop m = payload.drop (pos + m) := by rw [← hrest, List.drop_drop]
            rw [if_neg htorn, if_neg htorn, sliceOf_of_le (by omega), hrest]
            simp only
            rw [readChecksum_eq hm (by omega), hrest]
            by_cases hsum : format = .framedV2 ∧
                UInt32.ofNat (fromLE (((op :: tail).drop n).take 4)) ≠ crc32c ((op :: tail).take n)
            · rw [decide_eq_false (not_not.mpr hsum), if_pos hsum]
              rfl
            · rw [decide_eq_true hsum, if_neg hsum, hread, hnext]
              simp only [if_true, ih]
              cases decodeWalFrom format dim fuel (pos + m) (payload.drop (pos + m)) with
              | error e => rfl
              | ok later => simp only [Except.map, List.append_assoc, List.singleton_append]

/-- The decoder reads nothing outside its buffer: by index it comes to what it comes to on the bytes. -/
theorem readWal_eq (bytes : Bytes) (dim : Nat) : readWal bytes dim = .ok (decodeWal bytes dim) := by
  have hformat : readFormat bytes = .ok (DeltaWalFormat.detect bytes) := by
    rw [readFormat]
    by_cases hmagic : deltaWalV2Magic.isPrefixOf bytes
    · have hle : deltaWalV2Magic.length ≤ bytes.length := (List.isPrefixOf_iff_prefix.mp hmagic).length_le
      rw [if_pos hmagic, sliceOf_of_le (by omega), DeltaWalFormat.detect, if_pos hmagic,
        List.take_of_length_le (by rw [List.length_drop])]
      rfl
    · rw [if_neg hmagic]
      rfl
  rw [readWal, hformat, decodeWal]
  simp only [bind, Except.bind]
  cases DeltaWalFormat.detect bytes with
  | error e => rfl
  | ok found =>
    obtain ⟨format, payload⟩ := found
    simp only [readWalFrom_eq, List.drop_zero, decodeWalPayload]
    cases decodeWalFrom format dim payload.length 0 payload <;> rfl

/-! ### Records as bytes -/

/-- A record that is all there, with the length its operation byte asks for. -/
structure WholeRecord (dim : Nat) (record : Bytes) (op : UInt8) (bodyLen : Nat) : Prop where
  head : record.head? = some op
  body : walRecordBodyLen op dim = .ok bodyLen
  size : walRecordLen .framedV2 bodyLen = .ok record.length

/-- The checksum stored behind the body is the body's own. -/
def ChecksumOk (record : Bytes) (bodyLen : Nat) : Prop :=
  UInt32.ofNat (fromLE (record.drop bodyLen)) = crc32c (record.take bodyLen)

/-- A complete record with a correct checksum. -/
def GoodRecord (dim : Nat) (record : Bytes) : Prop :=
  ∃ op bodyLen, WholeRecord dim record op bodyLen ∧ ChecksumOk record bodyLen

/-- What no decoder may take for the end of the log: a complete record with a wrong checksum, or an operation that there
is not. -/
def CorruptAt (dim : Nat) (rest : Bytes) : Prop :=
  (∃ record later op bodyLen, rest = record ++ later ∧ WholeRecord dim record op bodyLen ∧
      ¬ChecksumOk record bodyLen) ∨
    ∃ op later, rest = op :: later ∧ op ≠ 0 ∧ op ≠ 1

omit H in
theorem WholeRecord.length {dim : Nat} {record : Bytes} {op : UInt8} {n : Nat} (h : WholeRecord dim record op n) :
    record.length = n + 4 := by
  have hlen := walRecordLen_eq h.size
  rwa [if_pos rfl] at hlen

/-- What the decoder does with a whole record in front. -/
theorem decodeAt_whole {dim : Nat} {record : Bytes} {op : UInt8} {n : Nat} (h : WholeRecord dim record op n)
    (pos : Nat) (rest : Bytes) :
    decodeAt .framedV2 dim pos (record ++ rest) =
      if UInt32.ofNat (fromLE (record.drop n)) ≠ crc32c (record.take n) then
        .error (.invalidData s!"vector WAL checksum mismatch at byte {pos}")
      else (decodeAt .framedV2 dim (pos + record.length) rest).map (decodeWalOp (record.take n) :: ·) := by
  obtain ⟨tail, hrecord⟩ : ∃ tail, record = op :: tail := by
    cases record with
    | nil => cases h.head
    | cons b tail => exact ⟨tail, by rw [Option.some.inj h.head]⟩
  have hlen := h.length
  have hbytes : record ++ rest = op :: (tail ++ rest) := by rw [hrecord, List.cons_append]
  have hbody : (op :: (tail ++ rest)).take n = record.take n := by
    rw [← hbytes, List.take_append_of_le_length (by omega)]
  have hstored : ((op :: (tail ++ rest)).drop n).take 4 = record.drop n := by
    rw [← hbytes, List.drop_append_of_le_length (by omega), List.take_left' (by rw [List.length_drop, hlen]; omega)]
  have hdrop : (op :: (tail ++ rest)).drop record.length = rest := by rw [← hbytes, List.drop_left' rfl]
  have hle : ¬(op :: (tail ++ rest)).length < record.length := by
    rw [← hbytes, List.length_append]
    omega
  have hfuel : rest.length ≤ (tail ++ rest).length := by
    rw [List.length_append]
    omega
  rw [decodeAt, hbytes, List.length_cons, decodeWalFrom]
  simp only [h.body, h.size]
  rw [if_neg hle, hbody, hstored, hdrop, decodeWalFrom_fuel .framedV2 dim hfuel (Nat.le_refl _), ← decodeAt]
  by_cases hsum : UInt32.ofNat (fromLE (record.drop n)) ≠ crc32c (record.take n)
  · rw [if_pos ⟨trivial, hsum⟩, if_pos hsum]
  · rw [if_neg (fun hboth => hsum hboth.2), if_neg hsum]
    cases decodeAt .framedV2 dim (pos + record.length) rest <;> rfl

/-- Corruption in front is an error. -/
theorem decodeAt_corrupt {dim : Nat} {rest : Bytes} (h : CorruptAt dim rest) (pos : Nat) :
    ∃ e, decodeAt .framedV2 dim pos rest = .error e := by
  rcases h with ⟨record, later, op, n, rfl, hwhole, hsum⟩ | ⟨op, later, rfl, h0, h1⟩
  · rw [decodeAt_whole hwhole, if_pos (show _ ≠ _ from hsum)]
    exact ⟨_, rfl⟩
  · rw [decodeAt, List.length_cons, decodeWalFrom, walRecordBodyLen, if_neg h0, if_neg h1]
    exact ⟨_, rfl⟩

/-- Good records in front of corruption do not hide it. -/
theorem decodeAt_good_corrupt {dim : Nat} {records : List Bytes} (hgood : ∀ r ∈ records, GoodRecord dim r)
    {rest : Bytes} (hbad : CorruptAt dim rest) (pos : Nat) :
    ∃ e, decodeAt .framedV2 dim pos (records.flatten ++ rest) = .error e := by
  induction records generalizing pos with
  | nil => exact decodeAt_corrupt hbad pos
  | cons record records ih =>
    obtain ⟨op, n, hwhole, hsum⟩ := hgood record List.mem_cons_self
    obtain ⟨e, he⟩ := ih (fun r hr => hgood r (List.mem_cons_of_mem _ hr)) (pos + record.length)
    rw [List.flatten_cons, List.append_assoc, decodeAt_whole hwhole,
      if_neg (show ¬_ ≠ _ from not_not.mpr hsum), he]
    exact ⟨e, rfl⟩

theorem decodeWal_framed (payload : Bytes) (dim : Nat) :
    decodeWal (deltaWalV2Magic ++ payload) dim = (decodeAt .framedV2 dim 0 payload).map (.framedV2, ·) := by
  rw [decodeWal, detect_framed]
  simp only [decodeWalPayload_eq]
  cases decodeAt .framedV2 dim 0 payload <;> rfl

/-- **The delta log's codec.**  Whole records and any proper prefix of one more decode to the operations written;
corruption behind good records is an error, never a shorter list; and no read leaves the buffer. -/
theorem deltaWal_codec (dim : Nat) :
    (∀ (ops : List DeltaWalOp) (last : DeltaWalOp), (∀ op ∈ last :: ops, op.Fits dim ∧ op.Sized) →
      ∀ torn, torn <+: encodeWalRecord .framedV2 last → torn ≠ encodeWalRecord .framedV2 last →
        readWal (deltaWalV2Magic ++ encodeWalRecords .framedV2 ops ++ torn) dim = .ok (.ok (.framedV2, ops))) ∧
      (∀ (records : List Bytes) (rest : Bytes), (∀ r ∈ records, GoodRecord dim r) → CorruptAt dim rest →
        ∃ e, readWal (deltaWalV2Magic ++ records.flatten ++ rest) dim = .ok (.error e)) ∧
      ∀ bytes, ∃ result, readWal bytes dim = .ok result := by
  refine ⟨?_, ?_, fun bytes => ⟨_, readWal_eq bytes dim⟩⟩
  · intro ops last hops torn htorn hne
    have hlt : torn.length < (encodeWalRecord .framedV2 last).length :=
      lt_of_le_of_ne htorn.length_le fun heq => hne (htorn.eq_of_length heq)
    obtain ⟨hfits, hsized⟩ := hops last List.mem_cons_self
    rw [readWal_eq, List.append_assoc, decodeWal_framed,
      decodeAt_records .framedV2 (fun op h => (hops op (List.mem_cons_of_mem _ h)).2)
        (fun op h => (hops op (List.mem_cons_of_mem _ h)).1),
      decodeAt_torn hsized hfits htorn hlt]
    simp only [Except.map, List.append_nil]
  · intro records rest hgood hbad
    obtain ⟨e, he⟩ := decodeAt_good_corrupt hgood hbad 0
    rw [readWal_eq, List.append_assoc, decodeWal_framed, he]
    exact ⟨e, rfl⟩

end

section

attribute [local instance] linkedHashes

/-- A log of an index of dimension one that ends within a deletion; and a deletion followed by a byte that is no
operation. -/
theorem deltaWal_codec_one :
    readWal (deltaWalV2Magic ++ encodeWalRecords .framedV2 [.insert 7 [0x3f800000]] ++ [1, 9, 0]) 1 =
        .ok (.ok (.framedV2, [.insert 7 [0x3f800000]])) ∧
      (∃ e, readWal (deltaWalV2Magic ++ [encodeWalRecord .framedV2 (.delete 9)].flatten ++ [2, 0]) 1 =
        .ok (.error e)) ∧
      ∃ result, readWal deltaWalV2Magic 1 = .ok result := by
  obtain ⟨hback, hcorrupt, htotal⟩ := deltaWal_codec 1
  have hdim : 1 < 2 ^ 32 := by decide
  refine ⟨hback [.insert 7 [0x3f800000]] (.delete 9) ?_ [1, 9, 0] ?_ ?_, hcorrupt _ [2, 0] ?_ ?_, htotal _⟩
  · intro op hop
    rcases List.mem_pair.mp hop with rfl | rfl
    · exact ⟨trivial, DeltaWalOp.sized_of_fits hdim trivial⟩
    · exact ⟨rfl, DeltaWalOp.sized_of_fits hdim rfl⟩
  · exact List.isPrefixOf_iff_prefix.mp (by decide)
  · decide
  · intro record hrecord
    rw [List.mem_singleton.mp hrecord]
    exact ⟨1, 9, ⟨by decide, rfl, rfl⟩, show _ = _ by decide +kernel⟩
  · exact .inr ⟨2, [0], rfl, by decide, by decide⟩

end

end Vector

end Skeg
