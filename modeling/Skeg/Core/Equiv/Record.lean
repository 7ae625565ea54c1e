import Skeg.Core.Record

/-!
# Records round-trip

`decodeRecord_encode`: decoding an encoded record gives the record back, for every record whose
timestamp fits 64 bits and whose key and value lengths fit 32 bits (`Record.Wf`).
-/

namespace Skeg

/-- The record fits the widths of its header. -/
structure Record.Wf (r : Record) : Prop where
  ts : r.ts < 2 ^ 64
  key : r.key.length < 2 ^ 32
  value : r.value.length < 2 ^ 32

theorem le_paddedRecordSize (k v : Nat) : headerSize + k + v ≤ paddedRecordSize k v := by
  unfold paddedRecordSize
  omega

theorem paddedRecordSize_pos (k v : Nat) : 0 < paddedRecordSize k v := by
  have := le_paddedRecordSize k v
  unfold headerSize at this
  omega

theorem Record.size_pos (r : Record) : 0 < r.size := paddedRecordSize_pos _ _

section

variable [H : Hashes]

omit H in
@[simp] theorem length_recordBody (key value : Bytes) (kind : RecordKind) (ts : Nat) :
    (recordBody key value kind ts).length = 17 + key.length + value.length := by
  simp [recordBody]
  omega

@[simp] theorem Record.length_encode (r : Record) : r.encode.length = r.size := by
  have := le_paddedRecordSize r.key.length r.value.length
  unfold headerSize at this
  simp [Record.encode, encodeRecord, Record.size, headerSize]
  omega

/-- The header and payload of an encoded record, one list per field. -/
theorem Record.encode_eq (r : Record) : r.encode =
    toLE 4 (crc32c (recordBody r.key r.value r.kind r.ts)).toNat ++ (toLE 8 r.ts ++
      (toLE 4 r.key.length ++ (toLE 4 r.value.length ++ ([r.kind.toU8] ++ (r.key ++ (r.value ++
        zeros (r.size - (headerSize + r.key.length + r.value.length)))))))) := by
  simp [Record.encode, encodeRecord, recordBody, Record.size, List.append_assoc]

/-- The fields of an encoded record, as a decoder reads them. -/
theorem Record.fields (r : Record) (rest : Bytes) :
    (r.encode ++ rest).take 4 = toLE 4 (crc32c (recordBody r.key r.value r.kind r.ts)).toNat ∧
    ((r.encode ++ rest).drop 4).take 8 = toLE 8 r.ts ∧
    ((r.encode ++ rest).drop 12).take 4 = toLE 4 r.key.length ∧
    ((r.encode ++ rest).drop 16).take 4 = toLE 4 r.value.length ∧
    ((r.encode ++ rest).drop 20).headD 0 = r.kind.toU8 := by
  have h12 : ∀ l : Bytes, l.drop 12 = (l.drop 4).drop 8 := fun l => by simp
  have h16 : ∀ l : Bytes, l.drop 16 = ((l.drop 4).drop 8).drop 4 := fun l => by simp
  have h20 : ∀ l : Bytes, l.drop 20 = (((l.drop 4).drop 8).drop 4).drop 4 := fun l => by simp
  simp only [h12, h16, h20, Record.encode_eq, List.append_assoc,
    List.take_left' (length_toLE _ _), List.drop_left' (length_toLE _ _)]
  simp

theorem decodeRecord_encode (r : Record) (hr : r.Wf) : decodeRecord r.encode = .ok r := by
  obtain ⟨hcrc, hts, hk, hv, hkind⟩ := r.fields []
  rw [List.append_nil] at hcrc hts hk hv hkind
  have hksz : fromLE ((r.encode.drop 12).take 4) = r.key.length := by
    rw [hk, fromLE_toLE (by simpa using hr.key)]
  have hvsz : fromLE ((r.encode.drop 16).take 4) = r.value.length := by
    rw [hv, fromLE_toLE (by simpa using hr.value)]
  have hlen := r.length_encode
  have hle : headerSize + r.key.length + r.value.length ≤ r.size := le_paddedRecordSize _ _
  have hbody : (r.encode.take (headerSize + r.key.length + r.value.length)).drop 4 =
      recordBody r.key r.value r.kind r.ts := by
    rw [List.drop_take, Record.encode, encodeRecord, List.append_assoc,
      List.drop_left' (length_toLE _ _), List.take_left']
    simp [headerSize]
    omega
  have hcrc' : UInt32.ofNat (fromLE (r.encode.take 4)) =
      crc32c (recordBody r.key r.value r.kind r.ts) := by
    rw [hcrc, fromLE_toLE (by simpa using UInt32.toNat_lt _), UInt32.ofNat_toNat]
  have hdrop : r.encode.drop headerSize = r.key ++ (r.value ++
      zeros (r.size - (headerSize + r.key.length + r.value.length))) := by
    have : ∀ l : Bytes, l.drop headerSize = ((((l.drop 4).drop 8).drop 4).drop 4).drop 1 :=
      fun l => by simp [headerSize]
    simp only [this, Record.encode_eq, List.drop_left' (length_toLE _ _)]
    simp
  have hkey : (r.encode.drop headerSize).take r.key.length = r.key := by
    rw [hdrop, List.take_left' rfl]
  have hval : (r.encode.drop (headerSize + r.key.length)).take r.value.length = r.value := by
    rw [← List.drop_drop, hdrop, List.drop_left' rfl, List.take_left' rfl]
  unfold decodeRecord
  rw [if_neg (by rw [hlen]; omega)]
  simp only [hkind, RecordKind.fromU8_toU8, hksz, hvsz, hbody, hcrc', hkey, hval]
  rw [if_neg (by rw [hlen]; omega), if_neg (by simp), hts, fromLE_toLE (by simpa using hr.ts)]

end

end Skeg
