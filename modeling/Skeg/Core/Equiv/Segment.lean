import Skeg.Core.Hashes
import Skeg.Core.Segment
import Skeg.Core.Equiv.Record

/-!
# What a recovery scan finds

`Scans offset bytes ls` says that `bytes`, read from `offset` of a file on, are exactly the records
`ls`.  A scan finds the longest such prefix (`scanFrom_spec`), and nothing else (`scanFrom_eq`); in
particular it reads back a file of encoded records up to the preallocated space
(`scanFile_encodeAll`), or up to a record that was cut off (`scan_reads_back`).
-/

namespace Skeg

/-- Records back to back from `offset`, each with its own offset. -/
def layout : Nat → List Record → List (Nat × Record)
  | _, [] => []
  | offset, r :: rs => (offset, r) :: layout (offset + r.size) rs

section

variable [H : Hashes]

@[simp] theorem encodeAll_nil : encodeAll [] = [] := rfl

@[simp] theorem encodeAll_cons (r : Record) (rs : List Record) :
    encodeAll (r :: rs) = r.encode ++ encodeAll rs := rfl

@[simp] theorem encodeAll_append (rs rs' : List Record) :
    encodeAll (rs ++ rs') = encodeAll rs ++ encodeAll rs' := by
  simp [encodeAll]

theorem layout_append (offset : Nat) (rs rs' : List Record) :
    layout offset (rs ++ rs') = layout offset rs ++ layout (offset + (encodeAll rs).length) rs' := by
  induction rs generalizing offset with
  | nil => simp [layout]
  | cons r rs ih => simp [layout, ih, Nat.add_assoc]

/-! ### One record -/

theorem length_of_nextRecord {bytes : Bytes} {r : Record} {p : Nat}
    (h : nextRecord bytes = some (r, p)) : 0 < p ∧ p ≤ bytes.length := by
  unfold nextRecord at h
  split at h
  · cases h
  · simp only at h
    split at h
    · cases h
    · split at h
      · cases h
        exact ⟨paddedRecordSize_pos _ _, by omega⟩
      · cases h

/-- A record is read from its own bytes only. -/
theorem nextRecord_append {bytes : Bytes} {r : Record} {p : Nat}
    (h : nextRecord bytes = some (r, p)) (rest : Bytes) :
    nextRecord (bytes ++ rest) = some (r, p) := by
  unfold nextRecord at h ⊢
  split at h
  · cases h
  · rename_i hlen
    have hlen' : 21 ≤ bytes.length := by simpa [headerSize] using hlen
    have hk : ((bytes ++ rest).drop 12).take 4 = (bytes.drop 12).take 4 := by
      rw [List.drop_append_of_le_length (by omega), List.take_append_of_le_length (by simp; omega)]
    have hv : ((bytes ++ rest).drop 16).take 4 = (bytes.drop 16).take 4 := by
      rw [List.drop_append_of_le_length (by omega), List.take_append_of_le_length (by simp; omega)]
    rw [if_neg (by simp [headerSize]; omega)]
    simp only [hk, hv] at h ⊢
    split at h
    · cases h
    · rename_i hp
      rw [if_neg (by simp at hp ⊢; omega), List.take_append_of_le_length (by omega)]
      exact h

theorem nextRecord_encode {r : Record} (hr : r.Wf) : nextRecord r.encode = some (r, r.size) := by
  obtain ⟨_, _, hk, hv, _⟩ := r.fields []
  rw [List.append_nil] at hk hv
  have hle : headerSize + r.key.length + r.value.length ≤ r.size := le_paddedRecordSize _ _
  unfold nextRecord
  rw [if_neg (by rw [r.length_encode]; omega)]
  simp only [hk, hv, fromLE_toLE (show r.key.length < 256 ^ 4 by simpa using hr.key),
    fromLE_toLE (show r.value.length < 256 ^ 4 by simpa using hr.value)]
  change (if r.encode.length < r.size then none else _) = _
  rw [if_neg (by rw [r.length_encode]; omega), List.take_of_length_le (by rw [r.length_encode]; rfl),
    decodeRecord_encode r hr]
  rfl

/-- Preallocated space holds no record. -/
theorem nextRecord_zeros [LawfulHashes] (n : Nat) : nextRecord (zeros n) = none := by
  unfold nextRecord
  split
  · rfl
  · rename_i hn
    have hn' : 21 ≤ n := by simpa [headerSize] using hn
    simp only [drop_zeros, take_zeros, fromLE_zeros]
    split
    · rfl
    · rename_i hp
      have hp' : 128 ≤ n := by simpa [paddedRecordSize, headerSize] using hp
      have h128 : min (paddedRecordSize 0 0) n = 128 := by
        simp [paddedRecordSize, headerSize]; omega
      have hd : decodeRecord (zeros 128) =
          .error (.crcMismatch (crc32c (zeros 17)) (UInt32.ofNat 0)) := by
        have hkind : (zeros 108).headD 0 = RecordKind.scalar.toU8 := rfl
        unfold decodeRecord
        rw [if_neg (by simp [headerSize])]
        simp only [drop_zeros, take_zeros, fromLE_zeros, hkind, RecordKind.fromU8_toU8]
        rw [if_neg (by simp [headerSize])]
        have : zeros (min (headerSize + 0 + 0) 128 - 4) = zeros 17 := by simp [headerSize]
        rw [this, if_pos (show crc32c (zeros 17) ≠ UInt32.ofNat 0 from LawfulHashes.crc32c_zeros)]
      rw [h128, hd]

/-- A record that was cut off, be it in its padding, is not read. -/
theorem nextRecord_prefix {r : Record} (hr : r.Wf) {p : Bytes} (hp : p <+: r.encode) (hne : p ≠ r.encode) :
    nextRecord p = none := by
  obtain ⟨rest, hrest⟩ := hp
  have hlen : p.length < r.size := by
    have hpos : 0 < rest.length := by
      rw [List.length_pos_iff_ne_nil]
      rintro rfl
      exact hne (by rw [← hrest, List.append_nil])
    rw [← r.length_encode, ← hrest, List.length_append]
    omega
  unfold nextRecord
  split
  · rfl
  · rename_i hheader
    have hheader' : 21 ≤ p.length := by simpa [headerSize] using hheader
    obtain ⟨_, _, hk, hv, _⟩ := r.fields []
    rw [List.append_nil, ← hrest, List.drop_append_of_le_length (by omega),
      List.take_append_of_le_length (by simp; omega)] at hk hv
    simp only [hk, hv, fromLE_toLE (show r.key.length < 256 ^ 4 by simpa using hr.key),
      fromLE_toLE (show r.value.length < 256 ^ 4 by simpa using hr.value)]
    exact if_pos hlen

/-! ### Runs of records -/

/-- `bytes`, at `offset` of a file, are exactly the records `ls`. -/
inductive Scans : Nat → Bytes → List (Nat × Record) → Prop where
  | nil (offset : Nat) : Scans offset [] []
  | cons {offset : Nat} {bytes : Bytes} {r : Record} {p : Nat} {ls : List (Nat × Record)}
      (h : nextRecord bytes = some (r, p)) (hrest : Scans (offset + p) (bytes.drop p) ls) :
      Scans offset bytes ((offset, r) :: ls)

theorem scans_encodeAll (offset : Nat) {rs : List Record} (h : ∀ r ∈ rs, r.Wf) :
    Scans offset (encodeAll rs) (layout offset rs) := by
  induction rs generalizing offset with
  | nil => exact .nil offset
  | cons r rs ih =>
    have hr : nextRecord (encodeAll (r :: rs)) = some (r, r.size) :=
      nextRecord_append (nextRecord_encode (h r (by simp))) _
    refine .cons hr ?_
    rw [encodeAll_cons, List.drop_left' r.length_encode]
    exact ih _ fun r' hr' => h r' (by simp [hr'])

/-- A scan finds the records up to the first place without one. -/
theorem scanFrom_eq {fuel offset : Nat} {b rest : Bytes} {ls : List (Nat × Record)}
    (h : Scans offset b ls) (hrest : nextRecord rest = none) (hfuel : b.length ≤ fuel) :
    scanFrom fuel offset (b ++ rest) = (ls, offset + b.length) := by
  induction h generalizing fuel with
  | nil offset => cases fuel <;> simp [scanFrom, hrest]
  | @cons offset b r p ls hr _ ih =>
    obtain ⟨hpos, hle⟩ := length_of_nextRecord hr
    obtain ⟨fuel, rfl⟩ : ∃ m, fuel = m + 1 := ⟨fuel - 1, by omega⟩
    rw [scanFrom, nextRecord_append hr]
    simp only
    rw [List.drop_append_of_le_length hle, ih (by simp; omega)]
    simp
    omega

theorem scanFile_eq {b rest : Bytes} {ls : List (Nat × Record)} (h : Scans 0 b ls)
    (hrest : nextRecord rest = none) : scanFile (b ++ rest) = (ls, b.length) := by
  rw [scanFile, scanFrom_eq h hrest (by simp), Nat.zero_add]

theorem scanFile_encodeAll [LawfulHashes] {rs : List Record} (h : ∀ r ∈ rs, r.Wf) (n : Nat) :
    scanFile (encodeAll rs ++ zeros n) = (layout 0 rs, (encodeAll rs).length) :=
  scanFile_eq (scans_encodeAll 0 h) (nextRecord_zeros n)

/-! ### Offsets and sizes -/

theorem length_encodeAll (rs : List Record) : (encodeAll rs).length = (rs.map Record.size).sum := by
  induction rs with
  | nil => rfl
  | cons r rs ih => simp [ih]

omit H in
theorem getElem?_layout (offset : Nat) (rs : List Record) (i : Nat) :
    (layout offset rs)[i]? = rs[i]?.map fun r => (offset + ((rs.take i).map Record.size).sum, r) := by
  induction rs generalizing offset i with
  | nil => rfl
  | cons r rs ih =>
    cases i with
    | zero => rfl
    | succ i => simp [layout, ih, Nat.add_assoc]

/-- A record has its bytes at its offset. -/
theorem take_drop_of_mem_layout (before : Bytes) (rs : List Record) {e : Nat × Record}
    (he : e ∈ layout before.length rs) : ((before ++ encodeAll rs).drop e.1).take e.2.size = e.2.encode := by
  induction rs generalizing before with
  | nil => cases he
  | cons r rs ih =>
    rcases List.mem_cons.mp he with rfl | he
    · rw [List.drop_left' rfl, encodeAll_cons, List.take_left' r.length_encode]
    · rw [← r.length_encode, ← List.length_append] at he
      rw [encodeAll_cons, ← List.append_assoc]
      exact ih (before ++ r.encode) he

/-- A scan of encoded records, behind which there are zeros or a part of one more record, gives the records back,
each at the sum of the sizes before it and of its size, and ends behind the last one. -/
theorem scan_reads_back [LawfulHashes] {rs : List Record} (hrs : ∀ r ∈ rs, r.Wf) {tail : Bytes}
    (htail : (∃ n, tail = zeros n) ∨ ∃ r : Record, r.Wf ∧ tail <+: r.encode ∧ tail ≠ r.encode) :
    ∃ found, scanFile (encodeAll rs ++ tail) = (found, (rs.map Record.size).sum) ∧
      (∀ i : Nat, found[i]? = rs[i]?.map fun r => (((rs.take i).map Record.size).sum, r)) ∧
      ∀ e ∈ found, ((encodeAll rs).drop e.1).take e.2.size = e.2.encode := by
  have hnone : nextRecord tail = none := by
    rcases htail with ⟨n, rfl⟩ | ⟨r, hr, hprefix, hne⟩
    · exact nextRecord_zeros n
    · exact nextRecord_prefix hr hprefix hne
  refine ⟨layout 0 rs, ?_, fun i => ?_, fun e he => take_drop_of_mem_layout [] rs he⟩
  · rw [scanFile_eq (scans_encodeAll 0 hrs) hnone, length_encodeAll]
  · simp only [getElem?_layout, Nat.zero_add]

end

section

attribute [local instance] linkedHashes

/-- Two records with half of a third one behind them. -/
theorem scan_reads_back_cut : ∃ found,
    scanFile (encodeAll [⟨1, .scalar, [97], [1, 2]⟩, ⟨2, .tombstone, [97], []⟩] ++
      (Record.encode ⟨3, .scalar, [98], [3]⟩).take 64) = (found, 256) ∧
    (∀ i : Nat, found[i]? = [⟨1, .scalar, [97], [1, 2]⟩, ⟨2, .tombstone, [97], []⟩][i]?.map fun r =>
      ((([⟨1, .scalar, [97], [1, 2]⟩, ⟨2, .tombstone, [97], []⟩].take i).map Record.size).sum, r)) ∧
    ∀ e ∈ found, ((encodeAll [⟨1, .scalar, [97], [1, 2]⟩, ⟨2, .tombstone, [97], []⟩]).drop e.1).take e.2.size =
      e.2.encode := by
  refine scan_reads_back ?_ (.inr ⟨⟨3, .scalar, [98], [3]⟩, ⟨by decide, by decide, by decide⟩, List.take_prefix _ _, ?_⟩)
  · simp only [List.forall_mem_cons, List.not_mem_nil, false_imp_iff, implies_true, and_true]
    exact ⟨⟨by decide, by decide, by decide⟩, ⟨by decide, by decide, by decide⟩⟩
  · decide +kernel

end

end Skeg
