import Skeg.Vector.Wal
import Mathlib.Data.List.TakeDrop

/-!
# Correctness of the delta log

The decoder reads back what the encoder wrote and stops at a short record behind it
(`decodeWal_walBytes_append`).  `decodeAt` is the decoder without its fuel.
-/

namespace Skeg

namespace Vector

/-! ### Vectors -/

@[simp] theorem length_encodeF32s (v : Vec) : (encodeF32s v).length = v.length * 4 := by
  simp [encodeF32s, length_toLEs]

theorem decodeF32s_toLE_append (x : F32) (bs : Bytes) :
    decodeF32s (toLE 4 x.toNat ++ bs) = x :: decodeF32s bs := by
  have hx : x.toNat < 256 ^ 4 := x.toNat_lt
  have h : fromLE (toLE 4 x.toNat) = x.toNat := fromLE_toLE hx
  simp only [toLE, List.cons_append, List.nil_append] at h ⊢
  rw [decodeF32s, h, UInt32.ofNat_toNat]

@[simp] theorem decodeF32s_encodeF32s (v : Vec) : decodeF32s (encodeF32s v) = v := by
  induction v with
  | nil => rfl
  | cons x v ih =>
    rw [encodeF32s, List.map_cons, toLEs_cons, decodeF32s_toLE_append]
    exact congrArg _ ih

/-! ### One record -/

/-- The operation fits an index of dimension `dim`. -/
def DeltaWalOp.Fits (dim : Nat) : DeltaWalOp → Prop
  | .insert _ v => v.length = dim
  | .delete _ => True

theorem decodeWalOp_encodeWalBody (op : DeltaWalOp) : decodeWalOp (encodeWalBody op) = op := by
  have hid : ∀ id : UInt64, UInt64.ofNat (fromLE (toLE 8 id.toNat)) = id := by
    intro id
    rw [fromLE_toLE (show id.toNat < 256 ^ 8 from id.toNat_lt), UInt64.ofNat_toNat]
  cases op with
  | insert id v =>
    simp only [decodeWalOp, encodeWalBody, List.cons_append, List.drop_succ_cons, List.drop_zero,
      List.head?_cons, if_true]
    rw [List.take_left' (length_toLE 8 id.toNat), hid,
      List.drop_left' (length_toLE 8 id.toNat), decodeF32s_encodeF32s]
  | delete id =>
    simp only [decodeWalOp, encodeWalBody, List.drop_succ_cons, List.drop_zero, List.head?_cons]
    rw [List.take_of_length_le (by simp), hid, if_neg (by simp)]

/-- The length of the record is a `usize`. -/
def DeltaWalOp.Sized (op : DeltaWalOp) : Prop := (encodeWalBody op).length + 4 < usizeBound

theorem length_encodeWalBody_insert (id : UInt64) (v : Vec) :
    (encodeWalBody (.insert id v)).length = 1 + 8 + v.length * 4 := by
  rw [encodeWalBody, List.length_append, List.length_cons, length_toLE, length_encodeF32s, Nat.add_comm 8]

/-- A body starts with its operation, from which its length is known. -/
theorem walRecordBodyLen_of_fits {dim : Nat} {op : DeltaWalOp} (hsized : op.Sized) (hop : op.Fits dim) :
    ∃ b tail, encodeWalBody op = b :: tail ∧ walRecordBodyLen b dim = .ok (encodeWalBody op).length := by
  cases op with
  | insert id v =>
    refine ⟨0, _, rfl, ?_⟩
    have hv : v.length = dim := hop
    have hlen := length_encodeWalBody_insert id v
    rw [DeltaWalOp.Sized, hlen] at hsized
    rw [walRecordBodyLen, if_pos rfl, hlen, hv, if_pos (by omega)]
  | delete id => exact ⟨1, _, rfl, by simp [walRecordBodyLen, encodeWalBody]⟩

theorem length_encodeWalBody_le {dim : Nat} {op : DeltaWalOp} (hop : op.Fits dim) :
    (encodeWalBody op).length ≤ 9 + dim * 4 := by
  cases op with
  | insert id v =>
    have hv : v.length = dim := hop
    rw [length_encodeWalBody_insert, hv]
  | delete id => simp [encodeWalBody]

theorem DeltaWalOp.sized_of_fits {dim : Nat} (hdim : dim < 2 ^ 32) {op : DeltaWalOp} (hop : op.Fits dim) : op.Sized := by
  have hle := length_encodeWalBody_le hop
  rw [Sized, usizeBound]
  omega

section

variable [H : Hashes]

theorem walRecordLen_of_sized {op : DeltaWalOp} (hsized : op.Sized) (format : DeltaWalFormat) :
    walRecordLen format (encodeWalBody op).length = .ok (encodeWalRecord format op).length := by
  cases format with
  | legacyV1 => rfl
  | framedV2 => rw [walRecordLen, if_pos (show _ < usizeBound from hsized), encodeWalRecord, List.length_append, length_toLE]

theorem encodeWalRecord_eq (format : DeltaWalFormat) (op : DeltaWalOp) : ∃ crc,
    encodeWalRecord format op = encodeWalBody op ++ crc ∧
      (format = .framedV2 → crc = toLE 4 (crc32c (encodeWalBody op)).toNat) := by
  cases format with
  | legacyV1 => exact ⟨[], by simp [encodeWalRecord], by simp⟩
  | framedV2 => exact ⟨_, rfl, fun _ => rfl⟩

theorem encodeWalRecord_ne_nil (format : DeltaWalFormat) (op : DeltaWalOp) :
    encodeWalRecord format op ≠ [] := by
  cases format <;> cases op <;> simp [encodeWalRecord, encodeWalBody]

/-! ### The decoder without fuel -/

omit H in
theorem le_walRecordLen {format : DeltaWalFormat} {op : UInt8} {dim n m : Nat}
    (hn : walRecordBodyLen op dim = .ok n) (hm : walRecordLen format n = .ok m) : 9 ≤ m := by
  have h9 : 9 ≤ n := by
    unfold walRecordBodyLen at hn
    split at hn
    · split at hn <;> cases hn
      omega
    · split at hn <;> cases hn
      exact Nat.le_refl 9
  unfold walRecordLen at hm
  split at hm
  · cases hm
    exact h9
  · split at hm <;> cases hm
    omega

/-- Fuel for every byte is enough. -/
theorem decodeWalFrom_fuel (format : DeltaWalFormat) (dim : Nat) {fuel fuel' pos : Nat} {rest : Bytes}
    (h : rest.length ≤ fuel) (h' : rest.length ≤ fuel') :
    decodeWalFrom format dim fuel pos rest = decodeWalFrom format dim fuel' pos rest := by
  induction fuel generalizing fuel' pos rest with
  | zero =>
    rw [List.eq_nil_of_length_eq_zero (Nat.le_zero.mp h)]
    cases fuel' <;> rfl
  | succ fuel ih =>
    cases rest with
    | nil => cases fuel' <;> rfl
    | cons op tail =>
      obtain ⟨n, rfl⟩ : ∃ n, fuel' = n + 1 := ⟨fuel' - 1, by simp at h'; omega⟩
      simp only [decodeWalFrom]
      cases hbody : walRecordBodyLen op dim with
      | error e => rfl
      | ok bodyLen =>
        simp only
        cases hlen : walRecordLen format bodyLen with
        | error e => rfl
        | ok recordLen =>
          have hpos := le_walRecordLen hbody hlen
          simp only [List.length_cons] at h h'
          have hdrop : ((op :: tail).drop recordLen).length ≤ tail.length := by
            rw [List.length_drop, List.length_cons]
            omega
          have hfuel : ((op :: tail).drop recordLen).length ≤ fuel := by omega
          have hfuel' : ((op :: tail).drop recordLen).length ≤ n := by omega
          simp only
          rw [ih hfuel hfuel']

/-- The decoder at byte `pos`. -/
def decodeAt (format : DeltaWalFormat) (dim pos : Nat) (rest : Bytes) : Except IoError (List DeltaWalOp) :=
  decodeWalFrom format dim rest.length pos rest

theorem decodeWalPayload_eq (format : DeltaWalFormat) (payload : Bytes) (dim : Nat) :
    decodeWalPayload format payload dim = decodeAt format dim 0 payload := rfl

@[simp] theorem decodeAt_nil (format : DeltaWalFormat) (dim pos : Nat) :
    decodeAt format dim pos [] = .ok [] := rfl

/-- A whole record in front is decoded. -/
theorem decodeAt_record {format : DeltaWalFormat} {dim : Nat} {op : DeltaWalOp} (hsized : op.Sized)
    (hop : op.Fits dim) (pos : Nat) (rest : Bytes) :
    decodeAt format dim pos (encodeWalRecord format op ++ rest) =
      (decodeAt format dim (pos + (encodeWalRecord format op).length) rest).map (op :: ·) := by
  obtain ⟨b, tail, hb, hlen⟩ := walRecordBodyLen_of_fits hsized hop
  obtain ⟨crc, hrec, hcrc⟩ := encodeWalRecord_eq format op
  have hreclen := walRecordLen_of_sized hsized format
  have hbytes : encodeWalRecord format op ++ rest = b :: (tail ++ crc ++ rest) := by
    rw [hrec, hb]
    simp
  have hbody : (b :: (tail ++ crc ++ rest)).take (encodeWalBody op).length = encodeWalBody op := by
    rw [← hbytes, hrec, List.append_assoc, List.take_left' rfl]
  have hdrop : (b :: (tail ++ crc ++ rest)).drop (encodeWalRecord format op).length = rest := by
    rw [← hbytes, List.drop_left' rfl]
  -- the checksum read is the one written
  have hstored : ¬ (format = .framedV2 ∧ UInt32.ofNat (fromLE
      (((b :: (tail ++ crc ++ rest)).drop (encodeWalBody op).length).take 4)) ≠
        crc32c (encodeWalBody op)) := by
    rintro ⟨hf, hne⟩
    rw [← hbytes, hrec, List.append_assoc, List.drop_left' rfl, hcrc hf,
      List.take_left' (length_toLE 4 _), fromLE_toLE (UInt32.toNat_lt _), UInt32.ofNat_toNat] at hne
    exact hne rfl
  have hle : ¬ (b :: (tail ++ crc ++ rest)).length < (encodeWalRecord format op).length := by
    rw [← hbytes, List.length_append]
    omega
  have hfuel : rest.length ≤ (tail ++ crc ++ rest).length := by
    simp only [List.length_append]
    omega
  rw [decodeAt, hbytes, List.length_cons, decodeWalFrom]
  simp only [hlen, hreclen]
  rw [if_neg hle, hbody, if_neg hstored, hdrop, decodeWalOp_encodeWalBody,
    decodeWalFrom_fuel format dim hfuel (Nat.le_refl _), ← decodeAt]
  cases decodeAt format dim (pos + (encodeWalRecord format op).length) rest <;> rfl

/-- So are any number of them. -/
theorem decodeAt_records (format : DeltaWalFormat) {dim : Nat} {ops : List DeltaWalOp}
    (hsized : ∀ op ∈ ops, op.Sized) (hops : ∀ op ∈ ops, op.Fits dim) (pos : Nat) (rest : Bytes) :
    decodeAt format dim pos (encodeWalRecords format ops ++ rest) =
      (decodeAt format dim (pos + (encodeWalRecords format ops).length) rest).map (ops ++ ·) := by
  induction ops generalizing pos with
  | nil =>
    simp only [encodeWalRecords, List.flatMap_nil, List.nil_append, List.length_nil, Nat.add_zero]
    cases decodeAt format dim pos rest <;> rfl
  | cons op ops ih =>
    have hsplit : encodeWalRecords format (op :: ops) =
        encodeWalRecord format op ++ encodeWalRecords format ops := rfl
    rw [hsplit, List.append_assoc, decodeAt_record (hsized op (by simp)) (hops op (by simp)),
      ih (fun o ho => hsized o (by simp [ho])) (fun o ho => hops o (by simp [ho])), List.length_append, Nat.add_assoc]
    cases decodeAt format dim _ rest <;> rfl

/-- A proper prefix of a record ends the log. -/
theorem decodeAt_torn {format : DeltaWalFormat} {dim : Nat} {op : DeltaWalOp} (hsized : op.Sized)
    (hop : op.Fits dim) {torn : Bytes} (htorn : torn <+: encodeWalRecord format op)
    (hlt : torn.length < (encodeWalRecord format op).length) (pos : Nat) :
    decodeAt format dim pos torn = .ok [] := by
  obtain ⟨b, tail, hb, hlen⟩ := walRecordBodyLen_of_fits hsized hop
  obtain ⟨crc, hrec, _⟩ := encodeWalRecord_eq format op
  cases torn with
  | nil => rfl
  | cons b' torn =>
    have hhead : b' = b := by
      rw [hrec, hb, List.cons_append, List.cons_prefix_cons] at htorn
      exact htorn.1
    subst hhead
    rw [decodeAt, List.length_cons, decodeWalFrom]
    simp only [hlen, walRecordLen_of_sized hsized format]
    rw [if_pos hlt]

/-! ### The whole file -/

/-- A log of the given format. -/
def walBytes (format : DeltaWalFormat) (ops : List DeltaWalOp) : Bytes :=
  match format with
  | .legacyV1 => encodeWalRecords .legacyV1 ops
  | .framedV2 => framedWal ops

theorem walBytes_append (format : DeltaWalFormat) (ops ops' : List DeltaWalOp) :
    walBytes format (ops ++ ops') = walBytes format ops ++ encodeWalRecords format ops' := by
  cases format <;> simp [walBytes, framedWal, encodeWalRecords]

/-- What a crash during an append can leave behind the last whole record. -/
def Torn (format : DeltaWalFormat) (dim : Nat) (torn : Bytes) : Prop :=
  ∃ op : DeltaWalOp, op.Fits dim ∧ torn <+: encodeWalRecord format op ∧
    torn.length < (encodeWalRecord format op).length

theorem torn_nil (format : DeltaWalFormat) (dim : Nat) : Torn format dim [] :=
  ⟨.delete 0, trivial, List.nil_prefix, List.length_pos_of_ne_nil (encodeWalRecord_ne_nil format _)⟩

omit H in
theorem detect_framed (payload : Bytes) :
    DeltaWalFormat.detect (deltaWalV2Magic ++ payload) = .ok (.framedV2, payload) := by
  simp [DeltaWalFormat.detect, deltaWalV2Magic]

omit H in
/-- Every V1 record starts with 0 or 1. -/
theorem detect_legacy {bytes : Bytes} (h : ∀ b ∈ bytes.head?, b ≤ 1) :
    DeltaWalFormat.detect bytes = .ok (.legacyV1, bytes) := by
  cases bytes with
  | nil => rfl
  | cons b bytes =>
    have hb : b ≤ 1 := h b rfl
    have hne : (83 : UInt8) ≠ b := by
      rintro rfl
      exact absurd hb (by decide)
    simp [DeltaWalFormat.detect, deltaWalV2Magic, hne, hb]

omit H in
theorem head_encodeWalBody_le (op : DeltaWalOp) : ∀ b ∈ (encodeWalBody op).head?, b ≤ 1 := by
  cases op <;> simp [encodeWalBody]

/-- A log is read back as it was written, up to a record that was cut. -/
theorem decodeWal_walBytes_append {format : DeltaWalFormat} {dim : Nat} (hdim : dim < 2 ^ 32)
    {ops : List DeltaWalOp} (hops : ∀ op ∈ ops, op.Fits dim) {torn : Bytes}
    (htorn : Torn format dim torn) :
    decodeWal (walBytes format ops ++ torn) dim = .ok (format, ops) := by
  obtain ⟨last, hlast, hpre, hlt⟩ := htorn
  have hpayload : decodeWalPayload format (encodeWalRecords format ops ++ torn) dim = .ok ops := by
    rw [decodeWalPayload_eq, decodeAt_records format (fun op hop => DeltaWalOp.sized_of_fits hdim (hops op hop)) hops,
      decodeAt_torn (DeltaWalOp.sized_of_fits hdim hlast) hlast hpre hlt]
    simp [Except.map]
  have hdetect : DeltaWalFormat.detect (walBytes format ops ++ torn) =
      .ok (format, encodeWalRecords format ops ++ torn) := by
    cases format with
    | framedV2 =>
      rw [walBytes, framedWal, List.append_assoc]
      exact detect_framed _
    | legacyV1 =>
      refine detect_legacy fun b hb => ?_
      cases ops with
      | nil =>
        obtain ⟨rest, hrest⟩ := hpre
        cases torn with
        | nil => cases hb
        | cons b' torn =>
          cases hb
          refine head_encodeWalBody_le last b ?_
          rw [show encodeWalBody last = b :: (torn ++ rest) from hrest.symm]
          rfl
      | cons op ops =>
        obtain ⟨b', tail, hb', _⟩ := walRecordBodyLen_of_fits
          (DeltaWalOp.sized_of_fits hdim (hops op (by simp))) (hops op (by simp))
        refine head_encodeWalBody_le op b ?_
        simpa [walBytes, encodeWalRecords, encodeWalRecord, hb'] using hb
  rw [decodeWal, hdetect]
  simp only [hpayload]

end

end Vector

end Skeg
