import Skeg.Resp3.Equiv.Grammar

/-!
# Frames read back

The encoding of a frame within the limits of the parser is a message that stands for it (`message_encodeFrame`), so
that the parser reads the frame back, whatever follows it (`parseFrameDepth_encodeFrame`).
-/

namespace Skeg.Resp3

/-! ### Frames within the limits -/

mutual

/-- The levels of frames below a frame. -/
def Frame.height : Frame → Nat
  | .array items => heightItems items
  | .map ps => heightPairs ps
  | .set items => heightItems items
  | .push items => heightItems items
  | _ => 0

def heightItems : List Frame → Nat
  | [] => 0
  | f :: fs => max (f.height + 1) (heightItems fs)

def heightPairs : List (Frame × Frame) → Nat
  | [] => 0
  | (k, v) :: ps => max (max (k.height + 1) (v.height + 1)) (heightPairs ps)

end

/-- Lines have no CRLF in them, lengths are within the limits, and the frame is of a type the version
has. -/
inductive Frame.WellFormed [FloatText] (version : ProtoVersion) : Frame → Prop
  | simple {s : String} (line : findCrlf (utf8 s) = none) : WellFormed version (.simple s)
  | error {s : String} (line : findCrlf (utf8 s) = none) : WellFormed version (.error s)
  | integer (n : Int64) : WellFormed version (.integer n)
  | bulk {data : Bytes} (len : data.length ≤ maxBulkLen) : WellFormed version (.bulk data)
  | null : WellFormed version .null
  | array {items : List Frame} (len : items.length ≤ maxAggregateLen)
      (wf : ∀ f ∈ items, WellFormed version f) : WellFormed version (.array items)
  | blobError {code message : String} (h3 : version = .resp3) (space : ' ' ∉ code.toList)
      (len : (blobErrorPayload code message).length ≤ maxBulkLen) :
      WellFormed version (.blobError code message)
  | boolean (v : Bool) (h3 : version = .resp3) : WellFormed version (.boolean v)
  | double {d : F64} (h3 : version = .resp3) (back : FloatText.parse (formatDouble d) = some d) :
      WellFormed version (.double d)
  | map {ps : List (Frame × Frame)} (h3 : version = .resp3) (len : ps.length ≤ maxAggregateLen)
      (keys : ∀ p ∈ ps, WellFormed version p.1) (values : ∀ p ∈ ps, WellFormed version p.2) :
      WellFormed version (.map ps)
  | set {items : List Frame} (h3 : version = .resp3) (len : items.length ≤ maxAggregateLen)
      (wf : ∀ f ∈ items, WellFormed version f) : WellFormed version (.set items)
  | push {items : List Frame} (h3 : version = .resp3) (len : items.length ≤ maxAggregateLen)
      (wf : ∀ f ∈ items, WellFormed version f) : WellFormed version (.push items)
  | verbatim {a b c : UInt8} {data : Bytes} (h3 : version = .resp3)
      (len : 4 + data.length ≤ maxBulkLen) : WellFormed version (.verbatim a b c data)
  | bigNumber {s : String} (h3 : version = .resp3) (digits : isBigNumber (utf8 s) = true) :
      WellFormed version (.bigNumber s)

/-! ### Numbers in headers -/

theorem formatI64_eq_utf8 (n : Int64) : ∃ s, formatI64 n = utf8 s := by
  rcases lt_or_ge n.toInt 0 with hneg | hpos
  · refine ⟨"-" ++ String.ofList (Nat.toDigits 10 n.toInt.natAbs), ?_⟩
    rw [formatI64_of_neg hneg, utf8_append, formatNat_eq_utf8]
    rfl
  · exact ⟨_, by rw [formatI64_of_nonneg hpos, formatNat_eq_utf8]⟩

theorem findCrlf_formatI64 (n : Int64) : findCrlf (formatI64 n) = none :=
  findCrlf_eq_none fun h => by have := mem_formatI64 h; simp at this

theorem findCrlf_formatNat (n : Nat) : findCrlf (formatNat n) = none :=
  findCrlf_eq_none fun h => by have := mem_formatNat h; simp at this

theorem toInt_ofInt {n : Nat} (h : n < 2 ^ 63) : (Int64.ofInt n).toInt = n :=
  Int64.toInt_ofInt_of_le (by omega) (by omega)

theorem count_formatNat {n limit : Nat} (h : n ≤ limit) (hlimit : limit < 2 ^ 63) : Count limit (formatNat n) n :=
  have hn : n < 2 ^ 63 := Nat.lt_of_le_of_lt h hlimit
  ⟨findCrlf_formatNat n, ⟨_, Int64.ofInt n, formatNat_eq_utf8 n, parseI64_formatNat hn, toInt_ofInt hn⟩, h⟩

/-! ### Payloads -/

theorem splitCode_of_not_mem {cs : List Char} (h : ' ' ∉ cs) : splitCode cs = (cs, []) := by
  induction cs with
  | nil => rfl
  | cons c cs ih =>
    rw [List.mem_cons, not_or] at h
    rw [splitCode, if_neg (Ne.symm h.1), ih h.2]

theorem splitCode_append {cs : List Char} (h : ' ' ∉ cs) (ds : List Char) :
    splitCode (cs ++ ' ' :: ds) = (cs, ds) := by
  induction cs with
  | nil => rfl
  | cons c cs ih =>
    rw [List.mem_cons, not_or] at h
    rw [List.cons_append, splitCode, if_neg (Ne.symm h.1), ih h.2]

/-- The payload of a blob error is the text of a string, with the code in front of the first space. -/
theorem blobErrorPayload_eq {code message : String} (h : ' ' ∉ code.toList) :
    ∃ s, blobErrorPayload code message = utf8 s ∧ splitCode s.toList = (code.toList, message.toList) := by
  unfold blobErrorPayload
  split_ifs with hm
  · exact ⟨code, rfl, by rw [hm, splitCode_of_not_mem h]; rfl⟩
  · refine ⟨code ++ (" " ++ message), ?_, ?_⟩
    · rw [utf8_append, utf8_append, List.append_assoc]
      rfl
    · rw [String.toList_append, String.toList_append]
      exact splitCode_append h _

/-- A big number is digits and a sign. -/
theorem not_mem_of_isBigNumber {b : Bytes} (h : isBigNumber b = true) : 13 ∉ b := by
  intro hmem
  rcases b with _ | ⟨c, rest⟩
  · cases hmem
  · rw [isBigNumber] at h
    rcases List.mem_cons.mp hmem with rfl | hrest
    · simp [isAsciiDigit] at h
    · split_ifs at h
      · have := List.all_eq_true.mp (Bool.and_eq_true_iff.mp h).2 13 hrest
        simp [isAsciiDigit] at this
      · have := List.all_eq_true.mp h 13 (by simp [hrest])
        simp [isAsciiDigit] at this

/-! ### Aggregates -/

/-- The keys and values of a map, in the order they are sent. -/
def flatten (ps : List (Frame × Frame)) : List Frame := ps.flatMap fun p => [p.1, p.2]

theorem pairs_flatten (ps : List (Frame × Frame)) : pairs (flatten ps) = ps := by
  induction ps with
  | nil => rfl
  | cons p ps ih => exact congrArg (p :: ·) ih

theorem length_flatten (ps : List (Frame × Frame)) : (flatten ps).length = ps.length * 2 := by
  induction ps with
  | nil => rfl
  | cons p ps ih => simp only [flatten, List.flatMap_cons, List.length_append, List.length_cons,
      List.length_nil] at ih ⊢; omega

theorem height_lt_of_mem {items : List Frame} {f : Frame} (h : f ∈ items) :
    f.height < heightItems items := by
  induction items with
  | nil => cases h
  | cons g items ih =>
    rw [heightItems]
    rcases List.mem_cons.mp h with rfl | hmem
    · omega
    · have := ih hmem; omega

theorem heightPairs_eq (ps : List (Frame × Frame)) : heightPairs ps = heightItems (flatten ps) := by
  induction ps with
  | nil => rfl
  | cons p ps ih =>
    simp only [heightPairs, ih, flatten, List.flatMap_cons, List.cons_append, List.nil_append,
      heightItems]
    omega

section

variable [FloatText] {version : ProtoVersion} {left : Nat}

theorem encodePairs_eq (ps : List (Frame × Frame)) :
    encodePairs version ps = encodeItems version (flatten ps) := by
  induction ps with
  | nil => rfl
  | cons p ps ih =>
    simp only [encodePairs, ih, flatten, List.flatMap_cons, List.cons_append, List.nil_append,
      encodeItems, List.append_assoc]

theorem joined_encode (fs : List Frame) :
    joined (fs.map fun f => (encodeFrame version f, f)) = encodeItems version fs := by
  induction fs with
  | nil => rfl
  | cons f fs ih => exact congrArg (encodeFrame version f ++ ·) ih

/-- An aggregate of frames whose encodings are messages. -/
theorem message_aggregate (kind : AggKind) {count : Nat} {fs : List Frame} (hcount : count ≤ maxAggregateLen)
    (hlen : fs.length = kind.frames count) (h : ∀ f ∈ fs, Message left (encodeFrame version f) f) :
    Message (left + 1) (kind.marker :: (formatNat count ++ (crlf ++ encodeItems version fs))) (kind.frame fs) := by
  have hread : ∀ p ∈ fs.map fun f => (encodeFrame version f, f), Message left p.1 p.2 := by simpa using h
  have hm : Message (left + 1) (kind.marker :: _) (kind.frame _) :=
    .aggregate (count_formatNat hcount (by decide)) (by rw [List.length_map, hlen]) hread
  simpa only [joined_encode, List.map_map, Function.comp_def, List.map_id'] using hm

/-! ### Frames -/

/-- The encoding of a frame within the limits is a message. -/
theorem message_encodeFrame {f : Frame} (hf : f.WellFormed version) (hleft : f.height < left) :
    Message left (encodeFrame version f) f := by
  induction left generalizing f with
  | zero => omega
  | succ left ih =>
    have hitems : ∀ fs : List Frame, heightItems fs < left + 1 → (∀ f ∈ fs, f.WellFormed version) →
        ∀ f ∈ fs, Message left (encodeFrame version f) f := fun fs hfs wf f hf =>
      ih (wf f hf) (by have := height_lt_of_mem hf; omega)
    cases hf with
    | simple line => exact .line (.simple _) line
    | error line => exact .line (.error _) line
    | integer n =>
      obtain ⟨s, hs⟩ := formatI64_eq_utf8 n
      have hm : Message (left + 1) (58 :: (utf8 s ++ crlf)) (.integer n) :=
        .line (.integer (hs ▸ parseI64_formatI64 n)) (hs ▸ findCrlf_formatI64 n)
      rwa [← hs] at hm
    | @bulk data len =>
      have hm : Message (left + 1) _ _ := .payload (count_formatNat len (by decide)) (.bulk data)
      simpa [encodeFrame, writeBulk] using hm
    | null =>
      cases version with
      | resp2 =>
        have hm : Message (left + 1) (36 :: (utf8 "-1" ++ crlf)) .null := .line (.nullBulk (by decide)) (by decide)
        exact hm
      | resp3 => exact .line .null rfl
    | @array items len wf =>
      have hm := message_aggregate .array len rfl (hitems items hleft wf)
      simpa [encodeFrame, AggKind.marker, AggKind.frame] using hm
    | @blobError code message h3 space len =>
      subst h3
      obtain ⟨s, hs, hsplit⟩ := @blobErrorPayload_eq code message space
      have hm : Message (left + 1) _ _ := .payload (count_formatNat (hs ▸ len) (by decide)) (.blobError s)
      rw [hsplit, String.ofList_toList, String.ofList_toList, ← hs] at hm
      simpa [encodeFrame, writeBlobError, ProtoVersion.isResp3] using hm
    | boolean v h3 =>
      subst h3
      cases v with
      | true => exact .line .yes rfl
      | false => exact .line .no rfl
    | double h3 back =>
      subst h3
      exact .line (.double back) (findCrlf_eq_none (FloatText.line_of_parse back).1)
    | @map ps h3 len keys values =>
      subst h3
      have hwf : ∀ f ∈ flatten ps, f.WellFormed .resp3 := by
        intro f hf
        obtain ⟨p, hp, hfp⟩ := List.mem_flatMap.mp hf
        rcases List.mem_pair.mp hfp with rfl | rfl
        · exact keys p hp
        · exact values p hp
      rw [Frame.height, heightPairs_eq] at hleft
      have hm := message_aggregate .map len (length_flatten ps) (hitems _ hleft hwf)
      rw [AggKind.frame, pairs_flatten] at hm
      simpa [encodeFrame, ProtoVersion.isResp3, encodePairs_eq, AggKind.marker] using hm
    | @set items h3 len wf =>
      subst h3
      have hm := message_aggregate .set len rfl (hitems items hleft wf)
      simpa [encodeFrame, ProtoVersion.isResp3, AggKind.marker, AggKind.frame] using hm
    | @push items h3 len wf =>
      subst h3
      have hm := message_aggregate .push len rfl (hitems items hleft wf)
      simpa [encodeFrame, ProtoVersion.isResp3, AggKind.marker, AggKind.frame] using hm
    | @verbatim a b c data h3 len =>
      subst h3
      have hlen : (a :: b :: c :: 58 :: data).length = 4 + data.length := by simp; omega
      have hm : Message (left + 1) _ _ := .payload (count_formatNat (hlen ▸ len) (by decide)) (.verbatim a b c data)
      rw [hlen] at hm
      simpa [encodeFrame, writeVerbatim, ProtoVersion.isResp3] using hm
    | bigNumber h3 digits =>
      subst h3
      exact .line (.bigNumber digits) (findCrlf_eq_none (not_mem_of_isBigNumber digits))

theorem parseFrameDepth_encodeFrame {f : Frame} (hf : f.WellFormed version) (hleft : f.height < left) (rest : Bytes) :
    parseFrameDepth left (encodeFrame version f ++ rest) = .ok (some (f, (encodeFrame version f).length)) :=
  (message_encodeFrame hf hleft).reads rest

end

end Skeg.Resp3
