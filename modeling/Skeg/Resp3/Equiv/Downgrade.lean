import Skeg.Resp3.Decimal
import Skeg.Resp3.Equiv.RoundTrip

/-!
# Frames for a RESP2 client

What `encode_frame` sends a RESP2 client is a frame of RESP2 types, the downgrade of the table in
`encoder.rs` (`downgrade`), and `parse_frame` reads that frame back if it is within the limits of the parser, and only
then (`downgrade_reads_back`).  The encoding of a frame is the encoding of its downgrade (`encodeFrame_downgrade`), so
that the round trip of the downgrade is all there is to show.

A blob error has its length in front for a RESP3 client and is a line for a RESP2 client: with a CRLF in
its text it is more than one frame (`blobError_splits`).
-/

namespace Skeg.Resp3

/-! ### The downgrade -/

section

variable [FloatText]

mutual

/-- The frame of RESP2 types that stands for a frame. -/
def downgrade : Frame → Frame
  | .simple s => .simple s
  | .error s => .error s
  | .integer n => .integer n
  | .bulk data => .bulk data
  | .null => .null
  | .array items => .array (downgradeItems items)
  | .blobError code message =>
    .error (if message = "" then code else code ++ (" " ++ message))
  | .boolean v => .integer (if v then 1 else 0)
  | .double d => .bulk (utf8 (formatDouble d))
  | .map ps => .array (downgradePairs ps)
  | .set items => .array (downgradeItems items)
  | .push items => .array (downgradeItems items)
  | .verbatim _ _ _ data => .bulk data
  | .bigNumber digits => .bulk (utf8 digits)

def downgradeItems : List Frame → List Frame
  | [] => []
  | f :: fs => downgrade f :: downgradeItems fs

/-- Keys and values in turn. -/
def downgradePairs : List (Frame × Frame) → List Frame
  | [] => []
  | (k, v) :: ps => downgrade k :: downgrade v :: downgradePairs ps

end

theorem length_downgradeItems (items : List Frame) :
    (downgradeItems items).length = items.length := by
  induction items with
  | nil => rfl
  | cons f fs ih => rw [downgradeItems, List.length_cons, ih, List.length_cons]

theorem length_downgradePairs (ps : List (Frame × Frame)) :
    (downgradePairs ps).length = ps.length * 2 := by
  induction ps with
  | nil => rfl
  | cons p ps ih =>
    rw [downgradePairs, List.length_cons, List.length_cons, ih, List.length_cons]
    omega

theorem mem_downgradeItems {items : List Frame} {g : Frame} (h : g ∈ downgradeItems items) :
    ∃ f ∈ items, downgrade f = g := by
  induction items with
  | nil => cases h
  | cons f fs ih =>
    rcases List.mem_cons.mp h with rfl | hmem
    · exact ⟨f, by simp, rfl⟩
    · obtain ⟨f', hf', rfl⟩ := ih hmem
      exact ⟨f', by simp [hf'], rfl⟩

theorem mem_downgradePairs {ps : List (Frame × Frame)} {g : Frame} (h : g ∈ downgradePairs ps) :
    ∃ p ∈ ps, downgrade p.1 = g ∨ downgrade p.2 = g := by
  induction ps with
  | nil => cases h
  | cons p ps ih =>
    rcases List.mem_cons.mp h with rfl | hmem
    · exact ⟨p, by simp, .inl rfl⟩
    rcases List.mem_cons.mp hmem with rfl | hmem
    · exact ⟨p, by simp, .inr rfl⟩
    · obtain ⟨q, hq, hg⟩ := ih hmem
      exact ⟨q, by simp [hq], hg⟩

/-! ### The same bytes -/

omit [FloatText] in
theorem utf8_blobErrorText (code message : String) :
    utf8 (if message = "" then code else code ++ (" " ++ message)) = blobErrorPayload code message := by
  unfold blobErrorPayload
  split_ifs
  · rfl
  · rw [utf8_append, utf8_append, List.append_assoc]
    rfl

mutual

/-- A RESP2 client is sent the downgrade. -/
theorem encodeFrame_downgrade : (f : Frame) →
    encodeFrame .resp2 (downgrade f) = encodeFrame .resp2 f
  | .simple _ | .error _ | .integer _ | .bulk _ | .null | .double _ | .verbatim .. | .bigNumber _ => rfl
  | .boolean true | .boolean false => rfl
  | .blobError code message => by
    rw [downgrade, encodeFrame, utf8_blobErrorText]
    rfl
  | .array items | .set items | .push items => by
    rw [downgrade, encodeFrame, encodeItems_downgrade items, length_downgradeItems]
    rfl
  | .map ps => by
    rw [downgrade, encodeFrame, encodeItems_downgradePairs ps, length_downgradePairs]
    rfl

theorem encodeItems_downgrade : (items : List Frame) →
    encodeItems .resp2 (downgradeItems items) = encodeItems .resp2 items
  | [] => rfl
  | f :: fs => by
    rw [downgradeItems, encodeItems, encodeFrame_downgrade f, encodeItems_downgrade fs, encodeItems]

theorem encodeItems_downgradePairs : (ps : List (Frame × Frame)) →
    encodeItems .resp2 (downgradePairs ps) = encodePairs .resp2 ps
  | [] => rfl
  | (k, v) :: ps => by
    rw [downgradePairs, encodeItems, encodeItems, encodeFrame_downgrade k, encodeFrame_downgrade v,
      encodeItems_downgradePairs ps, encodePairs, List.append_assoc]

end

mutual

theorem height_downgrade : (f : Frame) → (downgrade f).height = f.height
  | .simple _ | .error _ | .integer _ | .bulk _ | .null | .double _ | .verbatim .. | .bigNumber _ => rfl
  | .boolean _ | .blobError .. => rfl
  | .array items | .set items | .push items => heightItems_downgrade items
  | .map ps => heightItems_downgradePairs ps

theorem heightItems_downgrade : (items : List Frame) →
    heightItems (downgradeItems items) = heightItems items
  | [] => rfl
  | f :: fs => by
    rw [downgradeItems, heightItems, height_downgrade f, heightItems_downgrade fs, heightItems]

theorem heightItems_downgradePairs : (ps : List (Frame × Frame)) →
    heightItems (downgradePairs ps) = heightPairs ps
  | [] => rfl
  | (k, v) :: ps => by
    rw [downgradePairs, heightItems, heightItems, height_downgrade k, height_downgrade v,
      heightItems_downgradePairs ps, heightPairs, max_assoc]

end

/-! ### Downgrades that the parser returns -/

/-- The types that RESP2 has. -/
def Frame.isResp2 : Frame → Bool
  | .simple _ | .error _ | .integer _ | .bulk _ | .null | .array _ => true
  | _ => false

theorem isResp2_downgrade (f : Frame) : (downgrade f).isResp2 = true := by cases f <;> rfl

/-- The frames of an array that is a downgrade are. -/
theorem mem_downgrade {f : Frame} {items : List Frame} (h : downgrade f = .array items) {g : Frame} (hg : g ∈ items) :
    ∃ f', downgrade f' = g := by
  cases f with
  | map ps =>
    cases h
    obtain ⟨p, -, hp | hp⟩ := mem_downgradePairs hg
    · exact ⟨_, hp⟩
    · exact ⟨_, hp⟩
  | array | set | push =>
    cases h
    obtain ⟨f', -, hf'⟩ := mem_downgradeItems hg
    exact ⟨f', hf'⟩
  | _ => cases h

omit [FloatText] in
theorem heightItems_le {items : List Frame} {n : Nat} (h : ∀ f ∈ items, f.height < n) : heightItems items ≤ n := by
  induction items with
  | nil => exact Nat.zero_le n
  | cons f fs ih =>
    obtain ⟨hf, hfs⟩ := List.forall_mem_cons.mp h
    exact max_le hf (ih hfs)

/-- A downgrade that a message stands for is within the limits. -/
theorem Message.wellFormed {left : Nat} {m : Bytes} {g : Frame} (h : Message left m g) {f : Frame}
    (hf : downgrade f = g) : g.WellFormed .resp2 ∧ g.height < left := by
  induction h generalizing f with
  | @line left _ _ g h hl =>
    have h2 : g.isResp2 = true := hf ▸ isResp2_downgrade f
    cases h with
    | simple => exact ⟨.simple hl, Nat.succ_pos left⟩
    | error => exact ⟨.error hl, Nat.succ_pos left⟩
    | integer => exact ⟨.integer _, Nat.succ_pos left⟩
    | nullBulk | nullArray | null => exact ⟨.null, Nat.succ_pos left⟩
    | _ => cases h2
  | @payload left _ _ _ g hl h =>
    have h2 : g.isResp2 = true := hf ▸ isResp2_downgrade f
    cases h with
    | bulk => exact ⟨.bulk hl.le, Nat.succ_pos left⟩
    | _ => cases h2
  | @aggregate left n kind _ items hl hn _ ih =>
    have h2 : (kind.frame (items.map Prod.snd)).isResp2 = true := hf ▸ isResp2_downgrade f
    cases kind with
    | array =>
      have hall : ∀ g ∈ items.map Prod.snd, g.WellFormed .resp2 ∧ g.height < left := by
        intro g hg
        obtain ⟨f', hf'⟩ := mem_downgrade hf hg
        obtain ⟨p, hp, rfl⟩ := List.mem_map.mp hg
        exact ih p hp hf'
      have hlen : (items.map Prod.snd).length ≤ maxAggregateLen := by
        rw [List.length_map, hn]
        exact hl.le
      exact ⟨.array hlen fun g hg => (hall g hg).1, Nat.lt_succ_of_le (heightItems_le fun g hg => (hall g hg).2)⟩
    | _ => cases h2

/-! ### The wire of RESP2 -/

/-- A message of the five types of RESP2. -/
inductive Resp2Message : Bytes → Prop
  | simple {line : Bytes} (h : findCrlf line = none) : Resp2Message (43 :: line ++ crlf)
  | error {line : Bytes} (h : findCrlf line = none) : Resp2Message (45 :: line ++ crlf)
  | integer (n : Int64) : Resp2Message (58 :: formatI64 n ++ crlf)
  | bulk (data : Bytes) : Resp2Message (36 :: formatNat data.length ++ crlf ++ data ++ crlf)
  | nullBulk : Resp2Message (36 :: formatI64 (-1) ++ crlf)
  | array {items : List Bytes} (h : ∀ b ∈ items, Resp2Message b) :
      Resp2Message (42 :: formatNat items.length ++ crlf ++ items.flatten)

theorem encodeItems_eq_flatten (version : ProtoVersion) (items : List Frame) :
    encodeItems version items = (items.map (encodeFrame version)).flatten := by
  induction items with
  | nil => rfl
  | cons f fs ih => rw [encodeItems, ih, List.map_cons, List.flatten_cons]

/-- A frame that is within the limits of RESP2 is sent in its types. -/
theorem Frame.WellFormed.resp2Message {f : Frame} (h : f.WellFormed .resp2) :
    Resp2Message (encodeFrame .resp2 f) := by
  induction h with
  | simple line => exact .simple line
  | error line => exact .error line
  | integer n => exact .integer n
  | bulk len => exact .bulk _
  | null => exact .nullBulk
  | @array items len _ ih =>
    rw [encodeFrame, encodeItems_eq_flatten, ← List.length_map (f := encodeFrame .resp2)]
    refine .array fun b hb => ?_
    obtain ⟨f, hf, rfl⟩ := List.mem_map.mp hb
    exact ih f hf
  -- the other types are of RESP3
  | _ => contradiction

/-- A frame goes out in the types of RESP2 and is read as its downgrade, whatever follows it, if and only if the
downgrade is within the limits of the parser. -/
theorem downgrade_reads_back (f : Frame) (rest : Bytes) :
    (Resp2Message (encodeFrame .resp2 f) ∧
      parseFrame (encodeFrame .resp2 f ++ rest) =
        .ok (some (downgrade f, (encodeFrame .resp2 f).length))) ↔
      (downgrade f).WellFormed .resp2 ∧ f.height ≤ maxNestingDepth := by
  rw [← encodeFrame_downgrade f, ← height_downgrade f]
  constructor
  · rintro ⟨-, hread⟩
    obtain ⟨m, -, -, -, hm⟩ := message_of_parse hread
    exact (hm.wellFormed rfl).imp_right Nat.le_of_lt_succ
  · rintro ⟨hwf, hheight⟩
    exact ⟨hwf.resp2Message, parseFrameDepth_encodeFrame hwf (Nat.lt_succ_of_le hheight) rest⟩

end

section

attribute [local instance] decimalFloats

/-- A blob error with a CRLF in its message is an error and what the rest of the message says. -/
theorem blobError_splits :
    parseFrame (encodeFrame .resp2 (.blobError "ERR" "a\r\n:1")) = .ok (some (.error "ERR a", 8)) ∧
      parseFrame ((encodeFrame .resp2 (.blobError "ERR" "a\r\n:1")).drop 8) =
        .ok (some (.integer 1, 4)) := by
  have hsplit : encodeFrame .resp2 (.blobError "ERR" "a\r\n:1") =
      encodeFrame .resp2 (.error "ERR a") ++ encodeFrame .resp2 (.integer 1) := by decide
  have hlen : (encodeFrame .resp2 (.error "ERR a")).length = 8 := by decide
  constructor
  · rw [hsplit, ← hlen]
    exact parseFrameDepth_encodeFrame (.error (by decide)) (by decide) _
  · rw [hsplit, List.drop_left' hlen, ← List.append_nil (encodeFrame .resp2 (.integer 1))]
    exact parseFrameDepth_encodeFrame (.integer 1) (by decide) []

end

end Skeg.Resp3
