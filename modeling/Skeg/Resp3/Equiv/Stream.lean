import Skeg.Resp3.Decimal
import Skeg.Resp3.Equiv.RoundTrip

/-!
# Frames from a stream

`parse_encodeFrame`: `parse_frame` reads an encoded frame back, whatever follows it.
`feedAll_flatten`: a decoder that is fed the encodings of a list of frames in any chunks returns the
frames, and its buffer is empty.
-/

namespace Skeg.Resp3

open Incremental (Partial Stable Reads)

section

variable [FloatText]

/-! ### Reading a frame back -/

/-- Every frame within the limits, at any depth the parser goes to, is read back from its encoding; the
rest of the buffer is not looked at. -/
theorem parse_encodeFrame {f : Frame} (hf : f.WellFormed .resp3) (hdepth : f.height ≤ maxNestingDepth)
    (rest : Bytes) :
    parseFrame (encodeFrame .resp3 f ++ rest) = .ok (some (f, (encodeFrame .resp3 f).length)) :=
  parseFrameDepth_encodeFrame hf (Nat.lt_succ_of_le hdepth) rest

/-! ### The decoder as a reader of chunks -/

theorem decodeAll_eq (fuel : Nat) (d : FrameDecoder) :
    FrameDecoder.decodeAll fuel d =
      (Incremental.drain parseFrame fuel d.buf).map fun r => (r.1, ⟨r.2⟩) := by
  induction fuel generalizing d with
  | zero => rfl
  | succ fuel ih =>
    rw [FrameDecoder.decodeAll, Incremental.drain, FrameDecoder.decode]
    rcases parseFrame d.buf with e | _ | ⟨f, n⟩
    · rfl
    · rfl
    · simp only [ih]
      cases Incremental.drain parseFrame fuel (d.buf.drop n) <;> rfl

theorem feedAll_eq (d : FrameDecoder) (chunks : List Bytes) :
    d.feedAll chunks = (Incremental.feed parseFrame d.buf chunks).map fun r => (r.1, ⟨r.2⟩) := by
  induction chunks generalizing d with
  | nil => rfl
  | cons c chunks ih =>
    rw [FrameDecoder.feedAll, Incremental.feed, decodeAll_eq]
    simp only [FrameDecoder.feed]
    rcases Incremental.drain parseFrame ((d.buf ++ c).length + 1) (d.buf ++ c) with e | ⟨fs, b⟩
    · rfl
    · simp only [Except.map, ih]
      cases Incremental.feed parseFrame b chunks <;> rfl

theorem encodeFrame_ne_nil (version : ProtoVersion) (f : Frame) : encodeFrame version f ≠ [] := by
  cases f <;> cases version <;>
    simp [encodeFrame, writeLine, writeBulk, writeBlobError, writeVerbatim, ProtoVersion.isResp3]

/-- The parser reads the encodings of the frames within the limits. -/
theorem parseFrame_reads (version : ProtoVersion) :
    Reads parseFrame (encodeFrame version)
      fun f => f.WellFormed version ∧ f.height ≤ maxNestingDepth where
  eq_some hf rest := parseFrameDepth_encodeFrame hf.1 (Nat.lt_succ_of_le hf.2) rest
  ne_nil _ := encodeFrame_ne_nil version _
  nil := rfl

/-- The encodings of a list of frames, cut into chunks anywhere, are decoded to exactly these frames;
and a buffer on which the parser has come to a frame or an error gives the same when it is longer. -/
theorem feedAll_flatten :
    (∀ (version : ProtoVersion) (frames : List Frame) (chunks : List Bytes),
      (∀ f ∈ frames, f.WellFormed version ∧ f.height ≤ maxNestingDepth) →
      chunks.flatten = frames.flatMap (encodeFrame version) →
      FrameDecoder.new.feedAll chunks = .ok (frames, FrameDecoder.new)) ∧
    ∀ buf more : Bytes, parseFrame buf ≠ .ok none → parseFrame (buf ++ more) = parseFrame buf := by
  constructor
  · intro version frames chunks hframes hchunks
    have hfeed : Incremental.feed parseFrame [] chunks = .ok (frames, []) :=
      Incremental.feed_flatten parseFrame_stable (parseFrame_reads version) hframes hchunks
    rw [feedAll_eq]
    exact congrArg (Except.map _) hfeed
  · intro buf more hdecided
    exact parseFrame_stable.append more hdecided

end

/-! ### A nested frame -/

section

attribute [local instance] decimalFloats

/-- A search reply with a score of one half, and an error. -/
def nestedFrame : Frame :=
  .map [(.simple "hits", .array [.bulk [55], .double (.finite false 1022 0), .null]),
    (.verbatim 116 120 116 [104, 105], .blobError "ERR" "no such index")]

theorem nestedFrame_wellFormed : nestedFrame.WellFormed .resp3 := by
  refine .map rfl (by decide) ?_ ?_
  · simp only [List.forall_mem_cons, List.not_mem_nil, false_imp_iff, implies_true, and_true]
    exact ⟨.simple (by decide +kernel), .verbatim rfl (by decide)⟩
  · simp only [List.forall_mem_cons, List.not_mem_nil, false_imp_iff, implies_true, and_true]
    refine ⟨.array (by decide) ?_, .blobError rfl (by decide +kernel) (by decide +kernel)⟩
    simp only [List.forall_mem_cons, List.not_mem_nil, false_imp_iff, implies_true, and_true]
    exact ⟨.bulk (by decide), .double rfl (by decide +kernel), .null⟩

theorem parse_nestedFrame : nestedFrame.WellFormed .resp3 ∧ nestedFrame.height ≤ maxNestingDepth ∧
    parseFrame (encodeFrame .resp3 nestedFrame ++ [43, 79, 75]) =
      .ok (some (nestedFrame, (encodeFrame .resp3 nestedFrame).length)) :=
  ⟨nestedFrame_wellFormed, by decide, parse_encodeFrame nestedFrame_wellFormed (by decide) _⟩

/-- Two frames in three chunks, one of them ending inside a CRLF. -/
theorem feedAll_nestedFrame :
    FrameDecoder.new.feedAll [(encodeFrame .resp3 nestedFrame).take 3,
        (encodeFrame .resp3 nestedFrame).drop 3 ++ [58, 55, 13], [10]] =
      .ok ([nestedFrame, .integer 7], FrameDecoder.new) := by
  refine feedAll_flatten.1 .resp3 [nestedFrame, .integer 7] _ ?_ (by decide +kernel)
  simp only [List.forall_mem_cons, List.not_mem_nil, false_imp_iff, implies_true, and_true]
  exact ⟨⟨nestedFrame_wellFormed, by decide⟩, .integer 7, by decide⟩

end

end Skeg.Resp3
