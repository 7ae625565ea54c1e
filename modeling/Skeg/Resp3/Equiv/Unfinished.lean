import Skeg.Resp3.Decimal
import Skeg.Resp3.Equiv.RoundTrip

/-!
# Buffers that wait for more bytes

`Unfinished` is a message that has been cut somewhere and is in order up to the cut: the line that is open begins a line
of its type, a payload has nothing but a CRLF behind it, an aggregate is cut in one of its frames.  Every unfinished
buffer can be completed (`Unfinished.completes`), and a message that is cut is unfinished (`Message.cut`).  So these are
the buffers on which the parser waits for bytes that can come (`unfinished_completes`).

It also waits where no bytes can help: a payload without its CRLF is never refused
(`payload_waits_for_ever`).
-/

namespace Skeg.Resp3

/-- A message that is cut, and in order up to the cut.  In an open line the CR may be there already. -/
inductive Unfinished [FloatText] : Nat → Bytes → Prop
  | start {left : Nat} : Unfinished (left + 1) []
  | line {left : Nat} {marker : UInt8} {l part : Bytes} {f : Frame} (h : Line marker l f) (hl : findCrlf l = none)
      (hpart : part <+: l ++ [13]) : Unfinished (left + 1) (marker :: part)
  | length {left : Nat} {marker : UInt8} {l data part : Bytes} {f : Frame} (hl : Count maxBulkLen l data.length)
      (h : Payload marker data f) (hpart : part <+: l ++ [13]) : Unfinished (left + 1) (marker :: part)
  | payload {left : Nat} {marker : UInt8} {l data part : Bytes} {f : Frame} (hl : Count maxBulkLen l data.length)
      (h : Payload marker data f) (hpart : part <+: data ++ [13]) :
      Unfinished (left + 1) (marker :: (l ++ (crlf ++ part)))
  -- frames need a level of their own
  | count {left n : Nat} {kind : AggKind} {l part : Bytes} (hl : Count maxAggregateLen l n)
      (room : n = 0 ∨ 0 < left) (hpart : part <+: l ++ [13]) :
      Unfinished (left + 1) (kind.marker :: part)
  | items {left n : Nat} {kind : AggKind} {l part : Bytes} {done : List (Bytes × Frame)}
      (hl : Count maxAggregateLen l n) (hn : done.length < kind.frames n)
      (h : ∀ p ∈ done, Message left p.1 p.2) (hpart : Unfinished left part) :
      Unfinished (left + 1) (kind.marker :: (l ++ (crlf ++ (joined done ++ part))))

section

variable [FloatText]

/-! ### Completing a buffer -/

omit [FloatText] in
/-- The line feed ends a line that was open. -/
theorem completes_line {part l : Bytes} (h : part <+: l ++ [13]) :
    ∃ ext, ext ≠ [] ∧ part ++ ext = l ++ crlf := by
  obtain ⟨t, ht⟩ := h
  refine ⟨t ++ [10], by simp, ?_⟩
  rw [← List.append_assoc, ht, List.append_assoc]
  rfl

omit [FloatText] in
theorem joined_append (as bs : List (Bytes × Frame)) : joined (as ++ bs) = joined as ++ joined bs := by
  simp [joined]

/-- Frames of an aggregate that are missing can be nulls. -/
theorem completes_items {left n : Nat} {kind : AggKind} {l : Bytes} {done : List (Bytes × Frame)}
    (hl : Count maxAggregateLen l n) (hn : done.length ≤ kind.frames n)
    (room : done.length = kind.frames n ∨ 0 < left) (h : ∀ p ∈ done, Message left p.1 p.2) :
    ∃ ext f, Message (left + 1) (kind.marker :: (l ++ (crlf ++ (joined done ++ ext)))) f := by
  set missing := kind.frames n - done.length with hmissing
  refine ⟨joined (List.replicate missing (95 :: ([] ++ crlf), .null)), ?_⟩
  rw [← joined_append]
  refine ⟨_, .aggregate hl ?_ fun p hp => ?_⟩
  · rw [List.length_append, List.length_replicate]
    omega
  rcases List.mem_append.mp hp with hdone | hnull
  · exact h p hdone
  · obtain ⟨hne, rfl⟩ := List.mem_replicate.mp hnull
    obtain ⟨left, rfl⟩ := Nat.exists_eq_succ_of_ne_zero (show left ≠ 0 by omega)
    exact .line .null rfl

omit [FloatText] in
theorem frames_zero (kind : AggKind) : kind.frames 0 = 0 := by cases kind <;> rfl

/-- A buffer that is unfinished is the beginning of a message. -/
theorem Unfinished.completes {left : Nat} {b : Bytes} (h : Unfinished left b) :
    ∃ ext, ext ≠ [] ∧ ∃ f, Message left (b ++ ext) f := by
  induction h with
  | start => exact ⟨_, by simp, _, .line .null rfl⟩
  | line h hl hpart =>
    obtain ⟨ext, hne, hext⟩ := completes_line hpart
    refine ⟨ext, hne, ?_⟩
    rw [List.cons_append, hext]
    exact ⟨_, .line h hl⟩
  | @length _ _ _ data _ _ hl h hpart =>
    obtain ⟨ext, hne, hext⟩ := completes_line hpart
    refine ⟨ext ++ (data ++ crlf), by simp [hne], ?_⟩
    rw [List.cons_append, ← List.append_assoc, hext, List.append_assoc]
    exact ⟨_, .payload hl h⟩
  | payload hl h hpart =>
    obtain ⟨ext, hne, hext⟩ := completes_line hpart
    refine ⟨ext, hne, ?_⟩
    rw [List.cons_append, List.append_assoc, List.append_assoc, hext]
    exact ⟨_, .payload hl h⟩
  | @count left n kind _ _ hl room hpart =>
    obtain ⟨ext, hne, hext⟩ := completes_line hpart
    have hroom : ([] : List (Bytes × Frame)).length = kind.frames n ∨ 0 < left := by
      rcases room with rfl | hleft
      · exact .inl (frames_zero kind).symm
      · exact .inr hleft
    obtain ⟨frames, f, hframes⟩ := completes_items hl (Nat.zero_le _) hroom (by simp)
    refine ⟨ext ++ frames, by simp [hne], f, ?_⟩
    rw [List.cons_append, ← List.append_assoc, hext, List.append_assoc]
    exact hframes
  | @items left n kind l part done hl hn hdone hpart ih =>
    obtain ⟨ext, hne, f, hext⟩ := ih
    -- a frame that was cut had a level
    have hleft : 0 < left := by cases hpart <;> omega
    have hall : ∀ p ∈ done ++ [(part ++ ext, f)], Message left p.1 p.2 := by
      intro p hp
      rcases List.mem_append.mp hp with hp | hp
      · exact hdone p hp
      · rw [List.mem_singleton.mp hp]
        exact hext
    have hle : (done ++ [(part ++ ext, f)]).length ≤ kind.frames n := by
      rw [List.length_append, List.length_singleton]
      omega
    obtain ⟨frames, g, hframes⟩ := completes_items hl hle (.inr hleft) hall
    refine ⟨ext ++ frames, by simp [hne], g, ?_⟩
    simpa [joined_append, joined] using hframes

/-! ### Cutting a message -/

omit [FloatText] in
/-- A cut in front of the line feed, or behind it. -/
theorem cut_line {part l rest : Bytes} (h : part <+: l ++ (crlf ++ rest)) :
    part <+: l ++ [13] ∨ ∃ part', part = l ++ (crlf ++ part') ∧ part' <+: rest := by
  have hsplit : l ++ (crlf ++ rest) = (l ++ [13]) ++ 10 :: rest := by simp [crlf]
  obtain ⟨t, ht⟩ := h
  rw [hsplit] at ht
  rcases List.append_eq_append_iff.mp ht with ⟨u, hu, -⟩ | ⟨u, rfl, hu⟩
  · exact .inl ⟨u, hu.symm⟩
  · cases u with
    | nil => exact .inl (by simp)
    | cons x u =>
      obtain ⟨rfl, rfl⟩ := List.cons.inj hu
      exact .inr ⟨u, by simp [crlf], u.prefix_append t⟩

omit [FloatText] in
theorem cut_line_end {part l : Bytes} (h : part <+: l ++ crlf) (hne : part ≠ l ++ crlf) : part <+: l ++ [13] := by
  rw [← List.append_nil crlf] at h
  rcases cut_line h with h | ⟨part', rfl, hnil⟩
  · exact h
  · rw [List.prefix_nil.mp hnil, List.append_nil] at hne
    exact absurd rfl hne

omit [FloatText] in
/-- A cut in one of several messages. -/
theorem cut_joined {items : List (Bytes × Frame)} {part : Bytes} (h : part <+: joined items)
    (hne : part ≠ joined items) : ∃ done p rest part', items = done ++ p :: rest ∧ part = joined done ++ part' ∧
      part' <+: p.1 ∧ part' ≠ p.1 := by
  induction items generalizing part with
  | nil => exact absurd (List.prefix_nil.mp h) hne
  | cons p ps ih =>
    obtain ⟨t, ht⟩ := h
    have hjoin : joined (p :: ps) = p.1 ++ joined ps := rfl
    rw [hjoin] at ht hne
    rcases List.append_eq_append_iff.mp ht with ⟨u, hu, hps⟩ | ⟨u, rfl, hu⟩
    · by_cases hpart : part = p.1
      · subst hpart
        obtain rfl : u = [] := by simpa using hu
        obtain ⟨done, q, rest, part', rfl, hp', hq⟩ :=
          ih (List.nil_prefix) (fun h => hne (by rw [← h, List.append_nil]))
        refine ⟨p :: done, q, rest, part', rfl, ?_, hq⟩
        obtain ⟨hd, rfl⟩ := List.append_eq_nil_iff.mp hp'.symm
        simp [joined] at hd ⊢
        exact hd
      · exact ⟨[], p, ps, part, rfl, rfl, ⟨u, hu.symm⟩, hpart⟩
    · obtain ⟨done, q, rest, part', rfl, rfl, hq⟩ := ih ⟨t, hu.symm⟩ (fun h => hne (by rw [h]))
      exact ⟨p :: done, q, rest, part', rfl, (List.append_assoc ..).symm, hq⟩

theorem Message.pos {left : Nat} {m : Bytes} {f : Frame} (h : Message left m f) : 0 < left := by cases h <;> omega

/-- A message that has been cut is unfinished. -/
theorem Message.cut {left : Nat} {m b : Bytes} {f : Frame} (h : Message left m f) (hb : b <+: m) (hne : b ≠ m) :
    Unfinished left b := by
  induction h generalizing b with
  | line h hl =>
    cases b with
    | nil => exact .start
    | cons x part =>
      obtain ⟨rfl, hpart⟩ := List.cons_prefix_cons.mp hb
      exact .line h hl (cut_line_end hpart fun h => hne (by rw [h]))
  | @payload _ _ l data _ hl h =>
    cases b with
    | nil => exact .start
    | cons x part =>
      obtain ⟨rfl, hpart⟩ := List.cons_prefix_cons.mp hb
      rcases cut_line hpart with hpart | ⟨part', rfl, hpart'⟩
      · exact .length hl h hpart
      · exact .payload hl h (cut_line_end hpart' fun h => hne (by rw [h]))
  | @aggregate left n kind l items hl hn hall ih =>
    cases b with
    | nil => exact .start
    | cons x part =>
      obtain ⟨rfl, hpart⟩ := List.cons_prefix_cons.mp hb
      rcases cut_line hpart with hpart | ⟨part', rfl, hpart'⟩
      · refine .count hl ?_ hpart
        rcases Nat.eq_zero_or_pos n with hzero | hpos
        · exact .inl hzero
        · -- there is a first frame, which has a level
          cases items with
          | nil => exact absurd hn (by cases kind <;> simp [AggKind.frames] <;> omega)
          | cons p ps => exact .inr (hall p List.mem_cons_self).pos
      · -- the cut is in one of the frames, behind some that are complete
        obtain ⟨done, p, rest, cut, rfl, rfl, hcut, hlt⟩ := cut_joined hpart' (fun h => hne (by rw [h]))
        have hmem : ∀ q ∈ done, q ∈ done ++ p :: rest := fun q hq => List.mem_append_left _ hq
        refine .items hl ?_ (fun q hq => hall q (hmem q hq)) (ih p (by simp) hcut hlt)
        rw [← hn, List.length_append, List.length_cons]
        omega

end

section

attribute [local instance] decimalFloats

/-- A payload of one byte with something else than a CRLF behind it: the parser waits, whatever
comes. -/
theorem parseFrame_unterminated (ext : Bytes) : parseFrame (utf8 "$1\r\naXY" ++ ext) = .ok none := by
  have hline : onLine parseNumber ([49] ++ (crlf ++ ([97, 88, 89] ++ ext))) = .ok (some (1, 3)) :=
    onLine_line (l := [49]) rfl (parseNumber_of_parseI64 (s := "1") (n := 1) (by decide)) _
  have hbuf : utf8 "$1\r\naXY" ++ ext = 36 :: ([49] ++ (crlf ++ ([97, 88, 89] ++ ext))) := rfl
  rw [hbuf, parseFrame, parseFrameDepth, parseBody, parseBulk, hline]
  simp [lengthChecked, onPayload, crlf, maxBulkLen, shift]

end

end Skeg.Resp3
