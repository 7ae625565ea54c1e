import Skeg.Resp3.Equiv.Parser

/-!
# The grammar of messages

`Message left b f`: the bytes `b` are a message with at most `left` levels, and stand for the frame `f`.  The parser
reads every message, whatever follows it (`Message.reads`), and reads nothing else (`message_of_parse`).
-/

namespace Skeg.Resp3

open Incremental (Partial)

/-- What may stand between a marker and the CRLF of a type that is one line; the nulls of RESP2 are
among them. -/
inductive Line [FloatText] : UInt8 → Bytes → Frame → Prop
  | simple (s : String) : Line 43 (utf8 s) (.simple s)
  | error (s : String) : Line 45 (utf8 s) (.error s)
  | integer {s : String} {n : Int64} (h : parseI64 (utf8 s) = some n) : Line 58 (utf8 s) (.integer n)
  | nullBulk {s : String} (h : parseI64 (utf8 s) = some (-1)) : Line 36 (utf8 s) .null
  | nullArray {s : String} (h : parseI64 (utf8 s) = some (-1)) : Line 42 (utf8 s) .null
  | null : Line 95 [] .null
  | yes : Line 35 [116] (.boolean true)
  | no : Line 35 [102] (.boolean false)
  | double {s : String} {d : F64} (h : FloatText.parse s = some d) : Line 44 (utf8 s) (.double d)
  | bigNumber {s : String} (h : isBigNumber (utf8 s) = true) : Line 40 (utf8 s) (.bigNumber s)

/-- The bytes of a type that has its length in front. -/
inductive Payload : UInt8 → Bytes → Frame → Prop
  | bulk (data : Bytes) : Payload 36 data (.bulk data)
  | blobError (s : String) : Payload 33 (utf8 s)
      (.blobError (String.ofList (splitCode s.toList).1) (String.ofList (splitCode s.toList).2))
  | verbatim (a b c : UInt8) (data : Bytes) : Payload 61 (a :: b :: c :: 58 :: data) (.verbatim a b c data)

/-- A line that says `n`, with `limit` the largest number it may say. -/
structure Count (limit : Nat) (l : Bytes) (n : Nat) : Prop where
  line : findCrlf l = none
  number : ∃ (s : String) (i : Int64), l = utf8 s ∧ parseI64 l = some i ∧ i.toInt = n
  le : n ≤ limit

def AggKind.marker : AggKind → UInt8
  | array => 42
  | set => 126
  | push => 62
  | map => 37

/-- The frames of an aggregate; those of a map are keys and values. -/
def AggKind.frames (kind : AggKind) (n : Nat) : Nat := if kind = .map then n * 2 else n

/-- The bytes of messages, one behind the other. -/
def joined (items : List (Bytes × Frame)) : Bytes := (items.map Prod.fst).flatten

/-- A message with at most `left` levels. -/
inductive Message [FloatText] : Nat → Bytes → Frame → Prop
  | line {left : Nat} {marker : UInt8} {l : Bytes} {f : Frame} (h : Line marker l f) (hl : findCrlf l = none) :
      Message (left + 1) (marker :: (l ++ crlf)) f
  | payload {left : Nat} {marker : UInt8} {l data : Bytes} {f : Frame} (hl : Count maxBulkLen l data.length)
      (h : Payload marker data f) : Message (left + 1) (marker :: (l ++ (crlf ++ (data ++ crlf)))) f
  | aggregate {left n : Nat} {kind : AggKind} {l : Bytes} {items : List (Bytes × Frame)}
      (hl : Count maxAggregateLen l n) (hn : items.length = kind.frames n)
      (h : ∀ p ∈ items, Message left p.1 p.2) :
      Message (left + 1) (kind.marker :: (l ++ (crlf ++ joined items))) (kind.frame (items.map Prod.snd))

/-! ### Reading a message -/

theorem parseNumber_of_parseI64 {s : String} {n : Int64} (h : parseI64 (utf8 s) = some n) :
    parseNumber (utf8 s) = .ok n := by
  rw [parseNumber, fromUtf8_utf8]
  simp only [h]

/-- The number of a line, as the parser has it. -/
theorem Count.reads {limit n : Nat} {l : Bytes} (h : Count limit l n) :
    ∃ i : Int64, ¬ i < 0 ∧ i ≠ -1 ∧ i.toInt.toNat = n ∧
      ∀ rest, onLine parseNumber (l ++ (crlf ++ rest)) = .ok (some (i, l.length + 2)) := by
  obtain ⟨s, i, rfl, hi, hn⟩ := h.number
  refine ⟨i, ?_, ?_, by rw [hn]; rfl, fun rest => onLine_line h.line (parseNumber_of_parseI64 hi) rest⟩
  · rw [Int64.lt_iff_toInt_lt, hn]
    simp
  · rintro rfl
    have : (-1 : Int64).toInt = -1 := by decide
    omega

theorem lengthChecked_eq {n : Nat} {i : Int64} (hneg : ¬ i < 0) (hi : i.toInt.toNat = n) (hn : n ≤ maxBulkLen)
    (k : Nat → ParseResult Frame) : lengthChecked i k = k n := by
  rw [lengthChecked, if_neg hneg, hi, if_neg (by omega)]

/-- A payload behind its header. -/
theorem onPayload_line {α : Type} {l data : Bytes} {finish : Bytes → Except ParseError α} {a : α}
    (h : finish data = .ok a) (rest : Bytes) :
    onPayload (l ++ (crlf ++ (data ++ (crlf ++ rest)))) (l.length + 2) data.length finish =
      .ok (some (a, l.length + 2 + data.length + 2)) := by
  have hdata : (l ++ (crlf ++ (data ++ (crlf ++ rest)))).drop (l.length + 2) = data ++ (crlf ++ rest) := by
    rw [← List.append_assoc l, List.drop_left' (by simp [crlf])]
  have hcrlf : (l ++ (crlf ++ (data ++ (crlf ++ rest)))).drop (l.length + 2 + data.length) = crlf ++ rest := by
    rw [← List.drop_drop, hdata, List.drop_left]
  rw [onPayload_eq (by simp [crlf]; omega) (by rw [hcrlf]; rfl), hdata, List.take_left, h]
  rfl

/-- Frames that are read one by one, whatever follows each, are read one after the other. -/
theorem parseItems_reads {parse : Bytes → ParseResult Frame} {items : List (Bytes × Frame)}
    (h : ∀ p ∈ items, ∀ rest, parse (p.1 ++ rest) = .ok (some (p.2, p.1.length))) (rest : Bytes) :
    parseItems parse items.length (joined items ++ rest) =
      .ok (some (items.map Prod.snd, (joined items).length)) := by
  induction items with
  | nil => rfl
  | cons p ps ih =>
    have hjoin : joined (p :: ps) = p.1 ++ joined ps := rfl
    rw [List.length_cons, parseItems, hjoin, List.append_assoc, h p List.mem_cons_self, Partial.andThen_some]
    simp only [List.drop_left, ih fun q hq => h q (List.mem_cons_of_mem _ hq), Partial.andThen_some, List.map_cons,
      List.length_append]

section

variable [FloatText] {left n : Nat} {marker : UInt8} {l b data : Bytes} {f : Frame}

/-- What stands behind a marker is read, whatever follows it. -/
theorem Line.reads (h : Line marker l f) (hl : findCrlf l = none) (parse : Bytes → ParseResult Frame) (rest : Bytes) :
    parseBody parse marker (l ++ (crlf ++ rest)) = .ok (some (f, l.length + 2)) := by
  cases h with
  | simple s =>
    rw [parseBody, parseLine, onLine_line hl (by rw [parseText, fromUtf8_utf8])]
    rfl
  | error s =>
    rw [parseBody, parseLine, onLine_line hl (by rw [parseText, fromUtf8_utf8])]
    rfl
  | integer h =>
    rw [parseBody, parseIntegerLine, onLine_line hl (parseNumber_of_parseI64 h)]
    rfl
  | nullBulk h =>
    rw [parseBody, parseBulk, onLine_line hl (parseNumber_of_parseI64 h)]
    rfl
  | nullArray h =>
    rw [parseBody, parseAggregate, onLine_line hl (parseNumber_of_parseI64 h)]
    rfl
  | null => rw [parseBody, parseNullResp3, onLine_line (a := Frame.null) hl rfl]
  | yes => rw [parseBody, parseBoolean, onLine_line (a := Frame.boolean true) hl rfl]
  | no => rw [parseBody, parseBoolean, onLine_line (a := Frame.boolean false) hl rfl]
  | @double s d h =>
    rw [parseBody, parseDouble, onLine_line (a := Frame.double d) hl]
    simp only [fromUtf8_utf8, h]
  | @bigNumber s h =>
    rw [parseBody, parseBigNumber, onLine_line (a := Frame.bigNumber s) hl]
    simp only [fromUtf8_utf8, h, if_true]

/-- A payload behind its length. -/
theorem Payload.reads (h : Payload marker data f) (hl : Count maxBulkLen l data.length)
    (parse : Bytes → ParseResult Frame) (rest : Bytes) :
    parseBody parse marker (l ++ (crlf ++ (data ++ (crlf ++ rest)))) =
      .ok (some (f, l.length + 2 + data.length + 2)) := by
  obtain ⟨i, hneg, hne, hi, hline⟩ := hl.reads
  cases h with
  | bulk =>
    rw [parseBody, parseBulk, hline, Partial.andThen_some]
    simp only [hne, if_false, lengthChecked_eq hneg hi hl.le]
    refine onPayload_line ?_ rest
    rfl
  | blobError s =>
    rw [parseBody, parseBlobError, hline, Partial.andThen_some]
    simp only [lengthChecked_eq hneg hi hl.le]
    refine onPayload_line ?_ rest
    rw [fromUtf8_utf8]
  | verbatim a b c data =>
    rw [parseBody, parseVerbatim, hline, Partial.andThen_some]
    simp only [lengthChecked_eq hneg hi hl.le]
    rw [if_neg (by simp)]
    refine onPayload_line ?_ rest
    rfl

theorem parseBody_marker (kind : AggKind) (parse : Bytes → ParseResult Frame) :
    parseBody parse kind.marker = parseAggregate kind parse := by cases kind <;> rfl

/-- A frame is read when what follows its marker is. -/
theorem parseFrameDepth_of_body {body rest : Bytes} (hlen : body.length = n)
    (h : parseBody (parseFrameDepth left) marker (body ++ rest) = .ok (some (f, n))) :
    parseFrameDepth (left + 1) (marker :: body ++ rest) = .ok (some (f, (marker :: body).length)) := by
  rw [List.cons_append, parseFrameDepth, h, List.length_cons, hlen]
  rfl

/-- The parser reads every message, whatever follows it. -/
theorem Message.reads (h : Message left b f) (rest : Bytes) :
    parseFrameDepth left (b ++ rest) = .ok (some (f, b.length)) := by
  induction h generalizing rest with
  | line h hl =>
    refine parseFrameDepth_of_body (List.length_append) ?_
    rw [List.append_assoc]
    exact h.reads hl _ rest
  | @payload _ _ l data _ hl h =>
    refine parseFrameDepth_of_body (n := l.length + 2 + data.length + 2) (by simp [crlf]; omega) ?_
    simp only [List.append_assoc]
    exact h.reads hl _ rest
  | @aggregate left n kind l items hl hn _ ih =>
    obtain ⟨i, hneg, hne, hi, hline⟩ := hl.reads
    have hdrop : (l ++ (crlf ++ (joined items ++ rest))).drop (l.length + 2) = joined items ++ rest := by
      rw [← List.append_assoc, List.drop_left' (by simp [crlf])]
    refine parseFrameDepth_of_body (n := l.length + 2 + (joined items).length) (by simp [crlf]; omega) ?_
    simp only [List.append_assoc]
    rw [parseBody_marker, parseAggregate, hline, Partial.andThen_some]
    simp only [hne, hneg, if_false, hi, Nat.not_lt.mpr hl.le]
    rw [← AggKind.frames, ← hn, hdrop, parseItems_reads ih, Partial.andThen_some]

end

/-! ### What is read is a message -/

theorem eq_of_findCrlf {b : Bytes} {i : Nat} (h : findCrlf b = some i) :
    ∃ l rest, b = l ++ (crlf ++ rest) ∧ findCrlf l = none ∧ l.length = i := by
  induction b generalizing i with
  | nil => cases h
  | cons a b ih =>
    rw [findCrlf] at h
    split_ifs at h with hhit
    · cases h
      obtain ⟨rfl, hhead⟩ := hhit
      obtain ⟨rest, rfl⟩ := List.head?_eq_some_iff.mp hhead
      exact ⟨[], rest, rfl, rfl, rfl⟩
    · obtain ⟨j, hj, rfl⟩ := Option.map_eq_some_iff.mp h
      obtain ⟨l, rest, rfl, hl, rfl⟩ := ih hj
      refine ⟨a :: l, rest, rfl, ?_, rfl⟩
      have hne : ¬ (a = 13 ∧ l.head? = some 10) := by
        rintro ⟨rfl, hhead⟩
        obtain ⟨t, rfl⟩ := List.head?_eq_some_iff.mp hhead
        exact hhit ⟨rfl, rfl⟩
      rw [findCrlf, if_neg hne, hl]
      rfl

theorem onLine_eq_some {α : Type} {read : Bytes → Except ParseError α} {b : Bytes} {a : α} {n : Nat}
    (h : onLine read b = .ok (some (a, n))) :
    ∃ l rest, b = l ++ (crlf ++ rest) ∧ findCrlf l = none ∧ read l = .ok a ∧ n = l.length + 2 := by
  unfold onLine at h
  cases hstop : findCrlf b with
  | none => simp [hstop] at h
  | some stop =>
    obtain ⟨l, rest, rfl, hl, rfl⟩ := eq_of_findCrlf hstop
    simp only [hstop, List.take_left] at h
    cases hread : read l with
    | error e => simp [hread, Except.map] at h
    | ok x =>
      rw [hread] at h
      cases h
      exact ⟨l, rest, rfl, hl, hread, rfl⟩

theorem utf8_of_parseText {l : Bytes} {s : String} (h : parseText l = .ok s) : l = utf8 s := by
  unfold parseText at h
  split at h
  · cases h
  · rename_i hs
    cases h
    exact (utf8_of_fromUtf8 hs).symm

theorem parseI64_of_parseNumber {l : Bytes} {i : Int64} (h : parseNumber l = .ok i) :
    ∃ s, l = utf8 s ∧ parseI64 (utf8 s) = some i := by
  unfold parseNumber at h
  split at h
  · cases h
  · rename_i s hs
    split at h
    · cases h
    · rename_i hi
      cases h
      exact ⟨s, (utf8_of_fromUtf8 hs).symm, hi⟩

/-- A number that the parser lets pass. -/
theorem Count.of_parse {limit : Nat} {s : String} {i : Int64} (hl : findCrlf (utf8 s) = none)
    (hi : parseI64 (utf8 s) = some i) (hneg : ¬ i < 0) (hle : ¬ limit < i.toInt.toNat) :
    Count limit (utf8 s) i.toInt.toNat := by
  refine ⟨hl, ⟨s, i, rfl, hi, ?_⟩, by omega⟩
  rw [Int64.lt_iff_toInt_lt] at hneg
  simp only [Int64.toInt_zero, not_lt] at hneg
  exact (Int.toNat_of_nonneg hneg).symm

theorem onPayload_eq_some {α : Type} {l rest : Bytes} {len n : Nat} {finish : Bytes → Except ParseError α} {a : α}
    (h : onPayload (l ++ (crlf ++ rest)) (l.length + 2) len finish = .ok (some (a, n))) :
    ∃ data rest', rest = data ++ (crlf ++ rest') ∧ data.length = len ∧ finish data = .ok a ∧
      n = l.length + 2 + len + 2 := by
  have hdrop : (l ++ (crlf ++ rest)).drop (l.length + 2) = rest := by
    rw [← List.append_assoc, List.drop_left' (by simp [crlf])]
  obtain ⟨hlen, hcrlf⟩ := onPayload_ne_none (by rw [h]; simp)
  rw [onPayload_eq hlen hcrlf, hdrop] at h
  rw [← List.drop_drop, hdrop] at hcrlf
  cases hfinish : finish (rest.take len) with
  | error e => simp [hfinish, Except.map] at h
  | ok x =>
    rw [hfinish] at h
    cases h
    refine ⟨rest.take len, (rest.drop len).drop 2, ?_, ?_, hfinish, rfl⟩
    · rw [← hcrlf, List.take_append_drop, List.take_append_drop]
    · simp only [List.length_append, crlf, List.length_cons, List.length_nil] at hlen
      rw [List.length_take]
      omega

/-- The frames of an aggregate, each with the bytes it was read from. -/
theorem parseItems_eq_some {parse : Bytes → ParseResult Frame} {L : Bytes → Frame → Prop}
    (hparse : ∀ b f n, parse b = .ok (some (f, n)) → ∃ m rest, b = m ++ rest ∧ m.length = n ∧ L m f) {count : Nat}
    {b : Bytes} {fs : List Frame} {n : Nat} (h : parseItems parse count b = .ok (some (fs, n))) :
    ∃ items rest, b = joined items ++ rest ∧ (joined items).length = n ∧ items.length = count ∧
      items.map Prod.snd = fs ∧ ∀ p ∈ items, L p.1 p.2 := by
  induction count generalizing b fs n with
  | zero =>
    cases h
    exact ⟨[], b, rfl, rfl, rfl, rfl, by simp⟩
  | succ count ih =>
    obtain ⟨⟨f, k⟩, hf, hrest⟩ := Partial.andThen_eq_some.mp h
    obtain ⟨⟨fs', k'⟩, hitems, hok⟩ := Partial.andThen_eq_some.mp hrest
    cases hok
    obtain ⟨m, rest, rfl, rfl, hm⟩ := hparse b f k hf
    rw [List.drop_left] at hitems
    obtain ⟨items, rest', rfl, rfl, rfl, rfl, hall⟩ := ih hitems
    exact ⟨(m, f) :: items, rest', (List.append_assoc ..).symm, List.length_append, rfl, rfl,
      List.forall_mem_cons.mpr ⟨hm, hall⟩⟩

section

variable [FloatText] {left n : Nat} {marker : UInt8} {b : Bytes} {f : Frame}

/-- The front of `b` is what may stand behind a marker. -/
def Follows (left : Nat) (marker : UInt8) (b : Bytes) (f : Frame) (n : Nat) : Prop :=
  ∃ m rest, b = m ++ rest ∧ m.length = n ∧ Message (left + 1) (marker :: m) f

theorem follows_line {α : Type} {read : Bytes → Except ParseError α} {a : α} (h : onLine read b = .ok (some (a, n)))
    (hline : ∀ l, read l = .ok a → Line marker l f) : Follows left marker b f n := by
  obtain ⟨l, rest, rfl, hl, hread, rfl⟩ := onLine_eq_some h
  exact ⟨l ++ crlf, rest, (List.append_assoc ..).symm, by simp [crlf], .line (hline l hread) hl⟩

theorem follows_payload {s : String} {i : Int64} {rest : Bytes} {finish : Bytes → Except ParseError Frame}
    {k : Nat → ParseResult Frame} (hl : findCrlf (utf8 s) = none) (hi : parseI64 (utf8 s) = some i)
    (h : lengthChecked i k = .ok (some (f, n)))
    (hk : ∀ len, k len = .ok (some (f, n)) →
      onPayload (utf8 s ++ (crlf ++ rest)) ((utf8 s).length + 2) len finish = .ok (some (f, n)))
    (hfinish : ∀ data, finish data = .ok f → Payload marker data f) :
    Follows left marker (utf8 s ++ (crlf ++ rest)) f n := by
  unfold lengthChecked at h
  split_ifs at h with hneg hle
  obtain ⟨data, rest', rfl, hlen, hdata, rfl⟩ := onPayload_eq_some (hk _ h)
  refine ⟨utf8 s ++ (crlf ++ (data ++ crlf)), rest', by simp, ?_, .payload ?_ (hfinish data hdata)⟩
  · simp only [List.length_append, crlf, List.length_cons, List.length_nil]
    omega
  · rw [hlen]
    exact Count.of_parse hl hi hneg hle

theorem follows_aggregate (kind : AggKind) {parse : Bytes → ParseResult Frame}
    (hparse : ∀ b f n, parse b = .ok (some (f, n)) → ∃ m rest, b = m ++ rest ∧ m.length = n ∧ Message left m f)
    (h : parseAggregate kind parse b = .ok (some (f, n))) : Follows left kind.marker b f n := by
  obtain ⟨⟨i, start⟩, hline, hrest⟩ := Partial.andThen_eq_some.mp h
  obtain ⟨l, rest, rfl, hl, hnum, rfl⟩ := onLine_eq_some hline
  obtain ⟨s, rfl, hi⟩ := parseI64_of_parseNumber hnum
  simp only at hrest
  split_ifs at hrest with hnull hkind hneg hle
  · subst hnull hkind
    cases hrest
    exact ⟨utf8 s ++ crlf, rest, (List.append_assoc ..).symm, by simp [crlf], .line (.nullArray hi) hl⟩
  all_goals
    obtain ⟨⟨fs, k⟩, hitems, hok⟩ := Partial.andThen_eq_some.mp hrest
    cases hok
    rw [← List.append_assoc, List.drop_left' (by simp [crlf])] at hitems
    obtain ⟨items, rest', rfl, rfl, hlen, rfl, hall⟩ := parseItems_eq_some hparse hitems
    refine ⟨utf8 s ++ (crlf ++ joined items), rest', by simp, ?_,
      .aggregate (Count.of_parse hl hi hneg hle) ?_ hall⟩
    · simp only [List.length_append, crlf, List.length_cons, List.length_nil]
      omega
    · simp only [AggKind.frames, *, if_true, if_false]

theorem follows_body {parse : Bytes → ParseResult Frame}
    (hparse : ∀ b f n, parse b = .ok (some (f, n)) → ∃ m rest, b = m ++ rest ∧ m.length = n ∧ Message left m f)
    (h : parseBody parse marker b = .ok (some (f, n))) : Follows left marker b f n := by
  -- one case for each marker, in the order of the source; a line, a payload or an aggregate follows it
  unfold parseBody at h
  split at h
  · obtain ⟨⟨s, k⟩, hs, hok⟩ := Partial.andThen_eq_some.mp h
    cases hok
    exact follows_line hs fun l hread => utf8_of_parseText hread ▸ .simple s
  · obtain ⟨⟨s, k⟩, hs, hok⟩ := Partial.andThen_eq_some.mp h
    cases hok
    exact follows_line hs fun l hread => utf8_of_parseText hread ▸ .error s
  · obtain ⟨⟨i, k⟩, hi, hok⟩ := Partial.andThen_eq_some.mp h
    cases hok
    refine follows_line hi fun l hread => ?_
    obtain ⟨s, rfl, hs⟩ := parseI64_of_parseNumber hread
    exact .integer hs
  · obtain ⟨⟨i, start⟩, hline, hrest⟩ := Partial.andThen_eq_some.mp h
    obtain ⟨l, rest, rfl, hl, hnum, rfl⟩ := onLine_eq_some hline
    obtain ⟨s, rfl, hi⟩ := parseI64_of_parseNumber hnum
    simp only at hrest
    split_ifs at hrest with hnull
    · subst hnull
      cases hrest
      -- the length -1 is a null without a payload
      exact ⟨utf8 s ++ crlf, rest, (List.append_assoc ..).symm, by simp [crlf], .line (.nullBulk hi) hl⟩
    · refine follows_payload hl hi hrest (fun _ h => h) fun data hdata => ?_
      cases hdata
      exact .bulk data
  · exact follows_aggregate .array hparse h
  · refine follows_line h fun l hread => ?_
    split_ifs at hread with hempty
    cases hread
    obtain rfl := List.isEmpty_iff.mp hempty
    exact .null
  · refine follows_line h fun l hread => ?_
    split_ifs at hread with ht hf
    · cases hread
      exact ht ▸ .yes
    · cases hread
      exact hf ▸ .no
  · refine follows_line h fun l hread => ?_
    split at hread
    · cases hread
    · rename_i hs
      split at hread
      · cases hread
      · rename_i hd
        cases hread
        exact utf8_of_fromUtf8 hs ▸ .double hd
  · exact follows_aggregate .map hparse h
  · exact follows_aggregate .set hparse h
  · exact follows_aggregate .push hparse h
  · obtain ⟨⟨i, start⟩, hline, hrest⟩ := Partial.andThen_eq_some.mp h
    obtain ⟨l, rest, rfl, hl, hnum, rfl⟩ := onLine_eq_some hline
    obtain ⟨s, rfl, hi⟩ := parseI64_of_parseNumber hnum
    refine follows_payload hl hi hrest (fun _ h => h) fun data hdata => ?_
    split at hdata
    · cases hdata
    · rename_i t ht
      cases hdata
      exact utf8_of_fromUtf8 ht ▸ .blobError t
  · obtain ⟨⟨i, start⟩, hline, hrest⟩ := Partial.andThen_eq_some.mp h
    obtain ⟨l, rest, rfl, hl, hnum, rfl⟩ := onLine_eq_some hline
    obtain ⟨s, rfl, hi⟩ := parseI64_of_parseNumber hnum
    apply follows_payload hl hi hrest
    · intro len h
      split_ifs at h
      exact h
    · intro data hdata
      split at hdata
      · cases hdata
        exact .verbatim ..
      · cases hdata
  · refine follows_line h fun l hread => ?_
    split at hread
    · cases hread
    · rename_i hs
      split_ifs at hread with hbig
      cases hread
      exact utf8_of_fromUtf8 hs ▸ .bigNumber hbig
  · cases h

/-- What the parser reads is a message. -/
theorem message_of_parse (h : parseFrameDepth left b = .ok (some (f, n))) :
    ∃ m rest, b = m ++ rest ∧ m.length = n ∧ Message left m f := by
  induction left generalizing b f n with
  | zero => cases b <;> cases h
  | succ left ih =>
    cases b with
    | nil => cases h
    | cons marker b =>
      obtain ⟨⟨f', k⟩, hbody, hok⟩ := Partial.andThen_eq_some.mp h
      cases hok
      obtain ⟨m, rest, rfl, rfl, hm⟩ := follows_body (fun b f n => ih) hbody
      exact ⟨marker :: m, rest, rfl, rfl, hm⟩

end

end Skeg.Resp3
