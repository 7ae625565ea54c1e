import Skeg.Resp3.Parser
import Skeg.Core.Equiv.Text

/-!
# The parser does not change its mind

`parseFrame_stable`: a frame or an error that `parse_frame` has returned on a buffer is what it
returns on every longer one.
-/

namespace Skeg.Resp3

open Incremental (Partial Stable)

/-! ### Lines -/

theorem findCrlf_le {b : Bytes} {i : Nat} (h : findCrlf b = some i) : i + 2 ≤ b.length := by
  induction b generalizing i with
  | nil => cases h
  | cons a rest ih =>
    rw [findCrlf] at h
    split_ifs at h with hhit
    · cases h
      rcases rest with _ | ⟨b, rest⟩
      · simp at hhit
      · simp
    · obtain ⟨j, hj, rfl⟩ := Option.map_eq_some_iff.mp h
      have := ih hj
      simp only [List.length_cons]
      omega

theorem findCrlf_append {b : Bytes} {i : Nat} (c : Bytes) (h : findCrlf b = some i) :
    findCrlf (b ++ c) = some i := by
  induction b generalizing i with
  | nil => cases h
  | cons a rest ih =>
    rw [List.cons_append, findCrlf]
    rw [findCrlf] at h
    split_ifs at h with hhit
    · cases h
      rcases rest with _ | ⟨b, rest⟩
      · simp at hhit
      · rw [if_pos (by simpa using hhit)]
    · obtain ⟨j, hj, rfl⟩ := Option.map_eq_some_iff.mp h
      have hne : rest ≠ [] := by rintro rfl; cases hj
      rw [if_neg (by rwa [List.head?_append_of_ne_nil _ hne]), ih hj]
      rfl

/-- A text without CRLF ends at the CRLF behind it. -/
theorem findCrlf_line {l : Bytes} (h : findCrlf l = none) (rest : Bytes) :
    findCrlf (l ++ (crlf ++ rest)) = some l.length := by
  induction l with
  | nil => rfl
  | cons a l ih =>
    rw [findCrlf] at h
    split_ifs at h with hhit
    rw [Option.map_eq_none_iff] at h
    have hne : ¬ (a = 13 ∧ (l ++ (crlf ++ rest)).head? = some 10) := by
      rcases l with _ | ⟨b, l⟩
      · simp [crlf]
      · simpa using hhit
    rw [List.cons_append, findCrlf, if_neg hne, ih h]
    rfl

theorem findCrlf_eq_none {l : Bytes} (h : 13 ∉ l) : findCrlf l = none := by
  induction l with
  | nil => rfl
  | cons a l ih =>
    rw [List.mem_cons, not_or] at h
    rw [findCrlf, if_neg (by simp [Ne.symm h.1]), ih h.2]
    rfl

/-- The length that goes with a value that was read. -/
theorem eq_of_map_eq_ok {α : Type} {r : Except ParseError α} {a : α} {m n : Nat}
    (h : r.map (fun a => some (a, m)) = .ok (some (a, n))) : m = n := by
  cases r <;> cases h
  rfl

theorem onLine_stable {α : Type} (read : Bytes → Except ParseError α) : Stable (onLine read) where
  le_length {b a n} h := by
    unfold onLine at h
    split at h
    · cases h
    · next stop hstop =>
      obtain rfl := eq_of_map_eq_ok h
      exact findCrlf_le hstop
  append {b} c h := by
    unfold onLine at h ⊢
    cases hstop : findCrlf b with
    | none => simp [hstop] at h
    | some stop =>
      have := findCrlf_le hstop
      simp only [findCrlf_append c hstop]
      rw [List.take_append_of_le_length (by omega)]

/-- What `onLine` reads of a text with a CRLF behind it. -/
theorem onLine_line {α : Type} {read : Bytes → Except ParseError α} {l : Bytes} {a : α}
    (h : findCrlf l = none) (hread : read l = .ok a) (rest : Bytes) :
    onLine read (l ++ (crlf ++ rest)) = .ok (some (a, l.length + 2)) := by
  rw [onLine, findCrlf_line h]
  simp [hread, Except.map]

/-! ### Payloads -/

section

variable {α : Type} {b : Bytes} {start len : Nat} {finish : Bytes → Except ParseError α}

theorem onPayload_ne_none (h : onPayload b start len finish ≠ .ok none) :
    start + len + 2 ≤ b.length ∧ (b.drop (start + len)).take 2 = crlf := by
  by_contra hcon
  apply h
  simp only [onPayload]
  rcases not_and_or.mp hcon with hlen | hcrlf
  · rw [if_pos (by omega)]
  · rw [if_pos hcrlf, ite_self]

/-- A payload that is all there. -/
theorem onPayload_eq (hlen : start + len + 2 ≤ b.length)
    (hcrlf : (b.drop (start + len)).take 2 = crlf) :
    onPayload b start len finish =
      (finish ((b.drop start).take len)).map fun a => some (a, start + len + 2) := by
  simp only [onPayload]
  rw [if_neg (by omega), if_neg (by simp [hcrlf])]

theorem onPayload_le {a : α} {m : Nat} (h : onPayload b start len finish = .ok (some (a, m))) :
    m ≤ b.length := by
  have hne : onPayload b start len finish ≠ .ok none := by simp [h]
  obtain ⟨hlen, hcrlf⟩ := onPayload_ne_none hne
  rw [onPayload_eq hlen hcrlf] at h
  obtain rfl := eq_of_map_eq_ok h
  exact hlen

theorem onPayload_append (c : Bytes) (h : onPayload b start len finish ≠ .ok none) :
    onPayload (b ++ c) start len finish = onPayload b start len finish := by
  obtain ⟨hlen, hcrlf⟩ := onPayload_ne_none h
  have hsame : ∀ n m, n + m ≤ b.length → ((b ++ c).drop n).take m = (b.drop n).take m :=
    fun n m hm => by
      rw [List.drop_append_of_le_length (by omega), List.take_append_of_le_length (by simp; omega)]
  rw [onPayload_eq hlen hcrlf, onPayload_eq (by simp; omega) (by rw [hsame _ _ hlen, hcrlf]),
    hsame _ _ (by omega)]

theorem lengthChecked_le {len : Int64} {k : Nat → ParseResult Frame} {f : Frame} {m n : Nat}
    (hk : ∀ {len}, k len = .ok (some (f, m)) → m ≤ n) (h : lengthChecked len k = .ok (some (f, m))) :
    m ≤ n := by
  unfold lengthChecked at h
  split_ifs at h
  exact hk h

theorem lengthChecked_congr {len : Int64} {k k' : Nat → ParseResult Frame}
    (hk : ∀ len, k len ≠ .ok none → k' len = k len) (h : lengthChecked len k ≠ .ok none) :
    lengthChecked len k' = lengthChecked len k := by
  unfold lengthChecked at h ⊢
  split_ifs at h ⊢
  · rfl
  · rfl
  · exact hk _ h

end

theorem parseBulk_stable : Stable parseBulk := by
  refine (onLine_stable parseNumber).andThen ?_ ?_
  · intro b a n f m hn h
    simp only at h
    split_ifs at h
    · cases h; exact hn
    · exact lengthChecked_le onPayload_le h
  · intro b a n c _ h
    simp only at h ⊢
    split_ifs at h ⊢
    · rfl
    · exact lengthChecked_congr (fun _ => onPayload_append c) h

theorem parseBlobError_stable : Stable parseBlobError := by
  refine (onLine_stable parseNumber).andThen ?_ ?_
  · intro b a n f m _ h
    exact lengthChecked_le onPayload_le h
  · intro b a n c _ h
    exact lengthChecked_congr (fun _ => onPayload_append c) h

theorem parseVerbatim_stable : Stable parseVerbatim := by
  refine (onLine_stable parseNumber).andThen ?_ ?_
  · intro b a n f m _ h
    refine lengthChecked_le (fun {len} h => ?_) h
    split_ifs at h
    exact onPayload_le h
  · intro b a n c _ h
    refine lengthChecked_congr (fun len h => ?_) h
    split_ifs at h ⊢
    · rfl
    · exact onPayload_append c h

/-! ### Aggregates -/

theorem parseItems_stable {parse : Bytes → ParseResult Frame} (hp : Stable parse) (count : Nat) :
    Stable (parseItems parse count) := by
  induction count with
  | zero => exact ⟨fun h => by cases h; omega, fun c _ => rfl⟩
  | succ count ih =>
    refine hp.andThen (k := fun b fn => (parseItems parse count (b.drop fn.2)).andThen fun im =>
      .ok (some (fn.1 :: im.1, fn.2 + im.2))) ?_ ?_
    · intro b f n items m hn h
      obtain ⟨⟨items', m'⟩, hitems, hok⟩ := Partial.andThen_eq_some.mp h
      cases hok
      have := ih.le_length hitems
      rw [List.length_drop] at this
      simp only
      omega
    · intro b f n c hn h
      have hne : parseItems parse count (b.drop n) ≠ .ok none := fun hnone => h (by simp [hnone])
      simp only [List.drop_append_of_le_length hn, ih.append c hne]

theorem parseAggregate_stable {parse : Bytes → ParseResult Frame} (hp : Stable parse) (kind : AggKind) :
    Stable (parseAggregate kind parse) := by
  refine (onLine_stable parseNumber).andThen ?_ ?_
  · intro b a n f m hn h
    simp only at h
    split_ifs at h
    · cases h; exact hn
    · obtain ⟨⟨items, k⟩, hitems, hok⟩ := Partial.andThen_eq_some.mp h
      cases hok
      have := (parseItems_stable hp _).le_length hitems
      rw [List.length_drop] at this
      omega
    · obtain ⟨⟨items, k⟩, hitems, hok⟩ := Partial.andThen_eq_some.mp h
      cases hok
      have := (parseItems_stable hp _).le_length hitems
      rw [List.length_drop] at this
      omega
  · intro b a n c hn h
    simp only [List.drop_append_of_le_length hn] at h ⊢
    split_ifs at h ⊢
    all_goals first
      | rfl
      | exact congrArg (Partial.andThen · _)
          ((parseItems_stable hp _).append c fun hnone => h (by rw [hnone]; rfl))

/-! ### Frames -/

/-- A stable parser, with a constructor around what it reads. -/
theorem stable_toFrame {α : Type} {p : Bytes → ParseResult α} (hp : Stable p) (f : α → Frame) :
    Stable fun b => (p b).andThen fun (a, n) => .ok (some (f a, n)) := by
  refine hp.andThen ?_ ?_
  · intro b a n c m hn h
    cases h
    exact hn
  · intro b a n c _ _
    rfl

theorem parseBody_stable [FloatText] {parse : Bytes → ParseResult Frame} (hp : Stable parse)
    (marker : UInt8) : Stable (parseBody parse marker) := by
  unfold parseBody
  split
  · exact stable_toFrame (onLine_stable _) Frame.simple
  · exact stable_toFrame (onLine_stable _) Frame.error
  · exact stable_toFrame (onLine_stable _) Frame.integer
  · exact parseBulk_stable
  · exact parseAggregate_stable hp .array
  · exact onLine_stable _
  · exact onLine_stable _
  · exact onLine_stable _
  · exact parseAggregate_stable hp .map
  · exact parseAggregate_stable hp .set
  · exact parseAggregate_stable hp .push
  · exact parseBlobError_stable
  · exact parseVerbatim_stable
  · exact onLine_stable _
  · exact ⟨fun h => by simp at h, fun _ _ => rfl⟩

theorem parseFrameDepth_stable [FloatText] (left : Nat) : Stable (parseFrameDepth left) := by
  induction left with
  | zero =>
    refine ⟨fun {b a n} h => ?_, fun {b} c h => ?_⟩
    · rcases b with _ | ⟨_, _⟩ <;> cases h
    · rcases b with _ | ⟨_, _⟩
      · exact absurd rfl h
      · rfl
  | succ left ih =>
    refine ⟨fun {b a n} h => ?_, fun {b} c h => ?_⟩
    · rcases b with _ | ⟨marker, body⟩
      · cases h
      · obtain ⟨⟨f, k⟩, hf, hok⟩ := Partial.andThen_eq_some.mp h
        cases hok
        have := (parseBody_stable ih marker).le_length hf
        simp only [List.length_cons]
        omega
    · rcases b with _ | ⟨marker, body⟩
      · exact absurd rfl h
      · have hne : parseBody (parseFrameDepth left) marker body ≠ .ok none := fun hnone =>
          h (by rw [parseFrameDepth, hnone]; rfl)
        rw [List.cons_append, parseFrameDepth, (parseBody_stable ih marker).append c hne,
          parseFrameDepth]

theorem parseFrame_stable [FloatText] : Stable parseFrame := parseFrameDepth_stable _

end Skeg.Resp3
