import Skeg.Core.Segment
import Skeg.Core.Equiv.Record

/-!
# Writes to a file

A write changes the content in its own range only (`take_overwrite`), where it puts the bytes written
(`take_drop_overwrite`).  `HasAt` says what a range has.
-/

namespace Skeg

namespace File

variable {content bytes : Bytes} {offset : Nat}

@[simp] theorem overwrite_nil : overwrite content offset [] = content := if_pos rfl

@[simp] theorem content_sync (f : File) : f.sync.content = f.content := rfl

theorem content_writeAt (f : File) (offset : Nat) (bytes : Bytes) :
    (f.writeAt offset bytes).content = overwrite f.content offset bytes := by
  by_cases h : bytes = []
  · subst h
    simp [content, writeAt]
  · have hle := f.le_len
    have hlen : (f.writeAt offset bytes).len = max f.len (offset + bytes.length) := if_neg h
    have hdata : (f.writeAt offset bytes).data.length = max f.data.length (offset + bytes.length) :=
      length_overwrite offset h
    have hfront : f.content.take offset ++ zeros (offset - f.content.length) =
        f.data.take offset ++ zeros (offset - f.data.length) := by
      rw [content, List.take_append, take_zeros, List.append_assoc, ← zeros_add]
      congr 2
      simp
      omega
    have hback : f.content.drop (offset + bytes.length) = f.data.drop (offset + bytes.length) ++
        zeros ((f.writeAt offset bytes).len - (f.writeAt offset bytes).data.length) := by
      rw [content, List.drop_append, drop_zeros, hlen, hdata]
      congr 2
      omega
    rw [overwrite, if_neg h, hfront, hback, content, show (f.writeAt offset bytes).data = _ from if_neg h]
    simp only [List.append_assoc]

theorem take_overwrite (bytes : Bytes) {k : Nat} (hk : k ≤ offset) (hlen : k ≤ content.length) :
    (overwrite content offset bytes).take k = content.take k := by
  unfold overwrite
  split_ifs
  · rfl
  · rw [List.append_assoc, List.append_assoc, List.take_append_of_le_length (by simp; omega), List.take_take,
      Nat.min_eq_left hk]

theorem take_drop_overwrite (content : Bytes) (offset : Nat) (bytes : Bytes) :
    ((overwrite content offset bytes).drop offset).take bytes.length = bytes := by
  unfold overwrite
  split_ifs with h
  · simp [h]
  · have hfront : (content.take offset ++ zeros (offset - content.length)).length = offset := by
      simp
      omega
    rw [List.append_assoc, List.drop_append_of_le_length (by omega), List.drop_of_length_le (by omega),
      List.nil_append, List.take_left]

/-- The range from `offset` on has exactly the bytes `data`. -/
def HasAt (content : Bytes) (offset : Nat) (data : Bytes) : Prop :=
  (content.drop offset).take data.length = data

/-- A write behind the range leaves it. -/
theorem HasAt.overwrite {content data bytes : Bytes} {offset pos : Nat} (h : HasAt content offset data)
    (hle : offset + data.length ≤ pos) : HasAt (overwrite content pos bytes) offset data := by
  by_cases hempty : data = []
  · simp [HasAt, hempty]
  · have hpos := List.length_pos_of_ne_nil hempty
    have hlen : offset + data.length ≤ content.length := by
      have := congrArg List.length h
      simp only [List.length_take, List.length_drop] at this
      omega
    have htake := take_overwrite bytes hle hlen
    unfold HasAt at h ⊢
    rw [show data.length = offset + data.length - offset by omega, ← List.drop_take] at h ⊢
    rw [htake]
    exact h

end File

end Skeg
