import Skeg.Vector.Equiv.Views

/-!
# Segments as they are opened

`Opened` is a segment as it is read from its files.  Opening an index gives such a base, and the router that the file
beside it has (`openIndex_ok`).
-/

namespace Skeg

namespace Vector

variable {d d' : Dir} {p : Place} {tier : QuantKind}

/-! ### Reading segments -/

theorem readU32_lt (b : Bytes) (i : Nat) : readU32 b i < 2 ^ 32 := by
  have hlt := fromLE_lt ((b.drop i).take 4)
  have hlen : ((b.drop i).take 4).length ≤ 4 := by simp
  calc readU32 b i < 256 ^ ((b.drop i).take 4).length := hlt
    _ ≤ 256 ^ 4 := Nat.pow_le_pow_right (by decide) hlen

theorem readGraph_ok {b : Bytes} {g : Graph} (h : readGraph b = .ok g) :
    g.ids.length < 2 ^ 32 ∧ g.dim = readU32 b 12 := by
  rw [readGraph] at h
  split at h
  · cases h
  · dsimp only at h
    split at h
    · cases h
    · rename_i ids rest hids
      split at h
      · cases h
      · obtain rfl := Except.ok.inj h
        refine ⟨?_, rfl⟩
        rw [List.length_map, length_of_readLEs hids]
        exact readU32_lt b 8

theorem readVectors_ok {b : Bytes} {n dim : Nat} {rows : List Vec} (h : readVectors b n dim = .ok rows) :
    (List.range n).mapM (readVector b dim) = .ok rows := by
  rw [readVectors] at h
  split_ifs at h
  exact h

/-- A segment as it was opened from its files. -/
structure Opened (d : Dir) (p : Place) (dim : Nat) (s : Segment) : Prop where
  opened : ∃ g, openSegment d p = .ok (g, s) ∧ g.dim = dim
  rows : (List.range s.mainN).mapM (readVector ((d .vectors).data s.file) dim) = .ok s.quant
  entry : (d .vectors).entry p = some s.file
  mainN_lt : s.mainN < 2 ^ 32
  dim_lt : dim < 2 ^ 32

theorem opened_of_openSegment {g : Graph} {s : Segment} (h : openSegment d p = .ok (g, s)) :
    Opened d p g.dim s := by
  have hopen := h
  rw [openSegment] at h
  split at h
  · cases h
  · split at h
    · cases h
    · rename_i bytes _ _ g' hg
      split at h
      · cases h
      · rename_i file hfile
        split at h
        · cases h
        · rename_i rows hrows
          obtain ⟨rfl, rfl⟩ := Prod.mk.inj (Except.ok.inj h)
          obtain ⟨hids, hdim⟩ := readGraph_ok hg
          exact ⟨⟨g', hopen, rfl⟩, readVectors_ok hrows, hfile, hids, hdim ▸ readU32_lt _ _⟩

/-! ### Opening an index -/

section

variable [H : Hashes]

theorem openIndex_ok {x : Index} (h : openIndex d p tier = .ok (d', x)) :
    d' = openedDir d p ∧ Opened d p x.dim x.base ∧ x.ivf = loadIvf d p x.base := by
  rw [openIndex] at h
  split at h
  · cases h
  · rename_i g base hopen
    split at h
    · cases h
    · split at h
      · cases h
      · rename_i format ops _
        obtain ⟨hdir, hx⟩ := Prod.mk.inj (Except.ok.inj h)
        obtain ⟨δ, φ, τ, n, heq⟩ := Index.replayWalOps_eq
          (freshIndex g base tier ((d .log).openAppend p).2 format) ops
        have hbase : x.base = base := by rw [← hx]; exact congrArg Index.base heq
        have hdim : x.dim = g.dim := by rw [← hx]; exact congrArg Index.dim heq
        have hivf : x.ivf = loadIvf d p base := by rw [← hx]
        rw [hbase, hdim]
        exact ⟨hdir.symm, opened_of_openSegment hopen, hivf⟩

end

end Vector

end Skeg
