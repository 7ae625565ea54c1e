import Skeg.Core.Recovery
import Skeg.Core.Equiv.Segment
import Skeg.Lib.SegLog.Machine

/-!
# Blocks of records

An append writes a *block*: one record, or the header of an atomic batch followed by its members.
`dataRecs` are the records of a segment as the abstract log sees them, without the headers.  Recovery
applies exactly those of a segment that consists of whole blocks (`recovered_blocks`).
-/

namespace Skeg

open SegLog (Rec)

/-- A record as the abstract log sees it. -/
def absRec (r : Record) : Rec Bytes Bytes :=
  ⟨r.ts, r.key, if r.kind = .tombstone then none else some r.value⟩

def isData (p : Nat × Record) : Bool := p.2.kind ≠ .batchBegin

def dataRecs (ls : List (Nat × Record)) : List (Nat × Rec Bytes Bytes) :=
  (ls.filter isData).map fun p => (p.1, absRec p.2)

@[simp] theorem dataRecs_nil : dataRecs [] = [] := rfl

theorem dataRecs_append (ls ls' : List (Nat × Record)) :
    dataRecs (ls ++ ls') = dataRecs ls ++ dataRecs ls' := by
  simp [dataRecs]

theorem mem_dataRecs {ls : List (Nat × Record)} {o : Nat} {r : Rec Bytes Bytes} :
    (o, r) ∈ dataRecs ls ↔ ∃ x, (o, x) ∈ ls ∧ x.kind ≠ .batchBegin ∧ absRec x = r := by
  simp only [dataRecs, isData, List.mem_map, List.mem_filter, decide_eq_true_eq, Prod.mk.injEq,
    Prod.exists, ne_eq]
  constructor
  · rintro ⟨o', x, ⟨hx, hk⟩, rfl, rfl⟩
    exact ⟨x, hx, hk, rfl⟩
  · rintro ⟨x, hx, hk, rfl⟩
    exact ⟨o, x, ⟨hx, hk⟩, rfl, rfl⟩

/-! ### Offsets -/

section

variable [H : Hashes]

/-- The records of a layout lie between its ends. -/
theorem mem_layout {o : Nat} {rs : List Record} {p : Nat × Record} (hp : p ∈ layout o rs) :
    o ≤ p.1 ∧ p.1 + p.2.size ≤ o + (encodeAll rs).length ∧ p.2 ∈ rs := by
  induction rs generalizing o with
  | nil => cases hp
  | cons r rs ih =>
    rw [encodeAll_cons, List.length_append, r.length_encode]
    rcases List.mem_cons.mp hp with rfl | hp
    · simp
    · obtain ⟨h1, h2, h3⟩ := ih hp
      exact ⟨by omega, by omega, List.mem_cons_of_mem _ h3⟩

omit H in
theorem layout_sorted (o : Nat) (rs : List Record) :
    (layout o rs).Pairwise fun p q => p.1 < q.1 := by
  induction rs generalizing o with
  | nil => exact .nil
  | cons r rs ih =>
    refine List.pairwise_cons.mpr ⟨fun q hq => ?_, ih _⟩
    have hle : ∀ {o : Nat} {rs : List Record}, q ∈ layout o rs → o ≤ q.1 := by
      intro o rs
      induction rs generalizing o with
      | nil => intro h; cases h
      | cons r rs ih =>
        intro h
        rcases List.mem_cons.mp h with rfl | h
        · exact Nat.le_refl _
        · exact Nat.le_trans (Nat.le_add_right _ _) (ih h)
    have := hle hq
    have := r.size_pos
    omega

omit H in
theorem map_snd_layout (o : Nat) (rs : List Record) : (layout o rs).map Prod.snd = rs := by
  induction rs generalizing o with
  | nil => rfl
  | cons r rs ih => simp [layout, ih]

omit H in
/-- The records do not depend on where they are. -/
theorem map_snd_dataRecs_layout (o : Nat) (rs : List Record) :
    (dataRecs (layout o rs)).map Prod.snd = (rs.filter fun r => r.kind ≠ .batchBegin).map absRec := by
  induction rs generalizing o with
  | nil => rfl
  | cons r rs ih =>
    have := ih (o + r.size)
    by_cases hk : r.kind = .batchBegin <;> simp_all [layout, dataRecs, isData]

omit H in
theorem dataRecs_sorted (o : Nat) (rs : List Record) :
    (dataRecs (layout o rs)).Pairwise fun p q => p.1 < q.1 := by
  rw [dataRecs, List.pairwise_map]
  exact (layout_sorted o rs).filter _

/-- Appending behind a layout. -/
theorem dataRecs_layout_append (rs rs' : List Record) :
    dataRecs (layout 0 (rs ++ rs')) =
      dataRecs (layout 0 rs) ++ dataRecs (layout (encodeAll rs).length rs') := by
  rw [layout_append, dataRecs_append, Nat.zero_add]

theorem extends_dataRecs (rs rs' : List Record) :
    SegLog.Extends (dataRecs (layout 0 rs)) (dataRecs (layout (encodeAll rs).length rs')) := by
  rw [SegLog.Extends, ← dataRecs_layout_append]
  exact dataRecs_sorted 0 _

end

/-! ### Blocks -/

/-- What one append writes. -/
structure IsBlock (b : List Record) : Prop where
  wf : ∀ r ∈ b, r.Wf
  shape : (∃ r, b = [r] ∧ r.kind ≠ .batchBegin) ∨
    ∃ ts pairs, b = batchRecords ts pairs ∧ pairs ≠ [] ∧ pairs.length < 2 ^ 32

theorem batchMembers_length (ts : Nat) (pairs : List (Bytes × Bytes)) :
    (batchMembers ts pairs).length = pairs.length := by
  induction pairs generalizing ts with
  | nil => rfl
  | cons p pairs ih => simp [batchMembers, ih]

theorem batchMembers_kind {ts : Nat} {pairs : List (Bytes × Bytes)} {r : Record}
    (hr : r ∈ batchMembers ts pairs) : r.kind = .scalar := by
  induction pairs generalizing ts with
  | nil => cases hr
  | cons p pairs ih =>
    rcases List.mem_cons.mp hr with rfl | hr
    · rfl
    · exact ih hr

namespace BatchGate

theorem feedAll_append (g : BatchGate) (ps qs : List (Nat × Record)) :
    g.feedAll (ps ++ qs) =
      (((g.feedAll ps).1.feedAll qs).1, (g.feedAll ps).2 ++ ((g.feedAll ps).1.feedAll qs).2) := by
  induction ps generalizing g with
  | nil => rfl
  | cons p ps ih => simp [feedAll, ih]

/-- The last members of a batch release it. -/
theorem feedAll_members {n : Nat} {pending ps : List (Nat × Record)} (hne : ps ≠ [])
    (hdata : ∀ p ∈ ps, p.2.kind ≠ .batchBegin) (hn : pending.length + ps.length = n) :
    (⟨some n, pending⟩ : BatchGate).feedAll ps = (⟨none, []⟩, pending ++ ps) := by
  induction ps generalizing pending with
  | nil => exact absurd rfl hne
  | cons p ps ih =>
    have hp : p.2.kind ≠ .batchBegin := hdata p (by simp)
    rw [feedAll, feed, if_neg hp]
    cases ps with
    | nil =>
      have : (pending ++ [p]).length = n := by simpa using hn
      simp [this, feedAll]
    | cons q ps =>
      have : (pending ++ [p]).length ≠ n := by
        simp only [List.length_append, List.length_cons, List.length_nil] at hn ⊢
        omega
      simp only [if_neg this]
      rw [ih (by simp) (fun r hr => hdata r (List.mem_cons_of_mem _ hr))
        (by simp at hn ⊢; omega)]
      simp

/-- A whole block passes through a closed gate, without its header. -/
theorem feedAll_block {b : List Record} (hb : IsBlock b) (o : Nat) :
    (⟨none, []⟩ : BatchGate).feedAll (layout o b) = (⟨none, []⟩, (layout o b).filter isData) := by
  rcases hb.shape with ⟨r, rfl, hr⟩ | ⟨ts, pairs, rfl, hne, hlen⟩
  · simp [layout, feedAll, feed, hr, isData]
  · have hpos : 0 < pairs.length := List.length_pos_of_ne_nil hne
    have hann : announced ⟨ts, .batchBegin, [], toLE 4 pairs.length⟩ = pairs.length := by
      simp only [announced, length_toLE, Nat.lt_irrefl, if_false]
      rw [List.take_of_length_le (by simp), fromLE_toLE (by simpa using hlen)]
    have hdata : ∀ p ∈ layout (o + paddedRecordSize 0 4) (batchMembers (ts + 1) pairs),
        p.2.kind ≠ .batchBegin := by
      intro p hp
      have := List.mem_map_of_mem (f := Prod.snd) hp
      rw [map_snd_layout] at this
      rw [batchMembers_kind this]
      simp
    have hlay : (layout (o + paddedRecordSize 0 4) (batchMembers (ts + 1) pairs)).length =
        pairs.length := by
      rw [← List.length_map Prod.snd, map_snd_layout, batchMembers_length]
    have hl : layout o (batchRecords ts pairs) =
        (o, ⟨ts, .batchBegin, [], toLE 4 pairs.length⟩) ::
          layout (o + paddedRecordSize 0 4) (batchMembers (ts + 1) pairs) := by
      simp [batchRecords, layout, Record.size]
    have hf : (layout o (batchRecords ts pairs)).filter isData =
        layout (o + paddedRecordSize 0 4) (batchMembers (ts + 1) pairs) := by
      rw [hl, List.filter_cons_of_neg (by simp [isData])]
      exact List.filter_eq_self.mpr fun p hp => by simpa [isData] using hdata p hp
    rw [hf, hl, feedAll, feed, if_pos rfl, hann, if_pos hpos]
    simp only
    rw [feedAll_members (by rw [← List.length_pos_iff]; omega) hdata (by simpa using hlay)]
    simp

/-- Whole blocks leave the gate closed. -/
theorem feedAll_blocks {bs : List (List Record)} (hbs : ∀ b ∈ bs, IsBlock b) (o : Nat) [H : Hashes] :
    (⟨none, []⟩ : BatchGate).feedAll (layout o bs.flatten) =
      (⟨none, []⟩, (layout o bs.flatten).filter isData) := by
  induction bs generalizing o with
  | nil => rfl
  | cons b bs ih =>
    rw [List.flatten_cons, layout_append, feedAll_append, feedAll_block (hbs b (by simp)),
      ih (fun c hc => hbs c (by simp [hc])), List.filter_append]

end BatchGate

variable [H : Hashes]

theorem scanFile_blocks [LawfulHashes] {bs : List (List Record)} (hbs : ∀ b ∈ bs, IsBlock b)
    (n : Nat) : scanFile (encodeAll bs.flatten ++ zeros n) =
      (layout 0 bs.flatten, (encodeAll bs.flatten).length) := by
  refine scanFile_encodeAll (fun r hr => ?_) n
  obtain ⟨b, hb, hr⟩ := List.mem_flatten.mp hr
  exact (hbs b hb).wf r hr

/-- Recovery applies every record of a segment of whole blocks but the batch headers. -/
theorem recovered_blocks [LawfulHashes] {bs : List (List Record)} (hbs : ∀ b ∈ bs, IsBlock b)
    (n : Nat) : recovered (encodeAll bs.flatten ++ zeros n) = (layout 0 bs.flatten).filter isData := by
  rw [recovered, scanFile_blocks hbs]
  exact congrArg Prod.snd (BatchGate.feedAll_blocks hbs 0)

end Skeg
