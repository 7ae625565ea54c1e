import Skeg.Core.Hashes
import Skeg.Core.SnapshotFile

/-!
# The snapshot file is read back

`decode` finds an entry at a position exactly where an encoding of it stands (`decodeEntry_ok`, `decodeEntry_sound`).
By induction it reads every list of entries back, and the entries it returns for any buffer stand in the buffer one
behind the other.  It checks a length before it slices, so no slice ends behind the buffer.
-/

namespace Skeg.Snapshot

open Cursor

/-- The lengths and numbers of an entry are in the range of their fields. -/
structure EntryFits (p : Bytes × IndexEntry) : Prop where
  key : p.1.length < 2 ^ 32
  segmentId : p.2.segmentId < 2 ^ 16
  offset : p.2.offset < 2 ^ 32
  size : p.2.size < 2 ^ 32

structure Fits (sn : Snapshot) : Prop where
  hwm : sn.hwm < 2 ^ 16
  maxTs : sn.maxTs < 2 ^ 64
  count : sn.entries.length < 2 ^ 32
  entries : ∀ p ∈ sn.entries, EntryFits p

/-! ### Fields -/

variable {buf rest : Bytes} {w pos stop : Nat}

theorem readLE_ok (h : pos + w ≤ buf.length) : readLE w buf pos = .ok (leAt w buf pos) := by
  rw [readLE, sliceOf, if_pos h]
  rfl

theorem sliceOf_ok {len : Nat} (h : pos + len ≤ buf.length) : sliceOf buf pos len = .ok (slice buf pos len) :=
  if_pos h

/-- What is read at a position stands there. -/
theorem drop_eq_slice {len : Nat} : buf.drop pos = slice buf pos len ++ buf.drop (pos + len) := by
  rw [slice, ← List.drop_drop, List.take_append_drop]

theorem drop_eq_toLE (h : pos + w ≤ buf.length) : buf.drop pos = toLE w (leAt w buf pos) ++ buf.drop (pos + w) := by
  have hlen : ((buf.drop pos).take w).length = w := by
    rw [List.length_take, List.length_drop]
    omega
  rw [leAt, toLE_fromLE hlen]
  exact drop_eq_slice

theorem leAt_lt (h : pos + w ≤ buf.length) : leAt w buf pos < 256 ^ w := by
  have hlt := fromLE_lt ((buf.drop pos).take w)
  rwa [List.length_take, List.length_drop, Nat.min_eq_left (by omega)] at hlt

/-! ### Entries -/

theorem length_encodeEntry (p : Bytes × IndexEntry) : (encodeEntry p).length = p.1.length + 18 := by
  simp only [encodeEntry, List.length_append, length_toLE]
  omega

theorem decodeEntry_ok {p : Bytes × IndexEntry} (hp : EntryFits p) (hstop : stop ≤ buf.length)
    (h : buf.drop pos = encodeEntry p ++ rest) (hend : pos + (encodeEntry p).length ≤ stop) :
    decodeEntry buf stop pos = .ok (some (p, pos + (encodeEntry p).length)) := by
  obtain ⟨key, fingerprint, segmentId, offset, size⟩ := p
  rw [length_encodeEntry] at hend ⊢
  dsimp only at hend ⊢
  simp only [encodeEntry, List.append_assoc] at h
  have hkey := drop_toLE h
  have hfp := drop_add_length hkey
  have hseg := drop_toLE hfp
  have hoff := drop_toLE hseg
  have hsize := drop_toLE hoff
  rw [decodeEntry, if_neg (by omega), readLE_ok (by omega), leAt_eq hp.key h]
  simp only [bind, Except.bind]
  rw [if_neg (by omega), sliceOf_ok (by omega), slice_eq hkey]
  dsimp only
  rw [readLE_ok (by omega), readLE_ok (by omega), readLE_ok (by omega), readLE_ok (by omega),
    leAt_eq (UInt32.toNat_lt fingerprint) hfp, leAt_eq hp.segmentId hseg, leAt_eq hp.offset hoff,
    leAt_eq hp.size hsize]
  dsimp only
  rw [UInt32.ofNat_toNat, show pos + 4 + key.length + 14 = pos + (key.length + 18) by omega]
  rfl

/-- An entry that is found stands where it is looked for. -/
theorem decodeEntry_sound (hstop : stop ≤ buf.length) (pos : Nat) :
    ∃ r, decodeEntry buf stop pos = .ok r ∧ ∀ p next, r = some (p, next) →
      EntryFits p ∧ next ≤ stop ∧ buf.drop pos = encodeEntry p ++ buf.drop next := by
  rw [decodeEntry]
  by_cases hhead : pos + 4 > stop
  · rw [if_pos hhead]
    exact ⟨none, rfl, by rintro _ _ ⟨⟩⟩
  rw [if_neg hhead, readLE_ok (by omega)]
  simp only [bind, Except.bind]
  by_cases hfits : pos + 4 + leAt 4 buf pos + 14 > stop
  · rw [if_pos hfits]
    exact ⟨none, rfl, by rintro _ _ ⟨⟩⟩
  rw [if_neg hfits, sliceOf_ok (by omega)]
  dsimp only
  rw [readLE_ok (by omega), readLE_ok (by omega), readLE_ok (by omega), readLE_ok (by omega)]
  refine ⟨_, rfl, ?_⟩
  rintro p next ⟨⟩
  set klen := leAt 4 buf pos with hklen
  have hlen : (slice buf (pos + 4) klen).length = klen := by
    rw [slice, List.length_take, List.length_drop]
    omega
  have hfp : leAt 4 buf (pos + 4 + klen) < 2 ^ 32 := leAt_lt (by omega)
  refine ⟨⟨?_, leAt_lt (by omega), leAt_lt (by omega), leAt_lt (by omega)⟩, by omega, ?_⟩
  · rw [hlen, hklen]
    exact leAt_lt (by omega)
  · simp only [encodeEntry, List.append_assoc]
    have h₁ : buf.drop pos = toLE 4 klen ++ buf.drop (pos + 4) := drop_eq_toLE (by omega)
    have h₂ : buf.drop (pos + 4) = slice buf (pos + 4) klen ++ buf.drop (pos + 4 + klen) := drop_eq_slice
    have h₃ : buf.drop (pos + 4 + klen) = toLE 4 (leAt 4 buf (pos + 4 + klen)) ++ buf.drop (pos + 4 + klen + 4) :=
      drop_eq_toLE (by omega)
    have h₄ : buf.drop (pos + 4 + klen + 4) =
        toLE 2 (leAt 2 buf (pos + 4 + klen + 4)) ++ buf.drop (pos + 4 + klen + 6) := drop_eq_toLE (by omega)
    have h₅ : buf.drop (pos + 4 + klen + 6) =
        toLE 4 (leAt 4 buf (pos + 4 + klen + 6)) ++ buf.drop (pos + 4 + klen + 10) := drop_eq_toLE (by omega)
    have h₆ : buf.drop (pos + 4 + klen + 10) =
        toLE 4 (leAt 4 buf (pos + 4 + klen + 10)) ++ buf.drop (pos + 4 + klen + 14) := drop_eq_toLE (by omega)
    rw [hlen, UInt32.toNat_ofNat_of_lt' hfp, h₁, h₂, h₃, h₄, h₅, h₆]

theorem decodeEntries_ok {ps : List (Bytes × IndexEntry)} (hps : ∀ p ∈ ps, EntryFits p) (hstop : stop ≤ buf.length)
    (h : buf.drop pos = ps.flatMap encodeEntry ++ rest) (hend : pos + (ps.flatMap encodeEntry).length ≤ stop) :
    decodeEntries buf stop ps.length pos = .ok (some ps) := by
  induction ps generalizing pos with
  | nil => rfl
  | cons p ps ih =>
    rw [List.flatMap_cons, List.append_assoc] at h
    rw [List.flatMap_cons, List.length_append] at hend
    rw [List.length_cons, decodeEntries, decodeEntry_ok (hps p List.mem_cons_self) hstop h (by omega)]
    simp only [bind, Except.bind]
    rw [ih (fun q hq => hps q (List.mem_cons_of_mem _ hq)) (drop_add_length h) (by omega)]
    rfl

theorem decodeEntries_sound (hstop : stop ≤ buf.length) (n pos : Nat) :
    ∃ r, decodeEntries buf stop n pos = .ok r ∧ ∀ ps, r = some ps →
      ps.length = n ∧ (∀ p ∈ ps, EntryFits p) ∧ ∃ rest, buf.drop pos = ps.flatMap encodeEntry ++ rest := by
  induction n generalizing pos with
  | zero =>
    refine ⟨some [], rfl, ?_⟩
    rintro ps ⟨⟩
    exact ⟨rfl, by simp, buf.drop pos, rfl⟩
  | succ n ih =>
    rw [decodeEntries]
    obtain ⟨r, hr, hentry⟩ := decodeEntry_sound hstop pos
    rw [hr]
    simp only [bind, Except.bind]
    cases r with
    | none => exact ⟨none, rfl, by rintro _ ⟨⟩⟩
    | some q =>
      obtain ⟨p, next⟩ := q
      obtain ⟨hp, -, hat⟩ := hentry p next rfl
      obtain ⟨r, hr, hrest⟩ := ih next
      dsimp only
      rw [hr]
      refine ⟨r.map (p :: ·), rfl, fun ps hps => ?_⟩
      obtain ⟨ps, hsome, rfl⟩ := Option.map_eq_some_iff.mp hps
      obtain ⟨hlen, hfits, rest, hdrop⟩ := hrest ps hsome
      refine ⟨by rw [List.length_cons, hlen], ?_, rest, ?_⟩
      · intro q hq
        obtain rfl | hq := List.mem_cons.mp hq
        · exact hp
        · exact hfits q hq
      · rw [hat, hdrop, List.flatMap_cons, List.append_assoc]

/-! ### Files -/

theorem length_body (hwm maxTs : Nat) (entries : List (Bytes × IndexEntry)) :
    (body hwm maxTs entries).length = headerLen + (entries.flatMap encodeEntry).length := by
  simp only [body, List.length_append, length_toLE, headerLen]
  omega

theorem decodeBody_ok {sn : Snapshot} (h : sn.Fits) (hrest : rest.length = 4)
    (hbuf : buf = body sn.hwm sn.maxTs sn.entries ++ rest) : decodeBody buf = .ok (some sn) := by
  have hlen : buf.length = headerLen + (sn.entries.flatMap encodeEntry).length + 4 := by
    rw [hbuf, List.length_append, length_body, hrest]
  have hmagic : buf.drop 0 = body sn.hwm sn.maxTs sn.entries ++ rest := hbuf
  simp only [body, List.append_assoc] at hmagic
  have hversion := drop_toLE hmagic
  have hhwm := drop_toLE hversion
  have hts := drop_toLE hhwm
  have hcount := drop_toLE hts
  have hentries := drop_toLE hcount
  have hread := decodeEntries_ok h.entries (Nat.sub_le buf.length 4) hentries
    (show headerLen + (sn.entries.flatMap encodeEntry).length ≤ buf.length - 4 by omega)
  rw [headerLen] at hlen
  rw [decodeBody, readLE_ok (by omega), leAt_eq (by decide) hmagic]
  simp only [bind, Except.bind]
  rw [if_neg (by simp), readLE_ok (by omega), leAt_eq (by decide) hversion]
  dsimp only
  rw [if_neg (by simp), readLE_ok (by omega), readLE_ok (by omega), readLE_ok (by omega), leAt_eq h.hwm hhwm,
    leAt_eq h.maxTs hts, leAt_eq h.count hcount]
  dsimp only
  rw [show headerLen = 0 + 4 + 1 + 2 + 8 + 4 from rfl, hread]
  rfl

theorem decodeBody_sound (hlen : headerLen + 4 ≤ buf.length) : ∃ r, decodeBody buf = .ok r ∧ ∀ sn, r = some sn →
    sn.Fits ∧ body sn.hwm sn.maxTs sn.entries <+: buf := by
  have hread : ∀ w pos, pos + w ≤ headerLen → readLE w buf pos = .ok (leAt w buf pos) := fun w pos h =>
    readLE_ok (by omega)
  rw [decodeBody, hread 4 0 (by decide)]
  simp only [bind, Except.bind]
  by_cases hmagic : leAt 4 buf 0 = magic
  swap
  · rw [if_pos hmagic]
    exact ⟨none, rfl, by rintro _ ⟨⟩⟩
  rw [if_neg (by simpa using hmagic), hread 1 4 (by decide)]
  dsimp only
  by_cases hversion : leAt 1 buf 4 = version
  swap
  · rw [if_pos hversion]
    exact ⟨none, rfl, by rintro _ ⟨⟩⟩
  rw [if_neg (by simpa using hversion), hread 2 5 (by decide), hread 8 7 (by decide), hread 4 15 (by decide)]
  dsimp only
  obtain ⟨r, hr, hentries⟩ := decodeEntries_sound (Nat.sub_le buf.length 4) (leAt 4 buf 15) headerLen
  rw [hr]
  refine ⟨r.map fun entries => ⟨leAt 2 buf 5, leAt 8 buf 7, entries⟩, rfl, fun sn hsn => ?_⟩
  obtain ⟨entries, hsome, rfl⟩ := Option.map_eq_some_iff.mp hsn
  obtain ⟨hcount, hfits, rest, hdrop⟩ := hentries entries hsome
  have hfield : ∀ w pos, pos + w ≤ headerLen → buf.drop pos = toLE w (leAt w buf pos) ++ buf.drop (pos + w) :=
    fun w pos h => drop_eq_toLE (by omega)
  have hlt : ∀ w pos, pos + w ≤ headerLen → leAt w buf pos < 256 ^ w := fun w pos h => leAt_lt (by omega)
  refine ⟨⟨hlt 2 5 (by decide), hlt 8 7 (by decide), ?_, hfits⟩, rest, ?_⟩
  · rw [hcount]
    exact hlt 4 15 (by decide)
  · have h₁ := hfield 4 0 (by decide)
    have h₂ := hfield 1 4 (by decide)
    have h₃ := hfield 2 5 (by decide)
    have h₄ := hfield 8 7 (by decide)
    have h₅ := hfield 4 15 (by decide)
    rw [hmagic] at h₁
    rw [hversion] at h₂
    simp only [body, List.append_assoc, hcount]
    rw [← hdrop, show headerLen = 15 + 4 from rfl, ← h₅, show 15 = 7 + 8 from rfl, ← h₄, show 7 = 5 + 2 from rfl,
      ← h₃, show 5 = 4 + 1 from rfl, ← h₂, show 4 = 0 + 4 from rfl, ← h₁]
    rfl

/-- A snapshot is read back from its file, and a buffer that is read as a snapshot starts with its encoding. -/
theorem snapshot_read_back [Hashes] :
    (∀ sn : Snapshot, sn.Fits → decode (encode sn.hwm sn.maxTs sn.entries) = .ok (some sn)) ∧
    ∀ buf, ∃ r, decode buf = .ok r ∧ ∀ sn, r = some sn → sn.Fits ∧ body sn.hwm sn.maxTs sn.entries <+: buf := by
  constructor
  · intro sn h
    set covered := body sn.hwm sn.maxTs sn.entries with hcovered
    have hlen : (encode sn.hwm sn.maxTs sn.entries).length = covered.length + 4 := by
      rw [encode, List.length_append, length_toLE]
    have hheader : headerLen ≤ covered.length := by
      rw [hcovered, length_body]
      exact Nat.le_add_right _ _
    have hcrc : (encode sn.hwm sn.maxTs sn.entries).drop covered.length = toLE 4 (crc32c covered).toNat ++ [] := by
      rw [encode, List.drop_left, List.append_nil]
    rw [decode, if_neg (by omega), hlen, Nat.add_sub_cancel, readLE_ok (by omega),
      leAt_eq (UInt32.toNat_lt _) hcrc, sliceOf_ok (by omega)]
    simp only [bind, Except.bind]
    have hslice : slice (encode sn.hwm sn.maxTs sn.entries) 0 covered.length = covered := slice_eq rfl
    rw [hslice, if_neg (by simp)]
    exact decodeBody_ok h (length_toLE 4 _) rfl
  · intro buf
    rw [decode]
    by_cases hshort : buf.length < headerLen + 4
    · rw [if_pos hshort]
      exact ⟨none, rfl, by rintro _ ⟨⟩⟩
    rw [if_neg hshort, readLE_ok (by omega), sliceOf_ok (by omega)]
    simp only [bind, Except.bind]
    by_cases hcrc : (crc32c (slice buf 0 (buf.length - 4))).toNat = leAt 4 buf (buf.length - 4)
    · rw [if_neg (by simpa using hcrc)]
      exact decodeBody_sound (by omega)
    · rw [if_pos hcrc]
      exact ⟨none, rfl, by rintro _ ⟨⟩⟩

section

attribute [local instance] linkedHashes

theorem snapshot_read_back_oneEntry :
    decode (encode 3 9 [([107], ⟨5, 2, 128, 256⟩)]) = .ok (some ⟨3, 9, [([107], ⟨5, 2, 128, 256⟩)]⟩) :=
  snapshot_read_back.1 ⟨3, 9, [([107], ⟨5, 2, 128, 256⟩)]⟩ ⟨by decide, by decide, by decide,
    List.forall_mem_singleton.mpr ⟨by decide, by decide, by decide, by decide⟩⟩

end

end Skeg.Snapshot
