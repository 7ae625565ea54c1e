import Skeg.Vector.TierCache
import Skeg.Vector.Equiv.Opened

/-!
# Whose codes are mapped

A cache file of the right size is taken for the codes of the rows.  So the file holds the codes of the last base that
was mapped (`Tracks`), and a base is mapped correctly if it differs from that one in its number of rows, or not at all
in its codes (`Distinguished`).
-/

namespace Skeg

namespace Vector

namespace TierCodec

variable (c : TierCodec)

theorem length_flatMap_encode (rows l : List Vec) : (l.flatMap (c.encode rows)).length = l.length * c.codeBytes := by
  induction l with
  | nil => rw [List.flatMap_nil, List.length_nil, List.length_nil, Nat.zero_mul]
  | cons v l ih =>
    rw [List.flatMap_cons, List.length_append, c.length_encode, ih, List.length_cons, Nat.succ_mul, Nat.add_comm]

theorem length_codes (rows : List Vec) : (c.codes rows).length = rows.length * c.codeBytes :=
  c.length_flatMap_encode rows rows

/-- The bytes of one row in the codes of a list. -/
theorem slice_flatMap_encode (rows : List Vec) {l : List Vec} {i : Nat} {v : Vec} (h : l[i]? = some v) :
    ((l.flatMap (c.encode rows)).drop (i * c.codeBytes)).take c.codeBytes = c.encode rows v := by
  induction l generalizing i with
  | nil => cases h
  | cons w l ih =>
    rw [List.flatMap_cons]
    cases i with
    | zero =>
      obtain rfl : w = v := Option.some.inj h
      rw [Nat.zero_mul, List.drop_zero, ← c.length_encode rows w]
      exact List.take_left
    | succ i =>
      have hskip : (i + 1) * c.codeBytes = (c.encode rows w).length + i * c.codeBytes := by
        rw [c.length_encode, Nat.succ_mul, Nat.add_comm]
      rw [hskip, ← List.drop_drop, List.drop_left]
      exact ih h

end TierCodec

variable {c : TierCodec}

theorem current_codes (c : TierCodec) (rows : List Vec) : (Mapped.mk rows (c.codes rows)).Current c := by
  rintro ⟨v, i⟩ hp
  exact c.slice_flatMap_encode rows (List.mem_zipIdx_iff_getElem?.mp hp)

/-- The rows of the last open that mapped any. -/
def lastMapped (h : List Mapped) : Option (List Vec) := ((h.map Mapped.rows).filter (· ≠ [])).getLast?

theorem lastMapped_snoc (h : List Mapped) (e : Mapped) :
    lastMapped (h ++ [e]) = if e.rows = [] then lastMapped h else some e.rows := by
  rw [lastMapped, List.map_append, List.filter_append, List.map_cons, List.map_nil]
  split_ifs with hempty
  · rw [List.filter_cons_of_neg (by simp [hempty]), List.filter_nil, List.append_nil]
    rfl
  · rw [List.filter_cons_of_pos (by simp [hempty]), List.filter_nil, List.getLast?_append, List.getLast?_singleton]
    rfl

/-- Everything mapped so far is current, and the cache file holds the codes of the last rows that were mapped. -/
structure Tracks (c : TierCodec) (h : List Mapped) (cache : Option Bytes) : Prop where
  current : ∀ e ∈ h, e.Current c
  cached : ∀ file ∈ cache, ∃ last ∈ lastMapped h, file = c.codes last

/-- One swap, for rows that the size of the file distinguishes from the last ones. -/
theorem Tracks.swap {h : List Mapped} {cache : Option Bytes} (ht : Tracks c h cache) {rows : List Vec}
    (hnew : ∀ last ∈ lastMapped h, rows.length ≠ last.length ∨ c.codes rows = c.codes last) :
    Tracks c (h ++ [⟨rows, (swapTurboquantCodesToMmap cache (c.codes rows)).2⟩])
      (swapTurboquantCodesToMmap cache (c.codes rows)).1 := by
  have hgrow : ∀ {bytes}, bytes = c.codes rows → ∀ e ∈ h ++ [⟨rows, bytes⟩], e.Current c := by
    rintro bytes rfl e he
    rcases List.mem_append.mp he with he | he
    · exact ht.current e he
    · exact List.mem_singleton.mp he ▸ current_codes c rows
  have hlen := c.length_codes rows
  unfold swapTurboquantCodesToMmap
  split_ifs with hzero
  · refine ⟨hgrow rfl, fun file hfile => ?_⟩
    obtain ⟨last, hlast, rfl⟩ := ht.cached file hfile
    rw [lastMapped_snoc]
    split_ifs with hempty
    · exact ⟨last, hlast, rfl⟩
    · -- rows without codes: a code has no bytes, and neither had the last ones
      have hbytes : c.codeBytes = 0 := by
        rcases Nat.mul_eq_zero.mp (hlen.symm.trans hzero) with hrows | hbytes
        · exact absurd (List.eq_nil_of_length_eq_zero hrows) hempty
        · exact hbytes
      have hlast0 := c.length_codes last
      rw [hbytes, Nat.mul_zero] at hlast0
      exact ⟨rows, rfl, by rw [List.eq_nil_of_length_eq_zero hlast0, List.eq_nil_of_length_eq_zero hzero]⟩
  · have hrows : rows ≠ [] := by
      rintro rfl
      exact hzero rfl
    have hwrite : ∀ file ∈ some (c.codes rows), ∃ last ∈ lastMapped (h ++ [⟨rows, c.codes rows⟩]),
        file = c.codes last := by
      rintro file ⟨⟩
      exact ⟨rows, by rw [lastMapped_snoc, if_neg hrows]; rfl, rfl⟩
    cases hcache : cache with
    | none => exact ⟨hgrow rfl, hwrite⟩
    | some file =>
      obtain ⟨last, hlast, rfl⟩ := ht.cached file hcache
      dsimp only
      split_ifs with hsize
      · exact ⟨hgrow rfl, hwrite⟩
      · have hsame : c.codes last = c.codes rows := by
          rcases hnew last hlast with hne | heq
          · -- other lengths are other sizes
            rw [not_not, hlen, c.length_codes last] at hsize
            exact absurd (Nat.eq_of_mul_eq_mul_right (Nat.pos_of_ne_zero fun hb => hzero (by rw [hlen, hb]; rfl)) hsize).symm
              hne
          · exact heq.symm
        rw [hsame]
        exact ⟨hgrow rfl, hwrite⟩

section

variable [H : Hashes] [N : Numerics]

/-- An open that maps codes finds another number of rows than the last one that did, or the same codes. -/
def Distinguished (c : TierCodec) (h : List Mapped) (s : TierSys) : TierAct → Prop
  | .act _ => True
  | .openMmap => ∀ last ∈ lastMapped h, ∀ rows ∈ s.baseRows, rows.length ≠ last.length ∨ c.codes rows = c.codes last

omit H N in
instance (c : TierCodec) (h : List Mapped) (s : TierSys) (a : TierAct) : Decidable (Distinguished c h s a) :=
  match a with
  | .act _ => inferInstanceAs (Decidable True)
  | .openMmap => inferInstanceAs (Decidable (∀ last ∈ lastMapped h, ∀ rows ∈ s.baseRows, _))

/-- A reopened index has the rows of `vectors.bin`. -/
theorem baseRows_of_reopen {s : TierSys} {r : Sys × List Event} (h : s.sys.step .reopen = some r) :
    r.1.index.base.quant ∈ s.baseRows := by
  rw [Sys.step, Sys.exec] at h
  cases hopen : openIndex s.sys.dir .base s.sys.index.tier with
  | error e =>
    rw [hopen] at h
    cases h
  | ok x =>
    rw [hopen] at h
    obtain rfl := Option.some.inj h
    obtain ⟨g, hseg, -⟩ := (openIndex_ok hopen).2.1.opened
    rw [TierSys.baseRows, hseg]
    rfl

theorem Tracks.step {h : List Mapped} {s s' : TierSys} {a : TierAct} {ev : List Mapped} (ht : Tracks c h s.cache)
    (ha : Distinguished c h s a) (hstep : s.step c a = some (s', ev)) : Tracks c (h ++ ev) s'.cache := by
  cases a with
  | act a =>
    obtain ⟨r, -, hr⟩ := Option.map_eq_some_iff.mp hstep
    cases hr
    rwa [List.append_nil]
  | openMmap =>
    obtain ⟨r, hopen, hr⟩ := Option.map_eq_some_iff.mp hstep
    have hrows := baseRows_of_reopen hopen
    split at hr
    · cases hr
      exact ht.swap fun last hlast => ha last hlast _ hrows
    · cases hr
      rwa [List.append_nil]

/-- Whatever happens to an index, each open with `mmap_tier` maps the codes of its rows, if it finds another number of
rows than the last such open or the same codes. -/
theorem mapped_codes_current {s₀ : Sys} {h : List Mapped} {s : TierSys}
    (hrun : Transition.Run (TierSys.step c) (Distinguished c) [] ⟨s₀, none⟩ h s) : ∀ e ∈ h, e.Current c := by
  have htracks : Tracks c h s.cache := hrun.invariant (fun h s => Tracks c h s.cache)
    ⟨fun _ he => absurd he List.not_mem_nil, fun _ hfile => by cases hfile⟩
    fun _ _ _ _ _ ht ha hstep => ht.step ha hstep
  exact htracks.current

end

section

attribute [local instance] linkedHashes exactNumerics

/-- The sign bits of a vector in eight dimensions, the code of a one-bit tier that does not rotate. -/
def signCodec : TierCodec where
  codeBytes := 1
  encode _ v := [UInt8.ofNat (v.foldl (fun bits x => bits * 2 + x.toNat / 2 ^ 31) 0)]
  length_encode _ _ := rfl

def positive : Vec := List.replicate 8 0x3f800000

def negative : Vec := List.replicate 8 0xbf800000

/-- A fixed list of actions on an index that was just opened and has no cache file. -/
theorem exists_tier_run (d : Dir) (tier : QuantKind) {P : List Mapped → TierSys → TierAct → Prop}
    [∀ h s a, Decidable (P h s a)] (Q : List Mapped → TierSys → Prop) [∀ h s, Decidable (Q h s)] (as : List TierAct)
    (h : ((Sys.opened d tier).bind fun s => Transition.exec (TierSys.step signCodec) P [] ⟨s, none⟩ as).any
      (fun r => Q r.1 r.2) = true) :
    ∃ s₀ hist s, Sys.opened d tier = some s₀ ∧
      Transition.Run (TierSys.step signCodec) P [] ⟨s₀, none⟩ hist s ∧ Q hist s :=
  Transition.exists_run_of_bind Q (⟨·, none⟩) as h

/-- A base of one row is mapped, then one of two. -/
theorem mapped_codes_current_grown : ∃ s₀ h s, Sys.opened (Dir.created 8 64) (.turboQuant 1) = some s₀ ∧
    Transition.Run (TierSys.step signCodec) (Distinguished signCodec) [] ⟨s₀, none⟩ h s ∧ h.length = 2 ∧
      ∀ e ∈ h, e.Current signCodec := by
  obtain ⟨s₀, h, s, hopen, hrun, hlen⟩ := exists_tier_run (Dir.created 8 64) (.turboQuant 1)
    (fun h _ => h.length = 2)
    [.act (.insert 7 positive), .act .consolidate, .openMmap, .act (.insert 8 negative), .act .consolidate, .openMmap]
    (show (Option.bind _ fun s => Transition.exec (TierSys.step signCodec) (Distinguished signCodec) [] ⟨s, none⟩ _).any
      _ = true by decide +kernel)
  exact ⟨s₀, h, s, hopen, hrun, hlen, mapped_codes_current hrun⟩

/-- The one row is overwritten and consolidated between two opens: the second maps the code of the old vector. -/
theorem overwritten_row_keeps_code : ∃ s₀ h s, Sys.opened (Dir.created 8 64) (.turboQuant 1) = some s₀ ∧
    Transition.Run (TierSys.step signCodec) (fun _ _ _ => True) [] ⟨s₀, none⟩ h s ∧
      ∃ e ∈ h, e.rows = [negative] ∧ e.bytes = signCodec.encode [positive] positive ∧ ¬ e.Current signCodec :=
  exists_tier_run (Dir.created 8 64) (.turboQuant 1)
    (fun h _ => ∃ e ∈ h, e.rows = [negative] ∧ e.bytes = signCodec.encode [positive] positive ∧ ¬ e.Current signCodec)
    [.act (.insert 7 positive), .act .consolidate, .openMmap, .act (.insert 7 negative), .act .consolidate, .openMmap]
    (show (Option.bind _ fun s => Transition.exec (TierSys.step signCodec) (fun _ _ _ => True) [] ⟨s, none⟩ _).any
      _ = true by decide +kernel)

end

end Vector

end Skeg
