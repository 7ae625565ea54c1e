import Skeg.Tenant.Root
import Skeg.Core.Equiv.Text
import Mathlib.Algebra.BigOperators.Group.List.Basic

/-!
# Which tenants are listed

For every directory, the listing is right exactly if no name is cut inside a character and no directory has an id in
another spelling than that of `tenant_dir` (`listTenants_exact_iff`).

The names are read in pairs of bytes.  `hexBytes` is what a name stands for if no slice is cut, and `Cut` says that one
is: `hexPairs` is the two together (`hexPairs_of_cut`, `hexPairs_of_not_cut`).  The digits of `tenant_dir` read back,
but so do upper-case letters and a plus sign in front of a single digit, and there are no others
(`digits_of_hexBytes`).
-/

/-! ### Hexadecimal digits read back -/

namespace Skeg.Server

theorem sum_utf8Size {cs : List Char} (hascii : ∀ c ∈ cs, c.utf8Size = 1) : (cs.map Char.utf8Size).sum = cs.length := by
  rw [List.map_congr_left hascii, List.map_const', List.sum_replicate]
  simp

namespace Shard

/-- A byte in hexadecimal reads back and has no colon. -/
theorem hexByte_digits (b : UInt8) :
    hexByte (Nat.digitChar (b.toNat / 16)) (Nat.digitChar (b.toNat % 16)) = some b ∧
      ':' ∉ [Nat.digitChar (b.toNat / 16), Nat.digitChar (b.toNat % 16)] := by
  have hall : ∀ n : Fin 256, hexByte (Nat.digitChar (n.val / 16)) (Nat.digitChar (n.val % 16)) =
      some (UInt8.ofNat n.val) ∧ ':' ∉ [Nat.digitChar (n.val / 16), Nat.digitChar (n.val % 16)] := by
    decide +kernel
  have hb := hall ⟨b.toNat, b.toNat_lt⟩
  rwa [UInt8.ofNat_toNat] at hb

theorem hexBytes_digits (bs : Bytes) :
    hexBytes (bs.flatMap fun b => [Nat.digitChar (b.toNat / 16), Nat.digitChar (b.toNat % 16)]) = some bs := by
  induction bs with
  | nil => rfl
  | cons b bs ih =>
    rw [List.flatMap_cons]
    simp only [List.cons_append, List.nil_append, hexBytes, (hexByte_digits b).1, ih, Option.bind_some,
      Option.map_some]

end Shard

end Skeg.Server

namespace Skeg.Tenant

open Server (TenantId hexDigit hexByte hexBytes hexPairs splitBytes fromStrRadix16)

/-! ### Digits -/

theorem toNat_lt_of_hexDigit {c : Char} {n : Nat} (h : hexDigit c = some n) : c.toNat < 128 := by
  simp only [hexDigit] at h
  split_ifs at h <;> omega

theorem utf8Size_eq_one {c : Char} (h : c.toNat < 128) : c.utf8Size = 1 := by
  have hval : c.val.toNat ≤ 127 := Nat.le_of_lt_succ h
  exact if_pos hval

theorem toNat_lt_of_hexByte {a b : Char} {x : UInt8} (h : hexByte a b = some x) : a.toNat < 128 ∧ b.toNat < 128 := by
  rw [hexByte] at h
  split_ifs at h with hplus
  · obtain ⟨n, hn, -⟩ := Option.map_eq_some_iff.mp h
    exact ⟨hplus ▸ (by decide), toNat_lt_of_hexDigit hn⟩
  · obtain ⟨m, hm, h⟩ := Option.bind_eq_some_iff.mp h
    obtain ⟨n, hn, -⟩ := Option.map_eq_some_iff.mp h
    exact ⟨toNat_lt_of_hexDigit hm, toNat_lt_of_hexDigit hn⟩

/-- A character that is in no name of a tenant's directory, though it may stand for a part of an id. -/
def Foreign (c : Char) : Prop := c = '+' ∨ 'A' ≤ c ∧ c ≤ 'F'

instance decidableForeign (c : Char) : Decidable (Foreign c) := inferInstanceAs (Decidable (_ ∨ _))

theorem digitChar_of_hexDigit {c : Char} {n : Nat} (h : hexDigit c = some n) (hforeign : ¬Foreign c) :
    n < 16 ∧ Nat.digitChar n = c := by
  have hall : ∀ i : Fin 128, ∀ n ∈ hexDigit (Char.ofNat i), ¬Foreign (Char.ofNat i) →
      n < 16 ∧ Nat.digitChar n = Char.ofNat i := by
    decide +kernel
  have hc := hall ⟨c.toNat, toNat_lt_of_hexDigit h⟩ n
  rw [Char.ofNat_toNat] at hc
  exact hc h hforeign

/-- The digits of `format!("{b:02x}")`. -/
def byteDigits (b : UInt8) : List Char := [Nat.digitChar (b.toNat / 16), Nat.digitChar (b.toNat % 16)]

theorem byteDigits_spec (b : UInt8) : ∀ c ∈ byteDigits b, c.toNat < 128 ∧ ¬Foreign c := by
  have hall : ∀ n : Fin 16, (Nat.digitChar n).toNat < 128 ∧ ¬Foreign (Nat.digitChar n) := by decide
  have hb := b.toNat_lt
  simp only [byteDigits, List.mem_cons, List.not_mem_nil, or_false]
  rintro c (rfl | rfl)
  · exact hall ⟨b.toNat / 16, by omega⟩
  · exact hall ⟨b.toNat % 16, by omega⟩

theorem byteDigits_of_hexByte {a b : Char} {x : UInt8} (h : hexByte a b = some x) (ha : ¬Foreign a) (hb : ¬Foreign b) :
    byteDigits x = [a, b] := by
  rw [hexByte, if_neg fun hplus => ha (.inl hplus)] at h
  obtain ⟨m, hm, h⟩ := Option.bind_eq_some_iff.mp h
  obtain ⟨n, hn, rfl⟩ := Option.map_eq_some_iff.mp h
  obtain ⟨hmlt, rfl⟩ := digitChar_of_hexDigit hm ha
  obtain ⟨hnlt, rfl⟩ := digitChar_of_hexDigit hn hb
  have hx : (UInt8.ofNat (16 * m + n)).toNat = 16 * m + n := by
    rw [UInt8.toNat_ofNat']
    omega
  rw [byteDigits, hx, show (16 * m + n) / 16 = m by omega, show (16 * m + n) % 16 = n by omega]

/-- What is read, and has no foreign character, is the digits of what it stands for. -/
theorem digits_of_hexBytes {cs : List Char} {bs : Bytes} (h : hexBytes cs = some bs) (hforeign : ∀ c ∈ cs, ¬Foreign c) :
    bs.flatMap byteDigits = cs := by
  fun_induction hexBytes cs generalizing bs with
  | case1 =>
    obtain rfl : [] = bs := Option.some.inj h
    rfl
  | case2 => cases h
  | case3 a b rest ih =>
    obtain ⟨x, hx, h⟩ := Option.bind_eq_some_iff.mp h
    obtain ⟨xs, hxs, rfl⟩ := Option.map_eq_some_iff.mp h
    rw [List.flatMap_cons, byteDigits_of_hexByte hx (hforeign a (by simp)) (hforeign b (by simp)),
      ih hxs fun c hc => hforeign c (by simp [hc])]
    rfl

theorem ascii_of_hexBytes {cs : List Char} {bs : Bytes} (h : hexBytes cs = some bs) :
    (∀ c ∈ cs, c.toNat < 128) ∧ cs.length = 2 * bs.length := by
  fun_induction hexBytes cs generalizing bs with
  | case1 =>
    obtain rfl : [] = bs := Option.some.inj h
    simp
  | case2 => cases h
  | case3 a b rest ih =>
    obtain ⟨x, hx, h⟩ := Option.bind_eq_some_iff.mp h
    obtain ⟨xs, hxs, rfl⟩ := Option.map_eq_some_iff.mp h
    obtain ⟨ha, hb⟩ := toNat_lt_of_hexByte hx
    obtain ⟨hrest, hlen⟩ := ih hxs
    refine ⟨?_, by simp only [List.length_cons]; omega⟩
    intro c hc
    rcases List.mem_cons.mp hc with rfl | hc
    · exact ha
    rcases List.mem_cons.mp hc with rfl | hc
    · exact hb
    · exact hrest c hc

/-! ### Slices -/

/-- Two bytes at a time, a slice ends inside a character, and those before it are hexadecimal. -/
def Cut : List Char → Prop
  | [] => False
  | [c] => 2 < c.utf8Size
  | c :: d :: rest => 2 < c.utf8Size ∨ c.utf8Size = 1 ∧ (d.utf8Size ≠ 1 ∨ (hexByte c d).isSome ∧ Cut rest)

/-- The first slice of a text of more than one byte: it ends inside a character, it is one of two bytes, or it has two
characters. -/
theorem splitBytes_two_cases {c : Char} {cs : List Char} (hlen : 2 ≤ ((c :: cs).map Char.utf8Size).sum) :
    2 < c.utf8Size ∧ splitBytes 2 (c :: cs) = none ∨
      c.utf8Size = 2 ∧ splitBytes 2 (c :: cs) = some ([c], cs) ∨
      c.utf8Size = 1 ∧ ∃ d rest, cs = d :: rest ∧
        (d.utf8Size ≠ 1 ∧ splitBytes 2 (c :: cs) = none ∨
          d.utf8Size = 1 ∧ splitBytes 2 (c :: cs) = some ([c, d], rest)) := by
  have hpos := Char.utf8Size_pos c
  rcases Nat.lt_trichotomy c.utf8Size 2 with hc | hc | hc
  · obtain _ | ⟨d, rest⟩ := cs
    · simp only [List.map_cons, List.map_nil, List.sum_cons, List.sum_nil] at hlen
      omega
    · have hone : c.utf8Size = 1 := by omega
      have hd := Char.utf8Size_pos d
      refine .inr (.inr ⟨hone, d, rest, rfl, ?_⟩)
      rcases Nat.lt_or_eq_of_le hd with hd | hd
      · exact .inl ⟨by omega, by simp [splitBytes, hone, hd]⟩
      · exact .inr ⟨hd.symm, by simp [splitBytes, hone, ← hd]⟩
  · exact .inr (.inl ⟨hc, by simp [splitBytes, hc]⟩)
  · exact .inl ⟨hc, by simp [splitBytes, hc]⟩

theorem hexByte_of_utf8Size {c d : Char} (h : c.utf8Size ≠ 1) : hexByte c d = none := by
  cases hbyte : hexByte c d with
  | none => rfl
  | some x => exact absurd (utf8Size_eq_one (toNat_lt_of_hexByte hbyte).1) h

/-- Without a cut, the loop reads what the name stands for. -/
theorem hexPairs_of_not_cut {cs : List Char} {n : Nat} (hlen : (cs.map Char.utf8Size).sum = 2 * n) (hcut : ¬Cut cs) :
    hexPairs n cs = .ok (hexBytes cs) := by
  induction n generalizing cs with
  | zero =>
    obtain _ | ⟨c, cs⟩ := cs
    · rfl
    · have := Char.utf8Size_pos c
      simp only [List.map_cons, List.sum_cons] at hlen
      omega
  | succ n ih =>
    obtain _ | ⟨c, cs⟩ := cs
    · simp only [List.map_nil, List.sum_nil] at hlen
      omega
    rw [hexPairs]
    rcases splitBytes_two_cases (by omega : 2 ≤ ((c :: cs).map Char.utf8Size).sum) with
      ⟨hc, -⟩ | ⟨hc, hsplit⟩ | ⟨hc, d, rest, rfl, ⟨hd, -⟩ | ⟨hd, hsplit⟩⟩
    · obtain _ | ⟨d, rest⟩ := cs
      · exact absurd hc hcut
      · exact absurd (.inl hc) hcut
    · -- one character of two bytes is no digit
      rw [hsplit]
      obtain _ | ⟨d, rest⟩ := cs
      · rfl
      · rw [hexBytes, hexByte_of_utf8Size (by omega)]
        rfl
    · exact absurd (.inr ⟨hc, .inl hd⟩) hcut
    · rw [hsplit, hexBytes]
      simp only [fromStrRadix16]
      cases hbyte : hexByte c d with
      | none => rfl
      | some x =>
        have hrest : ¬Cut rest := fun h => hcut (.inr ⟨hc, .inr ⟨by rw [hbyte]; rfl, h⟩⟩)
        simp only [List.map_cons, List.sum_cons] at hlen
        rw [ih (by omega) hrest]
        rfl

theorem hexPairs_of_cut {cs : List Char} {n : Nat} (hlen : (cs.map Char.utf8Size).sum = 2 * n) (hcut : Cut cs) :
    ∃ msg, hexPairs n cs = .error msg := by
  induction n generalizing cs with
  | zero =>
    obtain _ | ⟨c, cs⟩ := cs
    · cases hcut
    · have := Char.utf8Size_pos c
      simp only [List.map_cons, List.sum_cons] at hlen
      omega
  | succ n ih =>
    obtain _ | ⟨c, cs⟩ := cs
    · cases hcut
    rw [hexPairs]
    rcases splitBytes_two_cases (by omega : 2 ≤ ((c :: cs).map Char.utf8Size).sum) with
      ⟨hc, hsplit⟩ | ⟨hc, -⟩ | ⟨hc, d, rest, rfl, ⟨hd, hsplit⟩ | ⟨hd, hsplit⟩⟩
    · exact ⟨_, by rw [hsplit]⟩
    · obtain _ | ⟨d, rest⟩ := cs
      · have hcut : 2 < c.utf8Size := hcut
        omega
      · rcases hcut with hcut | ⟨hcut, -⟩ <;> omega
    · exact ⟨_, by rw [hsplit]⟩
    · rcases hcut with hcut | ⟨-, hcut | ⟨hbyte, hcut⟩⟩
      · omega
      · exact absurd hd hcut
      · obtain ⟨x, hx⟩ := Option.isSome_iff_exists.mp hbyte
        simp only [List.map_cons, List.sum_cons] at hlen
        obtain ⟨msg, hmsg⟩ := ih (by omega) hcut
        exact ⟨msg, by rw [hsplit]; simp only [fromStrRadix16, hx, hmsg]; rfl⟩

/-! ### Names -/

/-- A name of 32 bytes that is cut inside a character. -/
def CutName (name : Bytes) : Prop := name.length = 32 ∧ ∃ s, fromUtf8 name = some s ∧ Cut s.toList

/-- An id in another spelling than that of `tenant_dir`. -/
def OtherSpelling (name : Bytes) : Prop :=
  name.length = 32 ∧ ∃ s, fromUtf8 name = some s ∧ (hexBytes s.toList).isSome ∧ ∃ c ∈ s.toList, Foreign c

theorem sum_utf8Size_toList (s : String) : (s.toList.map Char.utf8Size).sum = (utf8 s).length := by
  rw [utf8_eq_flatMap, List.length_flatMap]
  simp only [String.length_utf8EncodeChar]

/-- The entry of a directory that can be read. -/
def readable (e : Bytes × FileType) : DirEntry := ⟨e.1, .ok e.2⟩

/-- The name stands for the id. -/
def Stands (name : Bytes) (id : TenantId) : Prop := ∃ s, fromUtf8 name = some s ∧ hexBytes s.toList = some id.bytes

theorem entryTenant_of_cut {e : Bytes × FileType} (h : CutName e.1) : ∃ f, entryTenant (readable e) = .error f := by
  obtain ⟨hlen, s, hs, hcut⟩ := h
  have hutf8 := utf8_of_fromUtf8 hs
  obtain ⟨msg, hmsg⟩ := hexPairs_of_cut (n := 16) (by rw [sum_utf8Size_toList, hutf8, hlen]) hcut
  exact ⟨.panic msg, by simp only [entryTenant, readable, hs, hutf8, hlen, hmsg, ne_eq, not_true_eq_false, if_false]⟩

/-- The bytes of a text that stands for an id are one for each character, and two for each byte of the id. -/
theorem length_of_hexBytes {s : String} {bs : Bytes} (h : hexBytes s.toList = some bs) :
    (utf8 s).length = 2 * bs.length := by
  obtain ⟨hascii, hlen⟩ := ascii_of_hexBytes h
  rw [← sum_utf8Size_toList, Server.sum_utf8Size fun c hc => utf8Size_eq_one (hascii c hc), hlen]

theorem eq_of_bytes {id id' : TenantId} (h : id.bytes = id'.bytes) : id = id' :=
  TenantId.toNat_injective (congrArg fromLE h)

theorem filled_bytes {bs : Bytes} (h : bs.length = 16) : (filled bs).bytes = bs := List.take_left' h

theorem entryTenant_of_not_cut {e : Bytes × FileType} (h : ¬CutName e.1) :
    ∃ o, entryTenant (readable e) = .ok o ∧ ∀ id, o = some id ↔ e.2 = .dir ∧ Stands e.1 id := by
  simp only [entryTenant, readable]
  cases hs : fromUtf8 e.1 with
  | none => exact ⟨none, rfl, fun id => iff_of_false nofun fun ⟨_, s, hs', _⟩ => by rw [hs] at hs'; cases hs'⟩
  | some s =>
    have hstands : ∀ id, Stands e.1 id ↔ hexBytes s.toList = some id.bytes := fun id => by
      simp only [Stands, hs, Option.some.injEq, exists_eq_left']
    by_cases hlen : (utf8 s).length = 32
    · have hcut : ¬Cut s.toList := fun hcut => h ⟨utf8_of_fromUtf8 hs ▸ hlen, s, hs, hcut⟩
      simp only [hlen, ne_eq, not_true_eq_false, if_false, hexPairs_of_not_cut (n := 16)
        ((sum_utf8Size_toList s).trans hlen) hcut]
      cases hbytes : hexBytes s.toList with
      | none => exact ⟨none, rfl, fun id => iff_of_false nofun (by simp [hstands, hbytes])⟩
      | some bs =>
        have hbs := filled_bytes (by have := length_of_hexBytes hbytes; omega : bs.length = 16)
        have hid : ∀ id, Stands e.1 id ↔ filled bs = id := fun id => by
          rw [hstands, hbytes, Option.some.injEq]
          exact ⟨fun h => eq_of_bytes (hbs.trans h), fun h => h ▸ hbs.symm⟩
        cases htype : e.2 with
        | dir => exact ⟨some (filled bs), rfl, fun id => by simp [hid]⟩
        | file => exact ⟨none, rfl, fun id => by simp⟩
        | symlink => exact ⟨none, rfl, fun id => by simp⟩
    · refine ⟨none, if_pos hlen, fun id => iff_of_false nofun fun ⟨_, hst⟩ => hlen ?_⟩
      rw [length_of_hexBytes ((hstands id).mp hst), id.length_bytes]

theorem stands_tenantDir (id : TenantId) : Stands (tenantDir id) id :=
  ⟨_, fromUtf8_utf8 _, by rw [String.toList_ofList, Server.Shard.hexBytes_digits]⟩

theorem not_foreign_digits (bs : Bytes) : ∀ c ∈ bs.flatMap byteDigits, ¬Foreign c := by
  intro c hc
  obtain ⟨b, -, hb⟩ := List.mem_flatMap.mp hc
  exact (byteDigits_spec b c hb).2

theorem eq_tenantDir_of_stands {name : Bytes} {id : TenantId} (h : Stands name id) (hother : ¬OtherSpelling name) :
    name = tenantDir id := by
  obtain ⟨s, hs, hbytes⟩ := h
  have hname := utf8_of_fromUtf8 hs
  have hlen : name.length = 32 := by rw [← hname, length_of_hexBytes hbytes, id.length_bytes]
  have hforeign : ∀ c ∈ s.toList, ¬Foreign c := fun c hc h =>
    hother ⟨hlen, s, hs, by rw [hbytes]; rfl, c, hc, h⟩
  have hdigits := digits_of_hexBytes hbytes hforeign
  rw [← hname, ← String.ofList_toList (s := s), ← hdigits]
  rfl

theorem OtherSpelling.stands {name : Bytes} (h : OtherSpelling name) : ∃ id, Stands name id ∧ name ≠ tenantDir id := by
  obtain ⟨hlen, s, hs, hbytes, c, hc, hforeign⟩ := h
  obtain ⟨bs, hbs⟩ := Option.isSome_iff_exists.mp hbytes
  have hname := utf8_of_fromUtf8 hs
  have hfilled := filled_bytes (by have := length_of_hexBytes hbs; rw [hname] at this; omega : bs.length = 16)
  refine ⟨filled bs, ⟨s, hs, by rw [hbs, hfilled]⟩, fun heq => ?_⟩
  -- the name is the digits of the id, which have no foreign character
  rw [heq, tenantDir, fromUtf8_utf8, Option.some.injEq] at hs
  rw [← hs, String.toList_ofList] at hc
  exact not_foreign_digits _ c hc hforeign

/-! ### The listing -/

/-- A directory that can be read; no two entries have the same name. -/
structure Directory where
  entries : List (Bytes × FileType)
  nodup : (entries.map Prod.fst).Nodup

namespace Directory

variable (dir : Directory)

/-- What `list_tenants` does on the directory. -/
def list : Except RootFault (List TenantId) := listTenants (some (.ok (dir.entries.map fun e => .ok (readable e))))

/-- The tenants whose directories exist, in ascending order and without duplicates. -/
def Exact (l : List TenantId) : Prop :=
  l.Pairwise (fun a b => a.bytes < b.bytes) ∧ ∀ id, id ∈ l ↔ (tenantDir id, FileType.dir) ∈ dir.entries

/-- No name is cut, and no directory has an id in another spelling. -/
def Proper : Prop := ∀ e ∈ dir.entries, ¬CutName e.1 ∧ (e.2 = .dir → ¬OtherSpelling e.1)

end Directory

theorem scanEntries_of_cut {entries : List (Bytes × FileType)} (h : ∃ e ∈ entries, CutName e.1) :
    ∃ f, scanEntries (entries.map fun e => .ok (readable e)) = .error f := by
  induction entries with
  | nil => simp at h
  | cons e entries ih =>
    rw [List.map_cons, scanEntries]
    by_cases hcut : CutName e.1
    · obtain ⟨f, hf⟩ := entryTenant_of_cut hcut
      exact ⟨f, by rw [hf]⟩
    · obtain ⟨e', he', hcut'⟩ := h
      rcases List.mem_cons.mp he' with rfl | he'
      · exact absurd hcut' hcut
      · obtain ⟨f, hf⟩ := ih ⟨e', he', hcut'⟩
        obtain ⟨o, ho, -⟩ := entryTenant_of_not_cut hcut
        rw [ho]
        cases o with
        | none => exact ⟨f, hf⟩
        | some id => exact ⟨f, by simp only [hf]; rfl⟩

/-- The tenant that an entry adds to the listing. -/
def listed (e : Bytes × FileType) : Option TenantId := (entryTenant (readable e)).toOption.join

theorem listed_eq_some_iff {e : Bytes × FileType} (h : ¬CutName e.1) (id : TenantId) :
    listed e = some id ↔ e.2 = .dir ∧ Stands e.1 id := by
  obtain ⟨o, ho, hsome⟩ := entryTenant_of_not_cut h
  rw [← hsome, listed, ho]
  rfl

theorem scanEntries_of_not_cut {entries : List (Bytes × FileType)} (h : ∀ e ∈ entries, ¬CutName e.1) :
    scanEntries (entries.map fun e => .ok (readable e)) = .ok (entries.filterMap listed) := by
  induction entries with
  | nil => rfl
  | cons e entries ih =>
    obtain ⟨o, ho, -⟩ := entryTenant_of_not_cut (h e (by simp))
    have hlisted : listed e = o := by rw [listed, ho]; rfl
    rw [List.map_cons, scanEntries, ho, List.filterMap_cons, hlisted, ih fun e he => h e (by simp [he])]
    cases o with
    | none => rfl
    | some id => rfl

instance totalBytesLe : Std.Total fun a b : TenantId => a.bytes ≤ b.bytes := ⟨fun a b => List.le_total a.bytes b.bytes⟩

instance transBytesLe : IsTrans TenantId fun a b => a.bytes ≤ b.bytes := ⟨fun _ _ _ => List.le_trans⟩

/-- The sorted list is strictly ascending if nothing is in it twice. -/
theorem pairwise_lt_insertionSort {l : List TenantId} :
    (l.insertionSort fun a b => a.bytes ≤ b.bytes).Pairwise (fun a b => a.bytes < b.bytes) ↔ l.Nodup := by
  rw [← (List.perm_insertionSort (fun a b : TenantId => a.bytes ≤ b.bytes) l).nodup_iff]
  constructor
  · intro h
    refine List.Pairwise.imp ?_ h
    rintro a b hlt rfl
    exact List.lt_irrefl _ hlt
  · intro h
    exact ((List.pairwise_insertionSort (fun a b : TenantId => a.bytes ≤ b.bytes) l).and h).imp fun ⟨hle, hne⟩ =>
      Std.lt_of_le_of_ne hle fun heq => hne (eq_of_bytes heq)

/-- For every directory, the listing succeeds and is that of the tenants whose directories exist, in ascending order and
without duplicates, exactly if no name of 32 bytes is cut inside a character and no directory has an id in another
spelling. -/
theorem listTenants_exact_iff (dir : Directory) : (∃ l, dir.list = .ok l ∧ dir.Exact l) ↔ dir.Proper := by
  by_cases hcut : ∃ e ∈ dir.entries, CutName e.1
  · -- the listing panics
    obtain ⟨f, hf⟩ := scanEntries_of_cut hcut
    refine iff_of_false ?_ fun hproper => ?_
    · rintro ⟨l, hl, -⟩
      rw [Directory.list, listTenants, hf] at hl
      cases hl
    · obtain ⟨e, he, hcut⟩ := hcut
      exact (hproper e he).1 hcut
  have hcut : ∀ e ∈ dir.entries, ¬CutName e.1 := fun e he h => hcut ⟨e, he, h⟩
  have hlist : dir.list = .ok ((dir.entries.filterMap listed).insertionSort fun a b => a.bytes ≤ b.bytes) := by
    rw [Directory.list, listTenants, scanEntries_of_not_cut hcut]
    rfl
  have hmem : ∀ id, id ∈ (dir.entries.filterMap listed).insertionSort (fun a b => a.bytes ≤ b.bytes) ↔
      ∃ e ∈ dir.entries, e.2 = .dir ∧ Stands e.1 id := fun id => by
    rw [List.mem_insertionSort, List.mem_filterMap]
    exact exists_congr fun e => and_congr_right fun he => listed_eq_some_iff (hcut e he) id
  simp only [hlist, Except.ok.injEq, exists_eq_left', Directory.Exact, pairwise_lt_insertionSort, hmem]
  constructor
  · rintro ⟨hnodup, hexact⟩ e he
    refine ⟨hcut e he, fun hdir hother => ?_⟩
    -- the tenant is listed for this directory, and again for its own
    obtain ⟨id, hstands, hne⟩ := hother.stands
    have hown := (hexact id).mp ⟨e, he, hdir, hstands⟩
    have hlisted : listed e = some id := (listed_eq_some_iff (hcut e he) id).mpr ⟨hdir, hstands⟩
    have hlisted' : listed (tenantDir id, .dir) = some id :=
      (listed_eq_some_iff (hcut _ hown) id).mpr ⟨rfl, stands_tenantDir id⟩
    have hpair := List.pairwise_filterMap.mp hnodup
    have hne : e ≠ (tenantDir id, .dir) := fun heq => hne (congrArg Prod.fst heq)
    have : Std.Symm fun e e' : Bytes × FileType => ∀ b, listed e = some b → ∀ b', listed e' = some b' → b ≠ b' :=
      ⟨fun _ _ h b hb b' hb' => (h b' hb' b hb).symm⟩
    exact List.Pairwise.forall hpair he hown hne id hlisted id hlisted' rfl
  · intro hproper
    have hstands : ∀ e ∈ dir.entries, ∀ id, listed e = some id ↔ e = (tenantDir id, .dir) := by
      intro e he id
      rw [listed_eq_some_iff (hcut e he)]
      constructor
      · rintro ⟨hdir, hstands⟩
        exact Prod.ext (eq_tenantDir_of_stands hstands ((hproper e he).2 hdir)) hdir
      · rintro rfl
        exact ⟨rfl, stands_tenantDir id⟩
    refine ⟨List.pairwise_filterMap.mpr ?_, fun id => ?_⟩
    · have hentries : dir.entries.Nodup := dir.nodup.of_map
      refine List.Pairwise.imp_of_mem ?_ hentries
      rintro e e' he he' hne id hid id' hid' rfl
      exact hne (((hstands e he id).mp hid).trans ((hstands e' he' id).mp hid').symm)
    · constructor
      · rintro ⟨e, he, hdir⟩
        exact (hstands e he id).mp ((listed_eq_some_iff (hcut e he) id).mpr hdir) ▸ he
      · exact fun h => ⟨_, h, rfl, stands_tenantDir id⟩

/-- A directory whose name is the upper-case spelling of an id is listed though the tenant has no directory, and a file
whose second character has two bytes makes the listing panic. -/
theorem listTenants_misreads :
    (Directory.mk [(utf8 "AAAAAAAAAAAAAAAAAAAAAAAAAAAAAAAA", .dir)] (by decide)).list =
        .ok [filled (List.replicate 16 0xaa)] ∧
      (tenantDir (filled (List.replicate 16 0xaa)), FileType.dir) ∉
        [(utf8 "AAAAAAAAAAAAAAAAAAAAAAAAAAAAAAAA", FileType.dir)] ∧
      (Directory.mk [(utf8 "aéaaaaaaaaaaaaaaaaaaaaaaaaaaaaa", .file)] (by decide)).list =
        .error (.panic "byte index is not a char boundary") := by
  decide +kernel

end Skeg.Tenant
