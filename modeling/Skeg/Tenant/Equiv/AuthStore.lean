import Skeg.Tenant.AuthStore
import Skeg.Core.Equiv.Text
import Skeg.Core.Hashes
import Skeg.Lib.FiniteMap

/-!
# An auth store loads completely or not at all

The encoding of a table, in whatever order its entries are written, reads back as the table, and every proper prefix
of it is refused (`auth_loads_whole`).

What stands at the beginning of a record fixes its length (`parseRecord_header`): a record that is there as a whole is
read, and one that is cut off is an error.  The header has the number of the records, so that a file which ends with a
whole record but is too short still lacks the next one (`parseRecords_prefix`, by induction on the records).
-/

namespace Skeg.Tenant

open Cursor (leAt slice drop_toLE drop_add_length leAt_eq slice_eq)
open Server (TenantId)

section

variable [Hashes] {bytes rest : Bytes} {idx off : Nat}

/-- The lengths that are stored for an entry fit. -/
def AuthEntry.Fits (e : AuthEntry) : Prop := (utf8 e.1).length < 2 ^ 32 ∧ (utf8 e.2.hash).length < 2 ^ 32

/-- The checksum, the tenant and the two lengths. -/
def recordHeader (e : AuthEntry) : Bytes :=
  toLE 4 (crc32c (encodeBody e)).toNat ++ (e.2.tenant.bytes ++
    (toLE 4 (utf8 e.1).length ++ toLE 4 (utf8 e.2.hash).length))

omit [Hashes] in
theorem length_encodeBody (e : AuthEntry) :
    (encodeBody e).length = 24 + (utf8 e.1).length + (utf8 e.2.hash).length := by
  simp only [encodeBody, List.length_append, length_toLE, e.2.tenant.length_bytes]
  omega

theorem length_recordHeader (e : AuthEntry) : (recordHeader e).length = 28 := by
  simp only [recordHeader, List.length_append, length_toLE, e.2.tenant.length_bytes]

theorem encodeRecord_of_fits {e : AuthEntry} (he : e.Fits) :
    encodeRecord e = recordHeader e ++ (utf8 e.1 ++ utf8 e.2.hash) := by
  rw [encodeRecord, if_pos ⟨he.1, he.2⟩, recordHeader]
  simp only [List.append_assoc]
  rfl

theorem length_encodeRecord {e : AuthEntry} (he : e.Fits) :
    (encodeRecord e).length = 28 + (utf8 e.1).length + (utf8 e.2.hash).length := by
  rw [encodeRecord_of_fits he, List.length_append, length_recordHeader, List.length_append]
  omega

/-- What is read of a header. -/
structure HeaderAt (bytes : Bytes) (off : Nat) (e : AuthEntry) : Prop where
  crc : leAt 4 bytes off = (crc32c (encodeBody e)).toNat
  tenant : slice bytes (off + 4) 16 = e.2.tenant.bytes
  userLen : leAt 4 bytes (off + 20) = (utf8 e.1).length
  hashLen : leAt 4 bytes (off + 24) = (utf8 e.2.hash).length

theorem headerAt {e : AuthEntry} (he : e.Fits) (h : bytes.drop off = recordHeader e ++ rest) : HeaderAt bytes off e := by
  simp only [recordHeader, List.append_assoc] at h
  have hcrc : (crc32c (encodeBody e)).toNat < 256 ^ 4 := UInt32.toNat_lt _
  have htenant := drop_toLE h
  have huser := drop_add_length htenant
  rw [e.2.tenant.length_bytes] at huser
  have hhash := drop_toLE huser
  refine ⟨leAt_eq hcrc h, ?_, leAt_eq he.1 huser, leAt_eq he.2 hhash⟩
  have := slice_eq htenant
  rwa [e.2.tenant.length_bytes] at this

/-- A record that is there is read. -/
theorem parseRecord_encodeRecord {e : AuthEntry} (he : e.Fits) (h : bytes.drop off = encodeRecord e ++ rest) :
    parseRecord bytes idx off = .ok (e, off + (encodeRecord e).length) := by
  have hlen := congrArg List.length h
  rw [List.length_drop, List.length_append, length_encodeRecord he] at hlen
  rw [length_encodeRecord he]
  -- the checksummed part as a whole, and its parts
  have hbody : bytes.drop (off + 4) = encodeBody e ++ rest := by
    rw [encodeRecord, if_pos ⟨he.1, he.2⟩, List.append_assoc] at h
    exact drop_toLE h
  have hcrc := slice_eq hbody
  rw [length_encodeBody] at hcrc
  rw [encodeRecord_of_fits he, List.append_assoc] at h
  have hat := headerAt he h
  have huser := drop_add_length h
  rw [length_recordHeader, List.append_assoc] at huser
  have hhash := drop_add_length huser
  rw [parseRecord, dif_neg (by omega)]
  simp only [hat.userLen, hat.hashLen, hat.tenant, hat.crc, hcrc, slice_eq huser, slice_eq hhash, fromUtf8_utf8]
  rw [if_neg (by omega), if_neg (by simp)]
  congr 2
  omega

/-- A record that is cut off is not. -/
theorem parseRecord_torn {e : AuthEntry} (he : e.Fits) {k : Nat} (hk : k < (encodeRecord e).length)
    (h : bytes.drop off = (encodeRecord e).take k) : ∃ err, parseRecord bytes idx off = .error err := by
  have hlen := congrArg List.length h
  rw [List.length_drop, List.length_take, Nat.min_eq_left hk.le] at hlen
  rw [length_encodeRecord he] at hk
  rw [parseRecord]
  by_cases hshort : bytes.length < off + 4 + 16 + 4 + 4
  · exact ⟨_, dif_pos hshort⟩
  · -- the header is there, and says how long the record is
    rw [encodeRecord_of_fits he, List.take_append, List.take_of_length_le (by rw [length_recordHeader]; omega)] at h
    have hat := headerAt he h
    rw [dif_neg hshort]
    simp only [hat.userLen, hat.hashLen]
    exact ⟨_, if_pos (by omega)⟩

theorem parseRecords_flatMap {order : List AuthEntry} (hfits : ∀ e ∈ order, e.Fits)
    (h : bytes.drop off = order.flatMap encodeRecord ++ rest) (byUser : AList fun _ : String => AuthRecord) :
    parseRecords bytes order.length idx off byUser = .ok (order.foldl (fun m e => m.insert e.1 e.2) byUser) := by
  induction order generalizing idx off byUser with
  | nil => rfl
  | cons e order ih =>
    rw [List.flatMap_cons, List.append_assoc] at h
    rw [List.length_cons, parseRecords, parseRecord_encodeRecord (hfits e (by simp)) h, List.foldl_cons]
    exact ih (fun e he => hfits e (by simp [he])) (drop_add_length h) _

theorem parseRecords_prefix {order : List AuthEntry} (hfits : ∀ e ∈ order, e.Fits) {k : Nat}
    (hk : k < (order.flatMap encodeRecord).length) (h : bytes.drop off = (order.flatMap encodeRecord).take k)
    (byUser : AList fun _ : String => AuthRecord) :
    ∃ err, parseRecords bytes order.length idx off byUser = .error err := by
  induction order generalizing idx off byUser k with
  | nil => exact absurd hk (Nat.not_lt_zero k)
  | cons e order ih =>
    have he : e.Fits := hfits e (by simp)
    rw [List.flatMap_cons, List.length_append] at hk
    rw [List.flatMap_cons, List.take_append] at h
    rw [List.length_cons, parseRecords]
    rcases Nat.lt_or_ge k (encodeRecord e).length with htorn | hwhole
    · rw [Nat.sub_eq_zero_of_le htorn.le, List.take_zero, List.append_nil] at h
      have htorn : ∃ err, parseRecord bytes idx off = .error err := parseRecord_torn he htorn h
      obtain ⟨err, herr⟩ := htorn
      exact ⟨err, by rw [herr]⟩
    · rw [List.take_of_length_le hwhole] at h
      rw [parseRecord_encodeRecord he h]
      exact ih (fun e he => hfits e (by simp [he])) (by omega) (drop_add_length h) _

/-! ### The file -/

/-- The magic, the version and the number of records. -/
def fileHeader (n : Nat) : Bytes := authMagic ++ (toLE 4 authVersion ++ toLE 4 n)

omit [Hashes] in
theorem length_fileHeader (n : Nat) : (fileHeader n).length = 16 := by
  simp only [fileHeader, authMagic, List.length_append, length_toLE, List.length_cons, List.length_nil]

theorem encode_eq {order : List AuthEntry} (hn : order.length < 2 ^ 32) :
    encode order = fileHeader order.length ++ order.flatMap encodeRecord := by
  rw [encode, if_pos hn, fileHeader]
  simp only [List.append_assoc]

/-- Behind a whole header, as many records are read as it says. -/
theorem parseInto_fileHeader {n : Nat} (hn : n < 2 ^ 32) (s : AuthStore) (h : bytes = fileHeader n ++ rest) :
    parseInto s bytes = (parseRecords bytes n 0 16 s.byUser).map AuthStore.mk := by
  have hlen : 16 ≤ bytes.length := by
    rw [h, List.length_append, length_fileHeader]
    omega
  simp only [fileHeader, List.append_assoc] at h
  have hstart : bytes.drop 0 = authMagic ++ (toLE 4 authVersion ++ (toLE 4 n ++ rest)) := h
  have hmagic : slice bytes 0 8 = authMagic := slice_eq hstart
  have hversion : bytes.drop 8 = toLE 4 authVersion ++ (toLE 4 n ++ rest) := drop_add_length hstart
  have hcount := drop_toLE hversion
  rw [parseInto, if_neg (by rw [hmagic]; simp; omega)]
  simp only [leAt_eq (show authVersion < 256 ^ 4 by decide) hversion, leAt_eq hn hcount]
  rw [if_neg (by simp)]

/-- The same records for the same users. -/
def AuthStore.Same (s s' : AuthStore) : Prop := ∀ user, s.byUser.lookup user = s'.byUser.lookup user

/-- A table with fewer than `2 ^ 32` users whose names and hashes are shorter than `2 ^ 32` bytes, written in any order,
is read back; a proper prefix of the file is an error. -/
theorem auth_loads_whole (s : AuthStore) (hn : s.byUser.entries.length < 2 ^ 32)
    (hfits : ∀ e ∈ s.byUser.entries, (utf8 e.1).length < 2 ^ 32 ∧ (utf8 e.2.hash).length < 2 ^ 32)
    (order : List AuthEntry) (horder : order.Perm s.byUser.entries) :
    (∃ s', openAuth (some (encode order)) = .ok s' ∧ s'.Same s) ∧
      ∀ bytes, bytes <+: encode order → bytes ≠ encode order → ∃ err, openAuth (some bytes) = .error err := by
  have hfits : ∀ e ∈ order, AuthEntry.Fits e := fun e he => hfits e (horder.mem_iff.mp he)
  rw [← horder.length_eq] at hn
  have hbuilt := FiniteMap.lookup_foldl_insert_perm horder
  refine ⟨⟨⟨_⟩, ?_, hbuilt⟩, ?_⟩
  · have hdrop : (encode order).drop 16 = order.flatMap encodeRecord ++ [] := by
      rw [encode_eq hn, List.drop_left' (length_fileHeader _), List.append_nil]
    rw [openAuth, parseInto_fileHeader hn _ (encode_eq hn), parseRecords_flatMap hfits hdrop]
    rfl
  · intro bytes hpre hne
    have hlt : bytes.length < (encode order).length :=
      Nat.lt_of_le_of_ne hpre.length_le fun h => hne (hpre.eq_of_length h)
    have htake := List.prefix_iff_eq_take.mp hpre
    rw [openAuth]
    by_cases hshort : bytes.length < 16
    · exact ⟨_, if_pos (.inl hshort)⟩
    · have hlen := congrArg List.length (encode_eq hn)
      rw [List.length_append, length_fileHeader] at hlen
      rw [encode_eq hn, List.take_append, length_fileHeader,
        List.take_of_length_le (by rw [length_fileHeader]; omega)] at htake
      have hdrop : bytes.drop 16 = (order.flatMap encodeRecord).take (bytes.length - 16) := by
        rw [htake, List.drop_left' (length_fileHeader _), ← htake]
      have herr : ∃ err, parseRecords bytes order.length 0 16 ∅ = .error err :=
        parseRecords_prefix hfits (by omega) hdrop ∅
      obtain ⟨err, herr⟩ := herr
      exact ⟨err, by rw [parseInto_fileHeader hn _ htake, herr]; rfl⟩

end

section

attribute [local instance] linkedHashes

/-- Two users of different tenants, written in the order that is not that of the table. -/
theorem auth_loads_whole_two :
    ∃ s' : AuthStore, openAuth (some (encode [⟨"bob", ⟨toLE 16 2, length_toLE 16 2⟩, "h2"⟩,
        ⟨"ada", ⟨toLE 16 1, length_toLE 16 1⟩, "h1"⟩])) = .ok s' ∧
      s'.Same ⟨(AList.insert "bob" ⟨⟨toLE 16 2, length_toLE 16 2⟩, "h2"⟩ ∅).insert "ada"
        ⟨⟨toLE 16 1, length_toLE 16 1⟩, "h1"⟩⟩ :=
  (auth_loads_whole _ (by decide) (by decide) _ (by decide)).1

end

end Skeg.Tenant
