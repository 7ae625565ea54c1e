import Skeg.Core.Equiv.Text
import Skeg.Lib.FiniteMap
import Skeg.Lib.Transition
import Skeg.Tenant.Limits

/-!
# What is left of the limits when a call fails and when the file is read again

The text of a table reads back as the table, in whatever order its entries are written (`parseText_formatTable`); so at
every time the file holds the table that was last written (`run_held`).  But `set` and `remove` change the table before
they write it, and `open` takes every error of the read for a missing file: a call that fails has changed the limits
unless it was to change nothing, and a file that is there and cannot be read opens as an empty table
(`limits_kept_iff`).
-/

namespace Skeg.Tenant

open Server (TenantId isWhitespace splitWhitespace)

/-! ### Words and lines -/

theorem splitWhitespace_append {w : List Char} (h : ∀ c ∈ w, isWhitespace c = false) (cs word : List Char) :
    splitWhitespace (w ++ cs) word = splitWhitespace cs (word ++ w) := by
  induction w generalizing word with
  | nil => rw [List.nil_append, List.append_nil]
  | cons c w ih =>
    rw [List.cons_append, splitWhitespace, if_neg (by rw [h c List.mem_cons_self]; decide),
      ih fun d hd => h d (List.mem_cons_of_mem _ hd), List.append_assoc, List.singleton_append]

theorem splitWhitespace_space {word : List Char} (hword : word ≠ []) (cs : List Char) :
    splitWhitespace (' ' :: cs) word = word :: splitWhitespace cs [] := by
  rw [splitWhitespace, if_pos (by decide), if_neg (mt List.isEmpty_iff.mp hword)]

theorem splitWhitespace_nil {word : List Char} (hword : word ≠ []) : splitWhitespace [] word = [word] := by
  rw [splitWhitespace, if_neg (mt List.isEmpty_iff.mp hword)]

theorem lines_append {l : List Char} (h : '\n' ∉ l) (cs line : List Char) :
    lines (l ++ cs) line = lines cs (line ++ l) := by
  induction l generalizing line with
  | nil => rw [List.nil_append, List.append_nil]
  | cons c l ih =>
    obtain ⟨hc, hl⟩ := not_or.mp (mt List.mem_cons.mpr h)
    rw [List.cons_append, lines, if_neg (Ne.symm hc), ih hl, List.append_assoc, List.singleton_append]

theorem stripCr_of_not_mem {l : List Char} (h : '\r' ∉ l) : stripCr l = l :=
  if_neg fun hlast => h (List.mem_of_getLast? hlast)

/-! ### One entry -/

/-- A field of a line: one word, of digits or a star. -/
structure Field (w : List Char) : Prop where
  ne_nil : w ≠ []
  chars : ∀ c ∈ w, 42 ≤ c.toNat ∧ c.toNat ≤ 57

theorem isWhitespace_eq_false {c : Char} (h : 42 ≤ c.toNat ∧ c.toNat ≤ 57) : isWhitespace c = false := by
  simp only [isWhitespace, Bool.or_eq_false_iff, Bool.and_eq_false_iff, decide_eq_false_iff_not]
  omega

theorem Field.not_mem {w : List Char} (h : Field w) {c : Char} (hc : c.toNat < 42) : c ∉ w := fun hmem => by
  have hle := (h.chars c hmem).1
  omega

theorem field_toDigits (n : Nat) : Field (Nat.toDigits 10 n) where
  ne_nil := Nat.toDigits_ne_nil
  chars c hc := by
    have hdigit := toNat_of_mem_toDigits hc
    omega

theorem field_opt (v : Option UInt64) : Field (opt v) := by
  cases v with
  | none => exact ⟨List.cons_ne_nil _ _, fun c hc => by rw [List.mem_singleton.mp hc]; decide⟩
  | some x => exact field_toDigits x.toNat

theorem splitWhitespace_three {t mv md : List Char} (ht : Field t) (hmv : Field mv) (hmd : Field md) :
    splitWhitespace (t ++ ' ' :: (mv ++ ' ' :: md)) [] = [t, mv, md] := by
  have hword : ∀ {w : List Char}, Field w → ∀ c ∈ w, isWhitespace c = false :=
    fun h c hc => isWhitespace_eq_false (h.chars c hc)
  rw [splitWhitespace_append (hword ht), List.nil_append, splitWhitespace_space ht.ne_nil,
    splitWhitespace_append (hword hmv), List.nil_append, splitWhitespace_space hmv.ne_nil]
  have hlast := splitWhitespace_append (hword hmd) [] []
  rw [List.append_nil, List.nil_append, splitWhitespace_nil hmd.ne_nil] at hlast
  rw [hlast]

theorem parseUnsigned_toDigits {bits n : Nat} (h : n < 2 ^ bits) :
    parseUnsigned bits (utf8 (String.ofList (Nat.toDigits 10 n))) = some n := by
  rw [← formatNat_eq_utf8, parseUnsigned_formatNat h]

theorem parseOpt_opt (v : Option UInt64) : parseOpt (opt v) = .ok v := by
  cases v with
  | none => rfl
  | some x =>
    have hne : opt (some x) ≠ ['*'] := by
      intro heq
      have hstar : '*' ∈ Nat.toDigits 10 x.toNat := by
        rw [show Nat.toDigits 10 x.toNat = ['*'] from heq]
        exact List.mem_singleton_self _
      exact absurd (toNat_of_mem_toDigits hstar).1 (by decide)
    rw [parseOpt, if_neg hne, opt, parseUnsigned_toDigits x.toNat_lt]
    exact congrArg (fun y => Except.ok (some y)) UInt64.ofNat_toNat

theorem tenantOfNat_toNat (t : TenantId) : tenantOfNat t.toNat = t := by
  cases t with
  | mk bytes hlen =>
    have hbytes : toLE 16 (fromLE bytes) = bytes := toLE_fromLE hlen
    simp only [tenantOfNat, TenantId.toNat, hbytes]

theorem toNat_lt (t : TenantId) : t.toNat < 2 ^ 128 := by
  have hlt := fromLE_lt t.bytes
  rw [t.length_bytes] at hlt
  exact hlt

theorem parseLine_formatLine (e : LimitsEntry) : parseLine (formatLine e) = .ok e := by
  rw [parseLine, formatLine, splitWhitespace_three (field_toDigits _) (field_opt _) (field_opt _)]
  simp only [parseUnsigned_toDigits (toNat_lt e.1), parseOpt_opt, tenantOfNat_toNat]
  rfl

/-- A line has no line feed, no carriage return, and is not blank. -/
theorem not_mem_formatLine (e : LimitsEntry) {c : Char} (hc : c.toNat < 32) : c ∉ formatLine e := by
  intro hmem
  have hspace : c ≠ ' ' := by
    rintro rfl
    exact absurd hc (by decide)
  rcases List.mem_append.mp hmem with hmem | hmem
  · exact (field_toDigits _).not_mem (by omega) hmem
  rcases List.mem_cons.mp hmem with heq | hmem
  · exact hspace heq
  rcases List.mem_append.mp hmem with hmem | hmem
  · exact (field_opt _).not_mem (by omega) hmem
  rcases List.mem_cons.mp hmem with heq | hmem
  · exact hspace heq
  · exact (field_opt _).not_mem (by omega) hmem

theorem not_all_isWhitespace_formatLine (e : LimitsEntry) : (formatLine e).all isWhitespace = false := by
  have hfield := field_toDigits e.1.toNat
  obtain ⟨c, hc⟩ := List.exists_mem_of_ne_nil _ hfield.ne_nil
  rw [List.all_eq_false]
  refine ⟨c, List.mem_append_left _ hc, ?_⟩
  rw [isWhitespace_eq_false (hfield.chars c hc)]
  exact Bool.false_ne_true

/-! ### The table -/

theorem lines_formatTable (order : List LimitsEntry) :
    lines (order.flatMap fun e => formatLine e ++ ['\n']) [] = order.map formatLine := by
  induction order with
  | nil => rfl
  | cons e order ih =>
    rw [List.flatMap_cons, List.append_assoc, lines_append (not_mem_formatLine e (by decide)), List.nil_append,
      List.singleton_append, lines, if_pos rfl, stripCr_of_not_mem (not_mem_formatLine e (by decide)), ih,
      List.map_cons]

theorem parseLines_map_formatLine (order : List LimitsEntry) (byTenant : AList fun _ : TenantId => Limits) :
    parseLines (order.map formatLine) byTenant = .ok ⟨order.foldl (fun m e => m.insert e.1 e.2) byTenant⟩ := by
  induction order generalizing byTenant with
  | nil => rfl
  | cons e order ih =>
    rw [List.map_cons, parseLines, parseLine_formatLine, List.foldl_cons]
    exact ih _

/-- The same limits for the same tenants. -/
def LimitsStore.Same (s s' : LimitsStore) : Prop := ∀ tenant, s.byTenant.lookup tenant = s'.byTenant.lookup tenant

/-- The text of a table reads back, in whatever order it is written. -/
theorem parseText_formatTable {s : LimitsStore} {order : List LimitsEntry} (h : order.Perm s.byTenant.entries) :
    ∃ s', parseText (formatTable order) = .ok s' ∧ s'.Same s := by
  have hfilter : (order.map formatLine).filter (fun line => !line.all isWhitespace) = order.map formatLine := by
    refine List.filter_eq_self.mpr fun line hline => ?_
    obtain ⟨e, -, rfl⟩ := List.mem_map.mp hline
    rw [not_all_isWhitespace_formatLine]
    rfl
  have hbuilt := FiniteMap.lookup_foldl_insert_perm h
  refine ⟨⟨_⟩, ?_, hbuilt⟩
  rw [parseText, formatTable, String.toList_ofList, lines_formatTable, hfilter, parseLines_map_formatLine]

/-! ### What the file holds -/

/-- The table that a file stands for; a file that is not text, or has a line that is malformed, stands for none. -/
def fileTable : Option Bytes → Option LimitsStore
  | none => some ⟨∅⟩
  | some bytes => (fromUtf8 bytes).bind fun text => (parseText text).toOption

/-- The file is there, and cannot be read or is not text. -/
def Unread (file : Option Bytes) (readable : Bool) : Prop :=
  ∃ bytes, file = some bytes ∧ (readable = false ∨ fromUtf8 bytes = none)

theorem openLimits_of_unread {file : Option Bytes} {readable : Bool} (h : Unread file readable) :
    openLimits file readable = .ok ⟨∅⟩ := by
  obtain ⟨bytes, rfl, rfl | hbytes⟩ := h
  · rfl
  · cases readable with
    | false => rfl
    | true =>
      rw [openLimits, readToString, hbytes]

/-- A file that can be read, or is missing, opens as the table it stands for. -/
theorem openLimits_of_not_unread {file : Option Bytes} {readable : Bool} (h : ¬Unread file readable) :
    (openLimits file readable).toOption = fileTable file := by
  cases file with
  | none => rfl
  | some bytes =>
    cases readable with
    | false => exact absurd ⟨bytes, rfl, .inl rfl⟩ h
    | true =>
      cases hbytes : fromUtf8 bytes with
      | none => exact absurd ⟨bytes, rfl, .inr hbytes⟩ h
      | some text =>
        simp only [openLimits, readToString, hbytes, fileTable, Option.bind_some]

/-! ### A call -/

theorem persist_eq_some {s : LimitsStore} {run : PersistRun} {disk disk' : LimitsDisk}
    {result : Except LimitsError Unit} (h : s.persist run disk = some (disk', result)) :
    run.order.Perm s.byTenant.entries ∧
      ((run.fault = none ∧ disk'.file = some (utf8 (formatTable run.order)) ∧ result = .ok ()) ∨
        (run.fault ≠ none ∧ disk'.file = disk.file ∧ result = .error .os)) := by
  rw [LimitsStore.persist] at h
  split at h
  · rename_i hperm
    refine ⟨hperm, ?_⟩
    split at h <;> cases h <;> rename_i hfault
    · exact .inr ⟨by rw [hfault]; exact Option.some_ne_none _, rfl, rfl⟩
    · exact .inr ⟨by rw [hfault]; exact Option.some_ne_none _, rfl, rfl⟩
    · exact .inr ⟨by rw [hfault]; exact Option.some_ne_none _, rfl, rfl⟩
    · exact .inl ⟨hfault, rfl, rfl⟩
  · cases h

/-- One tenant's limits are others, or none. -/
def Writes (before after : LimitsStore) (tenant : TenantId) (limits : Limits) : Prop :=
  ∀ t, after.get t = if t = tenant then limits else before.get t

theorem writes_insert (s : LimitsStore) (tenant : TenantId) (limits : Limits) :
    Writes s ⟨s.byTenant.insert tenant limits⟩ tenant limits := by
  intro t
  unfold LimitsStore.get
  split
  · rename_i heq
    rw [heq, AList.lookup_insert]
    rfl
  · rename_i hne
    rw [AList.lookup_insert_ne hne]

theorem writes_erase (s : LimitsStore) (tenant : TenantId) :
    Writes s ⟨s.byTenant.erase tenant⟩ tenant (none, none) := by
  intro t
  unfold LimitsStore.get
  split
  · rename_i heq
    rw [heq, AList.lookup_erase]
    rfl
  · rename_i hne
    rw [AList.lookup_erase_ne hne]

theorem Writes.unchanged_iff {before after : LimitsStore} {tenant : TenantId} {limits : Limits}
    (h : Writes before after tenant limits) : (∀ t, after.get t = before.get t) ↔ before.get tenant = limits := by
  constructor
  · intro hall
    rw [← hall tenant, h tenant, if_pos rfl]
  · intro heq t
    rw [h t]
    split
    · rename_i ht
      rw [ht, heq]
    · rfl

/-! ### Calls one after the other -/

/-- The step loses nothing: a call that fails was to change nothing, and a file that is there can be read. -/
def LimitsAct.Keeps (s : LimitsSys) : LimitsAct → Prop
  | .set tenant limits run => run.fault = none ∨ ∀ store, s.store = some store → store.get tenant = limits
  | .remove tenant run => run.fault = none ∨ ∀ store, s.store = some store → store.get tenant = (none, none)
  | .reopen readable => ¬Unread s.disk.file readable

/-- What a step can be: a call that writes its table, a call that fails, or a reopening. -/
inductive StepCases (s : LimitsSys) (a : LimitsAct) : LimitsSys → List LimitsEvent → Prop where
  | persisted {after : LimitsStore} {order : List LimitsEntry} {disk : LimitsDisk} (hkeeps : a.Keeps s)
      (hperm : order.Perm after.byTenant.entries) (hfile : disk.file = some (utf8 (formatTable order))) :
      StepCases s a ⟨some after, disk⟩ [.persisted after]
  | failed {before after : LimitsStore} {disk : LimitsDisk}
      (hkeeps : a.Keeps s ↔ ∀ t, after.get t = before.get t) (hfile : disk.file = s.disk.file) :
      StepCases s a ⟨some after, disk⟩ [.failed before after]
  | reopened {readable : Bool} (hkeeps : a.Keeps s ↔ ¬Unread s.disk.file readable) :
      StepCases s a ⟨(openLimits s.disk.file readable).toOption, s.disk⟩
        [.reopened s.disk.file readable (openLimits s.disk.file readable)]

/-- A call that sets or removes one tenant's limits. -/
theorem stepCases_call {s : LimitsSys} {a : LimitsAct} {before after : LimitsStore} {tenant : TenantId}
    {limits : Limits} {run : PersistRun} {disk : LimitsDisk} {result : Except LimitsError Unit}
    (hkeeps : a.Keeps s ↔ run.fault = none ∨ before.get tenant = limits) (hwrites : Writes before after tenant limits)
    (h : after.persist run s.disk = some (disk, result)) :
    StepCases s a ⟨some after, disk⟩ [callEvent before after result] := by
  obtain ⟨hperm, ⟨hfault, hfile, rfl⟩ | ⟨hfault, hfile, rfl⟩⟩ := persist_eq_some h
  · exact .persisted (hkeeps.mpr (.inl hfault)) hperm hfile
  · refine .failed (hkeeps.trans ?_) hfile
    rw [hwrites.unchanged_iff]
    exact or_iff_right hfault

theorem limitsStep_cases {s s' : LimitsSys} {a : LimitsAct} {ev : List LimitsEvent}
    (h : limitsStep s a = some (s', ev)) : StepCases s a s' ev := by
  have hstore : ∀ {before : LimitsStore} {tenant : TenantId} {limits : Limits}, s.store = some before →
      ((∀ store, s.store = some store → store.get tenant = limits) ↔ before.get tenant = limits) := by
    intro before tenant limits hs
    rw [hs]
    exact ⟨fun hall => hall before rfl, fun heq store hst => Option.some.inj hst ▸ heq⟩
  cases a with
  | set tenant limits run =>
    obtain ⟨before, hs, hcall⟩ := Option.bind_eq_some_iff.mp h
    obtain ⟨r, hr, heq⟩ := Option.map_eq_some_iff.mp hcall
    obtain ⟨⟨disk, result⟩, hpersist, rfl⟩ := Option.map_eq_some_iff.mp hr
    cases heq
    exact stepCases_call (or_congr_right (hstore hs)) (writes_insert before tenant limits) hpersist
  | remove tenant run =>
    obtain ⟨before, hs, hcall⟩ := Option.bind_eq_some_iff.mp h
    obtain ⟨r, hr, heq⟩ := Option.map_eq_some_iff.mp hcall
    obtain ⟨⟨disk, result⟩, hpersist, rfl⟩ := Option.map_eq_some_iff.mp hr
    cases heq
    exact stepCases_call (or_congr_right (hstore hs)) (writes_erase before tenant) hpersist
  | reopen readable =>
    cases h
    exact .reopened Iff.rfl

/-- The table of the last successful `persist`, `first` being that of the file before the first. -/
def lastPersisted (first : Option LimitsStore) (h : List LimitsEvent) : Option LimitsStore :=
  h.foldl (fun last e => match e with
    | .persisted store => some store
    | _ => last) first

/-- At every time the file stands for the table that was written last. -/
theorem run_held {store₀ : Option LimitsStore} {disk₀ : LimitsDisk} {h : List LimitsEvent} {s : LimitsSys}
    (hrun : Transition.Run limitsStep (fun _ _ _ => True) [] ⟨store₀, disk₀⟩ h s) :
    Option.Rel LimitsStore.Same (fileTable s.disk.file) (lastPersisted (fileTable disk₀.file) h) := by
  refine hrun.invariant
    (fun h s => Option.Rel LimitsStore.Same (fileTable s.disk.file) (lastPersisted (fileTable disk₀.file) h)) ?_ ?_
  · show Option.Rel _ (fileTable disk₀.file) (fileTable disk₀.file)
    cases fileTable disk₀.file with
    | none => exact .none
    | some table => exact .some fun _ => rfl
  · intro h s a s' ev hheld _ hstep
    rw [lastPersisted, List.foldl_append]
    cases limitsStep_cases hstep with
    | persisted _ hperm hfile =>
      obtain ⟨table, hparse, hsame⟩ := parseText_formatTable hperm
      rw [hfile, fileTable, fromUtf8_utf8, Option.bind_some, hparse]
      exact .some hsame
    | failed _ hfile =>
      rw [hfile]
      exact hheld
    | reopened _ => exact hheld

/-- The step has lost no limit: a call that failed has changed none, a file that is there and was not read is an error,
and any other opens as the table that was written last. -/
def LimitsEvent.Right (last : Option LimitsStore) : LimitsEvent → Prop
  | .persisted _ => True
  | .failed before after => ∀ tenant, after.get tenant = before.get tenant
  | .reopened file readable result =>
    (Unread file readable → ∃ e, result = .error e) ∧
      (¬Unread file readable → Option.Rel LimitsStore.Same result.toOption last)

/-- In every run, a step loses no limit if and only if it is not a call that fails and was to change the limits, nor an
opening of a file that is there and cannot be read as text. -/
theorem limits_kept_iff {store₀ : Option LimitsStore} {disk₀ : LimitsDisk} {h : List LimitsEvent} {s s' : LimitsSys}
    {a : LimitsAct} {ev : List LimitsEvent}
    (hrun : Transition.Run limitsStep (fun _ _ _ => True) [] ⟨store₀, disk₀⟩ h s)
    (hstep : limitsStep s a = some (s', ev)) :
    (∀ e ∈ ev, e.Right (lastPersisted (fileTable disk₀.file) h)) ↔ a.Keeps s := by
  have hheld := run_held hrun
  cases limitsStep_cases hstep with
  | persisted hkeeps _ _ =>
    rw [List.forall_mem_singleton]
    exact iff_of_true trivial hkeeps
  | failed hkeeps _ =>
    rw [List.forall_mem_singleton, hkeeps]
    exact Iff.rfl
  | reopened hkeeps =>
    rename_i readable
    rw [List.forall_mem_singleton, hkeeps]
    constructor
    · rintro ⟨herror, -⟩ hunread
      obtain ⟨e, he⟩ := herror hunread
      rw [openLimits_of_unread hunread] at he
      cases he
    · intro hread
      refine ⟨fun hunread => absurd hunread hread, fun _ => ?_⟩
      rw [openLimits_of_not_unread hread]
      exact hheld

/-! ### One tenant with five vectors -/

def fiveVectors : LimitsStore := ⟨(∅ : AList fun _ : TenantId => Limits).insert .zero (some 5, none)⟩

def fiveVectorsFile : Bytes := utf8 (formatTable [⟨.zero, some 5, none⟩])

theorem limitsStep_set_five :
    limitsStep ⟨some ⟨∅⟩, ⟨none, none⟩⟩ (.set .zero (some 5, none) ⟨[⟨.zero, some 5, none⟩], none⟩) =
      some (⟨some fiveVectors, ⟨some fiveVectorsFile, none⟩⟩, [.persisted fiveVectors]) := rfl

theorem limits_kept_five :
    (LimitsEvent.reopened (some fiveVectorsFile) true (openLimits (some fiveVectorsFile) true)).Right
      (some fiveVectors) := by
  have hread : ¬Unread (some fiveVectorsFile) true := by
    rintro ⟨bytes, hbytes, hfalse | hnone⟩
    · cases hfalse
    · rw [← Option.some.inj hbytes, fiveVectorsFile, fromUtf8_utf8] at hnone
      cases hnone
  have hreopen : limitsStep ⟨some fiveVectors, ⟨some fiveVectorsFile, none⟩⟩ (.reopen true) =
      some (⟨(openLimits (some fiveVectorsFile) true).toOption, ⟨some fiveVectorsFile, none⟩⟩,
        [.reopened (some fiveVectorsFile) true (openLimits (some fiveVectorsFile) true)]) := rfl
  exact (limits_kept_iff (.snoc .nil trivial limitsStep_set_five) hreopen).mpr hread _ List.mem_cons_self

/-- A call that fails has made the tenant unlimited, and so does an opening of the file that is there. -/
theorem limits_lost :
    ∃ h s, Transition.Run limitsStep (fun _ _ _ => True) [] ⟨some ⟨∅⟩, ⟨none, none⟩⟩ h s ∧
      (∃ before after, .failed before after ∈ h ∧ before.get .zero = (some 5, none) ∧ after.get .zero = (none, none)) ∧
      ∃ store, .reopened (some fiveVectorsFile) false (.ok store) ∈ h ∧ store.get .zero = (none, none) := by
  have hremove : limitsStep ⟨some fiveVectors, ⟨some fiveVectorsFile, none⟩⟩ (.remove .zero ⟨[], some .create⟩) =
      some (⟨some ⟨fiveVectors.byTenant.erase .zero⟩, ⟨some fiveVectorsFile, none⟩⟩,
        [.failed fiveVectors ⟨fiveVectors.byTenant.erase .zero⟩]) := rfl
  have hreopen : limitsStep ⟨some ⟨fiveVectors.byTenant.erase .zero⟩, ⟨some fiveVectorsFile, none⟩⟩ (.reopen false) =
      some (⟨some ⟨∅⟩, ⟨some fiveVectorsFile, none⟩⟩, [.reopened (some fiveVectorsFile) false (.ok ⟨∅⟩)]) := rfl
  refine ⟨_, _, .snoc (.snoc (.snoc .nil trivial limitsStep_set_five) trivial hremove) trivial hreopen,
    ⟨fiveVectors, ⟨fiveVectors.byTenant.erase .zero⟩, ?_, rfl, rfl⟩, ⟨∅⟩, ?_, rfl⟩
  · exact List.mem_append_left _ (List.mem_append_right _ List.mem_cons_self)
  · exact List.mem_append_right _ List.mem_cons_self

end Skeg.Tenant
