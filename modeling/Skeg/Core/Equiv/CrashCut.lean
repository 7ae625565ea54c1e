import Skeg.Core.Equiv.Runs

/-!
# A crash cuts the segments

A crash may leave only the first bytes of a segment, any number of them, and it may come at any moment
of a run: with writes queued, with a compaction under way.  The bytes that are left are some whole
blocks, some records of the next block, and a piece of a record (`exists_cut`).  The scan ends at that
piece, and the gate lets no member of an unfinished batch through (`BatchGate.feedAll_unfinished`), so
recovery finds the records of the whole blocks and nothing else (`TornFile.recovered`).

A directory of which recovery finds the same blocks is indexed alike, and the entries can be read
(`Shows.getAlone`).  So a store opened after a crash answers as if the writes that are not there as a
whole had never been made (`crash_keeps_whole_writes`), however often it is opened
(`recovery_idempotent`).  What is there of a cut batch stays in the segment, though, and it hides
writes behind it from the recovery after next (`unfinished_batch_hides_writes`).
-/

namespace Skeg

open Transition (exists_run_of_exec)

/-! ### An unfinished batch -/

namespace BatchGate

theorem feedAll_short {n : Nat} {pending ps : List (Nat × Record)}
    (hdata : ∀ p ∈ ps, p.2.kind ≠ .batchBegin) (hn : pending.length + ps.length < n) :
    (⟨some n, pending⟩ : BatchGate).feedAll ps = (⟨some n, pending ++ ps⟩, []) := by
  induction ps generalizing pending with
  | nil => simp [feedAll]
  | cons p ps ih =>
    have hp : p.2.kind ≠ .batchBegin := hdata p (by simp)
    have hlen : (pending ++ [p]).length ≠ n := by
      simp only [List.length_append, List.length_cons, List.length_nil] at hn ⊢
      omega
    rw [feedAll, feed, if_neg hp]
    simp only [if_neg hlen]
    rw [ih (fun q hq => hdata q (List.mem_cons_of_mem _ hq)) (by simp at hn ⊢; omega)]
    simp

/-- The gate holds back what follows the header of a batch until there is enough of it, whatever it is. -/
theorem feedAll_announced {ts : Nat} {pairs : List (Bytes × Bytes)} (hlen : pairs.length < 2 ^ 32)
    {rs : List Record} (hdata : ∀ r ∈ rs, r.kind ≠ .batchBegin) (hfew : rs.length < pairs.length) (o : Nat) :
    ((⟨none, []⟩ : BatchGate).feedAll
      (layout o (⟨ts, .batchBegin, [], toLE 4 pairs.length⟩ :: rs))).2 = [] := by
  have hann : announced ⟨ts, .batchBegin, [], toLE 4 pairs.length⟩ = pairs.length := by
    simp only [announced, length_toLE, Nat.lt_irrefl, if_false]
    rw [List.take_of_length_le (by simp), fromLE_toLE (by simpa using hlen)]
  have hsnd : ∀ o', (layout o' rs).map Prod.snd = rs := fun o' => map_snd_layout o' rs
  rw [layout, feedAll, feed, if_pos rfl, hann, if_pos (by omega)]
  simp only
  rw [feedAll_short]
  · rfl
  · intro p hp
    exact hdata p.2 (hsnd _ ▸ List.mem_map_of_mem hp)
  · rw [List.length_nil, Nat.zero_add, ← List.length_map Prod.snd, hsnd]
    exact hfew

/-- So it does what is there of a block that is not there as a whole. -/
theorem feedAll_unfinished {b part : List Record} (hb : IsBlock b) (hpart : part <+: b)
    (hne : part ≠ b) (o : Nat) : ((⟨none, []⟩ : BatchGate).feedAll (layout o part)).2 = [] := by
  cases part with
  | nil => rfl
  | cons r rs =>
    rcases hb.shape with ⟨x, rfl, _⟩ | ⟨ts, pairs, rfl, hpairs, hlen⟩
    · obtain ⟨rfl, hrs⟩ := List.cons_prefix_cons.mp hpart
      exact absurd (by rw [List.prefix_nil.mp hrs]) hne
    · unfold batchRecords at hpart hne
      obtain ⟨rfl, hrs⟩ := List.cons_prefix_cons.mp hpart
      refine feedAll_announced hlen (fun r hr => ?_) ?_ o
      · rw [batchMembers_kind (hrs.subset hr)]
        simp
      · -- the members that are there are fewer than the header announces
        have hle := hrs.length_le
        have hneq : rs ≠ batchMembers (ts + 1) pairs := fun h => hne (by rw [h])
        have := mt hrs.eq_of_length hneq
        rw [batchMembers_length] at hle this
        omega

end BatchGate

section

variable [H : Hashes]

/-! ### Where the cut falls -/

/-- Fewer bytes than some records have are the first of these records and a piece of the next. -/
theorem take_encodeAll {rs : List Record} (hwf : ∀ r ∈ rs, r.Wf) {n : Nat}
    (hn : n < (encodeAll rs).length) :
    ∃ part piece, (encodeAll rs).take n = encodeAll part ++ piece ∧ part <+: rs ∧ part ≠ rs ∧
      nextRecord piece = none := by
  induction rs generalizing n with
  | nil => simp at hn
  | cons r rs ih =>
    rw [encodeAll_cons] at hn ⊢
    by_cases hr : n < r.size
    · have hcut : r.encode.take n ≠ r.encode := by
        intro h
        have := congrArg List.length h
        rw [List.length_take, r.length_encode] at this
        omega
      refine ⟨[], r.encode.take n, ?_, List.nil_prefix, by simp, ?_⟩
      · rw [List.take_append_of_le_length (by rw [r.length_encode]; omega)]
        rfl
      · exact nextRecord_prefix (hwf r (by simp)) (List.take_prefix _ _) hcut
    · rw [List.length_append, r.length_encode] at hn
      obtain ⟨part, piece, heq, hpre, hne, hpiece⟩ :=
        ih (fun x hx => hwf x (List.mem_cons_of_mem _ hx)) (n := n - r.size) (by omega)
      refine ⟨r :: part, piece, ?_, List.cons_prefix_cons.mpr ⟨rfl, hpre⟩, by simpa using hne, hpiece⟩
      rw [List.take_append, List.take_of_length_le (by rw [r.length_encode]; omega), r.length_encode,
        heq, encodeAll_cons, List.append_assoc]

/-- The first `n` bytes of the blocks `kept ++ lost`: all of `kept`, the records `part` of the next
block, and a `piece` of a record. -/
structure Cut (kept lost : List (List Record)) (n : Nat) (part : List Record) (piece : Bytes) :
    Prop where
  bytes : (encodeAll (kept ++ lost).flatten).take n = encodeAll (kept.flatten ++ part) ++ piece
  torn : nextRecord piece = none
  enough : (encodeAll kept.flatten).length ≤ n
  next : lost = [] ∧ part = [] ∧ piece = [] ∨ ∃ b rest, lost = b :: rest ∧ part <+: b ∧ part ≠ b ∧
    n < (encodeAll kept.flatten).length + (encodeAll b).length

theorem exists_cut {bs : List (List Record)} (hbs : ∀ b ∈ bs, IsBlock b) (n : Nat) :
    ∃ kept lost part piece, bs = kept ++ lost ∧ Cut kept lost n part piece := by
  induction bs generalizing n with
  | nil =>
    exact ⟨[], [], [], [], rfl, by simp, by simp [nextRecord, headerSize], by simp, .inl ⟨rfl, rfl, rfl⟩⟩
  | cons b bs ih =>
    by_cases hb : n < (encodeAll b).length
    · obtain ⟨part, piece, heq, hpre, hne, hpiece⟩ := take_encodeAll (hbs b (by simp)).wf hb
      refine ⟨[], b :: bs, part, piece, rfl, ?_, hpiece, by simp,
        .inr ⟨b, bs, rfl, hpre, hne, by simpa using hb⟩⟩
      show (encodeAll (b ++ bs.flatten)).take n = encodeAll part ++ piece
      rw [encodeAll_append, List.take_append_of_le_length (by omega), heq]
    · obtain ⟨kept, lost, part, piece, rfl, hcut⟩ :=
        ih (fun c hc => hbs c (List.mem_cons_of_mem _ hc)) (n - (encodeAll b).length)
      have henough := hcut.enough
      refine ⟨b :: kept, lost, part, piece, rfl, ?_, hcut.torn, ?_, ?_⟩
      · rw [List.cons_append, List.flatten_cons, encodeAll_append, List.take_append,
          List.take_of_length_le (by omega), hcut.bytes]
        simp
      · rw [List.flatten_cons, encodeAll_append, List.length_append]
        omega
      · rcases hcut.next with h | ⟨c, rest, rfl, hpre, hne, hlt⟩
        · exact .inl h
        · refine .inr ⟨c, rest, rfl, hpre, hne, ?_⟩
          rw [List.flatten_cons, encodeAll_append, List.length_append]
          omega

/-- A file of the blocks `kept`, some records `part` that the gate holds back, and a `piece` of a record. -/
structure TornFile (f : File) (kept : List (List Record)) (part : List Record) (piece : Bytes) : Prop where
  data : f.data = encodeAll (kept.flatten ++ part) ++ piece
  torn : nextRecord (piece ++ zeros (f.len - f.data.length)) = none
  block : ∀ b ∈ kept, IsBlock b
  wf : ∀ r ∈ part, r.Wf
  held : ∀ o, ((⟨none, []⟩ : BatchGate).feedAll (layout o part)).2 = []

namespace TornFile

variable {f : File} {kept : List (List Record)} {part : List Record} {piece : Bytes}

/-- The scan ends at the last whole record. -/
theorem scan (h : TornFile f kept part piece) : scanFile f.content =
    (layout 0 (kept.flatten ++ part), (encodeAll (kept.flatten ++ part)).length) := by
  have hwf : ∀ r ∈ kept.flatten ++ part, r.Wf := by
    intro r hr
    rcases List.mem_append.mp hr with hr | hr
    · obtain ⟨b, hb, hr⟩ := List.mem_flatten.mp hr
      exact (h.block b hb).wf r hr
    · exact h.wf r hr
  have htorn := h.torn
  unfold File.content
  generalize f.len - f.data.length = k at htorn ⊢
  rw [h.data, List.append_assoc]
  exact scanFile_eq (scans_encodeAll 0 hwf) htorn

/-- Recovery finds the records of the whole blocks. -/
theorem recovered (h : TornFile f kept part piece) :
    Skeg.recovered f.content = (layout 0 kept.flatten).filter isData := by
  unfold Skeg.recovered
  rw [h.scan, layout_append]
  show ((⟨none, []⟩ : BatchGate).feedAll _).2 = _
  rw [BatchGate.feedAll_append, BatchGate.feedAll_blocks h.block, h.held, List.append_nil]

end TornFile

/-- A cut leaves such a file. -/
theorem Cut.tornFile [LawfulHashes] {kept lost : List (List Record)} {n : Nat} {part : List Record}
    {piece : Bytes} {f : File} (h : Cut kept lost n part piece) (hbs : ∀ b ∈ kept ++ lost, IsBlock b)
    (hdata : f.data = encodeAll (kept ++ lost).flatten) : TornFile (f.truncate n) kept part piece where
  data := by
    show f.data.take n = _
    rw [hdata, h.bytes]
  torn := by
    show nextRecord (piece ++ zeros (n - (f.data.take n).length)) = none
    rcases h.next with ⟨_, _, rfl⟩ | ⟨b, rest, rfl, _, _, hlt⟩
    · exact nextRecord_zeros _
    · -- the cut is before the end of the data
      have hzero : n - (f.data.take n).length = 0 := by
        rw [List.length_take, hdata]
        simp only [List.flatten_append, List.flatten_cons, encodeAll_append, List.length_append]
        omega
      rw [hzero]
      simpa [zeros] using h.torn
  block b hb := hbs b (List.mem_append_left _ hb)
  wf r hr := by
    rcases h.next with ⟨_, rfl, _⟩ | ⟨b, rest, rfl, hpre, _⟩
    · cases hr
    · exact (hbs b (by simp)).wf r (hpre.subset hr)
  held o := by
    rcases h.next with ⟨_, rfl, _⟩ | ⟨b, rest, rfl, hpre, hne, _⟩
    · rfl
    · exact BatchGate.feedAll_unfinished (hbs b (by simp)) hpre hne o

/-! ### Directories that show the same blocks -/

variable {d : Disk} {raw kept lost : Nat → List (List Record)} {n : Nat → Nat} {max : Nat}

theorem DiskOk.getAlone [LawfulHashes] (h : DiskOk d raw) (max : Nat) (k : Bytes) (tenant : Nat) :
    (openVLog d max).getAlone k tenant = some (.ok (.value (liveMap (recoveredEvents d) k))) :=
  getAlone_openVLog ((h.rel max).stores (h.wf max) (h.linked max) (opens_openVLog d max).tasks) k tenant

/-- Recovery finds the blocks `raw` at the front of the segments, and releases no other record. -/
structure Shows (d : Disk) (raw : Nat → List (List Record)) : Prop where
  recovered : ∀ S ∈ d.dir, recovered (d.file S).content = (layout 0 (raw S).flatten).filter isData
  bytes : ∀ S ∈ d.dir, encodeAll (raw S).flatten <+: (d.file S).data
  scanned : ∀ S ∈ d.dir, (encodeAll (raw S).flatten).length ≤ (scanFile (d.file S).content).2
  snapshot : d.snapshot = none

/-- A record that is there as a whole can be read, whatever follows it. -/
theorem File.pread_of_prefix {f : File} {rs : List Record} (hdata : encodeAll rs <+: f.data) {o : Nat}
    {r : Record} (h : (o, r) ∈ layout 0 rs) : f.pread o r.size = r.encode := by
  obtain ⟨pre, post, rfl, rfl⟩ := layout_split h
  obtain ⟨more, hmore⟩ := hdata
  rw [File.pread, File.content, ← hmore, encodeAll_append, encodeAll_cons]
  simp only [List.append_assoc]
  rw [Nat.zero_add, List.drop_left' rfl, List.take_left' r.length_encode]

namespace Shows

theorem recoverIndex_eq (h : Shows d raw) :
    recoverIndex d = (winnersIndex (winners d), newestTs d (listSegments d.dir) 0, fun _ => true) := by
  simp [recoverIndex, usableSnapshot, h.snapshot]

/-- The store opened on the directory has the blocks at their offsets. -/
theorem data (h : Shows d raw) (max : Nat) {S : Nat} (hS : S ∈ d.dir) :
    encodeAll (raw S).flatten <+: ((openVLog d max).segs S).file.data := by
  have ho := opens_openVLog d max
  obtain ⟨more, hmore⟩ := h.bytes S hS
  by_cases hact : S = (openVLog d max).active.id
  · -- the resumed segment is cut where its scan ended
    have hfile := (ho.resumed (hact ▸ hS) (by rw [h.recoverIndex_eq])).1
    rw [← hact, ← hmore, List.take_append, List.take_of_length_le (h.scanned S hS)] at hfile
    rw [hfile]
    exact List.prefix_append _ _
  · rw [(ho.sealed S hS hact).1, ← hmore]
    exact List.prefix_append _ _

/-- The index is the one of the directory of the blocks alone, and its entries can be read. -/
theorem getAlone [LawfulHashes] {w : Disk} (h : Shows d raw) (hok : DiskOk w raw) (hdir : w.dir = d.dir)
    (max : Nat) (k : Bytes) (tenant : Nat) :
    (openVLog d max).getAlone k tenant = (openVLog w max).getAlone k tenant := by
  have ho := opens_openVLog d max
  have ho' := opens_openVLog w max
  have hwinners : winners d = winners w := by
    rw [winners_eq, winners_eq, diskRecords, diskRecords, hdir]
    congr 1
    refine List.flatMap_congr fun S hS => ?_
    have hS : S ∈ d.dir := mem_listSegments.mp hS
    rw [h.recovered S hS, File.content, hok.data S (hdir ▸ hS), recovered_blocks (hok.block S (hdir ▸ hS))]
  have hindex : (openVLog d max).index = (openVLog w max).index := by
    rw [ho.index, ho'.index, h.recoverIndex_eq, hok.recoverIndex_eq, hwinners]
  have hreadable : ∀ S, (openVLog w max).isReadable S = true → (openVLog d max).isReadable S = true := by
    intro S hS
    rw [ho'.readable, ho'.dir, hdir] at hS
    rw [ho.readable, ho.dir]
    exact hS
  have hidx := (hok.rel max).indexes_live (hok.wf max) (hok.linked max)
  have hstores : Stores (openVLog d max) (liveMap (recoveredEvents w)) := by
    refine ⟨fun k hk => hindex ▸ hidx.absent k hk, fun k v hk => ?_⟩
    obtain ⟨e, x, he, hS, hx, hsize, rfl, rfl⟩ := hidx.present k v hk
    refine ⟨e, x.ts, x.kind, hindex ▸ he, hreadable _ hS, hsize, ?_⟩
    unfold openRaw at hx
    split at hx
    · rename_i hmem
      obtain ⟨b, hb, hxb⟩ := List.mem_flatten.mp (mem_layout hx).2.2
      rw [hsize, File.pread_of_prefix (h.data max (hdir ▸ hmem)) hx,
        decodeRecord_encode x ((hok.block _ hmem b hb).wf x hxb)]
    · cases hx
  rw [getAlone_openVLog hstores, hok.getAlone]

end Shows

/-! ### The directory after a crash -/

/-- The segments hold the blocks `kept`, and each may have a torn end. -/
structure Torn (d : Disk) (kept : Nat → List (List Record)) : Prop where
  file : ∀ S ∈ d.dir, ∃ part piece, TornFile (d.file S) (kept S) part piece
  snapshot : d.snapshot = none

namespace Torn

theorem shows (h : Torn d kept) : Shows d kept where
  recovered S hS := by
    obtain ⟨part, piece, hf⟩ := h.file S hS
    exact hf.recovered
  bytes S hS := by
    obtain ⟨part, piece, hf⟩ := h.file S hS
    rw [hf.data, encodeAll_append, List.append_assoc]
    exact List.prefix_append _ _
  scanned S hS := by
    obtain ⟨part, piece, hf⟩ := h.file S hS
    rw [hf.scan, encodeAll_append, List.length_append]
    exact Nat.le_add_right _ _
  snapshot := h.snapshot

/-- The segment that is resumed loses the piece of a record, and keeps the unfinished block. -/
theorem data_resumed (h : Torn d kept) {S : Nat} (hmem : S ∈ d.dir) {part : List Record} {piece : Bytes}
    (hf : TornFile (d.file S) (kept S) part piece) (hS : S = (openVLog d max).active.id) :
    ((openVLog d max).segs S).file.data = encodeAll ((kept S).flatten ++ part) := by
  have hfile := ((opens_openVLog d max).resumed (hS ▸ hmem) (by rw [h.shows.recoverIndex_eq])).1
  rw [← hS] at hfile
  rw [hfile, hf.scan, hf.data, List.take_left]

theorem reopen [LawfulHashes] (h : Torn d kept) (hne : d.dir ≠ []) (max : Nat) :
    Torn (openVLog d max).disk kept ∧ (openVLog d max).disk.dir = d.dir := by
  have ho := opens_openVLog d max
  have hdir : (openVLog d max).disk.dir = d.dir := by
    show (openVLog d max).dir = d.dir
    rw [ho.dir, if_neg hne]
  refine ⟨⟨fun S hS => ?_, ho.snapshot.trans h.snapshot⟩, hdir⟩
  have hS : S ∈ d.dir := hdir ▸ hS
  obtain ⟨part, piece, hf⟩ := h.file S hS
  by_cases hact : S = (openVLog d max).active.id
  · refine ⟨part, [], ?_, nextRecord_zeros _, hf.block, hf.wf, hf.held⟩
    rw [List.append_nil]
    exact h.data_resumed hS hf hact
  · refine ⟨part, piece, ?_⟩
    show TornFile ((openVLog d max).segs S).file _ _ _
    rw [(ho.sealed S hS hact).1]
    exact hf

end Torn

/-- The directory with the first `n S` bytes of each segment `S`. -/
def Disk.cut (d : Disk) (n : Nat → Nat) : Disk := { d with file := fun S => (d.file S).truncate (n S) }

/-- The length of some blocks on disk. -/
def blocksLen (bs : List (List Record)) : Nat := (encodeAll bs.flatten).length

/-- Cut between two blocks, a directory still consists of whole blocks. -/
theorem DiskOk.cut (h : DiskOk d fun S => kept S ++ lost S) :
    DiskOk (d.cut fun S => blocksLen (kept S)) kept where
  nodup := h.nodup
  data S hS := by
    show (d.file S).data.take (encodeAll (kept S).flatten).length = _
    rw [h.data S hS, List.flatten_append, encodeAll_append, List.take_left]
  block S hS b hb := h.block S hS b (List.mem_append_left _ hb)
  inj S hS x hx T hT y hy :=
    h.inj S hS x (by simp only [List.flatten_append, List.mem_append]; exact .inl hx) T hT y
      (by simp only [List.flatten_append, List.mem_append]; exact .inl hy)
  snapshot := h.snapshot

/-- A cut of a directory of whole blocks falls somewhere in each segment. -/
theorem DiskOk.exists_cut (h : DiskOk d raw) (n : Nat → Nat) :
    ∃ kept lost : Nat → List (List Record), (DiskOk d fun S => kept S ++ lost S) ∧
      ∀ S ∈ d.dir, ∃ part piece, Cut (kept S) (lost S) (n S) part piece := by
  have hsplit : ∀ S, ∃ kept lost, S ∈ d.dir →
      raw S = kept ++ lost ∧ ∃ part piece, Cut kept lost (n S) part piece := by
    intro S
    by_cases hS : S ∈ d.dir
    · obtain ⟨kept, lost, part, piece, heq, hcut⟩ := Skeg.exists_cut (h.block S hS) (n S)
      exact ⟨kept, lost, fun _ => ⟨heq, part, piece, hcut⟩⟩
    · exact ⟨[], [], fun h => absurd h hS⟩
  choose kept lost hkl using hsplit
  refine ⟨kept, lost, ⟨h.nodup, fun S hS => (hkl S hS).1 ▸ h.data S hS,
    fun S hS => (hkl S hS).1 ▸ h.block S hS, fun S hS x hx T hT y hy => ?_, h.snapshot⟩,
    fun S hS => (hkl S hS).2⟩
  exact h.inj S hS x ((hkl S hS).1 ▸ hx) T hT y ((hkl T hT).1 ▸ hy)

/-- Cut anywhere, it has torn ends. -/
theorem DiskOk.torn_cut [LawfulHashes] (h : DiskOk d fun S => kept S ++ lost S)
    (hcut : ∀ S ∈ d.dir, ∃ part piece, Cut (kept S) (lost S) (n S) part piece) : Torn (d.cut n) kept := by
  refine ⟨fun S hS => ?_, h.snapshot⟩
  obtain ⟨part, piece, hc⟩ := hcut S hS
  exact ⟨part, piece, hc.tornFile (h.block S hS) (h.data S hS)⟩

/-- The directory after it was opened with these segment sizes, one after the other. -/
def Disk.reopened (d : Disk) : List Nat → Disk
  | [] => d
  | max :: maxs => Disk.reopened (openVLog d max).disk maxs

/-- A crash during or after recovery changes nothing: a directory with cut segments answers alike
however often it has been opened. -/
theorem recovery_idempotent [LawfulHashes] (hok : DiskOk d raw) (hne : d.dir ≠ []) (n : Nat → Nat)
    (maxs : List Nat) (max : Nat) (k : Bytes) (tenant : Nat) :
    (openVLog ((d.cut n).reopened maxs) max).getAlone k tenant =
      (openVLog (d.cut n) max).getAlone k tenant := by
  obtain ⟨kept, lost, hok', hcuts⟩ := hok.exists_cut n
  have htorn := hok'.torn_cut hcuts
  have hall : ∀ (maxs : List Nat) (e : Disk), Torn e kept → e.dir = d.dir →
      Torn (e.reopened maxs) kept ∧ (e.reopened maxs).dir = d.dir := by
    intro maxs
    induction maxs with
    | nil => exact fun e he hdir => ⟨he, hdir⟩
    | cons max maxs ih =>
      intro e he hdir
      obtain ⟨he', hdir'⟩ := he.reopen (hdir ▸ hne) max
      exact ih _ he' (hdir'.trans hdir)
  obtain ⟨hre, hdir⟩ := hall maxs _ htorn rfl
  rw [hre.shows.getAlone hok'.cut hdir.symm, htorn.shows.getAlone hok'.cut rfl]

/-! ### What a key loses -/

section

variable [LawfulHashes]

omit H [LawfulHashes] in
theorem IsNewest.congr {L L' : List (Nat × Nat × Record)} {k : Bytes} {o : Option (SegLog.Rec Bytes Bytes)}
    (hsame : ∀ x, x.2.2.key = k → (x ∈ L ↔ x ∈ L')) (h : IsNewest L k o) : IsNewest L' k o := by
  cases o with
  | none => exact fun x hx hk => h x ((hsame x hk).mpr hx) hk
  | some l =>
    obtain ⟨x, hx, hk, habs, hmax⟩ := h
    exact ⟨x, (hsame x hk).mp hx, hk, habs, fun y hy hyk => hmax y ((hsame y hyk).mpr hy) hyk⟩

theorem DiskOk.newest_unique (h : DiskOk d raw) {k : Bytes} {o o' : Option (SegLog.Rec Bytes Bytes)}
    (ho : IsNewest (diskRecords d (listSegments d.dir)) k o)
    (ho' : IsNewest (diskRecords d (listSegments d.dir)) k o') : o = o' := by
  cases o with
  | none =>
    cases o' with
    | none => rfl
    | some l =>
      obtain ⟨x, hx, hk, _⟩ := ho'
      exact absurd hk (ho x hx)
  | some l =>
    obtain ⟨x, hx, hk, habs, hmax⟩ := ho
    cases o' with
    | none => exact absurd hk (ho' x hx)
    | some l' =>
      obtain ⟨y, hy, hyk, habs', hmax'⟩ := ho'
      subst habs habs'
      exact congrArg some (h.eq_of_ts hx hy (Nat.le_antisymm (hmax' x hx hk) (hmax y hy hyk)))

/-- A key that no lost block writes has its value still. -/
theorem liveMap_cut (h : DiskOk d fun S => kept S ++ lost S) {k : Bytes}
    (hk : ∀ S ∈ d.dir, ∀ b ∈ lost S, ∀ r ∈ b, r.kind ≠ .batchBegin → r.key ≠ k) :
    liveMap (recoveredEvents (d.cut fun S => blocksLen (kept S))) k = liveMap (recoveredEvents d) k := by
  set w := d.cut fun S => blocksLen (kept S) with hw
  have hok : DiskOk w kept := h.cut
  have hsame : ∀ x, x.2.2.key = k →
      (x ∈ diskRecords w (listSegments w.dir) ↔ x ∈ diskRecords d (listSegments d.dir)) := by
    rintro ⟨S, o, x⟩ hxk
    rw [hok.mem_records, h.mem_records]
    show S ∈ d.dir ∧ _ ↔ _
    refine and_congr_right fun hS => and_congr_left fun hkind => ?_
    rw [List.flatten_append, layout_append, List.mem_append]
    refine ⟨.inl, fun hx => hx.resolve_right fun hx => ?_⟩
    obtain ⟨b, hb, hxb⟩ := List.mem_flatten.mp (mem_layout hx).2.2
    exact hk S hS b hb x hxb hkind hxk
  have hnew := (lastApplied_recoveredEvents w k).congr hsame
  rw [liveMap, liveMap, h.newest_unique hnew (lastApplied_recoveredEvents d k)]

end

/-! ### A crash at any moment of a run -/

variable {hist : List Event} {s : VLog}

/-- Whatever is queued or in flight, the segments of a store consist of whole blocks, and their records
are older than its clock. -/
theorem Reaches.diskOk [LawfulHashes] (hrun : Reaches (fun _ => Sound) d max hist s) (hd : DiskOk d raw) :
    ∃ done, DiskOk s.disk.withoutSnapshot done ∧
      ∀ S, ∀ x ∈ (done S).flatten, x.kind ≠ .batchBegin → x.ts < s.clock := by
  obtain ⟨α, raw, h, hwf, _⟩ := hrun.log hd (fun _ _ _ h => h) (fun _ _ _ => True) trivial
    fun _ _ _ _ _ _ _ _ _ _ _ _ _ _ => trivial
  choose done queued hraw hdata _ _ using h.seg
  have hsent : ∀ S, ∀ x ∈ (done S).flatten, x.kind ≠ .batchBegin → ∃ o, (o, absRec x) ∈ α.sent S := by
    intro S x hx hkind
    have hlay : x ∈ (layout 0 (raw S).flatten).map Prod.snd := by
      rw [map_snd_layout, hraw, List.flatten_append]
      exact List.mem_append_left _ hx
    obtain ⟨⟨o, y⟩, hy, rfl⟩ := List.mem_map.mp hlay
    exact ⟨o, by rw [h.sent]; exact mem_dataRecs.mpr ⟨y, hy, hkind, rfl⟩⟩
  refine ⟨done, ⟨h.dir_nodup, fun S _ => hdata S, fun S _ b hb => ?_, ?_, rfl⟩, fun S x hx hkind => ?_⟩
  · exact h.block S b (hraw S ▸ List.mem_append_left _ hb)
  · intro S _ x hx T _ y hy hxk hyk hts
    obtain ⟨o, ho⟩ := hsent S x hx hxk
    obtain ⟨p, hp⟩ := hsent T y hy hyk
    exact hwf.sent_inj S _ ho T _ hp hts
  · obtain ⟨o, ho⟩ := hsent S x hx hkind
    exact h.clock ▸ hwf.sent_clock S _ ho

/-- In every state of a run the records on disk are older than the clock, and two of one timestamp tell
of the same write. -/
theorem timestamps_identify_writes [LawfulHashes] (hd : DiskOk d raw)
    (hrun : Reaches (fun _ => Sound) d max hist s) :
    ∀ x ∈ diskRecords s.disk (listSegments s.dir), x.2.2.ts < s.clock ∧
      ∀ y ∈ diskRecords s.disk (listSegments s.dir), x.2.2.ts = y.2.2.ts → absRec x.2.2 = absRec y.2.2 := by
  obtain ⟨done, hok, hclock⟩ := hrun.diskOk hd
  intro x hx
  obtain ⟨_, hlay, hkind⟩ := hok.mem_records.mp hx
  exact ⟨hclock _ _ (mem_layout hlay).2.2 hkind, fun y hy => hok.eq_of_ts hx hy⟩

/-- The cut at `n` falls behind the blocks `kept` and before the end of the next one. -/
def LastWhole (kept lost : List (List Record)) (n : Nat) : Prop :=
  blocksLen kept ≤ n ∧ ∀ b rest, lost = b :: rest → n < blocksLen (kept ++ [b])

/-- At any moment of any run a crash may cut the segments anywhere: the store opened on what is left
answers every get, and as if the writes that are not there as a whole had never been made.  A key
that none of these writes has its value still. -/
theorem crash_keeps_whole_writes [LawfulHashes] (hd : DiskOk d raw)
    (hrun : Reaches (fun _ => Sound) d max hist s) (n : Nat → Nat) :
    ∃ kept lost : Nat → List (List Record),
      (∀ S ∈ s.dir, (s.segs S).file.data = encodeAll (kept S ++ lost S).flatten ∧
        (∀ b ∈ kept S ++ lost S, IsBlock b) ∧ LastWhole (kept S) (lost S) (n S)) ∧
      ∀ max' k tenant, ∃ v,
        (openVLog (s.disk.withoutSnapshot.cut n) max').getAlone k tenant = some (.ok (.value v)) ∧
        (openVLog (s.disk.withoutSnapshot.cut fun S => blocksLen (kept S)) max').getAlone k tenant =
          some (.ok (.value v)) ∧
        ((∀ S ∈ s.dir, ∀ b ∈ lost S, ∀ r ∈ b, r.kind ≠ .batchBegin → r.key ≠ k) →
          (openVLog s.disk.withoutSnapshot max').getAlone k tenant = some (.ok (.value v))) := by
  obtain ⟨done, hok, _⟩ := hrun.diskOk hd
  obtain ⟨kept, lost, hok', hcuts⟩ := hok.exists_cut n
  refine ⟨kept, lost, fun S hS => ⟨hok'.data S hS, hok'.block S hS, ?_⟩, fun max' k tenant => ?_⟩
  · obtain ⟨part, piece, hcut⟩ := hcuts S hS
    refine ⟨hcut.enough, fun b rest hb => ?_⟩
    rcases hcut.next with ⟨hnil, _⟩ | ⟨c, _, hc, _, _, hlt⟩
    · rw [hnil] at hb
      cases hb
    · rw [hc] at hb
      cases hb
      simpa [blocksLen] using hlt
  · have hwhole := hok'.cut.getAlone max' k tenant
    refine ⟨_, ?_, hwhole, fun hk => ?_⟩
    · exact ((hok'.torn_cut hcuts).shows.getAlone hok'.cut rfl max' k tenant).trans hwhole
    · rw [hok'.getAlone, liveMap_cut hok' hk]

end

section

attribute [local instance] linkedHashes

/-- A set that has completed and a batch that is flushed and not yet applied, cut in its first member. -/
theorem crash_keeps_whole_writes_cut_batch : ∃ hist s,
    Reaches (fun _ => Sound) Disk.empty 1024 hist s ∧ ¬ s.AtRest ∧ (s.segs 0).file.data.length = 512 ∧
      ∃ v, (openVLog (s.disk.withoutSnapshot.cut fun _ => 300) 1024).getAlone [1] 0 =
        some (.ok (.value v)) := by
  obtain ⟨hist, s, hrun, hbusy, hlen⟩ := exists_run_of_exec
    (fun _ s => ¬ s.AtRest ∧ (s.segs 0).file.data.length = 512)
    [.spawn 1 (.set [1] [10] .relaxed 0 none), .flush 0 1 .ok, .resume 1,
      .spawn 2 (.setMany [([1], [20]), ([2], [20])] .kernel), .flush 0 1 .ok]
    (show (Transition.exec VLog.step (fun _ => Sound) (recoveredEvents Disk.empty)
      (openVLog Disk.empty 1024) _).any _ = true by decide +kernel)
  obtain ⟨kept, lost, _, hget⟩ := crash_keeps_whole_writes diskOk_empty hrun fun _ => 300
  obtain ⟨v, hv, _⟩ := hget 1024 [1] 0
  exact ⟨hist, s, hrun, hbusy, hlen, v, hv⟩

/-- The two records of a batch that is flushed and not yet applied. -/
theorem timestamps_identify_writes_batch : ∃ hist s, Reaches (fun _ => Sound) Disk.empty 512 hist s ∧
    (diskRecords s.disk (listSegments s.dir)).length = 2 ∧
    ∀ x ∈ diskRecords s.disk (listSegments s.dir), x.2.2.ts < s.clock ∧
      ∀ y ∈ diskRecords s.disk (listSegments s.dir), x.2.2.ts = y.2.2.ts → absRec x.2.2 = absRec y.2.2 := by
  obtain ⟨hist, s, hrun, htwo⟩ := exists_run_of_exec
    (fun _ s => (diskRecords s.disk (listSegments s.dir)).length = 2)
    [.spawn 2 (.setMany [([1], [20]), ([2], [20])] .kernel), .flush 0 1 .ok]
    (show (Transition.exec VLog.step (fun _ => Sound) (recoveredEvents Disk.empty)
      (openVLog Disk.empty 512) _).any _ = true by decide +kernel)
  exact ⟨hist, s, hrun, htwo, timestamps_identify_writes diskOk_empty hrun⟩

end

/-! ### Writes behind an unfinished batch -/

section

variable [H : Hashes] {d : Disk} {kept lost : Nat → List (List Record)} {n : Nat → Nat} {max : Nat}

/-- The directory after the records `rs` were written behind the data of segment `S`. -/
def Disk.append (d : Disk) (S : Nat) (rs : List Record) : Disk :=
  { d with file := Function.update d.file S ((d.file S).writeAt (d.file S).data.length (encodeAll rs)) }

/-- In `d'` the records `rs` stand behind the data of segment `S`, and the other segments are those of `d`. -/
structure Disk.Appended (d d' : Disk) (S : Nat) (rs : List Record) : Prop where
  dir : d'.dir = d.dir
  data : (d'.file S).data = (d.file S).data ++ encodeAll rs
  other : ∀ T ∈ d.dir, T ≠ S → d'.file T = d.file T

theorem Disk.appended_append (d : Disk) (S : Nat) (rs : List Record) : d.Appended (d.append S rs) S rs where
  dir := rfl
  data := by
    show (Function.update d.file S _ S).data = _
    rw [Function.update_self]
    show File.overwrite _ _ _ = _
    unfold File.overwrite
    split
    · rename_i h
      rw [h, List.append_nil]
    · simp [zeros]
  other T _ hT := Function.update_of_ne hT _ _

omit H in
theorem IsBlock.length_lt {ts : Nat} {pairs : List (Bytes × Bytes)} (h : IsBlock (batchRecords ts pairs)) :
    pairs.length < 2 ^ 32 := by
  rcases h.shape with ⟨r, hr, hkind⟩ | ⟨ts', pairs', heq, _, hlen⟩
  · obtain ⟨rfl, _⟩ := List.cons.inj hr
    exact absurd rfl hkind
  · have hlength := congrArg List.length heq
    simp only [batchRecords, List.length_cons, batchMembers_length] at hlength
    omega

omit H in
/-- Records behind the marker of a batch are taken for its members. -/
theorem held_behind {ts : Nat} {pairs : List (Bytes × Bytes)} (hlen : pairs.length < 2 ^ 32)
    {part rs : List Record} (hpre : part <+: batchRecords ts pairs) (hmarker : part ≠ [])
    (hkind : ∀ r ∈ rs, r.kind ≠ .batchBegin) (hfew : part.length + rs.length ≤ pairs.length) (o : Nat) :
    ((⟨none, []⟩ : BatchGate).feedAll (layout o (part ++ rs))).2 = [] := by
  obtain ⟨header, ms, rfl⟩ := List.exists_cons_of_ne_nil hmarker
  unfold batchRecords at hpre
  obtain ⟨rfl, hms⟩ := List.cons_prefix_cons.mp hpre
  rw [List.length_cons] at hfew
  rw [List.cons_append]
  refine BatchGate.feedAll_announced hlen (fun r hr => ?_) (by rw [List.length_append]; omega) o
  rcases List.mem_append.mp hr with hr | hr
  · rw [batchMembers_kind (hms.subset hr)]
    simp
  · exact hkind r hr

variable {part : Nat → List Record} {piece : Nat → Bytes}

/-- The marker of a batch that a crash has cut stays in the segment that is resumed.  Records written
behind it are taken for the members that are missing: while they are fewer than these, the next
recovery shows none of them, in whatever state of the store they are all that was written. -/
theorem unfinished_batch_hides_writes [LawfulHashes] (max : Nat) (hok : DiskOk d fun S => kept S ++ lost S)
    (hne : d.dir ≠ []) (hcut : ∀ S ∈ d.dir, Cut (kept S) (lost S) (n S) (part S) (piece S))
    {S ts : Nat} {pairs : List (Bytes × Bytes)} {rest : List (List Record)}
    (hS : S = (openVLog (d.cut n) max).active.id) (hlost : lost S = batchRecords ts pairs :: rest)
    (hmarker : part S ≠ []) {rs : List Record} (hwf : ∀ r ∈ rs, r.Wf)
    (hkind : ∀ r ∈ rs, r.kind ≠ .batchBegin) (hfew : (part S).length + rs.length ≤ pairs.length)
    (max' : Nat) (k : Bytes) (tenant : Nat) :
    (openVLog ((openVLog (d.cut n) max).disk.append S rs) max').getAlone k tenant =
        (openVLog (d.cut n) max').getAlone k tenant ∧
      ∀ s : VLog, (openVLog (d.cut n) max).disk.Appended s.disk S rs →
        (openVLog s.disk.withoutSnapshot max').getAlone k tenant = (openVLog (d.cut n) max').getAlone k tenant := by
  have htorn := hok.torn_cut fun S hS => ⟨part S, piece S, hcut S hS⟩
  obtain ⟨hopen, hdir⟩ := htorn.reopen hne max
  have hmem : S ∈ d.dir := by
    rw [hS, ← show _ = d.dir from hdir]
    exact (opens_openVLog (d.cut n) max).active.1
  have hf := (hcut S hmem).tornFile (hok.block S hmem) (hok.data S hmem)
  -- the part that is left of the batch begins with its marker
  have hpre : part S <+: batchRecords ts pairs := by
    rcases (hcut S hmem).next with ⟨hnil, _⟩ | ⟨b, _, hb, hpre, _⟩
    · rw [hnil] at hlost
      cases hlost
    · rw [hb] at hlost
      cases hlost
      exact hpre
  have hlen := (hok.block S hmem _ (List.mem_append_right _ (hlost ▸ List.mem_cons_self))).length_lt
  -- the segment has a torn end of which the records behind the marker are a part
  have hshows : ∀ d' : Disk, (openVLog (d.cut n) max).disk.Appended d' S rs → d'.snapshot = none →
      (openVLog d' max').getAlone k tenant = (openVLog (d.cut n) max').getAlone k tenant := by
    intro d' happended hsnap
    have happend : Torn d' kept := by
      refine ⟨fun T hT => ?_, hsnap⟩
      rw [happended.dir] at hT
      by_cases hTS : T = S
      · rw [hTS]
        refine ⟨part S ++ rs, [], ?_, nextRecord_zeros _, hf.block,
          fun r hr => (List.mem_append.mp hr).elim (hf.wf r) (hwf r),
          held_behind hlen hpre hmarker hkind hfew⟩
        rw [happended.data, List.append_nil, ← List.append_assoc, encodeAll_append _ rs]
        exact congrArg (· ++ _) (htorn.data_resumed hmem hf hS)
      · rw [happended.other T hT hTS]
        exact hopen.file T hT
    rw [happend.shows.getAlone hok.cut (happended.dir.trans hdir).symm, htorn.shows.getAlone hok.cut rfl]
  exact ⟨hshows _ (Disk.appended_append _ S rs) hopen.snapshot, fun s happended =>
    hshows _ ⟨happended.dir, happended.data, happended.other⟩ rfl⟩

end

section

attribute [local instance] linkedHashes

/-- The pairs of a batch of three. -/
def threePairs : List (Bytes × Bytes) := [([1], [10]), ([2], [20]), ([3], [30])]

/-- A directory with one segment, which holds this batch. -/
def oneBatch : Disk where
  dir := [0]
  file _ := (File.create 512).writeAt 0 (encodeAll (batchRecords 1 threePairs))
  snapshot := none

theorem diskOk_oneBatch : DiskOk oneBatch fun _ => [] ++ [batchRecords 1 threePairs] where
  nodup := List.nodup_singleton 0
  data S _ := by simp [oneBatch, File.writeAt, File.create, File.overwrite]
  block S _ b hb := by
    rw [List.mem_singleton.mp hb]
    refine ⟨fun r hr => ?_, .inr ⟨1, threePairs, rfl, by decide, by decide⟩⟩
    simp only [batchRecords, batchMembers, threePairs, List.mem_cons, List.not_mem_nil, or_false] at hr
    rcases hr with rfl | rfl | rfl | rfl <;> constructor <;> decide
  inj S _ x hx T _ y hy hxk hyk hts := by
    simp only [List.nil_append, List.flatten_cons, List.flatten_nil, List.append_nil, batchRecords,
      batchMembers, threePairs, List.mem_cons, List.not_mem_nil, or_false] at hx hy
    rcases hx with rfl | rfl | rfl | rfl <;> rcases hy with rfl | rfl | rfl | rfl <;>
      first | rfl | (exact absurd hts (by decide))
  snapshot := rfl

theorem recovery_idempotent_oneBatch :
    (openVLog ((oneBatch.cut fun _ => 300).reopened [512, 256]) 512).getAlone [1] 0 =
      (openVLog (oneBatch.cut fun _ => 300) 512).getAlone [1] 0 :=
  recovery_idempotent diskOk_oneBatch (by decide) _ _ _ _ _

theorem cut_oneBatch : Cut [] [batchRecords 1 threePairs] 300 ((batchRecords 1 threePairs).take 2)
    (((encodeAll (batchRecords 1 threePairs)).drop 256).take 44) :=
  ⟨by decide +kernel, by decide +kernel, by decide, .inr ⟨_, [], rfl, List.take_prefix _ _, by decide,
    by decide +kernel⟩⟩

/-- A crash cuts the batch behind its first member; a set with the strongest durability is answered
after the next open, and the open after that does not show it. -/
theorem unfinished_batch_hides_writes_set : ∃ hist s,
    Reaches (fun _ => Sound) (oneBatch.cut fun _ => 300) 512 hist s ∧ s.AtRest ∧
      s.getAlone [7] 0 = some (.ok (.value (some [70]))) ∧
      (openVLog (oneBatch.cut fun _ => 300) 512).disk.Appended s.disk 0 [⟨3, .scalar, [7], [70]⟩] ∧
      (openVLog s.disk.withoutSnapshot 512).getAlone [7] 0 = some (.ok (.value none)) := by
  obtain ⟨hist, s, hrun, hrest, hget, hdir, hdata⟩ := exists_run_of_exec
    (fun _ s => s.AtRest ∧ s.getAlone [7] 0 = some (.ok (.value (some [70]))) ∧ s.dir = [0] ∧
      (s.segs 0).file.data = ((openVLog (oneBatch.cut fun _ => 300) 512).segs 0).file.data ++
        encodeAll [⟨3, .scalar, [7], [70]⟩])
    [.spawn 1 (.set [7] [70] .power 0 none), .flush 0 1 .ok, .resume 1]
    (show (Transition.exec VLog.step (fun _ => Sound) (recoveredEvents (oneBatch.cut fun _ => 300))
      (openVLog (oneBatch.cut fun _ => 300) 512) _).any _ = true by decide +kernel)
  have hopened : (openVLog (oneBatch.cut fun _ => 300) 512).disk.dir = [0] := by decide +kernel
  have happended : (openVLog (oneBatch.cut fun _ => 300) 512).disk.Appended s.disk 0 [⟨3, .scalar, [7], [70]⟩] :=
    ⟨hdir.trans hopened.symm, hdata, fun T hT hne => absurd (List.mem_singleton.mp (hopened ▸ hT)) hne⟩
  refine ⟨hist, s, hrun, hrest, hget, happended, ?_⟩
  rw [(unfinished_batch_hides_writes 512 (S := 0) diskOk_oneBatch (by decide)
    (fun _ _ => cut_oneBatch) (by decide +kernel) rfl (by decide)
    (fun r hr => by rw [List.mem_singleton.mp hr]; constructor <;> decide)
    (fun r hr => by rw [List.mem_singleton.mp hr]; decide) (by decide) 512 [7] 0).2 s happended]
  decide +kernel

end

end Skeg
