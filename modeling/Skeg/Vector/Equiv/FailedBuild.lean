import Skeg.Vector.Equiv.Views

/-!
# Builds that fail

When a build fails there is no `finish`, and what `begin` has done stays.  For `merge_runs`, `consolidate` and
`delete_patch` that is a number for a run at most, and the build has written to a directory of its own: the view, the
reads and the next flush are as if the job had never begun (`failed_builds_harmless`).

`flush_begin` moves the delta into `flushing`, and only `flush_finish` clears it.  After a flush whose build has failed
no other flush begins (`flush_stuck`), and when a consolidate has folded the vectors into the base, the ones left in
`flushing` hide what was written since.
-/

namespace Skeg

namespace Vector

variable {d : Dir} {p : Place}

/-! ### What a failed build leaves -/

/-- The files that were there are as they were, and the one at `p`, if there is one, is new. -/
structure Littered (p : Place) (t t' : Table Place) : Prop where
  bounded : t'.Bounded
  next : t.next ≤ t'.next
  data : ∀ i < t.next, t'.data i = t.data i
  entry : ∀ q ≠ p, t'.entry q = t.entry q
  fresh : ∀ i, t'.entry p = some i → t.next ≤ i

variable {t t' : Table Place}

theorem Littered.target (h : Littered p t t') : t.next ≤ t'.target p := by
  rw [Table.target]
  cases hp : t'.entry p with
  | none => exact h.next
  | some i => exact h.fresh i hp

theorem Littered.create (h : Littered p t t') : Littered p t (t'.create p) where
  bounded := h.bounded.create p
  next := by
    rw [Table.next_create]
    split
    · exact Nat.le_succ_of_le h.next
    · exact h.next
  data i hi := by
    rw [Table.data_create, Function.update_of_ne (Nat.ne_of_lt (Nat.lt_of_lt_of_le hi h.target)), h.data i hi]
  entry q hq := by rw [Table.entry_create, Function.update_of_ne hq, h.entry q hq]
  fresh i hi := by
    rw [Table.entry_create, Function.update_self] at hi
    exact Option.some.inj hi ▸ h.target

theorem Littered.write (h : Littered p t t') (b : Bytes) : Littered p t (t'.write p b) := by
  rw [Table.write]
  split
  · rename_i i hi
    refine ⟨h.bounded, h.next, fun j hj => ?_, h.entry, h.fresh⟩
    have hne : j ≠ i := Nat.ne_of_lt (Nat.lt_of_lt_of_le hj (h.fresh i hi))
    exact (Function.update_of_ne hne ..).trans (h.data j hj)
  · exact h

/-- The directory has been cleared, and then written to. -/
theorem littered_crashAt (hb : ∀ k, (d k).Bounded) (files : List (FileKind × Bytes)) (n c : Nat) (k : FileKind) :
    Littered p (d k) (Files.crashAt (files.flatMap fun f => [.create f.1 p, .write f.1 p f.2]) n c
      (d.run (removeTree p)) k) := by
  have happly : ∀ (e : Dir) (k' : FileKind) (g : Table Place → Table Place),
      (∀ k, Littered p (d k) (e k)) → Littered p (d k') (g (e k')) → ∀ k, Littered p (d k) (e.modify k' g k) := by
    intro e k' g he hg k
    by_cases hk : k = k'
    · subst hk
      rwa [Files.modify_self]
    · rw [Files.modify_of_ne _ _ hk]
      exact he k
  refine Files.crashAt_induction (P := fun e : Dir => ∀ k, Littered p (d k) (e k)) (fun k => ?_)
    (fun op hop e he => ?_) (fun k' q b hop c e he => ?_) n c k
  · rw [run_removeTree]
    refine ⟨(hb k).remove p, Nat.le_refl _, fun _ _ => rfl, fun q hq => Function.update_of_ne hq .., fun i hi => ?_⟩
    simp [Table.remove] at hi
  · obtain ⟨f, -, hop⟩ := List.mem_flatMap.mp hop
    simp only [List.mem_cons, List.not_mem_nil, or_false] at hop
    rcases hop with rfl | rfl
    · exact happly e f.1 (·.create p) he (he f.1).create
    · exact happly e f.1 (·.write p f.2) he ((he f.1).write f.2)
  · obtain ⟨f, -, hop⟩ := List.mem_flatMap.mp hop
    simp only [List.mem_cons, List.not_mem_nil, or_false, reduceCtorEq, false_or, FileOp.write.injEq] at hop
    obtain ⟨rfl, rfl, rfl⟩ := hop
    exact happly e f.1 (·.write q (f.2.take c)) he ((he f.1).write _)

/-- The directory has not been cleared altogether. -/
theorem frame_clearing (hb : ∀ k, (d k).Bounded) (hp : p ≠ .base) (m n c : Nat) :
    Frame d (Files.crashAt (removeTree p) n c d) m := by
  have hmem : ∀ op ∈ removeTree p, ∃ k, op = .remove k p := by simp [removeTree]
  refine frame_removed hb hp (Files.crashAt_induction
    (P := fun e : Dir => ∀ k, e k = d k ∨ e k = (d k).remove p) (fun _ => .inl rfl) (fun op hop e he k => ?_)
    (fun k q b hop => ?_) n c) m
  · obtain ⟨k', rfl⟩ := hmem op hop
    by_cases hk : k = k'
    · subst hk
      rw [Files.apply, Files.modify_self]
      rcases he k with he | he <;> rw [he]
      · exact .inr rfl
      · exact .inr (by simp [Table.remove])
    · rw [Files.apply, Files.modify_of_ne _ _ hk]
      exact he k
  · obtain ⟨k', hk'⟩ := hmem _ hop
    cases hk'

theorem frame_crashAt (hb : ∀ k, (d k).Bounded) (hp : p ≠ .base) {m : Nat} (hm : ∀ seq, p = .run seq → seq < m)
    (files : List (FileKind × Bytes)) (n c : Nat) : Frame d (Files.crashAt (buildOps p files) n c d) m := by
  rw [buildOps]
  by_cases hn : n < (removeTree p).length
  · rw [Files.crashAt_append_of_lt hn]
    exact frame_clearing hb hp m n c
  · rw [Files.crashAt_append_of_le (Nat.le_of_not_lt hn)]
    have hlittered := littered_crashAt (p := p) hb files (n - (removeTree p).length) c
    refine ⟨fun k => (hlittered k).bounded, fun k _ => (hlittered k).next, fun k _ => (hlittered k).data,
      fun k _ => (hlittered k).entry _ (Ne.symm hp), fun k seq hs => ?_⟩
    by_cases hq : Place.run seq = p
    · exact .inr (hm seq hq.symm)
    · rw [(hlittered k).entry _ hq] at hs
      exact .inl hs

/-! ### One failure -/

section

variable [H : Hashes] {U : Finset UInt64} {ops : List DeltaWalOp} {s : Sys}

/-- A job that is not a flush leaves nothing behind. -/
theorem SysInv.failBuild (h : SysInv U ops s) (hflush : ∀ j ∈ s.job, j.isFlush = false)
    (files : List (FileKind × Bytes)) (n c : Nat) :
    SysInv U ops (s.failBuild files n c) ∧ (s.failBuild files n c).index = s.index := by
  obtain ⟨hx, hj⟩ := h
  unfold Sys.failBuild
  split
  · exact ⟨⟨hx, hj⟩, rfl⟩
  · rename_i p hp
    obtain ⟨job, hjob, hplace⟩ := Option.bind_eq_some_iff.mp hp
    have hflush := hflush job hjob
    rw [hjob] at hj
    have hleft : p ≠ .base → (∀ seq, p = .run seq → seq < s.index.runSeq) →
        ((s.index.state ops).staged = fun _ => none) →
        SysInv U ops { s with dir := Files.crashAt (buildOps p files) n c s.dir, job := none } :=
      fun hbase hseq hst => ⟨hx.frame (frame_crashAt hx.bounded hbase hseq files n c), hst⟩
    refine ⟨?_, rfl⟩
    cases job with
    | flush j => cases hflush
    | mergeRuns j =>
      obtain rfl := Option.some.inj hplace
      obtain ⟨hst, val, -, -, -, -, hseq, -⟩ := hj
      exact hleft nofun (fun seq heq => Place.run.inj heq ▸ hseq) hst
    | consolidate j =>
      obtain rfl := Option.some.inj hplace
      obtain ⟨val, mark, -, -, -, -, -, hst, -⟩ := hj
      exact hleft nofun nofun hst
    | deletePatch j =>
      obtain rfl := Option.some.inj hplace
      exact hleft nofun nofun hj.1
    | flushBuilt b | mergeRunsBuilt b | consolidateBuilt b | deletePatchBuilt b => cases hplace

/-! ### Runs -/

/-- Background maintenance and the writes that race with it; the build of a flush does not fail. -/
def FailAct.Harmless (U : Finset UInt64) (s : Sys) : FailAct → Prop
  | .act a => a.Background U ∧ s.index.autoFlush = false
  | .failBuild .. => ∀ j ∈ s.job, j.isFlush = false

instance (U : Finset UInt64) (s : Sys) : ∀ a : FailAct, Decidable (a.Harmless U s)
  | .act a => inferInstanceAs (Decidable (a.Background U ∧ s.index.autoFlush = false))
  | .failBuild .. => inferInstanceAs (Decidable (∀ j ∈ s.job, j.isFlush = false))

variable [N : Numerics] {tier : QuantKind} {m : UInt64 → Option Vec}

theorem SysInv.failRun (h : SysInv U ops s) (hU : U.card < 2 ^ 32) {s' : Sys} {hist : List Event}
    (hrun : Transition.Run Sys.failStep (fun _ s a => a.Harmless U s) [] s hist s') :
    ∃ ops', SysInv U ops' s' ∧ s'.index.view = mapOf s.index.view hist := by
  refine hrun.invariant (fun hist t => ∃ ops', SysInv U ops' t ∧ t.index.view = mapOf s.index.view hist)
    ⟨ops, h, rfl⟩ ?_
  rintro hist t a t' ev ⟨ops', hinv, hview⟩ ha hstep
  cases a with
  | act a =>
    obtain ⟨ops'', hinv', hview', -⟩ := hinv.step hU (.inl (calm_of_background ha)) hstep
    exact ⟨ops'', hinv', by rw [hview', hview, mapOf_append]⟩
  | failBuild files n c =>
    obtain ⟨rfl, rfl⟩ := Prod.mk.inj (Option.some.inj hstep)
    obtain ⟨hinv', hindex⟩ := hinv.failBuild ha files n c
    exact ⟨ops', hinv', by rw [hindex, hview, List.append_nil]⟩

/-- **A failed build changes nothing**, if it is not the build of a flush and the run is one of inserts, deletes and
background jobs with `auto_flush` off, as the server has it.  Every id has the value its last insert or delete has
left, and a point read returns it wherever it would without failures; a flush begins whenever there is something to
flush and no job outstanding, and no write or job fails for what has happened before. -/
theorem failed_builds_harmless (hU : U.card < 2 ^ 32) (hd : Holds d U m) (htier : tier.isDisk = true)
    {s₀ : Sys} {hist : List Event} (hopen : Sys.opened d tier = some s₀)
    (hrun : Transition.Run Sys.failStep (fun _ s a => a.Harmless U s) [] s₀.offThread hist s) :
    s.index.view = mapOf m hist ∧
    (∀ id, s.index.get s.dir id = .ok (mapOf m hist id) ↔ s.index.Coherent id) ∧
    (s.job = none → s.index.delta.keys ≠ [] → s.index.flushBegin.2.isSome = true) ∧
    ∀ a : Act, a.Background U → s.index.autoFlush = false → s.DimOk a → ∃ s' ev, s.exec a = .ok (s', ev) := by
  obtain ⟨t, ops, ht, hinv, hview, -⟩ := sysInv_opened hd htier
  obtain rfl : t = s₀ := Option.some.inj (ht.symm.trans hopen)
  have hinv₀ : SysInv U ops t.offThread := ⟨{ hinv.index with inv := hinv.index.inv }, hinv.job⟩
  obtain ⟨ops', hinv', hview'⟩ := hinv₀.failRun hU hrun
  have hview' : s.index.view = mapOf m hist := hview'.trans (congrArg (mapOf · hist) hview)
  refine ⟨hview', fun id => ?_, fun hjob hdelta => ?_, fun a ha hauto hdim => ?_⟩
  · rw [← hview']
    exact hinv'.index.get_eq_iff id
  · have hflushing : s.index.flushing = ∅ := IndexOk.staged_eq_empty (staged_of_job hinv'.job hjob)
    have hdelta : s.index.delta.keys.isEmpty = false := by simpa using hdelta
    rw [Index.flushBegin, hdelta, hflushing]
    rfl
  · obtain ⟨s', ev, -, hexec, -⟩ := hinv'.exec hU (calm_of_background ⟨ha, hauto⟩) hdim
    exact ⟨s', ev, hexec⟩

end

/-! ### A flush that fails -/

section

attribute [local instance] linkedHashes exactNumerics

/-- The builds of a consolidate fail, before it has written anything and with half a file, and others do not. -/
def consolidateFails : List FailAct :=
  [.act (.insert 0 [0x3f800000]), .act (.begin .consolidate), .failBuild [] 0 0, .act (.begin .consolidate),
    .failBuild [(.graph, [1, 2, 3])] 5 2, .act (.insert 0 [0x40000000]), .act (.begin .flush), .act .build,
    .act .finish, .act (.insert 1 [0x3f800000])]

theorem failed_builds_harmless_consolidate : ∃ s₀ hist s, Sys.opened (Dir.created 1 64) .int8 = some s₀ ∧
    Transition.Run Sys.failStep (fun _ s a => a.Harmless {0, 1} s) [] s₀.offThread hist s ∧
      s.index.view = mapOf (fun _ => none) hist ∧ s.index.flushBegin.2.isSome = true := by
  obtain ⟨s₀, hist, s, hopen, hrun, hjob, hdelta⟩ := Transition.exists_run_of_bind
    (o := Sys.opened (Dir.created 1 64) .int8)
    (fun (_ : List Event) (s : Sys) => s.job = none ∧ s.index.delta.keys ≠ []) Sys.offThread consolidateFails
    (show (Option.bind _ fun s => Transition.exec Sys.failStep (fun _ s a => a.Harmless {0, 1} s) []
      (Sys.offThread s) _).any _ = true by decide +kernel)
  obtain ⟨hview, -, hflush, -⟩ := failed_builds_harmless (by decide)
    (holds_created (by decide) (by decide) (by decide) _) rfl hopen hrun
  exact ⟨s₀, hist, s, hopen, hrun, hview, hflush hjob hdelta⟩

/-- A flush fails; the vector is written again and folded into the base, and another one is inserted. -/
def flushFails : List FailAct :=
  [.act (.insert 0 [0x3f800000]), .act (.begin .flush), .failBuild [] 0 0, .act (.insert 0 [0x40000000]),
    .act (.begin .consolidate), .act .build, .act .finish, .act (.insert 1 [0x3f800000])]

/-- No flush begins any more, and a point read returns what the failed flush was to write. -/
theorem flush_stuck : ∃ s₀ hist s, Sys.opened (Dir.created 1 64) .int8 = some s₀ ∧
    Transition.Run Sys.failStep (fun _ _ _ => True) [] s₀.offThread hist s ∧
      s.job = none ∧ s.index.delta.keys ≠ [] ∧ s.index.flushBegin.2.isNone = true ∧
      mapOf (fun _ => none) hist 0 = some [0x40000000] ∧ s.index.get s.dir 0 = .ok (some [0x3f800000]) :=
  Transition.exists_run_of_bind (o := Sys.opened (Dir.created 1 64) .int8)
    (fun (hist : List Event) (s : Sys) => s.job = none ∧ s.index.delta.keys ≠ [] ∧
      s.index.flushBegin.2.isNone = true ∧ mapOf (fun _ => none) hist 0 = some [0x40000000] ∧
        s.index.get s.dir 0 = .ok (some [0x3f800000]))
    Sys.offThread flushFails
    (show (Option.bind _ fun s => Transition.exec Sys.failStep (fun _ _ _ => True) [] (Sys.offThread s) _).any _ = true
      by decide +kernel)

end

end Vector

end Skeg
