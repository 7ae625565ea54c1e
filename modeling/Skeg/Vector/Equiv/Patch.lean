import Skeg.Vector.Patch
import Skeg.Vector.Equiv.Build
import Mathlib.Data.Bool.AllAny

/-!
# What the patch after deletes keeps

The new number of a row is the number of survivors before it (`renumber`), and at that place are its id, its vector and
its node (`getElem?_surviving`).  Out-lists are made of survivors before they are renumbered, so no removed row is ever
looked up, and renumbering keeps different rows different (`rewired_of_live`).  A dead entry point is replaced by a row
of a sample, which must not be empty (`patchGraph_patched`, `empty_sample_panics`).
-/

namespace Skeg

namespace Vector

/-! ### Renumbering -/

/-- The number of survivors before a row. -/
def renumber (dead : List Bool) (w : Nat) : Nat := (dead.take w).count false

theorem getElem?_remapRows {dead : List Bool} {w : Nat} (h : dead[w]? = some false) (next : Nat) :
    (remapRows dead next)[w]? = some (UInt32.ofNat (next + renumber dead w)) := by
  induction dead generalizing w next with
  | nil => cases h
  | cons gone dead ih =>
    cases w with
    | zero =>
      obtain rfl := Option.some.inj h
      rfl
    | succ w =>
      cases gone with
      | true => simpa [remapRows, renumber] using ih h next
      | false =>
        have := ih h (next + 1)
        rw [remapRows, List.getElem?_cons_succ, this]
        simp only [renumber, List.take_succ_cons, List.count_cons_self]
        congr 2
        omega

theorem getElem?_surviving {α : Type} {xs : List α} {dead : List Bool} (hlen : xs.length = dead.length) {w : Nat}
    (h : dead[w]? = some false) : (surviving xs dead)[renumber dead w]? = xs[w]? := by
  induction dead generalizing xs w with
  | nil => cases h
  | cons gone dead ih =>
    cases xs with
    | nil => cases hlen
    | cons x xs =>
      have hlen : xs.length = dead.length := Nat.succ.inj hlen
      cases w with
      | zero =>
        obtain rfl := Option.some.inj h
        rfl
      | succ w =>
        have := ih hlen h
        rw [surviving] at this ⊢
        cases gone with
        | true => simpa [renumber] using this
        | false => simpa [renumber] using this

theorem length_surviving {α : Type} {xs : List α} {dead : List Bool} (hlen : xs.length = dead.length) :
    (surviving xs dead).length = dead.count false := by
  induction dead generalizing xs with
  | nil =>
    obtain rfl := List.length_eq_zero_iff.mp hlen
    rfl
  | cons gone dead ih =>
    cases xs with
    | nil => cases hlen
    | cons x xs =>
      have := ih (Nat.succ.inj hlen)
      rw [surviving] at this ⊢
      cases gone with
      | true => simpa using this
      | false => simpa using this

theorem renumber_inj {dead : List Bool} {w w' : Nat} (h : dead[w]? = some false) (h' : dead[w']? = some false)
    (heq : renumber dead w = renumber dead w') : w = w' := by
  have hlen : (List.range dead.length).length = dead.length := List.length_range
  have hat := getElem?_surviving hlen h
  rw [heq, getElem?_surviving hlen h', List.getElem?_range (List.getElem?_eq_some_iff.mp h).1,
    List.getElem?_range (List.getElem?_eq_some_iff.mp h').1] at hat
  exact (Option.some.inj hat).symm

theorem renumber_lt {dead : List Bool} {w : Nat} (h : dead[w]? = some false) : renumber dead w < dead.count false := by
  have hlen : (List.range dead.length).length = dead.length := List.length_range
  have hat := getElem?_surviving hlen h
  rw [List.getElem?_range (List.getElem?_eq_some_iff.mp h).1] at hat
  exact length_surviving hlen ▸ (List.getElem?_eq_some_iff.mp hat).1

/-! ### Out-lists -/

/-- What becomes of the out-list of a survivor. -/
structure Rewired (dead : List Bool) (r : Nat) (p : UInt32) (olds news : List UInt32) : Prop where
  survivors : ∀ v ∈ news, ∃ w, dead[w]? = some false ∧ v.toNat = renumber dead w
  nodup : news.Nodup
  other : ∀ v ∈ news, v.toNat ≠ renumber dead p.toNat
  length_le : news.length ≤ max r olds.length
  kept : (∀ w ∈ olds, dead[w.toNat]? = some false) →
    news.map UInt32.toNat = olds.map fun w => renumber dead w.toNat

/-- A list of other survivors, renumbered. -/
theorem rewired_of_live {dead : List Bool} {r : Nat} {p : UInt32} {olds ws news : List UInt32}
    (hp : dead[p.toNat]? = some false) (hws : ∀ w ∈ ws, dead[w.toNat]? = some false ∧ w ≠ p) (hnodup : ws.Nodup)
    (hnews : news.map UInt32.toNat = ws.map fun w => renumber dead w.toNat) (hlen : ws.length ≤ max r olds.length)
    (hkept : (∀ w ∈ olds, dead[w.toNat]? = some false) → ws = olds) : Rewired dead r p olds news := by
  have hmem : ∀ v ∈ news, ∃ w ∈ ws, v.toNat = renumber dead w.toNat := by
    intro v hv
    have hv' : v.toNat ∈ ws.map fun w => renumber dead w.toNat := hnews ▸ List.mem_map_of_mem hv
    obtain ⟨w, hw, heq⟩ := List.mem_map.mp hv'
    exact ⟨w, hw, heq.symm⟩
  refine ⟨fun v hv => ?_, ?_, fun v hv heq => ?_, ?_, fun hall => ?_⟩
  · obtain ⟨w, hw, heq⟩ := hmem v hv
    exact ⟨w.toNat, (hws w hw).1, heq⟩
  · refine List.Nodup.of_map UInt32.toNat (hnews ▸ hnodup.map_on fun w hw w' hw' heq => ?_)
    exact UInt32.toNat_inj.mp (renumber_inj (hws w hw).1 (hws w' hw').1 heq)
  · obtain ⟨w, hw, heq'⟩ := hmem v hv
    exact (hws w hw).2 (UInt32.toNat_inj.mp (renumber_inj (hws w hw).1 hp (heq'.symm.trans heq)))
  · have := congrArg List.length hnews
    rw [List.length_map, List.length_map] at this
    omega
  · rw [hnews, hkept hall]

/-! ### The new nodes -/

theorem mapM_forall₂ {α β : Type} {f : α → Except Fault β} {P : α → β → Prop} {l : List α}
    (h : ∀ a ∈ l, ∃ b, f a = .ok b ∧ P a b) : ∃ bs, l.mapM f = .ok bs ∧ List.Forall₂ P l bs := by
  induction l with
  | nil => exact ⟨[], rfl, .nil⟩
  | cons a l ih =>
    obtain ⟨⟨b, hb, hP⟩, hl⟩ := List.forall_mem_cons.mp h
    obtain ⟨bs, hbs, hall⟩ := ih hl
    exact ⟨b :: bs, by rw [List.mapM_cons, hb, hbs]; rfl, .cons hP hall⟩

theorem exists_of_mem_forall₂ {α β : Type} {P : α → β → Prop} {l : List α} {bs : List β} (h : List.Forall₂ P l bs) :
    ∀ b ∈ bs, ∃ a ∈ l, P a b := by
  induction h with
  | nil => simp
  | cons hP _ ih =>
    refine List.forall_mem_cons.mpr ⟨⟨_, List.mem_cons_self, hP⟩, fun b hb => ?_⟩
    obtain ⟨a, ha, hab⟩ := ih b hb
    exact ⟨a, List.mem_cons_of_mem _ ha, hab⟩

theorem getElem?_forall₂ {α β : Type} {P : α → β → Prop} {l : List α} {bs : List β} (h : List.Forall₂ P l bs) {k : Nat}
    {a : α} (ha : l[k]? = some a) : ∃ b, bs[k]? = some b ∧ P a b := by
  induction h generalizing k with
  | nil => cases ha
  | cons hP _ ih =>
    cases k with
    | zero =>
      obtain rfl := Option.some.inj ha
      exact ⟨_, rfl, hP⟩
    | succ k => exact ih ha

theorem index_eq_ok {α : Type} {l : List α} {k : Nat} {a : α} (h : l[k]? = some a) : index l k = .ok a := by
  rw [index, h]

namespace PatchInput

variable {δ : Type} [LinearOrder δ] {i : PatchInput δ}

/-- A well-formed graph of `u32` rows with a configuration, and what the generator can choose. -/
structure Wf (i : PatchInput δ) : Prop where
  u32 : i.ids.length < 2 ^ 32
  vectors : i.vectors.length = i.ids.length
  dead : i.dead.length = i.ids.length
  graph : NeatGraph i.ids.length maxR i.adj
  medoid : i.oldMedoid = 0xFFFFFFFF ∨ i.oldMedoid.toNat < i.ids.length
  degree : 1 ≤ i.r ∧ i.r ≤ maxR
  shuffled : ∀ n ≤ i.ids.length, ((i.shuffled n).map UInt32.toNat).Perm (List.range n)

omit [LinearOrder δ] in
theorem Wf.getElem?_dead (h : i.Wf) {w : Nat} (hw : w < i.ids.length) : ∃ gone, i.dead[w]? = some gone :=
  ⟨_, List.getElem?_eq_getElem (h.dead ▸ hw)⟩

omit [LinearOrder δ] in
theorem Wf.lt_of_live (h : i.Wf) {w : Nat} {gone : Bool} (hw : i.dead[w]? = some gone) : w < i.ids.length :=
  h.dead ▸ (List.getElem?_eq_some_iff.mp hw).1

omit [LinearOrder δ] in
theorem Wf.node (h : i.Wf) {w : UInt32} (hw : w.toNat < i.ids.length) :
    ∃ node ids, i.adj[w.toNat]? = some node ∧ node.slice = .ok ids ∧ Neat i.ids.length maxR w ids := by
  have hlt : w.toNat < i.adj.length := by rw [h.graph.length]; exact hw
  obtain ⟨ids, hslice, hneat⟩ := h.graph.neat w _ (List.getElem?_eq_getElem hlt)
  exact ⟨_, ids, List.getElem?_eq_getElem hlt, hslice, hneat⟩

omit [LinearOrder δ] in
/-- A dead neighbour is bridged by its live neighbours. -/
theorem Wf.bridge (h : i.Wf) (p : UInt32) {w : UInt32} (hw : w.toNat < i.ids.length) :
    ∃ xs, i.bridge p w = .ok xs ∧ ∀ x ∈ xs, i.dead[x.toNat]? = some false := by
  obtain ⟨node, ids, hat, hslice, hneat⟩ := h.node hw
  have hlive : ∀ x ∈ ids, ∃ xs, (if x = p then pure [] else do
      let gone ← index i.dead x.toNat
      pure (if gone then [] else [x]) : Except Fault (List UInt32)) = .ok xs ∧
      ∀ y ∈ xs, i.dead[y.toNat]? = some false := by
    intro x hx
    obtain ⟨gone, hgone⟩ := h.getElem?_dead (hneat.lt x hx)
    split_ifs with hxp
    · exact ⟨[], rfl, by simp⟩
    · rw [index_eq_ok hgone]
      cases gone with
      | true => exact ⟨[], rfl, by simp⟩
      | false => exact ⟨[x], rfl, by simpa using hgone⟩
  obtain ⟨xss, hmap, hall⟩ := mapM_forall₂ hlive
  refine ⟨xss.flatten, ?_, fun y hy => ?_⟩
  · rw [PatchInput.bridge, index_eq_ok hat]
    simp only [bind, Except.bind] at hmap ⊢
    rw [hslice]
    dsimp only
    rw [hmap]
    rfl
  · obtain ⟨xs, hxs, hy⟩ := List.mem_flatten.mp hy
    obtain ⟨x, -, hlist⟩ := exists_of_mem_forall₂ hall xs hxs
    exact hlist y hy

omit [LinearOrder δ] in
/-- Survivors are renumbered one by one. -/
theorem Wf.remap (h : i.Wf) {ws : List UInt32} (hws : ∀ w ∈ ws, i.dead[w.toNat]? = some false) :
    ∃ news, (ws.mapM fun w => index (remapRows i.dead 0) w.toNat) = .ok news ∧
      news.map UInt32.toNat = ws.map fun w => renumber i.dead w.toNat := by
  obtain ⟨news, hmap, hall⟩ := mapM_forall₂ (P := fun w v => v.toNat = renumber i.dead w.toNat) (l := ws)
    (f := fun w => index (remapRows i.dead 0) w.toNat) fun w hw => by
      refine ⟨_, index_eq_ok (getElem?_remapRows (hws w hw) 0), ?_⟩
      have hlt := renumber_lt (hws w hw)
      have hle := List.count_le_length (a := false) (l := i.dead)
      rw [h.dead] at hle
      have := h.u32
      rw [Nat.zero_add, UInt32.toNat_ofNat_of_lt' (show renumber i.dead w.toNat < 2 ^ 32 by omega)]
  refine ⟨news, hmap, ?_⟩
  clear hmap hws
  induction hall with
  | nil => rfl
  | cons heq _ ih => rw [List.map_cons, List.map_cons, heq, ih]

/-- The rows that a survivor points at are other survivors, at most `r` of them unless they are the old ones. -/
theorem Wf.relinked (h : i.Wf) {p : UInt32} {olds : List UInt32} (hneat : Neat i.ids.length maxR p olds) :
    ∃ ws, i.relinked p olds = .ok ws ∧ (∀ w ∈ ws, i.dead[w.toNat]? = some false ∧ w ≠ p) ∧ ws.Nodup ∧
      ws.length ≤ max i.r olds.length ∧ ws.length ≤ maxR ∧
      ((∀ w ∈ olds, i.dead[w.toNat]? = some false) → ws = olds) := by
  obtain ⟨gone, hgone, hdead⟩ := mapM_forall₂ (P := fun w d => i.dead[w.toNat]? = some d) (l := olds)
    (f := fun w => index i.dead w.toNat) fun w hw => by
      obtain ⟨d, hd⟩ := h.getElem?_dead (hneat.lt w hw)
      exact ⟨d, index_eq_ok hd, hd⟩
  have hall : gone.all (! ·) = true ↔ ∀ w ∈ olds, i.dead[w.toNat]? = some false := by
    rw [List.all_eq_true]
    constructor
    · intro hlive w hw
      obtain ⟨d, hd, hat⟩ := exists_of_mem_forall₂ hdead.flip w hw
      have hd' : d = false := by simpa using hlive d hd
      rw [← hd']
      exact hat
    · intro hlive d hd
      obtain ⟨w, hw, hat⟩ := exists_of_mem_forall₂ hdead d hd
      rw [Option.some.inj (hat.symm.trans (hlive w hw))]
      rfl
  rw [PatchInput.relinked]
  simp only [bind, Except.bind]
  rw [hgone]
  dsimp only
  -- a list without dead rows is kept, any other is pruned from its bridged candidates
  by_cases hlive : gone.all (! ·) = true
  · rw [if_pos hlive]
    exact ⟨olds, rfl, fun w hw => ⟨hall.mp hlive w hw, fun heq => hneat.other (heq ▸ hw)⟩, hneat.nodup,
      Nat.le_max_right .., hneat.length_le, fun _ => rfl⟩
  · rw [if_neg hlive]
    obtain ⟨cand, hcand, hlists⟩ := mapM_forall₂ (P := fun _ xs => ∀ x ∈ xs, i.dead[x.toNat]? = some false)
      (l := olds.zip gone) (f := fun w => if w.2 then i.bridge p w.1 else pure [w.1]) fun x hx => by
        have hx' : i.dead[x.1.toNat]? = some x.2 := (List.forall₂_iff_zip.mp hdead).2 hx
        split_ifs with hd
        · exact h.bridge p (h.lt_of_live hx')
        · exact ⟨[x.1], rfl, by simpa [hd] using hx'⟩
    have hlists : ∀ c ∈ cand.flatten.dedup.map fun c => (i.dist p c, c), i.dead[c.2.toNat]? = some false := by
      intro c hc
      obtain ⟨x, hx, rfl⟩ := List.mem_map.mp hc
      obtain ⟨xs, hxs, hx⟩ := List.mem_flatten.mp (List.mem_dedup.mp hx)
      obtain ⟨-, -, hxs⟩ := exists_of_mem_forall₂ hlists xs hxs
      exact hxs x hx
    have hpicked : Neat i.ids.length i.r p
        (robustPrune i.alpha2 i.dist i.r p (cand.flatten.dedup.map fun c => (i.dist p c, c))) :=
      neat_robustPrune i.alpha2 i.dist p fun c hc => h.lt_of_live (hlists c hc)
    rw [hcand]
    refine ⟨_, rfl, fun w hw => ?_, hpicked.nodup, hpicked.length_le.trans (Nat.le_max_left ..),
      hpicked.length_le.trans h.degree.2, fun holds => absurd (hall.mpr holds) hlive⟩
    obtain ⟨hne, c, hc, rfl⟩ := mem_robustPrune hw
    exact ⟨hlists c hc, hne⟩

theorem Wf.patchNode (h : i.Wf) {p : UInt32} (hp : i.dead[p.toNat]? = some false) :
    ∃ node', i.patchNode p = .ok node' ∧ ∃ node olds news, i.adj[p.toNat]? = some node ∧ node.slice = .ok olds ∧
      node'.slice = .ok news ∧ Rewired i.dead i.r p olds news := by
  obtain ⟨node, olds, hat, hslice, hneat⟩ := h.node (h.lt_of_live hp)
  obtain ⟨ws, hrelinked, hlive, hnodup, hlen, hmax, hkept⟩ := h.relinked hneat
  obtain ⟨news, hremap, hnews⟩ := h.remap fun w hw => (hlive w hw).1
  refine ⟨Node.new.set news, ?_, node, olds, news, hat, hslice, ?_,
    rewired_of_live hp hlive hnodup hnews hlen hkept⟩
  · rw [PatchInput.patchNode, index_eq_ok hat]
    simp only [bind, Except.bind]
    rw [hslice]
    dsimp only
    rw [hrelinked]
    dsimp only
    rw [hremap]
    rfl
  · have hsame := congrArg List.length hnews
    rw [List.length_map, List.length_map] at hsame
    rw [Node.slice_set, List.take_of_length_le (by omega)]

/-! ### The entry point -/

theorem Wf.approximateMedoid (h : i.Wf) (hsample : 1 ≤ i.medoidSample) (vectors : List Vec) {n : Nat} (hn : 0 < n)
    (hle : n ≤ i.ids.length) : ∃ medoid, i.approximateMedoid vectors n = .ok medoid ∧ medoid.toNat < n := by
  have hperm := h.shuffled n hle
  have hlen := hperm.length_eq
  rw [List.length_map, List.length_range] at hlen
  have hmem : ∀ v ∈ (i.shuffled n).take (min i.medoidSample n), v.toNat < n := fun v hv =>
    List.mem_range.mp (hperm.subset (List.mem_map_of_mem (List.mem_of_mem_take hv)))
  have hne : (i.shuffled n).take (min i.medoidSample n) ≠ [] := by
    intro hnil
    have := congrArg List.length hnil
    rw [List.length_take, List.length_nil] at this
    omega
  rw [PatchInput.approximateMedoid]
  generalize (i.shuffled n).take (min i.medoidSample n) = sample at hmem hne ⊢
  cases sample with
  | nil => exact absurd rfl hne
  | cons first rest =>
    refine ⟨_, rfl, ?_⟩
    -- the best of the sample is always one of its rows
    have hfold : ∀ (cands : List UInt32) (best : UInt32 × Option δ), (∀ c ∈ cands, c.toNat < n) → best.1.toNat < n →
        (cands.foldl (fun (best : UInt32 × Option δ) cand =>
          let sum := i.summed vectors (first :: rest) cand
          if best.2.all (sum < ·) then (cand, some sum) else best) best).1.toNat < n := by
      intro cands
      induction cands with
      | nil => exact fun best _ hbest => hbest
      | cons c cands ih =>
        intro best hcands hbest
        obtain ⟨hc, hcands⟩ := List.forall_mem_cons.mp hcands
        refine ih _ hcands ?_
        dsimp only
        split_ifs
        · exact hc
        · exact hbest
    exact hfold _ _ hmem (hmem first List.mem_cons_self)

theorem Wf.newMedoid (h : i.Wf) (hsurvivor : false ∈ i.dead)
    (hmedoid : 1 ≤ i.medoidSample ∨ (i.oldMedoid ≠ 0xFFFFFFFF ∧ i.dead[i.oldMedoid.toNat]? = some false))
    (vectors : List Vec) :
    ∃ medoid, i.newMedoid vectors (i.dead.count false) = .ok medoid ∧ medoid.toNat < i.dead.count false := by
  have hsampled : 1 ≤ i.medoidSample → ∃ medoid, i.approximateMedoid vectors (i.dead.count false) = .ok medoid ∧
      medoid.toNat < i.dead.count false := fun hs =>
    h.approximateMedoid hs vectors (List.count_pos_iff.mpr hsurvivor) (h.dead ▸ List.count_le_length)
  rw [PatchInput.newMedoid]
  by_cases hmax : i.oldMedoid = 0xFFFFFFFF
  · rw [if_pos hmax]
    exact hsampled (hmedoid.resolve_right fun hm => hm.1 hmax)
  · obtain ⟨gone, hgone⟩ := h.getElem?_dead (h.medoid.resolve_left hmax)
    rw [if_neg hmax, index_eq_ok hgone]
    cases gone with
    | true => exact hsampled (hmedoid.resolve_right fun hm => by rw [hgone] at hm; cases hm.2)
    | false =>
      refine ⟨_, index_eq_ok (getElem?_remapRows hgone 0), ?_⟩
      have hlt := renumber_lt hgone
      have hle := List.count_le_length (a := false) (l := i.dead)
      rw [h.dead] at hle
      have := h.u32
      rw [Nat.zero_add, UInt32.toNat_ofNat_of_lt' (show renumber i.dead i.oldMedoid.toNat < 2 ^ 32 by omega)]
      exact hlt

/-- A dead entry point is not replaced from an empty sample. -/
theorem Wf.newMedoid_eq_error (h : i.Wf)
    (hmedoid : ¬ (1 ≤ i.medoidSample ∨ (i.oldMedoid ≠ 0xFFFFFFFF ∧ i.dead[i.oldMedoid.toNat]? = some false)))
    (vectors : List Vec) (n : Nat) : i.newMedoid vectors n = .error (.panic "index out of bounds") := by
  obtain ⟨hsample, hold⟩ := not_or.mp hmedoid
  have hempty : i.approximateMedoid vectors n = .error (.panic "index out of bounds") := by
    rw [PatchInput.approximateMedoid, show i.medoidSample = 0 by omega, Nat.zero_min, List.take_zero]
  rw [PatchInput.newMedoid]
  split_ifs with hmax
  · exact hempty
  · obtain ⟨gone, hgone⟩ := h.getElem?_dead (h.medoid.resolve_left hmax)
    rw [index_eq_ok hgone]
    cases gone with
    | true => exact hempty
    | false => exact absurd ⟨hmax, hgone⟩ hold

/-! ### The patched index -/

/-- The index of the survivors. -/
structure Patched (i : PatchInput δ) (out : VamanaIndex) : Prop where
  ids : out.ids = surviving i.ids i.dead
  vectors : out.vectors = surviving i.vectors i.dead
  length : out.nodes.length = out.ids.length
  nodes : ∀ p : UInt32, i.dead[p.toNat]? = some false → ∃ node olds node' news,
    i.adj[p.toNat]? = some node ∧ node.slice = .ok olds ∧
    out.nodes[renumber i.dead p.toNat]? = some node' ∧ node'.slice = .ok news ∧ Rewired i.dead i.r p olds news
  medoid : out.medoid.toNat < out.ids.length

omit [LinearOrder δ] in
theorem Wf.survivor (h : i.Wf) {p : UInt32} (hp : p ∈ surviving ((List.range i.ids.length).map UInt32.ofNat) i.dead) :
    i.dead[p.toNat]? = some false := by
  obtain ⟨⟨q, gone⟩, hq, rfl⟩ := List.mem_map.mp hp
  obtain ⟨hzip, hlive⟩ := List.mem_filter.mp hq
  obtain ⟨k, hk⟩ := List.mem_iff_getElem?.mp hzip
  obtain ⟨hrow, hgone⟩ := List.getElem?_zip_eq_some.mp hk
  have hlt := h.lt_of_live hgone
  rw [List.getElem?_map, List.getElem?_range hlt, Option.map_some] at hrow
  dsimp only at hlive hrow hgone ⊢
  rw [← Option.some.inj hrow, UInt32.toNat_ofNat_of_lt' (Nat.lt_trans hlt h.u32), hgone]
  exact congrArg some (by simpa using hlive)

/-- The patch returns the index of the survivors exactly if the entry point need not be replaced from an empty sample,
which no configuration of the source asks for. -/
theorem patchGraph_patched (i : PatchInput δ) (h : i.Wf) (hsurvivor : false ∈ i.dead) :
    (∃ out, i.patchGraph = .ok out ∧ Patched i out) ↔
      1 ≤ i.medoidSample ∨ (i.oldMedoid ≠ 0xFFFFFFFF ∧ i.dead[i.oldMedoid.toNat]? = some false) := by
  have hrange : ((List.range i.ids.length).map UInt32.ofNat).length = i.dead.length := by
    rw [List.length_map, List.length_range, h.dead]
  have hcount : (surviving i.ids i.dead).length = i.dead.count false := length_surviving h.dead.symm
  have hpos : 0 < i.dead.count false := List.count_pos_iff.mpr hsurvivor
  obtain ⟨nodes, hnodes, hall⟩ := mapM_forall₂ (f := i.patchNode) fun p hp => h.patchNode (h.survivor hp)
  have hpatch : i.patchGraph = (i.newMedoid (surviving i.vectors i.dead) (surviving i.ids i.dead).length).bind
      fun medoid => .ok ⟨i.dim, UInt32.ofNat (surviving i.ids i.dead).length, surviving i.vectors i.dead,
        surviving i.ids i.dead, nodes, medoid, i.r, i.lSearch⟩ := by
    rw [PatchInput.patchGraph]
    dsimp only
    rw [if_neg (by omega)]
    simp only [bind, Except.bind]
    rw [hnodes]
    rfl
  by_cases hmedoid : 1 ≤ i.medoidSample ∨ (i.oldMedoid ≠ 0xFFFFFFFF ∧ i.dead[i.oldMedoid.toNat]? = some false)
  swap
  · rw [hpatch, h.newMedoid_eq_error hmedoid]
    exact iff_of_false (fun ⟨_, hout, _⟩ => nomatch hout) hmedoid
  refine iff_of_true ?_ hmedoid
  obtain ⟨medoid, hok, hlt⟩ := h.newMedoid hsurvivor hmedoid (surviving i.vectors i.dead)
  rw [← hcount] at hok hlt
  refine ⟨⟨i.dim, UInt32.ofNat (surviving i.ids i.dead).length, surviving i.vectors i.dead, surviving i.ids i.dead,
    nodes, medoid, i.r, i.lSearch⟩, ?_, rfl, rfl, ?_, fun p hp => ?_, hlt⟩
  · rw [hpatch, hok]
    rfl
  · rw [← hall.length_eq, length_surviving hrange, hcount]
  · -- the node of a survivor stands at its new number
    have hat : (surviving ((List.range i.ids.length).map UInt32.ofNat) i.dead)[renumber i.dead p.toNat]? = some p := by
      rw [getElem?_surviving hrange hp, List.getElem?_map, List.getElem?_range (h.lt_of_live hp), Option.map_some,
        UInt32.ofNat_toNat]
    obtain ⟨node', hnode', node, olds, news, hold, hslice, hnew, hrewired⟩ := getElem?_forall₂ hall hat
    exact ⟨node, olds, node', news, hold, hslice, hnode', hnew, hrewired⟩

/-- Three rows that point at each other, of which the first, the entry point, is dead. -/
def deadEntry (medoidSample : Nat) : PatchInput Nat where
  vectors := [[1], [2], [3]]
  ids := [10, 20, 30]
  adj := (List.range 3).map fun i => Node.new.set (((List.range 3).filter (· ≠ i)).map UInt32.ofNat)
  dead := [true, false, false]
  oldMedoid := 0
  dim := 1
  lSearch := 100
  r := 2
  alpha2 := id
  medoidSample := medoidSample
  dist a b := a.toNat + b.toNat
  shuffled n := (List.range n).map UInt32.ofNat
  summed _ _ v := v.toNat

theorem wf_deadEntry (medoidSample : Nat) : (deadEntry medoidSample).Wf where
  u32 := show 3 < 2 ^ 32 by decide
  vectors := rfl
  dead := rfl
  graph := show NeatGraph 3 maxR ((List.range 3).map fun i =>
      Node.new.set (((List.range 3).filter (· ≠ i)).map UInt32.ofNat)) from
    neatGraph_of_lists (Nat.le_refl _) fun i hi =>
      have hlist : ∀ i < 3, (((List.range 3).filter (· ≠ i)).map UInt32.ofNat).length ≤ maxR ∧
          (((List.range 3).filter (· ≠ i)).map UInt32.ofNat).Nodup ∧
            (((List.range 3).filter (· ≠ i)).map UInt32.ofNat).all (fun v => v.toNat < 3 ∧ v.toNat ≠ i) = true := by
        decide
      ⟨(hlist i hi).1, (hlist i hi).2.1, List.all_iff_forall_prop.mp (hlist i hi).2.2⟩
  medoid := .inr (show (0 : UInt32).toNat < 3 by decide)
  degree := show 1 ≤ 2 ∧ 2 ≤ maxR by decide
  shuffled := show ∀ n ≤ 3, (((List.range n).map UInt32.ofNat).map UInt32.toNat).Perm (List.range n) by decide

theorem patchGraph_patched_deadEntry : ∃ out, (deadEntry 1).patchGraph = .ok out ∧ Patched (deadEntry 1) out :=
  (patchGraph_patched (deadEntry 1) (wf_deadEntry 1) (by decide)).mpr (.inl (by decide))

/-- Without a sample there is no new entry point. -/
theorem empty_sample_panics : (deadEntry 0).Wf ∧ false ∈ (deadEntry 0).dead ∧
    ¬ ∃ out, (deadEntry 0).patchGraph = .ok out := by
  refine ⟨wf_deadEntry 0, by decide, ?_⟩
  rintro ⟨out, hout⟩
  have hpanic : (deadEntry 0).patchGraph.toOption.isNone = true := by decide +kernel
  rw [hout] at hpanic
  cases hpanic

end PatchInput

end Vector

end Skeg
