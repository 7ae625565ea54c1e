import Skeg.Lib.FiniteMap
import Skeg.Vector.Exact
import Skeg.Vector.Equiv.Live

/-!
# The flat index as a map with an exact search

A row is reused when its id is written again, and comes back to life after a delete, so an index is the map of the
writes it has seen (`Represents`).  The heap of `select_top_k` keeps the greatest rows (`topRows_greatestRows`), hence a
search without quantisation returns the best vectors of the map, and so does the scoring of given ids
(`flat_refines_map`).  The heap is reserved for one entry more than was asked for, which the allocator may refuse.
-/

namespace Skeg

namespace Vector

/-! ### The map -/

inductive FlatOp where
  | insert (id : UInt64) (v : Vec)
  | delete (id : UInt64)
  deriving DecidableEq

def FlatOp.run (x : FlatIndex) : FlatOp → FlatIndex
  | insert id v => x.insert id v
  | delete id => (x.delete id).1

/-- The operation on a map. -/
def FlatOp.onMap (m : UInt64 → Option Vec) : FlatOp → UInt64 → Option Vec
  | insert id v => Function.update m id (some v)
  | delete id => Function.update m id none

namespace FlatIndex

variable {x : FlatIndex} {id : UInt64}

theorem get_eq_some_iff (h : x.Counted) {v : Vec} : x.get id = some v ↔ ⟨id, v, true⟩ ∈ x.rows := by
  unfold get
  cases hrow : x.row id with
  | none =>
    have hnone : ∀ r ∈ x.rows, r.id ≠ id := by simpa [FlatIndex.row] using hrow
    constructor
    · intro hv
      cases hv
    · exact fun hmem => absurd rfl (hnone _ hmem)
  | some row =>
    obtain ⟨r, front, back, hrows, rfl, hid, hlive⟩ := rows_of_row hrow
    have hnd := h.nodup
    have hr : r ∈ x.rows := by simp [hrows]
    have hat : x.rows[front.length]? = some r := by simp [hrows]
    rw [Option.bind_some, hlive, hat]
    constructor
    · intro hv
      split_ifs at hv with hl
      obtain rfl := Option.some.inj hv
      obtain ⟨rid, rv, rl⟩ := r
      dsimp only at hl hid ⊢
      exact hl ▸ hid ▸ hr
    · intro hmem
      obtain rfl : r = ⟨id, v, true⟩ := List.inj_on_of_nodup_map hnd hr hmem hid
      rfl

/-- The rows after the row of an id was written over. -/
theorem mem_modify_rows (h : x.Counted) {front back : List FlatRow} {r₀ r : FlatRow}
    (hrows : x.rows = front ++ r₀ :: back) (f : FlatRow → FlatRow) :
    r ∈ x.rows.modify front.length f ↔ r = f r₀ ∨ (r ∈ x.rows ∧ r.id ≠ r₀.id) := by
  have hnd := h.nodup
  rw [hrows, List.map_append, List.map_cons] at hnd
  obtain ⟨-, hback, hdisj⟩ := List.nodup_append.mp hnd
  simp only [hrows, modify_rows, List.mem_append, List.mem_cons]
  constructor
  · rintro (hr | rfl | hr)
    · exact .inr ⟨.inl hr, hdisj _ (List.mem_map_of_mem hr) _ List.mem_cons_self⟩
    · exact .inl rfl
    · exact .inr ⟨.inr (.inr hr), fun heq => (List.nodup_cons.mp hback).1 (List.mem_map.mpr ⟨r, hr, heq⟩)⟩
  · rintro (rfl | ⟨hr | rfl | hr, hne⟩)
    · exact .inr (.inl rfl)
    · exact .inl hr
    · exact absurd rfl hne
    · exact .inr (.inr hr)

/-- The rows after an insert: a new one of the id, or the old one written over. -/
theorem mem_rows_insert (h : x.Counted) {v : Vec} {r : FlatRow} :
    r ∈ (x.insert id v).rows ↔ r = ⟨id, v, true⟩ ∨ (r ∈ x.rows ∧ r.id ≠ id) := by
  unfold insert
  cases hrow : x.row id with
  | none =>
    have hnone : ∀ r ∈ x.rows, r.id ≠ id := by simpa [FlatIndex.row] using hrow
    simp only [List.mem_append, List.mem_singleton]
    rw [or_comm, and_iff_left_of_imp (hnone r)]
  | some row =>
    obtain ⟨r₀, front, back, hrows, rfl, rfl, -⟩ := rows_of_row hrow
    exact mem_modify_rows h hrows _

/-- The live rows after a delete. -/
theorem mem_rows_delete (h : x.Counted) {r : FlatRow} (hlive : r.live = true) :
    r ∈ (x.delete id).1.rows ↔ r ∈ x.rows ∧ r.id ≠ id := by
  unfold delete
  cases hrow : x.row id with
  | none =>
    have hnone : ∀ r ∈ x.rows, r.id ≠ id := by simpa [FlatIndex.row] using hrow
    exact (and_iff_left_of_imp (hnone r)).symm
  | some row =>
    obtain ⟨r₀, front, back, hrows, rfl, rfl, hl⟩ := rows_of_row hrow
    dsimp only
    split_ifs with hl'
    · refine (mem_modify_rows h hrows _).trans (or_iff_right fun heq => ?_)
      rw [heq] at hlive
      cases hlive
    · -- the row was dead, and it is the only one of its id
      refine (and_iff_left_of_imp fun hr heq => hl' ?_).symm
      obtain rfl : r = r₀ := List.inj_on_of_nodup_map h.nodup hr (by simp [hrows]) heq
      rw [hl, hlive]

theorem get_insert (h : x.Counted) (id : UInt64) (v : Vec) :
    (x.insert id v).get = Function.update x.get id (some v) := by
  funext j
  apply Option.ext
  intro w
  rw [get_eq_some_iff (h.insert id v), mem_rows_insert h]
  by_cases hj : j = id
  · subst hj
    simp [eq_comm]
  · simp [get_eq_some_iff h, hj]

theorem get_delete (h : x.Counted) (id : UInt64) : (x.delete id).1.get = Function.update x.get id none := by
  funext j
  apply Option.ext
  intro w
  rw [get_eq_some_iff (h.delete id), mem_rows_delete h rfl]
  by_cases hj : j = id
  · subst hj
    simp
  · simp [get_eq_some_iff h, hj]

theorem contains_eq (x : FlatIndex) (id : UInt64) : x.contains id = (x.get id).isSome := by
  unfold contains get
  cases x.row id with
  | none => rfl
  | some row =>
    rw [Option.any_some, Option.bind_some, isLive]
    cases x.rows[row]? with
    | none => rfl
    | some r => cases hl : r.live <;> simp [hl]

theorem mem_liveIds_iff (h : x.Counted) : id ∈ x.liveIds ↔ (x.get id).isSome = true := by
  rw [Option.isSome_iff_exists]
  simp only [get_eq_some_iff h, liveIds, List.mem_map, List.mem_filter]
  constructor
  · rintro ⟨⟨rid, v, l⟩, ⟨hr, hl⟩, rfl⟩
    dsimp only at hl ⊢
    exact ⟨v, hl ▸ hr⟩
  · rintro ⟨v, hr⟩
    exact ⟨_, ⟨hr, rfl⟩, rfl⟩

theorem len_eq_zero_iff (h : x.Counted) : x.len = 0 ↔ ∀ id, x.get id = none := by
  rw [len, h.count, List.length_eq_zero_iff, List.eq_nil_iff_forall_not_mem]
  simp only [mem_liveIds_iff h, Bool.not_eq_true, Option.isSome_eq_false_iff, Option.isNone_iff_eq_none]

theorem nodup_liveIds (h : x.Counted) : x.liveIds.Nodup :=
  h.nodup.sublist (List.filter_sublist.map _)

/-- An index agrees with a map in what it answers without a search. -/
structure Represents (x : FlatIndex) (m : UInt64 → Option Vec) : Prop where
  get : ∀ id, x.get id = m id
  contains : ∀ id, x.contains id = (m id).isSome
  nodup : x.liveIds.Nodup
  liveIds : ∀ id, id ∈ x.liveIds ↔ (m id).isSome = true
  len : x.len = x.liveIds.length

theorem Counted.represents (h : x.Counted) : x.Represents x.get where
  get _ := rfl
  contains := x.contains_eq
  nodup := nodup_liveIds h
  liveIds _ := mem_liveIds_iff h
  len := h.count

theorem Counted.run (h : x.Counted) (op : FlatOp) : (op.run x).Counted ∧ (op.run x).get = op.onMap x.get := by
  cases op with
  | insert id v => exact ⟨h.insert id v, get_insert h id v⟩
  | delete id => exact ⟨h.delete id, get_delete h id⟩

theorem Counted.runs (h : x.Counted) (ops : List FlatOp) :
    (ops.foldl FlatOp.run x).Counted ∧ (ops.foldl FlatOp.run x).get = ops.foldl FlatOp.onMap x.get := by
  induction ops generalizing x with
  | nil => exact ⟨h, rfl⟩
  | cons op ops ih =>
    obtain ⟨hrun, hget⟩ := h.run op
    rw [List.foldl_cons, List.foldl_cons, ← hget]
    exact ih hrun

theorem kind_run (x : FlatIndex) (op : FlatOp) : (op.run x).kind = x.kind := by
  cases op with
  | insert id v =>
    rw [FlatOp.run, insert]
    cases x.row id <;> rfl
  | delete id =>
    rw [FlatOp.run, delete]
    cases x.row id with
    | none => rfl
    | some row =>
      dsimp only
      split_ifs <;> rfl

theorem kind_runs (x : FlatIndex) (ops : List FlatOp) : (ops.foldl FlatOp.run x).kind = x.kind := by
  induction ops generalizing x with
  | nil => rfl
  | cons op ops ih => exact (ih _).trans (x.kind_run op)

/-! ### The greatest rows -/

theorem mem_ones {row : Nat} : row ∈ x.ones ↔ x.isLive row = true := by
  rw [ones, List.mem_filter, List.mem_range, and_iff_right_of_imp]
  intro hlive
  obtain ⟨r, hr, -⟩ := (Option.any_eq_true _ _).mp hlive
  exact (List.getElem?_eq_some_iff.mp hr).1

theorem length_ones (x : FlatIndex) : x.ones.length = x.liveIds.length := by
  have hrows : (List.range x.rows.length).map (x.rows[·]?) = x.rows.map some := by
    refine List.ext_getElem (by simp) fun i hi hi' => ?_
    rw [List.getElem_map, List.getElem_map, List.getElem_range]
    exact List.getElem?_eq_getElem (by simpa using hi)
  rw [liveIds, List.length_map, ones, ← List.countP_eq_length_filter, ← List.countP_eq_length_filter]
  have hcount := congrArg (List.countP (Option.any FlatRow.live)) hrows
  rwa [List.countP_map, List.countP_map] at hcount

/-- The `k` live rows with the greatest key and row, best key first. -/
structure TopRows {K : Type} [LinearOrder K] (x : FlatIndex) (k : Nat) (key : Nat → K) (out : List (K × Nat)) :
    Prop where
  length : out.length = min k x.len
  nodup : (out.map Prod.snd).Nodup
  sound : ∀ p ∈ out, x.isLive p.2 = true ∧ p.1 = key p.2
  sorted : out.Pairwise fun a b => b.1 ≤ a.1
  greatest : ∀ p ∈ out, ∀ row, x.isLive row = true → row ∉ out.map Prod.snd → toLex (key row, row) < toLex p

theorem topRows_greatestRows {K : Type} [LinearOrder K] (h : x.Counted) (k : Nat) (key : Nat → K) :
    TopRows x k key (x.greatestRows k key) := by
  obtain ⟨dropped, hbest, hperm⟩ := TopK.best_select (fun entry weakest => decide (weakest < entry)) k
    (l := x.ones.map fun row => toLex (key row, row)) fun _ _ _ _ => decide_eq_true_iff
  rw [greatestRows]
  generalize TopK.select _ k (x.ones.map fun row => toLex (key row, row)) = heap at hbest hperm ⊢
  have hlen := hbest.length_eq hperm
  rw [List.length_map, length_ones, ← h.count] at hlen
  have hmem : ∀ {p : K × Nat}, toLex p ∈ heap ++ dropped ↔ x.isLive p.2 = true ∧ p.1 = key p.2 := by
    intro p
    rw [hperm.mem_iff, List.mem_map]
    constructor
    · rintro ⟨row, hrow, heq⟩
      obtain rfl : (key row, row) = p := toLex.injective heq
      exact ⟨mem_ones.mp hrow, rfl⟩
    · rintro ⟨hlive, hkey⟩
      exact ⟨p.2, mem_ones.mpr hlive, congrArg toLex (Prod.ext hkey.symm rfl)⟩
  have hrows : (heap.map fun p => (ofLex p).2).Nodup := by
    have hall := hperm.map fun p => (ofLex p).2
    rw [List.map_append, List.map_map] at hall
    refine (List.nodup_append.mp (hall.nodup_iff.mpr ?_)).1
    exact (List.map_id x.ones).symm ▸ List.nodup_range.filter _
  have hout := List.perm_insertionSort (fun a b : K × Nat => b.1 ≤ a.1) (heap.map ofLex)
  generalize hsorted : (heap.map ofLex).insertionSort (fun a b : K × Nat => b.1 ≤ a.1) = out at hout ⊢
  have hmemOut : ∀ {p : K × Nat}, p ∈ out ↔ toLex p ∈ heap := by
    intro p
    rw [hout.mem_iff, List.mem_map]
    exact ⟨fun ⟨q, hq, heq⟩ => heq ▸ hq, fun hp => ⟨_, hp, rfl⟩⟩
  refine ⟨?_, ?_, fun p hp => ?_, ?_, fun p hp row hlive hrow => ?_⟩
  · rw [hout.length_eq, List.length_map, hlen]
    rfl
  · rw [(hout.map Prod.snd).nodup_iff, List.map_map]
    exact hrows
  · exact hmem.mp (List.mem_append_left _ (hmemOut.mp hp))
  · have : Std.Total fun a b : K × Nat => b.1 ≤ a.1 := ⟨fun a b => le_total b.1 a.1⟩
    have : IsTrans (K × Nat) fun a b => b.1 ≤ a.1 := ⟨fun a b c hab hbc => hbc.trans hab⟩
    exact hsorted ▸ List.pairwise_insertionSort _ _
  · have hne : toLex (key row, row) ≠ toLex p := fun heq =>
      hrow (List.mem_map.mpr ⟨p, hp, (congrArg Prod.snd (toLex.injective heq)).symm⟩)
    have hin : toLex (key row, row) ∈ heap ++ dropped := hmem.mpr ⟨hlive, rfl⟩
    have hdropped := (List.mem_append.mp hin).resolve_left fun hkept =>
      hrow (List.mem_map.mpr ⟨_, hmemOut.mpr hkept, rfl⟩)
    exact lt_of_le_of_ne (hbest.le _ (hmemOut.mp hp) _ hdropped) hne

theorem selectTopK_eq {K : Type} [LinearOrder K] {room k : Nat} (hroom : (k + 1) % 2 ^ 64 ≤ room) (key : Nat → K) :
    selectTopK room x k key = .ok (x.greatestRows k key) := by
  rw [selectTopK, reserve, if_pos hroom]
  rfl

theorem selectTopK_no_room {K : Type} [LinearOrder K] {room k : Nat} (hroom : ¬ (k + 1) % 2 ^ 64 ≤ room) (key : Nat → K) :
    selectTopK room x k key = .error (.panic "capacity overflow") := by
  rw [selectTopK, reserve, if_neg hroom]
  rfl

/-- The greatest rows are returned exactly when the heap has room. -/
theorem selectTopK_iff {K : Type} [LinearOrder K] (h : x.Counted) (room k : Nat) (key : Nat → K) :
    (∃ out, selectTopK room x k key = .ok out ∧ TopRows x k key out) ↔ (k + 1) % 2 ^ 64 ≤ room := by
  by_cases hroom : (k + 1) % 2 ^ 64 ≤ room
  · exact iff_of_true ⟨_, selectTopK_eq hroom key, topRows_greatestRows h k key⟩ hroom
  · refine iff_of_false (fun ⟨out, hout, _⟩ => ?_) hroom
    rw [selectTopK_no_room hroom] at hout
    cases hout

/-! ### The best ids -/

/-- The `k` ids with the best scores, best first. -/
structure TopIds {S : Type} [LinearOrder S] (score : UInt64 → Option S) (k : Nat) (out : List (UInt64 × S)) :
    Prop where
  length : ∀ l : List UInt64, l.Nodup → (∀ id, id ∈ l ↔ (score id).isSome = true) → out.length = min k l.length
  nodup : (out.map Prod.fst).Nodup
  sound : ∀ p ∈ out, score p.1 = some p.2
  sorted : out.Pairwise fun a b => b.2 ≤ a.2
  best : ∀ p ∈ out, ∀ id s, score id = some s → id ∉ out.map Prod.fst → s ≤ p.2

/-- The id of a row. -/
def idAt (x : FlatIndex) (row : Nat) : UInt64 := (x.rows[row]?.map FlatRow.id).getD 0

section

variable [N : Numerics]

/-- The exact search turns the greatest rows into their ids. -/
theorem TopRows.topIds (h : x.Counted) {query : Vec} {k : Nat} {out : List (N.Score × Nat)}
    (htop : TopRows x k (fun row => N.cosine query (x.vectorOf row)) out) :
    TopIds (fun id => (x.get id).map (N.cosine query)) k
      (out.filterMap fun p => x.rows[p.2]?.map fun r => (r.id, p.1)) := by
  have hat : ∀ p ∈ out, ∃ r, x.rows[p.2]? = some r ∧ r.live = true ∧ p.1 = N.cosine query r.vector := by
    intro p hp
    obtain ⟨hlive, hkey⟩ := htop.sound p hp
    obtain ⟨r, hr, hl⟩ := (Option.any_eq_true _ _).mp hlive
    exact ⟨r, hr, hl, by rw [hkey, vectorOf, hr]; rfl⟩
  have hmap : (out.filterMap fun p => x.rows[p.2]?.map fun r => (r.id, p.1)) =
      out.map fun p => (x.idAt p.2, p.1) := by
    rw [← List.filterMap_eq_map]
    refine List.filterMap_congr fun p hp => ?_
    obtain ⟨r, hr, -⟩ := hat p hp
    simp [idAt, hr]
  rw [hmap]
  refine ⟨fun l hl hmem => ?_, ?_, fun q hq => ?_, ?_, fun q hq id s hs hout => ?_⟩
  · have hperm : l.Perm x.liveIds := (List.perm_ext_iff_of_nodup hl (nodup_liveIds h)).mpr fun id => by
      rw [hmem, mem_liveIds_iff h, Option.isSome_map]
    rw [List.length_map, htop.length, hperm.length_eq, len, h.count]
  · -- different rows are of different ids
    rw [List.map_map, show Prod.fst ∘ (fun p : N.Score × Nat => (x.idAt p.2, p.1)) = x.idAt ∘ Prod.snd from rfl,
      ← List.map_map]
    refine List.Nodup.map_on (fun i hi j hj heq => ?_) htop.nodup
    obtain ⟨p, hp, rfl⟩ := List.mem_map.mp hi
    obtain ⟨q, hq, rfl⟩ := List.mem_map.mp hj
    obtain ⟨r, hr, -⟩ := hat p hp
    obtain ⟨r', hr', -⟩ := hat q hq
    have hlt : p.2 < (x.rows.map FlatRow.id).length := by
      rw [List.length_map]
      exact (List.getElem?_eq_some_iff.mp hr).1
    refine (List.getElem?_inj hlt h.nodup).mp ?_
    rw [List.getElem?_map, List.getElem?_map, hr, hr']
    simpa [idAt, hr, hr'] using heq
  · obtain ⟨p, hp, rfl⟩ := List.mem_map.mp hq
    obtain ⟨⟨rid, v, l⟩, hr, hl, hscore⟩ := hat p hp
    dsimp only at hl hscore
    have hget : x.get rid = some v := (get_eq_some_iff h).mpr (hl ▸ List.mem_of_getElem? hr)
    simp [idAt, hr, hget, hscore]
  · exact List.pairwise_map.mpr htop.sorted
  · obtain ⟨p, hp, rfl⟩ := List.mem_map.mp hq
    obtain ⟨v, hv, rfl⟩ := Option.map_eq_some_iff.mp hs
    obtain ⟨row, hrow⟩ := List.mem_iff_getElem?.mp ((get_eq_some_iff h).mp hv)
    have hlive : x.isLive row = true := by simp [isLive, hrow]
    have hrest : row ∉ out.map Prod.snd := by
      intro hin
      obtain ⟨q, hq, rfl⟩ := List.mem_map.mp hin
      exact hout (List.mem_map.mpr ⟨_, List.mem_map.mpr ⟨q, hq, rfl⟩, by simp [idAt, hrow]⟩)
    have hlt := Prod.Lex.lt_iff.mp (htop.greatest p hp row hlive hrest)
    have hkey : N.cosine query (x.vectorOf row) = N.cosine query v := by rw [vectorOf, hrow]; rfl
    rcases hlt with hlt | ⟨heq, -⟩
    · exact hkey ▸ le_of_lt hlt
    · exact hkey ▸ le_of_eq heq

/-- Sorting and cutting returns the best of ids with different scores. -/
theorem topIds_topOf {scored : List (UInt64 × N.Score)} {score : UInt64 → Option N.Score}
    (hnodup : (scored.map Prod.fst).Nodup) (h : ∀ id s, score id = some s ↔ (id, s) ∈ scored) (k : Nat) :
    TopIds score k (topOf k scored) := by
  have hperm := List.perm_insertionSort (fun a b : UInt64 × N.Score => b.2 ≤ a.2) scored
  have hsorted : (scored.insertionSort fun a b => b.2 ≤ a.2).Pairwise fun a b => b.2 ≤ a.2 := by
    have : Std.Total fun a b : UInt64 × N.Score => b.2 ≤ a.2 := ⟨fun a b => le_total b.2 a.2⟩
    have : IsTrans (UInt64 × N.Score) fun a b => b.2 ≤ a.2 := ⟨fun a b c hab hbc => hbc.trans hab⟩
    exact List.pairwise_insertionSort _ _
  rw [topOf]
  generalize (scored.insertionSort fun a b => b.2 ≤ a.2) = l at hperm hsorted ⊢
  have hsplit := List.take_append_drop k l
  rw [← hsplit] at hsorted
  refine ⟨fun ids hids hmem => ?_, ?_, fun p hp => ?_, (List.pairwise_append.mp hsorted).1,
    fun p hp id s hs hout => ?_⟩
  · have hids' : ids.Perm (scored.map Prod.fst) := (List.perm_ext_iff_of_nodup hids hnodup).mpr fun id => by
      rw [hmem, Option.isSome_iff_exists, List.mem_map]
      simp only [h]
      exact ⟨fun ⟨s, hs⟩ => ⟨_, hs, rfl⟩, fun ⟨p, hp, heq⟩ => ⟨p.2, heq ▸ hp⟩⟩
    rw [List.length_take, hperm.length_eq, hids'.length_eq, List.length_map]
  · exact ((hperm.map Prod.fst).nodup_iff.mpr hnodup).sublist ((List.take_sublist k l).map _)
  · exact (h p.1 p.2).mpr (hperm.subset (List.mem_of_mem_take hp))
  · have hin : (id, s) ∈ l.take k ++ l.drop k := by
      rw [hsplit]
      exact hperm.mem_iff.mpr ((h id s).mp hs)
    have hdrop := (List.mem_append.mp hin).resolve_left fun hkept => hout (List.mem_map.mpr ⟨_, hkept, rfl⟩)
    exact (List.pairwise_append.mp hsorted).2.2 p hp _ hdrop

theorem topIds_scoreIds (x : FlatIndex) (query : Vec) {ids : List UInt64} (hids : ids.Nodup) (k : Nat) :
    TopIds (fun id => if id ∈ ids then (x.get id).map (N.cosine query) else none) k (x.scoreIds query ids k) := by
  refine topIds_topOf ?_ (fun id s => ?_) k
  · rw [List.map_filterMap]
    refine hids.filterMap fun i j b hi hj => ?_
    simp only [Option.mem_def, Option.map_map, Option.map_eq_some_iff, Function.comp] at hi hj
    obtain ⟨-, -, rfl⟩ := hi
    obtain ⟨-, -, rfl⟩ := hj
    rfl
  · rw [List.mem_filterMap]
    simp only [Option.map_eq_some_iff, Prod.mk.injEq]
    split_ifs with hin
    · rw [Option.map_eq_some_iff]
      constructor
      · rintro ⟨v, hv, rfl⟩
        exact ⟨id, hin, v, hv, rfl, rfl⟩
      · rintro ⟨j, -, v, hv, rfl, rfl⟩
        exact ⟨v, hv, rfl⟩
    · constructor
      · intro hs
        cases hs
      · rintro ⟨j, hj, v, hv, rfl, rfl⟩
        exact absurd hj hin

theorem search_iff (h : x.Counted) (hkind : x.kind = .f32) (room : Nat) (query : Vec) (k : Nat) :
    (∃ out, search room x query k = .ok out ∧ TopIds (fun id => (x.get id).map (N.cosine query)) k out) ↔
      k = 0 ∨ x.len = 0 ∨ (k + 1) % 2 ^ 64 ≤ room := by
  rw [search]
  split_ifs with hnone
  · refine iff_of_true ⟨[], rfl, fun l hl hmem => ?_, List.nodup_nil, by simp, List.Pairwise.nil, by simp⟩ ?_
    · have hperm : l.Perm x.liveIds := (List.perm_ext_iff_of_nodup hl (nodup_liveIds h)).mpr fun id => by
        rw [hmem, mem_liveIds_iff h, Option.isSome_map]
      rw [hperm.length_eq, ← h.count, List.length_nil]
      omega
    · exact hnone.imp_right .inl
  · rw [hkind]
    by_cases hroom : (k + 1) % 2 ^ 64 ≤ room
    · refine iff_of_true ⟨_, ?_, (topRows_greatestRows h k fun row => N.cosine query (x.vectorOf row)).topIds h⟩
        (.inr (.inr hroom))
      dsimp only [searchExact]
      rw [selectTopK_eq hroom]
      rfl
    · refine iff_of_false (fun ⟨out, hout, _⟩ => ?_) fun hcond => ?_
      · dsimp only [searchExact] at hout
        rw [selectTopK_no_room hroom] at hout
        cases hout
      · exact hnone (hcond.imp_right fun hcond => hcond.resolve_right hroom)

/-- After any inserts and deletes the index is the map of them, and the best of given ids are found.  The greatest rows
are selected, and a search by the exact score finds the best there is, exactly when a heap of `k + 1` entries can be
reserved; a search needs none if it returns nothing. -/
theorem flat_refines_map (room dim : Nat) (kind : QuantKind) (ops : List FlatOp) :
    Represents (ops.foldl FlatOp.run (new dim kind)) (ops.foldl FlatOp.onMap fun _ => none) ∧
    (∀ (K : Type) [LinearOrder K] (key : Nat → K) (k : Nat),
      (∃ out, selectTopK room (ops.foldl FlatOp.run (new dim kind)) k key = .ok out ∧
        TopRows (ops.foldl FlatOp.run (new dim kind)) k key out) ↔ (k + 1) % 2 ^ 64 ≤ room) ∧
    (kind = .f32 → ∀ query k,
      (∃ out, search room (ops.foldl FlatOp.run (new dim kind)) query k = .ok out ∧
        TopIds (fun id => ((ops.foldl FlatOp.onMap fun _ => none) id).map (N.cosine query)) k out) ↔
      k = 0 ∨ (∀ id, (ops.foldl FlatOp.onMap fun _ => none) id = none) ∨ (k + 1) % 2 ^ 64 ≤ room) ∧
    ∀ query (ids : List UInt64) k, ids.Nodup →
      TopIds (fun id => if id ∈ ids then ((ops.foldl FlatOp.onMap fun _ => none) id).map (N.cosine query) else none) k
        ((ops.foldl FlatOp.run (new dim kind)).scoreIds query ids k) := by
  obtain ⟨hcounted, hget⟩ := (counted_new dim kind).runs ops
  have hmap : (ops.foldl FlatOp.onMap fun _ => none) = (ops.foldl FlatOp.run (new dim kind)).get := hget.symm
  rw [hmap]
  refine ⟨hcounted.represents, fun K _ key k => selectTopK_iff hcounted room k key, fun hkind query k => ?_,
    fun query ids k hids => topIds_scoreIds _ query hids k⟩
  rw [search_iff hcounted ((kind_runs _ ops).trans hkind), len_eq_zero_iff hcounted]

end

section

attribute [local instance] exactNumerics

/-- An id that is written, deleted and written again, beside another. -/
def rewritten : List FlatOp :=
  [.insert 7 [0x3f800000], .insert 8 [0xbf800000], .delete 7, .insert 7 [0xbf800000]]

theorem flat_refines_map_rewritten :
    (∃ out, search 2 (rewritten.foldl FlatOp.run (new 1 .f32)) [0x3f800000] 1 = .ok out ∧
      TopIds (fun id => ((rewritten.foldl FlatOp.onMap fun _ => none) id).map (exactNumerics.cosine [0x3f800000])) 1
        out) ∧
    TopIds (fun id => if id ∈ [(7 : UInt64), 9] then
      ((rewritten.foldl FlatOp.onMap fun _ => none) id).map (exactNumerics.cosine [0x3f800000]) else none) 2
      ((rewritten.foldl FlatOp.run (new 1 .f32)).scoreIds [0x3f800000] [7, 9] 2) :=
  ⟨((flat_refines_map 2 1 .f32 rewritten).2.2.1 rfl [0x3f800000] 1).mpr (.inr (.inr (by decide))),
    (flat_refines_map 2 1 .f32 rewritten).2.2.2 [0x3f800000] [7, 9] 2 (by decide)⟩

/-- A search of one row for more than `isize::MAX` bytes of entries, 16 bytes each, finds nothing. -/
theorem search_capacity_overflow :
    ((new 1 .f32).insert 7 [0x3f800000]).get 7 = some [0x3f800000] ∧ ∀ room ≤ (2 ^ 63 - 1) / 16,
      search room ((new 1 .f32).insert 7 [0x3f800000]) [0x3f800000] (2 ^ 59) =
        .error (.panic "capacity overflow") := by
  refine ⟨by decide, fun room hroom => ?_⟩
  have hsome : ¬ ((2 ^ 59 = 0) ∨ ((new 1 .f32).insert 7 [0x3f800000]).liveCount = 0) := by decide
  rw [search, if_neg hsome]
  change (do
    let top ← selectTopK room _ (2 ^ 59) _
    pure _ : Except Fault _) = _
  rw [selectTopK_no_room (by omega)]
  rfl

end

end FlatIndex

end Vector

end Skeg
