import Skeg.Vector.Format
import Skeg.Vector.Equiv.Wal
import Mathlib.Tactic.Ring
import Mathlib.Tactic.Linarith

/-!
# Correctness of the base files

What was written is read back: `readGraph_graphVmn`, `readVectors_vectorsBin` and, for one row,
`readVector_vectorsBin`.  Counts are four bytes wide, so all of this is for fewer than `2 ^ 32` rows.
-/

namespace Skeg

namespace Vector

/-! ### Headers -/

theorem length_header {fields : List Nat} (h : fields.length ≤ 16) :
    (header fields).length = headerLen := by
  rw [header, List.length_append, length_toLEs, length_zeros, headerLen]
  omega

theorem readU32_header {fields : List Nat} {i n : Nat} (hi : fields[i]? = some n) (hn : n < 2 ^ 32)
    (rest : Bytes) : readU32 (header fields ++ rest) (i * 4) = n := by
  rw [readU32, header, List.append_assoc]
  exact fromLE_toLEs hi hn _

/-! ### Nodes -/

theorem Node.ofWords_words (n : Node) : Node.ofWords n.words = n := by
  obtain ⟨degree, neighbors, hlen⟩ := n
  have hback : neighbors.map (UInt32.ofNat ∘ UInt32.toNat) = neighbors := by
    conv_rhs => rw [← List.map_id neighbors]
    exact List.map_congr_left fun x _ => UInt32.ofNat_toNat
  simp only [Node.ofWords, Node.words, List.headD_cons, List.tail_cons, List.map_map, Node.mk.injEq,
    UInt32.ofNat_toNat, true_and]
  rw [hback, List.take_left' hlen]

theorem Node.length_words (n : Node) : n.words.length = 1 + maxR := by
  rw [Node.words, List.length_cons, List.length_map, n.length_neighbors, Nat.add_comm]

theorem Node.words_lt (n : Node) : ∀ w ∈ n.words, w < 256 ^ 4 := by
  intro w hw
  rcases List.mem_cons.mp hw with rfl | hw
  · exact n.degree.toNat_lt
  · obtain ⟨x, _, rfl⟩ := List.mem_map.mp hw
    exact x.toNat_lt

theorem readNodes_words (ns : List Node) (rest : Bytes) :
    readNodes ns.length ((ns.flatMap fun n => toLEs 4 n.words) ++ rest) = some ns := by
  induction ns with
  | nil => rfl
  | cons n ns ih =>
    have hread := readLEs_toLEs n.words_lt ((ns.flatMap fun n => toLEs 4 n.words) ++ rest)
    rw [n.length_words] at hread
    rw [List.flatMap_cons, List.append_assoc, List.length_cons, readNodes, hread]
    simp only [ih, Option.map_some, n.ofWords_words]

/-! ### The graph -/

/-- A graph that its file format can hold. -/
structure Graph.Wf (g : Graph) : Prop where
  nodes : g.nodes.length = g.ids.length
  ids : g.ids.length < 2 ^ 32
  dim : g.dim < 2 ^ 32
  medoid : g.medoid < 2 ^ 32
  lSearch : g.lSearch < 2 ^ 32

theorem readGraph_graphVmn {g : Graph} (h : g.Wf) :
    readGraph (graphVmn g) = .ok { g with r := 0 } := by
  set fields := [graphMagic, formatVersion, g.ids.length, g.dim, g.medoid, g.r, g.lSearch] with hf
  set body := toLEs 8 (g.ids.map UInt64.toNat) ++ g.nodes.flatMap fun n => toLEs 4 n.words with hb
  have hbytes : graphVmn g = header fields ++ body := by
    rw [graphVmn, List.append_assoc]
  have hfield : ∀ {i n : Nat}, fields[i]? = some n → n < 2 ^ 32 →
      readU32 (graphVmn g) (i * 4) = n := by
    intro i n hi hn
    rw [hbytes]
    exact readU32_header hi hn body
  have hlen : (header fields).length = headerLen := length_header (by simp [fields])
  have h0 : readU32 (graphVmn g) 0 = graphMagic := hfield (i := 0) rfl (by decide)
  have h1 : readU32 (graphVmn g) 4 = formatVersion := hfield (i := 1) rfl (by decide)
  have h2 : readU32 (graphVmn g) 8 = g.ids.length := hfield (i := 2) rfl h.ids
  have h3 : readU32 (graphVmn g) 12 = g.dim := hfield (i := 3) rfl h.dim
  have h4 : readU32 (graphVmn g) 16 = g.medoid := hfield (i := 4) rfl h.medoid
  have h6 : readU32 (graphVmn g) 24 = g.lSearch := hfield (i := 6) rfl h.lSearch
  have hids : readLEs 8 g.ids.length ((graphVmn g).drop headerLen) =
      some (g.ids.map UInt64.toNat, g.nodes.flatMap fun n => toLEs 4 n.words) := by
    have hlt : ∀ n ∈ g.ids.map UInt64.toNat, n < 256 ^ 8 := by
      intro n hn
      obtain ⟨x, _, rfl⟩ := List.mem_map.mp hn
      exact x.toNat_lt
    have hread := readLEs_toLEs hlt (g.nodes.flatMap fun n => toLEs 4 n.words)
    rw [List.length_map] at hread
    rw [hbytes, List.drop_left' hlen, hb, hread]
  have hnodes : readNodes g.ids.length (g.nodes.flatMap fun n => toLEs 4 n.words) = some g.nodes := by
    have := readNodes_words g.nodes []
    rwa [List.append_nil, h.nodes] at this
  have hback : (g.ids.map UInt64.toNat).map UInt64.ofNat = g.ids := by
    rw [List.map_map]
    conv_rhs => rw [← List.map_id g.ids]
    exact List.map_congr_left fun x _ => UInt64.ofNat_toNat
  have hge : ¬ (graphVmn g).length < headerLen := by
    rw [hbytes, List.length_append, hlen]
    omega
  rw [readGraph, if_neg (by simp [hge, h0, h1])]
  simp only [h2, hids, hnodes, h3, h4, h6, hback]

/-! ### The rows -/

theorem length_rows {dim : Nat} {rows : List Vec} (h : ∀ v ∈ rows, v.length = dim) :
    (rows.flatMap encodeF32s).length = rows.length * dim * 4 := by
  induction rows with
  | nil => simp
  | cons v rows ih =>
    rw [List.flatMap_cons, List.length_append, length_encodeF32s, h v (by simp),
      ih fun u hu => h u (by simp [hu]), List.length_cons]
    ring

theorem drop_rows {dim : Nat} {rows : List Vec} (h : ∀ v ∈ rows, v.length = dim) (row : Nat) :
    (rows.flatMap encodeF32s).drop (row * dim * 4) = (rows.drop row).flatMap encodeF32s := by
  induction rows generalizing row with
  | nil => simp
  | cons v rows ih =>
    cases row with
    | zero => simp
    | succ row =>
      have hv : (encodeF32s v).length = dim * 4 := by rw [length_encodeF32s, h v (by simp)]
      have hsplit : (row + 1) * dim * 4 = dim * 4 + row * dim * 4 := by ring
      rw [List.flatMap_cons, hsplit, ← List.drop_drop, List.drop_left' hv,
        ih fun u hu => h u (by simp [hu]), List.drop_succ_cons]

theorem readVector_vectorsBin {dim : Nat} {rows : List Vec} (h : ∀ v ∈ rows, v.length = dim)
    {row : Nat} {v : Vec} (hv : rows[row]? = some v) :
    readVector (vectorsBin dim rows) dim row = .ok v := by
  obtain ⟨hrow, hget⟩ := List.getElem?_eq_some_iff.mp hv
  have hlen : (header [vecMagic, formatVersion, rows.length, dim]).length = headerLen :=
    length_header (by simp)
  have hvlen : v.length = dim := h v (hget ▸ List.getElem_mem hrow)
  have hdrop : (vectorsBin dim rows).drop (headerLen + row * dim * 4) =
      (rows.drop row).flatMap encodeF32s := by
    rw [vectorsBin, ← List.drop_drop, List.drop_left' hlen, drop_rows h]
  have htake : ((rows.drop row).flatMap encodeF32s).take (dim * 4) = encodeF32s v := by
    rw [List.drop_eq_getElem_cons hrow, hget, List.flatMap_cons, List.take_left' (by simp [hvlen])]
  have hge : ¬ (vectorsBin dim rows).length < headerLen + row * dim * 4 + dim * 4 := by
    have : (row + 1) * (dim * 4) ≤ rows.length * (dim * 4) := Nat.mul_le_mul_right _ hrow
    rw [vectorsBin, List.length_append, hlen, length_rows h]
    nlinarith
  rw [readVector, if_neg (by simp [hge]), hdrop, htake, decodeF32s_encodeF32s]

theorem mapM_range_ok {α : Type} {f : Nat → Except Fault α} {xs : List α}
    (h : ∀ i x, xs[i]? = some x → f i = .ok x) : (List.range xs.length).mapM f = .ok xs := by
  induction xs using List.reverseRecOn with
  | nil => rfl
  | append_singleton xs x ih =>
    have hx : f xs.length = .ok x := h xs.length x (by simp)
    have hrest := ih fun i y hy => h i y (by
      rw [List.getElem?_append_left (List.getElem?_eq_some_iff.mp hy).1]
      exact hy)
    rw [List.length_append, List.length_singleton, List.range_succ, List.mapM_append, hrest]
    simp [hx, bind, Except.bind, pure, Except.pure]

theorem readVectors_vectorsBin {dim : Nat} {rows : List Vec} (h : ∀ v ∈ rows, v.length = dim)
    (hn : rows.length < 2 ^ 32) (hdim : dim < 2 ^ 32) (hpos : 0 < dim) :
    readVectors (vectorsBin dim rows) rows.length dim = .ok rows := by
  set fields := [vecMagic, formatVersion, rows.length, dim] with hf
  have hfield : ∀ {i n : Nat}, fields[i]? = some n → n < 2 ^ 32 →
      readU32 (vectorsBin dim rows) (i * 4) = n := fun hi hn => readU32_header hi hn _
  have h0 : readU32 (vectorsBin dim rows) 0 = vecMagic := hfield (i := 0) rfl (by decide)
  have h1 : readU32 (vectorsBin dim rows) 4 = formatVersion := hfield (i := 1) rfl (by decide)
  have h2 : readU32 (vectorsBin dim rows) 8 = rows.length := hfield (i := 2) rfl hn
  have h3 : readU32 (vectorsBin dim rows) 12 = dim := hfield (i := 3) rfl hdim
  have hge : ¬ (vectorsBin dim rows).length < headerLen := by
    rw [vectorsBin, List.length_append, length_header (by simp)]
    omega
  rw [readVectors, if_neg hge, if_neg (by simp [h0, h1]), if_neg (by simp [h2]),
    if_neg (by simp [h3]), if_neg (by omega)]
  exact mapM_range_ok fun i v hv => readVector_vectorsBin h hv

end Vector

end Skeg
