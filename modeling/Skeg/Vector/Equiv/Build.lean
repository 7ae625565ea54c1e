import Skeg.Vector.Build
import Mathlib.Data.List.Perm.Basic

/-!
# The graph stays well formed while it is built

Whatever is written to an out-list is well formed by itself: pruning drops the point that it is for and, with each
point it picks, the other copies of it (`neat_robustPrune`), and a point is appended only where it is not.  So the
operations of a call are harmless as long as what it reads is well formed (`meets_insertPointConcurrent`), and the
graph is well formed after any schedule of any calls (`pass_keeps_graph`).
-/

namespace Skeg

namespace Vector

open Interaction

/-! ### Nodes -/

namespace Node

theorem slice_set (node : Node) (ids : List UInt32) : (node.set ids).slice = .ok (ids.take maxR) := by
  have hle : min ids.length maxR ≤ maxR := Nat.min_le_right ..
  have hdegree : (node.set ids).degree.toNat = min ids.length maxR :=
    UInt32.toNat_ofNat_of_lt' (Nat.lt_of_le_of_lt hle (by decide))
  rw [slice, hdegree, if_neg (by omega)]
  have htake : (node.set ids).neighbors.take (min ids.length maxR) = ids.take (min ids.length maxR) :=
    List.take_left' (by rw [List.length_take]; omega)
  rw [htake]
  rcases Nat.le_total ids.length maxR with h | h
  · rw [Nat.min_eq_left h, List.take_length, List.take_of_length_le h]
  · rw [Nat.min_eq_right h]

theorem slice_eq_ok {node : Node} {ids : List UInt32} (h : node.slice = .ok ids) :
    node.degree.toNat ≤ maxR ∧ ids = node.neighbors.take node.degree.toNat ∧ ids.length = node.degree.toNat := by
  rw [slice] at h
  split_ifs at h with hlt
  obtain rfl := Except.ok.inj h
  refine ⟨by omega, rfl, ?_⟩
  rw [List.length_take, node.length_neighbors]
  omega

/-- The list is as it was, with the id in it or full, or it has one more. -/
theorem tryPush_eq_ok {node node' : Node} {ids : List UInt32} {id : UInt32} {maxDegree : Nat} {there : Bool}
    (hslice : node.slice = .ok ids) (h : node.tryPush id maxDegree = .ok (there, node')) :
    (node' = node ∧ (there = true ∧ id ∈ ids ∨ there = false ∧ id ∉ ids ∧ maxDegree ≤ ids.length)) ∨
      (there = true ∧ id ∉ ids ∧ ids.length < maxDegree ∧ node'.slice = .ok (ids ++ [id])) := by
  obtain ⟨hle, hids, hlen⟩ := slice_eq_ok hslice
  rw [tryPush, hslice] at h
  dsimp only at h
  split_ifs at h with hmem hroom harray
  · obtain ⟨rfl, rfl⟩ := Prod.mk.inj (Except.ok.inj h)
    exact .inl ⟨rfl, .inl ⟨rfl, hmem⟩⟩
  · obtain ⟨rfl, rfl⟩ := Prod.mk.inj (Except.ok.inj h)
    refine .inr ⟨rfl, hmem, by omega, ?_⟩
    have hdegree : (node.degree + 1).toNat = node.degree.toNat + 1 := by
      have : node.degree.toNat < 64 := harray
      rw [UInt32.toNat_add]
      exact Nat.mod_eq_of_lt (by simp; omega)
    rw [slice]
    dsimp only
    rw [hdegree, if_neg (by omega)]
    refine congrArg Except.ok ?_
    rw [List.take_succ_eq_append_getElem (by rw [List.length_set, node.length_neighbors]; omega),
      List.take_set_of_le (Nat.le_refl _), List.getElem_set_self, hids]
  · obtain ⟨rfl, rfl⟩ := Prod.mk.inj (Except.ok.inj h)
    exact .inl ⟨rfl, .inr ⟨rfl, hmem, by omega⟩⟩

end Node

/-! ### Well-formed graphs -/

/-- An out-list of a row: not too long, of other rows, without duplicates. -/
structure Neat (n r : Nat) (row : UInt32) (ids : List UInt32) : Prop where
  length_le : ids.length ≤ r
  lt : ∀ id ∈ ids, id.toNat < n
  nodup : ids.Nodup
  other : row ∉ ids

/-- Every node of the graph has a well-formed out-list. -/
structure NeatGraph (n r : Nat) (nodes : List Node) : Prop where
  length : nodes.length = n
  neat : ∀ (row : UInt32) (node : Node), nodes[row.toNat]? = some node →
    ∃ ids, node.slice = .ok ids ∧ Neat n r row ids

variable {n r : Nat}

theorem NeatGraph.set {nodes : List Node} (h : NeatGraph n r nodes) {row : UInt32} {node : Node} {ids : List UInt32}
    (hslice : node.slice = .ok ids) (hneat : Neat n r row ids) : NeatGraph n r (nodes.set row.toNat node) where
  length := List.length_set.trans h.length
  neat row' node' hat := by
    rw [List.getElem?_set] at hat
    split_ifs at hat with heq hlt
    · obtain rfl := Option.some.inj hat
      obtain rfl := UInt32.toNat_inj.mp heq
      exact ⟨ids, hslice, hneat⟩
    · exact h.neat row' node' hat

/-- A graph of lists of other rows. -/
theorem neatGraph_of_lists {lists : Nat → List UInt32} (hr : r ≤ maxR)
    (h : ∀ i < n, (lists i).length ≤ r ∧ (lists i).Nodup ∧ ∀ v ∈ lists i, v.toNat < n ∧ v.toNat ≠ i) :
    NeatGraph n r ((List.range n).map fun i => Node.new.set (lists i)) where
  length := by rw [List.length_map, List.length_range]
  neat row node hat := by
    rw [List.getElem?_map, Option.map_eq_some_iff] at hat
    obtain ⟨i, hi, rfl⟩ := hat
    obtain ⟨hlt, rfl⟩ := List.getElem?_eq_some_iff.mp hi
    rw [List.length_range] at hlt
    rw [List.getElem_range]
    obtain ⟨hlen, hnodup, hother⟩ := h row.toNat hlt
    refine ⟨lists row.toNat, ?_, hlen, fun v hv => (hother v hv).1, hnodup, fun hin => (hother row hin).2 rfl⟩
    rw [Node.slice_set, List.take_of_length_le (hlen.trans hr)]

/-! ### Pruning -/

section

variable {δ : Type} [LinearOrder δ]

theorem pickNeighbors_spec (alpha : δ → δ) (dist : UInt32 → UInt32 → δ) (room : Nat) (candidates : List (δ × UInt32)) :
    (pickNeighbors alpha dist room candidates).length ≤ room ∧
      (pickNeighbors alpha dist room candidates).Nodup ∧
      ∀ id ∈ pickNeighbors alpha dist room candidates, ∃ c ∈ candidates, c.2 = id := by
  induction room generalizing candidates with
  | zero => exact ⟨Nat.le_refl _, List.nodup_nil, by simp [pickNeighbors]⟩
  | succ room ih =>
    cases candidates with
    | nil => exact ⟨Nat.zero_le _, List.nodup_nil, by simp [pickNeighbors]⟩
    | cons c rest =>
      obtain ⟨d, pStar⟩ := c
      obtain ⟨hlen, hnodup, hmem⟩ := ih (rest.filter fun c => c.2 ≠ pStar ∧ c.1 < alpha (dist pStar c.2))
      rw [pickNeighbors]
      refine ⟨Nat.succ_le_succ hlen, List.nodup_cons.mpr ⟨fun hin => ?_, hnodup⟩, fun id hid => ?_⟩
      · -- the picked point is not among what is left
        obtain ⟨c, hc, heq⟩ := hmem pStar hin
        have hkeep := of_decide_eq_true (List.mem_filter.mp hc).2
        exact hkeep.1 heq
      · rcases List.mem_cons.mp hid with rfl | hid
        · exact ⟨_, List.mem_cons_self, rfl⟩
        · obtain ⟨c, hc, heq⟩ := hmem id hid
          exact ⟨c, List.mem_cons_of_mem _ (List.mem_of_mem_filter hc), heq⟩

theorem mem_robustPrune {alpha : δ → δ} {dist : UInt32 → UInt32 → δ} {p : UInt32} {candidates : List (δ × UInt32)}
    {id : UInt32} (h : id ∈ robustPrune alpha dist r p candidates) : id ≠ p ∧ ∃ c ∈ candidates, c.2 = id := by
  obtain ⟨c, hc, rfl⟩ := (pickNeighbors_spec alpha dist r _).2.2 id h
  rw [List.mem_insertionSort, List.mem_filter] at hc
  exact ⟨of_decide_eq_true hc.2, c, hc.1, rfl⟩

theorem neat_robustPrune (alpha : δ → δ) (dist : UInt32 → UInt32 → δ) (p : UInt32) {candidates : List (δ × UInt32)}
    (h : ∀ c ∈ candidates, c.2.toNat < n) : Neat n r p (robustPrune alpha dist r p candidates) where
  length_le := (pickNeighbors_spec alpha dist r _).1
  nodup := (pickNeighbors_spec alpha dist r _).2.1
  lt id hid := by
    obtain ⟨-, c, hc, rfl⟩ := mem_robustPrune hid
    exact h c hc
  other hp := (mem_robustPrune hp).1 rfl

end

/-! ### Locked operations -/

/-- The writes that keep a graph well formed. -/
def Locked.Allowed (n r : Nat) : Locked → Prop
  | neighbors _ => True
  | set row ids => Neat n r row ids
  | tryPush row p maxDegree => p.toNat < n ∧ p ≠ row ∧ maxDegree = r

/-- What a well-formed graph answers. -/
def Locked.Expected (n r : Nat) : (o : Locked) → o.Ret → Prop
  | neighbors row, ids => Neat n r row ids
  | set .., _ => True
  | tryPush .., _ => True

theorem Locked.run_eq_ok {nodes nodes' : List Node} (h : NeatGraph n r nodes) {o : Locked} (ho : o.Allowed n r)
    {a : o.Ret} (hrun : Locked.run nodes o = .ok (a, nodes')) : NeatGraph n r nodes' ∧ o.Expected n r a := by
  cases o with
  | neighbors row =>
    rw [Locked.run] at hrun
    split at hrun
    · cases hrun
    · rename_i node hat
      obtain ⟨ids, hslice, hneat⟩ := h.neat row node hat
      rw [hslice] at hrun
      obtain ⟨rfl, rfl⟩ := Prod.mk.inj (Except.ok.inj hrun)
      exact ⟨h, hneat⟩
  | set row ids =>
    rw [Locked.run] at hrun
    split at hrun
    · cases hrun
    · rename_i node hat
      obtain ⟨-, rfl⟩ := Prod.mk.inj (Except.ok.inj hrun)
      refine ⟨h.set (node.slice_set ids) ?_, trivial⟩
      have hneat : Neat n r row ids := ho
      have hsub := List.take_sublist maxR ids
      exact ⟨hsub.length_le.trans hneat.length_le, fun id hid => hneat.lt id (hsub.subset hid),
        hneat.nodup.sublist hsub, fun hin => hneat.other (hsub.subset hin)⟩
  | tryPush row p maxDegree =>
    obtain ⟨hp, hne, rfl⟩ := ho
    rw [Locked.run] at hrun
    split at hrun
    · cases hrun
    · rename_i node hat
      obtain ⟨ids, hslice, hneat⟩ := h.neat row node hat
      split at hrun
      · cases hrun
      · rename_i there node' hpush
        obtain ⟨-, rfl⟩ := Prod.mk.inj (Except.ok.inj hrun)
        refine ⟨?_, trivial⟩
        rcases Node.tryPush_eq_ok hslice hpush with ⟨rfl, -⟩ | ⟨-, hnew, hroom, hslice'⟩
        · exact h.set hslice hneat
        · refine h.set hslice' ⟨?_, fun id hid => ?_, ?_, fun hin => ?_⟩
          · rw [List.length_append]
            exact hroom
          · rcases List.mem_append.mp hid with hid | hid
            · exact hneat.lt id hid
            · rw [List.mem_singleton.mp hid]
              exact hp
          · exact List.nodup_append.mpr ⟨hneat.nodup, List.nodup_singleton p, fun a ha b hb =>
              fun heq => hnew (List.mem_singleton.mp hb ▸ heq ▸ ha)⟩
          · rcases List.mem_append.mp hin with hin | hin
            · exact hneat.other hin
            · exact hne (List.mem_singleton.mp hin).symm

/-! ### Calls -/

section

variable {δ : Type} [LinearOrder δ]

theorem visited_offer {dist : Nat → δ} {admits : Nat → Bool} {w w' : Walk δ} {row : Nat}
    (h : w.offer dist admits row = .ok w') : w'.visited = w.visited := by
  rw [Walk.offer] at h
  split at h
  · cases h
  · obtain rfl := Except.ok.inj h
    rfl
  · obtain rfl := Except.ok.inj h
    rfl

theorem visited_offerAll {dist : Nat → δ} {admits : Nat → Bool} {w w' : Walk δ} {rows : List Nat}
    (h : w.offerAll dist admits rows = .ok w') : w'.visited = w.visited := by
  induction rows generalizing w with
  | nil =>
    obtain rfl := Except.ok.inj h
    rfl
  | cons row rows ih =>
    rw [Walk.offerAll] at h
    split at h
    · cases h
    · rename_i w₁ hoffer
      exact (ih h).trans (visited_offer hoffer)

/-- A bit that is set is one of the bitset. -/
theorem testAndSet_eq_ok {b b' : VisitedBitset} {i : Nat} {old : Bool} (hcap : b.capacity = n)
    (hbits : ∀ j ∈ b.bits, j < n) (h : b.testAndSet i = .ok (old, b')) :
    b'.capacity = n ∧ ∀ j ∈ b'.bits, j < n := by
  rw [VisitedBitset.testAndSet] at h
  split_ifs at h with hlt
  obtain ⟨-, rfl⟩ := Prod.mk.inj (Except.ok.inj h)
  refine ⟨hcap, fun j hj => ?_⟩
  rcases Finset.mem_insert.mp hj with rfl | hj
  · omega
  · exact hbits j hj

theorem meets_walkLocked (dist : Nat → δ) (rounds : Nat) {w : Walk δ} (hcap : w.visited.capacity = n)
    (hbits : ∀ row ∈ w.visited.bits, row < n) :
    (walkLocked dist rounds w).Meets (Locked.Allowed n r) (Locked.Expected n r)
      fun walked => ∀ w', walked = .ok w' → w'.visited.capacity = n ∧ ∀ row ∈ w'.visited.bits, row < n := by
  induction rounds generalizing w with
  | zero =>
    rintro w' heq
    obtain rfl := Except.ok.inj heq
    exact ⟨hcap, hbits⟩
  | succ rounds ih =>
    rw [walkLocked]
    split
    · rintro w' heq
      obtain rfl := Except.ok.inj heq
      exact ⟨hcap, hbits⟩
    · split
      · rintro w' heq
        cases heq
      · rename_i visited htest
        obtain ⟨hcap', hbits'⟩ := testAndSet_eq_ok hcap hbits htest
        exact ih hcap' hbits'
      · rename_i visited htest
        obtain ⟨hcap', hbits'⟩ := testAndSet_eq_ok hcap hbits htest
        refine ⟨trivial, fun nbrs _ => ?_⟩
        dsimp only
        split
        · rintro w' heq
          cases heq
        · rename_i w₁ hoffer
          have hvisited := visited_offerAll hoffer
          exact ih (hvisited ▸ hcap') (hvisited ▸ hbits')

omit [LinearOrder δ] in
theorem lt_of_mem_candidates {c : Insertion δ} {w : Walk δ} {nbrs : List UInt32} (hw : ∀ row ∈ w.visited.bits, row < n)
    (hnbrs : ∀ id ∈ nbrs, id.toNat < n) : ∀ x ∈ c.candidates w nbrs, x.2.toNat < n := by
  have hfold : ∀ (nbrs : List UInt32) (cs : List (δ × UInt32)), (∀ id ∈ nbrs, id.toNat < n) →
      (∀ x ∈ cs, x.2.toNat < n) → ∀ x ∈ nbrs.foldl (fun cs nbr =>
        if nbr ≠ c.p ∧ ¬ cs.any (fun x => x.2 = nbr) then cs ++ [(c.dist c.p nbr, nbr)] else cs) cs,
        x.2.toNat < n := by
    intro nbrs
    induction nbrs with
    | nil => exact fun cs _ hcs => hcs
    | cons nbr nbrs ih =>
      intro cs hnbrs hcs
      obtain ⟨hnbr, hnbrs⟩ := List.forall_mem_cons.mp hnbrs
      refine ih _ hnbrs fun x hx => ?_
      dsimp only at hx
      split_ifs at hx
      · rcases List.mem_append.mp hx with hx | hx
        · exact hcs x hx
        · rw [List.mem_singleton.mp hx]
          exact hnbr
      · exact hcs x hx
  refine hfold nbrs _ hnbrs fun x hx => ?_
  obtain ⟨id, hid, rfl⟩ := List.mem_map.mp hx
  obtain ⟨row, hrow, rfl⟩ := List.mem_map.mp (List.mem_of_mem_filter hid)
  have hlt := hw row (of_decide_eq_true (List.mem_filter.mp hrow).2)
  rw [UInt32.toNat_ofNat']
  exact Nat.lt_of_le_of_lt (Nat.mod_le ..) hlt

theorem meets_backEdges {c : Insertion δ} (hp : c.p.toNat < n) {js : List UInt32} (hjs : c.p ∉ js) :
    (backEdges r c js).Meets (Locked.Allowed n r) (Locked.Expected n r) fun _ => True := by
  induction js with
  | nil => trivial
  | cons j js ih =>
    obtain ⟨hj, hjs⟩ := not_or.mp (fun h => hjs (List.mem_cons.mpr h))
    rw [backEdges]
    refine ⟨⟨hp, hj, rfl⟩, fun there _ => ?_⟩
    dsimp only
    split_ifs
    · exact ih hjs
    · refine ⟨trivial, fun nbrs hnbrs => ⟨?_, fun _ _ => ih hjs⟩⟩
      have hneat : Neat n r j nbrs := hnbrs
      refine neat_robustPrune c.alpha c.dist j fun x hx => ?_
      obtain ⟨id, hid, rfl⟩ := List.mem_map.mp hx
      rcases List.mem_append.mp hid with hid | hid
      · exact hneat.lt id hid
      · rw [List.mem_singleton.mp hid]
        exact hp

/-- A call that reads well-formed lists writes well-formed lists. -/
theorem meets_insertPointConcurrent {c : Insertion δ} (hp : c.p.toNat < n) :
    (insertPointConcurrent n r c).Meets (Locked.Allowed n r) (Locked.Expected n r) fun _ => True := by
  rw [insertPointConcurrent]
  dsimp only
  split
  · trivial
  · rename_i w hoffer
    have hvisited := visited_offerAll hoffer
    have hwalk : (walkLocked (fun row => c.dist c.p (UInt32.ofNat row)) (n + 1) w).Meets (Locked.Allowed n r)
        (Locked.Expected n r)
        fun walked => ∀ w', walked = .ok w' → w'.visited.capacity = n ∧ ∀ row ∈ w'.visited.bits, row < n :=
      meets_walkLocked _ (n + 1) (hvisited ▸ rfl) (hvisited ▸ by simp [VisitedBitset.new])
    refine hwalk.bind fun walked hwalked => ?_
    cases walked with
    | error e => trivial
    | ok w' =>
      refine ⟨trivial, fun nbrs hnbrs => ?_⟩
      have hlist : Neat n r c.p nbrs := hnbrs
      have hneat : Neat n r c.p (robustPrune c.alpha c.dist r c.p (c.candidates w' nbrs)) :=
        neat_robustPrune c.alpha c.dist c.p (lt_of_mem_candidates (hwalked w' rfl).2 hlist.lt)
      exact ⟨hneat, fun _ _ => meets_backEdges hp hneat.other⟩

/-! ### Passes -/

/-- The graph is well formed, and no call will write anything else. -/
structure Pass.Sound (n r : Nat) (s : Pass) : Prop where
  graph : NeatGraph n r s.nodes
  tasks : ∀ t ∈ s.tasks, t.Meets (Locked.Allowed n r) (Locked.Expected n r) fun _ => True

theorem Pass.Sound.step {s : Pass} (h : s.Sound n r) (i : Nat) : (s.step i).Sound n r := by
  rw [Pass.step]
  split
  · rename_i o k htask
    have hmeets := h.tasks _ (List.mem_of_getElem? htask)
    have hset : ∀ t : Program lockedGraph (Except Fault Unit),
        t.Meets (Locked.Allowed n r) (Locked.Expected n r) (fun _ => True) → ∀ t' ∈ s.tasks.set i t,
        t'.Meets (Locked.Allowed n r) (Locked.Expected n r) fun _ => True := by
      intro t ht t' ht'
      rcases List.mem_or_eq_of_mem_set ht' with ht' | rfl
      · exact h.tasks t' ht'
      · exact ht
    split
    · exact ⟨h.graph, hset _ trivial⟩
    · rename_i a nodes hrun
      obtain ⟨hgraph, hanswer⟩ := Locked.run_eq_ok h.graph hmeets.1 hrun
      exact ⟨hgraph, hset _ (hmeets.2 a hanswer)⟩
  · exact h

theorem Pass.Sound.run {s : Pass} (h : s.Sound n r) (schedule : List Nat) : (s.run schedule).Sound n r := by
  induction schedule generalizing s with
  | nil => exact h
  | cons i schedule ih => exact ih (h.step i)

/-- Calls for rows of a well-formed graph keep it well formed, in whatever order their operations are taken. -/
theorem pass_keeps_graph (n r : Nat) (nodes : List Node) (hgraph : NeatGraph n r nodes) (calls : List (Insertion δ))
    (hcalls : ∀ c ∈ calls, c.p.toNat < n) (schedule : List Nat) :
    NeatGraph n r (Pass.run ⟨nodes, calls.map (insertPointConcurrent n r)⟩ schedule).nodes := by
  refine (Pass.Sound.run ⟨hgraph, fun t ht => ?_⟩ schedule).graph
  obtain ⟨c, hc, rfl⟩ := List.mem_map.mp ht
  exact meets_insertPointConcurrent (hcalls c hc)

end

/-- Two nodes without out-edges, and two calls at a time. -/
theorem pass_keeps_graph_pair :
    NeatGraph 2 1 [Node.new, Node.new] ∧
      NeatGraph 2 1 (Pass.run ⟨[Node.new, Node.new],
        [⟨0, 0, id, 4, fun a b => a.toNat + b.toNat⟩, ⟨0, 1, id, 4, fun a b => a.toNat + b.toNat⟩].map
          (insertPointConcurrent 2 1)⟩ [0, 1, 0, 1, 1, 0]).nodes := by
  have hgraph : NeatGraph 2 1 [Node.new, Node.new] := by
    refine ⟨rfl, fun row node hat => ⟨[], ?_, Nat.zero_le _, by simp, List.nodup_nil, by simp⟩⟩
    have hnew : node ∈ [Node.new, Node.new] := List.mem_of_getElem? hat
    rcases List.mem_pair.mp hnew with rfl | rfl <;> rfl
  exact ⟨hgraph, pass_keeps_graph 2 1 [Node.new, Node.new] hgraph _ (by simp) [0, 1, 0, 1, 1, 0]⟩

end Vector

end Skeg
