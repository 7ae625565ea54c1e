import Skeg.Lib.TopK
import Skeg.Server.ShardSet
import Skeg.Vector.Exact

/-!
# A search over all shards

`ShardSet::vsearch` asks every shard, appends the hits in the order of the shards, sorts and cuts them off.  When the
shards that find rows answer with their best ones, the result is the best rows of these shards (`TopK.isTop_flatMap`).
The error of a shard is returned only if no shard has found anything: `eval_recvHits` says what the replies come to.
-/

namespace Skeg.Server

open Interaction (Program)
open TopK (IsTop)

section

variable [N : Vector.Numerics]

abbrev Hit := UInt64 × N.Score × Option Bytes

/-- Shards with the given replies, to which the mailboxes in `isOpen` lead; a request's ticket is its shard. -/
def shardAnswers (permit : Bool) (isOpen : Nat → Bool) (reply : Nat → Option ShardReply) :
    Unit → (o : HandlerOp) → Option (o.Ret × Unit)
  | _, .send shard _ => some (if isOpen shard then some shard else none, ())
  | _, .recv ticket => some (reply ticket, ())
  | _, .tryAcquire => some (permit, ())
  | _, .release => some ((), ())

/-- The result of a search. -/
def gathered (n : Nat) (v : Vsearch) (permit : Bool) (isOpen : Nat → Bool) (reply : Nat → Option ShardReply) :
    Option (Except ShardError (List Hit)) :=
  ((ShardSet.vsearch n v).eval (S := Ops) (shardAnswers permit isOpen reply) ()).map Prod.fst

/-! ### Replies -/

def hitsOf : Option ShardReply → Option (List Hit)
  | some (.vector (.vsearch hits)) => some hits
  | _ => none

def errorOf : Option ShardReply → Option String
  | some (.vector (.err e)) => some e
  | _ => none

/-- The shard has answered, with hits or with an error. -/
def Answers (r : Option ShardReply) : Prop := (hitsOf r).isSome = true ∨ (errorOf r).isSome = true

/-- What the hits and the first error come to. -/
def outcome : List Hit → Option String → Except ShardError (List Hit)
  | [], some e => .error (.storage e)
  | merged, _ => .ok merged

variable {permit : Bool} {isOpen : Nat → Bool} {reply : Nat → Option ShardReply}

theorem eval_send_bind {α : Type} (shard : Nat) (req : ShardMsg) (f : Option Nat → Handler α) :
    (Handler.send shard req >>= f).eval (S := Ops) (shardAnswers permit isOpen reply) () =
      (f (if isOpen shard then some shard else none)).eval (S := Ops) (shardAnswers permit isOpen reply) () :=
  rfl

theorem eval_recv_bind {α : Type} (ticket : Nat) (f : Option ShardReply → Handler α) :
    (Handler.recv ticket >>= f).eval (S := Ops) (shardAnswers permit isOpen reply) () =
      (f (reply ticket)).eval (S := Ops) (shardAnswers permit isOpen reply) () :=
  rfl

theorem eval_sendAll (req : ShardMsg) (shards : List Nat) :
    (ShardSet.sendAll req shards).eval (S := Ops) (shardAnswers permit isOpen reply) () =
      some (if shards.all isOpen then some shards else none, ()) := by
  induction shards with
  | nil => rfl
  | cons shard shards ih =>
    rw [ShardSet.sendAll, eval_send_bind]
    cases hopen : isOpen shard with
    | false =>
      rw [List.all_cons, hopen]
      rfl
    | true =>
      rw [List.all_cons, hopen, Bool.true_and]
      rw [if_pos rfl]
      dsimp only
      rw [Program.eval_bind, ih]
      cases shards.all isOpen <;> rfl

/-- The hits of all shards, with the first error; a shard that does not answer ends the search. -/
theorem eval_recvHits (tickets : List Nat) (merged : List Hit) (first : Option String) :
    ((∀ t ∈ tickets, Answers (reply t)) →
      (ShardSet.recvHits tickets merged first).eval (S := Ops) (shardAnswers permit isOpen reply) () =
        some (outcome (merged ++ tickets.flatMap fun t => (hitsOf (reply t)).getD [])
          (first.or (tickets.findSome? fun t => errorOf (reply t))), ())) ∧
    ((∃ t ∈ tickets, ¬ Answers (reply t)) →
      (ShardSet.recvHits tickets merged first).eval (S := Ops) (shardAnswers permit isOpen reply) () =
        some (.error .unavailable, ())) := by
  induction tickets generalizing merged first with
  | nil =>
    refine ⟨fun _ => ?_, by simp⟩
    rw [List.flatMap_nil, List.append_nil]
    rcases merged with _ | ⟨_, _⟩ <;> cases first <;> rfl
  | cons ticket tickets ih =>
    rw [ShardSet.recvHits]
    simp only [eval_recv_bind, List.forall_mem_cons, List.exists_mem_cons_iff, List.flatMap_cons, List.findSome?_cons]
    split
    · rename_i found hreply
      have hhits : hitsOf (some (.vector (.vsearch found))) = some found := rfl
      have herror : errorOf (some (.vector (.vsearch found))) = none := rfl
      simp only [hreply, Answers, hhits, herror, Option.getD_some, ← List.append_assoc, Option.isSome_some, true_or,
        true_and, not_true_eq_false, false_or]
      exact ih _ _
    · rename_i e hreply
      have hhits : hitsOf (some (.vector (.err e))) = none := rfl
      have herror : errorOf (some (.vector (.err e))) = some e := rfl
      have hfirst : ∀ second : Option String, (first.or (some e)).or second = first.or (some e) := by
        cases first <;> intro <;> rfl
      have htail := ih merged (first.or (some e))
      rw [hfirst] at htail
      simp only [hreply, Answers, hhits, herror, Option.getD_none, List.nil_append, Option.isSome_some, or_true,
        true_and, not_true_eq_false, false_or]
      exact htail
    · rename_i hne hne'
      have hnot : ¬ Answers (reply ticket) := by
        rintro (h | h)
        · unfold hitsOf at h
          split at h
          · rename_i hits hreply
            exact hne hits hreply
          · cases h
        · unfold errorOf at h
          split at h
          · rename_i e hreply
            exact hne' e hreply
          · cases h
      exact ⟨fun h => absurd h.1 hnot, fun _ => rfl⟩

/-! ### The search -/

/-- The hits that were received, as they are returned. -/
def ranked (v : Vsearch) (merged : List Hit) : List Hit := (merged.insertionSort fun a b => b.2.1 ≤ a.2.1).take v.k

theorem gathered_eq (n : Nat) (v : Vsearch) :
    gathered n v true isOpen reply =
      if (List.range n).all isOpen then
        ((ShardSet.recvHits (List.range n) [] none).eval (S := Ops) (shardAnswers true isOpen reply) ()).map fun r =>
          r.1.map (ranked v)
      else some (.error .unavailable) := by
  rw [gathered, ShardSet.vsearch]
  show Option.map Prod.fst ((ShardSet.sendAll _ _ >>= _).eval (S := Ops) _ ()) = _
  rw [Program.eval_bind, eval_sendAll]
  cases (List.range n).all isOpen with
  | false => rfl
  | true =>
    show Option.map Prod.fst ((ShardSet.recvHits _ _ _ >>= _).eval (S := Ops) _ ()) = _
    rw [Program.eval_bind, if_pos rfl]
    obtain _ | ⟨_ | _, _⟩ := (ShardSet.recvHits (List.range n) [] none).eval (S := Ops) (shardAnswers true isOpen reply) ()
    · rfl
    · rfl
    · rfl

theorem pairwise_ranked (merged : List Hit) :
    (merged.insertionSort fun a b => b.2.1 ≤ a.2.1).Pairwise fun a b => b.2.1 ≤ a.2.1 := by
  have : Std.Total fun a b : Hit => b.2.1 ≤ a.2.1 := ⟨fun a b => le_total b.2.1 a.2.1⟩
  have : IsTrans Hit fun a b => b.2.1 ≤ a.2.1 := ⟨fun a b c hab hbc => hbc.trans hab⟩
  exact List.pairwise_insertionSort _ _

/-- The shards that answer with hits. -/
def found (n : Nat) (reply : Nat → Option ShardReply) : List Nat :=
  (List.range n).filter fun i => (hitsOf (reply i)).isSome

theorem flatMap_found (n : Nat) : (found n reply).flatMap (fun i => (hitsOf (reply i)).getD []) =
    (List.range n).flatMap fun i => (hitsOf (reply i)).getD [] := by
  rw [found]
  induction List.range n with
  | nil => rfl
  | cons i is ih =>
    cases hi : hitsOf (reply i) with
    | none => rw [List.filter_cons_of_neg (by simp [hi]), List.flatMap_cons, hi, ih, Option.getD_none, List.nil_append]
    | some hits => rw [List.filter_cons_of_pos (by simp [hi]), List.flatMap_cons, List.flatMap_cons, ih]

/-- Let the shards that answer with hits answer with the best of their rows.  If one of the shards does not answer, the
search fails.  If all do, it returns the best rows of those that have hits, in order, unless there is an error and no
hit: then it returns the first error. -/
theorem vsearch_gathers (n : Nat) (v : Vsearch) (isOpen : Nat → Bool) (reply : Nat → Option ShardReply)
    (rows : Nat → List Hit)
    (htop : ∀ i < n, ∀ hits, hitsOf (reply i) = some hits → IsTop (·.2.1) v.k (rows i) hits) :
    ((∃ i < n, isOpen i = false ∨ ¬ Answers (reply i)) →
      gathered n v true isOpen reply = some (.error .unavailable)) ∧
    ((∀ i < n, isOpen i = true ∧ Answers (reply i)) →
      ((∀ i < n, errorOf (reply i) = none) ∨ (∃ i < n, ∃ hits, hitsOf (reply i) = some hits ∧ hits ≠ []) →
        ∃ result, gathered n v true isOpen reply = some (.ok result) ∧
          IsTop (·.2.1) v.k ((found n reply).flatMap rows) result ∧ result.Pairwise fun a b => b.2.1 ≤ a.2.1) ∧
      ∀ e, (List.range n).findSome? (fun i => errorOf (reply i)) = some e →
        (∀ i < n, ∀ hits, hitsOf (reply i) = some hits → hits = []) →
        gathered n v true isOpen reply = some (.error (.storage e))) ∧
    gathered n v false isOpen reply = some (.error .busy) := by
  have hrecv := @eval_recvHits _ true isOpen reply (List.range n) [] none
  simp only [List.mem_range, List.nil_append, Option.none_or] at hrecv
  refine ⟨?_, fun hall => ?_, rfl⟩
  · rintro ⟨i, hi, hfailed⟩
    rw [gathered_eq]
    split_ifs with hopen
    · have hi' := List.all_eq_true.mp hopen i (List.mem_range.mpr hi)
      rw [hrecv.2 ⟨i, hi, hfailed.resolve_left (by simp [hi'])⟩]
      rfl
    · rfl
  have hopen : (List.range n).all isOpen = true := List.all_eq_true.mpr fun i hi => (hall i (List.mem_range.mp hi)).1
  have hresult := @gathered_eq _ isOpen reply n v
  rw [if_pos hopen, hrecv.1 fun i hi => (hall i hi).2, ← flatMap_found] at hresult
  set merged := (found n reply).flatMap fun i => (hitsOf (reply i)).getD [] with hmerged
  have hmem : ∀ i ∈ found n reply, IsTop (·.2.1) v.k (rows i) ((hitsOf (reply i)).getD []) := by
    intro i hi
    obtain ⟨hn, hsome⟩ := List.mem_filter.mp hi
    obtain ⟨hits, hhits⟩ := Option.isSome_iff_exists.mp hsome
    rw [hhits]
    exact htop i (List.mem_range.mp hn) hits hhits
  refine ⟨fun hok => ?_, fun e he hempty => ?_⟩
  · have hout : outcome merged ((List.range n).findSome? fun i => errorOf (reply i)) = .ok merged := by
      rcases hok with hnone | ⟨i, hi, hits, hhits, hne⟩
      · have hfirst : ((List.range n).findSome? fun i => errorOf (reply i)) = none :=
          List.findSome?_eq_none_iff.mpr fun i hi => hnone i (List.mem_range.mp hi)
        rw [hfirst]
        cases merged <;> rfl
      · have hfound : i ∈ found n reply := List.mem_filter.mpr ⟨List.mem_range.mpr hi, by rw [hhits]; rfl⟩
        cases hm : merged with
        | cons => rfl
        | nil =>
          have hnil := List.flatMap_eq_nil_iff.mp (hmerged.symm.trans hm) i hfound
          rw [hhits] at hnil
          exact absurd hnil hne
    refine ⟨ranked v merged, by rw [hresult, hout]; rfl, ?_, (pairwise_ranked _).sublist (List.take_sublist _ _)⟩
    refine TopK.isTop_flatMap hmem ?_
    exact (TopK.isTop_take v.k (pairwise_ranked _)).perm (List.perm_insertionSort _ _)
  · have hnil : merged = [] := by
      refine List.flatMap_eq_nil_iff.mpr fun i hi => ?_
      obtain ⟨hn, hsome⟩ := List.mem_filter.mp hi
      obtain ⟨hits, hhits⟩ := Option.isSome_iff_exists.mp hsome
      rw [hhits]
      exact hempty i (List.mem_range.mp hn) hits hhits
    rw [hresult, hnil, he]
    rfl

end

section

open Skeg.Vector (exactNumerics)

attribute [local instance] exactNumerics

def topOne : Vsearch := ⟨"idx", [0x3f800000], 1, 0, 0, false, none⟩

/-- Row `i` is on shard `i`; the second is the better one. -/
def oneRowEach (i : Nat) : List Hit := [(UInt64.ofNat i, (i : ℚ), none)]

theorem vsearch_gathers_twoShards : ∃ result,
    gathered 2 topOne true (fun _ => true) (fun i => some (.vector (.vsearch (oneRowEach i)))) = some (.ok result) ∧
      IsTop (·.2.1) 1 ((List.range 2).flatMap oneRowEach) result ∧ result.Pairwise fun a b => b.2.1 ≤ a.2.1 :=
  ((vsearch_gathers 2 topOne (fun _ => true) (fun i => some (.vector (.vsearch (oneRowEach i)))) oneRowEach
    fun _ _ _ h => Option.some.inj h ▸ TopK.isTop_take 1 (List.pairwise_singleton _ _)).2.1
      fun _ _ => ⟨rfl, .inl rfl⟩).1 (.inl fun _ _ => rfl)

/-- The shard with the better row fails, and the search returns the row of the other one. -/
theorem failed_shard_left_out :
    gathered 2 topOne true (fun _ => true)
      (fun i => some (.vector (if i = 1 then .err "io error" else .vsearch (oneRowEach i)))) =
        some (.ok (oneRowEach 0)) :=
  rfl

end

end Skeg.Server
