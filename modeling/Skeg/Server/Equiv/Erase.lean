import Skeg.Server.Erase

/-!
# Running an erasure

The deletions of an erasure start with the keys that are there and end in any order.  What is left to delete is what
there was to delete, less the keys that are gone (`startDels_spec`).  `Erases` is an erasure that runs to its reply with
nothing else in flight.
-/

namespace Skeg.Server

namespace Shard

/-! ### Starting deletions -/

theorem startDels_spec (s : Shard) (todo running : List Bytes) :
    (∀ k ∈ (s.startDels todo running).1 ++ (s.startDels todo running).2, k ∈ todo ++ running) ∧
      ∀ k ∈ todo ++ running, k ∈ s.blobs.keys ∨ k ∈ running →
        k ∈ (s.startDels todo running).1 ++ (s.startDels todo running).2 := by
  induction todo generalizing running with
  | nil =>
    refine ⟨fun k hk => hk, fun k hk _ => hk⟩
  | cons key todo ih =>
    rw [startDels]
    split_ifs with hfull hsome
    · exact ⟨fun k hk => hk, fun k hk _ => hk⟩
    · obtain ⟨hsub, hkeep⟩ := ih (running ++ [key])
      refine ⟨fun k hk => ?_, fun k hk hlive => hkeep k ?_ ?_⟩
      · have := hsub k hk
        simp only [List.mem_append, List.mem_cons, List.not_mem_nil, or_false] at this ⊢
        tauto
      · simp only [List.mem_append, List.mem_cons, List.not_mem_nil, or_false] at hk ⊢
        tauto
      · simp only [List.mem_append, List.mem_cons, List.not_mem_nil, or_false] at hlive ⊢
        tauto
    · obtain ⟨hsub, hkeep⟩ := ih running
      have hkey : key ∉ s.blobs.keys := fun h => hsome (AList.lookup_isSome.mpr h)
      refine ⟨fun k hk => ?_, fun k hk hlive => hkeep k ?_ hlive⟩
      · have := hsub k hk
        simp only [List.mem_append, List.mem_cons] at this ⊢
        tauto
      · simp only [List.mem_append, List.mem_cons] at hk ⊢
        rcases hk with (rfl | hk) | hk
        · exact .inr (hlive.resolve_left hkey)
        · exact .inl hk
        · exact .inr hk

/-! ### The whole request -/

section

variable [N : Vector.Numerics]

/-- An erasure runs to its reply with nothing else in flight. -/
inductive Erases : Shard → EraseResp ⊕ Erasing → Shard → EraseResp → Prop where
  | done {s : Shard} {resp : EraseResp} : Erases s (.inl resp) s resp
  | resume {s s' : Shard} {e : Erasing} {resp : EraseResp} (choice : Nat)
      (h : Erases (s.resumeErase choice e).1 (s.resumeErase choice e).2 s' resp) : Erases s (.inr e) s' resp

/-- An erasure goes on, with the deletions that end at each step. -/
def eraseWith (s : Shard) (r : EraseResp ⊕ Erasing) : List Nat → Shard × (EraseResp ⊕ Erasing)
  | [] => (s, r)
  | c :: cs =>
    match r with
    | .inl resp => (s, .inl resp)
    | .inr e => eraseWith (s.resumeErase c e).1 (s.resumeErase c e).2 cs

theorem erases_of_eraseWith {s : Shard} {r : EraseResp ⊕ Erasing} {cs : List Nat} {resp : EraseResp}
    (h : (eraseWith s r cs).2 = .inl resp) : Erases s r (eraseWith s r cs).1 resp := by
  induction cs generalizing s r with
  | nil =>
    obtain rfl : r = .inl resp := h
    exact .done
  | cons c cs ih =>
    cases r with
    | inl resp' =>
      obtain rfl := Sum.inl.inj h
      exact .done
    | inr e => exact .resume c (ih h)

end

end Shard

end Skeg.Server
