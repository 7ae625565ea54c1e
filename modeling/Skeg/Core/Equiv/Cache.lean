import Skeg.Core.Cache

/-!
# What the cache remembers

`peek` is the value the cache has for a key.  Evicting forgets values and invents none, a get changes
no value, an insert leaves the value inserted (`peek_insertFor`) and a remove nothing
(`peek_remove`).
-/

namespace Skeg

namespace S3Fifo

variable {V : Type} {c c' : S3Fifo V}

def peek (c : S3Fifo V) (key : Bytes) : Option V := (c.map.lookup key).map CacheEntry.value

/-- `c'` remembers nothing that `c` does not. -/
def Forgets (c c' : S3Fifo V) : Prop := ∀ k, c'.peek k = c.peek k ∨ c'.peek k = none

theorem Forgets.of_map (h : c'.map = c.map) : Forgets c c' := fun k => .inl (by rw [peek, h, peek])

theorem Forgets.trans {c₁ c₂ c₃ : S3Fifo V} (h : Forgets c₁ c₂) (h' : Forgets c₂ c₃) :
    Forgets c₁ c₃ := by
  intro k
  rcases h' k with h2 | h2
  · rw [h2]
    exact h k
  · exact .inr h2

/-- Updating an entry but its value changes no value. -/
theorem peek_of_touch {key : Bytes} {e e' : CacheEntry V} (he : c.map.lookup key = some e)
    (hmap : c'.map = c.map.insert key e') (hv : e'.value = e.value) (k : Bytes) : c'.peek k = c.peek k := by
  unfold peek
  rw [hmap]
  by_cases hk : k = key
  · subst hk
    simp [he, hv]
  · simp [hk]

theorem Forgets.erase (key : Bytes) (hmap : c'.map = c.map.erase key) : Forgets c c' := by
  intro k
  unfold peek
  rw [hmap]
  by_cases hk : k = key
  · subst hk
    simp
  · simp [hk]

@[simp] theorem map_subTenantBytes (tenant n : Nat) : (c.subTenantBytes tenant n).map = c.map := by
  unfold subTenantBytes
  split
  · rfl
  · split
    · rfl
    · split <;> rfl

@[simp] theorem map_addTenantBytes (tenant n : Nat) : (c.addTenantBytes tenant n).map = c.map := by
  unfold addTenantBytes
  split <;> rfl

theorem peek_get (key k : Bytes) : (c.get key).2.peek k = c.peek k := by
  unfold get
  split
  · rename_i e he
    exact peek_of_touch he rfl (by rfl) k
  · rfl

theorem get_fst (key : Bytes) : (c.get key).1 = c.peek key := by
  unfold get peek
  split <;> simp_all

theorem peek_remove (key k : Bytes) : (c.remove key).peek k = if k = key then none else c.peek k := by
  unfold remove
  split
  · rename_i hnone
    split
    · rename_i hk
      rw [hk, peek, hnone]
      rfl
    · rfl
  · simp only [peek, map_subTenantBytes]
    split
    · rename_i hk
      subst hk
      simp
    · rename_i hk
      simp [hk]

section

variable [H : Hashes]

theorem drainSmall_forgets (small : List Bytes) (c : S3Fifo V) : Forgets c (drainSmall small c).2 := by
  induction small generalizing c with
  | nil => exact .of_map rfl
  | cons key small ih =>
    unfold drainSmall
    split
    · exact ih c
    · rename_i e he
      split
      · refine Forgets.trans (fun k => .inl ?_) (ih _)
        exact peek_of_touch he rfl (by rfl) k
      · exact Forgets.erase key (by simp [ghostPush])

omit H in
theorem drainMain_forgets (target : Nat) (overExists : Bool) (fuel skips : Nat) (c : S3Fifo V) :
    Forgets c (drainMain target overExists fuel skips c) := by
  induction fuel generalizing skips c with
  | zero => exact .of_map rfl
  | succ fuel ih =>
    unfold drainMain
    split
    · exact .of_map rfl
    · rename_i key main _
      split
      · exact (Forgets.of_map rfl).trans (ih _ _)
      · rename_i e he
        split
        · refine Forgets.trans (fun k => .inl ?_) (ih _ _)
          exact peek_of_touch he rfl (by rfl) k
        · split
          · exact (Forgets.of_map rfl).trans (ih _ _)
          · exact Forgets.erase key (by simp)

omit H in
theorem evictFromMain_forgets (c : S3Fifo V) : Forgets c c.evictFromMain := by
  unfold evictFromMain
  split <;> exact drainMain_forgets _ _ _ _ c

theorem evictOne_forgets (c : S3Fifo V) : Forgets c c.evictOne := by
  unfold evictOne
  split
  · dsimp only
    split
    · exact drainSmall_forgets _ c
    · exact (drainSmall_forgets _ c).trans (evictFromMain_forgets _)
  · exact evictFromMain_forgets c

theorem evictLoop_forgets {fuel entrySize : Nat} (h : evictLoop fuel entrySize c = some c') :
    Forgets c c' := by
  induction fuel generalizing c with
  | zero =>
    unfold evictLoop at h
    split at h
    · cases h
    · cases h
      exact .of_map rfl
  | succ fuel ih =>
    unfold evictLoop at h
    split at h
    · exact (evictOne_forgets c).trans (ih h)
    · cases h
      exact .of_map rfl

/-- After an insert the cache has the value inserted, and of the other keys no new one. -/
theorem peek_insertFor {key : Bytes} {value : V} {n tenant : Nat}
    (h : c.insertFor key value n tenant = some c') :
    c'.peek key = some value ∧ ∀ k, k ≠ key → c'.peek k = c.peek k ∨ c'.peek k = none := by
  unfold insertFor at h
  dsimp only at h
  split at h
  · cases h
    simp only [peek, map_addTenantBytes, map_subTenantBytes]
    exact ⟨by simp, fun k hk => .inl (by simp [hk])⟩
  · split at h
    · cases h
    · rename_i c₁ hloop
      cases h
      simp only [peek, map_addTenantBytes]
      refine ⟨by simp, fun k hk => ?_⟩
      rw [AList.lookup_insert_ne hk]
      exact evictLoop_forgets hloop k

theorem update_of_peek_insertFor {key : Bytes} {value : V} {n tenant : Nat}
    (h : c.insertFor key value n tenant = some c') {k : Bytes} {v : V} (hk : c'.peek k = some v) :
    Function.update c.peek key (some value) k = some v := by
  obtain ⟨hself, hother⟩ := peek_insertFor h
  by_cases hkk : k = key
  · subst hkk
    rw [Function.update_self, ← hself, hk]
  · rw [Function.update_of_ne hkk]
    rcases hother k hkk with h | h
    · rw [← h, hk]
    · rw [hk] at h
      cases h

/-- Whether an insert returns depends on the size of the value only. -/
theorem isSome_insertFor (c : S3Fifo V) (key : Bytes) (value value' : V) (n tenant : Nat) :
    (c.insertFor key value n tenant).isSome = (c.insertFor key value' n tenant).isSome := by
  unfold insertFor
  cases c.map.lookup key with
  | some e => rfl
  | none =>
    dsimp only
    cases evictLoop c.map.entries.length (key.length + n + entryOverhead) c <;> rfl

/-- An insert into an empty cache returns. -/
theorem insertFor_isSome_of_empty (h : c.map = ∅) (key : Bytes) (value : V) (n tenant : Nat) :
    (c.insertFor key value n tenant).isSome := by
  have hl : c.map.lookup key = none := by rw [h]; rfl
  have he : c.map.entries = [] := by rw [h]; rfl
  unfold insertFor
  simp only [hl]
  unfold evictLoop
  simp [he]

end

end S3Fifo

end Skeg
