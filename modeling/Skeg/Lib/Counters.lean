import Mathlib.Algebra.BigOperators.Group.List.Lemmas
import Mathlib.Algebra.GroupWithZero.Nat
import Mathlib.Logic.Function.Basic
import Skeg.Lib.Transition

/-!
# Counters updated by compare-and-exchange

Several calls update shared counters, each by loops of a load, a proposal and a compare-and-exchange that may fail for
no reason; between the loops a call asks its surroundings.  A counter has a limit, zero for none, and saturates at
`top`.

Every call has an account of what it has been granted and what it has released.  `Task.Ends` is a rule for the account
with which a call returns; `run_ledger` says that the counters are the balance of all the accounts and keep their
limits, in every interleaving in which no more is released than granted.
-/

namespace Counters

variable {ι ω ρ : Type}

inductive Kind where
  | add | sub
  deriving DecidableEq, Repr

/-- What a call has left to do: update a counter and go on, or, with the value that is over the limit, go on
otherwise; or ask and go on with the answer. -/
inductive Task (ι ω ρ : Type) where
  | ret (r : ρ)
  | update (c : ι) (kind : Kind) (delta : Nat) (ok : Task ι ω ρ) (full : Nat → Task ι ω ρ)
  | ask (k : ω → Task ι ω ρ)

inductive Phase where
  | load
  /-- The value loaded, and the one proposed for it. -/
  | swap (cur next : Nat)
  deriving DecidableEq, Repr

/-- A call, and its account. -/
structure Call (ι ω ρ : Type) where
  task : Task ι ω ρ
  phase : Phase
  granted : ι → Nat
  released : ι → Nat

structure Setting (ι : Type) where
  limit : ι → Nat
  top : Nat

structure State (ι ω ρ : Type) where
  value : ι → Nat
  calls : List (Call ι ω ρ)

/-- How a call goes on: an exchange may fail, and an answer may be anything. -/
inductive Choice (ω : Type) where
  | go
  | fail
  | answer (o : ω)

inductive Action (ι ω ρ : Type) where
  | start (task : Task ι ω ρ)
  | step (i : Nat) (choice : Choice ω)

/-- The new value, or the one that would be over the limit. -/
def propose (S : Setting ι) (c : ι) (kind : Kind) (delta cur : Nat) : Except Nat Nat :=
  match kind with
  | .add =>
    if S.limit c ≠ 0 ∧ min (cur + delta) S.top > S.limit c then .error (min (cur + delta) S.top)
    else .ok (min (cur + delta) S.top)
  | .sub => .ok (cur - delta)

variable [DecidableEq ι]

/-- Account for an update. -/
def Call.record (call : Call ι ω ρ) (c : ι) (kind : Kind) (delta : Nat) : Call ι ω ρ :=
  match kind with
  | .add => { call with granted := Function.update call.granted c (call.granted c + delta) }
  | .sub => { call with released := Function.update call.released c (call.released c + delta) }

def Call.step (S : Setting ι) (value : ι → Nat) (call : Call ι ω ρ) (choice : Choice ω) :
    Option ((ι → Nat) × Call ι ω ρ) :=
  match call.task, call.phase, choice with
  | .update c kind delta _ full, .load, .go =>
    match propose S c kind delta (value c) with
    | .error would => some (value, { call with task := full would })
    | .ok next => some (value, { call with phase := .swap (value c) next })
  | .update c kind delta ok _, .swap cur next, .go =>
    if value c = cur then
      some (Function.update value c next, { call.record c kind delta with task := ok, phase := .load })
    else some (value, { call with phase := .load })
  | .update .., .swap .., .fail => some (value, { call with phase := .load })
  | .ask k, _, .answer o => some (value, { call with task := k o, phase := .load })
  | _, _, _ => none

def step (S : Setting ι) (s : State ι ω ρ) : Action ι ω ρ → Option (State ι ω ρ × List Unit)
  | .start task => some ({ s with calls := s.calls ++ [⟨task, .load, fun _ => 0, fun _ => 0⟩] }, [])
  | .step i choice =>
    match s.calls[i]? with
    | none => none
    | some call => (call.step S s.value choice).map fun r => (⟨r.1, s.calls.set i r.2⟩, [])

def State.granted (s : State ι ω ρ) (c : ι) : Nat := (s.calls.map fun call => call.granted c).sum

def State.released (s : State ι ω ρ) (c : ι) : Nat := (s.calls.map fun call => call.released c).sum

/-- After the action no more has been released than granted, and no more granted than a counter holds. -/
def Fair (S : Setting ι) (s : State ι ω ρ) (a : Action ι ω ρ) : Prop :=
  ∀ s' ev, step S s a = some (s', ev) → ∀ c, s'.released c ≤ s'.granted c ∧ s'.granted c ≤ S.top

/-- The counters before the first call. -/
def State.init : State ι ω ρ := ⟨fun _ => 0, []⟩

/-! ### What a step can do -/

/-- A proposal stands for the value it was made for. -/
def Call.Proposed (S : Setting ι) (call : Call ι ω ρ) : Prop :=
  ∀ c kind delta ok full cur next, call.task = .update c kind delta ok full → call.phase = .swap cur next →
    propose S c kind delta cur = .ok next

/-- What a call can do: exchange a counter and account for it, or go on with the counters as they are. -/
inductive Call.Moves (S : Setting ι) (value : ι → Nat) (call : Call ι ω ρ) : (ι → Nat) → Call ι ω ρ → Prop
  | exchange {c : ι} {kind : Kind} {delta next : Nat} {ok : Task ι ω ρ} {full : Nat → Task ι ω ρ}
      (htask : call.task = .update c kind delta ok full) (hphase : call.phase = .swap (value c) next) :
      Moves S value call (Function.update value c next)
        { call.record c kind delta with task := ok, phase := .load }
  | load {c : ι} {kind : Kind} {delta next : Nat} {ok : Task ι ω ρ} {full : Nat → Task ι ω ρ}
      (htask : call.task = .update c kind delta ok full) (hnext : propose S c kind delta (value c) = .ok next) :
      Moves S value call value { call with phase := .swap (value c) next }
  | again : Moves S value call value { call with phase := .load }
  | refuse {c : ι} {delta would : Nat} {ok : Task ι ω ρ} {full : Nat → Task ι ω ρ}
      (htask : call.task = .update c .add delta ok full) :
      Moves S value call value { call with task := full would, phase := .load }
  | answer {k : ω → Task ι ω ρ} {o : ω} (htask : call.task = .ask k) :
      Moves S value call value { call with task := k o, phase := .load }

theorem Call.moves_of_step {S : Setting ι} {value value' : ι → Nat} {call call' : Call ι ω ρ} {choice : Choice ω}
    (h : call.step S value choice = some (value', call')) : call.Moves S value value' call' := by
  unfold Call.step at h
  split at h
  · rename_i c kind delta ok full htask hphase
    split at h
    · rename_i would hwould
      cases h
      cases kind with
      | add =>
        rw [hphase]
        exact .refuse htask
      | sub => cases hwould
    · rename_i next hnext
      cases h
      exact .load htask hnext
  · rename_i c kind delta ok full cur next htask hphase
    split_ifs at h with hcur
    · cases h
      exact .exchange htask (by rw [hphase, hcur])
    · cases h
      exact .again
  · cases h
    exact .again
  · rename_i k o htask
    cases h
    exact .answer htask
  · cases h

theorem Call.Proposed.moves {S : Setting ι} {value value' : ι → Nat} {call call' : Call ι ω ρ}
    (h : call.Moves S value value' call') : call'.Proposed S := by
  intro c kind delta ok full cur next htask hphase
  cases h with
  | load htask' hnext =>
    cases hphase
    cases htask'.symm.trans htask
    exact hnext
  | exchange | again | refuse | answer => cases hphase

/-! ### The account of a call -/

/-- The call returns with an account as stated, whatever is refused or answered. -/
def Task.Ends (post : ρ → (ι → Nat) → (ι → Nat) → Prop) :
    Task ι ω ρ → (ι → Nat) → (ι → Nat) → Prop
  | .ret r, granted, released => post r granted released
  | .update c .add delta ok full, granted, released =>
    ok.Ends post (Function.update granted c (granted c + delta)) released ∧
      ∀ would, (full would).Ends post granted released
  | .update c .sub delta ok _, granted, released =>
    ok.Ends post granted (Function.update released c (released c + delta))
  | .ask k, granted, released => ∀ o, (k o).Ends post granted released

theorem Task.Ends.moves {post : ρ → (ι → Nat) → (ι → Nat) → Prop} {S : Setting ι} {value value' : ι → Nat}
    {call call' : Call ι ω ρ} (h : call.task.Ends post call.granted call.released)
    (hmove : call.Moves S value value' call') : call'.task.Ends post call'.granted call'.released := by
  cases hmove with
  | @exchange c kind delta next ok full htask hphase =>
    rw [htask] at h
    cases kind with
    | add => exact h.1
    | sub => exact h
  | load | again => exact h
  | refuse htask =>
    rw [htask] at h
    exact h.2 _
  | answer htask =>
    rw [htask] at h
    exact h _

/-! ### The balance of all accounts -/

omit [DecidableEq ι] in
/-- One call with another account. -/
theorem sum_set {calls : List (Call ι ω ρ)} {i : Nat} {call : Call ι ω ρ} (hcall : calls[i]? = some call)
    (call' : Call ι ω ρ) (f : Call ι ω ρ → Nat) :
    ((calls.set i call').map f).sum + f call = (calls.map f).sum + f call' := by
  induction calls generalizing i with
  | nil => cases hcall
  | cons head calls ih =>
    cases i with
    | zero =>
      cases hcall
      simp only [List.set_cons_zero, List.map_cons, List.sum_cons]
      omega
    | succ i =>
      have htail := ih (i := i) hcall
      simp only [List.set_cons_succ, List.map_cons, List.sum_cons]
      omega

/-- The counters are what has been granted less what has been released, and within their limits. -/
structure Ledger (S : Setting ι) (s : State ι ω ρ) : Prop where
  balance : ∀ c, s.value c + s.released c = s.granted c
  within : ∀ c, S.limit c ≠ 0 → s.value c ≤ S.limit c
  proposed : ∀ call ∈ s.calls, call.Proposed S

omit [DecidableEq ι] in
theorem propose_add {S : Setting ι} {c : ι} {delta cur next : Nat} (h : propose S c .add delta cur = .ok next) :
    next = min (cur + delta) S.top ∧ (S.limit c ≠ 0 → next ≤ S.limit c) := by
  rw [propose] at h
  split_ifs at h with hover
  cases h
  exact ⟨rfl, fun hlimit => Nat.le_of_not_lt fun hlt => hover ⟨hlimit, hlt⟩⟩

omit [DecidableEq ι] in
theorem Ledger.init (S : Setting ι) : Ledger S (State.init : State ι ω ρ) :=
  ⟨fun _ => rfl, fun _ _ => Nat.zero_le _, fun _ h => absurd h List.not_mem_nil⟩

omit [DecidableEq ι] in
/-- A new call has an empty account. -/
theorem Ledger.start {S : Setting ι} {s : State ι ω ρ} (h : Ledger S s) (task : Task ι ω ρ) :
    Ledger S { s with calls := s.calls ++ [⟨task, .load, fun _ => 0, fun _ => 0⟩] } where
  balance c := by
    have hbalance := h.balance c
    simpa [State.granted, State.released] using hbalance
  within := h.within
  proposed call hcall := by
    rcases List.mem_append.mp hcall with hcall | hcall
    · exact h.proposed call hcall
    · rw [List.mem_singleton.mp hcall]
      intro c kind delta ok full cur next _ hphase
      cases hphase

omit [DecidableEq ι] in
/-- The totals with another account for one call. -/
theorem totals_set {s : State ι ω ρ} {i : Nat} {call : Call ι ω ρ} (hcall : s.calls[i]? = some call)
    (value' : ι → Nat) (call' : Call ι ω ρ) (c : ι) :
    (⟨value', s.calls.set i call'⟩ : State ι ω ρ).granted c + call.granted c = s.granted c + call'.granted c ∧
      (⟨value', s.calls.set i call'⟩ : State ι ω ρ).released c + call.released c =
        s.released c + call'.released c :=
  ⟨sum_set hcall call' fun call => call.granted c, sum_set hcall call' fun call => call.released c⟩

/-- A call moves, and no more has been released than granted. -/
theorem Ledger.moves {S : Setting ι} {s : State ι ω ρ} (h : Ledger S s) {i : Nat} {call call' : Call ι ω ρ}
    {value' : ι → Nat} (hcall : s.calls[i]? = some call) (hmove : call.Moves S s.value value' call')
    (hfair : ∀ c, (⟨value', s.calls.set i call'⟩ : State ι ω ρ).released c ≤
        (⟨value', s.calls.set i call'⟩ : State ι ω ρ).granted c ∧
      (⟨value', s.calls.set i call'⟩ : State ι ω ρ).granted c ≤ S.top) :
    Ledger S ⟨value', s.calls.set i call'⟩ := by
  have hbalanced : ∀ c, value' c + (⟨value', s.calls.set i call'⟩ : State ι ω ρ).released c =
      (⟨value', s.calls.set i call'⟩ : State ι ω ρ).granted c ∧ (S.limit c ≠ 0 → value' c ≤ S.limit c) := by
    intro c
    have hbalance := h.balance c
    have hwithin := h.within c
    obtain ⟨hgranted, hreleased⟩ := totals_set hcall value' call' c
    obtain ⟨hless, htop⟩ := hfair c
    cases hmove with
    | @exchange c' kind delta next ok full htask hphase =>
      have hnext := h.proposed call (List.mem_of_getElem? hcall) c' kind delta ok full _ _ htask hphase
      by_cases hc : c = c'
      · subst hc
        cases kind with
        | add =>
          -- the sum is below the top, so it has not saturated
          obtain ⟨hsum, hlimit⟩ := propose_add hnext
          simp only [Call.record, Function.update_self] at hgranted hreleased hless htop ⊢
          exact ⟨by omega, hlimit⟩
        | sub =>
          cases hnext
          simp only [Call.record, Function.update_self] at hgranted hreleased hless htop ⊢
          exact ⟨by omega, fun hlimit => by have hle := hwithin hlimit; omega⟩
      · cases kind with
        | add =>
          simp only [Call.record, Function.update_of_ne hc] at hgranted hreleased hless htop ⊢
          exact ⟨by omega, hwithin⟩
        | sub =>
          simp only [Call.record, Function.update_of_ne hc] at hgranted hreleased hless htop ⊢
          exact ⟨by omega, hwithin⟩
    | load | again | refuse | answer =>
      simp only at hgranted hreleased
      exact ⟨by omega, hwithin⟩
  refine ⟨fun c => (hbalanced c).1, fun c => (hbalanced c).2, fun x hx => ?_⟩
  rcases List.mem_or_eq_of_mem_set hx with hx | rfl
  · exact h.proposed x hx
  · exact Call.Proposed.moves hmove

theorem Ledger.step {S : Setting ι} {s s' : State ι ω ρ} {a : Action ι ω ρ} {ev : List Unit} (h : Ledger S s)
    (hfair : Fair S s a) (hstep : step S s a = some (s', ev)) : Ledger S s' := by
  have htotals := hfair s' ev hstep
  cases a with
  | start task =>
    cases hstep
    exact h.start task
  | step i choice =>
    rw [Counters.step] at hstep
    split at hstep
    · cases hstep
    · rename_i call hcall
      obtain ⟨⟨value', call'⟩, hmove, heq⟩ := Option.map_eq_some_iff.mp hstep
      cases heq
      exact h.moves hcall (Call.moves_of_step hmove) htotals

/-- In every interleaving in which no more is released than granted, the counters are the balance of the accounts and
keep their limits; and every call returns with an account as stated for it. -/
theorem run_ledger {S : Setting ι} {P : List Unit → State ι ω ρ → Action ι ω ρ → Prop} {h : List Unit}
    {s : State ι ω ρ} {post : ρ → (ι → Nat) → (ι → Nat) → Prop}
    (hstart : ∀ h s task, P h s (.start task) → task.Ends post (fun _ => 0) fun _ => 0)
    (hfair : ∀ h s a, P h s a → Fair S s a) (hrun : Transition.Run (step S) P [] State.init h s) :
    Ledger S s ∧ ∀ call ∈ s.calls, call.task.Ends post call.granted call.released := by
  refine hrun.invariant (fun _ s => Ledger S s ∧ ∀ call ∈ s.calls, call.task.Ends post call.granted call.released)
    ⟨Ledger.init S, fun _ h => absurd h List.not_mem_nil⟩ ?_
  intro h s a s' ev ⟨hledger, hends⟩ hP hstep
  refine ⟨hledger.step (hfair h s a hP) hstep, ?_⟩
  cases a with
  | start task =>
    cases hstep
    intro call hcall
    rcases List.mem_append.mp hcall with hcall | hcall
    · exact hends call hcall
    · rw [List.mem_singleton.mp hcall]
      exact hstart h s task hP
  | step i choice =>
    rw [Counters.step] at hstep
    split at hstep
    · cases hstep
    · rename_i call hcall
      obtain ⟨⟨value', call'⟩, hmove, heq⟩ := Option.map_eq_some_iff.mp hstep
      cases heq
      intro x hx
      rcases List.mem_or_eq_of_mem_set hx with hx | rfl
      · exact hends x hx
      · exact (hends call (List.mem_of_getElem? hcall)).moves (Call.moves_of_step hmove)

end Counters
