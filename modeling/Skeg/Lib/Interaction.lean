import Mathlib.Tactic.Common

/-!
# Programs that ask their surroundings

A `Program` performs operations and goes on with their answers.  `Program.Meets` is what a program does
whatever the answers: which operations it performs and which results it can have.  With a function for the
answers a program can be run (`Program.eval`).
-/

namespace Interaction

/-- The operations of a program, and the type of the answers to each. -/
structure Signature where
  Op : Type
  Ret : Op → Type

inductive Program (S : Signature) (α : Type) : Type where
  | ret (a : α)
  | op (o : S.Op) (k : S.Ret o → Program S α)

namespace Program

variable {S : Signature} {α β : Type}

def bind : Program S α → (α → Program S β) → Program S β
  | ret a, f => f a
  | op o k, f => op o fun r => (k r).bind f

instance : Monad (Program S) where
  pure := ret
  bind := bind

/-- One operation. -/
def perform (o : S.Op) : Program S (S.Ret o) := op o ret

@[simp] theorem pure_eq (a : α) : (pure a : Program S α) = ret a := rfl

@[simp] theorem ret_bind (a : α) (f : α → Program S β) : (ret a >>= f) = f a := rfl

@[simp] theorem op_bind (o : S.Op) (k : S.Ret o → Program S α) (f : α → Program S β) :
    (op o k >>= f) = op o fun r => k r >>= f := rfl

@[simp] theorem perform_bind (o : S.Op) (f : S.Ret o → Program S β) : (perform o >>= f) = op o f := rfl

/-! ### What a program does -/

/-- As long as the answers are expected ones, the operations are allowed and the result is as stated. -/
def Meets (allowed : S.Op → Prop) (expected : (o : S.Op) → S.Ret o → Prop) (post : α → Prop) :
    Program S α → Prop
  | ret a => post a
  | op o k => allowed o ∧ ∀ r, expected o r → (k r).Meets allowed expected post

section

variable {allowed : S.Op → Prop} {expected : (o : S.Op) → S.Ret o → Prop} {post : α → Prop}

theorem Meets.bind {p : Program S α} {f : α → Program S β} {post' : β → Prop}
    (h : p.Meets allowed expected post) (hf : ∀ a, post a → (f a).Meets allowed expected post') :
    (p >>= f).Meets allowed expected post' := by
  induction p with
  | ret a => exact hf a h
  | op o k ih => exact ⟨h.1, fun r hr => ih r (h.2 r hr)⟩

end

/-! ### Answers from a function -/

section

variable {σ : Type} {answer : σ → (o : S.Op) → Option (S.Ret o × σ)}

/-- A program runs with the answers a function gives; it stops where there is none. -/
def eval (answer : σ → (o : S.Op) → Option (S.Ret o × σ)) : Program S α → σ → Option (α × σ)
  | ret a, s => some (a, s)
  | op o k, s => (answer s o).bind fun r => (k r.1).eval answer r.2

theorem eval_bind (p : Program S α) (f : α → Program S β) (s : σ) :
    (p >>= f).eval answer s = (p.eval answer s).bind fun r => (f r.1).eval answer r.2 := by
  induction p generalizing s with
  | ret a => rfl
  | op o k ih =>
    rw [op_bind, eval, eval, Option.bind_assoc]
    exact congrArg (Option.bind _) (funext fun r => ih r.1 r.2)

end

end Program

end Interaction
