import Skeg.Lib.LittleEndian
import Mathlib.Logic.Function.Basic

/-!
# Files behind directory entries

A directory entry names an inode, and an inode holds bytes: a file that is open stays readable when its
entry is renamed or removed, and a file that is written in place changes under everyone who has it
open.  `Files κ π` are the files of a directory tree with paths `π`; every file has a kind in `κ`, and
inodes are numbered kind by kind.

A program's effect on the files is a list of `FileOp`s.  `crashAt` is what is left when the program is
stopped between two operations or in the middle of a write.
-/

/-- The files of one kind. -/
structure Table (π : Type*) where
  entry : π → Option Nat
  data : Nat → Bytes
  next : Nat

namespace Table

variable {π : Type*} [DecidableEq π]

/-- Whole-file read. -/
def read (t : Table π) (p : π) : Option Bytes := (t.entry p).map t.data

/-- Open for writing: an existing file is truncated in place. -/
def create (t : Table π) (p : π) : Table π :=
  match t.entry p with
  | some i => { t with data := Function.update t.data i [] }
  | none => ⟨Function.update t.entry p (some t.next), Function.update t.data t.next [], t.next + 1⟩

/-- Write behind the end of an open file. -/
def append (t : Table π) (i : Nat) (b : Bytes) : Table π :=
  { t with data := Function.update t.data i (t.data i ++ b) }

def write (t : Table π) (p : π) (b : Bytes) : Table π :=
  match t.entry p with
  | some i => t.append i b
  | none => t

def rename (t : Table π) (p q : π) : Table π :=
  { t with entry := Function.update (Function.update t.entry q (t.entry p)) p none }

def remove (t : Table π) (p : π) : Table π := { t with entry := Function.update t.entry p none }

/-- Open for appending; a missing file is created. -/
def openAppend (t : Table π) (p : π) : Table π × Nat :=
  match t.entry p with
  | some i => (t, i)
  | none => (t.create p, t.next)

/-! ### Whole files -/

/-- The inode that opening `p` for writing ends up with. -/
def target (t : Table π) (p : π) : Nat := (t.entry p).getD t.next

/-- Every entry names an inode that is in use. -/
def Bounded (t : Table π) : Prop := ∀ p i, t.entry p = some i → i < t.next

/-- Create a file and write it. -/
def put (t : Table π) (p : π) (b : Bytes) : Table π := (t.create p).write p b

theorem create_of_some {t : Table π} {p : π} {i : Nat} (h : t.entry p = some i) :
    t.create p = { t with data := Function.update t.data i [] } := by
  rw [create, h]

theorem create_of_none {t : Table π} {p : π} (h : t.entry p = none) : t.create p =
    ⟨Function.update t.entry p (some t.next), Function.update t.data t.next [], t.next + 1⟩ := by
  rw [create, h]

theorem entry_create (t : Table π) (p : π) :
    (t.create p).entry = Function.update t.entry p (some (t.target p)) := by
  cases h : t.entry p with
  | none => simp [create_of_none h, target, h]
  | some i =>
    rw [create_of_some h, target, h, Option.getD_some, ← h, Function.update_eq_self]

theorem data_create (t : Table π) (p : π) :
    (t.create p).data = Function.update t.data (t.target p) [] := by
  cases h : t.entry p with
  | none => simp [create_of_none h, target, h]
  | some i => simp [create_of_some h, target, h]

theorem next_create (t : Table π) (p : π) :
    (t.create p).next = if t.entry p = none then t.next + 1 else t.next := by
  cases h : t.entry p with
  | none => simp [create_of_none h]
  | some i => simp [create_of_some h]

omit [DecidableEq π] in
theorem write_of_entry {t : Table π} {p : π} {i : Nat} (h : t.entry p = some i) (b : Bytes) :
    t.write p b = t.append i b := by
  rw [write, h]

theorem put_eq (t : Table π) (p : π) (b : Bytes) : t.put p b =
    ⟨Function.update t.entry p (some (t.target p)), Function.update t.data (t.target p) b,
      if t.entry p = none then t.next + 1 else t.next⟩ := by
  have hentry : (t.create p).entry p = some (t.target p) := by rw [entry_create, Function.update_self]
  rw [put, write_of_entry hentry, append, entry_create, data_create, next_create]
  simp

theorem read_put (t : Table π) (p : π) (b : Bytes) : (t.put p b).read p = some b := by
  simp [read, put_eq]

theorem next_le_put (t : Table π) (p : π) (b : Bytes) : t.next ≤ (t.put p b).next := by
  rw [put_eq]
  dsimp only
  split <;> omega

/-- A new file leaves the old ones alone. -/
theorem data_put_of_lt {t : Table π} {p : π} (h : t.entry p = none) (b : Bytes) {i : Nat}
    (hi : i < t.next) : (t.put p b).data i = t.data i := by
  have hne : i ≠ t.target p := by
    rw [target, h]
    exact Nat.ne_of_lt hi
  rw [put_eq]
  exact Function.update_of_ne hne ..

theorem entry_put_of_ne (t : Table π) {p q : π} (b : Bytes) (h : q ≠ p) :
    (t.put p b).entry q = t.entry q := by
  rw [put_eq]
  exact Function.update_of_ne h ..

theorem Bounded.target_lt_put {t : Table π} (h : t.Bounded) (p : π) (b : Bytes) :
    t.target p < (t.put p b).next := by
  rw [put_eq, target]
  cases hp : t.entry p with
  | none => simp
  | some i => simpa using h p i hp

theorem Bounded.put {t : Table π} (h : t.Bounded) (p : π) (b : Bytes) : (t.put p b).Bounded := by
  intro q i hq
  by_cases hqp : q = p
  · subst hqp
    rw [put_eq] at hq
    simp only [Function.update_self, Option.some.injEq] at hq
    exact hq ▸ h.target_lt_put q b
  · rw [entry_put_of_ne t b hqp] at hq
    exact Nat.lt_of_lt_of_le (h q i hq) (next_le_put ..)

theorem Bounded.remove {t : Table π} (h : t.Bounded) (p : π) : (t.remove p).Bounded := by
  intro q i hq
  by_cases hqp : q = p
  · simp [Table.remove, hqp] at hq
  · exact h q i (by simpa [Table.remove, hqp] using hq)

theorem Bounded.rename {t : Table π} (h : t.Bounded) (p q : π) : (t.rename p q).Bounded := by
  intro r i hr
  by_cases hrp : r = p
  · simp [Table.rename, hrp] at hr
  · by_cases hrq : r = q
    · subst hrq
      exact h p i (by simpa [Table.rename, hrp] using hr)
    · exact h r i (by simpa [Table.rename, hrp, hrq] using hr)

theorem Bounded.create {t : Table π} (h : t.Bounded) (p : π) : (t.create p).Bounded := by
  intro q i hq
  rw [entry_create] at hq
  rw [next_create]
  by_cases hqp : q = p
  · subst hqp
    rw [Function.update_self, Option.some.injEq, target] at hq
    cases hp : t.entry q with
    | none => simp [← hq, hp]
    | some j =>
      have := h q j hp
      simpa [← hq, hp] using this
  · rw [Function.update_of_ne hqp] at hq
    have := h q i hq
    split <;> omega

omit [DecidableEq π] in
theorem Bounded.write {t : Table π} (h : t.Bounded) (p : π) (b : Bytes) : (t.write p b).Bounded := by
  rw [Table.write]
  split
  · exact h
  · exact h

theorem openAppend_of_some {t : Table π} {p : π} {i : Nat} (h : t.entry p = some i) :
    t.openAppend p = (t, i) := by
  rw [openAppend, h]

theorem openAppend_of_none {t : Table π} {p : π} (h : t.entry p = none) :
    t.openAppend p = (t.put p [], t.next) := by
  rw [openAppend, h, put_eq, create_of_none h, target, h]
  rfl

end Table

/-- The files of a directory tree. -/
abbrev Files (κ π : Type*) := κ → Table π

inductive FileOp (κ π : Type*) where
  | create (k : κ) (p : π)
  | write (k : κ) (p : π) (b : Bytes)
  | rename (k : κ) (p q : π)
  | remove (k : κ) (p : π)

namespace Files

variable {κ π : Type*} [DecidableEq κ]

def modify (f : Files κ π) (k : κ) (g : Table π → Table π) : Files κ π := Function.update f k (g (f k))

@[simp] theorem modify_self (f : Files κ π) (k : κ) (g : Table π → Table π) :
    f.modify k g k = g (f k) := Function.update_self ..

@[simp] theorem modify_of_ne (f : Files κ π) {k k' : κ} (g : Table π → Table π) (h : k' ≠ k) :
    f.modify k g k' = f k' := Function.update_of_ne h ..

variable [DecidableEq π]

def apply (f : Files κ π) : FileOp κ π → Files κ π
  | .create k p => f.modify k (·.create p)
  | .write k p b => f.modify k (·.write p b)
  | .rename k p q => f.modify k (·.rename p q)
  | .remove k p => f.modify k (·.remove p)

def run (f : Files κ π) (ops : List (FileOp κ π)) : Files κ π := ops.foldl apply f

@[simp] theorem run_nil (f : Files κ π) : f.run [] = f := rfl

@[simp] theorem run_cons (f : Files κ π) (op : FileOp κ π) (ops : List (FileOp κ π)) :
    f.run (op :: ops) = (f.apply op).run ops := rfl

theorem run_append (f : Files κ π) (ops ops' : List (FileOp κ π)) :
    f.run (ops ++ ops') = (f.run ops).run ops' := List.foldl_append

/-! ### Crashes -/

/-- What a crash of the program `ops` leaves when its first `n` operations are done and the next one, if it
is a write, has got `c` bytes into the file. -/
def crashAt (ops : List (FileOp κ π)) (n c : Nat) (f : Files κ π) : Files κ π :=
  match ops[n]? with
  | some (.write k p b) => (f.run (ops.take n)).apply (.write k p (b.take c))
  | _ => f.run (ops.take n)

/-- Operations behind the point of the crash do not matter. -/
theorem crashAt_append_of_lt {ops : List (FileOp κ π)} {n : Nat} (h : n < ops.length)
    (ops' : List (FileOp κ π)) (c : Nat) (f : Files κ π) :
    crashAt (ops ++ ops') n c f = crashAt ops n c f := by
  rw [crashAt, crashAt, List.getElem?_append_left h, List.take_append_of_le_length (Nat.le_of_lt h)]

theorem crashAt_append_of_le {ops : List (FileOp κ π)} {n : Nat} (h : ops.length ≤ n)
    (ops' : List (FileOp κ π)) (c : Nat) (f : Files κ π) :
    crashAt (ops ++ ops') n c f = crashAt ops' (n - ops.length) c (f.run ops) := by
  have htake : (ops ++ ops').take n = ops ++ ops'.take (n - ops.length) := by
    rw [List.take_append, List.take_of_length_le h]
  rw [crashAt, crashAt, List.getElem?_append_right h, htake, run_append]

theorem crashAt_of_length_le {ops : List (FileOp κ π)} {n : Nat} (h : ops.length ≤ n) (c : Nat)
    (f : Files κ π) : crashAt ops n c f = f.run ops := by
  rw [crashAt, List.getElem?_eq_none h, List.take_of_length_le h]

/-- What holds of the files throughout a program holds after a crash. -/
theorem crashAt_induction {P : Files κ π → Prop} {ops : List (FileOp κ π)} {f : Files κ π} (h₀ : P f)
    (hop : ∀ op ∈ ops, ∀ f, P f → P (f.apply op))
    (hcut : ∀ k p b, .write k p b ∈ ops → ∀ c f, P f → P (f.apply (.write k p (b.take c)))) (n c : Nat) :
    P (crashAt ops n c f) := by
  have hrun : P (f.run (ops.take n)) := by
    have hmem : ∀ op ∈ ops.take n, op ∈ ops := fun op => List.mem_of_mem_take
    generalize ops.take n = ops' at hmem
    clear hcut
    induction ops' generalizing f with
    | nil => exact h₀
    | cons op ops' ih =>
      exact ih (hop op (hmem op (by simp)) f h₀) fun op' hop' => hmem op' (by simp [hop'])
  rw [crashAt]
  split
  · rename_i k p b hb
    exact hcut k p b (List.mem_of_getElem? hb) c _ hrun
  · exact hrun

end Files

/-- The operation leaves the file of kind `k` at `p` alone. -/
def FileOp.Spares {κ π : Type*} (k : κ) (p : π) : FileOp κ π → Prop
  | .create k' _ => k' ≠ k
  | .write k' _ _ => k' ≠ k
  | .rename k' _ _ => k' ≠ k
  | .remove k' q => k' = k → q ≠ p

namespace Files

variable {κ π : Type*} [DecidableEq κ] [DecidableEq π] {f : Files κ π}

theorem read_apply_of_spares {op : FileOp κ π} {k : κ} {p : π} (h : op.Spares k p) :
    (f.apply op k).read p = (f k).read p := by
  cases op with
  | create k' q => rw [apply, modify_of_ne _ _ (Ne.symm h)]
  | write k' q b => rw [apply, modify_of_ne _ _ (Ne.symm h)]
  | rename k' q r => rw [apply, modify_of_ne _ _ (Ne.symm h)]
  | remove k' q =>
    by_cases hk : k' = k
    · subst hk
      simp [apply, Table.read, Table.remove, Ne.symm (h rfl)]
    · rw [apply, modify_of_ne _ _ (Ne.symm hk)]

theorem read_crashAt_of_spares {ops : List (FileOp κ π)} {k : κ} {p : π}
    (h : ∀ op ∈ ops, op.Spares k p) (n c : Nat) : (crashAt ops n c f k).read p = (f k).read p := by
  refine crashAt_induction (P := fun g => (g k).read p = (f k).read p) rfl ?_ ?_ n c
  · intro op hop g hg
    rw [read_apply_of_spares (h op hop), hg]
  · intro k' q b hb c g hg
    have hspares : (FileOp.write k' q (b.take c)).Spares k p := (h _ hb : k' ≠ k)
    rw [read_apply_of_spares hspares, hg]

/-- What every operation keeps of a table, a program keeps of all tables. -/
structure KeptByOps (P : Table π → Prop) : Prop where
  create : ∀ {t}, P t → ∀ p, P (t.create p)
  write : ∀ {t}, P t → ∀ p b, P (t.write p b)
  rename : ∀ {t}, P t → ∀ p q, P (t.rename p q)
  remove : ∀ {t}, P t → ∀ p, P (t.remove p)

theorem KeptByOps.apply {P : Table π → Prop} (hP : KeptByOps P) (h : ∀ k, P (f k)) (op : FileOp κ π)
    (k : κ) : P (f.apply op k) := by
  have hmodify : ∀ (k' : κ) (g : Table π → Table π), P (g (f k')) → P (f.modify k' g k) := by
    intro k' g hg
    by_cases hk : k = k'
    · subst hk
      rwa [modify_self]
    · rw [modify_of_ne _ _ hk]
      exact h k
  cases op with
  | create k' p => exact hmodify k' (·.create p) (hP.create (h k') p)
  | write k' p b => exact hmodify k' (·.write p b) (hP.write (h k') p b)
  | rename k' p q => exact hmodify k' (·.rename p q) (hP.rename (h k') p q)
  | remove k' p => exact hmodify k' (·.remove p) (hP.remove (h k') p)

theorem KeptByOps.run {P : Table π → Prop} (hP : KeptByOps P) (h : ∀ k, P (f k))
    (ops : List (FileOp κ π)) : ∀ k, P (f.run ops k) := by
  induction ops generalizing f with
  | nil => exact h
  | cons op ops ih => exact ih (hP.apply h op)

theorem keptByOps_bounded : KeptByOps (Table.Bounded (π := π)) :=
  ⟨Table.Bounded.create, Table.Bounded.write, Table.Bounded.rename, Table.Bounded.remove⟩

theorem bounded_run (h : ∀ k, (f k).Bounded) (ops : List (FileOp κ π)) : ∀ k, (f.run ops k).Bounded :=
  keptByOps_bounded.run h ops

theorem bounded_crashAt (h : ∀ k, (f k).Bounded) (ops : List (FileOp κ π)) (n c : Nat) :
    ∀ k, (crashAt ops n c f k).Bounded :=
  crashAt_induction (P := fun g : Files κ π => ∀ k, (g k).Bounded) h
    (fun op _ _ hg => keptByOps_bounded.apply hg op)
    (fun _ _ _ _ _ _ hg => keptByOps_bounded.apply hg _) n c

end Files
