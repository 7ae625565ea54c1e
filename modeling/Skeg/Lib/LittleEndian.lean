import Mathlib.Data.UInt
import Mathlib.Tactic.Common

/-!
# Fixed-width little-endian integers

`toLE w n` are the `w` low bytes of `n`, least significant first; `fromLE` reads them back.  The
round trip is exact below `256 ^ w` (`fromLE_toLE`).

That an encoding `x` stands at `pos` in a buffer is written `b.drop pos = x ++ rest`.  Then a slice of its length is
the encoding (`Cursor.slice_eq`), an integer reads back (`Cursor.leAt_eq`), and `rest` stands behind it
(`Cursor.drop_add_length`).
-/

abbrev Bytes := List UInt8

/-- The `w` low bytes of `n`, least significant first. -/
def toLE : Nat → Nat → Bytes
  | 0, _ => []
  | w + 1, n => UInt8.ofNat n :: toLE w (n / 256)

def fromLE : Bytes → Nat
  | [] => 0
  | b :: bs => b.toNat + 256 * fromLE bs

@[simp] theorem length_toLE (w n : Nat) : (toLE w n).length = w := by
  induction w generalizing n with
  | zero => rfl
  | succ w ih => simp [toLE, ih]

theorem fromLE_toLE_mod (w n : Nat) : fromLE (toLE w n) = n % 256 ^ w := by
  induction w generalizing n with
  | zero => simp [toLE, fromLE, Nat.mod_one]
  | succ w ih =>
    have hpow : 256 ^ (w + 1) = 256 * 256 ^ w := Nat.pow_succ'
    rw [toLE, fromLE, ih, UInt8.toNat_ofNat', hpow, Nat.mod_mul]

theorem fromLE_toLE {w n : Nat} (h : n < 256 ^ w) : fromLE (toLE w n) = n := by
  rw [fromLE_toLE_mod, Nat.mod_eq_of_lt h]

/-- `n` zero bytes. -/
def zeros (n : Nat) : Bytes := List.replicate n 0

@[simp] theorem length_zeros (n : Nat) : (zeros n).length = n := List.length_replicate

theorem zeros_add (m n : Nat) : zeros (m + n) = zeros m ++ zeros n := by
  rw [zeros, List.replicate_add]; rfl

@[simp] theorem zeros_zero : zeros 0 = [] := rfl

@[simp] theorem take_zeros (m n : Nat) : (zeros n).take m = zeros (min m n) := by
  simp [zeros, List.take_replicate]

@[simp] theorem drop_zeros (m n : Nat) : (zeros n).drop m = zeros (n - m) := by
  simp [zeros, List.drop_replicate]

theorem fromLE_zeros (n : Nat) : fromLE (zeros n) = 0 := by
  induction n with
  | zero => rfl
  | succ n ih => simp [zeros, List.replicate_succ, fromLE] at *; exact ih

theorem fromLE_lt (bs : Bytes) : fromLE bs < 256 ^ bs.length := by
  induction bs with
  | nil => decide
  | cons b bs ih =>
    have hb := b.toNat_lt
    rw [fromLE, List.length_cons, Nat.pow_succ']
    omega

theorem fromLE_injective {bs cs : Bytes} (hlen : bs.length = cs.length) (h : fromLE bs = fromLE cs) :
    bs = cs := by
  induction bs generalizing cs with
  | nil => exact (List.length_eq_zero_iff.mp hlen.symm).symm
  | cons b bs ih =>
    obtain _ | ⟨c, cs⟩ := cs
    · cases hlen
    · have hb := b.toNat_lt
      have hc := c.toNat_lt
      rw [fromLE, fromLE] at h
      rw [UInt8.toNat_inj.mp (show b.toNat = c.toNat by omega),
        ih (Nat.succ.inj hlen) (by omega)]

theorem toLE_fromLE {w : Nat} {bs : Bytes} (h : bs.length = w) : toLE w (fromLE bs) = bs := by
  refine fromLE_injective (by rw [length_toLE, h]) ?_
  rw [fromLE_toLE]
  exact h ▸ fromLE_lt bs

/-! ### Sequences of integers -/

/-- Back-to-back integers of `w` bytes each. -/
def toLEs (w : Nat) (ns : List Nat) : Bytes := ns.flatMap (toLE w)

@[simp] theorem toLEs_nil (w : Nat) : toLEs w [] = [] := rfl

@[simp] theorem toLEs_cons (w n : Nat) (ns : List Nat) : toLEs w (n :: ns) = toLE w n ++ toLEs w ns :=
  rfl

theorem length_toLEs (w : Nat) (ns : List Nat) : (toLEs w ns).length = ns.length * w := by
  induction ns with
  | nil => simp
  | cons n ns ih =>
    rw [toLEs_cons, List.length_append, length_toLE, ih, List.length_cons, Nat.succ_mul, Nat.add_comm]

/-- The first `k` integers of `w` bytes, and the bytes behind them; `none` if there are not enough. -/
def readLEs (w : Nat) : Nat → Bytes → Option (List Nat × Bytes)
  | 0, bs => some ([], bs)
  | k + 1, bs =>
    if bs.length < w then none
    else (readLEs w k (bs.drop w)).map fun r => (fromLE (bs.take w) :: r.1, r.2)

theorem readLEs_toLEs {w : Nat} {ns : List Nat} (h : ∀ n ∈ ns, n < 256 ^ w) (rest : Bytes) :
    readLEs w ns.length (toLEs w ns ++ rest) = some (ns, rest) := by
  induction ns with
  | nil => rfl
  | cons n ns ih =>
    have hn : n < 256 ^ w := h n (by simp)
    rw [toLEs_cons, List.append_assoc, List.length_cons, readLEs, if_neg (by simp),
      List.drop_left' (length_toLE w n), ih fun m hm => h m (by simp [hm]),
      List.take_left' (length_toLE w n), fromLE_toLE hn]
    rfl

theorem length_of_readLEs {w k : Nat} {bs rest : Bytes} {ns : List Nat}
    (h : readLEs w k bs = some (ns, rest)) : ns.length = k := by
  induction k generalizing bs ns with
  | zero =>
    obtain ⟨rfl, rfl⟩ := Prod.mk.inj (Option.some.inj h)
    rfl
  | succ k ih =>
    rw [readLEs] at h
    split at h
    · cases h
    · obtain ⟨r, hr, heq⟩ := Option.map_eq_some_iff.mp h
      obtain ⟨rfl, rfl⟩ := Prod.mk.inj heq
      rw [List.length_cons, ih hr]

/-- Random access into back-to-back integers. -/
theorem fromLE_toLEs {w : Nat} {ns : List Nat} {i n : Nat} (hi : ns[i]? = some n) (hn : n < 256 ^ w)
    (rest : Bytes) : fromLE (((toLEs w ns ++ rest).drop (i * w)).take w) = n := by
  induction ns generalizing i with
  | nil => simp at hi
  | cons m ns ih =>
    cases i with
    | zero =>
      rw [List.getElem?_cons_zero, Option.some.injEq] at hi
      subst hi
      rw [Nat.zero_mul, List.drop_zero, toLEs_cons, List.append_assoc,
        List.take_left' (length_toLE w m), fromLE_toLE hn]
    | succ i =>
      rw [toLEs_cons, List.append_assoc, Nat.succ_mul, Nat.add_comm (i * w) w, ← List.drop_drop,
        List.drop_left' (length_toLE w m)]
      exact ih (by simpa using hi)

/-! ### Reading a buffer at a position -/

namespace Cursor

variable {b x rest : Bytes} {pos : Nat}

/-- The integer in the `w` bytes at a position. -/
def leAt (w : Nat) (b : Bytes) (pos : Nat) : Nat := fromLE ((b.drop pos).take w)

/-- `len` bytes from a position on. -/
def slice (b : Bytes) (pos len : Nat) : Bytes := (b.drop pos).take len

theorem drop_add_length (h : b.drop pos = x ++ rest) : b.drop (pos + x.length) = rest := by
  rw [← List.drop_drop, h, List.drop_left]

theorem slice_eq (h : b.drop pos = x ++ rest) : slice b pos x.length = x := by
  rw [slice, h, List.take_left]

theorem leAt_eq {w n : Nat} (hn : n < 256 ^ w) (h : b.drop pos = toLE w n ++ rest) : leAt w b pos = n := by
  rw [leAt, h, List.take_left' (length_toLE w n), fromLE_toLE hn]

theorem drop_toLE {w n : Nat} (h : b.drop pos = toLE w n ++ rest) : b.drop (pos + w) = rest := by
  have := drop_add_length h
  rwa [length_toLE] at this

end Cursor
