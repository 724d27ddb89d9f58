import Mathlib.Logic.Function.Basic

/- A buffer kept as fixed-size cells of a store.

   `writeChunks c buf d base n` copies the first `n` chunks of `buf`, `c` items
   each, to the cells `base … base + n - 1` of `d`, one cell at a time and in
   order; `readChunks` reads them back. The three facts the users need: what a
   written cell holds, that other cells do not move, and the round trip. -/
namespace Lib

open Function

variable {α : Type*}

def chunk (c : Nat) (buf : Nat → α) (i : Nat) : Nat → α := fun o => buf (i * c + o)

/-- Cells `base, …, base + n - 1` take the first `n` chunks of `buf`. -/
def writeChunks (c : Nat) (buf : Nat → α) (d : Nat → Nat → α) (base : Nat) : Nat → Nat → Nat → α
  | 0 => d
  | n + 1 => update (writeChunks c buf d base n) (base + n) (chunk c buf n)

/-- The buffer held by the cells from `base` on. -/
def readChunks (c : Nat) (d : Nat → Nat → α) (base : Nat) : Nat → α :=
  fun i => d (base + i / c) (i % c)

section
variable (c : Nat) (buf : Nat → α) (d : Nat → Nat → α) {n i : Nat}
include c buf d

theorem writeChunks_in (base : Nat) (hi : i < n) :
    writeChunks c buf d base n (base + i) = chunk c buf i := by
  induction n with
  | zero => omega
  | succ n ih =>
    rcases Nat.lt_succ_iff_lt_or_eq.mp hi with h | rfl
    · rw [writeChunks, update_of_ne (by omega), ih h]
    · rw [writeChunks, update_self]

theorem writeChunks_out {base sec : Nat} (h : sec < base ∨ base + n ≤ sec) :
    writeChunks c buf d base n sec = d sec := by
  induction n with
  | zero => rfl
  | succ n ih => rw [writeChunks, update_of_ne (by omega), ih (by omega)]

theorem readChunks_writeChunks (base : Nat) (hi : i < n * c) :
    readChunks c (writeChunks c buf d base n) base i = buf i := by
  have hlt : i / c < n := Nat.div_lt_of_lt_mul (by rwa [Nat.mul_comm] at hi)
  rw [readChunks, writeChunks_in c buf d base hlt, chunk, Nat.mul_comm, Nat.div_add_mod]

theorem readChunks_writeChunks_disjoint {base base' m : Nat} (hi : i < m * c)
    (h : base' + m ≤ base ∨ base + n ≤ base') :
    readChunks c (writeChunks c buf d base n) base' i = readChunks c d base' i := by
  have hlt : i / c < m := Nat.div_lt_of_lt_mul (by rwa [Nat.mul_comm] at hi)
  have hout : base' + i / c < base ∨ base + n ≤ base' + i / c := by
    generalize i / c = q at hlt
    omega
  rw [readChunks, readChunks, writeChunks_out c buf d hout]

end

end Lib
