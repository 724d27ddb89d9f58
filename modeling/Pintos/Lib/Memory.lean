import Mathlib.Logic.Function.Basic
import Pintos.Lib.Cmd

/- Memory of bytes.

   A program may read and write the bytes at the addresses that are good, among which 0
   never is. `load` and `store` have no outcome at an address that is not: a program that
   has one where only some range is good has touched nothing else. -/
namespace Lib

open Function

structure Memory where
  byte : Nat → UInt8
  good : Nat → Bool
  null : good 0 = false

abbrev MemM := Cmd Memory

def Memory.set (m : Memory) (a : Nat) (b : UInt8) : Memory := { m with byte := update m.byte a b }

def load (a : Nat) : MemM UInt8 := do
  assert ((← get).good a)
  return (← get).byte a

def store (a : Nat) (b : UInt8) : MemM Unit := do
  assert ((← get).good a)
  modify fun m => m.set a b

/-- The `n` bytes from `a` on are good. -/
def Memory.Has (m : Memory) (a n : Nat) : Prop := ∀ i < n, m.good (a + i) = true

def Memory.bytes (m : Memory) (a n : Nat) : List UInt8 := (List.range n).map fun i => m.byte (a + i)

/-- The same bytes, but for those from `a` up to `a + n`. -/
def SameOff (a n : Nat) (m m' : Memory) : Prop :=
  m'.good = m.good ∧ ∀ x, x < a ∨ a + n ≤ x → m'.byte x = m.byte x

def loadBytes : (n a : Nat) → MemM (List UInt8)
  | 0, _ => pure []
  | n + 1, a => do
    let b ← load a
    return b :: (← loadBytes n (a + 1))

section
variable {m m' m'' : Memory} {a n b k : Nat}

@[simp] theorem wp_load {Q : UInt8 → Memory → Prop} :
    wp (load a) Q m ↔ m.good a = true ∧ Q (m.byte a) m := by
  simp only [load, wp_bind, wp_get, wp_assert, wp_pure]

@[simp] theorem wp_store {b : UInt8} {Q : Unit → Memory → Prop} :
    wp (store a b) Q m ↔ m.good a = true ∧ Q () (m.set a b) := by
  simp only [store, wp_bind, wp_get, wp_assert, wp_modify]

@[simp, grind =] theorem Memory.set_good (b : UInt8) : (m.set a b).good = m.good := rfl

@[simp, grind =] theorem Memory.set_byte (b : UInt8) (x : Nat) :
    (m.set a b).byte x = if x = a then b else m.byte x := update_apply ..

theorem Memory.Has.ne_zero (h : m.Has a n) (hn : 0 < n) : a ≠ 0 := by
  rintro rfl
  have hgood := h 0 hn
  rw [Nat.add_zero, m.null] at hgood
  cases hgood

theorem Memory.Has.sub (h : m.Has a n) (hb : a ≤ b) (hk : b + k ≤ a + n) : m.Has b k := by
  intro i hi
  have hgood := h (b - a + i) (by omega)
  rwa [show a + (b - a + i) = b + i by omega] at hgood

theorem Memory.bytes_succ (m : Memory) (a n : Nat) :
    m.bytes a (n + 1) = m.byte a :: m.bytes (a + 1) n := by
  rw [Memory.bytes, List.range_succ_eq_map, List.map_cons, List.map_map]
  congr 1
  exact List.map_congr_left fun i _ => congrArg m.byte (by simp; omega)

theorem Memory.bytes_congr (h : ∀ i < n, m'.byte (b + i) = m.byte (a + i)) :
    m'.bytes b n = m.bytes a n :=
  List.map_congr_left fun i hi => h i (List.mem_range.mp hi)

theorem wp_loadBytes : ∀ {n a : Nat} {Q : List UInt8 → Memory → Prop}, m.Has a n →
    Q (m.bytes a n) m → wp (loadBytes n a) Q m
  | 0, _, _, _, hq => wp_pure.mpr hq
  | n + 1, a, Q, h, hq => by
    rw [loadBytes, wp_bind, wp_load]
    refine ⟨h 0 (Nat.succ_pos n), ?_⟩
    rw [wp_bind]
    refine wp_loadBytes (h.sub (Nat.le_succ a) (by omega)) ?_
    rw [wp_pure, ← Memory.bytes_succ]
    exact hq

theorem SameOff.trans (h : SameOff a n m m') (h' : SameOff a n m' m'') : SameOff a n m m'' :=
  ⟨h'.1.trans h.1, fun x hx => (h'.2 x hx).trans (h.2 x hx)⟩

theorem SameOff.has (h : SameOff a n m m') (hb : m.Has b k) : m'.Has b k := by
  intro i hi
  rw [h.1]
  exact hb i hi

end

end Lib
