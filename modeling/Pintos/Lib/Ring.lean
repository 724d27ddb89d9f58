import Mathlib.Logic.Function.Basic

/- Rings: `n` places, of which those from `tail` on, up to `head`, are in use.

   One place is never in use, so that `head = tail` means that there is nothing. -/
namespace Lib

open Function

def ringNext (n pos : Nat) : Nat := (pos + 1) % n

def ringCount (n head tail : Nat) : Nat := (head + n - tail) % n

/-- What is in the first `cnt` places. -/
def ringContents {α : Type*} (n : Nat) (buf : Nat → α) (tail cnt : Nat) : List α :=
  (List.range cnt).map fun i => buf ((tail + i) % n)

section
variable {n head tail : Nat}

theorem ring_mod {i : Nat} (ht : tail < n) (hi : i < n) :
    (tail + i < n ∧ (tail + i) % n = tail + i) ∨
      (n ≤ tail + i ∧ (tail + i) % n = tail + i - n) := by
  rcases Nat.lt_or_ge (tail + i) n with hlt | hge
  · exact Or.inl ⟨hlt, Nat.mod_eq_of_lt hlt⟩
  · refine Or.inr ⟨hge, ?_⟩
    rw [Nat.mod_eq_sub_mod hge]
    exact Nat.mod_eq_of_lt (by omega)

theorem ringNext_cases (hn : 1 < n) (ht : tail < n) :
    (tail + 1 < n ∧ ringNext n tail = tail + 1) ∨ (tail + 1 = n ∧ ringNext n tail = 0) := by
  rcases ring_mod ht hn with ⟨hlt, heq⟩ | ⟨hge, heq⟩
  · exact Or.inl ⟨hlt, heq⟩
  · exact Or.inr ⟨by omega, heq.trans (by omega)⟩

theorem ringCount_cases (hh : head < n) (ht : tail < n) :
    (tail ≤ head ∧ ringCount n head tail = head - tail) ∨
      (head < tail ∧ ringCount n head tail = head + n - tail) := by
  rcases Nat.lt_or_ge head tail with hlt | hge
  · exact Or.inr ⟨hlt, Nat.mod_eq_of_lt (by omega)⟩
  · refine Or.inl ⟨hge, ?_⟩
    rw [ringCount, Nat.mod_eq_sub_mod (by omega), Nat.mod_eq_of_lt (by omega)]
    omega

theorem ringNext_lt (hn : 1 < n) (ht : tail < n) : ringNext n tail < n := by
  rcases ringNext_cases hn ht with h | h <;> omega

theorem ringCount_eq_zero (hh : head < n) (ht : tail < n) :
    ringCount n head tail = 0 ↔ head = tail := by
  rcases ringCount_cases hh ht with h | h <;> omega

theorem ringCount_full (hn : 1 < n) (hh : head < n) (ht : tail < n) :
    ringCount n head tail = n - 1 ↔ ringNext n head = tail := by
  rcases ringCount_cases hh ht with h | h <;> rcases ringNext_cases hn hh with h' | h' <;> omega

theorem ringCount_lt (hh : head < n) (ht : tail < n) : ringCount n head tail < n := by
  rcases ringCount_cases hh ht with h | h <;> omega

theorem ringCount_put (hn : 1 < n) (hh : head < n) (ht : tail < n)
    (hroom : ringNext n head ≠ tail) :
    ringCount n (ringNext n head) tail = ringCount n head tail + 1 := by
  have hnext := ringNext_lt hn hh
  rcases ringCount_cases hh ht with h | h <;> rcases ringNext_cases hn hh with h' | h' <;>
    rcases ringCount_cases hnext ht with h'' | h'' <;> omega

theorem ringCount_get (hn : 1 < n) (hh : head < n) (ht : tail < n) (hsome : head ≠ tail) :
    ringCount n head tail = ringCount n head (ringNext n tail) + 1 := by
  have hnext := ringNext_lt hn ht
  rcases ringCount_cases hh ht with h | h <;> rcases ringNext_cases hn ht with h' | h' <;>
    rcases ringCount_cases hh hnext with h'' | h'' <;> omega

theorem ring_head (hh : head < n) (ht : tail < n) : (tail + ringCount n head tail) % n = head := by
  rcases ring_mod ht (ringCount_lt hh ht) with h | h <;>
    rcases ringCount_cases hh ht with h' | h' <;> omega

variable {α : Type*} {buf : Nat → α}

@[simp] theorem ringContents_length (cnt : Nat) : (ringContents n buf tail cnt).length = cnt := by
  simp [ringContents]

theorem ringContents_get (ht : tail < n) (cnt : Nat) :
    ringContents n buf tail (cnt + 1) = buf tail :: ringContents n buf (ringNext n tail) cnt := by
  rw [ringContents, List.range_succ_eq_map, List.map_cons, List.map_map, Nat.add_zero,
    Nat.mod_eq_of_lt ht]
  refine congrArg _ (List.map_congr_left fun i _ => ?_)
  simp only [comp_apply, ringNext, Nat.mod_add_mod]
  congr 2
  omega

theorem ringContents_put (hh : head < n) (ht : tail < n) (x : α) :
    ringContents n (update buf head x) tail (ringCount n head tail + 1) =
      ringContents n buf tail (ringCount n head tail) ++ [x] := by
  rw [ringContents, List.range_succ, List.map_append, List.map_singleton, ring_head hh ht,
    update_self]
  refine congrArg (· ++ [x]) (List.map_congr_left fun i hi => update_of_ne ?_ ..)
  have hi := List.mem_range.mp hi
  have hlt := ringCount_lt hh ht
  have hpos := ring_head hh ht
  rcases ring_mod ht (Nat.lt_trans hi hlt) with h | h <;> rcases ring_mod ht hlt with h' | h' <;> omega

end

end Lib
