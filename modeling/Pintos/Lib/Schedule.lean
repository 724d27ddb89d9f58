import Mathlib.Logic.Function.Basic

/- Two parties on one memory: one writes to it, the other ticks.

   A schedule is the list of their moves. `written m l` is the memory after the
   moves `l`, and `before n l` is the part of the schedule before the tick number
   `n`, counted from 0, so that `written m (before n l)` is what a reader sees that
   reads at that tick. -/
namespace Lib

inductive Move (ι α : Type*) where
  | write (i : ι) (a : α)
  | tick
  deriving DecidableEq

variable {ι α : Type*}

def ticks : List (Move ι α) → Nat
  | [] => 0
  | .write _ _ :: l => ticks l
  | .tick :: l => ticks l + 1

/-- The moves before the tick number `n`. -/
def before : Nat → List (Move ι α) → List (Move ι α)
  | _, [] => []
  | n, .write i a :: l => .write i a :: before n l
  | 0, .tick :: _ => []
  | n + 1, .tick :: l => .tick :: before n l

def written [DecidableEq ι] (m : ι → α) : List (Move ι α) → ι → α
  | [] => m
  | .write i a :: l => written (Function.update m i a) l
  | .tick :: l => written m l

@[simp] theorem ticks_write (l : List (Move ι α)) (i : ι) (a : α) :
    ticks (l ++ [.write i a]) = ticks l := by
  induction l with
  | nil => rfl
  | cons mv l ih => cases mv <;> simp [ticks, ih]

@[simp] theorem ticks_tick (l : List (Move ι α)) : ticks (l ++ [.tick]) = ticks l + 1 := by
  induction l with
  | nil => rfl
  | cons mv l ih => cases mv <;> simp [ticks, ih]

/-- What comes after a tick does not change what came before it. -/
theorem before_append {n : Nat} {l : List (Move ι α)} (h : n < ticks l) (l' : List (Move ι α)) :
    before n (l ++ l') = before n l := by
  induction l generalizing n with
  | nil => exact absurd h (Nat.not_lt_zero n)
  | cons mv l ih =>
    cases mv with
    | write i a => exact congrArg (.write i a :: ·) (ih h)
    | tick =>
      cases n with
      | zero => rfl
      | succ n => exact congrArg (.tick :: ·) (ih (Nat.lt_of_succ_lt_succ h))

theorem before_ticks (l : List (Move ι α)) : before (ticks l) (l ++ [.tick]) = l := by
  induction l with
  | nil => rfl
  | cons mv l ih =>
    cases mv with
    | write i a => exact congrArg (.write i a :: ·) ih
    | tick => exact congrArg (.tick :: ·) ih

variable [DecidableEq ι]

@[simp] theorem written_write (m : ι → α) (l : List (Move ι α)) (i : ι) (a : α) :
    written m (l ++ [.write i a]) = Function.update (written m l) i a := by
  induction l generalizing m with
  | nil => rfl
  | cons mv l ih => cases mv <;> exact ih _

@[simp] theorem written_tick (m : ι → α) (l : List (Move ι α)) :
    written m (l ++ [.tick]) = written m l := by
  induction l generalizing m with
  | nil => rfl
  | cons mv l ih => cases mv <;> exact ih _

end Lib
