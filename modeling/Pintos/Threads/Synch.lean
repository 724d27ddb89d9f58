import Pintos.Lib.Run
import Pintos.Vm.State

/- Semaphores, `threads/synch.c`.

   A semaphore is its value and the threads that sleep on it, the longest waiting first.
   Everything the functions do to it is done with interrupts off, so each of the functions
   below is one step: one turn of the loop of `sema_down`, which takes a unit or goes to
   sleep; `sema_try_down`; `sema_up`. A woken thread does not own the unit that it was woken
   for. It takes another turn, and other threads may come before.

   Correspondence (C ↔ Lean):
     `struct semaphore`                          ↔ `Sema`
     `sema_init`                                 ↔ `Sema.init`
     `sema_down`, one turn of its loop           ↔ `Sema.down`
     `sema_try_down`                             ↔ `Sema.tryDown`
     `sema_up`                                   ↔ `Sema.up`
   `value` is an `unsigned`. -/
namespace Pintos.Threads

open Vm (wordSize)
open Lib

variable {τ : Type}

structure Sema (τ : Type) where
  value : Nat
  waiters : List τ

namespace Sema

def init (value : Nat) : Sema τ where
  value := value
  waiters := []

/-- Whether the thread has taken a unit. Otherwise it is among the waiters, and blocks. -/
def down (t : τ) (s : Sema τ) : Bool × Sema τ :=
  if s.value = 0 then (false, { s with waiters := s.waiters ++ [t] })
  else (true, { s with value := s.value - 1 })

def tryDown (s : Sema τ) : Bool × Sema τ :=
  if s.value > 0 then (true, { s with value := s.value - 1 }) else (false, s)

/-- The thread that is unblocked, if any. -/
def up (s : Sema τ) : Option τ × Sema τ :=
  (s.waiters.head?, { value := (s.value + 1) % wordSize, waiters := s.waiters.tail })

end Sema

/-! Interleavings. -/

/-- A semaphore in use. `woken` are the threads that have been unblocked and have not
    tested the value again; `ups` and `downs` count what has been completed. -/
structure SemaUse (τ : Type) where
  sema : Sema τ
  woken : List τ
  ups : Nat
  downs : Nat

/-- `tryDown` and `up` may be calls of an interrupt handler. -/
inductive SemaEvent (τ : Type) where
  | down (t : τ)
  | retest (t : τ)
  | tryDown
  | up

def semaStart (v : Nat) : SemaUse τ where
  sema := .init v
  woken := []
  ups := 0
  downs := 0

namespace SemaUse

/-- A turn of the loop has ended in this way. -/
def took (s : SemaUse τ) (r : Bool × Sema τ) : SemaUse τ :=
  { s with sema := r.2, downs := if r.1 then s.downs + 1 else s.downs }

variable [DecidableEq τ]

def step (s : SemaUse τ) : SemaEvent τ → Option (SemaUse τ)
  | .down t => some (s.took (s.sema.down t))
  | .retest t => if t ∈ s.woken then
      some ({ s with woken := s.woken.erase t }.took (s.sema.down t)) else none
  | .tryDown => some (s.took s.sema.tryDown)
  | .up => some { s with
      sema := s.sema.up.2
      woken := s.woken ++ s.sema.up.1.toList
      ups := s.ups + 1 }

end SemaUse

/-- A thread that is inside `sema_down` does not call it again, and fewer than `2 ^ 32` units
    are outstanding. -/
def Units (v : Nat) (s : SemaUse τ) : SemaEvent τ → Prop
  | .down t => t ∉ s.sema.waiters ∧ t ∉ s.woken
  | .up => v + s.ups + 1 < s.downs + wordSize
  | .retest _ | .tryDown => True

/-! Conservation. -/

/-- What holds between steps, for a semaphore that was initialised to `v`. -/
structure Conserved (v : Nat) (s : SemaUse τ) : Prop where
  units : s.sema.value + s.downs = v + s.ups
  fits : s.sema.value < wordSize
  once : (s.woken ++ s.sema.waiters).Nodup
  claimed : s.sema.waiters ≠ [] → s.sema.value ≤ s.woken.length

section
variable {v : Nat} {s s' : SemaUse τ} {t : τ}

theorem conserved_semaStart (hv : v < wordSize) : Conserved v (semaStart v : SemaUse τ) where
  units := rfl
  fits := hv
  once := List.nodup_nil
  claimed := fun h => absurd rfl h

/-- A thread that is on no list takes a turn; `woken` are the woken threads without it. -/
theorem Conserved.down {woken : List τ} (h : Conserved v s)
    (hnodup : (woken ++ s.sema.waiters).Nodup) (ht : t ∉ woken ++ s.sema.waiters)
    (hclaimed : s.sema.waiters ≠ [] → s.sema.value ≤ woken.length + 1) :
    Conserved v ({ s with woken := woken }.took (s.sema.down t)) := by
  have hu := h.units
  have hf := h.fits
  by_cases hv : s.sema.value = 0
  · simp only [SemaUse.took, Sema.down, if_pos hv]
    refine ⟨hu, hf, ?_, fun _ => by simp only [hv, Nat.zero_le]⟩
    rw [← List.append_assoc]
    exact List.nodup_append'.mpr ⟨hnodup, List.nodup_singleton t, by simpa using ht⟩
  · simp only [SemaUse.took, Sema.down, if_neg hv, if_true]
    exact ⟨by dsimp only; omega, by dsimp only; omega, hnodup, fun hw => by
      have := hclaimed hw
      dsimp only
      omega⟩

theorem Conserved.tryDown (h : Conserved v s) : Conserved v (s.took s.sema.tryDown) := by
  have hu := h.units
  have hf := h.fits
  by_cases hv : s.sema.value > 0
  · simp only [SemaUse.took, Sema.tryDown, if_pos hv, if_true]
    exact ⟨by dsimp only; omega, by dsimp only; omega, h.once, fun hw => by
      have := h.claimed hw
      dsimp only
      omega⟩
  · simp only [SemaUse.took, Sema.tryDown, if_neg hv]
    exact h

variable [DecidableEq τ]

theorem Conserved.retest (h : Conserved v s) (ht : t ∈ s.woken) :
    Conserved v ({ s with woken := s.woken.erase t }.took (s.sema.down t)) := by
  obtain ⟨hw, hq, hdis⟩ := List.nodup_append'.mp h.once
  have hlen := List.length_erase_of_mem ht
  have hpos := List.length_pos_of_mem ht
  refine h.down ?_ ?_ fun hne => ?_
  · exact List.nodup_append'.mpr ⟨hw.erase t, hq, fun x hx => hdis (List.mem_of_mem_erase hx)⟩
  · rw [List.mem_append, not_or]
    exact ⟨hw.not_mem_erase, hdis ht⟩
  · have := h.claimed hne
    omega

theorem Conserved.up (h : Conserved v s) (hup : v + s.ups + 1 < s.downs + wordSize)
    (hs : s.step .up = some s') : Conserved v s' := by
  have hu := h.units
  have hmod : (s.sema.value + 1) % wordSize = s.sema.value + 1 := Nat.mod_eq_of_lt (by omega)
  cases hs
  simp only [Sema.up, hmod]
  cases hw : s.sema.waiters with
  | nil =>
    refine ⟨by dsimp only; omega, by dsimp only; omega, ?_, fun hne => absurd rfl hne⟩
    simpa [hw] using h.once
  | cons t w =>
    have hclaimed := h.claimed (by rw [hw]; simp)
    refine ⟨by dsimp only; omega, by dsimp only; omega, ?_, fun _ => by simpa using hclaimed⟩
    simpa [hw] using h.once

/-- **One step conserves units and claims.** -/
theorem Conserved.step {e : SemaEvent τ} (h : Conserved v s) (he : Units v s e)
    (hs : s.step e = some s') : Conserved v s' := by
  cases e with
  | down t =>
    cases hs
    refine h.down h.once ?_ fun hne => Nat.le_succ_of_le (h.claimed hne)
    rw [List.mem_append, not_or]
    exact ⟨he.2, he.1⟩
  | retest t => grind [SemaUse.step, h.retest]
  | tryDown =>
    cases hs
    exact h.tryDown
  | up => exact h.up he hs

end

/-- **Semaphores conserve units and lose no wake-up**, however the steps of any number of
    threads and interrupt handlers are interleaved. -/
theorem sema_conserves [DecidableEq τ] {v : Nat} (hv : v < wordSize) {s : SemaUse τ}
    (h : Reach SemaUse.step (Units v) (semaStart v) s) :
    s.sema.value + s.downs = v + s.ups ∧ s.sema.value < wordSize ∧
      (s.sema.waiters ≠ [] → s.sema.value ≤ s.woken.length) ∧
      (s.sema.waiters ≠ [] → s.woken = [] → s.sema.value = 0) := by
  have hinv := h.inv (conserved_semaStart hv) fun _ _ _ hc he hs => hc.step he hs
  refine ⟨hinv.units, hinv.fits, hinv.claimed, fun hne hw => ?_⟩
  have hle := hinv.claimed hne
  rw [hw] at hle
  exact Nat.le_zero.mp hle

/-- Thread 1 sleeps and is woken; thread 2 takes the unit; thread 1 goes to sleep again. -/
def stolen : List (SemaEvent Nat) := [.down 1, .up, .down 2, .retest 1]

theorem sema_conserves_stolen : ∃ s : SemaUse Nat, Reach SemaUse.step (Units 0) (semaStart 0) s ∧
    s.sema.waiters = [1] ∧ s.sema.value + s.downs = 0 + s.ups := by
  obtain ⟨s, hs, hq⟩ := exists_reach SemaUse.step (C := Units 0)
    (c := fun s e => match e with
      | .down t => t ∉ s.sema.waiters && t ∉ s.woken
      | .up => 0 + s.ups + 1 < s.downs + wordSize
      | .retest _ | .tryDown => true)
    (semaStart 0) stolen (fun s => s.sema.waiters = [1])
    (fun s e he => by
      cases e with
      | down t | up => simpa [Units] using he
      | retest t | tryDown => trivial) (by decide +kernel) (by decide +kernel)
  exact ⟨s, hs, by simpa using hq, (sema_conserves (by decide) hs).1⟩

end Pintos.Threads
