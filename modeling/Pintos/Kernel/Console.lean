import Pintos.Lib.Run

/- The console lock, `lib/kernel/console.c`.

   `console_lock` is not recursive; a thread that has it already counts
   `console_lock_depth` up instead. The counter has no owner, and nothing but this lock
   protects it. A thread may be preempted at every place below, and between two places it
   reads or writes the lock or the counter once, or is in the part of `sema_down` or
   `sema_up` that has interrupts off. `nest` is not part of the kernel: it counts the calls
   of `acquire_console` that have returned and whose `release_console` has not begun.

   Correspondence (C ↔ Lean):
     `console_lock.semaphore.value`, `.holder`  ↔ `Console.value`, `Console.holder`
     `console_lock_depth`                       ↔ `Console.depth`
     `acquire_console`, with `lock_acquire`     ↔ `ConsolePc.testing` … `ConsolePc.owning`
     `release_console`, with `lock_release`     ↔ `ConsolePc.choosing` … `ConsolePc.upping`
   No thread is in interrupt context, and `use_console_lock` is set. A thread in
   `sema_down` has no step while the value is 0, and a thread has none where an `ASSERT`
   fails. The counter does not overflow. -/
namespace Pintos.Kernel

open Lib Function

/-- Where a thread is. It has decided to count at `nesting` and `unnesting`, and has read
    the counter at `bump` and `drop`; `acquiring` is before the `ASSERT` of `lock_acquire`,
    and `releasing` before that of `lock_release`. -/
inductive ConsolePc where
  | out
  | testing
  | nesting
  | bump (v : Nat)
  | acquiring
  | downing
  | owning
  | choosing
  | unnesting
  | drop (v : Nat)
  | releasing
  | disowning
  | upping
  deriving DecidableEq

structure Console where
  value : Nat
  holder : Option Nat
  depth : Nat
  pc : Nat → ConsolePc
  nest : Nat → Nat

inductive ConsoleAct where
  | acquire (t : Nat)
  | release (t : Nat)
  | go (t : Nat)

def consoleInit : Console := ⟨1, none, 0, fun _ => .out, fun _ => 0⟩

namespace Console

def goto (x : Console) (t : Nat) (p : ConsolePc) : Console := { x with pc := update x.pc t p }

def acquired (x : Console) (t : Nat) : Console :=
  { x.goto t .out with nest := update x.nest t (x.nest t + 1) }

/-- The next step of a thread that is in one of the functions. -/
def advance (x : Console) (t : Nat) : Option Console :=
  match x.pc t with
  | .out => none
  | .testing => some (x.goto t (if x.holder = some t then .nesting else .acquiring))
  | .nesting => some (x.goto t (.bump x.depth))
  | .bump v => some { x.acquired t with depth := v + 1 }
  | .acquiring => if x.holder = some t then none else some (x.goto t .downing)
  | .downing => if x.value = 0 then none else some { x.goto t .owning with value := x.value - 1 }
  | .owning => some { x.acquired t with holder := some t }
  | .choosing => some (x.goto t (if 0 < x.depth then .unnesting else .releasing))
  | .unnesting => some (x.goto t (.drop x.depth))
  | .drop v => some { x.goto t .out with depth := v - 1 }
  | .releasing => if x.holder = some t then some (x.goto t .disowning) else none
  | .disowning => some { x.goto t .upping with holder := none }
  | .upping => some { x.goto t .out with value := x.value + 1 }

/-- A thread releases what it has acquired. -/
def step (x : Console) : ConsoleAct → Option Console
  | .acquire t => if x.pc t = .out then some (x.goto t .testing) else none
  | .release t => if x.pc t = .out ∧ 0 < x.nest t then
      some { x.goto t .choosing with nest := update x.nest t (x.nest t - 1) } else none
  | .go t => x.advance t

/-- What is so for a thread, by its place. -/
def Local (x : Console) (t : Nat) : Prop :=
  match x.pc t with
  | .out | .testing => if x.holder = some t then x.depth + 1 = x.nest t else x.nest t = 0
  | .nesting => x.holder = some t ∧ x.depth + 1 = x.nest t
  | .bump v => x.holder = some t ∧ x.depth = v ∧ v + 1 = x.nest t
  | .acquiring | .downing => x.holder ≠ some t ∧ x.nest t = 0
  | .owning | .upping => x.holder = none ∧ x.nest t = 0
  | .choosing => x.holder = some t ∧ x.depth = x.nest t
  | .unnesting => x.holder = some t ∧ x.depth = x.nest t ∧ 0 < x.depth
  | .drop v => x.holder = some t ∧ x.depth = v ∧ v = x.nest t ∧ 0 < v
  | .releasing | .disowning => x.holder = some t ∧ x.depth = 0 ∧ x.nest t = 0

/-- The thread has decremented the semaphore and not incremented it again. -/
def Has (x : Console) (t : Nat) : Prop :=
  x.holder = some t ∨ x.pc t = .owning ∨ x.pc t = .upping

structure Inv (x : Console) : Prop where
  here : ∀ t, x.Local t
  one : ∀ {t u}, x.Has t → x.Has u → t = u
  unit : x.value = 0 ∨ x.value = 1 ∧ ∀ t, ¬x.Has t
  free : x.holder = none → x.depth = 0

variable {x y : Console} {t u : Nat}

/-- Between the two states only `t` has moved, and the counter is as it was unless `t` is
    the holder. -/
structure Moves (t : Nat) (x y : Console) : Prop where
  pc : ∀ u ≠ t, y.pc u = x.pc u
  nest : ∀ u ≠ t, y.nest u = x.nest u
  holder : ∀ u ≠ t, y.holder = some u ↔ x.holder = some u
  depth : x.holder = some t ∨ y.depth = x.depth

theorem moves_goto (x : Console) (t : Nat) (p : ConsolePc) : Moves t x (x.goto t p) :=
  ⟨fun _ hu => update_of_ne hu _ _, fun _ _ => rfl, fun _ _ => Iff.rfl, .inr rfl⟩

theorem Moves.has (h : Moves t x y) (hu : u ≠ t) : y.Has u ↔ x.Has u := by
  rw [Has, Has, h.holder u hu, h.pc u hu]

/-- The other threads do not notice: none of them has the lock if `t` has it. -/
theorem Inv.others (h : Inv x) (hm : Moves t x y) (hone : y.Has t → ∀ u ≠ t, ¬x.Has u)
    (hu : u ≠ t) : y.Local u := by
  have hl := h.here u
  have hh := hm.holder u hu
  -- for a thread that is about to become the holder, or has just ceased to be it
  have hnone : x.Has u → x.holder = none → y.holder = none := by
    intro hhas hx
    cases hy : y.holder with
    | none => rfl
    | some v =>
      by_cases hv : v = t
      · exact absurd hhas (hone (.inl (hv ▸ hy)) u hu)
      · exact absurd (hx.symm.trans ((hm.holder v hv).mp hy)) (by simp)
  have hd : x.holder = some u → y.depth = x.depth := fun hx =>
    hm.depth.resolve_left fun ht => hu (Option.some.inj (hx.symm.trans ht))
  simp only [Local, hm.pc u hu, hm.nest u hu] at hl ⊢
  cases hpc : x.pc u <;> grind [Has]

theorem Inv.move (h : Inv x) (hm : Moves t x y) (hlocal : y.Local t)
    (hone : y.Has t → ∀ u ≠ t, ¬x.Has u) (hunit : y.value = 0 ∨ y.value = 1 ∧ ∀ u, ¬y.Has u)
    (hfree : y.holder = none → y.depth = 0) : Inv y := by
  refine ⟨fun u => ?_, fun {u v} hu hv => ?_, hunit, hfree⟩
  · by_cases hu : u = t
    · exact hu ▸ hlocal
    · exact h.others hm hone hu
  · by_cases hut : u = t
    · by_cases hvt : v = t
      · rw [hut, hvt]
      · exact absurd ((hm.has hvt).mp hv) (hone (hut ▸ hu) v hvt)
    · by_cases hvt : v = t
      · exact absurd ((hm.has hut).mp hu) (hone (hvt ▸ hv) u hut)
      · exact h.one ((hm.has hut).mp hu) ((hm.has hvt).mp hv)

/-- The value stays as it is, and so does who has decremented it. -/
theorem Inv.quiet (h : Inv x) (hm : Moves t x y) (hlocal : y.Local t) (hvalue : y.value = x.value)
    (hhas : y.Has t → x.Has t) (hfree : y.holder = none → y.depth = 0) : Inv y := by
  refine h.move hm hlocal (fun ht u hu hx => hu (h.one hx (hhas ht))) ?_ hfree
  rw [hvalue]
  refine h.unit.imp_right fun hno => ⟨hno.1, fun u hu => ?_⟩
  by_cases hut : u = t
  · exact hno.2 t (hhas (hut ▸ hu))
  · exact hno.2 u ((hm.has hut).mp hu)

theorem Inv.goto {p : ConsolePc} (h : Inv x) (hlocal : (x.goto t p).Local t)
    (hp : p ≠ .owning ∧ p ≠ .upping) : Inv (x.goto t p) := by
  refine h.quiet (moves_goto x t p) hlocal rfl (fun hh => ?_) h.free
  simp only [Has, Console.goto, update_self, hp.1, hp.2, or_self, or_false] at hh
  exact .inl hh

theorem Inv.advance (h : Inv x) (ha : x.advance t = some y) : Inv y := by
  have hl := h.here t
  have hm := moves_goto x t
  simp only [Console.advance] at ha
  simp only [Local] at hl
  cases hpc : x.pc t with
  | out => rw [hpc] at ha; cases ha
  | testing =>
    rw [hpc] at ha hl
    cases ha
    refine h.goto ?_ (by grind)
    simp only [Local, Console.goto, update_self]
    grind
  | nesting =>
    rw [hpc] at ha hl
    cases ha
    refine h.goto ?_ (by simp)
    simpa only [Local, Console.goto, update_self, true_and] using hl
  | bump v =>
    rw [hpc] at ha hl
    cases ha
    refine h.quiet (t := t) ⟨(hm .out).pc, fun u hu => update_of_ne hu _ _, fun _ _ => Iff.rfl,
      .inl hl.1⟩ ?_ rfl (fun _ => .inl hl.1) fun hn => absurd (hl.1.symm.trans hn) (by simp)
    simp only [Local, acquired, Console.goto, update_self]
    grind
  | acquiring =>
    rw [hpc] at hl
    simp only [hpc, if_neg hl.1] at ha
    cases ha
    refine h.goto ?_ (by simp)
    simpa only [Local, Console.goto, update_self] using hl
  | downing =>
    rw [hpc] at hl
    simp only [hpc] at ha
    split at ha
    · cases ha
    · next hv =>
      cases ha
      obtain ⟨hone, hno⟩ := h.unit.resolve_left hv
      have hnone : x.holder = none := by
        cases hh : x.holder with
        | none => rfl
        | some v => exact absurd (.inl hh) (hno v)
      refine h.move (t := t) ⟨(hm .owning).pc, fun _ _ => rfl, fun _ _ => Iff.rfl, .inr rfl⟩ ?_
        (fun _ u _ => hno u) (.inl (by rw [hone])) h.free
      simpa only [Local, Console.goto, update_self] using ⟨hnone, hl.2⟩
  | owning =>
    rw [hpc] at ha hl
    cases ha
    refine h.quiet (t := t) ⟨(hm .out).pc, fun u hu => update_of_ne hu _ _, fun u hu => ?_,
      .inr rfl⟩ ?_ rfl (fun _ => .inr (.inl hpc)) nofun
    · rw [hl.1]
      grind
    · simp [Local, acquired, Console.goto, hl.2, h.free hl.1]
  | choosing =>
    rw [hpc] at ha hl
    cases ha
    refine h.goto ?_ (by grind)
    simp only [Local, Console.goto, update_self]
    grind
  | unnesting =>
    rw [hpc] at ha hl
    cases ha
    refine h.goto ?_ (by simp)
    simpa only [Local, Console.goto, update_self, true_and] using hl
  | drop v =>
    rw [hpc] at ha hl
    cases ha
    refine h.quiet (t := t) ⟨(hm .out).pc, fun _ _ => rfl, fun _ _ => Iff.rfl, .inl hl.1⟩ ?_ rfl
      (fun _ => .inl hl.1) fun hn => absurd (hl.1.symm.trans hn) (by simp)
    simp only [Local, Console.goto, update_self]
    grind
  | releasing =>
    rw [hpc] at hl
    simp only [hpc, if_pos hl.1] at ha
    cases ha
    refine h.goto ?_ (by simp)
    simpa only [Local, Console.goto, update_self] using hl
  | disowning =>
    rw [hpc] at ha hl
    cases ha
    refine h.quiet (t := t) ⟨(hm .upping).pc, fun _ _ => rfl, fun u hu => ?_, .inl hl.1⟩ ?_ rfl
      (fun _ => .inl hl.1) fun _ => hl.2.1
    · rw [hl.1]
      grind
    · simp [Local, Console.goto, hl.2.2]
  | upping =>
    rw [hpc] at ha hl
    cases ha
    have hhas : x.Has t := .inr (.inr hpc)
    have hv : x.value = 0 := h.unit.resolve_right fun hno => hno.2 t hhas
    have hmoves : Moves t x { x.goto t .out with value := x.value + 1 } :=
      ⟨(hm .out).pc, fun _ _ => rfl, fun _ _ => Iff.rfl, .inr rfl⟩
    -- nobody has decremented it any longer
    have hgone : ∀ u, ¬Has { x.goto t .out with value := x.value + 1 } u := by
      intro u hu
      by_cases hut : u = t
      · subst hut
        simp [Has, Console.goto, hl.1] at hu
      · exact hut (h.one ((hmoves.has hut).mp hu) hhas)
    refine h.move hmoves ?_ (fun hh => absurd hh (hgone t)) (.inr ⟨by rw [hv], hgone⟩) h.free
    simp [Local, Console.goto, hl.1, hl.2]

theorem Inv.step {a : ConsoleAct} (h : Inv x) (hs : x.step a = some y) : Inv y := by
  cases a with
  | acquire t =>
    simp only [Console.step] at hs
    split at hs
    · next hpc =>
      cases hs
      have hl := h.here t
      simp only [Local, hpc] at hl
      refine h.goto ?_ (by simp)
      simp only [Local, Console.goto, update_self]
      exact hl
    · cases hs
  | release t =>
    simp only [Console.step] at hs
    split at hs
    · next hpc =>
      cases hs
      have hl := h.here t
      simp only [Local, hpc.1] at hl
      have hholder : x.holder = some t := by grind
      rw [if_pos hholder] at hl
      refine h.quiet (t := t) ⟨(moves_goto x t .choosing).pc, fun u hu => update_of_ne hu _ _,
        fun _ _ => Iff.rfl, .inr rfl⟩ ?_ rfl (fun _ => .inl hholder) h.free
      simp only [Local, Console.goto, update_self]
      exact ⟨hholder, by omega⟩
    · cases hs
  | go t => exact h.advance hs

theorem inv_consoleInit : Inv consoleInit :=
  ⟨fun _ => rfl, fun ht => absurd ht (by simp [Has, consoleInit]),
    .inr ⟨rfl, by simp [Has, consoleInit]⟩, fun _ => rfl⟩

end Console

/-- **The console lock is a re-entrant lock.** Whatever the threads have done, only one is
    between an `acquire_console` and the `release_console` that matches it, and it is the
    holder of the lock. Outside of the two functions a thread holds the lock exactly while
    it has something to release, and the counter is one less than its depth. The `ASSERT`s
    of `lock_acquire` and `lock_release` hold. -/
theorem console_reentrant {x : Console} (h : Reach Console.step anyStep consoleInit x) :
    (∀ t, 0 < x.nest t → x.holder = some t) ∧
    (∀ t, x.pc t = .out → x.holder = some t → x.depth + 1 = x.nest t) ∧
    (x.holder = none → x.depth = 0) ∧
    (∀ t, x.pc t = .acquiring → x.holder ≠ some t) ∧
    ∀ t, x.pc t = .releasing → x.holder = some t := by
  have hinv : Console.Inv x := h.inv Console.inv_consoleInit fun _ _ _ hI _ hs => hI.step hs
  refine ⟨fun t ht => ?_, fun t hpc hh => ?_, hinv.free, fun t hpc => ?_, fun t hpc => ?_⟩
  all_goals
    have hl := hinv.here t
    simp only [Console.Local] at hl
  · cases hpc : x.pc t <;> grind
  · simpa [hpc, hh] using hl
  · rw [hpc] at hl; exact hl.1
  · rw [hpc] at hl; exact hl.1

/-- A thread acquires the console twice. -/
theorem console_reentrant_twice : ∃ x, Reach Console.step anyStep consoleInit x ∧
    x.nest 1 = 2 ∧ x.holder = some 1 := by
  obtain ⟨x, hx, hq⟩ := exists_reach (C := anyStep) (c := fun _ _ => true) Console.step consoleInit
    [.acquire 1, .go 1, .go 1, .go 1, .go 1, .acquire 1, .go 1, .go 1, .go 1] (fun x => x.nest 1 == 2)
    (fun _ _ _ => trivial) (by decide) (by decide)
  rw [beq_iff_eq] at hq
  exact ⟨x, hx, hq, (console_reentrant hx).1 1 (by rw [hq]; decide)⟩

end Pintos.Kernel
