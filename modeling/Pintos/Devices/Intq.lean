import Pintos.Lib.Cmd
import Pintos.Lib.Ring
import Pintos.Threads.Synch

/- Interrupt queues, `devices/intq.c`.

   Interrupts are off in all of these functions, so a thread that is inside one goes on
   until it sleeps: in `lock_acquire`, or in `thread_block`, which `wait` calls while it
   holds the lock. A thread that is unblocked is ready, and goes on later. The step of a
   thread is all that it does until it sleeps or returns; a call by an interrupt handler
   is one step. A failed `ASSERT` leaves no outcome.

   Correspondence (C ↔ Lean):
     `q->not_empty`, `q->not_full`      ↔ `waiter .notEmpty`, `waiter .notFull`
     `q->lock.semaphore`, `.holder`     ↔ `lock`, `holder`
     `intq_init`                        ↔ `intqInit`
     `intq_empty`, `intq_full`          ↔ `Intq.empty`, `Intq.full`
     `next`, `wait`, `signal`           ↔ `next`, `wait`, `signal`
     `intq_getc`, `intq_putc`           ↔ `loop`, then `transfer`; `handler` in a handler
     `lock_acquire`, `lock_release`     ↔ `lockAcquire`, `lockRelease`
     `thread_unblock`                   ↔ `threadUnblock`

   `head` and `tail` are `int`s that stay below `INTQ_BUFSIZE`. -/
namespace Pintos.Devices

open Lib Function
open Vm (Byte)
open Threads (Sema)

variable {τ : Type}

def intqBufsize : Nat := 64

def next (pos : Nat) : Nat := ringNext intqBufsize pos

/-- The members that `wait` and `signal` are given the address of. -/
inductive Member where
  | notEmpty
  | notFull
  deriving DecidableEq

inductive Call where
  | getc
  | putc (byte : Byte)
  deriving DecidableEq

def Call.waitsFor : Call → Member
  | getc => .notEmpty
  | putc _ => .notFull

def Call.signals : Call → Member
  | getc => .notFull
  | putc _ => .notEmpty

def Call.bytes : Call → List Byte
  | getc => []
  | putc byte => [byte]

/-- Where a thread is: outside of the functions or running, or inside of a call and asleep or
    ready, in `lock_acquire` or in `wait`. -/
inductive Pc where
  | out
  | lockAsleep (c : Call)
  | lockReady (c : Call)
  | waitAsleep (c : Call)
  | waitReady (c : Call)
  deriving DecidableEq

/-- `passed` and `returned` are the bytes that `intq_putc` has been called with, and those
    that `intq_getc` has returned. -/
structure Intq (τ : Type) where
  lock : Sema τ
  holder : Option τ
  waiter : Member → Option τ
  buf : Nat → Byte
  head : Nat
  tail : Nat
  pc : τ → Pc
  passed : List Byte
  returned : List Byte

/-- What is in the buffer is not initialised. -/
def intqInit (buf : Nat → Byte) : Intq τ where
  lock := .init 1
  holder := none
  waiter := fun _ => none
  buf := buf
  head := 0
  tail := 0
  pc := fun _ => .out
  passed := []
  returned := []

namespace Intq

def empty (q : Intq τ) : Bool := q.head = q.tail

def full (q : Intq τ) : Bool := next q.head = q.tail

/-- The condition is false. -/
def mustWait (q : Intq τ) : Member → Bool
  | .notEmpty => q.empty
  | .notFull => q.full

def pass (q : Intq τ) (c : Call) : Intq τ := { q with passed := q.passed ++ c.bytes }

def moved (q : Intq τ) : Call → Intq τ
  | .getc => { q with tail := next q.tail, returned := q.returned ++ [q.buf q.tail] }
  | .putc byte => { q with buf := update q.buf q.head byte, head := next q.head }

variable [DecidableEq τ]

def setPc (q : Intq τ) (t : τ) (p : Pc) : Intq τ := { q with pc := update q.pc t p }

end Intq

abbrev IntqM (τ α : Type) := Cmd (Intq τ) α

section
variable [DecidableEq τ]

def threadUnblock (t : τ) : IntqM τ Unit := do
  let q ← get
  match q.pc t with
  | .lockAsleep c => modify (·.setPc t (.lockReady c))
  | .waitAsleep c => modify (·.setPc t (.waitReady c))
  | .out | .lockReady _ | .waitReady _ => assert false

def wait (t : τ) (c : Call) : IntqM τ Unit := do
  let q ← get
  assert (q.mustWait c.waitsFor)
  set { q.setPc t (.waitAsleep c) with
    waiter := update q.waiter c.waitsFor (some t) }

def signal (m : Member) : IntqM τ Unit := do
  let q ← get
  assert (!q.mustWait m)
  match q.waiter m with
  | none => pure ()
  | some t =>
    threadUnblock t
    modify fun q => { q with waiter := update q.waiter m none }

/-- A turn of the loop of `sema_down`. The thread sleeps, or has the lock and waits. -/
def semaDown (t : τ) (c : Call) : IntqM τ Unit := do
  let q ← get
  let (taken, lock) := q.lock.down t
  set { q with lock := lock }
  (if taken then do
    modify fun q => { q with holder := some t }
    wait t c
  else modify (·.setPc t (.lockAsleep c)))

def lockAcquire (t : τ) (c : Call) : IntqM τ Unit := do
  let q ← get
  assert (q.holder ≠ some t)
  semaDown t c

def lockRelease (t : τ) : IntqM τ Unit := do
  let q ← get
  assert (q.holder = some t)
  let (woken, lock) := q.lock.up
  set { q with holder := none, lock := lock }
  match woken with
  | none => pure ()
  | some u => threadUnblock u

def transfer (c : Call) : IntqM τ Unit := do
  modify (·.moved c)
  signal c.signals

/-- The test of the loop, and what comes after it. -/
def loop (t : τ) (c : Call) : IntqM τ Unit := do
  let q ← get
  (if q.mustWait c.waitsFor then lockAcquire t c else transfer c)

/-- A thread that is ready goes on. -/
def resume (t : τ) : IntqM τ Unit := do
  let q ← get
  match q.pc t with
  | .lockReady c => semaDown t c
  | .waitReady c =>
    lockRelease t
    modify (·.setPc t .out)
    loop t c
  | .out | .lockAsleep _ | .waitAsleep _ => assert false

/-- A call from an interrupt handler must not sleep. -/
def handler (c : Call) : IntqM τ Unit := do
  let q ← get
  assert (!q.mustWait c.waitsFor)
  transfer c

end

inductive IntqEvent (τ : Type) where
  | call (t : τ) (c : Call)
  | resume (t : τ)
  | handler (c : Call)

def IntqEvent.made : IntqEvent τ → Option Call
  | call _ c | handler c => some c
  | resume _ => none

namespace Intq

variable [DecidableEq τ]

def step (q : Intq τ) : IntqEvent τ → Option (Intq τ)
  | .call t c => (loop t c (q.pass c)).map Prod.snd
  | .resume t => (Devices.resume t q).map Prod.snd
  | .handler c => (Devices.handler c (q.pass c)).map Prod.snd

end Intq

/-! The ring. -/

namespace Intq

def count (q : Intq τ) : Nat := ringCount intqBufsize q.head q.tail

def contents (q : Intq τ) : List Byte := ringContents intqBufsize q.buf q.tail q.count

/-- How many calls can go on without one from the other side. -/
def avail (q : Intq τ) : Member → Nat
  | .notEmpty => q.count
  | .notFull => intqBufsize - 1 - q.count

structure Bounded (q : Intq τ) : Prop where
  head_lt : q.head < intqBufsize
  tail_lt : q.tail < intqBufsize

variable {q : Intq τ} {c : Call} {m : Member}

section
variable (h : q.Bounded)
include h

theorem Bounded.count_lt : q.count < intqBufsize := ringCount_lt h.head_lt h.tail_lt

theorem Bounded.mustWait_iff : q.mustWait m = true ↔ q.avail m = 0 := by
  have hlt := h.count_lt
  cases m with
  | notEmpty => simp [mustWait, empty, avail, count, ringCount_eq_zero h.head_lt h.tail_lt]
  | notFull =>
    have hfull := ringCount_full (by decide) h.head_lt h.tail_lt
    simp only [mustWait, full, next, decide_eq_true_eq, ← hfull, avail, count] at hlt ⊢
    omega

theorem Bounded.moved (c : Call) : (q.moved c).Bounded := by
  cases c with
  | getc => exact ⟨h.head_lt, ringNext_lt (by decide) h.tail_lt⟩
  | putc byte => exact ⟨ringNext_lt (by decide) h.head_lt, h.tail_lt⟩

theorem Bounded.count_getc (hgo : q.mustWait .notEmpty = false) :
    q.count = (q.moved .getc).count + 1 :=
  ringCount_get (by decide) h.head_lt h.tail_lt (of_decide_eq_false hgo)

theorem Bounded.count_putc (hgo : q.mustWait .notFull = false) (byte : Byte) :
    (q.moved (.putc byte)).count = q.count + 1 :=
  ringCount_put (by decide) h.head_lt h.tail_lt (of_decide_eq_false hgo)

theorem Bounded.avail_moved (hgo : q.mustWait c.waitsFor = false) :
    q.avail c.waitsFor = (q.moved c).avail c.waitsFor + 1 ∧
      (q.moved c).avail c.signals = q.avail c.signals + 1 := by
  have hlt := h.count_lt
  have hlt' := (h.moved c).count_lt
  cases c with
  | getc =>
    have := h.count_getc hgo
    simp only [avail, Call.waitsFor, Call.signals]
    omega
  | putc byte => grind [h.count_putc, avail, Call.waitsFor, Call.signals]

theorem Bounded.moved_signals (hgo : q.mustWait c.waitsFor = false) :
    (q.moved c).mustWait c.signals = false := by
  rw [Bool.eq_false_iff, ne_eq, (h.moved c).mustWait_iff, (h.avail_moved hgo).2]
  exact Nat.succ_ne_zero _

/-- A byte is added after the others, and the first one is removed. -/
theorem Bounded.contents_moved (hgo : q.mustWait c.waitsFor = false) :
    (q.moved c).returned ++ (q.moved c).contents = q.returned ++ q.contents ++ c.bytes := by
  cases c with
  | getc =>
    have hcount := h.count_getc hgo
    rw [Call.bytes, List.append_nil, contents, contents, hcount, ringContents_get h.tail_lt]
    simp [Intq.moved, next]
  | putc byte =>
    rw [contents, h.count_putc hgo byte, Call.bytes, List.append_assoc]
    exact congrArg _ (ringContents_put h.head_lt h.tail_lt byte)

end

end Intq

/-! Steps. What each function leaves behind, if the queue is in order. -/

def Pc.asleep : Pc → Bool
  | lockAsleep _ | waitAsleep _ => true
  | out | lockReady _ | waitReady _ => false

def Pc.woken : Pc → Pc
  | lockAsleep c => lockReady c
  | waitAsleep c => waitReady c
  | p => p

def Pc.ready : Pc → Bool
  | lockReady _ | waitReady _ => true
  | out | lockAsleep _ | waitAsleep _ => false

/-- The thread is woken if it sleeps in `wait` for the condition. -/
def Pc.wake (m : Member) : Pc → Pc
  | waitAsleep c => if c.waitsFor = m then waitReady c else waitAsleep c
  | p => p

/-- It has the lock. -/
def Pc.holds : Pc → Bool
  | waitAsleep _ | waitReady _ => true
  | out | lockAsleep _ | lockReady _ => false

def Pc.locking : Pc → Bool
  | lockAsleep _ | lockReady _ => true
  | out | waitAsleep _ | waitReady _ => false

namespace Intq

structure Inv (q : Intq τ) : Prop extends q.Bounded where
  holds : ∀ {t}, q.holder = some t ↔ (q.pc t).holds = true
  value : q.lock.value = if q.holder = none then 1 else 0
  nodup : q.lock.waiters.Nodup
  queued : ∀ {t}, t ∈ q.lock.waiters ↔ ∃ c, q.pc t = .lockAsleep c
  recorded : ∀ {m t}, q.waiter m = some t ↔ ∃ c : Call, c.waitsFor = m ∧ q.pc t = .waitAsleep c
  stuck : ∀ {t c}, q.pc t = .waitAsleep c → q.mustWait c.waitsFor = true

/-- The thread that waits for the condition, if any, is woken. -/
def signalled (q : Intq τ) (m : Member) : Intq τ :=
  { q with waiter := update q.waiter m none, pc := fun t => (q.pc t).wake m }

def transferred (q : Intq τ) (c : Call) : Intq τ := (q.moved c).signalled c.signals

variable [DecidableEq τ]

/-- The thread gets the lock, and waits. -/
def waits (q : Intq τ) (t : τ) (c : Call) : Intq τ :=
  { q with
    lock := { q.lock with value := 0 }
    holder := some t
    waiter := update q.waiter c.waitsFor (some t)
    pc := update q.pc t (.waitAsleep c) }

/-- It sleeps until the lock is released. -/
def queues (q : Intq τ) (t : τ) (c : Call) : Intq τ :=
  { q with
    lock := { q.lock with waiters := q.lock.waiters ++ [t] }
    pc := update q.pc t (.lockAsleep c) }

def sleeps (q : Intq τ) (t : τ) (c : Call) : Intq τ :=
  if q.holder = none then q.waits t c else q.queues t c

/-- The thread has released the lock. -/
def left (q : Intq τ) (t : τ) : Intq τ :=
  { q with
    holder := none
    lock := { value := 1, waiters := q.lock.waiters.tail }
    pc := fun u => if u = t then .out else
      if q.lock.waiters.head? = some u then (q.pc u).woken else q.pc u }

def turn (q : Intq τ) (t : τ) (c : Call) : Intq τ :=
  if q.mustWait c.waitsFor then q.sleeps t c else q.transferred c

end Intq

section
variable [DecidableEq τ] {q : Intq τ} {t : τ} {c : Call} {m : Member} {Q : Unit → Intq τ → Prop}

theorem wp_threadUnblock : wp (threadUnblock t) Q q ↔
    (q.pc t).asleep = true ∧ Q () (q.setPc t (q.pc t).woken) := by
  cases h : q.pc t <;> simp [threadUnblock, h, Pc.asleep, Pc.woken]

theorem wp_wait : wp (wait t c) Q q ↔ q.mustWait c.waitsFor = true ∧
    Q () { q.setPc t (.waitAsleep c) with
      waiter := update q.waiter c.waitsFor (some t) } := by
  simp [wait]

/-- The thread that is woken is the only one that waits for the condition. -/
theorem wp_signal (hrec : ∀ {t}, q.waiter m = some t ↔
      ∃ c : Call, c.waitsFor = m ∧ q.pc t = .waitAsleep c) :
    wp (signal m) Q q ↔ q.mustWait m = false ∧ Q () (q.signalled m) := by
  simp only [signal, wp_bind, wp_get, wp_assert, Bool.not_eq_true']
  refine and_congr_right fun _ => ?_
  have hwake : ∀ {u}, q.waiter m ≠ some u → (q.pc u).wake m = q.pc u := by
    intro u hu
    cases hp : q.pc u with
    | waitAsleep c => exact if_neg fun hc => hu (hrec.mpr ⟨c, hc, hp⟩)
    | out | lockAsleep c | lockReady c | waitReady c => rfl
  cases hw : q.waiter m with
  | none =>
    have : q.signalled m = q := by
      simp only [Intq.signalled, ← hw, update_eq_self]
      congr 1
      exact funext fun u => hwake (by rw [hw]; exact Option.some_ne_none u |>.symm)
    rw [this, wp_pure]
  | some t =>
    obtain ⟨c, hc, hp⟩ := hrec.mp hw
    have : { q.setPc t (q.pc t).woken with
        waiter := update q.waiter m none } = q.signalled m := by
      simp only [Intq.signalled, Intq.setPc]
      congr 1
      funext u
      rcases eq_or_ne u t with rfl | hne
      · simp [hp, Pc.woken, Pc.wake, hc]
      · grind
    simp only [wp_bind, wp_threadUnblock, wp_modify]
    simp only [hp, Pc.asleep, true_and]
    rw [hp] at this
    exact iff_of_eq (congrArg _ this)

namespace Intq.Inv

theorem wp_semaDown (h : q.Inv) : wp (semaDown t c) Q q ↔
    (q.holder = none → q.mustWait c.waitsFor = true) ∧ Q () (q.sleeps t c) := by
  by_cases hfree : q.holder = none
  · have hv : q.lock.value = 1 := by rw [h.value, if_pos hfree]
    simp only [semaDown, wp_bind, wp_get, Sema.down, hv, Nat.one_ne_zero, if_false, wp_set, if_true,
      wp_modify, wp_wait, Intq.sleeps, hfree, forall_const, Nat.sub_self, Intq.waits]
    rfl
  · have hv : q.lock.value = 0 := by rw [h.value, if_neg hfree]
    simp only [semaDown, wp_bind, wp_get, Sema.down, hv, wp_set, if_true, Bool.false_eq_true,
      if_false, wp_modify, Intq.sleeps, hfree, false_imp_iff, true_and]
    simp only [Intq.queues, hv]
    rfl

theorem wp_transfer (h : q.Inv) (hgo : q.mustWait c.waitsFor = false) :
    wp (transfer c) Q q ↔ Q () (q.transferred c) := by
  have hrec : ∀ {t}, (q.moved c).waiter c.signals = some t ↔
      ∃ c' : Call, c'.waitsFor = c.signals ∧ (q.moved c).pc t = .waitAsleep c' := by
    cases c <;> exact h.recorded
  rw [transfer, wp_bind, wp_modify, wp_signal hrec, Intq.transferred]
  exact and_iff_right (h.moved_signals hgo)

theorem wp_loop (h : q.Inv) (ht : q.pc t = .out) : wp (loop t c) Q q ↔ Q () (q.turn t c) := by
  have hnot : q.holder ≠ some t := by
    rw [ne_eq, h.holds, ht]
    exact Bool.false_ne_true
  rw [loop, wp_bind, wp_get, Intq.turn]
  cases hm : q.mustWait c.waitsFor with
  | false => exact h.wp_transfer hm
  | true => grind [lockAcquire, wp_bind, wp_get, wp_assert, h.wp_semaDown]

theorem wp_handler (h : q.Inv) : wp (handler c) Q q ↔
    q.mustWait c.waitsFor = false ∧ Q () (q.transferred c) := by
  simp only [handler, wp_bind, wp_get, wp_assert, Bool.not_eq_true']
  exact and_congr_right fun hgo => h.wp_transfer hgo

theorem wp_lockRelease (h : q.Inv) (ht : q.pc t = .waitReady c) :
    wp (lockRelease t) (fun _ q' => Q () (q'.setPc t .out)) q ↔ Q () (q.left t) := by
  have hheld : q.holder = some t := by
    rw [h.holds, ht]
    rfl
  have hv : q.lock.value = 0 := by rw [h.value, hheld, if_neg (Option.some_ne_none t)]
  simp only [lockRelease, wp_bind, wp_get, wp_assert, hheld, decide_true, true_and, Sema.up, hv,
    wp_set]
  cases hw : q.lock.waiters with
  | nil =>
    simp only [List.head?_nil, wp_pure, Intq.left, Intq.setPc, hw]
    refine iff_of_eq (congrArg _ ?_)
    congr 1
    funext u
    rcases eq_or_ne u t with rfl | hne
    · rw [update_self, if_pos rfl]
    · simp [hne]
  | cons u l =>
    obtain ⟨c', hu⟩ := h.queued.mp (hw ▸ List.mem_cons_self .. : u ∈ q.lock.waiters)
    simp only [List.head?_cons, wp_threadUnblock, hu, Pc.asleep, true_and, Intq.left, Intq.setPc, hw]
    refine iff_of_eq (congrArg _ ?_)
    congr 1
    funext v
    rcases eq_or_ne v t with rfl | hne
    · rw [update_self, if_pos rfl]
    · grind

end Intq.Inv

end

end Pintos.Devices
