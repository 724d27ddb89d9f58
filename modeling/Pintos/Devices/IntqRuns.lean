import Pintos.Devices.IntqInv

/- Runs of an interrupt queue: one consumer and one producer, and several threads on one
   side.

   The lock is there so that one thread at a time waits. A thread tests the condition and
   then acquires the lock, which can sleep, and the condition is not tested again before
   `wait` asserts that it is false. Both results below ask that this does not happen at
   the wrong time. -/
namespace Pintos.Devices

open Lib Function
open Vm (Byte)

variable {τ : Type} {e : IntqEvent τ} {m : Member} {p : Pc} {u : τ}

/-! One consumer and one producer. -/

/-- The thread that makes such calls; none if an interrupt handler does. -/
def Call.side (consumer producer : Option τ) : Call → Option τ
  | getc => consumer
  | putc _ => producer

/-- The call that a thread is inside of. -/
def Pc.call : Pc → Option Call
  | out => none
  | lockAsleep c | lockReady c | waitAsleep c | waitReady c => some c

theorem Pc.wake_call : (p.wake m).call = p.call := by
  cases p with
  | waitAsleep c => rw [wake]; split <;> rfl
  | out | lockAsleep c | lockReady c | waitReady c => rfl

/-- The bytes that a call has yet to add. -/
def Pc.bytes : Pc → List Byte
  | out => []
  | lockAsleep c | lockReady c | waitAsleep c | waitReady c => c.bytes

theorem Pc.wake_bytes : (p.wake m).bytes = p.bytes := by
  cases p with
  | waitAsleep c => rw [wake]; split <;> rfl
  | out | lockAsleep c | lockReady c | waitReady c => rfl

theorem Pc.wake_eq_waitReady {c : Call} : p.wake m = waitReady c ↔
    p = waitReady c ∨ p = waitAsleep c ∧ c.waitsFor = m := by
  cases p with
  | waitAsleep d => grind [wake]
  | out | lockAsleep d | lockReady d | waitReady d => simp [wake]

namespace Intq

/-- Each side makes its calls one after the other, a handler only where it need not sleep. -/
def OneEach (consumer producer : Option τ) (q : Intq τ) : IntqEvent τ → Prop
  | .call t c => c.side consumer producer = some t ∧ q.pc t = .out
  | .resume t => (q.pc t).ready = true
  | .handler c => c.side consumer producer = none ∧ q.mustWait c.waitsFor = false

/-- If both sides are threads, a call that has to wait finds the lock free. -/
def LockFree (consumer producer : Option τ) (q : Intq τ) : IntqEvent τ → Prop
  | .call _ c => consumer ≠ none → producer ≠ none → q.mustWait c.waitsFor = true → q.holder = none
  | .resume _ | .handler _ => True

/-- What the producer has passed and could not add yet. -/
def pending (producer : Option τ) (q : Intq τ) : List Byte :=
  match producer with
  | none => []
  | some t => (q.pc t).bytes

/-- Of one consumer and one producer, at most one is inside of the functions, or one waits
    and the other has been woken. -/
structure Calm (consumer producer : Option τ) (q : Intq τ) : Prop where
  unlocked : ∀ t, (q.pc t).locking = false
  side : ∀ {t c}, q.pc t = .waitAsleep c ∨ q.pc t = .waitReady c → c.side consumer producer = some t
  ready : ∀ {t c}, q.pc t = .waitReady c → q.mustWait c.waitsFor = false

/-- Nothing is lost, and nothing changes places. -/
def InOrder (q : Intq τ) (rest : List Byte) : Prop := q.passed = q.returned ++ q.contents ++ rest

section
variable {consumer producer : Option τ} {q q' : Intq τ} {t : τ} {c : Call} {rest : List Byte}

theorem OneEach.legal (he : q.OneEach consumer producer e) : q.Legal e := by
  cases e with
  | call t c => exact he.2
  | resume t => exact he
  | handler c => exact he.2

theorem InOrder.pass (h : q.InOrder rest) : (q.pass c).InOrder (rest ++ c.bytes) := by
  show q.passed ++ c.bytes = q.returned ++ q.contents ++ (rest ++ c.bytes)
  rw [h, List.append_assoc _ rest]

theorem InOrder.transferred (hq : q.Inv) (hgo : q.mustWait c.waitsFor = false)
    (h : q.InOrder (c.bytes ++ rest)) : (q.transferred c).InOrder rest := by
  show (q.moved c).passed = (q.moved c).returned ++ (q.moved c).contents ++ rest
  rw [hq.contents_moved hgo, moved_passed, h, List.append_assoc _ c.bytes]

theorem pending_transferred : pending producer (q.transferred c) = pending producer q := by
  cases producer with
  | none => rfl
  | some t => simp only [pending, Intq.transferred, signalled, moved_pc, Pc.wake_bytes]

/-- What a call that need not wait adds comes after everything else. -/
theorem pending_comm (hidle : ∀ b, c = .putc b → pending producer q = []) :
    pending producer q ++ c.bytes = c.bytes ++ pending producer q := by
  cases c with
  | getc => rw [Call.bytes, List.append_nil, List.nil_append]
  | putc b => rw [hidle b rfl, List.append_nil, List.nil_append]

theorem Calm.transferred (h : q.Calm consumer producer) (hq : q.Inv)
    (hgo : q.mustWait c.waitsFor = false)
    (hnot : ∀ u d, q.pc u = .waitReady d → d.waitsFor ≠ c.waitsFor) :
    (q.transferred c).Calm consumer producer where
  unlocked t := by simp [Intq.transferred, signalled, h.unlocked t]
  side := by
    intro u d hp
    simp only [Intq.transferred, signalled, moved_pc, Pc.wake_eq_waitReady,
      Pc.wake_eq_waitAsleep] at hp
    rcases hp with ⟨hp, -⟩ | hp | ⟨hp, -⟩
    · exact h.side (Or.inl hp)
    · exact h.side (Or.inr hp)
    · exact h.side (Or.inl hp)
  ready := by
    intro u d hp
    simp only [Intq.transferred, signalled, moved_pc, Pc.wake_eq_waitReady] at hp
    have hd : d.waitsFor = c.signals := by grind [Call.waitsFor_of_ne]
    rw [hd]
    exact hq.moved_signals hgo

theorem Calm.not_ready {d : Call} (h : q.Calm consumer producer)
    (hnot : ∀ u, c.side consumer producer = some u → q.pc u = .out) (hp : q.pc u = .waitReady d) :
    d.waitsFor ≠ c.waitsFor := fun hsame => by
  have hside : c.side consumer producer = d.side consumer producer := by
    cases c <;> cases d <;> first | rfl | cases hsame
  have hout := hnot u (hside.trans (h.side (Or.inr hp)))
  rw [hp] at hout
  cases hout

theorem pending_nil (hidle : ∀ u, producer = some u → q.pc u = .out) :
    pending producer q = [] := by
  cases producer with
  | none => rfl
  | some u => simp only [pending, hidle u rfl, Pc.bytes]

/-- A call that need not wait, by a side that is outside of the functions. -/
theorem Calm.moves (h : q.Calm consumer producer) (hq : q.Inv)
    (hf : q.InOrder (pending producer q)) (hgo : q.mustWait c.waitsFor = false)
    (hidle : ∀ u, c.side consumer producer = some u → q.pc u = .out) :
    ((q.pass c).transferred c).Calm consumer producer ∧
      ((q.pass c).transferred c).InOrder (pending producer ((q.pass c).transferred c)) := by
  have hcalm : (q.pass c).Calm consumer producer := ⟨h.unlocked, h.side, h.ready⟩
  refine ⟨hcalm.transferred (hq.pass c) hgo fun u d hp => h.not_ready hidle hp, ?_⟩
  rw [pending_transferred]
  refine InOrder.transferred (hq.pass c) hgo ?_
  show (q.pass c).InOrder (c.bytes ++ pending producer q)
  rw [← pending_comm fun b hb => pending_nil fun u hu => hidle u (by rw [hb]; exact hu)]
  exact hf.pass

/-- The lock is free for a side that has to wait. With a handler on the other side nobody
    else can have it. -/
theorem Calm.lock_free (h : q.Calm consumer producer) (hq : q.Inv) (ht : q.pc t = .out)
    (hside : c.side consumer producer = some t)
    (hfree : consumer ≠ none → producer ≠ none → q.holder = none) : q.holder = none := by
  by_contra hheld
  obtain ⟨u, hu⟩ := Option.ne_none_iff_exists'.mp hheld
  have hholds := hq.holds.mp hu
  obtain ⟨d, hd⟩ : ∃ d, q.pc u = .waitAsleep d ∨ q.pc u = .waitReady d := by
    cases hp : q.pc u with
    | waitAsleep d => exact ⟨d, Or.inl rfl⟩
    | waitReady d => exact ⟨d, Or.inr rfl⟩
    | out | lockAsleep d | lockReady d =>
      rw [hp] at hholds
      cases hholds
  have hu' := h.side hd
  have hne : u ≠ t := by grind
  -- the two calls are on different sides, so both sides are threads
  cases c <;> cases d <;> simp only [Call.side] at hside hu'
  · exact hne (Option.some.inj (hu'.symm.trans hside))
  · exact hheld (hfree (by simp [hside]) (by simp [hu']))
  · exact hheld (hfree (by simp [hu']) (by simp [hside]))
  · exact hne (Option.some.inj (hu'.symm.trans hside))

theorem calm_intqInit (buf : Nat → Byte) : (intqInit buf : Intq τ).Calm consumer producer where
  unlocked _ := rfl
  side hp := by rcases hp with hp | hp <;> cases hp
  ready hp := by cases hp

theorem inOrder_intqInit (buf : Nat → Byte) :
    (intqInit buf : Intq τ).InOrder (pending producer (intqInit buf : Intq τ)) := by
  rw [pending_nil fun _ _ => rfl, InOrder]
  simp [intqInit, contents, count, ringCount, ringContents]

variable [DecidableEq τ]

theorem pending_waits (ht : q.pc t = .out) (hside : c.side consumer producer = some t) :
    pending producer ((q.pass c).waits t c) = pending producer q ++ c.bytes := by
  cases c with
  | getc =>
    rw [Call.bytes, List.append_nil]
    cases producer with
    | none => rfl
    | some u =>
      simp only [pending, waits]
      rcases eq_or_ne u t with rfl | hne
      · rw [update_self, ht]
        rfl
      · rw [update_of_ne hne]
        rfl
  | putc b =>
    have hprod : producer = some t := hside
    simp only [hprod, pending, waits, update_self, ht, Pc.bytes, List.nil_append]

section
variable (h : q.Calm consumer producer)
include h

theorem Calm.waits (hf : q.InOrder (pending producer q)) (ht : q.pc t = .out)
    (hside : c.side consumer producer = some t) : ((q.pass c).waits t c).Calm consumer producer ∧
      ((q.pass c).waits t c).InOrder (pending producer ((q.pass c).waits t c)) := by
  refine ⟨⟨fun u => ?_, fun {u d} hp => ?_, fun {u d} hp => ?_⟩, ?_⟩
  · simp only [Intq.waits]
    rcases eq_or_ne u t with rfl | hne
    · rw [update_self]
      rfl
    · rw [update_of_ne hne]
      exact h.unlocked u
  · simp only [Intq.waits] at hp
    rcases eq_or_ne u t with rfl | hne
    · grind
    · rw [update_of_ne hne] at hp
      exact h.side hp
  · simp only [Intq.waits] at hp
    rcases eq_or_ne u t with rfl | hne
    · rw [update_self] at hp
      cases hp
    · rw [update_of_ne hne] at hp
      exact h.ready hp
  · rw [pending_waits ht hside]
    exact hf.pass

theorem Calm.left_pc (hq : q.Inv) (hne : u ≠ t) : (q.left t).pc u = q.pc u := by
  simp only [Intq.left, if_neg hne]
  refine if_neg fun hu => ?_
  obtain ⟨c, hp⟩ := hq.head_waiters hu
  have := h.unlocked u
  rw [hp] at this
  cases this

theorem Calm.left (hq : q.Inv) : (q.left t).Calm consumer producer := by
  have hout : (q.left t).pc t = .out := if_pos rfl
  refine ⟨fun u => ?_, fun {u d} hp => ?_, fun {u d} hp => ?_⟩
  · rcases eq_or_ne u t with rfl | hne
    · rw [hout]
      rfl
    · rw [h.left_pc hq hne]
      exact h.unlocked u
  · grind [h.left_pc, h.side]
  · rcases eq_or_ne u t with rfl | hne
    · rw [hout] at hp
      cases hp
    · rw [h.left_pc hq hne] at hp
      exact h.ready hp

theorem Calm.pending_left (hq : q.Inv) (ht : q.pc t = .waitReady c) :
    pending producer q = c.bytes ++ pending producer (q.left t) := by
  have hout : (q.left t).pc t = .out := if_pos rfl
  have hside := h.side (Or.inr ht)
  cases c with
  | getc =>
    cases producer with
    | none => rfl
    | some u =>
      simp only [pending, Call.bytes, List.nil_append]
      rcases eq_or_ne u t with rfl | hne
      · rw [hout, ht]
        rfl
      · rw [h.left_pc hq hne]
  | putc b =>
    have hprod : producer = some t := hside
    simp only [hprod, pending, hout, ht, Pc.bytes, List.append_nil]

theorem Calm.goesOn (hq : q.Inv) (hf : q.InOrder (pending producer q))
    (ht : q.pc t = .waitReady c) : ((q.left t).turn t c).Calm consumer producer ∧
      ((q.left t).turn t c).InOrder (pending producer ((q.left t).turn t c)) := by
  have hleft := hq.left ht
  have hgo : (q.left t).mustWait c.waitsFor = false := h.ready ht
  rw [turn_go hgo]
  refine ⟨(h.left hq).transferred hleft hgo fun u d hp => ?_, ?_⟩
  · have hheld : (q.left t).holder = some u := by
      rw [hleft.holds, hp]
      rfl
    cases hheld
  · rw [pending_transferred]
    refine InOrder.transferred hleft hgo ?_
    rw [← h.pending_left hq ht]
    exact hf

/-- **One step keeps the order**, if the lock is free for a call that has to wait. -/
theorem Calm.step (hq : q.Inv) (hf : q.InOrder (pending producer q))
    (he : q.OneEach consumer producer e) (hfree : q.LockFree consumer producer e)
    (hs : q.step e = some q') : q'.Calm consumer producer ∧ q'.InOrder (pending producer q') := by
  cases e with
  | call t c =>
    obtain ⟨hside, ht⟩ := he
    rw [hq.step_call ht] at hs
    cases hs
    cases hm : q.mustWait c.waitsFor with
    | false =>
      rw [turn_go (q := q.pass c) hm]
      refine h.moves hq hf hm fun u hu => ?_
      cases hside.symm.trans hu
      exact ht
    | true =>
      have hnone := h.lock_free hq ht hside fun hc hp => hfree hc hp hm
      rw [turn_wait (q := q.pass c) hm, sleeps_free (q := q.pass c) hnone]
      exact h.waits hf ht hside
  | resume t =>
    obtain ⟨c, hp | hp⟩ := ready_cases he
    · have := h.unlocked t
      rw [hp] at this
      cases this
    · rw [hq.step_waitReady hp] at hs
      cases hs
      exact h.goesOn hq hf hp
  | handler c =>
    obtain ⟨hside, hgo⟩ := he
    rw [hq.step_handler hgo] at hs
    cases hs
    refine h.moves hq hf hgo fun u hu => ?_
    cases hside.symm.trans hu

/-- What a queue is for. -/
structure Delivers (consumer producer : Option τ) (q : Intq τ) : Prop where
  returned : q.returned <+: q.passed
  lossless : q.passed = q.returned ++ q.contents ++ pending producer q
  room : q.contents.length ≤ 63
  blocks : ∀ t c, q.pc t = .lockAsleep c ∨ q.pc t = .waitAsleep c → q.mustWait c.waitsFor = true
  wakes : ∀ t c e c', q.pc t = .waitAsleep c → q.OneEach consumer producer e → e.made = some c' →
    c'.waitsFor ≠ c.waitsFor → ∃ q', q.step e = some q' ∧ q'.pc t = .waitReady c
  asserts : ∀ e, q.OneEach consumer producer e → ∃ q', q.step e = some q'

theorem Calm.delivers (hq : q.Inv) (hf : q.InOrder (pending producer q)) :
    q.Delivers consumer producer where
  returned := ⟨q.contents ++ pending producer q, by rw [← List.append_assoc]; exact hf.symm⟩
  lossless := hf
  room := by
    rw [contents, ringContents_length]
    exact Nat.le_of_lt_succ hq.count_lt
  blocks t c hp := by
    rcases hp with hp | hp
    · have := h.unlocked t
      rw [hp] at this
      cases this
    · exact hq.stuck hp
  wakes _ _ _ _ ht he hmade hother := hq.step_wakes ht he.legal hmade hother
  asserts e he := hq.step_isSome he.legal fun t c _ hp => by
    have := h.unlocked t
    rw [hp] at this
    cases this

end

/-- **Interrupt queues deliver every byte in order**, between one consumer and one producer,
    if no call has to wait for the lock. With a handler on one side none does. -/
theorem intq_delivers {buf : Nat → Byte} (hrun : Reach Intq.step
      (fun q e => q.OneEach consumer producer e ∧ q.LockFree consumer producer e)
      (intqInit buf) q) : q.Delivers consumer producer := by
  obtain ⟨hq, hcalm, hf⟩ := hrun.inv
    (I := fun q => q.Inv ∧ q.Calm consumer producer ∧ q.InOrder (pending producer q))
    ⟨inv_intqInit, calm_intqInit buf, inOrder_intqInit buf⟩ fun _ _ _ ⟨hq, hcalm, hf⟩ ⟨he, hfree⟩ hs =>
      ⟨hq.step he.legal hs, hcalm.step hq hf he hfree hs⟩
  exact hcalm.delivers hq hf

end

instance (consumer producer : Option Nat) (q : Intq Nat) :
    (e : IntqEvent Nat) → Decidable (q.OneEach consumer producer e)
  | .call t c => inferInstanceAs (Decidable (c.side consumer producer = some t ∧ q.pc t = .out))
  | .resume t => inferInstanceAs (Decidable ((q.pc t).ready = true))
  | .handler c => inferInstanceAs
      (Decidable (c.side consumer producer = none ∧ q.mustWait c.waitsFor = false))

instance (consumer producer : Option Nat) (q : Intq Nat) :
    (e : IntqEvent Nat) → Decidable (q.LockFree consumer producer e)
  | .call _ c => inferInstanceAs (Decidable (consumer ≠ none → producer ≠ none →
      q.mustWait c.waitsFor = true → q.holder = none))
  | .resume _ | .handler _ => isTrue trivial

/-- Thread 1 waits for the first byte of thread 2, which then fills the queue and waits. -/
def handOver : List (IntqEvent Nat) :=
  [.call 1 .getc, .call 2 (.putc 7), .resume 1] ++ List.replicate 64 (.call 2 (.putc 8)) ++
    [.call 1 .getc, .resume 2, .call 1 .getc]

theorem intq_delivers_handOver : ∃ q, Reach Intq.step
      (fun q e => q.OneEach (some 1) (some 2) e ∧ q.LockFree (some 1) (some 2) e)
      (intqInit fun _ => 0 : Intq Nat) q ∧
    (q.returned = [7, 8, 8] ∧ q.passed.length = 65) ∧ q.Delivers (some 1) (some 2) := by
  obtain ⟨q, hq, hfacts⟩ := exists_reach Intq.step
    (C := fun q e => q.OneEach (some 1) (some 2) e ∧ q.LockFree (some 1) (some 2) e)
    (c := fun q e => decide (q.OneEach (some 1) (some 2) e ∧ q.LockFree (some 1) (some 2) e))
    (intqInit fun _ => 0) handOver
    (fun q => decide (q.returned = [7, 8, 8] ∧ q.passed.length = 65))
    (fun _ _ => of_decide_eq_true) (by decide +kernel) (by decide +kernel)
  exact ⟨q, hq, of_decide_eq_true hfacts, intq_delivers hq⟩

/-- Thread 2 fills the queue while thread 1, which it has woken, still has the lock, and
    sleeps in `lock_acquire`. Thread 1 then empties the queue and takes the lock again. -/
def overtaken : List (IntqEvent Nat) :=
  [.call 1 .getc] ++ List.replicate 64 (.call 2 (.putc 8)) ++ [.resume 1] ++
    List.replicate 63 (.call 1 .getc) ++ [.resume 2]

/-- Thread 2 sleeps in `intq_putc` with the queue empty, and thread 1 waits for it. -/
theorem intq_overtaken : ∃ q, Reach Intq.step (fun q e => q.OneEach (some 1) (some 2) e)
      (intqInit fun _ => 0 : Intq Nat) q ∧
    (q.pc 1 = .waitAsleep .getc ∧ q.pc 2 = .lockAsleep (.putc 8) ∧ q.empty = true) ∧
    ¬q.Delivers (some 1) (some 2) := by
  obtain ⟨q, hq, hfacts⟩ := exists_reach Intq.step
    (C := fun q e => q.OneEach (some 1) (some 2) e)
    (c := fun q e => decide (q.OneEach (some 1) (some 2) e))
    (intqInit fun _ => 0) overtaken
    (fun q => decide ((q.pc 1 = .waitAsleep .getc ∧ q.pc 2 = .lockAsleep (.putc 8) ∧
      q.empty = true) ∧ q.full = false))
    (fun _ _ => of_decide_eq_true) (by decide +kernel) (by decide +kernel)
  obtain ⟨hfacts, hfull⟩ := of_decide_eq_true hfacts
  refine ⟨q, hq, hfacts, fun h => ?_⟩
  have := h.blocks 2 _ (Or.inl hfacts.2.1)
  rw [show q.mustWait (Call.waitsFor (.putc 8)) = q.full from rfl, hfull] at this
  cases this

/-! Several threads on one side, and handlers on the other. -/

/-- The threads make the calls that wait for `m`, the handlers the others. -/
def OneWay (m : Member) (q : Intq τ) : IntqEvent τ → Prop
  | .call t c => c.waitsFor = m ∧ q.pc t = .out
  | .resume t => (q.pc t).ready = true
  | .handler c => c.waitsFor ≠ m ∧ q.mustWait c.waitsFor = false

/-- While a thread is in `lock_acquire`, handlers only wake the one that waits. -/
def Paced (m : Member) (q : Intq τ) : IntqEvent τ → Prop
  | .handler _ => (∃ t, (q.pc t).locking = true) → q.waiter m ≠ none
  | .call _ _ | .resume _ => True

/-- All threads are inside of the same kind of call. -/
def Uniform (m : Member) (q : Intq τ) : Prop := ∀ t c, (q.pc t).call = some c → c.waitsFor = m

/-- While a thread is in `lock_acquire` its condition is false, or is true once and the thread
    that has the lock has been woken for that. -/
def Reserved (m : Member) (q : Intq τ) : Prop :=
  (∃ t, (q.pc t).locking = true) → q.avail m = 0 ∨ q.avail m = 1 ∧ ∃ t c, q.pc t = .waitReady c

section
variable {m : Member} {q q' : Intq τ} {t : τ} {c : Call}

theorem OneWay.legal (he : q.OneWay m e) : q.Legal e := by
  cases e with
  | call t c => exact he.2
  | resume t => exact he
  | handler c => exact he.2

theorem Uniform.transferred (h : q.Uniform m) : (q.transferred c).Uniform m := by
  intro t d hd
  simp only [Intq.transferred, signalled, moved_pc, Pc.wake_call] at hd
  exact h t d hd

theorem locking_transferred (hl : ∃ t, ((q.transferred c).pc t).locking = true) :
    ∃ t, (q.pc t).locking = true := by
  obtain ⟨t, ht⟩ := hl
  simp only [Intq.transferred, signalled, moved_pc, Pc.wake_locking] at ht
  exact ⟨t, ht⟩

theorem Reserved.avail_le (h : q.Reserved m) (hl : ∃ u, (q.pc u).locking = true) :
    q.avail m ≤ 1 := by
  rcases h hl with h0 | ⟨h1, -⟩ <;> omega

theorem Reserved.wakes (hq : q.Inv) (hc : c.waitsFor ≠ m) (hgo : q.mustWait c.waitsFor = false)
    (hpaced : (∃ t, (q.pc t).locking = true) → q.waiter m ≠ none) :
    (q.transferred c).Reserved m := by
  intro hl
  have hm : m = c.signals := by cases m <;> cases c <;> first | rfl | exact absurd rfl hc
  obtain ⟨t, ht⟩ := Option.ne_none_iff_exists'.mp (hpaced (locking_transferred hl))
  obtain ⟨d, hd, hp⟩ := hq.recorded.mp ht
  have h0 : q.avail m = 0 := hd ▸ hq.mustWait_iff.mp (hq.stuck hp)
  have hmoved : (q.transferred c).avail c.signals = q.avail c.signals + 1 := (hq.avail_moved hgo).2
  rw [← hm, h0] at hmoved
  refine Or.inr ⟨hmoved, t, d, ?_⟩
  simp only [Intq.transferred, signalled, moved_pc, hp]
  exact if_pos (hd.trans hm)

/-- Once the lock is free, no thread in `lock_acquire` finds its condition true. -/
theorem Reserved.must_wait (h : q.Reserved m) (hq : q.Inv) (hl : (q.pc t).locking = true)
    (hfree : q.holder = none) : q.mustWait m = true := by
  rcases h ⟨t, hl⟩ with h0 | ⟨-, u, d, hp⟩
  · exact hq.mustWait_iff.mpr h0
  · have hheld : q.holder = some u := by
      rw [hq.holds, hp]
      rfl
    rw [hfree] at hheld
    cases hheld

variable [DecidableEq τ]

theorem avail_sleeps : (q.sleeps t c).avail m = q.avail m := by
  rw [sleeps]
  split <;> cases m <;> rfl

theorem sleeps_pc_self : ((q.sleeps t c).pc t).call = some c := by
  rw [sleeps]
  split
  · simp only [waits, update_self, Pc.call]
  · simp only [queues, update_self, Pc.call]

theorem sleeps_pc_of_ne (hne : u ≠ t) : (q.sleeps t c).pc u = q.pc u := by
  rw [sleeps]
  split
  · exact update_of_ne hne ..
  · exact update_of_ne hne ..

theorem Uniform.sleeps (h : q.Uniform m) (hc : c.waitsFor = m) : (q.sleeps t c).Uniform m := by
  intro u d hd
  rcases eq_or_ne u t with rfl | hne
  · rw [sleeps_pc_self] at hd
    cases hd
    exact hc
  · rw [sleeps_pc_of_ne hne] at hd
    exact h u d hd

theorem Reserved.sleeps (hm : q.avail m = 0 ∨ q.avail m = 1 ∧ ∃ u d, u ≠ t ∧ q.pc u = .waitReady d) :
    (q.sleeps t c).Reserved m := by
  intro _
  rw [avail_sleeps]
  rcases hm with h0 | ⟨h1, u, d, hne, hp⟩
  · exact Or.inl h0
  · exact Or.inr ⟨h1, u, d, (sleeps_pc_of_ne hne).trans hp⟩

theorem left_pc_cases (hq : q.Inv) (u : τ) : (q.left t).pc u = .out ∨ (q.left t).pc u = q.pc u ∨
    ∃ d, q.pc u = .lockAsleep d ∧ (q.left t).pc u = .lockReady d := by
  simp only [Intq.left]
  split
  · exact Or.inl rfl
  · split
    next hu =>
      obtain ⟨d, hd⟩ := hq.head_waiters hu
      exact Or.inr (Or.inr ⟨d, hd, by rw [hd]; rfl⟩)
    · exact Or.inr (Or.inl rfl)

theorem Uniform.left (h : q.Uniform m) (hq : q.Inv) : (q.left t).Uniform m := by
  intro u d hd
  rcases left_pc_cases (t := t) hq u with hp | hp | ⟨d', hp, hp'⟩
  · rw [hp] at hd
    cases hd
  · rw [hp] at hd
    exact h u d hd
  · rw [hp'] at hd
    cases hd
    exact h u d (by rw [hp]; rfl)

theorem locking_left (hq : q.Inv) (hl : ∃ u, ((q.left t).pc u).locking = true) :
    ∃ u, (q.pc u).locking = true := by
  obtain ⟨u, hu⟩ := hl
  rcases left_pc_cases (t := t) hq u with hp | hp | ⟨d', hp, hp'⟩
  · rw [hp] at hu
    cases hu
  · exact ⟨u, hp ▸ hu⟩
  · exact ⟨u, by rw [hp]; rfl⟩

/-- A thread takes the only thing that there was, or there was nothing. -/
theorem Reserved.turn (hle : (∃ u, (q.pc u).locking = true) → q.avail m ≤ 1) (hq : q.Inv)
    (hc : c.waitsFor = m) : (q.turn t c).Reserved m := by
  cases hm : q.mustWait c.waitsFor with
  | false =>
    rw [turn_go hm]
    intro hl
    have hmoved : q.avail c.waitsFor = (q.transferred c).avail c.waitsFor + 1 :=
      (hq.avail_moved hm).1
    rw [hc] at hmoved
    have := hle (locking_transferred hl)
    exact Or.inl (by omega)
  | true =>
    rw [turn_wait hm]
    exact Reserved.sleeps (Or.inl (hc ▸ hq.mustWait_iff.mp hm))

theorem Uniform.turn (h : q.Uniform m) (hc : c.waitsFor = m) : (q.turn t c).Uniform m := by
  rw [Intq.turn]
  split
  · exact h.sleeps hc
  · exact h.transferred

/-- **One step keeps the condition false** for the threads in `lock_acquire`. -/
theorem Reserved.step (h : q.Reserved m) (hu : q.Uniform m) (hq : q.Inv) (he : q.OneWay m e)
    (hp : q.Paced m e) (hs : q.step e = some q') : q'.Reserved m ∧ q'.Uniform m := by
  cases e with
  | call t c =>
    obtain ⟨hc, ht⟩ := he
    rw [hq.step_call ht] at hs
    cases hs
    have huniform : (q.pass c).Uniform m := hu
    exact ⟨Reserved.turn h.avail_le (hq.pass c) hc, huniform.turn hc⟩
  | resume t =>
    obtain ⟨c, hp | hp⟩ := ready_cases he
    · have hc : c.waitsFor = m := hu t c (by rw [hp]; rfl)
      obtain ⟨hm, rfl⟩ := (hq.step_lockReady hp).mp hs
      refine ⟨Reserved.sleeps ?_, hu.sleeps hc⟩
      refine (h ⟨t, by rw [hp]; rfl⟩).imp_right fun ⟨h1, u, d, hd⟩ => ⟨h1, u, d, ?_, hd⟩
      rintro rfl
      rw [hp] at hd
      cases hd
    · have hc : c.waitsFor = m := hu t c (by rw [hp]; rfl)
      rw [hq.step_waitReady hp] at hs
      cases hs
      refine ⟨Reserved.turn (fun hl => ?_) (hq.left hp) hc, (hu.left hq).turn hc⟩
      exact h.avail_le (locking_left hq hl)
  | handler c =>
    obtain ⟨hc, hgo⟩ := he
    rw [hq.step_handler hgo] at hs
    cases hs
    have huniform : (q.pass c).Uniform m := hu
    exact ⟨Reserved.wakes (hq.pass c) hc hgo hp, huniform.transferred⟩

/-- **The assertion of `wait` holds**, and each thread that waits is the one that is recorded,
    for any number of threads on one side, if handlers are paced while one is in
    `lock_acquire`. The second part needs no such condition. -/
theorem intq_waits {buf : Nat → Byte} : (Reach Intq.step (fun q e => q.OneWay m e ∧ q.Paced m e)
      (intqInit buf) q → ∀ e, q.OneWay m e → ∃ q', q.step e = some q') ∧
    (Reach Intq.step (fun q e => q.OneWay m e) (intqInit buf) q →
      ∀ t c, q.pc t = .waitAsleep c → q.waiter c.waitsFor = some t) := by
  constructor
  · intro hrun e he
    obtain ⟨hq, h, hu⟩ := hrun.inv (I := fun q => q.Inv ∧ q.Reserved m ∧ q.Uniform m)
      ⟨inv_intqInit, fun ⟨_, hl⟩ => Bool.noConfusion hl, fun _ _ hc => by cases hc⟩
      fun _ _ _ ⟨hq, h, hu⟩ ⟨he, hp⟩ hs => ⟨hq.step he.legal hs, h.step hu hq he hp hs⟩
    refine hq.step_isSome he.legal fun t c _ hp hfree => ?_
    have hc : c.waitsFor = m := hu t c (by rw [hp]; rfl)
    rw [hc]
    exact h.must_wait hq (t := t) (by rw [hp]; rfl) hfree
  · intro hrun t c ht
    have hq := hrun.inv inv_intqInit fun _ _ _ hq he hs => hq.step he.legal hs
    exact hq.recorded.mpr ⟨c, rfl, ht⟩

end

instance (m : Member) (q : Intq Nat) : (e : IntqEvent Nat) → Decidable (q.OneWay m e)
  | .call t c => inferInstanceAs (Decidable (c.waitsFor = m ∧ q.pc t = .out))
  | .resume t => inferInstanceAs (Decidable ((q.pc t).ready = true))
  | .handler c => inferInstanceAs (Decidable (c.waitsFor ≠ m ∧ q.mustWait c.waitsFor = false))

/-- Threads 1 and 2 want a byte each. The second byte comes when thread 2 is recorded. -/
def inTurn : List (IntqEvent Nat) :=
  [.call 1 .getc, .call 2 .getc, .handler (.putc 7), .resume 1, .resume 2, .handler (.putc 8)]

theorem intq_waits_inTurn : ∃ q,
    Reach Intq.step (fun q e => q.OneWay .notEmpty e ∧ q.Paced .notEmpty e)
      (intqInit fun _ => 0 : Intq Nat) q ∧
    (q.returned = [7] ∧ q.pc 2 = .waitReady .getc) ∧
    (∀ e, q.OneWay .notEmpty e → ∃ q', q.step e = some q') ∧
    ∀ t c, q.pc t = .waitAsleep c → q.waiter c.waitsFor = some t := by
  obtain ⟨q, hq, hfacts⟩ := exists_reach Intq.step
    (C := fun q e => q.OneWay .notEmpty e ∧ q.Paced .notEmpty e)
    (c := fun q e => decide (q.OneWay .notEmpty e) && match e with
      | .handler _ => decide (q.waiter .notEmpty ≠ none)
      | .call _ _ | .resume _ => true)
    (intqInit fun _ => 0) inTurn
    (fun q => decide (q.returned = [7] ∧ q.pc 2 = .waitReady .getc))
    (fun q e hc => by
      rw [Bool.and_eq_true] at hc
      refine ⟨of_decide_eq_true hc.1, ?_⟩
      cases e with
      | handler c => exact fun _ => of_decide_eq_true hc.2
      | call t c | resume t => trivial) (by decide +kernel) (by decide +kernel)
  exact ⟨q, hq, of_decide_eq_true hfacts, intq_waits.1 hq, intq_waits.2 (hq.mono fun _ _ h => h.1)⟩

/-- The second byte comes before thread 1 has released the lock. -/
def early : List (IntqEvent Nat) :=
  [.call 1 .getc, .call 2 .getc, .handler (.putc 7), .handler (.putc 8), .resume 1]

/-- Thread 2 gets the lock while there is a byte, and the assertion of `wait` fails. -/
theorem intq_wait_fails : ∃ q, Reach Intq.step (fun q e => q.OneWay .notEmpty e)
      (intqInit fun _ => 0 : Intq Nat) q ∧
    q.OneWay .notEmpty (.resume 2) ∧ q.empty = false ∧ (q.step (.resume 2)).isNone = true := by
  obtain ⟨q, hq, hfacts⟩ := exists_reach Intq.step
    (C := fun q e => q.OneWay .notEmpty e) (c := fun q e => decide (q.OneWay .notEmpty e))
    (intqInit fun _ => 0) early
    (fun q => decide (q.OneWay .notEmpty (.resume 2)) && decide (q.empty = false ∧
      (q.step (.resume 2)).isNone = true))
    (fun _ _ => of_decide_eq_true) (by decide +kernel) (by decide +kernel)
  rw [Bool.and_eq_true] at hfacts
  exact ⟨q, hq, of_decide_eq_true hfacts.1, of_decide_eq_true hfacts.2⟩

end Intq

end Pintos.Devices
