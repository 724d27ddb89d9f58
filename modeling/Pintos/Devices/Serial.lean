import Pintos.Devices.IntqInv

/- Output to the serial port, `devices/serial.c`.

   Interrupts are off in `serial_putc` and `serial_flush`. Only a caller that had them on may
   sleep, in `intq_putc`: its call is one step up to where it sleeps, and one more each time
   it goes on. For other callers, and for the interrupt handler, the queue is used as a
   handler uses it: what would have to sleep has no outcome. `accepted` is not part of the
   kernel. A byte is accepted when it is written to the transmit register right away, or
   added to the queue.

   Correspondence (C ↔ Lean):
     bytes written to `THR_REG`         ↔ `Serial.written`
     `init_poll`, `putc_poll`           ↔ `initPoll`, `putcPoll`
     `putc_poll (intq_getc (&txq))`     ↔ `pollQueue`
     `serial_init_queue`                ↔ `SerialEvent.initPoll`, then `initQueue`
     `serial_putc`                      ↔ `SerialEvent.putc`, `resume`; `putcOff`
     `serial_interrupt`, `serial_flush` ↔ `SerialEvent.interrupt`, `flush`
   `putc_poll` waits for the transmitter. What is received is left out, and so is
   `write_ier`: an interrupt may come at any time. -/
namespace Pintos.Devices

open Lib Function
open Vm (Byte)

variable {τ : Type}

inductive SerialMode where
  | uninit
  | poll
  | queue
  deriving DecidableEq

structure Serial (τ : Type) where
  mode : SerialMode
  txq : Intq τ
  written : List Byte
  accepted : List Byte

/-- The thread of `putc` has interrupts on. The transmitter accepts `ready` bytes. -/
inductive SerialEvent (τ : Type) where
  | initPoll
  | initQueue
  | putc (t : τ) (byte : Byte)
  | resume (t : τ)
  | putcOff (byte : Byte)
  | interrupt (ready : Nat)
  | flush

def serialInit : Serial τ := ⟨.uninit, intqInit fun _ => 0, [], []⟩

namespace Serial

def initPoll (x : Serial τ) : Serial τ :=
  if x.mode = .uninit then { x with txq := intqInit x.txq.buf, mode := .poll } else x

/-- The byte is accepted at once. -/
def putcPoll (x : Serial τ) (byte : Byte) : Serial τ :=
  { x.initPoll with written := x.written ++ [byte], accepted := x.accepted ++ [byte] }

variable [DecidableEq τ]

def pollQueue (x : Serial τ) : Option (Serial τ) :=
  (x.txq.step (.handler .getc)).map fun q =>
    { x with txq := q, written := x.written ++ [x.txq.buf x.txq.tail] }

/-- At most `n` turns of the loop that empties the queue. -/
def drain : Nat → Serial τ → Option (Serial τ)
  | 0, x => some x
  | n + 1, x => if x.txq.empty then some x else x.pollQueue.bind (drain n)

/-- `intq_putc` has returned, or the thread sleeps. -/
def entered (x : Serial τ) (t : τ) (byte : Byte) (q : Intq τ) : Serial τ :=
  { x with txq := q, accepted := if q.pc t = .out then x.accepted ++ [byte] else x.accepted }

def step (x : Serial τ) : SerialEvent τ → Option (Serial τ)
  | .initPoll => some x.initPoll
  | .initQueue => if x.mode = .poll then some { x with mode := .queue } else none
  | .putc t byte =>
    if x.mode = .queue then (x.txq.step (.call t (.putc byte))).map (x.entered t byte)
    else some (x.putcPoll byte)
  | .resume t =>
    match x.txq.pc t with
    | .lockReady (.putc byte) | .waitReady (.putc byte) =>
      (x.txq.step (.resume t)).map (x.entered t byte)
    | _ => none
  | .putcOff byte =>
    if x.mode = .queue then
      (if x.txq.full then x.pollQueue else some x).bind fun y =>
        (y.txq.step (.handler (.putc byte))).map fun q =>
          { y with txq := q, accepted := y.accepted ++ [byte] }
    else some (x.putcPoll byte)
  | .interrupt ready => drain ready x
  | .flush => drain intqBufsize x

/-- `serial_init_queue` is called once, one thread at a time is inside with interrupts on, and
    a thread that sleeps goes on when it is woken. -/
def Legal (x : Serial τ) : SerialEvent τ → Prop
  | .initQueue => x.mode = .poll
  | .putc _ _ => ∀ t, x.txq.pc t = .out
  | .resume t => (x.txq.pc t).ready = true
  | _ => True

/-- From `x` to `y`, `serial_putc` of `t` has returned and its byte has been accepted, once, or
    the thread sleeps with it. -/
def Puts (x y : Serial τ) (t : τ) (byte : Byte) : Prop :=
  y.txq.pc t = .out ∧ y.accepted = x.accepted ++ [byte] ∨
    y.txq.pc t = .waitAsleep (.putc byte) ∧ y.accepted = x.accepted

/-- What is accepted in a step: the byte of a `serial_putc` that returns in it, and no other. -/
def Accepts (x y : Serial τ) : SerialEvent τ → Prop
  | .putc t byte => x.Puts y t byte
  | .resume t => ∃ byte, x.txq.pc t = .waitReady (.putc byte) ∧ x.Puts y t byte
  | .putcOff byte => y.accepted = x.accepted ++ [byte]
  | .initPoll | .initQueue | .interrupt _ | .flush => y.accepted = x.accepted

end Serial

/-! The queue with one thread inside. -/

namespace Intq

variable {q : Intq τ} {byte : Byte}

/-- Nobody is inside, or one thread that waits, in `intq_putc`. -/
def Single (q : Intq τ) : Prop := ∀ t, q.pc t = .out ∨
  (∃ byte, q.pc t = .waitAsleep (.putc byte) ∨ q.pc t = .waitReady (.putc byte)) ∧
    ∀ u ≠ t, q.pc u = .out

theorem Single.transferred (h : q.Single) (c : Call) : (q.transferred c).Single := by
  have hpc : ∀ u, (q.transferred c).pc u = (q.pc u).wake c.signals := fun u => by
    simp [Intq.transferred, signalled]
  have hout : ∀ {u}, q.pc u = .out → (q.transferred c).pc u = .out := fun hu => by
    rw [hpc, hu]
    rfl
  intro t
  rcases h t with ht | ⟨⟨byte, ht⟩, hothers⟩
  · exact .inl (hout ht)
  · refine .inr ⟨⟨byte, ?_⟩, fun u hu => hout (hothers u hu)⟩
    rw [hpc]
    rcases ht with ht | ht
    · rw [ht, Pc.wake]
      split
      · exact .inr rfl
      · exact .inl rfl
    · exact .inr (by rw [ht]; rfl)

theorem contents_intqInit (buf : Nat → Byte) : (intqInit buf : Intq τ).contents = [] := by
  simp [intqInit, contents, count, ringCount, ringContents]

theorem Bounded.contents_getc (h : q.Bounded) (hgo : q.empty = false) :
    q.contents = q.buf q.tail :: (q.transferred .getc).contents := by
  have hmoved := h.contents_moved (c := .getc) hgo
  rw [Call.bytes, List.append_nil] at hmoved
  exact (List.append_cancel_left ((List.append_assoc ..).symm.trans hmoved)).symm

theorem Bounded.contents_putc (h : q.Bounded) (hgo : q.full = false) :
    (q.transferred (.putc byte)).contents = q.contents ++ [byte] := by
  have hmoved := h.contents_moved (c := .putc byte) hgo
  rw [List.append_assoc] at hmoved
  exact List.append_cancel_left hmoved

variable [DecidableEq τ]

/-- A thread that finds nobody inside adds its byte, or waits. -/
theorem Inv.putc_turn (h : q.Inv) (hout : ∀ u, q.pc u = .out) (t : τ) (byte : Byte) :
    (q.turn t (.putc byte)).Single ∧
    ((q.turn t (.putc byte)).pc t = .out ∧
        (q.turn t (.putc byte)).contents = q.contents ++ [byte] ∨
      (q.turn t (.putc byte)).pc t = .waitAsleep (.putc byte) ∧
        (q.turn t (.putc byte)).contents = q.contents) := by
  cases hm : q.full with
  | false =>
    have hpc : (q.transferred (.putc byte)).pc t = .out := by
      simp [Intq.transferred, signalled, hout t, Pc.wake]
    rw [turn_go (c := .putc byte) hm]
    exact ⟨Single.transferred (fun u => .inl (hout u)) _, .inl ⟨hpc, h.contents_putc hm⟩⟩
  | true =>
    have hfree : q.holder = none := by
      cases hh : q.holder with
      | none => rfl
      | some u =>
        have hu := h.holds.mp hh
        rw [hout u] at hu
        cases hu
    have hpc : (q.waits t (.putc byte)).pc t = .waitAsleep (.putc byte) := update_self ..
    rw [turn_wait (c := .putc byte) hm, sleeps_free hfree]
    refine ⟨fun u => ?_, .inr ⟨hpc, rfl⟩⟩
    rcases eq_or_ne u t with rfl | hu
    · exact .inr ⟨⟨byte, .inl hpc⟩, fun v hv => (update_of_ne hv ..).trans (hout v)⟩
    · exact .inl ((update_of_ne hu ..).trans (hout u))

end Intq

/-! The invariant. -/

namespace Serial

structure Inv (x : Serial τ) : Prop where
  ring : x.txq.Inv
  single : x.txq.Single
  order : x.accepted = x.written ++ x.txq.contents
  early : x.mode ≠ .queue → x.txq.contents = [] ∧ ∀ t, x.txq.pc t = .out

variable {x : Serial τ} {t : τ} {byte : Byte}

theorem inv_serialInit : Inv (serialInit : Serial τ) where
  ring := Intq.inv_intqInit
  single := fun _ => .inl rfl
  order := (Intq.contents_intqInit _).symm
  early := fun _ => ⟨Intq.contents_intqInit _, fun _ => rfl⟩

theorem Inv.initPoll (h : x.Inv) : x.initPoll.Inv := by
  rw [Serial.initPoll]
  split
  · next hm =>
    have hnil := (h.early (by simp [hm])).1
    refine ⟨Intq.inv_intqInit, fun _ => .inl rfl, ?_,
      fun _ => ⟨Intq.contents_intqInit _, fun _ => rfl⟩⟩
    rw [h.order, hnil, Intq.contents_intqInit]
  · exact h

theorem initPoll_accepted (x : Serial τ) : x.initPoll.accepted = x.accepted := by
  rw [Serial.initPoll]
  split <;> rfl

theorem initPoll_mode (hm : x.mode ≠ .queue) : x.initPoll.mode ≠ .queue := by
  rw [Serial.initPoll]
  split
  · simp
  · exact hm

theorem Inv.putcPoll (h : x.Inv) (hm : x.mode ≠ .queue) : (x.putcPoll byte).Inv := by
  have hi := h.initPoll
  refine ⟨hi.ring, hi.single, ?_, hi.early⟩
  have hnil : (x.putcPoll byte).txq.contents = [] := (hi.early (initPoll_mode hm)).1
  rw [hnil]
  simp [Serial.putcPoll, h.order, (h.early hm).1]

variable [DecidableEq τ]

/-- The oldest byte of the queue is written, and there is room after it. -/
theorem Inv.pollQueue (h : x.Inv) (hgo : x.txq.empty = false) :
    ∃ y, x.pollQueue = some y ∧ y.Inv ∧ y.mode = x.mode ∧ y.accepted = x.accepted ∧
      y.txq.full = false ∧ x.txq.contents.length = y.txq.contents.length + 1 := by
  have hpass := h.ring.pass .getc
  have hc : x.txq.contents = _ := hpass.contents_getc hgo
  have hstep := h.ring.step_handler (c := .getc) hgo
  refine ⟨{ x with
      txq := (x.txq.pass .getc).transferred .getc
      written := x.written ++ [x.txq.buf x.txq.tail] },
    by rw [Serial.pollQueue, hstep, Option.map_some],
    ⟨hpass.transferred (c := .getc) hgo, h.single.transferred .getc, ?_, fun hm => ?_⟩, rfl, rfl,
    hpass.moved_signals (c := .getc) hgo, by rw [hc, List.length_cons]⟩
  · rw [h.order, hc]
    exact List.append_cons ..
  · rw [(h.early hm).1] at hc
    cases hc

/-- The loop goes on until the queue is empty, if there are enough turns. -/
theorem Inv.drain (n : Nat) : ∀ {x : Serial τ}, x.Inv → ∃ y, x.drain n = some y ∧ y.Inv ∧
    y.accepted = x.accepted ∧ (x.txq.contents.length ≤ n → y.txq.contents = []) := by
  induction n with
  | zero =>
    intro x h
    exact ⟨x, rfl, h, rfl, fun hle => List.length_eq_zero_iff.mp (Nat.le_zero.mp hle)⟩
  | succ n ih =>
    intro x h
    rw [Serial.drain]
    cases he : x.txq.empty with
    | true =>
      have hzero : x.txq.count = 0 := (h.ring.mustWait_iff (m := .notEmpty)).mp he
      exact ⟨x, rfl, h, rfl, fun _ => by rw [Intq.contents, hzero]; rfl⟩
    | false =>
      obtain ⟨y, hy, hinv, -, hacc, -, hlen⟩ := h.pollQueue he
      obtain ⟨z, hz, hinv', hacc', hnil⟩ := ih hinv
      refine ⟨z, ?_, hinv', hacc'.trans hacc, fun hle => hnil (by omega)⟩
      rw [if_neg Bool.false_ne_true, hy]
      exact hz

theorem Inv.entered (h : x.Inv) (hm : x.mode = .queue) (t : τ) (byte : Byte) {q : Intq τ}
    (hq : q.Inv) (hout : ∀ u, q.pc u = .out) (hc : q.contents = x.txq.contents) :
    (x.entered t byte (q.turn t (.putc byte))).Inv ∧
      x.Puts (x.entered t byte (q.turn t (.putc byte))) t byte := by
  obtain ⟨hsingle, hcont⟩ := hq.putc_turn hout t byte
  refine ⟨⟨hq.turn (hout t), hsingle, ?_, fun hno => absurd hm hno⟩, ?_⟩
  · obtain ⟨hpc, hcont⟩ | ⟨hpc, hcont⟩ := hcont
    · simp [Serial.entered, hpc, hcont, h.order, hc]
    · simp [Serial.entered, hpc, hcont, h.order, hc]
  · obtain ⟨hpc, -⟩ | ⟨hpc, -⟩ := hcont
    · exact .inl ⟨hpc, if_pos hpc⟩
    · exact .inr ⟨hpc, if_neg (by rw [hpc]; exact Pc.noConfusion)⟩

theorem Inv.resume (h : x.Inv) (hr : (x.txq.pc t).ready = true) :
    ∃ y, x.step (.resume t) = some y ∧ y.Inv ∧ x.Accepts y (.resume t) := by
  obtain hpc | ⟨⟨byte, hpc | hpc⟩, hothers⟩ := h.single t
  · rw [hpc] at hr
    cases hr
  · rw [hpc] at hr
    cases hr
  · have hm : x.mode = .queue := by
      by_contra hm
      have hout := (h.early hm).2 t
      rw [hpc] at hout
      cases hout
    have hout : ∀ u, (x.txq.left t).pc u = .out := fun u => by
      rcases eq_or_ne u t with rfl | hu
      · exact if_pos rfl
      · simp [Intq.left, hu, hothers u hu, Pc.woken]
    obtain ⟨hinv, hputs⟩ := h.entered hm t byte (h.ring.left hpc) hout rfl
    refine ⟨_, ?_, hinv, byte, hpc, hputs⟩
    simp only [step, hpc, h.ring.step_waitReady hpc, Option.map_some]

/-- Room is made if there is none, and the byte is added. -/
theorem Inv.putcOff (h : x.Inv) (byte : Byte) :
    ∃ y, x.step (.putcOff byte) = some y ∧ y.Inv ∧ x.Accepts y (.putcOff byte) := by
  by_cases hm : x.mode = .queue
  · have hroom : ∃ y, (if x.txq.full then x.pollQueue else some x) = some y ∧ y.Inv ∧
        y.mode = x.mode ∧ y.accepted = x.accepted ∧ y.txq.full = false := by
      cases hf : x.txq.full with
      | false => exact ⟨x, rfl, h, rfl, rfl, hf⟩
      | true =>
        have hgo : x.txq.empty = false := by
          have h0 := (h.ring.mustWait_iff (m := .notFull)).mp hf
          rw [Bool.eq_false_iff, ne_eq, ← Intq.mustWait, h.ring.mustWait_iff]
          simp only [Intq.avail, intqBufsize] at h0 ⊢
          omega
        obtain ⟨y, hy, hinv, hmode, hacc, hfull, -⟩ := h.pollQueue hgo
        exact ⟨y, hy, hinv, hmode, hacc, hfull⟩
    obtain ⟨y, hy, hinv, hmode, hacc, hgo⟩ := hroom
    have hpass := hinv.ring.pass (.putc byte)
    have hstep := hinv.ring.step_handler (c := .putc byte) hgo
    refine ⟨{ y with
        txq := (y.txq.pass (.putc byte)).transferred (.putc byte)
        accepted := y.accepted ++ [byte] },
      by rw [step, if_pos hm, hy, Option.bind_some, hstep, Option.map_some],
      ⟨hpass.transferred (c := .putc byte) hgo, hinv.single.transferred (.putc byte), ?_,
        fun hno => absurd (hmode.trans hm) hno⟩, congrArg (· ++ [byte]) hacc⟩
    rw [hpass.contents_putc hgo, ← List.append_assoc]
    exact congrArg (· ++ [byte]) hinv.order
  · exact ⟨_, by rw [step, if_neg hm], h.putcPoll hm, rfl⟩

theorem Inv.step (h : x.Inv) {e : SerialEvent τ} (he : x.Legal e) :
    ∃ y, x.step e = some y ∧ y.Inv ∧ x.Accepts y e := by
  cases e with
  | initPoll => exact ⟨_, rfl, h.initPoll, x.initPoll_accepted⟩
  | initQueue =>
    exact ⟨_, if_pos he, ⟨h.ring, h.single, h.order, fun hno => absurd rfl hno⟩, rfl⟩
  | putc t byte =>
    by_cases hm : x.mode = .queue
    · refine ⟨_, ?_, h.entered hm t byte (h.ring.pass (.putc byte)) he rfl⟩
      simp only [Serial.step, if_pos hm, h.ring.step_call (he t), Option.map_some]
    · refine ⟨_, by rw [Serial.step, if_neg hm], h.putcPoll hm, .inl ⟨?_, rfl⟩⟩
      exact (h.initPoll.early (initPoll_mode hm)).2 t
  | resume t => exact h.resume he
  | putcOff byte => exact h.putcOff byte
  | interrupt ready =>
    obtain ⟨y, hy, hinv, hacc, -⟩ := h.drain ready
    exact ⟨y, hy, hinv, hacc⟩
  | flush =>
    obtain ⟨y, hy, hinv, hacc, -⟩ := h.drain intqBufsize
    exact ⟨y, hy, hinv, hacc⟩

end Serial

/-- **Serial output keeps its order.** Whatever has been called, what has been written is what
    has been accepted, in that order, up to the bytes that are in the queue. Every call that
    may come now has an outcome, so that nobody would have to sleep with interrupts off on
    entry, and a `serial_putc` that returns has its byte accepted once. After `serial_flush`
    everything has been written. -/
theorem serial_order [DecidableEq τ] {x : Serial τ}
    (h : Reach Serial.step Serial.Legal serialInit x) :
    x.accepted = x.written ++ x.txq.contents ∧
    (∀ e, x.Legal e → ∃ y, x.step e = some y ∧ x.Accepts y e) ∧
    ∃ y, x.step .flush = some y ∧ y.written = x.accepted ∧ y.accepted = x.accepted := by
  have hinv : x.Inv := h.inv Serial.inv_serialInit fun s s' e hI he hs => by
    obtain ⟨y, hy, hyI, -⟩ := hI.step he
    rw [hy] at hs
    cases hs
    exact hyI
  refine ⟨hinv.order, fun e he => ?_, ?_⟩
  · obtain ⟨y, hy, -, hacc⟩ := hinv.step he
    exact ⟨y, hy, hacc⟩
  · obtain ⟨y, hy, hyI, hacc, hnil⟩ := hinv.drain intqBufsize
    have hlen : x.txq.contents.length ≤ intqBufsize := by
      rw [Intq.contents, ringContents_length]
      exact Nat.le_of_lt hinv.ring.count_lt
    refine ⟨y, hy, ?_, hacc⟩
    rw [← hacc, hyI.order, hnil hlen, List.append_nil]

instance (x : Serial Bool) (e : SerialEvent Bool) : Decidable (x.Legal e) :=
  match e with
  | .initQueue => inferInstanceAs (Decidable (x.mode = .poll))
  | .putc _ _ => inferInstanceAs (Decidable (∀ t, x.txq.pc t = .out))
  | .resume t => inferInstanceAs (Decidable ((x.txq.pc t).ready = true))
  | .initPoll | .putcOff _ | .interrupt _ | .flush => .isTrue trivial

/-- One byte is written before `serial_init_queue`, and the queue is filled. The next
    `serial_putc` sleeps until an interrupt has made room, and then it adds its byte. -/
theorem serial_order_woken : ∃ x y z : Serial Bool, Reach Serial.step Serial.Legal serialInit x ∧
    x.txq.pc true = .waitReady (.putc 67) ∧ x.written = [65, 66] ∧
    x.step (.resume true) = some y ∧ y.accepted = x.accepted ++ [67] ∧
    y.step .flush = some z ∧ z.written = y.accepted := by
  obtain ⟨x, hx, hq⟩ := exists_reach Serial.step (C := Serial.Legal) (serialInit : Serial Bool)
    (.putc false 65 :: .initQueue :: List.replicate 63 (.putcOff 66) ++
      [.putc true 67, .interrupt 1])
    (fun x => x.txq.pc true = .waitReady (.putc 67) ∧ x.written = [65, 66] ∧
      (x.step (.resume true)).any fun y => y.txq.pc true = .out)
    (c := fun x e => decide (x.Legal e)) (fun _ _ => of_decide_eq_true)
    (by decide +kernel) (by decide +kernel)
  obtain ⟨hpc, hw, hout⟩ := of_decide_eq_true hq
  have hready : x.Legal (.resume true) := congrArg Pc.ready hpc
  obtain ⟨y, hy, byte, hbyte, hputs⟩ := (serial_order hx).2.1 _ hready
  obtain ⟨z, hz, hzw, -⟩ := (serial_order (hx.tail _ hready hy)).2.2
  rw [hpc] at hbyte
  cases hbyte
  rw [hy, Option.any_some, decide_eq_true_eq] at hout
  obtain ⟨-, hacc⟩ | ⟨hasleep, -⟩ := hputs
  · exact ⟨x, y, z, hx, hpc, hw, hy, hacc, hz, hzw⟩
  · rw [hout] at hasleep
    cases hasleep

end Pintos.Devices
