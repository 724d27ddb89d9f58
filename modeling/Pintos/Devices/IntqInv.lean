import Pintos.Devices.Intq

/- What is in order in an interrupt queue between the steps.

   The thread that has the lock is in `wait`, and while it sleeps there it is the one that
   is recorded, and its condition is false. The other threads that sleep are on the list of
   the lock. Each step of the queue is one of three things, or two of them one after the
   other: a byte moves and the other side is woken (`transferred`), a thread goes to sleep
   (`sleeps`), or a thread releases the lock (`left`). -/
namespace Pintos.Devices

open Lib Function
open Vm (Byte)

variable {τ : Type}

namespace Pc

variable {p : Pc} {m : Member} {c : Call}

@[simp] theorem wake_holds : (p.wake m).holds = p.holds := by
  cases p with
  | waitAsleep c => rw [wake]; split <;> rfl
  | out | lockAsleep c | lockReady c | waitReady c => rfl

@[simp] theorem wake_locking : (p.wake m).locking = p.locking := by
  cases p with
  | waitAsleep c => rw [wake]; split <;> rfl
  | out | lockAsleep c | lockReady c | waitReady c => rfl

@[simp] theorem wake_eq_lockAsleep : p.wake m = lockAsleep c ↔ p = lockAsleep c := by
  cases p with
  | waitAsleep c => rw [wake]; split <;> simp
  | out | lockAsleep c | lockReady c | waitReady c => simp [wake]

@[simp] theorem wake_eq_waitAsleep :
    p.wake m = waitAsleep c ↔ p = waitAsleep c ∧ c.waitsFor ≠ m := by
  cases p with
  | waitAsleep c => grind [wake]
  | out | lockAsleep c | lockReady c | waitReady c => simp [wake]

end Pc

theorem Call.waitsFor_of_ne {c c' : Call} (h : c'.waitsFor ≠ c.signals) :
    c'.waitsFor = c.waitsFor := by
  cases c <;> cases c' <;> first | rfl | exact absurd rfl h

namespace Intq

variable {q q' : Intq τ} {t u : τ} {c : Call} {buf : Nat → Byte} {m : Member}

/-! The queue is in order between the steps. -/

@[simp] theorem moved_pc : (q.moved c).pc = q.pc := by cases c <;> rfl
@[simp] theorem moved_holder : (q.moved c).holder = q.holder := by cases c <;> rfl
@[simp] theorem moved_lock : (q.moved c).lock = q.lock := by cases c <;> rfl
@[simp] theorem moved_waiter : (q.moved c).waiter = q.waiter := by cases c <;> rfl
@[simp] theorem moved_passed : (q.moved c).passed = q.passed := by cases c <;> rfl

theorem inv_intqInit : (intqInit buf : Intq τ).Inv where
  head_lt := Nat.zero_lt_succ _
  tail_lt := Nat.zero_lt_succ _
  holds := by simp [intqInit, Pc.holds]
  value := rfl
  nodup := List.nodup_nil
  queued := by simp [intqInit, Threads.Sema.init]
  recorded := by simp [intqInit]
  stuck := by simp [intqInit]

section
variable [DecidableEq τ]

theorem turn_go (hgo : q.mustWait c.waitsFor = false) : q.turn t c = q.transferred c :=
  if_neg (Bool.eq_false_iff.mp hgo)

theorem turn_wait (hm : q.mustWait c.waitsFor = true) : q.turn t c = q.sleeps t c := if_pos hm

theorem sleeps_free (hfree : q.holder = none) : q.sleeps t c = q.waits t c := if_pos hfree

end

namespace Inv

theorem pass (h : q.Inv) (c : Call) : (q.pass c).Inv :=
  ⟨⟨h.head_lt, h.tail_lt⟩, h.holds, h.value, h.nodup, h.queued, h.recorded, h.stuck⟩

/-- Nobody waits after a transfer: one side did not have to, and the other is woken. -/
theorem transferred (h : q.Inv) (hgo : q.mustWait c.waitsFor = false) : (q.transferred c).Inv where
  toBounded := ⟨(h.moved c).head_lt, (h.moved c).tail_lt⟩
  holds := by simp [Intq.transferred, signalled, h.holds]
  value := by simp [Intq.transferred, signalled, h.value]
  nodup := by simp [Intq.transferred, signalled, h.nodup]
  queued := by simp [Intq.transferred, signalled, h.queued]
  recorded := by
    intro m t
    rcases eq_or_ne m c.signals with rfl | hne
    · simp only [Intq.transferred, signalled, update_self, moved_pc,
        Pc.wake_eq_waitAsleep]
      refine iff_of_false (Option.some_ne_none t).symm ?_
      rintro ⟨c', hc, -, hne⟩
      exact hne hc
    · simp only [Intq.transferred, signalled, update_of_ne hne, moved_pc, moved_waiter,
        Pc.wake_eq_waitAsleep, h.recorded]
      constructor
      · rintro ⟨c', rfl, hp⟩
        exact ⟨c', rfl, hp, hne⟩
      · rintro ⟨c', rfl, hp, -⟩
        exact ⟨c', rfl, hp⟩
  stuck := by
    intro t c' hp
    simp only [Intq.transferred, signalled, moved_pc, Pc.wake_eq_waitAsleep] at hp
    have hm := h.stuck hp.1
    rw [Call.waitsFor_of_ne hp.2, hgo] at hm
    exact absurd hm Bool.false_ne_true

theorem holder_of_waitAsleep (h : q.Inv) (ht : q.pc t = .waitAsleep c) : q.holder = some t := by
  rw [h.holds, ht]
  rfl

theorem not_recorded (h : q.Inv) (hnot : ∀ c, q.pc u ≠ .waitAsleep c) :
    q.waiter m ≠ some u := fun hw => by
  obtain ⟨c, -, hp⟩ := h.recorded.mp hw
  exact hnot c hp

theorem head_waiters (h : q.Inv) (hu : q.lock.waiters.head? = some u) :
    ∃ c, q.pc u = .lockAsleep c := h.queued.mp (List.mem_of_head? hu)

theorem not_queued (h : q.Inv) (ht : (q.pc t).asleep = false) : t ∉ q.lock.waiters := fun hmem => by
  obtain ⟨c, hp⟩ := h.queued.mp hmem
  rw [hp] at ht
  exact Bool.noConfusion ht

variable [DecidableEq τ]

section
variable (h : q.Inv)
include h

theorem recorded_waits (hfree : q.holder = none) : update q.waiter c.waitsFor (some t) m = some u ↔
      ∃ c' : Call, c'.waitsFor = m ∧ update q.pc t (.waitAsleep c) u = .waitAsleep c' := by
  have hnot : ∀ v c', q.pc v ≠ .waitAsleep c' := fun v c' hp => by
    have := h.holder_of_waitAsleep hp
    rw [hfree] at this
    exact Option.some_ne_none v this.symm
  rcases eq_or_ne u t with rfl | hu
  · grind [h.not_recorded]
  · grind [h.not_recorded]

theorem waits (ht : (q.pc t).asleep = false) (hfree : q.holder = none)
    (hm : q.mustWait c.waitsFor = true) : (q.waits t c).Inv := by
  have hnl := h.not_queued ht
  refine ⟨⟨h.head_lt, h.tail_lt⟩, fun {u} => ?_, rfl, h.nodup, fun {u} => ?_, h.recorded_waits hfree,
    fun {u c'} hp => ?_⟩
  · rcases eq_or_ne u t with rfl | hu
    · simp [Intq.waits, Pc.holds]
    · simp only [Intq.waits, update_of_ne hu, ← h.holds, hfree]
      exact iff_of_false (fun heq => hu (Option.some.inj heq).symm) (Option.some_ne_none u).symm
  · rcases eq_or_ne u t with rfl | hu
    · simpa [Intq.waits] using hnl
    · simpa only [Intq.waits, update_of_ne hu] using h.queued
  · rcases eq_or_ne u t with rfl | hu
    · simp only [Intq.waits, update_self, Pc.waitAsleep.injEq] at hp
      cases hp
      exact hm
    · simp only [Intq.waits, update_of_ne hu] at hp
      exact h.stuck hp

theorem queues (ht : (q.pc t).asleep = false) (hh : (q.pc t).holds = false) :
    (q.queues t c).Inv := by
  have hnl := h.not_queued ht
  have hnw : ∀ c', q.pc t ≠ .waitAsleep c' := fun c' hp => by
    rw [hp] at ht
    exact Bool.noConfusion ht
  refine ⟨⟨h.head_lt, h.tail_lt⟩, fun {u} => ?_, h.value, ?_, fun {u} => ?_, fun {m u} => ?_,
    fun {u c'} hp => ?_⟩
  · rcases eq_or_ne u t with rfl | hu
    · simp only [Intq.queues, update_self, h.holds, hh]
      rfl
    · simpa only [Intq.queues, update_of_ne hu] using h.holds
  · exact List.nodup_append'.mpr ⟨h.nodup, List.nodup_singleton t, by simpa using hnl⟩
  · rcases eq_or_ne u t with rfl | hu
    · simp [Intq.queues]
    · simpa [Intq.queues, update_of_ne hu, hu] using h.queued
  · rcases eq_or_ne u t with rfl | hu
    · simpa [Intq.queues] using h.not_recorded hnw
    · simpa only [Intq.queues, update_of_ne hu] using h.recorded
  · rcases eq_or_ne u t with rfl | hu
    · simp only [Intq.queues, update_self] at hp
      cases hp
    · simp only [Intq.queues, update_of_ne hu] at hp
      exact h.stuck hp

theorem sleeps (ht : (q.pc t).asleep = false) (hh : (q.pc t).holds = false)
    (hm : q.holder = none → q.mustWait c.waitsFor = true) : (q.sleeps t c).Inv := by
  rw [Intq.sleeps]
  split
  next hfree => exact h.waits ht hfree (hm hfree)
  · exact h.queues ht hh

theorem left (ht : q.pc t = .waitReady c) : (q.left t).Inv := by
  have hheld : q.holder = some t := by
    rw [h.holds, ht]
    rfl
  have hnot : ∀ u c', q.pc u ≠ .waitAsleep c' := fun u c' hp => by
    have := hheld.symm.trans (h.holder_of_waitAsleep hp)
    cases this
    rw [ht] at hp
    cases hp
  have hnot' : ∀ u c', (q.left t).pc u ≠ .waitAsleep c' := fun u c' hp => by
    simp only [Intq.left] at hp
    split at hp
    · cases hp
    · split at hp
      next hu =>
        obtain ⟨d, hd⟩ := h.head_waiters hu
        rw [hd] at hp
        cases hp
      · exact hnot u c' hp
  refine ⟨⟨h.head_lt, h.tail_lt⟩, fun {u} => ?_, rfl, h.nodup.tail, fun {u} => ?_, fun {m u} => ?_,
    fun {u c'} hp => absurd hp (hnot' u c')⟩
  · refine iff_of_false (Option.some_ne_none u).symm ?_
    simp only [Intq.left]
    split
    · exact Bool.false_ne_true
    next hne =>
      split
      next hu =>
        obtain ⟨d, hd⟩ := h.head_waiters hu
        rw [hd]
        exact Bool.false_ne_true
      · grind [h.holds]
  · simp only [Intq.left]
    split
    next heq =>
      refine iff_of_false (fun hmem => ?_) (by simp)
      obtain ⟨d, hd⟩ := h.queued.mp (List.mem_of_mem_tail hmem)
      rw [heq, ht] at hd
      cases hd
    next hne =>
      have hnd := h.nodup
      have hq := h.queued (t := u)
      cases hw : q.lock.waiters with
      | nil => simpa [hw] using hq
      | cons v l => grind [Pc.woken]
  · refine iff_of_false (h.not_recorded (hnot u)) ?_
    rintro ⟨c', -, hp⟩
    exact hnot' u c' hp

theorem turn (ht : q.pc t = .out) : (q.turn t c).Inv := by
  cases hm : q.mustWait c.waitsFor with
  | false =>
    rw [turn_go hm]
    exact h.transferred hm
  | true =>
    rw [turn_wait hm]
    exact h.sleeps (by rw [ht]; rfl) (by rw [ht]; rfl) fun _ => hm

/-! Each step, as what it leaves behind. -/

theorem step_call (ht : q.pc t = .out) : q.step (.call t c) = some ((q.pass c).turn t c) :=
  map_snd_eq_some.mpr ((h.pass c).wp_loop ht |>.mpr rfl)

theorem step_handler (hgo : q.mustWait c.waitsFor = false) :
    q.step (.handler c) = some ((q.pass c).transferred c) :=
  map_snd_eq_some.mpr ((h.pass c).wp_handler.mpr ⟨hgo, rfl⟩)

theorem step_waitReady (ht : q.pc t = .waitReady c) :
    q.step (.resume t) = some ((q.left t).turn t c) := by
  refine map_snd_eq_some.mpr ?_
  simp only [resume, wp_bind, wp_get, ht, wp_modify]
  rw [h.wp_lockRelease ht (Q := fun _ q' => wp (loop t c) (fun _ u => u = (q.left t).turn t c) q'),
    (h.left ht).wp_loop (if_pos rfl)]

theorem step_lockReady (ht : q.pc t = .lockReady c) : q.step (.resume t) = some q' ↔
      (q.holder = none → q.mustWait c.waitsFor = true) ∧ q.sleeps t c = q' := by
  refine map_snd_eq_some.trans ?_
  simp only [resume, wp_bind, wp_get, ht]
  exact h.wp_semaDown

end

end Inv

/-- What the callers have to see to. -/
def Legal (q : Intq τ) : IntqEvent τ → Prop
  | .call t _ => q.pc t = .out
  | .resume t => (q.pc t).ready = true
  | .handler c => q.mustWait c.waitsFor = false

theorem ready_cases (h : (q.pc t).ready = true) :
    ∃ c, q.pc t = .lockReady c ∨ q.pc t = .waitReady c := by
  cases hp : q.pc t with
  | lockReady c => exact ⟨c, Or.inl rfl⟩
  | waitReady c => exact ⟨c, Or.inr rfl⟩
  | out | lockAsleep c | waitAsleep c =>
    rw [hp] at h
    exact Bool.noConfusion h

variable [DecidableEq τ] {e : IntqEvent τ}

/-- **One step leaves the queue in order.** -/
theorem Inv.step (h : q.Inv) (he : q.Legal e) (hs : q.step e = some q') : q'.Inv := by
  cases e with
  | call t c =>
    rw [h.step_call he] at hs
    cases hs
    exact (h.pass c).turn he
  | resume t =>
    obtain ⟨c, hp | hp⟩ := ready_cases he
    · obtain ⟨hm, rfl⟩ := (h.step_lockReady hp).mp hs
      exact h.sleeps (by rw [hp]; rfl) (by rw [hp]; rfl) hm
    · rw [h.step_waitReady hp] at hs
      cases hs
      exact (h.left hp).turn (if_pos rfl)
  | handler c =>
    rw [h.step_handler he] at hs
    cases hs
    exact (h.pass c).transferred he

/-- The only assertion that can fail is that of `wait`, for a thread that comes out of
    `lock_acquire` after it has slept there. -/
theorem Inv.step_isSome (h : q.Inv) (he : q.Legal e)
    (hok : ∀ t c, e = .resume t → q.pc t = .lockReady c → q.holder = none →
      q.mustWait c.waitsFor = true) : ∃ q', q.step e = some q' := by
  cases e with
  | call t c => exact ⟨_, h.step_call he⟩
  | resume t =>
    obtain ⟨c, hp | hp⟩ := ready_cases he
    · exact ⟨_, (h.step_lockReady hp).mpr ⟨hok t c rfl hp, rfl⟩⟩
    · exact ⟨_, h.step_waitReady hp⟩
  | handler c => exact ⟨_, h.step_handler he⟩

/-- A call from the other side does not have to wait, and wakes the thread that does. -/
theorem Inv.step_wakes {c' : Call} (h : q.Inv) (ht : q.pc t = .waitAsleep c) (he : q.Legal e)
    (hmade : e.made = some c') (hother : c'.waitsFor ≠ c.waitsFor) :
    ∃ q', q.step e = some q' ∧ q'.pc t = .waitReady c := by
  have hgo : q.mustWait c'.waitsFor = false := by
    have h0 := h.mustWait_iff.mp (h.stuck ht)
    rw [Bool.eq_false_iff, ne_eq, h.mustWait_iff]
    cases c with
    | getc =>
      cases c' with
      | getc => exact absurd rfl hother
      | putc b =>
        simp only [Call.waitsFor, avail, intqBufsize] at h0 ⊢
        omega
    | putc b =>
      cases c' with
      | getc =>
        simp only [Call.waitsFor, avail, intqBufsize] at h0 ⊢
        omega
      | putc b' => exact absurd rfl hother
  have hpc : ((q.pass c').transferred c').pc t = .waitReady c := by
    simp only [Intq.transferred, signalled, moved_pc, Intq.pass, ht]
    exact if_pos (by_contra fun hne => hother (Call.waitsFor_of_ne hne).symm)
  cases e with
  | call u d =>
    cases hmade
    refine ⟨_, h.step_call he, ?_⟩
    rwa [turn_go (q := q.pass c') hgo]
  | resume u => cases hmade
  | handler d =>
    cases hmade
    exact ⟨_, h.step_handler he, hpc⟩

end Intq

end Pintos.Devices
