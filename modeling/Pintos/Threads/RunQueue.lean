import Pintos.Kernel.List
import Pintos.Threads.Synch

/- Scheduling, `threads/thread.c`, and the semaphores of `threads/synch.c` as far as they
   put threads to sleep.

   A thread is named by its page. Its `elem` is an element of the run queue or of the
   waiters of a semaphore; which one, only the links say. Everything here is done with
   interrupts off, so each event below is one step; interrupts, the timer's among them,
   come between steps. One turn of the loop of `sema_down` is a step: a thread that has
   been woken takes another turn.

   Correspondence (C ↔ Lean):
     `t->status`, `is_thread`                   ↔ `status`, `none` where there is no thread
     `ready_list`, `sema->waiters`              ↔ `Queue.ready`, `Queue.waiters`
     `sema->value`                              ↔ `value`, `none` before `sema_init`
     `running_thread ()`                        ↔ `current`
     `next_thread_to_run`, `schedule`,
       `schedule_tail`                          ↔ `nextThreadToRun`, `schedule`, `scheduleTail`
     `thread_block`, `thread_unblock`,
       `thread_yield`, `thread_exit`            ↔ `threadBlock`, …, `threadExit`
     `thread_create` up to `thread_unblock`     ↔ `threadCreate`
     `idle`, its first statement                ↔ `idleStart`
     `thread_init`                              ↔ `threadInit`
   What `thread_exit` does before it turns interrupts off is made of other steps. -/
namespace Pintos.Threads

open Vm (wordSize)
open Lib Kernel Function

inductive Status where
  | running | ready | blocked | dying
  deriving DecidableEq

/-- The lists that the `elem` of a thread can be on. -/
inductive Queue where
  | ready
  | waiters (sema : Nat)
  deriving DecidableEq

structure Kernel where
  status : Nat → Option Status
  links : Links Queue Nat
  value : Nat → Option Nat
  current : Nat
  idleThread : Option Nat
  initialThread : Nat

abbrev KernelM := Cmd Kernel

/-! Threads. -/

def onLinks {α : Type} (m : ListM Queue Nat α) : KernelM α :=
  zoom Kernel.links (fun L k => { k with links := L }) m

def setStatus (t : Nat) (st : Option Status) : KernelM Unit :=
  modify fun k => { k with status := update k.status t st }

/-- The idle thread if the run queue is empty; a null pointer is not a thread. -/
def nextThreadToRun : KernelM Nat := do
  let k ← get
  if listEmpty k.links .ready then follow k.idleThread
  else
    let n ← onLinks (listPopFront .ready)
    onLinks (listEntry n)

/-- `palloc_free_page` is the end of a thread. -/
def scheduleTail (prev : Option Nat) : KernelM Unit := do
  setStatus (← get).current (some .running)
  let k ← get
  match prev with
  | some p =>
    (if k.status p = some .dying ∧ p ≠ k.initialThread then do
      assert (p ≠ k.current)
      setStatus p none
    else pure ())
  | none => pure ()

def schedule : KernelM Unit := do
  let curr := (← get).current
  let next ← nextThreadToRun
  assert ((← get).status curr ≠ some .running)
  assert ((← get).status next).isSome
  if curr ≠ next then
    modify fun k => { k with current := next }
    scheduleTail (some curr)
  else scheduleTail none

def threadBlock : KernelM Unit := do
  setStatus (← get).current (some .blocked)
  schedule

def threadUnblock (t : Nat) : KernelM Unit := do
  assert ((← get).status t).isSome
  assert ((← get).status t = some .blocked)
  onLinks (listPushBack .ready t)
  setStatus t (some .ready)

def threadYield : KernelM Unit := do
  let k ← get
  (if k.idleThread ≠ some k.current then onLinks (listPushBack .ready k.current) else pure ())
  setStatus k.current (some .ready)
  schedule

def threadExit : KernelM Unit := do
  setStatus (← get).current (some .dying)
  schedule

/-- The page is zeroed and made a thread, which is blocked. -/
def threadCreate (t : Nat) : KernelM Unit := do
  onLinks (setPrev (.elem t) none)
  onLinks (setNext (.elem t) none)
  setStatus t (some .blocked)

def idleStart : KernelM Unit := modify fun k => { k with idleThread := some k.current }

/-! Semaphores. -/

def setValue (s v : Nat) : KernelM Unit :=
  modify fun k => { k with value := update k.value s (some v) }

def semaInit (s v : Nat) : KernelM Unit := do
  setValue s v
  onLinks (listInit (.waiters s))

/-- One turn of the loop of `sema_down`. -/
def semaDown (s : Nat) : KernelM Unit := do
  let v ← follow ((← get).value s)
  if v = 0 then
    onLinks (listPushBack (.waiters s) (← get).current)
    threadBlock
  else setValue s (v - 1)

def semaTryDown (s : Nat) : KernelM Bool := do
  let v ← follow ((← get).value s)
  if v > 0 then
    setValue s (v - 1)
    return true
  else return false

def semaUp (s : Nat) : KernelM Unit := do
  let v ← follow ((← get).value s)
  (if listEmpty (← get).links (.waiters s) then pure ()
  else do
    let n ← onLinks (listPopFront (.waiters s))
    threadUnblock (← onLinks (listEntry n)))
  setValue s ((v + 1) % wordSize)

/-! Steps. -/

/-- `unblock`, `semaTryDown` and `semaUp` may be those of an interrupt handler; `yield`
    may be a preemption. -/
inductive Event where
  | create (t : Nat)
  | unblock (t : Nat)
  | block
  | yield
  | exit
  | idle
  | semaInit (s v : Nat)
  | semaDown (s : Nat)
  | semaTryDown (s : Nat)
  | semaUp (s : Nat)

variable {k' k : Kernel} {e : Event}

def Event.exec : Event → KernelM Unit
  | create t => threadCreate t
  | unblock t => threadUnblock t
  | block => threadBlock
  | yield => threadYield
  | exit => threadExit
  | idle => idleStart
  | semaInit s v => Threads.semaInit s v
  | semaDown s => Threads.semaDown s
  | semaTryDown s => do let _ ← Threads.semaTryDown s
  | semaUp s => Threads.semaUp s

def kernelStep (k : Kernel) (e : Event) : Option Kernel := (e.exec k).map Prod.snd

/-- A thread that sleeps on a semaphore. -/
def Waiting (k : Kernel) (t : Nat) : Prop :=
  ∃ s l, (k.value s).isSome ∧ IsList k.links (.waiters s) l ∧ t ∈ l

/-- How the functions are called. A new thread gets a page in which there is none; a
    thread is unblocked that has blocked itself with `thread_block`, or is new; semaphores
    are used once they have been initialised; the idle thread runs `idle`, and there is one. -/
def Proper (k : Kernel) : Event → Prop
  | .create t => k.status t = none
  | .unblock t => k.status t = some .blocked ∧ ¬Waiting k t ∧ k.idleThread ≠ some t
  | .exit => k.idleThread ≠ some k.current
  | .idle => k.idleThread = none
  | .semaDown s => (k.value s).isSome ∧ k.idleThread ≠ some k.current
  | .semaTryDown s | .semaUp s => (k.value s).isSome
  | .block | .yield | .semaInit .. => True

/-- The steps that end in `schedule`. -/
def Switches (k : Kernel) : Event → Prop
  | .block | .yield | .exit => True
  | .semaDown s => k.value s = some 0
  | .create _ | .unblock _ | .idle | .semaInit .. | .semaTryDown _ | .semaUp _ => False

/-- What a step of the thread `t` does to the semaphores. -/
def Event.onSemas (t : Nat) (e : Event) (f : Nat → Option (Sema Nat)) : Nat → Option (Sema Nat) :=
  match e with
  | semaInit s v => update f s (some (.init v))
  | semaDown s => update f s ((f s).map fun x => (x.down t).2)
  | semaTryDown s => update f s ((f s).map fun x => x.tryDown.2)
  | semaUp s => update f s ((f s).map fun x => x.up.2)
  | create _ | unblock _ | block | yield | exit | idle => f

/-- `thread_init`: the code that runs becomes a thread. -/
def threadInit (L : Links Queue Nat) (t : Nat) : Kernel where
  status := update (fun _ => none) t (some .running)
  links := L.clear .ready
  value := fun _ => none
  current := t
  idleThread := none
  initialThread := t

/-! What holds between steps, and inside them. -/

/-- The lists hold the threads they should. Nothing is said about who runs. -/
structure Queues (k : Kernel) (q : Queue → Option (List Nat)) : Prop where
  lists : Lists k.links q
  semas : ∀ s, (q (.waiters s)).isSome ↔ (k.value s).isSome
  ready : ∃ l, q .ready = some l ∧ ∀ t, t ∈ l ↔ k.status t = some .ready ∧ k.idleThread ≠ some t
  waiting : ∀ {s l t}, q (.waiters s) = some l → t ∈ l →
    k.status t = some .blocked ∧ k.idleThread ≠ some t
  idle : ∀ {t}, k.idleThread = some t → k.status t ≠ none ∧ k.status t ≠ some .dying

/-- Between steps one thread is running. -/
structure Inv (k : Kernel) (q : Queue → Option (List Nat)) : Prop extends Queues k q where
  running : ∀ t, k.status t = some .running ↔ t = k.current

section
variable {k k₁ : Kernel} {q q' q₁ : Queue → Option (List Nat)} {t s v : Nat} {l pushed w : List Nat}
  {L : Links Queue Nat} {st : Option Status}

section
variable (h : Queues k q)
include h

/-- A thread that is neither ready nor blocked is on no list. -/
theorem Queues.loose (hr : k.status t ≠ some .ready) (hb : k.status t ≠ some .blocked) :
    Loose q t := by
  intro i l hi ht
  cases i with
  | ready => grind [h.ready]
  | waiters s => exact hb (h.waiting hi ht).1

theorem Queues.setStatus (ht : Loose q t) (st : Option Status)
    (hready : st = some .ready → k.idleThread = some t)
    (hidle : k.idleThread = some t → st ≠ none ∧ st ≠ some .dying) :
    Queues { k with status := update k.status t st } q where
  lists := h.lists
  semas := h.semas
  ready := by
    obtain ⟨l, hl, hmem⟩ := h.ready
    refine ⟨l, hl, fun x => ?_⟩
    by_cases hx : x = t
    · subst hx
      simp only [update_self]
      exact ⟨fun hin => absurd hin (ht _ l hl), fun hin => absurd (hready hin.1) hin.2⟩
    · simp only [update_of_ne hx]
      exact hmem x
  waiting := fun {s l x} hs hx => by
    have hne : x ≠ t := fun heq => ht _ l hs (heq ▸ hx)
    simp only [update_of_ne hne]
    exact h.waiting hs hx
  idle := fun {x} hx => by grind [h.idle]

theorem Queues.enqueue (hl : q .ready = some l) (ht : Loose q t) (hidle : k.idleThread ≠ some t)
    (hL : Lists L (update q .ready (some (l ++ [t])))) :
    Queues { k with links := L, status := update k.status t (some .ready) }
      (update q .ready (some (l ++ [t]))) where
  lists := hL
  semas := fun s => by
    rw [update_of_ne (by simp)]
    exact h.semas s
  ready := by grind [h.ready]
  waiting := fun {s m x} hs hx => by
    rw [update_of_ne (by simp)] at hs
    have hne : x ≠ t := fun heq => ht _ m hs (heq ▸ hx)
    simp only [update_of_ne hne]
    exact h.waiting hs hx
  idle := fun {x} hx => by grind [h.idle]

theorem Queues.dequeue (hl : q .ready = some (t :: l)) (hL : Lists L (update q .ready (some l))) :
    Queues { k with links := L, status := update k.status t (some .running) }
      (update q .ready (some l)) ∧ k.status t = some .ready := by
  obtain ⟨l', hl', hmem⟩ := h.ready
  rw [hl, Option.some.injEq] at hl'
  subst hl'
  obtain ⟨hst, hidle⟩ := (hmem t).mp (List.mem_cons_self ..)
  have hnot : t ∉ l := (List.nodup_cons.mp (h.lists.list hl).nodup).1
  refine ⟨⟨hL, fun s => ?_, ⟨l, update_self .., fun x => ?_⟩, fun {s m x} hs hx => ?_,
    fun {x} hx => ?_⟩, hst⟩
  · rw [update_of_ne (by simp)]
    exact h.semas s
  · grind
  · grind [h.waiting]
  · grind [h.idle]

/-- A thread that is on no list goes to the back of the waiters of a semaphore. -/
theorem Queues.wait (hl : q (.waiters s) = some l) (ht : Loose q t) (hidle : k.idleThread ≠ some t)
    (hL : Lists L (update q (.waiters s) (some (l ++ [t])))) :
    Queues { k with links := L, status := update k.status t (some .blocked) }
      (update q (.waiters s) (some (l ++ [t]))) where
  lists := hL
  semas := fun s' => by
    by_cases hs : s' = s
    · subst hs
      rw [update_self, ← h.semas s', hl]
      rfl
    · rw [update_of_ne (by simpa using hs)]
      exact h.semas s'
  ready := by
    obtain ⟨m, hm, hmem⟩ := h.ready
    refine ⟨m, by rw [update_of_ne (by simp)]; exact hm, fun x => ?_⟩
    by_cases hx : x = t
    · subst hx
      simp only [update_self]
      exact ⟨fun hin => absurd hin (ht _ m hm), fun hin => by cases hin.1⟩
    · simp only [update_of_ne hx]
      exact hmem x
  waiting := fun {s' m x} hs hx => by
    by_cases hxt : x = t
    · subst hxt
      simp only [update_self, true_and]
      exact hidle
    · simp only [update_of_ne hxt]
      by_cases hss : s' = s
      · grind [h.waiting]
      · grind [h.waiting]
  idle := fun {x} hx => by grind [h.idle]

theorem Queues.wake (hl : q (.waiters s) = some (t :: l))
    (hL : Lists L (update q (.waiters s) (some l))) :
    Queues { k with links := L } (update q (.waiters s) (some l)) ∧
      Loose (update q (.waiters s) (some l)) t := by
  refine ⟨⟨hL, fun s' => ?_, ?_, fun {s' m x} hs hx => ?_, h.idle⟩, fun i m hi ht => ?_⟩
  · by_cases hs : s' = s
    · subst hs
      rw [update_self, ← h.semas s', hl]
      rfl
    · rw [update_of_ne (by simpa using hs)]
      exact h.semas s'
  · grind [h.ready]
  · grind [h.waiting]
  · by_cases his : i = .waiters s
    · subst his
      rw [update_self, Option.some.injEq] at hi
      subst hi
      exact (List.nodup_cons.mp (h.lists.list hl).nodup).1 ht
    · grind [h.lists.apart]

theorem Queues.idle_loose (hi : k.idleThread = some t) : Loose q t := by
  intro i l hl ht
  cases i with
  | ready => grind [h.ready]
  | waiters s => exact (h.waiting hl ht).2 hi

theorem Queues.setCurrent (t : Nat) : Queues { k with current := t } q :=
  { h with }

end

/-! Switching threads. -/

theorem scheduleTail_spec {prev : Option Nat}
    (h : Queues { k with status := update k.status k.current (some .running) } q)
    (hstop : ∀ x, k.status x ≠ some .running) (hprev : prev ≠ some k.current) :
    wp (scheduleTail prev) (fun _ k' => Inv k' q ∧ k'.current = k.current ∧
      k'.idleThread = k.idleThread ∧ k'.value = k.value) k := by
  have hrun : ∀ x, update k.status k.current (some .running) x = some .running ↔
      x = k.current := by grind
  simp only [scheduleTail, Threads.setStatus, wp_bind, wp_get, wp_modify]
  cases prev with
  | none => exact wp_pure.mpr ⟨⟨h, hrun⟩, rfl, rfl, rfl⟩
  | some p =>
    have hne : p ≠ k.current := fun heq => hprev (by rw [heq])
    simp only [wp_ite]
    refine ⟨fun hc => ?_, fun _ => wp_pure.mpr ⟨⟨h, hrun⟩, rfl, rfl, rfl⟩⟩
    simp only [wp_bind, wp_assert, wp_modify, decide_eq_true_eq]
    have hdying : update k.status k.current (some .running) p = some .dying := hc.1
    have hloose : Loose q p := h.loose (by simp only [hdying]; simp) (by simp only [hdying]; simp)
    refine ⟨hne, ⟨h.setStatus hloose none (fun hst => by cases hst) fun hi => ?_, fun x => ?_⟩,
      trivial, trivial, trivial⟩
    · exact absurd hdying (h.idle hi).2
    · grind

/-- The end of `schedule`, once the next thread is known. -/
theorem switch_spec {next : Nat}
    (h : Queues { k with status := update k.status next (some .running) } q)
    (hstop : ∀ x, k.status x ≠ some .running) :
    wp (if k.current ≠ next then do
        modify fun k => { k with current := next }
        scheduleTail (some k.current)
      else scheduleTail none) (fun _ k' => Inv k' q ∧ k'.current = next ∧
        k'.idleThread = k.idleThread ∧ k'.value = k.value) k := by
  by_cases hc : k.current = next
  · subst hc
    rw [if_neg (by simp)]
    exact scheduleTail_spec h hstop (by simp)
  · rw [if_pos hc, wp_bind, wp_modify]
    exact @scheduleTail_spec { k with current := next } q _ (h.setCurrent next) hstop
      fun heq => hc (Option.some.inj heq)

/-- Who is dispatched: the front of the run queue, or the idle thread if it is empty. -/
def Next (idle : Option Nat) (q : Queue → Option (List Nat)) (k' : Kernel)
    (q' : Queue → Option (List Nat)) : Prop :=
  (∃ l, q .ready = some (k'.current :: l) ∧ q' = update q .ready (some l)) ∨
    (q .ready = some [] ∧ q' = q ∧ idle = some k'.current)

theorem schedule_spec (h : Queues k q) (hstop : ∀ x, k.status x ≠ some .running) :
    wpIf (k.idleThread.isSome) schedule (fun _ k' => ∃ q', Inv k' q' ∧
      k'.idleThread = k.idleThread ∧ k'.value = k.value ∧ Next k.idleThread q k' q') k := by
  obtain ⟨l, hl, hmem⟩ := h.ready
  simp only [schedule, nextThreadToRun, wpIf_bind, wpIf_get]
  rw [listEmpty_eq (h.lists.list hl)]
  cases l with
  | nil =>
    simp only [decide_true, if_true, wpIf_follow]
    refine ⟨fun i hi => ?_, id⟩
    have hq : Queues { k with status := update k.status i (some .running) } q :=
      h.setStatus (h.idle_loose hi) _ (fun hst => by cases hst) fun _ => ⟨by simp, by simp⟩
    simp only [wpIf_assert, decide_eq_true_eq]
    refine ⟨fun _ => ⟨fun _ => ?_, fun _ => Option.isSome_iff_ne_none.mpr (h.idle hi).1⟩,
      fun _ => hstop _⟩
    refine wpIf_of_wp (wp_mono (switch_spec hq hstop) ?_)
    rintro - k' ⟨hinv, hcur, hidle, hval⟩
    exact ⟨q, hinv, hidle, hval, Or.inr ⟨hl, rfl, by rw [hcur]; exact hi⟩⟩
  | cons t l =>
    simp only [reduceCtorEq, decide_false, Bool.false_eq_true, if_false, wpIf_bind]
    refine wpIf_zoom.mpr (wpIf_of_wp (wp_mono (listPopFront_spec h.lists hl) ?_))
    rintro n L ⟨rfl, hL⟩
    refine wpIf_zoom.mpr (wpIf_pure.mpr ?_)
    obtain ⟨hq, hst⟩ := h.dequeue hl hL
    simp only [wpIf_assert, decide_eq_true_eq]
    refine ⟨fun _ => ⟨fun _ => ?_, fun _ => by rw [hst]; rfl⟩, fun _ => hstop _⟩
    refine wpIf_of_wp (wp_mono (@switch_spec { k with links := L } _ t hq hstop) ?_)
    rintro - k' ⟨hinv, hcur, hidle, hval⟩
    exact ⟨_, hinv, hidle, hval, Or.inl ⟨l, by rw [hcur]; exact hl, rfl⟩⟩

/-! The steps. -/

theorem Queues.setLinks (h : Queues k q) (hL : Lists L q) : Queues { k with links := L } q :=
  { h with lists := hL }

theorem Inv.setValue (h : Inv k q) (hs : (k.value s).isSome) (v : Nat) :
    Inv { k with value := update k.value s (some v) } q :=
  { h with
    semas := fun x => by
      rw [h.semas x]
      by_cases hx : x = s
      · subst hx
        simp only [update_self, hs, Option.isSome_some]
      · simp only [update_of_ne hx] }

theorem Inv.current_running (h : Inv k q) : k.status k.current = some .running :=
  (h.running _).mpr rfl

theorem Inv.current_loose (h : Inv k q) : Loose q k.current :=
  h.loose (by rw [h.current_running]; simp) (by rw [h.current_running]; simp)

/-- Once the running thread has another status, none is running. -/
theorem Inv.stopped (h : Inv k q) (hst : st ≠ some .running) (x : Nat) :
    update k.status k.current st x ≠ some .running := by
  by_cases hx : x = k.current
  · subst hx
    rwa [update_self]
  · rw [update_of_ne hx, Ne, h.running]
    exact hx

/-- The semaphores, each with the threads on its list. -/
def semas (k : Kernel) (q : Queue → Option (List Nat)) (s : Nat) : Option (Sema Nat) :=
  (k.value s).bind fun v => (q (.waiters s)).map fun w => ⟨v, w⟩

theorem semas_congr (hv : k'.value = k.value) (hq : ∀ s, q' (.waiters s) = q (.waiters s)) :
    semas k' q' = semas k q := by
  funext s
  rw [semas, semas, hv, hq]

theorem semas_eq (hv : k.value s = some v) (hw : q (.waiters s) = some w) :
    semas k q s = some ⟨v, w⟩ := by
  rw [semas, hv, hw]
  rfl

theorem semas_update (hv : k'.value = update k.value s (some v)) (hw : q' (.waiters s) = some w)
    (hq : ∀ x, x ≠ s → q' (.waiters x) = q (.waiters x)) :
    semas k' q' = update (semas k q) s (some ⟨v, w⟩) := by
  funext x
  by_cases hx : x = s
  · subst hx
    rw [update_self]
    exact semas_eq (by rw [hv, update_self]) hw
  · rw [update_of_ne hx, semas, semas, hv, update_of_ne hx, hq x hx]

/-- How a step changes the run queue. Threads that become ready are put at its back. If
    there is a switch, the thread at its front is dispatched, or the idle thread if it is
    empty. -/
def Dispatched (switch : Prop) (k : Kernel) (l : List Nat) (k' : Kernel) (l' : List Nat) : Prop :=
  ∃ pushed, (∀ t ∈ pushed, k.status t ≠ some .ready ∧ k.idleThread ≠ some t) ∧
    ((¬switch ∧ k'.current = k.current ∧ l' = l ++ pushed) ∨
      (switch ∧ (l ++ pushed = k'.current :: l' ∨
        (l ++ pushed = [] ∧ l' = [] ∧ k.idleThread = some k'.current))))

/-- What a step leads to. -/
def Goes (switch : Prop) (sem : Nat → Option (Sema Nat)) (k : Kernel)
    (q : Queue → Option (List Nat)) (k' : Kernel) : Prop :=
  ∃ q' l l', Inv k' q' ∧ q .ready = some l ∧ q' .ready = some l' ∧ Dispatched switch k l k' l' ∧
    (k.idleThread.isSome → k'.idleThread = k.idleThread) ∧ semas k' q' = sem

theorem Goes.congr {p p' : Prop} {sem sem' : Nat → Option (Sema Nat)}
    (h : Goes p sem k q k') (hp : p ↔ p') (hsem : sem = sem') : Goes p' sem' k q k' := by
  rw [← propext hp, ← hsem]
  exact h

theorem Inv.goes_on (h : Inv k q) (h' : Inv k' q') (hc : k'.current = k.current)
    (hq : q' .ready = q .ready) (hidle : k.idleThread.isSome → k'.idleThread = k.idleThread) :
    Goes False (semas k' q') k q k' := by
  obtain ⟨l, hl, -⟩ := h.ready
  have hd : Dispatched False k l k' l :=
    ⟨[], by simp, Or.inl ⟨id, hc, (List.append_nil l).symm⟩⟩
  exact ⟨q', l, l, h', hl, hq.trans hl, hd, hidle, rfl⟩

theorem Inv.goes_ready (h' : Inv k' q') (hc : k'.current = k.current) (hl : q .ready = some l)
    (hl' : q' .ready = some (l ++ [t])) (hst : k.status t ≠ some .ready)
    (ht : k.idleThread ≠ some t) (hidle : k'.idleThread = k.idleThread) :
    Goes False (semas k' q') k q k' := by
  have hd : Dispatched False k l k' (l ++ [t]) := by
    refine ⟨[t], fun x hx => ?_, Or.inl ⟨id, hc, rfl⟩⟩
    obtain rfl := List.mem_singleton.mp hx
    exact ⟨hst, ht⟩
  exact ⟨q', l, l ++ [t], h', hl, hl', hd, fun _ => hidle, rfl⟩

theorem Next.goes (hn : Next k.idleThread q₁ k' q') (h' : Inv k' q') (hl : q .ready = some l)
    (hp : ∀ t ∈ pushed, k.status t ≠ some .ready ∧ k.idleThread ≠ some t)
    (hq : q₁ .ready = some (l ++ pushed)) (hidle : k'.idleThread = k.idleThread)
    (hval : k'.value = k₁.value) : Goes True (semas k₁ q₁) k q k' := by
  rcases hn with ⟨m, hm, rfl⟩ | ⟨hm, rfl, hi⟩
  · rw [hq, Option.some.injEq] at hm
    have hd : Dispatched True k l k' m := ⟨pushed, hp, Or.inr ⟨trivial, Or.inl hm⟩⟩
    exact ⟨_, l, m, h', hl, update_self .., hd, fun _ => hidle,
      semas_congr hval fun s => update_of_ne (by simp) ..⟩
  · rw [hm, Option.some.injEq] at hq
    have hd : Dispatched True k l k' [] :=
      ⟨pushed, hp, Or.inr ⟨trivial, Or.inr ⟨hq.symm, rfl, hi⟩⟩⟩
    exact ⟨_, l, [], h', hl, hm, hd, fun _ => hidle, semas_congr hval fun _ => rfl⟩

theorem threadUnblock_spec (h : Queues k q) (hl : q .ready = some l)
    (hst : k.status t = some .blocked) (ht : Loose q t) (hidle : k.idleThread ≠ some t) :
    wp (threadUnblock t) (fun _ k' => ∃ L, k' = { k with
      links := L
      status := update k.status t (some .ready) } ∧
      Queues k' (update q .ready (some (l ++ [t])))) k := by
  simp only [threadUnblock, onLinks, wp_bind, wp_get, wp_assert, hst, Option.isSome_some,
    decide_true, true_and]
  refine wp_zoom.mpr (wp_mono (listPushBack_spec h.lists hl ht) ?_)
  intro _ L hL
  simp only [Threads.setStatus, wp_modify]
  exact ⟨L, rfl, h.enqueue hl ht hidle hL⟩

section
variable (h : Inv k q)
include h

theorem Inv.running_other (ht : k.status t ≠ some .running) (hst : st ≠ some .running) (x : Nat) :
    update k.status t st x = some .running ↔ x = k.current := by
  by_cases hx : x = t
  · subst hx
    simp only [update_self, hst, false_iff]
    rintro rfl
    exact ht h.current_running
  · rw [update_of_ne hx]
    exact h.running x

theorem Inv.create (ht : k.status t = none) :
    wp (threadCreate t) (fun _ k' => Goes False (semas k q) k q k') k := by
  have hloose : Loose q t := h.loose (by rw [ht]; simp) (by rw [ht]; simp)
  simp only [threadCreate, onLinks, setPrev, setNext, wp_bind, wp_zoom, wp_modify,
    Threads.setStatus]
  have hL : Lists ⟨update k.links.prev (.elem t) none,
      update k.links.next (.elem t) none⟩ q := by
    refine h.lists.congr fun i l n hi hn => ?_
    have hne : n ≠ .elem t := by
      rintro rfl
      exact hloose i l hi hn
    exact ⟨update_of_ne hne .., update_of_ne hne ..⟩
  have hq := (h.setLinks hL).setStatus hloose (some .blocked) (fun hst => by cases hst)
    fun _ => ⟨by simp, by simp⟩
  exact h.goes_on ⟨hq, h.running_other (by rw [ht]; simp) (by simp)⟩ rfl rfl fun _ => rfl

theorem Inv.unblock (ht : k.status t = some .blocked) (hw : ¬Waiting k t)
    (hidle : k.idleThread ≠ some t) :
    wp (threadUnblock t) (fun _ k' => Goes False (semas k q) k q k') k := by
  obtain ⟨l, hl, hmem⟩ := h.ready
  have hloose : Loose q t := by
    intro i m hi hm
    cases i with
    | ready => grind
    | waiters s => exact hw ⟨s, m, (h.semas s).mp (by rw [hi]; rfl), h.lists.list hi, hm⟩
  refine wp_mono (threadUnblock_spec h.toQueues hl ht hloose hidle) ?_
  rintro - k' ⟨L, rfl, hq⟩
  have hinv : Inv _ _ := ⟨hq, h.running_other (by rw [ht]; simp) (by simp)⟩
  have hg : Goes False _ k q _ := hinv.goes_ready rfl hl (update_self ..)
    (by rw [ht]; simp) hidle rfl
  exact hg.congr Iff.rfl (semas_congr rfl fun s => update_of_ne (by simp) ..)

/-- The running thread stops, and has been put on the list it has to be on. -/
theorem Inv.switch (h₁ : Queues k₁ q₁) (hst : st ≠ some .running)
    (hs : k₁.status = update k.status k.current st) (hidle : k₁.idleThread = k.idleThread)
    (hp : ∀ t ∈ pushed, k.status t ≠ some .ready ∧ k.idleThread ≠ some t) (hl : q .ready = some l)
    (hl₁ : q₁ .ready = some (l ++ pushed)) :
    wpIf k.idleThread.isSome schedule (fun _ k' => Goes True (semas k₁ q₁) k q k') k₁ := by
  have hstop : ∀ x, k₁.status x ≠ some .running := by
    intro x
    rw [hs]
    exact h.stopped hst x
  have hspec := schedule_spec h₁ hstop
  rw [hidle] at hspec
  refine wpIf_mono hspec ?_
  rintro - k' ⟨q', hinv, hi', hval, hn⟩
  exact hn.goes hinv hl hp hl₁ hi' hval

theorem Inv.block :
    wpIf k.idleThread.isSome threadBlock (fun _ k' => Goes True (semas k q) k q k') k := by
  obtain ⟨l, hl, -⟩ := h.ready
  simp only [threadBlock, Threads.setStatus, wpIf_bind, wpIf_get, wpIf_modify]
  have hq := h.setStatus h.current_loose (some .blocked) (fun hst => by cases hst)
    fun _ => ⟨by simp, by simp⟩
  exact h.switch hq (by simp) rfl rfl (List.forall_mem_nil _) hl (by rw [List.append_nil]; exact hl)

theorem Inv.exit (hidle : k.idleThread ≠ some k.current) :
    wpIf k.idleThread.isSome threadExit (fun _ k' => Goes True (semas k q) k q k') k := by
  obtain ⟨l, hl, -⟩ := h.ready
  simp only [threadExit, Threads.setStatus, wpIf_bind, wpIf_get, wpIf_modify]
  have hq := h.setStatus h.current_loose (some .dying) (fun hst => by cases hst)
    fun hi => absurd hi hidle
  exact h.switch hq (by simp) rfl rfl (List.forall_mem_nil _) hl (by rw [List.append_nil]; exact hl)

theorem Inv.yield :
    wpIf k.idleThread.isSome threadYield (fun _ k' => Goes True (semas k q) k q k') k := by
  obtain ⟨l, hl, -⟩ := h.ready
  simp only [threadYield, Threads.setStatus, onLinks, wpIf_bind, wpIf_get]
  by_cases hidle : k.idleThread = some k.current
  · simp only [if_neg (not_not_intro hidle), wpIf_pure, wpIf_modify]
    have hq := h.setStatus h.current_loose (some .ready) (fun _ => hidle)
      fun _ => ⟨by simp, by simp⟩
    exact h.switch hq (by simp) rfl rfl (List.forall_mem_nil _) hl
      (by rw [List.append_nil]; exact hl)
  · rw [if_pos hidle]
    refine wpIf_zoom.mpr (wpIf_of_wp (wp_mono (listPushBack_spec h.lists hl h.current_loose) ?_))
    intro _ L hL
    rw [wpIf_modify]
    have hsw := h.switch (h.enqueue hl h.current_loose hidle hL) (by simp) rfl rfl (fun x hx => by
      obtain rfl := List.mem_singleton.mp hx
      exact ⟨by rw [h.current_running]; simp, hidle⟩) hl (update_self ..)
    refine wpIf_mono hsw fun _ _ hg => hg.congr Iff.rfl ?_
    exact semas_congr rfl fun s => update_of_ne (by simp) ..

theorem Inv.becomeIdle (hidle : k.idleThread = none) :
    wp idleStart (fun _ k' => Goes False (semas k q) k q k') k := by
  have hcur := h.current_running
  have hne : ∀ {x st}, k.status x = some st → st ≠ .running → some k.current ≠ some x := by grind
  rw [idleStart, wp_modify]
  refine h.goes_on ⟨⟨h.lists, h.semas, ?_, fun hs hx => ?_, fun hx => ?_⟩, h.running⟩ rfl rfl
    fun hi => by rw [hidle] at hi; cases hi
  · grind [h.ready]
  · exact ⟨(h.waiting hs hx).1, hne (h.waiting hs hx).1 (by simp)⟩
  · cases hx
    rw [hcur]
    exact ⟨by simp, by simp⟩

theorem Inv.semaInit (s v : Nat) : wp (Threads.semaInit s v) (fun _ k' =>
      Goes False (update (semas k q) s (some (.init v))) k q k') k := by
  simp only [Threads.semaInit, Threads.setValue, onLinks, wp_bind, wp_modify]
  refine wp_zoom.mpr (wp_mono (listInit_spec h.lists (.waiters s)) ?_)
  intro _ L hL
  have hready : update q (.waiters s) (some []) .ready = q .ready :=
    update_of_ne (by simp) ..
  have hq : Queues { k with
      links := L
      value := update k.value s (some v) } (update q (.waiters s) (some [])) := by
    refine ⟨hL, fun x => ?_, by rw [hready]; exact h.ready, fun {x m t} hs hx => ?_, h.idle⟩
    · grind [h.semas]
    · grind [h.waiting]
  have hinv : Inv _ _ := ⟨hq, h.running⟩
  refine (h.goes_on hinv rfl hready fun _ => rfl).congr Iff.rfl ?_
  exact semas_update rfl (update_self ..) fun x hx =>
    update_of_ne (by simpa using hx) ..

/-- A thread that finds the semaphore at zero joins its waiters and blocks. -/
theorem Inv.semaDown (hs : (k.value s).isSome) (hidle : k.idleThread ≠ some k.current) :
    wpIf k.idleThread.isSome (Threads.semaDown s) (fun _ k' => Goes (k.value s = some 0)
      ((Event.semaDown s).onSemas k.current (semas k q)) k q k') k := by
  obtain ⟨l, hl, -⟩ := h.ready
  obtain ⟨w, hw⟩ := Option.isSome_iff_exists.mp ((h.semas s).mpr hs)
  simp only [Threads.semaDown, Threads.setValue, onLinks, wpIf_bind, wpIf_get, wpIf_follow]
  refine ⟨fun v hv => ?_, fun _ => hs⟩
  by_cases hv0 : v = 0
  · rw [if_pos hv0, wpIf_bind, wpIf_get, wpIf_bind]
    refine wpIf_zoom.mpr (wpIf_of_wp (wp_mono (listPushBack_spec h.lists hw h.current_loose) ?_))
    intro _ L hL
    simp only [threadBlock, Threads.setStatus, wpIf_bind, wpIf_get, wpIf_modify]
    subst hv0
    have hsw := h.switch (h.wait hw h.current_loose hidle hL) (by simp) rfl rfl
      (List.forall_mem_nil _) hl
      (by rw [update_of_ne (by simp), List.append_nil]; exact hl)
    refine wpIf_mono hsw fun _ _ hg => hg.congr (iff_of_true trivial hv) ?_
    rw [Event.onSemas, semas_eq hv hw]
    exact semas_update (by rw [← hv, update_eq_self]) (update_self ..) fun x hx =>
      update_of_ne (by simpa using hx) ..
  · rw [if_neg hv0, wpIf_modify]
    refine (h.goes_on (h.setValue hs (v - 1)) rfl rfl fun _ => rfl).congr (iff_of_false id ?_) ?_
    · rw [hv, Option.some.injEq]
      exact hv0
    · rw [Event.onSemas, semas_eq hv hw, Option.map_some, Sema.down, if_neg hv0]
      exact semas_update rfl hw fun _ _ => rfl

theorem Inv.semaTryDown (hs : (k.value s).isSome) : wp (Threads.semaTryDown s) (fun _ k' =>
      Goes False ((Event.semaTryDown s).onSemas k.current (semas k q)) k q k') k := by
  obtain ⟨v, hv⟩ := Option.isSome_iff_exists.mp hs
  obtain ⟨w, hw⟩ := Option.isSome_iff_exists.mp ((h.semas s).mpr hs)
  simp only [Threads.semaTryDown, Threads.setValue, wp_bind, wp_get, wp_follow]
  refine ⟨v, hv, ?_⟩
  by_cases hpos : v > 0
  · rw [if_pos hpos, wp_bind, wp_modify, wp_pure]
    refine (h.goes_on (h.setValue hs (v - 1)) rfl rfl fun _ => rfl).congr Iff.rfl ?_
    rw [Event.onSemas, semas_eq hv hw, Option.map_some, Sema.tryDown, if_pos hpos]
    exact semas_update rfl hw fun _ _ => rfl
  · rw [if_neg hpos, wp_pure]
    refine (h.goes_on h rfl rfl fun _ => rfl).congr Iff.rfl ?_
    rw [Event.onSemas, semas_eq hv hw, Option.map_some, Sema.tryDown, if_neg hpos,
      ← semas_eq hv hw, update_eq_self]

theorem Inv.semaUp (hs : (k.value s).isSome) : wp (Threads.semaUp s) (fun _ k' =>
      Goes False ((Event.semaUp s).onSemas k.current (semas k q)) k q k') k := by
  obtain ⟨v, hv⟩ := Option.isSome_iff_exists.mp hs
  obtain ⟨w, hw⟩ := Option.isSome_iff_exists.mp ((h.semas s).mpr hs)
  obtain ⟨l, hl, -⟩ := h.ready
  simp only [Threads.semaUp, Threads.setValue, onLinks, wp_bind, wp_get, wp_follow]
  refine ⟨v, hv, ?_⟩
  rw [listEmpty_eq (h.lists.list hw)]
  cases w with
  | nil =>
    simp only [decide_true, if_true, wp_pure, wp_modify]
    refine (h.goes_on (h.setValue hs _) rfl rfl fun _ => rfl).congr Iff.rfl ?_
    rw [Event.onSemas, semas_eq hv hw]
    exact semas_update rfl hw fun _ _ => rfl
  | cons t w =>
    obtain ⟨hst, hidle⟩ := h.waiting hw (List.mem_cons_self ..)
    simp only [reduceCtorEq, decide_false, Bool.false_eq_true, if_false, wp_bind]
    refine wp_zoom.mpr (wp_mono (listPopFront_spec h.lists hw) ?_)
    rintro n L ⟨rfl, hL⟩
    refine wp_zoom.mpr (wp_pure.mpr ?_)
    obtain ⟨hq, hloose⟩ := h.wake hw hL
    have hl' : update q (.waiters s) (some w) .ready = some l := by
      rw [update_of_ne (by simp)]
      exact hl
    refine wp_mono (threadUnblock_spec hq hl' hst hloose hidle) ?_
    rintro - k' ⟨L', rfl, hq'⟩
    rw [wp_modify]
    have hinv : Inv { k with
        links := L'
        status := update k.status t (some .ready) } _ :=
      ⟨hq', h.running_other (by rw [hst]; simp) (by simp)⟩
    have hg : Goes False _ k q _ := (hinv.setValue hs ((v + 1) % wordSize)).goes_ready rfl hl
      (update_self ..) (by rw [hst]; simp) hidle rfl
    refine hg.congr Iff.rfl ?_
    rw [Event.onSemas, semas_eq hv hw]
    refine semas_update rfl ?_ fun x hx => ?_
    · rw [update_of_ne (by simp), update_self]
      rfl
    · rw [update_of_ne (by simp), update_of_ne (by simpa using hx)]

/-- **What one step does.** It has an outcome once there is an idle thread. -/
theorem Inv.step (hp : Proper k e) : wpIf k.idleThread.isSome e.exec (fun _ k' =>
      Goes (Switches k e) (e.onSemas k.current (semas k q)) k q k') k := by
  cases e with
  | create t => exact wpIf_of_wp (h.create hp)
  | unblock t => exact wpIf_of_wp (h.unblock hp.1 hp.2.1 hp.2.2)
  | block => exact h.block
  | yield => exact h.yield
  | exit => exact h.exit hp
  | idle => exact wpIf_of_wp (h.becomeIdle hp)
  | semaInit s v => exact wpIf_of_wp (h.semaInit s v)
  | semaDown s => exact h.semaDown hp.1 hp.2
  | semaTryDown s =>
    refine wpIf_of_wp (wp_bind.mpr (wp_mono (h.semaTryDown hp) ?_))
    exact fun _ _ hg => wp_pure.mpr hg
  | semaUp s => exact wpIf_of_wp (h.semaUp hp)

/-- The semaphores of the kernel go through the steps of `Sema`, whoever is scheduled. -/
theorem Inv.step_semas (hp : Proper k e) (hs : kernelStep k e = some k') :
    ∃ q', Inv k' q' ∧ semas k' q' = e.onSemas k.current (semas k q) := by
  obtain ⟨⟨_, _⟩, hx, rfl⟩ := Option.map_eq_some_iff.mp hs
  obtain ⟨q', -, -, hq', -, -, -, -, hsem⟩ := (h.step hp).1 _ _ hx
  exact ⟨q', hq', hsem⟩

end

end

/-! Whole runs. -/

theorem inv_threadInit (L : Links Queue Nat) (t : Nat) :
    Inv (threadInit L t) (update (fun _ => none) .ready (some [])) := by
  have hst : ∀ x, (threadInit L t).status x = some .running ↔ x = t := by
    intro x
    by_cases hx : x = t
    · simp [threadInit, hx]
    · simp [threadInit, hx]
  have hall : ∀ x st, (threadInit L t).status x = some st → st = .running := by
    intro x st hx
    by_cases hxt : x = t
    · subst hxt
      simpa [threadInit] using hx.symm
    · simp [threadInit, hxt] at hx
  refine ⟨⟨(lists_none L).clear .ready, fun s => by simp [threadInit],
    ⟨[], update_self .., fun x => ?_⟩, fun hs => by simp at hs, fun hx => by cases hx⟩,
    hst⟩
  refine iff_of_false List.not_mem_nil fun hx => ?_
  cases hall x _ hx.1

/-- **The invariant of every run.** -/
theorem reach_inv {L : Links Queue Nat} {t : Nat} (h : Reach kernelStep Proper (threadInit L t) k) :
    ∃ q, Inv k q := by
  refine h.inv (I := fun k => ∃ q, Inv k q) ⟨_, inv_threadInit L t⟩ ?_
  rintro k e k' ⟨q, hq⟩ hp hs
  obtain ⟨q', hq', -⟩ := hq.step_semas hp hs
  exact ⟨q', hq'⟩

/-- The run queue, and the waiters of the semaphores in use. -/
def InUse (k : Kernel) : Queue → Prop
  | .ready => True
  | .waiters s => (k.value s).isSome

/-- Run-queue discipline. -/
structure Discipline (k : Kernel) : Prop where
  /-- Exactly one thread is running. -/
  running : ∀ t, k.status t = some .running ↔ t = k.current
  /-- The run queue has the ready threads, each once, but never the idle thread. -/
  ready : ∃ l, IsList k.links .ready l ∧
    ∀ t, t ∈ l ↔ k.status t = some .ready ∧ k.idleThread ≠ some t
  /-- The waiters of a semaphore are blocked. -/
  waiters : ∀ s, (k.value s).isSome → ∃ l, IsList k.links (.waiters s) l ∧
    ∀ t ∈ l, k.status t = some .blocked
  /-- A thread is on at most one list. -/
  apart : ∀ i j l m t, InUse k i → InUse k j → IsList k.links i l → IsList k.links j m →
    t ∈ l → t ∈ m → i = j

section
variable {q : Queue → Option (List Nat)}

theorem Queues.inUse (h : Queues k q) {i : Queue} {l : List Nat} (hi : InUse k i)
    (hl : IsList k.links i l) : q i = some l := by
  have hq : (q i).isSome := by
    cases i with
    | ready =>
      obtain ⟨m, hm, -⟩ := h.ready
      rw [hm]
      rfl
    | waiters s => exact (h.semas s).mpr hi
  obtain ⟨m, hm⟩ := Option.isSome_iff_exists.mp hq
  rw [hm, (h.lists.list hm).unique hl]

theorem Inv.discipline (h : Inv k q) : Discipline k where
  running := h.running
  ready := by
    obtain ⟨l, hl, hmem⟩ := h.ready
    exact ⟨l, h.lists.list hl, hmem⟩
  waiters := fun s hs => by
    obtain ⟨l, hl⟩ := Option.isSome_iff_exists.mp ((h.semas s).mpr hs)
    exact ⟨l, h.lists.list hl, fun t ht => (h.waiting hl ht).1⟩
  apart := fun i j l m t hi hj hl hm ht ht' => h.lists.apart (h.inUse hi hl) (h.inUse hj hm) ht ht'

/-- The idle thread is dispatched only if no thread is ready. -/
theorem Dispatched.idle {switch : Prop} {l l' : List Nat}
    (h : Dispatched switch k l k' l') (hs : switch) (hmem : ∀ t ∈ l, k.idleThread ≠ some t)
    (hi : k.idleThread = some k'.current) : l = [] ∧ l' = [] := by
  obtain ⟨pushed, hp, ⟨hn, -⟩ | ⟨-, heq | ⟨heq, hl', -⟩⟩⟩ := h
  · exact absurd hs hn
  · grind [List.mem_cons_self]
  · exact ⟨(List.append_eq_nil_iff.mp heq).1, hl'⟩

end

/-- **Run-queue discipline**: it holds in every state that is reached, every step is
    defined once there is an idle thread, and dispatches in the order of the run queue. -/
theorem run_queue_discipline {L : Links Queue Nat} {t : Nat} {k : Kernel}
    (h : Reach kernelStep Proper (threadInit L t) k) :
    Discipline k ∧ ∀ e, Proper k e → (k.idleThread.isSome → (kernelStep k e).isSome) ∧
      ∀ k' l l', kernelStep k e = some k' → IsList k.links .ready l → IsList k'.links .ready l' →
        Dispatched (Switches k e) k l k' l' ∧
        (Switches k e → k.idleThread = some k'.current → l = [] ∧ l' = []) := by
  obtain ⟨q, hq⟩ := reach_inv h
  refine ⟨hq.discipline, fun e hp => ⟨fun hi => ?_, fun k' l l' hs hl hl' => ?_⟩⟩
  · obtain ⟨a, k', hx⟩ := (hq.step hp).2 hi
    rw [kernelStep, hx]
    rfl
  · obtain ⟨⟨_, _⟩, hx, rfl⟩ := Option.map_eq_some_iff.mp hs
    obtain ⟨q', m, m', hq', hm, hm', hd, -⟩ := (hq.step hp).1 _ _ hx
    obtain rfl := (hq.lists.list hm).unique hl
    obtain rfl := (hq'.lists.list hm').unique hl'
    obtain ⟨l, hl₀, hmem⟩ := hq.ready
    rw [hm, Option.some.injEq] at hl₀
    subst hl₀
    exact ⟨hd, fun hsw hi => hd.idle hsw (fun x hx => ((hmem x).mp hx).2) hi⟩

/-- The parts of `Proper` that can be looked up. A thread whose `elem` has never been
    linked waits for nothing. -/
def properB (k : Kernel) : Event → Bool
  | .create t => (k.status t).isNone
  | .unblock t => k.status t = some .blocked && (k.links.next (.elem t)).isNone &&
      k.idleThread ≠ some t
  | .exit => k.idleThread ≠ some k.current
  | .idle => k.idleThread.isNone
  | .semaDown s => (k.value s).isSome && k.idleThread ≠ some k.current
  | .semaTryDown s | .semaUp s => (k.value s).isSome
  | .block | .yield | .semaInit .. => true

theorem proper_of_properB (h : properB k e = true) : Proper k e := by
  cases e with
  | unblock t =>
    simp only [properB, Bool.and_eq_true, decide_eq_true_eq, Option.isNone_iff_eq_none] at h
    refine ⟨h.1.1, ?_, h.2⟩
    rintro ⟨s, l, -, hl, ht⟩
    obtain ⟨l₁, l₂, rfl⟩ := List.append_of_mem ht
    have hn := (linked_append.mp hl.linked).2.next_eq
    rw [h.1.2] at hn
    cases hn
  | block | yield | semaInit s v => trivial
  | create | exit | idle | semaDown | semaTryDown | semaUp => simpa [properB, Proper] using h

/-- The idle thread starts; the first thread waits for a second one, which exits. -/
def startUp : List Event :=
  [.semaInit 7 0, .create 1, .unblock 1, .semaDown 7, .idle, .semaUp 7, .block, .semaDown 7,
    .create 2, .unblock 2, .semaDown 7, .semaUp 7, .exit]

theorem run_queue_discipline_startUp : ∃ k, Reach kernelStep Proper (threadInit ⟨fun _ => none,
    fun _ => none⟩ 0) k ∧ (k.current = 0 ∧ k.idleThread = some 1 ∧ k.status 2 = none) ∧
    Discipline k := by
  obtain ⟨k, hk, hq⟩ := exists_reach kernelStep (C := Proper) (c := properB)
    (threadInit ⟨fun _ => none, fun _ => none⟩ 0) startUp
    (fun k => k.current = 0 && k.idleThread = some 1 && k.status 2 = none)
    (fun _ _ => proper_of_properB) (by decide +kernel) (by decide +kernel)
  refine ⟨k, hk, ?_, (run_queue_discipline hk).1⟩
  simpa [and_assoc] using hq

end Pintos.Threads
