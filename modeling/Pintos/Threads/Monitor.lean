import Pintos.Threads.Synch

/- Locks and condition variables, `threads/synch.c`.

   Each function is the list of its steps, and a thread inside one has the steps that are
   left. Between any two steps other threads may run. `sema_down` is repeated while the
   thread has to sleep; a thread that is on the waiters of a semaphore takes no step. The
   lists of a condition variable are changed in one step, for only the holder of the lock
   of the condition touches them. `struct semaphore_elem waiter` lives in the frame of
   `cond_wait`: there is one for each thread that is inside, and it is gone after the return.

   Correspondence (C ↔ Lean):
     `lock->semaphore`, `waiter.semaphore`        ↔ `sema (.lock l)`, `sema (.waiter t)`
     `lock->holder`, `cond->waiters`              ↔ `holder`, `waiters`
     `lock_acquire`, `lock_try_acquire`,
       `lock_release`                             ↔ `lockAcquire`, `lockTryAcquire`, `lockRelease`
     `cond_wait`, `cond_signal`, `cond_broadcast` ↔ `condWait`, `condSignal`, `condBroadcast`
     `lock_init`, `cond_init`                     ↔ `monitorInit`

   A condition variable is named together with its lock, since it has only one. -/
namespace Pintos.Threads

open Vm (wordSize)
open Function

variable {τ ι κ : Type}

structure Cond (ι κ : Type) where
  lock : ι
  name : κ
  deriving DecidableEq

inductive SemaId (τ ι : Type) where
  | lock (l : ι)
  | waiter (t : τ)
  deriving DecidableEq

inductive Op (τ ι κ : Type) where
  | assertFree (l : ι)
  | assertHeld (l : ι)
  | semaDown (s : SemaId τ ι)
  | semaTryDown (l : ι)
  | semaUp (s : SemaId τ ι)
  | setHolder (l : ι)
  | clearHolder (l : ι)
  | initWaiter
  | pushWaiter (c : Cond ι κ)
  | leave
  | signal (c : Cond ι κ)
  | broadcast (c : Cond ι κ)
  deriving DecidableEq

def lockAcquire (l : ι) : List (Op τ ι κ) := [.assertFree l, .semaDown (.lock l), .setHolder l]

/-- `setHolder` comes next if the semaphore could be decremented. -/
def lockTryAcquire (l : ι) : List (Op τ ι κ) := [.assertFree l, .semaTryDown l]

def lockRelease (l : ι) : List (Op τ ι κ) := [.assertHeld l, .clearHolder l, .semaUp (.lock l)]

def condWait (t : τ) (c : Cond ι κ) : List (Op τ ι κ) :=
  [.assertHeld c.lock, .initWaiter, .pushWaiter c] ++ lockRelease c.lock ++
    [.semaDown (.waiter t)] ++ lockAcquire c.lock ++ [.leave]

/-- `sema_up` comes next if there was a waiter. -/
def condSignal (c : Cond ι κ) : List (Op τ ι κ) := [.assertHeld c.lock, .signal c]

/-- One test of the loop; `condSignal` comes next if there is a waiter. -/
def condBroadcast (c : Cond ι κ) : List (Op τ ι κ) := [.broadcast c]

inductive Call (ι κ : Type) where
  | acquire (l : ι)
  | tryAcquire (l : ι)
  | release (l : ι)
  | wait (c : Cond ι κ)
  | signal (c : Cond ι κ)
  | broadcast (c : Cond ι κ)

def Call.body (t : τ) : Call ι κ → List (Op τ ι κ)
  | acquire l => lockAcquire l
  | tryAcquire l => lockTryAcquire l
  | release l => lockRelease l
  | wait c => condWait t c
  | signal c => condSignal c
  | broadcast c => condBroadcast c

/-- The last four are what has happened: the last call of each thread, the threads that were
    on the list of the condition when it was made, those it has picked, and whether a thread
    has been picked since it last entered `cond_wait`. -/
structure Monitor (τ ι κ : Type) where
  sema : SemaId τ ι → Option (Sema τ)
  holder : ι → Option τ
  waiters : Cond ι κ → List τ
  todo : τ → List (Op τ ι κ)
  call : τ → Option (Call ι κ)
  present : τ → List τ
  picked : τ → List τ
  chosen : τ → Bool

def monitorInit : Monitor τ ι κ where
  sema := fun s => match s with
    | .lock _ => some (.init 1)
    | .waiter _ => none
  holder := fun _ => none
  waiters := fun _ => []
  todo := fun _ => []
  call := fun _ => none
  present := fun _ => []
  picked := fun _ => []
  chosen := fun _ => false

inductive MonitorEvent (τ ι κ : Type) where
  | call (t : τ) (c : Call ι κ)
  | step (t : τ)

namespace Monitor

variable [DecidableEq τ] [DecidableEq ι] [DecidableEq κ]

def goOn (m : Monitor τ ι κ) (t : τ) (r : List (Op τ ι κ)) : Monitor τ ι κ :=
  { m with todo := update m.todo t r }

def setSema (m : Monitor τ ι κ) (s : SemaId τ ι) (x : Option (Sema τ)) : Monitor τ ι κ :=
  { m with sema := update m.sema s x }

/-- A step of the thread `t`, after which `r` is left; `none` if an assertion fails, a
    semaphore is used that is not there, or the thread sleeps. -/
def exec (m : Monitor τ ι κ) (t : τ) (r : List (Op τ ι κ)) : Op τ ι κ → Option (Monitor τ ι κ)
  | .assertFree l => if m.holder l ≠ some t then some (m.goOn t r) else none
  | .assertHeld l => if m.holder l = some t then some (m.goOn t r) else none
  | .semaDown s => (m.sema s).bind fun x =>
      if t ∈ x.waiters then none
      else some ((m.setSema s (some (x.down t).2)).goOn t
        (if (x.down t).1 then r else .semaDown s :: r))
  | .semaTryDown l => (m.sema (.lock l)).bind fun x =>
      some ((m.setSema (.lock l) (some x.tryDown.2)).goOn t
        (if x.tryDown.1 then .setHolder l :: r else r))
  | .semaUp s => (m.sema s).bind fun x => some ((m.setSema s (some x.up.2)).goOn t r)
  | .setHolder l => some ({ m with holder := update m.holder l (some t) }.goOn t r)
  | .clearHolder l => some ({ m with holder := update m.holder l none }.goOn t r)
  | .initWaiter => some ({ m with chosen := update m.chosen t false }.setSema (.waiter t)
      (some (.init 0)) |>.goOn t r)
  | .pushWaiter c => some
      ({ m with waiters := update m.waiters c (m.waiters c ++ [t]) }.goOn t r)
  | .leave => some ((m.setSema (.waiter t) none).goOn t r)
  | .signal c => match m.waiters c with
    | [] => some (m.goOn t r)
    | w :: ws => some ({ m with
        waiters := update m.waiters c ws
        picked := update m.picked t (m.picked t ++ [w])
        chosen := update m.chosen w true }.goOn t (.semaUp (.waiter w) :: r))
  | .broadcast c => some (m.goOn t (match m.waiters c with
    | [] => r
    | _ :: _ => condSignal c ++ .broadcast c :: r))

/-- The threads that a signal or a broadcast could pick. -/
def candidates (m : Monitor τ ι κ) : Call ι κ → List τ
  | .signal c | .broadcast c => m.waiters c
  | .acquire _ | .tryAcquire _ | .release _ | .wait _ => []

def step (m : Monitor τ ι κ) : MonitorEvent τ ι κ → Option (Monitor τ ι κ)
  | .call t c => match m.todo t with
    | [] => some ({ m with
        call := update m.call t (some c)
        present := update m.present t (m.candidates c)
        picked := update m.picked t [] }.goOn t (c.body t))
    | _ :: _ => none
  | .step t => match m.todo t with
    | [] => none
    | op :: r => m.exec t r op

/-- The thread is on the waiters of the semaphore that it is about to decrement. -/
def Asleep (m : Monitor τ ι κ) (t : τ) : Prop :=
  ∃ s x, (m.todo t).head? = some (.semaDown s) ∧ m.sema s = some x ∧ t ∈ x.waiters

/-- The thread has decremented the semaphore of the lock and not yet incremented it again. -/
def Between (m : Monitor τ ι κ) (t : τ) (l : ι) : Prop :=
  m.holder l = some t ∨ (m.todo t).head? = some (.setHolder l) ∨
    (m.todo t).head? = some (.semaUp (.lock l))

end Monitor

/-- What the functions assert of their caller; that of `cond_broadcast` is asserted by
    `cond_signal`. -/
def Asserted (m : Monitor τ ι κ) : MonitorEvent τ ι κ → Prop
  | .call t (.acquire l) | .call t (.tryAcquire l) => m.holder l ≠ some t
  | .call t (.release l) => m.holder l = some t
  | .call t (.wait c) | .call t (.signal c) | .call t (.broadcast c) => m.holder c.lock = some t
  | .step _ => True

/-! Locks. A thread is at one of four places with respect to a lock, and each step of a
    function leads from one place to the next. -/

inductive Hold where
  | out | entering | inside | leaving
  deriving DecidableEq

/-- A step that has nothing to do with the lock. It does not come between the two parts of
    an acquisition or of a release. -/
def Hold.keep : Hold → Option Hold
  | .out => some .out
  | .inside => some .inside
  | .entering | .leaving => none

section
variable [DecidableEq ι] {h : Hold} {l l' : ι}

/-- A step on the lock `l'`, which leads from `a` to `b` there. -/
def moves (l' l : ι) (a b h : Hold) : Option Hold :=
  if l' = l then (if h = a then some b else none) else h.keep

def Op.hold (l : ι) (h : Hold) : Op τ ι κ → Option Hold
  | .assertFree l' | .semaTryDown l' => moves l' l .out .out h
  | .semaDown (.lock l') => moves l' l .out .entering h
  | .setHolder l' => moves l' l .entering .inside h
  | .assertHeld l' => moves l' l .inside .inside h
  | .clearHolder l' => moves l' l .inside .leaving h
  | .semaUp (.lock l') => moves l' l .leaving .out h
  | .pushWaiter c | .signal c | .broadcast c => moves c.lock l .inside .inside h
  | .semaDown (.waiter _) | .semaUp (.waiter _) | .initWaiter | .leave => h.keep

/-- The steps `ops` can be made by a thread that is at `h`. -/
def Fits (l : ι) : Hold → List (Op τ ι κ) → Prop
  | h, [] => h = .out ∨ h = .inside
  | h, op :: r => (∀ l', op = .semaTryDown l' → r = []) ∧ ∃ h', op.hold l h = some h' ∧ Fits l h' r

theorem keep_eq_some {h' : Hold} (hk : h.keep = some h') : h' = h := by
  cases h <;> simp_all [Hold.keep]

theorem moves_self {a b h' : Hold} (hm : moves l l a b h = some h') : h = a ∧ h' = b := by
  rw [moves, if_pos rfl, Option.ite_none_right_eq_some, Option.some.injEq] at hm
  exact ⟨hm.1, hm.2.symm⟩

theorem moves_other {a b h' : Hold} (hne : l' ≠ l) (hm : moves l' l a b h = some h') : h' = h := by
  rw [moves, if_neg hne] at hm
  exact keep_eq_some hm

section Fits
variable {op : Op τ ι κ} {r : List (Op τ ι κ)} {hold : ι → Hold} {l : ι} {a b : Hold}

theorem fits_keep (hop : ∀ l h, op.hold l h = h.keep) (hf : ∀ l, Fits l (hold l) (op :: r)) :
    ∀ l, Fits l (hold l) r := by
  intro l
  obtain ⟨-, h', hh, hr⟩ := hf l
  rw [hop] at hh
  rwa [keep_eq_some hh] at hr

/-- A step on one lock leads from `a` to `b` there and changes nothing at the others. -/
theorem fits_moves (hop : ∀ l' h, op.hold l' h = moves l l' a b h)
    (hf : ∀ l, Fits l (hold l) (op :: r)) :
    hold l = a ∧ Fits l b r ∧ ∀ l', l' ≠ l → Fits l' (hold l') r := by
  obtain ⟨-, h', hh, hr⟩ := hf l
  rw [hop] at hh
  obtain ⟨ha, rfl⟩ := moves_self hh
  refine ⟨ha, hr, fun l' hne => ?_⟩
  obtain ⟨-, h'', hh', hr'⟩ := hf l'
  rw [hop] at hh'
  rwa [moves_other hne.symm hh'] at hr'

theorem fits_stay (hop : ∀ l' h, op.hold l' h = moves l l' a a h)
    (hf : ∀ l, Fits l (hold l) (op :: r)) :
    hold l = a ∧ ∀ l, op.hold l (hold l) = some (hold l) ∧ Fits l (hold l) r := by
  obtain ⟨ha, hl, hr⟩ := fits_moves hop hf
  refine ⟨ha, fun l' => ?_⟩
  by_cases hne : l' = l
  · subst hne
    rw [hop, moves, if_pos rfl, if_pos ha, ha]
    exact ⟨rfl, hl⟩
  · obtain ⟨-, h', hh, -⟩ := hf l'
    rw [hop] at hh
    rw [hop, hh, moves_other (Ne.symm hne) hh]
    exact ⟨rfl, hr l' hne⟩

theorem fits_cons (hop : op.hold l h = some h) (htry : ∀ l', op ≠ .semaTryDown l')
    (hr : Fits l h r) : Fits l h (op :: r) := ⟨fun l' heq => absurd heq (htry l'), h, hop, hr⟩

/-- A thread that makes a step on one lock is not between two steps on another. -/
theorem keep_of_moves (ha : a.keep = some a) (hm : moves l' l a a h = some h) :
    h.keep = some h := by
  by_cases hne : l' = l
  · subst hne
    rw [(moves_self hm).1]
    exact ha
  · rwa [moves, if_neg hne] at hm

end Fits

def Monitor.value (m : Monitor τ ι κ) (l : ι) : Option Nat := (m.sema (.lock l)).map Sema.value

/-- What holds of the locks, with the place of each thread. -/
structure Locks (m : Monitor τ ι κ) (hold : τ → ι → Hold) : Prop where
  fits : ∀ t l, Fits l (hold t l) (m.todo t)
  holder : ∀ t l, m.holder l = some t ↔ hold t l = .inside
  value : ∀ l, (m.value l = some 1 ∧ ∀ t, hold t l = .out) ∨
    (m.value l = some 0 ∧ ∃ t, ∀ u, hold u l ≠ .out ↔ u = t)

section
variable {m : Monitor τ ι κ} {hold : τ → ι → Hold} {t u : τ} {l : ι}

theorem Locks.exclusive (h : Locks m hold) (ht : hold t l ≠ .out) (hu : hold u l ≠ .out) :
    t = u := by
  rcases h.value l with ⟨-, hall⟩ | ⟨-, x, hx⟩
  · exact absurd (hall t) ht
  · rw [(hx t).mp ht, (hx u).mp hu]

theorem Locks.other (h : Locks m hold) (ht : hold t l ≠ .out) (hu : u ≠ t) : hold u l = .out := by
  by_contra hn
  exact hu (h.exclusive hn ht)

theorem Locks.value_zero (h : Locks m hold) (ht : hold t l ≠ .out) :
    m.value l = some 0 ∧ ∀ u, hold u l ≠ .out ↔ u = t := by
  rcases h.value l with ⟨-, hall⟩ | ⟨hv, x, hx⟩
  · exact absurd (hall t) ht
  · rw [(hx t).mp ht]
    exact ⟨hv, hx⟩

theorem Locks.between (h : Locks m hold) (ht : m.Between t l) : hold t l ≠ .out := by
  rcases ht with hh | hh | hh
  · rw [(h.holder t l).mp hh]
    simp
  · obtain ⟨r, hr⟩ := List.head?_eq_some_iff.mp hh
    obtain ⟨-, h', hh', -⟩ : Fits l (hold t l) (.setHolder l :: r) := hr ▸ h.fits t l
    rw [(moves_self hh').1]
    simp
  · obtain ⟨r, hr⟩ := List.head?_eq_some_iff.mp hh
    obtain ⟨-, h', hh', -⟩ : Fits l (hold t l) (.semaUp (.lock l) :: r) := hr ▸ h.fits t l
    rw [(moves_self hh').1]
    simp

theorem Locks.fits_body (h : Locks m hold) {c : Call ι κ} (hnil : m.todo t = [])
    (ha : Asserted m (.call t c)) (l : ι) : Fits l (hold t l) (c.body t) := by
  have hp : ∀ l, hold t l = .out ∨ hold t l = .inside := fun l => by
    have := h.fits t l
    rwa [hnil] at this
  have hfree : ∀ {l}, m.holder l ≠ some t → hold t l = .out := fun {l} hn =>
    (hp l).resolve_right fun hin => hn ((h.holder t l).mpr hin)
  have hkeep : (hold t l).keep = some (hold t l) := by
    rcases hp l with hl | hl <;> rw [hl] <;> rfl
  cases c with
  | acquire l' | tryAcquire l' =>
    have hout := hfree ha
    by_cases hl : l' = l
    · subst hl
      simp [Call.body, lockAcquire, lockTryAcquire, Fits, Op.hold, moves, hout]
    · simp [Call.body, lockAcquire, lockTryAcquire, Fits, Op.hold, moves, hl, hkeep, hp]
  | release l' =>
    have hin := (h.holder t l').mp ha
    by_cases hl : l' = l
    · subst hl
      simp [Call.body, lockRelease, Fits, Op.hold, moves, hin]
    · simp [Call.body, lockRelease, Fits, Op.hold, moves, hl, hkeep, hp]
  | wait c | signal c | broadcast c =>
    have hin := (h.holder t c.lock).mp ha
    by_cases hl : c.lock = l
    · subst hl
      simp [Call.body, condWait, condSignal, condBroadcast, lockRelease, lockAcquire, Fits, Op.hold,
        moves, hin, Hold.keep]
    · simp [Call.body, condWait, condSignal, condBroadcast, lockRelease, lockAcquire, Fits, Op.hold,
        moves, hl, hkeep, hp]

end

variable [DecidableEq τ]

def setHold (hold : τ → ι → Hold) (t : τ) (l : ι) (h : Hold) : τ → ι → Hold :=
  update hold t (update (hold t) l h)

@[simp, grind =] theorem setHold_apply (hold : τ → ι → Hold) (t u : τ) (l l' : ι) (h : Hold) :
    setHold hold t l h u l' = if u = t ∧ l' = l then h else hold u l' := by
  by_cases hu : u = t
  · subst hu
    by_cases hl : l' = l
    · subst hl
      simp [setHold]
    · simp [setHold, hl]
  · simp [setHold, hu]

section Locks
variable {m m' : Monitor τ ι κ} {hold : τ → ι → Hold} {t : τ} {l : ι} {r : List (Op τ ι κ)}
  {b : Hold}

theorem Locks.neutral (h : Locks m hold) (htodo : m'.todo = update m.todo t r)
    (hf : ∀ l, Fits l (hold t l) r) (hh : m'.holder = m.holder)
    (hv : ∀ l, m'.value l = m.value l) : Locks m' hold where
  fits := fun u l => by
    rw [htodo]
    grind [h.fits u l, update_apply]
  holder := fun u l => by rw [hh]; exact h.holder u l
  value := fun l => by rw [hv]; exact h.value l

theorem Locks.fits_setHold (h : Locks m hold) (htodo : m'.todo = update m.todo t r)
    (hl : Fits l b r) (hr : ∀ l', l' ≠ l → Fits l' (hold t l') r) (u : τ) (l' : ι) :
    Fits l' (setHold hold t l b u l') (m'.todo u) := by
  rw [htodo]
  grind [h.fits u l', update_apply]

theorem Locks.enter (h : Locks m hold) {v : Nat} (hv : m.value l = some v) (hpos : v ≠ 0)
    (hout : hold t l = .out) (htodo : m'.todo = update m.todo t r)
    (hl : Fits l .entering r) (hr : ∀ l', l' ≠ l → Fits l' (hold t l') r)
    (hh : m'.holder = m.holder) (hvl : m'.value l = some (v - 1))
    (hvo : ∀ l', l' ≠ l → m'.value l' = m.value l') : Locks m' (setHold hold t l .entering) := by
  have hfree : v = 1 ∧ ∀ u, hold u l = .out := by
    rcases h.value l with ⟨hv1, hall⟩ | ⟨hv0, -⟩
    · rw [hv, Option.some.injEq] at hv1
      exact ⟨hv1, hall⟩
    · rw [hv, Option.some.injEq] at hv0
      exact absurd hv0 hpos
  refine ⟨h.fits_setHold htodo hl hr, fun u l' => ?_, fun l' => ?_⟩
  · grind [h.holder u l']
  · by_cases hne : l' = l
    · subst hne
      exact .inr ⟨by rw [hvl, hfree.1], t, fun u => by grind⟩
    · simpa [hne, hvo l' hne] using h.value l'

/-- A thread that is not outside stays so; the holder is written. -/
theorem Locks.write (h : Locks m hold) (hin : hold t l ≠ .out) (hb : b ≠ .out)
    (htodo : m'.todo = update m.todo t r)
    (hl : Fits l b r) (hr : ∀ l', l' ≠ l → Fits l' (hold t l') r)
    (hh : m'.holder = update m.holder l (if b = .inside then some t else none))
    (hv : ∀ l', m'.value l' = m.value l') : Locks m' (setHold hold t l b) := by
  have hzero := h.value_zero hin
  refine ⟨h.fits_setHold htodo hl hr, fun u l' => ?_, fun l' => ?_⟩
  · rw [hh]
    grind [h.holder u l', update_apply]
  · by_cases hne : l' = l
    · subst hne
      exact .inr ⟨by rw [hv, hzero.1], t, fun u => by grind⟩
    · simpa [hne, hv l'] using h.value l'

theorem Locks.quit (h : Locks m hold) (hin : hold t l = .leaving)
    (htodo : m'.todo = update m.todo t r)
    (hl : Fits l .out r) (hr : ∀ l', l' ≠ l → Fits l' (hold t l') r) (hh : m'.holder = m.holder)
    (hvl : m'.value l = (m.value l).map (fun v => (v + 1) % wordSize))
    (hvo : ∀ l', l' ≠ l → m'.value l' = m.value l') : Locks m' (setHold hold t l .out) := by
  have hzero := h.value_zero (t := t) (l := l) (by rw [hin]; simp)
  have hone : m'.value l = some 1 := by rw [hvl, hzero.1]; rfl
  refine ⟨h.fits_setHold htodo hl hr, fun u l' => ?_, fun l' => ?_⟩
  · grind [h.holder u l']
  · by_cases hne : l' = l
    · subst hne
      exact .inl ⟨hone, fun u => by grind⟩
    · simpa [hne, hvo l' hne] using h.value l'

@[simp] theorem Monitor.value_setSema_waiter (m : Monitor τ ι κ) (t : τ) (x : Option (Sema τ))
    (l : ι) : (m.setSema (.waiter t) x).value l = m.value l := by
  simp [Monitor.value, Monitor.setSema]

@[simp] theorem Monitor.value_setSema_lock (m : Monitor τ ι κ) (x : Sema τ) (l : ι) :
    (m.setSema (.lock l) (some x)).value l = some x.value := by
  simp [Monitor.value, Monitor.setSema]

theorem Monitor.value_setSema_other (m : Monitor τ ι κ) (x : Option (Sema τ)) (hne : l' ≠ l) :
    (m.setSema (.lock l) x).value l' = m.value l' := by
  simp [Monitor.value, Monitor.setSema, hne]

variable [DecidableEq κ]

theorem Locks.exec {op : Op τ ι κ} (h : Locks m hold) (htodo : m.todo t = op :: r)
    (hs : m.exec t r op = some m') : ∃ hold', Locks m' hold' := by
  have hf : ∀ l, Fits l (hold t l) (op :: r) := fun l => by rw [← htodo]; exact h.fits t l
  cases op with
  | assertFree l | assertHeld l =>
    rw [Monitor.exec, Option.ite_none_right_eq_some] at hs
    cases hs.2
    exact ⟨hold, h.neutral rfl (fun l => ((fits_stay (fun _ _ => rfl) hf).2 l).2) rfl fun _ => rfl⟩
  | semaDown s =>
    rw [Monitor.exec, Option.bind_eq_some_iff] at hs
    obtain ⟨x, hx, hs⟩ := hs
    rw [Option.ite_none_left_eq_some] at hs
    cases hs.2
    cases s with
    | waiter w =>
      refine ⟨hold, h.neutral rfl (fun l => ?_) rfl fun l =>
        m.value_setSema_waiter w (some (x.down t).2) l⟩
      split
      · exact fits_keep (fun _ _ => rfl) hf l
      · exact hf l
    | lock l =>
      have hv : m.value l = some x.value := by rw [Monitor.value, hx]; rfl
      by_cases hz : x.value = 0
      · simp only [Sema.down, if_pos hz, Bool.false_eq_true, if_false]
        refine ⟨hold, h.neutral rfl hf rfl fun l' => ?_⟩
        by_cases hne : l' = l
        · subst hne
          exact (m.value_setSema_lock _ l').trans hv.symm
        · exact m.value_setSema_other _ hne
      · obtain ⟨hout, hl, hr⟩ := fits_moves (fun _ _ => rfl) hf
        simp only [Sema.down, if_neg hz, if_true]
        exact ⟨_, h.enter hv hz hout rfl hl hr rfl (m.value_setSema_lock _ l)
          fun l' hne => m.value_setSema_other _ hne⟩
  | semaTryDown l =>
    rw [Monitor.exec, Option.bind_eq_some_iff] at hs
    obtain ⟨x, hx, hs⟩ := hs
    cases hs
    have hv : m.value l = some x.value := by rw [Monitor.value, hx]; rfl
    obtain ⟨hout, hstay⟩ := fits_stay (fun _ _ => rfl) hf
    obtain rfl : r = [] := (hf l).1 l rfl
    by_cases hz : x.value > 0
    · simp only [Sema.tryDown, if_pos hz, if_true]
      refine ⟨_, h.enter hv (by omega) hout rfl ⟨(by simp), _, by simp [Op.hold, moves], Or.inr rfl⟩
        (fun l' hne => ?_) rfl (m.value_setSema_lock _ l) fun l' hne => m.value_setSema_other _ hne⟩
      refine fits_cons ?_ (by simp) (hstay l').2
      have := (hstay l').1
      simp only [Op.hold, moves, if_neg (Ne.symm hne)] at this ⊢
      exact this
    · simp only [Sema.tryDown, if_neg hz, Bool.false_eq_true, if_false]
      refine ⟨hold, h.neutral rfl (fun l' => (hstay l').2) rfl fun l' => ?_⟩
      by_cases hne : l' = l
      · subst hne
        exact (m.value_setSema_lock _ l').trans hv.symm
      · exact m.value_setSema_other _ hne
  | semaUp s =>
    rw [Monitor.exec, Option.bind_eq_some_iff] at hs
    obtain ⟨x, hx, hs⟩ := hs
    cases hs
    cases s with
    | waiter w =>
      exact ⟨hold, h.neutral rfl (fits_keep (fun _ _ => rfl) hf) rfl
        fun l => m.value_setSema_waiter w (some x.up.2) l⟩
    | lock l =>
      have hv : m.value l = some x.value := by rw [Monitor.value, hx]; rfl
      obtain ⟨hout, hl, hr⟩ := fits_moves (fun _ _ => rfl) hf
      refine ⟨_, h.quit hout rfl hl hr rfl ?_ fun l' hne => m.value_setSema_other _ hne⟩
      rw [hv]
      exact m.value_setSema_lock _ l
  | setHolder l | clearHolder l =>
    cases hs
    obtain ⟨hin, hl, hr⟩ := fits_moves (fun _ _ => rfl) hf
    exact ⟨_, h.write (by rw [hin]; simp) (by simp) rfl hl hr (by rfl) fun _ => rfl⟩
  | initWaiter =>
    cases hs
    exact ⟨hold, h.neutral rfl (fits_keep (fun _ _ => rfl) hf) rfl
      fun l => Monitor.value_setSema_waiter _ t (some (.init 0)) l⟩
  | pushWaiter c =>
    cases hs
    exact ⟨hold, h.neutral rfl (fun l => ((fits_stay (fun _ _ => rfl) hf).2 l).2) rfl fun _ => rfl⟩
  | leave =>
    cases hs
    exact ⟨hold, h.neutral rfl (fits_keep (fun _ _ => rfl) hf) rfl
      fun l => m.value_setSema_waiter t none l⟩
  | signal c =>
    obtain ⟨-, hstay⟩ := fits_stay (fun _ _ => rfl) hf
    rw [Monitor.exec] at hs
    split at hs
    · cases hs
      exact ⟨hold, h.neutral rfl (fun l => (hstay l).2) rfl fun _ => rfl⟩
    · cases hs
      exact ⟨hold, h.neutral rfl (fun l => fits_cons (keep_of_moves rfl (hstay l).1) (by simp)
        (hstay l).2) rfl fun _ => rfl⟩
  | broadcast c =>
    obtain ⟨-, hstay⟩ := fits_stay (fun _ _ => rfl) hf
    cases hs
    refine ⟨hold, h.neutral rfl (fun l => ?_) rfl fun _ => rfl⟩
    split
    · exact (hstay l).2
    · exact fits_cons (hstay l).1 (by simp) (fits_cons (hstay l).1 (by simp) (hf l))

end Locks

end

end Pintos.Threads
