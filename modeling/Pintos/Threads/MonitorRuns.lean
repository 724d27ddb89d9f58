import Pintos.Threads.Monitor

/- Runs of locks and condition variables.

   `Locks` of `Monitor` says who holds which lock. Here it is joined with what holds of the
   waiters: where in `cond_wait` a thread is (`Phase`), what its waiter looks like there
   (`Record`), and how far a signal or a broadcast has come (`Serves`). A thread that has
   been picked is never forgotten: its waiter is about to be upped, or its value is 1 and
   the thread does not sleep. The lists are only touched by holders of the lock, so what a
   broadcast finds at the end is what it found at the start. -/
namespace Pintos.Threads

open Lib Function

variable {τ ι κ : Type}

/-! Waiting. A thread is at one of four places in `cond_wait`. -/

inductive Phase (ι κ : Type) where
  | outside
  | fresh
  | listed (c : Cond ι κ)
  | past

/-- The next step of the thread `u` is `sema_up` on the waiter of `w`. -/
def Upping (m : Monitor τ ι κ) (u w : τ) : Prop :=
  (m.todo u).head? = some (.semaUp (.waiter w))

/-- The waiter of a thread. After it has been picked it is about to be upped, or has been and
    then the thread does not sleep. -/
def Record (m : Monitor τ ι κ) (t : τ) : Phase ι κ → Prop
  | .outside => m.sema (.waiter t) = none
  | .fresh => m.sema (.waiter t) = some (.init 0) ∧ m.chosen t = false
  | .listed c => ∃ x, m.sema (.waiter t) = some x ∧ (x.waiters = [] ∨ x.waiters = [t]) ∧
      ((m.chosen t = false ∧ t ∈ m.waiters c ∧ x.value = 0) ∨
        (m.chosen t = true ∧ ((x.value = 0 ∧ ∃ u, Upping m u t) ∨
          (x.value = 1 ∧ x.waiters = [] ∧ ∀ u, ¬Upping m u t))))
  | .past => (m.sema (.waiter t)).isSome ∧ m.chosen t = true

section
variable {m m' : Monitor τ ι κ} {t u w : τ} {p : Phase ι κ} {r : List (Op τ ι κ)}

theorem Record.congr (h : Record m t p) (hs : m'.sema (.waiter t) = m.sema (.waiter t))
    (hc : m'.chosen t = m.chosen t) (hw : ∀ c, t ∈ m'.waiters c ↔ t ∈ m.waiters c)
    (hu : ∀ u, Upping m' u t ↔ Upping m u t) : Record m' t p := by
  cases p with
  | outside | fresh | listed | past => simpa only [Record, hs, hc, hw, hu] using h

theorem upping_update [DecidableEq τ] (htodo : m'.todo = update m.todo t r) :
    Upping m' u w ↔ (u = t ∧ r.head? = some (.semaUp (.waiter w))) ∨ (u ≠ t ∧ Upping m u w) := by
  rw [Upping, htodo]
  by_cases hu : u = t
  · subst hu
    simp
  · simp [Upping, hu]

theorem upping_same [DecidableEq τ] (htodo : m'.todo = update m.todo t r)
    (hold : ∀ w, ¬Upping m t w) (hnew : ∀ w, .semaUp (.waiter w) ∉ r) :
    Upping m' u w ↔ Upping m u w := by
  have hhead : r.head? ≠ some (.semaUp (.waiter w)) := fun hr => hnew w (List.mem_of_mem_head? hr)
  rw [upping_update htodo]
  by_cases hu : u = t
  · subst hu
    simp [hold, hhead]
  · simp [hu]

end

section
variable [DecidableEq τ] [DecidableEq ι]

def Op.phase (t : τ) : Phase ι κ → Op τ ι κ → Option (Phase ι κ)
  | .outside, .initWaiter => some .fresh
  | .outside, .assertFree _ | .outside, .assertHeld _ | .outside, .semaDown (.lock _)
  | .outside, .semaTryDown _ | .outside, .semaUp _ | .outside, .setHolder _
  | .outside, .clearHolder _ | .outside, .signal _ | .outside, .broadcast _ => some .outside
  | .fresh, .pushWaiter c => some (.listed c)
  | .listed c, .assertHeld l | .listed c, .clearHolder l | .listed c, .semaUp (.lock l) =>
    if l = c.lock then some (.listed c) else none
  | .listed _, .semaDown (.waiter u) => if u = t then some .past else none
  | .past, .assertFree _ | .past, .semaDown (.lock _) | .past, .setHolder _ => some .past
  | .past, .leave => some .outside
  | _, _ => none

/-- The steps that leave the thread where it is. -/
def Op.calm : Op τ ι κ → Bool
  | .semaDown (.waiter _) | .initWaiter | .pushWaiter _ | .leave => false
  | .assertFree _ | .assertHeld _ | .semaDown (.lock _) | .semaTryDown _ | .semaUp _
  | .setHolder _ | .clearHolder _ | .signal _ | .broadcast _ => true

theorem Op.phase_calm {op : Op τ ι κ} {t : τ} {p p' : Phase ι κ} (hop : op.calm = true)
    (h : op.phase t p = some p') : p' = p := by
  cases op with
  | semaDown s => cases s <;> cases p <;> simp_all [Op.phase, Op.calm]
  | semaUp s => cases s <;> cases p <;> simp_all [Op.phase]
  | _ => cases p <;> simp_all [Op.phase, Op.calm]

/-- The steps `ops` can be made by the thread `t` at `p`. -/
def Shape (t : τ) : Phase ι κ → List (Op τ ι κ) → Prop
  | p, [] => p = .outside
  | p, op :: r => ∃ p', op.phase t p = some p' ∧ Shape t p' r

/-- What holds of the condition variables, with the place of each thread. -/
structure Waits (m : Monitor τ ι κ) (phase : τ → Phase ι κ) : Prop where
  shape : ∀ t, Shape t (phase t) (m.todo t)
  clean : ∀ t w, .semaUp (.waiter w) ∉ (m.todo t).tail
  nodup : ∀ c, (m.waiters c).Nodup
  listed : ∀ {c t}, t ∈ m.waiters c → phase t = .listed c ∧ m.chosen t = false
  upping : ∀ {u w}, Upping m u w → (∃ c, phase w = .listed c) ∧ m.chosen w = true
  once : ∀ {u v w}, Upping m u w → Upping m v w → u = v
  record : ∀ t, Record m t (phase t)

section Waits
variable {m m' : Monitor τ ι κ} {phase : τ → Phase ι κ} {t u w : τ} {p : Phase ι κ}
  {c : Cond ι κ} {op : Op τ ι κ} {r : List (Op τ ι κ)}

section
variable (h : Waits m phase)
include h

theorem Waits.next (htodo : m.todo t = op :: r) :
    ∃ p', op.phase t (phase t) = some p' ∧ Shape t p' r := by
  have hshape := h.shape t
  rwa [htodo] at hshape

theorem Waits.clean_rest (htodo : m.todo t = op :: r) (w : τ) : .semaUp (.waiter w) ∉ r := by
  have hclean := h.clean t w
  rwa [htodo] at hclean

theorem Waits.shape_update (htodo : m'.todo = update m.todo t r) (hr : Shape t p r) (u : τ) :
    Shape u (update phase t p u) (m'.todo u) := by
  rw [htodo]
  grind [h.shape u, update_apply]

theorem Waits.clean_update (htodo : m'.todo = update m.todo t r)
    (hr : ∀ w, .semaUp (.waiter w) ∉ r.tail) (u w : τ) :
    .semaUp (.waiter w) ∉ (m'.todo u).tail := by
  rw [htodo]
  grind [h.clean u w, update_apply]

/-- The other threads do not notice a change at the waiter of `t`. -/
theorem Waits.record_other (hu : u ≠ t) (hs : m'.sema (.waiter u) = m.sema (.waiter u))
    (hc : m'.chosen u = m.chosen u) (hw : ∀ c, u ∈ m'.waiters c ↔ u ∈ m.waiters c)
    (hup : ∀ v, Upping m' v u ↔ Upping m v u) : Record m' u (update phase t p u) := by
  rw [update_of_ne hu]
  exact (h.record u).congr hs hc hw hup

theorem Waits.not_listed (hp : ∀ c, phase t ≠ .listed c) (c : Cond ι κ) :
    t ∉ m.waiters c := fun hm => hp c (h.listed hm).1

theorem Waits.not_upping (hp : ∀ c, phase t ≠ .listed c) (u : τ) : ¬Upping m u t := fun hu => by
  obtain ⟨⟨c, hc⟩, -⟩ := h.upping hu
  exact hp c hc

/-- A step that leaves the lists alone. The thread stays where it is, or is neither on a list
    nor about to be upped. -/
theorem Waits.change (htodo : m'.todo = update m.todo t r) (hold : ∀ w, ¬Upping m t w)
    (hr : Shape t p r) (hnew : ∀ w, .semaUp (.waiter w) ∉ r)
    (hstay : (p = phase t ∧ m'.chosen t = m.chosen t) ∨
      (∀ c, t ∉ m.waiters c) ∧ ∀ u, ¬Upping m u t)
    (hs : ∀ w, w ≠ t → m'.sema (.waiter w) = m.sema (.waiter w)) (hw : m'.waiters = m.waiters)
    (hc : ∀ w, w ≠ t → m'.chosen w = m.chosen w) (hrec : Record m' t p) :
    Waits m' (update phase t p) := by
  have hup : ∀ {u w}, Upping m' u w ↔ Upping m u w := upping_same htodo hold hnew
  exact {
    shape := h.shape_update htodo hr
    clean := h.clean_update htodo fun w hin => hnew w (List.mem_of_mem_tail hin)
    nodup := fun c => hw ▸ h.nodup c
    listed := fun {c u} hm => by
      rw [hw] at hm
      grind [h.listed hm, update_apply]
    upping := fun {u v} huv => by grind [h.upping (hup.mp huv), update_apply]
    once := fun hu hv => h.once (hup.mp hu) (hup.mp hv)
    record := fun u => by
      by_cases hu : u = t
      · subst hu
        rwa [update_self]
      · exact h.record_other hu (hs u hu) (hc u hu) (by simp [hw]) fun v => hup }

theorem Waits.neutral (htodo : m'.todo = update m.todo t r) (hold : ∀ w, ¬Upping m t w)
    (hr : Shape t (phase t) r) (hnew : ∀ w, .semaUp (.waiter w) ∉ r)
    (hs : ∀ w, m'.sema (.waiter w) = m.sema (.waiter w)) (hw : m'.waiters = m.waiters)
    (hc : m'.chosen = m.chosen) : Waits m' phase := by
  have hrec := (h.record t).congr (hs t) (by rw [hc]) (by simp [hw]) fun _ =>
    upping_same htodo hold hnew
  have hwaits := h.change htodo hold hr hnew (.inl ⟨rfl, by rw [hc]⟩) (fun w _ => hs w) hw
    (fun w _ => by rw [hc]) hrec
  rwa [update_eq_self] at hwaits

end

variable [DecidableEq κ]

theorem Waits.push (h : Waits m phase) (htodo : m.todo t = .pushWaiter c :: r)
    (hs : m.exec t r (.pushWaiter c) = some m') : ∃ phase', Waits m' phase' := by
  obtain ⟨p', hp', hr⟩ := h.next htodo
  obtain ⟨hp, rfl⟩ : phase t = .fresh ∧ p' = .listed c := by
    cases hpt : phase t <;> simp_all [Op.phase]
  have hne : ∀ c, phase t ≠ .listed c := by rw [hp]; simp
  have hrec := h.record t
  rw [hp] at hrec
  cases hs
  have hup : ∀ {u w}, Upping ({ m with waiters := update m.waiters c (m.waiters c ++ [t]) }.goOn t
      r) u w ↔ Upping m u w := upping_same rfl (by simp [Upping, htodo]) (h.clean_rest htodo)
  have hmem : ∀ {x d}, x ∈ update m.waiters c (m.waiters c ++ [t]) d ↔
      (x = t ∧ d = c) ∨ (x ≠ t ∧ x ∈ m.waiters d) := by
    intro x d
    grind [h.not_listed hne d, update_apply]
  refine ⟨update phase t (.listed c), ⟨h.shape_update rfl hr,
    h.clean_update rfl fun w hin => h.clean_rest htodo w (List.mem_of_mem_tail hin), fun d => ?_,
    fun {d x} hx => ?_, fun {u w} hu => ?_, fun hu hv => h.once (hup.mp hu) (hup.mp hv),
    fun u => ?_⟩⟩
  · show (update m.waiters c (m.waiters c ++ [t]) d).Nodup
    grind [h.nodup d, h.not_listed hne d, update_apply]
  · rcases hmem.mp hx with ⟨rfl, rfl⟩ | ⟨hxt, hx⟩
    · rw [update_self]
      exact ⟨rfl, hrec.2⟩
    · rw [update_of_ne hxt]
      exact h.listed hx
  · have hw : w ≠ t := fun heq => h.not_upping hne u (heq ▸ hup.mp hu)
    rw [update_of_ne hw]
    exact h.upping (hup.mp hu)
  · by_cases hu : u = t
    · subst hu
      rw [update_self]
      exact ⟨_, hrec.1, Or.inl rfl, Or.inl ⟨hrec.2, by simp [Monitor.goOn], rfl⟩⟩
    · exact h.record_other hu rfl rfl (fun d => hmem.trans (by simp [hu])) fun v => hup

theorem Waits.pick {ws : List τ} (h : Waits m phase) (htodo : m.todo t = .signal c :: r)
    (hws : m.waiters c = w :: ws) (hs : m.exec t r (.signal c) = some m') : Waits m' phase := by
  obtain ⟨p', hp', hr⟩ := h.next htodo
  obtain ⟨hp, rfl⟩ : phase t = .outside ∧ p' = .outside := by
    cases hpt : phase t <;> simp_all [Op.phase]
  obtain ⟨hpw, hcw⟩ := h.listed (c := c) (t := w) (by rw [hws]; exact List.mem_cons_self ..)
  have hnd := h.nodup c
  rw [hws, List.nodup_cons] at hnd
  rw [Monitor.exec, hws] at hs
  cases hs
  have hup : ∀ {u v}, Upping ({ m with
      waiters := update m.waiters c ws
      picked := update m.picked t (m.picked t ++ [w])
      chosen := update m.chosen w true }.goOn t (.semaUp (.waiter w) :: r)) u v ↔
      (u = t ∧ v = w) ∨ (u ≠ t ∧ Upping m u v) := by
    intro u v
    rw [upping_update (m := m) rfl]
    simp [eq_comm]
  have hmem : ∀ {x d}, x ∈ update m.waiters c ws d ↔ x ≠ w ∧ x ∈ m.waiters d := by
    intro x d
    have hother : w ∈ m.waiters d → d = c := fun hx => by grind [h.listed hx]
    grind [update_apply]
  have hno : ∀ {u}, ¬Upping m u w := fun hu => by grind [h.upping hu]
  refine ⟨fun u => ?_, h.clean_update rfl (h.clean_rest htodo), fun d => ?_, fun {d x} hx => ?_,
    fun {u v} hu => ?_, fun {u v x} hu hv => ?_, fun u => ?_⟩
  · have hr' : Shape t .outside (.semaUp (.waiter w) :: r) := ⟨_, rfl, hr⟩
    have hshape : Shape u (update phase t .outside u)
        ((m.goOn t (.semaUp (.waiter w) :: r)).todo u) := h.shape_update rfl hr' u
    rwa [← hp, update_eq_self] at hshape
  · show (update m.waiters c ws d).Nodup
    grind [h.nodup d, update_apply]
  · obtain ⟨hxw, hx⟩ := hmem.mp hx
    exact ⟨(h.listed hx).1, (update_of_ne hxw ..).trans (h.listed hx).2⟩
  · show _ ∧ update m.chosen w true v = true
    rcases hup.mp hu with ⟨-, rfl⟩ | ⟨-, hu⟩
    · exact ⟨⟨c, hpw⟩, update_self ..⟩
    · grind [h.upping hu, update_apply]
  · grind [h.once (u := u) (v := v) (w := x)]
  · by_cases hu : u = w
    · subst hu
      have hrec := h.record u
      rw [hpw] at hrec ⊢
      obtain ⟨x, hx, hxw, ⟨-, -, hv⟩ | ⟨hch, -⟩⟩ := hrec
      · have htu := hup.mpr (Or.inl ⟨rfl, rfl⟩)
        exact ⟨x, hx, hxw, Or.inr ⟨update_self .., Or.inl ⟨hv, t, htu⟩⟩⟩
      · rw [hcw] at hch
        cases hch
    · refine (h.record u).congr rfl (update_of_ne hu ..)
        (fun d => hmem.trans (and_iff_right hu)) fun v => hup.trans ?_
      by_cases hv : v = t
      · subst hv
        simp [hu, Upping, htodo]
      · simp [hv]

theorem Waits.down (h : Waits m phase) (htodo : m.todo t = .semaDown (.waiter w) :: r)
    (hs : m.exec t r (.semaDown (.waiter w)) = some m') : ∃ phase', Waits m' phase' := by
  obtain ⟨p', hp', hr⟩ := h.next htodo
  obtain ⟨c, hp, rfl, rfl⟩ : ∃ c, phase t = .listed c ∧ w = t ∧ p' = .past := by
    cases hpt : phase t <;> simp_all [Op.phase]
  have hrec := h.record w
  rw [hp] at hrec
  obtain ⟨x, hx, hxw, hrec⟩ := hrec
  simp only [Monitor.exec, hx, Option.bind_some, Option.ite_none_left_eq_some] at hs
  obtain ⟨hawake, hs⟩ := hs
  cases hs
  have hxw : x.waiters = [] := hxw.resolve_right fun heq => hawake (by rw [heq]; simp)
  have hold : ∀ v, ¬Upping m w v := by simp [Upping, htodo]
  have hother : ∀ (y : Option (Sema τ)) (v : τ), v ≠ w →
      update m.sema (.waiter w) y (.waiter v) = m.sema (.waiter v) := fun y v hv =>
    update_of_ne (by simpa using hv) ..
  by_cases hz : x.value = 0
  · -- it goes to sleep and is where it was
    simp only [Sema.down, if_pos hz, Bool.false_eq_true, if_false, hxw, List.nil_append]
    have hnew : ∀ v, .semaUp (.waiter v) ∉ .semaDown (.waiter w) :: r := by
      simp [h.clean_rest htodo]
    have hsame : ∀ {u v}, Upping ((m.setSema (.waiter w) (some { x with waiters := [w] })).goOn w
        (.semaDown (.waiter w) :: r)) u v ↔ Upping m u v := upping_same rfl hold hnew
    refine ⟨_, h.change rfl hold ⟨_, hp', hr⟩ hnew (.inl ⟨rfl, rfl⟩) (hother _) rfl (fun _ _ => rfl)
      ?_⟩
    rw [hp]
    refine ⟨_, update_self .., Or.inr rfl, ?_⟩
    rcases hrec with ⟨hc, hm, hv⟩ | ⟨hc, ⟨hv, v, hup⟩ | ⟨hv, -⟩⟩
    · exact Or.inl ⟨hc, hm, hv⟩
    · exact Or.inr ⟨hc, Or.inl ⟨hv, v, hsame.mpr hup⟩⟩
    · omega
  · obtain ⟨hc, hup⟩ : m.chosen w = true ∧ ∀ u, ¬Upping m u w := by grind
    simp only [Sema.down, if_neg hz, if_true]
    refine ⟨_, h.change rfl hold hr (h.clean_rest htodo) (.inr ⟨fun d hd => ?_, hup⟩) (hother _) rfl
      (fun _ _ => rfl) ⟨?_, hc⟩⟩
    · grind [h.listed hd]
    · simp [Monitor.goOn, Monitor.setSema]

theorem Waits.up (h : Waits m phase) (htodo : m.todo t = .semaUp (.waiter w) :: r)
    (hs : m.exec t r (.semaUp (.waiter w)) = some m') : Waits m' phase := by
  obtain ⟨p', hp', hr⟩ := h.next htodo
  obtain ⟨hp, rfl⟩ : phase t = .outside ∧ p' = .outside := by
    cases hpt : phase t <;> simp_all [Op.phase]
  have htw : Upping m t w := by rw [Upping, htodo]; rfl
  obtain ⟨⟨c, hpw⟩, hcw⟩ := h.upping htw
  have hrec := h.record w
  rw [hpw] at hrec
  obtain ⟨x, hx, hxw, ⟨hc, -⟩ | ⟨-, ⟨hv, -⟩ | ⟨-, -, hno⟩⟩⟩ := hrec
  · rw [hcw] at hc
    cases hc
  · simp only [Monitor.exec, hx, Option.bind_some] at hs
    cases hs
    have hclean := h.clean_rest htodo
    have hup : ∀ {u v}, Upping ((m.setSema (.waiter w) (some x.up.2)).goOn t r) u v ↔
        u ≠ t ∧ Upping m u v := by
      intro u v
      rw [upping_update (m := m) rfl]
      have hhead : r.head? ≠ some (.semaUp (.waiter v)) := fun hr =>
        hclean v (List.mem_of_mem_head? hr)
      simp [hhead]
    refine ⟨fun u => ?_, h.clean_update rfl fun v hin => hclean v (List.mem_of_mem_tail hin),
      h.nodup, h.listed, fun hu => h.upping (hup.mp hu).2,
      fun hu hv => h.once (hup.mp hu).2 (hup.mp hv).2, fun u => ?_⟩
    · have hshape : Shape u (update phase t .outside u) ((m.goOn t r).todo u) :=
        h.shape_update rfl hr u
      rwa [← hp, update_eq_self] at hshape
    · by_cases hu : u = w
      · subst hu
        rw [hpw]
        have hw' : x.up.2.waiters = [] := by
          rcases hxw with hxw | hxw <;> simp [Sema.up, hxw]
        refine ⟨_, update_self .., Or.inl hw',
          Or.inr ⟨hcw, Or.inr ⟨?_, hw', fun v hv => ?_⟩⟩⟩
        · rw [Sema.up, hv]
          rfl
        · exact (hup.mp hv).1 (h.once (hup.mp hv).2 htw)
      · refine (h.record u).congr (update_of_ne (by simpa using hu) ..) rfl
          (fun _ => Iff.rfl) fun v => hup.trans ?_
        refine ⟨And.right, fun hv => ⟨?_, hv⟩⟩
        rintro rfl
        rw [Upping, htodo] at hv
        exact hu (by simpa using hv.symm)
  · exact absurd htw (hno t)

theorem Waits.exec (h : Waits m phase) (htodo : m.todo t = op :: r)
    (hs : m.exec t r op = some m') : ∃ phase', Waits m' phase' := by
  obtain ⟨p', hp', hr⟩ := h.next htodo
  have hcalm : op.calm = true → Shape t (phase t) r := fun hc => Op.phase_calm hc hp' ▸ hr
  have hclean := h.clean_rest htodo
  have hlock : ∀ (l : ι) (y : Option (Sema τ)) (v : τ),
      update m.sema (.lock l) y (.waiter v) = m.sema (.waiter v) := fun l y v =>
    update_of_ne (by simp) ..
  have hwaiter : ∀ (y : Option (Sema τ)) (v : τ), v ≠ t →
      update m.sema (.waiter t) y (.waiter v) = m.sema (.waiter v) := fun y v hv =>
    update_of_ne (by simpa using hv) ..
  cases op with
  | assertFree l | assertHeld l =>
    rw [Monitor.exec, Option.ite_none_right_eq_some] at hs
    cases hs.2
    exact ⟨phase, h.neutral rfl (by simp [Upping, htodo]) (hcalm rfl) hclean (fun _ => rfl) rfl rfl⟩
  | semaDown s =>
    cases s with
    | waiter w => exact h.down htodo hs
    | lock l =>
      rw [Monitor.exec, Option.bind_eq_some_iff] at hs
      obtain ⟨x, -, hs⟩ := hs
      rw [Option.ite_none_left_eq_some] at hs
      cases hs.2
      refine ⟨phase, h.neutral rfl (by simp [Upping, htodo]) ?_ (fun w => ?_)
        (hlock l (some (x.down t).2)) rfl rfl⟩
      · split
        · exact hcalm rfl
        · rw [← htodo]
          exact h.shape t
      · split <;> simp [hclean w]
  | semaTryDown l =>
    rw [Monitor.exec, Option.bind_eq_some_iff] at hs
    obtain ⟨x, -, hs⟩ := hs
    cases hs
    refine ⟨phase, h.neutral rfl (by simp [Upping, htodo]) ?_ (fun w => ?_)
      (hlock l (some x.tryDown.2)) rfl rfl⟩
    · split
      · have hp : phase t = .outside := by
          cases hpt : phase t <;> simp_all [Op.phase]
        have := hcalm rfl
        rw [hp] at this ⊢
        exact ⟨_, rfl, this⟩
      · exact hcalm rfl
    · split <;> simp [hclean w]
  | semaUp s =>
    cases s with
    | waiter w => exact ⟨phase, h.up htodo hs⟩
    | lock l =>
      rw [Monitor.exec, Option.bind_eq_some_iff] at hs
      obtain ⟨x, -, hs⟩ := hs
      cases hs
      exact ⟨phase, h.neutral rfl (by simp [Upping, htodo]) (hcalm rfl) hclean
        (hlock l (some x.up.2)) rfl rfl⟩
  | setHolder l | clearHolder l =>
    cases hs
    exact ⟨phase, h.neutral rfl (by simp [Upping, htodo]) (hcalm rfl) hclean (fun _ => rfl) rfl rfl⟩
  | initWaiter =>
    obtain ⟨hp, rfl⟩ : phase t = .outside ∧ p' = .fresh := by
      cases hpt : phase t <;> simp_all [Op.phase]
    have hne : ∀ c, phase t ≠ .listed c := by rw [hp]; simp
    cases hs
    exact ⟨_, h.change rfl (by simp [Upping, htodo]) hr hclean
      (.inr ⟨h.not_listed hne, h.not_upping hne⟩) (hwaiter (some (.init 0))) rfl
      (fun w hw => update_of_ne hw ..) ⟨update_self .., update_self ..⟩⟩
  | pushWaiter c => exact h.push htodo hs
  | leave =>
    obtain ⟨hp, rfl⟩ : phase t = .past ∧ p' = .outside := by
      cases hpt : phase t <;> simp_all [Op.phase]
    have hne : ∀ c, phase t ≠ .listed c := by rw [hp]; simp
    cases hs
    exact ⟨_, h.change rfl (by simp [Upping, htodo]) hr hclean
      (.inr ⟨h.not_listed hne, h.not_upping hne⟩) (hwaiter none) rfl (fun _ _ => rfl)
      (update_self ..)⟩
  | signal c =>
    cases hws : m.waiters c with
    | nil =>
      rw [Monitor.exec, hws] at hs
      cases hs
      exact ⟨phase, h.neutral rfl (by simp [Upping, htodo]) (hcalm rfl) hclean (fun _ => rfl) rfl
        rfl⟩
    | cons w ws => exact ⟨phase, h.pick htodo hws hs⟩
  | broadcast c =>
    cases hs
    refine ⟨phase, h.neutral rfl (by simp [Upping, htodo]) ?_ (fun w => ?_) (fun _ => rfl) rfl rfl⟩
    · split
      · exact hcalm rfl
      · have hp : phase t = .outside := by
          cases hpt : phase t <;> simp_all [Op.phase]
        have := hcalm rfl
        rw [hp] at this ⊢
        exact ⟨_, rfl, _, rfl, _, rfl, this⟩
    · split <;> simp [condSignal, hclean w]

end Waits

end

/-! Signals and broadcasts. -/

/-- How far the last call of a thread has come, if it is a signal or a broadcast: as long as
    it looks at the list, what it has picked and what is there is what was there at the call. -/
def Serves (m : Monitor τ ι κ) (t : τ) : Prop :=
  match m.call t with
  | some (.signal c) =>
    ((m.todo t = condSignal c ∨ m.todo t = [.signal c]) ∧ m.picked t = [] ∧
        m.present t = m.waiters c) ∨
      ((m.todo t = [] ∨ ∃ w, m.todo t = [.semaUp (.waiter w)]) ∧
        m.picked t = (m.present t).take 1)
  | some (.broadcast c) =>
    ((m.todo t = [.broadcast c] ∨ m.todo t = condSignal c ++ [.broadcast c] ∨
        m.todo t = [.signal c, .broadcast c] ∨
        ∃ w, m.todo t = [.semaUp (.waiter w), .broadcast c]) ∧
        m.picked t ++ m.waiters c = m.present t) ∨
      (m.todo t = [] ∧ m.picked t = m.present t)
  | some (.acquire _) | some (.tryAcquire _) | some (.release _) | some (.wait _) | none =>
    ∀ c, .signal c ∉ m.todo t ∧ .broadcast c ∉ m.todo t

/-- What is left of a signal or a broadcast while it looks at the list. -/
def Looks (c : Cond ι κ) (ops : List (Op τ ι κ)) : Prop :=
  ops = condSignal c ∨ ops = [.signal c] ∨ ops = [.broadcast c] ∨
    ops = condSignal c ++ [.broadcast c] ∨ ops = [.signal c, .broadcast c] ∨
    ∃ w, ops = [.semaUp (.waiter w), .broadcast c]

section
variable [DecidableEq ι] {m : Monitor τ ι κ} {hold : τ → ι → Hold} {t : τ} {c : Cond ι κ}
  {op : Op τ ι κ} {r : List (Op τ ι κ)}

/-- A thread that is about to change the list of a condition holds its lock. -/
theorem Locks.inside_of_changes (h : Locks m hold) (htodo : m.todo t = op :: r)
    (hop : op = .pushWaiter c ∨ op = .signal c) : hold t c.lock = .inside := by
  have hf : ∀ l, Fits l (hold t l) (op :: r) := fun l => htodo ▸ h.fits t l
  rcases hop with rfl | rfl <;> exact (fits_stay (fun _ _ => rfl) hf).1

theorem Locks.inside_of_looks (h : Locks m hold) (hl : Looks c (m.todo t)) :
    hold t c.lock = .inside := by
  have hf := h.fits t
  rcases hl with hl | hl | hl | hl | hl | ⟨w, hl⟩ <;> rw [hl] at hf
  · exact (fits_stay (fun _ _ => rfl) hf).1
  · exact (fits_stay (fun _ _ => rfl) hf).1
  · exact (fits_stay (fun _ _ => rfl) hf).1
  · exact (fits_stay (fun _ _ => rfl) hf).1
  · exact (fits_stay (fun _ _ => rfl) hf).1
  · exact (fits_stay (fun _ _ => rfl) (fits_keep (fun _ _ => rfl) hf)).1

end

section Serves
variable [DecidableEq τ] [DecidableEq ι] [DecidableEq κ]
variable {m m' : Monitor τ ι κ} {hold : τ → ι → Hold} {t u : τ} {c : Cond ι κ} {op : Op τ ι κ}
  {r : List (Op τ ι κ)}

theorem exec_frame (hs : m.exec t r op = some m') :
    (∀ u, u ≠ t → m'.todo u = m.todo u ∧ m'.picked u = m.picked u) ∧ m'.call = m.call ∧
      m'.present = m.present ∧
      ∀ c, op ≠ .pushWaiter c → op ≠ .signal c → m'.waiters c = m.waiters c := by
  cases op with
  | assertFree l | assertHeld l =>
    rw [Monitor.exec, Option.ite_none_right_eq_some] at hs
    cases hs.2
    exact ⟨fun u hu => ⟨update_of_ne hu .., rfl⟩, rfl, rfl, fun _ _ _ => rfl⟩
  | semaDown s =>
    rw [Monitor.exec, Option.bind_eq_some_iff] at hs
    obtain ⟨x, -, hs⟩ := hs
    rw [Option.ite_none_left_eq_some] at hs
    cases hs.2
    exact ⟨fun u hu => ⟨update_of_ne hu .., rfl⟩, rfl, rfl, fun _ _ _ => rfl⟩
  | semaTryDown s | semaUp s =>
    rw [Monitor.exec, Option.bind_eq_some_iff] at hs
    obtain ⟨x, -, hs⟩ := hs
    cases hs
    exact ⟨fun u hu => ⟨update_of_ne hu .., rfl⟩, rfl, rfl, fun _ _ _ => rfl⟩
  | setHolder l | clearHolder l | initWaiter | leave | broadcast c =>
    cases hs
    exact ⟨fun u hu => ⟨update_of_ne hu .., rfl⟩, rfl, rfl, fun _ _ _ => rfl⟩
  | pushWaiter c =>
    cases hs
    exact ⟨fun u hu => ⟨update_of_ne hu .., rfl⟩, rfl, rfl, fun d hd _ =>
      update_of_ne (fun heq => hd (by rw [heq])) ..⟩
  | signal c =>
    rw [Monitor.exec] at hs
    split at hs
    · cases hs
      exact ⟨fun u hu => ⟨update_of_ne hu .., rfl⟩, rfl, rfl, fun _ _ _ => rfl⟩
    · cases hs
      exact ⟨fun u hu => ⟨update_of_ne hu .., update_of_ne hu ..⟩, rfl, rfl, fun d _ hd =>
        update_of_ne (fun heq => hd (by rw [heq])) ..⟩

theorem Serves.other (h : Serves m t) (hl : Locks m hold) (htodo : m.todo u = op :: r)
    (hs : m.exec u r op = some m') (hne : t ≠ u) : Serves m' t := by
  obtain ⟨hframe, hcall, hpres, hwait⟩ := exec_frame hs
  obtain ⟨ht, hpick⟩ := hframe t hne
  -- the list is not changed under a thread that looks at it
  have hsame : ∀ c, Looks c (m.todo t) → m'.waiters c = m.waiters c := by
    intro c hlook
    have hin := hl.inside_of_looks hlook
    have hno : ¬(op = .pushWaiter c ∨ op = .signal c) := fun hop => hne (hl.exclusive
      (by rw [hin]; simp) (by rw [hl.inside_of_changes htodo hop]; simp))
    exact hwait c (fun heq => hno (Or.inl heq)) fun heq => hno (Or.inr heq)
  unfold Serves at h ⊢
  rw [hcall, ht, hpick, hpres]
  split at h
  · rcases h with ⟨hl, hp, hw⟩ | h
    · refine Or.inl ⟨hl, hp, hw.trans (hsame _ ?_).symm⟩
      exact hl.imp id Or.inl
    · exact Or.inr h
  · rcases h with ⟨hl, hp⟩ | h
    · refine Or.inl ⟨hl, ?_⟩
      rw [hsame _ (Or.inr (Or.inr hl))]
      exact hp
    · exact Or.inr h
  · exact h
  · exact h
  · exact h
  · exact h
  · exact h

theorem exec_assertHeld {l : ι} (hs : m.exec t r (.assertHeld l) = some m') : m' = m.goOn t r := by
  rw [Monitor.exec, Option.ite_none_right_eq_some, Option.some.injEq] at hs
  exact hs.2.symm

theorem exec_semaUp {x : SemaId τ ι} (hs : m.exec t r (.semaUp x) = some m') :
    m'.todo t = r ∧ m'.picked = m.picked ∧ m'.waiters = m.waiters := by
  rw [Monitor.exec, Option.bind_eq_some_iff] at hs
  obtain ⟨y, -, hs⟩ := hs
  cases hs
  exact ⟨update_self .., rfl, rfl⟩

/-- What was there is split into what has been picked and what is left. -/
theorem exec_signal (hs : m.exec t r (.signal c) = some m') :
    (m.waiters c = [] ∧ m' = m.goOn t r) ∨ ∃ w, m'.todo t = .semaUp (.waiter w) :: r ∧
      m'.picked t = m.picked t ++ [w] ∧ m.waiters c = w :: m'.waiters c := by
  rw [Monitor.exec] at hs
  split at hs
  case h_1 hw => exact Or.inl ⟨hw, (Option.some.inj hs).symm⟩
  case h_2 w ws hw =>
    cases hs
    refine Or.inr ⟨w, update_self .., update_self .., hw.trans ?_⟩
    simp only [Monitor.goOn, update_self]

theorem Serves.signal_step (h : Serves m t) (hcall : m.call t = some (.signal c))
    (htodo : m.todo t = op :: r) (hs : m.exec t r op = some m') : Serves m' t := by
  obtain ⟨-, hcalls, hpres, -⟩ := exec_frame hs
  simp only [Serves, hcalls, hpres, hcall] at h ⊢
  rcases h with ⟨hl | hl, hp, hw⟩ | ⟨hl | ⟨w, hl⟩, hp⟩
  · obtain ⟨rfl, rfl⟩ := List.cons.inj (htodo.symm.trans hl)
    rw [exec_assertHeld hs]
    exact Or.inl ⟨Or.inr (update_self ..), hp, hw⟩
  · obtain ⟨rfl, rfl⟩ := List.cons.inj (htodo.symm.trans hl)
    rcases exec_signal hs with ⟨hnil, rfl⟩ | ⟨w, hdo, hpick, hcons⟩
    · refine Or.inr ⟨Or.inl (update_self ..), ?_⟩
      show m.picked t = (m.present t).take 1
      rw [hp, hw, hnil]
      rfl
    · grind
  · rw [htodo] at hl
    cases hl
  · grind [exec_semaUp]

theorem Serves.broadcast_step (h : Serves m t) (hcall : m.call t = some (.broadcast c))
    (htodo : m.todo t = op :: r) (hs : m.exec t r op = some m') : Serves m' t := by
  obtain ⟨-, hcalls, hpres, -⟩ := exec_frame hs
  simp only [Serves, hcalls, hpres, hcall] at h ⊢
  rcases h with ⟨hl | hl | hl | ⟨w, hl⟩, hp⟩ | ⟨hl, -⟩
  · obtain ⟨rfl, rfl⟩ := List.cons.inj (htodo.symm.trans hl)
    cases hs
    cases hw : m.waiters c with
    | nil =>
      refine Or.inr ⟨update_self .., ?_⟩
      rw [hw, List.append_nil] at hp
      exact hp
    | cons w ws => exact Or.inl ⟨Or.inr (Or.inl (update_self ..)), hw ▸ hp⟩
  · obtain ⟨rfl, rfl⟩ := List.cons.inj (htodo.symm.trans hl)
    rw [exec_assertHeld hs]
    exact Or.inl ⟨Or.inr (Or.inr (Or.inl (update_self ..))), hp⟩
  · obtain ⟨rfl, rfl⟩ := List.cons.inj (htodo.symm.trans hl)
    rcases exec_signal hs with ⟨-, rfl⟩ | ⟨w, hdo, hpick, hcons⟩
    · exact Or.inl ⟨Or.inl (update_self ..), hp⟩
    · grind
  · grind [exec_semaUp]
  · rw [htodo] at hl
    cases hl

/-- The steps that follow one that is neither `signal` nor `broadcast` were there before, or
    are not such steps. -/
theorem exec_todo (hs : m.exec t r op = some m') (hop : ∀ c, op ≠ .signal c ∧ op ≠ .broadcast c)
    {o : Op τ ι κ} (ho : o ∈ m'.todo t) : o ∈ op :: r ∨ ∃ l, o = .setHolder l := by
  have hgo : ∀ (n : Monitor τ ι κ) (r' : List (Op τ ι κ)), o ∈ (n.goOn t r').todo t → o ∈ r' := by
    intro n r' hin
    simpa only [Monitor.goOn, update_self] using hin
  cases op with
  | assertFree l | assertHeld l => grind [Monitor.exec]
  | semaDown s => grind [Monitor.exec, Option.bind_eq_some_iff]
  | semaTryDown l => grind [Monitor.exec, Option.bind_eq_some_iff]
  | semaUp s => exact Or.inl (List.mem_cons_of_mem _ ((exec_semaUp hs).1 ▸ ho))
  | setHolder l | clearHolder l | initWaiter | leave | pushWaiter c =>
    cases hs
    exact Or.inl (List.mem_cons_of_mem _ (hgo _ _ ho))
  | signal c => exact absurd rfl (hop c).1
  | broadcast c => exact absurd rfl (hop c).2

theorem Serves.other_step (hs : m.exec t r op = some m') (htodo : m.todo t = op :: r)
    (h : ∀ c, .signal c ∉ m.todo t ∧ .broadcast c ∉ m.todo t) (c : Cond ι κ) :
    .signal c ∉ m'.todo t ∧ .broadcast c ∉ m'.todo t := by
  rw [htodo] at h
  have hop : ∀ c, op ≠ .signal c ∧ op ≠ .broadcast c := fun c =>
    ⟨fun heq => (h c).1 (heq ▸ List.mem_cons_self ..),
      fun heq => (h c).2 (heq ▸ List.mem_cons_self ..)⟩
  refine ⟨fun hin => ?_, fun hin => ?_⟩
  · grind [exec_todo]
  · grind [exec_todo]

theorem Serves.own (h : Serves m t) (htodo : m.todo t = op :: r) (hs : m.exec t r op = some m') :
    Serves m' t := by
  have hother : (∀ c, .signal c ∉ m.todo t ∧ .broadcast c ∉ m.todo t) →
      ∀ c, .signal c ∉ m'.todo t ∧ .broadcast c ∉ m'.todo t := Serves.other_step hs htodo
  cases hcall : m.call t with
  | none => grind [Serves, exec_frame]
  | some call => grind [h.signal_step, h.broadcast_step, Serves, exec_frame]

end Serves

/-! Whole runs. -/

theorem Call.not_upping (t : τ) (c : Call ι κ) (w : τ) : .semaUp (.waiter w) ∉ c.body t := by
  cases c with
  | acquire | tryAcquire | release | wait | signal | broadcast =>
    simp [Call.body, lockAcquire, lockTryAcquire, lockRelease, condWait, condSignal, condBroadcast]

section
variable [DecidableEq τ] [DecidableEq ι]

/-- What holds between steps. -/
structure MonitorInv (m : Monitor τ ι κ) : Prop where
  locks : ∃ hold, Locks m hold
  waits : ∃ phase, Waits m phase
  serves : ∀ t, Serves m t

theorem monitorInv_init : MonitorInv (monitorInit : Monitor τ ι κ) where
  locks := ⟨fun _ _ => .out, fun _ _ => Or.inl rfl, fun _ _ => by simp [monitorInit],
    fun _ => Or.inl ⟨rfl, fun _ => rfl⟩⟩
  waits := ⟨fun _ => .outside, fun _ => rfl, fun _ _ => by simp [monitorInit],
    fun _ => List.nodup_nil, fun h => by simp [monitorInit] at h,
    fun h => by simp [Upping, monitorInit] at h, fun h => by simp [Upping, monitorInit] at h,
    fun _ => rfl⟩
  serves := fun _ c => by simp [monitorInit]

/-- The steps of each function lead into `cond_wait` and out of it. -/
theorem shape_body (t : τ) (c : Call ι κ) : Shape t .outside (c.body t) := by
  cases c with
  | acquire l | release l => exact ⟨_, rfl, _, rfl, _, rfl, rfl⟩
  | tryAcquire l | signal c => exact ⟨_, rfl, _, rfl, rfl⟩
  | broadcast c => exact ⟨_, rfl, rfl⟩
  | wait c =>
    exact ⟨_, rfl, _, rfl, _, rfl, _, if_pos rfl, _, if_pos rfl, _, if_pos rfl, _, if_pos rfl,
      _, rfl, _, rfl, _, rfl, _, rfl, rfl⟩

section
variable {m m' : Monitor τ ι κ} {t : τ} {c : Call ι κ}

/-- A thread on the list of a condition whose lock another thread holds is at its `sema_down`. -/
theorem MonitorInv.released (h : MonitorInv m) {d : Cond ι κ} {w : τ} (hw : w ∈ m.waiters d)
    (hh : m.holder d.lock = some t) (hne : w ≠ t) :
    (m.todo w).head? = some (.semaDown (.waiter w)) ∧ m.chosen w = false := by
  obtain ⟨hold, hl⟩ := h.locks
  obtain ⟨phase, hwt⟩ := h.waits
  obtain ⟨hp, hc⟩ := hwt.listed hw
  refine ⟨?_, hc⟩
  have hin := (hl.holder t d.lock).mp hh
  have hout := hl.other (by rw [hin]; simp) hne
  have hshape := hwt.shape w
  have hfit := hl.fits w d.lock
  rw [hp] at hshape
  rw [hout] at hfit
  cases hop : m.todo w with
  | nil =>
    rw [hop] at hshape
    cases hshape
  | cons op r =>
    rw [hop] at hshape hfit
    obtain ⟨p', hp', -⟩ := hshape
    obtain ⟨-, h', hh', -⟩ := hfit
    -- every other step of `cond_wait` up to there is one of a thread with the lock
    cases op with
    | semaDown s => cases s <;> simp_all [Op.phase]
    | semaUp s => cases s <;> simp_all [Op.phase, Op.hold, moves]
    | _ => simp_all [Op.phase, Op.hold, moves]

variable [DecidableEq κ]

theorem MonitorInv.call (h : MonitorInv m) (ha : Asserted m (.call t c))
    (hs : m.step (.call t c) = some m') : MonitorInv m' := by
  obtain ⟨hold, hl⟩ := h.locks
  obtain ⟨phase, hw⟩ := h.waits
  rw [Monitor.step] at hs
  split at hs
  case h_2 => cases hs
  case h_1 hnil =>
    cases hs
    have hp : phase t = .outside := by
      have := hw.shape t
      rwa [hnil] at this
    refine ⟨⟨hold, hl.neutral rfl (hl.fits_body hnil ha) rfl fun _ => rfl⟩, ⟨phase,
      hw.neutral rfl (by simp [Upping, hnil]) (hp ▸ shape_body t c) (c.not_upping t)
      (fun _ => rfl) rfl rfl⟩, fun u => ?_⟩
    by_cases hu : u = t
    · subst hu
      cases c with
      | acquire | tryAcquire | release | wait =>
        simp [Serves, Monitor.goOn, Call.body, lockAcquire, lockTryAcquire, lockRelease, condWait]
      | signal c => simp [Serves, Monitor.goOn, Call.body, Monitor.candidates]
      | broadcast c => simp [Serves, Monitor.goOn, Call.body, condBroadcast, Monitor.candidates]
    · simpa [Serves, Monitor.goOn, hu] using h.serves u

theorem MonitorInv.stepThread (h : MonitorInv m) (hs : m.step (.step t) = some m') :
    MonitorInv m' := by
  obtain ⟨hold, hl⟩ := h.locks
  obtain ⟨phase, hw⟩ := h.waits
  rw [Monitor.step] at hs
  split at hs
  case h_1 => cases hs
  case h_2 op r htodo =>
    refine ⟨hl.exec htodo hs, hw.exec htodo hs, fun u => ?_⟩
    by_cases hu : u = t
    · subst hu
      exact (h.serves u).own htodo hs
    · exact (h.serves u).other hl htodo hs hu

theorem MonitorInv.defined (h : MonitorInv m) (htodo : m.todo t ≠ []) (hawake : ¬m.Asleep t) :
    (m.step (.step t)).isSome := by
  obtain ⟨hold, hl⟩ := h.locks
  obtain ⟨phase, hw⟩ := h.waits
  obtain ⟨op, r, hop⟩ := List.exists_cons_of_ne_nil htodo
  have hf : ∀ l, Fits l (hold t l) (op :: r) := fun l => hop ▸ hl.fits t l
  have hlock : ∀ l, ∃ x, m.sema (.lock l) = some x := by
    intro l
    rcases hl.value l with ⟨hv, -⟩ | ⟨hv, -⟩
    · obtain ⟨x, hx, -⟩ := Option.map_eq_some_iff.mp hv
      exact ⟨x, hx⟩
    · obtain ⟨x, hx, -⟩ := Option.map_eq_some_iff.mp hv
      exact ⟨x, hx⟩
  simp only [Monitor.step, hop]
  cases op with
  | assertFree l =>
    have hout := (fits_stay (fun _ _ => rfl) hf).1
    have : m.holder l ≠ some t := fun heq => by
      rw [(hl.holder t l).mp heq] at hout
      cases hout
    simp [Monitor.exec, this]
  | assertHeld l => simp [Monitor.exec, (hl.holder t l).mpr (fits_stay (fun _ _ => rfl) hf).1]
  | semaDown s =>
    obtain ⟨x, hx⟩ : ∃ x, m.sema s = some x := by
      cases s with
      | lock l => exact hlock l
      | waiter w =>
        obtain ⟨p', hp', -⟩ : Shape t (phase t) (.semaDown (.waiter w) :: r) := hop ▸ hw.shape t
        obtain ⟨c, hp, rfl⟩ : ∃ c, phase t = .listed c ∧ w = t := by
          cases hpt : phase t <;> simp_all [Op.phase]
        have hrec := hw.record w
        rw [hp] at hrec
        obtain ⟨x, hx, -⟩ := hrec
        exact ⟨x, hx⟩
    have : t ∉ x.waiters := fun hin => hawake ⟨s, x, by rw [hop]; rfl, hx, hin⟩
    simp [Monitor.exec, hx, this]
  | semaTryDown l =>
    obtain ⟨x, hx⟩ := hlock l
    simp [Monitor.exec, hx]
  | semaUp s =>
    obtain ⟨x, hx⟩ : ∃ x, m.sema s = some x := by
      cases s with
      | lock l => exact hlock l
      | waiter w =>
        obtain ⟨⟨c, hp⟩, -⟩ := hw.upping (u := t) (w := w) (by rw [Upping, hop]; rfl)
        have hrec := hw.record w
        rw [hp] at hrec
        obtain ⟨x, hx, -⟩ := hrec
        exact ⟨x, hx⟩
    simp [Monitor.exec, hx]
  | setHolder | clearHolder | initWaiter | pushWaiter | leave | broadcast => rfl
  | signal c =>
    rw [Monitor.exec]
    split <;> rfl

end

variable [DecidableEq κ]

/-- Locks and condition variables are correct. -/
structure MonitorOk (m : Monitor τ ι κ) : Prop where
  /-- No assertion fails, and no waiter is used that is not there. -/
  defined : ∀ t, m.todo t ≠ [] → ¬m.Asleep t → (m.step (.step t)).isSome
  /-- One thread at a time is between acquiring and releasing a lock. -/
  exclusive : ∀ l t u, m.Between t l → m.Between u l → t = u
  value : ∀ l, m.value l = some 0 ∨ (m.value l = some 1 ∧ m.holder l = none)
  /-- A thread returns from `cond_wait` only after it has been picked. -/
  chosen : ∀ t, (m.todo t).head? = some .leave → m.chosen t = true
  /-- Who holds the lock outside the functions, and may signal, finds on the list of a
      condition only threads that have released the lock and have not been picked. -/
  released : ∀ t c, m.todo t = [] → m.holder c.lock = some t → ∀ w ∈ m.waiters c,
    (m.todo w).head? = some (.semaDown (.waiter w)) ∧ m.chosen w = false
  /-- A signal has picked the thread that waited longest, if there was one. -/
  signal : ∀ t c, m.call t = some (.signal c) → m.todo t = [] →
    m.picked t = (m.present t).take 1
  /-- A broadcast has picked all. -/
  broadcast : ∀ t c, m.call t = some (.broadcast c) → m.todo t = [] → m.picked t = m.present t
  /-- A picked thread that has not got past its `sema_down` does so, now or after the next
      step of the thread that picked it. -/
  kept : ∀ t, (m.todo t).head? = some (.semaDown (.waiter t)) → m.chosen t = true →
    (∃ u, (m.todo u).head? = some (.semaUp (.waiter t))) ∨
      ∃ x, m.sema (.waiter t) = some x ∧ 0 < x.value ∧ t ∉ x.waiters

theorem MonitorInv.ok {m : Monitor τ ι κ} (h : MonitorInv m) : MonitorOk m where
  defined := fun t => h.defined
  exclusive := fun l t u ht hu => by
    obtain ⟨hold, hl⟩ := h.locks
    exact hl.exclusive (hl.between ht) (hl.between hu)
  value := fun l => by
    obtain ⟨hold, hl⟩ := h.locks
    rcases hl.value l with ⟨hv, hall⟩ | ⟨hv, -⟩
    · refine Or.inr ⟨hv, Option.eq_none_iff_forall_ne_some.mpr fun t ht => ?_⟩
      have := (hl.holder t l).mp ht
      rw [hall t] at this
      cases this
    · exact Or.inl hv
  chosen := fun t ht => by
    obtain ⟨phase, hw⟩ := h.waits
    obtain ⟨r, hr⟩ := List.head?_eq_some_iff.mp ht
    obtain ⟨p', hp', -⟩ : Shape t (phase t) (.leave :: r) := hr ▸ hw.shape t
    have hp : phase t = .past := by cases hpt : phase t <;> simp_all [Op.phase]
    have hrec := hw.record t
    rw [hp] at hrec
    exact hrec.2
  released := fun t c hnil hh w hw => by
    refine h.released hw hh ?_
    rintro rfl
    obtain ⟨phase, hwt⟩ := h.waits
    have hshape := hwt.shape w
    rw [hnil, (hwt.listed hw).1] at hshape
    cases hshape
  signal := fun t c hcall hnil => by
    have hs := h.serves t
    simp only [Serves, hcall, hnil] at hs
    rcases hs with ⟨hl | hl, -⟩ | ⟨-, hp⟩
    · cases hl
    · cases hl
    · exact hp
  broadcast := fun t c hcall hnil => by
    have hs := h.serves t
    simp only [Serves, hcall, hnil] at hs
    rcases hs with ⟨hl | hl | hl | ⟨w, hl⟩, -⟩ | ⟨-, hp⟩
    · cases hl
    · cases hl
    · cases hl
    · cases hl
    · exact hp
  kept := fun t ht hc => by
    obtain ⟨phase, hw⟩ := h.waits
    obtain ⟨r, hr⟩ := List.head?_eq_some_iff.mp ht
    obtain ⟨p', hp', -⟩ : Shape t (phase t) (.semaDown (.waiter t) :: r) := hr ▸ hw.shape t
    obtain ⟨c, hp⟩ : ∃ c, phase t = .listed c := by
      cases hpt : phase t <;> simp_all [Op.phase]
    have hrec := hw.record t
    rw [hp] at hrec
    obtain ⟨x, hx, -, ⟨hcf, -⟩ | ⟨-, ⟨-, u, hu⟩ | ⟨hv, hxw, -⟩⟩⟩ := hrec
    · rw [hc] at hcf
      cases hcf
    · exact Or.inl ⟨u, hu⟩
    · exact Or.inr ⟨x, hx, by omega, by simp [hxw]⟩

/-- **Locks and Mesa condition variables are correct under any schedule.** -/
theorem monitor_correct {m : Monitor τ ι κ} (h : Reach Monitor.step Asserted monitorInit m) :
    MonitorOk m := by
  refine (h.inv monitorInv_init fun m e m' hm ha hs => ?_).ok
  cases e with
  | call t c => exact hm.call ha hs
  | step t => exact hm.stepThread hs

end

/-- Thread 1 waits for a condition that thread 2 signals, up to the return of `cond_wait`. -/
def signalled : List (MonitorEvent Nat Nat Nat) :=
  .call 1 (.acquire 0) :: List.replicate 3 (.step 1) ++
    .call 1 (.wait ⟨0, 0⟩) :: List.replicate 6 (.step 1) ++
    .call 2 (.acquire 0) :: List.replicate 3 (.step 2) ++
    .call 2 (.signal ⟨0, 0⟩) :: List.replicate 3 (.step 2) ++
    .step 1 :: .call 2 (.release 0) :: List.replicate 3 (.step 2) ++ List.replicate 3 (.step 1)

theorem monitor_correct_signalled : ∃ m : Monitor Nat Nat Nat,
    Reach Monitor.step Asserted monitorInit m ∧
      ((m.todo 1).head? = some .leave ∧ m.chosen 1 = true) ∧ MonitorOk m := by
  obtain ⟨m, hm, hq⟩ := exists_reach Monitor.step (C := Asserted)
    (c := fun m e => match e with
      | .call t (.acquire l) | .call t (.tryAcquire l) => m.holder l ≠ some t
      | .call t (.release l) => m.holder l = some t
      | .call t (.wait c) | .call t (.signal c) | .call t (.broadcast c) => m.holder c.lock = some t
      | .step _ => true)
    (monitorInit : Monitor Nat Nat Nat) signalled
    (fun m => (m.todo 1).head? = some .leave && m.chosen 1)
    (fun m e he => by
      cases e with
      | call t c => cases c <;> simpa [Asserted] using he
      | step t => trivial) (by decide +kernel) (by decide +kernel)
  exact ⟨m, hm, by simpa using hq, monitor_correct hm⟩

end Pintos.Threads
