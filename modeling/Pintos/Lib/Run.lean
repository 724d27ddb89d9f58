import Mathlib.Logic.Function.Basic

/- Runs of a partial step function.

   `step s e` is the state after the event `e`, or `none` where the event has no
   defined outcome in `s`. `Reach step C s₀ s` says that `s` is reached from `s₀`
   by steps that are all defined and all meet the condition `C` on the state they
   start from. `Reach.inv` is the induction every safety result below is proved
   with; `run` and `reach_of_run` turn a concrete list of events into a run. -/
namespace Lib

variable {σ ε : Type*} {C : σ → ε → Prop} {I : σ → Prop} {c : σ → ε → Bool}

/-- The states reached from `s₀` by defined steps that meet `C`. -/
inductive Reach (step : σ → ε → Option σ) (C : σ → ε → Prop) (s₀ : σ) : σ → Prop
  | refl : Reach step C s₀ s₀
  | tail {s s' : σ} (e : ε) : Reach step C s₀ s → C s e → step s e = some s' → Reach step C s₀ s'

def anyStep : σ → ε → Prop := fun _ _ => True

namespace Reach

variable {step : σ → ε → Option σ} {C D : σ → ε → Prop} {s₀ s s' : σ}

/-- A property that holds at the start and is kept by every step that meets the
    condition holds in every state reached. -/
theorem inv (h : Reach step C s₀ s) (h₀ : I s₀)
    (hs : ∀ s e s', I s → C s e → step s e = some s' → I s') : I s := by
  induction h with
  | refl => exact h₀
  | tail e _ hc he ih => exact hs _ e _ ih hc he

/-- A run under a condition is a run under a weaker one. -/
theorem mono (h : Reach step C s₀ s) (hCD : ∀ s e, C s e → D s e) : Reach step D s₀ s := by
  induction h with
  | refl => exact .refl
  | tail e _ hc he ih => exact .tail e ih (hCD _ e hc) he

/-- A run whose steps are all steps of another machine is a run of that machine. -/
theorem through {ε' : Type*} {step' : σ → ε' → Option σ} {D : σ → ε' → Prop}
    (h : Reach step C s₀ s)
    (hs : ∀ s e s', C s e → step s e = some s' → ∃ e', D s e' ∧ step' s e' = some s') :
    Reach step' D s₀ s := by
  induction h with
  | refl => exact .refl
  | tail e _ hc he ih =>
    obtain ⟨e', hd, he'⟩ := hs _ e _ hc he
    exact .tail e' ih hd he'

theorem trans {t : σ} (h₁ : Reach step C s₀ s) (h₂ : Reach step C s t) : Reach step C s₀ t := by
  induction h₂ with
  | refl => exact h₁
  | tail e _ hc he ih => exact .tail e ih hc he

end Reach

/-- The state after the events `es`, if every step is defined. -/
def run (step : σ → ε → Option σ) : σ → List ε → Option σ
  | s, [] => some s
  | s, e :: es => (step s e).bind fun s' => run step s' es

theorem run_append (step : σ → ε → Option σ) : ∀ (es es' : List ε) (s : σ),
    run step s (es ++ es') = (run step s es).bind fun s' => run step s' es'
  | [], _, _ => rfl
  | e :: es, es', s => by
    rw [List.cons_append, run, run]
    cases step s e with
    | none => rfl
    | some t => exact run_append step es es' t

/-- What holds of no events and is kept by one more event holds of every run. The
    property may speak of the events so far. -/
theorem run_inv {step : σ → ε → Option σ} {I : List ε → σ → Prop}
    (hs : ∀ l t e t', I l t → step t e = some t' → I (l ++ [e]) t') : ∀ (es : List ε) {l : List ε}
    {s s' : σ}, I l s → run step s es = some s' → I (l ++ es) s'
  | [], l, s, s', hI, h => by
    cases h
    rw [List.append_nil]
    exact hI
  | e :: es, l, s, s', hI, h => by
    rw [run, Option.bind_eq_some_iff] at h
    obtain ⟨t, ht, hrun⟩ := h
    rw [List.append_cons]
    exact run_inv hs es (hs l s e t hI ht) hrun

/-- A run of events that meet the condition in every state. -/
theorem reach_of_all {step : σ → ε → Option σ} : ∀ {l : List ε} {s s' : σ},
    (∀ e ∈ l, ∀ t, C t e) → run step s l = some s' → Reach step C s s'
  | [], _, _, _, h => by cases h; exact .refl
  | e :: es, s, s', hC, h => by
    rw [run, Option.bind_eq_some_iff] at h
    obtain ⟨t, ht, hrun⟩ := h
    have hhead : Reach step C s t := .tail e .refl (hC e (List.mem_cons_self ..) s) ht
    exact hhead.trans (reach_of_all (fun e he => hC e (List.mem_cons_of_mem _ he)) hrun)

/-- Whether every step of the run meets a decidable condition. -/
def runOk (step : σ → ε → Option σ) (c : σ → ε → Bool) : σ → List ε → Bool
  | _, [] => true
  | s, e :: es => c s e && match step s e with
    | some s' => runOk step c s' es
    | none => true

/-- A concrete list of events is a run. The check `c` may rely on an invariant. -/
theorem reach_of_run {step : σ → ε → Option σ}
    (hI : ∀ s e s', I s → C s e → step s e = some s' → I s')
    (hc : ∀ s e, I s → c s e = true → C s e) : ∀ (es : List ε) (s s' : σ), I s →
    run step s es = some s' → runOk step c s es = true → Reach step C s s'
  | [], s, s', _, h, _ => by cases h; exact .refl
  | e :: es, s, s', hs, h, hok => by
    simp only [run, Option.bind_eq_some_iff] at h
    obtain ⟨t, ht, hrun⟩ := h
    simp only [runOk, ht, Bool.and_eq_true] at hok
    have hce : C s e := hc s e hs hok.1
    have hhead : Reach step C s t := .tail e .refl hce ht
    exact hhead.trans (reach_of_run hI hc es t s' (hI s e t hs hce ht) hrun hok.2)

/-- A concrete run, checked by evaluation: all its steps are defined and meet the
    condition, and its last state passes `q`. -/
theorem exists_reach_inv (step : σ → ε → Option σ) {C : σ → ε → Prop} {c : σ → ε → Bool} (s : σ)
    (es : List ε) (q : σ → Bool) {I : σ → Prop}
    (hI : ∀ s e s', I s → C s e → step s e = some s' → I s')
    (hc : ∀ s e, I s → c s e = true → C s e) (hs : I s)
    (hok : runOk step c s es = true) (hq : (run step s es).any q = true) :
    ∃ s', Reach step C s s' ∧ q s' = true := by
  obtain ⟨s', hrun, hs'⟩ := (Option.any_eq_true _ _).mp hq
  exact ⟨s', reach_of_run hI hc es s s' hs hrun hok, hs'⟩

/-- The same, without an invariant. -/
theorem exists_reach (step : σ → ε → Option σ) (s : σ) (es : List ε) (q : σ → Bool)
    (hc : ∀ s e, c s e = true → C s e) (hok : runOk step c s es = true)
    (hq : (run step s es).any q = true) : ∃ s', Reach step C s s' ∧ q s' = true :=
  exists_reach_inv step s es q (I := fun _ => True) (fun _ _ _ _ _ _ => trivial)
    (fun s e _ => hc s e) trivial hok hq

/-! Steps that may lead anywhere. -/

section
variable {step : σ → ε → Option σ} {wild : σ → ε → Bool} {s₀ s : σ}

end

/-! Loops over a list, as `foldlM` in `Option`. -/

/-- What every turn of a loop keeps, the loop keeps. -/
theorem foldlM_inv {α : Type*} {f : σ → α → Option σ} : ∀ (l : List α) {s s' : σ},
    (∀ a ∈ l, ∀ t t', I t → f t a = some t' → I t') → I s → l.foldlM f s = some s' → I s'
  | [], _, _, _, hs, h => by cases h; exact hs
  | a :: l, s, s', hf, hs, h => by
    rw [List.foldlM_cons] at h
    obtain ⟨t, ht, hl⟩ := Option.bind_eq_some_iff.mp h
    have hst : I t := hf a (List.mem_cons_self ..) s t hs ht
    exact foldlM_inv l (fun b hb => hf b (List.mem_cons_of_mem _ hb)) hst hl

/-- A loop whose invariant speaks of the items still to come: `I l` holds before
    the items `l` are done, so `I []` holds at the end. -/
theorem foldlM_todo {α : Type*} {f : σ → α → Option σ} {I : List α → σ → Prop}
    (hf : ∀ a l t t', I (a :: l) t → f t a = some t' → I l t') : ∀ (l : List α) {s s' : σ},
    I l s → l.foldlM f s = some s' → I [] s'
  | [], _, _, hs, h => by cases h; exact hs
  | a :: l, s, s', hs, h => by
    rw [List.foldlM_cons] at h
    obtain ⟨t, ht, hl⟩ := Option.bind_eq_some_iff.mp h
    exact foldlM_todo hf l (hf a l s t hs ht) hl

end Lib
