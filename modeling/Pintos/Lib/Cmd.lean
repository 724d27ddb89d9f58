import Mathlib.Logic.Basic

/- Commands on a state, and their weakest preconditions.

   A command takes a state to a result and a new state, or has no outcome: an
   assertion fails, or a pointer that is not good is followed. `wp m Q s` says that
   `m` has an outcome in `s` and that `Q` holds of it, so it is about total
   correctness; `wpIf P m Q s` promises the outcome only if `P`.
   The rules below follow the shape of a command. -/
namespace Lib

abbrev Cmd (σ α : Type) := StateT σ Option α

variable {σ α β : Type} {Q R : α → σ → Prop} {m n : Cmd σ α} {s t : σ} {f : α → Cmd σ β} {a : α}
  {o : Option α} {c : Bool}

def wp (m : Cmd σ α) (Q : α → σ → Prop) (s : σ) : Prop := ∃ a t, m s = some (a, t) ∧ Q a t

def assert (c : Bool) : Cmd σ Unit := fun s => if c then some ((), s) else none

/-- A pointer is followed: there has to be something there. -/
def follow (o : Option α) : Cmd σ α := fun s => o.map fun a => (a, s)

theorem wp_intro (h : m s = some (a, t)) (hq : Q a t) : wp m Q s := ⟨a, t, h, hq⟩

theorem wp_mono (h : wp m Q s) (hqr : ∀ a t, Q a t → R a t) : wp m R s := by
  obtain ⟨a, t, hm, hq⟩ := h
  exact ⟨a, t, hm, hqr a t hq⟩

theorem wp_and (h : wp m Q s) (h' : wp m R s) : wp m (fun a t => Q a t ∧ R a t) s := by
  obtain ⟨a, t, hm, hq⟩ := h
  obtain ⟨b, u, hm', hr⟩ := h'
  rw [hm] at hm'
  cases hm'
  exact ⟨a, t, hm, hq, hr⟩

theorem wp_elim (h : wp m Q s) (hm : m s = some (a, t)) : Q a t := by
  obtain ⟨b, u, hm', hq⟩ := h
  rw [hm] at hm'
  cases hm'
  exact hq

@[simp] theorem wp_pure : wp (pure a : Cmd σ α) Q s ↔ Q a s := by
  constructor
  · rintro ⟨b, t, h, hq⟩
    cases h
    exact hq
  · exact fun hq => ⟨a, s, rfl, hq⟩

theorem bind_eq_some {u : σ} {b : β} :
    (m >>= f) s = some (b, u) ↔ ∃ a t, m s = some (a, t) ∧ f a t = some (b, u) := by
  show (m s >>= fun x => f x.1 x.2) = _ ↔ _
  cases hm : m s with
  | none => simp [bind]
  | some x => grind

@[simp] theorem wp_bind {Q : β → σ → Prop} :
    wp (m >>= f) Q s ↔ wp m (fun a t => wp (f a) Q t) s := by
  constructor
  · rintro ⟨b, u, h, hq⟩
    obtain ⟨a, t, hm, hf⟩ := bind_eq_some.mp h
    exact ⟨a, t, hm, b, u, hf, hq⟩
  · rintro ⟨a, t, hm, b, u, hf, hq⟩
    exact ⟨b, u, bind_eq_some.mpr ⟨a, t, hm, hf⟩, hq⟩

@[simp] theorem wp_get {Q : σ → σ → Prop} : wp (get : Cmd σ σ) Q s ↔ Q s s := by
  constructor
  · rintro ⟨a, t, h, hq⟩
    cases h
    exact hq
  · exact fun hq => ⟨s, s, rfl, hq⟩

@[simp] theorem wp_modify {f : σ → σ} {Q : PUnit → σ → Prop} :
    wp (modify f : Cmd σ PUnit) Q s ↔ Q ⟨⟩ (f s) := by
  constructor
  · rintro ⟨a, t, h, hq⟩
    cases h
    exact hq
  · exact fun hq => ⟨⟨⟩, f s, rfl, hq⟩

@[simp] theorem wp_set {Q : PUnit → σ → Prop} :
    wp (set t : Cmd σ PUnit) Q s ↔ Q ⟨⟩ t := wp_modify (f := fun _ => t)

theorem map_snd_eq_some : (m s).map Prod.snd = some t ↔ wp m (fun _ u => u = t) s := by
  constructor
  · intro h
    obtain ⟨⟨a, u⟩, hm, heq⟩ := Option.map_eq_some_iff.mp h
    exact ⟨a, u, hm, heq⟩
  · rintro ⟨a, u, hm, rfl⟩
    rw [hm]
    rfl

@[simp] theorem wp_assert {Q : Unit → σ → Prop} : wp (assert c) Q s ↔ c = true ∧ Q () s := by
  cases c with
  | false => simp [wp, assert]
  | true =>
    constructor
    · rintro ⟨a, t, h, hq⟩
      cases h
      exact ⟨rfl, hq⟩
    · exact fun hq => ⟨(), s, rfl, hq.2⟩

@[simp] theorem wp_follow : wp (follow o) Q s ↔ ∃ a, o = some a ∧ Q a s := by
  cases o with
  | none => simp [wp, follow]
  | some b =>
    constructor
    · rintro ⟨a, t, h, hq⟩
      cases h
      exact ⟨b, rfl, hq⟩
    · rintro ⟨a, h, hq⟩
      cases h
      exact ⟨b, s, rfl, hq⟩

/-- A command on a part of the state. -/
def zoom {τ : Type} (get : σ → τ) (set : τ → σ → σ) (m : Cmd τ α) : Cmd σ α := fun s =>
  (m (get s)).map fun x => (x.1, set x.2 s)

theorem wp_zoom {τ : Type} {get : σ → τ} {set : τ → σ → σ} {m : Cmd τ α} :
    wp (zoom get set m) Q s ↔ wp m (fun a t => Q a (set t s)) (get s) := by
  constructor
  · rintro ⟨a, u, h, hq⟩
    obtain ⟨⟨b, t⟩, hm, heq⟩ := Option.map_eq_some_iff.mp h
    cases heq
    exact ⟨_, t, hm, hq⟩
  · rintro ⟨a, t, hm, hq⟩
    exact ⟨a, set t s, by rw [zoom, hm]; rfl, hq⟩

theorem wp_ite {c : Prop} [Decidable c] :
    wp (if c then m else n) Q s ↔ (c → wp m Q s) ∧ (¬c → wp n Q s) := by
  by_cases h : c <;> simp [h]

/-! Outcomes that are certain only under a condition. -/

/-- `Q` holds of the outcome of `m`, and if `P` there is one. With `P` false this is
    partial correctness. -/
def wpIf (P : Prop) (m : Cmd σ α) (Q : α → σ → Prop) (s : σ) : Prop :=
  (∀ a t, m s = some (a, t) → Q a t) ∧ (P → ∃ a t, m s = some (a, t))

section WpIf
variable {P : Prop} {s : σ}

theorem wpIf_of_wp (h : wp m Q s) : wpIf P m Q s := by
  obtain ⟨a, t, hm, -⟩ := id h
  exact ⟨fun _ _ => wp_elim h, fun _ => ⟨a, t, hm⟩⟩

theorem wp_of_wpIf (h : wpIf P m Q s) (hP : P) : wp m Q s := by
  obtain ⟨a, t, hm⟩ := h.2 hP
  exact ⟨a, t, hm, h.1 a t hm⟩

theorem wp_and_wpIf (h : wp m Q s) (h' : wpIf P m R s) : wp m (fun a t => Q a t ∧ R a t) s := by
  obtain ⟨a, t, hm, hq⟩ := h
  exact ⟨a, t, hm, hq, h'.1 a t hm⟩

theorem wpIf_mono (h : wpIf P m Q s) (hqr : ∀ a t, Q a t → R a t) : wpIf P m R s :=
  ⟨fun a t hm => hqr a t (h.1 a t hm), h.2⟩

theorem wpIf_imp {P' : Prop} (h : wpIf P m Q s) (hP : P' → P) : wpIf P' m Q s := ⟨h.1, h.2 ∘ hP⟩

theorem wpIf_bind {Q : β → σ → Prop} :
    wpIf P (m >>= f) Q s ↔ wpIf P m (fun a t => wpIf P (f a) Q t) s := by
  constructor
  · rintro ⟨hq, hP⟩
    refine ⟨fun a t hm => ⟨fun b u hf => hq b u (bind_eq_some.mpr ⟨a, t, hm, hf⟩), fun h => ?_⟩,
      fun h => ?_⟩
    · obtain ⟨b, u, hmf⟩ := hP h
      obtain ⟨a', t', hm', hf⟩ := bind_eq_some.mp hmf
      rw [hm] at hm'
      cases hm'
      exact ⟨b, u, hf⟩
    · obtain ⟨b, u, hmf⟩ := hP h
      obtain ⟨a, t, hm, -⟩ := bind_eq_some.mp hmf
      exact ⟨a, t, hm⟩
  · rintro ⟨hq, hP⟩
    refine ⟨fun b u hmf => ?_, fun h => ?_⟩
    · obtain ⟨a, t, hm, hf⟩ := bind_eq_some.mp hmf
      exact (hq a t hm).1 b u hf
    · obtain ⟨a, t, hm⟩ := hP h
      obtain ⟨b, u, hf⟩ := (hq a t hm).2 h
      exact ⟨b, u, bind_eq_some.mpr ⟨a, t, hm, hf⟩⟩

theorem wpIf_get {Q : σ → σ → Prop} : wpIf P (get : Cmd σ σ) Q s ↔ Q s s :=
  ⟨fun h => h.1 s s rfl, fun h => wpIf_of_wp (wp_get.mpr h)⟩

theorem wpIf_modify {f : σ → σ} {Q : PUnit → σ → Prop} :
    wpIf P (modify f : Cmd σ PUnit) Q s ↔ Q ⟨⟩ (f s) :=
  ⟨fun h => h.1 ⟨⟩ (f s) rfl, fun h => wpIf_of_wp (wp_modify.mpr h)⟩

theorem wpIf_pure : wpIf P (pure a : Cmd σ α) Q s ↔ Q a s :=
  ⟨fun h => h.1 a s rfl, fun h => wpIf_of_wp (wp_pure.mpr h)⟩

theorem wpIf_discard {Q : Unit → σ → Prop} :
    wpIf P (discard m) Q s ↔ wpIf P m (fun _ t => Q () t) s := by
  show wpIf P (m >>= fun _ => pure ()) Q s ↔ _
  rw [wpIf_bind]
  simp only [wpIf_pure]

theorem wpIf_assert {Q : Unit → σ → Prop} :
    wpIf P (assert c) Q s ↔ (c = true → Q () s) ∧ (P → c = true) := by
  cases c with
  | false => simp [wpIf, assert]
  | true => exact ⟨fun h => ⟨fun _ => h.1 () s rfl, fun _ => rfl⟩,
      fun h => wpIf_of_wp (wp_assert.mpr ⟨rfl, h.1 rfl⟩)⟩

theorem wpIf_follow : wpIf P (follow o) Q s ↔ (∀ a, o = some a → Q a s) ∧ (P → o.isSome) := by
  cases o with
  | none => simp [wpIf, follow]
  | some b =>
    refine ⟨fun h => ⟨fun a ha => ?_, fun _ => rfl⟩,
      fun h => wpIf_of_wp (wp_follow.mpr ⟨b, rfl, h.1 b rfl⟩)⟩
    cases ha
    exact h.1 b s rfl

theorem wpIf_zoom {τ : Type} {get : σ → τ} {set : τ → σ → σ} {m : Cmd τ α} :
    wpIf P (zoom get set m) Q s ↔ wpIf P m (fun a t => Q a (set t s)) (get s) := by
  constructor
  · refine fun h => ⟨fun a t hm => h.1 a _ (by rw [zoom, hm]; rfl), fun hP => ?_⟩
    obtain ⟨a, u, hz⟩ := h.2 hP
    obtain ⟨⟨b, t⟩, hm, -⟩ := Option.map_eq_some_iff.mp hz
    exact ⟨b, t, hm⟩
  · refine fun h => ⟨fun a u hz => ?_, fun hP => ?_⟩
    · obtain ⟨⟨b, t⟩, hm, heq⟩ := Option.map_eq_some_iff.mp hz
      cases heq
      exact h.1 b t hm
    · obtain ⟨a, t, hm⟩ := h.2 hP
      exact ⟨a, set t s, by rw [zoom, hm]; rfl⟩

end WpIf

/-! Parts of the state that a command leaves alone. -/

/-- Whatever the outcome of `m` is, this part of the state is the same. -/
def Keeps {τ : Type} (f : σ → τ) (m : Cmd σ α) : Prop := ∀ s a t, m s = some (a, t) → f t = f s

section Keeps
variable {τ : Type} {f : σ → τ}

theorem keeps_of_id (h : Keeps id m) : Keeps f m :=
  fun s a t hm => congrArg f (h s a t hm)

theorem keeps_bind {k : α → Cmd σ β} (hm : Keeps f m) (hk : ∀ a, Keeps f (k a)) :
    Keeps f (m >>= k) := by
  intro s b u h
  obtain ⟨a, t, hmt, hku⟩ := bind_eq_some.mp h
  exact (hk a t b u hku).trans (hm s a t hmt)

theorem keeps_pure (a : α) : Keeps f (pure a : Cmd σ α) := by
  intro s b t h
  cases h
  rfl

theorem keeps_get : Keeps f (get : Cmd σ σ) := by
  intro s b t h
  cases h
  rfl

theorem keeps_modify {g : σ → σ} (hg : ∀ s, f (g s) = f s) : Keeps f (modify g : Cmd σ PUnit) := by
  intro s b t h
  cases h
  exact hg s

theorem keeps_assert (c : Bool) : Keeps f (assert c : Cmd σ Unit) := by
  intro s b t h
  cases c with
  | false => cases h
  | true =>
    cases h
    rfl

theorem keeps_follow (o : Option α) : Keeps f (follow o : Cmd σ α) := by
  intro s b t h
  cases o with
  | none => cases h
  | some a =>
    cases h
    rfl

theorem keeps_ite {c : Prop} [Decidable c] (hm : Keeps f m) (hn : Keeps f n) :
    Keeps f (if c then m else n) := by
  by_cases h : c
  · rwa [if_pos h]
  · rwa [if_neg h]

theorem keeps_zoom {ρ : Type} {get : σ → ρ} {set : ρ → σ → σ} {m : Cmd ρ α}
    (hset : ∀ r s, f (set r s) = f s) : Keeps f (zoom get set m) := by
  intro s b t h
  obtain ⟨⟨a, r⟩, -, heq⟩ := Option.map_eq_some_iff.mp h
  cases heq
  exact hset r s

theorem wpIf_of_keeps (h : Keeps f m) :
    wpIf False m (fun _ t => f t = f s) s := ⟨fun a t => h s a t, False.elim⟩

end Keeps

end Lib
