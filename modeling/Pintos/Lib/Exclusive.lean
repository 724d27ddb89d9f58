import Mathlib.Logic.Function.Basic

/- Owners of resources that are not shared.

   `own` says who the owners are and what each is; `holds` which resources an owner
   holds. Everything that is held is in use, and nothing is held twice. The rules say
   how owners come and go. -/
namespace Lib

open Function

variable {ι α ρ : Type}

structure Exclusive (own : ι → Option α) (holds : ι → α → ρ → Prop) (used : ρ → Prop) : Prop where
  used : ∀ {i a r}, own i = some a → holds i a r → used r
  apart : ∀ {i j a b r}, own i = some a → own j = some b → holds i a r → holds j b r → i = j

namespace Exclusive
variable {own : ι → Option α} {holds : ι → α → ρ → Prop} {used used' : ρ → Prop}

theorem mono (h : Exclusive own holds used) (hle : ∀ r, used r → used' r) :
    Exclusive own holds used' :=
  ⟨fun ha hr => hle _ (h.used ha hr), h.apart⟩

theorem give (h : Exclusive own holds used)
    (hle : ∀ r, used r → used' r ∨ ∀ i a, own i = some a → ¬holds i a r) :
    Exclusive own holds used' :=
  ⟨fun ha hr => (hle _ (h.used ha hr)).resolve_right fun hno => hno _ _ ha hr, h.apart⟩

variable [DecidableEq ι]

theorem insert (h : Exclusive own holds used) {i : ι} {a : α} (hused : ∀ r, holds i a r → used r)
    (hfree : ∀ r, holds i a r → ∀ j b, own j = some b → ¬holds j b r) :
    Exclusive (update own i (some a)) holds used := by
  have hcases : ∀ {j b}, update own i (some a) j = some b →
      (j = i ∧ b = a) ∨ (j ≠ i ∧ own j = some b) := by grind
  constructor
  · grind [h.used]
  · grind [h.apart]

theorem erase (h : Exclusive own holds used) {i : ι} {a : α} (hi : own i = some a)
    (hle : ∀ r, used r → ¬holds i a r → used' r) :
    Exclusive (update own i none) holds used' := by
  have hother : ∀ {j b}, update own i none j = some b → j ≠ i ∧ own j = some b := by grind
  constructor
  · grind [h.used, h.apart]
  · grind [h.apart]

end Exclusive

end Lib
