import Mathlib.Data.List.Sort

/- Sorting by a strict weak order.

   `less` tells some elements apart and leaves others equivalent. A list is sorted if
   nothing in it is less than what stands before it, and two lists have the same classes
   if for each element those equivalent to it stand in them in the same order: what a
   stable sort keeps. A sorted list is determined by its classes. -/
namespace Lib

variable {α : Type} (less : α → α → Bool)

/-- Neither is less than the other. -/
def eqv (a b : α) : Bool := !less a b && !less b a

def Sorted (l : List α) : Prop := l.Pairwise fun a b => less b a = false

def SameClasses (l m : List α) : Prop := ∀ a, l.filter (eqv less a) = m.filter (eqv less a)

abbrev WeakOrder (less : α → α → Bool) : Prop := IsStrictWeakOrder α fun a b => less a b = true

section
variable {less} {l m k : List α} {a b c : α}

theorem SameClasses.refl (l : List α) : SameClasses less l l := fun _ => rfl

theorem SameClasses.trans (h : SameClasses less l m) (h' : SameClasses less m k) :
    SameClasses less l k := fun a => (h a).trans (h' a)

theorem SameClasses.symm (h : SameClasses less l m) : SameClasses less m l := fun a => (h a).symm

theorem SameClasses.append {l' m' : List α} (h : SameClasses less l m)
    (h' : SameClasses less l' m') : SameClasses less (l ++ l') (m ++ m') := by
  intro a
  rw [List.filter_append, List.filter_append, h a, h' a]

theorem eqv_iff : eqv less a b = true ↔ less a b = false ∧ less b a = false := by
  simp [eqv]

theorem eqv_comm (a b : α) : eqv less a b = eqv less b a := Bool.and_comm ..

/-! The order. -/

variable [hw : WeakOrder less]

theorem less_irrefl (a : α) : less a a = false := Bool.eq_false_iff.mpr (hw.irrefl a)

theorem less_trans (h : less a b = true) (h' : less b c = true) : less a c = true :=
  hw.trans a b c h h'

theorem less_asymm (h : less a b = true) : less b a = false := by
  rw [Bool.eq_false_iff]
  intro h'
  exact hw.irrefl a (less_trans h h')

@[simp] theorem eqv_self (a : α) : eqv less a a = true := by
  simp [eqv, less_irrefl]

/-- What is not less goes on: this is what makes the order weak. -/
theorem notLess_trans (h : less b a = false) (h' : less c b = false) : less c a = false := by
  rw [Bool.eq_false_iff]
  intro hca
  -- either of the two may be equivalent, but then `c` and `a` are, too
  by_cases hab : less a b = true
  · exact Bool.false_ne_true (h'.symm.trans (less_trans hca hab))
  · by_cases hbc : less b c = true
    · exact Bool.false_ne_true (h.symm.trans (less_trans hbc hca))
    · grind [hw.incomp_trans]

theorem eqv_trans (h : eqv less a b = true) (h' : eqv less b c = true) : eqv less a c = true := by
  obtain ⟨hab, hba⟩ := eqv_iff.mp h
  obtain ⟨hbc, hcb⟩ := eqv_iff.mp h'
  exact eqv_iff.mpr ⟨notLess_trans hbc hab, notLess_trans hba hcb⟩

theorem less_of_less_of_notLess (h : less a b = true) (h' : less c b = false) :
    less a c = true := by
  cases hac : less a c with
  | true => rfl
  | false => exact absurd h (by rw [notLess_trans h' hac]; exact Bool.false_ne_true)

theorem less_of_eqv_of_less (h : eqv less c a = true) (h' : less a b = true) :
    less c b = true := by
  cases hcb : less c b with
  | true => rfl
  | false => exact absurd h' (by rw [notLess_trans hcb (eqv_iff.mp h).2]; exact Bool.false_ne_true)

theorem eqv_eq_false (h : eqv less c a = true) (h' : less a b = true) : eqv less c b = false := by
  rw [eqv, less_of_eqv_of_less h h']
  rfl

/-! Sorted lists. -/

theorem Sorted.cons (h : Sorted less (b :: l)) (hab : less b a = false) :
    Sorted less (a :: b :: l) := by
  apply List.Pairwise.cons _ h
  intro x hx
  cases hx with
  | head => exact hab
  | tail _ hx => exact notLess_trans hab ((List.pairwise_cons.mp h).1 x hx)

theorem Sorted.less_all (h : Sorted less (b :: l)) (hab : less a b = true) :
    ∀ x ∈ b :: l, less a x = true := by
  intro x hx
  cases hx with
  | head => exact hab
  | tail _ hx => exact less_of_less_of_notLess hab ((List.pairwise_cons.mp h).1 x hx)

theorem filter_eqv_eq_nil (h : ∀ x ∈ l, less a x = true) (hc : eqv less c a = true) :
    l.filter (eqv less c) = [] := by
  apply List.filter_eq_nil_iff.mpr
  intro x hx
  rw [eqv_eq_false hc (h x hx)]
  exact Bool.false_ne_true

theorem sameClasses_cons_append (h : ∀ x ∈ l, less a x = true) :
    SameClasses less (l ++ a :: m) (a :: l ++ m) := by
  intro c
  cases hc : eqv less c a with
  | false => simp [hc]
  | true => simp [hc, filter_eqv_eq_nil h hc]

/-- **A sorted list is determined by its classes.** -/
theorem Sorted.unique (hl : Sorted less l) (hm : Sorted less m) (h : SameClasses less l m) :
    l = m := by
  induction l generalizing m with
  | nil =>
    cases m with
    | nil => rfl
    | cons b m =>
      have := h b
      simp at this
  | cons a l ih =>
    cases m with
    | nil =>
      have := h a
      simp at this
    | cons b m =>
      have hmem {x : α} {l m : List α} (h : SameClasses less (x :: l) m) : x ∈ m := by
        have hx : x ∈ (x :: l).filter (eqv less x) := by simp
        rw [h x] at hx
        exact List.mem_of_mem_filter hx
      have hab : less a b = false := by
        cases hmem h with
        | head => exact less_irrefl _
        | tail _ ha => exact (List.pairwise_cons.mp hm).1 a ha
      have hba : less b a = false := by
        cases hmem h.symm with
        | head => exact less_irrefl _
        | tail _ hb => exact (List.pairwise_cons.mp hl).1 b hb
      -- both are the first of the same class
      have hfirst := h a
      rw [List.filter_cons_of_pos (eqv_self a), List.filter_cons_of_pos (eqv_iff.mpr ⟨hab, hba⟩)]
        at hfirst
      obtain ⟨rfl, -⟩ := List.cons.inj hfirst
      congr 1
      apply ih hl.of_cons hm.of_cons
      intro c
      have := h c
      cases hc : eqv less c a with
      | false => simpa [hc] using this
      | true => simpa [hc] using this

theorem SameClasses.perm (h : SameClasses less l m) : l.Perm m := by
  classical
  apply List.perm_iff_count.mpr
  intro a
  have hcount (k : List α) : (k.filter (eqv less a)).count a = k.count a :=
    List.count_filter (eqv_self a)
  rw [← hcount l, h a, hcount m]

end

/-! Merging. -/

/-- Of equivalent elements those of the first list come first. -/
def merge (less : α → α → Bool) (l m : List α) : List α := List.merge l m fun a b => !less b a

section
variable {less} {l m : List α} {a b : α}

@[simp] theorem merge_nil_left (m : List α) : merge less [] m = m := by simp [merge]

@[simp] theorem merge_nil_right (l : List α) : merge less l [] = l := by simp [merge]

theorem merge_cons_cons_of_less (h : less b a = true) :
    merge less (a :: l) (b :: m) = b :: merge less (a :: l) m := by
  rw [merge, List.cons_merge_cons, if_neg (by simp [h]), merge]

theorem merge_cons_cons_of_not (h : less b a = false) :
    merge less (a :: l) (b :: m) = a :: merge less l (b :: m) := by
  rw [merge, List.cons_merge_cons, if_pos (by simp [h]), merge]

variable [hw : WeakOrder less]

theorem sorted_merge (hl : Sorted less l) (hm : Sorted less m) : Sorted less (merge less l m) := by
  have htrans : ∀ a b c, (!less b a) = true → (!less c b) = true → (!less c a) = true := by
    intro a b c h h'
    rw [Bool.not_eq_true'] at h h' ⊢
    exact notLess_trans h h'
  have htotal : ∀ a b, (!less b a || !less a b) = true := by
    intro a b
    cases hba : less b a with
    | false => rfl
    | true => simp [less_asymm hba]
  have hmerge := List.pairwise_merge htrans htotal l m (hl.imp fun h => by simp [h])
    (hm.imp fun h => by simp [h])
  exact hmerge.imp fun h => by simpa using h

theorem sameClasses_merge (hl : Sorted less l) : SameClasses less (l ++ m) (merge less l m) := by
  induction l generalizing m with
  | nil => simpa using SameClasses.refl _
  | cons a l ih =>
    induction m with
    | nil => simpa using SameClasses.refl _
    | cons b m ihm =>
      cases hba : less b a with
      | false =>
        rw [merge_cons_cons_of_not hba]
        exact SameClasses.append (SameClasses.refl [a]) (ih hl.of_cons)
      | true =>
        rw [merge_cons_cons_of_less hba]
        apply (sameClasses_cons_append (hl.less_all hba)).trans
        exact SameClasses.append (SameClasses.refl [b]) ihm

end

/-! Runs. -/

/-- The number of stretches without a descent. -/
def runs (less : α → α → Bool) : List α → Nat
  | [] => 0
  | [_] => 1
  | a :: b :: l => if less b a then runs less (b :: l) + 1 else runs less (b :: l)

/-- There is a descent where the second list begins, unless it is empty. -/
def Descent (less : α → α → Bool) (l m : List α) : Prop :=
  ∀ a ∈ l.getLast?, ∀ b ∈ m.head?, less b a = true

section
variable {less} {l m : List α}

theorem runs_le_length (l : List α) : runs less l ≤ l.length := by
  induction l with
  | nil => exact Nat.le_refl _
  | cons a l ih =>
    cases l with
    | nil => exact Nat.le_refl _
    | cons b l =>
      rw [runs, List.length_cons]
      split <;> omega

theorem runs_append_le (l m : List α) : runs less (l ++ m) ≤ runs less l + runs less m := by
  induction l with
  | nil => exact (Nat.zero_add _).ge
  | cons a l ih =>
    cases l with
    | nil =>
      cases m with
      | nil => exact Nat.le_refl _
      | cons b m => grind [runs]
    | cons b l => grind [runs]

theorem Sorted.runs_le_one (h : Sorted less l) : runs less l ≤ 1 := by
  induction l with
  | nil => exact Nat.zero_le _
  | cons a l ih =>
    cases l with
    | nil => exact Nat.le_refl _
    | cons b l =>
      rw [runs, if_neg (by simp [(List.pairwise_cons.mp h).1 b (List.mem_cons_self ..)])]
      exact ih h.of_cons

theorem runs_pos (less : α → α → Bool) {l : List α} (h : l ≠ []) : 1 ≤ runs less l := by
  induction l with
  | nil => exact absurd rfl h
  | cons a l ih =>
    cases l with
    | nil => exact Nat.le_refl _
    | cons b l => grind [runs]

theorem Descent.runs_append (h : Descent less l m) :
    runs less (l ++ m) = runs less l + runs less m := by
  induction l with
  | nil => exact (Nat.zero_add _).symm
  | cons a l ih =>
    cases l with
    | nil =>
      cases m with
      | nil => rfl
      | cons b m =>
        show runs less (a :: b :: m) = 1 + _
        rw [runs, if_pos (h a rfl b rfl), Nat.add_comm]
    | cons b l =>
      have ih := ih fun x hx => h x (by simpa using hx)
      show runs less (a :: b :: (l ++ m)) = _
      rw [runs, runs]
      split
      · rw [Nat.add_right_comm]
        exact congrArg (· + 1) ih
      · exact ih

/-- Sorted stretches one after the other make no more runs than there are of them. -/
theorem runs_flatten_le {ls : List (List α)} (h : ∀ l ∈ ls, Sorted less l) :
    runs less ls.flatten ≤ ls.length := by
  induction ls with
  | nil => exact Nat.le_refl _
  | cons l ls ih =>
    rw [List.flatten_cons, List.length_cons, Nat.add_comm]
    apply (runs_append_le l _).trans
    exact Nat.add_le_add (h l (List.mem_cons_self ..)).runs_le_one
      (ih fun m hm => h m (List.mem_cons_of_mem _ hm))

end

/-! Insertion. -/

section
variable {less} [hw : WeakOrder less] {l : List α}

/-- An element goes before the first one it is less than. -/
def insertOrdered (less : α → α → Bool) (a : α) : List α → List α :=
  List.orderedInsert (fun a b => less a b = true) a

theorem sameClasses_insertOrdered (hl : Sorted less l) (a : α) :
    SameClasses less (l ++ [a]) (insertOrdered less a l) := by
  induction l with
  | nil => exact SameClasses.refl _
  | cons b l ih =>
    rw [insertOrdered, List.orderedInsert_cons]
    split
    · next hab =>
      simpa using sameClasses_cons_append (m := []) (hl.less_all hab)
    · exact SameClasses.append (SameClasses.refl [b]) (ih hl.of_cons)

theorem sorted_insertOrdered (hl : Sorted less l) (a : α) :
    Sorted less (insertOrdered less a l) := by
  induction l with
  | nil => exact List.pairwise_singleton _ _
  | cons b l ih =>
    rw [insertOrdered, List.orderedInsert_cons]
    split
    · next hab => exact hl.cons (less_asymm hab)
    · next hab =>
      apply List.Pairwise.cons _ (ih hl.of_cons)
      intro x hx
      have hx := (List.perm_orderedInsert _ a l).mem_iff.mp hx
      cases hx with
      | head => exact Bool.eq_false_iff.mpr hab
      | tail _ hx => exact (List.pairwise_cons.mp hl).1 x hx

end

/-! The first of each class. -/

/-- What is kept of a list after `a`, and what is dropped, if an element that is equivalent
    to the last one that has been kept is dropped. -/
def split (less : α → α → Bool) (a : α) : List α → List α × List α
  | [] => ([], [])
  | b :: l =>
    if eqv less a b then ((split less a l).1, b :: (split less a l).2)
    else (b :: (split less b l).1, (split less b l).2)

section
variable {less} {a b : α} {l : List α}

theorem split_cons_of_eqv (h : eqv less a b = true) :
    split less a (b :: l) = ((split less a l).1, b :: (split less a l).2) := if_pos h

theorem split_cons_of_not (h : ¬eqv less a b = true) :
    split less a (b :: l) = (b :: (split less b l).1, (split less b l).2) := if_neg h

theorem split_sublist (a : α) (l : List α) :
    (split less a l).1.Sublist l ∧ (split less a l).2.Sublist l := by
  induction l generalizing a with
  | nil => exact ⟨List.Sublist.refl _, List.Sublist.refl _⟩
  | cons b l ih => grind [eqv, split_cons_of_eqv, split_cons_of_not]

theorem split_perm (a : α) (l : List α) : ((split less a l).1 ++ (split less a l).2).Perm l := by
  induction l generalizing a with
  | nil => exact List.Perm.refl _
  | cons b l ih =>
    by_cases h : eqv less a b = true
    · rw [split_cons_of_eqv h]
      exact List.perm_middle.trans ((ih a).cons b)
    · rw [split_cons_of_not h]
      exact (ih b).cons b

theorem Sorted.less_of_not_eqv (h : Sorted less (a :: b :: l)) (hab : ¬eqv less a b = true) :
    less a b = true := by
  have hba := (List.pairwise_cons.mp h).1 b (List.mem_cons_self ..)
  cases h : less a b with
  | true => rfl
  | false => exact absurd (eqv_iff.mpr ⟨h, hba⟩) hab

theorem Sorted.skip (h : Sorted less (a :: b :: l)) : Sorted less (a :: l) :=
  h.sublist (List.Sublist.cons_cons a (List.sublist_cons_self b l))

variable [hw : WeakOrder less]

theorem Sorted.split_strict (h : Sorted less (a :: l)) :
    (a :: (split less a l).1).Pairwise fun x y => less x y = true := by
  induction l generalizing a with
  | nil => exact List.pairwise_singleton _ _
  | cons b l ih =>
    by_cases hab : eqv less a b = true
    · rw [split_cons_of_eqv hab]
      exact ih h.skip
    · rw [split_cons_of_not hab]
      have hrest := ih h.of_cons
      apply List.Pairwise.cons _ hrest
      intro x hx
      have hlt := h.less_of_not_eqv hab
      cases hx with
      | head => exact hlt
      | tail _ hx => exact less_trans hlt ((List.pairwise_cons.mp hrest).1 x hx)

theorem Sorted.split_first (h : Sorted less (a :: l)) (c : α) :
    (a :: (split less a l).1).filter (eqv less c) = ((a :: l).filter (eqv less c)).take 1 := by
  induction l generalizing a with
  | nil => cases hc : eqv less c a <;> simp [split, hc]
  | cons b l ih =>
    by_cases hab : eqv less a b = true
    · grind [split_cons_of_eqv, h.skip, eqv_trans, eqv_comm]
    · rw [split_cons_of_not hab]
      have ih := ih h.of_cons
      cases hc : eqv less c a with
      | true =>
        have hnil := filter_eqv_eq_nil (Sorted.less_all h.of_cons (h.less_of_not_eqv hab)) hc
        have hnil' : (b :: (split less b l).1).filter (eqv less c) = [] := by rw [ih, hnil]; rfl
        simp [List.filter_cons_of_pos hc, hnil']
      | false => grind

end

end Lib
