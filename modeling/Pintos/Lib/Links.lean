import Mathlib.Data.List.Nodup

/- Doubly linked lists whose links are part of what they link.

   A node is an element or one of the two ends of a list; `Links` holds the two
   pointers of every node, good or not. `Linked L a l b` says that going from `a` one
   comes through the elements `l` to `b`, and back the same way. `Lists L q` says that
   the links hold the lists `q`, no element being on two of them. Lists share no
   nodes, so a change to one leaves the others alone: each operation is a change of
   `q` at one place. -/
namespace Lib

open Function

inductive Node (ι ε : Type) where
  | head (i : ι)
  | tail (i : ι)
  | elem (e : ε)
  deriving DecidableEq

structure Links (ι ε : Type) where
  prev : Node ι ε → Option (Node ι ε)
  next : Node ι ε → Option (Node ι ε)

variable {ι ε : Type} {n : Node ι ε}

/-- From `a` through the elements of a list to `b`, and back. -/
def Linked (L : Links ι ε) : Node ι ε → List ε → Node ι ε → Prop
  | a, [], b => L.next a = some b ∧ L.prev b = some a
  | a, e :: l, b => L.next a = some (.elem e) ∧ L.prev (.elem e) = some a ∧ Linked L (.elem e) l b

/-- The node before the end of such a way, and the one after its start. -/
def lastNode (a : Node ι ε) : List ε → Node ι ε
  | [] => a
  | e :: l => lastNode (.elem e) l

def firstNode (l : List ε) (b : Node ι ε) : Node ι ε :=
  match l with
  | [] => b
  | e :: _ => .elem e

/-- The one node comes right after the other. -/
def Joined (L : Links ι ε) (u v : Node ι ε) : Prop := L.next u = some v ∧ L.prev v = some u

section Linked
variable {L L' : Links ι ε} {a b x : Node ι ε} {l m : List ε} {e : ε}

theorem lastNode_append (a : Node ι ε) (l : List ε) (e : ε) : lastNode a (l ++ [e]) = .elem e := by
  induction l generalizing a with
  | nil => rfl
  | cons y l ih => exact ih (.elem y)

theorem lastNode_mem (a : Node ι ε) (l : List ε) : lastNode a l ∈ a :: l.map .elem := by
  induction l generalizing a with
  | nil => exact List.mem_singleton.mpr rfl
  | cons y l ih => exact List.mem_cons_of_mem _ (ih (.elem y))

theorem firstNode_mem (l : List ε) (b : Node ι ε) : firstNode l b ∈ b :: l.map .elem := by
  cases l with
  | nil => exact List.mem_singleton.mpr rfl
  | cons y l => exact List.mem_cons_of_mem _ (List.mem_cons_self ..)

theorem lastNode_append_cons (a : Node ι ε) (x : List ε) (e : ε) (y : List ε) :
    lastNode a (x ++ e :: y) = lastNode (.elem e) y := by
  induction x generalizing a with
  | nil => rfl
  | cons z x ih => exact ih (.elem z)

theorem lastNode_append' (a : Node ι ε) (x y : List ε) :
    lastNode a (x ++ y) = lastNode (lastNode a x) y := by
  induction x generalizing a with
  | nil => rfl
  | cons z x ih => exact ih (.elem z)

theorem firstNode_append (x y : List ε) (b : Node ι ε) :
    firstNode (x ++ y) b = firstNode x (firstNode y b) := by
  cases x <;> rfl

theorem Linked.next_eq (h : Linked L a l b) : L.next a = some (firstNode l b) := by
  cases l with
  | nil => exact h.1
  | cons y l => exact h.1

theorem Linked.prev_eq (h : Linked L a l b) : L.prev b = some (lastNode a l) := by
  induction l generalizing a with
  | nil => exact h.2
  | cons y l ih => exact ih h.2.2

theorem Linked.congr (h : Linked L a l b)
    (hn : ∀ n ∈ a :: l.map Node.elem, L'.next n = L.next n)
    (hp : ∀ n ∈ b :: l.map Node.elem, L'.prev n = L.prev n) : Linked L' a l b := by
  induction l generalizing a with
  | nil =>
    exact ⟨(hn a (List.mem_cons_self ..)).trans h.1, (hp b (List.mem_cons_self ..)).trans h.2⟩
  | cons y l ih =>
    refine ⟨(hn a (List.mem_cons_self ..)).trans h.1,
      (hp _ (List.mem_cons_of_mem _ (List.mem_cons_self ..))).trans h.2.1, ih h.2.2 ?_ ?_⟩
    · exact fun n hmem => hn n (List.mem_cons_of_mem _ hmem)
    · grind

theorem linked_append : Linked L a (l ++ e :: m) b ↔ Linked L a l (.elem e) ∧ Linked L (.elem e) m b := by
  induction l generalizing a with
  | nil =>
    constructor
    · exact fun h => ⟨⟨h.1, h.2.1⟩, h.2.2⟩
    · exact fun h => ⟨h.1.1, h.1.2, h.2⟩
  | cons y l ih =>
    constructor
    · intro h
      obtain ⟨h₁, h₂⟩ := ih.mp h.2.2
      exact ⟨⟨h.1, h.2.1, h₁⟩, h₂⟩
    · exact fun h => ⟨h.1.1, h.1.2.1, ih.mpr ⟨h.1.2.2, h.2⟩⟩

theorem linked_iff : Linked L a l b ↔
    ∀ x y, l = x ++ y → Joined L (lastNode a x) (firstNode y b) := by
  induction l generalizing a with
  | nil =>
    constructor
    · intro h x y hxy
      obtain ⟨rfl, rfl⟩ := List.append_eq_nil_iff.mp hxy.symm
      exact h
    · exact fun h => h [] [] rfl
  | cons e l ih =>
    constructor
    · intro h x y hxy
      cases x with
      | nil => obtain rfl := hxy; exact ⟨h.1, h.2.1⟩
      | cons z x =>
        rw [List.cons_append, List.cons.injEq] at hxy
        obtain ⟨rfl, rfl⟩ := hxy
        exact ih.mp h.2.2 x y rfl
    · intro h
      exact ⟨(h [] _ rfl).1, (h [] _ rfl).2, ih.mpr fun x y hxy => h (e :: x) y (by rw [hxy]; rfl)⟩

theorem Linked.unique {i : ι} (h : Linked L a l (.tail i)) (h' : Linked L a m (.tail i)) : l = m := by
  induction l generalizing a m with
  | nil =>
    cases m with
    | nil => rfl
    | cons y m =>
      have hnext := h.1.symm.trans h'.1
      cases hnext
  | cons y l ih =>
    cases m with
    | nil =>
      have hnext := h.1.symm.trans h'.1
      cases hnext
    | cons z m =>
      have hnext := h.1.symm.trans h'.1
      rw [Option.some.injEq, Node.elem.injEq] at hnext
      subst hnext
      rw [ih h.2.2 h'.2.2]

end Linked

/-- The links hold the list `l` between the ends of `i`. -/
structure IsList (L : Links ι ε) (i : ι) (l : List ε) : Prop where
  head : L.prev (.head i) = none
  tail : L.next (.tail i) = none
  linked : Linked L (.head i) l (.tail i)
  nodup : l.Nodup

def onList (i : ι) (l : List ε) : Node ι ε → Prop
  | .head j => j = i
  | .tail j => j = i
  | .elem e => e ∈ l

section IsList
variable {L L' : Links ι ε} {i : ι} {l m c S y w : List ε} {e : ε} {u v p x : Node ι ε}

theorem onList_of_head (h : n ∈ Node.head i :: l.map Node.elem) : onList i l n := by
  rcases List.mem_cons.mp h with rfl | h
  · exact rfl
  · obtain ⟨y, hy, rfl⟩ := List.mem_map.mp h
    exact hy

theorem onList_of_tail (h : n ∈ Node.tail i :: l.map Node.elem) : onList i l n := by
  rcases List.mem_cons.mp h with rfl | h
  · exact rfl
  · obtain ⟨y, hy, rfl⟩ := List.mem_map.mp h
    exact hy

theorem onList_mono (hs : ∀ x ∈ l, x ∈ m) (h : onList i l n) : onList i m n := by
  cases n with
  | head j => exact h
  | tail j => exact h
  | elem y => exact hs y h

theorem onList_lastNode (i : ι) (l : List ε) : onList i l (lastNode (.head i) l) :=
  onList_of_head (lastNode_mem _ l)

theorem onList_firstNode (i : ι) (l : List ε) : onList i l (firstNode l (.tail i)) :=
  onList_of_tail (firstNode_mem l _)

theorem head_ne_firstNode (m : List ε) : Node.head i ≠ firstNode m (.tail i) := by
  cases m <;> exact fun heq => by cases heq

theorem tail_ne_lastNode (l : List ε) : Node.tail i ≠ lastNode (.head i) l := by
  intro heq
  have hmem := lastNode_mem (Node.head i) l
  grind

theorem lastNode_inj {x : List ε} (hnd : (l ++ m).Nodup) (hxy : l ++ m = x ++ y)
    (h : lastNode (.head i) x = lastNode (.head i) l) : x = l := by
  obtain ⟨d, rfl, rfl⟩ | ⟨d, rfl, rfl⟩ := List.append_eq_append_iff.mp hxy
  all_goals
    obtain rfl | ⟨d, z, rfl⟩ := List.eq_nil_or_concat d
    · grind
    rw [List.concat_eq_append, ← List.append_assoc, lastNode_append] at h
  · have hmem := lastNode_mem (.head i) l
    grind
  · have hmem := lastNode_mem (.head i) x
    grind

theorem firstNode_inj {x : List ε} (hnd : (l ++ m).Nodup) (hxy : l ++ m = x ++ y)
    (h : firstNode y (.tail i) = firstNode m (.tail i)) : x = l := by
  obtain ⟨d, rfl, rfl⟩ | ⟨d, rfl, rfl⟩ := List.append_eq_append_iff.mp hxy
  · have hmem := firstNode_mem y (.tail i)
    cases d <;> grind [firstNode]
  · have hmem := firstNode_mem m (.tail i)
    cases d <;> grind [firstNode]

theorem IsList.unique (h : IsList L i l) (h' : IsList L i m) : l = m := h.linked.unique h'.linked

theorem IsList.congr (h : IsList L i l)
    (hs : ∀ n, onList i l n → L'.next n = L.next n ∧ L'.prev n = L.prev n) : IsList L' i l where
  head := (hs (.head i) rfl).2.trans h.head
  tail := (hs (.tail i) rfl).1.trans h.tail
  linked := h.linked.congr (fun n hn => (hs n (onList_of_head hn)).1)
    fun n hn => (hs n (onList_of_tail hn)).2
  nodup := h.nodup

/-- The links of all elements that are not among these are the same. -/
def SameLinks (S : List ε) (L L' : Links ι ε) : Prop :=
  ∀ e, e ∉ S → L'.next (.elem e) = L.next (.elem e) ∧ L'.prev (.elem e) = L.prev (.elem e)

theorem SameLinks.refl (S : List ε) (L : Links ι ε) : SameLinks S L L := fun _ _ => ⟨rfl, rfl⟩

theorem SameLinks.trans {L'' : Links ι ε} (h : SameLinks S L L') (h' : SameLinks S L' L'') :
    SameLinks S L L'' := fun e he =>
  ⟨(h' e he).1.trans (h e he).1, (h' e he).2.trans (h e he).2⟩

theorem SameLinks.mono {T : List ε} (h : SameLinks S L L') (hs : ∀ e ∈ S, e ∈ T) :
    SameLinks T L L' := fun e he => h e fun hmem => he (hs e hmem)

variable [DecidableEq ι] [DecidableEq ε]

/-- The links with `e` put between `p` and `x`. -/
def Links.insert (L : Links ι ε) (p x : Node ι ε) (e : ε) : Links ι ε where
  next := update (update L.next (.elem e) (some x)) p (some (.elem e))
  prev := update (update L.prev (.elem e) (some p)) x (some (.elem e))

/-- The same with several elements, which are joined already. -/
def Links.insertBlock (L : Links ι ε) (p x : Node ι ε) (c : List ε) : Links ι ε where
  next := update (update L.next (lastNode p c) (some x)) p (some (firstNode c x))
  prev := update (update L.prev (firstNode c x) (some p)) x (some (lastNode p c))

/-- The links with what is between `p` and `x` left out. -/
def Links.unlink (L : Links ι ε) (p x : Node ι ε) : Links ι ε where
  next := update L.next p (some x)
  prev := update L.prev x (some p)

/-- The links with anything in those of `e`. -/
def Links.put (L : Links ι ε) (e : ε) (x : Option (Node ι ε) × Option (Node ι ε)) :
    Links ι ε where
  next := update L.next (.elem e) x.2
  prev := update L.prev (.elem e) x.1

def Links.clear (L : Links ι ε) (i : ι) : Links ι ε where
  next := update (update L.next (.head i) (some (.tail i))) (.tail i) none
  prev := update (update L.prev (.head i) none) (.tail i) (some (.head i))

/-- What becomes of an element that is on no list does not matter. -/
theorem IsList.put (h : IsList L i l) (he : e ∉ l) (x : Option (Node ι ε) × Option (Node ι ε)) :
    IsList (L.put e x) i l := by
  refine h.congr fun n hn => ?_
  have hne : n ≠ .elem e := by
    rintro rfl
    exact he hn
  exact ⟨update_of_ne hne _ _, update_of_ne hne _ _⟩

theorem isList_clear (L : Links ι ε) (i : ι) : IsList (L.clear i) i [] where
  head := by simp [Links.clear]
  tail := by simp [Links.clear]
  linked := by simp [Links.clear, Linked]
  nodup := List.nodup_nil

theorem Joined.unlink (h : Joined L u v) (hu : u ≠ p) (hv : v ≠ x) : Joined (L.unlink p x) u v :=
  ⟨(update_of_ne hu ..).trans h.1, (update_of_ne hv ..).trans h.2⟩

theorem IsList.unlinkBlock (h : IsList L i (l ++ (c ++ m))) :
    IsList (L.unlink (lastNode (.head i) l) (firstNode m (.tail i))) i (l ++ m) := by
  have hway := linked_iff.mp h.linked
  have hnd : (l ++ m).Nodup := by grind [h.nodup, List.nodup_append']
  refine ⟨(update_of_ne (head_ne_firstNode m) ..).trans h.head,
    (update_of_ne (tail_ne_lastNode l) ..).trans h.tail, linked_iff.mpr fun x y hxy => ?_, hnd⟩
  by_cases hx : x = l
  · subst hx
    rw [List.append_cancel_left hxy]
    exact ⟨update_self .., update_self ..⟩
  refine Joined.unlink ?_ (fun heq => hx (lastNode_inj hnd hxy heq))
    fun heq => hx (firstNode_inj hnd hxy heq)
  obtain ⟨d, rfl, rfl⟩ | ⟨d, rfl, rfl⟩ := List.append_eq_append_iff.mp hxy
  · cases d with
    | nil => simp at hx
    | cons z d =>
      have hold := hway (l ++ c ++ z :: d) y (by simp)
      rwa [lastNode_append_cons] at hold ⊢
  · cases d with
    | nil => simp at hx
    | cons z d => exact hway x (z :: d ++ (c ++ m)) (by simp)

theorem Joined.insertBlock (h : Joined L u v) (hu : u ≠ p ∧ u ≠ lastNode p c)
    (hv : v ≠ x ∧ v ≠ firstNode c x) : Joined (L.insertBlock p x c) u v :=
  ⟨(update_of_ne hu.1 ..).trans ((update_of_ne hu.2 ..).trans h.1),
    (update_of_ne hv.1 ..).trans ((update_of_ne hv.2 ..).trans h.2)⟩

theorem IsList.insertBlock (h : IsList L i (l ++ m)) (hnd : (l ++ (c ++ m)).Nodup)
    (hc : ∀ x y z w, c = x ++ y :: z :: w → Joined L (.elem y) (.elem z)) :
    IsList (L.insertBlock (lastNode (.head i) l) (firstNode m (.tail i)) c) i (l ++ (c ++ m)) := by
  have hway := linked_iff.mp h.linked
  have hlast := fun {x y} => lastNode_inj (i := i) (x := x) (y := y) hnd
  have hfirst := fun {x y} => firstNode_inj (i := i) (x := x) (y := y) hnd
  rw [← List.append_assoc] at hnd
  have hlast' := fun {x y} => lastNode_inj (i := i) (x := x) (y := y) hnd
  have hfirst' := fun {x y} => firstNode_inj (i := i) (x := x) (y := y) hnd
  simp only [lastNode_append', firstNode_append, List.append_assoc] at hlast' hfirst
  refine ⟨?_, ?_, linked_iff.mpr fun x y hxy => ?_, by rwa [← List.append_assoc]⟩
  · refine (update_of_ne (head_ne_firstNode m) ..).trans ((update_of_ne ?_ ..).trans h.head)
    rw [← firstNode_append]
    exact head_ne_firstNode (c ++ m)
  · refine (update_of_ne (tail_ne_lastNode l) ..).trans ((update_of_ne ?_ ..).trans h.tail)
    rw [← lastNode_append']
    exact tail_ne_lastNode (l ++ c)
  by_cases hx : x = l
  · subst hx
    rw [← List.append_cancel_left hxy, firstNode_append]
    refine ⟨update_self .., ?_⟩
    cases c with
    | nil => exact update_self ..
    | cons z c =>
      refine (update_of_ne (fun heq => ?_) ..).trans (update_self ..)
      simpa using hfirst (x := x ++ z :: c) (y := m) (by simp) heq.symm
  by_cases hx' : x = l ++ c
  · subst hx'
    rw [← List.append_assoc] at hxy
    rw [← List.append_cancel_left hxy, lastNode_append']
    refine ⟨?_, update_self ..⟩
    cases c with
    | nil => exact update_self ..
    | cons z c =>
      refine (update_of_ne (fun heq => ?_) ..).trans (update_self ..)
      rw [← lastNode_append'] at heq
      simpa using hlast (y := m) (by simp) heq
  -- The two nodes are neither those before the new joints nor those behind them.
  have hlasts : lastNode (.head i) x ≠ lastNode (.head i) l ∧
      lastNode (.head i) x ≠ lastNode (lastNode (.head i) l) c :=
    ⟨fun heq => hx (hlast hxy heq), fun heq => hx' (hlast' hxy heq)⟩
  have hfirsts : firstNode y (.tail i) ≠ firstNode m (.tail i) ∧
      firstNode y (.tail i) ≠ firstNode c (firstNode m (.tail i)) :=
    ⟨fun heq => hx' (hfirst' (by rwa [List.append_assoc]) heq), fun heq => hx (hfirst hxy heq)⟩
  refine Joined.insertBlock ?_ hlasts hfirsts
  obtain ⟨d, rfl, hd⟩ | ⟨d, rfl, rfl⟩ := List.append_eq_append_iff.mp hxy
  · obtain ⟨f, rfl, rfl⟩ | ⟨f, rfl, rfl⟩ := List.append_eq_append_iff.mp hd
    · cases f with
      | nil => simp at hx'
      | cons z f =>
        have hold := hway (l ++ z :: f) y (by simp)
        rw [← List.append_assoc, lastNode_append_cons]
        rwa [lastNode_append_cons] at hold
    · cases f with
      | nil => simp at hx'
      | cons z f =>
        obtain rfl | ⟨d, w, rfl⟩ := List.eq_nil_or_concat d
        · simp at hx
        · rw [List.concat_eq_append, ← List.append_assoc, lastNode_append]
          exact hc d w z f (by simp)
  · cases d with
    | nil => simp at hx
    | cons z d => exact hway x (z :: d ++ m) (by simp)

omit [DecidableEq ι] [DecidableEq ε] in
theorem singleton_ne {z : List ε} {x y : ε} : [e] ≠ w ++ x :: y :: z := by
  intro heq
  have hlen := congrArg List.length heq
  simp at hlen
  omega

theorem IsList.insert (h : IsList L i (l ++ m)) (he : e ∉ l ++ m) :
    IsList (L.insert (lastNode (.head i) l) (firstNode m (.tail i)) e) i (l ++ e :: m) :=
  h.insertBlock (c := [e]) (List.nodup_middle.mpr (List.nodup_cons.mpr ⟨he, h.nodup⟩))
    fun _ _ _ _ heq => absurd heq singleton_ne

theorem IsList.unlink (h : IsList L i (l ++ e :: m)) :
    IsList (L.unlink (lastNode (.head i) l) (firstNode m (.tail i))) i (l ++ m) :=
  h.unlinkBlock (c := [e])

theorem IsList.joined_unlink (h : IsList L i (l ++ (c ++ m))) {x : List ε} {y z : ε}
    (hc : c = x ++ y :: z :: w) :
    Joined (L.unlink (lastNode (.head i) l) (firstNode m (.tail i))) (.elem y) (.elem z) := by
  subst hc
  have hold := linked_iff.mp h.linked (l ++ (x ++ [y])) (z :: w ++ m) (by simp)
  rw [← List.append_assoc, lastNode_append] at hold
  have hnd := h.nodup
  refine hold.unlink (fun heq => ?_) fun heq => ?_
  · have hmem := lastNode_mem (.head i) l
    grind
  · have hmem := firstNode_mem m (.tail i)
    grind [firstNode]

theorem sameLinks_insert (L : Links ι ε) (i : ι) (l m : List ε) (e : ε) :
    SameLinks (l ++ e :: m) L
      (L.insert (lastNode (.head i) l) (firstNode m (.tail i)) e) := by
  intro y hy
  rw [List.mem_append, List.mem_cons, not_or, not_or] at hy
  have h₁ : Node.elem y ≠ lastNode (.head i) l := fun heq =>
    hy.1 (show onList i l (.elem y) from heq ▸ onList_lastNode i l)
  have h₂ : Node.elem y ≠ firstNode m (.tail i) := fun heq =>
    hy.2.2 (show onList i m (.elem y) from heq ▸ onList_firstNode i m)
  have h₃ : (Node.elem y : Node ι ε) ≠ .elem e := fun heq => hy.2.1 (Node.elem.inj heq)
  simp only [Links.insert, update_of_ne h₁, update_of_ne h₂,
    update_of_ne h₃, and_self]

theorem sameLinks_unlink (L : Links ι ε) (i : ι) (l m : List ε) :
    SameLinks (l ++ m) L (L.unlink (lastNode (.head i) l) (firstNode m (.tail i))) := by
  intro y hy
  rw [List.mem_append, not_or] at hy
  have h₁ : Node.elem y ≠ lastNode (.head i) l := fun heq =>
    hy.1 (show onList i l (.elem y) from heq ▸ onList_lastNode i l)
  have h₂ : Node.elem y ≠ firstNode m (.tail i) := fun heq =>
    hy.2 (show onList i m (.elem y) from heq ▸ onList_firstNode i m)
  simp only [Links.unlink, update_of_ne h₁, update_of_ne h₂, and_self]

end IsList

/-! Several lists. -/

/-- The links hold the lists `q`, and no element is on two of them. -/
structure Lists (L : Links ι ε) (q : ι → Option (List ε)) : Prop where
  list : ∀ {i l}, q i = some l → IsList L i l
  apart : ∀ {i j l m e}, q i = some l → q j = some m → e ∈ l → e ∈ m → i = j

/-- An element that is on no list. -/
def Loose (q : ι → Option (List ε)) (e : ε) : Prop := ∀ i l, q i = some l → e ∉ l

section Lists
variable {L L' : Links ι ε} {q : ι → Option (List ε)} {i : ι} {l m c : List ε} {e : ε}

theorem Lists.congr (h : Lists L q) (hs : ∀ i l n, q i = some l → onList i l n →
    L'.next n = L.next n ∧ L'.prev n = L.prev n) : Lists L' q :=
  ⟨fun hi => (h.list hi).congr fun n hn => hs _ _ n hi hn, h.apart⟩

theorem Lists.off (h : Lists L q) (hi : q i = some l) {j : ι} (hj : q j = some m) (hne : j ≠ i)
    (hn : onList j m n) : ¬onList i l n := by
  intro hn'
  cases n with
  | head k => exact hne (hn.symm.trans hn')
  | tail k => exact hne (hn.symm.trans hn')
  | elem x => exact hne (h.apart hj hi hn hn')

variable [DecidableEq ι]

/-- One list changes; its elements were on it or on no list. -/
theorem Lists.set (h : Lists L q) (hnew : IsList L' i l)
    (hfree : ∀ x ∈ l, ∀ j m, j ≠ i → q j = some m → x ∉ m)
    (hs : ∀ j m n, j ≠ i → q j = some m → onList j m n →
      L'.next n = L.next n ∧ L'.prev n = L.prev n) :
    Lists L' (update q i (some l)) := by
  have hcases : ∀ {j m}, update q i (some l) j = some m →
      (j = i ∧ m = l) ∨ (j ≠ i ∧ q j = some m) := by grind
  constructor
  · intro j m hj
    obtain ⟨rfl, rfl⟩ | ⟨hne, hj⟩ := hcases hj
    · exact hnew
    · exact (h.list hj).congr fun n hn => hs j m n hne hj hn
  · grind [h.apart]

theorem Lists.drop (h : Lists L q) (i : ι) : Lists L (update q i none) := by
  have hold : ∀ {j m}, update q i none j = some m → q j = some m := by grind
  exact ⟨fun hj => h.list (hold hj), fun hj hk => h.apart (hold hj) (hold hk)⟩

theorem Lists.loose_unlinkBlock (h : Lists L q) (hi : q i = some (l ++ (c ++ m))) (he : e ∈ c) :
    Loose (update q i (some (l ++ m))) e := by
  intro j k hj hk
  by_cases hji : j = i
  · have hnd := (h.list hi).nodup
    grind
  · grind [h.apart]

theorem Lists.loose_unlink (h : Lists L q) (hi : q i = some (l ++ e :: m)) :
    Loose (update q i (some (l ++ m))) e :=
  h.loose_unlinkBlock (c := [e]) hi (List.mem_singleton_self e)

variable [DecidableEq ε]

theorem Lists.clear (h : Lists L q) (i : ι) :
    Lists (L.clear i) (update q i (some [])) := by
  refine h.set (isList_clear L i) (fun x hx => absurd hx List.not_mem_nil) fun j m n hne hj hn => ?_
  have hh : n ≠ .head i := by
    rintro rfl
    exact hne hn.symm
  have ht : n ≠ .tail i := by
    rintro rfl
    exact hne hn.symm
  simp only [Links.clear, update_of_ne hh, update_of_ne ht, and_self]

theorem Lists.insertBlock (h : Lists L q) (hi : q i = some (l ++ m)) (hnd : c.Nodup)
    (hl : ∀ e ∈ c, Loose q e)
    (hc : ∀ x y z w, c = x ++ y :: z :: w → Joined L (.elem y) (.elem z)) :
    Lists (L.insertBlock (lastNode (.head i) l) (firstNode m (.tail i)) c)
      (update q i (some (l ++ (c ++ m)))) := by
  have hnd' : (l ++ (c ++ m)).Nodup := by grind [(h.list hi).nodup, Loose]
  have hp := onList_lastNode i l
  have hx := onList_firstNode i m
  have hf := onList_firstNode i (c ++ m)
  have hg := onList_lastNode i (l ++ c)
  rw [firstNode_append] at hf
  rw [lastNode_append'] at hg
  refine h.set ((h.list hi).insertBlock hnd' hc) (fun x hmem j k hne hj hk => ?_)
    fun j k n hne hj hn => ?_
  · grind [h.apart, Loose]
  · -- the nodes whose links change are on the new list
    have hoff : ∀ {n'}, onList i (l ++ (c ++ m)) n' → n ≠ n' := by
      rintro n' hn' rfl
      cases n with
      | head => exact hne (hn.symm.trans hn')
      | tail => exact hne (hn.symm.trans hn')
      | elem e =>
        have he : e ∈ l ++ (c ++ m) := hn'
        have hc : e ∉ c := fun hec => hl e hec j k hj hn
        have hlm : e ∉ l ++ m := fun hmem => hne (h.apart hj hi hn hmem)
        grind
    have h₁ := hoff (onList_mono (by grind) hp)
    have h₂ := hoff (onList_mono (by grind) hg)
    have h₃ := hoff (onList_mono (by grind) hx)
    have h₄ := hoff (onList_mono (by grind) hf)
    simp only [Links.insertBlock, update_of_ne h₁, update_of_ne h₂, update_of_ne h₃,
      update_of_ne h₄, and_self]

theorem Lists.insert (h : Lists L q) (hi : q i = some (l ++ m)) (he : Loose q e) :
    Lists (L.insert (lastNode (.head i) l) (firstNode m (.tail i)) e)
      (update q i (some (l ++ e :: m))) :=
  h.insertBlock (c := [e]) hi (List.nodup_singleton e) (by simpa using he)
    fun _ _ _ _ heq => absurd heq singleton_ne

omit [DecidableEq ι] [DecidableEq ε] in
/-- No list is there yet. -/
theorem lists_none (L : Links ι ε) : Lists L fun _ => none := ⟨nofun, nofun⟩

/-- Links for one more list. -/
theorem Lists.exists_add (h : Lists L q) (i : ι) : ∀ {c : List ε}, c.Nodup →
    (∀ e ∈ c, Loose q e) → ∃ L', Lists L' (update q i (some c))
  | [], _, _ => ⟨_, h.clear i⟩
  | e :: c, hnd, hl => by
    obtain ⟨hec, hc⟩ := List.nodup_cons.mp hnd
    obtain ⟨L', h'⟩ := h.exists_add i hc fun x hx => hl x (List.mem_cons_of_mem e hx)
    have he : Loose (update q i (some c)) e := by
      intro j l hj
      rcases eq_or_ne j i with rfl | hne
      · rw [update_self] at hj
        exact Option.some.inj hj ▸ hec
      · rw [update_of_ne hne] at hj
        exact hl e List.mem_cons_self j l hj
    have hins := h'.insert (l := []) (m := c) (update_self ..) he
    rw [update_idem] at hins
    exact ⟨_, hins⟩

theorem Lists.put (h : Lists L q) (he : Loose q e) (x : Option (Node ι ε) × Option (Node ι ε)) :
    Lists (L.put e x) q where
  list := fun hi => (h.list hi).put (he _ _ hi) x
  apart := h.apart

theorem Lists.unlinkBlock (h : Lists L q) (hi : q i = some (l ++ (c ++ m))) :
    Lists (L.unlink (lastNode (.head i) l) (firstNode m (.tail i)))
      (update q i (some (l ++ m))) := by
  refine h.set (h.list hi).unlinkBlock (fun x hmem j k hne hj hk => ?_) fun j k n hne hj hn => ?_
  · grind [h.apart]
  · have hoff := h.off hi hj hne hn
    have hne₁ : n ≠ lastNode (.head i) l := fun heq =>
      hoff (heq ▸ onList_mono (by grind) (onList_lastNode i l))
    have hne₂ : n ≠ firstNode m (.tail i) := fun heq =>
      hoff (heq ▸ onList_mono (by grind) (onList_firstNode i m))
    simp only [Links.unlink, update_of_ne hne₁, update_of_ne hne₂, and_self]

theorem Lists.unlink (h : Lists L q) (hi : q i = some (l ++ e :: m)) :
    Lists (L.unlink (lastNode (.head i) l) (firstNode m (.tail i)))
      (update q i (some (l ++ m))) :=
  h.unlinkBlock (c := [e]) hi

end Lists

end Lib
