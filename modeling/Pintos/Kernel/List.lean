import Pintos.Lib.Cmd
import Pintos.Lib.Links

/- Doubly linked lists, `lib/kernel/list.c`.

   A list is named by what it is embedded in, an element by what embeds it. The
   functions are commands on all the links there are, and have no outcome where an
   `ASSERT` fails or a null pointer is followed. What they do to lists that are in order
   is said with `Lib.Lists`.

   Correspondence (C ↔ Lean):
     `&list->head`, `&list->tail`, an element   ↔ the constructors of `Node`
     `list_init`, `list_begin`, `list_next`     ↔ `listInit`, `listBegin`, `listNext`
     `list_insert`, `list_remove`               ↔ `listInsert`, `listRemove`
     `list_push_front`, `list_push_back`,
       `list_pop_front`, `list_front`,
       `list_back`                              ↔ `listPushFront`, …, `listBack`
     `list_empty`, `list_size`                  ↔ `listEmpty`, `listSize`
     `list_entry`                               ↔ `listEntry` -/
namespace Pintos.Kernel

open Lib Function

variable {ι ε : Type} {Q : Node ι ε → Links ι ε → Prop}

abbrev ListM (ι ε : Type) := Cmd (Links ι ε)

def isHead (L : Links ι ε) (n : Node ι ε) : Bool := (L.prev n).isNone && (L.next n).isSome

def isInterior (L : Links ι ε) (n : Node ι ε) : Bool := (L.prev n).isSome && (L.next n).isSome

def isTail (L : Links ι ε) (n : Node ι ε) : Bool := (L.prev n).isSome && (L.next n).isNone

/-- The structure an element is embedded in; the ends of a list are in none. -/
def listEntry : Node ι ε → ListM ι ε ε
  | .elem e => pure e
  | _ => fun _ => none

def listBegin (i : ι) : ListM ι ε (Node ι ε) := do follow ((← get).next (.head i))

def listNext (n : Node ι ε) : ListM ι ε (Node ι ε) := do
  assert (isHead (← get) n || isInterior (← get) n)
  follow ((← get).next n)

section
variable {L : Links ι ε} {i : ι} {l m : List ε} {e : ε}

theorem wp_listBegin (h : IsList L i l) (hq : Q (firstNode l (.tail i)) L) :
    wp (listBegin i) Q L := by
  simp only [listBegin, wp_bind, wp_get, wp_follow]
  exact ⟨_, h.linked.next_eq, hq⟩

theorem wp_listNext (h : IsList L i (l ++ e :: m)) (hq : Q (firstNode m (.tail i)) L) :
    wp (listNext (.elem e)) Q L := by
  obtain ⟨hl, hm⟩ := linked_append.mp h.linked
  simp only [listNext, wp_bind, wp_get, wp_follow, wp_assert]
  refine ⟨?_, _, hm.next_eq, hq⟩
  simp [isInterior, hl.prev_eq, hm.next_eq]

theorem wp_listNext_lastNode (h : IsList L i (l ++ m)) (hq : Q (firstNode m (.tail i)) L) :
    wp (listNext (lastNode (.head i) l)) Q L := by
  obtain rfl | ⟨l, e, rfl⟩ := List.eq_nil_or_concat l
  · simp only [lastNode, listNext, wp_bind, wp_get, wp_follow, wp_assert]
    refine ⟨?_, _, h.linked.next_eq, hq⟩
    simp [isHead, h.head, h.linked.next_eq]
  · grind [lastNode_append, wp_listNext]

end

section
variable [DecidableEq ι] [DecidableEq ε]

def setPrev (n : Node ι ε) (p : Option (Node ι ε)) : ListM ι ε Unit :=
  modify fun L => { L with prev := update L.prev n p }

def setNext (n : Node ι ε) (p : Option (Node ι ε)) : ListM ι ε Unit :=
  modify fun L => { L with next := update L.next n p }

def listInit (i : ι) : ListM ι ε Unit := do
  setPrev (.head i) none
  setNext (.head i) (some (.tail i))
  setPrev (.tail i) (some (.head i))
  setNext (.tail i) none

def listInsert (before elem : Node ι ε) : ListM ι ε Unit := do
  assert (isInterior (← get) before || isTail (← get) before)
  setPrev elem ((← get).prev before)
  setNext elem (some before)
  let p ← follow ((← get).prev before)
  setNext p (some elem)
  setPrev before (some elem)

def listPushFront (i : ι) (e : ε) : ListM ι ε Unit := do
  listInsert (← listBegin i) (.elem e)

def listPushBack (i : ι) (e : ε) : ListM ι ε Unit := listInsert (.tail i) (.elem e)

/-- `list_remove`, which returns the element after the one that goes. -/
def listRemove (elem : Node ι ε) : ListM ι ε (Node ι ε) := do
  assert (isInterior (← get) elem)
  let p ← follow ((← get).prev elem)
  setNext p ((← get).next elem)
  let n ← follow ((← get).next elem)
  setPrev n ((← get).prev elem)
  follow ((← get).next elem)

def listSizeFrom (i : ι) : (fuel : Nat) → Node ι ε → ListM ι ε Nat
  | 0, _ => follow none
  | fuel + 1, n =>
    if n = .tail i then return 0
    else do return (← listSizeFrom i fuel (← listNext n)) + 1

def listSize (fuel : Nat) (i : ι) : ListM ι ε Nat := do listSizeFrom i fuel (← listBegin i)

def listEmpty (L : Links ι ε) (i : ι) : Bool := L.next (.head i) = some (.tail i)

def listFront (i : ι) : ListM ι ε (Node ι ε) := do
  assert (!listEmpty (← get) i)
  follow ((← get).next (.head i))

def listBack (i : ι) : ListM ι ε (Node ι ε) := do
  assert (!listEmpty (← get) i)
  follow ((← get).prev (.tail i))

def listPopFront (i : ι) : ListM ι ε (Node ι ε) := do
  let front ← listFront i
  let _ ← listRemove front
  return front

/-! Lists that are in order. -/

variable {L : Links ι ε} {q : ι → Option (List ε)} {i : ι} {l m : List ε} {e : ε}

theorem listEmpty_eq (h : IsList L i l) : listEmpty L i = decide (l = []) := by
  rw [listEmpty, h.linked.next_eq]
  cases l with
  | nil => simp [firstNode]
  | cons y l => simp [firstNode]

theorem wp_listBack (h : IsList L i (l ++ [e])) (hq : Q (.elem e) L) : wp (listBack i) Q L := by
  simp only [listBack, wp_bind, wp_get, wp_assert, wp_follow, h.linked.prev_eq, lastNode_append]
  exact ⟨by simp [listEmpty_eq h], _, rfl, hq⟩

theorem wp_listInit {Q : Unit → Links ι ε → Prop} (hq : Q () (L.clear i)) :
    wp (listInit i) Q L := by
  simp only [listInit, setPrev, setNext, wp_bind, wp_modify]
  exact hq

/-- An element that is on no list is put before the one at some place. -/
theorem wp_listInsert (h : IsList L i (l ++ m)) (he : e ∉ l ++ m) {Q : Unit → Links ι ε → Prop}
    (hq : Q () (L.insert (lastNode (.head i) l) (firstNode m (.tail i)) e)) :
    wp (listInsert (firstNode m (.tail i)) (.elem e)) Q L := by
  rw [List.mem_append, not_or] at he
  have hx : firstNode m (.tail i) ≠ .elem e := fun heq =>
    he.2 (show onList i m (.elem e) from heq ▸ onList_firstNode i m)
  have hprev : L.prev (firstNode m (.tail i)) = some (lastNode (.head i) l) := by
    cases m with
    | nil =>
      rw [List.append_nil] at h
      exact h.linked.prev_eq
    | cons y m => exact (linked_append.mp h.linked).1.prev_eq
  simp only [listInsert, setPrev, setNext, wp_bind, wp_get, wp_assert, wp_modify, wp_follow]
  refine ⟨?_, lastNode (.head i) l, by rw [update_of_ne hx, hprev], ?_⟩
  · simp only [isInterior, isTail, hprev]
    cases L.next (firstNode m (.tail i)) <;> rfl
  · rw [hprev]
    exact hq

omit [DecidableEq ι] [DecidableEq ε] in
theorem ne_neighbours (h : IsList L i (l ++ e :: m)) :
    Node.elem e ≠ lastNode (.head i) l ∧ Node.elem e ≠ firstNode m (.tail i) := by
  obtain ⟨-, hnm, hdis⟩ := List.nodup_append'.mp h.nodup
  refine ⟨fun heq => ?_, fun heq => ?_⟩
  · exact hdis (show onList i l (.elem e) from heq ▸ onList_lastNode i l) (List.mem_cons_self ..)
  · exact (List.nodup_cons.mp hnm).1 (show onList i m (.elem e) from heq ▸ onList_firstNode i m)

section
variable (h : IsList L i (l ++ e :: m))
  (hq : Q (firstNode m (.tail i)) (L.unlink (lastNode (.head i) l) (firstNode m (.tail i))))
include h hq

theorem wp_listRemove : wp (listRemove (.elem e)) Q L := by
  obtain ⟨hl, hm⟩ := linked_append.mp h.linked
  obtain ⟨hpe, hxe⟩ := ne_neighbours h
  simp only [listRemove, setPrev, setNext, wp_bind, wp_get, wp_assert, wp_modify, wp_follow]
  refine ⟨by simp [isInterior, hl.prev_eq, hm.next_eq], lastNode (.head i) l, hl.prev_eq,
    firstNode m (.tail i), by rw [update_of_ne hpe, hm.next_eq],
    firstNode m (.tail i), by rw [update_of_ne hpe, hm.next_eq], ?_⟩
  rw [hl.prev_eq, hm.next_eq]
  exact hq

end

/-! What the functions do to all lists. -/

theorem listInit_spec (h : Lists L q) (i : ι) :
    wp (listInit i) (fun _ L' => Lists L' (update q i (some []))) L :=
  wp_listInit (h.clear i)

theorem listPushFront_spec (h : Lists L q) (hi : q i = some l) (he : Loose q e) :
    wp (listPushFront i e) (fun _ L' => Lists L' (update q i (some (e :: l)))) L := by
  rw [listPushFront, wp_bind]
  exact wp_listBegin (h.list hi) (wp_listInsert (l := []) (h.list hi) (he i l hi)
    (h.insert (l := []) hi he))

theorem listPushBack_spec (h : Lists L q) (hi : q i = some l) (he : Loose q e) :
    wp (listPushBack i e) (fun _ L' => Lists L' (update q i (some (l ++ [e])))) L := by
  have hi' : q i = some (l ++ []) := by rw [List.append_nil]; exact hi
  exact wp_listInsert (m := []) (h.list hi') (he i _ hi') (h.insert hi' he)

theorem listRemove_spec (h : Lists L q) (hi : q i = some l) (he : e ∈ l) :
    wp (listRemove (.elem e)) (fun _ L' => Lists L' (update q i (some (l.erase e)))) L := by
  obtain ⟨l₁, l₂, rfl⟩ := List.append_of_mem he
  have hnot : e ∉ l₁ := fun hmem =>
    (List.nodup_append'.mp (h.list hi).nodup).2.2 hmem (List.mem_cons_self ..)
  rw [List.erase_append_right _ hnot, List.erase_cons_head]
  exact wp_listRemove (h.list hi) (h.unlink hi)

theorem listPopFront_spec (h : Lists L q) (hi : q i = some (e :: l)) :
    wp (listPopFront i) (fun n L' => n = .elem e ∧ Lists L' (update q i (some l))) L := by
  have hlist := h.list hi
  simp only [listPopFront, listFront, wp_bind, wp_get, wp_assert, wp_follow]
  refine ⟨by simp [listEmpty_eq hlist], _, hlist.linked.next_eq, ?_⟩
  refine wp_listRemove (l := []) hlist (wp_pure.mpr ⟨rfl, h.unlink (l := []) hi⟩)

/-! Links that stay as they are. -/

theorem listPushFront_same (h : IsList L i l) (he : e ∉ l) :
    wp (listPushFront i e) (fun _ L' => SameLinks (e :: l) L L') L := by
  rw [listPushFront, wp_bind]
  exact wp_listBegin h (wp_listInsert (l := []) h he (sameLinks_insert L i [] l e))

theorem listPushBack_same (h : IsList L i l) (he : e ∉ l) :
    wp (listPushBack i e) (fun _ L' => SameLinks (l ++ [e]) L L') L := by
  have h' : IsList L i (l ++ []) := by rwa [List.append_nil]
  exact wp_listInsert (m := []) h' (by rwa [List.append_nil]) (sameLinks_insert L i l [] e)

theorem listRemove_same (h : IsList L i l) (he : e ∈ l) :
    wp (listRemove (.elem e)) (fun _ L' => SameLinks l L L') L := by
  obtain ⟨l₁, l₂, rfl⟩ := List.append_of_mem he
  refine wp_listRemove h ((sameLinks_unlink L i l₁ l₂).mono fun y hy => ?_)
  rw [List.mem_append] at hy ⊢
  exact hy.imp_right (List.mem_cons_of_mem _)

theorem listPopFront_same (h : IsList L i (e :: l)) :
    wp (listPopFront i) (fun _ L' => SameLinks (e :: l) L L') L := by
  simp only [listPopFront, listFront, wp_bind, wp_get, wp_assert, wp_follow]
  refine ⟨by simp [listEmpty_eq h], _, h.linked.next_eq, ?_⟩
  refine wp_listRemove (l := []) h (wp_pure.mpr ?_)
  exact (sameLinks_unlink L i [] l).mono fun y => List.mem_cons_of_mem _

end

end Pintos.Kernel
