import Pintos.Kernel.List
import Pintos.Lib.Run

/- The lists of children, in `threads/thread.c`.

   A thread is named by its page, which has its `child_list` and, for the list of the thread
   that created it, its `child_list_elem`. Nothing takes an element off such a list, also not
   `process_wait`, and the page goes back to `palloc` when the thread has exited. Pages that
   hold no thread belong to others, who write to them what they like (`write`; `palloc_free_page`
   is the first to do so).

   Correspondence (C ↔ Lean):
     `t->child_list`, `t->child_list_elem`           ↔ the list and the element `t` of `links`
     `init_thread`, as far as the list goes          ↔ `initThread`
     `thread_create` up to its `list_push_back`      ↔ `threadCreate`
     `thread_exit` up to `schedule_tail`             ↔ `threadExit`
   The running thread is an argument. The initial thread has the page 0 here; its memory is
   not from `palloc` and is never used again. -/
namespace Pintos.Threads.Children

open Lib Kernel Function

/-- `creator` is who made a thread, as long as that one lives. -/
structure Family where
  links : Links Nat Nat
  live : Nat → Bool
  creator : Nat → Option Nat

abbrev FamilyM := Cmd Family

def onChildList {α : Type} (m : ListM Nat Nat α) : FamilyM α :=
  zoom Family.links (fun L s => { s with links := L }) m

def pageOf : Node Nat Nat → Nat
  | .head t | .tail t | .elem t => t

def clearPage (L : Links Nat Nat) (t : Nat) : Links Nat Nat where
  next := fun n => if pageOf n = t then none else L.next n
  prev := fun n => if pageOf n = t then none else L.prev n

def initThread (t : Nat) : FamilyM Unit := do
  onChildList (modify fun L => clearPage L t)
  onChildList (listInit t)

/-- `t` is the page that `palloc_get_page` has returned. -/
def threadCreate (current t : Nat) : FamilyM Unit := do
  initThread t
  modify fun s => { s with
    live := update s.live t true
    creator := update s.creator t (some current) }
  onChildList (listPushBack current t)

def Family.exit (s : Family) (t : Nat) : Family where
  links := s.links
  live := update s.live t false
  creator := fun c => if s.creator c = some t then none else s.creator c

def threadExit (t : Nat) : FamilyM Unit := modify fun s => s.exit t

inductive FamilyEvent where
  | create (current : Nat) (page : Option Nat)
  | exit (t : Nat)
  | write (links : Links Nat Nat)

/-- Without a page `thread_create` fails. -/
def Family.step (s : Family) : FamilyEvent → Option Family
  | .create _ none => some s
  | .create current (some t) => (threadCreate current t s).map Prod.snd
  | .exit t => (threadExit t s).map Prod.snd
  | .write links => some { s with links := links }

/-- Threads create and exit; a page that is handed out holds no thread, and what is written is
    in no page of a thread. -/
def Legal (s : Family) : FamilyEvent → Prop
  | .create current page => s.live current = true ∧ ∀ t, page = some t → t ≠ 0 ∧ s.live t = false
  | .exit t => s.live t = true
  | .write links => ∀ n, s.live (pageOf n) = true → links.next n = s.links.next n ∧
    links.prev n = s.links.prev n

/-- `thread_init`: there is the initial thread only. -/
def Family.boot (links : Links Nat Nat) : Family where
  links := links.clear 0
  live := fun t => t = 0
  creator := fun _ => none

/-- The lists of children are in order and refer to threads that live, and so does what
    `list_push_back` writes to. -/
structure ChildrenOk (s : Family) : Prop where
  list : ∀ t, s.live t = true → ∃ l, IsList s.links t l ∧ ∀ c ∈ l, s.live c = true
  back : ∀ t, s.live t = true → ∃ n, s.links.prev (.tail t) = some n ∧ s.live (pageOf n) = true

/-! A thread that exits before the one that created it. -/

def emptyLinks : Links Nat Nat := ⟨fun _ => none, fun _ => none⟩

theorem ChildrenOk.first {s : Family} (h : ChildrenOk s) {t c : Nat} (ht : s.live t = true)
    (hn : s.links.next (.head t) = some (.elem c)) : s.live c = true := by
  obtain ⟨l, hl, hall⟩ := h.list t ht
  have hfirst := hl.linked.next_eq
  rw [hn] at hfirst
  cases l with
  | nil => cases hfirst
  | cons x l =>
    cases hfirst
    exact hall _ (List.mem_cons_self ..)

def legalB (s : Family) : FamilyEvent → Bool
  | .create current page => s.live current && page.all fun t => t ≠ 0 && !s.live t
  | .exit t => s.live t
  | .write _ => false

theorem legal_of_legalB {s : Family} {e : FamilyEvent} (he : legalB s e = true) : Legal s e := by
  cases e with
  | create current page =>
    simp only [legalB, Bool.and_eq_true] at he
    refine ⟨he.1, ?_⟩
    rintro t rfl
    simpa using he.2
  | exit t => exact he
  | write links => cases he

/-- The thread in page 1 has exited. Its element is still on the list of the initial thread,
    and when the page is used for the next child, the element is linked to itself. -/
theorem child_outlived : ∃ s s', Reach Family.step Legal (Family.boot emptyLinks) s ∧
    ¬ChildrenOk s ∧ Legal s (.create 0 (some 1)) ∧
    s.step (.create 0 (some 1)) = some s' ∧ s'.links.next (.elem 1) = some (.elem 1) := by
  obtain ⟨s, hs, hq⟩ := exists_reach Family.step (C := Legal) (Family.boot emptyLinks)
    [.create 0 (some 1), .exit 1]
    (fun s => s.live 0 && !s.live 1 && s.links.next (.head 0) = some (.elem 1) &&
      legalB s (.create 0 (some 1)) && (s.step (.create 0 (some 1))).any fun s' =>
        s'.links.next (.elem 1) = some (.elem 1))
    (fun _ _ => legal_of_legalB) (by decide +kernel) (by decide +kernel)
  simp only [Bool.and_eq_true, Bool.not_eq_true', decide_eq_true_eq] at hq
  obtain ⟨⟨⟨⟨h0, h1⟩, hfirst⟩, hlegal⟩, hagain⟩ := hq
  obtain ⟨s', hs', hself⟩ := (Option.any_eq_true _ _).mp hagain
  refine ⟨s, s', hs, fun hok => ?_, legal_of_legalB hlegal, hs', of_decide_eq_true hself⟩
  have := hok.first h0 hfirst
  rw [h1] at this
  cases this

/-! Threads that exit after the one that created them. -/

def AfterCreator (s : Family) : FamilyEvent → Prop
  | .exit t => s.creator t = none
  | _ => True

instance (s : Family) : ∀ e, Decidable (AfterCreator s e)
  | .exit t => inferInstanceAs (Decidable (s.creator t = none))
  | .create .. => isTrue trivial
  | .write _ => isTrue trivial

structure FamilyInv (s : Family) (q : Nat → Option (List Nat)) : Prop where
  lists : Lists s.links q
  live : ∀ {t}, s.live t = true ↔ ∃ l, q t = some l
  child : ∀ {t l c}, q t = some l → (c ∈ l ↔ s.live c = true ∧ s.creator c = some t)
  creator : ∀ {c t}, s.creator c = some t → s.live t = true ∧ t ≠ c

section
variable {s s' : Family} {q : Nat → Option (List Nat)} {t current : Nat}

theorem wp_onChildList {α : Type} {m : ListM Nat Nat α} {Q : α → Family → Prop} :
    wp (onChildList m) Q s ↔ wp m (fun r L => Q r { s with links := L }) s.links :=
  wp_zoom

section
variable (h : FamilyInv s q)
include h

theorem FamilyInv.page {l : List Nat} {n : Node Nat Nat} (hl : q t = some l) (hn : onList t l n) :
    s.live (pageOf n) = true := by
  cases n with
  | head i =>
    cases hn
    exact h.live.mpr ⟨l, hl⟩
  | tail i =>
    cases hn
    exact h.live.mpr ⟨l, hl⟩
  | elem c => exact ((h.child hl).mp hn).1

theorem FamilyInv.write {links : Links Nat Nat} (hw : Legal s (.write links)) :
    FamilyInv { s with links := links } q :=
  ⟨h.lists.congr fun _ _ n hl hn => hw n (h.page hl hn), h.live, h.child, h.creator⟩

theorem FamilyInv.exit (ht : s.creator t = none) : FamilyInv (s.exit t) (update q t none) := by
  have hq : ∀ {p l}, update q t none p = some l ↔ p ≠ t ∧ q p = some l := by grind
  have hlive : ∀ {p}, (s.exit t).live p = true ↔ p ≠ t ∧ s.live p = true := by
    intro p
    rcases eq_or_ne p t with rfl | hne
    · simp [Family.exit]
    · simp [Family.exit, hne]
  have hcreator : ∀ {c p}, (s.exit t).creator c = some p ↔ p ≠ t ∧ s.creator c = some p := by
    grind [Family.exit]
  refine ⟨h.lists.drop t, fun {p} => ?_, fun {p l c} hl => ?_, fun {c p} hp => ?_⟩
  · rw [hlive, h.live]
    simp only [hq, exists_and_left]
  · grind [h.child]
  · grind [h.creator]

theorem threadCreate_spec (hc : s.live current = true) (ht : s.live t = false) :
    wp (threadCreate current t) (fun _ s' => ∃ q', FamilyInv s' q') s := by
  obtain ⟨l, hl⟩ := h.live.mp hc
  have hne : current ≠ t := by
    rintro rfl
    rw [ht] at hc
    cases hc
  have hdead : ∀ {p m n}, q p = some m → onList p m n → pageOf n ≠ t := by
    rintro p m n hp hn rfl
    rw [h.page hp hn] at ht
    cases ht
  have hclear : Lists (clearPage s.links t) q :=
    h.lists.congr fun p m n hp hn => ⟨if_neg (hdead hp hn), if_neg (hdead hp hn)⟩
  simp only [threadCreate, initThread, wp_bind]
  rw [wp_onChildList, wp_modify, wp_onChildList]
  refine wp_mono (listInit_spec hclear t) fun _ L hL => ?_
  rw [wp_modify, wp_onChildList]
  have hloose : Loose (update q t (some [])) t := by
    intro p m hp hm
    rcases eq_or_ne p t with rfl | hpt
    · rw [update_self] at hp
      cases hp
      cases hm
    · rw [update_of_ne hpt] at hp
      exact hdead (n := .elem t) hp hm rfl
  refine wp_mono (listPushBack_spec hL ((update_of_ne hne ..).trans hl) hloose)
    fun _ L' hL' => ⟨_, hL', fun {p} => ?_, fun {p m c} hp => ?_, fun {c p} hp => ?_⟩
  · grind [h.live]
  · have hold : ∀ {r k}, q r = some k → ((c ∈ k ∨ c = t ∧ r = current) ↔
        update s.live t true c = true ∧
          update s.creator t (some current) c = some r) := by grind [h.child]
    rcases eq_or_ne p current with rfl | hpc
    · grind
    · rw [update_of_ne hpc] at hp
      rcases eq_or_ne p t with rfl | hpt
      · grind [h.creator]
      · grind
  · dsimp only at hp ⊢
    rcases eq_or_ne c t with rfl | hct
    · grind
    · grind [h.creator]

theorem FamilyInv.step {e : FamilyEvent} (he : Legal s e) (ha : AfterCreator s e)
    (hs : s.step e = some s') : ∃ q', FamilyInv s' q' := by
  cases e with
  | create current page =>
    cases page with
    | none =>
      cases hs
      exact ⟨q, h⟩
    | some t =>
      obtain ⟨⟨_, _⟩, hx, rfl⟩ := Option.map_eq_some_iff.mp hs
      exact wp_elim (threadCreate_spec h he.1 (he.2 t rfl).2) hx
  | exit t =>
    cases hs
    exact ⟨_, h.exit ha⟩
  | write links =>
    cases hs
    exact ⟨q, h.write he⟩

theorem FamilyInv.ok : ChildrenOk s where
  list := fun t ht => by
    obtain ⟨l, hl⟩ := h.live.mp ht
    exact ⟨l, h.lists.list hl, fun c hc => ((h.child hl).mp hc).1⟩
  back := fun t ht => by
    obtain ⟨l, hl⟩ := h.live.mp ht
    exact ⟨_, (h.lists.list hl).linked.prev_eq, h.page hl (onList_lastNode t l)⟩

/-- It is wrong to exit before the thread that created one does. -/
theorem FamilyInv.exit_ok_iff (ht : s.live t = true) :
    ChildrenOk (s.exit t) ↔ s.creator t = none := by
  refine ⟨fun hok => ?_, fun hnone => (h.exit hnone).ok⟩
  by_contra hsome
  obtain ⟨p, hp⟩ := Option.ne_none_iff_exists'.mp hsome
  obtain ⟨hlive, hne⟩ := h.creator hp
  obtain ⟨l, hl⟩ := h.live.mp hlive
  obtain ⟨m, hm, hall⟩ := hok.list p ((update_of_ne hne ..).trans hlive)
  have hmem : t ∈ m := by
    rw [← (h.lists.list hl).unique hm]
    exact (h.child hl).mpr ⟨ht, hp⟩
  exact absurd ((update_self ..).symm.trans (hall t hmem)) Bool.false_ne_true

end

theorem boot_inv (links : Links Nat Nat) :
    FamilyInv (Family.boot links) (update (fun _ => none) 0 (some [])) := by
  refine ⟨(lists_none links).clear 0, fun {t} => ?_, fun {t l c} hl => ?_, fun hc => by cases hc⟩
  · rcases eq_or_ne t 0 with rfl | hne
    · simp [Family.boot]
    · simp [Family.boot, hne]
  · grind [Family.boot]

/-- **Lists of children refer only to live threads**, if threads exit only after the one that
    created them; any other exit breaks them. -/
theorem children_alive {links : Links Nat Nat} (hrun : Reach Family.step
      (fun s e => Legal s e ∧ AfterCreator s e) (Family.boot links) s) :
    ChildrenOk s ∧ ∀ t, s.live t = true → (ChildrenOk (s.exit t) ↔ s.creator t = none) := by
  obtain ⟨q, h⟩ := hrun.inv (I := fun s => ∃ q, FamilyInv s q) ⟨_, boot_inv links⟩
    fun _ _ _ ⟨_, h⟩ he hs => h.step he.1 he.2 hs
  exact ⟨h.ok, fun t ht => h.exit_ok_iff ht⟩

end

/-- The initial thread exits, then its child; the page of the child is used for a child of the
    grandchild. -/
def inOrder : List FamilyEvent :=
  [.create 0 (some 1), .create 1 (some 2), .exit 0, .exit 1, .create 2 (some 1)]

theorem children_alive_inOrder : ∃ s,
    Reach Family.step (fun s e => Legal s e ∧ AfterCreator s e) (Family.boot emptyLinks) s ∧
    (s.live 2 = true ∧ s.links.next (.head 2) = some (.elem 1)) ∧ ChildrenOk s := by
  obtain ⟨s, hs, hq⟩ := exists_reach Family.step
    (C := fun s e => Legal s e ∧ AfterCreator s e) (Family.boot emptyLinks) inOrder
    (c := fun s e => legalB s e && decide (AfterCreator s e))
    (fun s => s.live 2 && s.links.next (.head 2) = some (.elem 1))
    (fun _ _ he => by
      rw [Bool.and_eq_true] at he
      exact ⟨legal_of_legalB he.1, of_decide_eq_true he.2⟩)
    (by decide +kernel) (by decide +kernel)
  exact ⟨s, hs, by simpa using hq, (children_alive hs).1⟩

end Pintos.Threads.Children
