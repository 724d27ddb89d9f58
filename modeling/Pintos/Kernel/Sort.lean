import Pintos.Kernel.List
import Pintos.Lib.Order

/- Sorting of lists, the second half of `lib/kernel/list.c`.

   `list_sort` merges adjacent runs of the list in place until there is one left. The
   functions go by the nodes that begin and end a range, as in the source; `less` is called
   on elements only. A loop has no outcome when its `fuel` is used up, and every loop of
   `listSort` starts with the same.

   Correspondence (C ↔ Lean):
     `list_prev`, `list_splice`          ↔ `listPrev`, `listSplice`
     `is_sorted`, `find_end_of_run`      ↔ `isSorted`, `findEndOfRun`
     `inplace_merge`, `list_sort`        ↔ `inplaceMerge`, `listSort`
     the loops of `list_sort`            ↔ `sortPasses`, and `sortPass` inside
     `list_insert_ordered`               ↔ `listInsertOrdered`
     `list_unique`                       ↔ `listUnique`, with or without `duplicates`
   `output_run_cnt` is a natural number: there are fewer runs than elements in memory. -/
namespace Pintos.Kernel

open Lib Function

variable {fuel n : Nat}

variable {ι ε : Type} {e a b : ε} {s r m k : List ε}

def listPrev (n : Node ι ε) : ListM ι ε (Node ι ε) := do
  assert (isInterior (← get) n || isTail (← get) n)
  follow ((← get).prev n)

/-- `less`, which reads what the elements are embedded in. -/
def lessNodes (less : ε → ε → Bool) (a b : Node ι ε) : ListM ι ε Bool := do
  return less (← listEntry a) (← listEntry b)

section
variable [DecidableEq ι] [DecidableEq ε]

def listSplice (before first last : Node ι ε) : ListM ι ε Unit := do
  assert (isInterior (← get) before || isTail (← get) before)
  (if first = last then return ()
  else do
    let last ← listPrev last
    assert (isInterior (← get) first)
    assert (isInterior (← get) last)
    let p ← follow ((← get).prev first)
    setNext p ((← get).next last)
    let n ← follow ((← get).next last)
    setPrev n ((← get).prev first)
    setPrev first ((← get).prev before)
    setNext last (some before)
    let p ← follow ((← get).prev before)
    setNext p (some first)
    setPrev before (some last))

variable (less : ε → ε → Bool)

def isSortedLoop (b : Node ι ε) : (fuel : Nat) → Node ι ε → ListM ι ε Bool
  | 0, _ => follow none
  | fuel + 1, a => do
    let a ← listNext a
    (if a = b then return true
    else do
      (if ← lessNodes less a (← listPrev a) then return false
      else isSortedLoop b fuel a))

def isSorted (fuel : Nat) (a b : Node ι ε) : ListM ι ε Bool :=
  if a = b then return true else isSortedLoop less b fuel a

def findEndOfRunLoop (b : Node ι ε) : (fuel : Nat) → Node ι ε → ListM ι ε (Node ι ε)
  | 0, _ => follow none
  | fuel + 1, a => do
    let a ← listNext a
    (if a = b then return a
    else do
      (if ← lessNodes less a (← listPrev a) then return a
      else findEndOfRunLoop b fuel a))

def findEndOfRun (fuel : Nat) (a b : Node ι ε) : ListM ι ε (Node ι ε) := do
  assert (a ≠ b)
  findEndOfRunLoop less b fuel a

def mergeLoop (b1 : Node ι ε) : (fuel : Nat) → Node ι ε → Node ι ε → ListM ι ε Unit
  | 0, _, _ => follow none
  | fuel + 1, a0, a1b0 =>
    if a0 ≠ a1b0 ∧ a1b0 ≠ b1 then do
      (if !(← lessNodes less a1b0 a0) then do
        mergeLoop b1 fuel (← listNext a0) a1b0
      else do
        let a1b0 ← listNext a1b0
        listSplice a0 (← listPrev a1b0) a1b0
        mergeLoop b1 fuel a0 a1b0)
    else return ()

def inplaceMerge (fuel : Nat) (a0 a1b0 b1 : Node ι ε) : ListM ι ε Unit := do
  assert (← isSorted less fuel a0 a1b0)
  assert (← isSorted less fuel a1b0 b1)
  mergeLoop less b1 fuel a0 a1b0

/-- A pass over the list, from `a0` on; the result is `output_run_cnt`. -/
def sortPass (n : Nat) (i : ι) : (fuel : Nat) → Node ι ε → Nat → ListM ι ε Nat
  | 0, _, _ => follow none
  | fuel + 1, a0, outputRunCnt =>
    if a0 = .tail i then return outputRunCnt
    else do
      let outputRunCnt := outputRunCnt + 1
      let a1b0 ← findEndOfRun less n a0 (.tail i)
      (if a1b0 = .tail i then return outputRunCnt
      else do
        let b1 ← findEndOfRun less n a1b0 (.tail i)
        inplaceMerge less n a0 a1b0 b1
        sortPass n i fuel b1 outputRunCnt)

def sortPasses (n : Nat) (i : ι) : (fuel : Nat) → ListM ι ε Unit
  | 0 => follow none
  | fuel + 1 => do
    let outputRunCnt ← sortPass less n i n (← listBegin i) 0
    (if outputRunCnt > 1 then sortPasses n i fuel else return ())

def listSort (fuel : Nat) (i : ι) : ListM ι ε Unit := do
  sortPasses less fuel i fuel
  assert (← isSorted less fuel (← listBegin i) (.tail i))

/-- The loop that finds the place for an element. -/
def insertPlace (i : ι) (elem : Node ι ε) : (fuel : Nat) → Node ι ε → ListM ι ε (Node ι ε)
  | 0, _ => follow none
  | fuel + 1, e =>
    if e = .tail i then return e
    else do
      (if ← lessNodes less elem e then return e
      else do insertPlace i elem fuel (← listNext e))

def listInsertOrdered (fuel : Nat) (i : ι) (e : ε) : ListM ι ε Unit := do
  listInsert (← insertPlace less i (.elem e) fuel (← listBegin i)) (.elem e)

def uniqueLoop (i : ι) (duplicates : Option ι) : (fuel : Nat) → Node ι ε → ListM ι ε Unit
  | 0, _ => follow none
  | fuel + 1, elem => do
    let next ← listNext elem
    (if next = .tail i then return ()
    else do
      (if !(← lessNodes less elem next) && !(← lessNodes less next elem) then do
        let _ ← listRemove next
        match duplicates with
        | some d => listPushBack d (← listEntry next)
        | none => pure ()
        uniqueLoop i duplicates fuel elem
      else uniqueLoop i duplicates fuel next))

def listUnique (fuel : Nat) (i : ι) (duplicates : Option ι) : ListM ι ε Unit := do
  (if listEmpty (← get) i then return ()
  else do uniqueLoop less i duplicates fuel (← listBegin i))

/-! Sequences of calls. -/

def pushAll (i : ι) : List ε → ListM ι ε Unit
  | [] => pure ()
  | e :: l => do
    listPushBack i e
    pushAll i l

def insertAll (fuel : Nat) (i : ι) : List ε → ListM ι ε Unit
  | [] => pure ()
  | e :: l => do
    listInsertOrdered less fuel i e
    insertAll fuel i l

end

/-! What the loops do to a list. -/

section
variable {less : ε → ε → Bool}

/-- A run that starts at `a` and is as long as it can be. -/
structure RunOf (less : ε → ε → Bool) (a : ε) (m r s : List ε) : Prop where
  split : m = r ++ s
  sorted : Sorted less (a :: r)
  descent : Descent less (a :: r) s

/-- What a pass makes of a part of the list: sorted stretches, half as many as there were
    runs. -/
structure Passed (less : ε → ε → Bool) (l : List ε) (ls : List (List ε)) : Prop where
  sorted : ∀ r ∈ ls, Sorted less r
  classes : SameClasses less l ls.flatten
  half : 2 * ls.length ≤ runs less l + 1

theorem Passed.cons [WeakOrder less] {t : List ε} {ls : List (List ε)}
    (h₁ : RunOf less a m r (b :: k)) (h₂ : RunOf less b k s t) (h : Passed less t ls) :
    Passed less (a :: m) (merge less (a :: r) (b :: s) :: ls) where
  sorted := by grind [sorted_merge, h₁.sorted, h₂.sorted, h.sorted]
  classes := by
    have hmerge := sameClasses_merge (m := b :: s) h₁.sorted
    have := hmerge.append h.classes
    rw [h₁.split, h₂.split]
    simpa using this
  half := by
    grind [h₁.split, h₁.descent.runs_append, h₂.split, h₂.descent.runs_append, runs_pos, h.half]

end

/-! Moving along a list. -/

section
variable {L : Links ι ε} {i : ι} {l : List ε} {e : ε}

theorem wp_listPrev (h : IsList L i (l ++ e :: m)) {Q : Node ι ε → Links ι ε → Prop}
    (hq : Q (.elem e) L) : wp (listPrev (firstNode m (.tail i))) Q L := by
  have hprev : L.prev (firstNode m (.tail i)) = some (.elem e) := by
    obtain ⟨-, hm⟩ := linked_append.mp h.linked
    cases m with
    | nil => exact hm.2
    | cons y m => exact hm.2.1
  simp only [listPrev, wp_bind, wp_get, wp_follow, wp_assert]
  refine ⟨?_, _, hprev, hq⟩
  simp only [isInterior, isTail, hprev]
  cases L.next (firstNode m (.tail i)) <;> rfl

@[simp] theorem wp_listEntry {Q : ε → Links ι ε → Prop} :
    wp (listEntry (.elem e)) Q L ↔ Q e L := wp_pure

@[simp] theorem wp_lessNodes {less : ε → ε → Bool} {Q : Bool → Links ι ε → Prop} :
    wp (lessNodes less (.elem a) (.elem b)) Q L ↔ Q (less a b) L := by
  simp [lessNodes, listEntry]

/-- An element is not the node at which a later part of the list begins. -/
theorem elem_ne_firstNode (h : IsList L i (l ++ e :: m)) (hk : k.Sublist m) :
    Node.elem e ≠ firstNode k (.tail i) := by
  intro heq
  have hnd := (List.nodup_append'.mp h.nodup).2.1
  exact (List.nodup_cons.mp hnd).1
    (hk.subset (show onList i k (.elem e) from heq ▸ onList_firstNode i k))

end

section
variable [DecidableEq ι] [DecidableEq ε] {less : ε → ε → Bool} {L : Links ι ε}
  {q : ι → Option (List ε)} {i d : ι} {l post : List ε}

omit [DecidableEq ι] [DecidableEq ε] in
theorem isInterior_of_mem (h : IsList L i l) (he : e ∈ l) : isInterior L (.elem e) = true := by
  obtain ⟨x, y, rfl⟩ := List.append_of_mem he
  obtain ⟨hx, hy⟩ := linked_append.mp h.linked
  simp [isInterior, hx.prev_eq, hy.next_eq]

/-- The part `c` of a list is moved to before another node, of the same list or of
    another one. -/
theorem listSplice_spec {j : ι} {c x y : List ε} (h : Lists L q) (hi : q i = some (l ++ (c ++ r)))
    (hj : update q i (some (l ++ r)) j = some (x ++ y)) :
    wp (listSplice (firstNode y (.tail j)) (firstNode (c ++ r) (.tail i)) (firstNode r (.tail i)))
      (fun _ L' => Lists L' (update (update q i (some (l ++ r))) j (some (x ++ (c ++ y))))) L := by
  have hlist := h.list hi
  have hout := h.unlinkBlock hi
  have hcut := linked_iff.mp hlist.linked
  have hbefore := (linked_iff.mp (hout.list hj).linked x y rfl).2
  have hfirst := (hcut l (c ++ r) rfl).2
  have hlast := (hcut (l ++ c) r (by simp)).2
  -- the node before which the part goes has one before it already
  have hok : (isInterior L (firstNode y (.tail j)) || isTail L (firstNode y (.tail j))) = true := by
    have hsome : (L.prev (firstNode y (.tail j))).isSome = true := by
      by_cases heq : firstNode y (.tail j) = firstNode r (.tail i)
      · rw [heq, hlast]
        rfl
      · rw [← update_of_ne heq (some (lastNode (.head i) l)) L.prev]
        exact Option.isSome_iff_exists.mpr ⟨_, hbefore⟩
    simp only [isInterior, isTail, hsome]
    cases L.next (firstNode y (.tail j)) <;> rfl
  simp only [listSplice, wp_bind, wp_get, wp_assert]
  refine ⟨hok, ?_⟩
  cases c with
  | nil =>
    rw [List.nil_append] at hi ⊢
    rw [← hi, update_eq_self] at hj ⊢
    rw [if_pos rfl, wp_pure, List.nil_append, ← hj, update_eq_self]
    exact h
  | cons f c =>
    obtain ⟨d, g, hg⟩ : ∃ d g, f :: c = d ++ [g] := by
      obtain heq | ⟨d, g, heq⟩ := List.eq_nil_or_concat (f :: c)
      · cases heq
      · exact ⟨d, g, heq.trans List.concat_eq_append⟩
    have hlastc : ∀ a : Node ι ε, lastNode a (f :: c) = .elem g := fun a => by
      rw [hg, lastNode_append]
    have hlist' : IsList L i ((l ++ d) ++ g :: r) := by
      rw [hg] at hlist
      simpa using hlist
    have hgnext := (linked_append.mp hlist'.linked).2.next_eq
    have hloose := fun {e} => h.loose_unlinkBlock hi (e := e)
    have hgp : Node.elem g ≠ lastNode (.head i) l := by
      intro heq
      have hmem := lastNode_mem (.head i) l
      grind [hlist'.nodup]
    have hfb : firstNode y (.tail j) ≠ .elem f := by
      intro heq
      have hmem := firstNode_mem y (.tail j)
      exact hloose (List.mem_cons_self ..) j _ hj (by grind)
    have hnd := (List.nodup_append'.mp (List.nodup_append'.mp hlist.nodup).2.1).1
    have hin := hout.insertBlock hj (c := f :: c) hnd (fun _ => hloose)
      fun _ _ _ _ hc => hlist.joined_unlink hc
    rw [List.cons_append, firstNode] at hfirst ⊢
    rw [if_neg (elem_ne_firstNode hlist (List.sublist_append_right c r))]
    simp only [wp_bind]
    refine wp_listPrev hlist' ?_
    simp only [setPrev, setNext, wp_get, wp_assert, wp_modify, wp_follow]
    refine ⟨isInterior_of_mem hlist (by simp), isInterior_of_mem hlist' (by simp), _, hfirst,
      firstNode r (.tail i), ?_, lastNode (.head j) x, ?_, ?_⟩
    · rw [update_of_ne hgp, hgnext]
    · rw [update_of_ne hfb, hfirst]
      exact hbefore
    · simp only [Links.insertBlock, hlastc] at hin
      simp only [Links.unlink] at hbefore
      rw [hfirst, hgnext, hbefore]
      exact hin

/-! Runs. -/

theorem isSortedLoop_spec : ∀ (r : List ε) {l : List ε} {a : ε} {fuel : Nat},
    IsList L i (l ++ a :: (r ++ s)) → Sorted less (a :: r) → r.length < fuel →
    wp (isSortedLoop less (firstNode s (.tail i)) fuel (.elem a)) (fun c L' => c = true ∧ L' = L) L
  | [], l, a, fuel + 1, h, _, _ => by grind [isSortedLoop, wp_bind, wp_listNext, wp_pure]
  | b :: r, l, a, fuel + 1, h, hs, hlen => by
    have hb : IsList L i ((l ++ [a]) ++ b :: (r ++ s)) := by simpa using h
    have hle := (List.pairwise_cons.mp hs).1 b (List.mem_cons_self ..)
    rw [isSortedLoop, wp_bind]
    apply wp_listNext h
    rw [List.cons_append, firstNode, if_neg (elem_ne_firstNode hb (by simp)), wp_bind]
    apply wp_listPrev (m := b :: (r ++ s)) h
    rw [wp_bind, wp_lessNodes, hle]
    exact isSortedLoop_spec r hb hs.of_cons (Nat.lt_of_succ_lt_succ hlen)

theorem isSorted_spec (h : IsList L i (l ++ (r ++ s))) (hs : Sorted less r)
    (hfuel : r.length < fuel) :
    wp (isSorted less fuel (firstNode (r ++ s) (.tail i)) (firstNode s (.tail i)))
      (fun c L' => c = true ∧ L' = L) L := by
  rw [isSorted]
  cases r with
  | nil => grind [wp_pure]
  | cons a r => grind [firstNode, elem_ne_firstNode, isSortedLoop_spec]

theorem findEndOfRunLoop_spec [WeakOrder less] : ∀ (m : List ε) {l : List ε} {a : ε} {fuel : Nat},
    IsList L i (l ++ a :: m) → m.length < fuel →
    wp (findEndOfRunLoop less (.tail i) fuel (.elem a))
      (fun n L' => L' = L ∧ ∃ r s, RunOf less a m r s ∧ n = firstNode s (.tail i)) L
  | [], l, a, fuel + 1, h, _ => by
    rw [findEndOfRunLoop, wp_bind]
    apply wp_listNext h
    rw [firstNode, if_pos rfl, wp_pure]
    refine ⟨rfl, [], [], ⟨rfl, List.pairwise_singleton _ _, ?_⟩, rfl⟩
    intro _ _ b hb
    cases hb
  | b :: m, l, a, fuel + 1, h, hlen => by
    have hb : IsList L i ((l ++ [a]) ++ b :: m) := by simpa using h
    rw [findEndOfRunLoop, wp_bind]
    apply wp_listNext h
    rw [firstNode, if_neg (by simp), wp_bind]
    apply wp_listPrev (m := b :: m) h
    rw [wp_bind, wp_lessNodes]
    cases hba : less b a with
    | true =>
      refine wp_pure.mpr ⟨rfl, [], b :: m, ⟨rfl, List.pairwise_singleton _ _, ?_⟩, rfl⟩
      intro x hx y hy
      cases hx
      cases hy
      exact hba
    | false =>
      refine wp_mono (findEndOfRunLoop_spec m hb (Nat.lt_of_succ_lt_succ hlen)) ?_
      rintro n L' ⟨hL, r, s, hrun, hn⟩
      refine ⟨hL, b :: r, s, ⟨?_, hrun.sorted.cons hba, ?_⟩, hn⟩
      · rw [hrun.split, List.cons_append]
      · intro x hx
        exact hrun.descent x (by simpa using hx)

theorem findEndOfRun_spec [WeakOrder less] (h : IsList L i (l ++ a :: m))
    (hfuel : m.length < fuel) : wp (findEndOfRun less fuel (.elem a) (.tail i))
      (fun n L' => L' = L ∧ ∃ r s, RunOf less a m r s ∧ n = firstNode s (.tail i)) L := by
  rw [findEndOfRun, wp_bind, wp_assert]
  exact ⟨by simp, findEndOfRunLoop_spec m h hfuel⟩

/-! Merging in place. -/

/-- The list is what has been merged, what is left of both ranges, and what comes after. -/
theorem mergeLoop_spec : ∀ (fuel : Nat) {l r s : List ε} {L : Links ι ε}
    {q : ι → Option (List ε)}, Lists L q → q i = some (l ++ (r ++ (s ++ post))) →
    r.length + s.length < fuel →
    wp (mergeLoop less (firstNode post (.tail i)) fuel (firstNode (r ++ (s ++ post)) (.tail i))
        (firstNode (s ++ post) (.tail i)))
      (fun _ L' => Lists L' (update q i (some (l ++ (merge less r s ++ post))))) L
  | fuel + 1, l, [], s, L, q, h, hi, _ => by
    rw [mergeLoop, if_neg (by simp), wp_pure, merge_nil_left]
    rwa [update_eq_self_iff.mpr hi.symm]
  | fuel + 1, l, a :: r, [], L, q, h, hi, _ => by
    rw [mergeLoop, if_neg (by simp), wp_pure, merge_nil_right]
    rwa [update_eq_self_iff.mpr hi.symm]
  | fuel + 1, l, a :: r, b :: s, L, q, h, hi, hlen => by
    have ha : IsList L i (l ++ a :: (r ++ b :: (s ++ post))) := h.list (by simpa using hi)
    have hb : IsList L i ((l ++ a :: r) ++ b :: (s ++ post)) := h.list (by simpa using hi)
    simp only [List.length_cons] at hlen
    have hab : (Node.elem a : Node ι ε) ≠ .elem b :=
      elem_ne_firstNode ha (k := b :: (s ++ post)) (by simp)
    rw [mergeLoop, if_pos ⟨hab, elem_ne_firstNode hb (by simp)⟩, wp_bind]
    show wp (lessNodes less (.elem b) (.elem a)) _ L
    rw [wp_lessNodes]
    cases hba : less b a with
    | false =>
      show wp (listNext (.elem a) >>= _) _ L
      rw [wp_bind, merge_cons_cons_of_not hba]
      apply wp_listNext ha
      refine wp_mono (mergeLoop_spec fuel (l := l ++ [a]) (r := r) (s := b :: s) h
        (by simpa using hi) (by simp only [List.length_cons]; omega)) ?_
      intro _ L' hL
      simpa using hL
    | true =>
      show wp (listNext (.elem b) >>= _) _ L
      simp only [wp_bind, merge_cons_cons_of_less hba]
      apply wp_listNext hb
      apply wp_listPrev hb
      refine wp_mono (listSplice_spec (j := i) (l := l ++ a :: r) (c := [b]) (r := s ++ post)
        (x := l) (y := a :: (r ++ (s ++ post))) h (by simpa using hi) (by simp)) ?_
      intro _ L' hL
      rw [update_idem] at hL
      refine wp_mono (mergeLoop_spec fuel (l := l ++ [b]) (r := a :: r) (s := s) hL
        (by simp [update_self]) (by simp only [List.length_cons]; omega)) ?_
      intro _ L'' hL'
      rw [update_idem] at hL'
      simpa using hL'

theorem inplaceMerge_spec (h : Lists L q) (hi : q i = some (l ++ (r ++ (s ++ post))))
    (hr : Sorted less r) (hs : Sorted less s) (hfuel : r.length + s.length < fuel) :
    wp (inplaceMerge less fuel (firstNode (r ++ (s ++ post)) (.tail i))
        (firstNode (s ++ post) (.tail i)) (firstNode post (.tail i)))
      (fun _ L' => Lists L' (update q i (some (l ++ (merge less r s ++ post))))) L := by
  have hlist := h.list hi
  have hlist' : IsList L i ((l ++ r) ++ (s ++ post)) := h.list (by simpa using hi)
  rw [inplaceMerge, wp_bind]
  refine wp_mono (isSorted_spec hlist hr (by omega)) ?_
  rintro _ _ ⟨hc, hL⟩
  subst hc hL
  simp only [wp_bind, wp_assert, true_and]
  refine wp_mono (isSorted_spec hlist' hs (by omega)) ?_
  rintro _ _ ⟨hc, hL⟩
  subst hc hL
  exact ⟨rfl, mergeLoop_spec fuel h hi hfuel⟩

/-! The sort. -/

theorem sortPass_spec [WeakOrder less] : ∀ (fuel : Nat) {l m : List ε} {cnt : Nat}
    {L : Links ι ε} {q : ι → Option (List ε)}, Lists L q → q i = some (l ++ m) →
    m.length < fuel → m.length < n →
    wp (sortPass less n i fuel (firstNode m (.tail i)) cnt) (fun k L' => ∃ ls,
      Lists L' (update q i (some (l ++ ls.flatten))) ∧ k = cnt + ls.length ∧
        Passed less m ls) L
  | fuel + 1, l, [], cnt, L, q, h, hi, _, _ => by
    rw [firstNode, sortPass, if_pos rfl, wp_pure]
    refine ⟨[], ?_, rfl, ⟨?_, SameClasses.refl _, Nat.zero_le _⟩⟩
    · rwa [update_eq_self_iff.mpr hi.symm]
    · exact fun r hr => absurd hr List.not_mem_nil
  | fuel + 1, l, a :: m, cnt, L, q, h, hi, hfuel, hn => by
    simp only [List.length_cons] at hfuel hn
    rw [firstNode, sortPass, if_neg (by simp)]
    simp only [wp_bind]
    refine wp_mono (findEndOfRun_spec (h.list hi) (by omega)) ?_
    rintro n₁ _ ⟨hL, r, k, hrun, hn₁⟩
    subst hL hn₁
    cases k with
    | nil =>
      -- one run is left, and stays as it is
      rw [firstNode, if_pos rfl, wp_pure]
      have hm : m = r := by simpa using hrun.split
      subst hm
      refine ⟨[a :: m], ?_, rfl, ⟨?_, ?_, ?_⟩⟩
      · rwa [List.flatten_singleton, update_eq_self_iff.mpr hi.symm]
      · exact fun x hx => List.mem_singleton.mp hx ▸ hrun.sorted
      · simpa using SameClasses.refl _
      · grind [runs_pos]
    | cons b k =>
      have hi₁ : q i = some ((l ++ a :: r) ++ b :: k) := by rw [hi, hrun.split]; simp
      have hlen := congrArg List.length hrun.split
      simp only [List.length_append, List.length_cons] at hlen
      rw [firstNode, if_neg (by simp)]
      simp only [wp_bind]
      refine wp_mono (findEndOfRun_spec (h.list hi₁) (by omega)) ?_
      rintro n₂ _ ⟨hL, s, t, hrun', hn₂⟩
      subst hL hn₂
      have hlen' := congrArg List.length hrun'.split
      simp only [List.length_append] at hlen'
      have hi₂ : q i = some (l ++ ((a :: r) ++ ((b :: s) ++ t))) := by
        rw [hi₁, hrun'.split]
        simp
      refine wp_mono (inplaceMerge_spec h hi₂ hrun.sorted hrun'.sorted
        (by simp only [List.length_cons]; omega)) ?_
      intro _ L₁ hL₁
      refine wp_mono (sortPass_spec fuel (l := l ++ merge less (a :: r) (b :: s)) (m := t) hL₁
        (by simp) (by omega) (by omega)) ?_
      rintro c L₂ ⟨ls, hL₂, hc, hpass⟩
      refine ⟨merge less (a :: r) (b :: s) :: ls, ?_, ?_, Passed.cons hrun hrun' hpass⟩
      · rw [update_idem] at hL₂
        simpa using hL₂
      · rw [hc, List.length_cons]
        omega

theorem sortPasses_spec [WeakOrder less] : ∀ (fuel : Nat) {l : List ε} {L : Links ι ε}
    {q : ι → Option (List ε)}, Lists L q → q i = some l → runs less l < fuel → l.length < n →
    wp (sortPasses less n i fuel) (fun _ L' => ∃ l', Lists L' (update q i (some l')) ∧
      Sorted less l' ∧ SameClasses less l l') L
  | fuel + 1, l, L, q, h, hi, hfuel, hn => by
    simp only [sortPasses, wp_bind]
    apply wp_listBegin (h.list hi)
    refine wp_mono (sortPass_spec n (l := []) h hi hn hn) ?_
    rintro k L₁ ⟨ls, hL₁, hk, hpass⟩
    rw [List.nil_append] at hL₁
    rw [wp_ite]
    constructor
    · -- fewer runs are left
      intro hmore
      have hruns := runs_flatten_le hpass.sorted
      have hhalf := hpass.half
      have hlen := (hpass.classes.perm).length_eq
      refine wp_mono (sortPasses_spec fuel hL₁ (update_self ..) (by omega) (by omega)) ?_
      rintro _ L₂ ⟨l', hL₂, hs, hc⟩
      rw [update_idem] at hL₂
      exact ⟨l', hL₂, hs, hpass.classes.trans hc⟩
    · intro hone
      refine wp_pure.mpr ⟨ls.flatten, hL₁, ?_, hpass.classes⟩
      have hs := hpass.sorted
      cases ls with
      | nil => exact List.Pairwise.nil
      | cons r rs =>
        cases rs with
        | nil => simpa using hs r (List.mem_singleton.mpr rfl)
        | cons _ _ =>
          simp only [List.length_cons] at hk
          omega

theorem listSort_spec [WeakOrder less] (h : Lists L q) (hi : q i = some l)
    (hfuel : l.length < fuel) :
    wp (listSort less fuel i) (fun _ L' => ∃ l', Lists L' (update q i (some l')) ∧
      Sorted less l' ∧ SameClasses less l l') L := by
  rw [listSort, wp_bind]
  refine wp_mono (sortPasses_spec fuel h hi (Nat.lt_of_le_of_lt (runs_le_length l) hfuel) hfuel) ?_
  rintro _ L' ⟨l', hL, hs, hc⟩
  have hlist : IsList L' i ([] ++ (l' ++ [])) := by grind [hL.list]
  have hlen := hc.perm.length_eq
  simp only [wp_bind]
  apply wp_listBegin hlist
  refine wp_mono (isSorted_spec (s := []) hlist hs (by omega)) ?_
  rintro _ _ ⟨hc', hL'⟩
  subst hc' hL'
  exact wp_assert.mpr ⟨rfl, l', hL, hs, hc⟩

/-- **`list_sort` is a stable sort.** -/
theorem listSort_stable [WeakOrder less] {l : List ε} (h : Lists L q) (hi : q i = some l)
    {fuel : Nat} (hfuel : l.length < fuel) :
    wp (listSort less fuel i) (fun _ L' => ∃ l', Lists L' (update q i (some l')) ∧
      l'.Perm l ∧ Sorted less l' ∧ ∀ a, l'.filter (eqv less a) = l.filter (eqv less a)) L := by
  refine wp_mono (listSort_spec h hi hfuel) ?_
  rintro _ L' ⟨l', hL, hs, hc⟩
  exact ⟨l', hL, hc.perm.symm, hs, hc.symm⟩

/-! Ordered insertion. -/

theorem insertPlace_spec : ∀ (m : List ε) {l : List ε} {fuel : Nat},
    IsList L i (l ++ m) → m.length < fuel →
    wp (insertPlace less i (.elem e) fuel (firstNode m (.tail i))) (fun n L' => L' = L ∧
      ∃ r s, m = r ++ s ∧ insertOrdered less e m = r ++ e :: s ∧ n = firstNode s (.tail i)) L
  | [], l, fuel + 1, h, _ => by
    rw [firstNode, insertPlace, if_pos rfl, wp_pure]
    exact ⟨rfl, [], [], rfl, rfl, rfl⟩
  | b :: m, l, fuel + 1, h, hlen => by
    rw [firstNode, insertPlace, if_neg (by simp), wp_bind, wp_lessNodes]
    cases heb : less e b with
    | true =>
      refine wp_pure.mpr ⟨rfl, [], b :: m, rfl, ?_, rfl⟩
      rw [insertOrdered, List.orderedInsert_cons, if_pos heb, List.nil_append]
    | false =>
      show wp (listNext (.elem b) >>= _) _ L
      rw [wp_bind]
      apply wp_listNext h
      refine wp_mono (insertPlace_spec m (l := l ++ [b]) (by simpa using h)
        (Nat.lt_of_succ_lt_succ hlen)) ?_
      rintro n L' ⟨hL, r, s, hm, hins, hn⟩
      refine ⟨hL, b :: r, s, by rw [hm, List.cons_append], ?_, hn⟩
      rw [insertOrdered, List.orderedInsert_cons, if_neg (by simp [heb]), ← insertOrdered, hins,
        List.cons_append]

theorem listInsertOrdered_spec (h : Lists L q) (hi : q i = some l) (he : Loose q e)
    (hfuel : l.length < fuel) : wp (listInsertOrdered less fuel i e)
      (fun _ L' => Lists L' (update q i (some (insertOrdered less e l)))) L := by
  simp only [listInsertOrdered, wp_bind]
  apply wp_listBegin (h.list hi)
  refine wp_mono (insertPlace_spec l (l := []) (h.list hi) hfuel) ?_
  rintro n _ ⟨hL, r, s, hl, hins, hn⟩
  subst hL hn
  rw [hl] at hi
  rw [hins]
  exact wp_listInsert (h.list hi) (he i _ hi) (h.insert hi he)

omit [DecidableEq ε] in
/-- The elements that are still to come are on no list after one has been put on one. -/
theorem loose_tail {xs : List ε} (hi : q i = some l) (hxs : (e :: xs).Nodup)
    (hloose : ∀ x ∈ e :: xs, Loose q x) (hm : m.Perm (e :: l)) :
    ∀ x ∈ xs, Loose (update q i (some m)) x := by
  intro x hx j k hj hmem
  by_cases hji : j = i
  · subst hji
    rw [update_self, Option.some.injEq] at hj
    subst hj
    cases List.mem_cons.mp (hm.mem_iff.mp hmem) with
    | inl hxe => exact (List.nodup_cons.mp hxs).1 (hxe ▸ hx)
    | inr hxl => exact hloose x (List.mem_cons_of_mem _ hx) _ l hi hxl
  · rw [update_of_ne hji] at hj
    exact hloose x (List.mem_cons_of_mem _ hx) j k hj hmem

theorem pushAll_spec : ∀ (xs : List ε) {l : List ε} {L : Links ι ε} {q : ι → Option (List ε)},
    Lists L q → q i = some l → xs.Nodup → (∀ x ∈ xs, Loose q x) →
    wp (pushAll i xs) (fun _ L' => Lists L' (update q i (some (l ++ xs)))) L
  | [], l, L, q, h, hi, _, _ => by
    rw [pushAll, wp_pure, List.append_nil]
    rwa [update_eq_self_iff.mpr hi.symm]
  | e :: xs, l, L, q, h, hi, hxs, hloose => by
    rw [pushAll, wp_bind]
    refine wp_mono (listPushBack_spec h hi (hloose e (List.mem_cons_self ..))) ?_
    intro _ L' hL
    refine wp_mono (pushAll_spec xs hL (update_self ..) hxs.of_cons
      (loose_tail hi hxs hloose (List.perm_append_singleton e l))) ?_
    intro _ L'' hL'
    rw [update_idem] at hL'
    simpa using hL'

theorem insertAll_spec [WeakOrder less] : ∀ (xs : List ε) {l : List ε}
    {L : Links ι ε} {q : ι → Option (List ε)}, Lists L q → q i = some l → xs.Nodup →
    (∀ x ∈ xs, Loose q x) → Sorted less l → l.length + xs.length ≤ fuel →
    wp (insertAll less fuel i xs) (fun _ L' => ∃ l', Lists L' (update q i (some l')) ∧
      Sorted less l' ∧ SameClasses less (l ++ xs) l') L
  | [], l, L, q, h, hi, _, _, hs, _ => by
    rw [insertAll, wp_pure, List.append_nil]
    refine ⟨l, ?_, hs, SameClasses.refl l⟩
    rwa [update_eq_self_iff.mpr hi.symm]
  | e :: xs, l, L, q, h, hi, hxs, hloose, hs, hfuel => by
    simp only [List.length_cons] at hfuel
    rw [insertAll, wp_bind]
    refine wp_mono (listInsertOrdered_spec h hi (hloose e (List.mem_cons_self ..)) (by omega)) ?_
    intro _ L' hL
    have hclasses := sameClasses_insertOrdered hs e
    have hperm := hclasses.perm
    have hlen := hperm.length_eq
    simp only [List.length_append, List.length_singleton] at hlen
    refine wp_mono (insertAll_spec xs hL (update_self ..) hxs.of_cons
      (loose_tail hi hxs hloose (hperm.symm.trans (List.perm_append_singleton e l)))
      (sorted_insertOrdered hs e) (by omega)) ?_
    rintro _ L'' ⟨l', hL', hs', hc⟩
    rw [update_idem] at hL'
    refine ⟨l', hL', hs', ?_⟩
    rw [List.append_cons]
    exact (hclasses.append (SameClasses.refl xs)).trans hc

/-! Duplicates. -/

omit [DecidableEq ε] in
theorem update_twice (hne : i ≠ d) (x y z w : Option (List ε)) :
    update (update (update (update q i x) d y) i z) d w =
      update (update q i z) d w := by
  rw [update_comm hne, update_idem, update_comm hne,
    update_idem, update_comm hne.symm]

theorem uniqueLoop_spec (hne : i ≠ d) : ∀ (m : List ε) {fuel : Nat} {l D : List ε} {a : ε}
    {L : Links ι ε} {q : ι → Option (List ε)}, Lists L q → q i = some (l ++ a :: m) →
    q d = some D → m.length < fuel →
    wp (uniqueLoop less i (some d) fuel (.elem a)) (fun _ L' => Lists L'
      (update (update q i (some (l ++ a :: (split less a m).1))) d
        (some (D ++ (split less a m).2)))) L
  | [], fuel + 1, l, D, a, L, q, h, hi, hd, _ => by
    rw [uniqueLoop, wp_bind]
    apply wp_listNext (h.list hi)
    rw [firstNode, if_pos rfl, wp_pure, split, List.append_nil, ← hi, update_eq_self,
      ← hd, update_eq_self]
    exact h
  | b :: m, fuel + 1, l, D, a, L, q, h, hi, hd, hlen => by
    have hi' : q i = some ((l ++ [a]) ++ b :: m) := by simpa using hi
    have hlen := Nat.lt_of_succ_lt_succ hlen
    rw [uniqueLoop, wp_bind]
    apply wp_listNext (h.list hi)
    rw [firstNode, if_neg (by simp)]
    simp only [wp_bind, wp_lessNodes]
    rw [wp_ite]
    constructor
    · intro hab
      have hab : eqv less a b = true := hab
      rw [split_cons_of_eqv hab]
      simp only [wp_bind]
      apply wp_listRemove (h.list hi')
      have hout := h.unlink hi'
      have hout_d : update q i (some (l ++ [a] ++ m)) d = some D := by
        rw [update_of_ne hne.symm, hd]
      rw [wp_listEntry]
      refine wp_mono (listPushBack_spec hout hout_d (h.loose_unlink hi')) ?_
      intro _ L' hL
      refine wp_mono (uniqueLoop_spec hne m (l := l) (D := D ++ [b]) hL ?_ (update_self ..)
        hlen) ?_
      · rw [update_of_ne hne, update_self]
        simp
      · grind [update_twice]
    · intro hab
      have hab : ¬eqv less a b = true := hab
      rw [split_cons_of_not hab]
      refine wp_mono (uniqueLoop_spec hne m h hi' hd hlen) ?_
      intro _ L' hL
      simpa using hL

/-- What is kept of a sorted list, and what goes. -/
structure Uniqued (less : ε → ε → Bool) (l kept gone : List ε) : Prop where
  strict : kept.Pairwise fun a b => less a b = true
  first : ∀ a, kept.filter (eqv less a) = (l.filter (eqv less a)).take 1
  inOrder : gone.Sublist l
  all : (kept ++ gone).Perm l

theorem listUnique_spec [WeakOrder less] (hne : i ≠ d) {D : List ε} (h : Lists L q)
    (hi : q i = some l) (hd : q d = some D) (hs : Sorted less l) (hfuel : l.length < fuel) :
    wp (listUnique less fuel i (some d)) (fun _ L' => ∃ kept gone, Lists L'
      (update (update q i (some kept)) d (some (D ++ gone))) ∧
      Uniqued less l kept gone) L := by
  simp only [listUnique, wp_bind, wp_get, listEmpty_eq (h.list hi)]
  cases l with
  | nil =>
    refine wp_pure.mpr ⟨[], [], ?_, ⟨List.Pairwise.nil, fun _ => rfl, List.Sublist.refl _,
      List.Perm.refl _⟩⟩
    rw [List.append_nil, ← hi, update_eq_self, ← hd, update_eq_self]
    exact h
  | cons a m =>
    show wp (listBegin i >>= _) _ L
    rw [wp_bind]
    apply wp_listBegin (h.list hi)
    refine wp_mono (uniqueLoop_spec hne m (l := []) h hi hd (Nat.lt_of_succ_lt hfuel)) ?_
    intro _ L' hL
    refine ⟨a :: (split less a m).1, (split less a m).2, hL, hs.split_strict, hs.split_first,
      (split_sublist a m).2.cons a, ?_⟩
    exact (split_perm a m).cons a

/-- **Inserting in order gives what sorting gives**, and what `list_unique` then leaves are
    the first elements of the classes. -/
theorem insertOrdered_eq_sort [WeakOrder less] {d : ι} (hne : i ≠ d) {xs D : List ε}
    (h : Lists L q) (hi : q i = some []) (hd : q d = some D) (hxs : xs.Nodup)
    (hloose : ∀ x ∈ xs, Loose q x) {fuel : Nat} (hfuel : xs.length < fuel) :
    ∃ l, Sorted less l ∧ SameClasses less xs l ∧
      wp (insertAll less fuel i xs) (fun _ L' => Lists L' (update q i (some l))) L ∧
      wp (do pushAll i xs; listSort less fuel i)
        (fun _ L' => Lists L' (update q i (some l))) L ∧
      ∀ L', Lists L' (update q i (some l)) →
        wp (listUnique less fuel i (some d)) (fun _ L'' => ∃ kept gone, Lists L''
          (update (update q i (some kept)) d (some (D ++ gone))) ∧
          Uniqued less l kept gone) L' := by
  have hins : wp (insertAll less fuel i xs) _ L := insertAll_spec xs h hi hxs hloose
    List.Pairwise.nil (by simp only [List.length_nil]; omega)
  obtain ⟨_, L₁, hrun₁, l, hL₁, hs, hc⟩ := hins
  refine ⟨l, hs, hc, ⟨_, L₁, hrun₁, hL₁⟩, ?_, ?_⟩
  · rw [wp_bind]
    refine wp_mono (pushAll_spec xs h hi hxs hloose) ?_
    intro _ L₂ hL₂
    refine wp_mono (listSort_spec hL₂ (update_self ..) hfuel) ?_
    rintro _ L₃ ⟨l', hL₃, hs', hc'⟩
    -- a sorted list is determined by its classes
    have heq : l' = l := hs'.unique hs (hc'.symm.trans hc)
    subst heq
    rwa [update_idem] at hL₃
  · intro L' hL'
    have hlen := hc.perm.length_eq
    rw [List.nil_append] at hlen
    refine wp_mono (listUnique_spec hne hL' (update_self ..)
      (by rw [update_of_ne hne.symm, hd]) hs (by omega)) ?_
    rintro _ L'' ⟨kept, gone, hL'', hu⟩
    rw [update_idem] at hL''
    exact ⟨kept, gone, hL'', hu⟩

end

/-! A list of pairs, ordered by the first component. -/

def byKey (a b : Nat × Nat) : Bool := a.1 < b.1

theorem byKey_weakOrder : WeakOrder byKey where
  irrefl a := by simp [byKey]
  trans a b c h h' := by
    simp only [byKey, decide_eq_true_eq] at h h' ⊢
    omega
  incomp_trans a b c h h' := by
    simp only [byKey, decide_eq_true_eq] at h h' ⊢
    omega

def somePairs : List (Nat × Nat) := [(2, 0), (1, 0), (2, 1), (1, 1)]

theorem exists_empty : ∃ L : Links Bool (Nat × Nat), Lists L fun _ => some [] := by
  have h : Lists (⟨fun _ => none, fun _ => none⟩ : Links Bool (Nat × Nat)) fun _ => none :=
    ⟨fun h => absurd h (by simp), fun h => absurd h (by simp)⟩
  have hq : update (update (fun _ => none) true (some [])) false (some []) =
      fun _ : Bool => some ([] : List (Nat × Nat)) := by
    funext b
    cases b <;> rfl
  exact ⟨_, hq ▸ (h.clear true).clear false⟩

theorem listSort_stable_pairs : ∃ (L : Links Bool (Nat × Nat)) (q : Bool → _), Lists L q ∧
    q true = some somePairs ∧ wp (listSort byKey 5 true) (fun _ L' => ∃ l',
      Lists L' (update q true (some l')) ∧ l'.Perm somePairs ∧ Sorted byKey l' ∧
      ∀ a, l'.filter (eqv byKey a) = somePairs.filter (eqv byKey a)) L := by
  have := byKey_weakOrder
  obtain ⟨L, hL⟩ := exists_empty
  obtain ⟨_, L', -, hL'⟩ := pushAll_spec somePairs (i := true) hL rfl (by decide)
    fun x _ i l hl hx => by cases hl; cases hx
  exact ⟨L', _, hL', rfl, listSort_stable hL' rfl (by decide)⟩

theorem insertOrdered_eq_sort_pairs : ∃ (L : Links Bool (Nat × Nat)),
    Lists L (fun _ => some []) ∧ ∃ l, Sorted byKey l ∧ SameClasses byKey somePairs l ∧
      wp (insertAll byKey 5 true somePairs)
        (fun _ L' => Lists L' (update (fun _ => some []) true (some l))) L ∧
      wp (do pushAll true somePairs; listSort byKey 5 true)
        (fun _ L' => Lists L' (update (fun _ => some []) true (some l))) L ∧
      ∀ L', Lists L' (update (fun _ => some []) true (some l)) →
        wp (listUnique byKey 5 true (some false)) (fun _ L'' => ∃ kept gone, Lists L''
          (update (update (fun _ => some []) true (some kept)) false
            (some ([] ++ gone))) ∧ Uniqued byKey l kept gone) L' := by
  have := byKey_weakOrder
  obtain ⟨L, hL⟩ := exists_empty
  exact ⟨L, hL, insertOrdered_eq_sort (by decide) hL rfl rfl (by decide)
    (fun x _ i l hl hx => by cases hl; cases hx) (by decide)⟩

end Pintos.Kernel
