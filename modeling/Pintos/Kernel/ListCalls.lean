import Pintos.Kernel.Sort

/- What the functions of `lib/kernel/list.c` do to sequences.

   `Acts` says, for one call, which sequences the lists hold after it and what it returns,
   in terms of the sequences before it. The calls do so to the links, wherever the lists
   are in order (`listCall_refines`): a neighbour may be an end of the list, the list may
   have one element, and a part may be moved inside its own list. `list_reverse` first
   turns the links of the elements around, which leaves the lists out of order, and then
   those of the ends.

   Correspondence (C ↔ Lean):
     `list_pop_back`                 ↔ `listPopBack`
     `list_reverse`, its loop        ↔ `listReverse`, `reverseLoop` -/
namespace Pintos.Kernel

open Lib Function

variable {ι ε : Type} [DecidableEq ι] [DecidableEq ε]

def listPopBack (i : ι) : ListM ι ε (Node ι ε) := do
  let back ← listBack i
  let _ ← listRemove back
  return back

/-- The loop of `list_reverse`, which goes on by the link that `swap` has put into `prev`. -/
def reverseLoop (i : ι) : (fuel : Nat) → Node ι ε → ListM ι ε Unit
  | 0, _ => follow none
  | fuel + 1, e =>
    if e = .tail i then return ()
    else do
      let t := (← get).prev e
      setPrev e ((← get).next e)
      setNext e t
      reverseLoop i fuel (← follow ((← get).prev e))

def listReverse (fuel : Nat) (i : ι) : ListM ι ε Unit := do
  (if listEmpty (← get) i then return ()
  else do
    reverseLoop i fuel (← listBegin i)
    let t := (← get).next (.head i)
    setNext (.head i) ((← get).prev (.tail i))
    setPrev (.tail i) t
    let front ← follow ((← get).next (.head i))
    let back ← follow ((← get).prev (.tail i))
    let t := (← get).prev front
    setPrev front ((← get).next back)
    setNext back t)

/-! Calls. -/

inductive ListCall (ι ε : Type) where
  | insert (before : Node ι ε) (e : ε)
  | remove (e : ε)
  | pushFront (i : ι) (e : ε)
  | pushBack (i : ι) (e : ε)
  | popFront (i : ι)
  | popBack (i : ι)
  | reverse (i : ι)
  | splice (before first last : Node ι ε)

/-- The call, with the node it returns. -/
def ListCall.exec (fuel : Nat) : ListCall ι ε → ListM ι ε (Option (Node ι ε))
  | .insert before e => do listInsert before (.elem e); return none
  | .remove e => do return some (← listRemove (.elem e))
  | .pushFront i e => do listPushFront i e; return none
  | .pushBack i e => do listPushBack i e; return none
  | .popFront i => do return some (← listPopFront i)
  | .popBack i => do return some (← listPopBack i)
  | .reverse i => do listReverse fuel i; return none
  | .splice before first last => do listSplice before first last; return none

/-- What a call does to the sequences `q`. -/
inductive Acts (q : ι → Option (List ε)) :
    ListCall ι ε → Option (Node ι ε) → (ι → Option (List ε)) → Prop
  | insert {i l m e} : q i = some (l ++ m) → Loose q e →
      Acts q (.insert (firstNode m (.tail i)) e) none (update q i (some (l ++ e :: m)))
  | remove {i l m e} : q i = some (l ++ e :: m) →
      Acts q (.remove e) (some (firstNode m (.tail i))) (update q i (some (l ++ m)))
  | pushFront {i l e} : q i = some l → Loose q e →
      Acts q (.pushFront i e) none (update q i (some (e :: l)))
  | pushBack {i l e} : q i = some l → Loose q e →
      Acts q (.pushBack i e) none (update q i (some (l ++ [e])))
  | popFront {i l e} : q i = some (e :: l) →
      Acts q (.popFront i) (some (.elem e)) (update q i (some l))
  | popBack {i l e} : q i = some (l ++ [e]) →
      Acts q (.popBack i) (some (.elem e)) (update q i (some l))
  | reverse {i l} : q i = some l → Acts q (.reverse i) none (update q i (some l.reverse))
  | splice {i j l c r x y} : q i = some (l ++ (c ++ r)) →
      update q i (some (l ++ r)) j = some (x ++ y) →
      Acts q (.splice (firstNode y (.tail j)) (firstNode (c ++ r) (.tail i)) (firstNode r (.tail i)))
        none (update (update q i (some (l ++ r))) j (some (x ++ (c ++ y))))

/-! Reversal. -/

variable {L : Links ι ε} {q q' : ι → Option (List ε)} {i : ι} {l x : List ε} {e : ε}

/-- The links of the elements `x` are turned around. -/
def flipped (L : Links ι ε) (x : List ε) : Links ι ε where
  next n := match n with
    | .elem e => if e ∈ x then L.prev n else L.next n
    | _ => L.next n
  prev n := match n with
    | .elem e => if e ∈ x then L.next n else L.prev n
    | _ => L.prev n

omit [DecidableEq ι] in
theorem flipped_nil (L : Links ι ε) : flipped L [] = L := by
  rw [flipped, Links.mk.injEq]
  constructor <;> funext n <;> cases n <;> simp

theorem flipped_append (L : Links ι ε) (he : e ∉ x) :
    flipped L (x ++ [e]) = ⟨update (flipped L x).prev (.elem e) (L.next (.elem e)),
      update (flipped L x).next (.elem e) (L.prev (.elem e))⟩ := by
  rw [flipped, Links.mk.injEq]
  constructor
  all_goals
    funext n
    cases n with
    | elem e' => by_cases heq : e' = e <;> simp [flipped, heq, he]
    | _ => rfl

theorem reverseLoop_spec (h : IsList L i l) : ∀ (y : List ε) {x : List ε} {fuel : Nat},
    l = x ++ y → y.length < fuel →
    wp (reverseLoop i fuel (firstNode y (.tail i))) (fun _ L' => L' = flipped L l) (flipped L x)
  | [], x, fuel + 1, hl, _ => by
    rw [firstNode, reverseLoop, if_pos rfl, wp_pure, hl, List.append_nil]
  | e :: y, x, fuel + 1, hl, hfuel => by
    have hnd := hl ▸ h.nodup
    have he : e ∉ x := by grind
    have hnext := (linked_iff.mp h.linked (x ++ [e]) y (by simp [hl])).1
    rw [lastNode_append] at hnext
    have hrest := reverseLoop_spec h y (x := x ++ [e]) (by simp [hl]) (Nat.lt_of_succ_lt_succ hfuel)
    have hn : (flipped L x).next (.elem e) = L.next (.elem e) := by simp [flipped, he]
    have hp : (flipped L x).prev (.elem e) = L.prev (.elem e) := by simp [flipped, he]
    rw [firstNode, reverseLoop, if_neg (by simp)]
    simp only [setPrev, setNext, wp_bind, wp_get, wp_modify, wp_follow, hn, hp]
    refine ⟨firstNode y (.tail i), by rw [update_self, hnext], ?_⟩
    rwa [flipped_append L he] at hrest

/-- The links of the ends, and of the elements at the ends, after the two last swaps. -/
def turned (L : Links ι ε) (i : ι) (l : List ε) (f g : ε) : Links ι ε where
  next := update (update (flipped L l).next (.head i) (some (.elem g))) (.elem f) (some (.tail i))
  prev := update (update (flipped L l).prev (.tail i) (some (.elem f))) (.elem g) (some (.head i))

theorem isList_turned {y : List ε} {f g : ε} (h : IsList L i l) (hf : l = f :: y)
    (hg : l = x ++ [g]) : IsList (turned L i l f g) i l.reverse := by
  have hnd := h.nodup
  refine ⟨by simp [turned, flipped, h.head], by simp [turned, flipped, h.tail],
    linked_iff.mpr fun u v huv => ?_, List.nodup_reverse.mpr hnd⟩
  have hl : l = v.reverse ++ u.reverse := by rw [← List.reverse_append, ← huv, List.reverse_reverse]
  have hold := linked_iff.mp h.linked _ _ hl
  obtain rfl | ⟨u, a, rfl⟩ := List.eq_nil_or_concat u
  · cases v with
    | nil => simp [hf] at hl
    | cons b v =>
      obtain rfl : g = b := by grind
      simp [Lib.Joined, turned, lastNode, firstNode]
  · rw [List.concat_eq_append, lastNode_append]
    cases v with
    | nil =>
      obtain rfl : f = a := by grind
      simp [Lib.Joined, turned, firstNode]
    | cons b v =>
      have ha : a ≠ f ∧ a ∈ l := by cases hv : v.reverse <;> grind
      have hr : g :: x.reverse = u ++ a :: b :: v := by simpa [hg] using huv
      have hndr : (g :: x.reverse).Nodup := by simpa [hg] using List.nodup_reverse.mpr hnd
      have hb : b ≠ g ∧ b ∈ l := by cases u <;> grind
      rw [List.reverse_cons, lastNode_append] at hold
      simp only [List.concat_eq_append, List.reverse_append, List.reverse_singleton,
        List.singleton_append, firstNode] at hold
      simp [Lib.Joined, turned, flipped, firstNode, ha, hb, hold.1, hold.2]

theorem listReverse_spec (h : Lists L q) (hi : q i = some l) {fuel : Nat} (hfuel : l.length < fuel) :
    wp (listReverse fuel i) (fun _ L' => Lists L' (update q i (some l.reverse))) L := by
  have hlist := h.list hi
  have hway := linked_iff.mp hlist.linked
  simp only [listReverse, wp_bind, wp_get]
  rw [listEmpty_eq hlist]
  obtain rfl | ⟨x, g, rfl⟩ := List.eq_nil_or_concat l
  · rw [List.reverse_nil, ← hi, update_eq_self]
    exact wp_pure.mpr h
  obtain ⟨f, y, hf⟩ := List.exists_cons_of_ne_nil (List.concat_ne_nil g x)
  rw [List.concat_eq_append] at *
  have hhead := hway [] (x ++ [g]) rfl
  have htail := hway _ [] (List.append_nil _).symm
  rw [hf] at hhead
  rw [lastNode_append] at htail
  have hfnext : (flipped L (x ++ [g])).next (.elem f) = some (.head i) := by
    rw [hf]
    simpa [flipped, lastNode, firstNode] using hhead.2
  have hgprev : (flipped L (x ++ [g])).prev (.elem g) = some (.tail i) := by
    simpa [flipped, firstNode] using htail.1
  rw [if_neg (by simp)]
  simp only [wp_bind]
  have hloop := reverseLoop_spec hlist (x ++ [g]) (x := []) rfl hfuel
  rw [flipped_nil] at hloop
  refine wp_listBegin hlist (wp_mono hloop ?_)
  rintro _ _ rfl
  have h₁ : (flipped L (x ++ [g])).next (.head i) = some (.elem f) := hhead.1
  have h₂ : (flipped L (x ++ [g])).prev (.tail i) = some (.elem g) := htail.2
  simp only [setPrev, setNext, wp_get, wp_modify, wp_follow, h₁, h₂]
  refine ⟨.elem g, by simp, .elem f, by simp, ?_⟩
  simp only [ne_eq, reduceCtorEq, not_false_eq_true, update_of_ne, hfnext, hgprev]
  refine h.set (isList_turned hlist hf rfl) (fun x hmem j m hne hj hx => ?_)
    fun j m n hne hj hn => ?_
  · exact hne (h.apart hj hi hx (List.mem_reverse.mp hmem))
  · have hoff := h.off hi hj hne hn
    show (turned L i (x ++ [g]) f g).next n = _ ∧ (turned L i (x ++ [g]) f g).prev n = _
    cases n with
    | head k => simp [turned, flipped, show k ≠ i from hoff]
    | tail k => simp [turned, flipped, show k ≠ i from hoff]
    | elem e =>
      have he : e ∉ x ++ [g] := hoff
      have hne : e ∉ x ∧ e ≠ f ∧ e ≠ g := by grind
      simp [turned, flipped, hne]

/-- **The calls do to the links what `Acts` says of the sequences.** The lists are in order
    after each of them, and no list but those named holds anything else than before. -/
theorem listCall_refines {c : ListCall ι ε} {r : Option (Node ι ε)} (h : Lists L q)
    (ha : Acts q c r q') :
    ∃ n, ∀ fuel ≥ n, wp (c.exec fuel) (fun r' L' => r' = r ∧ Lists L' q') L := by
  have hnone : ∀ {m : ListM ι ε Unit}, wp m (fun _ L' => Lists L' q') L →
      wp (do m; return none) (fun r' L' => r' = (none : Option (Node ι ε)) ∧ Lists L' q') L := by
    intro m hm
    rw [wp_bind]
    exact wp_mono hm fun _ L' hL => wp_pure.mpr ⟨rfl, hL⟩
  cases ha with
  | insert hi he =>
    exact ⟨0, fun _ _ => hnone (wp_listInsert (h.list hi) (he _ _ hi) (h.insert hi he))⟩
  | remove hi =>
    refine ⟨0, fun _ _ => ?_⟩
    rw [ListCall.exec, wp_bind]
    exact wp_listRemove (h.list hi) (wp_pure.mpr ⟨rfl, h.unlink hi⟩)
  | pushFront hi he => exact ⟨0, fun _ _ => hnone (listPushFront_spec h hi he)⟩
  | pushBack hi he => exact ⟨0, fun _ _ => hnone (listPushBack_spec h hi he)⟩
  | popFront hi =>
    refine ⟨0, fun _ _ => ?_⟩
    rw [ListCall.exec, wp_bind]
    exact wp_mono (listPopFront_spec h hi) fun n L' hn => wp_pure.mpr ⟨by rw [hn.1], hn.2⟩
  | popBack hi =>
    refine ⟨0, fun _ _ => ?_⟩
    rw [ListCall.exec, wp_bind, listPopBack, wp_bind]
    refine wp_listBack (h.list hi) ?_
    rw [wp_bind]
    refine wp_listRemove (m := []) (h.list hi) (wp_pure.mpr (wp_pure.mpr ⟨rfl, ?_⟩))
    simpa using h.unlink (m := []) hi
  | reverse hi => exact ⟨_, fun _ hfuel => hnone (listReverse_spec h hi hfuel)⟩
  | splice hi hj => exact ⟨0, fun _ _ => hnone (listSplice_spec h hi hj)⟩

def threeLists : Nat → Option (List Nat) :=
  update (update (update (fun _ => none) 0 (some [1, 2])) 1 (some [3, 4, 5, 6])) 2 (some [7])

/-- The elements 4 and 5 of one list go between those of another; a third one stays. -/
theorem listCall_refines_splice : ∃ L, Lists L threeLists ∧ ∃ n, ∀ fuel ≥ n,
    wp ((ListCall.splice (.elem 2) (.elem 4) (.elem 6) : ListCall Nat Nat).exec fuel)
      (fun r L' => r = none ∧
        Lists L' (update (update threeLists 1 (some [3, 6])) 0 (some [1, 4, 5, 2]))) L := by
  obtain ⟨L₀, h₀⟩ := (lists_none ⟨fun _ => none, fun _ => none⟩).exists_add 0 (c := [1, 2])
    (by decide) fun _ _ _ _ hj => by cases hj
  obtain ⟨L₁, h₁⟩ := h₀.exists_add 1 (c := [3, 4, 5, 6]) (by decide) fun e he j l hj => by
    rcases eq_or_ne j 0 with rfl | hne <;> grind
  obtain ⟨L, h⟩ := h₁.exists_add 2 (c := [7]) (by decide) fun e he j l hj => by
    grind [update_apply]
  exact ⟨L, h, listCall_refines h (.splice (i := 1) (j := 0) (l := [3]) (c := [4, 5]) (r := [6])
    (x := [1]) (y := [2]) rfl rfl)⟩

end Pintos.Kernel
