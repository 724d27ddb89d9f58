import Mathlib.Algebra.Group.Nat.Defs
import Mathlib.Data.Finset.Card
import Mathlib.Order.Defs.Unbundled
import Pintos.Kernel.List
import Pintos.Lib.Order
import Pintos.Lib.Run

/- Hash tables, `lib/kernel/hash.c`.

   The buckets are lists of `lib/kernel/list.c`: the bucket `i` of the array `a` is the list
   `(a, i)`. An array is named by its address, and what `malloc` returns for a new one is an
   argument. `hash` and `less` are any functions of the elements; what a table of elements
   is for is said with a finite set. There are fewer elements than fit in memory, so
   `elem_cnt` does not overflow and is a number here.

   Correspondence (C ↔ Lean):
     `struct hash`                                   ↔ `Hash`
     `find_bucket`, `find_elem`                      ↔ `findBucket`, `findElem`
     `insert_elem`, `remove_elem`                    ↔ `insertElem`, `removeElem`
     `turn_off_least_1bit`, `is_power_of_2`          ↔ `turnOffLeast1bit`, `isPowerOf2`
     `rehash`                                        ↔ `rehash`
     `hash_init`, `hash_insert`, `hash_replace`,
       `hash_find`, `hash_delete`, `hash_clear`      ↔ `hashInit`, …, `hashClear`
   Walks along a list count down from `elem_cnt + 1` and have no outcome at 0. -/
namespace Pintos.Kernel

open Lib Function

variable {alloc : Option Nat} {j b : Nat × Nat} {n : Nat}

structure Hash (ε : Type) where
  elemCnt : Nat
  bucketCnt : Nat
  buckets : Nat
  links : Links (Nat × Nat) ε

abbrev HashM (ε : Type) := Cmd (Hash ε)

def turnOffLeast1bit (x : Nat) : Nat := x &&& (x - 1)

def isPowerOf2 (x : Nat) : Bool := x ≠ 0 && turnOffLeast1bit x = 0

/-- The loop of `rehash` that makes a number a power of two; every turn makes it less. -/
def roundDown : (fuel x : Nat) → Nat
  | 0, x => x
  | fuel + 1, x => if isPowerOf2 x then x else roundDown fuel (turnOffLeast1bit x)

def newBucketCnt (elemCnt : Nat) : Nat :=
  let cnt := if elemCnt / 2 < 4 then 4 else elemCnt / 2
  roundDown cnt cnt

section
variable {ε : Type}

def onLinks {α : Type} (m : ListM (Nat × Nat) ε α) : HashM ε α :=
  zoom Hash.links (fun L h => { h with links := L }) m

/-- The place of an element among `cnt` buckets. -/
def bucketIdx (hash : ε → Nat) (cnt : Nat) (e : ε) : Nat := hash e &&& (cnt - 1)

def findBucket (hash : ε → Nat) (h : Hash ε) (e : ε) : Nat × Nat :=
  (h.buckets, bucketIdx hash h.bucketCnt e)

variable [DecidableEq ε] (hash : ε → Nat) (less : ε → ε → Bool)

def findElemFrom (bucket : Nat × Nat) (e : ε) :
    (fuel : Nat) → Node (Nat × Nat) ε → ListM (Nat × Nat) ε (Option ε)
  | 0, _ => follow none
  | fuel + 1, n =>
    if n = .tail bucket then return none
    else do
      let x ← listEntry n
      if !less x e && !less e x then return some x
      else do findElemFrom bucket e fuel (← listNext n)

def findElem (bucket : Nat × Nat) (e : ε) : HashM ε (Option ε) := do
  let fuel := (← get).elemCnt + 1
  onLinks (do findElemFrom less bucket e fuel (← listBegin bucket))

def initBuckets (a : Nat) : (cnt : Nat) → ListM (Nat × Nat) ε Unit
  | 0 => pure ()
  | i + 1 => do
    initBuckets a i
    listInit (a, i)

/-- The elements of an old bucket go to buckets of the array `a`. -/
def moveElems (a cnt : Nat) (old : Nat × Nat) :
    (fuel : Nat) → Node (Nat × Nat) ε → ListM (Nat × Nat) ε Unit
  | 0, _ => follow none
  | fuel + 1, n =>
    if n = .tail old then pure ()
    else do
      let e ← listEntry n
      let next ← listNext n
      let _ ← listRemove n
      listPushFront (a, bucketIdx hash cnt e) e
      moveElems a cnt old fuel next

def moveBuckets (a cnt old fuel : Nat) : (oldCnt : Nat) → ListM (Nat × Nat) ε Unit
  | 0 => pure ()
  | i + 1 => do
    moveBuckets a cnt old fuel i
    moveElems hash a cnt (old, i) fuel (← listBegin (old, i))

/-- `alloc` is the new array, if there is memory for one. -/
def rehash (alloc : Option Nat) : HashM ε Unit := do
  let h ← get
  let cnt := newBucketCnt h.elemCnt
  if cnt = h.bucketCnt then return ()
  else
    match alloc with
    | none => return ()
    | some a => do
      onLinks (initBuckets a cnt)
      modify fun h => { h with buckets := a, bucketCnt := cnt }
      onLinks (moveBuckets hash a cnt h.buckets (h.elemCnt + 1) h.bucketCnt)

def insertElem (bucket : Nat × Nat) (e : ε) : HashM ε Unit := do
  modify fun h => { h with elemCnt := h.elemCnt + 1 }
  onLinks (listPushFront bucket e)

def removeElem (e : ε) : HashM ε Unit := do
  modify fun h => { h with elemCnt := h.elemCnt - 1 }
  let _ ← onLinks (listRemove (.elem e))

def hashInsert (alloc : Option Nat) (e : ε) : HashM ε (Option ε) := do
  let bucket := findBucket hash (← get) e
  let old ← findElem less bucket e
  (match old with
    | none => insertElem bucket e
    | some _ => pure ())
  rehash hash alloc
  return old

def hashReplace (alloc : Option Nat) (e : ε) : HashM ε (Option ε) := do
  let bucket := findBucket hash (← get) e
  let old ← findElem less bucket e
  (match old with
    | none => pure ()
    | some x => removeElem x)
  insertElem bucket e
  rehash hash alloc
  return old

def hashFind (e : ε) : HashM ε (Option ε) := do
  findElem less (findBucket hash (← get) e) e

def hashDelete (alloc : Option Nat) (e : ε) : HashM ε (Option ε) := do
  let found ← findElem less (findBucket hash (← get) e) e
  (match found with
    | none => pure ()
    | some x => do
      removeElem x
      rehash hash alloc)
  return found

/-- The elements of a bucket go to the destructor, in this order. -/
def popAll (bucket : Nat × Nat) : (fuel : Nat) → ListM (Nat × Nat) ε (List ε)
  | 0 => follow none
  | fuel + 1 => do
    if listEmpty (← get) bucket then return []
    else do
      let e ← listEntry (← listPopFront bucket)
      return e :: (← popAll bucket fuel)

def clearBuckets (destructor : Bool) (a fuel : Nat) :
    (cnt : Nat) → ListM (Nat × Nat) ε (List ε)
  | 0 => return []
  | i + 1 => do
    let before ← clearBuckets destructor a fuel i
    let here ← (if destructor then popAll (a, i) fuel else pure [])
    listInit (a, i)
    return before ++ here

/-- What the destructor is called for, if there is one. -/
def hashClear (destructor : Bool) : HashM ε (List ε) := do
  let h ← get
  let l ← onLinks (clearBuckets destructor h.buckets (h.elemCnt + 1) h.bucketCnt)
  modify fun h => { h with elemCnt := 0 }
  return l

/-- `a` is the array; without memory for one there is no table. -/
def hashInit (a : Nat) : HashM ε Unit := do
  modify fun h => { h with elemCnt := 0, bucketCnt := 4, buckets := a }
  let _ ← hashClear false

end

/-! The number of buckets. -/

theorem isPowerOf2_iff (x : Nat) : isPowerOf2 x = true ↔ x.isPowerOfTwo := by
  rcases Nat.eq_zero_or_pos x with rfl | hpos
  · simpa [isPowerOf2] using fun h => absurd (Nat.pos_of_isPowerOfTwo h) (lt_irrefl 0)
  · have hne : x ≠ 0 := by omega
    rw [← Nat.and_sub_one_eq_zero_iff_isPowerOfTwo hne, isPowerOf2, Bool.and_eq_true,
      decide_eq_true_eq, decide_eq_true_eq]
    exact and_iff_right hne

/-- The highest bit stays, so a number that is at least four does. -/
theorem roundDown_spec : ∀ {fuel x : Nat}, x ≤ fuel → 4 ≤ x →
    ∃ k, 2 ≤ k ∧ roundDown fuel x = 2 ^ k
  | 0, x, hle, h4 => by omega
  | fuel + 1, x, hle, h4 => by
    rw [roundDown]
    by_cases hp : isPowerOf2 x = true
    · obtain ⟨k, hk⟩ := (isPowerOf2_iff x).mp hp
      rw [if_pos hp]
      refine ⟨k, ?_, hk⟩
      by_contra hlt
      have : 2 ^ k ≤ 2 ^ 1 := Nat.pow_le_pow_right (by decide) (by omega)
      omega
    · rw [if_neg hp]
      have hne : x ≠ 0 := by omega
      have hbit := Nat.and_sub_one_testBit_log2 hne (mt (isPowerOf2_iff x).mpr hp)
      have hlog : 2 ≤ x.log2 := (Nat.le_log2 hne).mpr h4
      have hge : 4 ≤ turnOffLeast1bit x :=
        (Nat.pow_le_pow_right (n := 2) (by decide) hlog).trans (Nat.ge_two_pow_of_testBit hbit)
      have hle' : turnOffLeast1bit x ≤ x - 1 := Nat.and_le_right
      exact roundDown_spec (by omega) hge

theorem newBucketCnt_spec (elemCnt : Nat) : ∃ k, 2 ≤ k ∧ newBucketCnt elemCnt = 2 ^ k := by
  rw [newBucketCnt]
  split
  · exact roundDown_spec le_rfl le_rfl
  · exact roundDown_spec le_rfl (by omega)

theorem bucketIdx_lt {ε : Type} (hash : ε → Nat) {cnt : Nat} (h : 0 < cnt) (e : ε) :
    bucketIdx hash cnt e < cnt := by
  have : bucketIdx hash cnt e ≤ cnt - 1 := Nat.and_le_right
  omega

/-! What a table is. -/

section
variable {ε : Type} {hash : ε → Nat} {less : ε → ε → Bool}

/-- What is asked of the two functions. -/
structure Keyed (hash : ε → Nat) (less : ε → ε → Bool) : Prop where
  order : WeakOrder less
  hash : ∀ x y, eqv less x y = true → hash x = hash y

/-- The links hold a table of the elements `S`, with the buckets `q`. -/
structure TableOf (hash : ε → Nat) (less : ε → ε → Bool) (h : Hash ε)
    (q : Nat × Nat → Option (List ε)) (S : Finset ε) : Prop where
  lists : Lists h.links q
  bucket : ∀ i < h.bucketCnt, ∃ l, q (h.buckets, i) = some l
  only : ∀ {j l}, q j = some l → j.1 = h.buckets ∧ j.2 < h.bucketCnt
  place : ∀ {j l e}, q j = some l → e ∈ l → bucketIdx hash h.bucketCnt e = j.2
  mem : ∀ {e}, e ∈ S ↔ ∃ j l, q j = some l ∧ e ∈ l
  alone : ∀ {x y}, x ∈ S → y ∈ S → eqv less x y = true → x = y
  elemCnt : h.elemCnt = S.card
  bucketCnt : ∃ k, 2 ≤ k ∧ h.bucketCnt = 2 ^ k

/-- `r` is the element of `S` that is equal to `e`, if there is one. -/
def Finds (less : ε → ε → Bool) (S : Finset ε) (e : ε) (r : Option ε) : Prop :=
  ∀ x, r = some x ↔ x ∈ S ∧ eqv less x e = true

variable {h : Hash ε} {q : Nat × Nat → Option (List ε)} {S : Finset ε} {e x : ε} {l : List ε}

section
variable (ht : TableOf hash less h q S)
include ht

theorem TableOf.cnt_pos : 0 < h.bucketCnt := by
  obtain ⟨k, -, hk⟩ := ht.bucketCnt
  rw [hk]
  exact Nat.two_pow_pos k

theorem TableOf.bucketOf (e : ε) : ∃ l, q (findBucket hash h e) = some l :=
  ht.bucket _ (bucketIdx_lt hash ht.cnt_pos e)

theorem TableOf.mem_bucket (he : e ∈ S) (hl : q (findBucket hash h e) = some l) : e ∈ l := by
  obtain ⟨j, m, hj, hm⟩ := ht.mem.mp he
  have heq : j = findBucket hash h e :=
    Prod.ext (ht.only hj).1 (ht.place hj hm).symm
  rw [heq, hl] at hj
  cases hj
  exact hm

theorem TableOf.length_le (hl : q j = some l) : l.length ≤ h.elemCnt := by
  classical
  rw [ht.elemCnt, ← List.toFinset_card_of_nodup (ht.lists.list hl).nodup]
  exact Finset.card_le_card fun e he => ht.mem.mpr ⟨j, l, hl, List.mem_toFinset.mp he⟩

theorem TableOf.loose (he : e ∉ S) : Loose q e :=
  fun j l hl hmem => he (ht.mem.mpr ⟨j, l, hl, hmem⟩)

end

theorem wp_onLinks {α : Type} {m : ListM (Nat × Nat) ε α} {Q : α → Hash ε → Prop} :
    wp (onLinks m) Q h ↔ wp m (fun r L => Q r { h with links := L }) h.links :=
  wp_zoom

theorem TableOf.setBucket (ht : TableOf hash less h q S) {l' : List ε} (hl : q j = some l)
    {L : Links (Nat × Nat) ε} (hL : Lists L (update q j (some l')))
    (hplace : ∀ x ∈ l', bucketIdx hash h.bucketCnt x = j.2) {T : Finset ε}
    (hT : ∀ x, x ∈ T ↔ x ∈ l' ∨ (x ∈ S ∧ x ∉ l)) (halone : ∀ x ∈ T, ∀ y ∈ T, eqv less x y = true → x = y)
    (hn : n = T.card) :
    TableOf hash less { h with elemCnt := n, links := L } (update q j (some l')) T := by
  refine ⟨hL, fun i hi => ?_, fun {k m} hk => ?_, fun {k m x} hk hx => ?_, fun {x} => ?_,
    fun hx hy => halone _ hx _ hy, hn, ht.bucketCnt⟩
  · grind [ht.bucket]
  · grind [ht.only]
  · grind [ht.place]
  · rw [hT, ht.mem]
    constructor
    · rintro (hx | ⟨⟨k, m, hk, hx⟩, hno⟩)
      · exact ⟨j, l', update_self .., hx⟩
      · have hne : k ≠ j := by
          rintro rfl
          cases hl.symm.trans hk
          exact hno hx
        exact ⟨k, m, by rw [update_of_ne hne]; exact hk, hx⟩
    · grind [ht.lists.apart]

variable [DecidableEq ε]

/-- What becomes of an element that is not in the table does not matter. -/
theorem TableOf.put (ht : TableOf hash less h q S) (he : e ∉ S)
    (p : Option (Node (Nat × Nat) ε) × Option (Node (Nat × Nat) ε)) :
    TableOf hash less { h with links := h.links.put e p } q S where
  lists := ht.lists.put (ht.loose he) p
  bucket := ht.bucket
  only := ht.only
  place := ht.place
  mem := ht.mem
  alone := ht.alone
  elemCnt := ht.elemCnt
  bucketCnt := ht.bucketCnt

/-! Search. -/

theorem findElemFrom_spec {L : Links (Nat × Nat) ε} :
    ∀ (m : List ε) {l : List ε} {fuel : Nat}, IsList L b (l ++ m) → m.length < fuel →
    wp (findElemFrom less b e fuel (firstNode m (.tail b)))
      (fun r L' => L' = L ∧ r = m.find? fun x => eqv less x e) L
  | [], l, fuel + 1, _, _ => by grind [firstNode, findElemFrom, wp_pure]
  | x :: m, l, fuel + 1, hl, hlen => by
    rw [firstNode, findElemFrom, if_neg (by simp), wp_bind, listEntry, wp_pure, wp_ite,
      List.find?_cons, eqv]
    refine ⟨fun hx => ?_, fun hx => ?_⟩
    · rw [wp_pure, hx]
      exact ⟨rfl, rfl⟩
    · rw [wp_bind, Bool.not_eq_true] at *
      rw [hx]
      rw [List.append_cons] at hl
      refine wp_listNext (l := l) (m := m) (by simpa using hl) ?_
      exact findElemFrom_spec m hl (by simpa using hlen)

theorem findElem_spec (hk : Keyed hash less) (ht : TableOf hash less h q S) (e : ε) :
    wp (findElem less (findBucket hash h e) e) (fun r h' => h' = h ∧ Finds less S e r) h := by
  obtain ⟨l, hl⟩ := ht.bucketOf e
  have hlist := ht.lists.list hl
  rw [findElem, wp_bind, wp_get, wp_onLinks, wp_bind]
  refine wp_listBegin hlist ?_
  refine wp_mono (findElemFrom_spec l (l := []) hlist (Nat.lt_succ_of_le (ht.length_le hl))) ?_
  rintro r L ⟨rfl, rfl⟩
  have hfound : ∀ {x}, (l.find? fun x => eqv less x e) = some x →
      x ∈ S ∧ eqv less x e = true := by
    intro x hx
    have hp := List.find?_some hx
    exact ⟨ht.mem.mpr ⟨_, l, hl, List.mem_of_find?_eq_some hx⟩, hp⟩
  refine ⟨rfl, fun x => ⟨hfound, fun ⟨hx, hsame⟩ => ?_⟩⟩
  -- The element is in this bucket, and what is found there is equal to it.
  have hb : findBucket hash h x = findBucket hash h e := by
    rw [findBucket, findBucket, bucketIdx, bucketIdx, hk.hash x e hsame]
  have hxl := ht.mem_bucket hx (hb ▸ hl)
  cases hf : l.find? fun x => eqv less x e with
  | none => exact absurd hsame (List.find?_eq_none.mp hf x hxl)
  | some y =>
    have := hk.order
    obtain ⟨hy, hys⟩ := hfound hf
    rw [ht.alone hx hy (eqv_trans hsame (eqv_comm y e ▸ hys))]

/-! Single elements. -/

theorem insertElem_spec (ht : TableOf hash less h q S) (hne : e ∉ S)
    (he : ∀ x ∈ S, ¬eqv less x e = true) : wp (insertElem (findBucket hash h e) e)
      (fun _ h' => h'.buckets = h.buckets ∧ ∃ q', TableOf hash less h' q' (insert e S)) h := by
  obtain ⟨l, hl⟩ := ht.bucketOf e
  rw [insertElem, wp_bind, wp_modify, wp_onLinks]
  refine wp_mono (listPushFront_spec ht.lists hl (ht.loose hne)) fun _ L hL => ⟨rfl, _,
    ht.setBucket hl hL (fun x hx => ?_) (fun x => ?_) (fun x hx y hy hs => ?_) ?_⟩
  · rcases List.mem_cons.mp hx with rfl | hx
    · rfl
    · exact ht.place hl hx
  · grind [ht.mem.mpr]
  · grind [eqv_comm, ht.alone]
  · rw [Finset.card_insert_of_notMem hne, ← ht.elemCnt]

theorem removeElem_spec (ht : TableOf hash less h q S) (hx : x ∈ S) :
    wp (removeElem x) (fun _ h' => (h'.buckets = h.buckets ∧ h'.bucketCnt = h.bucketCnt) ∧
      ∃ q', TableOf hash less h' q' (S.erase x)) h := by
  obtain ⟨l, hl⟩ := ht.bucketOf x
  have hxl := ht.mem_bucket hx hl
  rw [removeElem, wp_bind, wp_modify, wp_bind, wp_onLinks]
  refine wp_mono (listRemove_spec ht.lists hl hxl) fun _ L hL => wp_pure.mpr ⟨⟨rfl, rfl⟩, _,
    ht.setBucket hl hL (fun y hy => ht.place hl (List.mem_of_mem_erase hy)) (fun y => ?_)
    (fun y hy z hz => ht.alone (Finset.mem_of_mem_erase hy) (Finset.mem_of_mem_erase hz)) ?_⟩
  · have hsub : y ∈ l → y ∈ S := fun hy => ht.mem.mpr ⟨_, l, hl, hy⟩
    rw [Finset.mem_erase, (ht.lists.list hl).nodup.mem_erase_iff]
    rcases eq_or_ne y x with rfl | hne
    · simp [hxl]
    · tauto
  · rw [Finset.card_erase_of_mem hx, ← ht.elemCnt]

end

/-! Resizing. -/

section
variable {ε : Type} {hash : ε → Nat} {less : ε → ε → Bool} {h : Hash ε}
  {q : Nat × Nat → Option (List ε)} {S : Finset ε} {e : ε} {a cnt old oldCnt fuel i : Nat}
  {L : Links (Nat × Nat) ε}

/-- The first `cnt` buckets of the array `a` are empty, the others as before. -/
def cleared (q : Nat × Nat → Option (List ε)) (a cnt : Nat) : Nat × Nat → Option (List ε) :=
  fun j => if j.1 = a ∧ j.2 < cnt then some [] else q j

theorem update_cleared (q : Nat × Nat → Option (List ε)) (a i : Nat) :
    update (cleared q a i) (a, i) (some []) = cleared q a (i + 1) := by
  funext j
  obtain ⟨b, k⟩ := j
  by_cases hj : (b, k) = (a, i)
  · cases hj
    simp [cleared]
  · rw [update_of_ne hj]
    rw [Prod.mk.injEq] at hj
    exact if_congr (by dsimp only; omega) rfl rfl

theorem cleared_zero (q : Nat × Nat → Option (List ε)) (a : Nat) : cleared q a 0 = q := by
  funext j
  exact if_neg fun hj => Nat.not_lt_zero _ hj.2

/-- A list of the new state is an empty bucket or an old list. -/
theorem of_cleared {q : Nat × Nat → Option (List ε)} {l : List ε} (h : cleared q a cnt j = some l) :
    (j.1 = a ∧ j.2 < cnt ∧ l = []) ∨ q j = some l := by
  by_cases hj : j.1 = a ∧ j.2 < cnt
  · rw [cleared, if_pos hj] at h
    cases h
    exact Or.inl ⟨hj.1, hj.2, rfl⟩
  · rw [cleared, if_neg hj] at h
    exact Or.inr h

/-- Between two arrays: the buckets of the new one are in order. -/
structure Moving (hash : ε → Nat) (L : Links (Nat × Nat) ε) (q : Nat × Nat → Option (List ε))
    (a cnt old oldCnt : Nat) (S : Finset ε) : Prop where
  lists : Lists L q
  bucket : ∀ i < cnt, ∃ l, q (a, i) = some l
  only : ∀ {j l}, q j = some l → j.1 = a ∧ j.2 < cnt ∨ j.1 = old ∧ j.2 < oldCnt
  place : ∀ {i l e}, q (a, i) = some l → e ∈ l → bucketIdx hash cnt e = i
  mem : ∀ {e}, e ∈ S ↔ ∃ j l, q j = some l ∧ e ∈ l

theorem Moving.move {L' : Links (Nat × Nat) ε} (hm : Moving hash L q a cnt old oldCnt S)
    (ha : a ≠ old) {l m : List ε} (hl : q (old, i) = some (e :: l))
    (hbucket : q (a, bucketIdx hash cnt e) = some m)
    (hL : Lists L' (update (update q (old, i) (some l))
      (a, bucketIdx hash cnt e) (some (e :: m)))) :
    Moving hash L' (update (update q (old, i) (some l))
      (a, bucketIdx hash cnt e) (some (e :: m))) a cnt old oldCnt S := by
  have hne : ∀ k, (a, k) ≠ (old, i) := fun k heq => ha (congrArg Prod.fst heq)
  -- What is on the new lists, by three cases.
  have hq : ∀ {j n}, update (update q (old, i) (some l))
      (a, bucketIdx hash cnt e) (some (e :: m)) j = some n ↔
      (j = (a, bucketIdx hash cnt e) ∧ n = e :: m) ∨ (j = (old, i) ∧ n = l) ∨
      (j ≠ (a, bucketIdx hash cnt e) ∧ j ≠ (old, i) ∧ q j = some n) := by grind
  refine ⟨hL, fun k hk => ?_, fun {j n} hj => ?_, fun {k n x} hk hx => ?_, fun {x} => ?_⟩
  · grind [hm.bucket]
  · grind [hm.only]
  · grind [hm.place]
  · rw [hm.mem]
    constructor
    · rintro ⟨j, n, hj, hx⟩
      rcases eq_or_ne j (a, bucketIdx hash cnt e) with rfl | h₁
      · cases hbucket.symm.trans hj
        exact ⟨_, _, hq.mpr (Or.inl ⟨rfl, rfl⟩), List.mem_cons_of_mem _ hx⟩
      · rcases eq_or_ne j (old, i) with rfl | h₂
        · cases hl.symm.trans hj
          rcases List.mem_cons.mp hx with rfl | hx
          · exact ⟨_, _, hq.mpr (Or.inl ⟨rfl, rfl⟩), List.mem_cons_self ..⟩
          · exact ⟨_, _, hq.mpr (Or.inr (Or.inl ⟨rfl, rfl⟩)), hx⟩
        · exact ⟨j, n, hq.mpr (Or.inr (Or.inr ⟨h₁, h₂, hj⟩)), hx⟩
    · grind

theorem Moving.table {q' : Nat × Nat → Option (List ε)}
    (hm : Moving hash L q' a cnt h.buckets h.bucketCnt S) (ht : TableOf hash less h q S)
    (ha : a ≠ h.buckets) (hempty : ∀ i < h.bucketCnt, q' (h.buckets, i) = some [])
    (hcnt : ∃ k, 2 ≤ k ∧ cnt = 2 ^ k) :
    TableOf hash less { h with buckets := a, bucketCnt := cnt, links := L }
      (fun j => if j.1 = a then q' j else none) S := by
  have hq : ∀ {j l}, (if j.1 = a then q' j else none) = some l ↔ j.1 = a ∧ q' j = some l := by
    intro j l
    by_cases hj : j.1 = a <;> simp [hj]
  have hfull : ∀ {j l e}, q' j = some l → e ∈ l → j.1 = a := by
    intro j l e hj he
    rcases hm.only hj with ⟨hja, -⟩ | ⟨hjo, hlt⟩
    · exact hja
    · grind
  refine ⟨⟨fun hi => hm.lists.list (hq.mp hi).2, fun hi hj => hm.lists.apart (hq.mp hi).2
    (hq.mp hj).2⟩, fun i hi => ?_, fun {j l} hj => ?_, fun {j l e} hj he => ?_, fun {e} => ?_,
    ht.alone, ht.elemCnt, hcnt⟩
  · grind [hm.bucket]
  · grind [hm.only]
  · grind [hm.place]
  · rw [hm.mem]
    constructor
    · rintro ⟨j, l, hj, he⟩
      exact ⟨j, l, hq.mpr ⟨hfull hj he, hj⟩, he⟩
    · rintro ⟨j, l, hj, he⟩
      exact ⟨j, l, (hq.mp hj).2, he⟩

theorem table_empty (hL : Lists L (cleared q a cnt))
    (hq : ∀ {j l}, q j = some l → j.1 = a ∧ j.2 < cnt) (hcnt : ∃ k, 2 ≤ k ∧ cnt = 2 ^ k) :
    TableOf hash less ⟨0, cnt, a, L⟩ (cleared q a cnt) ∅ := by
  have hnil : ∀ {j l}, cleared q a cnt j = some l → j.1 = a ∧ j.2 < cnt ∧ l = [] := by
    grind [cleared]
  refine ⟨hL, fun i hi => ⟨[], if_pos ⟨rfl, hi⟩⟩, fun hj => ?_, fun hj he => ?_, fun {e} => ?_,
    fun hx => ?_, rfl, hcnt⟩
  · obtain ⟨h₁, h₂, -⟩ := hnil hj
    exact ⟨h₁, h₂⟩
  · obtain ⟨-, -, rfl⟩ := hnil hj
    cases he
  · grind
  · exact absurd hx (Finset.notMem_empty _)

variable [DecidableEq ε] {r : Option ε}

theorem initBuckets_spec (hL : Lists L q) (a : Nat) :
    ∀ cnt, wp (initBuckets a cnt) (fun _ L' => Lists L' (cleared q a cnt)) L
  | 0 => wp_pure.mpr (by rwa [cleared_zero])
  | i + 1 => by
    rw [initBuckets, wp_bind]
    refine wp_mono (initBuckets_spec hL a i) fun _ L' hL' => ?_
    rw [← update_cleared]
    exact listInit_spec hL' (a, i)

theorem moveElems_spec (ha : a ≠ old) (hcnt : 0 < cnt) : ∀ (l : List ε) {fuel : Nat}
    {L : Links (Nat × Nat) ε} {q : Nat × Nat → Option (List ε)}, l.length < fuel →
    Moving hash L q a cnt old oldCnt S → q (old, i) = some l →
    wp (moveElems hash a cnt (old, i) fuel (firstNode l (.tail (old, i))))
      (fun _ L' => ∃ q', Moving hash L' q' a cnt old oldCnt S ∧ q' (old, i) = some [] ∧
        ∀ k ≠ i, q' (old, k) = q (old, k)) L
  | [], fuel + 1, L, q, _, hm, hl => by grind [firstNode, moveElems, wp_pure]
  | e :: l, fuel + 1, L, q, hlen, hm, hl => by
    obtain ⟨m, hbucket⟩ := hm.bucket _ (bucketIdx_lt hash hcnt e)
    have hlist := hm.lists.list hl
    have hne : (a, bucketIdx hash cnt e) ≠ (old, i) := fun heq => ha (congrArg Prod.fst heq)
    rw [firstNode, moveElems, if_neg (by simp), wp_bind, listEntry, wp_pure, wp_bind]
    refine wp_listNext (l := []) hlist ?_
    rw [wp_bind]
    refine wp_mono (listRemove_spec hm.lists hl (List.mem_cons_self ..)) fun _ L₁ hL₁ => ?_
    rw [List.erase_cons_head] at hL₁
    have hloose : Loose (update q (old, i) (some l)) e := by
      intro j n hj hn
      rcases eq_or_ne j (old, i) with rfl | hj'
      · grind [hlist.nodup]
      · grind [hm.lists.apart]
    rw [wp_bind]
    refine wp_mono (listPushFront_spec hL₁ ((update_of_ne hne ..).trans hbucket) hloose)
      fun _ L₂ hL₂ => ?_
    refine wp_mono (moveElems_spec ha hcnt l (by simpa using hlen) (hm.move ha hl hbucket hL₂) ?_) ?_
    · rw [update_of_ne hne.symm, update_self]
    · grind

theorem moveBuckets_spec (ha : a ≠ old) (hcnt : 0 < cnt) (hm : Moving hash L q a cnt old oldCnt S)
    (hlen : ∀ i l, q (old, i) = some l → l.length < fuel) :
    ∀ n, (∀ i < n, ∃ l, q (old, i) = some l) → wp (moveBuckets hash a cnt old fuel n)
      (fun _ L' => ∃ q', Moving hash L' q' a cnt old oldCnt S ∧
        (∀ i < n, q' (old, i) = some []) ∧ ∀ i, n ≤ i → q' (old, i) = q (old, i)) L
  | 0, _ => wp_pure.mpr ⟨q, hm, fun i hi => absurd hi (Nat.not_lt_zero i), fun _ _ => rfl⟩
  | n + 1, hall => by
    rw [moveBuckets, wp_bind]
    refine wp_mono (moveBuckets_spec ha hcnt hm hlen n fun i hi => hall i (by omega)) ?_
    rintro _ L₁ ⟨q₁, hm₁, hdone, hsame⟩
    obtain ⟨l, hl⟩ := hall n (Nat.lt_succ_self n)
    have hl₁ : q₁ (old, n) = some l := (hsame n le_rfl).trans hl
    rw [wp_bind]
    refine wp_listBegin (hm₁.lists.list hl₁) ?_
    refine wp_mono (moveElems_spec ha hcnt l (hlen n l hl) hm₁ hl₁) ?_
    rintro _ L₂ ⟨q₂, hm₂, hempty, hsame₂⟩
    refine ⟨q₂, hm₂, fun i hi => ?_, fun i hi => ?_⟩
    · grind
    · rw [hsame₂ i (by omega)]
      exact hsame i (by omega)

theorem rehash_spec (ht : TableOf hash less h q S)
    (halloc : alloc ≠ some h.buckets) :
    wp (rehash hash alloc) (fun _ h' => ∃ q', TableOf hash less h' q' S) h := by
  obtain ⟨k, hk, hcnt⟩ := newBucketCnt_spec h.elemCnt
  generalize hc : newBucketCnt h.elemCnt = cnt at hcnt
  simp only [rehash, wp_bind, wp_get, hc]
  rw [wp_ite]
  refine ⟨fun _ => wp_pure.mpr ⟨q, ht⟩, fun _ => ?_⟩
  cases alloc with
  | none => exact wp_pure.mpr ⟨q, ht⟩
  | some a =>
    have ha : a ≠ h.buckets := fun heq => halloc (congrArg some heq)
    have hpos : 0 < cnt := by rw [hcnt]; exact Nat.two_pow_pos k
    simp only [wp_bind]
    rw [wp_onLinks]
    refine wp_mono (initBuckets_spec ht.lists a cnt) fun _ L hL => ?_
    rw [wp_modify, wp_onLinks]
    have hold : ∀ i, cleared q a cnt (h.buckets, i) = q (h.buckets, i) := fun i =>
      if_neg fun hand => ha hand.1.symm
    have hm : Moving hash L (cleared q a cnt) a cnt h.buckets h.bucketCnt S := by
      refine ⟨hL, fun i hi => ⟨[], if_pos ⟨rfl, hi⟩⟩, fun {j l} hj => ?_, fun {i l e} hi he => ?_,
        fun {e} => ?_⟩
      · rcases of_cleared hj with ⟨h₁, h₂, -⟩ | hj
        · exact Or.inl ⟨h₁, h₂⟩
        · exact Or.inr (ht.only hj)
      · rcases of_cleared hi with ⟨-, -, rfl⟩ | hi
        · cases he
        · exact absurd (ht.only hi).1 ha
      · rw [ht.mem]
        constructor
        · rintro ⟨j, l, hj, he⟩
          refine ⟨j, l, ?_, he⟩
          rw [← hj, ← Prod.eta j, (ht.only hj).1, hold]
        · rintro ⟨j, l, hj, he⟩
          rcases of_cleared hj with ⟨-, -, rfl⟩ | hj
          · cases he
          · exact ⟨j, l, hj, he⟩
    have hlen : ∀ i l, cleared q a cnt (h.buckets, i) = some l → l.length < h.elemCnt + 1 := by
      intro i l hl
      rw [hold] at hl
      exact Nat.lt_succ_of_le (ht.length_le hl)
    refine wp_mono (moveBuckets_spec ha hpos hm hlen h.bucketCnt fun i hi => ?_) ?_
    · rw [hold]
      exact ht.bucket i hi
    · rintro _ L' ⟨q', hm', hempty, -⟩
      exact ⟨_, hm'.table ht ha hempty ⟨k, hk, hcnt⟩⟩

/-! Clearing. -/

theorem popAll_spec : ∀ (l : List ε) {fuel : Nat} {L : Links (Nat × Nat) ε}
    {q : Nat × Nat → Option (List ε)}, l.length < fuel → Lists L q → q b = some l →
    wp (popAll b fuel) (fun r L' => r = l ∧ Lists L' (update q b (some []))) L
  | [], fuel + 1, L, q, _, hL, hl => by
    rw [popAll, wp_bind, wp_get, listEmpty_eq (hL.list hl), if_pos (decide_eq_true rfl), wp_pure,
      ← hl, update_eq_self]
    exact ⟨rfl, hL⟩
  | e :: l, fuel + 1, L, q, hlen, hL, hl => by
    rw [popAll, wp_bind, wp_get, listEmpty_eq (hL.list hl),
      if_neg (by simp), wp_bind]
    refine wp_mono (listPopFront_spec hL hl) ?_
    rintro _ L₁ ⟨rfl, hL₁⟩
    rw [wp_bind, listEntry, wp_pure, wp_bind]
    refine wp_mono (popAll_spec l (by simpa using hlen) hL₁ (update_self ..)) ?_
    rintro _ L₂ ⟨rfl, hL₂⟩
    rw [update_idem] at hL₂
    exact wp_pure.mpr ⟨rfl, hL₂⟩

/-- The elements that have been taken out of the first `n` buckets. -/
def Emptied (q : Nat × Nat → Option (List ε)) (a n : Nat) (r : List ε) : Prop :=
  r.Nodup ∧ ∀ e, e ∈ r ↔ ∃ i < n, ∃ l, q (a, i) = some l ∧ e ∈ l

omit [DecidableEq ε] in
theorem Emptied.append {r l : List ε} (hr : Emptied q a n r) (hL : Lists L q)
    (hl : q (a, n) = some l) : Emptied q a (n + 1) (r ++ l) := by
  obtain ⟨hnd, hmem⟩ := hr
  refine ⟨List.nodup_append'.mpr ⟨hnd, (hL.list hl).nodup, fun e he he' => ?_⟩, fun e => ?_⟩
  · grind [hL.apart]
  · grind

theorem clearBuckets_spec (destructor : Bool) (hL : Lists L q)
    (hlen : ∀ i l, q (a, i) = some l → l.length < fuel) :
    ∀ n, (destructor = true → ∀ i < n, ∃ l, q (a, i) = some l) →
      wp (clearBuckets destructor a fuel n)
        (fun r L' => Lists L' (cleared q a n) ∧ (destructor = true → Emptied q a n r)) L
  | 0, _ => wp_pure.mpr ⟨by rwa [cleared_zero], fun _ => ⟨List.nodup_nil, by simp⟩⟩
  | n + 1, hall => by
    rw [clearBuckets, wp_bind]
    refine wp_mono (clearBuckets_spec destructor hL hlen n fun hd i hi =>
      hall hd i (by omega)) ?_
    rintro r L₁ ⟨hL₁, hr⟩
    -- With or without a destructor, the bucket is then initialised.
    have hhere : wp (if destructor = true then popAll (a, n) fuel else pure [])
        (fun r' L' => (∃ q', Lists L' q' ∧
          update q' (a, n) (some []) = cleared q a (n + 1)) ∧
          (destructor = true → Emptied q a (n + 1) (r ++ r'))) L₁ := by
      rw [wp_ite]
      refine ⟨fun hd => ?_, fun hno => wp_pure.mpr ⟨⟨_, hL₁, update_cleared q a n⟩,
        fun hd => absurd hd hno⟩⟩
      obtain ⟨l, hl⟩ := hall hd n (Nat.lt_succ_self n)
      have hl₁ : cleared q a n (a, n) = some l :=
        (if_neg fun hand => Nat.lt_irrefl n hand.2).trans hl
      refine wp_mono (popAll_spec l (hlen n l hl) hL₁ hl₁) ?_
      rintro _ L₂ ⟨rfl, hL₂⟩
      exact ⟨⟨_, hL₂, by rw [update_idem, update_cleared]⟩,
        fun _ => (hr hd).append hL hl⟩
    rw [wp_bind]
    refine wp_mono hhere ?_
    rintro r' L₂ ⟨⟨q', hL₂, hq'⟩, hr'⟩
    rw [wp_bind]
    refine wp_mono (listInit_spec hL₂ (a, n)) fun _ L₃ hL₃ => wp_pure.mpr ⟨?_, hr'⟩
    rwa [hq'] at hL₃

theorem hashClear_spec (ht : TableOf hash less h q S) (destructor : Bool) :
    wp (hashClear destructor) (fun r h' => (∃ q', TableOf hash less h' q' ∅) ∧
      (destructor = true → r.Nodup ∧ ∀ e, e ∈ r ↔ e ∈ S)) h := by
  rw [hashClear, wp_bind, wp_get, wp_bind, wp_onLinks]
  refine wp_mono (clearBuckets_spec destructor ht.lists
    (fun i l hl => Nat.lt_succ_of_le (ht.length_le hl)) h.bucketCnt fun _ => ht.bucket) ?_
  rintro r L ⟨hL, hr⟩
  rw [wp_bind, wp_modify, wp_pure]
  refine ⟨⟨_, table_empty hL ht.only ht.bucketCnt⟩, fun hd => ⟨(hr hd).1, fun e => ?_⟩⟩
  rw [(hr hd).2, ht.mem]
  constructor
  · rintro ⟨i, -, l, hl, he⟩
    exact ⟨_, l, hl, he⟩
  · rintro ⟨j, l, hj, he⟩
    obtain ⟨hja, hlt⟩ := ht.only hj
    exact ⟨j.2, hlt, l, by rw [← hja]; exact hj, he⟩

theorem hashInit_spec (h : Hash ε) (a : Nat) :
    wp (hashInit a) (fun _ h' => ∃ q', TableOf hash less h' q' ∅) h := by
  rw [hashInit, wp_bind, wp_modify, wp_bind, hashClear, wp_bind, wp_get, wp_bind, wp_onLinks]
  refine wp_mono (clearBuckets_spec false (lists_none h.links) (fun i l hl => by cases hl) 4
    fun hno => by cases hno) ?_
  rintro r L ⟨hL, -⟩
  rw [wp_bind, wp_modify, wp_pure, wp_pure]
  exact ⟨_, table_empty hL (fun hj => by cases hj) ⟨2, le_rfl, rfl⟩⟩

/-! The functions of the table. -/

/-- The set without what was found. -/
def without (S : Finset ε) : Option ε → Finset ε
  | none => S
  | some x => S.erase x

theorem hashFind_spec (hk : Keyed hash less) (ht : TableOf hash less h q S) (e : ε) :
    wp (hashFind hash less e) (fun r h' => h' = h ∧ Finds less S e r) h := by
  rw [hashFind, wp_bind, wp_get]
  exact findElem_spec hk ht e

omit [DecidableEq ε] in
theorem Finds.new (hk : Keyed hash less) (hf : Finds less S e none) :
    e ∉ S ∧ ∀ x ∈ S, ¬eqv less x e = true := by
  have hno : ∀ x ∈ S, ¬eqv less x e = true := fun x hx hs => by cases (hf x).mpr ⟨hx, hs⟩
  have := hk.order
  exact ⟨fun he => hno e he (eqv_self e), hno⟩

theorem Finds.without (hk : Keyed hash less) (hf : Finds less S e r) :
    e ∉ without S r ∧ ∀ x ∈ without S r, ¬eqv less x e = true := by
  cases r with
  | none => exact hf.new hk
  | some x =>
    have hno : ∀ y ∈ S.erase x, ¬eqv less y e = true := fun y hy hs => by
      cases (hf y).mpr ⟨Finset.mem_of_mem_erase hy, hs⟩
      exact Finset.notMem_erase x S hy
    have := hk.order
    exact ⟨fun he => hno e he (eqv_self e), hno⟩

theorem hashInsert_spec (hk : Keyed hash less) (ht : TableOf hash less h q S)
    (halloc : alloc ≠ some h.buckets) (e : ε) :
    wp (hashInsert hash less alloc e) (fun r h' => Finds less S e r ∧
      ∃ q', TableOf hash less h' q' (match r with | none => insert e S | some _ => S)) h := by
  simp only [hashInsert, wp_bind, wp_get]
  refine wp_mono (findElem_spec hk ht e) ?_
  rintro r _ ⟨rfl, hf⟩
  cases r with
  | none =>
    obtain ⟨hne, hno⟩ := hf.new hk
    refine wp_mono (insertElem_spec ht hne hno) ?_
    rintro _ h₁ ⟨hb, q₁, ht₁⟩
    refine wp_mono (rehash_spec ht₁ (hb ▸ halloc)) fun _ h₂ ht₂ => ?_
    exact wp_pure.mpr ⟨hf, ht₂⟩
  | some x => grind [wp_pure, rehash_spec]

theorem hashReplace_spec (hk : Keyed hash less) (ht : TableOf hash less h q S)
    (halloc : alloc ≠ some h.buckets) (e : ε) :
    wp (hashReplace hash less alloc e) (fun r h' => Finds less S e r ∧
      ∃ q', TableOf hash less h' q' (insert e (without S r))) h := by
  simp only [hashReplace, wp_bind, wp_get]
  refine wp_mono (findElem_spec hk ht e) ?_
  rintro r h₀ ⟨hsame, hf⟩
  rw [hsame]
  have hgone : wp (match r with
      | none => pure ()
      | some x => removeElem x)
      (fun _ h' => (h'.buckets = h.buckets ∧ h'.bucketCnt = h.bucketCnt) ∧
        ∃ q', TableOf hash less h' q' (without S r)) h := by
    cases r with
    | none => exact wp_pure.mpr ⟨⟨rfl, rfl⟩, q, ht⟩
    | some x => exact removeElem_spec ht ((hf x).mp rfl).1
  refine wp_mono hgone ?_
  rintro _ h₁ ⟨⟨hb, hc⟩, q₁, ht₁⟩
  obtain ⟨hne, hno⟩ := hf.without hk
  have hbucket : findBucket hash h e = findBucket hash h₁ e := by
    rw [findBucket, findBucket, hb, hc]
  rw [hbucket]
  refine wp_mono (insertElem_spec ht₁ hne hno) ?_
  rintro _ h₂ ⟨hb₂, q₂, ht₂⟩
  refine wp_mono (rehash_spec ht₂ (by rwa [hb₂, hb])) fun _ h₃ ht₃ => ?_
  exact wp_pure.mpr ⟨hf, ht₃⟩

omit [DecidableEq ε] in
theorem Finds.self (hk : Keyed hash less) (hf : Finds less S e r) (he : e ∈ S) :
    r = some e :=
  have := hk.order
  (hf e).mpr ⟨he, eqv_self e⟩

theorem hashDelete_spec (hk : Keyed hash less) (ht : TableOf hash less h q S)
    (halloc : alloc ≠ some h.buckets) (e : ε) :
    wp (hashDelete hash less alloc e) (fun r h' => Finds less S e r ∧
      ∃ q', TableOf hash less h' q' (without S r)) h := by
  simp only [hashDelete, wp_bind, wp_get]
  refine wp_mono (findElem_spec hk ht e) ?_
  rintro r _ ⟨rfl, hf⟩
  cases r with
  | none => exact wp_pure.mpr (wp_pure.mpr ⟨hf, q, ht⟩)
  | some x =>
    rw [wp_bind]
    refine wp_mono (removeElem_spec ht ((hf x).mp rfl).1) ?_
    rintro _ h₁ ⟨⟨hb, -⟩, q₁, ht₁⟩
    refine wp_mono (rehash_spec ht₁ (hb ▸ halloc)) fun _ h₂ ht₂ => ?_
    exact wp_pure.mpr ⟨hf, ht₂⟩

end

end Pintos.Kernel
