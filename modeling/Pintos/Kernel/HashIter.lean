import Pintos.Kernel.HashRuns

/- Walks through a hash table, `hash_first`, `hash_next`, `hash_cur` and `hash_apply`.

   An iterator is at a node of a bucket and goes from there through the rest of the
   bucket and the buckets after it. `hash_first` puts it at the head of the first bucket,
   which is no element: `hash_cur` is for after `hash_next`. `Ahead` says which elements
   are still to come; `hash_next` goes to the first of them (`hashNext_spec`), so that the
   loop around it sees what `hash_apply` sees, each element once (`hashNext_visits`). How
   the elements are spread over the buckets does not matter (`Spread`).

   Correspondence (C ↔ Lean):
     `struct hash_iterator`                 ↔ `HashIterator`, without the table
     `list_head (i->bucket)`, an element    ↔ the nodes of `lib/kernel/list.c`
     `hash_first`, `hash_next`, `hash_cur`  ↔ `hashFirst`, `hashNext`, `hashCur`
     `hash_apply`, its two loops            ↔ `hashApply`, `applyFrom`, `applyBucket`
   An action is a change of what the caller keeps; it does not touch the table. -/
namespace Pintos.Kernel

open Lib Function

/-- `bucket` is an index into the array, and `elem` is `none` at the end of the table. -/
structure HashIterator (ε : Type) where
  bucket : Nat
  elem : Option (Node (Nat × Nat) ε)

section
variable {ε : Type}

def hashFirst (h : Hash ε) : HashIterator ε := ⟨0, some (.head (h.buckets, 0))⟩

def hashCur (i : HashIterator ε) : Option (Node (Nat × Nat) ε) := i.elem

variable [DecidableEq ε]

/-- The loop of `hash_next`: from the end of a bucket to the start of the next one. -/
def leaveEnds (h : Hash ε) : (fuel bucket : Nat) → Node (Nat × Nat) ε →
    ListM (Nat × Nat) ε (HashIterator ε)
  | 0, _, _ => follow none
  | fuel + 1, bucket, n =>
    if n = .tail (h.buckets, bucket) then
      if h.bucketCnt ≤ bucket + 1 then return ⟨bucket + 1, none⟩
      else do leaveEnds h fuel (bucket + 1) (← listBegin (h.buckets, bucket + 1))
    else return ⟨bucket, some n⟩

/-- Each turn of the loop leaves a bucket behind. -/
def hashNext (i : HashIterator ε) : HashM ε (HashIterator ε) := do
  let h ← get
  let n ← follow i.elem
  onLinks (do leaveEnds h (h.bucketCnt + 1) i.bucket (← listNext n))

/-- `while (hash_next (&i))`, with what `hash_cur` gives in each turn. -/
def hashVisits : (fuel : Nat) → HashIterator ε → HashM ε (List (Node (Nat × Nat) ε))
  | 0, _ => follow none
  | fuel + 1, i => do
    let i ← hashNext i
    match hashCur i with
    | none => return []
    | some n => return n :: (← hashVisits fuel i)

section
variable {σ : Type} (action : ε → σ → σ)

/-- The next node is read before the action. -/
def applyBucket (j : Nat × Nat) : (fuel : Nat) → Node (Nat × Nat) ε → σ → HashM ε σ
  | 0, _, _ => follow none
  | fuel + 1, n, s =>
    if n = .tail j then return s
    else do
      let next ← onLinks (listNext n)
      let e ← onLinks (listEntry n)
      applyBucket j fuel next (action e s)

def applyFrom (fuel : Nat) : (cnt i : Nat) → σ → HashM ε σ
  | 0, _, s => return s
  | cnt + 1, i, s => do
    let j := ((← get).buckets, i)
    let s ← applyBucket action j fuel (← onLinks (listBegin j)) s
    applyFrom fuel cnt (i + 1) s

def hashApply (fuel : Nat) (s : σ) : HashM ε σ := do
  applyFrom action fuel (← get).bucketCnt 0 s

end

end

/-! What is still to come. -/

section
variable {ε : Type} {hash : ε → Nat} {less : ε → ε → Bool} {h : Hash ε}
  {q : Nat × Nat → Option (List ε)} {S : Finset ε}

/-- The table has buckets, and each of them is a list in order. -/
structure Spread (h : Hash ε) (q : Nat × Nat → Option (List ε)) : Prop where
  lists : Lists h.links q
  bucket : ∀ i < h.bucketCnt, ∃ l, q (h.buckets, i) = some l
  cnt_pos : 0 < h.bucketCnt

theorem TableOf.spread (ht : TableOf hash less h q S) : Spread h q :=
  ⟨ht.lists, ht.bucket, ht.cnt_pos⟩

/-- The elements of the `n` buckets of the array `a` from `b` on, in order. -/
def elemsFrom (q : Nat × Nat → Option (List ε)) (a b n : Nat) : List ε :=
  (List.range' b n).flatMap fun i => (q (a, i)).getD []

theorem elemsFrom_succ {a b n : Nat} {l : List ε} (hl : q (a, b) = some l) :
    elemsFrom q a b (n + 1) = l ++ elemsFrom q a (b + 1) n := by
  rw [elemsFrom, List.range'_succ, List.flatMap_cons, hl]
  rfl

def elems (h : Hash ε) (q : Nat × Nat → Option (List ε)) : List ε :=
  elemsFrom q h.buckets 0 h.bucketCnt

/-- The iterator is at a node of its bucket, and `r` comes after it. -/
def Ahead (h : Hash ε) (q : Nat × Nat → Option (List ε)) (i : HashIterator ε) (r : List ε) : Prop :=
  i.bucket < h.bucketCnt ∧ ∃ l m, q (h.buckets, i.bucket) = some (l ++ m) ∧
    i.elem = some (lastNode (.head (h.buckets, i.bucket)) l) ∧
    r = m ++ elemsFrom q h.buckets (i.bucket + 1) (h.bucketCnt - (i.bucket + 1))

/-- With the elements `r` to come, the iterator has gone to the first of them. -/
def Arrives (h : Hash ε) (q : Nat × Nat → Option (List ε)) (r : List ε) (i : HashIterator ε) :
    Prop :=
  match r with
  | [] => i.elem = none
  | e :: r => i.elem = some (.elem e) ∧ Ahead h q i r

theorem Spread.mem_elems (ht : Spread h q) {e : ε} :
    e ∈ elems h q ↔ ∃ i < h.bucketCnt, ∃ l, q (h.buckets, i) = some l ∧ e ∈ l := by
  rw [elems, elemsFrom, List.mem_flatMap]
  grind [ht.bucket]

theorem TableOf.mem_elems (ht : TableOf hash less h q S) {e : ε} : e ∈ elems h q ↔ e ∈ S := by
  rw [ht.spread.mem_elems, ht.mem]
  constructor
  · rintro ⟨i, -, l, hl, he⟩
    exact ⟨_, l, hl, he⟩
  · rintro ⟨j, l, hl, he⟩
    obtain ⟨ha, hlt⟩ := ht.only hl
    exact ⟨j.2, hlt, l, ha ▸ hl, he⟩

theorem Spread.nodup_elems (ht : Spread h q) : (elems h q).Nodup := by
  rw [elems, elemsFrom, List.nodup_flatMap]
  have hget : ∀ {i : Nat} {e : ε}, e ∈ (q (h.buckets, i)).getD [] →
      ∃ l, q (h.buckets, i) = some l ∧ e ∈ l := by
    intro i e he
    cases hl : q (h.buckets, i) with
    | none => rw [hl] at he; cases he
    | some l => rw [hl] at he; exact ⟨l, rfl, he⟩
  constructor
  · intro i _
    cases hl : q (h.buckets, i) with
    | none => exact List.nodup_nil
    | some l => exact (ht.lists.list hl).nodup
  · refine List.Nodup.pairwise_of_forall_ne List.nodup_range' ?_
    intro i _ j _ hij e hi hj
    obtain ⟨l, hl, hel⟩ := hget hi
    obtain ⟨m, hm, hem⟩ := hget hj
    exact hij (congrArg Prod.snd (ht.lists.apart hl hm hel hem))

theorem Spread.hashFirst_ahead (ht : Spread h q) :
    Ahead h q (hashFirst h) (elems h q) := by
  obtain ⟨l, hl⟩ := ht.bucket 0 ht.cnt_pos
  refine ⟨ht.cnt_pos, [], l, hl, rfl, ?_⟩
  obtain ⟨n, hn⟩ : ∃ n, h.bucketCnt = n + 1 := ⟨h.bucketCnt - 1, by have := ht.cnt_pos; omega⟩
  rw [elems, hn]
  exact elemsFrom_succ hl

variable [DecidableEq ε]

/-- From a node of a bucket that is not its head: either it is an element, or the loop
    goes on to the next bucket. -/
theorem leaveEnds_spec (ht : Spread h q) : ∀ {fuel b : Nat} {l m : List ε},
    h.bucketCnt < fuel + b → b < h.bucketCnt → q (h.buckets, b) = some (l ++ m) →
    wp (leaveEnds h fuel b (firstNode m (.tail (h.buckets, b))))
      (fun i L => L = h.links ∧
        Arrives h q (m ++ elemsFrom q h.buckets (b + 1) (h.bucketCnt - (b + 1))) i) h.links
  | 0, b, l, m, hfuel, hb, _ => absurd hb (by omega)
  | fuel + 1, b, l, [], hfuel, hb, hl => by
    rw [firstNode, leaveEnds, if_pos rfl, List.nil_append]
    by_cases hlast : h.bucketCnt ≤ b + 1
    · rw [if_pos hlast, wp_pure, show h.bucketCnt - (b + 1) = 0 by omega]
      exact ⟨rfl, rfl⟩
    · rw [if_neg hlast, wp_bind]
      obtain ⟨m, hm⟩ := ht.bucket (b + 1) (by omega)
      refine wp_listBegin (ht.lists.list hm) ?_
      have hfuel' : h.bucketCnt < fuel + (b + 1) := by omega
      have hnext := leaveEnds_spec ht (l := []) (m := m) hfuel' (by omega) hm
      rw [show h.bucketCnt - (b + 1) = h.bucketCnt - (b + 1 + 1) + 1 by omega, elemsFrom_succ hm]
      exact hnext
  | fuel + 1, b, l, e :: m, hfuel, hb, hl => by
    rw [firstNode, leaveEnds, if_neg (by simp), wp_pure]
    refine ⟨rfl, rfl, hb, l ++ [e], m, ?_, ?_, rfl⟩
    · rw [List.append_assoc]
      exact hl
    · rw [lastNode_append]

/-- **`hash_next` goes to the next element**, and to the end when there is none. -/
theorem hashNext_spec (ht : Spread h q) {i : HashIterator ε} {r : List ε}
    (hi : Ahead h q i r) :
    wp (hashNext i) (fun i' h' => h' = h ∧ Arrives h q r i') h := by
  obtain ⟨hb, l, m, hl, helem, rfl⟩ := hi
  have hlist := ht.lists.list hl
  rw [hashNext, wp_bind, wp_get, wp_bind, wp_follow]
  refine ⟨_, helem, ?_⟩
  rw [wp_onLinks, wp_bind]
  refine wp_listNext_lastNode hlist (wp_mono (leaveEnds_spec ht (by omega) hb hl) ?_)
  rintro i' L ⟨rfl, harrives⟩
  exact ⟨rfl, harrives⟩

theorem hashVisits_spec (ht : Spread h q) : ∀ (r : List ε) {i : HashIterator ε} {fuel : Nat},
    Ahead h q i r → r.length < fuel →
    wp (hashVisits fuel i) (fun v h' => h' = h ∧ v = r.map .elem) h
  | r, i, fuel + 1, hi, hfuel => by
    rw [hashVisits, wp_bind]
    refine wp_mono (hashNext_spec ht hi) ?_
    rintro i' _ ⟨hh, harrives⟩
    rw [hh]
    cases r with
    | nil =>
      rw [hashCur, show i'.elem = none from harrives]
      exact wp_pure.mpr ⟨rfl, rfl⟩
    | cons e r =>
      rw [hashCur, harrives.1]
      dsimp only
      rw [wp_bind]
      refine wp_mono (hashVisits_spec ht r harrives.2 (Nat.lt_of_succ_lt_succ hfuel)) ?_
      rintro v _ ⟨hh, hv⟩
      exact wp_pure.mpr ⟨hh, by rw [hv]; rfl⟩

variable {σ : Type} {action : ε → σ → σ}

theorem applyBucket_spec {j : Nat × Nat} : ∀ (m : List ε) {l : List ε} {fuel : Nat} {s : σ},
    IsList h.links j (l ++ m) → m.length < fuel →
    wp (applyBucket action j fuel (firstNode m (.tail j)) s)
      (fun s' h' => h' = h ∧ s' = m.foldl (fun s e => action e s) s) h
  | [], l, fuel + 1, s, _, _ => by
    rw [firstNode, applyBucket, if_pos rfl]
    exact wp_pure.mpr ⟨rfl, rfl⟩
  | e :: m, l, fuel + 1, s, hl, hfuel => by
    rw [firstNode, applyBucket, if_neg (by simp), wp_bind, wp_onLinks]
    refine wp_listNext hl ?_
    rw [wp_bind, wp_onLinks]
    refine wp_pure.mpr ?_
    exact applyBucket_spec m (l := l ++ [e]) (by simpa using hl) (Nat.lt_of_succ_lt_succ hfuel)

theorem applyFrom_spec (ht : Spread h q) {fuel : Nat}
    (hfuel : ∀ i < h.bucketCnt, ∀ l, q (h.buckets, i) = some l → l.length < fuel) :
    ∀ (cnt i : Nat) {s : σ}, i + cnt = h.bucketCnt →
    wp (applyFrom action fuel cnt i s)
      (fun s' h' => h' = h ∧ s' = (elemsFrom q h.buckets i cnt).foldl (fun s e => action e s) s) h
  | 0, i, s, _ => wp_pure.mpr ⟨rfl, rfl⟩
  | cnt + 1, i, s, hcnt => by
    obtain ⟨l, hl⟩ := ht.bucket i (by omega)
    rw [applyFrom, wp_bind, wp_get, wp_bind, wp_onLinks]
    refine wp_listBegin (ht.lists.list hl) ?_
    rw [wp_bind]
    refine wp_mono (applyBucket_spec l (l := []) (ht.lists.list hl) (hfuel i (by omega) l hl)) ?_
    rintro s' _ ⟨hh, hs⟩
    rw [hh, elemsFrom_succ hl, List.foldl_append, ← hs]
    exact applyFrom_spec ht hfuel cnt (i + 1) (by omega)

/-- **`hash_next` visits every element once**, whatever bucket it is in, and nothing but
    elements; `hash_apply` visits the same. -/
theorem hashNext_visits (ht : Spread h q) :
    (elems h q).Nodup ∧
    (∀ e, e ∈ elems h q ↔ ∃ i < h.bucketCnt, ∃ l, q (h.buckets, i) = some l ∧ e ∈ l) ∧
    ∃ n, ∀ fuel ≥ n,
      wp (hashVisits fuel (hashFirst h)) (fun v h' => h' = h ∧ v = (elems h q).map .elem) h ∧
      ∀ {σ : Type} (action : ε → σ → σ) (s : σ),
        wp (hashApply action fuel s)
          (fun s' h' => h' = h ∧ s' = (elems h q).foldl (fun s e => action e s) s) h := by
  refine ⟨ht.nodup_elems, fun _ => ht.mem_elems, (elems h q).length + 1, fun fuel hfuel => ⟨
    hashVisits_spec ht _ ht.hashFirst_ahead hfuel, fun action s => ?_⟩⟩
  rw [hashApply, wp_bind, wp_get]
  refine applyFrom_spec ht (fun i hi l hl => ?_) h.bucketCnt 0 (Nat.zero_add _)
  have hsub := (ht.lists.list hl).nodup.subperm fun e he => ht.mem_elems.mpr ⟨i, hi, l, hl, he⟩
  exact Nat.lt_of_le_of_lt hsub.length_le hfuel

/-- Four buckets, one of them empty. -/
def fourBuckets : Nat × Nat → Option (List Nat) :=
  update (update (update (update (fun _ => none) (0, 0) (some [7, 2])) (0, 1) (some []))
    (0, 2) (some [4, 9, 1])) (0, 3) (some [6])

theorem hashNext_visits_four : ∃ L, Lists L fourBuckets ∧ ∃ n, ∀ fuel ≥ n,
    wp (hashVisits fuel (hashFirst ⟨6, 4, 0, L⟩)) (fun v h => h = ⟨6, 4, 0, L⟩ ∧
      v = [.elem 7, .elem 2, .elem 4, .elem 9, .elem 1, .elem 6]) ⟨6, 4, 0, L⟩ := by
  obtain ⟨L₀, h₀⟩ := (lists_none ⟨fun _ => none, fun _ => none⟩).exists_add (0, 0) (c := [7, 2])
    (by decide) fun _ _ _ _ hj => by cases hj
  obtain ⟨L₁, h₁⟩ := (h₀.clear (0, 1)).exists_add (0, 2) (c := [4, 9, 1]) (by decide)
    fun e he j l hj => by grind [update_apply]
  obtain ⟨L, h⟩ := h₁.exists_add (0, 3) (c := [6]) (by decide) fun e he j l hj => by
    grind [update_apply]
  have hbuckets : ∀ i < 4, (fourBuckets (0, i)).isSome = true := by decide
  have hs : Spread ⟨6, 4, 0, L⟩ fourBuckets :=
    ⟨h, fun i hi => Option.isSome_iff_exists.mp (hbuckets i hi), Nat.zero_lt_succ 3⟩
  obtain ⟨-, -, n, hn⟩ := hashNext_visits hs
  exact ⟨L, h, n, fun fuel hf => (hn fuel hf).1⟩

end

end Pintos.Kernel
