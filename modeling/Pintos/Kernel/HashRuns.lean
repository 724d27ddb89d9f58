import Pintos.Kernel.Hash

/- Runs of a hash table: a set of elements, no two of which are equal. -/
namespace Pintos.Kernel

open Lib

/-- `alloc` is what `malloc` returns in `rehash`, if it comes to that. -/
inductive HashEvent (ε : Type) where
  | insert (alloc : Option Nat) (e : ε)
  | replace (alloc : Option Nat) (e : ε)
  | find (e : ε)
  | delete (alloc : Option Nat) (e : ε)
  | clear (destructor : Bool)

section
variable {ε : Type} [DecidableEq ε] (hash : ε → Nat) (less : ε → ε → Bool)

def Hash.step (h : Hash ε) : HashEvent ε → Option (Hash ε)
  | .insert alloc e => (hashInsert hash less alloc e h).map Prod.snd
  | .replace alloc e => (hashReplace hash less alloc e h).map Prod.snd
  | .find e => (hashFind hash less e h).map Prod.snd
  | .delete alloc e => (hashDelete hash less alloc e h).map Prod.snd
  | .clear destructor => (hashClear destructor h).map Prod.snd

end

section
variable {ε : Type}

/-- A new array is not the one in use. -/
def NewArray (h : Hash ε) : HashEvent ε → Prop
  | .insert alloc _ | .replace alloc _ | .delete alloc _ => alloc ≠ some h.buckets
  | _ => True

instance (h : Hash ε) : ∀ e, Decidable (NewArray h e)
  | .insert alloc _ => inferInstanceAs (Decidable (alloc ≠ some h.buckets))
  | .replace alloc _ => inferInstanceAs (Decidable (alloc ≠ some h.buckets))
  | .delete alloc _ => inferInstanceAs (Decidable (alloc ≠ some h.buckets))
  | .find _ => isTrue trivial
  | .clear _ => isTrue trivial

def Bucket (h : Hash ε) (i : Nat) (l : List ε) : Prop :=
  i < h.bucketCnt ∧ IsList h.links (h.buckets, i) l

/-- The elements of the table are those of `S`, each in its bucket and once. -/
structure Contents (hash : ε → Nat) (less : ε → ε → Bool) (h : Hash ε) (S : Finset ε) : Prop where
  bucket : ∀ i < h.bucketCnt, ∃ l, Bucket h i l
  mem : ∀ e, e ∈ S ↔ ∃ i l, Bucket h i l ∧ e ∈ l
  place : ∀ i l e, Bucket h i l → e ∈ l → i = hash e &&& (h.bucketCnt - 1)
  nodup : ∀ i l, Bucket h i l → l.Nodup
  alone : ∀ x ∈ S, ∀ y ∈ S, eqv less x y = true → x = y
  elemCnt : h.elemCnt = S.card
  bucketCnt : h.bucketCnt.isPowerOfTwo ∧ 4 ≤ h.bucketCnt

variable {hash : ε → Nat} {less : ε → ε → Bool} {h h' : Hash ε}
  {q : Nat × Nat → Option (List ε)} {S : Finset ε}

theorem TableOf.bucket_iff (ht : TableOf hash less h q S) {i : Nat} {l : List ε} :
    Bucket h i l ↔ q (h.buckets, i) = some l := by
  constructor
  · rintro ⟨hi, hl⟩
    obtain ⟨m, hm⟩ := ht.bucket i hi
    rw [hm, (ht.lists.list hm).unique hl]
  · exact fun hl => ⟨(ht.only hl).2, ht.lists.list hl⟩

theorem TableOf.contents (ht : TableOf hash less h q S) : Contents hash less h S where
  bucket := fun i hi => by
    obtain ⟨l, hl⟩ := ht.bucket i hi
    exact ⟨l, ht.bucket_iff.mpr hl⟩
  mem := fun e => by
    rw [ht.mem]
    constructor
    · rintro ⟨j, l, hj, he⟩
      refine ⟨j.2, l, ht.bucket_iff.mpr ?_, he⟩
      rw [← (ht.only hj).1]
      exact hj
    · rintro ⟨i, l, hl, he⟩
      exact ⟨_, l, ht.bucket_iff.mp hl, he⟩
  place := fun i l e hl he => (ht.place (ht.bucket_iff.mp hl) he).symm
  nodup := fun i l hl => hl.2.nodup
  alone := fun x hx y hy => ht.alone hx hy
  elemCnt := ht.elemCnt
  bucketCnt := by
    obtain ⟨k, hk, hcnt⟩ := ht.bucketCnt
    refine ⟨⟨k, hcnt⟩, ?_⟩
    rw [hcnt]
    exact Nat.pow_le_pow_right (n := 2) (by decide) hk

variable [DecidableEq ε]

/-- The table is the set `S`, and the functions are those of a set. -/
structure IsSet (hash : ε → Nat) (less : ε → ε → Bool) (h : Hash ε) (S : Finset ε) : Prop where
  contents : Contents hash less h S
  finds : ∀ e, wp (hashFind hash less e) (fun r h' => h' = h ∧ Finds less S e r) h
  inserts : ∀ alloc e, alloc ≠ some h.buckets → wp (hashInsert hash less alloc e)
    (fun r h' => Finds less S e r ∧
      Contents hash less h' (match r with | none => insert e S | some _ => S)) h
  replaces : ∀ alloc e, alloc ≠ some h.buckets → wp (hashReplace hash less alloc e)
    (fun r h' => Finds less S e r ∧ Contents hash less h' (insert e (without S r))) h
  deletes : ∀ alloc e, alloc ≠ some h.buckets → wp (hashDelete hash less alloc e)
    (fun r h' => Finds less S e r ∧ Contents hash less h' (without S r)) h
  /-- The destructor is called once for each element. -/
  clears : ∀ destructor, wp (hashClear destructor) (fun r h' => Contents hash less h' ∅ ∧
    (destructor = true → r.Nodup ∧ ∀ e, e ∈ r ↔ e ∈ S)) h

theorem TableOf.isSet (hk : Keyed hash less) (ht : TableOf hash less h q S) :
    IsSet hash less h S where
  contents := ht.contents
  finds := hashFind_spec hk ht
  inserts := fun _ e halloc => wp_mono (hashInsert_spec hk ht halloc e) fun _ _ hr =>
    ⟨hr.1, hr.2.choose_spec.contents⟩
  replaces := fun _ e halloc => wp_mono (hashReplace_spec hk ht halloc e) fun _ _ hr =>
    ⟨hr.1, hr.2.choose_spec.contents⟩
  deletes := fun _ e halloc => wp_mono (hashDelete_spec hk ht halloc e) fun _ _ hr =>
    ⟨hr.1, hr.2.choose_spec.contents⟩
  clears := fun destructor => wp_mono (hashClear_spec ht destructor) fun _ _ hr =>
    ⟨hr.1.choose_spec.contents, hr.2⟩

theorem TableOf.step (hk : Keyed hash less) (ht : TableOf hash less h q S) {e : HashEvent ε}
    (he : NewArray h e) (hs : h.step hash less e = some h') :
    ∃ q' T, TableOf hash less h' q' T := by
  cases e with
  | insert alloc e =>
    obtain ⟨⟨r, _⟩, hx, rfl⟩ := Option.map_eq_some_iff.mp hs
    obtain ⟨-, q', ht'⟩ := wp_elim (hashInsert_spec hk ht he e) hx
    exact ⟨q', _, ht'⟩
  | replace alloc e =>
    obtain ⟨⟨r, _⟩, hx, rfl⟩ := Option.map_eq_some_iff.mp hs
    obtain ⟨-, q', ht'⟩ := wp_elim (hashReplace_spec hk ht he e) hx
    exact ⟨q', _, ht'⟩
  | find e =>
    obtain ⟨⟨r, _⟩, hx, rfl⟩ := Option.map_eq_some_iff.mp hs
    obtain ⟨heq, -⟩ := wp_elim (hashFind_spec hk ht e) hx
    exact ⟨q, S, heq ▸ ht⟩
  | delete alloc e =>
    obtain ⟨⟨r, _⟩, hx, rfl⟩ := Option.map_eq_some_iff.mp hs
    obtain ⟨-, q', ht'⟩ := wp_elim (hashDelete_spec hk ht he e) hx
    exact ⟨q', _, ht'⟩
  | clear destructor =>
    obtain ⟨⟨r, _⟩, hx, rfl⟩ := Option.map_eq_some_iff.mp hs
    obtain ⟨⟨q', ht'⟩, -⟩ := wp_elim (hashClear_spec ht destructor) hx
    exact ⟨q', _, ht'⟩

theorem table_of_reach (hk : Keyed hash less) {start h₀ : Hash ε} {a : Nat}
    (hinit : hashInit a start = some ((), h₀)) (hrun : Reach (Hash.step hash less) NewArray h₀ h) :
    ∃ q S, TableOf hash less h q S := by
  obtain ⟨q₀, ht₀⟩ : ∃ q₀, TableOf hash less h₀ q₀ ∅ := wp_elim (hashInit_spec start a) hinit
  exact hrun.inv (I := fun h => ∃ q S, TableOf hash less h q S) ⟨q₀, ∅, ht₀⟩
    fun _ _ _ ⟨_, _, ht⟩ he hs => ht.step hk he hs

/-- **A hash table is a set**, whatever `malloc` does and whatever was in memory before
    `hash_init`. -/
theorem hash_is_set (hk : Keyed hash less) {start h₀ : Hash ε} {a : Nat}
    (hinit : hashInit a start = some ((), h₀)) (hrun : Reach (Hash.step hash less) NewArray h₀ h) :
    ∃ S, IsSet hash less h S := by
  obtain ⟨q, S, ht⟩ := table_of_reach hk hinit hrun
  exact ⟨S, ht.isSet hk⟩

end

/-- Elements with the same last two digits are equal. -/
def lastTwo (x y : Nat) : Bool := x % 100 < y % 100

theorem keyed_lastTwo : Keyed (· % 100) lastTwo where
  order := {
    irrefl := fun x => by simp [lastTwo]
    trans := fun x y z => by
      simp only [lastTwo, decide_eq_true_eq]
      omega
    incomp_trans := fun x y z => by
      simp only [lastTwo, decide_eq_true_eq]
      omega }
  hash := fun x y => by
    simp only [eqv_iff, lastTwo, decide_eq_false_iff_not]
    omega

/-- With the sixteenth element the buckets become eight, and there is no memory to make them
    four again. -/
def growAndReplace : List (HashEvent Nat) :=
  (List.range 16).map (.insert (some 1)) ++ [.replace none 105, .delete none 3, .insert none 204]

def noTable : Hash Nat := ⟨0, 0, 0, ⟨fun _ => none, fun _ => none⟩⟩

theorem hash_is_set_grown : ∃ h₀ h S, hashInit 0 noTable = some ((), h₀) ∧
    Reach (Hash.step (· % 100) lastTwo) NewArray h₀ h ∧
    (h.buckets = 1 ∧ h.bucketCnt = 8 ∧ h.elemCnt = 15 ∧
      h.links.next (.head (1, 5)) = some (.elem 105)) ∧ IsSet (· % 100) lastTwo h S := by
  have hall : ((hashInit 0 noTable).any fun x =>
      runOk (Hash.step (· % 100) lastTwo) (fun h e => NewArray h e) x.2 growAndReplace &&
      (run (Hash.step (· % 100) lastTwo) x.2 growAndReplace).any fun h =>
        h.buckets = 1 && h.bucketCnt = 8 && h.elemCnt = 15 &&
        h.links.next (.head (1, 5)) = some (.elem 105)) = true := by
    decide +kernel
  obtain ⟨⟨_, h₀⟩, h₀eq, hall⟩ := (Option.any_eq_true _ _).mp hall
  rw [Bool.and_eq_true] at hall
  obtain ⟨h, hr, hq⟩ := exists_reach _ _ growAndReplace _ (fun _ _ => of_decide_eq_true)
    hall.1 hall.2
  obtain ⟨S, hS⟩ := hash_is_set keyed_lastTwo h₀eq hr
  exact ⟨h₀, h, S, h₀eq, hr, by simpa [and_assoc] using hq, hS⟩

end Pintos.Kernel
