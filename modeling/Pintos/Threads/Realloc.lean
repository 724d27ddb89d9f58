import Pintos.Threads.MallocRuns

/- Blocks with contents: `calloc` and `realloc` of `threads/malloc.c`.

   The bytes of blocks are in the memory that the page allocator has. Headers and links
   are bytes, too. What the block allocator writes into them leaves anything in their bytes,
   and what is written into bytes leaves anything in the headers and links that have one of
   them (`Junk`). What is written or read behind the end of memory faults.

   Correspondence (C ↔ Lean):
     `malloc`, `free`                 ↔ `mallocBytes`, `freeBytes`: with the bytes
     `memset`, `memcpy`               ↔ `fillBytes`, `copyBytes`
     `block_size`                     ↔ `blockSize`
     `calloc`, `realloc`              ↔ `calloc`, `realloc` -/
namespace Pintos.Threads

open Vm (Byte wordSize pgsize physBase pgRoundDown pgOfs)
open Lib Kernel Function

variable {p size a k : Nat} {α : Type} {m : MallocM α} {h'' : Heap}


/-- What is found where something else has been written. -/
structure Junk where
  bytes : Nat → Byte
  links : Links Nat Nat
  arena : Nat → Arena

abbrev Heap.mem (h : Heap) : Nat → Byte := h.palloc.memory.mem

def Heap.setMem (h : Heap) (mem : Nat → Byte) : Heap :=
  { h with palloc := { h.palloc with memory := { h.palloc.memory with mem := mem } } }

/-- The ranges have a byte in common. -/
def meets (a n b k : Nat) : Bool := max a b < min (a + n) (b + k)

/-- A link or a header with this byte is not the same. -/
def wroteByte (h h' : Heap) (i : Nat) : Bool :=
  (List.range listElemSize).any (fun k => k ≤ i &&
    (h'.links.next (.elem (i - k)) != h.links.next (.elem (i - k)) ||
      h'.links.prev (.elem (i - k)) != h.links.prev (.elem (i - k)))) ||
  (List.range arenaSize).any fun k => k ≤ i && h'.arena (i - k) != h.arena (i - k)

/-- A call of the block allocator, and what its headers and links leave in memory. -/
def withBytes {α : Type} (junk : Junk) (m : MallocM α) : MallocM α := fun h =>
  (m h).map fun x => (x.1, x.2.setMem fun i => if wroteByte h x.2 i then junk.bytes i else x.2.mem i)

def mallocBytes (junk : Junk) (size : Nat) : MallocM Nat := withBytes junk (malloc size)

def ramEnd (m : Memory) : Nat := m.userPool.base + pgsize * m.userPool.usedMap.bitCnt

def writeBytes (junk : Junk) (dst n : Nat) (f : Nat → Byte) : MallocM Unit := do
  assert (dst + n ≤ ramEnd (← get).palloc.memory)
  modify fun h => { h.setMem fun i => if dst ≤ i ∧ i < dst + n then f (i - dst) else h.mem i with
    links := {
      next := fun x => match x with
        | .elem e => if meets e listElemSize dst n then junk.links.next x else h.links.next x
        | _ => h.links.next x
      prev := fun x => match x with
        | .elem e => if meets e listElemSize dst n then junk.links.prev x else h.links.prev x
        | _ => h.links.prev x }
    arena := fun a => if meets a arenaSize dst n then junk.arena a else h.arena a }

def fillBytes (junk : Junk) (dst : Nat) (value : Byte) (n : Nat) : MallocM Unit :=
  writeBytes junk dst n fun _ => value

def copyBytes (junk : Junk) (dst src n : Nat) : MallocM Unit := do
  assert (src + n ≤ ramEnd (← get).palloc.memory)
  let mem := (← get).mem
  writeBytes junk dst n fun k => mem (src + k)

def blockSize (block : Nat) : MallocM Nat := do
  let a ← blockToArena block
  let x := (← get).arena a
  match x.desc with
  | some d => return (← follow descs[d]?).blockSize
  | none => return (pgsize * x.freeCnt % wordSize + wordSize - pgOfs block) % wordSize

/-- The first part of `free`, which clears a block of an arena. -/
def clearBlock (junk : Junk) (p : Nat) : MallocM Unit := do
  let a ← blockToArena p
  match ((← get).arena a).desc with
  | some d => fillBytes junk p 0xcc (← follow descs[d]?).blockSize
  | none => pure ()

def freeBytes (junk : Junk × Junk) (p : Nat) : MallocM Unit := do
  (if p ≠ 0 then clearBlock junk.1 p else pure ())
  withBytes junk.2 (free p)

def calloc (junk : Nat → Junk) (a b : Nat) : MallocM Nat := do
  let size := a * b % wordSize
  (if size < a ∨ size < b then return 0
  else do
    let p ← mallocBytes (junk 0) size
    (if p ≠ 0 then fillBytes (junk 1) p 0 size else pure ())
    return p)

def realloc (junk : Nat → Junk) (oldBlock newSize : Nat) : MallocM Nat :=
  if newSize = 0 then do
    freeBytes (junk 0, junk 1) oldBlock
    return 0
  else do
    let newBlock ← mallocBytes (junk 0) newSize
    (if oldBlock ≠ 0 ∧ newBlock ≠ 0 then do
      let oldSize ← blockSize oldBlock
      let minSize := if newSize < oldSize then newSize else oldSize
      copyBytes (junk 1) newBlock oldBlock minSize
      freeBytes (junk 2, junk 3) oldBlock
    else pure ())
    return newBlock

/-! What a call leaves alone. -/

/-- No link and no header has changed that has a byte in the range. -/
structure Untouched (h h' : Heap) (b n : Nat) : Prop where
  elem : ∀ e, Apart e listElemSize b n ∨
    (h'.links.next (.elem e) = h.links.next (.elem e) ∧
      h'.links.prev (.elem e) = h.links.prev (.elem e))
  header : ∀ a, Apart a arenaSize b n ∨ h'.arena a = h.arena a

section
variable {lo hi : Nat} {h h' : Heap} {q : Nat → Option (List Nat)} {b d n : Nat} {x : Desc}
  {l : List Nat}

theorem Untouched.refl (h : Heap) (b n : Nat) : Untouched h h b n :=
  ⟨fun _ => Or.inr ⟨rfl, rfl⟩, fun _ => Or.inr rfl⟩

theorem Untouched.trans (ht : Untouched h h' b n) (ht' : Untouched h' h'' b n) :
    Untouched h h'' b n := by
  constructor
  · intro e
    cases ht.elem e with
    | inl ha => exact Or.inl ha
    | inr hs =>
      cases ht'.elem e with
      | inl ha => exact Or.inl ha
      | inr hs' => exact Or.inr ⟨hs'.1.trans hs.1, hs'.2.trans hs.2⟩
  · intro a
    cases ht.header a with
    | inl ha => exact Or.inl ha
    | inr hs => exact (ht'.header a).imp_right fun hs' => hs'.trans hs

theorem Untouched.not_wrote (ht : Untouched h h' b n) {i : Nat} (hb : b ≤ i) (hi : i < b + n) :
    wroteByte h h' i = false := by
  rw [wroteByte, Bool.or_eq_false_iff, List.any_eq_false, List.any_eq_false]
  constructor
  · intro k hk
    rw [List.mem_range] at hk
    simp only [Bool.and_eq_true, decide_eq_true_eq, not_and, Bool.or_eq_true, bne_iff_ne, ne_eq]
    intro hle
    cases ht.elem (i - k) with
    | inl ha =>
      simp only [Apart] at ha
      omega
    | inr hs => simp [hs.1, hs.2]
  · intro k hk
    rw [List.mem_range] at hk
    simp only [Bool.and_eq_true, decide_eq_true_eq, not_and, bne_iff_ne, ne_eq, not_not]
    intro hle
    cases ht.header (i - k) with
    | inl ha =>
      simp only [Apart] at ha
      omega
    | inr hs => exact hs

/-- What has been written is apart from a range if the free blocks and the header are. -/
theorem Wrote.untouched {S : List Nat} (hw : Wrote S a h h')
    (hS : ∀ e ∈ S, Apart e listElemSize b n) (ha : Apart a arenaSize b n) :
    Untouched h h' b n := by
  constructor
  · intro e
    by_cases he : e ∈ S
    · exact Or.inl (hS e he)
    · exact Or.inr (hw.links e he)
  · grind [hw.arena]

theorem HeapInv.elem_apart (hh : HeapInv lo hi h q) (hq : q d = some l) {e : Nat} (he : e ∈ l)
    (hb : h.live b = some n) : Apart e listElemSize b n := by
  obtain ⟨hmine, hd, ⟨x, hx, heb⟩, hdead⟩ := hh.free hq he
  have hne : b ≠ e := by grind
  have hsize := (desc_bounds hx).1
  have := hh.block_apart hmine hd hx heb hb hne
  simp only [Apart, listElemSize] at this ⊢
  omega

theorem takeBlock_untouched (hh : HeapInv lo hi h q) (hx : descs[d]? = some x) {c : Nat}
    (hq : q d = some (c :: l)) (hb : h.live b = some n) :
    wp (takeBlock d) (fun _ h' => Untouched h h' b n) h := by
  refine wp_mono (takeBlock_spec hh hx hq) ?_
  rintro r h' ⟨_, _, _, _, _, _, hwrote⟩
  have hmine := (hh.free hq (List.mem_cons_self ..)).mine
  exact hwrote.untouched (fun e he => hh.elem_apart hq he hb) (hh.header_apart hmine hb)

theorem malloc_untouched (hh : HeapOk lo hi h) (size : Nat) (hb : h.live b = some n) :
    wp (malloc size) (fun _ h' => Untouched h h' b n) h := by
  obtain ⟨q, hq⟩ := hh.inv
  rw [malloc, wp_ite]
  refine ⟨fun _ => wp_pure.mpr (.refl h b n), fun _ => ?_⟩
  cases hfind : descs.findIdx? (size ≤ ·.blockSize) with
  | none =>
    refine wp_mono (mallocBig_spec hq size) ?_
    rintro r h' ⟨hq', hlinks, ⟨-, -, -, harena, -⟩ | ⟨-, a, -, -, hmine, hsame, hdead, hlive⟩⟩
    · exact ⟨fun e => Or.inr (by rw [hlinks]; exact ⟨rfl, rfl⟩), fun a => Or.inr (by rw [harena])⟩
    · have hb' : h'.live b = some n := by
        rw [hlive, update_of_ne, hb]
        rintro rfl
        exact absurd (hb.symm.trans hdead) (Option.some_ne_none _)
      refine Wrote.untouched (S := []) (a := a) ⟨fun e _ => by rw [hlinks]; exact ⟨rfl, rfl⟩,
        fun c hc => (hsame c hc).2⟩ (fun e he => absurd he List.not_mem_nil)
        (hq'.header_apart hmine hb')
  | some d =>
    obtain ⟨x, hx, -⟩ := class_of_size hfind
    obtain ⟨l, hl⟩ := hq.desc hx
    simp only [wp_bind, wp_get, listEmpty_eq (hq.lists.list hl)]
    cases l with
    | nil =>
      simp only [decide_true, if_true]
      refine wp_mono (newArena_spec hq hx hl) ?_
      rintro ok h' ⟨hlive, ⟨rfl, hq', -, harena, hlinks, -⟩ |
        ⟨rfl, -, a, hal, hq', -, hmine, hwrote⟩⟩
      · rw [if_neg Bool.false_ne_true, wp_pure]
        exact ⟨fun e => Or.inr (by rw [hlinks]; exact ⟨rfl, rfl⟩), fun a => Or.inr (by rw [harena])⟩
      · have hb' : h'.live b = some n := by rw [hlive, hb]
        have hfirst : Untouched h h' b n := hwrote.untouched
          (fun e he => hq'.elem_apart (update_self ..) he hb')
          (hq'.header_apart hmine hb')
        have hpos : 0 < x.blocksPerArena := by have := (desc_bounds hx).2.1; omega
        obtain ⟨c, m, hcm⟩ := List.exists_cons_of_length_pos (length_blocks (x := x) (a := a) ▸ hpos)
        have hl' : update q d (some (blocks x a)) d = some (c :: m) := by
          rw [update_self, hcm]
        rw [if_pos rfl]
        exact wp_mono (takeBlock_untouched hq' hx hl' hb') fun _ _ ht => hfirst.trans ht
    | cons c l => grind [wp_pure, takeBlock_untouched]

theorem free_untouched (hh : HeapOk lo hi h) {m : Nat} (hp : h.live p = some m)
    (hb : h.live b = some n) (hne : p ≠ b) :
    wp (free p) (fun _ h' => Untouched h h' b n) h := by
  obtain ⟨q, hq⟩ := hh.inv
  rw [free, if_pos (hq.ne_zero hp), wp_bind]
  refine hq.wp_blockToArena hp ?_ ?_
  · intro d x k ha harena hx hpb hs _
    simp only [wp_bind, wp_get, harena]
    refine wp_mono (freeBlock_spec hq ha (by rw [harena]) hx hpb hp) ?_
    rintro _ h' ⟨_, _, _, _, l, hl, hwrote⟩
    refine hwrote.untouched (fun e he => ?_) (hq.header_apart ha hb)
    cases List.mem_cons.mp he with
    | inl heq =>
      have hsize := (desc_bounds hx).1
      have hapart := hq.live_apart hp hb hne
      simp only [Apart, listElemSize] at hapart ⊢
      omega
    | inr he => exact hq.elem_apart hl he hb
  · intro cnt _ harena hpages _ _
    simp only [wp_bind, wp_get, harena, setLive, setMine, wp_modify]
    rw [wp_onPalloc]
    exact wp_mono (Palloc.free_spec hq.palloc hpages) fun _ _ _ =>
      ⟨fun _ => Or.inr ⟨rfl, rfl⟩, fun _ => Or.inr rfl⟩

end

/-! Which bytes the block allocator itself clears. -/

section
variable {lo hi : Nat} {h h' : Heap} {b d n : Nat}

theorem keeps_blockToArena (b : Nat) : Keeps id (blockToArena b) := by
  refine keeps_bind (keeps_assert _) fun _ => keeps_bind keeps_get fun h => ?_
  refine keeps_bind (keeps_assert _) fun _ => ?_
  cases (h.arena (pgRoundDown b)).desc with
  | none => exact keeps_bind (keeps_assert _) fun _ => keeps_pure _
  | some d =>
    exact keeps_bind (keeps_follow _) fun _ => keeps_bind (keeps_assert _) fun _ => keeps_pure _

theorem keeps_arenaToBlock (a idx : Nat) : Keeps id (arenaToBlock a idx) :=
  keeps_bind (keeps_assert _) fun _ => keeps_bind keeps_get fun _ =>
    keeps_bind (keeps_assert _) fun _ => keeps_bind (keeps_follow _) fun _ =>
      keeps_bind (keeps_assert _) fun _ => keeps_pure _

/-- The part of the heap that what happens to free lists does not change. -/
def Heap.rest (h : Heap) : Palloc × (Nat → Option Nat) := (h.palloc, h.live)

theorem keeps_onFreeList (m : ListM Nat Nat α) : Keeps Heap.rest (onFreeList m) :=
  keeps_zoom fun _ _ => rfl

theorem keeps_addBlocks (a d : Nat) : ∀ cnt i, Keeps Heap.rest (addBlocks a d cnt i)
  | 0, _ => keeps_pure _
  | cnt + 1, i => keeps_bind (keeps_of_id (keeps_arenaToBlock a i)) fun _ =>
      keeps_bind (keeps_onFreeList _) fun _ => keeps_addBlocks a d cnt (i + 1)

theorem keeps_removeBlocks (a : Nat) : ∀ cnt i, Keeps Heap.rest (removeBlocks a cnt i)
  | 0, _ => keeps_pure _
  | cnt + 1, i => keeps_bind (keeps_of_id (keeps_arenaToBlock a i)) fun _ =>
      keeps_bind (keeps_onFreeList _) fun _ => keeps_removeBlocks a cnt (i + 1)

theorem mem_of_rest (hm : Keeps Heap.rest m) : Keeps Heap.mem m :=
  fun h r h' heq => congrArg (fun x => x.1.memory.mem) (hm h r h' heq)

theorem live_of_rest (hm : Keeps Heap.rest m) : Keeps Heap.live m :=
  fun h r h' heq => congrArg Prod.snd (hm h r h' heq)

theorem keeps_get_pages (cnt : Nat) : Keeps Heap.mem (onPalloc (Palloc.get kernelPages cnt)) := by
  intro h r h' heq
  obtain ⟨⟨a, p⟩, hget, heq⟩ := Option.map_eq_some_iff.mp heq
  cases heq
  exact (Palloc.get_mem rfl cnt).1 a p hget

theorem malloc_mem (size : Nat) : Keeps Heap.mem (malloc size) := by
  refine keeps_ite (keeps_pure _) ?_
  cases descs.findIdx? (size ≤ ·.blockSize) with
  | none =>
    refine keeps_bind (keeps_get_pages _) fun a => keeps_ite (keeps_pure _) ?_
    exact keeps_bind (keeps_modify fun _ => rfl) fun _ => keeps_bind (keeps_modify fun _ => rfl)
      fun _ => keeps_bind (keeps_modify fun _ => rfl) fun _ => keeps_pure _
  | some d =>
    have hnew : Keeps Heap.mem (newArena d) := by
      refine keeps_bind (keeps_get_pages _) fun a => keeps_ite (keeps_pure _) ?_
      exact keeps_bind (keeps_follow _) fun x => keeps_bind (keeps_modify fun _ => rfl) fun _ =>
        keeps_bind (keeps_modify fun _ => rfl) fun _ =>
          keeps_bind (mem_of_rest (keeps_addBlocks a d _ 0)) fun _ => keeps_pure _
    have htake : Keeps Heap.mem (takeBlock d) := by
      refine keeps_bind (mem_of_rest (keeps_onFreeList _)) fun n => ?_
      refine keeps_bind (mem_of_rest (keeps_onFreeList _)) fun b => ?_
      refine keeps_bind (keeps_of_id (keeps_blockToArena b)) fun a => keeps_bind keeps_get fun _ => ?_
      exact keeps_bind (keeps_modify fun _ => rfl) fun _ => keeps_bind (keeps_follow _) fun _ =>
        keeps_bind (keeps_modify fun _ => rfl) fun _ => keeps_pure _
    refine keeps_bind keeps_get fun h => keeps_bind (keeps_ite hnew (keeps_pure _)) fun ok => ?_
    exact keeps_ite htake (keeps_pure _)

theorem freeBlock_mem (a d b : Nat) : wpIf False (freeBlock a d b) (fun _ h' => h'.mem = h.mem ∨
    (h'.mine a = false ∧ ∀ i, i < a ∨ a + pgsize ≤ i → h'.mem i = h.mem i)) h := by
  simp only [freeBlock, setLive, setArena, wpIf_bind, wpIf_follow, wpIf_modify]
  refine ⟨fun x _ => ?_, False.elim⟩
  refine wpIf_mono (wpIf_of_keeps (mem_of_rest (keeps_onFreeList _))) ?_
  intro _ h₁ hmem₁
  rw [wpIf_get]
  by_cases hfull : ((h₁.arena a).freeCnt + 1) % wordSize ≥ x.blocksPerArena
  · rw [if_pos hfull, wpIf_bind, wpIf_assert]
    refine ⟨fun _ => ?_, False.elim⟩
    rw [freeArena, wpIf_bind]
    refine wpIf_mono (wpIf_of_keeps (mem_of_rest (keeps_removeBlocks a _ 0))) ?_
    intro _ h₂ hmem₂
    simp only [wpIf_bind, setMine, wpIf_modify, onPalloc, wpIf_zoom]
    refine wpIf_mono (Palloc.free_mem a 1) ?_
    intro _ p hp
    refine Or.inr ⟨update_self .., fun i hi => ?_⟩
    rw [Nat.mul_one] at hp
    exact (hp i hi).trans (congrFun (hmem₂.trans hmem₁) i)
  · rw [if_neg hfull, wpIf_pure]
    exact Or.inl hmem₁

theorem free_mem (hh : HeapOk lo hi h) (hp : h.live p = some n) :
    wp (free p) (fun _ h' => h'.mem = h.mem ∨ ∃ cnt,
      h.palloc.live (pgRoundDown p) = some (false, cnt) ∧ h'.mine (pgRoundDown p) = false ∧
      ∀ i, i < pgRoundDown p ∨ pgRoundDown p + pgsize * cnt ≤ i → h'.mem i = h.mem i) h := by
  obtain ⟨q, hq⟩ := hh.inv
  rw [free, if_pos (hq.ne_zero hp), wp_bind]
  refine hq.wp_blockToArena hp ?_ ?_
  · intro d x k ha harena hx hpb _ hpages
    simp only [wp_bind, wp_get, harena]
    refine wp_mono (wp_and_wpIf (freeBlock_spec hq ha (by rw [harena]) hx hpb hp)
      (freeBlock_mem (pgRoundDown p) d p)) ?_
    rintro _ h' ⟨_, hmem⟩
    refine hmem.imp_right fun hfreed => ⟨1, hpages, hfreed.1, fun i hi => hfreed.2 i ?_⟩
    rwa [Nat.mul_one] at hi
  · intro cnt _ harena hpages _ _
    simp only [wp_bind, wp_get, harena, setLive, setMine, wp_modify]
    rw [wp_onPalloc]
    refine wp_mono (wp_and_wpIf (Palloc.free_spec hq.palloc hpages)
      (Palloc.free_mem (pgRoundDown p) cnt)) ?_
    rintro _ pal ⟨_, hmem⟩
    exact Or.inr ⟨cnt, hpages, update_self .., hmem⟩

/-- The bytes of the block are the same. -/
def SameBytes (h h' : Heap) (b n : Nat) : Prop := ∀ i, b ≤ i → i < b + n → h'.mem i = h.mem i

theorem free_sameBytes (hh : HeapOk lo hi h) {m : Nat} (hp : h.live p = some m)
    (hb : h.live b = some n) (hne : p ≠ b) : wp (free p) (fun _ h' => SameBytes h h' b n) h := by
  obtain ⟨q, hq⟩ := hh.inv
  refine wp_mono (wp_and (free_spec hh (Or.inr (by rw [hp]; exact Option.some_ne_none m)))
    (free_mem hh hp)) ?_
  rintro _ h' ⟨⟨hh', hlive, _⟩, hmem⟩ i hle hlt
  cases hmem with
  | inl hmem => rw [hmem]
  | inr hmem =>
    obtain ⟨cnt, hpages, hmine, hsame⟩ := hmem
    -- The block is still live, so its page still belongs to the block allocator.
    have hb' : h'.live b = some n := by rw [hlive, update_of_ne hne.symm, hb]
    obtain ⟨q', hq'⟩ := hh'.inv
    have hpage : pgRoundDown b ≠ pgRoundDown p := by
      intro heq
      have := (hq'.live hb').1
      rw [heq, hmine] at this
      cases this
    obtain ⟨cnt', hpages', h₁, h₂⟩ := hq.live_inside hb
    have hapart := hq.runs_apart hpage hpages' hpages (by omega) h₂ le_rfl le_rfl
    refine hsame i ?_
    simp only [Apart] at hapart
    omega

end

/-! The allocator and the bytes. -/

section
variable {lo hi : Nat} {h h' : Heap} {q : Nat → Option (List Nat)} {b n : Nat}

theorem PallocInv.setMem {s : Palloc} (hs : PallocInv lo hi s) (mem : Nat → Byte) :
    PallocInv lo hi { s with memory := { s.memory with mem := mem } } :=
  ⟨⟨hs.layout.pool, hs.layout.first, hs.layout.between, hs.layout.last⟩, hs.live, hs.owned,
    hs.exact⟩

theorem HeapOk.setMem (hh : HeapOk lo hi h) (mem : Nat → Byte) : HeapOk lo hi (h.setMem mem) := by
  obtain ⟨q, hq⟩ := hh.inv
  exact ⟨⟨q, hq.setPalloc (hq.palloc.setMem mem) fun _ _ => rfl⟩, fun a ha =>
    (hh.busy a ha).congr rfl fun _ => id⟩

theorem wp_withBytes {junk : Junk} {Q : α → Heap → Prop} :
    wp (withBytes junk m) Q h ↔ wp m (fun r h' => Q r (h'.setMem fun i =>
      if wroteByte h h' i then junk.bytes i else h'.mem i)) h := by
  constructor
  · rintro ⟨r, t, heq, hQ⟩
    obtain ⟨⟨r', h'⟩, hm, heq⟩ := Option.map_eq_some_iff.mp heq
    cases heq
    exact ⟨_, h', hm, hQ⟩
  · rintro ⟨r, h', hm, hQ⟩
    exact ⟨r, _, by rw [withBytes, hm]; rfl, hQ⟩

theorem SameBytes.trans (hs : SameBytes h h' b n) (hs' : SameBytes h' h'' b n) :
    SameBytes h h'' b n := fun i hle hlt => (hs' i hle hlt).trans (hs i hle hlt)

theorem Untouched.sameBytes (ht : Untouched h h' b n) (hs : SameBytes h h' b n)
    (junk : Nat → Byte) : SameBytes h (h'.setMem fun i =>
      if wroteByte h h' i then junk i else h'.mem i) b n := by
  intro i hle hlt
  show (if wroteByte h h' i then junk i else h'.mem i) = h.mem i
  rw [ht.not_wrote hle hlt, if_neg Bool.false_ne_true]
  exact hs i hle hlt

theorem mallocBytes_spec (hh : HeapOk lo hi h) (junk : Junk) (size : Nat) :
    wp (mallocBytes junk size) (fun r h' => HeapOk lo hi h' ∧
      (∀ b n, h.live b = some n → SameBytes h h' b n) ∧
      ((r = 0 ∧ h'.live = h.live ∧ ¬Available h size) ∨
      (r ≠ 0 ∧ Available h size ∧ h.live r = none ∧
        h'.live = update h.live r (some (extent size))))) h := by
  rw [mallocBytes, wp_withBytes]
  obtain ⟨r, h', hm, hh', hr⟩ := malloc_spec hh size
  refine ⟨r, h', hm, hh'.setMem _, fun b n hb => ?_, hr.imp_right fun hr => ⟨?_, hr⟩⟩
  · refine (wp_elim (malloc_untouched hh size hb) hm).sameBytes (fun i _ _ => ?_) junk.bytes
    rw [malloc_mem size h r h' hm]
  · obtain ⟨q, hq⟩ := hh'.inv
    exact hq.ne_zero ((congrFun hr.2.2 r).trans (update_self ..))

theorem HeapInv.live_ramEnd (hh : HeapInv lo hi h q) (hb : h.live b = some n) :
    b + n ≤ ramEnd h.palloc.memory := by
  obtain ⟨cnt, hpages, -, hend⟩ := hh.live_inside hb
  obtain ⟨-, -, -, hpool⟩ := hh.palloc.inside hpages
  have hbetween := hh.palloc.layout.between
  have hmap := (hh.palloc.layout.pool true).map
  simp only [Memory.pool, Bool.false_eq_true, if_false, if_true] at hpool hmap
  simp only [ramEnd]
  omega

theorem Private.not_meets {m : Nat} (hp : Private h a m) (hb : h.live b = some n) (hk : k ≤ n) :
    meets a m b k = false := by
  rw [meets, decide_eq_false_iff_not]
  intro hlt
  exact hp (max a b) (by omega) (by omega) (Or.inl ⟨b, n, hb, by omega, by omega⟩)

theorem writeBytes_spec (hh : HeapOk lo hi h) (hb : h.live b = some n) (junk : Junk) (hk : k ≤ n)
    (f : Nat → Byte) : wp (writeBytes junk b k f) (fun _ h' => HeapOk lo hi h' ∧ h'.live = h.live ∧
      h'.mem = fun i => if b ≤ i ∧ i < b + k then f (i - b) else h.mem i) h := by
  obtain ⟨q, hq⟩ := hh.inv
  have hend := hq.live_ramEnd hb
  simp only [writeBytes, wp_bind, wp_get, wp_assert, wp_modify, decide_eq_true_eq]
  refine ⟨by omega, HeapOk.write (hh.setMem _) ⟨fun x hx => ?_, fun e he => ?_, fun a ha => ?_⟩,
    rfl, rfl⟩
  · cases x with
    | head => exact ⟨rfl, rfl⟩
    | tail => exact ⟨rfl, rfl⟩
    | elem e => exact absurd rfl (hx e)
  · simp only [he.not_meets hb hk, Bool.false_eq_true, if_false]
    exact ⟨rfl, rfl⟩
  · simp only [ha.not_meets hb hk, Bool.false_eq_true, if_false]
    rfl

theorem blockSize_spec (hh : HeapInv lo hi h q) (hb : h.live b = some n) :
    wp (blockSize b) (fun r h' => r = n ∧ h' = h) h := by
  rw [blockSize, wp_bind]
  refine hh.wp_blockToArena hb ?_ ?_
  · grind [wp_bind, wp_get, wp_follow, wp_pure]
  · intro cnt _ harena hpages hbb hs
    obtain ⟨hpos, hal, -, hend⟩ := hh.palloc.bounds hpages
    simp only [wp_bind, wp_get, harena, wp_pure]
    refine ⟨?_, trivial⟩
    rw [hs, hbb]
    simp only [pgOfs, arenaSize, pgsize, wordSize] at hal hend ⊢
    omega

theorem clearBlock_spec (hh : HeapOk lo hi h) (hb : h.live b = some n) (junk : Junk) :
    wp (clearBlock junk b) (fun _ h' => HeapOk lo hi h' ∧ h'.live = h.live ∧
      ∀ c m, h.live c = some m → c ≠ b → SameBytes h h' c m) h := by
  obtain ⟨q, hq⟩ := hh.inv
  rw [clearBlock, wp_bind]
  refine hq.wp_blockToArena hb ?_ ?_
  · intro d x k _ harena hx _ hs _
    simp only [wp_bind, wp_get, harena, wp_follow, hx]
    refine ⟨_, rfl, wp_mono (writeBytes_spec hh hb junk hs.ge _) ?_⟩
    rintro _ h' ⟨hh', hlive, hmem⟩
    refine ⟨hh', hlive, fun c m hc hcb i hle hlt => ?_⟩
    have hapart := hq.live_apart hc hb hcb
    simp only [Apart] at hapart
    rw [hmem]
    exact if_neg (by omega)
  · intro cnt _ harena _ _ _
    simp only [wp_bind, wp_get, harena, wp_pure]
    exact ⟨hh, trivial, fun _ _ _ _ _ _ _ => rfl⟩

/-- A block is given back, and the bytes of the others stay. -/
theorem freeBytes_spec (hh : HeapOk lo hi h) (hb : h.live b = some n) (junk : Junk × Junk) :
    wp (freeBytes junk b) (fun _ h' => HeapOk lo hi h' ∧
      h'.live = update h.live b none ∧
      ∀ c m, h.live c = some m → c ≠ b → SameBytes h h' c m) h := by
  obtain ⟨q, hq⟩ := hh.inv
  rw [freeBytes, if_pos (hq.ne_zero hb), wp_bind]
  refine wp_mono (clearBlock_spec hh hb junk.1) ?_
  rintro _ h₁ ⟨hh₁, hlive₁, hsame₁⟩
  have hb₁ : h₁.live b = some n := by rw [hlive₁, hb]
  rw [wp_withBytes]
  obtain ⟨r, h₂, hm, hh₂, hlive₂, -⟩ := free_spec hh₁ (Or.inr (hb₁.trans_ne (Option.some_ne_none n)))
  refine ⟨r, h₂, hm, hh₂.setMem _, hlive₂.trans (by rw [hlive₁]), fun c m hc hcb => ?_⟩
  have hc₁ : h₁.live c = some m := by rw [hlive₁, hc]
  have huntouched := wp_elim (free_untouched hh₁ hb₁ hc₁ hcb.symm) hm
  have hbytes := wp_elim (free_sameBytes hh₁ hb₁ hc₁ hcb.symm) hm
  exact (hsame₁ c m hc hcb).trans (huntouched.sameBytes hbytes junk.2.bytes)

/-! Which blocks are live, also where what is written does not fit. -/

theorem keeps_writeBytes (junk : Junk) (dst k : Nat) (f : Nat → Byte) :
    Keeps Heap.live (writeBytes junk dst k f) :=
  keeps_bind keeps_get fun _ => keeps_bind (keeps_assert _) fun _ => keeps_modify fun _ => rfl

theorem keeps_clearBlock (junk : Junk) (b : Nat) : Keeps Heap.live (clearBlock junk b) := by
  refine keeps_bind (keeps_of_id (keeps_blockToArena b)) fun a => keeps_bind keeps_get fun h => ?_
  cases (h.arena a).desc with
  | none => exact keeps_pure _
  | some d => exact keeps_bind (keeps_follow _) fun x => keeps_writeBytes junk b _ _

theorem keeps_freeArena (a : Nat) (x : Desc) : Keeps Heap.live (freeArena a x) :=
  keeps_bind (live_of_rest (keeps_removeBlocks a _ 0)) fun _ =>
    keeps_bind (keeps_modify fun _ => rfl) fun _ => keeps_zoom fun _ _ => rfl

theorem free_live (h0 : b ≠ 0) :
    wpIf False (free b) (fun _ h' => h'.live = update h.live b none) h := by
  rw [free, if_pos h0, wpIf_bind]
  refine wpIf_mono (wpIf_of_keeps (keeps_of_id (f := Heap.live) (keeps_blockToArena b))) ?_
  intro a h₁ hlive₁
  rw [wpIf_bind, wpIf_get]
  cases hdesc : (h₁.arena a).desc with
  | none =>
    simp only [hdesc, setLive, setMine, wpIf_bind, wpIf_modify]
    refine wpIf_mono (wpIf_of_keeps (f := Heap.live) (keeps_zoom fun _ _ => rfl)) ?_
    intro _ h₂ hlive₂
    rw [hlive₂, ← hlive₁]
  | some d =>
    simp only [hdesc, freeBlock, setLive, setArena, wpIf_bind, wpIf_follow, wpIf_modify]
    refine ⟨fun x _ => ?_, False.elim⟩
    refine wpIf_mono (wpIf_of_keeps (live_of_rest (keeps_onFreeList _))) ?_
    intro _ h₂ hlive₂
    rw [wpIf_get]
    refine wpIf_mono (wpIf_of_keeps (f := Heap.live) (keeps_ite (keeps_bind (keeps_assert _)
      fun _ => keeps_freeArena a x) (keeps_pure _))) ?_
    intro _ h₃ hlive₃
    rw [hlive₃, ← hlive₁]
    exact hlive₂

theorem freeBytes_live (h0 : b ≠ 0) (junk : Junk × Junk) :
    wpIf False (freeBytes junk b) (fun _ h' => h'.live = update h.live b none) h := by
  rw [freeBytes, if_pos h0, wpIf_bind]
  refine wpIf_mono (wpIf_of_keeps (keeps_clearBlock junk.1 b)) ?_
  intro _ h₁ hlive₁
  refine ⟨fun r t heq => ?_, False.elim⟩
  obtain ⟨⟨r', h₂⟩, hm, heq⟩ := Option.map_eq_some_iff.mp heq
  cases heq
  exact ((free_live h0).1 r' h₂ hm).trans (by rw [hlive₁])

end

/-! Blocks that are as large as has been asked for. -/

/-- After `palloc_init` and `malloc_init`. -/
def HeapStarted (kernelEnd ramPages : Nat) (h₀ : Heap) : Prop :=
  physBase ≤ kernelEnd ∧ kernelEnd ≤ physBase + pgsize * ramPages ∧ ramPages < 0x40000 ∧
  ∃ mem bits userPageLimit m links arena,
    pallocInit mem bits kernelEnd ramPages userPageLimit = some m ∧
    mallocInit
      ⟨⟨m, fun _ => none⟩, links, arena, fun _ => false, fun _ => none⟩ = some (descs, h₀)

/-- A state of the allocator, with anything in memory. -/
def AllocatorState (h : Heap) : Prop :=
  ∃ kernelEnd ramPages h₀ h₁ mem, HeapStarted kernelEnd ramPages h₀ ∧
    Reach Heap.step MayDo h₀ h₁ ∧ h = h₁.setMem mem

theorem AllocatorState.ok {h : Heap} (hs : AllocatorState h) : ∃ lo hi, HeapOk lo hi h := by
  obtain ⟨kernelEnd, ramPages, h₀, h₁, mem, hstart, hrun, rfl⟩ := hs
  obtain ⟨hk, hle, hram, _, _, _, _, _, _, hinit, hlists⟩ := hstart
  have hok := hrun.inv (mallocInit_ok hk hle hram hinit hlists) fun _ _ _ hi he hs => hi.step he hs
  exact ⟨_, _, hok.setMem mem⟩

/-- A live block with this number of bytes, which `block_size` knows. -/
def HasExtent (h : Heap) (b n : Nat) : Prop :=
  h.live b = some n ∧ wp (blockSize b) (fun r h' => r = n ∧ h' = h) h

/-- What `malloc` returns has enough bytes. -/
def MallocFits (h : Heap) (size : Nat) : Prop :=
  wp (malloc size) (fun r h' => r = 0 ∨ ∃ n, HasExtent h' r n ∧ size ≤ n) h

/-- `realloc` fails and leaves the block as it is, or there is another block with enough bytes,
    and what was in the old one. -/
def ReallocFits (junk : Nat → Junk) (h : Heap) (p size : Nat) : Prop :=
  wp (realloc junk p size) (fun r h' =>
    (r = 0 ∧ h'.live = h.live ∧ ∀ m, h.live p = some m → SameBytes h h' p m) ∨
    ∃ n, HasExtent h' r n ∧ size ≤ n ∧
      h'.live = update (update h.live r (some n)) p none ∧
      ∀ m i, h.live p = some m → i < min size m → h'.mem (r + i) = h.mem (p + i)) h

/-- `calloc` fails, or there is a block with enough bytes, which are zero. -/
def CallocFits (junk : Nat → Junk) (h : Heap) (a b : Nat) : Prop :=
  wp (calloc junk a b) (fun p h' => (p = 0 ∨ ∃ n, HasExtent h' p n ∧ a * b ≤ n ∧
      ∀ i < a * b, h'.mem (p + i) = 0) ∧ (wordSize ≤ a * b → p = 0)) h

section
variable {lo hi : Nat} {h : Heap} {b n : Nat}

theorem HeapOk.hasExtent (hh : HeapOk lo hi h) (hb : h.live b = some n) : HasExtent h b n := by
  obtain ⟨q, hq⟩ := hh.inv
  exact ⟨hb, blockSize_spec hq hb⟩

theorem available_top (hle : wordSize - 11 ≤ size) (hlt : size < wordSize) :
    Available h size ↔ FreeRun h.palloc.memory.kernelPool 1 := by
  have hfind : descs.findIdx? (size ≤ ·.blockSize) = none := by
    rw [List.findIdx?_eq_none_iff]
    have hall : ∀ x ∈ descs, x.blockSize < wordSize - 11 := by decide
    intro x hx
    have := hall x hx
    rw [decide_eq_false_iff_not]
    omega
  have hone : bigPages size = 1 := by
    simp only [bigPages, arenaSize, pgsize, wordSize] at hle hlt ⊢
    omega
  rw [Available, hfind, hone, and_iff_right]
  simp only [wordSize] at hle
  omega

theorem fits_iff (hlt : size < wordSize) :
    (Available h size → size ≤ extent size) ↔
      size < wordSize - 11 ∨ ¬FreeRun h.palloc.memory.kernelPool 1 := by
  by_cases hsize : size < wordSize - 11
  · exact ⟨fun _ => Or.inl hsize, fun _ hav => (le_extent hav hlt).mpr hsize⟩
  · rw [or_iff_right hsize, ← available_top (by omega) hlt]
    exact ⟨fun hfit hav => hsize ((le_extent hav hlt).mp (hfit hav)), fun hno hav => absurd hav hno⟩

theorem mallocFits_iff (hh : HeapOk lo hi h) :
    MallocFits h size ↔ (Available h size → size ≤ extent size) := by
  obtain ⟨r, h', hm, hh', hr⟩ := malloc_spec hh size
  cases hr with
  | inl hr =>
    refine ⟨fun _ hav => absurd hav hr.2.2, fun _ => ⟨r, h', hm, Or.inl hr.1⟩⟩
  | inr hr =>
    obtain ⟨hav, hdead, hlive⟩ := hr
    have hr' : h'.live r = some (extent size) := by rw [hlive, update_self]
    constructor
    · intro hfits _
      cases wp_elim hfits hm with
      | inl h0 =>
        obtain ⟨q, hq⟩ := hh'.inv
        exact absurd h0 (hq.ne_zero hr')
      | inr hfit =>
        obtain ⟨n, hext, hle⟩ := hfit
        cases hext.1.symm.trans hr'
        exact hle
    · intro hle
      exact ⟨r, h', hm, Or.inr ⟨_, hh'.hasExtent hr', hle hav⟩⟩

theorem keeps_blockSize (b : Nat) : Keeps id (blockSize b) := by
  refine keeps_bind (keeps_blockToArena b) fun a => keeps_bind keeps_get fun h => ?_
  dsimp only
  cases (h.arena a).desc with
  | none => exact keeps_pure _
  | some d => exact keeps_bind (keeps_follow _) fun x => keeps_pure _

theorem keeps_copyBytes (junk : Junk) (dst src k : Nat) :
    Keeps Heap.live (copyBytes junk dst src k) :=
  keeps_bind keeps_get fun _ => keeps_bind (keeps_assert _) fun _ => keeps_bind keeps_get fun _ =>
    keeps_writeBytes junk dst k _

section
variable (hh : HeapOk lo hi h)
include hh

theorem copyBytes_spec (hb : h.live b = some n) (junk : Junk) {src m : Nat}
    (hsrc : h.live src = some m) (hm : k ≤ m) (hk : k ≤ n) :
    wp (copyBytes junk b src k) (fun _ h' => HeapOk lo hi h' ∧ h'.live = h.live ∧
      ∀ i < k, h'.mem (b + i) = h.mem (src + i)) h := by
  obtain ⟨q, hq⟩ := hh.inv
  have hend := hq.live_ramEnd hsrc
  simp only [copyBytes, wp_bind, wp_get, wp_assert, decide_eq_true_eq]
  refine ⟨by omega, wp_mono (writeBytes_spec hh hb junk hk _) ?_⟩
  rintro _ h' ⟨hh', hlive, hmem⟩
  refine ⟨hh', hlive, fun i hi => ?_⟩
  rw [hmem]
  show (if b ≤ b + i ∧ b + i < b + k then h.mem (src + (b + i - b)) else h.mem (b + i)) = _
  rw [if_pos (by omega), Nat.add_sub_cancel_left]

/-- Where there is a block it is returned, whether it is large enough or not. -/
theorem realloc_live (junk : Nat → Junk) (hp : p = 0 ∨ h.live p ≠ none) (hpos : size ≠ 0) :
    wpIf False (realloc junk p size) (fun r h' => Available h size → r ≠ 0 ∧
      h'.live r = some (extent size)) h := by
  rw [realloc, if_neg hpos, wpIf_bind]
  refine wpIf_mono (wpIf_of_wp (mallocBytes_spec hh (junk 0) size)) ?_
  rintro r h₁ ⟨_, _, hr⟩
  cases hr with
  | inl hr => grind [wpIf_pure]
  | inr hr =>
    obtain ⟨h0, -, hdead, hlive⟩ := hr
    have hr₁ : h₁.live r = some (extent size) := by rw [hlive, update_self]
    by_cases hp0 : p = 0
    · grind [wpIf_pure]
    · rw [if_pos ⟨hp0, h0⟩]
      simp only [wpIf_bind, wpIf_pure]
      refine wpIf_mono (wpIf_of_keeps (keeps_of_id (f := Heap.live) (keeps_blockSize p))) ?_
      intro old h₂ hlive₂
      refine wpIf_mono (wpIf_of_keeps (keeps_copyBytes (junk 1) r p _)) ?_
      intro _ h₃ hlive₃
      refine wpIf_mono (freeBytes_live hp0 (junk 2, junk 3)) ?_
      intro _ h₄ hlive₄ _
      have hne : r ≠ p := by
        intro heq
        exact hp.resolve_left hp0 (heq ▸ hdead)
      rw [hlive₄, update_of_ne hne, hlive₃, hlive₂]
      exact ⟨h0, hr₁⟩

/-- If what `malloc` finds is large enough, `realloc` does what it should. -/
theorem realloc_fits (junk : Nat → Junk) (hp : p = 0 ∨ h.live p ≠ none) (hpos : size ≠ 0)
    (hfit : Available h size → size ≤ extent size) : ReallocFits junk h p size := by
  rw [ReallocFits, realloc, if_neg hpos, wp_bind]
  refine wp_mono (mallocBytes_spec hh (junk 0) size) ?_
  rintro r h₁ ⟨hh₁, hsame₁, hr⟩
  cases hr with
  | inl hr => grind [wp_pure]
  | inr hr =>
    obtain ⟨h0, hav, hdead, hlive₁⟩ := hr
    have hr₁ : h₁.live r = some (extent size) := by rw [hlive₁, update_self]
    cases hlp : h.live p with
    | none => grind [wp_pure, hh₁.hasExtent, update_eq_self_iff]
    | some m =>
      have hne : p ≠ r := by
        intro heq
        rw [heq, hdead] at hlp
        cases hlp
      have hp0 : p ≠ 0 := by
        obtain ⟨q, hq⟩ := hh.inv
        exact hq.ne_zero hlp
      have hp₁ : h₁.live p = some m := by rw [hlive₁, update_of_ne hne, hlp]
      obtain ⟨q, hq₁⟩ := hh₁.inv
      rw [if_pos ⟨hp0, h0⟩]
      simp only [wp_bind, wp_pure]
      refine wp_mono (blockSize_spec hq₁ hp₁) ?_
      rintro old h₂ ⟨hold, heq⟩
      subst hold heq
      have hmin : (if size < old then size else old) = min size old := by
        split <;> omega
      rw [hmin]
      refine wp_mono (copyBytes_spec hh₁ hr₁ (junk 1) hp₁ (Nat.min_le_right ..)
        ((Nat.min_le_left ..).trans (hfit hav))) ?_
      rintro _ h₃ ⟨hh₃, hlive₃, hcopy⟩
      have hp₃ : h₃.live p = some old := by rw [hlive₃, hp₁]
      have hr₃ : h₃.live r = some (extent size) := by rw [hlive₃, hr₁]
      refine wp_mono (freeBytes_spec hh₃ hp₃ (junk 2, junk 3)) ?_
      rintro _ h₄ ⟨hh₄, hlive₄, hsame₄⟩
      have hr₄ : h₄.live r = some (extent size) := by
        rw [hlive₄, update_of_ne hne.symm, hr₃]
      refine Or.inr ⟨_, hh₄.hasExtent hr₄, hfit hav, ?_, fun m i hm hi => ?_⟩
      · rw [hlive₄, hlive₃, hlive₁]
      · cases hm
        have hle := hfit hav
        calc h₄.mem (r + i) = h₃.mem (r + i) :=
              hsame₄ r _ hr₃ hne.symm _ (by omega) (by omega)
          _ = h₂.mem (p + i) := hcopy i hi
          _ = h.mem (p + i) := hsame₁ p old hlp _ (by omega) (by omega)

theorem reallocFits_iff (junk : Nat → Junk) (hp : p = 0 ∨ h.live p ≠ none) (hpos : size ≠ 0) :
    ReallocFits junk h p size ↔ (Available h size → size ≤ extent size) := by
  refine ⟨fun hfits hav => ?_, realloc_fits hh junk hp hpos⟩
  obtain ⟨r, h', -, hr, hlive⟩ := wp_and_wpIf hfits (realloc_live hh junk hp hpos)
  obtain ⟨h0, hlive⟩ := hlive hav
  cases hr with
  | inl hr => exact absurd hr.1 h0
  | inr hr =>
    obtain ⟨n, hext, hle, -⟩ := hr
    cases hext.1.symm.trans hlive
    exact hle

/-- What the test of `calloc` lets pass, and for what there is memory. -/
def Passes (h : Heap) (a b : Nat) : Prop :=
  a ≤ a * b % wordSize ∧ b ≤ a * b % wordSize ∧ Available h (a * b % wordSize)

theorem calloc_live (junk : Nat → Junk) (hpass : Passes h a b) :
    wpIf False (calloc junk a b) (fun p h' => p ≠ 0 ∧
      h'.live p = some (extent (a * b % wordSize))) h := by
  obtain ⟨ha, hb, hav⟩ := hpass
  rw [calloc, if_neg (by omega), wpIf_bind]
  refine wpIf_mono (wpIf_of_wp (mallocBytes_spec hh (junk 0) _)) ?_
  rintro p h₁ ⟨_, _, hp⟩
  cases hp with
  | inl hp => exact absurd hav hp.2.2
  | inr hp =>
    obtain ⟨h0, -, -, hlive⟩ := hp
    rw [if_pos h0]
    simp only [wpIf_bind, wpIf_pure]
    refine wpIf_mono (wpIf_of_keeps (keeps_writeBytes (junk 1) p _ _)) ?_
    intro _ h₂ hlive₂
    rw [hlive₂, hlive, update_self]
    exact ⟨h0, rfl⟩

theorem calloc_fits (junk : Nat → Junk)
    (hfit : Passes h a b → a * b < wordSize ∧ a * b < wordSize - 11) : CallocFits junk h a b := by
  rw [CallocFits, calloc, wp_ite]
  refine ⟨fun _ => wp_pure.mpr ⟨Or.inl rfl, fun _ => rfl⟩, fun hno => ?_⟩
  rw [wp_bind]
  refine wp_mono (mallocBytes_spec hh (junk 0) _) ?_
  rintro p h₁ ⟨hh₁, _, hp⟩
  cases hp with
  | inl hp => grind [wp_pure]
  | inr hp =>
    obtain ⟨h0, hav, -, hlive⟩ := hp
    obtain ⟨hlt, hsmall⟩ := hfit ⟨by omega, by omega, hav⟩
    rw [Nat.mod_eq_of_lt hlt] at hav hlive ⊢
    have hle := (le_extent hav hlt).mpr hsmall
    have hp₁ : h₁.live p = some (extent (a * b)) := by rw [hlive, update_self]
    rw [if_pos h0]
    simp only [wp_bind, wp_pure]
    refine wp_mono (writeBytes_spec hh₁ hp₁ (junk 1) hle _) ?_
    rintro _ h₂ ⟨hh₂, hlive₂, hmem₂⟩
    have hp₂ : h₂.live p = some (extent (a * b)) := by rw [hlive₂, hp₁]
    refine ⟨Or.inr ⟨_, hh₂.hasExtent hp₂, hle, fun i hi => ?_⟩, fun hge => absurd hge (by omega)⟩
    rw [hmem₂]
    exact if_pos (by omega)

end

end

/-- **`malloc` and `realloc` return too small a block for the last eleven sizes, and for no
    others.** For these `size + sizeof *a` wraps, and the number of pages becomes one; the block
    has 4084 bytes. -/
theorem realloc_fits_iff {h : Heap} (hs : AllocatorState h) {size : Nat} (hsize : size < wordSize)
    (junk : Nat → Junk) {p n : Nat} (hp : p = 0 ∨ h.live p ≠ none) (hpos : 0 < n)
    (hn : n < wordSize) :
    (MallocFits h size ↔ size < wordSize - 11 ∨ ¬FreeRun h.palloc.memory.kernelPool 1) ∧
    (ReallocFits junk h p n ↔ n < wordSize - 11 ∨ ¬FreeRun h.palloc.memory.kernelPool 1) := by
  obtain ⟨lo, hi, hh⟩ := hs.ok
  rw [mallocFits_iff hh, reallocFits_iff hh junk hp (by omega)]
  exact ⟨fits_iff hsize, fits_iff hn⟩

def zeroJunk : Junk := ⟨fun _ => 0, ⟨fun _ => none, fun _ => none⟩, fun _ => ⟨0, none, 0⟩⟩

/-- A block is returned that has fewer bytes. -/
def tooSmall (size : Nat) (x : Nat × Heap) : Bool := x.1 ≠ 0 && (x.2.live x.1).any (· < size)

theorem exists_oneBlock : ∃ h, AllocatorState h ∧ h.live 0xc010100c = some 1024 ∧
    (malloc 0xffffffff h).any (tooSmall 0xffffffff) = true ∧
    (realloc (fun _ => zeroJunk) 0xc010100c 0xffffffff h).any (tooSmall 0xffffffff) = true := by
  have hall : (smallMemory.any fun m => (mallocInit (emptyHeap m)).any fun x =>
      runOk Heap.step mayDoB x.2 [.malloc 1000] &&
      (run Heap.step x.2 [.malloc 1000]).any fun h => h.live 0xc010100c = some 1024 &&
        (malloc 0xffffffff h).any (tooSmall 0xffffffff) &&
        (realloc (fun _ => zeroJunk) 0xc010100c 0xffffffff h).any (tooSmall 0xffffffff)) = true := by
    decide +kernel
  obtain ⟨m, hm, hall⟩ := (Option.any_eq_true _ _).mp hall
  obtain ⟨⟨_, h₀⟩, h₀eq, hall⟩ := (Option.any_eq_true _ _).mp hall
  obtain rfl := (wp_elim mallocInit_spec h₀eq).1
  rw [Bool.and_eq_true] at hall
  obtain ⟨h, hr, hq⟩ := exists_reach Heap.step _ [.malloc 1000] _ (fun _ _ => mayDo_of_mayDoB)
    hall.1 hall.2
  rw [Bool.and_eq_true, Bool.and_eq_true, decide_eq_true_eq] at hq
  exact ⟨h, ⟨_, _, h₀, h, h.mem, ⟨by decide, by decide, by decide, _, _, _, m, _, _, hm, h₀eq⟩, hr,
    rfl⟩, hq.1.1, hq.1.2, hq.2⟩

theorem realloc_fits_iff_oneBlock : ∃ h, AllocatorState h ∧ h.live 0xc010100c = some 1024 ∧
    MallocFits h 600 ∧ ReallocFits (fun _ => zeroJunk) h 0xc010100c 2000 := by
  obtain ⟨h, hs, hlive, -⟩ := exists_oneBlock
  have hne : h.live 0xc010100c ≠ none := by
    rw [hlive]
    exact Option.some_ne_none _
  have hiff := realloc_fits_iff hs (by decide : 600 < wordSize) (fun _ => zeroJunk) (Or.inr hne)
    (by decide : 0 < 2000) (by decide)
  exact ⟨h, hs, hlive, hiff.1.mpr (Or.inl (by decide)), hiff.2.mpr (Or.inl (by decide))⟩

/-- A request for almost 4 GiB is answered with 4084 bytes. -/
theorem realloc_too_small : ∃ h, AllocatorState h ∧ ¬MallocFits h 0xffffffff ∧
    ∃ p, h.live p ≠ none ∧ ¬ReallocFits (fun _ => zeroJunk) h p 0xffffffff := by
  obtain ⟨h, hs, hlive, hmalloc, hrealloc⟩ := exists_oneBlock
  refine ⟨h, hs, fun hfits => ?_, 0xc010100c, ?_, fun hfits => ?_⟩
  · obtain ⟨⟨r, h'⟩, hm, hsmall⟩ := (Option.any_eq_true _ _).mp hmalloc
    simp only [tooSmall, Bool.and_eq_true, decide_eq_true_eq] at hsmall
    cases wp_elim hfits hm with
    | inl h0 => exact hsmall.1 h0
    | inr hext =>
      obtain ⟨n, hn, hle⟩ := hext
      rw [hn.1, Option.any_some, decide_eq_true_eq] at hsmall
      omega
  · rw [hlive]
    exact Option.some_ne_none _
  · obtain ⟨⟨r, h'⟩, hm, hsmall⟩ := (Option.any_eq_true _ _).mp hrealloc
    simp only [tooSmall, Bool.and_eq_true, decide_eq_true_eq] at hsmall
    cases wp_elim hfits hm with
    | inl h0 => exact hsmall.1 h0.1
    | inr hext =>
      obtain ⟨n, hn, hle, -⟩ := hext
      rw [hn.1, Option.any_some, decide_eq_true_eq] at hsmall
      omega

/-- **`calloc` overlooks an overflow if the wrapped product is at least as large as both
    factors**, and fails otherwise for the sizes for which `malloc` does. -/
theorem calloc_fits_iff {h : Heap} (hs : AllocatorState h) (junk : Nat → Junk) (a b : Nat) :
    CallocFits junk h a b ↔ ¬(Passes h a b ∧
      (wordSize ≤ a * b ∨ wordSize - 11 ≤ a * b % wordSize)) := by
  obtain ⟨lo, hi, hh⟩ := hs.ok
  constructor
  · rintro hfits ⟨hpass, hbad⟩
    obtain ⟨p, h', -, hp, h0, hlive⟩ := wp_and_wpIf hfits (calloc_live hh junk hpass)
    by_cases hover : wordSize ≤ a * b
    · exact h0 (hp.2 hover)
    · have hlt : a * b < wordSize := by omega
      have htop := hbad.resolve_left hover
      have hav := hpass.2.2
      rw [Nat.mod_eq_of_lt hlt] at hlive htop hav
      obtain ⟨n, hext, hle, -⟩ := hp.1.resolve_left h0
      cases hext.1.symm.trans hlive
      have := (le_extent hav hlt).mp hle
      omega
  · grind [calloc_fits, Nat.mod_eq_of_lt]

theorem exists_manyPages : ∃ h, AllocatorState h ∧
    (calloc (fun _ => zeroJunk) 0x10001 0x10001 h).any (fun x => x.1 ≠ 0) = true := by
  have hall : ((pallocInit (fun _ => 0) (fun _ _ => 0) 0xc0100000 328 0xffffffff).any fun m =>
      (mallocInit (emptyHeap m)).any fun x =>
        (calloc (fun _ => zeroJunk) 0x10001 0x10001 x.2).any fun x => x.1 ≠ 0) = true := by
    decide +kernel
  obtain ⟨m, hm, hall⟩ := (Option.any_eq_true _ _).mp hall
  obtain ⟨⟨_, h₀⟩, h₀eq, hall⟩ := (Option.any_eq_true _ _).mp hall
  obtain rfl := (wp_elim mallocInit_spec h₀eq).1
  exact ⟨h₀, ⟨_, _, h₀, h₀, h₀.mem, ⟨by decide, by decide, by decide, _, _, _, m, _, _, hm, h₀eq⟩,
    .refl, rfl⟩, hall⟩

theorem calloc_fits_iff_small : ∃ h, AllocatorState h ∧ CallocFits (fun _ => zeroJunk) h 7 11 := by
  obtain ⟨h, hs, -⟩ := exists_manyPages
  refine ⟨h, hs, (calloc_fits_iff hs _ 7 11).mpr fun hbad => ?_⟩
  exact absurd hbad.2 (by decide)

/-- The product is 2^32 + 131073, and 131073 bytes are returned. -/
theorem calloc_overlooks : ∃ h, AllocatorState h ∧
    ¬CallocFits (fun _ => zeroJunk) h 0x10001 0x10001 := by
  obtain ⟨h, hs, hcalloc⟩ := exists_manyPages
  refine ⟨h, hs, fun hfits => ?_⟩
  obtain ⟨⟨p, h'⟩, hm, h0⟩ := (Option.any_eq_true _ _).mp hcalloc
  have hp := wp_elim hfits hm
  exact absurd (hp.2 (by decide)) (by simpa using h0)

end Pintos.Threads
