import Pintos.Kernel.List
import Pintos.Threads.Palloc

/- The block allocator, `threads/malloc.c`.

   Pages come from `palloc_get_multiple` of the page allocator. The first bytes of a run of
   pages are a `struct arena`; behind it are the blocks of one size, or one big block. Free
   blocks are linked through their own first bytes, so a free list is in the links of
   `lib/kernel/list.c`, at the addresses of the blocks. What the owners of blocks and of
   other pages write may look like headers and links, too; `write` below is about that.

   Correspondence (C ↔ Lean):
     `struct desc`, `malloc_init`, and `descs` then ↔ `Desc`, `mallocInit`, `descs`
     `struct arena`                                 ↔ `Arena`; `desc` is an index of `descs`
     `free_list` of the descriptor `d`              ↔ the list `d` of `links`
     `block_to_arena`, `arena_to_block`             ↔ `blockToArena`, `arenaToBlock`
     `malloc`, `free`                               ↔ `malloc`, `free`
   The locks of the descriptors are left out: a call is one step. `free` clears the block
   before it links it, which changes nothing here. -/
namespace Pintos.Threads

open Vm (wordSize pgsize physBase pgRoundDown pgOfs)
open Lib Kernel Function

variable {c n size : Nat} {l l' : List Nat}

structure Desc where
  blockSize : Nat
  blocksPerArena : Nat
  deriving DecidableEq

def arenaMagic : Nat := 0x9a548eed

def arenaSize : Nat := 12

structure Arena where
  magic : Nat
  desc : Option Nat
  freeCnt : Nat
  deriving DecidableEq

def descs : List Desc :=
  [⟨16, 255⟩, ⟨32, 127⟩, ⟨64, 63⟩, ⟨128, 31⟩, ⟨256, 15⟩, ⟨512, 7⟩, ⟨1024, 3⟩]

/-- The last two say which runs of pages are arenas and big blocks, and which blocks are
    live and how many bytes they have. -/
structure Heap where
  palloc : Palloc
  links : Links Nat Nat
  arena : Nat → Arena
  mine : Nat → Bool
  live : Nat → Option Nat

abbrev MallocM := Cmd Heap

def onPalloc {α : Type} (m : Cmd Palloc α) : MallocM α :=
  zoom Heap.palloc (fun p h => { h with palloc := p }) m

def onFreeList {α : Type} (m : ListM Nat Nat α) : MallocM α :=
  zoom Heap.links (fun L h => { h with links := L }) m

/-- The loop of `malloc_init`, from the descriptor `d` on; `left` is the number of
    descriptors there is still room for. -/
def initDescs : (left d blockSize : Nat) → MallocM (List Desc)
  | 0, _, blockSize => do
    assert (pgsize / 2 ≤ blockSize)
    return []
  | left + 1, d, blockSize =>
    if blockSize < pgsize / 2 then do
      onFreeList (listInit d)
      let ds ← initDescs left (d + 1) (blockSize * 2)
      return ⟨blockSize, (pgsize - arenaSize) / blockSize⟩ :: ds
    else return []

def mallocInit : MallocM (List Desc) := initDescs 10 0 16

def setArena (a : Nat) (x : Arena) : MallocM Unit :=
  modify fun h => { h with arena := update h.arena a x }

def setMine (a : Nat) (b : Bool) : MallocM Unit :=
  modify fun h => { h with mine := update h.mine a b }

def setLive (b : Nat) (size : Option Nat) : MallocM Unit :=
  modify fun h => { h with live := update h.live b size }

def blockToArena (b : Nat) : MallocM Nat := do
  let a := pgRoundDown b
  assert (a ≠ 0)
  let x := (← get).arena a
  assert (x.magic = arenaMagic)
  match x.desc with
  | some d =>
    let d ← follow descs[d]?
    assert ((pgOfs b + wordSize - arenaSize) % wordSize % d.blockSize = 0)
  | none => assert (pgOfs b = arenaSize)
  return a

def arenaToBlock (a idx : Nat) : MallocM Nat := do
  assert (a ≠ 0)
  let x := (← get).arena a
  assert (x.magic = arenaMagic)
  let d ← follow (x.desc.bind (descs[·]?))
  assert (idx < d.blocksPerArena)
  return (a + arenaSize + idx * d.blockSize) % wordSize

/-- The loop that adds the blocks of a new arena, from the block `i`. -/
def addBlocks (a d : Nat) : (cnt i : Nat) → MallocM Unit
  | 0, _ => pure ()
  | cnt + 1, i => do
    let b ← arenaToBlock a i
    onFreeList (listPushBack d b)
    addBlocks a d cnt (i + 1)

/-- The loop that removes the blocks of an unused arena. -/
def removeBlocks (a : Nat) : (cnt i : Nat) → MallocM Unit
  | 0, _ => pure ()
  | cnt + 1, i => do
    let b ← arenaToBlock a i
    let _ ← onFreeList (listRemove (.elem b))
    removeBlocks a cnt (i + 1)

def kernelPages : PallocFlags := ⟨false, false, false⟩

def newArena (d : Nat) : MallocM Bool := do
  let a ← onPalloc (Palloc.get kernelPages 1)
  if a = 0 then return false
  else
    let x ← follow descs[d]?
    setArena a ⟨arenaMagic, some d, x.blocksPerArena⟩
    setMine a true
    addBlocks a d x.blocksPerArena 0
    return true

/-- The number of pages for a big block; the sums are of type `size_t`. -/
def bigPages (size : Nat) : Nat :=
  ((size + arenaSize) % wordSize + pgsize - 1) % wordSize / pgsize

def mallocBig (size : Nat) : MallocM Nat := do
  let a ← onPalloc (Palloc.get kernelPages (bigPages size))
  if a = 0 then return 0
  else
    setArena a ⟨arenaMagic, none, bigPages size⟩
    setMine a true
    setLive (a + arenaSize) (some (pgsize * bigPages size - arenaSize))
    return a + arenaSize

/-- A block is taken from the free list of `d`. -/
def takeBlock (d : Nat) : MallocM Nat := do
  let n ← onFreeList (listPopFront d)
  let b ← onFreeList (listEntry n)
  let a ← blockToArena b
  let x := (← get).arena a
  setArena a { x with freeCnt := (x.freeCnt + wordSize - 1) % wordSize }
  setLive b (some (← follow descs[d]?).blockSize)
  return b

def malloc (size : Nat) : MallocM Nat := do
  if size = 0 then return 0
  else
    match descs.findIdx? (size ≤ ·.blockSize) with
    | none => mallocBig size
    | some d =>
      let ok ← (if listEmpty (← get).links d then newArena d else pure true)
      if ok then takeBlock d else return 0

/-- The page of an arena is given back. -/
def freeArena (a : Nat) (x : Desc) : MallocM Unit := do
  removeBlocks a x.blocksPerArena 0
  setMine a false
  onPalloc (Palloc.free a 1)

def freeBlock (a d b : Nat) : MallocM Unit := do
  let x ← follow descs[d]?
  setLive b none
  onFreeList (listPushFront d b)
  let h := (← get).arena a
  let cnt := (h.freeCnt + 1) % wordSize
  setArena a { h with freeCnt := cnt }
  if cnt ≥ x.blocksPerArena then do
    assert (cnt = x.blocksPerArena)
    freeArena a x
  else pure ()

def free (p : Nat) : MallocM Unit :=
  if p ≠ 0 then do
    let a ← blockToArena p
    let x := (← get).arena a
    match x.desc with
    | some d => freeBlock a d p
    | none => do
      setLive p none
      setMine a false
      onPalloc (Palloc.free a x.freeCnt)
  else pure ()

/-! The blocks of an arena. -/

theorem desc_bounds {d : Nat} {x : Desc} (h : descs[d]? = some x) :
    16 ≤ x.blockSize ∧ 2 ≤ x.blocksPerArena ∧ x.blocksPerArena < 256 ∧
      arenaSize + x.blocksPerArena * x.blockSize ≤ pgsize := by
  have hall : ∀ x ∈ descs, 16 ≤ x.blockSize ∧ 2 ≤ x.blocksPerArena ∧ x.blocksPerArena < 256 ∧
      arenaSize + x.blocksPerArena * x.blockSize ≤ pgsize := by decide
  exact hall x (List.mem_of_getElem? h)

def blockAt (x : Desc) (a k : Nat) : Nat := a + arenaSize + k * x.blockSize

def blocksFrom (x : Desc) (a i cnt : Nat) : List Nat := (List.range' i cnt).map (blockAt x a)

def blocks (x : Desc) (a : Nat) : List Nat := blocksFrom x a 0 x.blocksPerArena

def inPage (a b : Nat) : Bool := pgRoundDown b = a

section Blocks
variable {x : Desc} {a b c d : Nat}

theorem mem_blocks : b ∈ blocks x a ↔ ∃ k < x.blocksPerArena, b = blockAt x a k := by
  simp [blocks, blocksFrom, eq_comm]

@[simp] theorem length_blocks : (blocks x a).length = x.blocksPerArena := by
  simp [blocks, blocksFrom]

theorem blocksFrom_succ (i cnt : Nat) :
    blocksFrom x a i (cnt + 1) = blockAt x a i :: blocksFrom x a (i + 1) cnt := by
  simp [blocksFrom, List.range'_succ]

theorem nodup_blocksFrom (hx : descs[d]? = some x) (i cnt : Nat) :
    (blocksFrom x a i cnt).Nodup := by
  refine List.Nodup.map (fun k k' hk => ?_) List.nodup_range'
  have hpos : 0 < x.blockSize := by have := (desc_bounds hx).1; omega
  exact Nat.eq_of_mul_eq_mul_right hpos (Nat.add_left_cancel hk)

/-- A block lies behind the header in the page of its arena. -/
theorem block_bounds (hx : descs[d]? = some x) (hb : b ∈ blocks x a) :
    a + arenaSize ≤ b ∧ b + x.blockSize ≤ a + pgsize := by
  obtain ⟨k, hk, rfl⟩ := mem_blocks.mp hb
  have hle : (k + 1) * x.blockSize ≤ x.blocksPerArena * x.blockSize := Nat.mul_le_mul_right _ hk
  have := (desc_bounds hx).2.2.2
  rw [Nat.add_mul, Nat.one_mul] at hle
  simp only [blockAt]
  omega

theorem pgRoundDown_of_bounds (ha : a % pgsize = 0) (h₁ : a ≤ b) (h₂ : b < a + pgsize) :
    pgRoundDown b = a := by
  simp only [pgRoundDown, pgsize] at *
  omega

theorem page_of_block (hx : descs[d]? = some x) (ha : a % pgsize = 0) (hb : b ∈ blocks x a) :
    pgRoundDown b = a := by
  obtain ⟨h₁, h₂⟩ := block_bounds hx hb
  have := (desc_bounds hx).1
  exact pgRoundDown_of_bounds ha (by omega) (by omega)

theorem blocks_apart (hb : b ∈ blocks x a) (hc : c ∈ blocks x a) (hne : b ≠ c) :
    Apart b x.blockSize c x.blockSize := by
  obtain ⟨k, -, rfl⟩ := mem_blocks.mp hb
  obtain ⟨k', -, rfl⟩ := mem_blocks.mp hc
  have hkk : k < k' ∨ k' < k := by grind
  rcases hkk with hlt | hlt
  · have := Nat.mul_le_mul_right x.blockSize hlt
    rw [Nat.succ_mul] at this
    simp only [Apart, blockAt]
    omega
  · have := Nat.mul_le_mul_right x.blockSize hlt
    rw [Nat.succ_mul] at this
    simp only [Apart, blockAt]
    omega

/-- A free list has all blocks of an arena if and only if it has enough of them. -/
theorem count_blocks (hx : descs[d]? = some x) (ha : a % pgsize = 0) (hl : l.Nodup)
    (hin : ∀ b ∈ l, pgRoundDown b = a → b ∈ blocks x a) :
    l.countP (inPage a) ≤ x.blocksPerArena ∧
      (l.countP (inPage a) = x.blocksPerArena ↔ ∀ b ∈ blocks x a, b ∈ l) := by
  rw [List.countP_eq_length_filter]
  have hsub : (l.filter (inPage a)).Subperm (blocks x a) := by
    grind [List.subperm_of_subset, inPage]
  have hle := hsub.length_le
  rw [length_blocks] at hle
  refine ⟨hle, fun heq b hb => ?_, fun hall => Nat.le_antisymm hle ?_⟩
  · have hperm := hsub.perm_of_length_le (by rw [length_blocks, heq])
    exact (List.mem_filter.mp (hperm.mem_iff.mpr hb)).1
  · have hsub' : (blocks x a).Subperm (l.filter (inPage a)) := by
      refine List.subperm_of_subset (nodup_blocksFrom hx 0 _) fun b hb => ?_
      exact List.mem_filter.mpr ⟨hall b hb, by simpa [inPage] using page_of_block hx ha hb⟩
    simpa using hsub'.length_le

end Blocks

/-! The invariant. -/

/-- A run of pages is an arena or a big block. -/
inductive Chunk (h : Heap) (q : Nat → Option (List Nat)) (a : Nat) : Prop
  | arena {d x l} (header : h.arena a = ⟨arenaMagic, some d, l.countP (inPage a)⟩)
      (desc : descs[d]? = some x) (list : q d = some l)
      (pages : h.palloc.live a = some (false, 1))
      (blocks : ∀ b ∈ blocks x a, b ∈ l ∨ h.live b = some x.blockSize)
  | big {cnt} (header : h.arena a = ⟨arenaMagic, none, cnt⟩)
      (pages : h.palloc.live a = some (false, cnt))
      (block : h.live (a + arenaSize) = some (pgsize * cnt - arenaSize))

/-- `b` is a block of the run of pages `a`, and has `size` bytes. -/
inductive BlockOf (h : Heap) (a b size : Nat) : Prop
  | arena {d x} (header : (h.arena a).desc = some d) (desc : descs[d]? = some x)
      (block : b ∈ blocks x a) (size : size = x.blockSize)
  | big (header : (h.arena a).desc = none) (block : b = a + arenaSize)
      (size : size = pgsize * (h.arena a).freeCnt - arenaSize)

/-- A block that is on the free list `d`. -/
structure FreeBlock (h : Heap) (d b : Nat) : Prop where
  mine : h.mine (pgRoundDown b) = true
  header : (h.arena (pgRoundDown b)).desc = some d
  block : ∃ x, descs[d]? = some x ∧ b ∈ blocks x (pgRoundDown b)
  dead : h.live b = none

structure HeapInv (lo hi : Nat) (h : Heap) (q : Nat → Option (List Nat)) : Prop where
  palloc : PallocInv lo hi h.palloc
  lists : Lists h.links q
  desc : ∀ {d x}, descs[d]? = some x → ∃ l, q d = some l
  free : ∀ {d l b}, q d = some l → b ∈ l → FreeBlock h d b
  chunk : ∀ {a}, h.mine a = true → Chunk h q a
  live : ∀ {b size}, h.live b = some size →
    h.mine (pgRoundDown b) = true ∧ BlockOf h (pgRoundDown b) b size

/-- The free lists have the same blocks outside the page `a`. -/
structure SameLists (a : Nat) (q q' : Nat → Option (List Nat)) : Prop where
  list : ∀ d l', q' d = some l' → ∃ l, q d = some l ∧
    ∀ c, c ≠ a → l'.filter (inPage c) = l.filter (inPage c)
  kept : ∀ d l, q d = some l → ∃ l', q' d = some l'

/-- What is outside the page `a` is the same. -/
structure SameOff (a : Nat) (h h' : Heap) (q q' : Nat → Option (List Nat)) : Prop where
  mine : ∀ c, c ≠ a → h'.mine c = h.mine c
  arena : ∀ c, c ≠ a → h'.arena c = h.arena c
  pages : ∀ c, c ≠ a → h'.palloc.live c = h.palloc.live c
  live : ∀ b, pgRoundDown b ≠ a → h'.live b = h.live b
  lists : SameLists a q q'

/-- What has been written: the links of the elements `S`, the ends of free lists, and the
    header at `a`. -/
structure Wrote (S : List Nat) (a : Nat) (h h' : Heap) : Prop where
  links : SameLinks S h.links h'.links
  arena : ∀ c, c ≠ a → h'.arena c = h.arena c

section
variable {lo hi cnt : Nat} {h h' : Heap} {q q' : Nat → Option (List Nat)} {a b d : Nat} {x : Desc}
  {Q : Nat → Heap → Prop} {p : Palloc} {v : Option Nat}

theorem PallocInv.bounds (hp : PallocInv lo hi p) {user : Bool} (hl : p.live a = some (user, cnt)) :
    0 < cnt ∧ a % pgsize = 0 ∧ a ≠ 0 ∧ a + pgsize * cnt < wordSize := by
  obtain ⟨hpos, hal, hlo, hend⟩ := hp.inside hl
  have hok := hp.layout.pool user
  have h₁ := hok.above
  have h₂ := hok.map
  have h₃ := hok.fits
  simp only [physBase] at h₁
  dsimp only at hlo hend
  exact ⟨hpos, hal, by omega, by omega⟩

theorem HeapInv.page (hh : HeapInv lo hi h q) (ha : h.mine a = true) :
    ∃ cnt, h.palloc.live a = some (false, cnt) ∧ 0 < cnt ∧ a % pgsize = 0 ∧ a ≠ 0 ∧
      a + pgsize * cnt < wordSize := by
  cases hh.chunk ha with
  | arena _ _ _ hp _ => exact ⟨_, hp, hh.palloc.bounds hp⟩
  | big _ hp _ => exact ⟨_, hp, hh.palloc.bounds hp⟩

theorem HeapInv.not_mine (hh : HeapInv lo hi h q) (hl : h.palloc.live a = none) :
    h.mine a = false := by
  refine eq_false_of_ne_true fun ha => ?_
  obtain ⟨cnt, hl', -⟩ := hh.page ha
  rw [hl] at hl'
  cases hl'

theorem page_of_big (ha : a % pgsize = 0) : pgRoundDown (a + arenaSize) = a :=
  pgRoundDown_of_bounds ha (by omega) (by simp only [arenaSize, pgsize]; omega)

theorem BlockOf.congr (hb : BlockOf h a b size) (harena : h'.arena a = h.arena a) :
    BlockOf h' a b size := by
  cases hb with
  | arena hd hx hm hs => exact .arena (by rw [harena]; exact hd) hx hm hs
  | big hd hm hs => exact .big (by rw [harena]; exact hd) hm (by rw [harena]; exact hs)

theorem SameOff.chunk (hs : SameOff a h h' q q') (hc : Chunk h q c) (hne : c ≠ a)
    (hal : c % pgsize = 0) : Chunk h' q' c := by
  cases hc with
  | arena header desc list pages hb =>
    obtain ⟨l', hl'⟩ := hs.lists.kept _ _ list
    obtain ⟨l, hl, hf⟩ := hs.lists.list _ _ hl'
    cases list.symm.trans hl
    refine .arena ?_ desc hl' ((hs.pages _ hne).trans pages) fun b hm => ?_
    · grind [hs.arena]
    · have hpage := page_of_block desc hal hm
      rw [hs.live b (hpage ▸ hne)]
      refine (hb b hm).imp_left fun hbl => ?_
      have hbf : b ∈ l'.filter (inPage c) := by grind [inPage]
      exact (List.mem_filter.mp hbf).1
  | big header pages hb =>
    refine .big ((hs.arena _ hne).trans header) ((hs.pages _ hne).trans pages) ?_
    rw [hs.live _ (by rw [page_of_big hal]; exact hne), hb]

/-- What has changed in one page only is in order if that page is. -/
theorem HeapInv.onPage (hh : HeapInv lo hi h q) (hs : SameOff a h h' q q')
    (hp : PallocInv lo hi h'.palloc) (hl : Lists h'.links q')
    (hchunk : h'.mine a = true → Chunk h' q' a)
    (hfree : ∀ d l b, q' d = some l → b ∈ l → pgRoundDown b = a → FreeBlock h' d b)
    (hlive : ∀ b size, h'.live b = some size → pgRoundDown b = a →
      h'.mine a = true ∧ BlockOf h' a b size) : HeapInv lo hi h' q' where
  palloc := hp
  lists := hl
  desc := fun hx => by
    obtain ⟨l, hl⟩ := hh.desc hx
    exact hs.lists.kept _ _ hl
  free := fun {d l' b} hl' hb => by
    by_cases hpage : pgRoundDown b = a
    · exact hfree _ _ _ hl' hb hpage
    · obtain ⟨l, hl, hf⟩ := hs.lists.list _ _ hl'
      have hbl : b ∈ l := by
        have hbf : b ∈ l'.filter (inPage (pgRoundDown b)) :=
          List.mem_filter.mpr ⟨hb, by simp [inPage]⟩
        rw [hf _ hpage] at hbf
        exact (List.mem_filter.mp hbf).1
      obtain ⟨h₁, h₂, h₃, h₄⟩ := hh.free hl hbl
      exact ⟨(hs.mine _ hpage).trans h₁, by rw [hs.arena _ hpage]; exact h₂, h₃,
        (hs.live _ hpage).trans h₄⟩
  chunk := fun {c} hc => by grind [hs.mine, hh.page, hs.chunk, hh.chunk]
  live := fun {b size} hb => by
    by_cases hpage : pgRoundDown b = a
    · grind
    · rw [hs.live _ hpage] at hb
      obtain ⟨h₁, h₂⟩ := hh.live hb
      exact ⟨(hs.mine _ hpage).trans h₁, h₂.congr (hs.arena _ hpage)⟩

/-! The functions. -/

theorem wp_onPalloc {α : Type} {m : Cmd Palloc α} {Q : α → Heap → Prop} :
    wp (onPalloc m) Q h ↔ wp m (fun r p => Q r { h with palloc := p }) h.palloc :=
  wp_zoom

theorem wp_onFreeList {α : Type} {m : ListM Nat Nat α} {Q : α → Heap → Prop} :
    wp (onFreeList m) Q h ↔ wp m (fun r L => Q r { h with links := L }) h.links :=
  wp_zoom

theorem wp_blockToArena (hal : a % pgsize = 0) (hne : a ≠ 0)
    (ha : h.arena a = ⟨arenaMagic, some d, n⟩) (hx : descs[d]? = some x) (hb : b ∈ blocks x a)
    (hq : Q a h) : wp (blockToArena b) Q h := by
  have hofs : (pgOfs b + wordSize - arenaSize) % wordSize % x.blockSize = 0 := by
    have hbounds := block_bounds hx hb
    obtain ⟨k, hk, rfl⟩ := mem_blocks.mp hb
    have hsub : (pgOfs (blockAt x a k) + wordSize - arenaSize) % wordSize = k * x.blockSize := by
      grind [desc_bounds, pgOfs, blockAt, wordSize, pgsize]
    rw [hsub, Nat.mul_mod_left]
  simp only [blockToArena, page_of_block hx hal hb, ha, hx, wp_bind, wp_assert, wp_get, wp_follow,
    wp_pure]
  exact ⟨by simpa using hne, by simp, x, rfl, by simpa using hofs, hq⟩

theorem wp_blockToArena_big (hal : a % pgsize = 0) (hne : a ≠ 0)
    (ha : h.arena a = ⟨arenaMagic, none, n⟩) (hq : Q a h) :
    wp (blockToArena (a + arenaSize)) Q h := by
  have hofs : pgOfs (a + arenaSize) = arenaSize := by
    simp only [pgOfs, arenaSize, pgsize] at hal ⊢
    omega
  simp only [blockToArena, page_of_big hal, ha, hofs, wp_bind, wp_assert, wp_get, wp_pure]
  exact ⟨by simpa using hne, by simp, by simp, hq⟩

theorem wp_arenaToBlock {k : Nat} (hne : a ≠ 0) (hend : a + pgsize ≤ wordSize)
    (ha : h.arena a = ⟨arenaMagic, some d, n⟩) (hx : descs[d]? = some x) (hk : k < x.blocksPerArena)
    (hq : Q (blockAt x a k) h) : wp (arenaToBlock a k) Q h := by
  have hmod : (a + arenaSize + k * x.blockSize) % wordSize = blockAt x a k := by
    have hbounds := block_bounds (a := a) hx (mem_blocks.mpr ⟨k, hk, rfl⟩)
    have := (desc_bounds hx).1
    exact Nat.mod_eq_of_lt (by simp only [blockAt] at hbounds; omega)
  simp only [arenaToBlock, ha, Option.bind_some, hx, wp_bind, wp_assert, wp_get, wp_follow,
    wp_pure]
  exact ⟨by simpa using hne, by simp, x, rfl, by simpa using hk, by rw [hmod]; exact hq⟩

theorem addBlocks_spec (hne : a ≠ 0) (hend : a + pgsize ≤ wordSize)
    (hx : descs[d]? = some x) : ∀ (cnt i : Nat) {h : Heap} {q : Nat → Option (List Nat)}
    {l : List Nat}, h.arena a = ⟨arenaMagic, some d, n⟩ → Lists h.links q → q d = some l →
    i + cnt ≤ x.blocksPerArena → (∀ b ∈ blocksFrom x a i cnt, Loose q b) →
    wp (addBlocks a d cnt i) (fun _ h' => ∃ L, h' = { h with links := L } ∧
      SameLinks (l ++ blocksFrom x a i cnt) h.links L ∧
      Lists L (update q d (some (l ++ blocksFrom x a i cnt)))) h
  | 0, i, h, q, l, _, hl, hq, _, _ => by
    refine wp_pure.mpr ⟨h.links, rfl, .refl _ _, ?_⟩
    rw [blocksFrom, List.range'_zero, List.map_nil, List.append_nil, ← hq, update_eq_self]
    exact hl
  | cnt + 1, i, h, q, l, ha, hl, hq, hcnt, hloose => by
    rw [blocksFrom_succ] at hloose ⊢
    have hnew := nodup_blocksFrom (a := a) hx i (cnt + 1)
    rw [blocksFrom_succ, List.nodup_cons] at hnew
    rw [addBlocks, wp_bind]
    refine wp_arenaToBlock hne hend ha hx (by omega) ?_
    rw [wp_bind, wp_onFreeList]
    have hfree := hloose _ (List.mem_cons_self ..)
    refine wp_mono (wp_and (listPushBack_spec hl hq hfree)
      (listPushBack_same (hl.list hq) (hfree d l hq))) ?_
    rintro _ L ⟨hL, hsame⟩
    refine wp_mono (addBlocks_spec hne hend hx cnt (i + 1) (h := { h with links := L }) ha hL
      (update_self ..) (by omega) fun b hb j m hj hm => ?_) ?_
    · rcases eq_or_ne j d with rfl | hjd
      · rw [update_self] at hj
        cases hj
        rcases List.mem_append.mp hm with hm | hm
        · exact hloose b (List.mem_cons_of_mem _ hb) _ _ hq hm
        · rw [List.mem_singleton] at hm
          exact hnew.1 (hm ▸ hb)
      · rw [update_of_ne hjd] at hj
        exact hloose b (List.mem_cons_of_mem _ hb) _ _ hj hm
    · rintro _ h' ⟨L', rfl, hsame', hL'⟩
      rw [List.append_assoc, List.singleton_append] at hsame'
      refine ⟨L', rfl, (hsame.mono fun y hy => ?_).trans hsame', ?_⟩
      · grind
      · rwa [update_idem, List.append_assoc, List.singleton_append] at hL'

/-- The blocks are removed from wherever they are on the free list. -/
theorem removeBlocks_spec (hne : a ≠ 0) (hend : a + pgsize ≤ wordSize)
    (hx : descs[d]? = some x) : ∀ (cnt i : Nat) {h : Heap} {q : Nat → Option (List Nat)}
    {l : List Nat}, h.arena a = ⟨arenaMagic, some d, n⟩ → Lists h.links q → q d = some l →
    i + cnt ≤ x.blocksPerArena → (∀ b ∈ blocksFrom x a i cnt, b ∈ l) →
    wp (removeBlocks a cnt i) (fun _ h' => ∃ L, h' = { h with links := L } ∧
      SameLinks l h.links L ∧
      Lists L (update q d (some (l.diff (blocksFrom x a i cnt))))) h
  | 0, i, h, q, l, _, hl, hq, _, _ => by
    refine wp_pure.mpr ⟨h.links, rfl, .refl _ _, ?_⟩
    rw [blocksFrom, List.range'_zero, List.map_nil, List.diff_nil, ← hq, update_eq_self]
    exact hl
  | cnt + 1, i, h, q, l, ha, hl, hq, hcnt, hin => by
    rw [blocksFrom_succ] at hin ⊢
    have hnew := nodup_blocksFrom (a := a) hx i (cnt + 1)
    rw [blocksFrom_succ, List.nodup_cons] at hnew
    rw [removeBlocks, wp_bind]
    refine wp_arenaToBlock hne hend ha hx (by omega) ?_
    rw [wp_bind, wp_onFreeList]
    have hmem := hin _ (List.mem_cons_self ..)
    refine wp_mono (wp_and (listRemove_spec hl hq hmem) (listRemove_same (hl.list hq) hmem)) ?_
    rintro _ L ⟨hL, hsame⟩
    refine wp_mono (removeBlocks_spec hne hend hx cnt (i + 1) (h := { h with links := L }) ha hL
      (update_self ..) (by omega) fun b hb => ?_) ?_
    · grind
    · rintro _ h' ⟨L', rfl, hsame', hL'⟩
      refine ⟨L', rfl, hsame.trans (hsame'.mono fun _ => List.mem_of_mem_erase), ?_⟩
      rwa [update_idem, ← List.diff_cons] at hL'

theorem SameLists.refl (a : Nat) (q : Nat → Option (List Nat)) : SameLists a q q :=
  ⟨fun _ l hl => ⟨l, hl, fun _ _ => rfl⟩, fun _ l hl => ⟨l, hl⟩⟩

theorem sameLists_update (hq : q d = some l)
    (hf : ∀ c, c ≠ a → l'.filter (inPage c) = l.filter (inPage c)) :
    SameLists a q (update q d (some l')) := by
  refine ⟨fun e m' hm' => ?_, fun e m hm => ?_⟩
  · grind
  · grind

theorem filter_inPage_of_ne (hb : pgRoundDown b = a) (hne : c ≠ a) :
    inPage c b = false := by
  simp only [inPage, hb, decide_eq_false_iff_not]
  exact hne.symm

section
variable (hh : HeapInv lo hi h q)
include hh

theorem HeapInv.arena (ha : h.mine a = true) (hd : (h.arena a).desc = some d) :
    ∃ x l, descs[d]? = some x ∧ q d = some l ∧
      h.arena a = ⟨arenaMagic, some d, l.countP (inPage a)⟩ ∧ h.palloc.live a = some (false, 1) ∧
      ∀ b ∈ blocks x a, b ∈ l ∨ h.live b = some x.blockSize := by
  cases hh.chunk ha with
  | arena header desc list pages hb => grind
  | big header _ _ =>
    rw [header] at hd
    cases hd

theorem HeapInv.setBlock (ha : h.mine a = true) (hd : (h.arena a).desc = some d)
    (hx : descs[d]? = some x) (hb : b ∈ blocks x a) (hq : q d = some l) {L : Links Nat Nat}
    (hL : Lists L (update q d (some l'))) (hmem : ∀ c, c ≠ b → (c ∈ l' ↔ c ∈ l))
    (hv : (v = none ∧ b ∈ l') ∨ (v = some x.blockSize ∧ b ∉ l'))
    (hf : ∀ c, c ≠ a → l'.filter (inPage c) = l.filter (inPage c)) : HeapInv lo hi { h with
      links := L
      arena := update h.arena a ⟨arenaMagic, some d, l'.countP (inPage a)⟩
      live := update h.live b v } (update q d (some l')) := by
  obtain ⟨x', l₀, hx', hq', -, hpages, hblocks⟩ := hh.arena ha hd
  cases hx.symm.trans hx'
  cases hq.symm.trans hq'
  obtain ⟨-, -, -, hal, -⟩ := hh.page ha
  have hpage := page_of_block hx hal hb
  refine hh.onPage (a := a) ⟨fun _ _ => rfl, fun c hc => update_of_ne hc .., fun _ _ => rfl,
    fun c hc => update_of_ne ?_ .., sameLists_update hq hf⟩ hh.palloc hL (fun _ => ?_)
    (fun e m c he hc hca => ?_) fun c size hc hca => ⟨ha, ?_⟩
  · rintro rfl
    exact hc hpage
  · refine .arena (update_self ..) hx (update_self ..) hpages fun c hc => ?_
    rcases eq_or_ne c b with rfl | hne
    · grind
    · grind
  · rcases eq_or_ne e d with rfl | hed
    · rw [update_self] at he
      cases he
      have hblock : c ∈ blocks x (pgRoundDown c) ∧ update h.live b v c = none := by
        rcases eq_or_ne c b with rfl | hne
        · grind
        · obtain ⟨-, -, ⟨y, hy, hcy⟩, hdead⟩ := hh.free hq ((hmem c hne).mp hc)
          cases hx.symm.trans hy
          exact ⟨hcy, (update_of_ne hne ..).trans hdead⟩
      exact ⟨hca ▸ ha, by simp only [hca, update_self], ⟨x, hx, hblock.1⟩, hblock.2⟩
    · rw [update_of_ne hed] at he
      have := (hh.free he hc).header
      rw [hca, hd] at this
      cases this
      exact absurd rfl hed
  · have harena : (update h.arena a ⟨arenaMagic, some d, l'.countP (inPage a)⟩ a).desc =
        some d := by rw [update_self]
    dsimp only at hc
    rcases eq_or_ne c b with rfl | hne
    · refine .arena harena hx hb ?_
      rw [update_self] at hc
      rcases hv with ⟨hv, -⟩ | ⟨hv, -⟩ <;> rw [hv] at hc <;> cases hc
      rfl
    · rw [update_of_ne hne] at hc
      obtain ⟨-, hblock⟩ := hh.live hc
      rw [hca] at hblock
      cases hblock with
      | arena hd' hy hcy hsz =>
        cases hd.symm.trans hd'
        cases hx.symm.trans hy
        exact .arena harena hx hcy hsz
      | big hd' _ _ => cases hd.symm.trans hd'

theorem HeapInv.fresh (hl : h.palloc.live a = none) (hb : pgRoundDown b = a) :
    Loose q b ∧ h.live b = none := by
  have hnot := hh.not_mine hl
  refine ⟨fun e m he hm => ?_, ?_⟩
  · have := (hh.free he hm).mine
    rw [hb, hnot] at this
    cases this
  · by_contra hsome
    obtain ⟨size, hsize⟩ := Option.ne_none_iff_exists'.mp hsome
    have := (hh.live hsize).1
    rw [hb, hnot] at this
    cases this

theorem HeapInv.setPalloc (hp : PallocInv lo hi p)
    (hs : ∀ a, h.mine a = true → p.live a = h.palloc.live a) :
    HeapInv lo hi { h with palloc := p } q where
  palloc := hp
  lists := hh.lists
  desc := hh.desc
  free := fun hl hb => { hh.free hl hb with }
  chunk := fun {a} ha => by
    cases hh.chunk ha with
    | arena header desc list pages hb =>
      exact .arena header desc list ((hs a ha).trans pages) hb
    | big header pages hb => exact .big header ((hs a ha).trans pages) hb
  live := fun hl => ⟨(hh.live hl).1, (hh.live hl).2.congr rfl⟩

theorem newArena_spec (hx : descs[d]? = some x) (hq : q d = some []) :
    wp (newArena d) (fun ok h' => h'.live = h.live ∧
      ((ok = false ∧ HeapInv lo hi h' q ∧ h'.mine = h.mine ∧ h'.arena = h.arena ∧
        h'.links = h.links ∧ ¬FreeRun h.palloc.memory.kernelPool 1) ∨
      (ok = true ∧ FreeRun h.palloc.memory.kernelPool 1 ∧ ∃ a, a % pgsize = 0 ∧
        HeapInv lo hi h' (update q d (some (blocks x a))) ∧
        (∀ c, c ≠ a → h'.mine c = h.mine c) ∧ h'.mine a = true ∧
        Wrote (blocks x a) a h h'))) h := by
  rw [newArena, wp_bind, wp_onPalloc]
  refine wp_mono (Palloc.get_spec hh.palloc kernelPages 1) ?_
  rintro a p ⟨hp, ⟨rfl, hpl, hno⟩ | ⟨hne, hnone, hpl, hrun⟩⟩
  · rw [if_pos rfl, wp_pure]
    exact ⟨rfl, Or.inl ⟨rfl, hh.setPalloc hp fun c _ => congrFun hpl c, rfl, rfl, rfl, hno⟩⟩
  · have hpages : p.live a = some (false, 1) := by rw [hpl, update_self]; rfl
    obtain ⟨-, hal, -, hend⟩ := hp.bounds hpages
    have hpage : ∀ b ∈ blocks x a, pgRoundDown b = a := fun b => page_of_block hx hal
    simp only [if_neg hne, wp_bind, wp_follow, hx, setArena, setMine, wp_modify]
    refine ⟨x, rfl, ?_⟩
    refine wp_mono (addBlocks_spec hne (by omega) hx x.blocksPerArena 0 (update_self ..)
      hh.lists hq (by omega) fun b hb => (hh.fresh hnone (hpage b hb)).1) ?_
    rintro _ _ ⟨L, rfl, hsame, hL⟩
    rw [List.nil_append] at hL hsame
    refine wp_pure.mpr ⟨rfl, Or.inr ⟨rfl, hrun, a, hal, ?_, fun c hc => update_of_ne hc ..,
      update_self .., hsame, fun c hc => update_of_ne hc ..⟩⟩
    have hnil : ∀ c, c ≠ a → (blocks x a).filter (inPage c) = [] := fun c hc =>
      List.filter_eq_nil_iff.mpr fun b hb => by
        rw [filter_inPage_of_ne (hpage b hb) hc]
        exact Bool.false_ne_true
    have hcount : (blocks x a).countP (inPage a) = x.blocksPerArena := by
      rw [List.countP_eq_length.mpr fun b hb => by simpa [inPage] using hpage b hb, length_blocks]
    refine hh.onPage (a := a) ⟨fun c hc => update_of_ne hc ..,
      fun c hc => update_of_ne hc .., fun c hc => ?_, fun _ _ => rfl,
      sameLists_update hq hnil⟩ hp hL (fun _ => ?_) (fun e m c he hc hca => ?_)
      fun c size hc hca => ?_
    · rw [hpl, update_of_ne hc]
    · refine .arena ?_ hx (update_self ..) hpages fun b hb => Or.inl hb
      rw [hcount]
      exact update_self ..
    · rcases eq_or_ne e d with rfl | hed
      · rw [update_self] at he
        cases he
        refine ⟨?_, ?_, ⟨x, hx, hca.symm ▸ hc⟩, (hh.fresh hnone hca).2⟩
        · rw [hca]
          exact update_self ..
        · simp only [hca, update_self]
      · rw [update_of_ne hed] at he
        exact absurd hc ((hh.fresh hnone hca).1 e m he)
    · exact absurd (hc.symm.trans (hh.fresh hnone hca).2) (Option.some_ne_none _)

theorem mallocBig_spec (size : Nat) :
    wp (mallocBig size) (fun r h' => HeapInv lo hi h' q ∧ h'.links = h.links ∧
      ((r = 0 ∧ h'.live = h.live ∧ h'.mine = h.mine ∧ h'.arena = h.arena ∧
        ¬FreeRun h.palloc.memory.kernelPool (bigPages size)) ∨
      FreeRun h.palloc.memory.kernelPool (bigPages size) ∧
      ∃ a, r = a + arenaSize ∧ (h'.arena a).desc = none ∧ h'.mine a = true ∧
        (∀ c, c ≠ a → h'.mine c = h.mine c ∧ h'.arena c = h.arena c) ∧ h.live r = none ∧
        h'.live = update h.live r (some (pgsize * bigPages size - arenaSize)))) h := by
  rw [mallocBig, wp_bind, wp_onPalloc]
  refine wp_mono (Palloc.get_spec hh.palloc kernelPages (bigPages size)) ?_
  generalize bigPages size = cnt
  rintro a p ⟨hp, ⟨rfl, hpl, hno⟩ | ⟨hne, hnone, hpl, hrun⟩⟩
  · rw [if_pos rfl, wp_pure]
    exact ⟨hh.setPalloc hp fun c _ => congrFun hpl c, rfl, Or.inl ⟨rfl, rfl, rfl, rfl, hno⟩⟩
  · have hpages : p.live a = some (false, cnt) := by rw [hpl, update_self]; rfl
    obtain ⟨-, hal, -, hend⟩ := hp.bounds hpages
    have hpage := page_of_big hal
    simp only [if_neg hne, wp_bind, setArena, setMine, setLive, wp_modify, wp_pure]
    refine ⟨?_, trivial, Or.inr ⟨hrun, a, rfl, by simp only [update_self],
      update_self .., fun c hc => ⟨update_of_ne hc .., update_of_ne hc ..⟩,
      (hh.fresh hnone hpage).2, trivial⟩⟩
    refine hh.onPage (a := a) ⟨fun c hc => update_of_ne hc ..,
      fun c hc => update_of_ne hc .., fun c hc => ?_, fun c hc =>
      update_of_ne ?_ .., .refl a q⟩ hp hh.lists
      (fun _ => .big (update_self ..) hpages (update_self ..))
      (fun e m c he hc hca => absurd hc ((hh.fresh hnone hca).1 e m he))
      fun c size hc hca => ⟨update_self .., ?_⟩
    · rw [hpl, update_of_ne hc]
    · rintro rfl
      exact hc hpage
    · dsimp only at hc
      rcases eq_or_ne c (a + arenaSize) with rfl | hca'
      · rw [update_self] at hc
        cases hc
        exact .big (by simp only [update_self]) rfl (by simp only [update_self])
      · rw [update_of_ne hca', (hh.fresh hnone hca).2] at hc
        cases hc

theorem HeapInv.count (ha : h.mine a = true) (hx : descs[d]? = some x) (hq : q d = some l) :
    l.countP (inPage a) ≤ x.blocksPerArena ∧
      (l.countP (inPage a) = x.blocksPerArena ↔ ∀ b ∈ blocks x a, b ∈ l) := by
  obtain ⟨-, -, -, hal, -⟩ := hh.page ha
  refine count_blocks hx hal (hh.lists.list hq).nodup fun b hb hpage => ?_
  obtain ⟨-, -, ⟨y, hy, hby⟩, -⟩ := hh.free hq hb
  cases hx.symm.trans hy
  exact hpage ▸ hby

theorem takeBlock_spec (hx : descs[d]? = some x) (hq : q d = some (b :: l)) :
    wp (takeBlock d) (fun r h' => r = b ∧ HeapInv lo hi h' (update q d (some l)) ∧
      h'.mine = h.mine ∧ (∀ a, (h'.arena a).desc = (h.arena a).desc) ∧ h.live b = none ∧
      h'.live = update h.live b (some x.blockSize) ∧
      Wrote (b :: l) (pgRoundDown b) h h') h := by
  obtain ⟨ha, hd, ⟨y, hy, hb⟩, hdead⟩ := hh.free hq (List.mem_cons_self ..)
  cases hx.symm.trans hy
  obtain ⟨x', l₀, hx', hq', harena, -⟩ := hh.arena ha hd
  cases hx.symm.trans hx'
  cases hq.symm.trans hq'
  obtain ⟨cnt, -, -, hal, hne, -⟩ := hh.page ha
  have hcount := (hh.count ha hx hq).1
  generalize hga : pgRoundDown b = a at *
  have hin : inPage a b = true := by simpa [inPage] using hga
  rw [List.countP_cons_of_pos hin] at harena hcount
  have hdec : (l.countP (inPage a) + 1 + wordSize - 1) % wordSize = l.countP (inPage a) := by
    have := (desc_bounds hx).2.2.1
    simp only [wordSize]
    omega
  have hnodup := (hh.lists.list hq).nodup
  rw [List.nodup_cons] at hnodup
  rw [takeBlock, wp_bind, wp_onFreeList]
  refine wp_mono (wp_and (listPopFront_spec hh.lists hq) (listPopFront_same (hh.lists.list hq))) ?_
  rintro _ L ⟨⟨rfl, hL⟩, hsame⟩
  rw [wp_bind, wp_onFreeList, listEntry, wp_pure, wp_bind]
  refine wp_blockToArena hal hne harena hx hb ?_
  simp only [wp_bind, wp_get, setArena, setLive, wp_modify, wp_follow, wp_pure, harena, hdec]
  refine ⟨x, hx, trivial, ?_, trivial, fun c => ?_, hdead, rfl, hsame, fun c hc => ?_⟩
  · refine hh.setBlock ha hd hx hb hq hL (fun c hc => ?_) (Or.inr ⟨rfl, hnodup.1⟩) fun c hc => ?_
    · rw [List.mem_cons, or_iff_right hc]
    · rw [List.filter_cons_of_neg]
      rw [filter_inPage_of_ne hga hc]
      exact Bool.false_ne_true
  · grind
  · exact update_of_ne hc ..

/-- An arena that has become unused is given back, and none of its blocks stays on the list. -/
theorem freeArena_spec (ha : h.mine a = true) (hd : (h.arena a).desc = some d)
    (hx : descs[d]? = some x) (hq : q d = some l) (hall : ∀ b ∈ blocks x a, b ∈ l) :
    wp (freeArena a x) (fun _ h' => (∃ q', HeapInv lo hi h' q') ∧ h'.arena = h.arena ∧
      h'.live = h.live ∧ h'.mine = update h.mine a false ∧ h'.palloc.live a = none ∧
      SameLinks l h.links h'.links) h := by
  obtain ⟨x', l₀, hx', hq', harena, hpages, -⟩ := hh.arena ha hd
  cases hx.symm.trans hx'
  cases hq.symm.trans hq'
  obtain ⟨-, hal, hne, hend⟩ := hh.palloc.bounds hpages
  rw [freeArena, wp_bind]
  refine wp_mono (removeBlocks_spec hne (by omega) hx x.blocksPerArena 0 harena hh.lists hq
    (by omega) hall) ?_
  rintro _ _ ⟨L, rfl, hsame, hL⟩
  simp only [wp_bind, setMine, wp_modify]
  rw [wp_onPalloc]
  refine wp_mono (Palloc.free_spec hh.palloc hpages) ?_
  rintro _ p ⟨hp, hpl⟩
  have hdiff : ∀ b, b ∈ l.diff (blocks x a) ↔ b ∈ l ∧ b ∉ blocks x a := fun b =>
    (hh.lists.list hq).nodup.mem_sdiff_iff
  have hown : ∀ e m b, q e = some m → b ∈ m → pgRoundDown b = a → e = d ∧ b ∈ blocks x a := by
    intro e m b he hb hba
    obtain ⟨-, hd', ⟨y, hy, hby⟩, -⟩ := hh.free he hb
    rw [hba, hd] at hd'
    cases hd'
    cases hx.symm.trans hy
    exact ⟨rfl, hba ▸ hby⟩
  refine ⟨⟨_, hh.onPage (a := a) ⟨fun c hc => update_of_ne hc .., fun _ _ => rfl,
    fun c hc => ?_, fun _ _ => rfl, sameLists_update hq fun c hc => ?_⟩ hp hL (fun hno => ?_)
    (fun e m c he hc hca => ?_) fun c size hc hca => ?_⟩, rfl, rfl, rfl, ?_, hsame⟩
  · rw [hpl, update_of_ne hc]
  · show (l.diff (blocks x a)).filter (inPage c) = _
    rw [(hh.lists.list hq).nodup.sdiff_eq_filter, List.filter_filter]
    refine List.filter_congr fun b _ => ?_
    have himp : inPage c b = true → b ∉ blocks x a := fun hin hb => by
      rw [filter_inPage_of_ne (page_of_block hx hal hb) hc] at hin
      cases hin
    cases hcb : inPage c b with
    | false => rfl
    | true => simpa using himp hcb
  · exact absurd ((update_self ..).symm.trans hno) Bool.false_ne_true
  · rcases eq_or_ne e d with rfl | hed
    · rw [update_self] at he
      cases he
      obtain ⟨hcl, hcb⟩ := (hdiff c).mp hc
      exact absurd (hown _ _ _ hq hcl hca).2 hcb
    · grind
  · obtain ⟨-, hblock⟩ := hh.live hc
    rw [hca] at hblock
    cases hblock with
    | arena hd' hy hcy _ =>
      cases hd.symm.trans hd'
      cases hx.symm.trans hy
      have := (hh.free hq (hall c hcy)).dead
      exact absurd (hc.symm.trans this) (Option.some_ne_none _)
    | big hd' _ _ => cases hd.symm.trans hd'
  · rw [hpl, update_self]

theorem freeBlock_spec (ha : h.mine a = true) (hd : (h.arena a).desc = some d)
    (hx : descs[d]? = some x) (hb : b ∈ blocks x a) (hl : h.live b = some size) :
    wp (freeBlock a d b) (fun _ h' => (∃ q', HeapInv lo hi h' q') ∧
      (∀ c, (h'.arena c).desc = (h.arena c).desc) ∧ h'.live = update h.live b none ∧
      ((h'.mine = h.mine ∧ ∃ c ∈ blocks x a, h'.live c ≠ none) ∨
        (h'.mine = update h.mine a false ∧ h'.palloc.live a = none)) ∧
      ∃ l, q d = some l ∧ Wrote (b :: l) a h h') h := by
  obtain ⟨x', l, hx', hq, harena, -, -⟩ := hh.arena ha hd
  cases hx.symm.trans hx'
  obtain ⟨-, -, -, hal, -⟩ := hh.page ha
  have hpage := page_of_block hx hal hb
  have hin : inPage a b = true := by simpa [inPage] using hpage
  have hloose : Loose q b := fun e m he hm =>
    absurd (hl.symm.trans (hh.free he hm).dead) (Option.some_ne_none _)
  have hinc : (l.countP (inPage a) + 1) % wordSize = (b :: l).countP (inPage a) := by
    have hle := (hh.count ha hx hq).1
    have := (desc_bounds hx).2.2.1
    rw [List.countP_cons_of_pos hin]
    simp only [wordSize]
    omega
  simp only [freeBlock, wp_bind, wp_follow, hx, setLive, setArena, wp_modify]
  refine ⟨x, rfl, ?_⟩
  rw [wp_onFreeList]
  refine wp_mono (wp_and (listPushFront_spec hh.lists hq hloose)
    (listPushFront_same (hh.lists.list hq) (hloose d l hq))) ?_
  rintro _ L ⟨hL, hsame⟩
  simp only [wp_get, harena, hinc]
  have hh' := hh.setBlock ha hd hx hb hq hL (v := none)
    (fun c hc => by rw [List.mem_cons, or_iff_right hc])
    (Or.inl ⟨rfl, List.mem_cons_self ..⟩) (fun c hc => by
      rw [List.filter_cons_of_neg]
      rw [filter_inPage_of_ne hpage hc]
      exact Bool.false_ne_true)
  have hdesc : ∀ c, (update h.arena a
      ⟨arenaMagic, some d, (b :: l).countP (inPage a)⟩ c).desc = (h.arena c).desc := by grind
  obtain ⟨hle, hall⟩ := hh'.count ha hx (update_self ..)
  rw [wp_ite]
  constructor
  · intro hge
    have heq := Nat.le_antisymm hle hge
    rw [wp_bind, wp_assert]
    refine ⟨by simpa using heq, ?_⟩
    refine wp_mono (freeArena_spec hh' ha (by simp only [update_self]) hx
      (update_self ..) (hall.mp heq)) ?_
    rintro _ h' ⟨hq', harena', hlive', hmine', hpages', hsame'⟩
    refine ⟨hq', fun c => by rw [harena']; exact hdesc c, hlive', Or.inr ⟨hmine', hpages'⟩, l, hq,
      hsame.trans hsame', fun c hc => ?_⟩
    rw [harena']
    exact update_of_ne hc ..
  · intro hlt
    refine wp_pure.mpr ⟨⟨_, hh'⟩, hdesc, rfl, Or.inl ⟨rfl, ?_⟩, l, hq, hsame,
      fun c hc => update_of_ne hc ..⟩
    -- Not all blocks are on the list, and one that is not is live.
    have hnot : ¬∀ c ∈ blocks x a, c ∈ b :: l := fun hno => hlt (hall.mpr hno).ge
    simp only [not_forall] at hnot
    obtain ⟨c, hc, hcl⟩ := hnot
    obtain ⟨y, m, hy, hm, -, -, hblocks⟩ := 
      hh'.arena ha (d := d) (by simp only [update_self])
    cases hx.symm.trans hy
    rw [update_self] at hm
    cases hm
    refine ⟨c, hc, ?_⟩
    rw [(hblocks c hc).resolve_left hcl]
    exact Option.some_ne_none _

theorem HeapInv.big (ha : h.mine a = true) (hd : (h.arena a).desc = none) :
    ∃ cnt, h.arena a = ⟨arenaMagic, none, cnt⟩ ∧
      h.palloc.live a = some (false, cnt) := by
  cases hh.chunk ha with
  | arena header _ _ _ _ =>
    rw [header] at hd
    cases hd
  | big header pages _ => exact ⟨_, header, pages⟩

theorem HeapInv.wp_blockToArena (hb : h.live b = some size)
    (arena : ∀ d x n, h.mine (pgRoundDown b) = true →
      h.arena (pgRoundDown b) = ⟨arenaMagic, some d, n⟩ → descs[d]? = some x →
      b ∈ blocks x (pgRoundDown b) → size = x.blockSize →
      h.palloc.live (pgRoundDown b) = some (false, 1) → Q (pgRoundDown b) h)
    (big : ∀ cnt, h.mine (pgRoundDown b) = true →
      h.arena (pgRoundDown b) = ⟨arenaMagic, none, cnt⟩ →
      h.palloc.live (pgRoundDown b) = some (false, cnt) → b = pgRoundDown b + arenaSize →
      size = pgsize * cnt - arenaSize → Q (pgRoundDown b) h) : wp (blockToArena b) Q h := by
  obtain ⟨ha, hblock⟩ := hh.live hb
  obtain ⟨-, -, -, hal, hne, -⟩ := hh.page ha
  cases hblock with
  | arena hd hx hbb hs => grind [hh.arena, Threads.wp_blockToArena]
  | big hd hbb hs =>
    obtain ⟨cnt, harena, hpages⟩ := hh.big ha hd
    rw [harena] at hs
    have hq := big cnt ha harena hpages hbb hs
    generalize pgRoundDown b = a at *
    subst hbb
    exact wp_blockToArena_big hal hne harena hq

theorem HeapInv.dropBig (ha : h.mine a = true) (harena : h.arena a = ⟨arenaMagic, none, cnt⟩)
    (hp : PallocInv lo hi p) (hpl : p.live = update h.palloc.live a none) : HeapInv lo hi { h with
      palloc := p
      mine := update h.mine a false
      live := update h.live (a + arenaSize) none } q := by
  obtain ⟨-, -, -, hal, -⟩ := hh.page ha
  have hdesc : (h.arena a).desc = none := by rw [harena]
  refine hh.onPage (a := a) ⟨fun c hc => update_of_ne hc .., fun _ _ => rfl,
    fun c hc => by rw [hpl, update_of_ne hc], fun c hc => update_of_ne ?_ ..,
    .refl a q⟩ hp hh.lists (fun hno => ?_) (fun e m c he hc hca => ?_) fun c size hc hca => ?_
  · rintro rfl
    exact hc (page_of_big hal)
  · exact absurd ((update_self ..).symm.trans hno) Bool.false_ne_true
  · have := (hh.free he hc).header
    rw [hca, hdesc] at this
    cases this
  · dsimp only at hc
    rcases eq_or_ne c (a + arenaSize) with rfl | hne
    · rw [update_self] at hc
      cases hc
    · rw [update_of_ne hne] at hc
      obtain ⟨-, hblock⟩ := hh.live hc
      rw [hca] at hblock
      cases hblock with
      | arena hd _ _ _ => cases hdesc.symm.trans hd
      | big _ hb _ => exact absurd hb hne

end

/-! `malloc` and `free`. -/

/-- An arena has a block that is live. -/
def Busy (h : Heap) (a : Nat) : Prop :=
  ∀ d x, (h.arena a).desc = some d → descs[d]? = some x → ∃ b ∈ blocks x a, h.live b ≠ none

structure HeapOk (lo hi : Nat) (h : Heap) : Prop where
  inv : ∃ q, HeapInv lo hi h q
  busy : ∀ a, h.mine a = true → Busy h a

theorem Busy.congr (hb : Busy h a) (harena : (h'.arena a).desc = (h.arena a).desc)
    (hlive : ∀ b, h.live b ≠ none → h'.live b ≠ none) : Busy h' a := by
  intro d x hd hx
  rw [harena] at hd
  obtain ⟨b, hb, hl⟩ := hb d x hd hx
  exact ⟨b, hb, hlive b hl⟩

theorem live_update_ne (hv : v ≠ none) (hc : h.live c ≠ none) : update h.live b v c ≠ none := by
  rcases eq_or_ne c b with rfl | hne
  · rwa [update_self]
  · rwa [update_of_ne hne]

theorem takeBlock_ok (hh : HeapInv lo hi h q) (hx : descs[d]? = some x)
    (hq : q d = some (b :: l)) (hbusy : ∀ a, h.mine a = true → a ≠ pgRoundDown b → Busy h a) :
    wp (takeBlock d) (fun r h' => HeapOk lo hi h' ∧ h.live r = none ∧
      h'.live = update h.live r (some x.blockSize)) h := by
  obtain ⟨-, hd, ⟨y, hy, hb⟩, -⟩ := hh.free hq (List.mem_cons_self ..)
  cases hx.symm.trans hy
  refine wp_mono (takeBlock_spec hh hx hq) ?_
  rintro r h' ⟨rfl, hh', hmine, hdesc, hdead, hlive, -⟩
  refine ⟨⟨⟨_, hh'⟩, fun a ha => ?_⟩, hdead, hlive⟩
  have hlive' : h'.live r ≠ none := by rw [hlive, update_self]; exact Option.some_ne_none _
  rcases eq_or_ne a (pgRoundDown r) with rfl | hne
  · intro e z he hz
    rw [hdesc, hd] at he
    cases he
    cases hx.symm.trans hz
    exact ⟨r, hb, hlive'⟩
  · refine (hbusy a (hmine ▸ ha) hne).congr (hdesc a) fun c hc => ?_
    rw [hlive]
    exact live_update_ne (Option.some_ne_none _) hc

theorem HeapInv.live_zero (hh : HeapInv lo hi h q) : h.live 0 = none := by
  by_contra hsome
  obtain ⟨size, hsize⟩ := Option.ne_none_iff_exists'.mp hsome
  obtain ⟨-, -, -, -, hne, -⟩ := hh.page (hh.live hsize).1
  exact hne rfl

theorem HeapInv.ne_zero (hh : HeapInv lo hi h q) (hb : h.live b = some size) : b ≠ 0 := by
  intro h0
  rw [h0, hh.live_zero] at hb
  cases hb

/-- A block for this size is to be had. -/
def Available (h : Heap) (size : Nat) : Prop :=
  size ≠ 0 ∧ match descs.findIdx? (size ≤ ·.blockSize) with
    | some d => listEmpty h.links d = false ∨ FreeRun h.palloc.memory.kernelPool 1
    | none => FreeRun h.palloc.memory.kernelPool (bigPages size)

/-- The bytes of such a block. -/
def extent (size : Nat) : Nat :=
  match descs.find? (size ≤ ·.blockSize) with
  | some x => x.blockSize
  | none => pgsize * bigPages size - arenaSize

theorem class_of_size (hfind : descs.findIdx? (size ≤ ·.blockSize) = some d) :
    ∃ x, descs[d]? = some x ∧ extent size = x.blockSize ∧ size ≤ x.blockSize := by
  obtain ⟨hlt, hfit, hfirst⟩ := List.findIdx?_eq_some_iff_getElem.mp hfind
  refine ⟨descs[d], List.getElem?_eq_getElem hlt, ?_, by simpa using hfit⟩
  have hsome : descs.find? (size ≤ ·.blockSize) = some descs[d] := by
    refine List.find?_eq_some_iff_getElem.mpr ⟨hfit, d, hlt, rfl, fun j hj => ?_⟩
    simpa using hfirst j hj
  rw [extent, hsome]

theorem extent_of_big (hfind : descs.findIdx? (size ≤ ·.blockSize) = none) :
    extent size = pgsize * bigPages size - arenaSize := by
  have hnone : descs.find? (size ≤ ·.blockSize) = none := by
    rw [List.find?_eq_none]
    rw [List.findIdx?_eq_none_iff] at hfind
    intro x hx
    simpa using hfind x hx
  rw [extent, hnone]

/-- A block is large enough unless the number of its pages wraps to one. -/
theorem le_extent (hav : Available h size) (hlt : size < wordSize) :
    size ≤ extent size ↔ size < wordSize - 11 := by
  cases hfind : descs.findIdx? (size ≤ ·.blockSize) with
  | some d =>
    obtain ⟨x, hx, hext, hfit⟩ := class_of_size hfind
    have hpage := (desc_bounds hx).2.2.2
    have hone := Nat.le_mul_of_pos_left x.blockSize
      (by have := (desc_bounds hx).2.1; omega : 0 < x.blocksPerArena)
    rw [hext]
    simp only [pgsize, wordSize] at hpage ⊢
    omega
  | none =>
    rw [Available, hfind] at hav
    have hpos := hav.2.1
    rw [extent_of_big hfind]
    simp only [bigPages, arenaSize, pgsize, wordSize] at hlt hpos ⊢
    omega

theorem malloc_spec (hh : HeapOk lo hi h) (size : Nat) :
    wp (malloc size) (fun r h' => HeapOk lo hi h' ∧
      ((r = 0 ∧ h'.live = h.live ∧ ¬Available h size) ∨
      (Available h size ∧ h.live r = none ∧
        h'.live = update h.live r (some (extent size))))) h := by
  obtain ⟨q, hq⟩ := hh.inv
  rw [malloc, wp_ite]
  refine ⟨fun h0 => wp_pure.mpr ⟨hh, Or.inl ⟨rfl, rfl, fun hav => hav.1 h0⟩⟩, fun h0 => ?_⟩
  cases hfind : descs.findIdx? (size ≤ ·.blockSize) with
  | none =>
    refine wp_mono (mallocBig_spec hq size) ?_
    rintro r h' ⟨hq', -, ⟨rfl, hlive, hmine, harena, hno⟩ |
      ⟨hrun, a, rfl, hdesc, -, hsame, hdead, hlive⟩⟩
    · refine ⟨⟨⟨q, hq'⟩, fun a ha => (hh.busy a (hmine ▸ ha)).congr (by rw [harena]) ?_⟩,
        Or.inl ⟨rfl, hlive, ?_⟩⟩
      · exact fun b hb => by rwa [hlive]
      · rw [Available, hfind]
        exact fun hav => hno hav.2
    · refine ⟨⟨⟨q, hq'⟩, fun c hc => ?_⟩, Or.inr ⟨?_, hdead, extent_of_big hfind ▸ hlive⟩⟩
      · rcases eq_or_ne c a with rfl | hne
        · intro e z he
          rw [hdesc] at he
          cases he
        · refine (hh.busy c ((hsame c hne).1 ▸ hc)).congr (by rw [(hsame c hne).2]) fun b hb => ?_
          rw [hlive]
          exact live_update_ne (Option.some_ne_none _) hb
      · rw [Available, hfind]
        exact ⟨h0, hrun⟩
  | some d =>
    obtain ⟨x, hx, hext, -⟩ := class_of_size hfind
    obtain ⟨l, hl⟩ := hq.desc hx
    have hempty := listEmpty_eq (hq.lists.list hl)
    have hav : Available h size ↔ size ≠ 0 ∧ (l ≠ [] ∨ FreeRun h.palloc.memory.kernelPool 1) := by
      grind [Available]
    simp only [wp_bind, wp_get, hempty, hav, hext]
    cases l with
    | nil =>
      simp only [decide_true, if_true]
      refine wp_mono (newArena_spec hq hx hl) ?_
      rintro ok h' ⟨hlive, ⟨rfl, hq', hmine, harena, -, hno⟩ |
        ⟨rfl, hrun, a, hal, hq', hsame, -, hwrote⟩⟩
      · rw [if_neg Bool.false_ne_true, wp_pure]
        refine ⟨⟨⟨q, hq'⟩, fun a ha => (hh.busy a (hmine ▸ ha)).congr (by rw [harena]) ?_⟩,
          Or.inl ⟨rfl, hlive, ?_⟩⟩
        · exact fun b hb => by rwa [hlive]
        · exact fun hav => hav.2.elim (fun hne => hne rfl) hno
      · have hpos : 0 < x.blocksPerArena := by have := (desc_bounds hx).2.1; omega
        obtain ⟨b, m, hbm⟩ := List.exists_cons_of_length_pos (length_blocks (x := x) (a := a) ▸ hpos)
        have hpage : pgRoundDown b = a :=
          page_of_block hx hal (hbm ▸ List.mem_cons_self ..)
        have hl' : update q d (some (blocks x a)) d = some (b :: m) := by
          rw [update_self, hbm]
        rw [if_pos rfl]
        refine wp_mono (takeBlock_ok hq' hx hl' fun c hc hne => ?_) ?_
        · rw [hpage] at hne
          refine (hh.busy c (hsame c hne ▸ hc)).congr (by rw [hwrote.arena c hne]) fun b hb => ?_
          rwa [hlive]
        · grind
    | cons b l => grind [wp_pure, takeBlock_ok, hh.busy]

theorem Busy.other (hc : Busy h c) (hal : c % pgsize = 0) (hne : pgRoundDown b ≠ c)
    (hdesc : (h'.arena c).desc = (h.arena c).desc)
    (hlive : h'.live = update h.live b none) : Busy h' c := by
  intro d x hd hx
  rw [hdesc] at hd
  obtain ⟨y, hy, hl⟩ := hc d x hd hx
  refine ⟨y, hy, ?_⟩
  rw [hlive, update_of_ne]
  · exact hl
  · rintro rfl
    exact hne (page_of_block hx hal hy)

theorem HeapOk.dropped (hh : HeapOk lo hi h) (hq : HeapInv lo hi h' q) (hb : pgRoundDown b = a)
    (hmine : h'.mine = update h.mine a false)
    (hdesc : ∀ c, (h'.arena c).desc = (h.arena c).desc)
    (hlive : h'.live = update h.live b none) : HeapOk lo hi h' := by
  refine ⟨⟨q, hq⟩, fun c hc => ?_⟩
  obtain ⟨-, -, -, hal, -⟩ := hq.page hc
  rw [hmine] at hc
  have hne : c ≠ a := by grind
  rw [update_of_ne hne] at hc
  exact (hh.busy c hc).other hal (hb.trans_ne hne.symm) (hdesc c) hlive

/-- `b` is the only block of its arena that is live. -/
def LastOf (h : Heap) (b : Nat) : Prop :=
  ∃ d x, (h.arena (pgRoundDown b)).desc = some d ∧ descs[d]? = some x ∧
    ∀ c ∈ blocks x (pgRoundDown b), c ≠ b → h.live c = none

/-- The page of `b` has been given back. -/
def Returned (h : Heap) (b : Nat) : Prop :=
  h.mine (pgRoundDown b) = false ∧ h.palloc.live (pgRoundDown b) = none

theorem freeBlock_ok (hh : HeapOk lo hi h) (hq : HeapInv lo hi h q) (hpage : pgRoundDown b = a)
    (ha : h.mine a = true) (hd : (h.arena a).desc = some d) (hx : descs[d]? = some x)
    (hb : b ∈ blocks x a) (hl : h.live b = some size) :
    wp (freeBlock a d b) (fun _ h' => HeapOk lo hi h' ∧
      h'.live = update h.live b none ∧ (LastOf h b → Returned h' b)) h := by
  refine wp_mono (freeBlock_spec hq ha hd hx hb hl) ?_
  rintro _ h' ⟨⟨q', hq'⟩, hdesc, hlive, ⟨hmine, y, hy, hly⟩ | ⟨hmine, hpages⟩, -⟩
  · refine ⟨⟨⟨q', hq'⟩, fun c hc => ?_⟩, hlive, fun hlast => ?_⟩
    · obtain ⟨-, -, -, hal, -⟩ := hq'.page hc
      rcases eq_or_ne c a with rfl | hne
      · intro e z he hz
        rw [hdesc, hd] at he
        cases he
        cases hx.symm.trans hz
        exact ⟨y, hy, hly⟩
      · exact (hh.busy c (hmine ▸ hc)).other hal (hpage.trans_ne hne.symm) (hdesc c) hlive
    · obtain ⟨e, z, he, hz, hall⟩ := hlast
      rw [hpage] at he hall
      cases hd.symm.trans he
      cases hx.symm.trans hz
      rw [hlive] at hly
      rcases eq_or_ne y b with rfl | hyb
      · exact absurd (update_self ..) hly
      · rw [update_of_ne hyb] at hly
        exact absurd (hall y hy hyb) hly
  · refine ⟨hh.dropped hq' hpage hmine hdesc hlive, hlive, fun _ => ⟨?_, ?_⟩⟩
    · rw [hpage, hmine, update_self]
    · rw [hpage, hpages]

/-- A live block is given back, and with the last one of an arena its page. -/
theorem free_spec (hh : HeapOk lo hi h) {p : Nat} (hp : p = 0 ∨ h.live p ≠ none) :
    wp (free p) (fun _ h' => HeapOk lo hi h' ∧ h'.live = update h.live p none ∧
      (p ≠ 0 → LastOf h p → Returned h' p)) h := by
  obtain ⟨q, hq⟩ := hh.inv
  rw [free, wp_ite]
  refine ⟨fun hne => ?_, fun h0 => wp_pure.mpr ⟨hh, ?_, fun hne => absurd hne h0⟩⟩
  · obtain ⟨size, hlive⟩ := Option.ne_none_iff_exists'.mp (hp.resolve_left hne)
    rw [wp_bind]
    refine hq.wp_blockToArena hlive ?_ ?_
    · grind [wp_bind, wp_get, freeBlock_ok]
    · intro cnt ha harena hpages hb _
      simp only [wp_bind, wp_get, harena, setLive, setMine, wp_modify]
      rw [wp_onPalloc]
      refine wp_mono (Palloc.free_spec hq.palloc hpages) ?_
      rintro _ pal ⟨hpal, hpl⟩
      have hdrop := hq.dropBig ha harena hpal hpl
      rw [← hb] at hdrop
      refine ⟨hh.dropped hdrop rfl rfl (fun _ => rfl) rfl, rfl, fun _ _ => ⟨?_, ?_⟩⟩
      · exact update_self ..
      · rw [hpl, update_self]
  · rw [not_not] at h0
    rw [h0, ← hq.live_zero, update_eq_self]

end

end Pintos.Threads
