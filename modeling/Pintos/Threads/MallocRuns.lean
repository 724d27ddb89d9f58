import Pintos.Threads.Malloc

/- Runs of the block allocator.

   Besides calls of `malloc` and `free`, pages are taken and given back by others, and what
   others may write to they write to. A link or a header that is not wholly in memory of the
   block allocator may then have any value. -/
namespace Pintos.Threads

open Vm (Byte wordSize pgsize physBase pgRoundDown)
open Lib Kernel Function

inductive MallocEvent where
  | malloc (size : Nat)
  | free (p : Nat)
  | palloc (e : PallocEvent)
  | write (links : Links Nat Nat) (arena : Nat → Arena)

def Heap.step (h : Heap) : MallocEvent → Option Heap
  | .malloc size => (malloc size h).map Prod.snd
  | .free p => (free p h).map Prod.snd
  | .palloc e => (h.palloc.step e).map fun p => { h with palloc := p }
  | .write links arena => some { h with links := links, arena := arena }

/-- A byte of a live block, or one that is in no page of the block allocator. -/
def Foreign (h : Heap) (byte : Nat) : Prop :=
  (∃ b size, h.live b = some size ∧ b ≤ byte ∧ byte < b + size) ∨
  ∀ a user cnt, h.mine a = true → h.palloc.live a = some (user, cnt) →
    byte < a ∨ a + pgsize * cnt ≤ byte

/-- None of the bytes is foreign. -/
def Private (h : Heap) (a size : Nat) : Prop :=
  ∀ byte, a ≤ byte → byte < a + size → ¬Foreign h byte

def listElemSize : Nat := 8

/-- Only links and headers with a foreign byte change; the ends of the free lists are not in
    memory that is allocated. -/
structure Writes (h : Heap) (links : Links Nat Nat) (arena : Nat → Arena) : Prop where
  ends : ∀ n, (∀ e, n ≠ .elem e) → links.next n = h.links.next n ∧ links.prev n = h.links.prev n
  elem : ∀ e, Private h e listElemSize →
    links.next (.elem e) = h.links.next (.elem e) ∧ links.prev (.elem e) = h.links.prev (.elem e)
  header : ∀ a, Private h a arenaSize → arena a = h.arena a

/-- Only live blocks are given back, and only the block allocator gives back its pages. -/
def MayDo (h : Heap) : MallocEvent → Prop
  | .malloc _ => True
  | .free p => p = 0 ∨ h.live p ≠ none
  | .palloc (.get ..) => True
  | .palloc (.free pages pageCnt) =>
    (∃ user, h.palloc.live pages = some (user, pageCnt)) ∧ h.mine pages = false
  | .write links arena => Writes h links arena

/-! Where blocks and headers are. -/

section
variable {lo hi size n : Nat} {h h' : Heap} {q : Nat → Option (List Nat)} {a b c d : Nat} {x : Desc}
  {links : Links Nat Nat} {arena : Nat → Arena}

section
variable (hh : HeapInv lo hi h q)
include hh

theorem HeapInv.live_inside (hb : h.live b = some size) :
    ∃ cnt, h.palloc.live (pgRoundDown b) = some (false, cnt) ∧
      pgRoundDown b + arenaSize ≤ b ∧ b + size ≤ pgRoundDown b + pgsize * cnt := by
  obtain ⟨ha, hblock⟩ := hh.live hb
  cases hblock with
  | arena hd hx hb hs =>
    obtain ⟨_, _, -, -, -, hpages, -⟩ := hh.arena ha hd
    obtain ⟨h₁, h₂⟩ := block_bounds hx hb
    exact ⟨1, hpages, h₁, by rw [hs, Nat.mul_one]; exact h₂⟩
  | big hd hb hs =>
    obtain ⟨cnt, harena, hpages⟩ := hh.big ha hd
    have hpos := (hh.palloc.bounds hpages).1
    refine ⟨cnt, hpages, hb.ge, ?_⟩
    rw [hs, harena]
    simp only [arenaSize, pgsize] at hb ⊢
    omega

/-- Blocks and headers of different runs of pages do not overlap. -/
theorem HeapInv.runs_apart {a' n' m m' : Nat} (hne : a ≠ a')
    (hn : h.palloc.live a = some (false, n)) (hn' : h.palloc.live a' = some (false, n'))
    (hb : a ≤ b) (hbm : b + m ≤ a + pgsize * n) (hc : a' ≤ c) (hcm : c + m' ≤ a' + pgsize * n') :
    Apart b m c m' := by
  have := hh.palloc.apart hn hn' hne
  simp only [Apart] at this ⊢
  omega

theorem HeapInv.block_apart (hc : h.mine (pgRoundDown c) = true)
    (hd : (h.arena (pgRoundDown c)).desc = some d) (hx : descs[d]? = some x)
    (hcb : c ∈ blocks x (pgRoundDown c)) (hb : h.live b = some size) (hne : b ≠ c) :
    Apart b size c x.blockSize := by
  obtain ⟨cnt, hpages, hb₁, hb₂⟩ := hh.live_inside hb
  by_cases hpage : pgRoundDown b = pgRoundDown c
  · obtain ⟨-, hblock⟩ := hh.live hb
    rw [hpage] at hblock
    cases hblock with
    | arena hd' hx' hbb hs => grind [blocks_apart]
    | big hd' _ _ => cases hd.symm.trans hd'
  · obtain ⟨_, _, -, -, -, hpages', -⟩ := hh.arena hc hd
    obtain ⟨h₁, h₂⟩ := block_bounds hx hcb
    exact hh.runs_apart hpage hpages hpages' (by omega) hb₂ (by omega)
      (by rw [Nat.mul_one]; exact h₂)

theorem HeapInv.live_apart {m : Nat} (hb : h.live b = some m) (hc : h.live c = some n)
    (hne : b ≠ c) : Apart b m c n := by
  obtain ⟨hmine, hblock⟩ := hh.live hc
  cases hblock with
  | arena hd hx hcb hs =>
    rw [hs]
    exact hh.block_apart hmine hd hx hcb hb hne
  | big hd hcb hs =>
    obtain ⟨cnt, hpages, hb₁, hb₂⟩ := hh.live_inside hb
    obtain ⟨cnt', hpages', hc₁, hc₂⟩ := hh.live_inside hc
    refine hh.runs_apart (fun hpage => ?_) hpages hpages' (by omega) hb₂ (by omega) hc₂
    obtain ⟨-, hblock⟩ := hh.live hb
    rw [hpage] at hblock
    cases hblock with
    | arena hd' _ _ _ => cases hd.symm.trans hd'
    | big _ hbb _ => exact hne (hbb.trans hcb.symm)

theorem HeapInv.header_apart (ha : h.mine a = true) (hb : h.live b = some size) :
    Apart a arenaSize b size := by
  obtain ⟨cnt, hpages, hb₁, hb₂⟩ := hh.live_inside hb
  by_cases hpage : pgRoundDown b = a
  · exact Or.inl (hpage ▸ hb₁)
  · grind [hh.page, hh.runs_apart, arenaSize, pgsize]

end

/-- What is behind the start of a run and overlaps with no live block is private. -/
theorem private_of_apart {cnt : Nat} (ha : h.mine a = true)
    (hpages : h.palloc.live a = some (false, cnt)) (hc : a ≤ c) (hcn : c + n ≤ a + pgsize * cnt)
    (happart : ∀ b size, h.live b = some size → Apart b size c n) : Private h c n := by
  rintro byte h₁ h₂ (⟨b, size, hb, h₃, h₄⟩ | hno)
  · have := happart b size hb
    simp only [Apart] at this
    omega
  · have := hno a false cnt ha hpages
    omega

theorem HeapInv.private_header (hh : HeapInv lo hi h q) (ha : h.mine a = true) :
    Private h a arenaSize := by
  obtain ⟨cnt, hpages, hpos, -⟩ := hh.page ha
  refine private_of_apart ha hpages le_rfl ?_ fun b size hb => (hh.header_apart ha hb).symm
  simp only [arenaSize, pgsize]
  omega

theorem HeapInv.private_free (hh : HeapInv lo hi h q) {l : List Nat} (hq : q d = some l)
    (hb : b ∈ l) : Private h b listElemSize := by
  obtain ⟨hmine, hd, ⟨x, hx, hbb⟩, hdead⟩ := hh.free hq hb
  obtain ⟨_, _, -, -, -, hpages, -⟩ := hh.arena hmine hd
  obtain ⟨h₁, h₂⟩ := block_bounds hx hbb
  have hsize : listElemSize ≤ x.blockSize := by
    have := (desc_bounds hx).1
    simp only [listElemSize]
    omega
  refine private_of_apart hmine hpages (by omega) (by omega) fun c size hc => ?_
  have hne : c ≠ b := by grind
  have := hh.block_apart hmine hd hx hbb hc hne
  simp only [Apart] at this ⊢
  omega

/-! Steps. -/

theorem HeapInv.write (hh : HeapInv lo hi h q) (hw : Writes h links arena) :
    HeapInv lo hi { h with links := links, arena := arena } q := by
  have harena : ∀ a, h.mine a = true → arena a = h.arena a := fun a ha =>
    hw.header a (hh.private_header ha)
  refine ⟨hh.palloc, hh.lists.congr fun i l n hl hn => ?_, hh.desc, fun hl hb => ?_, fun ha => ?_,
    fun hb => ⟨(hh.live hb).1, (hh.live hb).2.congr (harena _ (hh.live hb).1)⟩⟩
  · cases n with
    | head => exact hw.ends _ (by simp)
    | tail => exact hw.ends _ (by simp)
    | elem e => exact hw.elem e (hh.private_free hl hn)
  · obtain ⟨h₁, h₂, h₃, h₄⟩ := hh.free hl hb
    exact ⟨h₁, (congrArg Arena.desc (harena _ h₁)).trans h₂, h₃, h₄⟩
  · cases hh.chunk ha with
    | arena header desc list pages hb =>
      exact .arena ((harena _ ha).trans header) desc list pages hb
    | big header pages hb => exact .big ((harena _ ha).trans header) pages hb

theorem HeapOk.write (hh : HeapOk lo hi h) (hw : Writes h links arena) :
    HeapOk lo hi { h with links := links, arena := arena } := by
  obtain ⟨q, hq⟩ := hh.inv
  refine ⟨⟨q, hq.write hw⟩, fun a ha => (hh.busy a ha).congr ?_ fun _ => id⟩
  exact congrArg Arena.desc (hw.header a (hq.private_header ha))

theorem HeapOk.palloc (hh : HeapOk lo hi h) {e : PallocEvent} {p : Palloc}
    (he : MayDo h (.palloc e)) (hs : h.palloc.step e = some p) :
    HeapOk lo hi { h with palloc := p } := by
  obtain ⟨q, hq⟩ := hh.inv
  have hset : PallocInv lo hi p ∧ ∀ a, h.mine a = true → p.live a = h.palloc.live a := by
    cases e with
    | get flags pageCnt =>
      obtain ⟨⟨r, _⟩, hx, rfl⟩ := Option.map_eq_some_iff.mp hs
      obtain ⟨hp, ⟨-, hlive, -⟩ | ⟨-, hnone, hlive, -⟩⟩ :=
        wp_elim (Palloc.get_spec hq.palloc flags pageCnt) hx
      · exact ⟨hp, fun a _ => congrFun hlive a⟩
      · refine ⟨hp, fun a ha => ?_⟩
        rw [hlive, update_of_ne]
        rintro rfl
        rw [hq.not_mine hnone] at ha
        cases ha
    | free pages pageCnt =>
      obtain ⟨⟨_, _⟩, hx, rfl⟩ := Option.map_eq_some_iff.mp hs
      obtain ⟨⟨user, hl⟩, hno⟩ := he
      obtain ⟨hp, hlive⟩ := wp_elim (Palloc.free_spec hq.palloc hl) hx
      refine ⟨hp, fun a ha => ?_⟩
      rw [hlive, update_of_ne]
      rintro rfl
      rw [hno] at ha
      cases ha
  exact ⟨⟨q, hq.setPalloc hset.1 hset.2⟩, fun a ha => (hh.busy a ha).congr rfl fun _ => id⟩

/-- **One step keeps the heap in order.** -/
theorem HeapOk.step (hh : HeapOk lo hi h) {e : MallocEvent} (he : MayDo h e)
    (hs : h.step e = some h') : HeapOk lo hi h' := by
  cases e with
  | malloc size =>
    obtain ⟨⟨r, _⟩, hx, rfl⟩ := Option.map_eq_some_iff.mp hs
    exact (wp_elim (malloc_spec hh size) hx).1
  | free p =>
    obtain ⟨⟨r, _⟩, hx, rfl⟩ := Option.map_eq_some_iff.mp hs
    exact (wp_elim (free_spec hh he) hx).1
  | palloc e =>
    obtain ⟨p, hp, rfl⟩ := Option.map_eq_some_iff.mp hs
    exact hh.palloc he hp
  | write links arena =>
    cases hs
    exact hh.write he

/-- The first `cnt` free lists are there, and empty. -/
def emptyLists (cnt : Nat) (d : Nat) : Option (List Nat) := if d < cnt then some [] else none

theorem update_emptyLists (d : Nat) : update (emptyLists d) d (some []) = emptyLists (d + 1) := by
  funext e
  rcases eq_or_ne e d with rfl | hne
  · rw [update_self, emptyLists, if_pos (Nat.lt_succ_self e)]
  · rw [update_of_ne hne, emptyLists, emptyLists]
    exact if_congr (by omega) rfl rfl

theorem wp_initDescs_succ {left d blockSize : Nat} {h : Heap} {Q : List Desc → Heap → Prop}
    (hlists : Lists h.links (emptyLists d)) (hlt : blockSize < pgsize / 2)
    (hrest : ∀ L, Lists L (emptyLists (d + 1)) → wp (initDescs left (d + 1) (blockSize * 2))
      (fun ds => Q (⟨blockSize, (pgsize - arenaSize) / blockSize⟩ :: ds)) { h with links := L }) :
    wp (initDescs (left + 1) d blockSize) Q h := by
  rw [initDescs, if_pos hlt, wp_bind, wp_onFreeList]
  refine wp_mono (listInit_spec hlists d) fun _ L hL => ?_
  rw [update_emptyLists] at hL
  rw [wp_bind]
  exact wp_mono (hrest L hL) fun ds h' hQ => wp_pure.mpr hQ

theorem mallocInit_spec : wp mallocInit (fun ds h' =>
    ds = descs ∧ ∃ L, h' = { h with links := L } ∧ Lists L (emptyLists descs.length)) h := by
  have hnone : Lists h.links (emptyLists 0) := lists_none h.links
  rw [mallocInit]
  refine wp_initDescs_succ hnone (by decide) fun _ h₁ => ?_
  refine wp_initDescs_succ h₁ (by decide) fun _ h₂ => ?_
  refine wp_initDescs_succ h₂ (by decide) fun _ h₃ => ?_
  refine wp_initDescs_succ h₃ (by decide) fun _ h₄ => ?_
  refine wp_initDescs_succ h₄ (by decide) fun _ h₅ => ?_
  refine wp_initDescs_succ h₅ (by decide) fun _ h₆ => ?_
  refine wp_initDescs_succ h₆ (by decide) fun L h₇ => ?_
  rw [initDescs, if_neg (by decide), wp_pure]
  exact ⟨by decide, L, rfl, h₇⟩

end

/-! Whole runs. -/

/-- The block allocator neither overlaps nor loses blocks. -/
structure MallocOk (h : Heap) : Prop where
  /-- The runs of pages come from the kernel pool. -/
  pages : ∀ a, h.mine a = true → ∃ cnt, h.palloc.live a = some (false, cnt) ∧
    arenaSize ≤ pgsize * cnt
  headers : ∀ a c, h.mine a = true → h.mine c = true → a ≠ c → Apart a arenaSize c arenaSize
  /-- A live block has the bytes of its size class or of its run of pages. -/
  inside : ∀ b size, h.live b = some size → ∃ a cnt, h.mine a = true ∧
    h.palloc.live a = some (false, cnt) ∧ a + arenaSize ≤ b ∧ b + size ≤ a + pgsize * cnt ∧
    BlockOf h a b size
  apart : ∀ b c m n, h.live b = some m → h.live c = some n → b ≠ c → Apart b m c n
  header : ∀ a b size, h.mine a = true → h.live b = some size → Apart a arenaSize b size
  /-- A free list has blocks that are not live, of arenas of this size, and none of them twice. -/
  list : ∀ d x, descs[d]? = some x → ∃ l, IsList h.links d l ∧ ∀ b ∈ l, h.live b = none ∧
    ∃ a, h.mine a = true ∧ (h.arena a).desc = some d ∧ b ∈ blocks x a
  once : ∀ d e x y l m b, descs[d]? = some x → descs[e]? = some y → IsList h.links d l →
    IsList h.links e m → b ∈ l → b ∈ m → d = e
  count : ∀ a d x l, h.mine a = true → (h.arena a).desc = some d → descs[d]? = some x →
    IsList h.links d l → (h.arena a).freeCnt = l.countP (· ∈ blocks x a)
  busy : ∀ a, h.mine a = true → Busy h a
  /-- With the last live block of an arena its page goes, and all its blocks leave the list. -/
  returned : ∀ b, h.live b ≠ none → LastOf h b → wp (free b) (fun _ h' => Returned h' b ∧
    ∀ d x l, descs[d]? = some x → IsList h'.links d l → ∀ c ∈ l, pgRoundDown c ≠ pgRoundDown b) h
  /-- No assertion fails, and a block that `malloc` returns is new. -/
  malloc : ∀ size, wp (malloc size) (fun r h' => (r = 0 ∧ h'.live = h.live) ∨
    (h.live r = none ∧ ∃ n, h'.live = update h.live r (some n) ∧
      (size + arenaSize + pgsize ≤ wordSize → size ≤ n))) h
  free : ∀ p, (p = 0 ∨ h.live p ≠ none) →
    wp (free p) (fun _ h' => h'.live = update h.live p none) h

section
variable {lo hi : Nat} {h : Heap} {q : Nat → Option (List Nat)} {d : Nat} {x : Desc} {l : List Nat}

theorem HeapInv.listed (hh : HeapInv lo hi h q) (hx : descs[d]? = some x)
    (hl : IsList h.links d l) : q d = some l := by
  obtain ⟨l', hl'⟩ := hh.desc hx
  rw [hl', (hh.lists.list hl').unique hl]

theorem HeapInv.count_eq (hh : HeapInv lo hi h q) {a : Nat} (ha : h.mine a = true)
    (hd : (h.arena a).desc = some d) (hx : descs[d]? = some x) (hl : IsList h.links d l) :
    (h.arena a).freeCnt = l.countP (· ∈ blocks x a) := by
  have hq := hh.listed hx hl
  obtain ⟨_, _, hx', hq', harena, -⟩ := hh.arena ha hd
  cases hx.symm.trans hx'
  cases hq.symm.trans hq'
  obtain ⟨-, -, -, hal, -⟩ := hh.page ha
  rw [harena]
  refine List.countP_congr fun b hb => ?_
  obtain ⟨-, -, ⟨y, hy, hby⟩, -⟩ := hh.free hq hb
  cases hx.symm.trans hy
  simp only [inPage, decide_eq_true_eq]
  exact ⟨fun hpage => hpage ▸ hby, page_of_block hx hal⟩

theorem HeapOk.mallocOk (hh : HeapOk lo hi h) : MallocOk h := by
  obtain ⟨q, hq⟩ := hh.inv
  have hpages : ∀ a, h.mine a = true → ∃ cnt, h.palloc.live a = some (false, cnt) ∧
      arenaSize ≤ pgsize * cnt := by grind [hq.page, arenaSize, pgsize]
  exact {
    pages := hpages
    headers := fun a c ha hc hne => by grind [hq.runs_apart]
    inside := fun b size hb => by grind [hq.live_inside, hq.live]
    apart := fun b c m n hb hc hne => hq.live_apart hb hc hne
    header := fun a b size ha hb => hq.header_apart ha hb
    list := fun d x hx => by
      obtain ⟨l, hl⟩ := hq.desc hx
      refine ⟨l, hq.lists.list hl, fun b hb => ?_⟩
      obtain ⟨hmine, hd, ⟨y, hy, hby⟩, hdead⟩ := hq.free hl hb
      cases hx.symm.trans hy
      exact ⟨hdead, _, hmine, hd, hby⟩
    once := fun d e x y l m b hx hy hl hm hbl hbm =>
      hq.lists.apart (hq.listed hx hl) (hq.listed hy hm) hbl hbm
    count := fun a d x l ha hd hx hl => hq.count_eq ha hd hx hl
    busy := hh.busy
    returned := fun b hb hlast => by
      refine wp_mono (free_spec hh (Or.inr hb)) ?_
      rintro _ h' ⟨hh', -, hret⟩
      have hne : b ≠ 0 := by
        rintro rfl
        exact hb hq.live_zero
      refine ⟨hret hne hlast, fun d x l hx hl c hc hpage => ?_⟩
      obtain ⟨q', hq'⟩ := hh'.inv
      have hmine := (hq'.free (hq'.listed hx hl) hc).mine
      rw [hpage, (hret hne hlast).1] at hmine
      cases hmine
    malloc := fun size => by grind [wp_mono, malloc_spec, le_extent, arenaSize]
    free := fun p hp => wp_mono (free_spec hh hp) fun _ _ hr => hr.2.1 }

end

theorem mallocInit_ok {mem : Nat → Byte} {bits : Bool → Nat → BitVec 32}
    {kernelEnd ramPages userPageLimit : Nat} {m : Memory} (hk : physBase ≤ kernelEnd)
    (hle : kernelEnd ≤ physBase + pgsize * ramPages) (hram : ramPages < 0x40000)
    (hinit : pallocInit mem bits kernelEnd ramPages userPageLimit = some m)
    {links : Links Nat Nat} {arena : Nat → Arena} {h₀ : Heap}
    (hstart : mallocInit
      ⟨⟨m, fun _ => none⟩, links, arena, fun _ => false, fun _ => none⟩ = some (descs, h₀)) :
    HeapOk kernelEnd (physBase + pgsize * ramPages) h₀ := by
  obtain ⟨-, L, rfl, hL⟩ := wp_elim mallocInit_spec hstart
  refine ⟨⟨emptyLists descs.length, pallocInit_inv hk hle hram hinit, hL,
    fun {d x} hx => ⟨[], ?_⟩, fun {d l b} hl hb => ?_, fun ha => ?_, fun hb => ?_⟩,
    fun a ha => ?_⟩
  · exact if_pos (List.getElem?_eq_some_iff.mp hx).1
  · rw [emptyLists] at hl
    split at hl
    · cases hl
      cases hb
    · cases hl
  · cases ha
  · cases hb
  · cases ha

/-- **The block allocator neither overlaps nor loses blocks**, whatever the free lists and the
    headers were before `malloc_init`. -/
theorem malloc_keeps_blocks {mem : Nat → Byte} {bits : Bool → Nat → BitVec 32}
    {kernelEnd ramPages userPageLimit : Nat} {m : Memory} (hk : physBase ≤ kernelEnd)
    (hle : kernelEnd ≤ physBase + pgsize * ramPages) (hram : ramPages < 0x40000)
    (hinit : pallocInit mem bits kernelEnd ramPages userPageLimit = some m)
    {links : Links Nat Nat} {arena : Nat → Arena} {h₀ h : Heap}
    (hstart : mallocInit
      ⟨⟨m, fun _ => none⟩, links, arena, fun _ => false, fun _ => none⟩ = some (descs, h₀))
    (hrun : Reach Heap.step MayDo h₀ h) : MallocOk h :=
  (hrun.inv (mallocInit_ok hk hle hram hinit hstart) fun _ _ _ hi he hs => hi.step he hs).mallocOk

/-- Two blocks of one size, and a big one that takes the last page. There is no page for the
    block of 16 bytes. Then the big block and the first one go. -/
def takeAndReturn : List MallocEvent :=
  [.malloc 1000, .malloc 600, .malloc 2000, .malloc 16, .free 0xc010200c, .free 0xc010100c]

def mayDoB (h : Heap) : MallocEvent → Bool
  | .malloc _ => true
  | .free p => p = 0 || (h.live p).isSome
  | _ => false

theorem mayDo_of_mayDoB {h : Heap} {e : MallocEvent} (he : mayDoB h e = true) : MayDo h e := by
  cases e with
  | malloc size => trivial
  | free p =>
    simp only [mayDoB, Bool.or_eq_true, decide_eq_true_eq] at he
    exact he.imp_right fun hl => Option.isSome_iff_ne_none.mp hl
  | palloc e => cases he
  | write links arena => cases he

def emptyHeap (m : Memory) : Heap :=
  ⟨⟨m, fun _ => none⟩, ⟨fun _ => none, fun _ => none⟩, fun _ => ⟨0, none, 0⟩, fun _ => false,
    fun _ => none⟩

theorem malloc_keeps_blocks_returned : ∃ m h₀ h, smallMemory = some m ∧
    mallocInit (emptyHeap m) = some (descs, h₀) ∧ Reach Heap.step MayDo h₀ h ∧
    (h.live 0xc010140c = some 1024 ∧ h.live 0xc010100c = none ∧
      (h.arena 0xc0101000).freeCnt = 2 ∧ h.mine 0xc0102000 = false) ∧ MallocOk h := by
  have hall : (smallMemory.any fun m => (mallocInit (emptyHeap m)).any fun x =>
      runOk Heap.step mayDoB x.2 takeAndReturn &&
      (run Heap.step x.2 takeAndReturn).any fun h =>
        h.live 0xc010140c = some 1024 && h.live 0xc010100c = none &&
        (h.arena 0xc0101000).freeCnt = 2 && h.mine 0xc0102000 = false) = true := by
    decide +kernel
  obtain ⟨m, hm, hall⟩ := (Option.any_eq_true _ _).mp hall
  obtain ⟨⟨_, h₀⟩, h₀eq, hall⟩ := (Option.any_eq_true _ _).mp hall
  obtain rfl := (wp_elim mallocInit_spec h₀eq).1
  rw [Bool.and_eq_true] at hall
  obtain ⟨h, hr, hq⟩ := exists_reach Heap.step _ takeAndReturn _ (fun _ _ => mayDo_of_mayDoB)
    hall.1 hall.2
  exact ⟨m, h₀, h, hm, h₀eq, hr, by simpa [and_assoc] using hq,
    malloc_keeps_blocks (by decide) (by decide) (by decide) hm h₀eq hr⟩

end Pintos.Threads
