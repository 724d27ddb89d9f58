import Pintos.Filesys.Bitmap
import Pintos.Lib.Exclusive
import Pintos.Lib.Run

/- The page allocator, `threads/palloc.c`.

   Memory above the kernel is cut in two pools; the bitmap of each is at its start. Addresses
   are those of the kernel, at which physical memory is mapped from `PHYS_BASE`, and wrap
   like `uintptr_t`. A function has no result where it panics.

   Correspondence (C ↔ Lean):
     `struct pool`                               ↔ `Pool`; `mapAt` is where `used_map` points
     `ptov`, `pg_no`, `pg_round_up`              ↔ `ptov`, `pgNo`, `pgRoundUp`
     `init_pool`, `palloc_init`                  ↔ `initPool`, `pallocInit`
     `bitmap_create_in_buf`, `bitmap_buf_size`   ↔ `bitmapCreateInBuf`, `bitmapBufSize`
     `palloc_get_multiple`                       ↔ `pallocGetMultiple`, 0 is the null pointer
     `page_from_pool`, `palloc_free_multiple`    ↔ `pageFromPool`, `pallocFreeMultiple`
   The lock of a pool and the names of the pools are left out: a call is one step. -/
namespace Pintos.Threads

open Vm (Byte wordSize physBase pgsize pgOfs)
open Filesys Function
open Lib

/-! Addresses. -/

def pgNo (a : Nat) : Nat := a / pgsize

def pgRoundUp (a : Nat) : Nat := (a + pgsize - 1) % wordSize / pgsize * pgsize

def divRoundUp (x step : Nat) : Nat := (x + step - 1) / step

def ptov (paddr : Nat) : Option Nat :=
  if paddr < physBase then some ((paddr + physBase) % wordSize) else none

/-- The difference of two pointers is an `int`. -/
def pagesBetween (a b : Nat) : Nat :=
  (Int.tdiv (Int.bmod ((b : Int) - a) wordSize) pgsize % wordSize).toNat

def memset (mem : Nat → Byte) (a : Nat) (b : Byte) (size : Nat) : Nat → Byte :=
  fun i => if a ≤ i ∧ i < a + size then b else mem i

/-! Pools. -/

structure Pool where
  usedMap : Bitmap
  mapAt : Nat
  base : Nat

structure Memory where
  kernelPool : Pool
  userPool : Pool
  mem : Nat → Byte

variable {a cnt i idx pageCnt b ramPages kernelEnd userPageLimit : Nat} {x : Bool × Nat}
  {bits : Bool → Nat → BitVec 32} {m : Memory} {p : Pool}

structure PallocFlags where
  assert : Bool
  zero : Bool
  user : Bool

/-- The header of a bitmap has eight bytes. -/
def bitmapBufSize (bitCnt : Nat) : Nat := 8 + byteCnt bitCnt

/-- `bits` is what the memory holds before. -/
def bitmapCreateInBuf (bits : Nat → BitVec 32) (bitCnt blockSize : Nat) : Option Bitmap :=
  if blockSize ≥ bitmapBufSize bitCnt then bitmapSetMultiple ⟨bitCnt, bits⟩ 0 bitCnt false
  else none

def initPool (bits : Nat → BitVec 32) (base pageCnt : Nat) : Option Pool :=
  let bmPages := divRoundUp (bitmapBufSize pageCnt) pgsize
  if bmPages > pageCnt then none
  else do
    let usedMap ← bitmapCreateInBuf bits (pageCnt - bmPages) (bmPages * pgsize)
    return { usedMap, mapAt := base, base := (base + bmPages * pgsize) % wordSize }

/-- `kernelEnd` is the address of `_end`. -/
def pallocInit (mem : Nat → Byte) (bits : Bool → Nat → BitVec 32)
    (kernelEnd ramPages userPageLimit : Nat) : Option Memory := do
  let freeStart := pgRoundUp kernelEnd
  let freeEnd ← ptov (ramPages * pgsize % wordSize)
  let freePages := pagesBetween freeStart freeEnd
  let userPages := min (freePages / 2) userPageLimit
  let kernelPages := freePages - userPages
  return {
    kernelPool := ← initPool (bits false) freeStart kernelPages
    userPool := ← initPool (bits true) ((freeStart + kernelPages * pgsize) % wordSize) userPages
    mem }

def Memory.pool (m : Memory) (user : Bool) : Pool := if user then m.userPool else m.kernelPool

def Memory.setMap (m : Memory) (user : Bool) (b : Bitmap) : Memory :=
  if user then { m with userPool := { m.userPool with usedMap := b } }
  else { m with kernelPool := { m.kernelPool with usedMap := b } }

def pallocGetMultiple (flags : PallocFlags) (pageCnt : Nat) (m : Memory) : Option (Memory × Nat) :=
  if pageCnt = 0 then some (m, 0)
  else do
    let pool := m.pool flags.user
    let (usedMap, pageIdx) ← bitmapScanAndFlip pool.usedMap 0 pageCnt false
    let m := m.setMap flags.user usedMap
    let pages := match pageIdx with
      | some idx => (pool.base + pgsize * idx) % wordSize
      | none => 0
    if pages ≠ 0 then
      return ({ m with
        mem := if flags.zero then memset m.mem pages 0 (pgsize * pageCnt % wordSize) else m.mem },
        pages)
    else return (m, if flags.assert then 0 else pages)

def pageFromPool (pool : Pool) (page : Nat) : Bool :=
  pgNo page ≥ pgNo pool.base && pgNo page < pgNo pool.base + pool.usedMap.bitCnt

/-- Which pool the page is from; the end of the three cases is `NOT_REACHED`. -/
def owningPool (m : Memory) (page : Nat) : Option Bool :=
  if pageFromPool m.kernelPool page then some false
  else if pageFromPool m.userPool page then some true
  else none

def pallocFreeMultiple (pages pageCnt : Nat) (m : Memory) : Option Memory :=
  if pgOfs pages ≠ 0 then none
  else if pages = 0 ∨ pageCnt = 0 then some m
  else do
    let user ← owningPool m pages
    let pool := m.pool user
    let pageIdx := pgNo pages - pgNo pool.base
    let m := { m with mem := memset m.mem pages 0xcc (pgsize * pageCnt % wordSize) }
    if ← bitmapAll pool.usedMap pageIdx pageCnt then
      return m.setMap user (← bitmapSetMultiple pool.usedMap pageIdx pageCnt false)
    else none

/-! Layout. -/

/-- A pool in memory: its bitmap, then its pages. -/
structure PoolOk (p : Pool) : Prop where
  aligned : p.base % pgsize = 0
  above : physBase ≤ p.mapAt
  map : p.mapAt + bitmapBufSize p.usedMap.bitCnt ≤ p.base
  fits : p.base + pgsize * p.usedMap.bitCnt < wordSize

/-- The two pools lie one after the other between `lo` and `hi`. -/
structure Layout (m : Memory) (lo hi : Nat) : Prop where
  pool : ∀ user, PoolOk (m.pool user)
  first : lo ≤ m.kernelPool.mapAt
  between : m.kernelPool.base + pgsize * m.kernelPool.usedMap.bitCnt ≤ m.userPool.mapAt
  last : m.userPool.base + pgsize * m.userPool.usedMap.bitCnt ≤ hi

theorem le_divRoundUp (x : Nat) : x ≤ divRoundUp x pgsize * pgsize := by
  simp only [divRoundUp, pgsize]
  omega

theorem bitmapBufSize_mono (h : a ≤ b) : bitmapBufSize a ≤ bitmapBufSize b := by
  simp only [bitmapBufSize, byteCnt, elemCnt, elemBits]
  omega

theorem initPool_spec {bits : Nat → BitVec 32} {base : Nat} (hb : base % pgsize = 0)
    (hlo : physBase ≤ base) (hfit : base + pgsize * pageCnt < wordSize)
    (h : initPool bits base pageCnt = some p) : PoolOk p ∧ p.mapAt = base ∧
      p.base + pgsize * p.usedMap.bitCnt = base + pgsize * pageCnt ∧
      ∀ i < p.usedMap.bitCnt, p.usedMap.bit i = false := by
  simp only [initPool] at h
  generalize hbm : divRoundUp (bitmapBufSize pageCnt) pgsize = bm at h
  have hle : bitmapBufSize pageCnt ≤ bm * pgsize := hbm ▸ le_divRoundUp _
  by_cases hpanic : bm > pageCnt
  · rw [if_pos hpanic] at h
    cases h
  · rw [if_neg hpanic] at h
    have hbuf : bitmapBufSize (pageCnt - bm) ≤ bm * pgsize :=
      (bitmapBufSize_mono (Nat.sub_le ..)).trans hle
    simp only [pgsize, wordSize] at hb hfit hle hbuf
    rw [bitmapCreateInBuf, if_pos (by simpa only [pgsize] using hbuf),
      bitmapSetMultiple_eq (by simp only [wordSize]; omega) (by simp)] at h
    cases h
    have hmod : (base + bm * pgsize) % wordSize = base + bm * pgsize :=
      Nat.mod_eq_of_lt (by simp only [pgsize, wordSize]; omega)
    simp only [hmod, Bitmap.fill_bitCnt]
    refine ⟨⟨?_, hlo, ?_, ?_⟩, trivial, ?_, fun i hi => ?_⟩
    · simp only [pgsize]
      omega
    · simp only [Bitmap.fill_bitCnt, pgsize]
      omega
    · simp only [Bitmap.fill_bitCnt, pgsize, wordSize]
      omega
    · simp only [pgsize]
      omega
    · rw [Bitmap.fill_bit, if_pos ⟨Nat.zero_le i, by omega⟩]

theorem pagesBetween_eq (h : a ≤ b) (hlt : b < a + 0x80000000) :
    pagesBetween a b = (b - a) / pgsize := by
  have hbmod : Int.bmod ((b : Int) - a) wordSize = (b - a : Nat) := by
    rw [Int.bmod_def]
    simp only [wordSize]
    omega
  rw [pagesBetween, hbmod, Int.tdiv_eq_ediv_of_nonneg (Int.natCast_nonneg _)]
  simp only [pgsize, wordSize]
  omega

theorem pgRoundUp_eq (h : a + pgsize ≤ wordSize) :
    a ≤ pgRoundUp a ∧ pgRoundUp a % pgsize = 0 ∧
      ∀ b, b % pgsize = 0 → a ≤ b → pgRoundUp a ≤ b := by
  simp only [pgRoundUp, pgsize, wordSize] at h ⊢
  rw [Nat.mod_eq_of_lt (by omega)]
  refine ⟨by omega, by omega, fun b hb hab => by omega⟩

/-- What `palloc_init` makes of memory, if it does not panic. -/
theorem pallocInit_spec {mem : Nat → Byte} (hk : physBase ≤ kernelEnd)
    (hle : kernelEnd ≤ physBase + pgsize * ramPages) (hram : ramPages < 0x40000)
    (h : pallocInit mem bits kernelEnd ramPages userPageLimit = some m) :
    Layout m kernelEnd (physBase + pgsize * ramPages) ∧
      ∀ user, ∀ i < (m.pool user).usedMap.bitCnt, (m.pool user).usedMap.bit i = false := by
  have hend : ptov (ramPages * pgsize % wordSize) = some (physBase + pgsize * ramPages) := by
    grind [pgsize, physBase, wordSize, ptov]
  have hup : kernelEnd + pgsize ≤ wordSize := by
    simp only [pgsize, wordSize, physBase] at hle ⊢
    omega
  obtain ⟨hup₁, hup₂, hup₃⟩ := pgRoundUp_eq hup
  have hstart : pgRoundUp kernelEnd ≤ physBase + pgsize * ramPages :=
    hup₃ _ (by simp only [pgsize, physBase]; omega) hle
  simp only [pallocInit, hend, Option.bind_eq_bind, Option.bind_some] at h
  rw [pagesBetween_eq hstart (by simp only [pgsize, physBase] at hle hk ⊢; omega)] at h
  generalize hfree : (physBase + pgsize * ramPages - pgRoundUp kernelEnd) / pgsize = free at h
  generalize huser : min (free / 2) userPageLimit = user at h
  have hcut : user ≤ free := by omega
  have hall : pgRoundUp kernelEnd + pgsize * free = physBase + pgsize * ramPages := by
    simp only [pgsize, physBase] at hfree hstart hup₂ ⊢
    omega
  generalize pgRoundUp kernelEnd = start at *
  have hmod : (start + (free - user) * pgsize) % wordSize = start + pgsize * (free - user) := by
    grind [pgsize, wordSize, physBase]
  rw [hmod] at h
  obtain ⟨pk, hpk, h⟩ := Option.bind_eq_some_iff.mp h
  obtain ⟨pu, hpu, h⟩ := Option.bind_eq_some_iff.mp h
  cases h
  simp only [pgsize, physBase] at hall hk hup₂
  obtain ⟨hok, hat, hsz, hbit⟩ := initPool_spec (p := pk) hup₂ (by simp only [physBase]; omega)
    (by simp only [pgsize, wordSize]; omega) hpk
  obtain ⟨hok', hat', hsz', hbit'⟩ := initPool_spec (p := pu) (by simp only [pgsize]; omega)
    (by simp only [physBase]; omega) (by simp only [pgsize, wordSize]; omega) hpu
  refine ⟨⟨fun u => ?_, ?_, ?_, ?_⟩, fun u => ?_⟩
  · cases u
    · exact hok
    · exact hok'
  · rw [hat]
    exact hup₁
  · rw [hsz, hat']
  · rw [hsz']
    simp only [pgsize, physBase]
    omega
  · cases u
    · exact hbit
    · exact hbit'

/-! Allocations. -/

/-- What has been allocated: at each address the pool and the number of pages. -/
structure Palloc where
  memory : Memory
  live : Nat → Option (Bool × Nat)

inductive PallocEvent where
  | get (flags : PallocFlags) (pageCnt : Nat)
  | free (pages pageCnt : Nat)

variable {e : PallocEvent}

/-- `palloc_get_multiple`; the result is 0 if there are not enough pages. -/
def Palloc.get (flags : PallocFlags) (pageCnt : Nat) : Cmd Palloc Nat := fun s =>
  (pallocGetMultiple flags pageCnt s.memory).map fun x => (x.2, {
    memory := x.1
    live := if x.2 ≠ 0 then update s.live x.2 (some (flags.user, pageCnt)) else s.live })

def Palloc.free (pages pageCnt : Nat) : Cmd Palloc Unit := fun s =>
  (pallocFreeMultiple pages pageCnt s.memory).map fun m => ((), {
    memory := m
    live := update s.live pages none })

def Palloc.step (s : Palloc) : PallocEvent → Option Palloc
  | .get flags pageCnt => (Palloc.get flags pageCnt s).map Prod.snd
  | .free pages pageCnt => (Palloc.free pages pageCnt s).map Prod.snd

/-- What is freed has been allocated, with this number of pages. -/
def Freeable (s : Palloc) : PallocEvent → Prop
  | .get .. => True
  | .free pages pageCnt => ∃ user, s.live pages = some (user, pageCnt)

/-- The pages of an allocation, by their numbers. -/
def holds (pages : Nat) (x : Bool × Nat) (page : Nat) : Prop :=
  pgNo pages ≤ page ∧ page < pgNo pages + x.2

/-- The pages that are marked. -/
def used (m : Memory) (page : Nat) : Prop :=
  ∃ user i, i < (m.pool user).usedMap.bitCnt ∧ (m.pool user).usedMap.bit i = true ∧
    page = pgNo (m.pool user).base + i

structure PallocInv (lo hi : Nat) (s : Palloc) : Prop where
  layout : Layout s.memory lo hi
  live : ∀ {a x}, s.live a = some x → ∃ i, a = (s.memory.pool x.1).base + pgsize * i ∧ 0 < x.2 ∧
    i + x.2 ≤ (s.memory.pool x.1).usedMap.bitCnt
  owned : Exclusive s.live holds (used s.memory)
  exact : ∀ {page}, used s.memory page → ∃ a x, s.live a = some x ∧ holds a x page

section
variable {lo hi : Nat} {s : Palloc} {user u : Bool} {b : Bitmap}

@[simp] theorem Memory.pool_setMap (m : Memory) (user : Bool) (b : Bitmap) :
    (m.setMap user b).pool user = { m.pool user with usedMap := b } := by
  cases user <;> rfl

theorem Memory.pool_setMap_other (m : Memory) (b : Bitmap) (h : u ≠ user) :
    (m.setMap user b).pool u = m.pool u := by
  cases user <;> cases u <;> first | rfl | exact absurd rfl h

@[simp] theorem Memory.base_setMap (m : Memory) (user u : Bool) (b : Bitmap) :
    ((m.setMap user b).pool u).base = (m.pool u).base := by
  cases user <;> cases u <;> rfl

theorem Memory.bitCnt_setMap (m : Memory) (u : Bool)
    (hb : b.bitCnt = (m.pool user).usedMap.bitCnt) :
    ((m.setMap user b).pool u).usedMap.bitCnt = (m.pool u).usedMap.bitCnt := by
  by_cases hu : u = user
  · subst hu
    rw [pool_setMap]
    exact hb
  · rw [pool_setMap_other _ _ hu]

@[simp] theorem Memory.pool_mem (m : Memory) (mem : Nat → Byte) (user : Bool) :
    ({ m with mem := mem }).pool user = m.pool user := rfl

theorem Layout.setMap (h : Layout m lo hi) (hb : b.bitCnt = (m.pool user).usedMap.bitCnt) :
    Layout (m.setMap user b) lo hi := by
  refine ⟨fun u => ?_, ?_, ?_, ?_⟩
  · by_cases hu : u = user
    · subst hu
      obtain ⟨h₁, h₂, h₃, h₄⟩ := h.pool u
      rw [Memory.pool_setMap]
      exact ⟨h₁, h₂, by simpa only [hb] using h₃, by simpa only [hb] using h₄⟩
    · rw [Memory.pool_setMap_other _ _ hu]
      exact h.pool u
  · cases user <;> exact h.first
  · cases user
    · show m.kernelPool.base + pgsize * b.bitCnt ≤ _
      rw [hb]
      exact h.between
    · exact h.between
  · cases user
    · exact h.last
    · show m.userPool.base + pgsize * b.bitCnt ≤ _
      rw [hb]
      exact h.last

theorem Layout.mem (h : Layout m lo hi) (mem : Nat → Byte) : Layout { m with mem := mem } lo hi :=
  ⟨h.pool, h.first, h.between, h.last⟩

theorem Layout.index_unique (h : Layout m lo hi) {v : Bool} {j : Nat}
    (hi : i < (m.pool u).usedMap.bitCnt) (hj : j < (m.pool v).usedMap.bitCnt)
    (heq : pgNo (m.pool u).base + i = pgNo (m.pool v).base + j) : u = v ∧ i = j := by
  have hk := h.pool false
  have hu := h.pool true
  have hb := h.between
  obtain ⟨hk₁, -, -, -⟩ := hk
  obtain ⟨hu₁, -, hu₃, -⟩ := hu
  have hapart : pgNo m.kernelPool.base + m.kernelPool.usedMap.bitCnt ≤ pgNo m.userPool.base := by
    grind [pgNo, pgsize, Memory.pool]
  cases u <;> cases v <;>
    simp only [Memory.pool, if_true, Bool.false_eq_true, if_false] at hi hj heq
  · exact ⟨rfl, by omega⟩
  · omega
  · omega
  · exact ⟨rfl, by omega⟩

theorem Memory.setMap_self (m : Memory) (user : Bool) :
    m.setMap user (m.pool user).usedMap = m := by
  cases user <;> rfl

theorem pgNo_add (a i : Nat) : pgNo (a + pgsize * i) = pgNo a + i := by
  simp only [pgNo, pgsize]
  omega

theorem PoolOk.size (h : PoolOk p) : p.usedMap.bitCnt < wordSize := by
  have := h.fits
  simp only [pgsize, wordSize] at this ⊢
  omega

theorem Layout.page_ne_zero (h : Layout m lo hi) (user : Bool) (i : Nat) :
    (m.pool user).base + pgsize * i ≠ 0 := by
  have h₁ := (h.pool user).above
  have h₂ := (h.pool user).map
  simp only [physBase] at h₁
  omega

theorem pallocGetMultiple_spec (flags : PallocFlags) (h : Layout m lo hi)
    (hcnt : 0 < pageCnt) :
    ∃ r mem, (m.pool flags.user).usedMap.FirstRun pageCnt false r ∧
      pallocGetMultiple flags pageCnt m = some (match r with
        | none => (m, 0)
        | some idx =>
          ({ m.setMap flags.user ((m.pool flags.user).usedMap.fill idx pageCnt true) with
            mem := mem }, (m.pool flags.user).base + pgsize * idx)) := by
  have hok := h.pool flags.user
  obtain ⟨r, hr, hscan⟩ := bitmapScanAndFlip_spec hok.size pageCnt false
  have hne : pageCnt ≠ 0 := by omega
  simp only [pallocGetMultiple, if_neg hne, hscan]
  cases r with
  | none =>
    refine ⟨none, m.mem, hr, ?_⟩
    simp only [Option.bind_eq_bind, Option.bind_some, Memory.setMap_self]
    cases flags.assert <;> rfl
  | some idx =>
    have hlast : (m.pool flags.user).base + pgsize * idx < wordSize := by
      have h₁ := hr.1
      have h₂ := hok.fits
      simp only [pgsize, wordSize] at h₂ ⊢
      omega
    simp only [Option.bind_eq_bind, Option.bind_some, Nat.mod_eq_of_lt hlast]
    rw [if_pos (h.page_ne_zero flags.user idx)]
    exact ⟨some idx, _, hr, rfl⟩

theorem pallocFreeMultiple_spec (h : Layout m lo hi)
    (hcnt : 0 < pageCnt) (hlen : idx + pageCnt ≤ (m.pool user).usedMap.bitCnt)
    (hrun : (m.pool user).usedMap.Run idx pageCnt true) :
    ∃ mem, pallocFreeMultiple ((m.pool user).base + pgsize * idx) pageCnt m = some
      ({ m.setMap user ((m.pool user).usedMap.fill idx pageCnt false) with mem := mem }) := by
  have hok := h.pool user
  have hofs : pgOfs ((m.pool user).base + pgsize * idx) = 0 := by grind [hok.aligned, pgOfs, pgsize]
  have hfrom : ∀ u, pageFromPool (m.pool u) ((m.pool user).base + pgsize * idx) = true ↔
      u = user := by
    intro u
    rw [pageFromPool, pgNo_add, Bool.and_eq_true, decide_eq_true_eq, decide_eq_true_eq]
    constructor
    · rintro ⟨h₁, h₂⟩
      exact (h.index_unique (u := u) (v := user)
        (i := pgNo (m.pool user).base + idx - pgNo (m.pool u).base) (j := idx) (by omega) (by omega)
        (by omega)).1
    · rintro rfl
      omega
  have howner : owningPool m ((m.pool user).base + pgsize * idx) = some user := by
    have hf : pageFromPool m.kernelPool _ = true ↔ false = user := hfrom false
    have ht : pageFromPool m.userPool _ = true ↔ true = user := hfrom true
    rw [owningPool]
    cases user
    · rw [if_pos (hf.mpr rfl)]
    · rw [if_neg (fun hc => by cases hf.mp hc), if_pos (ht.mpr rfl)]
  have hidx : pgNo ((m.pool user).base + pgsize * idx) - pgNo (m.pool user).base = idx := by
    rw [pgNo_add]
    omega
  rw [pallocFreeMultiple, if_neg (by rw [hofs]; simp), if_neg (by
    rintro (h0 | h0)
    · exact h.page_ne_zero user idx h0
    · omega), howner]
  simp only [Option.bind_eq_bind, Option.bind_some, hidx]
  rw [bitmapAll_eq hok.size hlen hrun, bitmapSetMultiple_eq hok.size hlen]
  refine ⟨memset m.mem ((m.pool user).base + pgsize * idx) 0xcc (pgsize * pageCnt % wordSize), ?_⟩
  cases user <;> rfl

/-! What a step does to the pages that are in use. -/

theorem used_fill (h : Layout m lo hi)
    (hlen : idx + pageCnt ≤ (m.pool user).usedMap.bitCnt) (value : Bool) (mem : Nat → Byte)
    (page : Nat) :
    used { m.setMap user ((m.pool user).usedMap.fill idx pageCnt value) with mem := mem } page ↔
      (holds ((m.pool user).base + pgsize * idx) (user, pageCnt) page ∧ value = true) ∨
      (¬holds ((m.pool user).base + pgsize * idx) (user, pageCnt) page ∧ used m page) := by
  simp only [used, holds, Memory.pool_mem, pgNo_add]
  constructor
  · rintro ⟨u, i, hi, hbit, rfl⟩
    by_cases hu : u = user
    · grind [Memory.pool_setMap, Bitmap.fill_bitCnt, Bitmap.fill_bit]
    · rw [Memory.pool_setMap_other _ _ hu] at hi hbit ⊢
      refine Or.inr ⟨fun hin => hu ?_, u, i, hi, hbit, rfl⟩
      exact (h.index_unique (v := user) (j := pgNo (m.pool u).base + i - pgNo (m.pool user).base) hi
        (by omega) (by omega)).1
  · rintro (⟨hin, hv⟩ | ⟨hin, u, i, hi, hbit, rfl⟩)
    · refine ⟨user, page - pgNo (m.pool user).base, ?_⟩
      simp only [Memory.pool_setMap, Bitmap.fill_bitCnt, Bitmap.fill_bit]
      exact ⟨by omega, by rw [if_pos (by omega)]; exact hv, by omega⟩
    · by_cases hu : u = user
      · subst hu
        refine ⟨u, i, ?_⟩
        simp only [Memory.pool_setMap, Bitmap.fill_bitCnt, Bitmap.fill_bit]
        exact ⟨hi, by rw [if_neg (by omega)]; exact hbit, trivial⟩
      · refine ⟨u, i, ?_⟩
        rw [Memory.pool_setMap_other _ _ hu]
        exact ⟨hi, hbit, rfl⟩

/-- Page `i` of a pool is not part of an allocation. -/
def Free (s : Palloc) (user : Bool) (i : Nat) : Prop :=
  ∀ a x, s.live a = some x → ¬holds a x (pgNo (s.memory.pool user).base + i)

section
variable (h : PallocInv lo hi s)
include h

theorem PallocInv.bit_iff (hi' : i < (s.memory.pool user).usedMap.bitCnt) :
    (s.memory.pool user).usedMap.bit i = false ↔ Free s user i := by
  constructor
  · intro hbit a x hl hh
    obtain ⟨u, j, hj, hbit', heq⟩ := h.owned.used hl hh
    obtain ⟨rfl, rfl⟩ := h.layout.index_unique hi' hj heq
    rw [hbit] at hbit'
    cases hbit'
  · intro hfree
    by_contra hbit
    obtain ⟨a, x, hl, hh⟩ := h.exact ⟨user, i, hi', eq_true_of_ne_false hbit, rfl⟩
    exact hfree a x hl hh

theorem PallocInv.run_iff (hlen : i + cnt ≤ (s.memory.pool user).usedMap.bitCnt) :
    (s.memory.pool user).usedMap.Run i cnt false ↔ ∀ j < cnt, Free s user (i + j) :=
  forall₂_congr fun _ _ => h.bit_iff (by omega)

theorem PallocInv.run_live (hl : s.live ((s.memory.pool user).base + pgsize * i) = some (user, cnt))
    (hlen : i + cnt ≤ (s.memory.pool user).usedMap.bitCnt) :
    (s.memory.pool user).usedMap.Run i cnt true := by
  intro j hj
  by_contra hbit
  have hfree := (h.bit_iff (show i + j < _ by omega)).mp (eq_false_of_ne_true hbit)
  refine hfree _ _ hl ?_
  simp only [holds, pgNo_add]
  omega

theorem PallocInv.not_held {page : Nat} (hlen : idx + cnt ≤ (s.memory.pool user).usedMap.bitCnt)
    (hrun : (s.memory.pool user).usedMap.Run idx cnt false) (hp : used s.memory page) :
    ¬holds ((s.memory.pool user).base + pgsize * idx) (user, cnt) page := by
  intro hh
  obtain ⟨a, x, hl, hx⟩ := h.exact hp
  simp only [holds, pgNo_add] at hh
  refine (h.run_iff hlen).mp hrun (page - pgNo (s.memory.pool user).base - idx) (by omega) a x
    hl ?_
  rwa [show pgNo (s.memory.pool user).base +
    (idx + (page - pgNo (s.memory.pool user).base - idx)) = page by omega]

theorem PallocInv.not_live (hlen : idx + cnt ≤ (s.memory.pool user).usedMap.bitCnt) (hcnt : 0 < cnt)
    (hrun : (s.memory.pool user).usedMap.Run idx cnt false) (hl : s.live a = some x) :
    a ≠ (s.memory.pool user).base + pgsize * idx := by
  rintro rfl
  obtain ⟨-, -, hpos, -⟩ := h.live hl
  refine h.not_held hlen hrun (h.owned.used hl ⟨Nat.le_refl _, by omega⟩) ⟨Nat.le_refl _, ?_⟩
  show _ < _ + cnt
  omega

theorem PallocInv.insert (hcnt : 0 < cnt) (hlen : idx + cnt ≤ (s.memory.pool user).usedMap.bitCnt)
    (hrun : (s.memory.pool user).usedMap.Run idx cnt false) (mem : Nat → Byte) : PallocInv lo hi
      { memory := { s.memory.setMap user ((s.memory.pool user).usedMap.fill idx cnt true) with
          mem := mem }
        live := update s.live ((s.memory.pool user).base + pgsize * idx)
          (some (user, cnt)) } := by
  have hused := used_fill h.layout hlen true mem
  have hold : ∀ page, used s.memory page → _ := fun page => h.not_held hlen hrun
  refine ⟨h.layout.setMap (Bitmap.fill_bitCnt ..) |>.mem mem, fun {a x} ha => ?_, ?_, fun hp => ?_⟩
  · simp only [Memory.pool_mem, Memory.base_setMap,
      Memory.bitCnt_setMap _ _ (Bitmap.fill_bitCnt ..)]
    by_cases hne : a = (s.memory.pool user).base + pgsize * idx
    · simp only [hne, update_self, Option.some.injEq] at ha
      subst ha
      exact ⟨idx, hne, hcnt, hlen⟩
    · simp only [update_of_ne hne] at ha
      exact h.live ha
  · refine (h.owned.mono fun page hp => (hused page).mpr (Or.inr ⟨hold page hp, hp⟩)).insert
      (fun page hp => (hused page).mpr (Or.inl ⟨hp, rfl⟩)) fun page hp a x hl hx => ?_
    exact hold page (h.owned.used hl hx) hp
  · grind [h.exact, h.not_live]

theorem PallocInv.erase (hl : s.live ((s.memory.pool user).base + pgsize * idx) = some (user, cnt))
    (hlen : idx + cnt ≤ (s.memory.pool user).usedMap.bitCnt) (mem : Nat → Byte) : PallocInv lo hi
      { memory := { s.memory.setMap user ((s.memory.pool user).usedMap.fill idx cnt false) with
          mem := mem }
        live := update s.live ((s.memory.pool user).base + pgsize * idx) none } := by
  have hused := used_fill h.layout hlen false mem
  refine ⟨h.layout.setMap (Bitmap.fill_bitCnt ..) |>.mem mem, fun {a x} ha => ?_, ?_, fun hp => ?_⟩
  · simp only [Memory.pool_mem, Memory.base_setMap,
      Memory.bitCnt_setMap _ _ (Bitmap.fill_bitCnt ..)]
    by_cases hne : a = (s.memory.pool user).base + pgsize * idx
    · simp only [hne, update_self, reduceCtorEq] at ha
    · simp only [update_of_ne hne] at ha
      exact h.live ha
  · exact h.owned.erase hl fun page hp hx => (hused page).mpr (Or.inr ⟨hx, hp⟩)
  · grind [h.exact]

/-- There are pages to be had. -/
def FreeRun (p : Pool) (pageCnt : Nat) : Prop :=
  pageCnt ≠ 0 ∧ ∃ i, i + pageCnt ≤ p.usedMap.bitCnt ∧ p.usedMap.Run i pageCnt false

theorem Palloc.get_spec (flags : PallocFlags) (pageCnt : Nat) :
    wp (Palloc.get flags pageCnt) (fun pages s' => PallocInv lo hi s' ∧
      ((pages = 0 ∧ s'.live = s.live ∧ ¬FreeRun (s.memory.pool flags.user) pageCnt) ∨
      (pages ≠ 0 ∧ s.live pages = none ∧
        s'.live = update s.live pages (some (flags.user, pageCnt)) ∧
        FreeRun (s.memory.pool flags.user) pageCnt))) s := by
  by_cases hcnt : pageCnt = 0
  · have hget : pallocGetMultiple flags pageCnt s.memory = some (s.memory, 0) := if_pos hcnt
    exact wp_intro (by rw [Palloc.get, hget]; rfl) ⟨h, Or.inl ⟨rfl, rfl, fun hrun => hrun.1 hcnt⟩⟩
  · obtain ⟨r, mem, hr, hget⟩ := pallocGetMultiple_spec flags h.layout (Nat.pos_of_ne_zero hcnt)
    cases r with
    | none =>
      exact wp_intro (by rw [Palloc.get, hget]; rfl) ⟨h, Or.inl ⟨rfl, rfl, fun ⟨_, i, hi, hrun⟩ =>
        hr i hi hrun⟩⟩
    | some idx =>
      have hne := h.layout.page_ne_zero flags.user idx
      have hnot : s.live ((s.memory.pool flags.user).base + pgsize * idx) = none := by
        by_contra hsome
        obtain ⟨x, hx⟩ := Option.ne_none_iff_exists'.mp hsome
        exact h.not_live hr.1 (Nat.pos_of_ne_zero hcnt) hr.2.1 hx rfl
      refine wp_intro (by rw [Palloc.get, hget, Option.map_some, if_pos hne])
        ⟨h.insert (Nat.pos_of_ne_zero hcnt) hr.1 hr.2.1 mem,
          Or.inr ⟨hne, hnot, rfl, hcnt, idx, hr.1, hr.2.1⟩⟩

end

/-- Pages that are not asked for as zero keep what is in them. -/
theorem Palloc.get_mem {flags : PallocFlags} (hz : flags.zero = false) (pageCnt : Nat) :
    wpIf False (Palloc.get flags pageCnt) (fun _ s' => s'.memory.mem = s.memory.mem) s := by
  refine ⟨fun pages s' hget => ?_, False.elim⟩
  obtain ⟨⟨m, r⟩, hm, heq⟩ := Option.map_eq_some_iff.mp hget
  cases heq
  rw [pallocGetMultiple] at hm
  split at hm
  · cases hm
    rfl
  · obtain ⟨⟨b, idx⟩, -, hm⟩ := Option.bind_eq_some_iff.mp hm
    have hmap : (s.memory.setMap flags.user b).mem = s.memory.mem := by
      rw [Memory.setMap]
      split <;> rfl
    cases idx with
    | none =>
      cases hm
      exact hmap
    | some k => grind

theorem Palloc.free_mem (pages pageCnt : Nat) :
    wpIf False (Palloc.free pages pageCnt) (fun _ s' => ∀ i,
      i < pages ∨ pages + pgsize * pageCnt ≤ i → s'.memory.mem i = s.memory.mem i) s := by
  refine ⟨fun _ s' hfree i hi => ?_, False.elim⟩
  obtain ⟨m, hm, heq⟩ := Option.map_eq_some_iff.mp hfree
  cases heq
  rw [pallocFreeMultiple] at hm
  split at hm
  · cases hm
  · split at hm
    · cases hm
      rfl
    · obtain ⟨user, -, hm⟩ := Option.bind_eq_some_iff.mp hm
      obtain ⟨all, -, hm⟩ := Option.bind_eq_some_iff.mp hm
      split at hm
      · obtain ⟨b, -, hm⟩ := Option.bind_eq_some_iff.mp hm
        cases hm
        have hmap (m : Memory) : (m.setMap user b).mem = m.mem := by
          rw [Memory.setMap]
          split <;> rfl
        rw [hmap]
        refine if_neg fun hin => ?_
        have := Nat.mod_le (pgsize * pageCnt) wordSize
        omega
      · cases hm

theorem Palloc.free_spec (h : PallocInv lo hi s) {pages : Nat}
    (hl : s.live pages = some (user, pageCnt)) :
    wp (Palloc.free pages pageCnt) (fun _ s' => PallocInv lo hi s' ∧
      s'.live = update s.live pages none) s := by
  obtain ⟨idx, rfl, hpos, hlen⟩ := h.live hl
  obtain ⟨mem, hfree⟩ := pallocFreeMultiple_spec h.layout hpos hlen (h.run_live hl hlen)
  exact wp_intro (by rw [Palloc.free, hfree]; rfl) ⟨h.erase hl hlen mem, rfl⟩

/-- **One step keeps the pools in order.** -/
theorem PallocInv.step (h : PallocInv lo hi s) {s' : Palloc} (he : Freeable s e)
    (hs : s.step e = some s') : PallocInv lo hi s' := by
  cases e with
  | get flags pageCnt =>
    obtain ⟨⟨_, _⟩, hx, rfl⟩ := Option.map_eq_some_iff.mp hs
    exact (wp_elim (Palloc.get_spec h flags pageCnt) hx).1
  | free pages pageCnt =>
    obtain ⟨⟨_, _⟩, hx, rfl⟩ := Option.map_eq_some_iff.mp hs
    obtain ⟨user, hl⟩ := he
    exact (wp_elim (Palloc.free_spec h hl) hx).1

end

/-! Whole runs. -/

/-- Two ranges of addresses, by where they start and how long they are. -/
def Apart (a n b k : Nat) : Prop := a + n ≤ b ∨ b + k ≤ a

/-- The lowest run of `cnt` free pages of a pool, or 0 if there is none. -/
def Lowest (s : Palloc) (user : Bool) (cnt pages : Nat) : Prop :=
  (pages = 0 ∧ ∀ i, i + cnt ≤ (s.memory.pool user).usedMap.bitCnt →
    ∃ j < cnt, ¬Free s user (i + j)) ∨
  (pages ≠ 0 ∧ ∃ i, pages = (s.memory.pool user).base + pgsize * i ∧
    i + cnt ≤ (s.memory.pool user).usedMap.bitCnt ∧ (∀ j < cnt, Free s user (i + j)) ∧
    ∀ k < i, ∃ j < cnt, ¬Free s user (k + j))

/-- The page allocator hands out disjoint runs from the right pool. -/
structure PallocOk (lo hi : Nat) (s : Palloc) : Prop where
  /-- Where the bitmaps and the pools are. -/
  layout : Layout s.memory lo hi
  /-- An allocation lies in the pool it was taken from, and so neither in the other one nor
      in a bitmap. -/
  inside : ∀ a x, s.live a = some x → 0 < x.2 ∧ (s.memory.pool x.1).base ≤ a ∧
    a + pgsize * x.2 ≤ (s.memory.pool x.1).base + pgsize * (s.memory.pool x.1).usedMap.bitCnt
  clear : ∀ a x, s.live a = some x → ∀ user,
    Apart a (pgsize * x.2) (s.memory.pool user).mapAt
      (bitmapBufSize (s.memory.pool user).usedMap.bitCnt) ∧
    (user ≠ x.1 → Apart a (pgsize * x.2) (s.memory.pool user).base
      (pgsize * (s.memory.pool user).usedMap.bitCnt))
  apart : ∀ a b x y, s.live a = some x → s.live b = some y → a ≠ b →
    Apart a (pgsize * x.2) b (pgsize * y.2)
  get : ∀ flags cnt, 0 < cnt → ∃ m pages,
    pallocGetMultiple flags cnt s.memory = some (m, pages) ∧ Lowest s flags.user cnt pages
  /-- Exactly the pages of the allocation are no longer marked. -/
  free : ∀ a x, s.live a = some x → ∃ m, pallocFreeMultiple a x.2 s.memory = some m ∧
    ∀ page, used m page ↔ used s.memory page ∧ ¬holds a x page

section
variable {lo hi : Nat} {s : Palloc}

theorem PallocInv.inside (h : PallocInv lo hi s) (hl : s.live a = some x) :
    0 < x.2 ∧ a % pgsize = 0 ∧ (s.memory.pool x.1).base ≤ a ∧
    a + pgsize * x.2 ≤
      (s.memory.pool x.1).base + pgsize * (s.memory.pool x.1).usedMap.bitCnt := by
  obtain ⟨i, rfl, hpos, hlen⟩ := h.live hl
  have := (h.layout.pool x.1).aligned
  simp only [pgsize] at this ⊢
  omega

theorem PallocInv.apart (h : PallocInv lo hi s) {y : Bool × Nat} (ha : s.live a = some x)
    (hb : s.live b = some y) (hne : a ≠ b) : Apart a (pgsize * x.2) b (pgsize * y.2) := by
  have hia := h.inside ha
  have hib := h.inside hb
  by_contra hno
  have hmeet : ∃ page, holds a x page ∧ holds b y page := by
    refine ⟨max (pgNo a) (pgNo b), ?_⟩
    simp only [Apart, holds, pgNo, pgsize] at *
    omega
  obtain ⟨page, hpa, hpb⟩ := hmeet
  exact hne (h.owned.apart ha hb hpa hpb)

theorem PallocInv.clear (h : PallocInv lo hi s) (hl : s.live a = some x) (user : Bool) :
    Apart a (pgsize * x.2) (s.memory.pool user).mapAt
      (bitmapBufSize (s.memory.pool user).usedMap.bitCnt) ∧
    (user ≠ x.1 → Apart a (pgsize * x.2) (s.memory.pool user).base
      (pgsize * (s.memory.pool user).usedMap.bitCnt)) := by
  obtain ⟨-, -, h₁, h₂⟩ := h.inside hl
  have hk := (h.layout.pool false).map
  have hu := (h.layout.pool true).map
  have hb := h.layout.between
  obtain ⟨u, cnt⟩ := x
  simp only [Memory.pool, if_true, Bool.false_eq_true, if_false] at hk hu
  cases user <;> cases u <;>
    simp only [Memory.pool, if_true, Bool.false_eq_true, if_false, Apart, ne_eq, not_true_eq_false,
      false_imp_iff, and_true] at h₁ h₂ ⊢ <;> omega

theorem PallocInv.ok (h : PallocInv lo hi s) : PallocOk lo hi s where
  layout := h.layout
  inside := fun a x hl => by
    obtain ⟨h₁, -, h₂, h₃⟩ := h.inside hl
    exact ⟨h₁, h₂, h₃⟩
  clear := fun a x hl => h.clear hl
  apart := fun a b x y ha hb hne => h.apart ha hb hne
  get := fun flags cnt hcnt => by
    obtain ⟨r, mem, hr, hget⟩ := pallocGetMultiple_spec flags h.layout hcnt
    have hfirst : ∀ i, i + cnt ≤ (s.memory.pool flags.user).usedMap.bitCnt →
        ¬(s.memory.pool flags.user).usedMap.Run i cnt false →
        ∃ j < cnt, ¬Free s flags.user (i + j) := by
      intro i hi hno
      simpa only [h.run_iff hi, not_forall, exists_prop] using hno
    cases r with
    | none => exact ⟨_, _, hget, Or.inl ⟨rfl, fun i hi => hfirst i hi (hr i hi)⟩⟩
    | some idx =>
      obtain ⟨hlen, hrun, hbefore⟩ := hr
      refine ⟨_, _, hget, Or.inr ⟨h.layout.page_ne_zero _ _, idx, rfl, hlen,
        (h.run_iff hlen).mp hrun, fun k hk => ?_⟩⟩
      exact hfirst k (by omega) (hbefore k hk)
  free := fun a x hl => by grind [h.live, pallocFreeMultiple_spec, h.layout, h.run_live, used_fill]

end

theorem pallocInit_inv {mem : Nat → Byte} (hk : physBase ≤ kernelEnd)
    (hle : kernelEnd ≤ physBase + pgsize * ramPages) (hram : ramPages < 0x40000)
    (hinit : pallocInit mem bits kernelEnd ramPages userPageLimit = some m) :
    PallocInv kernelEnd (physBase + pgsize * ramPages) ⟨m, fun _ => none⟩ := by
  obtain ⟨hlayout, hbits⟩ := pallocInit_spec hk hle hram hinit
  refine ⟨hlayout, (nomatch ·), ⟨(nomatch ·), (nomatch ·)⟩, ?_⟩
  rintro page ⟨user, i, hi, hbit, -⟩
  rw [hbits user i hi] at hbit
  cases hbit

/-- **The page allocator hands out disjoint runs from the right pool**, whatever memory
    there is above the kernel. -/
theorem palloc_disjoint_runs {mem : Nat → Byte} {bits : Bool → Nat → BitVec 32}
    {kernelEnd ramPages userPageLimit : Nat} {m : Memory} (hk : physBase ≤ kernelEnd)
    (hle : kernelEnd ≤ physBase + pgsize * ramPages) (hram : ramPages < 0x40000)
    (hinit : pallocInit mem bits kernelEnd ramPages userPageLimit = some m) {s : Palloc}
    (h : Reach Palloc.step Freeable ⟨m, fun _ => none⟩ s) :
    PallocOk kernelEnd (physBase + pgsize * ramPages) s :=
  (h.inv (I := PallocInv kernelEnd (physBase + pgsize * ramPages))
    (pallocInit_inv hk hle hram hinit) fun _ _ _ hi he hs => hi.step he hs).ok

/-- Six pages above a kernel of 1 MB: three pages a pool, the first for the bitmap. -/
def smallMemory : Option Memory :=
  pallocInit (fun _ => 0) (fun _ _ => 0) 0xc0100000 262 0xffffffff

/-- Pages are taken from both pools, and the first ones are given back. -/
def takeAndFree : List PallocEvent :=
  [.get ⟨false, true, true⟩ 1, .get ⟨false, false, false⟩ 2, .free 0xc0104000 1]

def freeableB (s : Palloc) : PallocEvent → Bool
  | .get .. => true
  | .free pages pageCnt => (s.live pages).any (·.2 = pageCnt)

theorem freeable_of_freeableB {s : Palloc} (h : freeableB s e = true) : Freeable s e := by
  cases e with
  | get flags pageCnt => trivial
  | free pages pageCnt =>
    obtain ⟨⟨user, cnt⟩, hl, hc⟩ := (Option.any_eq_true _ _).mp h
    simp only [decide_eq_true_eq] at hc
    exact ⟨user, by rw [hl, hc]⟩

theorem palloc_disjoint_runs_small : ∃ m s, smallMemory = some m ∧
    Reach Palloc.step Freeable ⟨m, fun _ => none⟩ s ∧
    (s.live 0xc0101000 = some (false, 2) ∧ s.live 0xc0104000 = none) ∧
    PallocOk 0xc0100000 (physBase + pgsize * 262) s := by
  have hall : (smallMemory.any fun m =>
      runOk Palloc.step freeableB ⟨m, fun _ => none⟩ takeAndFree &&
      (run Palloc.step ⟨m, fun _ => none⟩ takeAndFree).any fun s =>
        s.live 0xc0101000 = some (false, 2) && s.live 0xc0104000 = none) = true := by
    decide +kernel
  obtain ⟨m, hm, hall⟩ := (Option.any_eq_true _ _).mp hall
  rw [Bool.and_eq_true] at hall
  obtain ⟨s, hs, hq⟩ := exists_reach Palloc.step _ takeAndFree _ (fun _ _ => freeable_of_freeableB)
    hall.1 hall.2
  exact ⟨m, s, hm, hs, by simpa using hq,
    palloc_disjoint_runs (by decide) (by decide) (by decide) hm hs⟩

end Pintos.Threads
