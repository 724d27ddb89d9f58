import Pintos.Vm.Machine

/- What one operation can do to the state.

   Each operation that needs a frame first makes room (`Room`: either a page of
   the pool is free, or the front of the frame table is evicted), then takes the
   lowest free page `k` (`grab`) and does one of the things listed by `PageOp`
   with it. `step_cases` says this once for the whole machine, so that an
   invariant is a lemma about an eviction, a lemma about `PageOp` and one lemma
   for each operation that takes no frame. -/
namespace Pintos.Vm

open Function

variable {s s' s₀ : VmState} {k u addr : Nat} {p : Tid} {ok ptOk w write : Bool}
  {sup sup₀ : SupPageEntry} {f : FrameEntry} {se : SwapEntry} {b : Byte}

/-- The frame `k` is taken by `p`, holds `buf`, and is not installed yet. -/
def grab (s : VmState) (p : Tid) (k : Nat) (buf : Buf) : VmState :=
  { s with
    usedMap := update s.usedMap k true
    mem := update s.mem k buf
    frameTable := s.frameTable ++ [⟨p, k, none⟩] }

/-- The page table entry is written, then the frame table entry. -/
def mapFrame (s : VmState) (p : Tid) (upage k : Nat) (writable : Bool) : VmState :=
  { s with
    frameTable := setUpage upage k s.frameTable
    pagedir := update s.pagedir p
      ((s.pagedir p).insert upage ⟨k, true, writable, false⟩) }

/-- The lowest free page of the pool. -/
def FirstFree (s : VmState) (k : Nat) : Prop :=
  k < s.poolSize ∧ s.usedMap k = false ∧ ∀ j < k, s.usedMap j = true

def PoolFull (s : VmState) : Prop := ∀ k < s.poolSize, s.usedMap k = true

/-- Room for one frame: nothing to do, or the front of the table is evicted. -/
inductive Room (s : VmState) : VmState → Prop
  | free {k : Nat} : FirstFree s k → Room s s
  | evict {s₀ : VmState} : PoolFull s → evictFront s = some s₀ → Room s s₀

theorem find_free_some
    (h : (List.range s.poolSize).find? (fun k => !s.usedMap k) = some k) : FirstFree s k := by
  rw [List.find?_range_eq_some] at h
  obtain ⟨hk, hmem, hlt⟩ := h
  refine ⟨List.mem_range.mp hmem, by simpa using hk, fun j hj => by simpa using hlt j hj⟩

theorem find_free_none
    (h : (List.range s.poolSize).find? (fun k => !s.usedMap k) = none) : PoolFull s := by
  rw [List.find?_eq_none] at h
  intro k hk
  simpa using h k (List.mem_range.mpr hk)

/-- What `palloc_get_multiple` leaves in the frame. -/
def gotten (s : VmState) (k : Nat) (zero : Bool) : Buf := if zero then fun _ => 0 else s.mem k

theorem pallocGet_cases (s : VmState) (zero : Bool) :
    (PoolFull s ∧ pallocGet s zero = none) ∨
    ∃ k, FirstFree s k ∧ pallocGet s zero =
      some ({ s with
        usedMap := update s.usedMap k true
        mem := update s.mem k (gotten s k zero) }, k) := by
  unfold pallocGet
  cases h : (List.range s.poolSize).find? (fun k => !s.usedMap k) with
  | none => exact .inl ⟨find_free_none h, rfl⟩
  | some k =>
    refine .inr ⟨k, find_free_some h, ?_⟩
    rw [Option.map_some]
    cases zero <;> simp [gotten]

/-- The allocator makes room and takes the lowest free page. -/
theorem frameTableAllocator_cases {s₁ : VmState} {zero : Bool}
    (h : frameTableAllocator s p zero = some (s₁, k)) :
    ∃ s₀, Room s s₀ ∧ FirstFree s₀ k ∧ s₁ = grab s₀ p k (gotten s₀ k zero) := by
  unfold frameTableAllocator at h
  rcases pallocGet_cases s zero with ⟨hfull, hnone⟩ | ⟨j, hj, hsome⟩
  · rw [hnone] at h
    simp only [Option.bind_eq_some_iff, Option.map_eq_some_iff] at h
    obtain ⟨s₀, hev, ⟨t, j⟩, hget, heq⟩ := h
    rcases pallocGet_cases s₀ zero with ⟨-, hnone'⟩ | ⟨j', hj', hsome'⟩
    · rw [hnone'] at hget; cases hget
    · rw [hsome'] at hget
      cases hget
      cases heq
      exact ⟨s₀, .evict hfull hev, hj', rfl⟩
  · rw [hsome] at h
    cases h
    exact ⟨s, .free hj, hj, rfl⟩

theorem frameTableAllocator_eq (hroom : Room s s₀)
    (hfree : FirstFree s₀ k) (p : Tid) (zero : Bool) :
    frameTableAllocator s p zero = some (grab s₀ p k (gotten s₀ k zero), k) := by
  have hget : ∀ {t}, FirstFree t k → pallocGet t zero = some ({ t with
      usedMap := update t.usedMap k true
      mem := update t.mem k (gotten t k zero) }, k) := by
    intro t ht
    rcases pallocGet_cases t zero with ⟨hfull, -⟩ | ⟨j, hj, hsome⟩
    · exact absurd ((hfull k ht.1).symm.trans ht.2.1) (by decide)
    · -- the lowest free page is unique
      obtain rfl : j = k := by
        rcases Nat.lt_trichotomy j k with hlt | heq | hlt
        · exact absurd ((ht.2.2 j hlt).symm.trans hj.2.1) (by decide)
        · exact heq
        · exact absurd ((hj.2.2 k hlt).symm.trans ht.2.1) (by decide)
      exact hsome
  cases hroom with
  | free => simp [frameTableAllocator, hget hfree, pushFrame, grab]
  | evict hfull hev =>
    have hnone : pallocGet s zero = none := by
      rcases pallocGet_cases s zero with ⟨-, hnone⟩ | ⟨j, hj, -⟩
      · exact hnone
      · exact absurd ((hfull j hj.1).symm.trans hj.2.1) (by decide)
    simp [frameTableAllocator, hnone, hev, hget hfree, pushFrame, grab]

/-! Evictions. -/

/-- The front entry, its page and the page's supplemental entry. -/
structure Victim (s : VmState) (f : FrameEntry) (rest : List FrameEntry) (u : Nat)
    (sup : SupPageEntry) : Prop where
  front : s.frameTable = f :: rest
  live : s.exited f.usingThread = false
  upage : f.upage = some u
  sup : (s.supPageTable f.usingThread).lookup u = some sup
  user : isUserPage u = true
  inPool : f.kpage < s.poolSize
  used : s.usedMap f.kpage = true

/-- The victim's page is no longer present and its frame is free. -/
def evicted (s : VmState) (f : FrameEntry) (rest : List FrameEntry) (u : Nat) : VmState :=
  { s with
    frameTable := rest
    pagedir := update s.pagedir f.usingThread (clearPresent (s.pagedir f.usingThread) u)
    usedMap := update s.usedMap f.kpage false
    mem := update s.mem f.kpage (fun _ => 0xcc) }

/-- The state in which the frame's bytes are in slot `i`, of entry `se`. -/
def saved (s : VmState) (f : FrameEntry) (u : Nat) (sup : SupPageEntry) (i : Nat) (se : SwapEntry) :
    VmState :=
  setSup { s with
    swapDisk := { s.swapDisk with
      sector := Lib.writeChunks diskSectorSize (s.mem f.kpage) s.swapDisk.sector se.firstSecNo 8 }
    swapTable := s.swapTable.set i { se with isUsed := true } }
    f.usingThread u { sup with swapAddress := some i }

/-- The three ways an eviction can go. -/
inductive Evict (s : VmState) : VmState → Prop
  | swap {f rest u sup} {i : Nat} {se : SwapEntry} : Victim s f rest u sup →
      sup.fileAddress = none → freeSlot s = some i → s.swapTable[i]? = some se →
      se.firstSecNo + 8 ≤ s.swapDisk.capacity →
      Evict s (evicted (saved s f u sup i se) f rest u)
  | lost {f rest u sup} : Victim s f rest u sup → sup.fileAddress = none → freeSlot s = none →
      Evict s (evicted s f rest u)
  | file {f rest u sup} {file : Nat} : Victim s f rest u sup → sup.fileAddress = some file →
      Evict s (evicted (saveDirty s f u file sup.filePos) f rest u)

section
variable (s : VmState) (f : FrameEntry) (u file pos : Nat)

theorem saveDirty_eq :
    saveDirty s f u file pos = { s with inodes := (saveDirty s f u file pos).inodes } := by
  unfold saveDirty; split <;> rfl

@[simp] theorem saveDirty_poolSize : (saveDirty s f u file pos).poolSize = s.poolSize := by
  rw [saveDirty_eq]

@[simp] theorem saveDirty_usedMap : (saveDirty s f u file pos).usedMap = s.usedMap := by
  rw [saveDirty_eq]

theorem saveDirty_frameTable (l : List FrameEntry) :
    saveDirty { s with frameTable := l } f u file pos =
      { saveDirty s f u file pos with frameTable := l } := by
  unfold saveDirty
  split <;> simp_all [fileWriteAt]

end

theorem dropFrame_some (h : dropFrame s f u = some s') :
    isUserPage u = true ∧ f.kpage < s.poolSize ∧ s.usedMap f.kpage = true ∧
      s' = evicted s f s.frameTable u := by
  simp only [dropFrame, pagedirClearPage, Option.bind_eq_some_iff] at h
  obtain ⟨t, ht, hfree⟩ := h
  split at ht
  · cases ht
    unfold pallocFree at hfree
    split at hfree
    · next hu hused => cases hfree; exact ⟨hu, hused.1, hused.2, rfl⟩
    · cases hfree
  · cases ht

theorem victimPage_some (h : victimPage s f = some (u, sup)) :
    s.exited f.usingThread = false ∧ f.upage = some u ∧
      (s.supPageTable f.usingThread).lookup u = some sup := by
  unfold victimPage at h
  split at h
  · cases h
  · next hex =>
    simp only [Option.bind_eq_some_iff, Option.map_eq_some_iff] at h
    obtain ⟨v, hv, e, he, heq⟩ := h
    cases heq
    exact ⟨by simpa using hex, hv, he⟩

/-- `swap_out` saves the page if there is a slot, and drops the frame in any case. -/
theorem swapOut_cases (h : swapOut s f u sup = some s') :
    isUserPage u = true ∧ f.kpage < s.poolSize ∧ s.usedMap f.kpage = true ∧
      ((freeSlot s = none ∧ s' = evicted s f s.frameTable u) ∨
        ∃ i se, freeSlot s = some i ∧ s.swapTable[i]? = some se ∧
          se.firstSecNo + 8 ≤ s.swapDisk.capacity ∧
          s' = evicted (saved s f u sup i se) f s.frameTable u) := by
  unfold swapOut at h
  split at h
  · next i hi =>
    simp only [copyOut, Option.bind_eq_some_iff, Option.map_eq_some_iff] at h
    obtain ⟨t, ⟨se, hse, d, hd, rfl⟩, hdrop⟩ := h
    obtain ⟨hcap, rfl⟩ := writeSectors_some (by decide) hd
    obtain ⟨hu, hpool, hused, rfl⟩ := dropFrame_some hdrop
    exact ⟨hu, hpool, hused, .inr ⟨i, se, hi, hse, hcap, rfl⟩⟩
  · next hnone =>
    obtain ⟨hu, hpool, hused, rfl⟩ := dropFrame_some h
    exact ⟨hu, hpool, hused, .inl ⟨hnone, rfl⟩⟩

theorem evictFront_cases (h : evictFront s = some s₀) : Evict s s₀ := by
  unfold evictFront at h
  split at h
  · cases h
  · next f rest hfront =>
    rw [Option.bind_eq_some_iff] at h
    obtain ⟨⟨u, sup⟩, hv, h⟩ := h
    obtain ⟨hlive, hup, hsup⟩ := victimPage_some hv
    have mk : isUserPage u = true → f.kpage < s.poolSize → s.usedMap f.kpage = true →
        Victim s f rest u sup := fun h1 h2 h3 => ⟨hfront, hlive, hup, hsup, h1, h2, h3⟩
    cases hfile : sup.fileAddress with
    | none =>
      simp only [hfile] at h
      obtain ⟨h1, h2, h3, ⟨hnone, rfl⟩ | ⟨i, se, hi, hse, hcap, rfl⟩⟩ := swapOut_cases h
      · exact .lost (mk h1 h2 h3) hfile hnone
      · exact .swap (mk h1 h2 h3) hfile hi hse hcap
    | some file =>
      simp only [hfile] at h
      obtain ⟨h1, h2, h3, rfl⟩ := dropFrame_some h
      rw [saveDirty_frameTable] at h2 h3 ⊢
      exact .file (mk h1 (by simpa using h2) (by simpa using h3)) hfile

theorem Evict.lookup_sup (h : Evict s s₀) (p : Tid) (u : Nat) :
    ((s₀.supPageTable p).lookup u).map (fun e => { e with swapAddress := none }) =
      ((s.supPageTable p).lookup u).map (fun e => { e with swapAddress := none }) := by
  cases h with
  | @swap f rest v sup i se hv =>
    simp only [evicted, saved, setSup]
    by_cases hp : p = f.usingThread
    · subst hp
      rw [update_self]
      by_cases hu : u = v
      · subst hu; simp [hv.sup]
      · rw [AList.lookup_insert_ne hu]
    · rw [update_of_ne hp]
  | lost => rfl
  | @file f rest v sup file => simp only [evicted]; rw [saveDirty_eq]

theorem Evict.lookup_some (h : Evict s s₀) (h₀ : (s₀.supPageTable p).lookup u = some sup₀) :
    ∃ sup, (s.supPageTable p).lookup u = some sup ∧ sup₀.kpage = sup.kpage ∧
      sup₀.fileAddress = sup.fileAddress := by
  have hl := h.lookup_sup p u
  rw [h₀] at hl
  cases hs : (s.supPageTable p).lookup u with
  | none => rw [hs] at hl; cases hl
  | some sup => grind

theorem Evict.lookup_ne_none (h : Evict s s₀)
    (hs : (s.supPageTable p).lookup u ≠ none) : (s₀.supPageTable p).lookup u ≠ none := by
  intro h₀
  have hl := h.lookup_sup p u
  rw [h₀] at hl
  cases hs' : (s.supPageTable p).lookup u with
  | none => exact hs hs'
  | some sup => rw [hs'] at hl; cases hl

/-- An entry is kept but for its slot. -/
theorem Evict.lookup_kept (h : Evict s s₀) (hs : (s.supPageTable p).lookup u = some sup) :
    ∃ sup₀, (s₀.supPageTable p).lookup u = some sup₀ ∧ sup₀.kpage = sup.kpage ∧
      sup₀.fileAddress = sup.fileAddress := by
  have hne : (s₀.supPageTable p).lookup u ≠ none := h.lookup_ne_none (by rw [hs]; simp)
  obtain ⟨sup₀, hs₀⟩ := Option.ne_none_iff_exists'.mp hne
  obtain ⟨sup', hs', hkept⟩ := h.lookup_some hs₀
  obtain rfl : sup = sup' := Option.some.inj (hs.symm.trans hs')
  exact ⟨sup₀, hs₀, hkept⟩

theorem Room.lookup_sup (h : Room s s₀) (p : Tid) (u : Nat) :
    ((s₀.supPageTable p).lookup u).map (fun e => { e with swapAddress := none }) =
      ((s.supPageTable p).lookup u).map (fun e => { e with swapAddress := none }) := by
  cases h with
  | free => rfl
  | evict _ hev => exact (evictFront_cases hev).lookup_sup p u

theorem Room.fileAddress (h : Room s s₀) (hs : (s.supPageTable p).lookup u = some sup)
    (h₀ : (s₀.supPageTable p).lookup u = some sup₀) : sup₀.fileAddress = sup.fileAddress := by
  have := h.lookup_sup p u
  rw [hs, h₀] at this
  simp only [Option.map_some, Option.some.injEq, SupPageEntry.mk.injEq] at this
  exact this.2.2.1

/-- What all evictions have in common: only the supplemental tables, the swap and
    the inodes depend on the branch taken. -/
theorem Evict.core (h : Evict s s₀) :
    ∃ f rest u sup, Victim s f rest u sup ∧ s₀ =
      { evicted s f rest u with
        supPageTable := s₀.supPageTable
        swapTable := s₀.swapTable
        swapDisk := s₀.swapDisk
        inodes := s₀.inodes } := by
  cases h with
  | swap hv => exact ⟨_, _, _, _, hv, rfl⟩
  | lost hv => exact ⟨_, _, _, _, hv, rfl⟩
  | file hv => exact ⟨_, _, _, _, hv, by rw [saveDirty_eq]; rfl⟩

/-- What evictions, operations on a page and the removal of pages leave as it is. -/
structure SameRest (s t : VmState) : Prop where
  poolSize : t.poolSize = s.poolSize
  exited : t.exited = s.exited
  loaded : t.loaded = s.loaded
  mappingList : t.mappingList = s.mappingList
  nextFile : t.nextFile = s.nextFile
  files : t.files = s.files
  readBounce : t.readBounce = s.readBounce
  writeBounce : t.writeBounce = s.writeBounce

theorem SameRest.refl (s : VmState) : SameRest s s := ⟨rfl, rfl, rfl, rfl, rfl, rfl, rfl, rfl⟩

theorem SameRest.trans {t : VmState} (h : SameRest s t) (h' : SameRest t s') : SameRest s s' :=
  ⟨h'.poolSize.trans h.poolSize, h'.exited.trans h.exited, h'.loaded.trans h.loaded,
    h'.mappingList.trans h.mappingList, h'.nextFile.trans h.nextFile, h'.files.trans h.files,
    h'.readBounce.trans h.readBounce, h'.writeBounce.trans h.writeBounce⟩

theorem Evict.rest (h : Evict s s₀) : SameRest s s₀ := by
  obtain ⟨f, rest, u, sup, -, heq⟩ := h.core
  rw [heq]
  exact ⟨rfl, rfl, rfl, rfl, rfl, rfl, rfl, rfl⟩

theorem Room.rest (h : Room s s₀) : SameRest s s₀ := by
  cases h with
  | free => exact .refl s
  | evict _ hev => exact (evictFront_cases hev).rest

/-! Evictions that go through. -/

theorem dropFrame_eq (hu : isUserPage u = true) (hpool : f.kpage < s.poolSize)
    (hused : s.usedMap f.kpage = true) : dropFrame s f u = some (evicted s f s.frameTable u) := by
  simp [dropFrame, pagedirClearPage, pallocFree, hu, hpool, hused, evicted]

/-- A slot that `swap_out` would find for the page lies on the disk. -/
def SlotOnDisk (s : VmState) (sup : SupPageEntry) : Prop :=
  sup.fileAddress = none → ∀ i se, freeSlot s = some i → s.swapTable[i]? = some se →
    se.firstSecNo + 8 ≤ s.swapDisk.capacity

/-- A frame can be had: one is free, or the front of the table is a page that can go. -/
def FrameAtHand (s : VmState) : Prop :=
  (∃ k, FirstFree s k) ∨ ∃ f rest u sup, Victim s f rest u sup ∧ SlotOnDisk s sup

section
variable {rest : List FrameEntry}

theorem Victim.page (hv : Victim s f rest u sup) : victimPage s f = some (u, sup) := by
  simp [victimPage, hv.live, hv.upage, hv.sup]

theorem Victim.evictFront_defined (hv : Victim s f rest u sup) (hdisk : SlotOnDisk s sup) :
    ∃ s₀, evictFront s = some s₀ := by
  have hdrop : ∀ t : VmState, t.poolSize = s.poolSize → t.usedMap = s.usedMap →
      ∃ s₀, dropFrame t f u = some s₀ := by
    intro t hpool hused
    exact ⟨_, dropFrame_eq hv.user (hpool ▸ hv.inPool) (hused ▸ hv.used)⟩
  simp only [evictFront, hv.front, hv.page, Option.bind_some]
  cases hfile : sup.fileAddress with
  | some file => exact hdrop _ (saveDirty_poolSize ..) (saveDirty_usedMap ..)
  | none =>
    cases hi : freeSlot s with
    | none =>
      have hi' : freeSlot { s with frameTable := rest } = none := hi
      simp only [swapOut, hi']
      exact hdrop _ rfl rfl
    | some i =>
      have hi' : freeSlot { s with frameTable := rest } = some i := hi
      obtain ⟨hlt, -⟩ := List.findIdx?_eq_some_iff_getElem.mp hi
      have hse : s.swapTable[i]? = some s.swapTable[i] := List.getElem?_eq_getElem hlt
      have hwrite := writeSectors_eq s.swapDisk s.swapTable[i].firstSecNo (s.mem f.kpage) 8
        (hdisk hfile i _ hi hse)
      simp only [swapOut, hi', copyOut, hse, hwrite, Option.bind_some, Option.map_some]
      exact hdrop _ rfl rfl

end

theorem Evict.firstFree (h : Evict s s₀) : ∃ k, FirstFree s₀ k := by
  rcases pallocGet_cases s₀ false with ⟨hfull, -⟩ | ⟨k, hk, -⟩
  · -- the victim's frame is free now
    obtain ⟨f, rest, u, sup, hv, heq⟩ := h.core
    have hfree : s₀.usedMap f.kpage = false := by rw [heq]; simp [evicted]
    exact absurd ((hfull f.kpage (h.rest.poolSize ▸ hv.inPool)).symm.trans hfree) (by decide)
  · exact ⟨k, hk⟩

theorem FrameAtHand.room (h : FrameAtHand s) : ∃ s₀ k, Room s s₀ ∧ FirstFree s₀ k := by
  rcases pallocGet_cases s false with ⟨hfull, -⟩ | ⟨k, hk, -⟩
  · rcases h with ⟨k, hk⟩ | ⟨f, rest, u, sup, hv, hdisk⟩
    · exact absurd ((hfull k hk.1).symm.trans hk.2.1) (by decide)
    · obtain ⟨s₀, hev⟩ := hv.evictFront_defined hdisk
      obtain ⟨k, hk⟩ := (evictFront_cases hev).firstFree
      exact ⟨s₀, k, .evict hfull hev, hk⟩
  · exact ⟨s, k, .free hk, hk⟩

theorem evicted_getPage (s : VmState) (f : FrameEntry) (rest : List FrameEntry) (u : Nat) (q : Tid)
    (v : Nat) : pagedirGetPage ((evicted s f rest u).pagedir q) v =
      if q = f.usingThread ∧ v = u then none else pagedirGetPage (s.pagedir q) v := by
  by_cases hq : q = f.usingThread
  · subst hq; simp [evicted, getPage_clearPresent]
  · simp [evicted, hq]

theorem Evict.getPage_some (h : Evict s s₀) {q : Tid} {v : Nat}
    (h₀ : pagedirGetPage (s₀.pagedir q) v = some k) : pagedirGetPage (s.pagedir q) v = some k := by
  obtain ⟨f, rest, u, sup, -, heq⟩ := h.core
  have hpd : s₀.pagedir = (evicted s f rest u).pagedir := by rw [heq]
  rw [hpd, evicted_getPage] at h₀
  split at h₀
  · cases h₀
  · exact h₀

theorem Evict.getPage_none (h : Evict s s₀) {q : Tid} {v : Nat}
    (hnp : pagedirGetPage (s.pagedir q) v = none) : pagedirGetPage (s₀.pagedir q) v = none := by
  by_contra hsome
  obtain ⟨k, hk⟩ := Option.ne_none_iff_exists'.mp hsome
  rw [h.getPage_some hk] at hnp
  cases hnp

theorem Evict.kept (h : Evict s s₀)
    (hkept : ∀ k < s.poolSize, s.usedMap k = true → ∃ f ∈ s.frameTable, f.kpage = k) :
    ∀ k < s₀.poolSize, s₀.usedMap k = true → ∃ f ∈ s₀.frameTable, f.kpage = k := by
  intro k hk hused
  obtain ⟨f, rest, u, sup, hv, heq⟩ := h.core
  rw [heq] at hk hused ⊢
  have hne : k ≠ f.kpage := by
    intro hkf
    simp [evicted, hkf] at hused
  obtain ⟨g, hg, hgk⟩ := hkept k hk (by simpa [evicted, hne] using hused)
  rw [hv.front, List.mem_cons] at hg
  rcases hg with hg | hg
  · exact absurd (hgk.symm.trans (congrArg FrameEntry.kpage hg)) hne
  · exact ⟨g, hg, hgk⟩

/-! What can be done with a new frame. -/

/-- The page `swap_in` reads from the slot of entry `se`. -/
def slotPage (s : VmState) (k : Nat) (se : SwapEntry) : Buf := fun i =>
  if i < pgsize then Lib.readChunks diskSectorSize s.swapDisk.sector se.firstSecNo i else s.mem k i

def fileInode (s : VmState) (file : Nat) : Inode := s.inodes (s.files file).inode

/-- The page read from a mapped file into a zeroed frame. -/
def filePage (s : VmState) (file pos : Nat) : Buf :=
  inodeReadAt (s.readBounce file) (s.inodes (s.files file).inode) (fun _ => 0) pgsize pos

/-- The outcomes of an operation of `p` that takes the frame `k` in state `s`, and
    the page it makes, if it makes one. -/
inductive PageOp (s : VmState) (p : Tid) (k : Nat) : Option Nat → VmState → Prop
  /-- A page of a segment or of the stack is made. Only `load` can make one where
      there is an entry already. -/
  | newPage (u : Nat) (w : Bool) (buf : Buf) : isUserPage u = true →
      pagedirGetPage (s.pagedir p) u = none →
      ((s.supPageTable p).lookup u = none ∨ s.loaded p = false) →
      PageOp s p k (some u) (supPageEntryCreate (mapFrame (grab s p k buf) p u k w) p u (anonEntry k))
  /-- A page comes back from its slot. -/
  | swapIn (u i : Nat) (w : Bool) (sup : SupPageEntry) (se : SwapEntry) : isUserPage u = true →
      pagedirGetPage (s.pagedir p) u = none → (s.supPageTable p).lookup u = some sup →
      sup.fileAddress = none → sup.swapAddress = some i → s.swapTable[i]? = some se →
      se.firstSecNo + 8 ≤ s.swapDisk.capacity →
      PageOp s p k none (mapFrame
        { grab s p k (slotPage s k se) with
          swapTable := s.swapTable.set i { se with isUsed := false } } p u k w)
  /-- A page of a mapped file is read. -/
  | fileIn (u file : Nat) (w : Bool) (sup : SupPageEntry) : isUserPage u = true →
      pagedirGetPage (s.pagedir p) u = none → (s.supPageTable p).lookup u = some sup →
      sup.fileAddress = some file →
      PageOp s p k none (setSup (mapFrame (grab s p k (filePage s file sup.filePos)) p u k w) p u
        { sup with kpage := some k })
  /-- Loading failed and the frame is given back. -/
  | giveBack (buf : Buf) {s' : VmState} : frameTableFree (grab s p k buf) (some k) = some s' →
      PageOp s p k none s'
  /-- No page table for a new stack page: the frame stays, not installed. -/
  | growFail (u : Nat) (buf : Buf) : isUserPage u = true → (s.supPageTable p).lookup u = none →
      pagedirGetPage (s.pagedir p) u = none →
      PageOp s p k (some u) (setSup (grab s p k buf) p u (anonEntry k))
  /-- No page table for a page of a mapped file: the same. -/
  | fileFail (u file : Nat) (sup : SupPageEntry) : pagedirGetPage (s.pagedir p) u = none →
      (s.supPageTable p).lookup u = some sup → sup.fileAddress = some file →
      PageOp s p k none
        (setSup (grab s p k (filePage s file sup.filePos)) p u { sup with kpage := some k })

/-- An operation that takes a frame: room is made, the lowest free page taken. -/
def Alloc (s : VmState) (p : Tid) (c : Option Nat) (s' : VmState) : Prop :=
  ∃ s₀ k, Room s s₀ ∧ FirstFree s₀ k ∧ PageOp s₀ p k c s'

theorem supPageEntryCreate_eq (s : VmState) (p : Tid) (u : Nat) (e : SupPageEntry) :
    supPageEntryCreate s p u e =
      { s with supPageTable := (supPageEntryCreate s p u e).supPageTable } := by
  unfold supPageEntryCreate; split <;> rfl

theorem pagedirSetPage_cases
    (h : pagedirSetPage s p u k w ptOk = some (s', ok)) :
    isUserPage u = true ∧ pagedirGetPage (s.pagedir p) u = none ∧
      ((ok = true ∧ s' = mapFrame s p u k w) ∨ (ok = false ∧ s' = s)) := by
  unfold pagedirSetPage at h
  split at h
  · next hc =>
    refine ⟨hc.1, hc.2, ?_⟩
    split at h
    · cases h; exact .inl ⟨rfl, rfl⟩
    · cases h; exact .inr ⟨rfl, rfl⟩
  · cases h

theorem fill_grab (s : VmState) (p : Tid) (k : Nat) (buf buf' : Buf) :
    fill (grab s p k buf) k buf' = grab s p k buf' := by
  simp [fill, grab]

theorem installPage_cases {buf : Buf}
    (hload : s.loaded p = false)
    (h : installPage (grab s p k buf) p u k w ptOk = some (s', ok)) :
    PageOp s p k (if ok then some u else none) s' := by
  unfold installPage at h
  split at h
  · rw [Option.map_eq_some_iff] at h
    obtain ⟨t, ht, heq⟩ := h
    cases heq
    exact .giveBack buf ht
  · rw [Option.bind_eq_some_iff] at h
    obtain ⟨⟨s₁, ok₁⟩, hset, h⟩ := h
    obtain ⟨hu, hnp, ⟨rfl, rfl⟩ | ⟨rfl, rfl⟩⟩ := pagedirSetPage_cases hset
    · cases h
      exact .newPage u w buf hu hnp (.inr hload)
    · simp only [Bool.false_eq_true, if_false, Option.map_eq_some_iff] at h
      obtain ⟨t, ht, heq⟩ := h
      cases heq
      exact .giveBack buf ht

theorem loadPage_cases {ino offset readBytes : Nat}
    (hload : s.loaded p = false)
    (h : loadPage s p ino offset readBytes u w ptOk = some (s', ok)) :
    Alloc s p (if ok then some u else none) s' := by
  rw [loadPage, Option.bind_eq_some_iff] at h
  obtain ⟨⟨s₁, k⟩, ha, h⟩ := h
  obtain ⟨s₀, hroom, hfree, rfl⟩ := frameTableAllocator_cases ha
  refine ⟨s₀, k, hroom, hfree, ?_⟩
  simp only [fill_grab] at h
  split at h
  · exact installPage_cases ((congrFun hroom.rest.loaded p).trans hload) h
  · rw [Option.map_eq_some_iff] at h
    obtain ⟨t, ht, heq⟩ := h
    cases heq
    exact .giveBack _ ht

theorem setupStack_cases (hload : s.loaded p = false)
    (h : setupStack s p ptOk = some (s', ok)) :
    Alloc s p (if ok then some (physBase - pgsize) else none) s' := by
  rw [setupStack, Option.bind_eq_some_iff] at h
  obtain ⟨⟨s₁, k⟩, ha, h⟩ := h
  obtain ⟨s₀, hroom, hfree, rfl⟩ := frameTableAllocator_cases ha
  exact ⟨s₀, k, hroom, hfree, installPage_cases ((congrFun hroom.rest.loaded p).trans hload) h⟩

theorem Room.lookup_none (h : Room s s₀)
    (hs : (s.supPageTable p).lookup u = none) : (s₀.supPageTable p).lookup u = none := by
  have := h.lookup_sup p u
  rw [hs] at this
  simpa using this

theorem supPageEntryCreate_of_none {e : SupPageEntry}
    (h : (s.supPageTable p).lookup u = none) : supPageEntryCreate s p u e = setSup s p u e := by
  simp [supPageEntryCreate, h]

theorem growStack_cases (hnone : (s.supPageTable p).lookup u = none)
    (h : growStack s p u write ptOk = some s') : Alloc s p (some u) s' := by
  rw [growStack, Option.bind_eq_some_iff] at h
  obtain ⟨⟨s₁, k⟩, ha, h⟩ := h
  obtain ⟨s₀, hroom, hfree, rfl⟩ := frameTableAllocator_cases ha
  refine ⟨s₀, k, hroom, hfree, ?_⟩
  have h₀ := hroom.lookup_none hnone
  have hgrab : ((grab s₀ p k (gotten s₀ k false)).supPageTable p).lookup u = none := h₀
  simp only [supPageEntryCreate_of_none hgrab, Option.map_eq_some_iff] at h
  obtain ⟨⟨t, ok⟩, hset, rfl⟩ := h
  obtain ⟨hu, hnp, ⟨rfl, rfl⟩ | ⟨rfl, rfl⟩⟩ := pagedirSetPage_cases hset
  · have hop := PageOp.newPage (s := s₀) (p := p) (k := k) u write (gotten s₀ k false) hu hnp
      (.inl h₀)
    rwa [supPageEntryCreate_of_none (s := mapFrame (grab s₀ p k _) p u k write) h₀] at hop
  · exact .growFail u (gotten s₀ k false) hu h₀ hnp

/-- The frame read from a slot, in the form `PageOp` gives it. -/
theorem readSectors_page {page : Buf}
    (h : readSectors s.swapDisk se.firstSecNo (s.mem k) 8 = some page) :
    se.firstSecNo + 8 ≤ s.swapDisk.capacity ∧ page = slotPage s k se := by
  have hcap := readSectors_some (by decide) h
  rw [readSectors_eq _ _ _ _ hcap] at h
  exact ⟨hcap, (Option.some.inj h).symm⟩

theorem swapIn_cases
    (hsup : (s.supPageTable p).lookup u = some sup) (hfile : sup.fileAddress = none)
    (h : swapIn s p u w = some s') : Alloc s p none s' := by
  rw [swapIn, Option.bind_eq_some_iff] at h
  obtain ⟨⟨s₁, k⟩, ha, h⟩ := h
  obtain ⟨s₀, hroom, hfree, rfl⟩ := frameTableAllocator_cases ha
  refine ⟨s₀, k, hroom, hfree, ?_⟩
  simp only [Option.bind_eq_some_iff, Option.map_eq_some_iff] at h
  obtain ⟨sup₀, hsup₀, i, hi, se, hse, page, hpage, ⟨t, ok⟩, hset, rfl⟩ := h
  have hfile₀ := (hroom.fileAddress hsup hsup₀).trans hfile
  obtain ⟨hcap, rfl⟩ := readSectors_page hpage
  obtain ⟨hu, hnp, ⟨rfl, rfl⟩ | ⟨rfl, rfl⟩⟩ := pagedirSetPage_cases hset
  · have hop := PageOp.swapIn (s := s₀) (k := k) u i w sup₀ se hu hnp hsup₀ hfile₀ hi hse hcap
    have hslot : slotPage (grab s₀ p k (gotten s₀ k false)) k se = slotPage s₀ k se := by
      funext j; simp [slotPage, grab, gotten]
    rw [hslot]
    simpa [fill, grab] using hop
  · -- the page table is there, so the call does not fail
    simp [pagedirSetPage] at hset

theorem swapIn_eq {i : Nat} (hroom : Room s s₀) (hfree : FirstFree s₀ k) (hu : isUserPage u = true)
    (hnp : pagedirGetPage (s₀.pagedir p) u = none) (hs : (s₀.supPageTable p).lookup u = some sup)
    (hi : sup.swapAddress = some i) (hse : s₀.swapTable[i]? = some se)
    (hcap : se.firstSecNo + 8 ≤ s₀.swapDisk.capacity) (w : Bool) : swapIn s p u w = some (mapFrame
      { grab s₀ p k (slotPage s₀ k se) with
        swapTable := s₀.swapTable.set i { se with isUsed := false } } p u k w) := by
  have hread : readSectors s₀.swapDisk se.firstSecNo (gotten s₀ k false) 8 =
      some (slotPage s₀ k se) := readSectors_eq _ _ _ _ hcap
  rw [swapIn, frameTableAllocator_eq hroom hfree p false, Option.bind_some]
  simp [grab, hs, hi, hse, hread, fill, pagedirSetPage, hu, hnp, frameEntrySetPte, mapFrame]

theorem fileIn_cases {file : Nat}
    (hsup : (s.supPageTable p).lookup u = some sup) (hfile : sup.fileAddress = some file)
    (h : fileIn s p u file w ptOk = some s') : Alloc s p none s' := by
  rw [fileIn, Option.bind_eq_some_iff] at h
  obtain ⟨⟨s₁, k⟩, ha, h⟩ := h
  obtain ⟨s₀, hroom, hfree, rfl⟩ := frameTableAllocator_cases ha
  refine ⟨s₀, k, hroom, hfree, ?_⟩
  simp only [Option.bind_eq_some_iff, Option.map_eq_some_iff] at h
  obtain ⟨⟨s₂, ok⟩, hset, sup₀, hsup₀, rfl⟩ := h
  obtain ⟨hu, hnp, ⟨rfl, rfl⟩ | ⟨rfl, rfl⟩⟩ := pagedirSetPage_cases hset
  · have hfile₀ := (hroom.fileAddress hsup hsup₀).trans hfile
    have hop := PageOp.fileIn (s := s₀) (k := k) u file w sup₀ hu hnp hsup₀ hfile₀
    simpa [filePage, fill, grab, gotten, setSup, mapFrame] using hop
  · have hfile₀ := (hroom.fileAddress hsup hsup₀).trans hfile
    have hop := PageOp.fileFail (s := s₀) (k := k) u file sup₀ hnp hsup₀ hfile₀
    simpa [filePage, fill, grab, gotten, setSup] using hop

/-! Operations that take no frame. -/

theorem userStore_some (h : userStore s p addr b = some s') :
    ∃ e, (s.pagedir p).lookup (pgRoundDown addr) = some e ∧ e.present = true ∧ e.writable = true ∧
      s' = { s with
        mem := update s.mem e.kpage (update (s.mem e.kpage) (pgOfs addr) b)
        pagedir := update s.pagedir p
          ((s.pagedir p).insert (pgRoundDown addr) { e with dirty := true }) } := by
  unfold userStore at h
  split at h
  · next e he =>
    split at h
    · next hpw =>
      rw [Bool.and_eq_true] at hpw
      cases h
      exact ⟨e, he, hpw.1, hpw.2, rfl⟩
    · cases h
  · cases h

theorem userStore_getPage (h : userStore s p addr b = some s') (q : Tid) (v : Nat) :
    pagedirGetPage (s'.pagedir q) v = pagedirGetPage (s.pagedir q) v := by
  obtain ⟨e, he, -, -, rfl⟩ := userStore_some h
  by_cases hq : q = p
  · grind [getPage_insert, pagedirGetPage]
  · simp [update_of_ne hq]

theorem supPageEntryCreate_lookup (s : VmState) (p : Tid) (u : Nat) (e : SupPageEntry) (q : Tid)
    (v : Nat) : ((supPageEntryCreate s p u e).supPageTable q).lookup v =
      if q = p ∧ v = u ∧ (s.supPageTable p).lookup u = none then some e
      else (s.supPageTable q).lookup v := by
  unfold supPageEntryCreate
  cases hl : (s.supPageTable p).lookup u with
  | some e' => simp
  | none =>
    by_cases hq : q = p
    · subst hq
      by_cases hv : v = u
      · subst hv; simp [setSup]
      · simp [setSup, hv]
    · simp [setSup, hq]

theorem createPages_spec (p : Tid) (addr target : Nat) : ∀ (l : List Nat) (s : VmState),
    let s' := l.foldl (fun t i =>
      supPageEntryCreate t p (mapPage addr i) ⟨none, none, some target, pgsize * i⟩) s
    s' = { s with supPageTable := s'.supPageTable } ∧
    ∀ q v, (s'.supPageTable q).lookup v = (s.supPageTable q).lookup v ∨
      (q = p ∧ (s.supPageTable q).lookup v = none ∧ ∃ i ∈ l, v = mapPage addr i ∧
        (s'.supPageTable q).lookup v = some ⟨none, none, some target, pgsize * i⟩)
  | [], s => ⟨rfl, fun _ _ => .inl rfl⟩
  | i :: l, s => by
    obtain ⟨heq, hl⟩ := createPages_spec p addr target l
      (supPageEntryCreate s p (mapPage addr i) ⟨none, none, some target, pgsize * i⟩)
    refine ⟨?_, fun q v => ?_⟩
    · grind [supPageEntryCreate_eq]
    have hc := supPageEntryCreate_lookup s p (mapPage addr i)
      ⟨none, none, some target, pgsize * i⟩ q v
    simp only [List.foldl_cons]
    split at hc
    · grind
    · grind

theorem handleMmap_spec (s : VmState) (p : Tid) (ino addr : Nat) :
    let s' := (handleMmap s p ino addr).1
    s' = { s with
      supPageTable := s'.supPageTable
      mappingList := s'.mappingList
      files := s'.files
      nextFile := s'.nextFile } ∧
    (∀ q f, f ∈ s.mappingList q → f ∈ s'.mappingList q) ∧
    ∀ q v, (s'.supPageTable q).lookup v = (s.supPageTable q).lookup v ∨
      (q = p ∧ (s.supPageTable q).lookup v = none ∧ s.nextFile ∈ s'.mappingList p ∧
        ∃ i, v = mapPage addr i ∧
          (s'.supPageTable q).lookup v = some ⟨none, none, some s.nextFile, pgsize * i⟩) := by
  unfold handleMmap
  split
  · exact ⟨rfl, fun _ _ => id, fun _ _ => .inl rfl⟩
  · dsimp only
    split
    · exact ⟨rfl, fun _ _ => id, fun _ _ => .inl rfl⟩
    · obtain ⟨heq, hl⟩ := createPages_spec p addr s.nextFile
        (List.range (mapPages (s.inodes ino).length))
        { s with files := update s.files s.nextFile ⟨ino, 0⟩, nextFile := s.nextFile + 1 }
      refine ⟨?_, fun q f hf => ?_, fun q v => ?_⟩
      · rw [heq]
      · grind
      · grind

theorem handleMmap_files (s : VmState) (p : Tid) (ino addr : Nat) :
    let s' := (handleMmap s p ino addr).1
    (∀ f < s.nextFile, s'.files f = s.files f) ∧ s.nextFile ≤ s'.nextFile ∧
      (s'.mappingList = s.mappingList ∨
        (s'.mappingList = update s.mappingList p (s.mappingList p ++ [s.nextFile]) ∧
          s.nextFile < s'.nextFile ∧ (s'.files s.nextFile).inode = ino)) := by
  have hold : ∀ f < s.nextFile, update s.files s.nextFile ⟨ino, 0⟩ f = s.files f :=
    fun f hf => update_of_ne (by omega) _ _
  unfold handleMmap
  split
  · exact ⟨fun _ _ => rfl, Nat.le_refl _, .inl rfl⟩
  · dsimp only
    split
    · exact ⟨hold, Nat.le_succ _, .inl rfl⟩
    · obtain ⟨heq, -⟩ := createPages_spec p addr s.nextFile
        (List.range (mapPages (s.inodes ino).length))
        { s with files := update s.files s.nextFile ⟨ino, 0⟩, nextFile := s.nextFile + 1 }
      rw [heq]
      exact ⟨hold, Nat.le_succ _, .inr ⟨rfl, Nat.lt_succ_self _, by simp⟩⟩

/-! Every step of the machine. -/

/-- The mappings an event removes, in order: the one `munmap` names, or all of a
    process that ends. -/
def Event.removes (s : VmState) : Event → List Nat
  | .munmap p mapping => ((s.mappingList p).find? fun f => (s.files f).mapping = mapping).toList
  | e => if e.ends s then s.mappingList e.tid else []

/-- The events that write to a page or make a page of a file. -/
def Event.soils : Event → Bool
  | .store _ _ _ | .mmap _ _ _ => true
  | _ => false

/-- Pages, frames and files stay as they are: a program is opened or loaded, a byte is read,
    a mapping that there is not is removed, or a bounce buffer can be had or no longer. -/
structure Quiet (s : VmState) (e : Event) (s' : VmState) : Prop where
  soils : e.soils = false
  creates : e.creates s = none
  removes : e.removes s = []
  loaded : s'.loaded = s.loaded ∨ (e = .start e.tid ∧ s'.loaded = update s.loaded e.tid true)
  inode : ∀ i, (s'.inodes i).data = (s.inodes i).data ∧ (s'.inodes i).length = (s.inodes i).length
  rest : s' = { s with
    loaded := s'.loaded
    inodes := s'.inodes
    selfFile := s'.selfFile
    readBounce := s'.readBounce
    writeBounce := s'.writeBounce }

/-- What an event can do, by the kind of operation it is. -/
inductive StepCase (s : VmState) (e : Event) (s' : VmState) : Prop
  | alloc (htake : e.takesFrame s = true) (h : Alloc s e.tid (e.creates s) s')
  | quiet (h : Quiet s e s')
  | store (addr : Nat) (b : Byte) (he : e = .store e.tid addr b)
      (h : userStore s e.tid addr b = some s')
  | mmap (ino addr : Nat) (he : e = .mmap e.tid ino addr)
      (h : s' = (handleMmap s e.tid ino addr).1)
  | unmap (file : Nat) (hfile : file ∈ s.mappingList e.tid) (hsoils : e.soils = false)
      (hrem : e.removes s = [file]) (h : unmapFile s e.tid file = some s')
  | exit (hend : e.ends s = true) (h : processExit s e.tid = some s')

theorem Event.removes_of_not_ends {e : Event} (h : e.ends s = false)
    (he : ∀ p mapping, e ≠ .munmap p mapping) : e.removes s = [] := by
  cases e with
  | munmap p mapping => exact absurd rfl (he p mapping)
  | _ => simp [Event.removes, h]

theorem Quiet.unloaded {e : Event} {q : Tid} (h : Quiet s e s') (hq : s'.loaded q = false) :
    s.loaded q = false := by
  rcases h.loaded with heq | ⟨-, heq⟩
  · rwa [heq] at hq
  · rw [heq] at hq
    by_cases hqe : q = e.tid
    · rw [hqe, update_self] at hq
      cases hq
    · rwa [update_of_ne hqe] at hq

theorem exec_quiet {ino : Nat} (h : Vm.exec s p ino = some s') : Quiet s (.exec p ino) s' := by
  unfold Vm.exec at h
  split at h
  · cases h
    refine ⟨rfl, rfl, rfl, .inl rfl, fun i => ?_, rfl⟩
    by_cases hi : i = ino
    · subst hi; simp
    · simp [hi]
  · cases h

/-- The pages a fault is handled for, and the ones the process is killed for. -/
theorem pageFault_cases {esp : Nat} (h : pageFault s p addr esp write ptOk = some s') :
    (killed s p addr esp = false ∧
      Alloc s p (if isStackGrowth s p addr esp then some (pgRoundDown addr) else none) s') ∨
      (killed s p addr esp = true ∧ processExit s p = some s') := by
  unfold pageFault at h
  split at h
  · next hg =>
    have hnone : (s.supPageTable p).lookup (pgRoundDown addr) = none := by
      grind [isStackGrowth, Option.isNone_iff_eq_none]
    rw [if_pos hg]
    exact .inl ⟨by simp [killed, hg], growStack_cases hnone h⟩
  · next hg =>
    dsimp only at h
    split at h
    · next sup hsup =>
      split at h
      · next hbad => exact .inr ⟨by simp_all [killed, Option.isSome_iff_ne_none], h⟩
      · next hgood =>
        have hkill : killed s p addr esp = false := by simp_all [killed]
        rw [if_neg hg]
        split at h
        · next hfile => exact .inl ⟨hkill, swapIn_cases hsup hfile h⟩
        · next file hfile => exact .inl ⟨hkill, fileIn_cases hsup hfile h⟩
    · next hnone => exact .inr ⟨by simp [killed, hg, hnone], h⟩

theorem step_cases {e : Event} (h : step s e = some s') :
    s.exited e.tid = false ∧ e.inPhase s = true ∧ StepCase s e s' := by
  unfold step at h
  split at h
  · next hen =>
    refine ⟨hen.1, hen.2, ?_⟩
    cases e with
    | exec p ino => exact .quiet (exec_quiet h)
    | loadPage p ino offset readBytes u w ptOk =>
      simp only [Event.apply, Option.map_eq_some_iff] at h
      obtain ⟨⟨t, ok⟩, ht, rfl⟩ := h
      have hcreates : (Event.loadPage p ino offset readBytes u w ptOk).creates s =
          if ok then some u else none := by simp [Event.creates, ht]
      refine .alloc rfl ?_
      rw [hcreates]
      exact loadPage_cases (by simpa [Event.inPhase, Event.tid] using hen.2) ht
    | setupStack p ptOk =>
      simp only [Event.apply, Option.map_eq_some_iff] at h
      obtain ⟨⟨t, ok⟩, ht, rfl⟩ := h
      have hcreates : (Event.setupStack p ptOk).creates s =
          if ok then some (physBase - pgsize) else none := by simp [Event.creates, ht]
      refine .alloc rfl ?_
      rw [hcreates]
      exact setupStack_cases (by simpa [Event.inPhase, Event.tid] using hen.2) ht
    | fault p addr esp write ptOk =>
      simp only [Event.apply] at h
      split at h
      · rcases pageFault_cases h with ⟨hkill, h⟩ | ⟨hkill, h⟩
        · exact .alloc (by simp [Event.takesFrame, hkill]) h
        · exact .exit hkill h
      · cases h
    | start p =>
      cases h
      exact .quiet ⟨rfl, rfl, rfl, .inr ⟨rfl, rfl⟩, fun _ => ⟨rfl, rfl⟩, rfl⟩
    | load p addr =>
      simp only [Event.apply, Option.map_eq_some_iff] at h
      obtain ⟨-, -, rfl⟩ := h
      exact .quiet ⟨rfl, rfl, rfl, .inl rfl, fun _ => ⟨rfl, rfl⟩, rfl⟩
    | store p addr b => exact .store addr b rfl h
    | mmap p ino addr => exact .mmap ino addr rfl (Option.some.inj h).symm
    | munmap p mapping =>
      simp only [Event.apply, handleMunmap] at h
      split at h
      · next file hfind =>
        exact .unmap file (List.mem_of_find?_eq_some hfind) rfl (by simp [Event.removes, hfind]) h
      · next hfind =>
        cases h
        exact .quiet ⟨rfl, rfl, by simp [Event.removes, hfind], .inl rfl, fun _ => ⟨rfl, rfl⟩, rfl⟩
    | exit p => exact .exit rfl h
    | bounce p file read write =>
      cases h
      exact .quiet ⟨rfl, rfl, rfl, .inl rfl, fun _ => ⟨rfl, rfl⟩, rfl⟩
  · cases h

end Pintos.Vm
