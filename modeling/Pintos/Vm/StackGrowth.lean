import Pintos.Vm.Pages
import Pintos.Vm.Swap

/- Pages the stack grows by.

   `page_fault` makes such a page itself: from a frame that is not zeroed, with the
   permission of the access that raised the fault, and without a look at the result of
   `pagedir_set_page`. `setup_stack_arg` and `grow_stack`, which nothing calls, ask for
   a zeroed frame and install it writable. `stackGrowth_iff` says when the two agree: if
   the access was a write, the page table was there or could be had, and the frame
   happened to hold zeros. -/
namespace Pintos.Vm

open Function

variable {s s' s₀ : VmState} {k u addr i : Nat} {p : Tid} {e : Event} {se : SwapEntry}
  {c : Option Nat} {ptOk write : Bool}

/-- An access of the process goes on: it raises no fault; or it raises one that does not
    kill the process and, given that a frame can be had, is handled so that the access
    raises none afterwards. -/
def Proceeds (s : VmState) (p : Tid) (addr : Nat) (write : Bool) : Prop :=
  faults s p addr write = false ∨ ∀ esp, killed s p addr esp = false ∧
    (FrameAtHand s → ∀ ptOk, ∃ s',
      step s (.fault p addr esp write ptOk) = some s' ∧ faults s' p addr write = false)

/-- A page as `setup_stack_arg` makes it: it reads as zero, and from then on, evicted or
    not, every access of the process to it goes on. -/
structure GrownPage (s : VmState) (p : Tid) (u : Nat) : Prop where
  zero : ∀ o < pgsize, userLoad s p (u + o) = some 0
  usable : ∀ t, Lib.Reach step SlotAtSwap s t → t.exited p = false →
    ∀ addr write, pgRoundDown addr = u → Proceeds t p addr write

/-! The page that is made. -/

theorem isStackGrowth_page {esp : Nat} (h : isStackGrowth s p addr esp = true) :
    isUserPage (pgRoundDown addr) = true ∧ (s.supPageTable p).lookup (pgRoundDown addr) = none := by
  simp only [isStackGrowth, Bool.and_eq_true, decide_eq_true_eq, Option.isNone_iff_eq_none] at h
  have hlt : addr < 0xc0000000 := h.1.2
  refine ⟨isUserPage_iff.mpr ?_, h.2⟩
  rw [pgRoundDown, show pgsize = 4096 from rfl]
  omega

/-- The frame taken after an eviction is the victim's, filled with `0xcc`. -/
theorem Evict.mem_free (h : Evict s s₀) (hfull : PoolFull s) (hfree : FirstFree s₀ k) :
    s₀.mem k = fun _ => 0xcc := by
  obtain ⟨f, rest, u, sup, hv, heq⟩ := h.core
  have hk : k = f.kpage := by
    by_contra hne
    have hused : s₀.usedMap k = s.usedMap k := by
      rw [heq]
      show update s.usedMap f.kpage false k = _
      rw [update_of_ne hne]
    have := hfull k (h.rest.poolSize ▸ hfree.1)
    rw [← hused, hfree.2.1] at this
    cases this
  rw [heq, hk]
  show update s.mem f.kpage (fun _ => 0xcc) f.kpage = _
  rw [update_self]

/-- The state after the stack has grown by the page: the frame keeps what it held. -/
def grown (s : VmState) (p : Tid) (u k : Nat) (write : Bool) : VmState :=
  mapFrame (setSup (grab s p k (s.mem k)) p u (anonEntry k)) p u k write

theorem growStack_eq (hfree : FirstFree s k) (hu : isUserPage u = true)
    (hnone : (s.supPageTable p).lookup u = none) (hnp : pagedirGetPage (s.pagedir p) u = none)
    (write : Bool) (hpt : (hasPageTable (s.pagedir p) u || ptOk) = true) :
    growStack s p u write ptOk = some (grown s p u k write) := by
  have hgrab : ((grab s p k (s.mem k)).supPageTable p).lookup u = none := hnone
  have hset := pagedirSetPage_ok (s := setSup (grab s p k (s.mem k)) p u (anonEntry k)) hu hnp k
    write hpt
  rw [growStack, frameTableAllocator_eq (.free hfree) hfree, Option.bind_some]
  show Option.map Prod.fst (pagedirSetPage
    (supPageEntryCreate (grab s p k (s.mem k)) p u (anonEntry k)) p u k write ptOk) = _
  rw [supPageEntryCreate_of_none hgrab, hset]
  rfl

/-- What is left of a growth: the page and the frame it got, if it got one. -/
theorem growStack_some (hnone : (s.supPageTable p).lookup u = none)
    (h : growStack s p u write ptOk = some s') : ∃ s₀ k, Room s s₀ ∧ FirstFree s₀ k ∧
      ((hasPageTable (s₀.pagedir p) u || ptOk) = true ∧ s' = grown s₀ p u k write ∨
        pagedirGetPage (s'.pagedir p) u = none) := by
  rw [growStack, Option.bind_eq_some_iff] at h
  obtain ⟨⟨s₁, k⟩, ha, h⟩ := h
  obtain ⟨s₀, hroom, hfree, rfl⟩ := frameTableAllocator_cases ha
  refine ⟨s₀, k, hroom, hfree, ?_⟩
  have hgrab : ((grab s₀ p k (s₀.mem k)).supPageTable p).lookup u = none := hroom.lookup_none hnone
  change Option.map Prod.fst (pagedirSetPage
    (supPageEntryCreate (grab s₀ p k (s₀.mem k)) p u (anonEntry k)) p u k write ptOk) = some s' at h
  rw [supPageEntryCreate_of_none hgrab, pagedirSetPage] at h
  split at h
  · next hok =>
    split at h
    · next hpt =>
      cases h
      exact .inl ⟨hpt, rfl⟩
    · cases h
      exact .inr hok.2
  · cases h

theorem grown_writableAt (s : VmState) (p : Tid) (u k : Nat) (write : Bool) :
    writableAt ((grown s p u k write).pagedir p) u = some write := by
  rw [grown, mapFrame_writableAt, if_pos ⟨rfl, rfl⟩]

theorem grown_getPage (s : VmState) (p : Tid) (u k : Nat) (write : Bool) :
    pagedirGetPage ((grown s p u k write).pagedir p) u = some k := by
  rw [grown, mapFrame_getPage, if_pos ⟨rfl, rfl⟩]

theorem grown_anonAt (s : VmState) (p : Tid) (u k : Nat) (write : Bool) :
    AnonAt (grown s p u k write) p u := by
  refine ⟨anonEntry k, ?_, rfl⟩
  show ((setSup (grab s p k (s.mem k)) p u (anonEntry k)).supPageTable p).lookup u = _
  rw [setSup_lookup, if_pos ⟨rfl, rfl⟩]

theorem grown_userLoad (hu : isUserPage u = true) {o : Nat} (ho : o < pgsize) :
    userLoad (grown s p u k write) p (u + o) = some (s.mem k o) := by
  obtain ⟨hround, hofs⟩ := page_ofs hu ho
  rw [userLoad, hround, grown_getPage, Option.map_some, hofs]
  show some (update s.mem k (s.mem k) k o) = _
  rw [update_self]

/-! Pages that are out. -/

/-- The page's entry names a slot that is on the disk. -/
def SlotAt (s : VmState) (p : Tid) (u : Nat) : Prop :=
  ∃ sup i se, (s.supPageTable p).lookup u = some sup ∧ sup.swapAddress = some i ∧
    s.swapTable[i]? = some se ∧ se.firstSecNo + 8 ≤ s.swapDisk.capacity

theorem SlotAt.stays (h : SlotAt s p u)
    (hl : (s'.supPageTable p).lookup u = (s.supPageTable p).lookup u)
    (hcap : s'.swapDisk.capacity = s.swapDisk.capacity)
    (hslots : s'.swapTable.map SwapEntry.firstSecNo = s.swapTable.map SwapEntry.firstSecNo) :
    SlotAt s' p u := by
  obtain ⟨sup, i, se, hsup, hi, hse, hon⟩ := h
  obtain ⟨se', hse', hsec⟩ := slot_of_firstSecNo hslots.symm hse
  exact ⟨sup, i, se', hl.trans hsup, hi, hse', by rw [hcap, hsec]; exact hon⟩

theorem slotAt_saved {f : FrameEntry} {rest : List FrameEntry} {sup : SupPageEntry}
    (hse : s.swapTable[i]? = some se) (hcap : se.firstSecNo + 8 ≤ s.swapDisk.capacity) :
    SlotAt (evicted (saved s f u sup i se) f rest u) f.usingThread u := by
  refine ⟨{ sup with swapAddress := some i }, i, { se with isUsed := true }, ?_, rfl, ?_, hcap⟩
  · show ((saved s f u sup i se).supPageTable f.usingThread).lookup u = _
    rw [saved_lookup, if_pos ⟨rfl, rfl⟩]
  · show (saved s f u sup i se).swapTable[i]? = _
    rw [saved_slot f u sup hse, if_pos rfl]

theorem Evict.slotAt (h : Evict s s₀) (hs : SlotAt s p u) : SlotAt s₀ p u := by
  cases h with
  | @swap f rest u' sup i se hv hfile hfree hse hcap =>
    by_cases hpu : p = f.usingThread ∧ u = u'
    · obtain ⟨rfl, rfl⟩ := hpu
      exact slotAt_saved hse hcap
    · refine hs.stays ?_ rfl (firstSecNo_set hse true)
      show ((saved s f u' sup i se).supPageTable p).lookup u = _
      rw [saved_lookup, if_neg hpu]
  | lost => exact hs
  | @file f rest u' sup file hv hfile =>
    rw [saveDirty_eq]
    exact hs

theorem Evict.slotAt_out (h : Evict s s₀)
    (hslot : ∀ f rest u sup, Victim s f rest u sup → sup.fileAddress = none → freeSlot s ≠ none)
    (ha : AnonAt s p u) (hin : pagedirGetPage (s.pagedir p) u = some k)
    (hout : pagedirGetPage (s₀.pagedir p) u = none) : SlotAt s₀ p u := by
  have hvictim : ∀ (t : VmState) (f : FrameEntry) (rest : List FrameEntry) (u' : Nat),
      t.pagedir = s.pagedir → pagedirGetPage ((evicted t f rest u').pagedir p) u = none →
      p = f.usingThread ∧ u = u' := by grind [evicted_getPage]
  cases h with
  | @swap f rest u' sup i se hv hfile hfree hse hcap =>
    obtain ⟨rfl, rfl⟩ := hvictim _ f rest u' rfl hout
    exact slotAt_saved hse hcap
  | lost hv hfile hfree => exact absurd hfree (hslot _ _ _ _ hv hfile)
  | @file f rest u' sup file hv hfile =>
    obtain ⟨rfl, rfl⟩ := hvictim _ f rest u' (by rw [saveDirty_eq]) hout
    obtain ⟨sup', hs', hnone⟩ := ha
    rw [hv.sup] at hs'
    cases hs'
    rw [hfile] at hnone
    cases hnone

/-! Runs. -/

/-- What holds of a page the stack has grown by: it may be written whenever it is
    present, and can be found when it is not. -/
structure GrownInv (s : VmState) (p : Tid) (u : Nat) : Prop where
  loaded : s.loaded p = true
  anon : AnonAt s p u
  perm : writableAt (s.pagedir p) u ≠ some false
  slot : s.exited p = false → pagedirGetPage (s.pagedir p) u = none → SlotAt s p u

/-- Where the page is after a step of a process that has not ended. -/
theorem GrownInv.slot_step (hinv : GrownInv s p u) (hc : SlotAtSwap s e) (h : Vm.step s e = some s')
    (hlive : s.exited p = false) (hlive' : s'.exited p = false)
    (hout : pagedirGetPage (s'.pagedir p) u = none) : SlotAt s' p u := by
  have hsame : ∀ {t : VmState}, SamePage s t p u → pagedirGetPage (t.pagedir p) u = none →
      SlotAt t p u := by
    intro t ht hnp
    exact (hinv.slot hlive (ht.getPage ▸ hnp)).stays ht.lookup (by rw [ht.swapDisk])
      (by rw [ht.swapTable])
  obtain ⟨-, -, hcase⟩ := step_cases h
  cases hcase with
  | alloc htake h =>
    obtain ⟨s₀, k, hroom, -, hop⟩ := h
    have hout₀ : pagedirGetPage (s₀.pagedir p) u = none := hop.getPage_none hout
    cases hroom with
    | free =>
      exact (hinv.slot hlive hout₀).stays (hop.lookup_of_anonAt hinv.anon) (by rw [hop.slots.1])
        hop.slots.2
    | evict hfull hev =>
      have hev := evictFront_cases hev
      have hslot₀ : SlotAt s₀ p u := by
        cases hin : pagedirGetPage (s.pagedir p) u with
        | none => exact hev.slotAt (hinv.slot hlive hin)
        | some k => exact hev.slotAt_out (hc htake hfull) hinv.anon hin hout₀
      exact hslot₀.stays (hop.lookup_of_anonAt (hev.anonAt hinv.anon)) (by rw [hop.slots.1])
        hop.slots.2
  | quiet h => rw [h.rest] at hout ⊢; exact hsame ⟨rfl, rfl, rfl, rfl⟩ hout
  | store addr b _ h =>
    have hget := userStore_getPage h p u
    obtain ⟨pte, -, -, -, rfl⟩ := userStore_some h
    exact hsame ⟨rfl, hget, rfl, rfl⟩ hout
  | mmap ino addr _ h =>
    subst h
    obtain ⟨heq, -, hl⟩ := handleMmap_spec s e.tid ino addr
    have hlookup : ((handleMmap s e.tid ino addr).1.supPageTable p).lookup u =
        (s.supPageTable p).lookup u := by
      obtain hold | ⟨rfl, hnone, -⟩ := hl p u
      · exact hold
      · obtain ⟨sup, hs, -⟩ := hinv.anon
        exact absurd (hs.symm.trans hnone) (by simp)
    exact hsame ⟨hlookup, by rw [handleMmap_pagedir], by rw [heq], by rw [heq]⟩ hout
  | unmap file _ _ _ h => exact hsame (unmapFile_samePage h hinv.anon) hout
  | exit _ hexit =>
    have hp : p ≠ e.tid := by
      rintro rfl
      obtain ⟨t, t', -, -, rfl⟩ := processExit_cases hexit
      simp [gone] at hlive'
    exact hsame (processExit_samePage hexit hinv.anon hp) hout

theorem GrownInv.step (hinv : GrownInv s p u) (hc : SlotAtSwap s e) (h : Vm.step s e = some s') :
    GrownInv s' p u := by
  obtain ⟨-, hphase, -⟩ := step_cases h
  refine ⟨?_, step_anonAt h hinv.anon, fun hw => ?_, fun hlive' => ?_⟩
  · obtain heq | ⟨-, heq⟩ := step_loaded h
    · rw [heq]
      exact hinv.loaded
    · rw [heq]
      by_cases hp : p = e.tid
      · subst hp; simp
      · simpa [hp] using hinv.loaded
  · obtain hw | ⟨rfl, hinst⟩ := step_writableAt h hw
    · exact hinv.perm hw
    · -- only `load` and the growth of the stack install read-only pages
      obtain ⟨sup, hs, -⟩ := hinv.anon
      have hloaded := hinv.loaded
      cases e with
      | loadPage q ino offset readBytes upage w ptOk => grind [Event.inPhase, Event.tid]
      | setupStack q ptOk => exact absurd hinst.2 (by decide)
      | fault q addr esp write ptOk =>
        obtain ⟨-, rfl, hwrite⟩ := hinst
        have hgrow : isStackGrowth s q addr esp = false := by grind [Event.tid, isStackGrowth]
        rw [hgrow] at hwrite
        cases hwrite
      | _ => exact hinst
  · have hlive : s.exited p = false := by
      obtain heq | ⟨-, heq⟩ := step_exited h
      · rw [← heq]
        exact hlive'
      · rw [heq] at hlive'
        by_cases hp : p = e.tid
        · subst hp; simp at hlive'
        · simpa [hp] using hlive'
    exact hinv.slot_step hc h hlive hlive'

theorem faults_of_writableAt (h : writableAt (s.pagedir p) (pgRoundDown addr) = some true)
    (write : Bool) : faults s p addr write = false := by
  obtain ⟨e, he, hpres, hwr⟩ := writableAt_eq_some.mp h
  simp [faults, he, hpres, hwr]

theorem swapIn_usable (hu : isUserPage u = true)
    (hnp : pagedirGetPage (s.pagedir p) u = none) (hslot : SlotAt s p u)
    (hframe : FrameAtHand s) :
    ∃ s', swapIn s p u true = some s' ∧ writableAt (s'.pagedir p) u = some true := by
  obtain ⟨s₀, k, hroom, hfree⟩ := hframe.room
  have hnp₀ : pagedirGetPage (s₀.pagedir p) u = none := by
    by_contra hsome
    obtain ⟨k', hk'⟩ := Option.ne_none_iff_exists'.mp hsome
    cases hroom with
    | free => rw [hnp] at hk'; cases hk'
    | evict _ hev => rw [(evictFront_cases hev).getPage_some hk'] at hnp; cases hnp
  have hslot₀ : SlotAt s₀ p u := by
    cases hroom with
    | free => exact hslot
    | evict _ hev => exact (evictFront_cases hev).slotAt hslot
  obtain ⟨sup, i, se, hs, hi, hse, hcap⟩ := hslot₀
  refine ⟨_, swapIn_eq hroom hfree hu hnp₀ hs hi hse hcap true, ?_⟩
  rw [mapFrame_writableAt, if_pos ⟨rfl, rfl⟩]

theorem GrownInv.proceeds (hinv : GrownInv s p (pgRoundDown addr))
    (hu : isUserPage (pgRoundDown addr) = true) (hlive : s.exited p = false) (write : Bool) :
    Proceeds s p addr write := by
  obtain ⟨sup, hs, hfile⟩ := hinv.anon
  cases hget : pagedirGetPage (s.pagedir p) (pgRoundDown addr) with
  | some k =>
    left
    apply faults_of_writableAt
    obtain ⟨e, he, hpres, -⟩ := getPage_eq_some.mp hget
    refine writableAt_eq_some.mpr ⟨e, he, hpres, ?_⟩
    by_contra hw
    exact hinv.perm (writableAt_eq_some.mpr ⟨e, he, hpres, by simpa using hw⟩)
  | none =>
    right
    intro esp
    have hgrow : isStackGrowth s p addr esp = false := by simp [isStackGrowth, hs]
    have hlt : ¬ physBase ≤ pgRoundDown addr := by
      have := (isUserPage_iff.mp hu).2
      exact Nat.not_le.mpr this
    refine ⟨by simp [killed, hgrow, hs, hget, hlt], fun hframe ptOk => ?_⟩
    obtain ⟨s', hs', hw⟩ := swapIn_usable hu hget (hinv.slot hlive hget) hframe
    refine ⟨s', ?_, faults_of_writableAt hw write⟩
    simp [Vm.step, Event.tid, Event.inPhase, Event.apply, hlive, faults_of_getPage hget, pageFault,
      hgrow, hs, hget, hlt, hfile, hs']

/-! The result. -/

/-- **When a page the stack grows by is as it should be.** For every state of every run
    and every fault that `page_fault` takes for stack growth: the fault is handled and
    leaves a page that reads as zero and can be used from then on, if and only if the
    access was a write, the page table exists or can be had, and the free frame that is
    handed out, without an eviction, holds nothing but zeros. -/
theorem stackGrowth_iff {poolSize : Nat} {mem : Nat → Buf} {inodes : Nat → Inode} {swapDisk : Disk}
    {s : VmState} {p : Tid} {addr esp : Nat}
    (hreach : Lib.Reach step Lib.anyStep (boot poolSize mem inodes swapDisk) s)
    (hlive : s.exited p = false) (hload : s.loaded p = true)
    (hgrow : isStackGrowth s p addr esp = true) (write ptOk : Bool) :
    (∃ s', step s (.fault p addr esp write ptOk) = some s' ∧ GrownPage s' p (pgRoundDown addr)) ↔
      write = true ∧ (hasPageTable (s.pagedir p) (pgRoundDown addr) || ptOk) = true ∧
        ∃ k, FirstFree s k ∧ ∀ o < pgsize, s.mem k o = 0 := by
  have hsups : SupInv s :=
    hreach.inv (.boot poolSize mem inodes swapDisk) fun _ _ _ hI _ h => hI.step h
  obtain ⟨hu, hnone⟩ := isStackGrowth_page hgrow
  have hnp : pagedirGetPage (s.pagedir p) (pgRoundDown addr) = none := by
    by_contra hsome
    obtain ⟨k, hk⟩ := Option.ne_none_iff_exists'.mp hsome
    obtain ⟨sup, hs, -⟩ := hsups.resident p _ k hk
    rw [hnone] at hs
    cases hs
  have hstep : step s (.fault p addr esp write ptOk) =
      growStack s p (pgRoundDown addr) write ptOk := by
    simp [step, Event.tid, Event.inPhase, Event.apply, hlive, faults_of_getPage hnp, pageFault,
      hgrow]
  rw [hstep]
  constructor
  · rintro ⟨s', hs', hzero, husable⟩
    have hbyte := hzero 0 (by decide)
    obtain ⟨s₀, k, hroom, hfree, ⟨hpt, rfl⟩ | habsent⟩ := growStack_some hnone hs'
    · have hmem : ∀ o < pgsize, s₀.mem k o = 0 := by
        intro o ho
        have := hzero o ho
        rw [grown_userLoad hu ho] at this
        exact Option.some.inj this
      cases hroom with
      | free =>
        refine ⟨?_, hpt, k, hfree, hmem⟩
        -- a write to the page right after it was made
        obtain hok | hkill := husable _ .refl (by exact hlive) addr true rfl
        · obtain ⟨e, he, hpres, hw⟩ := writableAt_eq_some.mp
            (grown_writableAt s p (pgRoundDown addr) k write)
          rw [faults, he] at hok
          simpa [hpres, hw] using hok
        · obtain ⟨sup, hsup, -⟩ := grown_anonAt s p (pgRoundDown addr) k write
          have := (hkill esp).1
          simp [killed, isStackGrowth, hsup, grown_getPage] at this
      | evict hfull hev =>
        have := hmem 0 (by decide)
        rw [(evictFront_cases hev).mem_free hfull hfree] at this
        cases this
    · rw [userLoad, (page_ofs hu (by decide : 0 < pgsize)).1, habsent] at hbyte
      cases hbyte
  · rintro ⟨rfl, hpt, k, hfree, hmem⟩
    refine ⟨_, growStack_eq hfree hu hnone hnp true hpt, ?_, ?_⟩
    · intro o ho
      rw [grown_userLoad hu ho, hmem o ho]
    · intro t ht hlive' a write ha
      have hgrown : GrownInv (grown s p (pgRoundDown addr) k true) p (pgRoundDown addr) := by
        refine ⟨hload, grown_anonAt .., ?_, fun _ hout => ?_⟩
        · rw [grown_writableAt]
          simp
        · rw [grown_getPage] at hout
          cases hout
      have hinv : GrownInv t p (pgRoundDown addr) :=
        ht.inv (I := fun t => GrownInv t p (pgRoundDown addr)) hgrown
          fun _ _ _ hI hc h => hI.step hc h
      rw [← ha] at hinv hu
      exact hinv.proceeds hu hlive' write

/-- A machine with memory that is zero at boot, two swap slots and no files. -/
def growMachine (poolSize : Nat) : VmState :=
  boot poolSize (fun _ _ => 0) (fun _ => ⟨0, fun _ => 0, 0⟩) ⟨16, fun _ _ => 0⟩

/-- A write fault below the stack, with a frame at hand that was never used. -/
theorem stackGrowth_iff_write : ∃ s s', Lib.Reach step Lib.anyStep (growMachine 2) s ∧
    isStackGrowth s 1 (physBase - 4100) (physBase - 4100) = true ∧
    step s (.fault 1 (physBase - 4100) (physBase - 4100) true true) = some s' ∧
    GrownPage s' 1 (pgRoundDown (physBase - 4100)) := by
  obtain ⟨s, hs, hq⟩ := Lib.exists_reach (C := Lib.anyStep) (c := fun _ _ => true) step
    (growMachine 2) [.setupStack 1 true, .start 1]
    (fun s => !s.exited 1 && s.loaded 1 && isStackGrowth s 1 (physBase - 4100) (physBase - 4100) &&
      decide (s.poolSize = 2) && s.usedMap 0 && !s.usedMap 1 &&
      (List.range pgsize).all fun o => s.mem 1 o == 0)
    (fun _ _ _ => trivial) (by decide) (by decide +kernel)
  simp only [Bool.and_eq_true, Bool.not_eq_true', decide_eq_true_eq, List.all_eq_true,
    List.mem_range, beq_iff_eq] at hq
  obtain ⟨⟨⟨⟨⟨⟨hlive, hload⟩, hgrow⟩, hpool⟩, hzero⟩, hone⟩, hmem⟩ := hq
  have hfree : FirstFree s 1 := by
    refine ⟨by omega, hone, fun j hj => ?_⟩
    obtain rfl : j = 0 := by omega
    exact hzero
  obtain ⟨s', hs', hgrown⟩ := (stackGrowth_iff hs hlive hload hgrow true true).mpr
    ⟨rfl, Bool.or_true _, 1, hfree, hmem⟩
  exact ⟨s, s', hs, hgrow, hs', hgrown⟩

/-- A read fault below the stack makes a page that the process may not write: its next
    store to the page kills it. -/
theorem stackGrowth_read : ∃ s s', Lib.Reach step Lib.anyStep (growMachine 2) s ∧
    isStackGrowth s 1 (physBase - 4100) (physBase - 4100) = true ∧
    step s (.fault 1 (physBase - 4100) (physBase - 4100) false true) = some s' ∧
    faults s' 1 (physBase - 4100) true = true ∧
    killed s' 1 (physBase - 4100) (physBase - 4100) = true ∧
    ¬ GrownPage s' 1 (pgRoundDown (physBase - 4100)) := by
  obtain ⟨s, hs, hq⟩ := Lib.exists_reach (C := Lib.anyStep) (c := fun _ _ => true) step
    (growMachine 2) [.setupStack 1 true, .start 1]
    (fun s => isStackGrowth s 1 (physBase - 4100) (physBase - 4100) &&
      (step s (.fault 1 (physBase - 4100) (physBase - 4100) false true)).any fun s' =>
        !s'.exited 1 && faults s' 1 (physBase - 4100) true &&
          killed s' 1 (physBase - 4100) (physBase - 4100))
    (fun _ _ _ => trivial) (by decide) (by decide)
  simp only [Bool.and_eq_true, Option.any_eq_true, Bool.not_eq_true'] at hq
  obtain ⟨hgrow, s', hs', ⟨hlive, hfault⟩, hkill⟩ := hq
  refine ⟨s, s', hs, hgrow, hs', hfault, hkill, fun hgrown => ?_⟩
  obtain hno | hno := hgrown.usable s' .refl hlive (physBase - 4100) true rfl
  · rw [hfault] at hno
    cases hno
  · rw [(hno (physBase - 4100)).1] at hkill
    cases hkill

end Pintos.Vm
