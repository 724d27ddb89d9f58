import Pintos.Vm.FrameTable

/- Swap slots and the pages that are in them.

   `swap_in` gives a slot back but leaves the page's `swap_address` pointing at
   it, so an entry that names a slot says nothing while its page is resident.
   `SlotInv` is about the others: an anonymous page that is out names a slot that
   is in use, and no two name the same one. It is kept as long as every
   `swap_out` finds a free slot; with none left `swap_out` drops the page. -/
namespace Pintos.Vm

variable {s s' t : VmState} {u k i : Nat} {p : Tid}

/-- An anonymous page of a live process that is not resident, and the slot its
    entry names. -/
def OutAt (s : VmState) (p : Tid) (u i : Nat) : Prop :=
  s.exited p = false ∧ pagedirGetPage (s.pagedir p) u = none ∧
    ∃ sup, (s.supPageTable p).lookup u = some sup ∧ sup.fileAddress = none ∧
      sup.swapAddress = some i

def SlotUsed (s : VmState) (i : Nat) : Prop :=
  ∃ se, s.swapTable[i]? = some se ∧ se.isUsed = true

structure SlotInv (s : VmState) : Prop where
  used : ∀ p u i, OutAt s p u i → SlotUsed s i
  apart : ∀ p u q v i, OutAt s p u i → OutAt s q v i → p = q ∧ u = v

theorem SlotInv.mono (hinv : SlotInv s) (hout : ∀ p u i, OutAt t p u i → OutAt s p u i)
    (hswap : t.swapTable = s.swapTable) : SlotInv t := by
  refine ⟨fun p u i h => ?_, fun p u q v i h h' => hinv.apart p u q v i (hout _ _ _ h) (hout _ _ _ h')⟩
  rw [SlotUsed, hswap]
  exact hinv.used p u i (hout p u i h)

/-! Swapping out. -/

theorem freeSlot_some (h : freeSlot s = some i) : ¬ SlotUsed s i := by
  rintro ⟨se, hse, hused⟩
  obtain ⟨hlt, hfree, -⟩ := List.findIdx?_eq_some_iff_getElem.mp h
  rw [List.getElem?_eq_getElem hlt] at hse
  cases hse
  rw [hused] at hfree
  cases hfree

section
variable {s : VmState} {f : FrameEntry} {rest : List FrameEntry} {u i : Nat} {sup : SupPageEntry}
  {se : SwapEntry}

variable (f u sup) in
theorem saved_slot (hi : s.swapTable[i]? = some se) (j : Nat) :
    (saved s f u sup i se).swapTable[j]? =
      if j = i then some { se with isUsed := true } else s.swapTable[j]? := by
  have hlt : i < s.swapTable.length := (List.getElem?_eq_some_iff.mp hi).1
  by_cases hj : j = i
  · subst hj; simp [saved, setSup, hlt]
  · simp [saved, setSup, hj, List.getElem?_set_ne (Ne.symm hj)]

variable (f u sup i se) in
theorem saved_lookup (q : Tid) (v : Nat) : ((saved s f u sup i se).supPageTable q).lookup v =
    if q = f.usingThread ∧ v = u then some { sup with swapAddress := some i }
    else (s.supPageTable q).lookup v := setSup_lookup _ _ _ _ q v

/-- After a swap out the victim is out at its slot, and the others are where they
    were. -/
theorem outAt_saved {q : Tid} {v j : Nat} (h : OutAt (evicted (saved s f u sup i se) f rest u) q v j) :
    (q = f.usingThread ∧ v = u ∧ j = i) ∨ (¬(q = f.usingThread ∧ v = u) ∧ OutAt s q v j) := by
  obtain ⟨hlive, hget, sup', hl, hanon, hj⟩ := h
  have hl' : ((saved s f u sup i se).supPageTable q).lookup v = some sup' := hl
  rw [saved_lookup] at hl'
  by_cases hqv : q = f.usingThread ∧ v = u
  · grind
  · rw [evicted_getPage, if_neg hqv] at hget
    rw [if_neg hqv] at hl'
    exact .inr ⟨hqv, hlive, hget, sup', hl', hanon, hj⟩

theorem SlotInv.saved (hinv : SlotInv s) (hfree : ¬ SlotUsed s i) (hi : s.swapTable[i]? = some se) :
    SlotInv (evicted (saved s f u sup i se) f rest u) := by
  have hkeep : ∀ j, SlotUsed s j → SlotUsed (evicted (Vm.saved s f u sup i se) f rest u) j := by
    rintro j ⟨se', hse', hused⟩
    have hne : j ≠ i := by rintro rfl; exact hfree ⟨se', hse', hused⟩
    exact ⟨se', (saved_slot f u sup hi j).trans (by rw [if_neg hne, hse']), hused⟩
  refine ⟨fun p v j h => ?_, fun p v q w j h h' => ?_⟩
  · rcases outAt_saved h with ⟨-, -, rfl⟩ | ⟨-, hold⟩
    · exact ⟨_, (saved_slot f u sup hi j).trans (if_pos rfl), rfl⟩
    · exact hkeep j (hinv.used p v j hold)
  · -- a page that was out before does not name the slot that was free
    rcases outAt_saved h with ⟨rfl, rfl, rfl⟩ | ⟨-, hold⟩ <;>
      rcases outAt_saved h' with ⟨rfl, rfl, hj⟩ | ⟨-, hold'⟩
    · exact ⟨rfl, rfl⟩
    · exact absurd (hinv.used _ _ _ hold') hfree
    · exact absurd (hinv.used _ _ _ hold) (hj ▸ hfree)
    · exact hinv.apart p v q w j hold hold'

end

theorem SlotInv.evict {s₀ : VmState} (hinv : SlotInv s) (h : Evict s s₀)
    (hslot : ∀ f rest u sup, Victim s f rest u sup → sup.fileAddress = none → freeSlot s ≠ none) :
    SlotInv s₀ := by
  cases h with
  | swap hv _ hi hse => exact hinv.saved (freeSlot_some hi) hse
  | lost hv hanon hnone => exact absurd hnone (hslot _ _ _ _ hv hanon)
  | @file f rest u sup file hv hfile =>
    refine hinv.mono (fun q v j => ?_) (by simp only [evicted]; rw [saveDirty_eq])
    rintro ⟨hlive, hget, sup', hl, hanon, hj⟩
    rw [evicted_getPage] at hget
    simp only [evicted] at hlive hl
    rw [saveDirty_eq] at hlive hl hget
    split at hget
    · next hqv =>
      -- the victim's page is a page of a mapped file
      obtain ⟨rfl, rfl⟩ := hqv
      rw [show (s.supPageTable f.usingThread).lookup v = some sup from hv.sup] at hl
      cases hl
      rw [hfile] at hanon
      cases hanon
    · exact ⟨hlive, hget, sup', hl, hanon, hj⟩

/-! Taking a frame. -/

theorem not_outAt_of_present (h : pagedirGetPage (s.pagedir p) u = some k) (i : Nat) :
    ¬ OutAt s p u i := by
  rintro ⟨-, hget, -⟩
  rw [h] at hget
  cases hget

theorem not_outAt_of_entry {e : SupPageEntry}
    (hl : (s.supPageTable p).lookup u = some e)
    (he : e.fileAddress ≠ none ∨ e.swapAddress = none) (i : Nat) : ¬ OutAt s p u i := by
  rintro ⟨-, -, sup, hs, hanon, hi⟩
  obtain rfl : e = sup := Option.some.inj (hl.symm.trans hs)
  rcases he with he | he
  · exact he hanon
  · rw [he] at hi; cases hi

theorem PageOp.outAt {c : Option Nat} {q : Tid} {v j : Nat} (hop : PageOp s p k c s')
    (h : OutAt s' q v j) : OutAt s q v j := by
  obtain ⟨hlive, hget, sup, hs, hanon, hj⟩ := h
  refine ⟨hop.rest.1.exited ▸ hlive, hop.getPage_none hget, sup, ?_, hanon, hj⟩
  obtain hl | ⟨rfl, e, hl, -, ⟨-, -, rfl⟩ | ⟨e', -, hf, rfl⟩⟩ := hop.lookup q v
  · exact hl ▸ hs
  · cases hs.symm.trans hl; cases hj
  · cases hs.symm.trans hl; exact absurd hanon hf

theorem firstSecNo_set {l : List SwapEntry} {se : SwapEntry} (hse : l[i]? = some se) (used : Bool) :
    (l.set i { se with isUsed := used }).map SwapEntry.firstSecNo = l.map SwapEntry.firstSecNo := by
  obtain ⟨hi, rfl⟩ := List.getElem?_eq_some_iff.mp hse
  have hlt : i < (l.map SwapEntry.firstSecNo).length := by rwa [List.length_map]
  have hget : (l.map SwapEntry.firstSecNo)[i] = l[i].firstSecNo := List.getElem_map ..
  rw [List.map_set, ← hget, List.set_getElem_self]

/-- The slots are on the sectors they were. -/
theorem PageOp.slots {c : Option Nat} (hop : PageOp s p k c s') : s'.swapDisk = s.swapDisk ∧
    s'.swapTable.map SwapEntry.firstSecNo = s.swapTable.map SwapEntry.firstSecNo := by
  cases hop with
  | newPage => rw [supPageEntryCreate_eq]; exact ⟨rfl, rfl⟩
  | swapIn u i w sup se _ _ _ _ _ hse => exact ⟨rfl, firstSecNo_set hse false⟩
  | giveBack buf hback =>
    obtain ⟨rfl, -⟩ | ⟨k', -, -, -, -, rfl⟩ := frameTableFree_cases hback <;> exact ⟨rfl, rfl⟩
  | _ => exact ⟨rfl, rfl⟩

theorem slot_of_firstSecNo {l l' : List SwapEntry} {se : SwapEntry}
    (h : l'.map SwapEntry.firstSecNo = l.map SwapEntry.firstSecNo) (hse : l'[i]? = some se) :
    ∃ se₀, l[i]? = some se₀ ∧ se₀.firstSecNo = se.firstSecNo := by
  have hi : (l.map SwapEntry.firstSecNo)[i]? = some se.firstSecNo := by rw [← h]; simp [hse]
  rwa [List.getElem?_map, Option.map_eq_some_iff] at hi

theorem SlotInv.pageOp {c : Option Nat} (hinv : SlotInv s) (hlive : s.exited p = false)
    (hop : PageOp s p k c s') : SlotInv s' := by
  have hback := fun q v j => hop.outAt (q := q) (v := v) (j := j)
  cases hop with
  | newPage => exact hinv.mono hback (by rw [supPageEntryCreate_eq]; rfl)
  | swapIn u i w sup se _ hnp hs hanon hi =>
    refine ⟨fun q v j h => ?_, fun q v q' v' j h h' =>
      hinv.apart q v q' v' j (hback q v j h) (hback q' v' j h')⟩
    -- the slot is given back, and no page that stays out names it
    have hne : j ≠ i := by
      rintro rfl
      obtain ⟨rfl, rfl⟩ := hinv.apart q v p u j (hback q v j h) ⟨hlive, hnp, sup, hs, hanon, hi⟩
      exact not_outAt_of_present ((mapFrame_getPage ..).trans (if_pos ⟨rfl, rfl⟩)) j h
    obtain ⟨se', hse', hused⟩ := hinv.used q v j (hback q v j h)
    exact ⟨se', (List.getElem?_set_ne (Ne.symm hne)).trans hse', hused⟩
  | giveBack buf hfree =>
    obtain ⟨rfl, -⟩ | ⟨k', -, -, -, -, rfl⟩ := frameTableFree_cases hfree <;>
      exact hinv.mono hback rfl
  | _ => exact hinv.mono hback rfl

/-! The other steps. -/

theorem SlotInv.remove {sup : SupPageEntry} (hinv : SlotInv s)
    (h : Remove s p u sup s') : SlotInv s' := by
  refine hinv.mono (fun q v j => ?_) (by cases h <;> rfl)
  rintro ⟨hlive, hget, sup', hs, hanon, hj⟩
  rw [h.lookup] at hs
  split at hs
  · cases hs
  · next hqv =>
    rw [h.getPage, if_neg hqv] at hget
    exact ⟨h.rest.1.exited ▸ hlive, hget, sup', hs, hanon, hj⟩

theorem SlotInv.unmap {file : Nat} (hinv : SlotInv s)
    (h : unmapFile s p file = some s') : SlotInv s' := by
  obtain ⟨t, ht, -, rfl⟩ := unmapFile_inv h hinv (fun t _ ht => ht.mono (fun _ _ _ => id) rfl)
    (fun _ _ _ _ ht _ _ hR => ht.remove hR)
  exact ht.mono (fun _ _ _ => id) rfl

/-- The pages of a process that has exited are out of reach, wherever they are. -/
theorem SlotInv.exit (hinv : SlotInv s)
    (h : processExit s p = some s') : SlotInv s' := by
  obtain ⟨t, used, mem, nodes, ht, rfl⟩ := processExit_inv h hinv fun ht hu => ht.unmap hu
  refine ht.mono (fun q v j => ?_) rfl
  rintro ⟨hlive, hget, sup, hs, hanon, hj⟩
  have hq : q ≠ p := by rintro rfl; simp at hlive
  exact ⟨by simpa [hq] using hlive, by simpa [hq] using hget, sup, hs, hanon, hj⟩

/-- Every `swap_out` finds a free slot. -/
def SlotAtSwap (s : VmState) (e : Event) : Prop :=
  e.takesFrame s = true → PoolFull s → ∀ f rest u sup, Victim s f rest u sup →
    sup.fileAddress = none → freeSlot s ≠ none

theorem SlotInv.step {e : Event} (hinv : SlotInv s) (hc : SlotAtSwap s e)
    (h : Vm.step s e = some s') : SlotInv s' := by
  obtain ⟨hlive, hphase, hcase⟩ := step_cases h
  cases hcase with
  | alloc htake h =>
    obtain ⟨s₀, k, hroom, hfree, hop⟩ := h
    have hlive₀ : s₀.exited e.tid = false := (congrFun hroom.rest.exited e.tid).trans hlive
    cases hroom with
    | free => exact hinv.pageOp hlive hop
    | evict hfull hev =>
      exact (hinv.evict (evictFront_cases hev) (hc htake hfull)).pageOp hlive₀ hop
  | quiet h => rw [h.rest]; exact hinv.mono (fun _ _ _ => id) rfl
  | store addr b _ h =>
    have hget := userStore_getPage h
    obtain ⟨pte, -, -, -, rfl⟩ := userStore_some h
    refine hinv.mono (fun q v j hout => ?_) rfl
    exact ⟨hout.1, (hget q v).symm.trans hout.2.1, hout.2.2⟩
  | mmap ino addr _ h =>
    obtain ⟨heq, -, hl⟩ := handleMmap_spec s e.tid ino addr
    subst h
    refine hinv.mono (fun q v j => ?_) (by rw [heq])
    rintro ⟨hlive, hget, sup, hs, hanon, hj⟩
    rcases hl q v with hold | ⟨-, -, -, i, -, hnew⟩
    · rw [heq] at hlive hget
      exact ⟨hlive, hget, sup, hold ▸ hs, hanon, hj⟩
    · -- the new pages are pages of the file
      rw [hnew] at hs
      cases hs
      cases hanon
  | unmap file _ _ _ h => exact hinv.unmap h
  | exit _ h => exact hinv.exit h

theorem SlotInv.boot (poolSize : Nat) (mem : Nat → Buf) (inodes : Nat → Inode) (swapDisk : Disk) :
    SlotInv (boot poolSize mem inodes swapDisk) := by
  constructor <;> simp [OutAt, Vm.boot]

/-! What `swap_out` leaves behind. -/

/-- `swap_out (f)` for an entry that is no longer in the table: the owner and the
    entry of its page are looked up, then the page goes. -/
def swapOutOf (s : VmState) (f : FrameEntry) : Option VmState :=
  (victimPage s f).bind fun (u, sup) =>
    swapOut { s with frameTable := s.frameTable.erase f } f u sup

/-- The page is where it was, or its entry names a slot of its own that holds the bytes
    its owner had in it before. -/
def Recoverable (s s' : VmState) (p : Tid) (u : Nat) : Prop :=
  (∃ k, pagedirGetPage (s.pagedir p) u = some k ∧ s'.usedMap k = true ∧
      pagedirGetPage (s'.pagedir p) u = some k) ∨
    ∃ sup i se, (s'.supPageTable p).lookup u = some sup ∧ sup.swapAddress = some i ∧
      s'.swapTable[i]? = some se ∧ se.isUsed = true ∧
      (∀ o < pgsize, userLoad s p (u + o) =
        some (Lib.readChunks diskSectorSize s'.swapDisk.sector se.firstSecNo o)) ∧
      ∀ q v, ¬(q = p ∧ v = u) → ¬ OutAt s' q v i

/-- The owner's page directory maps the entry's page to its frame. -/
def Current (s : VmState) (f : FrameEntry) : Prop :=
  ∀ u, f.upage = some u → pagedirGetPage (s.pagedir f.usingThread) u = some f.kpage

/-- **A page that is swapped out can be brought back, as long as there has always
    been a free slot.** For any current entry of the table `swap_out` is called for, in
    any state reached by evictions that all found a slot. -/
theorem swapOut_recoverable {poolSize : Nat} {mem : Nat → Buf} {inodes : Nat → Inode}
    {swapDisk : Disk} {s s' : VmState} {f : FrameEntry}
    (h : Lib.Reach step SlotAtSwap (boot poolSize mem inodes swapDisk) s)
    (hslot : freeSlot s ≠ none) (hcur : Current s f) (hout : swapOutOf s f = some s') :
    ∃ u, f.upage = some u ∧ Recoverable s s' f.usingThread u := by
  have hinv : SlotInv s := h.inv (SlotInv.boot ..) fun _ _ _ hi hc hs => hi.step hc hs
  rw [swapOutOf, Option.bind_eq_some_iff] at hout
  obtain ⟨⟨u, sup⟩, hv, hout⟩ := hout
  have hup : f.upage = some u := (victimPage_some hv).2.1
  refine ⟨u, hup, ?_⟩
  obtain ⟨huser, -, -, ⟨hnone, -⟩ | ⟨i, se, hi, hse, -, rfl⟩⟩ := swapOut_cases hout
  · exact absurd hnone hslot
  · refine .inr ⟨{ sup with swapAddress := some i }, i, { se with isUsed := true }, ?_, rfl,
      (saved_slot f u sup hse i).trans (if_pos rfl), rfl, fun o ho => ?_, fun q v hqv hq => ?_⟩
    · exact (setSup_lookup _ _ _ _ _ _).trans (if_pos ⟨rfl, rfl⟩)
    · obtain ⟨hround, hofs⟩ := page_ofs huser ho
      rw [userLoad, hround, hcur u hup, Option.map_some, hofs]
      exact congrArg some (Lib.readChunks_writeChunks diskSectorSize _ _ _ ho).symm
    · rcases outAt_saved hq with ⟨hq', hv', -⟩ | ⟨-, hold⟩
      · exact hqv ⟨hq', hv'⟩
      · exact freeSlot_some hi (hinv.used q v i hold)

/-- There is a free slot, or the front of the table needs none. -/
def slotAtSwap (s : VmState) (_ : Event) : Bool :=
  (freeSlot s).isSome || match s.frameTable with
    | f :: _ => match victimPage s f with
      | some (_, sup) => sup.fileAddress.isSome
      | none => true
    | [] => true

theorem slotAtSwap_sound (s : VmState) (e : Event) (h : slotAtSwap s e = true) :
    SlotAtSwap s e := by
  intro _ _ f rest u sup hv hanon hnone
  simp [slotAtSwap, hnone, hv.front, hv.page, hanon] at h

/-- The stack of the first process is the victim and the only slot is free. -/
theorem swapOut_recoverable_smallMachine : ∃ s s', Lib.Reach step SlotAtSwap smallMachine s ∧
    freeSlot s ≠ none ∧ Current s ⟨1, 0, some (physBase - pgsize)⟩ ∧
    swapOutOf s ⟨1, 0, some (physBase - pgsize)⟩ = some s' ∧
    ∃ u, some (physBase - pgsize) = some u ∧ Recoverable s s' 1 u := by
  obtain ⟨s, hs, hq⟩ := Lib.exists_reach step smallMachine [.setupStack 1 true, .start 1]
    (fun s => (freeSlot s).isSome && pagedirGetPage (s.pagedir 1) (physBase - pgsize) == some 0 &&
      (swapOutOf s ⟨1, 0, some (physBase - pgsize)⟩).isSome)
    slotAtSwap_sound (by decide) (by decide)
  simp only [Bool.and_eq_true, Option.isSome_iff_exists, beq_iff_eq] at hq
  obtain ⟨⟨⟨i, hi⟩, hget⟩, s', hs'⟩ := hq
  have hslot : freeSlot s ≠ none := by simp [hi]
  have hcur : Current s ⟨1, 0, some (physBase - pgsize)⟩ := by
    intro u hu
    cases hu
    exact hget
  exact ⟨s, s', hs, hslot, hcur, hs', swapOut_recoverable hs hslot hcur hs'⟩

/-- With every slot in use the page is lost: it is not resident, and its entry
    names no slot. The stack of the second process goes this way when the third
    one needs a frame. -/
theorem swapOut_not_recoverable : ∃ s s', Lib.Reach step Lib.anyStep smallMachine s ∧
    ⟨2, 0, some (physBase - pgsize)⟩ ∈ s.frameTable ∧
    Current s ⟨2, 0, some (physBase - pgsize)⟩ ∧
    swapOutOf s ⟨2, 0, some (physBase - pgsize)⟩ = some s' ∧
    ¬ Recoverable s s' 2 (physBase - pgsize) := by
  obtain ⟨s, hs, hq⟩ := Lib.exists_reach (C := Lib.anyStep) (c := fun _ _ => true) step smallMachine
    [.setupStack 1 true, .start 1, .setupStack 2 true, .start 2]
    (fun s => s.frameTable == [⟨2, 0, some (physBase - pgsize)⟩] &&
      pagedirGetPage (s.pagedir 2) (physBase - pgsize) == some 0 &&
      (swapOutOf s ⟨2, 0, some (physBase - pgsize)⟩).any fun s' => !s'.usedMap 0 &&
        (s'.supPageTable 2).lookup (physBase - pgsize) == some (anonEntry 0))
    (fun _ _ _ => trivial) (by decide) (by decide)
  simp only [Bool.and_eq_true, beq_iff_eq, Option.any_eq_true] at hq
  obtain ⟨⟨hft, hget⟩, s', hs', hfree, hsup⟩ := hq
  have hcur : Current s ⟨2, 0, some (physBase - pgsize)⟩ := by
    intro u hu
    cases hu
    exact hget
  refine ⟨s, s', hs, by simp [hft], hcur, hs', ?_⟩
  rintro (⟨k, hk, hused, -⟩ | ⟨sup, i, se, hl, hi, -⟩)
  · obtain rfl : 0 = k := Option.some.inj (hget.symm.trans hk)
    rw [hused] at hfree
    cases hfree
  · rw [hsup] at hl
    cases hl
    cases hi

end Pintos.Vm
