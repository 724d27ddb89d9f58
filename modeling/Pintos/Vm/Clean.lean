import Pintos.Vm.Pages

/- Mappings that are not written to.

   The unmapping loops write a page back if its page table entry is dirty. The dirty bit
   outlives the mapping that set it: `sup_page_entry_delete` clears the present bit and
   nothing else. A mapping made later at the same address starts with the bit of the old
   one, and if such a page is never touched its `kpage` is still null when it is written
   back (`clean_unmap_fails`).

   `Stores` puts the history of the stores beside the machine: through which files a
   store was made, and to which pages since they were last installed. `clean_unmap` is
   for the runs in which no page is mapped while its old entry is dirty. -/
namespace Pintos.Vm

structure Stores where
  /-- A store has been made through the mapping of this `struct file`. -/
  through : Nat → Bool
  /-- A store has been made to the page since it was mapped or its entry installed. -/
  since : Tid → Nat → Bool

variable {s s' : VmState} {file u pos addr k : Nat} {p : Tid} {h : Stores} {sup : SupPageEntry}
  {e : Event}

def Event.target : Event → Option (Tid × Nat)
  | .store p addr _ => some (p, pgRoundDown addr)
  | _ => none

def shows (s : VmState) (p : Tid) (u file : Nat) : Bool :=
  ((s.supPageTable p).lookup u).any fun sup => sup.fileAddress == some file

/-- The page's page table entry is written, or its supplemental entry is made. -/
def renews (s s' : VmState) (p : Tid) (u : Nat) : Bool :=
  ((pagedirGetPage (s.pagedir p) u).isNone && (pagedirGetPage (s'.pagedir p) u).isSome) ||
    (((s.supPageTable p).lookup u).isNone && ((s'.supPageTable p).lookup u).isSome)

def Stores.next (h : Stores) (s : VmState) (e : Event) (s' : VmState) : Stores where
  through := fun file => h.through file || e.target.any fun t => shows s t.1 t.2 file
  since := fun p u => e.target == some (p, u) || h.since p u && !renews s s' p u

/-- The machine with the history of the stores beside it. -/
def cleanStep (x : VmState × Stores) (e : Event) : Option (VmState × Stores) :=
  (step x.1 e).map fun s' => (s', x.2.next x.1 e s')

/-- Nothing has been stored. -/
def Stores.none : Stores := ⟨fun _ => false, fun _ _ => false⟩

/-- The steps for which clean mappings stay clean: pages that are mapped are user pages
    whose old entry is not dirty, and where mappings are removed the frame table knows
    the frames. -/
structure CleanAt (s : VmState) (e : Event) : Prop where
  mapped : ∀ p ino addr, e = .mmap p ino addr → refused s p ino addr = false →
    ∀ u ∈ madePages addr (s.inodes ino).length,
      isUserPage u = true ∧ pagedirIsDirty (s.pagedir p) u = false
  frames : e.removes s ≠ [] → FramesListed s e.tid

/-! The dirty bits of mapped pages. -/

/-- A page of a file is a user page; if it is dirty there was a store to it since its
    entry was installed, and then there was one through the mapping. -/
def CleanInv (s : VmState) (h : Stores) : Prop :=
  ∀ p u file pos, PageAt s p u file pos → isUserPage u = true ∧
    (pagedirIsDirty (s.pagedir p) u = true → h.since p u = true) ∧
    (h.since p u = true → h.through file = true)

theorem Stores.next_through (ht : h.through file = true) (s : VmState) (e : Event) (s' : VmState) :
    (h.next s e s').through file = true := by
  simp [Stores.next, ht]

theorem shows_of_pageAt (h : PageAt s p u file pos) : shows s p u file = true := by
  obtain ⟨sup, hs, hfile, -⟩ := h
  simp [shows, hs, hfile]

theorem PageAt.isSome (h : PageAt s p u file pos) :
    ((s.supPageTable p).lookup u).isNone = false := by
  obtain ⟨sup, hs, -⟩ := h
  simp [hs]

theorem CleanInv.settles (hinv : CleanInv s h) (hs : Settles s s') (he : e.target = none) :
    CleanInv s' (h.next s e s') := by
  intro p u file pos hp
  have hp₀ := hs.pageAt hp
  obtain ⟨huser, hsince, hthrough⟩ := hinv p u file pos hp₀
  refine ⟨huser, fun hd => ?_, fun hd => ?_⟩
  · obtain ⟨hd₀, hget⟩ := hs.dirty hd
    -- the page is still dirty, so its entry was not written
    have hrenew : renews s s' p u = false := by grind [renews, hp₀.isSome, pagedirGetPage]
    simp [Stores.next, he, hsince hd₀, hrenew]
  · grind [Stores.next]

theorem CleanInv.store {b : Byte} (hinv : CleanInv s h) (hst : userStore s p addr b = some s') :
    CleanInv s' (h.next s (.store p addr b) s') := by
  intro q v file pos hp
  obtain ⟨hspt, hdirty⟩ := userStore_dirty hst
  have hp₀ : PageAt s q v file pos := by rwa [PageAt, hspt] at hp
  obtain ⟨huser, hsince, hthrough⟩ := hinv q v file pos hp₀
  by_cases hqv : (p, pgRoundDown addr) = (q, v)
  · -- the page the store goes to
    obtain ⟨rfl, rfl⟩ := Prod.mk.inj hqv
    refine ⟨huser, fun _ => by simp [Stores.next, Event.target], fun _ => ?_⟩
    simp [Stores.next, Event.target, shows_of_pageAt hp₀]
  · grind [renews, userStore_getPage, Stores.next, Event.target]

theorem CleanInv.mmap {ino : Nat} (hinv : CleanInv s h) (hc : CleanAt s (.mmap p ino addr)) :
    CleanInv (handleMmap s p ino addr).1
      (h.next s (.mmap p ino addr) (handleMmap s p ino addr).1) := by
  intro q v file pos hp
  have hpd := handleMmap_pagedir s p ino addr
  obtain hold | ⟨href, rfl, rfl, hnone, i, hi, rfl, -⟩ := mmap_newPage hp
  · obtain ⟨huser, hsince, hthrough⟩ := hinv q v file pos hold
    have hrenew : renews s (handleMmap s p ino addr).1 q v = false := by
      grind [renews, hold.isSome, pagedirGetPage]
    have hsame : (h.next s (.mmap p ino addr) (handleMmap s p ino addr).1).since q v =
        h.since q v := by simp [Stores.next, Event.target, hrenew]
    rw [hsame, hpd]
    exact ⟨huser, hsince, fun hd => Stores.next_through (hthrough hd) s _ _⟩
  · -- a new page: clean by the condition, and nothing has been stored to it
    obtain ⟨huser, hclean⟩ := hc.mapped q ino addr rfl href (mapPage addr i)
      (List.mem_map.mpr ⟨i, List.mem_range.mpr hi, rfl⟩)
    have hrenew : renews s (handleMmap s q ino addr).1 q (mapPage addr i) = true := by
      have hsome := hp.isSome
      simp only [renews, hnone, Option.isNone_none, Bool.true_and, Bool.or_eq_true]
      right
      cases hl : ((handleMmap s q ino addr).1.supPageTable q).lookup (mapPage addr i) with
      | none => rw [hl] at hsome; cases hsome
      | some sup => rfl
    have hzero : (h.next s (.mmap q ino addr) (handleMmap s q ino addr).1).since q
        (mapPage addr i) = false := by simp [Stores.next, Event.target, hrenew]
    rw [hzero, hpd, hclean]
    exact ⟨huser, id, fun hd => Bool.noConfusion hd⟩

theorem CleanInv.step (hinv : CleanInv s h) (hc : CleanAt s e) (hstep : Vm.step s e = some s') :
    CleanInv s' (h.next s e s') := by
  cases he : e.soils with
  | false =>
    refine hinv.settles (step_settles hstep he) ?_
    cases e <;> first | rfl | cases he
  | true =>
    obtain ⟨-, -, hcase⟩ := step_cases hstep
    cases hcase with
    | store addr b hev h => rw [hev]; exact hinv.store h
    | mmap ino addr hev h =>
      rw [hev] at hc ⊢
      subst h
      exact hinv.mmap hc
    | quiet h => rw [h.soils] at he; cases he
    | unmap file _ hsoils _ _ => rw [hsoils] at he; cases he
    | alloc htake _ => cases e <;> simp [Event.soils, Event.takesFrame] at he htake
    | exit hend _ => cases e <;> simp [Event.soils, Event.ends] at he hend

theorem CleanInv.boot (poolSize : Nat) (mem : Nat → Buf) (inodes : Nat → Inode) (swapDisk : Disk) :
    CleanInv (Vm.boot poolSize mem inodes swapDisk) .none := by
  rintro p u file pos ⟨sup, hs, -⟩
  simp [Vm.boot] at hs

theorem cleanStep_inv (x : VmState × Stores) (e : Event) (x' : VmState × Stores)
    (hx : CleanInv x.1 x.2) (hc : CleanAt x.1 e) (h : cleanStep x e = some x') :
    CleanInv x'.1 x'.2 := by
  obtain ⟨s', hs', rfl⟩ := Option.map_eq_some_iff.mp h
  exact hx.step hc hs'

/-! Removing a mapping. -/

theorem FramesListed.unmap (hl : FramesListed s p)
    (h : unmapFile s p file = some s') : FramesListed s' p := by
  obtain ⟨t, ht, -, rfl⟩ := unmapFile_inv (I := fun t => FramesListed t p) h hl
    (fun _ _ hI => hI) (fun _ _ _ _ hI hs hfile hR => hI.remove hs (by simp [hfile]) hR)
  exact ht

theorem writeLoop_clean : ∀ {l : List Nat},
    (∀ u ∈ l, (s.supPageTable p).lookup u ≠ none ∧ pagedirIsDirty (s.pagedir p) u = false) →
    l.foldlM (fun t u => writeBack t p file u) s = some s
  | [], _ => rfl
  | u :: l, h => by
    obtain ⟨hs, hd⟩ := h u (List.mem_cons_self ..)
    obtain ⟨sup, hs⟩ := Option.ne_none_iff_exists'.mp hs
    have hone : writeBack s p file u = some s := by
      rw [writeBack, hs, Option.bind_some, hd]
      rfl
    rw [List.foldlM_cons, hone]
    exact writeLoop_clean fun v hv => h v (List.mem_cons_of_mem _ hv)

theorem removeLoop_inodes {l : List Nat}
    (h : l.foldlM (fun t u => removePage t p u) s = some s') : s'.inodes = s.inodes := by
  refine Lib.foldlM_inv (I := fun t => t.inodes = s.inodes) l (fun u _ t t' hI ht => ?_) rfl h
  obtain ⟨sup, -, -, hR⟩ := removePage_cases ht
  exact hR.rest.2.trans hI

theorem unmapFile_inodes
    (hclean : ∀ u ∈ pagesOf (s.supPageTable p) file, pagedirIsDirty (s.pagedir p) u = false)
    (h : unmapFile s p file = some s') : s'.inodes = s.inodes := by
  obtain ⟨s₁, t, hwrite, hrem, rfl⟩ := unmapFile_loops h
  have hsame : s₁ = s := by
    rw [writeLoop_clean fun u hu => ?_] at hwrite
    · exact (Option.some.inj hwrite).symm
    · obtain ⟨sup, hs, -⟩ := mem_pagesOf.mp hu
      exact ⟨by simp [hs], hclean u hu⟩
  have hino : t.inodes = s₁.inodes := removeLoop_inodes hrem
  rw [← hsame]
  exact hino

theorem unmapFile_clean
    (hpages : ∀ u pos, PageAt s p u file pos →
      isUserPage u = true ∧ pagedirIsDirty (s.pagedir p) u = false)
    (hl : FramesListed s p) :
    ∃ s', unmapFile s p file = some s' ∧ s'.inodes = s.inodes := by
  have hmem : ∀ u sup, (s.supPageTable p).lookup u = some sup → sup.fileAddress = some file →
      isUserPage u = true ∧ pagedirIsDirty (s.pagedir p) u = false :=
    fun u sup hs hfile => hpages u sup.filePos ⟨sup, hs, hfile, rfl⟩
  have hun : Unmappable s p file := ⟨fun u sup hs hfile => ⟨(hmem u sup hs hfile).1, fun hd => by
    rw [(hmem u sup hs hfile).2] at hd
    cases hd⟩, hl⟩
  obtain ⟨s', hs'⟩ := hun.defined
  refine ⟨s', hs', unmapFile_inodes (fun u hu => ?_) hs'⟩
  obtain ⟨sup, hs, hfile⟩ := mem_pagesOf.mp hu
  exact (hmem u sup hs hfile).2

/-! Runs. -/

/-- **Clean mappings are removed without a write in every run whose steps are clean.**
    For each mapping that `munmap` or the end of a process removes, once those before it
    are removed: a page of it that is dirty has been stored to since its entry was
    installed; and if no store was made through the mapping, its removal completes and
    writes to no file. -/
theorem clean_unmap {poolSize : Nat} {mem : Nat → Buf} {inodes : Nat → Inode} {swapDisk : Disk}
    {s t : VmState} {h : Stores} {e : Event} {l₁ l₂ : List Nat} {file : Nat}
    (hreach : Lib.Reach cleanStep (fun x e => CleanAt x.1 e)
      (boot poolSize mem inodes swapDisk, .none) (s, h))
    (hc : CleanAt s e) (hremoves : e.removes s = l₁ ++ file :: l₂)
    (hbefore : l₁.foldlM (fun t f => unmapFile t e.tid f) s = some t) :
    (∀ u ∈ pagesOf (t.supPageTable e.tid) file, pagedirIsDirty (t.pagedir e.tid) u = true →
      h.since e.tid u = true) ∧
    (h.through file = false →
      ∃ t', unmapFile t e.tid file = some t' ∧ t'.inodes = t.inodes) := by
  have hinv : CleanInv s h :=
    hreach.inv (I := fun x => CleanInv x.1 x.2) (.boot poolSize mem inodes swapDisk) cleanStep_inv
  have hframes : FramesListed s e.tid := hc.frames (by simp [hremoves])
  -- what the removals before this one keep
  obtain ⟨hsettles, hlisted⟩ : Settles s t ∧ FramesListed t e.tid :=
    Lib.foldlM_inv (I := fun t => Settles s t ∧ FramesListed t e.tid) l₁
      (fun _ _ _ _ hI hu => ⟨hI.1.trans (unmapFile_settles hu), hI.2.unmap hu⟩)
      ⟨.of_eq rfl rfl, hframes⟩ hbefore
  have hpage : ∀ u pos, PageAt t e.tid u file pos → isUserPage u = true ∧
      (pagedirIsDirty (t.pagedir e.tid) u = true → h.since e.tid u = true) ∧
      (h.since e.tid u = true → h.through file = true) := by
    intro u pos hp
    obtain ⟨huser, hsince, hthrough⟩ := hinv e.tid u file pos (hsettles.pageAt hp)
    exact ⟨huser, fun hd => hsince (hsettles.dirty hd).1, hthrough⟩
  constructor
  · intro u hu
    obtain ⟨pos, hp⟩ := mem_pagesOf_iff.mp hu
    exact (hpage u pos hp).2.1
  · intro hno
    apply unmapFile_clean _ hlisted
    intro u pos hp
    obtain ⟨huser, hsince, hthrough⟩ := hpage u pos hp
    refine ⟨huser, Bool.eq_false_iff.mpr fun hd => ?_⟩
    rw [hthrough (hsince hd)] at hno
    cases hno

def framesListed (s : VmState) (p : Tid) : Bool :=
  (s.supPageTable p).entries.all fun e => e.2.fileAddress.isNone || match e.2.kpage with
    | none => true
    | some k => decide (s.frameTable.countP (fun f => f.kpage = k) ≤ 1) &&
        (s.frameTable.all (fun f => f.kpage != k) || (decide (k < s.poolSize) && s.usedMap k))

def cleanAt (s : VmState) (e : Event) : Bool :=
  (match e with
    | .mmap p ino addr => refused s p ino addr || (madePages addr (s.inodes ino).length).all
        fun u => isUserPage u && !pagedirIsDirty (s.pagedir p) u
    | _ => true) && framesListed s e.tid

theorem framesListed_sound (h : framesListed s p = true) :
    FramesListed s p := by
  intro u sup k hs hfile hk
  have hentry := List.all_eq_true.mp h ⟨u, sup⟩ (AList.mem_lookup_iff.mp hs)
  simp only [Option.isNone_iff_eq_none, hfile, hk, Bool.or_eq_true, Bool.and_eq_true, false_or,
    decide_eq_true_eq, List.all_eq_true, bne_iff_ne] at hentry
  refine ⟨hentry.1, fun hn => ?_⟩
  obtain hun | hheld := hentry.2
  · exact absurd hun hn
  · exact hheld

theorem cleanAt_sound (s : VmState) (e : Event) (h : cleanAt s e = true) : CleanAt s e := by
  obtain ⟨hmap, hframes⟩ := Bool.and_eq_true_iff.mp h
  refine ⟨?_, fun _ => framesListed_sound hframes⟩
  rintro p ino addr rfl href u hu
  dsimp only at hmap
  rw [href, Bool.false_or] at hmap
  simpa using List.all_eq_true.mp hmap u hu

/-- A file is mapped, read and unmapped. -/
theorem clean_unmap_read : ∃ s h t',
    Lib.Reach cleanStep (fun x e => CleanAt x.1 e) (fileMachine 2, .none) (s, h) ∧
    (Event.munmap 1 0).removes s = [0] ∧ userLoad s 1 0x1000 = some 1 ∧
    unmapFile s 1 0 = some t' ∧ t'.inodes = s.inodes := by
  obtain ⟨⟨s, h⟩, hs, hq⟩ := Lib.exists_reach
    (c := fun (x : VmState × Stores) e => cleanAt x.1 e) cleanStep (fileMachine 2, .none)
    [.start 1, .mmap 1 5 0x1000, .fault 1 0x1000 0 false true, .load 1 0x1000]
    (fun x => cleanAt x.1 (.munmap 1 0) && (Event.munmap 1 0).removes x.1 == [0] &&
      userLoad x.1 1 0x1000 == some 1 && !x.2.through 0)
    (fun x e => cleanAt_sound x.1 e) (by decide) (by decide)
  simp only [Bool.and_eq_true, beq_iff_eq, Bool.not_eq_true'] at hq
  obtain ⟨⟨⟨hc, hrem⟩, hload⟩, hno⟩ := hq
  have hfirst : (Event.munmap 1 0).removes s = [] ++ 0 :: [] := hrem
  have hbefore : ([] : List Nat).foldlM (fun t f => unmapFile t (Event.munmap 1 0).tid f) s =
      some s := rfl
  obtain ⟨t', ht', hinodes⟩ := (clean_unmap hs (cleanAt_sound s _ hc) hfirst hbefore).2 hno
  exact ⟨s, h, t', hs, hrem, hload, ht', hinodes⟩

/-- A file is mapped, stored to and unmapped, and then mapped again at the same address.
    The second mapping is not touched at all, and it cannot be removed: its page is still
    dirty and is written back from a null pointer. -/
theorem clean_unmap_fails : ∃ s h,
    Lib.Reach cleanStep Lib.anyStep (fileMachine 2, .none) (s, h) ∧
    s.exited 1 = false ∧ (Event.munmap 1 0).removes s = [1] ∧ h.through 1 = false ∧
    step s (.munmap 1 0) = none := by
  obtain ⟨⟨s, h⟩, hs, hq⟩ := Lib.exists_reach (C := Lib.anyStep) (c := fun _ _ => true) cleanStep
    (fileMachine 2, .none)
    [.start 1, .mmap 1 5 0x1000, .fault 1 0x1000 0 true true, .store 1 0x1000 7, .munmap 1 0,
      .mmap 1 5 0x1000]
    (fun x => !x.1.exited 1 && (Event.munmap 1 0).removes x.1 == [1] && !x.2.through 1 &&
      (step x.1 (.munmap 1 0)).isNone)
    (fun _ _ _ => trivial) (by decide) (by decide)
  simp only [Bool.and_eq_true, beq_iff_eq, Bool.not_eq_true', Option.isNone_iff_eq_none] at hq
  obtain ⟨⟨⟨hlive, hrem⟩, hno⟩, hstep⟩ := hq
  exact ⟨s, h, hs, hlive, hrem, hno, hstep⟩

end Pintos.Vm
