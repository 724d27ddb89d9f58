import Pintos.Vm.FrameTable

/- The same operations, cut at the points where another thread can run.

   In `step` every operation runs to completion. Here a process has a place in the
   kernel's code (`Ctl`), and an action takes it to the next one: only what runs
   under `frame_sema` (`frame_table_allocator`, `frame_table_free`,
   `frame_entry_set_pte`) is one action each. So a frame is in the frame table
   before its `upage` is written, before its page table entry is there and, for
   some callers, before the page has a supplemental entry, and others run in
   between.

   Correspondence (C ↔ Lean), after `frame_table_allocator` has returned:
     `load_segment`        ↔ `loading`, `installing`, `linking`, `creating`
     `setup_stack_arg`     ↔ `installing`, `linking`, `creating`
     `page_fault`, growth  ↔ `growing`, `mapping`, `linking`
     `swap_in`             ↔ `swapping`, `mapping`, `linking`
     `page_fault`, file    ↔ `mapping`, `linking`, `filling`
   and for `handle_munmap` and `process_exit`: `writing`, `freeing`, `deleting`,
   `destroying`. `step_interleaved` says that a process left alone does what `step`
   does.

   Where the kernel follows a bad pointer `step` has no outcome. Here the fault that comes
   of it ends the process, as `page_fault` does: in `frame_table_allocator`, with the victim
   taken off the list, and in `swap_in` of a page that no slot was free for. The semaphore
   that the process holds then stays down; who needs it waits, and is allowed to go on
   here. -/
namespace Pintos.Vm

open Function

variable {exits ptOk w ok : Bool} {file k u : Nat}

/-- What a caller of `pagedir_set_page` does after it. -/
inductive Next where
  | create
  | done
  | fill (file : Nat)
  deriving DecidableEq

/-- Where the kernel code of a process is: the next thing it does. -/
inductive Ctl where
  /-- In user mode, or at the start of a system call or of a turn in `load`. -/
  | user
  /-- The frame `k` is to be filled from the executable. -/
  | loading (upage k : Nat) (writable ptOk : Bool) (ino offset readBytes : Nat)
  /-- `install_page`, up to the page table entry. -/
  | installing (upage k : Nat) (writable ptOk : Bool)
  /-- `frame_entry_set_pte` in `pagedir_set_page`. -/
  | linking (upage k : Nat) (next : Next)
  /-- `sup_page_entry_create` in `load`. -/
  | creating (upage k : Nat)
  /-- `frame_table_free`, after a failure in `load`. -/
  | givingBack (k : Nat)
  /-- `sup_page_entry_create` for a page the stack grows by. -/
  | growing (upage k : Nat) (writable ptOk : Bool)
  /-- `pagedir_set_page` in `page_fault` or `swap_in`, up to the page table entry. -/
  | mapping (upage k : Nat) (writable ptOk : Bool) (next : Next)
  /-- The reads of `swap_in`. -/
  | swapping (upage k : Nat) (writable : Bool)
  /-- The frame of a mapped file is noted and read. -/
  | filling (upage k file : Nat)
  /-- The first loop of the unmapping code, with the pages `left`. -/
  | writing (file : Nat) (left pages more : List Nat) (exits : Bool)
  /-- The second loop, at `frame_table_free`. -/
  | freeing (file : Nat) (pages more : List Nat) (exits : Bool)
  /-- The second loop, at `sup_page_entry_delete`. -/
  | deleting (file upage : Nat) (pages more : List Nat) (exits : Bool)
  /-- `pagedir_destroy` and the end of the thread. -/
  | destroying
  deriving DecidableEq

structure Sys where
  vm : VmState
  ctl : Tid → Ctl

/-- `pagedir_set_page` up to the page table entry. -/
def setPte (s : VmState) (p : Tid) (upage kpage : Nat) (writable ptOk : Bool) :
    Option (VmState × Bool) :=
  if isUserPage upage = true ∧ pagedirGetPage (s.pagedir p) upage = none then
    if hasPageTable (s.pagedir p) upage || ptOk then
      let pd := (s.pagedir p).insert upage ⟨kpage, true, writable, false⟩
      some ({ s with pagedir := update s.pagedir p pd }, true)
    else some (s, false)
  else none

def Next.ctl (upage k : Nat) : Next → Ctl
  | .create => .creating upage k
  | .done => .user
  | .fill file => .filling upage k file

/-- The unmapping code, with the mappings `more` still to go. -/
def unmapNext (s : VmState) (p : Tid) : List Nat → Bool → Ctl
  | [], exits => if exits then .destroying else .user
  | file :: more, exits =>
    .writing file (pagesOf (s.supPageTable p) file) (pagesOf (s.supPageTable p) file) more exits

/-- The end of a process, from `process_exit` on. -/
def ended (s : VmState) (p : Tid) : VmState × Ctl := (s, unmapNext s p (s.mappingList p) true)

/-- `frame_table_allocator` finds a victim that has no page to be looked up: its thread is
    gone, its `upage` is not written, or the page has no entry. -/
def badVictim (s : VmState) : Bool :=
  (List.range s.poolSize).all s.usedMap && s.frameTable.head?.any fun f => (victimPage s f).isNone

/-- `frame_table_allocator`, and where its caller goes on with the frame. -/
def allocate (s : VmState) (p : Tid) (zero : Bool) (next : Nat → Ctl) : Option (VmState × Ctl) :=
  if badVictim s then some (ended { s with frameTable := s.frameTable.tail } p)
  else (frameTableAllocator s p zero).map fun (s₁, k) => (s₁, next k)

/-- `page_fault` up to the return of `frame_table_allocator`. -/
def enterFault (s : VmState) (p : Tid) (addr esp : Nat) (write ptOk : Bool) :
    Option (VmState × Ctl) :=
  let upage := pgRoundDown addr
  let notPresent := (pagedirGetPage (s.pagedir p) upage).isNone
  if isStackGrowth s p addr esp then allocate s p false fun k => .growing upage k write ptOk
  else match (s.supPageTable p).lookup upage with
    | some sup =>
      if physBase ≤ upage ∨ notPresent = false then some (ended s p)
      else match sup.fileAddress with
        | none => allocate s p false fun k => .swapping upage k notPresent
        | some file => allocate s p true fun k => .mapping upage k notPresent ptOk (.fill file)
    | none => some (ended s p)

/-- The first action of an event: up to the return of `frame_table_allocator`, up
    to the loops of the unmapping code, or all of it. -/
def Event.enter (s : VmState) : Event → Option (VmState × Ctl)
  | .loadPage p ino offset readBytes upage writable ptOk =>
    allocate s p false fun k => .loading upage k writable ptOk ino offset readBytes
  | .setupStack p ptOk => allocate s p true fun k => .installing (physBase - pgsize) k true ptOk
  | .fault p addr esp write ptOk =>
    if faults s p addr write then enterFault s p addr esp write ptOk else none
  | .munmap p mapping =>
    match (s.mappingList p).find? fun f => (s.files f).mapping = mapping with
    | some f => some (s, unmapNext s p [f] false)
    | none => some (s, .user)
  | .exit p => some (ended s p)
  | .exec p ino => (Vm.exec s p ino).map fun s' => (s', .user)
  | .start p => some ({ s with loaded := update s.loaded p true }, .user)
  | .load p addr => (userLoad s p addr).map fun _ => (s, .user)
  | .store p addr b => (userStore s p addr b).map fun s' => (s', .user)
  | .mmap p ino addr => some ((handleMmap s p ino addr).1, .user)
  | .bounce _ file read write => some (setBounce s file read write, .user)

/-- The next action of a process that is in the kernel. -/
def advance (s : VmState) (p : Tid) : Ctl → Option (VmState × Ctl)
  | .user => none
  | .loading upage k writable ptOk ino offset readBytes =>
    if readBytes ≤ (s.inodes ino).length - offset then
      some (fill s k (segmentPage (s.inodes ino) offset readBytes),
        .installing upage k writable ptOk)
    else some (s, .givingBack k)
  | .installing upage k writable ptOk =>
    if (pagedirGetPage (s.pagedir p) upage).isSome then some (s, .givingBack k)
    else (setPte s p upage k writable ptOk).map fun (s', ok) =>
      (s', if ok then .linking upage k .create else .givingBack k)
  | .linking upage k next => some (frameEntrySetPte s upage k, next.ctl upage k)
  | .creating upage k => some (supPageEntryCreate s p upage (anonEntry k), .user)
  | .givingBack k => (frameTableFree s (some k)).map fun s' => (s', .user)
  | .growing upage k writable ptOk =>
    some (supPageEntryCreate s p upage (anonEntry k), .mapping upage k writable ptOk .done)
  | .mapping upage k writable ptOk next =>
    (setPte s p upage k writable ptOk).map fun (s', ok) =>
      (s', if ok then .linking upage k next else next.ctl upage k)
  | .swapping upage k writable =>
    ((s.supPageTable p).lookup upage).bind fun sup =>
      match sup.swapAddress with
      | none => some (ended s p)
      | some i =>
        (s.swapTable[i]?).bind fun se =>
          (readSectors s.swapDisk se.firstSecNo (s.mem k) 8).map fun page =>
            (fill { s with swapTable := s.swapTable.set i { se with isUsed := false } } k page,
              .mapping upage k writable true .done)
  | .filling upage k file =>
    ((s.supPageTable p).lookup upage).map fun sup =>
      (fill (setSup s p upage { sup with kpage := some k }) k
        (inodeReadAt (s.readBounce file) (s.inodes (s.files file).inode) (s.mem k) pgsize
          sup.filePos), .user)
  | .writing file (upage :: left) pages more exits =>
    (writeBack s p file upage).map fun s' => (s', .writing file left pages more exits)
  | .writing file [] pages more exits => some (s, .freeing file pages more exits)
  | .freeing file (upage :: pages) more exits =>
    ((s.supPageTable p).lookup upage).bind fun sup =>
      (frameTableFree s sup.kpage).map fun s' => (s', .deleting file upage pages more exits)
  | .freeing file [] more exits =>
    some (unlisted s p file, unmapNext (unlisted s p file) p more exits)
  | .deleting file upage pages more exits =>
    (supPageEntryDelete s p upage).map fun s' => (s', .freeing file pages more exits)
  | .destroying => (pagedirDestroy s p).map fun s' => (gone s' p, .user)

/-- A process raises an event, or goes on in the kernel. -/
inductive Act where
  | enter (e : Event)
  | advance (p : Tid)
  deriving DecidableEq

def Sys.set (x : Sys) (p : Tid) (r : VmState × Ctl) : Sys := ⟨r.1, update x.ctl p r.2⟩

/-- One action of the machine with interleaving. -/
def sysStep (x : Sys) : Act → Option Sys
  | .enter e =>
    if x.vm.exited e.tid = false ∧ e.inPhase x.vm = true ∧ x.ctl e.tid = .user then
      (e.enter x.vm).map (x.set e.tid)
    else none
  | .advance p =>
    if x.vm.exited p = false then (advance x.vm p (x.ctl p)).map (x.set p) else none

/-- The machine after boot, with every process outside the kernel. -/
def sysBoot (poolSize : Nat) (mem : Nat → Buf) (inodes : Nat → Inode) (swapDisk : Disk) : Sys :=
  ⟨boot poolSize mem inodes swapDisk, fun _ => .user⟩

/-! A process left alone. -/

theorem Sys.set_set (x : Sys) (p : Tid) (r r' : VmState × Ctl) : (x.set p r).set p r' = x.set p r' := by
  simp [Sys.set]

section
variable {x y : Sys} {p : Tid} {s s' : VmState} {more : List Nat} {c : Ctl}

/-- One more action of the process before the rest of its run. -/
theorem reach_advance {c' : Ctl} (hlive : s.exited p = false) (h : advance s p c = some (s', c'))
    (hrest : Lib.Reach sysStep Lib.anyStep (x.set p (s', c')) y) :
    Lib.Reach sysStep Lib.anyStep (x.set p (s, c)) y := by
  refine Lib.Reach.trans (.tail (.advance p) .refl trivial ?_) hrest
  have hctl : (x.set p (s, c)).ctl p = c := update_self ..
  rw [sysStep, if_pos (show (x.set p (s, c)).vm.exited p = false from hlive), hctl]
  rw [show (x.set p (s, c)).vm = s from rfl, h, Option.map_some, Sys.set_set]

theorem reach_last (hlive : s.exited p = false) (h : advance s p c = some (s', .user)) :
    Lib.Reach sysStep Lib.anyStep (x.set p (s, c)) (x.set p (s', .user)) :=
  reach_advance hlive h .refl

theorem pagedirSetPage_eq (u k : Nat) (w ptOk : Bool) :
    pagedirSetPage s p u k w ptOk = (setPte s p u k w ptOk).map fun (t, ok) =>
      (if ok then frameEntrySetPte t u k else t, ok) := by
  unfold pagedirSetPage setPte
  split
  · split <;> rfl
  · rfl

theorem setPte_exited (h : setPte s p u k w ptOk = some (s', ok)) : s'.exited = s.exited := by
  unfold setPte at h
  split at h
  · split at h <;> cases h <;> rfl
  · cases h

/-- `pagedir_set_page` in two actions, or one if there is no page table. -/
theorem reach_setPage (next : Next) (hlive : s.exited p = false)
    (h : pagedirSetPage s p u k w ptOk = some (s', ok))
    (hc : ∀ t, setPte s p u k w ptOk = some (t, ok) →
      advance s p c = some (t, if ok then .linking u k next else next.ctl u k))
    (hrest : Lib.Reach sysStep Lib.anyStep (x.set p (s', next.ctl u k)) y) :
    Lib.Reach sysStep Lib.anyStep (x.set p (s, c)) y := by
  rw [pagedirSetPage_eq, Option.map_eq_some_iff] at h
  obtain ⟨⟨t, ok'⟩, hset, heq⟩ := h
  cases heq
  refine reach_advance hlive (hc t hset) ?_
  cases ok with
  | true => exact reach_advance ((congrFun (setPte_exited hset) p).trans hlive) rfl hrest
  | false => exact hrest

theorem reach_installPage (hlive : s.exited p = false)
    (h : installPage s p u k w ptOk = some (s', ok)) :
    Lib.Reach sysStep Lib.anyStep (x.set p (s, .installing u k w ptOk)) (x.set p (s', .user)) := by
  have hback : ∀ {t}, frameTableFree s (some k) = some t →
      Lib.Reach sysStep Lib.anyStep (x.set p (s, .givingBack k)) (x.set p (t, .user)) :=
    fun hf => reach_last hlive (by simp [advance, hf])
  unfold installPage at h
  split at h
  · next hpresent =>
    obtain ⟨t, ht, heq⟩ := Option.map_eq_some_iff.mp h
    cases heq
    exact reach_advance hlive (by simp [advance, hpresent]) (hback ht)
  · next habsent =>
    rw [pagedirSetPage_eq, Option.bind_map, Option.bind_eq_some_iff] at h
    obtain ⟨⟨t, ok₁⟩, hset, h⟩ := h
    cases ok₁ with
    | true =>
      have hlive' : t.exited p = false := (congrFun (setPte_exited hset) p).trans hlive
      have hstep : advance s p (.installing u k w ptOk) = some (t, .linking u k .create) := by
        simp [advance, habsent, hset]
      refine reach_advance hlive hstep (reach_advance hlive' rfl (reach_last hlive' ?_))
      cases h
      rfl
    | false =>
      simp only [comp_apply, Bool.false_eq_true, if_false, Option.map_eq_some_iff] at h
      obtain ⟨t', ht', heq⟩ := h
      cases heq
      obtain rfl : t = s := by
        unfold setPte at hset
        split at hset
        · split at hset <;> cases hset
          rfl
        · cases hset
      have hstep : advance t p (.installing u k w ptOk) = some (t, .givingBack k) := by
        simp [advance, habsent, hset]
      exact reach_advance hlive hstep (hback ht')

/-! The unmapping code. -/

theorem reach_writeLoop {pages : List Nat} : ∀ (l : List Nat)
    {s : VmState}, s.exited p = false → l.foldlM (fun t u => writeBack t p file u) s = some s' →
    Lib.Reach sysStep Lib.anyStep (x.set p (s, .writing file l pages more exits))
      (x.set p (s', .freeing file pages more exits))
  | [], s, hlive, h => by
    cases h
    exact reach_advance hlive rfl .refl
  | u :: l, s, hlive, h => by
    rw [List.foldlM_cons] at h
    obtain ⟨t, ht, hl⟩ := Option.bind_eq_some_iff.mp h
    have hlive' : t.exited p = false := by rw [writeBack_eq ht]; exact hlive
    exact reach_advance hlive (by simp [advance, ht]) (reach_writeLoop l hlive' hl)

theorem reach_removeLoop : ∀ (l : List Nat)
    {s : VmState}, s.exited p = false → l.foldlM (fun t u => removePage t p u) s = some s' →
    Lib.Reach sysStep Lib.anyStep (x.set p (s, .freeing file l more exits))
      (x.set p (unlisted s' p file, unmapNext (unlisted s' p file) p more exits))
  | [], s, hlive, h => by
    cases h
    exact reach_advance hlive rfl .refl
  | u :: l, s, hlive, h => by
    rw [List.foldlM_cons] at h
    obtain ⟨t, ht, hl⟩ := Option.bind_eq_some_iff.mp h
    simp only [removePage, Option.bind_eq_some_iff] at ht
    obtain ⟨sup, hsup, r, hr, hdel⟩ := ht
    have hliver : r.exited p = false := by
      obtain ⟨rfl, -⟩ | ⟨k, -, -, -, -, rfl⟩ := frameTableFree_cases hr
      · exact hlive
      · exact hlive
    have hlivet : t.exited p = false := by grind [supPageEntryDelete, pagedirClearPage]
    have hfree : advance s p (.freeing file (u :: l) more exits) =
        some (r, .deleting file u l more exits) := by
      simp [advance, hsup, hr]
    have hdelete : advance r p (.deleting file u l more exits) =
        some (t, .freeing file l more exits) := by
      simp [advance, hdel]
    exact reach_advance hlive hfree (reach_advance hliver hdelete (reach_removeLoop l hlivet hl))

theorem reach_unmapFile (hlive : s.exited p = false) (h : unmapFile s p file = some s') :
    Lib.Reach sysStep Lib.anyStep (x.set p (s, unmapNext s p (file :: more) exits))
      (x.set p (s', unmapNext s' p more exits)) := by
  obtain ⟨s₁, t, hwrite, hrem, rfl⟩ := unmapFile_loops h
  have hlive₁ : s₁.exited p = false := by rw [writeLoop_eq hwrite]; exact hlive
  exact (reach_writeLoop _ hlive hwrite).trans (reach_removeLoop _ hlive₁ hrem)

theorem reach_unmapAll : ∀ (l : List Nat) {s : VmState}, s.exited p = false →
    l.foldlM (fun t f => unmapFile t p f) s = some s' →
    Lib.Reach sysStep Lib.anyStep (x.set p (s, unmapNext s p l exits))
      (x.set p (s', unmapNext s' p [] exits))
  | [], s, _, h => by cases h; exact .refl
  | file :: l, s, hlive, h => by
    rw [List.foldlM_cons] at h
    obtain ⟨t, ht, hl⟩ := Option.bind_eq_some_iff.mp h
    have hlive' : t.exited p = false := by rw [unmapFile_exited ht]; exact hlive
    exact (reach_unmapFile hlive ht).trans (reach_unmapAll l hlive' hl)

theorem unmapAll_exited {l : List Nat} (h : l.foldlM (fun t f => unmapFile t p f) s = some s') :
    s'.exited = s.exited :=
  Lib.foldlM_inv (I := fun t => t.exited = s.exited) l
    (fun _ _ _ _ ht hu => (unmapFile_exited hu).trans ht) rfl h

theorem reach_processExit (hlive : s.exited p = false) (h : processExit s p = some s') :
    Lib.Reach sysStep Lib.anyStep (x.set p (ended s p))
      (x.set p (s', .user)) := by
  obtain ⟨t, t', hall, hdes, rfl⟩ := processExit_cases h
  have hlive' : t.exited p = false := by rw [unmapAll_exited hall]; exact hlive
  have hlast : advance t p .destroying = some (gone t' p, .user) := by simp [advance, hdes]
  exact (reach_unmapAll _ hlive hall).trans (reach_last hlive' hlast)

/-! Page faults. -/

theorem allocator_exited {zero : Bool} (h : frameTableAllocator s p zero = some (s', k)) :
    s'.exited = s.exited := by
  obtain ⟨s₀, hroom, -, rfl⟩ := frameTableAllocator_cases h
  exact hroom.rest.exited

/-- An allocator that returns has followed no bad pointer. -/
theorem allocate_eq {zero : Bool} (h : frameTableAllocator s p zero = some (s', k))
    (next : Nat → Ctl) : allocate s p zero next = some (s', next k) := by
  have hgood : badVictim s = false := by
    by_contra hbad
    rw [Bool.not_eq_false, badVictim, Bool.and_eq_true, List.all_eq_true] at hbad
    obtain ⟨s₀, hroom, -⟩ := frameTableAllocator_cases h
    cases hroom with
    | free hfree =>
      have hused := hbad.1 _ (List.mem_range.mpr hfree.1)
      rw [hfree.2.1] at hused
      cases hused
    | evict _ hev =>
      obtain ⟨f, rest, u, sup, hv, -⟩ := (evictFront_cases hev).core
      simp [hv.front, victimPage, hv.live, hv.upage, hv.sup] at hbad
  rw [allocate, hgood, if_neg Bool.false_ne_true, h, Option.map_some]

theorem reach_pageFault {addr esp : Nat} {write : Bool} (hlive : s.exited p = false)
    (h : pageFault s p addr esp write ptOk = some s') :
    ∃ r, enterFault s p addr esp write ptOk = some r ∧
      Lib.Reach sysStep Lib.anyStep (x.set p r) (x.set p (s', .user)) := by
  have hlive₁ : ∀ {zero s₁ k}, frameTableAllocator s p zero = some (s₁, k) → s₁.exited p = false :=
    fun ha => (congrFun (allocator_exited ha) p).trans hlive
  unfold pageFault at h
  unfold enterFault
  dsimp only at h ⊢
  split at h
  · next hg =>
    rw [growStack, Option.bind_eq_some_iff] at h
    obtain ⟨⟨s₁, k⟩, ha, h⟩ := h
    obtain ⟨⟨t, ok⟩, hset, rfl⟩ := Option.map_eq_some_iff.mp h
    refine ⟨_, by rw [if_pos hg, allocate_eq ha], ?_⟩
    have hs₁ : s₁.exited p = false := hlive₁ ha
    have hlive₂ : (supPageEntryCreate s₁ p (pgRoundDown addr) (anonEntry k)).exited p = false := by
      rw [supPageEntryCreate_eq]
      exact hs₁
    refine reach_advance hs₁ rfl (reach_setPage .done hlive₂ hset ?_ .refl)
    intro t ht
    simp [advance, ht]
  · next hg =>
    rw [if_neg hg]
    cases hsup : (s.supPageTable p).lookup (pgRoundDown addr) with
    | none => grind [reach_processExit]
    | some sup =>
      simp only [hsup] at h ⊢
      split at h
      · next hbad => exact ⟨_, by rw [if_pos hbad], reach_processExit hlive h⟩
      · next hgood =>
        rw [if_neg hgood]
        generalize hw : (pagedirGetPage (s.pagedir p) (pgRoundDown addr)).isNone = w at h ⊢
        cases hfile : sup.fileAddress with
        | none =>
          simp only [hfile, swapIn, Option.bind_eq_some_iff] at h
          obtain ⟨⟨s₁, k⟩, ha, sup₁, hsup₁, i, hi, se, hse, page, hpage, h⟩ := h
          obtain ⟨⟨t, ok⟩, hset, rfl⟩ := Option.map_eq_some_iff.mp h
          have hs₁ : s₁.exited p = false := hlive₁ ha
          refine ⟨_, allocate_eq ha _, ?_⟩
          have hread : advance s₁ p (.swapping (pgRoundDown addr) k w) = some (fill
              { s₁ with swapTable := s₁.swapTable.set i { se with isUsed := false } } k page,
              .mapping (pgRoundDown addr) k w true .done) := by
            simp [advance, hsup₁, hi, hse, hpage]
          refine reach_advance hs₁ hread ?_
          refine reach_setPage .done hs₁ hset (fun t ht => ?_) .refl
          simp [advance, ht]
        | some file =>
          simp only [hfile, fileIn, Option.bind_eq_some_iff] at h
          obtain ⟨⟨s₁, k⟩, ha, ⟨t, ok⟩, hset, h⟩ := h
          obtain ⟨sup₁, hsup₁, rfl⟩ := Option.map_eq_some_iff.mp h
          refine ⟨_, allocate_eq ha _, ?_⟩
          have hs₁ : s₁.exited p = false := hlive₁ ha
          have hlive₂ : t.exited p = false := by
            obtain ⟨-, -, ⟨-, rfl⟩ | ⟨-, rfl⟩⟩ := pagedirSetPage_cases hset
            · exact hs₁
            · exact hs₁
          refine reach_setPage (.fill file) hs₁ hset (fun t ht => ?_) ?_
          · simp [advance, ht]
          · exact reach_last hlive₂ (by simp [advance, Next.ctl, hsup₁])

end

/-- **Every step of the machine is a run of the interleaved one in which only the
    process itself acts.** -/
theorem step_interleaved {x : Sys} {e : Event} {s' : VmState} (hctl : x.ctl e.tid = .user)
    (h : step x.vm e = some s') :
    Lib.Reach sysStep Lib.anyStep x (x.set e.tid (s', .user)) := by
  unfold step at h
  split at h
  · next hen =>
    -- one action into the kernel, then the rest
    have hgo : ∀ {r}, e.enter x.vm = some r →
        Lib.Reach sysStep Lib.anyStep (x.set e.tid r) (x.set e.tid (s', .user)) →
        Lib.Reach sysStep Lib.anyStep x (x.set e.tid (s', .user)) := by
      intro r hr hrest
      refine Lib.Reach.trans (.tail (.enter e) .refl trivial ?_) hrest
      rw [sysStep, if_pos ⟨hen.1, hen.2, hctl⟩, hr, Option.map_some]
    have hlive₁ : ∀ {zero s₁ k}, frameTableAllocator x.vm e.tid zero = some (s₁, k) →
        s₁.exited e.tid = false := fun ha => (congrFun (allocator_exited ha) e.tid).trans hen.1
    cases e with
    | exec p ino =>
      simp only [Event.apply] at h
      exact hgo (r := (s', .user)) (by simp [Event.enter, h]) .refl
    | loadPage p ino offset readBytes u w ptOk =>
      simp only [Event.apply, loadPage, Option.map_bind, Option.bind_eq_some_iff, Prod.exists] at h
      obtain ⟨s₁, k, ha, h⟩ := h
      refine hgo (r := (s₁, .loading u k w ptOk ino offset readBytes))
        (by rw [Event.enter, allocate_eq ha]) ?_
      simp only [comp_apply] at h
      split at h
      · next hread =>
        obtain ⟨⟨t, ok⟩, ht, rfl⟩ := Option.map_eq_some_iff.mp h
        have hs₁ : s₁.exited p = false := hlive₁ ha
        have hfill : advance s₁ p (.loading u k w ptOk ino offset readBytes) =
            some (fill s₁ k (segmentPage (s₁.inodes ino) offset readBytes),
              .installing u k w ptOk) := by simp [advance, hread]
        exact reach_advance hs₁ hfill (reach_installPage hs₁ ht)
      · next hread =>
        simp only [Option.map_map, Option.map_eq_some_iff] at h
        obtain ⟨t, ht, rfl⟩ := h
        have hshort : advance s₁ p (.loading u k w ptOk ino offset readBytes) =
            some (s₁, .givingBack k) := by simp [advance, hread]
        have hback : advance s₁ p (.givingBack k) = some (t, .user) := by simp [advance, ht]
        exact reach_advance (hlive₁ ha) hshort (reach_last (hlive₁ ha) hback)
    | setupStack p ptOk =>
      simp only [Event.apply, setupStack, Option.map_bind, Option.bind_eq_some_iff, Prod.exists] at h
      obtain ⟨s₁, k, ha, h⟩ := h
      obtain ⟨⟨t, ok⟩, ht, rfl⟩ := Option.map_eq_some_iff.mp h
      refine hgo (r := (s₁, .installing (physBase - pgsize) k true ptOk))
        (by rw [Event.enter, allocate_eq ha]) ?_
      exact reach_installPage (hlive₁ ha) ht
    | start p => cases h; exact hgo rfl .refl
    | fault p addr esp write ptOk =>
      simp only [Event.apply] at h
      split at h
      · next hf =>
        obtain ⟨r, hr, hrest⟩ := reach_pageFault (x := x) (p := p) hen.1 h
        exact hgo (by simpa [Event.enter, hf] using hr) hrest
      · cases h
    | load p addr =>
      obtain ⟨b, hb, rfl⟩ := Option.map_eq_some_iff.mp h
      exact hgo (r := (x.vm, .user)) (by simp [Event.enter, hb]) .refl
    | store p addr b =>
      simp only [Event.apply] at h
      exact hgo (r := (s', .user)) (by simp [Event.enter, h]) .refl
    | mmap p ino addr => cases h; exact hgo rfl .refl
    | munmap p mapping =>
      simp only [Event.apply, handleMunmap] at h
      split at h
      · next file hfile =>
        refine hgo (r := (x.vm, unmapNext x.vm p [file] false)) (by simp [Event.enter, hfile]) ?_
        exact reach_unmapFile hen.1 h
      · next hnone =>
        cases h
        exact hgo (r := (x.vm, .user)) (by simp [Event.enter, hnone]) .refl
    | exit p => exact hgo rfl (reach_processExit hen.1 h)
    | bounce p file read write => cases h; exact hgo rfl .refl
  · cases h

/-- **Every run of the machine is a run of the interleaved one**, from and to states in
    which nobody is in the kernel. -/
theorem run_interleaved {C : VmState → Event → Prop} {s t : VmState} (h : Lib.Reach step C s t) :
    Lib.Reach sysStep Lib.anyStep ⟨s, fun _ => .user⟩ ⟨t, fun _ => .user⟩ := by
  induction h with
  | refl => exact .refl
  | @tail s' t e _ _ hs ih =>
    have hone := step_interleaved (x := ⟨s', fun _ => .user⟩) rfl hs
    have hctl : update (fun _ => Ctl.user) e.tid .user = fun _ => .user := update_eq_self ..
    rw [Sys.set, hctl] at hone
    exact ih.trans hone

/-- The second process evicts the stack of the first. -/
theorem run_interleaved_evicts : ∃ t, Lib.Reach step Lib.anyStep smallMachine t ∧
    t.frameTable = [⟨2, 0, some (physBase - pgsize)⟩] ∧
    Lib.Reach sysStep Lib.anyStep ⟨smallMachine, fun _ => .user⟩ ⟨t, fun _ => .user⟩ := by
  obtain ⟨t, ht, hq⟩ := Lib.exists_reach (C := Lib.anyStep) (c := fun _ _ => true) step smallMachine
    [.setupStack 1 true, .setupStack 2 true]
    (fun t => t.frameTable == [⟨2, 0, some (physBase - pgsize)⟩])
    (fun _ _ _ => trivial) (by decide) (by decide)
  exact ⟨t, ht, beq_iff_eq.mp hq, run_interleaved ht⟩

end Pintos.Vm
