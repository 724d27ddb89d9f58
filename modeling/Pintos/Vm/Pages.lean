import Pintos.Vm.WriteBack
import Pintos.Vm.MapIds

/- What a step does to single pages.

   Three things are kept about a page besides its bytes: the part of a file it shows,
   its dirty bit and its permission. A page shows a file from the `mmap` that made it on
   (`step_pageAt`). It gets dirty by a store, and only a new page table entry makes it
   clean again (`Settles`, `step_settles`): `pagedir_clear_page` does not. Its permission
   is the one its page table entry was installed with (`step_writableAt`), which is not
   the same for all who install one (`Event.installs`). -/
namespace Pintos.Vm

open Function

variable {r s s' s₀ t : VmState} {addr file k u v ino pos : Nat} {p q : Tid}
  {ok ptOk w write : Bool} {e : Event} {c : Option Nat}

theorem pagedirSetPage_ok (hu : isUserPage u = true)
    (hnp : pagedirGetPage (s.pagedir p) u = none) (k : Nat) (w : Bool)
    (hpt : (hasPageTable (s.pagedir p) u || ptOk) = true) :
    pagedirSetPage s p u k w ptOk = some (mapFrame s p u k w, true) := by
  rw [pagedirSetPage, if_pos ⟨hu, hnp⟩, if_pos hpt]
  rfl

theorem faults_of_getPage
    (h : pagedirGetPage (s.pagedir p) (pgRoundDown addr) = none) (write : Bool) :
    faults s p addr write = true := by
  unfold pagedirGetPage at h
  unfold faults
  cases he : (s.pagedir p).lookup (pgRoundDown addr) with
  | none => rfl
  | some e =>
    rw [he] at h
    dsimp only at h
    split at h
    · cases h
    · next hp => simp [hp]

/-! Pages of files and dirty bits. -/

/-- No page shows a file it did not show, and no page is dirty that was clean or is
    installed anew. -/
structure Settles (s s' : VmState) : Prop where
  pageAt : ∀ {q v file pos}, PageAt s' q v file pos → PageAt s q v file pos
  dirty : ∀ {q v}, pagedirIsDirty (s'.pagedir q) v = true →
    pagedirIsDirty (s.pagedir q) v = true ∧
      (pagedirGetPage (s.pagedir q) v = none → pagedirGetPage (s'.pagedir q) v = none)

theorem Settles.trans (h : Settles s t) (h' : Settles t r) : Settles s r where
  pageAt := fun hp => h.pageAt (h'.pageAt hp)
  dirty := by grind [h'.dirty, h.dirty]

theorem Settles.of_eq (hsup : s'.supPageTable = s.supPageTable)
    (hpd : s'.pagedir = s.pagedir) : Settles s s' where
  pageAt := by
    intro q v file pos hp
    rwa [PageAt, hsup] at hp
  dirty := by
    intro q v hd
    rw [hpd] at hd ⊢
    exact ⟨hd, id⟩

theorem Evict.settles (h : Evict s s₀) : Settles s s₀ where
  pageAt := fun {q v _ _} => (pageAt_congr (h.lookup_sup q v)).mp
  dirty := fun {q v} hd => ⟨(h.isDirty q v).symm.trans hd, h.getPage_none⟩

theorem Room.settles (h : Room s s₀) : Settles s s₀ := by
  cases h with
  | free => exact .of_eq rfl rfl
  | evict _ hev => exact (evictFront_cases hev).settles

theorem PageOp.settles
    (hop : PageOp s p k c s') : Settles s s' where
  pageAt := fun {q v file pos} => (hop.pageAt q v file pos).mp
  dirty := by
    intro q v hd
    obtain hpd | ⟨u, w, -, hpd, -⟩ := hop.fills.2
    · rw [hpd] at hd ⊢
      exact ⟨hd, id⟩
    · rw [hpd, mapFrame_isDirty] at hd
      -- the page that is installed is clean
      split at hd
      · cases hd
      · next hqv =>
        rw [hpd, mapFrame_getPage, if_neg hqv]
        exact ⟨hd, id⟩

theorem Remove.settles {sup : SupPageEntry}
    (h : Remove s p u sup s') : Settles s s' where
  pageAt := fun {q v file pos} hp => ((h.pageAt q v file pos).mp hp).2
  dirty := by grind [h.isDirty, h.getPage]

theorem unmapFile_settles
    (h : unmapFile s p file = some s') : Settles s s' := by
  obtain ⟨t, ht, -, rfl⟩ := unmapFile_inv (I := Settles s) h (.of_eq rfl rfl)
    (fun _ _ hI => hI.trans (.of_eq rfl rfl)) (fun _ _ _ _ hI _ _ hR => hI.trans hR.settles)
  exact ht.trans (.of_eq rfl rfl)

theorem processExit_settles (h : processExit s p = some s') :
    Settles s s' := by
  obtain ⟨t, used, mem, nodes, ht, rfl⟩ := processExit_inv (I := Settles s) h (.of_eq rfl rfl)
    fun ht hu => ht.trans (unmapFile_settles hu)
  refine ht.trans ⟨id, ?_⟩
  intro q v hd
  by_cases hq : q = p
  · -- the directory is gone
    subst hq
    simp [pagedirIsDirty] at hd
  · simp only [update_of_ne hq] at hd ⊢
    exact ⟨hd, id⟩

theorem step_settles (h : step s e = some s')
    (he : e.soils = false) : Settles s s' := by
  obtain ⟨-, -, hcase⟩ := step_cases h
  cases hcase with
  | alloc _ h =>
    obtain ⟨s₀, k, hroom, -, hop⟩ := h
    exact hroom.settles.trans hop.settles
  | quiet h => rw [h.rest]; exact .of_eq rfl rfl
  | store addr b hev _ => rw [hev] at he; cases he
  | mmap ino addr hev _ => rw [hev] at he; cases he
  | unmap file _ _ _ h => exact unmapFile_settles h
  | exit _ h => exact processExit_settles h

/-- A store makes its page dirty, and changes nothing else here. -/
theorem userStore_dirty {b : Byte}
    (h : userStore s p addr b = some s') :
    s'.supPageTable = s.supPageTable ∧ ∀ q v, pagedirIsDirty (s'.pagedir q) v =
      if q = p ∧ v = pgRoundDown addr then true else pagedirIsDirty (s.pagedir q) v := by
  obtain ⟨e, -, -, -, rfl⟩ := userStore_some h
  refine ⟨rfl, fun q v => ?_⟩
  by_cases hq : q = p
  · subst hq
    simp only [update_self, isDirty_insert, true_and]
  · simp [hq]

/-! New mappings. -/

/-- The state in which `handle_mmap` has reopened the file and made an entry for each
    page. -/
def withPages (s : VmState) (p : Tid) (ino addr : Nat) : VmState :=
  (List.range (mapPages (s.inodes ino).length)).foldl (fun t i =>
    supPageEntryCreate t p (mapPage addr i) ⟨none, none, some s.nextFile, pgsize * i⟩)
    { s with files := update s.files s.nextFile ⟨ino, 0⟩, nextFile := s.nextFile + 1 }

theorem handleMmap_eq (h : refused s p ino addr = false) : (handleMmap s p ino addr).1 =
      { withPages s p ino addr with
        mappingList := update s.mappingList p (s.mappingList p ++ [s.nextFile]) } := by
  have hlists := (handleMmap_made h).1
  unfold refused madePages at h
  rw [Bool.or_eq_false_iff, List.any_map] at h
  unfold handleMmap at hlists ⊢
  rw [if_neg (of_decide_eq_false h.1)] at hlists ⊢
  dsimp only at hlists ⊢
  rw [if_neg (by simpa [comp_def] using h.2)] at hlists ⊢
  dsimp only at hlists
  rw [hlists]
  rfl

theorem withPages_lookup (s : VmState) (p : Tid) (ino addr : Nat) (q : Tid) (v : Nat) :
    ((withPages s p ino addr).supPageTable q).lookup v = (s.supPageTable q).lookup v ∨
      (q = p ∧ (s.supPageTable p).lookup v = none ∧
        ∃ i < mapPages (s.inodes ino).length, v = mapPage addr i ∧
          ((withPages s p ino addr).supPageTable p).lookup v =
            some ⟨none, none, some s.nextFile, pgsize * i⟩) := by
  obtain hold | ⟨rfl, hnone, i, hi, hv, hnew⟩ := (createPages_spec p addr s.nextFile
    (List.range (mapPages (s.inodes ino).length)) { s with
      files := update s.files s.nextFile ⟨ino, 0⟩, nextFile := s.nextFile + 1 }).2 q v
  · exact .inl hold
  · exact .inr ⟨rfl, hnone, i, List.mem_range.mp hi, hv, hnew⟩

/-- A page that shows a file did so before, or is one of the file that was mapped. -/
theorem mmap_newPage (h : PageAt (handleMmap s p ino addr).1 q v file pos) : PageAt s q v file pos ∨
      (refused s p ino addr = false ∧ q = p ∧ file = s.nextFile ∧
        (s.supPageTable p).lookup v = none ∧
        ∃ i < mapPages (s.inodes ino).length, v = mapPage addr i ∧ pos = pgsize * i) := by
  obtain ⟨sup, hs, hfile, hpos⟩ := h
  cases href : refused s p ino addr with
  | true =>
    rw [(handleMmap_refused href).2] at hs
    exact .inl ⟨sup, hs, hfile, hpos⟩
  | false =>
    rw [handleMmap_eq href] at hs
    obtain hold | ⟨rfl, hnone, i, hi, rfl, hnew⟩ := withPages_lookup s p ino addr q v
    · exact .inl ⟨sup, hold ▸ hs, hfile, hpos⟩
    · grind

theorem handleMmap_pagedir (s : VmState) (p : Tid) (ino addr : Nat) :
    (handleMmap s p ino addr).1.pagedir = s.pagedir := by
  rw [(handleMmap_spec s p ino addr).1]

/-- **A page shows a file from the `mmap` that made it on.** -/
theorem step_pageAt (h : step s e = some s') (hp : PageAt s' q v file pos) : PageAt s q v file pos ∨
      ∃ ino addr, e = .mmap q ino addr ∧ refused s q ino addr = false ∧ file = s.nextFile ∧
        (s.supPageTable q).lookup v = none ∧
        ∃ i < mapPages (s.inodes ino).length, v = mapPage addr i ∧ pos = pgsize * i := by
  cases he : e.soils with
  | false => exact .inl ((step_settles h he).pageAt hp)
  | true =>
    obtain ⟨-, -, hcase⟩ := step_cases h
    cases hcase with
    | store addr b _ h =>
      rw [PageAt, (userStore_dirty h).1] at hp
      exact .inl hp
    | mmap ino addr hev h =>
      subst h
      obtain hold | ⟨href, rfl, hfile, hnone, hi⟩ := mmap_newPage hp
      · exact .inl hold
      · exact .inr ⟨ino, addr, hev, href, hfile, hnone, hi⟩
    | alloc htake _ => cases e <;> simp [Event.soils, Event.takesFrame] at he htake
    | quiet h => rw [h.soils] at he; cases he
    | unmap file _ hsoils _ _ => rw [hsoils] at he; cases he
    | exit hend _ => cases e <;> simp [Event.soils, Event.ends] at he hend

theorem step_files (h : step s e = some s') :
    s.nextFile ≤ s'.nextFile ∧ ∀ f < s.nextFile, s'.files f = s.files f := by
  have hsame : ∀ {t : VmState}, t.nextFile = s.nextFile → t.files = s.files →
      s.nextFile ≤ t.nextFile ∧ ∀ f < s.nextFile, t.files f = s.files f := by grind
  obtain ⟨-, -, hcase⟩ := step_cases h
  cases hcase with
  | alloc _ h => exact hsame h.rest.nextFile h.rest.files
  | quiet h => rw [h.rest]; exact hsame rfl rfl
  | store addr b _ h => grind [userStore_some]
  | mmap ino addr _ h => grind [handleMmap_files]
  | unmap file _ _ _ h =>
    obtain ⟨t, ht, rfl⟩ := unmapFile_rest h
    exact hsame ht.nextFile ht.files
  | exit _ h =>
    obtain ⟨t, used, mem, nodes, ht, rfl⟩ := processExit_inv
      (I := fun t => t.nextFile = s.nextFile ∧ t.files = s.files) h ⟨rfl, rfl⟩ fun ht hu => by
        obtain ⟨r, hr, rfl⟩ := unmapFile_rest hu
        exact ⟨hr.nextFile.trans ht.1, hr.files.trans ht.2⟩
    exact hsame ht.1 ht.2

theorem step_loaded (h : step s e = some s') :
    s'.loaded = s.loaded ∨ (e = .start e.tid ∧ s'.loaded = update s.loaded e.tid true) := by
  have hunmap : ∀ {t t' : VmState} {p : Tid} {file : Nat}, unmapFile t p file = some t' →
      t'.loaded = t.loaded := by
    intro t t' p file hu
    obtain ⟨r, hr, rfl⟩ := unmapFile_rest hu
    exact hr.loaded
  obtain ⟨-, -, hcase⟩ := step_cases h
  cases hcase with
  | alloc _ h => exact .inl h.rest.loaded
  | quiet h => exact h.loaded
  | store addr b _ h =>
    obtain ⟨pte, -, -, -, rfl⟩ := userStore_some h
    exact .inl rfl
  | mmap ino addr _ h =>
    subst h
    rw [(handleMmap_spec s e.tid ino addr).1]
    exact .inl rfl
  | unmap file _ _ _ h => exact .inl (hunmap h)
  | exit _ h =>
    obtain ⟨t, used, mem, nodes, ht, rfl⟩ := processExit_inv (I := fun t => t.loaded = s.loaded) h
      rfl fun ht hu => (hunmap hu).trans ht
    exact .inl ht

theorem SupInv.step (hinv : SupInv s) (h : Vm.step s e = some s') :
    SupInv s' := by
  have hunmap : ∀ {t t' : VmState} {p : Tid} {file : Nat}, SupInv t →
      unmapFile t p file = some t' → SupInv t' := by
    intro t t' p file ht hu
    obtain ⟨r, hr, hno, rfl⟩ := unmapFile_inv (I := SupInv) hu ht
      (fun _ _ hI => ⟨hI.resident, hI.loading, hI.listed⟩) (fun _ _ _ _ hI _ _ hR => hI.remove hR)
    exact hr.unlisted hno
  obtain ⟨-, hphase, hcase⟩ := step_cases h
  cases hcase.frameCase hphase with
  | alloc _ h =>
    obtain ⟨s₀, k, hroom, -, hop⟩ := h
    exact (hroom.of_evict hinv hinv.evict).pageOp hop
  | quiet _ hsup => exact hsup hinv
  | unmap file _ h => exact hunmap hinv h
  | exit _ h =>
    obtain ⟨t, t', hall, hdestroy, rfl⟩ := processExit_cases h
    have ht : SupInv t := Lib.foldlM_inv _ (fun _ _ _ _ hI hu => hunmap hI hu) hinv hall
    exact ht.destroy hdestroy

theorem SupInv.boot (poolSize : Nat) (mem : Nat → Buf) (inodes : Nat → Inode) (swapDisk : Disk) :
    SupInv (Vm.boot poolSize mem inodes swapDisk) :=
  (TableInv.boot poolSize mem inodes swapDisk).sups

/-! Anonymous pages. -/

/-- The page has an entry, and it is not one of a file. -/
def AnonAt (s : VmState) (p : Tid) (u : Nat) : Prop :=
  ∃ sup, (s.supPageTable p).lookup u = some sup ∧ sup.fileAddress = none

theorem Evict.anonAt (h : Evict s s₀) (ha : AnonAt s p u) :
    AnonAt s₀ p u := by
  obtain ⟨sup, hs, hfile⟩ := ha
  obtain ⟨sup₀, hs₀, -, hfile'⟩ := h.lookup_kept hs
  exact ⟨sup₀, hs₀, hfile'.trans hfile⟩

theorem PageOp.lookup_of_anonAt
    (hop : PageOp s p k c s') (ha : AnonAt s q v) :
    (s'.supPageTable q).lookup v = (s.supPageTable q).lookup v := by
  obtain ⟨sup, hs, hanon⟩ := ha
  rw [hop.lookup_of_anon hs hanon, hs]

theorem PageOp.anonAt
    (hop : PageOp s p k c s') (ha : AnonAt s q v) : AnonAt s' q v := by
  rwa [AnonAt, hop.lookup_of_anonAt ha]

/-- The page and the swap slots are as they were. -/
structure SamePage (s s' : VmState) (p : Tid) (u : Nat) : Prop where
  lookup : (s'.supPageTable p).lookup u = (s.supPageTable p).lookup u
  getPage : pagedirGetPage (s'.pagedir p) u = pagedirGetPage (s.pagedir p) u
  swapTable : s'.swapTable = s.swapTable
  swapDisk : s'.swapDisk = s.swapDisk

theorem SamePage.refl (s : VmState) (p : Tid) (u : Nat) : SamePage s s p u := ⟨rfl, rfl, rfl, rfl⟩

theorem SamePage.trans (h : SamePage s t p u)
    (h' : SamePage t r p u) : SamePage s r p u :=
  ⟨h'.lookup.trans h.lookup, h'.getPage.trans h.getPage, h'.swapTable.trans h.swapTable,
    h'.swapDisk.trans h.swapDisk⟩

theorem SamePage.anonAt (h : SamePage s s' p u)
    (ha : AnonAt s p u) : AnonAt s' p u := by
  rwa [AnonAt, h.lookup]

/-- Removing pages of a file does not touch an anonymous page. -/
theorem unmapFile_samePage
    (h : unmapFile s p file = some s') (ha : AnonAt s q v) :
    SamePage s s' q v := by
  obtain ⟨t, ht, -, rfl⟩ := unmapFile_inv (I := fun t => SamePage s t q v) h (.refl s q v)
    (fun _ _ hI => ⟨hI.lookup, hI.getPage, hI.swapTable, hI.swapDisk⟩) (by
      intro t u sup t' hI hs hfile hR
      have hne : ¬ (q = p ∧ v = u) := by
        rintro ⟨rfl, rfl⟩
        obtain ⟨sup', hs', hfile'⟩ := hI.anonAt ha
        rw [hs] at hs'
        cases hs'
        rw [hfile] at hfile'
        cases hfile'
      have hswap : t'.swapTable = t.swapTable ∧ t'.swapDisk = t.swapDisk := by
        cases hR <;> exact ⟨rfl, rfl⟩
      refine hI.trans ⟨?_, ?_, hswap.1, hswap.2⟩
      · rw [hR.lookup, if_neg hne]
      · rw [hR.getPage, if_neg hne])
  exact ⟨ht.lookup, ht.getPage, ht.swapTable, ht.swapDisk⟩

theorem processExit_samePage (h : processExit s p = some s')
    (ha : AnonAt s q v) (hq : q ≠ p) : SamePage s s' q v := by
  obtain ⟨t, used, mem, nodes, ht, rfl⟩ := processExit_inv (I := fun t => SamePage s t q v) h
    (.refl s q v) fun ht hu => ht.trans (unmapFile_samePage hu (ht.anonAt ha))
  exact ht.trans ⟨rfl, by simp [hq], rfl, rfl⟩

theorem step_anonAt (h : step s e = some s')
    (ha : AnonAt s q v) : AnonAt s' q v := by
  obtain ⟨-, -, hcase⟩ := step_cases h
  cases hcase with
  | alloc _ h =>
    obtain ⟨s₀, k, hroom, -, hop⟩ := h
    apply hop.anonAt
    cases hroom with
    | free => exact ha
    | evict _ hev => exact (evictFront_cases hev).anonAt ha
  | quiet h => rw [h.rest]; exact ha
  | store addr b _ h => rw [AnonAt, (userStore_dirty h).1]; exact ha
  | mmap ino addr _ h =>
    subst h
    obtain ⟨sup, hs, hfile⟩ := ha
    obtain hold | ⟨rfl, hnone, -⟩ := (handleMmap_spec s e.tid ino addr).2.2 q v
    · exact ⟨sup, hold ▸ hs, hfile⟩
    · exact absurd (hs.symm.trans hnone) (by simp)
  | unmap file _ _ _ h => exact (unmapFile_samePage h ha).anonAt ha
  | exit _ h =>
    obtain ⟨t, used, mem, nodes, ht, rfl⟩ := processExit_inv (I := fun t => AnonAt t q v) h ha
      fun ht hu => (unmapFile_samePage hu ht).anonAt ht
    exact ht

/-! Permissions. -/

/-- Whether a page that is present may be written. -/
def writableAt (pd : Pagedir) (upage : Nat) : Option Bool :=
  match pd.lookup upage with
  | some e => if e.present then some e.writable else none
  | none => none

theorem writableAt_eq_some {pd : Pagedir} : writableAt pd u = some w ↔
    ∃ e, pd.lookup u = some e ∧ e.present = true ∧ e.writable = w := by
  unfold writableAt
  cases he : pd.lookup u with
  | none => simp
  | some e => by_cases hp : e.present = true <;> simp [hp]

theorem writableAt_insert (pd : Pagedir) (u v : Nat) (e : Pte) :
    writableAt (pd.insert u e) v =
      if v = u then (if e.present then some e.writable else none) else writableAt pd v := by
  unfold writableAt
  by_cases h : v = u
  · subst h; simp
  · simp [h]

theorem writableAt_clearPresent (pd : Pagedir) (u v : Nat) :
    writableAt (clearPresent pd u) v = if v = u then none else writableAt pd v := by
  unfold clearPresent
  split
  · grind [writableAt_insert, writableAt]
  · grind [writableAt]

/-- The page, if any, is the one of `p` at `u`, and is installed with the permission
    `w`; the others have theirs, or are no longer present. -/
def Permits (s s' : VmState) (p : Tid) (u : Nat) (w : Bool) : Prop :=
  ∀ q v w', writableAt (s'.pagedir q) v = some w' →
    writableAt (s.pagedir q) v = some w' ∨ (q = p ∧ v = u ∧ w' = w)

theorem mapFrame_writableAt (s : VmState) (p : Tid) (u k : Nat) (w : Bool) (q : Tid) (v : Nat) :
    writableAt ((mapFrame s p u k w).pagedir q) v =
      if q = p ∧ v = u then some w else writableAt (s.pagedir q) v := by
  unfold mapFrame
  by_cases hq : q = p
  · grind [writableAt_insert]
  · simp [hq]

theorem Permits.of_eq (h : s'.pagedir = s.pagedir) (p : Tid) (u : Nat)
    (w : Bool) : Permits s s' p u w := by
  intro q v w' hw
  rw [h] at hw
  exact .inl hw

theorem permits_mapFrame (s : VmState) (p : Tid) (u k : Nat) (w : Bool) :
    Permits s (mapFrame s p u k w) p u w := by
  intro q v w' h
  rw [mapFrame_writableAt] at h
  split at h
  · next hqv => exact .inr ⟨hqv.1, hqv.2, (Option.some.inj h).symm⟩
  · exact .inl h

theorem Permits.trans (h : Permits s t p u w)
    (h' : Permits t r p u w) : Permits s r p u w := by
  intro q v w' hw
  obtain hold | hnew := h' q v w' hw
  · exact h q v w' hold
  · exact .inr hnew

/-- What is done before the page is installed does not matter. -/
theorem Permits.after (h : Permits t r p u w)
    (ht : t.pagedir = s.pagedir) : Permits s r p u w := by
  intro q v w' hw
  rw [← ht]
  exact h q v w' hw

theorem Evict.permits (h : Evict s s₀) (p : Tid) (u : Nat) (w : Bool) :
    Permits s s₀ p u w := by
  intro q v w' hw
  obtain ⟨f, rest, u', sup, -, heq⟩ := h.core
  rw [heq] at hw
  left
  by_cases hq : q = f.usingThread
  · subst hq
    simp only [evicted, update_self, writableAt_clearPresent] at hw
    split at hw
    · cases hw
    · exact hw
  · simpa [evicted, hq] using hw

theorem Room.permits (h : Room s s₀) (p : Tid) (u : Nat) (w : Bool) :
    Permits s s₀ p u w := by
  cases h with
  | free => exact .of_eq rfl p u w
  | evict _ hev => exact (evictFront_cases hev).permits p u w

theorem frameTableAllocator_permits {s₁ : VmState} {zero : Bool}
    (h : frameTableAllocator s p zero = some (s₁, k)) (u : Nat) (w : Bool) :
    Permits s s₁ p u w := by
  obtain ⟨s₀, hroom, -, rfl⟩ := frameTableAllocator_cases h
  exact (hroom.permits p u w).trans (.of_eq rfl p u w)

theorem frameTableFree_permits {page : Option Nat}
    (h : frameTableFree s page = some s') (p : Tid) (u : Nat) (w : Bool) : Permits s s' p u w := by
  obtain ⟨rfl, -⟩ | ⟨k', -, -, -, -, rfl⟩ := frameTableFree_cases h
  · exact .of_eq rfl p u w
  · exact .of_eq rfl p u w

theorem pagedirSetPage_permits
    (h : pagedirSetPage s p u k w ptOk = some (s', ok)) : Permits s s' p u w := by
  obtain ⟨-, -, ⟨-, rfl⟩ | ⟨-, rfl⟩⟩ := pagedirSetPage_cases h
  · exact permits_mapFrame s p u k w
  · exact .of_eq rfl p u w

theorem installPage_permits
    (h : installPage s p u k w ptOk = some (s', ok)) : Permits s s' p u w := by
  unfold installPage at h
  split at h
  · grind [Option.map_eq_some_iff, frameTableFree_permits]
  · rw [Option.bind_eq_some_iff] at h
    obtain ⟨⟨s₁, ok₁⟩, hset, h⟩ := h
    have hset' := pagedirSetPage_permits hset
    dsimp only at h
    split at h
    · cases h
      exact hset'.trans (.of_eq (by rw [supPageEntryCreate_eq]) p u w)
    · grind [Option.map_eq_some_iff, hset'.trans, frameTableFree_permits]

theorem loadPage_permits {offset readBytes : Nat}
    (h : loadPage s p ino offset readBytes u w ptOk = some (s', ok)) : Permits s s' p u w := by
  rw [loadPage, Option.bind_eq_some_iff] at h
  obtain ⟨⟨s₁, k⟩, ha, h⟩ := h
  have ha' := frameTableAllocator_permits ha u w
  dsimp only at h
  split at h
  · exact ha'.trans ((installPage_permits h).after rfl)
  · grind [Option.map_eq_some_iff, ha'.trans, frameTableFree_permits]

theorem setupStack_permits
    (h : setupStack s p ptOk = some (s', ok)) : Permits s s' p (physBase - pgsize) true := by
  rw [setupStack, Option.bind_eq_some_iff] at h
  obtain ⟨⟨s₁, k⟩, ha, h⟩ := h
  exact (frameTableAllocator_permits ha _ _).trans (installPage_permits h)

theorem growStack_permits (h : growStack s p u write ptOk = some s') : Permits s s' p u write := by
  rw [growStack, Option.bind_eq_some_iff] at h
  obtain ⟨⟨s₁, k⟩, ha, h⟩ := h
  rw [Option.map_eq_some_iff] at h
  obtain ⟨⟨t, ok⟩, hset, rfl⟩ := h
  refine (frameTableAllocator_permits ha u write).trans ((pagedirSetPage_permits hset).after ?_)
  rw [supPageEntryCreate_eq]

theorem swapIn_permits
    (h : swapIn s p u w = some s') : Permits s s' p u w := by
  simp only [swapIn, Option.bind_eq_some_iff, Option.map_eq_some_iff] at h
  obtain ⟨⟨s₁, k⟩, ha, sup, -, i, -, se, -, page, -, ⟨t, ok⟩, hset, rfl⟩ := h
  exact (frameTableAllocator_permits ha u w).trans ((pagedirSetPage_permits hset).after rfl)

theorem fileIn_permits
    (h : fileIn s p u file w ptOk = some s') : Permits s s' p u w := by
  simp only [fileIn, Option.bind_eq_some_iff, Option.map_eq_some_iff] at h
  obtain ⟨⟨s₁, k⟩, ha, ⟨t, ok⟩, hset, sup, -, rfl⟩ := h
  exact (frameTableAllocator_permits ha u w).trans
    ((pagedirSetPage_permits hset).trans (.of_eq rfl p u w))

/-- The page an event may install, and the permission it gets. `load_segment` and
    `setup_stack_arg` know what they want; `page_fault` goes by the fault: a page that is
    brought in is writable, one that the stack grows by only if the access was a write. -/
def Event.installs (s : VmState) (v : Nat) (w : Bool) : Event → Prop
  | .loadPage _ _ _ _ upage writable _ => v = upage ∧ w = writable
  | .setupStack _ _ => v = physBase - pgsize ∧ w = true
  | .fault p addr esp write _ => killed s p addr esp = false ∧ v = pgRoundDown addr ∧
      w = (if isStackGrowth s p addr esp then write else true)
  | _ => False

theorem pageFault_permits {esp : Nat} (h : pageFault s p addr esp write ptOk = some s')
    (hk : killed s p addr esp = false) :
    Permits s s' p (pgRoundDown addr) (if isStackGrowth s p addr esp then write else true) := by
  unfold pageFault at h
  split at h
  · next hg => rw [if_pos hg]; exact growStack_permits h
  · next hg =>
    rw [if_neg hg]
    dsimp only at h
    split at h
    · grind [killed, swapIn_permits, fileIn_permits]
    · next hnone => exact absurd hk (by simp [killed, hg, hnone])

theorem unmapFile_writableAt
    (h : unmapFile s p file = some s')
    (hw : writableAt (s'.pagedir q) v = some w) : writableAt (s.pagedir q) v = some w := by
  obtain ⟨t, ht, -, rfl⟩ := unmapFile_inv (I := fun t => ∀ q v w,
      writableAt (t.pagedir q) v = some w → writableAt (s.pagedir q) v = some w)
    h (fun _ _ _ => id) (fun _ _ hI => hI) (by
      intro t u sup t' hI _ _ hR q v w hw
      have hclear : t'.pagedir =
          update t.pagedir p (clearPresent (t.pagedir p) u) := by cases hR <;> rfl
      apply hI q v w
      rw [hclear] at hw
      by_cases hq : q = p
      · grind [writableAt_clearPresent]
      · rwa [update_of_ne hq] at hw)
  exact ht q v w hw

theorem processExit_writableAt (h : processExit s p = some s')
    (hw : writableAt (s'.pagedir q) v = some w) :
    writableAt (s.pagedir q) v = some w := by
  obtain ⟨t, used, mem, nodes, ht, rfl⟩ := processExit_inv
    (I := fun t => ∀ w, writableAt (t.pagedir q) v = some w → writableAt (s.pagedir q) v = some w)
    h (fun _ => id) fun ht hu w hw => ht w (unmapFile_writableAt hu hw)
  apply ht
  by_cases hq : q = p
  · subst hq
    simp [writableAt] at hw
  · simpa [hq] using hw

theorem userStore_writableAt {addr : Nat} {b : Byte} (h : userStore s p addr b = some s')
    (hw : writableAt (s'.pagedir q) v = some w) : writableAt (s.pagedir q) v = some w := by
  obtain ⟨pte, he, hpres, -, rfl⟩ := userStore_some h
  dsimp only at hw
  by_cases hq : q = p
  · subst hq
    rw [update_self, writableAt_insert] at hw
    split at hw
    · next hv =>
      subst hv
      exact writableAt_eq_some.mpr ⟨pte, he, hpres, Option.some.inj hw⟩
    · exact hw
  · rwa [update_of_ne hq] at hw

/-- The steps that install a page do so with the permission of the segment, the stack or
    the access. -/
theorem step_installs (h : step s e = some s') (htake : e.takesFrame s = true)
    (hw : writableAt (s'.pagedir q) v = some w) :
    writableAt (s.pagedir q) v = some w ∨ (q = e.tid ∧ e.installs s v w) := by
  rw [step, Option.ite_none_right_eq_some] at h
  obtain ⟨-, h⟩ := h
  cases e with
  | loadPage p ino offset readBytes u wr ptOk =>
    obtain ⟨⟨t, ok⟩, ht, rfl⟩ := Option.map_eq_some_iff.mp h
    exact loadPage_permits ht q v w hw
  | setupStack p ptOk =>
    obtain ⟨⟨t, ok⟩, ht, rfl⟩ := Option.map_eq_some_iff.mp h
    exact setupStack_permits ht q v w hw
  | fault p addr esp write ptOk =>
    rw [Event.apply, Option.ite_none_right_eq_some] at h
    have hkill : killed s p addr esp = false := by simpa [Event.takesFrame] using htake
    obtain hold | ⟨hq, hv, hw'⟩ := pageFault_permits h.2 hkill q v w hw
    · exact .inl hold
    · exact .inr ⟨hq, hkill, hv, hw'⟩
  | _ => cases htake

/-- **A page that is present has the permission it was installed with.** -/
theorem step_writableAt (h : step s e = some s')
    (hw : writableAt (s'.pagedir q) v = some w) :
    writableAt (s.pagedir q) v = some w ∨ (q = e.tid ∧ e.installs s v w) := by
  obtain ⟨-, -, hcase⟩ := step_cases h
  cases hcase with
  | alloc htake _ => exact step_installs h htake hw
  | quiet hq =>
    rw [hq.rest] at hw
    exact .inl hw
  | store addr b _ hst => exact .inl (userStore_writableAt hst hw)
  | mmap ino addr _ hs =>
    rw [hs, handleMmap_pagedir] at hw
    exact .inl hw
  | unmap file _ _ _ hu => exact .inl (unmapFile_writableAt hu hw)
  | exit _ hexit => exact .inl (processExit_writableAt hexit hw)

end Pintos.Vm
