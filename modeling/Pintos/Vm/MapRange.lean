import Pintos.Vm.Pages

/- The pages a mapping takes.

   `handle_mmap` adds multiples of the page size to the address it is given, up to the
   length of the file. It checks that the address is aligned and not null, and that no
   page of the range has an entry; nothing compares the range with `PHYS_BASE`, or with
   the end of the address space. The entries it makes for kernel pages show later, as
   failed assertions of `pagedir.c` (`mapsKernelPage`). -/
namespace Pintos.Vm

variable {addr cnt ino i u : Nat} {s : VmState} {p : Tid}

/-- A mapping that is made of user pages: they are distinct, not null and below
    `PHYS_BASE`. From then on, whatever happens, no page of the mapping fails the
    assertions of `pagedir_clear_page` and `pagedir_set_page`. -/
structure MapsUserPages (s : VmState) (p : Tid) (ino addr : Nat) : Prop where
  distinct : (madePages addr (s.inodes ino).length).Nodup
  notNull : 0 ∉ madePages addr (s.inodes ino).length
  below : ∀ u ∈ madePages addr (s.inodes ino).length, u < physBase
  asserts : ∀ t, Lib.Reach step Lib.anyStep (handleMmap s p ino addr).1 t →
    ∀ u pos, PageAt t p u s.nextFile pos → pagedirClearPage t p u ≠ none ∧
      ∀ k w ptOk, pagedirGetPage (t.pagedir p) u = none → pagedirSetPage t p u k w ptOk ≠ none

theorem pageAt_lt_nextFile {poolSize : Nat} {mem : Nat → Buf} {inodes : Nat → Inode}
    {swapDisk : Disk} (hreach : Lib.Reach step Lib.anyStep (boot poolSize mem inodes swapDisk) s)
    {file pos : Nat} (hp : PageAt s p u file pos) : file < s.nextFile := by
  refine hreach.inv (I := fun s => ∀ p u file pos, PageAt s p u file pos → file < s.nextFile)
    ?_ ?_ p u file pos hp
  · rintro p u file pos ⟨sup, hs, -⟩
    simp [boot] at hs
  · intro t e t' hI _ h p u file pos hp
    have hle := (step_files h).1
    obtain hold | ⟨ino, addr, rfl, href, rfl, -⟩ := step_pageAt h hp
    · exact Nat.lt_of_lt_of_le (hI p u file pos hold) hle
    · -- the new mapping's file is counted
      obtain ⟨-, -, hcase⟩ := step_cases h
      have ht' : t' = (handleMmap t p ino addr).1 := by
        cases hcase with
        | mmap ino addr hev h => cases hev; exact h
        | alloc htake _ => cases htake
        | quiet h => cases h.soils
        | store addr b hev _ => cases hev
        | unmap file _ hsoils _ _ => cases hsoils
        | exit hend _ => cases hend
      rw [ht', (handleMmap_made href).2.1]
      exact Nat.lt_succ_self _

/-- The pages of a file that has been mapped stay among those it was mapped to. -/
theorem pageAt_of_made {t : VmState} (hfresh : ∀ q u pos, ¬ PageAt s q u s.nextFile pos)
    (href : refused s p ino addr = false)
    (hreach : Lib.Reach step Lib.anyStep (handleMmap s p ino addr).1 t) {q : Tid} {pos : Nat}
    (hp : PageAt t q u s.nextFile pos) : q = p ∧
      ∃ i < mapPages (s.inodes ino).length, u = mapPage addr i ∧ pos = pgsize * i := by
  have hkept := hreach.inv (I := fun t => s.nextFile < t.nextFile ∧ ∀ q u pos,
    PageAt t q u s.nextFile pos → q = p ∧
      ∃ i < mapPages (s.inodes ino).length, u = mapPage addr i ∧ pos = pgsize * i) ?_ ?_
  · exact hkept.2 q u pos hp
  · refine ⟨by rw [(handleMmap_made href).2.1]; exact Nat.lt_succ_self _, fun q u pos hp => ?_⟩
    obtain hold | ⟨-, hq, -, -, hi⟩ := mmap_newPage hp
    · exact absurd hold (hfresh q u pos)
    · exact ⟨hq, hi⟩
  · rintro r e r' ⟨hlt, hI⟩ _ h
    refine ⟨Nat.lt_of_lt_of_le hlt (step_files h).1, fun q u pos hp => ?_⟩
    obtain hold | ⟨-, -, -, -, heq, -⟩ := step_pageAt h hp
    · exact hI q u pos hold
    · exact absurd heq (Nat.ne_of_lt hlt)

theorem refused_addr (h : refused s p ino addr = false) : addr ≠ 0 ∧ addr % 4096 = 0 := by
  rw [refused, Bool.or_eq_false_iff] at h
  have haddr := of_decide_eq_false h.1
  rw [not_or, not_not, pgRoundDown, show pgsize = 4096 from rfl] at haddr
  refine ⟨haddr.1, ?_⟩
  have := Nat.mod_le addr 4096
  omega

theorem mapPage_below (h : addr + pgsize * cnt ≤ physBase) (hi : i < cnt) :
    mapPage addr i = addr + 4096 * i := by
  rw [show pgsize = 4096 from rfl, show physBase = 0xc0000000 from rfl] at h
  rw [mapPage, show pgsize = 4096 from rfl, show wordSize = 0x100000000 from rfl]
  omega

theorem mapPage_user (hmod : addr % 4096 = 0) (h : addr + pgsize * cnt ≤ physBase) (hi : i < cnt) :
    isUserPage (mapPage addr i) = true := by
  rw [mapPage_below h hi]
  rw [show pgsize = 4096 from rfl, show physBase = 0xc0000000 from rfl] at h
  apply isUserPage_iff.mpr
  omega

theorem mapPage_kernel (haddr : addr < wordSize) (hmod : addr % 4096 = 0) (hcnt : 0 < cnt)
    (h : physBase < addr + pgsize * cnt) : ∃ i < cnt, physBase ≤ mapPage addr i := by
  rw [show pgsize = 4096 from rfl, show physBase = 0xc0000000 from rfl] at h
  rw [show wordSize = 0x100000000 from rfl] at haddr
  by_cases hlow : addr < 0xc0000000
  · refine ⟨(0xc0000000 - addr) / 4096, by omega, ?_⟩
    rw [mapPage, show pgsize = 4096 from rfl, show wordSize = 0x100000000 from rfl,
      show physBase = 0xc0000000 from rfl]
    omega
  · refine ⟨0, hcnt, ?_⟩
    rw [mapPage, show wordSize = 0x100000000 from rfl, show physBase = 0xc0000000 from rfl]
    omega

/-- **When a mapping is made of user pages.** For every state of every run, every address
    and every file that `handle_mmap` accepts: the pages are distinct user pages, and the
    assertions about them hold ever after, if and only if the file is empty or the range
    ends at `PHYS_BASE` or below. -/
theorem mapsUserPages_iff {poolSize : Nat} {mem : Nat → Buf} {inodes : Nat → Inode}
    {swapDisk : Disk} {s : VmState} {p : Tid} {ino addr : Nat}
    (hreach : Lib.Reach step Lib.anyStep (boot poolSize mem inodes swapDisk) s)
    (haddr : addr < wordSize) (haccept : (handleMmap s p ino addr).2 ≠ none) :
    MapsUserPages s p ino addr ↔ mapPages (s.inodes ino).length = 0 ∨
      addr + pgsize * mapPages (s.inodes ino).length ≤ physBase := by
  have href : refused s p ino addr = false := by
    rw [Ne, refused_iff] at haccept
    simpa using haccept
  obtain ⟨hnull, hmod⟩ := refused_addr href
  constructor
  · intro h
    by_contra hno
    rw [not_or] at hno
    obtain ⟨i, hi, hkernel⟩ := mapPage_kernel haddr hmod (Nat.pos_of_ne_zero hno.1) (by omega)
    have hbelow := h.below _ (List.mem_map.mpr ⟨i, List.mem_range.mpr hi, rfl⟩)
    omega
  · intro h
    have hrange : ∀ i < mapPages (s.inodes ino).length,
        addr + pgsize * mapPages (s.inodes ino).length ≤ physBase := by grind
    have huser : ∀ u ∈ madePages addr (s.inodes ino).length, isUserPage u = true := by
      intro u hu
      obtain ⟨i, hi, rfl⟩ := List.mem_map.mp hu
      have hi := List.mem_range.mp hi
      exact mapPage_user hmod (hrange i hi) hi
    refine ⟨?_, ?_, fun u hu => (isUserPage_iff.mp (huser u hu)).2, ?_⟩
    · -- distinct offsets give distinct pages
      refine List.Nodup.map_on ?_ List.nodup_range
      intro i hi j hj hij
      have hi := List.mem_range.mp hi
      have hj := List.mem_range.mp hj
      rw [mapPage_below (hrange i hi) hi, mapPage_below (hrange j hj) hj] at hij
      omega
    · intro hzero
      obtain ⟨i, hi, hi0⟩ := List.mem_map.mp hzero
      have hi := List.mem_range.mp hi
      rw [mapPage_below (hrange i hi) hi] at hi0
      omega
    · intro t ht u pos hp
      have hfresh : ∀ q u pos, ¬ PageAt s q u s.nextFile pos := fun q u pos hq =>
        Nat.lt_irrefl _ (pageAt_lt_nextFile hreach hq)
      obtain ⟨-, i, hi, rfl, -⟩ := pageAt_of_made hfresh href ht hp
      have hu : isUserPage (mapPage addr i) = true := mapPage_user hmod (hrange i hi) hi
      constructor
      · rw [pagedirClearPage, if_pos hu]
        simp
      · grind [pagedirSetPage]

/-- A file of three bytes, mapped at a user page. -/
theorem mapsUserPages_iff_user : ∃ s, Lib.Reach step Lib.anyStep (fileMachine 1) s ∧
    (handleMmap s 1 5 0x1000).2 = some 0 ∧ MapsUserPages s 1 5 0x1000 := by
  obtain ⟨s, hs, hq⟩ := Lib.exists_reach (C := Lib.anyStep) (c := fun _ _ => true) step
    (fileMachine 1) [.start 1]
    (fun s => (handleMmap s 1 5 0x1000).2 == some 0 && decide ((s.inodes 5).length = 3))
    (fun _ _ _ => trivial) (by decide) (by decide)
  simp only [Bool.and_eq_true, beq_iff_eq, decide_eq_true_eq] at hq
  obtain ⟨hid, hlen⟩ := hq
  have hiff := mapsUserPages_iff hs (by decide) (by rw [hid]; simp : (handleMmap s 1 5 0x1000).2 ≠ none)
  exact ⟨s, hs, hid, hiff.mpr (.inr (by rw [hlen]; decide))⟩

/-- The same file is mapped at the first kernel page: `mmap` accepts, and `munmap` fails
    the assertion. -/
theorem mapsKernelPage : ∃ s s', Lib.Reach step Lib.anyStep (fileMachine 1) s ∧
    (handleMmap s 1 5 physBase).2 = some 0 ∧ ¬ MapsUserPages s 1 5 physBase ∧
    step s (.mmap 1 5 physBase) = some s' ∧ (Event.munmap 1 0).removes s' = [0] ∧
    step s' (.munmap 1 0) = none := by
  obtain ⟨s, hs, hq⟩ := Lib.exists_reach (C := Lib.anyStep) (c := fun _ _ => true) step
    (fileMachine 1) [.start 1]
    (fun s => (handleMmap s 1 5 physBase).2 == some 0 &&
      (madePages physBase (s.inodes 5).length).contains physBase &&
      (step s (.mmap 1 5 physBase)).any fun s' => (Event.munmap 1 0).removes s' == [0] &&
        (step s' (.munmap 1 0)).isNone)
    (fun _ _ _ => trivial) (by decide) (by decide)
  simp only [Bool.and_eq_true, beq_iff_eq, List.contains_iff_mem, Option.any_eq_true,
    Option.isNone_iff_eq_none] at hq
  obtain ⟨⟨hid, hmem⟩, s', hs', hrem, hnone⟩ := hq
  refine ⟨s, s', hs, hid, fun h => ?_, hs', hrem, hnone⟩
  exact Nat.lt_irrefl _ (h.below physBase hmem)

end Pintos.Vm
