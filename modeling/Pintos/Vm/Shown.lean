import Pintos.Vm.Clean
import Pintos.Vm.MapRange

/- What a mapping shows.

   A page of a mapping is read from the file into a zeroed frame when it is touched, so
   it shows the bytes of the file and, after its end, zeros; a clean page that is evicted
   is dropped and read again. `Shown` is what holds of a mapping of a file that nobody
   writes to, through any loads and evictions (`mapping_shows`).

   That a page keeps its frame rests on the frame table. `OwnFrames` is what is needed of
   it: an entry names a frame that is in use, once, and the page that is in it. The
   entries of processes that have exited break this. They stay in the table, and
   `frame_table_free` and `frame_entry_set_pte` take the first entry of a frame, which may
   be theirs: then the frame of a mapping is freed under it, and it shows another file
   (`mapping_shows_other`). -/
namespace Pintos.Vm

open Function

variable {k u file : Nat} {s s' t : VmState} {p : Tid} {c : Option Nat} {e : Event} {b : Byte}

/-! Frames. -/

/-- Every entry of the frame table names a frame in use, and no two the same one; an entry
    that has a page is of a live process that maps the page to the frame; and every page
    that is present has its entry. -/
structure OwnFrames (s : VmState) : Prop where
  frames : FrameInv s
  held : ∀ f ∈ s.frameTable, Held s f
  owners : ∀ f ∈ s.frameTable, f.upage ≠ none → s.exited f.usingThread = false
  backed : Backed s

theorem TableInv.framesListed (h : TableInv s) (p : Tid) : FramesListed s p := by
  intro u sup k _ _ _
  constructor
  · have hcount := List.nodup_iff_count_le_one.mp h.frames.distinct k
    rw [List.count_eq_countP, List.countP_map] at hcount
    exact hcount
  · intro hnamed
    simp only [Unnamed, not_forall, not_not] at hnamed
    obtain ⟨f, hf, rfl⟩ := hnamed
    exact h.held f hf

/-! Mappings that nobody writes to. -/

/-- The byte a mapping of a file of length `n` with the bytes `d` shows at an offset. -/
def shownByte (n : Nat) (d : Buf) (o : Nat) : Byte := if o < n then d o else 0

/-- The steps among which nothing is written to the file or through the mapping `target`
    of it: accesses to other pages, faults and loading, with the evictions they make, and
    new mappings. Nothing is unmapped, and no process ends. -/
structure Undisturbed (target : Nat) (s : VmState) (e : Event) : Prop where
  goesOn : e.ends s = false ∧ ∀ p mapping, e ≠ .munmap p mapping
  notThrough : ∀ p addr b, e = .store p addr b → shows s p (pgRoundDown addr) target = false
  /-- No page that is written back is one of another mapping of the file. -/
  notBack : e.takesFrame s = true → PoolFull s → ∀ f rest u sup file, Victim s f rest u sup →
    sup.fileAddress = some file → file ≠ target →
    (s.files file).inode = (s.files target).inode →
    pagedirIsDirty (s.pagedir f.usingThread) u = false
  /-- `inode_read_at` gets the buffer for the last sector of the file. -/
  reads : e.takesFrame s = true → s.readBounce target = true

/-- The mapping `target` of `p` at `addr`, of a file of length `n` with the bytes `d`. -/
structure Shown (p : Tid) (ino addr n : Nat) (d : Buf) (target : Nat) (s : VmState) : Prop where
  table : TableInv s
  backed : Backed s
  live : s.exited p = false
  loaded : s.loaded p = true
  opened : target < s.nextFile
  inode : (s.files target).inode = ino
  length : (s.inodes ino).length = n
  data : (s.inodes ino).data = d
  page : ∀ q u pos, PageAt s q u target pos ↔
    q = p ∧ ∃ i < mapPages n, u = addr + 4096 * i ∧ pos = 4096 * i
  bytes : ∀ u pos k, PageAt s p u target pos → pagedirGetPage (s.pagedir p) u = some k →
    pagedirIsDirty (s.pagedir p) u = false ∧ ∀ o < pgsize, s.mem k o = shownByte n d (pos + o)

theorem filePage_shown (hread : s.readBounce file = true) {pos o : Nat} (ho : o < pgsize) :
    filePage s file pos o = shownByte (s.inodes (s.files file).inode).length
      (s.inodes (s.files file).inode).data (pos + o) := by
  rw [filePage, inodeReadAt, hread, Inode.moved, if_pos rfl, shownByte]
  by_cases hlt : pos + o < (s.inodes (s.files file).inode).length
  · rw [if_pos (by omega), if_pos hlt]
  · rw [if_neg (by omega), if_neg hlt]

section
variable {p q : Tid} {ino addr n target : Nat} {d : Buf} {s s' : VmState}

section
variable (h : Shown p ino addr n d target s)
include h

/-- What is needed of a step that leaves the mapping's pages and the file as they are. -/
theorem Shown.next (htable : TableInv s') (hbacked : Backed s') (hlive : s'.exited p = s.exited p)
    (hload : s'.loaded p = s.loaded p) (hnext : s.nextFile ≤ s'.nextFile)
    (hfile : s'.files target = s.files target)
    (hino : (s'.inodes ino).length = (s.inodes ino).length ∧
      (s'.inodes ino).data = (s.inodes ino).data)
    (hat : ∀ q u pos, PageAt s' q u target pos ↔ PageAt s q u target pos)
    (hbytes : ∀ u pos k, PageAt s p u target pos → pagedirGetPage (s'.pagedir p) u = some k →
      pagedirIsDirty (s'.pagedir p) u = false ∧
        ∀ o < pgsize, s'.mem k o = shownByte n d (pos + o)) : Shown p ino addr n d target s' where
  table := htable
  backed := hbacked
  live := hlive.trans h.live
  loaded := hload.trans h.loaded
  opened := Nat.lt_of_lt_of_le h.opened hnext
  inode := by rw [hfile]; exact h.inode
  length := hino.1.trans h.length
  data := hino.2.trans h.data
  page := fun q u pos => (hat q u pos).trans (h.page q u pos)
  bytes := fun u pos k hp => hbytes u pos k ((hat ..).mp hp)

/-- A step that takes and frees no frame. -/
theorem Shown.same (htable : TableInv s') (hf : SameFrames s s') (hload : s'.loaded p = s.loaded p)
    (hnext : s.nextFile ≤ s'.nextFile) (hfile : s'.files target = s.files target)
    (hino : (s'.inodes ino).length = (s.inodes ino).length ∧
      (s'.inodes ino).data = (s.inodes ino).data)
    (hat : ∀ q u pos, PageAt s' q u target pos ↔ PageAt s q u target pos)
    (hdirty : ∀ u pos, PageAt s p u target pos →
      pagedirIsDirty (s'.pagedir p) u = pagedirIsDirty (s.pagedir p) u)
    (hmem : ∀ u pos k, PageAt s p u target pos → pagedirGetPage (s.pagedir p) u = some k →
      s'.mem k = s.mem k) : Shown p ino addr n d target s' := by
  refine h.next htable (h.backed.same hf) (congrFun hf.exited p) hload hnext hfile hino hat
    fun u pos k hp hk => ?_
  rw [hf.getPage] at hk
  rw [hdirty u pos hp, hmem u pos k hp hk]
  exact h.bytes u pos k hp hk

/-- A victim that is a page of the mapping is clean, so nothing is written. -/
theorem Shown.evict (hev : Evict s s')
    (hback : ∀ f rest u sup file, Victim s f rest u sup → sup.fileAddress = some file →
      file ≠ target → (s.files file).inode = (s.files target).inode →
      pagedirIsDirty (s.pagedir f.usingThread) u = false) : Shown p ino addr n d target s' := by
  have hrest := hev.rest
  have hino : s'.inodes ino = s.inodes ino := by
    obtain ⟨f, rest, u, sup, hv, -, ⟨hsame, -⟩ | ⟨file, hfile, hdirty, hnodes⟩⟩ := hev.written
    · rw [hsame]
    · rw [hnodes]
      refine update_of_ne (fun hi => ?_) ..
      by_cases hft : file = target
      · subst hft
        have hp : PageAt s f.usingThread u file sup.filePos := ⟨sup, hv.sup, hfile, rfl⟩
        have hpage := h.table.frames.victim hv
        obtain ⟨hq, -⟩ := (h.page ..).mp hp
        rw [hq] at hp hpage hdirty
        rw [(h.bytes u _ _ hp hpage).1] at hdirty
        cases hdirty
      · rw [hback f rest u sup file hv hfile hft (hi.symm.trans h.inode.symm)] at hdirty
        cases hdirty
  refine h.next (h.table.evict hev) (h.backed.evict hev) (congrFun hrest.exited p)
    (congrFun hrest.loaded p) (Nat.le_of_eq hrest.nextFile.symm) (congrFun hrest.files target)
    (by rw [hino]; exact ⟨rfl, rfl⟩) (fun q v pos => pageAt_congr (hev.lookup_sup q v))
    fun v pos k hp hk => ?_
  rw [hev.isDirty, hev.mem_eq h.table.frames h.backed hk]
  exact h.bytes v pos k hp (hev.getPage_some hk)

/-- A page of the mapping that is installed has been read from the file. -/
theorem Shown.pageOp (hlive : s.exited q = false) (hread : s.readBounce target = true)
    (hfree : FirstFree s k) (hop : PageOp s q k c s') : Shown p ino addr n d target s' := by
  obtain ⟨hrest, hnodes⟩ := hop.rest
  obtain ⟨hmem, hcases⟩ := hop.fills
  have hold : ∀ {v pos j}, PageAt s p v target pos → pagedirGetPage (s.pagedir p) v = some j →
      pagedirIsDirty (s.pagedir p) v = false ∧
        ∀ o < pgsize, s'.mem j o = shownByte n d (pos + o) := by
    intro v pos j hp hj
    have hne : j ≠ k := by
      rintro rfl
      exact h.table.unnamed hfree.2.1 _ (h.backed p v j hj) rfl
    rw [hmem j hne]
    exact h.bytes v pos j hp hj
  refine h.next (h.table.pageOp hlive hfree hop)
    (h.backed.pageOp hfree (h.table.unnamed hfree.2.1) hop) (congrFun hrest.exited p)
    (congrFun hrest.loaded p) (Nat.le_of_eq hrest.nextFile.symm) (congrFun hrest.files target)
    (by rw [hnodes]; exact ⟨rfl, rfl⟩) (fun r v pos => hop.pageAt r v target pos)
    fun v pos j hp hj => ?_
  rcases hcases with hpd | ⟨u, w, -, hpd, hbrought⟩
  · rw [hpd] at hj ⊢
    exact hold hp hj
  · rw [hpd, mapFrame_getPage] at hj
    rw [hpd, mapFrame_isDirty]
    split at hj
    · next hpu =>
      obtain ⟨rfl, rfl⟩ := hpu
      cases hj
      rw [if_pos ⟨rfl, rfl⟩, hbrought.filePage_eq hp h.loaded]
      refine ⟨rfl, fun o ho => ?_⟩
      rw [filePage_shown hread ho, h.inode, h.length, h.data]
    · next hpu =>
      rw [if_neg hpu]
      exact hold hp hj

theorem Shown.store {a : Nat} (htable : TableInv s') (hst : userStore s q a b = some s')
    (hno : shows s q (pgRoundDown a) target = false) : Shown p ino addr n d target s' := by
  obtain ⟨hsup, hdirty⟩ := userStore_dirty hst
  have hne : ∀ v pos, PageAt s p v target pos → ¬ (p = q ∧ v = pgRoundDown a) := by
    rintro v pos hp ⟨rfl, rfl⟩
    rw [shows_of_pageAt hp] at hno
    cases hno
  have hsame := userStore_sameFrames hst
  obtain ⟨e, he, hpres, -, heq⟩ := userStore_some hst
  apply h.same htable hsame
  · rw [heq]
  · rw [heq]
  · rw [heq]
  · rw [heq]; exact ⟨rfl, rfl⟩
  · intro r v pos
    rw [PageAt, hsup]
    rfl
  · intro v pos hp
    rw [hdirty, if_neg (hne v pos hp)]
  · intro v pos k hp hk
    rw [heq]
    refine update_of_ne (fun hke => hne v pos hp ?_) ..
    exact h.backed.page_eq h.table.frames hk (getPage_eq_some.mpr ⟨e, he, hpres, hke.symm⟩)

theorem Shown.mmap (q : Tid) (ino' addr' : Nat) (htable : TableInv (handleMmap s q ino' addr').1) :
    Shown p ino addr n d target (handleMmap s q ino' addr').1 := by
  obtain ⟨heq, -, -⟩ := handleMmap_spec s q ino' addr'
  obtain ⟨hfiles, hnext, -⟩ := handleMmap_files s q ino' addr'
  have hpd := handleMmap_pagedir s q ino' addr'
  have hat : ∀ r v pos, PageAt (handleMmap s q ino' addr').1 r v target pos ↔
      PageAt s r v target pos := by
    refine fun r v pos => ⟨fun hp => ?_, pageAt_mmap s q ino' addr'⟩
    rcases mmap_newPage hp with hp | ⟨-, -, htarget, -⟩
    · exact hp
    · exact absurd htarget (Nat.ne_of_lt h.opened)
  apply h.same htable (handleMmap_sameFrames ..) _ hnext (hfiles target h.opened)
  · rw [heq]; exact ⟨rfl, rfl⟩
  · exact hat
  · intro v pos _
    rw [hpd]
  · intro v pos k _ _
    rw [heq]
  · rw [heq]

theorem Shown.step (hc : Undisturbed target s e) (hstep : Vm.step s e = some s') :
    Shown p ino addr n d target s' := by
  obtain ⟨hends, hmunmap⟩ := hc.goesOn
  have htable : TableInv s' := h.table.step (fun hend => by rw [hends] at hend; cases hend) hstep
  obtain ⟨hlive, -, hcase⟩ := step_cases hstep
  cases hcase with
  | alloc htake halloc =>
    obtain ⟨s₀, k, hroom, hfree, hop⟩ := halloc
    have h₀ : Shown p ino addr n d target s₀ := by
      cases hroom with
      | free _ => exact h
      | evict hfull hev => exact h.evict (evictFront_cases hev) (hc.notBack htake hfull)
    refine h₀.pageOp ((congrFun hroom.rest.exited e.tid).trans hlive) ?_ hfree hop
    rw [hroom.rest.readBounce]
    exact hc.reads htake
  | quiet hq =>
    have hload : s'.loaded p = s.loaded p := by
      rcases hq.loaded with heq | ⟨-, heq⟩
      · rw [heq]
      · rw [heq, update_apply, h.loaded, ite_self]
    refine h.same htable hq.sameFrames hload ?_ ?_ ⟨(hq.inode ino).2, (hq.inode ino).1⟩ ?_ ?_ ?_
    all_goals rw [hq.rest]
    · exact fun _ _ _ => Iff.rfl
    · exact fun _ _ _ => rfl
    · exact fun _ _ _ _ _ => rfl
  | store a b he hst => exact h.store htable hst (hc.notThrough e.tid a b he)
  | mmap ino' a he hs =>
    subst hs
    exact h.mmap e.tid ino' a htable
  | unmap file _ _ hrem _ =>
    rw [Event.removes_of_not_ends hends hmunmap] at hrem
    cases hrem
  | exit hend _ =>
    rw [hends] at hend
    cases hend

end

end

/-! What is shown. -/

theorem mapPages_eq (n : Nat) : mapPages n = (n + 4095) / 4096 := by
  rw [mapPages, show pgsize = 4096 from rfl]
  split <;> omega

section
variable {p : Tid} {ino addr n target : Nat} {d : Buf} {s : VmState}

section
variable (h : Shown p ino addr n d target s) (hmod : addr % 4096 = 0)
  (hbelow : addr + 4096 * ((n + 4095) / 4096) ≤ physBase) (hk : k < 4096 * ((n + 4095) / 4096))
include h hmod hbelow hk

/-- The page of an offset of the mapping, and where the offset is in it. -/
theorem Shown.split : isUserPage (addr + 4096 * (k / 4096)) = true ∧
      PageAt s p (addr + 4096 * (k / 4096)) target (4096 * (k / 4096)) ∧
      pgRoundDown (addr + k) = addr + 4096 * (k / 4096) ∧ pgOfs (addr + k) = k % 4096 := by
  rw [show physBase = 0xc0000000 from rfl] at hbelow
  have huser : isUserPage (addr + 4096 * (k / 4096)) = true := isUserPage_iff.mpr (by omega)
  refine ⟨huser, (h.page ..).mpr ⟨rfl, k / 4096, ?_, rfl, rfl⟩, ?_⟩
  · rw [mapPages_eq]
    omega
  · have hofs := page_ofs huser (o := k % 4096) (Nat.mod_lt _ (by decide))
    rwa [show addr + 4096 * (k / 4096) + k % 4096 = addr + k by omega] at hofs

theorem Shown.reads (hb : userLoad s p (addr + k) = some b) : b = shownByte n d k := by
  obtain ⟨-, hpage, hround, hofs⟩ := h.split hmod hbelow hk
  rw [userLoad, hround, hofs, Option.map_eq_some_iff] at hb
  obtain ⟨fr, hfr, rfl⟩ := hb
  rw [(h.bytes _ _ fr hpage hfr).2 (k % 4096) (Nat.mod_lt _ (by decide)), Nat.div_add_mod]

end

/-- A mapping that has just been made: no page of it is present. -/
theorem Shown.start (hframes : OwnFrames s) (hsups : SupInv s)
    (hstep : Vm.step s (.mmap p ino addr) = some (handleMmap s p ino addr).1)
    (hfresh : ∀ q u pos, ¬ PageAt s q u s.nextFile pos) (hlive : s.exited p = false)
    (hload : s.loaded p = true) (href : refused s p ino addr = false)
    (hbelow : addr + 4096 * ((n + 4095) / 4096) ≤ physBase) (hn : (s.inodes ino).length = n) :
    Shown p ino addr n (s.inodes ino).data s.nextFile (handleMmap s p ino addr).1 := by
  obtain ⟨heq, -, -⟩ := handleMmap_spec s p ino addr
  obtain ⟨hlist, hnext, hmade, -⟩ := handleMmap_made href
  have hpd := handleMmap_pagedir s p ino addr
  have hrange : addr + pgsize * mapPages n ≤ physBase := by rw [mapPages_eq]; exact hbelow
  have hinode : ((handleMmap s p ino addr).1.files s.nextFile).inode = ino := by
    obtain ⟨-, -, hsame | ⟨-, -, hino⟩⟩ := handleMmap_files s p ino addr
    · have hlen := congrArg List.length (congrFun (hlist.symm.trans hsame) p)
      rw [update_self, List.length_append, List.length_singleton] at hlen
      omega
    · exact hino
  have hat : ∀ q u pos, PageAt (handleMmap s p ino addr).1 q u s.nextFile pos ↔
      q = p ∧ ∃ i < mapPages n, u = addr + 4096 * i ∧ pos = 4096 * i := by
    have hnew : ∀ {q u pos}, PageAt (handleMmap s p ino addr).1 q u s.nextFile pos →
        q = p ∧ ∃ i < mapPages n, u = addr + 4096 * i ∧ pos = 4096 * i := by
      intro q u pos hp
      obtain hold | ⟨-, hq, -, -, i, hi, hu, hpos⟩ := mmap_newPage hp
      · exact absurd hold (hfresh q u pos)
      · rw [hn] at hi
        rw [mapPage_below hrange hi] at hu
        exact ⟨hq, i, hi, hu, hpos⟩
    refine fun q u pos => ⟨hnew, ?_⟩
    rintro ⟨rfl, i, hi, rfl, rfl⟩
    have hmem : addr + 4096 * i ∈ madePages addr (s.inodes ino).length := by
      rw [madePages, hn]
      exact List.mem_map.mpr ⟨i, List.mem_range.mpr hi, mapPage_below hrange hi⟩
    obtain ⟨pos, hp⟩ := hmade _ hmem
    obtain ⟨-, j, -, hj, rfl⟩ := hnew hp
    obtain rfl : i = j := by omega
    exact hp
  have habsent : ∀ u pos k, PageAt (handleMmap s p ino addr).1 p u s.nextFile pos →
      pagedirGetPage ((handleMmap s p ino addr).1.pagedir p) u ≠ some k := by
    intro u pos k hp hk
    obtain hold | ⟨-, -, -, hnone, -⟩ := mmap_newPage hp
    · exact hfresh p u pos hold
    · rw [hpd] at hk
      obtain ⟨sup, hs, -⟩ := hsups.resident p u k hk
      rw [hnone] at hs
      cases hs
  have hnodes : (handleMmap s p ino addr).1.inodes = s.inodes := by rw [heq]
  have htable : TableInv s := ⟨hframes.frames, hsups, hframes.held, hframes.owners⟩
  exact {
    table := htable.step (fun hend => by cases hend) hstep
    backed := hframes.backed.same (handleMmap_sameFrames ..)
    live := by rw [heq]; exact hlive
    loaded := by rw [heq]; exact hload
    opened := by rw [hnext]; exact Nat.lt_succ_self _
    inode := hinode
    length := by rw [hnodes]; exact hn
    data := by rw [hnodes]
    page := hat
    bytes := fun u pos k hp hk => absurd hk (habsent u pos k hp) }

end

end Pintos.Vm
