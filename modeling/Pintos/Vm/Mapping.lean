import Pintos.Vm.FrameTable

/- Files mapped into memory.

   A mapping's pages are read when they are touched and written back when they are
   evicted dirty. `Want` is what the file should hold in the end: its bytes when it
   was mapped, and on top of them what was stored through the mapping. `Bytes` says
   how far the machine is: a resident page holds the wanted bytes in its frame, and
   the file holds them wherever no resident page is dirty. `MapInv` collects what
   this rests on. Both are kept by evictions, page-ins, stores and new mappings. -/
namespace Pintos.Vm

open Function

/-- The bytes a mapped file should hold, by `struct file` and offset. -/
abbrev Want := Nat → Buf

variable {file k o pos u v addr : Nat} {s s' s₀ t : VmState} {p q : Tid} {w : Want} {c : Option Nat}

/-- The page `u` of `p` shows the file from `pos` on. -/
def PageAt (s : VmState) (p : Tid) (u file pos : Nat) : Prop :=
  ∃ sup, (s.supPageTable p).lookup u = some sup ∧ sup.fileAddress = some file ∧ sup.filePos = pos

/-- The offset is on the page at `pos`. -/
def OnPage (pos o : Nat) : Prop := pos ≤ o ∧ o < pos + pgsize

instance (pos o : Nat) : Decidable (OnPage pos o) := inferInstanceAs (Decidable (_ ∧ _))

/-- The page does not hold bytes the file lacks. -/
def Settled (s : VmState) (p : Tid) (u : Nat) : Prop :=
  pagedirIsDirty (s.pagedir p) u = false ∨ pagedirGetPage (s.pagedir p) u = none

structure Bytes (s : VmState) (w : Want) : Prop where
  frame : ∀ p u file pos k o, PageAt s p u file pos → pagedirGetPage (s.pagedir p) u = some k →
    OnPage pos o → o < (fileInode s file).length → s.mem k (o - pos) = w file o
  file : ∀ p file o, file ∈ s.mappingList p → o < (fileInode s file).length →
    (∀ u pos, PageAt s p u file pos → OnPage pos o → Settled s p u) →
    (fileInode s file).data o = w file o

structure MapInv (s : VmState) : Prop where
  frames : FrameInv s
  sups : SupInv s
  backed : Backed s
  dead : ∀ p, s.exited p = true →
    s.mappingList p = [] ∧ ∀ u, pagedirGetPage (s.pagedir p) u = none
  fresh : ∀ p, ∀ file ∈ s.mappingList p, file < s.nextFile
  owner : ∀ p q file, file ∈ s.mappingList p → file ∈ s.mappingList q → p = q
  /-- The pages of a mapping lie where `handle_mmap` put them. -/
  place : ∀ file, ∃ addr, ∀ p u pos, PageAt s p u file pos →
    u = mapPage addr (pos / pgsize) ∧ pos % pgsize = 0

theorem PageAt.listed (h : PageAt s p u file pos)
    (hinv : SupInv s) : file ∈ s.mappingList p := by
  obtain ⟨sup, hs, hf, -⟩ := h
  exact hinv.listed p u sup file hs hf

theorem PageAt.loaded (h : PageAt s p u file pos) (hinv : SupInv s) : s.loaded p = true := by
  obtain ⟨sup, hs, hf, -⟩ := h
  by_contra hload
  rw [hinv.loading p (Bool.eq_false_iff.mpr hload) u sup hs] at hf
  cases hf

theorem MapInv.page_eq (hinv : MapInv s) {pos' : Nat}
    (h : PageAt s p u file pos) (h' : PageAt s q v file pos') (ho : OnPage pos o)
    (ho' : OnPage pos' o) : p = q ∧ u = v ∧ pos = pos' := by
  obtain ⟨addr, hplace⟩ := hinv.place file
  obtain ⟨hu, hm⟩ := hplace p u pos h
  obtain ⟨hv, hm'⟩ := hplace q v pos' h'
  have hpos : pos = pos' := by grind [OnPage, pgsize]
  exact ⟨hinv.owner p q file (h.listed hinv.sups) (h'.listed hinv.sups), by rw [hu, hv, hpos], hpos⟩

theorem MapInv.used (hinv : MapInv s)
    (h : pagedirGetPage (s.pagedir p) u = some k) : s.usedMap k = true := by
  have hlive : s.exited p = false := by
    cases hex : s.exited p with
    | false => rfl
    | true => rw [(hinv.dead p hex).2 u] at h; cases h
  exact (hinv.frames.held _ (hinv.backed p u k h) hlive).2

/-! What a change at one page needs. -/

theorem isDirty_insert (pd : Pagedir) (u v : Nat) (e : Pte) :
    pagedirIsDirty (pd.insert u e) v = if v = u then e.dirty else pagedirIsDirty pd v := by
  unfold pagedirIsDirty
  by_cases h : v = u
  · subst h; simp
  · simp [h]

/-- Only the page `u` of `p` changes. The file's bytes may change on that page,
    and the page has to be right afterwards. -/
theorem Bytes.ofPage (hinv : MapInv s)
    (hb : Bytes s w) (hml : t.mappingList = s.mappingList)
    (hlen : ∀ file, (fileInode t file).length = (fileInode s file).length)
    (hat : ∀ q v file pos, PageAt t q v file pos ↔ PageAt s q v file pos)
    (hget : ∀ q v, ¬(q = p ∧ v = u) →
      pagedirGetPage (t.pagedir q) v = pagedirGetPage (s.pagedir q) v)
    (hdirty : ∀ q v, ¬(q = p ∧ v = u) →
      pagedirIsDirty (t.pagedir q) v = pagedirIsDirty (s.pagedir q) v)
    (hmem : ∀ q v k, ¬(q = p ∧ v = u) → pagedirGetPage (s.pagedir q) v = some k →
      t.mem k = s.mem k)
    (hbyte : ∀ q file o, file ∈ s.mappingList q → o < (fileInode s file).length →
      (∀ pos, PageAt s p u file pos → ¬ OnPage pos o) →
      (fileInode t file).data o = (fileInode s file).data o)
    (hframe : ∀ file pos k o, PageAt s p u file pos → pagedirGetPage (t.pagedir p) u = some k →
      OnPage pos o → o < (fileInode s file).length → t.mem k (o - pos) = w file o)
    (hfile : ∀ file pos o, PageAt s p u file pos → OnPage pos o → o < (fileInode s file).length →
      Settled t p u → (fileInode t file).data o = w file o) : Bytes t w := by
  refine ⟨fun q v file pos k o hp hk ho hlt => ?_, fun q file o hmem' hlt hset => ?_⟩
  · rw [hat] at hp
    rw [hlen] at hlt
    by_cases hqv : q = p ∧ v = u
    · grind
    · rw [hget q v hqv] at hk
      rw [hmem q v k hqv hk]
      exact hb.frame q v file pos k o hp hk ho hlt
  · rw [hml] at hmem'
    rw [hlen] at hlt
    by_cases hpage : ∃ pos, PageAt s p u file pos ∧ OnPage pos o
    · obtain ⟨pos, hp, ho⟩ := hpage
      obtain rfl : q = p := hinv.owner q p file hmem' (hp.listed hinv.sups)
      exact hfile file pos o hp ho hlt (hset u pos ((hat ..).mpr hp) ho)
    · grind [hb.file, Settled]

/-! Evictions. -/

/-- Entries that differ in nothing but their slot show the same page of a file. -/
theorem pageAt_congr
    (h : ((t.supPageTable q).lookup v).map (fun e => { e with swapAddress := none }) =
      ((s.supPageTable q).lookup v).map (fun e => { e with swapAddress := none })) :
    PageAt t q v file pos ↔ PageAt s q v file pos := by
  unfold PageAt
  cases hs : (s.supPageTable q).lookup v <;> cases ht : (t.supPageTable q).lookup v <;>
    simp_all

/-- The mapping is the only one of its inode. -/
def Sole (s : VmState) (file : Nat) : Prop :=
  ∀ q file', file' ∈ s.mappingList q → (s.files file').inode = (s.files file).inode → file' = file

/-- A page of the file can be written back: writes are not denied, there is no second
    mapping that would miss them, and there is memory for a bounce buffer. -/
def Writable (s : VmState) (file : Nat) : Prop :=
  (fileInode s file).denyWriteCnt = 0 ∧ Sole s file ∧ s.writeBounce file = true

/-- With a bounce buffer all of the page that is in the file is written. -/
theorem inodeWriteAt_data {nd : Inode} (hdeny : nd.denyWriteCnt = 0) (buf : Buf) (pos o : Nat)
    (ho : o < nd.length) : (inodeWriteAt true nd buf pgsize pos).data o =
      if pos ≤ o ∧ o < pos + pgsize then buf (o - pos) else nd.data o := by
  have hiff : (pos ≤ o ∧ o < pos + min pgsize (nd.length - pos)) ↔
      (pos ≤ o ∧ o < pos + pgsize) := by omega
  simp only [inodeWriteAt, Inode.moved, hdeny, if_true, hiff]

section
variable {s : VmState} {file pos : Nat} {buf : Buf}

theorem fileInode_fileWriteAt (g : Nat) : fileInode (fileWriteAt s file buf pgsize pos) g =
    if (s.files g).inode = (s.files file).inode then
      inodeWriteAt (s.writeBounce file) (fileInode s file) buf pgsize pos
    else fileInode s g := by
  by_cases h : (s.files g).inode = (s.files file).inode
  · simp [fileInode, fileWriteAt, h]
  · simp [fileInode, fileWriteAt, h]

theorem fileWriteAt_length (g : Nat) :
    (fileInode (fileWriteAt s file buf pgsize pos) g).length = (fileInode s g).length := by
  rw [fileInode_fileWriteAt]
  split
  · next h => simp [fileInode, h]
  · rfl

theorem fileWriteAt_denyWriteCnt (g : Nat) :
    (fileInode (fileWriteAt s file buf pgsize pos) g).denyWriteCnt =
      (fileInode s g).denyWriteCnt := by
  rw [fileInode_fileWriteAt]
  split
  · next h => simp [fileInode, h]
  · rfl

/-- Where no other mapping has the inode, the write shows on the page and nowhere
    else. -/
theorem fileWriteAt_data (hw : Writable s file) {g : Nat} (hg : g ∈ s.mappingList q)
    (ho : o < (fileInode s g).length) :
    (fileInode (fileWriteAt s file buf pgsize pos) g).data o =
      if g = file ∧ OnPage pos o then buf (o - pos) else (fileInode s g).data o := by
  rw [fileInode_fileWriteAt]
  by_cases h : (s.files g).inode = (s.files file).inode
  · obtain rfl := hw.2.1 q g hg h
    rw [if_pos rfl, hw.2.2, inodeWriteAt_data hw.1 buf pos o ho]
    simp [OnPage]
  · grind

end

/-- What is needed of the pages and frames for the invariant to be kept. -/
theorem MapInv.rest (hinv : MapInv s) (hrest : SameRest s t) (hframes : FrameInv t)
    (hsups : SupInv t) (hbacked : Backed t)
    (hdead : ∀ p v, s.exited p = true → pagedirGetPage (s.pagedir p) v = none →
      pagedirGetPage (t.pagedir p) v = none)
    (hat : ∀ p v file pos, PageAt t p v file pos → PageAt s p v file pos) : MapInv t := by
  refine ⟨hframes, hsups, hbacked, fun p hp => ?_,
    by rw [hrest.mappingList, hrest.nextFile]; exact hinv.fresh,
    by rw [hrest.mappingList]; exact hinv.owner, fun file => ?_⟩
  · rw [hrest.exited] at hp
    obtain ⟨hnil, hnone⟩ := hinv.dead p hp
    exact ⟨hrest.mappingList ▸ hnil, fun v => hdead p v hp (hnone v)⟩
  · obtain ⟨addr, haddr⟩ := hinv.place file
    exact ⟨addr, fun p v pos hp => haddr p v pos (hat p v file pos hp)⟩

theorem MapInv.evict (hinv : MapInv s) (h : Evict s s₀) : MapInv s₀ :=
  hinv.rest h.rest (hinv.frames.evict h) (hinv.sups.evict h) (hinv.backed.evict h)
    (fun _ _ _ => h.getPage_none) fun p v _ _ => (pageAt_congr (h.lookup_sup p v)).mp

theorem Evict.isDirty (h : Evict s s₀) (q : Tid) (v : Nat) :
    pagedirIsDirty (s₀.pagedir q) v = pagedirIsDirty (s.pagedir q) v := by
  obtain ⟨f, rest, u, sup, -, heq⟩ := h.core
  rw [heq]
  by_cases hq : q = f.usingThread
  · subst hq; simp [evicted, isDirty_clearPresent]
  · simp [evicted, hq]

/-- The frames of the pages that stay are left as they are. -/
theorem Evict.mem_eq (h : Evict s s₀) (hf : FrameInv s) (hb : Backed s)
    (hk : pagedirGetPage (s₀.pagedir q) v = some k) : s₀.mem k = s.mem k := by
  have hk₀ := h.getPage_some hk
  obtain ⟨f, rest, u, sup, hv, heq⟩ := h.core
  have hpage := hf.victim hv
  have hne : k ≠ f.kpage := by
    rintro rfl
    rw [heq] at hk
    rw [show pagedirGetPage _ v = _ from evicted_getPage s f rest u q v,
      if_pos (hb.page_eq hf hk₀ hpage)] at hk
    cases hk
  rw [heq]
  exact update_of_ne hne ..

theorem Evict.written (h : Evict s s₀) :
    ∃ f rest u sup, Victim s f rest u sup ∧ s₀ =
      { evicted s f rest u with
        supPageTable := s₀.supPageTable
        swapTable := s₀.swapTable
        swapDisk := s₀.swapDisk
        inodes := s₀.inodes } ∧
      ((s₀.inodes = s.inodes ∧
          (sup.fileAddress = none ∨ pagedirIsDirty (s.pagedir f.usingThread) u = false)) ∨
        ∃ file, sup.fileAddress = some file ∧
          pagedirIsDirty (s.pagedir f.usingThread) u = true ∧
          s₀.inodes = (fileWriteAt s file (s.mem f.kpage) pgsize sup.filePos).inodes) := by
  cases h with
  | swap hv hanon => exact ⟨_, _, _, _, hv, rfl, .inl ⟨rfl, .inl hanon⟩⟩
  | lost hv hanon => exact ⟨_, _, _, _, hv, rfl, .inl ⟨rfl, .inl hanon⟩⟩
  | @file f rest u sup file hv hfile => grind [saveDirty_eq, evicted, saveDirty]

/-- A victim that is a page of a file is written back if it is dirty, and only
    then may the file change. -/
theorem Bytes.evict (hinv : MapInv s) (hb : Bytes s w) (h : Evict s s₀)
    (hwr : ∀ f rest u sup file, Victim s f rest u sup → sup.fileAddress = some file →
      pagedirIsDirty (s.pagedir f.usingThread) u = true → Writable s file) : Bytes s₀ w := by
  have hat : ∀ q v file pos, PageAt s₀ q v file pos ↔ PageAt s q v file pos :=
    fun q v file pos => pageAt_congr (h.lookup_sup q v)
  obtain ⟨f, rest, u, sup, hv, heq, hnodes⟩ := h.written
  have hfmap := hinv.frames.victim hv
  have hget : ∀ q v, pagedirGetPage (s₀.pagedir q) v =
      if q = f.usingThread ∧ v = u then none else pagedirGetPage (s.pagedir q) v := by
    intro q v; rw [heq]; exact evicted_getPage s f rest u q v
  have hmem : ∀ q v k, ¬(q = f.usingThread ∧ v = u) → pagedirGetPage (s.pagedir q) v = some k →
      s₀.mem k = s.mem k := fun q v k hqv hk =>
    h.mem_eq hinv.frames hinv.backed ((hget q v).trans ((if_neg hqv).trans hk))
  have hgone : pagedirGetPage (s₀.pagedir f.usingThread) u = none := by simp [hget]
  have hfiles := h.rest.files
  -- the only page of a file the victim can be
  have hsup : ∀ file pos, PageAt s f.usingThread u file pos →
      sup.fileAddress = some file ∧ sup.filePos = pos := by
    rintro file pos ⟨sup', hs', hf', hpos⟩
    obtain rfl : sup = sup' := Option.some.inj (hv.sup.symm.trans hs')
    exact ⟨hf', hpos⟩
  rcases hnodes with ⟨hsame, hclean⟩ | ⟨file, hfile, hd, hwritten⟩
  · have hino : fileInode s₀ = fileInode s := by funext g; rw [fileInode, hsame, hfiles]; rfl
    refine hb.ofPage (p := f.usingThread) (u := u) hinv h.rest.mappingList (by simp [hino]) hat
      (fun q v hqv => by rw [hget, if_neg hqv]) (fun q v _ => h.isDirty q v) hmem (by simp [hino])
      (fun file pos k o _ hk => by rw [hgone] at hk; cases hk) (fun file pos o hp ho hlt _ => ?_)
    rw [hino]
    refine hb.file _ file o (hp.listed hinv.sups) hlt fun v pos' hv' ho' => ?_
    obtain ⟨-, rfl, -⟩ := hinv.page_eq hp hv' ho ho'
    rcases hclean with hanon | hd
    · rw [(hsup file pos hp).1] at hanon; cases hanon
    · exact .inl hd
  · have hw : Writable s file := hwr f rest u sup file hv hfile hd
    have hino : fileInode s₀ =
        fileInode (fileWriteAt s file (s.mem f.kpage) pgsize sup.filePos) := by
      funext g; rw [fileInode, hwritten, hfiles]; rfl
    refine hb.ofPage (p := f.usingThread) (u := u) hinv h.rest.mappingList
      (by simp [hino, fileWriteAt_length]) hat
      (fun q v hqv => by rw [hget, if_neg hqv]) (fun q v _ => h.isDirty q v) hmem ?_
      (fun file pos k o _ hk => by rw [hgone] at hk; cases hk) (fun g pos o hp ho hlt _ => ?_)
    · intro q g o hg hlt hoff
      rw [hino, fileWriteAt_data hw hg hlt, if_neg]
      rintro ⟨rfl, ho⟩
      exact hoff sup.filePos ⟨sup, hv.sup, hfile, rfl⟩ ho
    · obtain ⟨hg, rfl⟩ := hsup g pos hp
      obtain rfl : file = g := Option.some.inj (hfile.symm.trans hg)
      rw [hino, fileWriteAt_data hw (hp.listed hinv.sups) hlt, if_pos ⟨rfl, ho⟩]
      exact hb.frame _ u file _ f.kpage o hp hfmap ho hlt

/-! New frames. -/

theorem PageOp.pageAt
    (hop : PageOp s p k c s') (q : Tid) (v file pos : Nat) :
    PageAt s' q v file pos ↔ PageAt s q v file pos := by
  unfold PageAt
  obtain hl | ⟨rfl, e, hl, -, ⟨hs, -, rfl⟩ | ⟨sup, hs, -, rfl⟩⟩ := hop.lookup q v
  · rw [hl]
  · simp [hl, hs, anonEntry]
  · simp [hl, hs]

theorem MapInv.pageOp (hinv : MapInv s)
    (hlive : s.exited p = false) (hfree : FirstFree s k) (hun : Unnamed s k)
    (hop : PageOp s p k c s') : MapInv s' := by
  refine hinv.rest hop.rest.1 (hinv.frames.pageOp hfree hun hop) (hinv.sups.pageOp hop)
    (hinv.backed.pageOp hfree hun hop) (fun q v hq hnone => ?_) fun q v file pos =>
      (hop.pageAt q v file pos).mp
  obtain hsame | ⟨rfl, -⟩ := hop.getPage q v
  · exact hsame.trans hnone
  · rw [hlive] at hq; cases hq

theorem mapFrame_isDirty (s : VmState) (p : Tid) (u k : Nat) (w : Bool) (q : Tid) (v : Nat) :
    pagedirIsDirty ((mapFrame s p u k w).pagedir q) v =
      if q = p ∧ v = u then false else pagedirIsDirty (s.pagedir q) v := by
  by_cases hq : q = p
  · subst hq; simp [mapFrame, isDirty_insert]
  · simp [mapFrame, hq]

theorem Bytes.of_absent (hinv : MapInv s)
    (hb : Bytes s w) (hp : PageAt s p u file pos) (hnp : pagedirGetPage (s.pagedir p) u = none)
    (ho : OnPage pos o) (hlt : o < (fileInode s file).length) :
    (fileInode s file).data o = w file o := by
  refine hb.file p file o (hp.listed hinv.sups) hlt fun v pos' hv ho' => ?_
  obtain ⟨-, rfl, -⟩ := hinv.page_eq hp hv ho ho'
  exact .inr hnp

theorem filePage_eq (hread : s.readBounce file = true) (ho : OnPage pos o)
    (hlt : o < (fileInode s file).length) :
    filePage s file pos (o - pos) = (fileInode s file).data o := by
  unfold OnPage at ho
  have hlt' : o < (s.inodes (s.files file).inode).length := hlt
  rw [filePage, inodeReadAt, hread, Inode.moved, if_pos rfl, if_pos (by omega),
    show pos + (o - pos) = o by omega]
  rfl

/-- A page of a file that is installed has been read from it. -/
theorem Brought.filePage_eq (h : Brought s p k u s' c) (hp : PageAt s p u file pos)
    (hload : s.loaded p = true) : s'.mem k = filePage s file pos := by
  obtain ⟨sup', hs', hf', rfl⟩ := hp
  cases h with
  | made hold =>
    rcases hold with hnone | hno
    · rw [hnone] at hs'; cases hs'
    · rw [hno] at hload; cases hload
  | fromSlot hs hanon => cases hs.symm.trans hs'; rw [hanon] at hf'; cases hf'
  | fromFile hs hfile _ hmem =>
    cases hs.symm.trans hs'
    rw [hmem, Option.some.inj (hfile.symm.trans hf')]

theorem Bytes.pageOp
    (hinv : MapInv s) (hb : Bytes s w) (hread : ∀ file ∈ s.mappingList p, s.readBounce file = true)
    (hfree : FirstFree s k) (hop : PageOp s p k c s') : Bytes s' w := by
  obtain ⟨hrest, hinodes⟩ := hop.rest
  obtain ⟨hmem, hcases⟩ := hop.fills
  have hino : fileInode s' = fileInode s := by funext g; rw [fileInode, hinodes, hrest.files]; rfl
  have hne : ∀ {q : Tid} {v k' : Nat}, pagedirGetPage (s.pagedir q) v = some k' → k' ≠ k := by
    rintro q v k' hget rfl
    exact absurd ((hinv.used hget).symm.trans hfree.2.1) (by decide)
  rcases hcases with hpd | ⟨u, wr, hnp, hpd, hbrought⟩
  · refine ⟨fun q v file pos k' o hp hk ho hlt => ?_, fun q file o hf hlt hset => ?_⟩
    · rw [hpd] at hk
      rw [hmem k' (hne hk)]
      exact hb.frame q v file pos k' o ((hop.pageAt ..).mp hp) hk ho (hino ▸ hlt)
    · rw [hino] at hlt ⊢
      refine hb.file q file o (hrest.mappingList ▸ hf) hlt fun v pos hv ho => ?_
      have hs := hset v pos ((hop.pageAt ..).mpr hv) ho
      rwa [Settled, hpd] at hs
  · refine hb.ofPage (p := p) (u := u) hinv hrest.mappingList (by simp [hino]) hop.pageAt
      (fun q v hqv => by rw [hpd, mapFrame_getPage, if_neg hqv])
      (fun q v hqv => by rw [hpd, mapFrame_isDirty, if_neg hqv])
      (fun q v k' _ hk => hmem k' (hne hk)) (by simp [hino]) (fun g pos k' o hp hk ho hlt => ?_)
      (fun g pos o hp ho hlt _ => by rw [hino]; exact hb.of_absent hinv hp hnp ho hlt)
    rw [hpd, mapFrame_getPage, if_pos ⟨rfl, rfl⟩] at hk
    cases hk
    -- the page is read from the file, which has its bytes while the page is not present
    rw [hbrought.filePage_eq hp (hp.loaded hinv.sups), Vm.filePage_eq (hread g (hp.listed hinv.sups))
      ho hlt]
    exact hb.of_absent hinv hp hnp ho hlt

theorem Room.unnamed (hroom : Room s s₀) (hinv : FrameInv s)
    (hfree : FirstFree s₀ k) (hfresh : ∀ j, FirstFree s j → Unnamed s j) : Unnamed s₀ k := by
  cases hroom with
  | free => exact hfresh k hfree
  | evict hfull hev =>
    obtain ⟨f, rest, u, sup, hv, heq⟩ := (evictFront_cases hev).core
    rw [heq] at hfree ⊢
    have hk : k = f.kpage := by
      by_contra hne
      have hused : s.usedMap k = true := hfull k hfree.1
      have hfree' := hfree.2.1
      simp [evicted, hne, hused] at hfree'
    have hnd := hinv.distinct
    rw [hv.front, List.map_cons, List.nodup_cons] at hnd
    rintro g hg hgk
    exact hnd.1 (List.mem_map.mpr ⟨g, hg, hgk.trans hk⟩)

/-! Stores and new mappings. -/

/-- What the mapped files should hold after the event. -/
def wantStep (w : Want) (s : VmState) : Event → Want
  | .store p addr b =>
    match (s.supPageTable p).lookup (pgRoundDown addr) with
    | some sup => match sup.fileAddress with
      | some file =>
        update w file (update (w file) (sup.filePos + pgOfs addr) b)
      | none => w
    | none => w
  | .mmap _ ino _ => update w s.nextFile (s.inodes ino).data
  | _ => w

theorem MapInv.same (hinv : MapInv s) (hsame : SameFrames s t) (hsup : SupInv t)
    (hml : t.mappingList = s.mappingList) (hnext : t.nextFile = s.nextFile)
    (hspt : t.supPageTable = s.supPageTable) : MapInv t := by
  refine ⟨hinv.frames.same hsame, hsup, hinv.backed.same hsame, fun p hp => ?_,
    by rw [hml, hnext]; exact hinv.fresh, by rw [hml]; exact hinv.owner, ?_⟩
  · obtain ⟨hnil, hnone⟩ := hinv.dead p (hsame.exited ▸ hp)
    exact ⟨hml ▸ hnil, fun u => (hsame.getPage p u).trans (hnone u)⟩
  · simp only [PageAt, hspt]
    exact hinv.place

theorem pgOfs_onPage (pos addr : Nat) : OnPage pos (pos + pgOfs addr) :=
  ⟨Nat.le_add_right .., Nat.add_lt_add_left (Nat.mod_lt _ (by decide)) pos⟩

theorem wantStep_hit (w : Want) (b : Byte) (hp : PageAt s p (pgRoundDown addr) file pos) :
    wantStep w s (.store p addr b) file (pos + pgOfs addr) = b := by
  obtain ⟨sup, hs, hf, rfl⟩ := hp
  simp [wantStep, hs, hf]

theorem wantStep_miss (w : Want) (b : Byte)
    (hno : ∀ pos, PageAt s p (pgRoundDown addr) file pos → o ≠ pos + pgOfs addr) :
    wantStep w s (.store p addr b) file o = w file o := by
  simp only [wantStep]
  cases hs : (s.supPageTable p).lookup (pgRoundDown addr) with
  | none => rfl
  | some sup =>
    cases hf : sup.fileAddress with
    | none => simp only [hf]
    | some f =>
      simp only [hf]
      by_cases hfile : file = f
      · subst hfile
        rw [update_self, update_of_ne (hno sup.filePos ⟨sup, hs, hf, rfl⟩)]
      · rw [update_of_ne hfile]

theorem Bytes.store {b : Byte} (hinv : MapInv s) (hb : Bytes s w)
    (h : userStore s p addr b = some s') : Bytes s' (wantStep w s (.store p addr b)) := by
  have hget := userStore_getPage h
  obtain ⟨e, he, hpres, -, rfl⟩ := userStore_some h
  have hpage : pagedirGetPage (s.pagedir p) (pgRoundDown addr) = some e.kpage :=
    getPage_eq_some.mpr ⟨e, he, hpres, rfl⟩
  have hother : ∀ q v, ¬(q = p ∧ v = pgRoundDown addr) →
      pagedirIsDirty (update s.pagedir p
        ((s.pagedir p).insert (pgRoundDown addr) { e with dirty := true }) q) v =
      pagedirIsDirty (s.pagedir q) v := by grind [isDirty_insert]
  refine ⟨fun q v file pos k o hp hk ho hlt => ?_, fun q file o hmem hlt hset => ?_⟩
  · have hp' : PageAt s q v file pos := hp
    rw [hget] at hk
    by_cases hqv : q = p ∧ v = pgRoundDown addr
    · obtain ⟨rfl, rfl⟩ := hqv
      obtain rfl : e.kpage = k := Option.some.inj (hpage.symm.trans hk)
      by_cases hofs : o = pos + pgOfs addr
      · subst hofs
        rw [wantStep_hit w b hp']
        simp
      · rw [wantStep_miss w b, ← hb.frame q _ file pos e.kpage o hp' hpage ho hlt]
        · have hne : o - pos ≠ pgOfs addr := by unfold OnPage at ho; omega
          simp [hne]
        · intro pos' hp''
          obtain ⟨sup, hs, -, rfl⟩ := hp'
          obtain ⟨sup', hs', -, rfl⟩ := hp''
          obtain rfl : sup = sup' := Option.some.inj (hs.symm.trans hs')
          exact hofs
    · have hne : k ≠ e.kpage := by
        rintro rfl
        exact hqv (hinv.backed.page_eq hinv.frames hk hpage)
      rw [wantStep_miss w b, ← hb.frame q v file pos k o hp' hk ho hlt]
      · simp [hne]
      · grind [hinv.page_eq, pgOfs_onPage]
  · -- the page stored to is dirty and present, so none of its offsets is meant
    have hoff : ∀ pos, PageAt s p (pgRoundDown addr) file pos → ¬ OnPage pos o := by
      intro pos hp ho
      obtain rfl : q = p := hinv.owner q p file hmem (hp.listed hinv.sups)
      rcases hset _ pos hp ho with hd | hnone
      · simp [isDirty_insert] at hd
      · rw [hget, hpage] at hnone; cases hnone
    rw [wantStep_miss (o := o) w b fun pos hp heq => hoff pos hp (heq ▸ pgOfs_onPage pos addr)]
    refine hb.file q file o hmem hlt fun v pos hv ho => ?_
    have hqv : ¬(q = p ∧ v = pgRoundDown addr) := by
      rintro ⟨rfl, rfl⟩
      exact hoff pos hv ho
    have hs := hset v pos hv ho
    rwa [Settled, hget, hother q v hqv] at hs

theorem mmap_pageAt (s : VmState) (p : Tid) (ino addr : Nat)
    (h : PageAt (handleMmap s p ino addr).1 q v file pos) : PageAt s q v file pos ∨
      (file = s.nextFile ∧ v = mapPage addr (pos / pgsize) ∧ pos % pgsize = 0) := by
  obtain ⟨-, -, hl⟩ := handleMmap_spec s p ino addr
  obtain ⟨sup, hs, hf, hpos⟩ := h
  rcases hl q v with hold | ⟨-, -, -, i, hv, hnew⟩
  · exact .inl ⟨sup, hold ▸ hs, hf, hpos⟩
  · rw [hnew] at hs
    cases hs
    cases hf
    subst hpos
    refine .inr ⟨rfl, ?_, Nat.mul_mod_right ..⟩
    rw [hv, Nat.mul_div_cancel_left i (by decide)]

theorem pageAt_mmap (s : VmState) (p : Tid) (ino addr : Nat)
    (h : PageAt s q v file pos) : PageAt (handleMmap s p ino addr).1 q v file pos := by
  obtain ⟨-, -, hl⟩ := handleMmap_spec s p ino addr
  obtain ⟨sup, hs, hf, hpos⟩ := h
  rcases hl q v with hold | ⟨-, hnone, -⟩
  · exact ⟨sup, hold.trans hs, hf, hpos⟩
  · rw [hs] at hnone; cases hnone

/-- The lists after `handle_mmap`: the new file is in one of them at most. -/
theorem mem_mappingList_mmap (s : VmState) (p : Tid) (ino addr : Nat)
    (h : file ∈ (handleMmap s p ino addr).1.mappingList q) : file ∈ s.mappingList q ∨
      (q = p ∧ file = s.nextFile ∧ s.nextFile < (handleMmap s p ino addr).1.nextFile ∧
        ((handleMmap s p ino addr).1.files s.nextFile).inode = ino) := by
  obtain ⟨-, -, hml | ⟨hml, hlt, hino⟩⟩ := handleMmap_files s p ino addr
  · exact .inl (hml ▸ h)
  · rw [hml] at h
    by_cases hq : q = p
    · grind
    · rw [update_of_ne hq] at h
      exact .inl h

theorem MapInv.mmap (hinv : MapInv s) (hlive : s.exited p = false)
    (hload : s.loaded p = true) (ino addr : Nat) : MapInv (handleMmap s p ino addr).1 := by
  obtain ⟨-, hnext, -⟩ := handleMmap_files s p ino addr
  have hsame := handleMmap_sameFrames s p ino addr
  refine ⟨hinv.frames.same hsame, hinv.sups.mmap hload ino addr, hinv.backed.same hsame,
    fun q hq => ?_, fun q file hf => ?_, fun q r file hq hr => ?_, fun file => ?_⟩
  · rw [hsame.exited] at hq
    obtain ⟨hnil, hnone⟩ := hinv.dead q hq
    refine ⟨List.eq_nil_iff_forall_not_mem.mpr fun file hf => ?_,
      fun u => (hsame.getPage q u).trans (hnone u)⟩
    rcases mem_mappingList_mmap s p ino addr hf with hold | ⟨rfl, -⟩
    · rw [hnil] at hold; cases hold
    · rw [hlive] at hq; cases hq
  · rcases mem_mappingList_mmap s p ino addr hf with hold | ⟨-, rfl, hlt, -⟩
    · exact Nat.lt_of_lt_of_le (hinv.fresh q file hold) hnext
    · exact hlt
  · have hnew : ∀ t, s.nextFile ∉ s.mappingList t := fun t ht =>
      Nat.lt_irrefl _ (hinv.fresh t _ ht)
    rcases mem_mappingList_mmap s p ino addr hq with hq' | ⟨hqp, hf, -⟩ <;>
      rcases mem_mappingList_mmap s p ino addr hr with hr' | ⟨hrp, hf', -⟩
    · exact hinv.owner q r file hq' hr'
    · exact absurd (hf' ▸ hq') (hnew q)
    · exact absurd (hf ▸ hr') (hnew r)
    · exact hqp.trans hrp.symm
  · by_cases hfile : file = s.nextFile
    · refine ⟨addr, fun q v pos hp => ?_⟩
      rcases mmap_pageAt s p ino addr hp with hold | ⟨-, hv, hpos⟩
      · exact absurd (hinv.fresh q file (hold.listed hinv.sups)) (by omega)
      · exact ⟨hv, hpos⟩
    · obtain ⟨addr', haddr⟩ := hinv.place file
      refine ⟨addr', fun q v pos hp => ?_⟩
      rcases mmap_pageAt s p ino addr hp with hold | ⟨rfl, -⟩
      · exact haddr q v pos hold
      · exact absurd rfl hfile

theorem Bytes.mmap (hinv : MapInv s) (hb : Bytes s w)
    (ino addr : Nat) :
    Bytes (handleMmap s p ino addr).1 (wantStep w s (.mmap p ino addr)) := by
  obtain ⟨heq, -⟩ := handleMmap_spec s p ino addr
  obtain ⟨hfiles, -⟩ := handleMmap_files s p ino addr
  have hpd : (handleMmap s p ino addr).1.pagedir = s.pagedir := by rw [heq]
  have hmem : (handleMmap s p ino addr).1.mem = s.mem := by rw [heq]
  have hinodes : (handleMmap s p ino addr).1.inodes = s.inodes := by rw [heq]
  have hold : ∀ file < s.nextFile, fileInode (handleMmap s p ino addr).1 file = fileInode s file ∧
      wantStep w s (.mmap p ino addr) file = w file := by
    intro file hlt
    have hne : file ≠ s.nextFile := by omega
    exact ⟨by rw [fileInode, hinodes, hfiles file hlt]; rfl, by simp [wantStep, hne]⟩
  refine ⟨fun q v file pos k o hp hk ho hlt => ?_, fun q file o hf hlt hset => ?_⟩
  · rw [hpd] at hk
    have hp' : PageAt s q v file pos := by
      rcases mmap_pageAt s p ino addr hp with h | ⟨rfl, -⟩
      · exact h
      · -- a page of the new file is not present yet
        obtain ⟨sup, hs, -⟩ := hinv.sups.resident q v k hk
        obtain ⟨-, -, hl⟩ := handleMmap_spec s p ino addr
        obtain ⟨sup', hs', hf', hpos'⟩ := hp
        rcases hl q v with h | ⟨-, hnone, -⟩
        · exact ⟨sup', h ▸ hs', hf', hpos'⟩
        · rw [hs] at hnone; cases hnone
    obtain ⟨hino, hw⟩ := hold file (hinv.fresh q file (hp'.listed hinv.sups))
    rw [hmem, hw]
    exact hb.frame q v file pos k o hp' hk ho (hino ▸ hlt)
  · rcases mem_mappingList_mmap s p ino addr hf with hf' | ⟨-, rfl, -, hnew⟩
    · obtain ⟨hino, hw⟩ := hold file (hinv.fresh q file hf')
      rw [hino] at hlt ⊢
      rw [hw]
      refine hb.file q file o hf' hlt fun v pos hv ho => ?_
      have hs := hset v pos (pageAt_mmap s p ino addr hv) ho
      rwa [Settled, hpd] at hs
    · rw [fileInode, hnew, hinodes]
      simp [wantStep]

end Pintos.Vm
