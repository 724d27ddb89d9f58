import Pintos.Filesys.Invariant

/- Making files.

   `filesys_create` takes a sector, makes an inode in it and enters it in the root
   directory. Each of the three may fail after the earlier ones have had their effect.
   The stages are specified one by one, each as a change of the state that keeps the
   invariant, and put together at the end. -/
namespace Pintos.Filesys

open Vm (Buf wordSize)
open Lib Function

variable {s sector cnt k : Nat} {d e : Disk} {n : InodeDisk} {length : Int}

/-- A part of an operation: the invariant holds again, open files are as they were, and
    a free map that was on the disk still is. -/
structure Leads (fs : Fs) (g : Ghost) (fs' : Fs) (g' : Ghost) : Prop where
  core : Core fs' g'
  handles : SameHandles fs fs'
  map : g'.map = g.map
  root : g'.root = g.root
  synced : Bounces fs.heap → Synced g.map fs.disk fs.freeMap → Synced g.map fs'.disk fs'.freeMap

theorem Leads.of_quiet {fs fs' : Fs} {g g' : Ghost} (hq : Quiet fs fs') (hc : Core fs' g')
    (hmap : g'.map = g.map) (hroot : g'.root = g.root) : Leads fs g fs' g' :=
  ⟨hc, hq.toSameHandles, hmap, hroot, fun _ hs => by rw [hq.disk, hq.freeMap]; exact hs⟩

theorem Leads.trans {fs₁ fs₂ fs₃ : Fs} {g₁ g₂ g₃ : Ghost} (h₁ : Leads fs₁ g₁ fs₂ g₂)
    (h₂ : Leads fs₂ g₂ fs₃ g₃) : Leads fs₁ g₁ fs₃ g₃ :=
  ⟨h₂.core, h₁.handles.trans h₂.handles, h₂.map.trans h₁.map, h₂.root.trans h₁.root,
    fun hp hs => by
      have hs₃ := h₂.synced (h₁.handles.later.bounces hp) (by rw [h₁.map]; exact h₁.synced hp hs)
      rwa [h₁.map] at hs₃⟩

section
variable {fs : Fs} {g : Ghost} {b : Bitmap}

section
variable (h : Core fs g)
include h

/-- The disk and the free map change, the entries of the root directory do not. -/
theorem Core.change {hp : Heap} (hspace : Space d b g.own) (hsize : b.bitCnt = fs.freeMap.bitCnt)
    (hsame : SameEntries g.root fs.disk d) :
    Core { fs with disk := d, heap := hp, freeMap := b } g :=
  { h with
    space := hspace
    mapSize := by rw [hsize]; exact h.mapSize
    listing := h.listing.congr hsame fun _ _ => id
    kept := fun hm hr => by
      rw [hsame.named]
      exact h.kept hm hr }

theorem Core.mapEntries (hoff : SameOff g.map fs.disk d) : SameEntries g.root fs.disk d :=
  h.sameEntries h.mapNode (by decide) hoff

/-! Taking sectors and giving them back. -/

structure Allocated (fs : Fs) (g : Ghost) (cnt : Nat) (r : Option Nat) (fs' : Fs) : Prop where
  leads : Leads fs g fs' g
  freeMap : fs'.freeMap = fs.freeMap.taken cnt r
  disk : SameOff g.map fs.disk fs'.disk
  inodes : fs'.openInodes = fs.openInodes
  first : r.isSome → fs.freeMap.FirstRun cnt false r
  exact_ : Bounces fs.heap → fs.freeMap.FirstRun cnt false r

theorem Core.allocate (cnt : Nat) :
    wp (freeMapAllocate cnt) (fun r fs' => Allocated fs g cnt r fs') fs := by
  obtain ⟨f, m, hf, hmf, hdata⟩ := h.map
  refine wp_mono (freeMapAllocate_spec hf hmf h.space.size cnt) ?_
  rintro r fs' ⟨d, hp, rfl, hoff, hlater, hfirst, hexact⟩
  rw [hdata] at hoff hfirst
  have hspace : Space d (fs.freeMap.taken cnt r) g.own := by
    cases r with
    | none => exact h.space.write h.mapNode hoff
    | some sec => exact (h.space.write h.mapNode hoff).mark sec cnt
  have hsize : (fs.freeMap.taken cnt r).bitCnt = fs.freeMap.bitCnt := by
    cases r with
    | none => rfl
    | some sec => exact Bitmap.fill_bitCnt ..
  refine ⟨⟨h.change hspace hsize (h.mapEntries hoff), ⟨rfl, rfl, rfl, hlater⟩,
    rfl, rfl, fun hpl hs => ?_⟩, rfl, hoff, rfl, fun hr => (hfirst hr).1,
    fun hpl => (hexact hpl).1⟩
  cases r with
  | none =>
    simp only [(hexact hpl).2 rfl]
    exact hs
  | some sec => exact hs.refill (hfirst rfl).1.1 (hfirst rfl).2

theorem Core.giveBack {sec : Nat} (hle : sec + cnt ≤ fs.disk.capacity)
    (hrun : fs.freeMap.Run sec cnt true) (hfree : ∀ x, sec ≤ x → x < sec + cnt → Vacant g.own x) :
    wp (freeMapRelease sec cnt) (fun _ fs' => Leads fs g fs' g ∧
      fs'.freeMap = fs.freeMap.fill sec cnt false ∧ SameOff g.map fs.disk fs'.disk) fs := by
  obtain ⟨f, m, hf, hmf, hdata⟩ := h.map
  refine wp_mono (freeMapRelease_spec hf hmf h.space.size hle hrun) ?_
  rintro - fs' ⟨d, hp, rfl, hoff, hlater, hst⟩
  rw [hdata] at hoff hst
  exact ⟨⟨h.change ((h.space.write h.mapNode hoff).give hfree) (Bitmap.fill_bitCnt ..)
    (h.mapEntries hoff), ⟨rfl, rfl, rfl, hlater⟩, rfl, rfl,
    fun hpl hs => hs.refill (by rw [h.space.size]; exact hle) (hst hpl)⟩, rfl, hoff⟩

/-! Making an inode. -/

/-- `inode_create` in a vacant sector that has been taken: there are no data sectors for
    it, or there is a new inode, which is not in the directory yet. -/
structure InodeMade (fs : Fs) (g : Ghost) (sector : Nat) (length : Int) (start : Nat) (fs' : Fs) :
    Prop where
  leads : Leads fs g fs' g
  freeMap : fs'.freeMap = fs.freeMap.fill start (bytesToSectors length) true
  entries : SameEntries g.root fs.disk fs'.disk
  inodes : fs'.openInodes = fs.openInodes
  first : fs.freeMap.FirstRun (bytesToSectors length) false (some start)
  fine : length < 2147483648 → Fine fs'.disk sector (newInode start length)
  vacant : ∀ x, Occupies sector (newInode start length) x → Vacant g.own x

structure InodeFailed (fs : Fs) (g : Ghost) (length : Int) (fs' : Fs) : Prop where
  leads : Leads fs g fs' g
  freeMap : fs'.freeMap = fs.freeMap
  disk : SameOff g.map fs.disk fs'.disk
  inodes : fs'.openInodes = fs.openInodes
  exact_ : Plenty fs.heap → fs.freeMap.FirstRun (bytesToSectors length) false none

theorem Core.makeInode (hlen : 0 ≤ length) (hsec : sector < fs.disk.capacity)
    (hused : fs.freeMap.bit sector = true) (hvacant : Vacant g.own sector) :
    wp (inodeCreate sector length) (fun ok fs' =>
      (ok = false → InodeFailed fs g length fs') ∧
      (ok = true → ∃ start, InodeMade fs g sector length start fs')) fs := by
  refine wp_mono (inodeCreate_spec
    (A := fun r fs' => Allocated fs g (bytesToSectors length) r fs') hlen hsec (fun hp hpl => ?_) ?_) ?_
  · refine wp_mono ((h.heap hp).allocate _) fun r fs' ha => ?_
    exact ⟨⟨ha.leads.core, ⟨ha.leads.handles.files, ha.leads.handles.nextFile,
      ha.leads.handles.freeMapFile, hpl.trans ha.leads.handles.later⟩, rfl, rfl,
      fun hp hs => ha.leads.synced (hpl.bounces hp) hs⟩, ha.freeMap, ha.disk, ha.inodes, ha.first,
      fun hp => ha.exact_ (hpl.bounces hp)⟩
  · intro start fs₁ ha
    refine ⟨ha.disk.capacity, ?_⟩
    rw [← h.space.size]
    exact (ha.first rfl).1
  · rintro ok fs' (⟨rfl, hfail⟩ | ⟨rfl, start, fs₁, d, ha, rfl, hmade⟩)
    · refine ⟨fun _ => ?_, fun hok => (by cases hok)⟩
      rcases hfail with ⟨hp, rfl, hlater, hno⟩ | ha
      · exact ⟨.of_quiet ⟨⟨rfl, rfl, rfl, hlater⟩, rfl, rfl⟩ (h.heap hp) rfl rfl,
          rfl, .refl _ _, rfl, fun hpl => absurd hpl hno⟩
      · exact ⟨ha.leads, ha.freeMap, ha.disk, ha.inodes, fun hp => ha.exact_ hp.2⟩
    · refine ⟨fun hok => (by cases hok), fun _ => ⟨start, ?_⟩⟩
      have hmade : Made sector (newInode start length) fs₁.disk d := hmade
      have hfirst := ha.first rfl
      have hcap : fs₁.disk.capacity = fs.disk.capacity := ha.disk.capacity
      have hnew := (h.space.write h.mapNode ha.disk).newInode (by rw [hcap]; exact hsec) hused
        hvacant hlen hfirst.1 hfirst.2.1 hmade
      have hspace : Space d fs₁.freeMap g.own := ha.leads.core.space.made hnew.vacant hmade
      have hroot : SameEntries g.root fs₁.disk d := .of_data fun a hd =>
        hnew.frame _ _ h.rootNode a (.inr ((h.space.fine h.rootNode).holds_of_data hd))
      have hcore : Core { fs₁ with disk := d } g := ha.leads.core.change hspace rfl hroot
      refine ⟨⟨hcore, ⟨ha.leads.handles.files, ha.leads.handles.nextFile,
        ha.leads.handles.freeMapFile, ha.leads.handles.later⟩, rfl, rfl, fun hp hs => ?_⟩,
        ha.freeMap, fun k hk => (hroot k hk).trans (h.mapEntries ha.disk k hk), ha.inodes, hfirst,
        hnew.fine, hnew.vacant⟩
      refine (ha.leads.synced hp hs).congr ha.leads.core.mapSize fun a hd => ?_
      exact hnew.frame _ _ h.mapNode a (.inr ((h.space.fine h.mapNode).holds_of_data hd))

/-! Entering a file in the root directory. -/

theorem Core.adopt (hnew : Fine fs.disk s n) (hused : ∀ x, Occupies s n x → fs.freeMap.bit x = true)
    (hfree : ∀ x, Occupies s n x → Vacant g.own x) :
    Core fs { g with own := update g.own s (some n) } := by
  have hnone : ∀ {t m}, g.own t = some m → t ≠ s := by
    rintro t m ht rfl
    exact hfree t (.inl rfl) t m ht (.inl rfl)
  refine { h with
    space := h.space.adopt hnew hused hfree
    opened := fun {t m} ht => ?_
    mapNode := ?_
    rootNode := ?_
    listing := h.listing.congr (fun _ _ => rfl) fun t _ ho => ?_ }
  · grind [h.opened]
  · simp only [update_of_ne (hnone h.mapNode)]
    exact h.mapNode
  · simp only [update_of_ne (hnone h.rootNode)]
    exact h.rootNode
  · grind

theorem Core.disown (hn : g.own s = some n) (hcnt : g.cnt s = 0) (hs : s ≠ rootDirSector)
    (hnamed : ¬Named g.root fs.disk s) : Core fs { g with own := update g.own s none } := by
  have hs0 : s ≠ freeMapSector := by
    rintro rfl
    have := h.mapOpen
    omega
  refine { h with
    space := h.space.disown hn
    opened := fun {t m} ht => ?_
    mapNode := ?_
    rootNode := ?_
    listing := h.listing.congr (fun _ _ => rfl) fun t ht ho => ?_ }
  · grind [h.closed, h.opened]
  · simpa only [update_of_ne (Ne.symm hs0)] using h.mapNode
  · simpa only [update_of_ne (Ne.symm hs)] using h.rootNode
  · grind

/-- The root directory as `dir_open_root` gives it. -/
def rootDir : Dir := ⟨rootDirSector, 0⟩

/-- A slot of the root directory is written: it is not in use, or names a file that had
    no name. -/
theorem Core.setSlot (hk : k < g.root.entryCnt) {e : Buf}
    (hnew : inUse e = true → (g.own (inodeSector e)).isSome ∧ inodeSector e ≠ freeMapSector ∧
      inodeSector e ≠ rootDirSector ∧ g.cnt (inodeSector e) = 0 ∧
      ¬Named g.root fs.disk (inodeSector e))
    (hd : d = fs.disk.patch (sectorSize * g.root.start + dirEntrySize * k) dirEntrySize e) :
    Core { fs with disk := d } g := by
  have hoff : SameOff g.root fs.disk d := by
    refine ⟨by rw [hd]; rfl, fun a ha => ?_⟩
    rw [hd, Disk.patch_byte, if_neg]
    simp only [InodeDisk.Data, InodeDisk.entryCnt, dirEntrySize] at ha hk ⊢
    omega
  have hbytes : ∀ j < dirEntrySize, dirEntry g.root d k j = e j := by
    intro j hj
    rw [hd]
    exact dirEntry_patch_self _ _ _ _ hj
  have huse : inUse (dirEntry g.root d k) = inUse e := inUse_congr hbytes
  have hsec : inodeSector (dirEntry g.root d k) = inodeSector e := inodeSector_congr hbytes
  have hold : ∀ j, j ≠ k → dirEntry g.root d j = dirEntry g.root fs.disk j := by
    intro j hj
    rw [hd]
    exact dirEntry_patch_ne _ _ _ _ hj
  have hcases : ∀ {t}, Named g.root d t →
      (inUse e = true ∧ t = inodeSector e) ∨ Named g.root fs.disk t := by
    rintro t ⟨j, hj, hu, ht⟩
    by_cases hjk : j = k
    · grind
    · rw [hold j hjk] at hu ht
      exact Or.inr ⟨j, hj, hu, ht⟩
  refine { h with
    space := h.space.write h.rootNode hoff
    listing := ⟨h.listing.whole, fun {t} ht => ?_, fun {t} ht => ?_, fun {i j} hi hj ui uj hij => ?_⟩
    kept := fun {t m'} ht hr => ?_ }
  · grind [h.listing.owned]
  · grind [h.listing.proper]
  · -- the entry that is written is the only one with its sector
    have hother : ∀ {x}, x < g.root.entryCnt → x ≠ k → inUse (dirEntry g.root d x) = true →
        inUse e = true → inodeSector (dirEntry g.root d x) ≠ inodeSector e := by
      intro x hx hxk hux hu hxs
      rw [hold x hxk] at hux hxs
      exact (hnew hu).2.2.2.2 ⟨x, hx, hux, hxs⟩
    by_cases hik : i = k
    · grind
    · grind [h.listing.distinct]
  · grind [h.kept, h.closed]

theorem Core.syncedSlot (hk : k < g.root.entryCnt) (e : Buf)
    (hst : Synced g.map fs.disk fs.freeMap) :
    Synced g.map (fs.disk.patch (sectorSize * g.root.start + dirEntrySize * k) dirEntrySize e)
      fs.freeMap := by
  refine hst.congr h.mapSize fun a ha => ?_
  have hno := h.space.data_apart h.rootNode h.mapNode (by decide) ha
  rw [Disk.patch_byte, if_neg]
  simp only [InodeDisk.Data, InodeDisk.entryCnt, dirEntrySize] at hno hk ⊢
  omega

theorem Core.rootInode (hroot : 0 < g.cnt rootDirSector) :
    ∃ m, fs.openInodes rootDir.inode = some m ∧ m.data = g.root ∧ m.denyWriteCnt = 0 ∧
      m.data.OnDisk fs.disk.capacity := by
  obtain ⟨m, hm, hdata, -, hdeny⟩ := h.inodeOf hroot h.rootNode
  exact ⟨m, hm, hdata, hdeny.trans h.rootAllowed, hdata ▸ (h.space.fine h.rootNode).onDisk⟩

theorem Core.dirAdd (hroot : 0 < g.cnt rootDirSector) (hn : g.own s = some n)
    (hs0 : s ≠ freeMapSector) (hs1 : s ≠ rootDirSector) (hcnt : g.cnt s = 0)
    (hnamed : ¬Named g.root fs.disk s) (junk : Buf) (name : Name) :
    wp (dirAdd junk rootDir name s) (fun ok fs' => Leads fs g fs' g ∧
      fs'.freeMap = fs.freeMap ∧ fs'.openInodes = fs.openInodes ∧
      Added g.root name s fs.disk fs.heap ok fs'.disk) fs := by
  obtain ⟨m, hm, hdata, hdeny, hon⟩ := h.rootInode hroot
  refine wp_mono (dirAdd_spec hm hon hdeny junk name s) ?_
  rintro ok fs' ⟨d, hp, rfl, hplenty, hadd⟩
  rw [hdata] at hadd
  refine ⟨?_, rfl, rfl, hadd⟩
  cases ok with
  | false =>
    have hd := hadd.failed rfl h.listing.whole
    exact .of_quiet ⟨⟨rfl, rfl, rfl, hplenty⟩, hd, rfl⟩ (hd ▸ h.heap hp) rfl rfl
  | true =>
    obtain ⟨-, k, hk, e, hd, -⟩ := hadd.filled rfl
    have hsec : inodeSector (fillEntry e name s) = s := by
      have hlt := (h.space.fine hn).sector_lt
      have hlba := fs.disk.lba28
      exact inodeSector_fillEntry _ _ (by simp only [wordSize]; omega)
    have hcore := (h.setSlot hk (fun _ => by
      rw [hsec, hn]
      exact ⟨rfl, hs0, hs1, hcnt, hnamed⟩) hd).heap hp
    refine ⟨hcore, ⟨rfl, rfl, rfl, hplenty⟩, rfl, rfl, fun hpl hst => ?_⟩
    simp only [hd]
    exact h.syncedSlot hk _ hst

end

/-! The root directory is opened and closed. -/

/-- A reference to an inode is given up that is not the last, or the inode has not been
    removed. -/
theorem Core.closeKept (h : Core fs (g.bump s)) (hdeny : g.deny s ≤ g.cnt s)
    (hs : s ≠ freeMapSector)
    (hkept : g.cnt s = 0 → ∀ m, fs.openInodes s = some m → m.removed = false) :
    wp (Filesys.inodeClose (some s)) (fun _ fs' => Quiet fs fs' ∧ Core fs' g) fs := by
  have hbump : (g.bump s).cnt s = g.cnt s + 1 := update_self ..
  obtain ⟨m, hm⟩ := h.inode (show 0 < (g.bump s).cnt s by omega)
  refine wp_mono (h.inodeClose hm (by rw [hbump]; exact Nat.lt_succ_of_le hdeny)
    fun hs' => absurd hs' hs) ?_
  rintro - fs' ⟨-, hquiet⟩
  have hq := hquiet fun hc => by
    rw [hkept (by omega) m hm] at hc
    cases hc.2
  rwa [Ghost.drop_bump] at hq

theorem Core.closeRoot (h : Core fs (g.bump rootDirSector)) :
    wp (dirClose (some rootDir)) (fun _ fs' => Quiet fs fs' ∧ Core fs' g) fs := by
  refine h.closeKept (s := rootDirSector) ?_ (by decide) fun _ m hm => ?_
  · exact (show g.deny rootDirSector = 0 from h.rootAllowed) ▸ Nat.zero_le _
  · by_contra hr
    exact (h.kept hm (by simpa using hr)).2.1 rfl

theorem Core.openRoot (h : Core fs g) :
    wp dirOpenRoot (fun r fs' => Quiet fs fs' ∧
      ((r = none ∧ ¬Plenty fs.heap ∧ Core fs' g) ∨
        (r = some rootDir ∧ Core fs' (g.bump rootDirSector)))) fs := by
  rw [dirOpenRoot, wp_bind]
  refine wp_mono (h.inodeOpen h.rootNode) ?_
  rintro r fs₁ ⟨hq, ⟨rfl, hno, hc⟩ | ⟨rfl, hc⟩⟩
  · simp only [dirOpen, wp_bind, wp_malloc, Filesys.inodeClose, wp_pure]
    exact ⟨⟨⟨hq.files, hq.nextFile, hq.freeMapFile, hq.later.trans (.nextStruct _)⟩, hq.disk, hq.freeMap⟩,
      Or.inl ⟨trivial, hno, hc.heap _⟩⟩
  · simp only [dirOpen, wp_bind, wp_malloc]
    have hq₁ : Quiet fs { fs₁ with heap := fs₁.heap.nextStruct } :=
      ⟨⟨hq.files, hq.nextFile, hq.freeMapFile, hq.later.trans (.nextStruct _)⟩, hq.disk,
        hq.freeMap⟩
    cases h0 : fs₁.heap.structs 0 with
    | true => exact wp_pure.mpr ⟨hq₁, Or.inr ⟨rfl, hc.heap _⟩⟩
    | false =>
      simp only [wp_bind]
      refine wp_mono (hc.heap _).closeRoot ?_
      rintro - fs₂ ⟨hq₂, hc₂⟩
      refine wp_pure.mpr ⟨hq₁.trans hq₂, Or.inl ⟨rfl, fun hp => ?_, hc₂⟩⟩
      rw [(hq.later.plenty hp).1 0] at h0
      cases h0

/-! `filesys_create`. -/

/-- A file of this name can be entered in the directory. -/
def Accepts (n : InodeDisk) (d : Disk) (name : Name) : Prop :=
  name.Valid ∧ ¬n.Bound d name ∧ ∃ k < n.entryCnt, inUse (dirEntry n d k) = false

/-- The sectors that `filesys_create` takes: the first free one for the inode, then the
    first run of others for the data. -/
structure Room (b : Bitmap) (cnt sector start : Nat) : Prop where
  inode : b.FirstRun 1 false (some sector)
  data : (b.fill sector 1 true).FirstRun cnt false (some start)

/-- A call that returns false. Either nothing was taken from the free map for good, or
    the data sectors were. -/
structure CreateFailed (fs : Fs) (g : Ghost) (name : Name) (cnt : Nat) (fs' : Fs) : Prop where
  leads : Leads fs g fs' g
  entries : SameEntries g.root fs.disk fs'.disk
  freeMap : (fs'.freeMap = fs.freeMap ∧ (Plenty fs.heap → ∀ sector start, ¬Room fs.freeMap cnt sector start)) ∨
    ∃ sector start, Room fs.freeMap cnt sector start ∧
      fs'.freeMap = fs.freeMap.fill start cnt true ∧
      (Plenty fs.heap → ¬Accepts g.root fs.disk name)

structure CreateDone (fs : Fs) (g : Ghost) (name : Name) (length : Int) (sector start : Nat)
    (fs' : Fs) : Prop where
  leads : Leads fs g fs'
    { g with own := update g.own sector (some (newInode start length)) }
  room : Room fs.freeMap (bytesToSectors length) sector start
  fresh : g.own sector = none
  freeMap : fs'.freeMap = (fs.freeMap.fill sector 1 true).fill start (bytesToSectors length) true
  added : ∃ d, SameEntries g.root fs.disk d ∧ Added g.root name sector d fs.heap true fs'.disk
  accepts : Plenty fs.heap → Accepts g.root fs.disk name

theorem SameEntries.accepts (h : SameEntries n d e) (name : Name) :
    Accepts n e name ↔ Accepts n d name := by
  have hbound : n.Bound e name ↔ n.Bound d name := by
    constructor
    · rintro ⟨k, hk, hn⟩
      exact ⟨k, hk, by rwa [h k hk] at hn⟩
    · rintro ⟨k, hk, hn⟩
      exact ⟨k, hk, by rwa [h k hk]⟩
  have hfree : (∃ k < n.entryCnt, inUse (dirEntry n e k) = false) ↔
      ∃ k < n.entryCnt, inUse (dirEntry n d k) = false := by
    constructor
    · rintro ⟨k, hk, hu⟩
      exact ⟨k, hk, by rwa [h k hk] at hu⟩
    · rintro ⟨k, hk, hu⟩
      exact ⟨k, hk, by rwa [h k hk]⟩
  simp only [Accepts, hbound, hfree]

theorem SameEntries.trans {f : Disk} (h₁ : SameEntries n d e) (h₂ : SameEntries n e f) :
    SameEntries n d f := fun k hk => (h₂ k hk).trans (h₁ k hk)

theorem Quiet.entries {fs' : Fs} (h : Quiet fs fs') (n : InodeDisk) :
    SameEntries n fs.disk fs'.disk := fun _ _ => by rw [h.disk]

theorem Bitmap.FirstRun.unique {i j : Nat} {value : Bool} (hi : b.FirstRun cnt value (some i))
    (hj : b.FirstRun cnt value (some j)) : i = j := by
  by_contra hne
  rcases Nat.lt_or_gt_of_ne hne with hlt | hlt
  · exact hj.2.2 i hlt hi.2.1
  · exact hi.2.2 j hlt hj.2.1

/-- A sector was taken, then others, and the sector given back. -/
theorem Bitmap.fill_swap {start : Nat} (hsec : b.Run sector 1 false)
    (hrun : (b.fill sector 1 true).Run start cnt false) :
    ((b.fill sector 1 true).fill start cnt true).fill sector 1 false = b.fill start cnt true := by
  refine ext_bit (by simp only [fill_bitCnt]) fun i => ?_
  have hout : ¬(start ≤ sector ∧ sector < start + cnt) :=
    hrun.not_mem (by rw [fill_bit, if_pos (by omega)])
  simp only [fill_bit]
  by_cases hi : i = sector
  · subst hi
    rw [if_pos (by omega), if_neg hout]
    exact (hsec 0 (by omega)).symm
  · grind

/-- The sector of the inode is given back, and the root directory closed. -/
theorem Core.undoCreate (h : Core fs (g.bump rootDirSector))
    (hlt : sector < fs.disk.capacity) (hbit : fs.freeMap.bit sector = true)
    (hvacant : Vacant g.own sector) :
    wp (do freeMapRelease sector 1; dirClose (some rootDir)) (fun _ fs' =>
      Leads fs (g.bump rootDirSector) fs' g ∧ fs'.freeMap = fs.freeMap.fill sector 1 false ∧
        SameEntries g.root fs.disk fs'.disk) fs := by
  rw [wp_bind]
  refine wp_mono (h.giveBack hlt (fun j hj => ?_) fun x h₁ h₂ => ?_) ?_
  · rw [show sector + j = sector by omega]
    exact hbit
  · rw [show x = sector by omega]
    exact hvacant
  · rintro - fs₁ ⟨hl, hmap, hoff⟩
    refine wp_mono hl.core.closeRoot ?_
    rintro - fs₂ ⟨hq, hc⟩
    refine ⟨hl.trans (.of_quiet hq hc rfl rfl), hq.freeMap.trans hmap, ?_⟩
    exact (h.mapEntries hoff).trans (hq.entries _)

/-- The rest of `filesys_create`, from the sector it has taken for the inode. -/
theorem Core.createIn (h : Core fs (g.bump rootDirSector)) (junk : Buf) (name : Name)
    (hlen : 0 ≤ length) (h31 : length < 2147483648)
    (hlt : sector < fs.disk.capacity) (hbit : fs.freeMap.bit sector = true)
    (hvacant : Vacant g.own sector) :
    wp (do
        let made ← inodeCreate sector length
        let success ← (if made then Filesys.dirAdd junk rootDir name sector else pure false)
        (if success = false ∧ sector ≠ 0 then freeMapRelease sector 1 else pure ())
        dirClose (some rootDir)
        return success)
      (fun ok fs' =>
        (ok = false → Leads fs (g.bump rootDirSector) fs' g ∧
          SameEntries g.root fs.disk fs'.disk ∧
          ((fs'.freeMap = fs.freeMap.fill sector 1 false ∧
              (Plenty fs.heap → fs.freeMap.FirstRun (bytesToSectors length) false none)) ∨
            ∃ start, fs.freeMap.FirstRun (bytesToSectors length) false (some start) ∧
              fs'.freeMap = (fs.freeMap.fill start (bytesToSectors length) true).fill sector 1 false ∧
              (Plenty fs.heap → ¬Accepts g.root fs.disk name))) ∧
        (ok = true → ∃ start, Leads fs (g.bump rootDirSector) fs'
            { g with own := update g.own sector (some (newInode start length)) } ∧
          fs.freeMap.FirstRun (bytesToSectors length) false (some start) ∧
          fs'.freeMap = fs.freeMap.fill start (bytesToSectors length) true ∧
          (∃ d, SameEntries g.root fs.disk d ∧ Added g.root name sector d fs.heap true fs'.disk) ∧
          (Plenty fs.heap → Accepts g.root fs.disk name))) fs := by
  have hnone : g.own sector = none := by
    cases ho : g.own sector with
    | none => rfl
    | some n => exact absurd (.inl rfl) (hvacant sector n ho)
  have hs0 : sector ≠ freeMapSector := by
    rintro rfl
    rw [show g.own freeMapSector = _ from h.mapNode] at hnone
    cases hnone
  have hs1 : sector ≠ rootDirSector := by
    rintro rfl
    rw [show g.own rootDirSector = _ from h.rootNode] at hnone
    cases hnone
  rw [wp_bind]
  refine wp_mono (h.makeInode hlen hlt hbit hvacant) ?_
  rintro made fs₁ ⟨hfail, hmade⟩
  rw [wp_bind]
  cases made with
  | false =>
    have hf := hfail rfl
    simp only [Bool.false_eq_true, if_false, wp_pure, true_and, wp_bind]
    rw [if_pos (by exact hs0), ← wp_bind]
    have hcap : fs₁.disk.capacity = fs.disk.capacity := hf.disk.capacity
    refine wp_mono (hf.leads.core.undoCreate (by omega) (by rw [hf.freeMap]; exact hbit) hvacant) ?_
    rintro - fs₂ ⟨hl, hmap, hsame⟩
    refine ⟨fun _ => ⟨hf.leads.trans hl, (h.mapEntries hf.disk).trans hsame, Or.inl ⟨?_, hf.exact_⟩⟩,
      fun hok => by cases hok⟩
    rw [hmap, hf.freeMap]
  | true =>
    obtain ⟨start, hm⟩ := hmade rfl
    have hfirst := hm.first
    have hbits : ∀ x, fs₁.freeMap.bit x =
        if (newInode start length).Holds x then true else fs.freeMap.bit x := by
      intro x
      rw [hm.freeMap, Bitmap.fill_bit]
      rfl
    have hused : ∀ x, Occupies sector (newInode start length) x → fs₁.freeMap.bit x = true := by
      rintro x (rfl | hx)
      · rw [hbits, hbit, ite_self]
      · rw [hbits, if_pos hx]
    -- the new file is not open and has no name
    have hclosed : g.cnt sector = 0 := by
      by_contra hpos
      obtain ⟨m, ho⟩ := h.inode (s := sector) (by rw [Ghost.bump_ne _ hs1]; omega)
      have hown : g.own sector = some m.data := (h.opened ho).1
      rw [hnone] at hown
      cases hown
    have hcnt : (g.bump rootDirSector).cnt sector = 0 := (Ghost.bump_ne _ hs1).trans hclosed
    have hnamed : ¬Named g.root fs₁.disk sector := fun hn => by
      have ho : (g.own sector).isSome := hm.leads.core.listing.owned hn
      rw [hnone] at ho
      cases ho
    have hcore := hm.leads.core.adopt (hm.fine h31) hused hm.vacant
    have hself : update g.own sector (some (newInode start length)) sector =
      some (newInode start length) := update_self ..
    simp only [if_true]
    have hroot : 0 < (g.bump rootDirSector).cnt rootDirSector := by
      rw [Ghost.bump_self]
      omega
    refine wp_mono (hcore.dirAdd hroot hself hs0 hs1 hcnt hnamed junk name) ?_
    rintro ok fs₂ ⟨hl, hmap, hinodes, hadd⟩
    have haccepts : Plenty fs.heap → (ok = true ↔ Accepts g.root fs.disk name) := by
      intro hp
      exact (hadd.exact_ (hm.leads.handles.later.plenty hp).2).trans (hm.entries.accepts name)
    have hlead : Leads fs (g.bump rootDirSector) fs₂ _ :=
      (show Leads fs (g.bump rootDirSector) fs₁ { g.bump rootDirSector with
          own := update g.own sector (some (newInode start length)) } from
        ⟨hcore, hm.leads.handles, rfl, rfl, hm.leads.synced⟩).trans hl
    cases ok with
    | true =>
      simp only [Bool.true_eq_false, false_and, if_false, wp_bind, wp_pure]
      refine wp_mono (Core.closeRoot (g := { g with
        own := update g.own sector (some (newInode start length)) }) hl.core) ?_
      rintro - fs₃ ⟨hq, hc⟩
      refine ⟨fun hok => (by cases hok), fun _ => ⟨start, hlead.trans (.of_quiet hq hc rfl rfl),
        hfirst, hq.freeMap.trans (hmap.trans hm.freeMap), ⟨fs₁.disk, hm.entries, ?_⟩,
        fun hp => (haccepts hp).mp rfl⟩⟩
      rw [hq.disk]
      exact hadd.mono hm.leads.handles.later
    | false =>
      have hd : fs₂.disk = fs₁.disk := hadd.failed rfl h.listing.whole
      have hback : Core fs₂ (g.bump rootDirSector) := by
        have hdis := hl.core.disown hself hcnt hs1 (by rw [hd]; exact hnamed)
        simp only [update_idem] at hdis
        have hown : update (g.bump rootDirSector).own sector none = g.own := by
          rw [← hnone]
          exact update_eq_self sector g.own
        rwa [hown] at hdis
      simp only [true_and, wp_bind, wp_pure]
      rw [if_pos (by exact hs0), ← wp_bind]
      have hcap : fs₂.disk.capacity = fs.disk.capacity := by
        rw [← h.space.size, ← hback.space.size, hmap, hm.freeMap, Bitmap.fill_bitCnt]
      refine wp_mono (hback.undoCreate (by omega) (by rw [hmap]; exact hused _ (.inl rfl)) hvacant) ?_
      rintro - fs₃ ⟨hl₃, hmap₃, hsame⟩
      refine ⟨fun _ => ⟨⟨hl₃.core, hlead.handles.trans hl₃.handles, rfl, rfl, fun hp hs =>
        hl₃.synced (hlead.handles.later.bounces hp) (hlead.synced hp hs)⟩, ?_, Or.inr ⟨start, hfirst, ?_,
        fun hp ha => absurd ((haccepts hp).mpr ha) (by decide)⟩⟩, fun hok => by cases hok⟩
      · rw [hd] at hsame
        exact hm.entries.trans hsame
      · rw [hmap₃, hmap, hm.freeMap]

theorem Core.create (h : Core fs g) (junk : Buf) (name : Name) (hlen : 0 ≤ length)
    (h31 : length < 2147483648) :
    wp (filesysCreate junk name length) (fun ok fs' =>
      (ok = false → CreateFailed fs g name (bytesToSectors length) fs') ∧
      (ok = true → ∃ sector start, CreateDone fs g name length sector start fs')) fs := by
  rw [filesysCreate, wp_bind]
  refine wp_mono h.openRoot ?_
  rintro dir fs₁ ⟨hq, ⟨rfl, hno, hc⟩ | ⟨rfl, hc⟩⟩
  · refine wp_pure.mpr ⟨fun _ => ⟨.of_quiet hq hc rfl rfl, hq.entries _, ?_⟩, fun hok => by cases hok⟩
    exact Or.inl ⟨hq.freeMap, fun hp => absurd hp hno⟩
  have hl₁ : Leads fs g fs₁ (g.bump rootDirSector) := .of_quiet hq hc rfl rfl
  simp only [wp_bind]
  refine wp_mono (hc.allocate 1) ?_
  intro r fs₂ ha
  cases r with
  | none =>
    simp only [wp_bind]
    refine wp_mono ha.leads.core.closeRoot ?_
    rintro - fs₃ ⟨hq₃, hc₃⟩
    refine wp_pure.mpr ⟨fun _ => ⟨(hl₁.trans ha.leads).trans (.of_quiet hq₃ hc₃ rfl rfl), ?_, ?_⟩,
      fun hok => by cases hok⟩
    · exact ((hq.entries _).trans (hc.mapEntries ha.disk)).trans (hq₃.entries _)
    · refine Or.inl ⟨hq₃.freeMap.trans (ha.freeMap.trans hq.freeMap), fun hp sector start hroom => ?_⟩
      have hnone := ha.exact_ (hq.later.plenty hp).2
      rw [hq.freeMap] at hnone
      exact hnone sector hroom.inode.1 hroom.inode.2.1
  | some sector =>
    have hfirst := ha.first rfl
    have hbit : fs₁.freeMap.bit sector = false := hfirst.2.1 0 (by omega)
    have hvacant : Vacant g.own sector := hc.space.vacant hbit
    have hlt : sector < fs₂.disk.capacity := by
      rw [ha.disk.capacity, ← hc.space.size]
      exact hfirst.1
    have hmap₂ : fs₂.freeMap = fs.freeMap.fill sector 1 true := by
      rw [ha.freeMap, hq.freeMap]
      rfl
    rw [hq.freeMap] at hfirst
    have hmark : fs₂.freeMap.bit sector = true := by
      rw [hmap₂, Bitmap.fill_bit, if_pos (by omega)]
    have hsame : SameEntries g.root fs.disk fs₂.disk :=
      (hq.entries _).trans (hc.mapEntries ha.disk)
    have hl₂ := hl₁.trans ha.leads
    refine wp_mono (ha.leads.core.createIn junk name hlen h31 hlt hmark hvacant) ?_
    rintro ok fs₃ ⟨hfail, hdone⟩
    refine ⟨fun hok => ?_, fun hok => ?_⟩
    · obtain ⟨hl₃, hsame₃, hmap₃⟩ := hfail hok
      refine ⟨hl₂.trans hl₃, hsame.trans hsame₃, ?_⟩
      rcases hmap₃ with ⟨hmap₃, hnone⟩ | ⟨start, hdata, hmap₃, hno⟩
      · refine Or.inl ⟨by rw [hmap₃, hmap₂, Bitmap.fill_undo hfirst.2.1], fun hp s start hroom => ?_⟩
        have hs := hroom.inode.unique hfirst
        subst hs
        rw [hmap₂] at hnone
        exact hnone (hl₂.handles.later.plenty hp) start hroom.data.1 hroom.data.2.1
      · rw [hmap₂] at hdata hmap₃
        refine Or.inr ⟨sector, start, ⟨hfirst, hdata⟩, ?_, fun hp => ?_⟩
        · rw [hmap₃]
          exact Bitmap.fill_swap hfirst.2.1 hdata.2.1
        · rw [← hsame.accepts]
          exact hno (hl₂.handles.later.plenty hp)
    · obtain ⟨start, hl₃, hdata, hmap₃, ⟨d, hd, hadd⟩, hacc⟩ := hdone hok
      rw [hmap₂] at hdata hmap₃
      refine ⟨sector, start, hl₂.trans hl₃, ⟨hfirst, hdata⟩, ?_, hmap₃,
        ⟨d, hsame.trans hd, hadd.mono hl₂.handles.later⟩, fun hp => ?_⟩
      · cases ho : g.own sector with
        | none => rfl
        | some n => exact absurd (.inl rfl) (hvacant sector n ho)
      · rw [← hsame.accepts]
        exact hacc (hl₂.handles.later.plenty hp)

/-- A size below zero: the call returns false, unless it comes as far as the `ASSERT` of
    `inode_create`. -/
theorem Core.create_neg (h : Core fs g) (junk : Buf) (name : Name)
    (hneg : length < 0) :
    wpIf False (filesysCreate junk name length) (fun ok fs' => ok = false ∧ Leads fs g fs' g) fs := by
  rw [filesysCreate, wpIf_bind]
  refine wpIf_mono (wpIf_of_wp h.openRoot) ?_
  rintro dir fs₁ ⟨hq, ⟨rfl, hno, hc⟩ | ⟨rfl, hc⟩⟩
  · exact wpIf_pure.mpr ⟨rfl, .of_quiet hq hc rfl rfl⟩
  simp only [wpIf_bind]
  refine wpIf_mono (wpIf_of_wp (hc.allocate 1)) ?_
  intro r fs₂ ha
  have hl₂ : Leads fs g fs₂ _ :=
    (show Leads fs g fs₁ (g.bump rootDirSector) from .of_quiet hq hc rfl rfl).trans ha.leads
  cases r with
  | none =>
    simp only [wpIf_bind]
    refine wpIf_mono (wpIf_of_wp ha.leads.core.closeRoot) ?_
    rintro - fs₃ ⟨hq₃, hc₃⟩
    exact wpIf_pure.mpr ⟨rfl, hl₂.trans (.of_quiet hq₃ hc₃ rfl rfl)⟩
  | some sector => grind [inodeCreate, wpIf_bind, wpIf_assert]

end

end Pintos.Filesys
