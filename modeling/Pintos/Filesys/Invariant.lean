import Pintos.Filesys.Space

/- What holds of the file system between, and inside, its operations.

   `Ghost` records what the state does not say: the inodes that exist, how many
   references there are to each open inode and how many of them deny writes. `Core` ties
   it to the state. It is kept by opening and closing inodes and by writes, so an
   operation keeps it whatever order it does them in. -/
namespace Pintos.Filesys

open Lib Function

/-! The root directory. -/

/-- A sector is that of some file in a directory. -/
def Named (n : InodeDisk) (d : Disk) (s : Nat) : Prop :=
  ∃ k < n.entryCnt, inUse (dirEntry n d k) = true ∧ inodeSector (dirEntry n d k) = s

/-- The entries of a directory name existing files, each one a file of its own. -/
structure Listing (n : InodeDisk) (d : Disk) (own : Nat → Option InodeDisk) : Prop where
  whole : n.length.toNat % dirEntrySize = 0
  owned : ∀ {s}, Named n d s → (own s).isSome
  proper : ∀ {s}, Named n d s → s ≠ freeMapSector ∧ s ≠ rootDirSector
  distinct : ∀ {k j}, k < n.entryCnt → j < n.entryCnt → inUse (dirEntry n d k) = true →
    inUse (dirEntry n d j) = true →
    inodeSector (dirEntry n d k) = inodeSector (dirEntry n d j) → k = j

def SameEntries (n : InodeDisk) (d e : Disk) : Prop :=
  ∀ k < n.entryCnt, dirEntry n e k = dirEntry n d k

theorem SameEntries.of_data {n : InodeDisk} {d e : Disk}
    (h : ∀ a, n.Data a → e.byte a = d.byte a) : SameEntries n d e := by
  intro k hk
  funext j
  simp only [dirEntry, readEntry, memcpy_start]
  by_cases hj : j < dirEntrySize
  · rw [if_pos hj, if_pos hj]
    refine h _ ?_
    simp only [InodeDisk.entryCnt, InodeDisk.Data, dirEntrySize, sectorSize] at hk hj ⊢
    omega
  · rw [if_neg hj, if_neg hj]

theorem SameEntries.named {n : InodeDisk} {d e : Disk} (h : SameEntries n d e) (s : Nat) :
    Named n e s ↔ Named n d s := by
  constructor
  · rintro ⟨k, hk, hu, hs⟩
    rw [h k hk] at hu hs
    exact ⟨k, hk, hu, hs⟩
  · rintro ⟨k, hk, hu, hs⟩
    rw [← h k hk] at hu hs
    exact ⟨k, hk, hu, hs⟩

theorem Listing.congr {n : InodeDisk} {d e : Disk} {own own' : Nat → Option InodeDisk}
    (h : Listing n d own) (hsame : SameEntries n d e)
    (hown : ∀ s, Named n d s → (own s).isSome → (own' s).isSome) : Listing n e own' where
  whole := h.whole
  owned := fun hs => by
    rw [hsame.named] at hs
    exact hown _ hs (h.owned hs)
  proper := fun hs => h.proper ((hsame.named _).mp hs)
  distinct := fun hk hj => by
    rw [hsame _ hk, hsame _ hj]
    exact h.distinct hk hj

/-! The state and what it stands for. -/

structure Ghost where
  own : Nat → Option InodeDisk
  cnt : Nat → Nat
  deny : Nat → Nat
  map : InodeDisk
  root : InodeDisk

structure Core (fs : Fs) (g : Ghost) : Prop where
  space : Space fs.disk fs.freeMap g.own
  opened : ∀ {s m}, fs.openInodes s = some m →
    g.own s = some m.data ∧ m.openCnt = g.cnt s ∧ m.denyWriteCnt = g.deny s
  closed : ∀ s, fs.openInodes s = none ↔ g.cnt s = 0
  deny_le : ∀ s, g.deny s ≤ g.cnt s
  mapFile : ∃ f F, fs.freeMapFile = some f ∧ fs.files f = some F ∧ F.inode = freeMapSector
  mapNode : g.own freeMapSector = some g.map
  mapSize : g.map.length = byteCnt fs.freeMap.bitCnt
  mapOpen : 0 < g.cnt freeMapSector
  mapAllowed : g.deny freeMapSector = 0
  rootNode : g.own rootDirSector = some g.root
  rootAllowed : g.deny rootDirSector = 0
  listing : Listing g.root fs.disk g.own
  kept : ∀ {s m}, fs.openInodes s = some m → m.removed = true →
    s ≠ freeMapSector ∧ s ≠ rootDirSector ∧ ¬Named g.root fs.disk s

section Core
variable {fs : Fs} {g : Ghost} {s : Nat} {n : InodeDisk} {d : Disk}

theorem Core.inode (h : Core fs g) (hs : 0 < g.cnt s) : ∃ m, fs.openInodes s = some m := by
  cases hm : fs.openInodes s with
  | some m => exact ⟨m, rfl⟩
  | none =>
    have := (h.closed s).mp hm
    omega

theorem Core.inodeOf (h : Core fs g) (hs : 0 < g.cnt s) (hn : g.own s = some n) :
    ∃ m, fs.openInodes s = some m ∧ m.data = n ∧ m.openCnt = g.cnt s ∧
      m.denyWriteCnt = g.deny s := by
  obtain ⟨m, hm⟩ := h.inode hs
  obtain ⟨ho, hc, hd⟩ := h.opened hm
  rw [hn, Option.some.injEq] at ho
  exact ⟨m, hm, ho.symm, hc, hd⟩

theorem Core.map (h : Core fs g) :
    ∃ f m, fs.freeMapFile = some f ∧ MapFile fs f m ∧ m.data = g.map := by
  obtain ⟨f, F, hf, hF, hi⟩ := h.mapFile
  obtain ⟨m, hm, hdata, -, hdeny⟩ := h.inodeOf h.mapOpen h.mapNode
  exact ⟨f, m, hf, ⟨⟨F, hF, hi⟩, hm, hdata ▸ (h.space.fine h.mapNode).onDisk,
    hdeny.trans h.mapAllowed, hdata ▸ h.mapSize⟩, hdata⟩

theorem Core.heap (h : Core fs g) (hp : Heap) : Core { fs with heap := hp } g :=
  { h with }

/-- Writes to the data of a file other than the root directory. -/
theorem Core.sameEntries (h : Core fs g) (hs : g.own s = some n) (hne : s ≠ rootDirSector)
    (hoff : SameOff n fs.disk d) : SameEntries g.root fs.disk d :=
  .of_data fun _ ha => hoff.byte _ (h.space.data_apart hs h.rootNode hne ha)

theorem Core.write (h : Core fs g) (hs : g.own s = some n) (hne : s ≠ rootDirSector)
    (hoff : SameOff n fs.disk d) : Core { fs with disk := d } g :=
  have hsame := h.sameEntries hs hne hoff
  { h with
    space := h.space.write hs hoff
    listing := h.listing.congr hsame fun _ _ => id
    kept := fun hm hr => by
      rw [hsame.named]
      exact h.kept hm hr }

/-! References to inodes. -/

def Ghost.bump (g : Ghost) (s : Nat) : Ghost :=
  { g with cnt := update g.cnt s (g.cnt s + 1) }

def Ghost.drop (g : Ghost) (s : Nat) : Ghost :=
  { g with cnt := update g.cnt s (g.cnt s - 1) }

theorem Ghost.bump_self (g : Ghost) (s : Nat) : (g.bump s).cnt s = g.cnt s + 1 :=
  update_self ..

theorem Ghost.bump_ne (g : Ghost) {s t : Nat} (h : t ≠ s) : (g.bump s).cnt t = g.cnt t :=
  update_of_ne h ..

theorem Ghost.drop_bump (g : Ghost) (s : Nat) : (g.bump s).drop s = g := by
  simp only [bump, drop, update_self, Nat.add_sub_cancel, update_idem,
    update_eq_self]

theorem Core.setInode (h : Core fs g) {m : Inode} {c dc : Nat} (hm : g.own s = some m.data)
    (hcnt : m.openCnt = c) (hpos : 0 < c) (hdeny : m.denyWriteCnt = dc) (hle : dc ≤ c)
    (hsys : s = freeMapSector ∨ s = rootDirSector → dc = 0)
    (hkept : m.removed = true → s ≠ freeMapSector ∧ s ≠ rootDirSector ∧ ¬Named g.root fs.disk s) :
    Core { fs with openInodes := update fs.openInodes s (some m) }
      { g with cnt := update g.cnt s c, deny := update g.deny s dc } where
  space := h.space
  opened := fun {t m'} ht => by grind [h.opened]
  closed := fun t => by grind [h.closed]
  deny_le := fun t => by
    by_cases hts : t = s
    · subst hts
      simpa only [update_self] using hle
    · simpa only [update_of_ne hts] using h.deny_le t
  mapFile := h.mapFile
  mapNode := h.mapNode
  mapSize := h.mapSize
  mapOpen := by grind [h.mapOpen]
  mapAllowed := by grind [h.mapAllowed]
  rootNode := h.rootNode
  rootAllowed := by grind [h.rootAllowed]
  listing := h.listing
  kept := fun {t m'} ht hr => by grind [h.kept]

theorem Core.closeInode (h : Core fs g) (hcnt : g.cnt s = 1) (hdeny : g.deny s = 0)
    (hs : s ≠ freeMapSector) :
    Core { fs with openInodes := update fs.openInodes s none } (g.drop s) where
  space := h.space
  opened := fun {t m} ht => by
    by_cases hts : t = s
    · subst hts
      simp only [update_self] at ht
      cases ht
    · simp only [Ghost.drop, update_of_ne hts] at ht ⊢
      exact h.opened ht
  closed := fun t => by
    by_cases hts : t = s
    · subst hts
      simp only [Ghost.drop, update_self, hcnt]
    · simp only [Ghost.drop, update_of_ne hts]
      exact h.closed t
  deny_le := fun t => by
    by_cases hts : t = s
    · grind [Ghost.drop]
    · simpa only [Ghost.drop, update_of_ne hts] using h.deny_le t
  mapFile := h.mapFile
  mapNode := h.mapNode
  mapSize := h.mapSize
  mapOpen := by
    simpa only [Ghost.drop, update_of_ne (Ne.symm hs)] using h.mapOpen
  mapAllowed := h.mapAllowed
  rootNode := h.rootNode
  rootAllowed := h.rootAllowed
  listing := h.listing
  kept := fun {t m} ht hr => by
    by_cases hts : t = s
    · subst hts
      simp only [update_self] at ht
      cases ht
    · simp only [update_of_ne hts] at ht
      exact h.kept ht hr

/-- The sectors of an inode that nobody refers to are given back. -/
theorem Core.release (h : Core fs g) (hn : g.own s = some n) (hcnt : g.cnt s = 0)
    (hs : s ≠ rootDirSector) (hnamed : ¬Named g.root fs.disk s) {hp : Heap}
    (hoff : SameOff g.map fs.disk d) : Core { fs with
        disk := d
        heap := hp
        freeMap := (fs.freeMap.fill s 1 false).fill n.start n.sectors false }
      { g with own := update g.own s none } := by
  have hs0 : s ≠ freeMapSector := by
    rintro rfl
    have := h.mapOpen
    omega
  have hsame : SameEntries g.root fs.disk d := h.sameEntries h.mapNode (by decide) hoff
  have hmap : update g.own s none freeMapSector = some g.map := by
    rw [update_of_ne (Ne.symm hs0)]
    exact h.mapNode
  refine ⟨(h.space.release hn).write hmap hoff, fun {t m} ht => ?_, h.closed, h.deny_le,
    h.mapFile, hmap, ?_, h.mapOpen, h.mapAllowed, ?_, h.rootAllowed,
    h.listing.congr hsame fun t ht ho => ?_, fun {t m} ht hr => ?_⟩
  · grind [h.closed, h.opened]
  · simpa only [Bitmap.fill_bitCnt] using h.mapSize
  · simpa only [update_of_ne (Ne.symm hs)] using h.rootNode
  · grind
  · rw [hsame.named]
    exact h.kept ht hr

end Core

/-! What a command leaves alone. -/

/-- Open files are as they were, and allocations that succeed go on doing so. -/
structure SameHandles (fs fs' : Fs) : Prop where
  files : fs'.files = fs.files
  nextFile : fs'.nextFile = fs.nextFile
  freeMapFile : fs'.freeMapFile = fs.freeMapFile
  later : Later fs.heap fs'.heap

/-- The disk and the free map are as well. -/
structure Quiet (fs fs' : Fs) : Prop extends SameHandles fs fs' where
  disk : fs'.disk = fs.disk
  freeMap : fs'.freeMap = fs.freeMap

theorem SameHandles.refl (fs : Fs) : SameHandles fs fs := ⟨rfl, rfl, rfl, .refl _⟩

theorem SameHandles.trans {a b c : Fs} (h₁ : SameHandles a b) (h₂ : SameHandles b c) :
    SameHandles a c :=
  ⟨h₂.files.trans h₁.files, h₂.nextFile.trans h₁.nextFile, h₂.freeMapFile.trans h₁.freeMapFile,
    h₁.later.trans h₂.later⟩

theorem Quiet.trans {a b c : Fs} (h₁ : Quiet a b) (h₂ : Quiet b c) : Quiet a c :=
  ⟨h₁.toSameHandles.trans h₂.toSameHandles, h₂.disk.trans h₁.disk, h₂.freeMap.trans h₁.freeMap⟩

section Inode
variable {fs : Fs} {g : Ghost} {s : Nat} {n : InodeDisk} {m : Inode}

theorem Core.sys_allowed (h : Core fs g) (hs : s = freeMapSector ∨ s = rootDirSector) :
    g.deny s = 0 := by
  rcases hs with rfl | rfl
  · exact h.mapAllowed
  · exact h.rootAllowed

theorem Core.setCount (h : Core fs g) (hm : fs.openInodes s = some m) {c : Nat} (hpos : 0 < c)
    (hle : g.deny s ≤ c) : Core { fs with
        openInodes := update fs.openInodes s (some { m with openCnt := c }) }
      { g with cnt := update g.cnt s c } := by
  obtain ⟨ho, -, hd⟩ := h.opened hm
  have hset := h.setInode (m := { m with openCnt := c }) ho rfl hpos hd hle h.sys_allowed
    fun hr => h.kept hm hr
  rwa [update_eq_self] at hset

theorem Core.inodeReopen (h : Core fs g) (hs : 0 < g.cnt s) :
    wp (inodeReopen s) (fun _ fs' => Quiet fs fs' ∧ Core fs' (g.bump s)) fs := by
  obtain ⟨m, hm⟩ := h.inode hs
  have hc := (h.opened hm).2.1
  simp only [Filesys.inodeReopen, wp_bind, wp_get, wp_follow, Filesys.setInode, wp_modify]
  refine ⟨m, hm, ⟨⟨rfl, rfl, rfl, .refl _⟩, rfl, rfl⟩, ?_⟩
  rw [hc]
  exact h.setCount hm (by omega) (by have := h.deny_le s; omega)

theorem Core.inodeOpen (h : Core fs g) (hn : g.own s = some n) :
    wp (inodeOpen s) (fun r fs' => Quiet fs fs' ∧
      ((r = none ∧ ¬Plenty fs.heap ∧ Core fs' g) ∨ (r = some s ∧ Core fs' (g.bump s)))) fs := by
  simp only [Filesys.inodeOpen, wp_bind, wp_get]
  cases hm : fs.openInodes s with
  | some m =>
    have hpos : 0 < g.cnt s := by grind [h.closed]
    simp only [Option.isSome_some, if_true, wp_bind]
    refine wp_mono (h.inodeReopen hpos) ?_
    rintro - fs' ⟨hq, hc⟩
    exact wp_pure.mpr ⟨hq, Or.inr ⟨rfl, hc⟩⟩
  | none =>
    have hz := (h.closed s).mp hm
    simp only [Option.isSome_none, Bool.false_eq_true, if_false, wp_bind, wp_malloc]
    cases h0 : fs.heap.structs 0 with
    | false =>
      have hno : ¬Plenty fs.heap := fun hp => by simp [hp.1 0] at h0
      simp only [Bool.false_eq_true, if_false, wp_pure]
      exact ⟨⟨⟨rfl, rfl, rfl, .nextStruct _⟩, rfl, rfl⟩,
        Or.inl ⟨trivial, hno, h.heap _⟩⟩
    | true =>
      simp only [if_true, wp_bind]
      rw [wp_diskRead (by exact (h.space.fine hn).sector_lt)]
      simp only [Filesys.setInode, wp_modify, wp_pure]
      refine ⟨⟨⟨rfl, rfl, rfl, .nextStruct _⟩, rfl, rfl⟩, Or.inr ⟨trivial, ?_⟩⟩
      have hdata : fs.disk.inodeAt s = n := (h.space.fine hn).stored
      have hd : g.deny s = 0 := Nat.le_zero.mp (hz ▸ h.deny_le s)
      have hset := (h.heap fs.heap.nextStruct).setInode
        (m := ⟨1, false, 0, fs.disk.inodeAt s⟩) (c := g.cnt s + 1) (hn.trans (by rw [hdata]))
        (by rw [hz]) (by omega) rfl (Nat.zero_le _) (fun _ => rfl) fun hr => by cases hr
      rw [← hd, update_eq_self] at hset
      rw [hd] at hset
      exact hset

/-- What giving the sectors of an inode back does. -/
structure Released (fs fs' : Fs) (g : Ghost) (s : Nat) (n : InodeDisk) : Prop where
  handles : SameHandles fs fs'
  core : Core fs' { g with own := update g.own s none }
  freeMap : fs'.freeMap = (fs.freeMap.fill s 1 false).fill n.start n.sectors false
  disk : SameOff g.map fs.disk fs'.disk
  synced : Bounces fs.heap → Synced g.map fs.disk fs.freeMap → Synced g.map fs'.disk fs'.freeMap

theorem Core.releaseSectors (h : Core fs g) (hn : g.own s = some n) (hcnt : g.cnt s = 0)
    (hs : s ≠ rootDirSector) (hnamed : ¬Named g.root fs.disk s) :
    wp (do freeMapRelease s 1; freeMapRelease n.start (bytesToSectors n.length))
      (fun _ fs' => Released fs fs' g s n) fs := by
  obtain ⟨f, m₀, hf, hmf, hdata⟩ := h.map
  have hfine := h.space.fine hn
  rw [wp_bind]
  refine wp_mono (freeMapRelease_spec hf hmf h.space.size hfine.sector_lt (h.space.marked hn)) ?_
  rintro - fs₁ ⟨d₁, h₁, rfl, hoff₁, hl₁, hp₁⟩
  have hcap := hoff₁.capacity
  have hrun : (fs.freeMap.fill s 1 false).Run n.start n.sectors true := by
    intro j hj
    have hself := hfine.self
    rw [InodeDisk.Holds] at hself
    rw [Bitmap.fill_bit, if_neg (by omega)]
    exact h.space.run hn j hj
  refine wp_mono (@freeMapRelease_spec
    { fs with disk := d₁, heap := h₁, freeMap := fs.freeMap.fill s 1 false } f m₀ hf
    (hmf.congr rfl rfl hcap (Bitmap.fill_bitCnt ..))
    (by rw [Bitmap.fill_bitCnt, hcap]; exact h.space.size) _ _
    (by rw [hcap]; exact hfine.extent_le) hrun) ?_
  rintro - fs₂ ⟨d₂, h₂, rfl, hoff₂, hl₂, hp₂⟩
  rw [hdata] at hoff₁ hoff₂ hp₁ hp₂
  refine ⟨⟨rfl, rfl, rfl, hl₁.trans hl₂⟩,
    h.release hn hcnt hs hnamed (hoff₁.trans hoff₂), rfl, hoff₁.trans hoff₂, fun hp hsync => ?_⟩
  refine (hsync.refill ?_ (hp₁ hp)).refill ?_ (hp₂ (hl₁.bounces hp))
  · rw [h.space.size]
    exact hfine.sector_lt
  · rw [Bitmap.fill_bitCnt, h.space.size]
    exact hfine.extent_le

/-- `inode_close`: the sectors go with the last reference to a removed inode, and with no
    other. -/
theorem Core.inodeClose (h : Core fs g) (hm : fs.openInodes s = some m) (hdeny : g.deny s < g.cnt s)
    (hmap : s = freeMapSector → 1 < g.cnt s) : wp (inodeClose (some s)) (fun _ fs' =>
      (g.cnt s = 1 ∧ m.removed = true → Released fs fs' (g.drop s) s m.data) ∧
      (¬(g.cnt s = 1 ∧ m.removed = true) → Quiet fs fs' ∧ Core fs' (g.drop s))) fs := by
  obtain ⟨hown, hcnt, -⟩ := h.opened hm
  simp only [Filesys.inodeClose, wp_bind, wp_get, wp_follow]
  refine ⟨m, hm, ?_⟩
  rw [hcnt]
  by_cases hlast : g.cnt s = 1
  · have hs0 : s ≠ freeMapSector := fun hs => by
      have := hmap hs
      omega
    have hcore := h.closeInode hlast (by omega) hs0
    rw [if_pos hlast, wp_bind, Filesys.setInode, wp_modify]
    by_cases hr : m.removed = true
    · obtain ⟨-, hs1, hnamed⟩ := h.kept hm hr
      rw [if_pos hr]
      refine wp_mono (hcore.releaseSectors hown
        (by simp only [Ghost.drop, update_self, hlast]) hs1 hnamed) ?_
      rintro - fs' ⟨hh, hc, hf, hd, hst⟩
      exact ⟨fun _ => ⟨⟨hh.files, hh.nextFile, hh.freeMapFile, hh.later⟩, hc, hf, hd, hst⟩,
        fun hno => absurd ⟨hlast, hr⟩ hno⟩
    · rw [if_neg hr, wp_pure]
      exact ⟨fun hc => absurd hc.2 hr, fun _ => ⟨⟨⟨rfl, rfl, rfl, .refl _⟩, rfl, rfl⟩, hcore⟩⟩
  · rw [if_neg hlast, Filesys.setInode, wp_modify]
    exact ⟨fun hc => absurd hc.1 hlast,
      fun _ => ⟨⟨⟨rfl, rfl, rfl, .refl _⟩, rfl, rfl⟩, h.setCount hm (by omega) (by omega)⟩⟩

end Inode

end Pintos.Filesys
