import Pintos.Filesys.Runs
import Pintos.Lib.SlotMap

/- A directory is a finite map.

   The entries of a directory that are in use are slots with a name and an inode sector.
   `dirMap` is the map they make. `DirOpen` is what the calls need and leave: with it,
   `dir_add`, `dir_remove` and `dir_lookup` are the operations on the map. Memory
   allocation succeeds throughout. -/
namespace Pintos.Filesys

open Vm (Byte Buf wordSize)
open Lib Function

/-! Names in entries. -/

theorem cString_noNul (b : Buf) (size i : Nat) : 0 ∉ cString b size i := by
  induction size generalizing i with
  | zero => simp [cString]
  | succ size ih => grind [cString]

theorem cString_congr {b c : Buf} {size i : Nat} (h : ∀ j, i ≤ j → j < i + size → b j = c j) :
    cString b size i = cString c size i := by
  induction size generalizing i with
  | zero => rfl
  | succ size ih =>
    rw [cString, cString, h i le_rfl (by omega), ih fun j h₁ h₂ => h j (by omega) (by omega)]

theorem cString_of_strcmp {cs : List Byte} {b : Buf} {size i : Nat} (h : strcmp cs b i = true)
    (hlen : cs.length ≤ size) (hnul : 0 ∉ cs) : cString b size i = cs := by
  induction cs generalizing size i with
  | nil =>
    cases size with
    | zero => rfl
    | succ size => rw [cString, if_pos (of_decide_eq_true h)]
  | cons c cs ih =>
    simp only [strcmp, Bool.and_eq_true, decide_eq_true_eq] at h
    rw [List.mem_cons, not_or] at hnul
    cases size with
    | zero => exact absurd hlen (by simp)
    | succ size => grind [cString]

def entryName (e : Buf) : Name := ⟨cString e nameMax 4, cString_noNul e nameMax 4⟩

theorem entryName_congr {e f : Buf} (h : ∀ j < dirEntrySize, e j = f j) :
    entryName e = entryName f := by
  have hs : cString e nameMax 4 = cString f nameMax 4 := by
    refine cString_congr fun j _ hj => h j ?_
    simp only [nameMax, dirEntrySize] at hj ⊢
    omega
  simp only [entryName, hs]

theorem entryName_eq {e : Buf} {name : Name} (h : strcmp name.chars e 4 = true)
    (hv : name.Valid) : entryName e = name := by
  obtain ⟨chars, hnul⟩ := name
  simp only [entryName, Name.mk.injEq]
  exact cString_of_strcmp h hv.2 hnul

/-- The name of an entry is a string of one to fourteen characters. -/
def ProperName (e : Buf) : Prop := (entryName e).Valid ∧ strcmp (entryName e).chars e 4 = true

theorem ProperName.congr {e f : Buf} (hf : ProperName f) (h : ∀ j < dirEntrySize, e j = f j) :
    ProperName e := by
  have hname := entryName_congr h
  refine ⟨hname ▸ hf.1, ?_⟩
  rw [hname, strcmp_congr fun j _ hj => h j ?_]
  · exact hf.2
  · have hlen := hf.1.2
    simp only [nameMax, dirEntrySize] at hlen ⊢
    omega

/-! The slots of a directory. -/

def slots (n : InodeDisk) (d : Disk) : Slots Name Nat := fun k =>
  if inUse (dirEntry n d k) then
    some (entryName (dirEntry n d k), inodeSector (dirEntry n d k))
  else none

/-- The directory as a map from names to inode sectors. -/
def dirMap (n : InodeDisk) (d : Disk) : Name → Option Nat := (slots n d).get n.entryCnt

/-- The entries have proper names, each its own. -/
structure Entries (n : InodeDisk) (d : Disk) : Prop where
  proper : ∀ k < n.entryCnt, inUse (dirEntry n d k) = true → ProperName (dirEntry n d k)
  distinct : (slots n d).Distinct n.entryCnt

section Slots
variable {n : InodeDisk} {d e : Disk} {k : Nat} {name : Name}

theorem slots_eq_none : slots n d k = none ↔ inUse (dirEntry n d k) = false := by
  cases hu : inUse (dirEntry n d k) <;> simp [slots, hu]

theorem Entries.hasName (h : Entries n d) (hk : k < n.entryCnt) :
    hasName name (dirEntry n d k) = true ↔ ∃ s, slots n d k = some (name, s) := by
  simp only [Filesys.hasName, Bool.and_eq_true, slots]
  constructor
  · rintro ⟨hu, hs⟩
    obtain ⟨-, hself⟩ := h.proper k hk hu
    have hname : (entryName (dirEntry n d k)).chars = name.chars :=
      strcmp_unique (entryName _).noNul name.noNul hself hs
    refine ⟨inodeSector (dirEntry n d k), ?_⟩
    rw [if_pos hu, Option.some.injEq, Prod.mk.injEq]
    refine ⟨?_, rfl⟩
    obtain ⟨chars, hnul⟩ := name
    simpa only [entryName, Name.mk.injEq] using hname
  · rintro ⟨s, hs⟩
    split at hs
    · next hu =>
      cases hs
      exact ⟨hu, (h.proper k hk hu).2⟩
    · cases hs

/-- The sector bound to the name of an entry is the one in the entry. -/
theorem Entries.map_of_hasName (h : Entries n d) (hk : k < n.entryCnt)
    (hn : Filesys.hasName name (dirEntry n d k) = true) :
    dirMap n d name = some (inodeSector (dirEntry n d k)) := by
  obtain ⟨s, hs⟩ := (h.hasName hk).mp hn
  rw [dirMap, h.distinct.get_eq_some]
  refine ⟨k, hk, ?_⟩
  rw [hs]
  rw [slots] at hs
  split at hs
  · cases hs
    rfl
  · cases hs

theorem Entries.bound_iff (h : Entries n d) : n.Bound d name ↔ dirMap n d name ≠ none := by
  constructor
  · rintro ⟨k, hk, hn⟩
    rw [h.map_of_hasName hk hn]
    exact Option.some_ne_none _
  · intro hne
    obtain ⟨s, hs⟩ := Option.ne_none_iff_exists'.mp hne
    obtain ⟨k, hk, hsl⟩ := h.distinct.get_eq_some.mp hs
    exact ⟨k, hk, (h.hasName hk).mpr ⟨s, hsl⟩⟩

theorem Entries.valid (h : Entries n d) (hb : dirMap n d name ≠ none) : name.Valid := by
  obtain ⟨s, hs⟩ := Option.ne_none_iff_exists'.mp hb
  obtain ⟨k, hk, hsl⟩ := h.distinct.get_eq_some.mp hs
  rw [slots] at hsl
  split at hsl
  · next hu =>
    cases hsl
    exact (h.proper k hk hu).1
  · cases hsl

theorem slots_patch (e : Buf) :
    slots n (d.patch (sectorSize * n.start + dirEntrySize * k) dirEntrySize e) =
      update (slots n d) k
        (if inUse e then some (entryName e, inodeSector e) else none) := by
  funext j
  by_cases hj : j = k
  · subst hj
    have hbytes : ∀ i < dirEntrySize, dirEntry n
        (d.patch (sectorSize * n.start + dirEntrySize * j) dirEntrySize e) j i = e i :=
      fun i hi => dirEntry_patch_self n d j e hi
    rw [update_self, slots, inUse_congr hbytes, entryName_congr hbytes,
      inodeSector_congr hbytes]
  · rw [update_of_ne hj, slots, slots, dirEntry_patch_ne n d k e hj]

theorem properName_fillEntry (e : Buf) (sector : Nat) (hv : name.Valid) :
    ProperName (fillEntry e name sector) ∧ entryName (fillEntry e name sector) = name := by
  have hs := strcmp_fillEntry e sector hv
  have hname := entryName_eq hs hv
  exact ⟨⟨hname.symm ▸ hv, by rw [hname]; exact hs⟩, hname⟩

theorem Entries.patch_proper (h : Entries n d) {e : Buf} (he : inUse e = true → ProperName e) :
    ∀ j < n.entryCnt, inUse (dirEntry n
        (d.patch (sectorSize * n.start + dirEntrySize * k) dirEntrySize e) j) = true →
      ProperName (dirEntry n
        (d.patch (sectorSize * n.start + dirEntrySize * k) dirEntrySize e) j) := by
  intro j hj hu
  by_cases hjk : j = k
  · subst hjk
    have hbytes : ∀ i < dirEntrySize, dirEntry n
        (d.patch (sectorSize * n.start + dirEntrySize * j) dirEntrySize e) j i = e i :=
      fun i hi => dirEntry_patch_self n d j e hi
    rw [inUse_congr hbytes] at hu
    exact (he hu).congr hbytes
  · grind [dirEntry_patch_ne, h.proper]

theorem Entries.fill (h : Entries n d) (hk : k < n.entryCnt)
    (hfree : inUse (dirEntry n d k) = false) (hv : name.Valid) (hno : dirMap n d name = none)
    {sector : Nat} (hs : sector < wordSize) (e : Buf) :
    Entries n (d.patch (sectorSize * n.start + dirEntrySize * k) dirEntrySize
        (fillEntry e name sector)) ∧
      dirMap n (d.patch (sectorSize * n.start + dirEntrySize * k) dirEntrySize
        (fillEntry e name sector)) = update (dirMap n d) name (some sector) := by
  obtain ⟨hproper, hname⟩ := properName_fillEntry e sector hv
  have hsl := slots_patch (n := n) (d := d) (k := k) (fillEntry e name sector)
  rw [if_pos (inUse_fillEntry ..), hname, inodeSector_fillEntry _ _ hs] at hsl
  refine ⟨⟨h.patch_proper fun _ => hproper, ?_⟩, ?_⟩
  · rw [hsl]
    exact h.distinct.put hno
  · rw [dirMap, hsl]
    exact h.distinct.get_put hk (slots_eq_none.mpr hfree) hno

theorem Entries.clear (h : Entries n d) (hk : k < n.entryCnt)
    (hn : Filesys.hasName name (dirEntry n d k) = true) (e : Buf) :
    Entries n (d.patch (sectorSize * n.start + dirEntrySize * k) dirEntrySize (clearEntry e)) ∧
      dirMap n (d.patch (sectorSize * n.start + dirEntrySize * k) dirEntrySize (clearEntry e)) =
        update (dirMap n d) name none := by
  obtain ⟨s, hsl⟩ := (h.hasName hk).mp hn
  have hnew := slots_patch (n := n) (d := d) (k := k) (clearEntry e)
  rw [if_neg (by rw [inUse_clearEntry]; decide)] at hnew
  refine ⟨⟨h.patch_proper fun hu => ?_, ?_⟩, ?_⟩
  · rw [inUse_clearEntry] at hu
    cases hu
  · rw [hnew]
    exact h.distinct.clear
  · rw [dirMap, hnew]
    exact h.distinct.get_clear hk hsl

theorem slots_congr (h : SameEntries n d e) (hk : k < n.entryCnt) : slots n e k = slots n d k := by
  simp only [slots, h k hk]

theorem SameEntries.map (h : SameEntries n d e) : dirMap n e = dirMap n d :=
  Slots.get_congr fun _ => slots_congr h

theorem SameEntries.keeps (h : SameEntries n d e) (he : Entries n d) : Entries n e :=
  ⟨fun k hk => by rw [h k hk]; exact he.proper k hk, ⟨fun hi hj hv hw =>
    he.distinct.same hi hj ((slots_congr h hi).symm.trans hv) ((slots_congr h hj).symm.trans hw)⟩⟩

end Slots

/-! The operations. -/

/-- A directory that is open, in a file system whose free map can be written. -/
structure DirOpen (fs : Fs) (dir : Dir) (n : InodeDisk) : Prop where
  inode : ∃ m, fs.openInodes dir.inode = some m ∧ m.data = n ∧ m.denyWriteCnt = 0
  onDisk : n.OnDisk fs.disk.capacity
  plenty : Plenty fs.heap
  entries : Entries n fs.disk
  opened : ∀ {s m}, fs.openInodes s = some m → 0 < m.openCnt
  map : ∃ f m, fs.freeMapFile = some f ∧ MapFile fs f m ∧ ∀ a, n.Data a → ¬m.data.Data a
  size : fs.freeMap.bitCnt = fs.disk.capacity

/-- The inode in a sector can be opened. -/
def Openable (fs : Fs) (s : Nat) : Prop := fs.openInodes s = none → s < fs.disk.capacity

/-- The sectors of the inode are in use, so that they can be given back. -/
structure InUse (b : Bitmap) (s : Nat) (n : InodeDisk) : Prop where
  lt : s < b.bitCnt
  marked : b.bit s = true
  extent : n.start + n.sectors ≤ b.bitCnt
  run : b.Run n.start n.sectors true
  self : ¬n.Holds s

/-- The file in a sector can be removed: it stays open, or its sectors can be given back. -/
def Removable (fs : Fs) (s : Nat) : Prop :=
  fs.openInodes s = none → InUse fs.freeMap s (fs.disk.inodeAt s)

section Ops
variable {fs : Fs} {dir : Dir} {n : InodeDisk} {P : Prop} {s : Nat} {hp : Heap}

/-- The disk, the free map and the allocations still to come change. -/
theorem DirOpen.change (h : DirOpen fs dir n) {d : Disk} {b : Bitmap}
    (hcap : d.capacity = fs.disk.capacity) (hl : Later fs.heap hp)
    (hcnt : b.bitCnt = fs.freeMap.bitCnt) (he : Entries n d) :
    DirOpen { fs with disk := d, heap := hp, freeMap := b } dir n where
  inode := h.inode
  onDisk := hcap ▸ h.onDisk
  plenty := hl.plenty h.plenty
  entries := he
  opened := h.opened
  map := by
    obtain ⟨f, m, hf, hmf, hapart⟩ := h.map
    exact ⟨f, m, hf, hmf.congr rfl rfl hcap hcnt, hapart⟩
  size := hcnt.trans (h.size.trans hcap.symm)

theorem DirOpen.heap (h : DirOpen fs dir n) (hl : Later fs.heap hp) :
    DirOpen { fs with heap := hp } dir n :=
  h.change rfl hl rfl h.entries

/-- An inode is opened or closed: that of the directory and that of the free map stay open. -/
theorem DirOpen.setInode (h : DirOpen fs dir n) {o : Option Inode}
    (hpos : ∀ m, o = some m → 0 < m.openCnt)
    (hsame : ∀ m, fs.openInodes s = some m → s = dir.inode ∨ s = freeMapSector →
      ∃ m', o = some m' ∧ m'.data = m.data ∧ m'.denyWriteCnt = m.denyWriteCnt) :
    DirOpen { fs with openInodes := update fs.openInodes s o } dir n := by
  have hkept : ∀ {t m}, fs.openInodes t = some m → t = dir.inode ∨ t = freeMapSector →
      ∃ m', update fs.openInodes s o t = some m' ∧ m'.data = m.data ∧
        m'.denyWriteCnt = m.denyWriteCnt := by grind
  refine ⟨?_, h.onDisk, h.plenty, h.entries, fun {t m} hm => ?_, ?_, h.size⟩
  · grind [h.inode]
  · grind [h.opened]
  · obtain ⟨f, m, hf, hmf, hapart⟩ := h.map
    obtain ⟨m', hm', hdata, hdeny⟩ := hkept hmf.inode (Or.inr rfl)
    exact ⟨f, m', hf, ⟨hmf.handle, hm', hdata ▸ hmf.onDisk, hdeny.trans hmf.allowed,
      hdata ▸ hmf.size⟩, hdata ▸ hapart⟩

theorem inodeOpen_spec (hp : Plenty fs.heap) (hP : P → Openable fs s) :
    wpIf P (inodeOpen s) (fun r fs' => r = some s ∧ ∃ h m, Later fs.heap h ∧
      fs' = { fs with heap := h, openInodes := update fs.openInodes s (some m) } ∧
      ((∃ m₀, fs.openInodes s = some m₀ ∧ m = { m₀ with openCnt := m₀.openCnt + 1 }) ∨
        (fs.openInodes s = none ∧ m = ⟨1, false, 0, fs.disk.inodeAt s⟩))) fs := by
  simp only [inodeOpen, wpIf_bind, wpIf_get]
  cases hm : fs.openInodes s with
  | some m =>
    simp only [Option.isSome_some, if_true, wpIf_bind, inodeReopen, wpIf_get, wpIf_follow, setInode,
      wpIf_modify, wpIf_pure, true_and, hm, implies_true, and_true]
    intro m' hm'
    exact ⟨fs.heap, _, .refl _, rfl, Or.inl ⟨m', hm', rfl⟩⟩
  | none =>
    simp only [Option.isSome_none, Bool.false_eq_true, if_false, wpIf_bind]
    refine wpIf_malloc ?_
    simp only [hp.1 0, if_true, wpIf_bind]
    by_cases hlt : s < fs.disk.capacity
    · refine wpIf_of_wp ((wp_diskRead (by exact hlt)).mpr ?_)
      simp only [setInode, wpIf_modify, wpIf_pure, true_and]
      exact ⟨_, _, .nextStruct _, rfl, Or.inr rfl⟩
    · refine ⟨fun b t h => ?_, fun h => absurd (hP h hm) hlt⟩
      rw [diskRead, if_neg (by exact hlt)] at h
      cases h

section
variable (h : DirOpen fs dir n)
include h

theorem DirOpen.openInode {m : Inode}
    (hm : (∃ m₀, fs.openInodes s = some m₀ ∧ m = { m₀ with openCnt := m₀.openCnt + 1 }) ∨
      (fs.openInodes s = none ∧ m = ⟨1, false, 0, fs.disk.inodeAt s⟩)) :
    DirOpen { fs with openInodes := update fs.openInodes s (some m) } dir n := by
  refine h.setInode (fun m' hm' => ?_) fun m' hm' _ => ?_
  · cases hm'
    rcases hm with ⟨m₀, -, rfl⟩ | ⟨-, rfl⟩
    · exact Nat.succ_pos _
    · exact Nat.one_pos
  · rcases hm with ⟨m₀, hm₀, rfl⟩ | ⟨hnone, -⟩
    · rw [hm', Option.some.injEq] at hm₀
      exact ⟨_, rfl, by rw [hm₀], by rw [hm₀]⟩
    · rw [hm'] at hnone
      cases hnone

theorem DirOpen.add (junk : Buf) (name : Name) {sector : Nat} (hs : sector < wordSize) :
    wp (dirAdd junk dir name sector) (fun ok fs' => DirOpen fs' dir n ∧
      (ok = true ↔ name.Valid ∧ dirMap n fs.disk name = none ∧
        {k | dirMap n fs.disk k ≠ none}.ncard < n.entryCnt) ∧
      dirMap n fs'.disk =
        if ok then update (dirMap n fs.disk) name (some sector) else dirMap n fs.disk)
      fs := by
  obtain ⟨m, hm, hdata, hdeny⟩ := h.inode
  refine wp_mono (dirAdd_spec hm (hdata ▸ h.onDisk) hdeny junk name sector) ?_
  rintro ok fs' ⟨d, hp, rfl, hl, hadd⟩
  rw [hdata] at hadd
  have hiff : ok = true ↔ name.Valid ∧ dirMap n fs.disk name = none ∧
      {k | dirMap n fs.disk k ≠ none}.ncard < n.entryCnt := by
    rw [hadd.exact_ h.plenty.2, h.entries.bound_iff, not_not, dirMap, h.entries.distinct.ncard_lt]
    simp only [slots_eq_none]
  cases ok with
  | false =>
    have hsame : SameEntries n fs.disk d := hadd.same rfl
    exact ⟨h.change hadd.capacity hl rfl (hsame.keeps h.entries), hiff, hsame.map⟩
  | true =>
    obtain ⟨hv, k, hk, e, rfl, hfree⟩ := hadd.filled rfl
    obtain ⟨hent, hmap⟩ := h.entries.fill hk (hfree h.plenty.2) hv (hiff.mp rfl).2.1 hs e
    exact ⟨h.change rfl hl rfl hent, hiff, hmap⟩

theorem DirOpen.lookup (name : Name) :
    wp (lookup dir name) (fun r fs' => ∃ hp, Later fs.heap hp ∧ fs' = { fs with heap := hp } ∧
      ((r = none ∧ dirMap n fs.disk name = none) ∨ ∃ k < n.entryCnt,
        r = some (dirEntry n fs.disk k, dirEntrySize * k) ∧
        hasName name (dirEntry n fs.disk k) = true)) fs := by
  obtain ⟨m, hm, hdata, -⟩ := h.inode
  refine wp_mono (lookup_spec hm (hdata ▸ h.onDisk) name) ?_
  rintro r fs' ⟨hp, rfl, hl, hfound⟩
  rw [hdata] at hfound
  refine ⟨hp, hl, rfl, ?_⟩
  cases r with
  | none =>
    refine Or.inl ⟨rfl, ?_⟩
    by_contra hne
    obtain ⟨k, hk, hn⟩ := h.entries.bound_iff.mpr hne
    rw [hfound h.plenty.2 k hk] at hn
    cases hn
  | some x =>
    obtain ⟨e, ofs⟩ := x
    obtain ⟨k, hk, rfl, rfl, hn, -⟩ := hfound
    exact Or.inr ⟨k, hk, rfl, hn⟩

theorem DirOpen.dirLookup (name : Name)
    (hP : P → ∀ s, dirMap n fs.disk name = some s → Openable fs s) :
    wpIf P (dirLookup dir name) (fun r fs' => DirOpen fs' dir n ∧ r = dirMap n fs.disk name ∧
      dirMap n fs'.disk = dirMap n fs.disk) fs := by
  rw [Filesys.dirLookup, wpIf_bind]
  refine wpIf_mono (wpIf_of_wp (h.lookup name)) ?_
  rintro r fs₁ ⟨hp, hl, rfl, ⟨rfl, hnone⟩ | ⟨k, hk, rfl, hn⟩⟩
  · exact wpIf_pure.mpr ⟨h.heap hl, hnone.symm, rfl⟩
  · have hmap := h.entries.map_of_hasName hk hn
    have h₁ := h.heap hl
    refine wpIf_mono (inodeOpen_spec h₁.plenty fun p => hP p _ hmap) ?_
    rintro r fs₂ ⟨rfl, hp₂, m, hl₂, rfl, hm⟩
    exact ⟨(h₁.openInode hm).heap hl₂, hmap.symm, rfl⟩

theorem DirOpen.release {m : InodeDisk} (hP : P → InUse fs.freeMap s m) :
    wpIf P (do freeMapRelease s 1; freeMapRelease m.start (bytesToSectors m.length))
      (fun _ fs' => DirOpen fs' dir n ∧ dirMap n fs'.disk = dirMap n fs.disk) fs := by
  obtain ⟨f, mm, hf, hmf, hapart⟩ := h.map
  rw [wpIf_bind]
  refine wpIf_mono (freeMapRelease_frame hf hmf h.size fun p => ⟨h.size ▸ (hP p).lt, fun j hj => ?_⟩) ?_
  · rw [show j = 0 by omega]
    exact (hP p).marked
  rintro - fs₁ ⟨d₁, hp₁, b₁, rfl, hcnt₁, hoff₁, hl₁, hb₁⟩
  refine wpIf_mono (@freeMapRelease_frame { fs with disk := d₁, heap := hp₁, freeMap := b₁ } f mm hf
    (hmf.congr rfl rfl hoff₁.capacity hcnt₁) (hcnt₁.trans (h.size.trans hoff₁.capacity.symm)) _ _ P
    fun p => ⟨by rw [hoff₁.capacity, ← h.size]; exact (hP p).extent, fun j hj => ?_⟩) ?_
  · -- the sector that was given back first is not one of these
    have hself := (hP p).self
    rw [InodeDisk.Holds] at hself
    rw [hb₁ p, Bitmap.fill_bit, if_neg (by rw [InodeDisk.sectors] at hself; omega)]
    exact (hP p).run j hj
  · rintro - fs₂ ⟨d₂, hp₂, b₂, rfl, hcnt₂, hoff₂, hl₂, -⟩
    have hoff := hoff₁.trans hoff₂
    have hsame : SameEntries n fs.disk d₂ := .of_data fun a ha => hoff.byte a (hapart a ha)
    exact ⟨h.change hoff.capacity (hl₁.trans hl₂) (hcnt₂.trans hcnt₁) (hsame.keeps h.entries),
      hsame.map⟩

/-- The end of `dir_remove`: the inode, which has been opened, is marked and closed. -/
theorem DirOpen.discard {m : Inode} (hm : fs.openInodes s = some m)
    (hlast : m.openCnt = 1 → s ≠ dir.inode ∧ s ≠ freeMapSector)
    (hP : P → m.openCnt = 1 → InUse fs.freeMap s m.data) :
    wpIf P (do inodeRemove s; inodeClose (some s)) (fun _ fs' => DirOpen fs' dir n ∧
      dirMap n fs'.disk = dirMap n fs.disk) fs := by
  have hpos := h.opened hm
  simp only [inodeRemove, inodeClose, wpIf_bind, wpIf_get, wpIf_follow, Filesys.setInode,
    wpIf_modify, update_self, Option.isSome_some, implies_true, and_true, hm,
    Option.some.injEq, forall_eq']
  by_cases hone : m.openCnt = 1
  · obtain ⟨hdir, hmap⟩ := hlast hone
    simp only [hone, if_true, wpIf_bind, wpIf_modify, update_idem]
    have hclosed : DirOpen { fs with openInodes := update fs.openInodes s none } dir n :=
      h.setInode (fun m' hm' => by cases hm') fun m' _ hs =>
        absurd hs (not_or.mpr ⟨hdir, hmap⟩)
    have hrel := hclosed.release (P := P) (s := s) (m := m.data) fun p => hP p hone
    rwa [wpIf_bind] at hrel
  · grind [wpIf_modify, update_idem, h.setInode]

theorem DirOpen.dirRemove (name : Name)
    (hP : P → ∀ s, dirMap n fs.disk name = some s → Removable fs s) :
    wpIf P (dirRemove dir name) (fun ok fs' => DirOpen fs' dir n ∧
      (ok = true ↔ dirMap n fs.disk name ≠ none) ∧
      dirMap n fs'.disk = update (dirMap n fs.disk) name none) fs := by
  rw [Filesys.dirRemove, wpIf_bind]
  refine wpIf_mono (wpIf_of_wp (h.lookup name)) ?_
  rintro r fs₁ ⟨hp, hl, rfl, ⟨rfl, hnone⟩ | ⟨k, hk, rfl, hn⟩⟩
  · refine wpIf_pure.mpr ⟨h.heap hl, by simp [hnone], ?_⟩
    rw [← hnone, update_eq_self]
  · have hmap := h.entries.map_of_hasName hk hn
    have h₁ := h.heap hl
    simp only [wpIf_bind]
    refine wpIf_mono (inodeOpen_spec h₁.plenty fun p hc => h.size ▸ (hP p _ hmap hc).lt) ?_
    rintro r fs₂ ⟨rfl, hp₂, m, hl₂, rfl, hm⟩
    have h₂ := (h₁.openInode hm).heap hl₂
    obtain ⟨md, hmd, hdata, hdeny⟩ := h₂.inode
    simp only [wpIf_bind]
    refine wpIf_mono (wpIf_of_wp (inodeWriteAt_spec hmd (hdata ▸ h₂.onDisk) hdeny
      (clearEntry (dirEntry n fs.disk k)) dirEntrySize (dirEntrySize * k))) ?_
    rintro cnt fs₃ ⟨hp₃, rfl, hmv⟩
    rw [hdata] at hmv ⊢
    obtain rfl : cnt = dirEntrySize := ((hmv.small (by decide)).resolve_right fun hc =>
      hc.2 h₂.plenty.2).trans ((want_entry n k).mpr hk)
    -- the entry is erased: what is left is to close the inode
    obtain ⟨hent, hclear⟩ := h.entries.clear hk hn (dirEntry n fs.disk k)
    have hnew : m.openCnt = 1 → fs.openInodes (inodeSector (dirEntry n fs.disk k)) = none ∧
        m = ⟨1, false, 0, fs.disk.inodeAt (inodeSector (dirEntry n fs.disk k))⟩ := by
      intro hone
      rcases hm with ⟨m₀, hm₀, rfl⟩ | hnew
      · have hpos : 0 < m₀.openCnt := h.opened hm₀
        exact absurd hone (by simp only; omega)
      · exact hnew
    have h₃ := h₂.change (d := fs.disk.patch (sectorSize * n.start + dirEntrySize * k) dirEntrySize
      (clearEntry (dirEntry n fs.disk k))) (b := fs.freeMap) rfl hmv.later rfl hent
    have hdisc := h₃.discard (P := P) (update_self ..) (fun hone => ?_) fun p hone => ?_
    · rw [wpIf_bind] at hdisc
      simp only [if_true, decide_true]
      refine wpIf_mono hdisc fun _ t hclose => wpIf_mono hclose ?_
      rintro - fs₄ ⟨h₄, hsame⟩
      exact wpIf_pure.mpr ⟨h₄, by simp [hmap], hsame.trans hclear⟩
    · obtain ⟨hclosed, -⟩ := hnew hone
      obtain ⟨md, hmd, -⟩ := h.inode
      obtain ⟨f, mm, -, hmf, -⟩ := h.map
      refine ⟨fun hs => ?_, fun hs => ?_⟩
      · rw [hs, hmd] at hclosed
        cases hclosed
      · rw [hs, hmf.inode] at hclosed
        cases hclosed
    · obtain ⟨hclosed, rfl⟩ := hnew hone
      exact hP p _ hmap hclosed

end

end Ops

end Pintos.Filesys
