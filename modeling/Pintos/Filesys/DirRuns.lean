import Pintos.Filesys.DirMap

/- Directories from their making on.

   A run starts with `dir_create` and goes on with calls of `dir_add`, `dir_remove` and
   `dir_lookup`. `directory_is_map_iff` says when each state of each run is that of a map
   with as many entries as were asked for: exactly if their size in bytes is a `size_t`.
   If it is not, the product wraps and the directory is smaller (`directory_too_small`). -/
namespace Pintos.Filesys

open Vm (Byte Buf wordSize)
open Lib Function

/-! Reading a directory. -/

/-- So many calls of `dir_readdir`. -/
def readdirs : (cnt : Nat) → Dir → FsM (List (Option (List Byte)))
  | 0, _ => return []
  | cnt + 1, dir => do
    let (name, dir) ← dirReaddir dir
    return name :: (← readdirs cnt dir)

section Read
variable {fs : Fs} {dir : Dir} {n : InodeDisk}

/-- One call: the name of the next slot in use, if there is one. -/
theorem DirOpen.dirReaddir (h : DirOpen fs dir n) (k : Nat) :
    wp (dirReaddir ⟨dir.inode, dirEntrySize * k⟩) (fun r fs' => ∃ hp j, Later fs.heap hp ∧
      fs' = { fs with heap := hp } ∧ r.2 = ⟨dir.inode, dirEntrySize * j⟩ ∧
      r.1 = (((slots n fs.disk).keysFrom n.entryCnt k)[0]?).map Name.chars ∧
      ((slots n fs.disk).keysFrom n.entryCnt k).tail = (slots n fs.disk).keysFrom n.entryCnt j)
      fs := by
  obtain ⟨m, hm, hdata, -⟩ := h.inode
  rw [Filesys.dirReaddir, wp_bind]
  refine wp_mono (entryTurns_spec hm) ?_
  rintro turns fs' ⟨rfl, ht, h0⟩
  rw [wp_bind]
  refine wp_mono (entryLoop_spec _ turns k _ fs' hm (hdata ▸ h.onDisk) (by omega) h0) ?_
  rintro ⟨found, e, ofs⟩ fs'' ⟨hp, j, rfl, hl, hend⟩
  rw [hdata] at hend
  obtain rfl : ofs = dirEntrySize * j := hend.offset
  have hskip := Slots.keysFrom_skip (t := slots n fs'.disk) hend.le fun i h₁ h₂ =>
    ⟨(hend.before i h₁ h₂).1, slots_eq_none.mpr (hend.before i h₁ h₂).2⟩
  cases found with
  | true =>
    obtain ⟨hj, he, hu⟩ := hend.found rfl
    have hslot : slots n fs'.disk j =
      some (entryName (dirEntry n fs'.disk j), inodeSector (dirEntry n fs'.disk j)) := if_pos hu
    rw [Slots.keysFrom_succ hj, hslot] at hskip
    refine wp_pure.mpr ⟨hp, j + 1, hl, rfl, rfl, ?_, ?_⟩
    · rw [hskip, show e = dirEntry n fs'.disk j from he]
      rfl
    · rw [hskip]
      rfl
  | false =>
    have hempty := Slots.keysFrom_end (t := slots n fs'.disk) (hend.short rfl h.plenty.2)
    refine wp_pure.mpr ⟨hp, j, hl, rfl, rfl, ?_, ?_⟩
    · rw [hskip, hempty]
      rfl
    · rw [hskip, hempty]
      rfl

/-- So many calls list so many of the names, in the order of the slots. -/
theorem DirOpen.readdirs (h : DirOpen fs dir n) (cnt k : Nat) :
    wp (readdirs cnt ⟨dir.inode, dirEntrySize * k⟩) (fun out _ => out = (List.range cnt).map fun i =>
      (((slots n fs.disk).keysFrom n.entryCnt k)[i]?).map Name.chars) fs := by
  induction cnt generalizing fs k with
  | zero => exact wp_pure.mpr rfl
  | succ cnt ih =>
    rw [Filesys.readdirs, wp_bind]
    refine wp_mono (h.dirReaddir k) ?_
    rintro ⟨name, dir'⟩ fs₁ ⟨hp, j, hl, rfl, hdir, hname, htail⟩
    obtain rfl : dir' = ⟨dir.inode, dirEntrySize * j⟩ := hdir
    rw [wp_bind]
    refine wp_mono (ih (h.heap hl) j) ?_
    rintro rest fs₂ rfl
    refine wp_pure.mpr ?_
    rw [List.range_succ_eq_map, List.map_cons, List.map_map, ← hname, ← htail]
    simp only [List.getElem?_tail]
    rfl

end Read

/-! What a map is. -/

/-- The map of a directory that is open. -/
def Fs.dirMap (fs : Fs) (dir : Dir) (name : Name) : Option Nat :=
  (fs.openInodes dir.inode).bind fun m => Filesys.dirMap m.data fs.disk name

/-- The directory is a map with room for `cnt` names, and the calls are its operations.
    `dir_lookup` and `dir_remove` return if the inode that the name is bound to can be
    opened and removed. -/
structure DirectoryMap (fs : Fs) (dir : Dir) (cnt : Nat) : Prop where
  once : ∀ {m name i j}, fs.openInodes dir.inode = some m → i < m.data.entryCnt →
    j < m.data.entryCnt → hasName name (dirEntry m.data fs.disk i) = true →
    hasName name (dirEntry m.data fs.disk j) = true → i = j
  valid : ∀ {name}, fs.dirMap dir name ≠ none → name.Valid
  add : ∀ junk name sector, sector < wordSize → wp (dirAdd junk dir name sector) (fun ok fs' =>
    (ok = true ↔ name.Valid ∧ fs.dirMap dir name = none ∧
      {k | fs.dirMap dir k ≠ none}.ncard < cnt) ∧
    fs'.dirMap dir =
      if ok then update (fs.dirMap dir) name (some sector) else fs.dirMap dir) fs
  remove : ∀ name, wpIf (∀ s, fs.dirMap dir name = some s → Removable fs s) (dirRemove dir name)
    (fun ok fs' => (ok = true ↔ fs.dirMap dir name ≠ none) ∧
      fs'.dirMap dir = if ok then update (fs.dirMap dir) name none else fs.dirMap dir) fs
  lookup : ∀ name, wpIf (∀ s, fs.dirMap dir name = some s → Openable fs s) (dirLookup dir name)
    (fun r fs' => r = fs.dirMap dir name ∧ fs'.dirMap dir = fs.dirMap dir) fs
  readdir : ∃ names : List Name, names.Nodup ∧ (∀ k, k ∈ names ↔ fs.dirMap dir k ≠ none) ∧
    ∀ cnt, wp (readdirs cnt ⟨dir.inode, 0⟩) (fun out _ =>
      out = (List.range cnt).map fun i => (names[i]?).map Name.chars) fs

section Map
variable {fs : Fs} {dir : Dir} {n : InodeDisk}

theorem DirOpen.map_eq (h : DirOpen fs dir n) : fs.dirMap dir = dirMap n fs.disk := by
  obtain ⟨m, hm, hdata, -⟩ := h.inode
  funext name
  rw [Fs.dirMap, hm, Option.bind_some, hdata]

theorem DirOpen.directoryMap (h : DirOpen fs dir n) : DirectoryMap fs dir n.entryCnt where
  once := fun {m name i j} hm hi hj hni hnj => by
    grind [h.inode, h.entries.hasName, h.entries.distinct.same]
  valid := fun hb => h.entries.valid (by rwa [h.map_eq] at hb)
  add := fun junk name sector hs => by
    refine wp_mono (h.add junk name hs) ?_
    rintro ok fs' ⟨h', hiff, hmap⟩
    rw [h.map_eq, h'.map_eq]
    exact ⟨hiff, hmap⟩
  remove := fun name => by
    refine wpIf_mono (h.dirRemove name fun hP => by rwa [h.map_eq] at hP) ?_
    rintro ok fs' ⟨h', hiff, hmap⟩
    rw [h.map_eq, h'.map_eq]
    refine ⟨hiff, ?_⟩
    cases ok with
    | true => exact hmap
    | false =>
      have hnone : dirMap n fs.disk name = none := by
        by_contra hne
        exact absurd (hiff.mpr hne) (by decide)
      rw [hmap, ← hnone, update_eq_self]
      rfl
  lookup := fun name => by
    refine wpIf_mono (h.dirLookup name fun hP => by rwa [h.map_eq] at hP) ?_
    rintro r fs' ⟨h', hr, hmap⟩
    rw [h.map_eq, h'.map_eq]
    exact ⟨hr, hmap⟩
  readdir := by
    refine ⟨(slots n fs.disk).keys n.entryCnt, h.entries.distinct.nodup_keys, fun k => ?_,
      fun cnt => ?_⟩
    · rw [h.map_eq]
      exact h.entries.distinct.mem_keys
    · have hread := h.readdirs cnt 0
      rw [Slots.keysFrom_zero] at hread
      exact hread

end Map

/-! Runs. -/

inductive DirOp where
  | add (junk : Buf) (name : Name) (sector : Nat)
  | remove (name : Name)
  | lookup (name : Name)

def DirOp.exec (dir : Dir) : DirOp → FsM Unit
  | add junk name sector => do let _ ← dirAdd junk dir name sector
  | remove name => do let _ ← dirRemove dir name
  | lookup name => do let _ ← dirLookup dir name

def dirStep (dir : Dir) (fs : Fs) (op : DirOp) : Option Fs := (op.exec dir fs).map Prod.snd

/-- Sectors are numbers of 32 bits. -/
def DirOp.Fits : DirOp → Prop
  | add _ _ sector => sector < wordSize
  | remove _ | lookup _ => True

section Runs
variable {fs fs₀ : Fs} {dir : Dir} {n : InodeDisk}

theorem DirOpen.call (h : DirOpen fs dir n) {op : DirOp} (hop : op.Fits) :
    wpIf False (op.exec dir) (fun _ fs' => DirOpen fs' dir n) fs := by
  cases op with
  | add junk name sector =>
    rw [DirOp.exec, wpIf_bind]
    exact wpIf_mono (wpIf_of_wp (h.add junk name hop)) fun _ _ hadd => wpIf_pure.mpr hadd.1
  | remove name =>
    rw [DirOp.exec, wpIf_bind]
    exact wpIf_mono (h.dirRemove name False.elim) fun _ _ hrem => wpIf_pure.mpr hrem.1
  | lookup name =>
    rw [DirOp.exec, wpIf_bind]
    exact wpIf_mono (h.dirLookup name False.elim) fun _ _ hlook => wpIf_pure.mpr hlook.1

theorem DirOpen.of_reach (h₀ : DirOpen fs₀ dir n)
    (h : Reach (dirStep dir) (fun _ op => op.Fits) fs₀ fs) : DirOpen fs dir n := by
  refine h.inv (I := fun fs => DirOpen fs dir n) h₀ ?_
  intro s op s' hs hop hstep
  obtain ⟨⟨u, t⟩, hx, rfl⟩ := Option.map_eq_some_iff.mp hstep
  exact (hs.call hop).1 _ _ hx

end Runs

/-! Making a directory. -/

/-- A sector has been taken for the inode of a directory, in a file system whose free map
    can be written and has its own sectors marked. -/
structure Ready (fs : Fs) (s : Nat) : Prop where
  plenty : Plenty fs.heap
  opened : ∀ {t m}, fs.openInodes t = some m → 0 < m.openCnt
  map : ∃ f m, fs.freeMapFile = some f ∧ MapFile fs f m ∧
    ∀ a, m.data.Data a → fs.freeMap.bit (a / sectorSize) = true
  size : fs.freeMap.bitCnt = fs.disk.capacity
  lt : s < fs.disk.capacity
  marked : fs.freeMap.bit s = true
  closed : fs.openInodes s = none

theorem Core.ready {fs : Fs} {g : Ghost} (h : Core fs g) (hp : Plenty fs.heap) {s : Nat}
    (hlt : s < fs.disk.capacity) (hmark : fs.freeMap.bit s = true)
    (hclosed : fs.openInodes s = none) : Ready fs s where
  plenty := hp
  opened := fun {t m} hm => by
    rw [(h.opened hm).2.1]
    by_contra hz
    rw [(h.closed t).mpr (by omega)] at hm
    cases hm
  map := by
    obtain ⟨f, m, hf, hmf, hdata⟩ := h.map
    refine ⟨f, m, hf, hmf, fun a ha => h.space.excl.used h.mapNode (.inr ?_)⟩
    exact (h.space.fine h.mapNode).holds_of_data (hdata ▸ ha)
  size := h.space.size
  lt := hlt
  marked := hmark
  closed := hclosed

theorem Core.ready_of_allocate {fs fs' : Fs} {g : Ghost} (h : Core fs g) (hp : Plenty fs.heap)
    {s : Nat} (halloc : freeMapAllocate 1 fs = some (some s, fs')) : Ready fs' s := by
  have ha := wp_elim (h.allocate 1) halloc
  obtain ⟨hle, hrun, -⟩ := ha.first rfl
  have hcap : fs'.disk.capacity = fs.freeMap.bitCnt := ha.disk.capacity.trans h.space.size.symm
  refine ha.leads.core.ready (ha.leads.handles.later.plenty hp) (by rw [hcap]; exact hle) ?_ ?_
  · rw [ha.freeMap]
    show (fs.freeMap.fill s 1 true).bit s = true
    rw [Bitmap.fill_bit, if_pos (by omega)]
  · rw [ha.inodes]
    cases hm : fs.openInodes s with
    | none => rfl
    | some m => exact absurd (.inl rfl) (h.space.vacant (hrun 0 Nat.one_pos) _ _ (h.opened hm).1)

/-- A directory has been made in sector `s`. -/
structure DirMade (fs : Fs) (s : Nat) (n : InodeDisk) : Prop where
  plenty : Plenty fs.heap
  opened : ∀ {t m}, fs.openInodes t = some m → 0 < m.openCnt
  map : ∃ f m, fs.freeMapFile = some f ∧ MapFile fs f m ∧ ∀ a, n.Data a → ¬m.data.Data a
  size : fs.freeMap.bitCnt = fs.disk.capacity
  closed : fs.openInodes s = none
  fine : Fine fs.disk s n
  blank : ∀ a, n.Data a → fs.disk.byte a = 0

/-- The bytes that `dir_create` asks for. -/
def dirLength (cnt : Nat) : Int := toInt (cnt * dirEntrySize % wordSize)

theorem dirLength_lt (cnt : Nat) : dirLength cnt < 2147483648 := by
  rw [dirLength, toInt]
  split
  · next h =>
    simp only [wordSize] at h ⊢
    omega
  · grind [wordSize]

section Make
variable {fs : Fs} {s cnt : Nat} {n : InodeDisk}

/-- The data sectors of the new directory were free: they are not those of the free map. -/
theorem Ready.made (h : Ready fs s) {start : Nat} {length : Int} {d₁ d : Disk} {hp : Heap}
    (hlen : 0 ≤ length) (h31 : length < 2147483648)
    (hle : start + bytesToSectors length ≤ fs.freeMap.bitCnt)
    (hrun : fs.freeMap.Run start (bytesToSectors length) false)
    (hcap : d₁.capacity = fs.disk.capacity) (hl : Later fs.heap hp)
    (hmade : Made s (newInode start length) d₁ d) :
    DirMade { fs with
        disk := d, heap := hp, freeMap := fs.freeMap.fill start (bytesToSectors length) true }
      s (newInode start length) := by
  have hself : ¬(newInode start length).Holds s := hrun.not_mem h.marked
  have hfine := hmade.fine (hcap ▸ h.lt) hself hlen h31 (by rw [hcap, ← h.size]; exact hle)
  have hdcap : d.capacity = fs.disk.capacity := hmade.capacity.trans hcap
  refine ⟨hl.plenty h.plenty, h.opened, ?_, ?_, h.closed, hfine, fun a ha => ?_⟩
  · obtain ⟨f, m, hf, hmf, hmarked⟩ := h.map
    refine ⟨f, m, hf, hmf.congr rfl rfl hdcap (Bitmap.fill_bitCnt ..), fun a ha hma => ?_⟩
    exact hrun.not_mem (hmarked a hma) (hfine.holds_of_data ha)
  · exact (Bitmap.fill_bitCnt ..).trans (h.size.trans hdcap.symm)
  · grind [hmade.byte, hfine.holds_of_data]

theorem Ready.dirCreate (h : Ready fs s) : wpIf False (dirCreate s cnt) (fun ok fs' => ok = true →
    ∃ start, 0 ≤ dirLength cnt ∧ DirMade fs' s (newInode start (dirLength cnt))) fs := by
  have h31 := dirLength_lt cnt
  rw [Filesys.dirCreate, show toInt (cnt * dirEntrySize % wordSize) = dirLength cnt from rfl]
  generalize dirLength cnt = length at h31 ⊢
  by_cases hlen : 0 ≤ length
  · obtain ⟨f, m, hf, hmf, hmarked⟩ := h.map
    refine wpIf_of_wp (wp_mono (inodeCreate_spec (A := fun r fs₁ => ∃ d hp,
      fs₁ = { fs with
        disk := d, heap := hp, freeMap := fs.freeMap.taken (bytesToSectors length) r } ∧
      SameOff m.data fs.disk d ∧ Later fs.heap hp ∧
      (r.isSome → fs.freeMap.FirstRun (bytesToSectors length) false r)) hlen h.lt ?_ ?_) ?_)
    · intro hp hl
      refine wp_mono (@freeMapAllocate_spec { fs with heap := hp } f m hf (hmf.congr rfl rfl rfl rfl)
        h.size _) ?_
      rintro r fs₁ ⟨d, hp₁, rfl, hoff, hl₁, hfirst, -⟩
      exact ⟨d, hp₁, rfl, hoff, hl.trans hl₁, fun hr => (hfirst hr).1⟩
    · rintro start fs₁ ⟨d, hp, rfl, hoff, -, hfirst⟩
      exact ⟨hoff.capacity, h.size ▸ (hfirst rfl).1⟩
    · rintro ok fs' (⟨rfl, -⟩ | ⟨rfl, start, fs₁, d, ⟨d₁, hp, rfl, hoff, hl, hfirst⟩, rfl, hmade⟩) hok
      · cases hok
      · obtain ⟨hle, hrun, -⟩ := hfirst rfl
        exact ⟨start, hlen, h.made hlen h31 hle hrun hoff.capacity hl hmade⟩
  · grind [inodeCreate, wpIf_bind, wpIf_assert]

/-- The directory is opened by its sector. -/
def openDir (s : Nat) : FsM (Option Dir) := do dirOpen (← inodeOpen s)

theorem DirMade.slots (h : DirMade fs s n) {k : Nat} (hk : k < n.entryCnt) :
    slots n fs.disk k = none := by
  rw [slots_eq_none, inUse, dirEntry, readEntry, memcpy_start, if_pos (by decide), InodeDisk.bytes,
    h.blank]
  · rfl
  · grind [InodeDisk.entryCnt, InodeDisk.Data, dirEntrySize]

theorem DirMade.openDir (h : DirMade fs s n) : wp (openDir s) (fun r fs' => ∃ dir, r = some dir ∧
    DirOpen fs' dir n ∧ dirMap n fs'.disk = fun _ => none) fs := by
  have hopen := inodeOpen_spec (P := True) h.plenty fun _ _ => h.fine.sector_lt
  rw [Filesys.openDir, wp_bind]
  refine wp_mono (wp_of_wpIf hopen trivial) ?_
  rintro r fs₁ ⟨rfl, hp, m, hl, rfl, ⟨m₀, hm₀, -⟩ | ⟨-, rfl⟩⟩
  · rw [h.closed] at hm₀
    cases hm₀
  · simp only [dirOpen, wp_bind, wp_malloc, (hl.plenty h.plenty).1 0, wp_pure]
    have hempty : ∀ k < n.entryCnt, Filesys.slots n fs.disk k = none := fun k hk => h.slots hk
    refine ⟨_, rfl, ⟨⟨_, update_self .., h.fine.stored, rfl⟩, h.fine.onDisk,
      (hl.trans (.nextStruct _)).plenty h.plenty, ⟨fun k hk hu => ?_, ⟨fun hi _ hv _ => ?_⟩⟩,
      fun {t m} hm => ?_, ?_, h.size⟩, ?_⟩
    · rw [slots_eq_none.mp (hempty k hk)] at hu
      cases hu
    · rw [hempty _ hi] at hv
      cases hv
    · by_cases hts : t = s
      · grind
      · simp only [update_of_ne hts] at hm
        exact h.opened hm
    · obtain ⟨f, m, hf, hmf, hapart⟩ := h.map
      have hne : freeMapSector ≠ s := by grind [hmf.inode, h.closed]
      exact ⟨f, m, hf, hmf.congr rfl (update_of_ne hne ..) rfl rfl, hapart⟩
    · funext name
      exact Slots.get_eq_none.mpr fun k hk v hv => by
        rw [hempty k hk] at hv
        cases hv

end Make

/-! How many names a directory takes. -/

/-- A name of four characters, none of them NUL. -/
def nameOf (f : Fin 4 → Fin 255) : Name where
  chars := List.ofFn fun j => UInt8.ofNat (f j + 1)
  noNul := by
    rw [List.mem_ofFn]
    rintro ⟨j, hj⟩
    have hlt := (f j).isLt
    have hval := congrArg UInt8.toNat hj
    rw [UInt8.toNat_ofNat', Nat.mod_eq_of_lt (by omega)] at hval
    exact absurd hval (Nat.succ_ne_zero _)

theorem nameOf_valid (f : Fin 4 → Fin 255) : (nameOf f).Valid := by
  rw [Name.Valid, nameOf, Ne, List.ofFn_eq_nil_iff, List.length_ofFn]
  decide

theorem nameOf_injective : Injective nameOf := by
  intro f g h
  have hchars : (List.ofFn fun j => UInt8.ofNat (f j + 1)) =
    List.ofFn fun j => UInt8.ofNat (g j + 1) := congrArg Name.chars h
  have hfun := List.ofFn_injective hchars
  funext j
  have hval := congrArg UInt8.toNat (congrFun hfun j)
  have hf := (f j).isLt
  have hg := (g j).isLt
  rw [UInt8.toNat_ofNat', UInt8.toNat_ofNat', Nat.mod_eq_of_lt (by omega),
    Nat.mod_eq_of_lt (by omega)] at hval
  exact Fin.ext (by omega)

theorem exists_fresh {S : Set Name} (hfin : S.Finite) (hcard : S.ncard < 255 ^ 4) :
    ∃ name : Name, name.Valid ∧ name ∉ S := by
  by_contra hno
  push Not at hno
  have hsub : Set.range nameOf ⊆ S := by
    rintro - ⟨f, rfl⟩
    exact hno _ (nameOf_valid f)
  have hle := Set.ncard_le_ncard hsub hfin
  rw [Set.ncard_range_of_injective nameOf_injective, Nat.card_eq_fintype_card, Fintype.card_fun,
    Fintype.card_fin, Fintype.card_fin] at hle
  omega

section Full
variable {fs₀ : Fs} {dir : Dir} {n : InodeDisk}

theorem DirOpen.exists_full (h₀ : DirOpen fs₀ dir n) (hempty : dirMap n fs₀.disk = fun _ => none)
    (hsmall : n.entryCnt < 255 ^ 4) {k : Nat} (hk : k ≤ n.entryCnt) :
    ∃ fs, Reach (dirStep dir) (fun _ op => op.Fits) fs₀ fs ∧
      {name | fs.dirMap dir name ≠ none}.ncard = k := by
  induction k with
  | zero =>
    refine ⟨fs₀, .refl, ?_⟩
    rw [h₀.map_eq, hempty]
    simp
  | succ k ih =>
    obtain ⟨fs, hreach, hcard⟩ := ih (by omega)
    have h := h₀.of_reach hreach
    rw [h.map_eq] at hcard
    have hfin : {k | dirMap n fs.disk k ≠ none}.Finite := Slots.finite
    obtain ⟨name, hv, hmem⟩ := exists_fresh hfin (by omega)
    have hno : dirMap n fs.disk name = none := not_not.mp hmem
    obtain ⟨ok, fs', hx, h', hiff, hmap⟩ := h.add (fun _ => 0) name (show 0 < wordSize by decide)
    obtain rfl : ok = true := hiff.mpr ⟨hv, hno, by omega⟩
    refine ⟨fs', hreach.tail (.add (fun _ => 0) name 0) (show 0 < wordSize by decide) ?_, ?_⟩
    · rw [dirStep, DirOp.exec, bind_eq_some.mpr ⟨true, fs', hx, rfl⟩]
      rfl
    · have hset : {k | dirMap n fs'.disk k ≠ none} = insert name {k | dirMap n fs.disk k ≠ none} := by
        ext k
        rw [hmap, if_pos rfl, Set.mem_ofPred_eq, Set.mem_insert_iff, Set.mem_ofPred_eq]
        by_cases hk : k = name
        · simp [hk]
        · simp [hk]
      rw [h'.map_eq, hset, Set.ncard_insert_of_notMem hmem hfin, hcard]

end Full

theorem entryCnt_dirLength (start : Nat) {cnt : Nat} (h : 0 ≤ dirLength cnt) :
    (newInode start (dirLength cnt)).entryCnt =
      cnt * dirEntrySize % wordSize / dirEntrySize := by
  have hlen : dirLength cnt = (cnt * dirEntrySize % wordSize : Nat) := by
    have hlt := Nat.mod_lt (cnt * dirEntrySize) (show 0 < wordSize by decide)
    rw [dirLength, toInt] at h ⊢
    split at h
    · next hhalf => rw [if_pos hhalf]
    · omega
  rw [InodeDisk.entryCnt, newInode, hlen, Int.toNat_natCast]

/-- **A directory is a finite map.** Take a directory that `dir_create` has made for `cnt`
    entries and that has been opened. In every state of every run of calls it is a map with
    room for `cnt` names exactly if the size of `cnt` entries is a `size_t`. -/
theorem directory_is_map_iff {fs₀ fs₁ fs₂ : Fs} {s cnt : Nat} {dir : Dir} (h₀ : Ready fs₀ s)
    (hmake : dirCreate s cnt fs₀ = some (true, fs₁)) (hopen : openDir s fs₁ = some (some dir, fs₂)) :
    (∀ fs, Reach (dirStep dir) (fun _ op => op.Fits) fs₂ fs → DirectoryMap fs dir cnt) ↔
      cnt * dirEntrySize < wordSize := by
  obtain ⟨start, hlen, hmade⟩ := h₀.dirCreate.1 _ _ hmake rfl
  obtain ⟨dir', heq, h₂, hempty⟩ := wp_elim hmade.openDir hopen
  cases heq
  have hcnt := entryCnt_dirLength start hlen
  have hmod := Nat.mod_lt (cnt * dirEntrySize) (show 0 < wordSize by decide)
  constructor
  · -- otherwise the directory is full before it has so many names
    intro hall
    by_contra hbig
    have hsmall : (newInode start (dirLength cnt)).entryCnt < cnt ∧
        (newInode start (dirLength cnt)).entryCnt < 255 ^ 4 := by grind [dirEntrySize, wordSize]
    obtain ⟨fs, hreach, hcard⟩ := h₂.exists_full hempty hsmall.2 le_rfl
    have h := h₂.of_reach hreach
    obtain ⟨name, hv, hmem⟩ := exists_fresh (S := {k | fs.dirMap dir k ≠ none})
      (by rw [h.map_eq]; exact Slots.finite) (by rw [hcard]; exact hsmall.2)
    have hno : fs.dirMap dir name = none := not_not.mp hmem
    obtain ⟨ok, fs', hx, hiff, -⟩ := h.directoryMap.add (fun _ => 0) name 0 (by decide)
    have hok := (wp_elim ((hall fs hreach).add (fun _ => 0) name 0 (by decide)) hx).1.mpr
      ⟨hv, hno, by rw [hcard]; exact hsmall.1⟩
    exact absurd (hiff.mp hok).2.2 (by rw [hcard]; exact lt_irrefl _)
  · intro hfits fs hreach
    have hmap := (h₂.of_reach hreach).directoryMap
    rwa [hcnt, Nat.mod_eq_of_lt hfits, Nat.mul_div_cancel _ (by decide)] at hmap

/-- On a disk that has just been formatted a directory is made and opened. -/
def makeDir (cnt : Nat) : FsM (Option Dir) := do
  filesysInit (fun _ => 0) true
  let s ← follow (← freeMapAllocate 1)
  assert (← dirCreate s cnt)
  openDir s

theorem makeDir_eq {cnt : Nat} {dir : Dir} {fs₂ : Fs}
    (h : makeDir cnt (boot blankDisk allGranted) = some (some dir, fs₂)) :
    ∃ s fs₀ fs₁, Ready fs₀ s ∧ dirCreate s cnt fs₀ = some (true, fs₁) ∧
      openDir s fs₁ = some (some dir, fs₂) := by
  obtain ⟨⟨⟩, fs, hinit, h⟩ := bind_eq_some.mp h
  obtain ⟨r, fs₀, halloc, h⟩ := bind_eq_some.mp h
  obtain ⟨s, t, hs, h⟩ := bind_eq_some.mp h
  obtain ⟨ok, fs₁, hmake, h⟩ := bind_eq_some.mp h
  obtain ⟨⟨⟩, u, hok, hopen⟩ := bind_eq_some.mp h
  cases r with
  | none => cases hs
  | some s' =>
    cases hs
    cases ok with
    | false => cases hok
    | true =>
      cases hok
      obtain ⟨hl, d, b, own, map, root, hm, -⟩ := filesysInit_format.1 _ _ hinit
      exact ⟨s, _, _, hm.core.ready_of_allocate
        (hl.plenty ⟨fun _ => rfl, fun _ => rfl⟩) halloc, hmake, hopen⟩

/-- A directory of sixteen entries, as the root directory is. -/
theorem makeDir_sixteen : (makeDir 16 (boot blankDisk allGranted)).any (·.1.isSome) = true := by
  decide +kernel

theorem directory_is_map_iff_sixteen : ∃ s fs₀ fs₁ dir fs₂, Ready fs₀ s ∧
    dirCreate s 16 fs₀ = some (true, fs₁) ∧ openDir s fs₁ = some (some dir, fs₂) ∧
    ∀ fs, Reach (dirStep dir) (fun _ op => op.Fits) fs₂ fs → DirectoryMap fs dir 16 := by
  obtain ⟨⟨o, fs₂⟩, hmake, hsome⟩ := Option.any_eq_true _ _ |>.mp makeDir_sixteen
  obtain ⟨dir, rfl⟩ := Option.isSome_iff_exists.mp hsome
  obtain ⟨s, fs₀, fs₁, hr, hc, ho⟩ := makeDir_eq hmake
  exact ⟨s, fs₀, fs₁, dir, fs₂, hr, hc, ho, (directory_is_map_iff hr hc ho).mpr (by decide)⟩

/-- The first number of entries whose size wraps: four bytes are left of it. -/
def wrappingCnt : Nat := 214748365

theorem makeDir_wrapping : (makeDir wrappingCnt (boot blankDisk allGranted)).any (fun r =>
    r.1.any fun dir => (r.2.openInodes dir.inode).any (fun m => m.data.length = 4) &&
      (dirAdd (fun _ => 0) dir nameA 5 r.2).any fun x => !x.1) = true := by
  decide +kernel

/-- **The size of a directory can wrap**: one that was made for more than two hundred
    million entries is empty and takes no name. -/
theorem directory_too_small : ∃ s fs₀ fs₁ dir fs₂, Ready fs₀ s ∧
    dirCreate s wrappingCnt fs₀ = some (true, fs₁) ∧ openDir s fs₁ = some (some dir, fs₂) ∧
    ¬DirectoryMap fs₂ dir wrappingCnt := by
  obtain ⟨⟨o, fs₂⟩, hmake, hsome⟩ := Option.any_eq_true _ _ |>.mp makeDir_wrapping
  obtain ⟨dir, rfl, heval⟩ := Option.any_eq_true _ _ |>.mp hsome
  obtain ⟨hlen, hadd⟩ := (Bool.and_eq_true _ _).mp heval
  obtain ⟨m, hm, hlen⟩ := Option.any_eq_true _ _ |>.mp hlen
  obtain ⟨⟨ok, fs₃⟩, hx, hok⟩ := Option.any_eq_true _ _ |>.mp hadd
  obtain ⟨s, fs₀, fs₁, hr, hc, ho⟩ := makeDir_eq hmake
  refine ⟨s, fs₀, fs₁, dir, fs₂, hr, hc, ho, fun hmap => ?_⟩
  have hempty : fs₂.dirMap dir = fun _ => none := by
    funext name
    have hzero : m.data.entryCnt = 0 := by
      rw [InodeDisk.entryCnt, of_decide_eq_true hlen]
      rfl
    rw [Fs.dirMap, hm, Option.bind_some, dirMap, hzero]
    rfl
  have hiff := (wp_elim (hmap.add (fun _ => 0) nameA 5 (by decide)) hx).1
  rw [hempty] at hiff
  have htrue : ok = true := hiff.mpr ⟨⟨by decide, by decide⟩, rfl, by simp [wrappingCnt]⟩
  rw [htrue] at hok
  cases hok

end Pintos.Filesys
