import Pintos.Filesys.Ops

/- Formatting a disk and starting from it.

   `Volume` is what a disk has to hold for the file system to start from it.
   `do_format` makes one out of any disk and `free_map_open` brings up the invariant of
   the operations from one, so both ways through `filesys_init` end in a state where
   they can be used. A disk on which there is no room for the free map and the root
   directory ends in a panic, so these results are about the calls that return. -/
namespace Pintos.Filesys

open Vm (wordSize)
open Lib Function

/-! Reading the map. -/

theorem getLsbD_lastMask {b : Bitmap} {k : Nat} (hk : k < 32) :
    (lastMask b).getLsbD k = decide (b.bitCnt % elemBits = 0 ∨ k < b.bitCnt % elemBits) := by
  have hr : b.bitCnt % elemBits < 32 := Nat.mod_lt _ (by decide)
  rw [lastMask]
  by_cases h0 : b.bitCnt % elemBits = 0
  · simp only [h0, if_true, BitVec.getLsbD_allOnes, hk, decide_true, true_or]
  · have hpow : 2 ^ (b.bitCnt % elemBits) < 2 ^ 32 := Nat.pow_lt_pow_right (by decide) hr
    have hone : 0 < 2 ^ (b.bitCnt % elemBits) := Nat.two_pow_pos _
    have hval : (1#32 <<< (b.bitCnt % elemBits) - 1#32).toNat = 2 ^ (b.bitCnt % elemBits) - 1 := by
      grind [Nat.shiftLeft_eq]
    rw [if_neg h0, BitVec.getLsbD, hval, Nat.testBit_two_pow_sub_one]
    simp only [h0, false_or]

theorem Bitmap.mask_bit (b : Bitmap) {i : Nat} (hi : i < elemBits * elemCnt b.bitCnt) :
    b.mask.bit i = (decide (i < b.bitCnt) && b.bit i) := by
  have hlt : i % elemBits < 32 := Nat.mod_lt _ (by decide)
  simp only [mask, bit]
  by_cases he : elemIdx i = elemCnt b.bitCnt - 1
  · grind [getLsbD_lastMask, elemIdx, elemCnt, elemBits]
  · grind [elemIdx, elemCnt, elemBits]

theorem lt_elems {i bitCnt : Nat} (hi : i < bitCnt) : i < elemBits * elemCnt bitCnt := by
  simp only [elemCnt, elemBits]
  omega

section Read
variable {P : Prop} {fs : Fs} {file : Nat} {m : Inode}

theorem bitmapRead_spec (hm : MapFile fs file m) (hpos : 0 < fs.freeMap.bitCnt) :
    wp (bitmapRead file) (fun ok fs' => ∃ b h, fs' = { fs with freeMap := b, heap := h } ∧
      Later fs.heap h ∧ b.bitCnt = fs.freeMap.bitCnt ∧ (Bounces fs.heap → ok = true) ∧
      (ok = true → Synced m.data fs.disk b)) fs := by
  obtain ⟨f, hf, hi⟩ := hm.handle
  simp only [bitmapRead, wp_bind, wp_get, hpos, gt_iff_lt, if_true, fileReadAt, wp_follow]
  refine ⟨f, hf, ?_⟩
  rw [hi]
  refine wp_mono (inodeReadAt_spec hm.inode hm.onDisk _ _ 0) ?_
  rintro r fs' ⟨k, h, rfl, rfl, hk⟩
  simp only [wp_modify, wp_pure]
  refine ⟨_, h, rfl, hk.later, rfl, fun hb => decide_eq_true ?_, fun hok => ?_⟩
  · have hall := hk.countOf.all hb
    rw [InodeDisk.inFile, hm.size] at hall
    omega
  · have hread : k = byteCnt fs.freeMap.bitCnt := of_decide_eq_true hok
    refine ⟨fun i h₁ h₂ => ?_, fun i hlt => ?_⟩
    · rw [Bitmap.mask_bit _ (by exact h₂), decide_eq_false (by exact Nat.not_lt.mpr h₁),
        Bool.false_and]
    · rw [Bitmap.mask_bit _ (by exact lt_elems hlt), decide_eq_true (by exact hlt), Bool.true_and]
      refine ofBuf_bit_congr hlt fun j hj => ?_
      rw [memcpy_start, if_pos (by rw [hread]; exact hj)]

/-- The state with the file of the free map opened. -/
def Fs.openMap (fs : Fs) (h : Heap) : Fs :=
  { fs with
    heap := h
    openInodes := update fs.openInodes freeMapSector
      (some ⟨1, false, 0, fs.disk.inodeAt freeMapSector⟩)
    files := update fs.files fs.nextFile (some ⟨freeMapSector, 0, false⟩)
    nextFile := fs.nextFile + 1
    freeMapFile := some fs.nextFile }

theorem Fs.openMap_mapFile {n : InodeDisk} (hfine : Fine fs.disk freeMapSector n)
    (hsize : n.length = byteCnt fs.freeMap.bitCnt) (h : Heap) :
    MapFile (fs.openMap h) fs.nextFile ⟨1, false, 0, n⟩ := by
  refine ⟨⟨_, update_self .., rfl⟩, ?_, hfine.onDisk, rfl, hsize⟩
  simp only [openMap, update_self, hfine.stored]

theorem wpIf_malloc {Q : Bool → Fs → Prop}
    (hq : Q (fs.heap.structs 0) { fs with heap := fs.heap.nextStruct }) : wpIf P malloc Q fs :=
  wpIf_of_wp (wp_malloc.mpr hq)

/-- The file of the free map is opened, or the kernel panics. -/
theorem openFreeMapFile_spec (hP : P → Plenty fs.heap) (hclosed : fs.openInodes freeMapSector = none)
    (hcap : freeMapSector < fs.disk.capacity) :
    wpIf P openFreeMapFile (fun file fs' => file = fs.nextFile ∧
      ∃ h, Later fs.heap h ∧ fs' = fs.openMap h) fs := by
  simp only [openFreeMapFile, inodeOpen, wpIf_bind, wpIf_get, hclosed, Option.isSome_none,
    Bool.false_eq_true, if_false]
  refine wpIf_malloc ?_
  cases h0 : fs.heap.structs 0 with
  | false =>
    simp only [Bool.false_eq_true, if_false, wpIf_pure, fileOpen, wpIf_bind]
    refine wpIf_malloc ?_
    simp only [inodeClose, wpIf_pure, wpIf_follow]
    exact ⟨fun _ h => (by cases h), fun h => by simp [(hP h).1 0] at h0⟩
  | true =>
    simp only [if_true, wpIf_bind]
    refine wpIf_of_wp ((wp_diskRead (by exact hcap)).mpr ?_)
    simp only [setInode, wpIf_modify, wpIf_pure, fileOpen, wpIf_bind]
    refine wpIf_malloc ?_
    cases h1 : fs.heap.nextStruct.structs 0 with
    | true =>
      simp only [newFile, wpIf_bind, wpIf_get, wpIf_modify, wpIf_pure, wpIf_follow]
      refine ⟨?_, fun _ => rfl⟩
      rintro file hfile
      cases hfile
      exact ⟨rfl, _, (Later.nextStruct _).trans (.nextStruct _), rfl⟩
    | false =>
      -- the inode is closed again: it has just been opened
      simp only [inodeClose, wpIf_bind, wpIf_get, wpIf_follow, update_self]
      refine ⟨fun n hn => ?_, fun _ => rfl⟩
      cases hn
      simp only [if_true, Bool.false_eq_true, if_false, wpIf_bind, setInode, wpIf_modify, wpIf_pure]
      exact ⟨fun _ h => (by cases h), fun h => by simp [Heap.nextStruct, (hP h).1] at h1⟩

end Read

/-! A disk with a file system on it. -/

/-- The inodes in `own` are on the disk, among them those of the free map and the root
    directory, and `b` is the free map. -/
structure Volume (d : Disk) (b : Bitmap) (own : Nat → Option InodeDisk) (map root : InodeDisk) :
    Prop where
  space : Space d b own
  mapNode : own freeMapSector = some map
  mapSize : map.length = byteCnt d.capacity
  rootNode : own rootDirSector = some root
  listing : Listing root d own
  agrees : Agrees map d b

/-- Only the file of the free map is open. -/
def Ghost.start (own : Nat → Option InodeDisk) (map root : InodeDisk) : Ghost where
  own := own
  cnt := update (fun _ => 0) freeMapSector 1
  deny := fun _ => 0
  map := map
  root := root

/-- The file system has been started from a volume. -/
structure Mounted (d : Disk) (b : Bitmap) (own : Nat → Option InodeDisk) (map root : InodeDisk)
    (fs : Fs) : Prop where
  core : Core fs (.start own map root)
  files : Files fs (.start own map root)
  synced : Synced map fs.disk fs.freeMap
  disk : fs.disk = d
  bits : ∀ i < b.bitCnt, fs.freeMap.bit i = b.bit i
  only : ∀ f, fs.files f ≠ none → fs.freeMapFile = some f

section Mount
variable {P : Prop} {d : Disk} {b : Bitmap} {own : Nat → Option InodeDisk} {map root : InodeDisk} {fs : Fs}

/-- Two maps that agree on the bits in use are maps of the same space. -/
theorem Space.congr_map (h : Space d b own) {b' : Bitmap} (hsize : b'.bitCnt = b.bitCnt)
    (hbits : ∀ i < b.bitCnt, b'.bit i = b.bit i) : Space d b' own where
  size := hsize.trans h.size
  excl := ⟨fun {s n sec} hs hocc => by
      have hlt : sec < b.bitCnt := by
        rw [h.size]
        rcases hocc with rfl | hholds
        · exact (h.fine hs).sector_lt
        · exact Nat.lt_of_lt_of_le hholds.2 (h.fine hs).extent_le
      rw [hbits _ hlt]
      exact h.excl.used hs hocc, h.excl.apart⟩
  fine := h.fine

theorem Volume.mount (hP : P → Plenty fs.heap) (v : Volume fs.disk b own map root) (hopen : ∀ s, fs.openInodes s = none)
    (hfiles : ∀ f, fs.files f = none) (hsize : fs.freeMap.bitCnt = fs.disk.capacity) :
    wpIf P freeMapOpen (fun _ fs' => Mounted fs.disk b own map root fs' ∧ Later fs.heap fs'.heap)
      fs := by
  have hfine := v.space.fine v.mapNode
  have hpos : 0 < fs.disk.capacity := hfine.sector_lt
  rw [freeMapOpen, wpIf_bind]
  refine wpIf_mono (openFreeMapFile_spec hP (hopen _) hpos) ?_
  rintro file fs₁ ⟨rfl, h₁, hl₁, rfl⟩
  have hmf := Fs.openMap_mapFile hfine (by rw [hsize]; exact v.mapSize) h₁
  have hcnt₁ : (fs.openMap h₁).freeMap.bitCnt = fs.disk.capacity := hsize
  rw [wpIf_bind]
  refine wpIf_mono (wpIf_of_wp (bitmapRead_spec hmf (by rw [hcnt₁]; exact hpos))) ?_
  rintro ok fs₂ ⟨b₂, h₂, rfl, hl₂, hcnt, hread, hsync⟩
  rw [wpIf_assert]
  refine ⟨fun hok => ?_, fun h => hread (hl₁.plenty (hP h)).2⟩
  have hcnt₂ : b₂.bitCnt = b.bitCnt := by
    rw [hcnt, v.space.size, hcnt₁]
  have hbits : ∀ i < b.bitCnt, b₂.bit i = b.bit i := by
    intro i hi
    rw [← v.agrees i hi, ← (hsync hok).agrees i (hcnt₂ ▸ hi), hcnt₂]
    rfl
  refine ⟨⟨?_, ?_, hsync hok, rfl, hbits, ?_⟩, hl₁.trans hl₂⟩
  · refine ⟨v.space.congr_map hcnt₂ hbits, fun {s m} hm => ?_, fun s => ?_,
      fun _ => Nat.zero_le _, ⟨_, _, rfl, update_self .., rfl⟩, v.mapNode, ?_, ?_, rfl,
      v.rootNode, rfl, v.listing, fun {s m} hm hr => ?_⟩
    · by_cases hs : s = freeMapSector
      · subst hs
        rw [show _ = some _ from hmf.inode, Option.some.injEq] at hm
        subst hm
        exact ⟨v.mapNode, by simp only [Ghost.start, update_self], rfl⟩
      · simp only [Fs.openMap, update_of_ne hs, hopen] at hm
        cases hm
    · by_cases hs : s = freeMapSector
      · subst hs
        simp [Fs.openMap, Ghost.start]
      · simp [Fs.openMap, Ghost.start, update_of_ne hs, hopen]
    · simp only [hcnt, hcnt₁]
      exact v.mapSize
    · simp [Ghost.start]
    · by_cases hs : s = freeMapSector
      · grind [hmf.inode]
      · simp only [Fs.openMap, update_of_ne hs, hopen] at hm
        cases hm
  · have hempty : ∀ t, fs.openFiles t = 0 ∧ fs.deniers t = 0 := fun t =>
      ⟨tally_eq_zero.mpr fun i _ => by rw [hfiles]; rfl,
        tally_eq_zero.mpr fun i _ => by rw [hfiles]; rfl⟩
    refine ⟨fun f hf => ?_, fun t => ?_, fun t => ?_, fun {f F} hf _ => ?_, fun {f F} hf => ?_⟩
    · have hne : f ≠ fs.nextFile := Nat.ne_of_gt hf
      simpa only [Fs.openMap, update_of_ne hne] using hfiles f
    · refine Eq.trans ?_ (fs.openFiles_add ⟨freeMapSector, 0, false⟩ t).symm
      rw [(hempty t).1]
      by_cases ht : t = freeMapSector
      · subst ht
        rfl
      · simp [Ghost.start, onInode, update_of_ne ht, Ne.symm ht]
    · refine Eq.trans ?_ (fs.deniers_add ⟨freeMapSector, 0, false⟩ t).symm
      rw [(hempty t).2]
      simp [Ghost.start, deniesWrite]
    · rcases Fs.addFile_cases hf with ⟨rfl, -⟩ | hold
      · rfl
      · rw [hfiles] at hold
        cases hold
    · rcases Fs.addFile_cases hf with ⟨-, rfl⟩ | hold
      · decide
      · rw [hfiles] at hold
        cases hold
  · intro f hf
    by_cases hne : f = fs.nextFile
    · rw [hne]
      rfl
    · exact absurd (hfiles f) (by simpa only [Fs.openMap, update_of_ne hne] using hf)

end Mount

/-! Formatting. -/

theorem bitmapMark_eq {b b' : Bitmap} {i : Nat} (h : bitmapMark b i = some b') :
    elemIdx i < elemCnt b.bitCnt ∧ b' = b.put i true := by
  rw [bitmapMark] at h
  split at h
  · next hlt =>
    cases h
    exact ⟨hlt, rfl⟩
  · cases h

/-- `free_map_init`: the sectors of the free map and the root directory are taken. -/
theorem freeMapInit_spec {P : Prop} (fs : Fs) (bits : Nat → BitVec 32)
    (hP : P → Plenty fs.heap ∧ 0 < fs.disk.capacity) :
    wpIf P (freeMapInit bits) (fun _ fs' => ∃ b h, Later fs.heap h ∧
      fs' = { fs with heap := h, freeMap := b } ∧ b.bitCnt = fs.disk.capacity ∧
      0 < fs.disk.capacity ∧ b.bit freeMapSector = true ∧ b.bit rootDirSector = true) fs := by
  have hlba := fs.disk.lba28
  have hcreate : bitmapCreate bits fs.disk.capacity =
      some ((⟨fs.disk.capacity, bits⟩ : Bitmap).fill 0 fs.disk.capacity false) :=
    bitmapSetMultiple_eq (by simp only [wordSize]; omega) (by simp) false
  have helem : ∀ {i}, i < 32 → 0 < fs.disk.capacity → elemIdx i < elemCnt fs.disk.capacity := by
    grind [elemIdx, elemCnt, elemBits]
  simp only [freeMapInit, wpIf_bind]
  refine wpIf_malloc (wpIf_assert.mpr ⟨fun _ => ?_, fun h => (hP h).1.1 0⟩)
  refine wpIf_malloc (wpIf_assert.mpr ⟨fun _ => ?_, fun h => (hP h).1.1 1⟩)
  simp only [wpIf_get, wpIf_follow, setFreeMap, wpIf_modify, hcreate, Option.some.injEq,
    forall_eq', Option.isSome_some, implies_true, and_true]
  refine ⟨fun b₁ hb₁ => ⟨fun b₂ hb₂ => ?_, fun h => ?_⟩, fun h => ?_⟩
  · obtain ⟨hlt, rfl⟩ := bitmapMark_eq hb₁
    obtain ⟨-, rfl⟩ := bitmapMark_eq hb₂
    refine ⟨_, _, (Later.nextStruct _).trans (.nextStruct _), rfl, Bitmap.fill_bitCnt .., ?_, ?_, ?_⟩
    · grind [Bitmap.fill_bitCnt, elemCnt, elemBits]
    · rw [Bitmap.put_bit, if_neg (by decide), Bitmap.put_bit, if_pos rfl]
    · rw [Bitmap.put_bit, if_pos rfl]
  · obtain ⟨-, rfl⟩ := bitmapMark_eq hb₁
    rw [bitmapMark, if_pos]
    · rfl
    · exact (Bitmap.fill_bitCnt ..).symm ▸ helem (by decide) (hP h).2
  · rw [bitmapMark, if_pos]
    · rfl
    · exact (Bitmap.fill_bitCnt ..).symm ▸ helem (by decide) (hP h).2

theorem Space.addInode {d e : Disk} {map : Bitmap} {own : Nat → Option InodeDisk} {s : Nat}
    (h : Space d map own) {start : Nat} {length : Int}
    (hnew : NewInode d map own s (Filesys.newInode start length) e)
    (hmade : Made s (Filesys.newInode start length) d e) (h31 : length < 2147483648) :
    Space e (map.fill start (bytesToSectors length) true)
      (update own s (some (Filesys.newInode start length))) :=
  ((h.mark _ _).made hnew.vacant hmade).adopt (hnew.fine h31) hnew.used hnew.vacant

/-- The free map is in its file, which is open. -/
structure MapCreated (fs : Fs) (n : InodeDisk) (fs' : Fs) : Prop where
  space : Space fs'.disk fs'.freeMap (update (fun _ => none) freeMapSector (some n))
  file : MapFile fs' fs.nextFile ⟨1, false, 0, n⟩
  freeMapFile : fs'.freeMapFile = some fs.nextFile
  stored : Stored n fs'.disk fs'.freeMap
  bit : fs'.freeMap.bit rootDirSector = true
  apart : ¬n.Holds rootDirSector
  two : rootDirSector < fs'.disk.capacity
  closed : ∀ s, s ≠ freeMapSector → fs'.openInodes s = none
  files : fs'.files = update fs.files fs.nextFile (some ⟨freeMapSector, 0, false⟩)
  later : Later fs.heap fs'.heap

section Format
variable {fs : Fs}

/-- The end of `free_map_create`: the file is opened and the map written to it. -/
theorem storeMap_spec {n : InodeDisk} (hopen : ∀ s, fs.openInodes s = none)
    (hspace : Space fs.disk fs.freeMap (update (fun _ => none) freeMapSector (some n)))
    (hsize : n.length = byteCnt fs.freeMap.bitCnt) (hbit : fs.freeMap.bit rootDirSector = true)
    (hapart : ¬n.Holds rootDirSector) (htwo : rootDirSector < fs.disk.capacity) :
    wpIf False (do
        let file ← openFreeMapFile
        assert (← bitmapWrite file))
      (fun _ fs' => MapCreated fs n fs') fs := by
  have hown : update (fun _ => none) freeMapSector (some n) freeMapSector = some n :=
    update_self ..
  have hfine := hspace.fine hown
  rw [wpIf_bind]
  refine wpIf_mono (openFreeMapFile_spec False.elim (hopen _) hfine.sector_lt) ?_
  rintro file fs₁ ⟨rfl, h₁, hl₁, rfl⟩
  have hmf := Fs.openMap_mapFile hfine hsize h₁
  rw [wpIf_bind]
  refine wpIf_mono (wpIf_of_wp (bitmapWrite_spec hmf)) ?_
  rintro ok fs₂ ⟨d, h, rfl, hoff, hl, -, hst⟩
  rw [wpIf_assert]
  refine ⟨fun hok => ⟨hspace.write hown hoff, hmf.congr rfl rfl hoff.capacity rfl, rfl, hst hok,
    hbit, hapart, ?_, fun s hs => ?_, rfl, hl₁.trans hl⟩, False.elim⟩
  · rw [hoff.capacity]
    exact htwo
  · simp only [Fs.openMap, update_of_ne hs]
    exact hopen s

theorem freeMapCreate_spec (hopen : ∀ s, fs.openInodes s = none) (hno : fs.freeMapFile = none)
    (hsize : fs.freeMap.bitCnt = fs.disk.capacity) (hpos : 0 < fs.disk.capacity)
    (h0 : fs.freeMap.bit freeMapSector = true) (h1 : fs.freeMap.bit rootDirSector = true) :
    wpIf False freeMapCreate (fun _ fs' => ∃ n, MapCreated fs n fs') fs := by
  have hlba := fs.disk.lba28
  have hlen : (byteCnt fs.freeMap.bitCnt : Int) < 2147483648 := by
    rw [hsize]
    simp only [byteCnt, elemCnt, elemBits]
    omega
  have hcnt : 0 < bytesToSectors (byteCnt fs.freeMap.bitCnt) := by
    grind [bytesToSectors_eq, byteCnt, elemCnt, elemBits]
  rw [freeMapCreate, wpIf_bind, wpIf_get, wpIf_bind]
  refine wpIf_mono (wpIf_of_wp (inodeCreate_spec (A := fun r t => ∃ h, Later fs.heap h ∧
      t = { fs with
        heap := h
        freeMap := fs.freeMap.taken (bytesToSectors (byteCnt fs.freeMap.bitCnt)) r } ∧
      fs.freeMap.FirstRun (bytesToSectors (byteCnt fs.freeMap.bitCnt)) false r)
    (Int.natCast_nonneg _) hpos (fun h hl => ?_) ?_)) ?_
  · grind [wp_mono, freeMapAllocate_noFile]
  · rintro start t ⟨h, -, rfl, hfirst⟩
    exact ⟨rfl, hsize ▸ hfirst.1⟩
  rintro ok fs₁ hcr
  rw [wpIf_bind, wpIf_assert]
  refine ⟨?_, False.elim⟩
  rintro rfl
  rcases hcr with ⟨hf, -⟩ | ⟨-, start, t, d, ⟨h₁, hl₁, rfl, hfirst⟩, rfl, hmade⟩
  · cases hf
  have hspace₀ : Space fs.disk fs.freeMap fun _ => none :=
    ⟨hsize, ⟨fun hs => (by cases hs), fun hs => (by cases hs)⟩, fun hs => by cases hs⟩
  have hnew := hspace₀.newInode (s := freeMapSector) hpos h0 (fun _ _ hs => by cases hs) (Int.natCast_nonneg _)
    hfirst.1 hfirst.2.1 hmade
  have hspace : Space d (fs.freeMap.taken (bytesToSectors (byteCnt fs.freeMap.bitCnt)) (some start))
    _ := hspace₀.addInode hnew hmade hlen
  have hfine := hspace.fine (update_self ..)
  -- the run of the map does not start in sector 0, so there is a sector 1
  have hstart : start ≠ 0 := by
    rintro rfl
    have hbit := hfirst.2.1 0 hcnt
    rw [Nat.zero_add, show fs.freeMap.bit 0 = true from h0] at hbit
    cases hbit
  have htwo : rootDirSector < d.capacity := by
    have hle := hfirst.1
    rw [hmade.capacity]
    show 1 < fs.disk.capacity
    omega
  have hbit : (fs.freeMap.taken (bytesToSectors (byteCnt fs.freeMap.bitCnt)) (some start)).bit
      rootDirSector = true := by
    rw [Bitmap.taken, Bitmap.fill_bit, h1, ite_self]
  have hcnt' : (fs.freeMap.taken (bytesToSectors (byteCnt fs.freeMap.bitCnt)) (some start)).bitCnt =
    fs.freeMap.bitCnt := Bitmap.fill_bitCnt ..
  generalize fs.freeMap.taken (bytesToSectors (byteCnt fs.freeMap.bitCnt)) (some start) = b
    at hspace hbit hcnt' ⊢
  refine wpIf_mono (storeMap_spec hopen hspace ?_ hbit (hfirst.2.1.not_mem h1) htwo) ?_
  · rw [hcnt']
    rfl
  · exact fun _ fs₃ hm => ⟨_, hm.space, hm.file, hm.freeMapFile, hm.stored, hm.bit, hm.apart, hm.two,
      hm.closed, hm.files, hl₁.trans hm.later⟩

/-- A volume without files, and nothing open. -/
structure Formatted (fs : Fs) (own : Nat → Option InodeDisk) (map root : InodeDisk) : Prop where
  volume : Volume fs.disk fs.freeMap own map root
  blank : ∀ k < root.entryCnt, inUse (dirEntry root fs.disk k) = false
  closed : ∀ s, fs.openInodes s = none
  files : ∀ f, fs.files f = none

theorem doFormat_spec (hopen : ∀ s, fs.openInodes s = none) (hfiles : ∀ f, fs.files f = none)
    (hno : fs.freeMapFile = none)
    (hsize : fs.freeMap.bitCnt = fs.disk.capacity) (hpos : 0 < fs.disk.capacity)
    (h0 : fs.freeMap.bit freeMapSector = true) (h1 : fs.freeMap.bit rootDirSector = true) :
    wpIf False doFormat (fun _ fs' => Later fs.heap fs'.heap ∧ ∃ own map root, Formatted fs' own map root)
      fs := by
  rw [doFormat, wpIf_bind]
  refine wpIf_mono (freeMapCreate_spec hopen hno hsize hpos h0 h1) ?_
  rintro - fs₁ ⟨n, hm⟩
  have hlen : toInt (16 * dirEntrySize % wordSize) = 320 := by decide
  have hown : update (fun _ => none) freeMapSector (some n) freeMapSector = some n :=
    update_self ..
  have hvacant : Vacant (update (fun _ => none) freeMapSector (some n)) rootDirSector := by
    intro s m hs
    by_cases hs0 : s = freeMapSector
    · subst hs0
      rw [hown, Option.some.injEq] at hs
      subst hs
      exact fun hocc => hocc.elim (by decide) hm.apart
    · rw [update_of_ne hs0] at hs
      cases hs
  simp only [dirCreate, hlen, wpIf_bind]
  refine wpIf_mono (wpIf_of_wp (inodeCreate_spec (A := fun r t => ∃ d h, Later fs₁.heap h ∧
      t = { fs₁ with disk := d, heap := h, freeMap := fs₁.freeMap.taken (bytesToSectors 320) r } ∧
      SameOff n fs₁.disk d ∧ (r.isSome → fs₁.freeMap.FirstRun (bytesToSectors 320) false r ∧
        Stored n d (fs₁.freeMap.taken (bytesToSectors 320) r)))
    (by decide) hm.two (fun h hl => ?_) ?_)) ?_
  · refine wp_mono (@freeMapAllocate_spec { fs₁ with heap := h } _ _ hm.freeMapFile
      (hm.file.congr rfl rfl rfl rfl) hm.space.size _) ?_
    rintro r t ⟨d, h', rfl, hoff, hl', hsome, -⟩
    exact ⟨d, h', hl.trans hl', rfl, hoff, hsome⟩
  · rintro start t ⟨d, h, -, rfl, hoff, hsome⟩
    exact ⟨hoff.capacity, hm.space.size ▸ (hsome rfl).1.1⟩
  rintro ok fs₂ hcr
  rw [wpIf_assert]
  refine ⟨?_, False.elim⟩
  rintro rfl
  rcases hcr with ⟨hf, -⟩ | ⟨-, start, t, e, ⟨d, h₂, hl₂, rfl, hoff, hsome⟩, rfl, hmade⟩
  · cases hf
  obtain ⟨hfirst, hst⟩ := hsome rfl
  have hspace₁ := hm.space.write hown hoff
  have hnew := hspace₁.newInode (by rw [hoff.capacity]; exact hm.two) hm.bit hvacant (by decide)
    hfirst.1 hfirst.2.1 hmade
  have hspace := hspace₁.addInode hnew hmade (by decide)
  have hmapNode : update (update (fun _ => none) freeMapSector (some n))
      rootDirSector (some (newInode start 320)) freeMapSector = some n := by
    rw [update_of_ne (by decide)]
    exact hown
  have hblank : ∀ k < (newInode start 320).entryCnt,
      inUse (dirEntry (newInode start 320) e k) = false := by
    intro k hk
    have hholds := (hspace.fine (update_self ..)).holds_of_data
      (a := sectorSize * start + dirEntrySize * k + 19) (by
        simp only [InodeDisk.entryCnt, InodeDisk.Data, newInode, dirEntrySize] at hk ⊢
        omega)
    have hzero : dirEntry (newInode start 320) e k 19 = 0 := by
      simp only [dirEntry, readEntry, memcpy_start, InodeDisk.bytes]
      rw [if_pos (by decide)]
      exact (hmade.byte _).trans (if_pos hholds)
    rw [inUse, hzero]
    rfl
  have hnobody : ∀ s, ¬Named (newInode start 320) e s := by
    rintro s ⟨k, hk, hu, -⟩
    rw [hblank k hk] at hu
    cases hu
  have hfile : fs₁.files fs.nextFile = some ⟨freeMapSector, 0, false⟩ := by
    rw [hm.files, update_self]
  have hinode := hm.file.inode
  have hwhole : (newInode start 320).length.toNat % dirEntrySize = 0 := by
    simp only [newInode, dirEntrySize]
    decide
  refine wpIf_of_wp ?_
  simp only [freeMapClose, wp_bind, wp_get, hm.freeMapFile, fileClose, fileAllowWrite, wp_follow,
    hfile, Option.some.injEq, exists_eq_left', Bool.false_eq_true, if_false, wp_pure, inodeClose,
    hinode, if_true, setInode, wp_modify, setFile]
  refine ⟨hm.later.trans hl₂, _, n, newInode start 320, ⟨hspace, hmapNode, ?_,
    update_self .., ⟨hwhole, fun hs => absurd hs (hnobody _),
    fun hs => absurd hs (hnobody _), fun {k j} hk _ hu => ?_⟩, ?_⟩, hblank, fun s => ?_, fun f => ?_⟩
  · have hcap : e.capacity = fs₁.disk.capacity := hmade.capacity.trans hoff.capacity
    rw [hcap, ← hm.space.size]
    exact hm.file.size
  · rw [hblank k hk] at hu
    cases hu
  · refine hst.agrees.congr ?_ fun a ha => ?_
    · rw [Bitmap.taken, Bitmap.fill_bitCnt]
      exact hm.file.size
    · exact hnew.frame _ _ hown a (.inr ((hspace₁.fine hown).holds_of_data ha))
  · grind [hm.closed]
  · by_cases hf : f = fs.nextFile
    · simp only [hf, update_self]
    · simp only [update_of_ne hf, hm.files]
      exact hfiles f

end Format

/-! `filesys_init`. -/

/-- The state in which `filesys_init` is called. -/
def boot (d : Disk) (heap : Heap) : Fs where
  disk := d
  heap := heap
  openInodes := fun _ => none
  files := fun _ => none
  nextFile := 0
  freeMap := ⟨0, fun _ => 0⟩
  freeMapFile := none

section Init
variable {d : Disk} {heap : Heap} {bits : Nat → BitVec 32}

/-- With formatting: whatever was on the disk, it is now a volume without files. -/
theorem filesysInit_format : wpIf False (filesysInit bits true) (fun _ fs' => Later heap fs'.heap ∧
    ∃ d' b own map root, Mounted d' b own map root fs' ∧
      ∀ k < root.entryCnt, inUse (dirEntry root d' k) = false) (boot d heap) := by
  rw [filesysInit, wpIf_bind, wpIf_modify, wpIf_bind]
  refine wpIf_mono (freeMapInit_spec _ bits False.elim) ?_
  rintro - fs₁ ⟨b, h₁, hl₁, rfl, hcnt, hpos, h0, h1⟩
  rw [if_pos rfl, wpIf_bind]
  refine wpIf_mono (doFormat_spec (fun _ => rfl) (fun _ => rfl) rfl hcnt hpos h0 h1) ?_
  rintro - fs₂ ⟨hl₂, own, map, root, hf⟩
  refine wpIf_mono (hf.volume.mount False.elim hf.closed hf.files hf.volume.space.size) ?_
  rintro - fs₃ ⟨hm, hl₃⟩
  exact ⟨(hl₁.trans hl₂).trans hl₃, _, _, _, _, _, hm, hf.blank⟩

/-- Without formatting: the files are those that were on the disk. If the memory for it is
    there, the call returns. -/
theorem filesysInit_mount {b : Bitmap} {own : Nat → Option InodeDisk} {map root : InodeDisk}
    (v : Volume d b own map root) : wpIf (Plenty heap) (filesysInit bits false)
      (fun _ fs' => Later heap fs'.heap ∧ Mounted d b own map root fs') (boot d heap) := by
  rw [filesysInit, wpIf_bind, wpIf_modify, wpIf_bind]
  refine wpIf_mono (freeMapInit_spec _ bits
    fun h => ⟨h, Nat.zero_lt_of_lt (v.space.fine v.mapNode).sector_lt⟩) ?_
  rintro - fs₁ ⟨b₁, h₁, hl₁, rfl, hcnt, -, -, -⟩
  rw [if_neg (by decide), wpIf_bind, wpIf_pure]
  refine wpIf_mono (Volume.mount hl₁.plenty v (fun _ => rfl) (fun _ => rfl) hcnt) ?_
  rintro - fs₂ ⟨hm, hl₂⟩
  exact ⟨hl₁.trans hl₂, hm⟩

end Init

end Pintos.Filesys
