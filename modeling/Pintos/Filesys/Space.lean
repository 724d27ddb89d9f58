import Pintos.Filesys.Slots
import Pintos.Lib.Exclusive

/- Who holds which sectors of the disk.

   An inode occupies its own sector and its data sectors. `Space` says that the inodes
   in `own`, a map from inode sectors to inodes, are stored on the disk as they are in
   `own`, hold their sectors exclusively and have them marked in the free map. The
   rules follow what the file system does with sectors. -/
namespace Pintos.Filesys

open Vm (wordSize)
open Lib Function

/-- The sectors of an inode and its data. -/
def Occupies (s : Nat) (n : InodeDisk) (sec : Nat) : Prop := sec = s ∨ n.Holds sec

/-- The inode in sector `s` is as it should be. -/
structure Fine (d : Disk) (s : Nat) (n : InodeDisk) : Prop where
  stored : d.inodeAt s = n
  nonneg : 0 ≤ n.length
  fits : n.length ≤ 512 * n.sectors
  sector_lt : s < d.capacity
  extent_le : n.start + n.sectors ≤ d.capacity
  self : ¬n.Holds s

structure Space (d : Disk) (map : Bitmap) (own : Nat → Option InodeDisk) : Prop where
  size : map.bitCnt = d.capacity
  excl : Exclusive own Occupies (fun sec => map.bit sec = true)
  fine : ∀ {s n}, own s = some n → Fine d s n

theorem Fine.onDisk {d : Disk} {s : Nat} {n : InodeDisk} (h : Fine d s n) :
    n.OnDisk d.capacity := by
  intro i hi
  have hfits := h.fits
  have hext := h.extent_le
  simp only [sectorSize]
  omega

/-- The sector of a byte of an inode is one of its data sectors. -/
theorem Fine.holds_of_data {d : Disk} {s a : Nat} {n : InodeDisk} (h : Fine d s n)
    (ha : n.Data a) : n.Holds (a / sectorSize) := by
  have hfits := h.fits
  simp only [InodeDisk.Data, InodeDisk.Holds, sectorSize] at ha ⊢
  omega

theorem Disk.inodeAt_congr {d e : Disk} {s : Nat}
    (h : ∀ a, a / sectorSize = s → e.byte a = d.byte a) : e.inodeAt s = d.inodeAt s := by
  refine InodeDisk.decode_congr fun i hi => h _ ?_
  rw [sectorSize] at hi ⊢
  omega

section Space
variable {d e : Disk} {map : Bitmap} {own : Nat → Option InodeDisk} {s t start a : Nat}
  {n m : InodeDisk} {length : Int}

section
variable (h : Space d map own)
include h

theorem Space.data_apart (hs : own s = some n) (ht : own t = some m) (hne : s ≠ t) (ha : m.Data a) :
    ¬n.Data a := fun hn =>
  hne (h.excl.apart hs ht (.inr ((h.fine hs).holds_of_data hn)) (.inr ((h.fine ht).holds_of_data ha)))

theorem Space.inode_apart (hs : own s = some n) (ht : own t = some m) (ha : a / sectorSize = t) :
    ¬n.Data a := by
  intro hn
  have hholds := (h.fine hs).holds_of_data hn
  rw [ha] at hholds
  have heq : s = t := h.excl.apart hs ht (.inr hholds) (.inl rfl)
  exact (h.fine hs).self (heq ▸ hholds)

theorem Space.congr (hcap : e.capacity = d.capacity)
    (hbyte : ∀ s n, own s = some n → ∀ a, a / sectorSize = s → e.byte a = d.byte a) :
    Space e map own where
  size := h.size.trans hcap.symm
  excl := h.excl
  fine := fun {s n} hs => by
    have hf := h.fine hs
    exact ⟨(Disk.inodeAt_congr (hbyte s n hs)).trans hf.stored, hf.nonneg, hf.fits,
      hcap ▸ hf.sector_lt, hcap ▸ hf.extent_le, hf.self⟩

theorem Space.write (hs : own s = some n) (hoff : SameOff n d e) : Space e map own :=
  h.congr hoff.capacity fun _ _ ht _ ha => hoff.byte _ (h.inode_apart hs ht ha)

theorem Space.mark (start cnt : Nat) : Space d (map.fill start cnt true) own where
  size := by rw [Bitmap.fill_bitCnt]; exact h.size
  excl := h.excl.mono fun sec hsec => by
    rw [Bitmap.fill_bit]
    split
    · rfl
    · exact hsec
  fine := h.fine

/-- No inode occupies a sector. -/
def Vacant (own : Nat → Option InodeDisk) (sec : Nat) : Prop :=
  ∀ s n, own s = some n → ¬Occupies s n sec

theorem Space.vacant {sec : Nat} (hbit : map.bit sec = false) :
    Vacant own sec := fun _ _ hs hocc => by
  have hused := h.excl.used hs hocc
  rw [hbit] at hused
  cases hused

theorem Space.give {cnt : Nat} (hfree : ∀ sec, start ≤ sec → sec < start + cnt → Vacant own sec) :
    Space d (map.fill start cnt false) own where
  size := by rw [Bitmap.fill_bitCnt]; exact h.size
  excl := h.excl.give fun sec hsec => by
    by_cases hin : start ≤ sec ∧ sec < start + cnt
    · exact Or.inr (hfree sec hin.1 hin.2)
    · rw [Bitmap.fill_bit, if_neg hin]
      exact Or.inl hsec
  fine := h.fine

/-- The data sectors of an inode are a range of marked bits. -/
theorem Space.run (hs : own s = some n) : map.Run n.start n.sectors true := fun j hj =>
  h.excl.used hs (.inr ⟨Nat.le_add_right .., by omega⟩)

theorem Space.marked (hs : own s = some n) : map.Run s 1 true := by
  intro j hj
  rw [show j = 0 by omega]
  exact h.excl.used hs (.inl rfl)

theorem Space.release (hs : own s = some n) :
    Space d ((map.fill s 1 false).fill n.start n.sectors false) (update own s none) where
  size := by simp only [Bitmap.fill_bitCnt]; exact h.size
  excl := h.excl.erase hs fun sec hsec hno => by grind [Occupies, InodeDisk.Holds, Bitmap.fill_bit]
  fine := fun {t m} ht => by grind [h.fine]

theorem Space.made (hfree : ∀ sec, Occupies s n sec → Vacant own sec) (hmade : Made s n d e) :
    Space e map own := by
  refine h.congr hmade.capacity fun t m ht a ha => ?_
  have hno : ¬Occupies s n (a / sectorSize) := fun hocc => hfree _ hocc t m ht (.inl ha)
  rw [hmade.byte, if_neg fun hn => hno (.inr hn), if_neg fun hn => hno (.inl hn)]

end

/-- The inode that `inode_create` makes. -/
def newInode (start : Nat) (length : Int) : InodeDisk := ⟨start, length, inodeMagic⟩

theorem Made.fine (h : Made s (newInode start length) d e) (hs : s < d.capacity)
    (hself : ¬(newInode start length).Holds s) (hlen : 0 ≤ length) (h31 : length < 2147483648)
    (hle : start + bytesToSectors length ≤ d.capacity) : Fine e s (newInode start length) := by
  have hlba := d.lba28
  have hstart : start < wordSize := by
    simp only [wordSize]
    omega
  exact ⟨h.inodeAt hself hstart hlen h31 rfl, hlen,
    le_of_bytesToSectors_le hlen h31 (show bytesToSectors length ≤ _ by omega),
    by rw [h.capacity]; exact hs, by rw [h.capacity]; exact hle, hself⟩

/-- What holds once an inode has been made in a vacant sector, with free sectors for its
    data: it can be adopted, and nothing that another inode occupies has been written. -/
structure NewInode (d : Disk) (map : Bitmap) (own : Nat → Option InodeDisk) (s : Nat)
    (n : InodeDisk) (e : Disk) : Prop where
  vacant : ∀ x, Occupies s n x → Vacant own x
  used : ∀ x, Occupies s n x → (map.fill n.start n.sectors true).bit x = true
  frame : ∀ t m, own t = some m → ∀ a, Occupies t m (a / sectorSize) → e.byte a = d.byte a
  fine : n.length < 2147483648 → Fine e s n

theorem Space.newInode (h : Space d map own) (hs : s < d.capacity) (hmark : map.bit s = true)
    (hvacant : Vacant own s) (hlen : 0 ≤ length) (hle : start + bytesToSectors length ≤ map.bitCnt)
    (hrun : map.Run start (bytesToSectors length) false)
    (hmade : Made s (newInode start length) d e) :
    NewInode d map own s (newInode start length) e := by
  -- the data sectors were free, so the sector of the inode is not one of them
  have hdata : ∀ x, (Filesys.newInode start length).Holds x → map.bit x = false := by
    intro x hx
    obtain ⟨h₁, h₂⟩ := hx
    simp only [Filesys.newInode, InodeDisk.sectors] at h₁ h₂
    have hx' := hrun (x - start) (by omega)
    rwa [show start + (x - start) = x by omega] at hx'
  have hself : ¬(Filesys.newInode start length).Holds s := hrun.not_mem hmark
  have hfree : ∀ x, Occupies s (Filesys.newInode start length) x → Vacant own x := by
    rintro x (rfl | hx)
    · exact hvacant
    · exact h.vacant (hdata x hx)
  refine ⟨hfree, fun x hx => ?_, fun t m ht a hocc => ?_, fun h31 => ?_⟩
  · rw [Bitmap.fill_bit]
    rcases hx with rfl | hx
    · rw [hmark, ite_self]
    · exact if_pos hx
  · have hno : ¬Occupies s (Filesys.newInode start length) (a / sectorSize) :=
      fun hx => hfree _ hx t m ht hocc
    rw [hmade.byte, if_neg fun hn => hno (.inr hn), if_neg fun hn => hno (.inl hn)]
  · exact hmade.fine hs hself hlen h31 (h.size ▸ hle)

theorem Space.adopt (h : Space d map own) (hnew : Fine d s n)
    (hused : ∀ sec, Occupies s n sec → map.bit sec = true)
    (hfree : ∀ sec, Occupies s n sec → Vacant own sec) :
    Space d map (update own s (some n)) where
  size := h.size
  excl := h.excl.insert hused hfree
  fine := fun {t m} ht => by grind [h.fine]

theorem Space.disown (h : Space d map own) (hs : own s = some n) :
    Space d map (update own s none) where
  size := h.size
  excl := h.excl.erase hs fun _ hsec _ => hsec
  fine := fun {t m} ht => by grind [h.fine]

end Space

end Pintos.Filesys
