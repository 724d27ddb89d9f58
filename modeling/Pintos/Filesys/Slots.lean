import Pintos.Filesys.Directory
import Pintos.Filesys.FreeMap

/- Directories as arrays of slots.

   An entry straddles sectors, but reading or writing one moves all its bytes or none:
   only the first chunk can ask for a bounce buffer. So the loops of `directory.c` see
   the slots one after the other, and a write replaces one slot. -/
namespace Pintos.Filesys

open Vm (Byte Buf wordSize)
open Lib

variable {i k : Nat} {cs : List Byte} {b : Buf} {n : InodeDisk}

/-! Strings in a buffer. -/

theorem strcmp_congr {c : Buf} (h : ∀ j, i ≤ j → j ≤ i + cs.length → b j = c j) :
    strcmp cs b i = strcmp cs c i := by
  induction cs generalizing i with
  | nil => simp only [strcmp, h i le_rfl (by simp)]
  | cons a cs ih => grind [strcmp]

theorem strcmp_unique {ds : List Byte} (hc : 0 ∉ cs) (hd : 0 ∉ ds) (h₁ : strcmp cs b i = true)
    (h₂ : strcmp ds b i = true) : cs = ds := by
  induction cs generalizing ds i with
  | nil =>
    cases ds with
    | nil => rfl
    | cons d ds => grind [strcmp]
  | cons c cs ih =>
    cases ds with
    | nil => grind [strcmp]
    | cons d ds => grind [strcmp]

theorem strcmp_of_bytes (h : ∀ j < cs.length, b (i + j) = cs.getD j 0)
    (hnul : b (i + cs.length) = 0) : strcmp cs b i = true := by
  induction cs generalizing i with
  | nil => simpa [strcmp] using hnul
  | cons c cs ih =>
    simp only [strcmp, Bool.and_eq_true, decide_eq_true_eq]
    refine ⟨by simpa using h 0 (by simp), ih (fun j hj => ?_) ?_⟩
    · have hj' := h (j + 1) (by rw [List.length_cons]; omega)
      rw [← Nat.add_assoc, Nat.add_right_comm] at hj'
      simpa using hj'
    · rw [← hnul, List.length_cons]
      congr 1
      omega

/-! Entries. -/

/-- An entry is of a file with this name. -/
def hasName (name : Name) (e : Buf) : Bool := inUse e && strcmp name.chars e 4

/-- `NAME` is neither empty nor too long. -/
def Name.Valid (name : Name) : Prop := name.chars ≠ [] ∧ name.chars.length ≤ nameMax

section Entry
variable (e : Buf) (name : Name) (sector : Nat)

theorem inUse_fillEntry : inUse (fillEntry e name sector) = true := by
  have hle : min name.chars.length 14 ≤ 14 := by omega
  simp only [inUse, fillEntry, strlcpy, memcpy, nameMax]
  rw [if_neg (by omega), if_neg (by omega), if_pos (by omega)]
  rfl

theorem inUse_clearEntry : inUse (clearEntry e) = false := by
  simp [inUse, clearEntry, memcpy]

variable {sector}

theorem inodeSector_fillEntry (hs : sector < wordSize) :
    inodeSector (fillEntry e name sector) = sector := by
  refine word_eq (fun j hj => ?_) hs
  simp only [fillEntry, memcpy, Nat.zero_add, Nat.zero_le, true_and, if_pos hj, Nat.sub_zero]

variable {name}

theorem strcmp_fillEntry (sector : Nat) (hv : name.Valid) :
    strcmp name.chars (fillEntry e name sector) 4 = true := by
  have hlen := hv.2
  simp only [nameMax] at hlen
  have hmin : min name.chars.length (nameMax + 1 - 1) = name.chars.length := by
    simp only [nameMax]
    omega
  have hbyte : ∀ j ≤ name.chars.length, fillEntry e name sector (4 + j) =
      if j < name.chars.length then name.chars.getD j 0 else 0 := by
    intro j hj
    simp only [fillEntry, strlcpy, memcpy, hmin]
    rw [if_neg (by omega), if_pos (by omega), Nat.add_sub_cancel_left]
  refine strcmp_of_bytes (fun j hj => ?_) ?_
  · rw [hbyte j (by omega), if_pos hj]
  · rw [hbyte _ le_rfl, if_neg (by omega)]

end Entry

/-! Slots. -/

def InodeDisk.entryCnt (n : InodeDisk) : Nat := n.length.toNat / dirEntrySize

/-- What a loop has in `e` after it read entry `k`. -/
def readEntry (e : Buf) (n : InodeDisk) (d : Disk) (k : Nat) : Buf :=
  memcpy e 0 (n.bytes d (dirEntrySize * k)) dirEntrySize

def dirEntry (n : InodeDisk) (d : Disk) (k : Nat) : Buf := readEntry (fun _ => 0) n d k

theorem readEntry_readEntry (e : Buf) (n : InodeDisk) (d : Disk) (k j : Nat) :
    readEntry (readEntry e n d k) n d j = readEntry e n d j := by
  funext i
  simp only [readEntry, memcpy_start]
  by_cases h : i < dirEntrySize <;> simp only [h, if_true, if_false]

theorem inUse_readEntry (e : Buf) (n : InodeDisk) (d : Disk) (k : Nat) :
    inUse (readEntry e n d k) = inUse (dirEntry n d k) := by
  simp only [inUse, dirEntry, readEntry, memcpy_start, dirEntrySize]
  rfl

theorem Moved.small {size offset : Nat} {heap heap' : Heap}
    (h : Moved n size offset false heap heap' k) (hs : size < sectorSize) :
    k = n.want size offset ∨ (k = 0 ∧ ¬Bounces heap) := by
  obtain hk | ⟨-, hk, hp⟩ := h.count
  · exact Or.inl hk
  · refine Or.inr ⟨hk.trans ?_, hp⟩
    have hw : n.want size offset / sectorSize = 0 := by
      rw [Nat.div_eq_of_lt]
      simp only [InodeDisk.want]
      omega
    simp only [InodeDisk.direct, hw, Nat.zero_mul, ite_self]

theorem want_entry (n : InodeDisk) (k : Nat) :
    n.want dirEntrySize (dirEntrySize * k) = dirEntrySize ↔ k < n.entryCnt := by
  simp only [InodeDisk.want, InodeDisk.left, InodeDisk.entryCnt, dirEntrySize]
  omega

section Loop
variable {inode : Nat} {m : Inode} {fs : Fs} {dir : Dir}

/-- How a loop over the entries from `k` on ends: at the first one that it accepts, or
    at a read that came back short. -/
structure LoopEnd (n : InodeDisk) (d : Disk) (stop : Buf → Bool) (e : Buf) (heap : Heap)
    (k : Nat) (r : Bool × Buf × Nat) (j : Nat) : Prop where
  offset : r.2.2 = dirEntrySize * j
  le : k ≤ j
  before : ∀ i, k ≤ i → i < j → i < n.entryCnt ∧ stop (readEntry e n d i) = false
  found : r.1 = true → j < n.entryCnt ∧ r.2.1 = readEntry e n d j ∧ stop (readEntry e n d j) = true
  short : r.1 = false → Bounces heap → n.entryCnt ≤ j

theorem entryLoop_spec (stop : Buf → Bool) (turns k : Nat) (e : Buf) (fs : Fs)
    (hopen : fs.openInodes inode = some m) (hon : m.data.OnDisk fs.disk.capacity)
    (ht : m.data.entryCnt < turns + k) (h0 : 0 < turns) :
    wp (entryLoop inode stop turns (dirEntrySize * k) e) (fun r fs' => ∃ h j,
      fs' = { fs with heap := h } ∧ Later fs.heap h ∧
        LoopEnd m.data fs.disk stop e fs.heap k r j) fs := by
  induction turns generalizing k e fs with
  | zero => exact absurd h0 (lt_irrefl 0)
  | succ turns ih =>
    rw [entryLoop, wp_bind]
    refine wp_mono (inodeReadAt_spec hopen hon e dirEntrySize (dirEntrySize * k)) ?_
    rintro r fs' ⟨cnt, h, rfl, rfl, hm⟩
    have hsmall := hm.small (by decide)
    show wp (if cnt = dirEntrySize then _ else _) _ _
    by_cases hc : cnt = dirEntrySize
    · -- the entry was read: there is one
      have hk : k < m.data.entryCnt := by
        rw [← want_entry]
        obtain hw | ⟨hz, -⟩ := hsmall
        · exact hw.symm.trans hc
        · exact absurd (hz.symm.trans hc) (by decide)
      rw [if_pos hc, hc]
      show wp (if stop (readEntry e m.data fs.disk k) then _ else _) _ _
      by_cases hstop : stop (readEntry e m.data fs.disk k) = true
      · rw [if_pos hstop, wp_pure]
        exact ⟨h, k, rfl, hm.later, rfl, le_rfl, fun i h₁ h₂ => absurd h₁ (by omega),
          fun _ => ⟨hk, rfl, hstop⟩, fun hf => by cases hf⟩
      · rw [if_neg hstop]
        refine wp_mono (ih (k + 1) (readEntry e m.data fs.disk k) { fs with heap := h } hopen hon
          (by omega) (by omega)) ?_
        rintro r fs' ⟨h', j, rfl, hp, hend⟩
        refine ⟨h', j, rfl, hm.later.trans hp, hend.offset, by have := hend.le; omega, ?_, ?_, ?_⟩
        · intro i h₁ h₂
          by_cases hi : i = k
          · exact hi ▸ ⟨hk, Bool.eq_false_iff.mpr hstop⟩
          · simpa only [readEntry_readEntry] using hend.before i (by omega) h₂
        · simpa only [readEntry_readEntry] using hend.found
        · exact fun hf hpl => hend.short hf (hm.later.bounces hpl)
    · rw [if_neg hc, wp_pure]
      refine ⟨h, k, rfl, hm.later, rfl, le_rfl, fun i h₁ h₂ => absurd h₁ (by omega),
        fun hf => (by cases hf), fun _ hpl => ?_⟩
      obtain hw | ⟨-, hp⟩ := hsmall
      · grind [want_entry]
      · exact absurd hpl hp

theorem entryTurns_spec (hopen : fs.openInodes inode = some m) :
    wp (entryTurns inode) (fun turns fs' => fs' = fs ∧ m.data.entryCnt < turns + 0 ∧ 0 < turns)
      fs := by
  simp only [entryTurns, wp_bind, wp_get, wp_follow, wp_pure]
  refine ⟨m, hopen, trivial, ?_, by omega⟩
  simp only [InodeDisk.entryCnt, dirEntrySize]
  omega

/-- What `lookup` finds: the first entry with the name. Where an allocation fails it may
    end early and find nothing. -/
def Found (n : InodeDisk) (d : Disk) (name : Name) (heap : Heap) :
    Option (Buf × Nat) → Prop
  | some (e, ofs) => ∃ k < n.entryCnt, ofs = dirEntrySize * k ∧ e = dirEntry n d k ∧
      hasName name e = true ∧ ∀ i < k, hasName name (dirEntry n d i) = false
  | none => Bounces heap → ∀ k < n.entryCnt, hasName name (dirEntry n d k) = false

theorem lookup_spec (hopen : fs.openInodes dir.inode = some m)
    (hon : m.data.OnDisk fs.disk.capacity) (name : Name) :
    wp (lookup dir name) (fun r fs' => ∃ h, fs' = { fs with heap := h } ∧
      Later fs.heap h ∧ Found m.data fs.disk name fs.heap r) fs := by
  rw [lookup, wp_bind]
  refine wp_mono (entryTurns_spec hopen) ?_
  rintro turns fs' ⟨rfl, ht, h0⟩
  rw [wp_bind]
  refine wp_mono (entryLoop_spec _ turns 0 _ fs' hopen hon ht h0) ?_
  rintro ⟨found, e, ofs⟩ fs'' ⟨h, j, rfl, hp, hend⟩
  refine wp_pure.mpr ⟨h, rfl, hp, ?_⟩
  cases found with
  | true =>
    obtain ⟨hj, he, hstop⟩ := hend.found rfl
    exact ⟨j, hj, hend.offset, he, by rw [show e = _ from he]; exact hstop, fun i hi => (hend.before i (by omega) hi).2⟩
  | false =>
    intro hpl k hk
    exact (hend.before k (by omega) (Nat.lt_of_lt_of_le hk (hend.short rfl hpl))).2

def InodeDisk.Bound (n : InodeDisk) (d : Disk) (name : Name) : Prop :=
  ∃ k < n.entryCnt, hasName name (dirEntry n d k) = true

/-- A write of at most an entry leaves the other slots alone. -/
theorem dirEntry_patch_other (n : InodeDisk) (d : Disk) (e : Buf) {cnt : Nat}
    (hcnt : cnt ≤ dirEntrySize) (hne : i ≠ k) :
    dirEntry n (d.patch (sectorSize * n.start + dirEntrySize * k) cnt e) i = dirEntry n d i := by
  funext j
  simp only [dirEntry, readEntry, memcpy_start]
  by_cases hj : j < dirEntrySize
  · grind [InodeDisk.bytes, Disk.patch_byte, dirEntrySize]
  · rw [if_neg hj, if_neg hj]

/-- What `dir_add` does: it fills a slot, or leaves all slots as they are. A directory
    whose last entry is not whole may have part of it written. -/
structure Added (n : InodeDisk) (name : Name) (sector : Nat) (d : Disk) (heap : Heap)
    (ok : Bool) (d' : Disk) : Prop where
  capacity : d'.capacity = d.capacity
  failed : ok = false → n.length.toNat % dirEntrySize = 0 → d' = d
  same : ok = false → ∀ k < n.entryCnt, dirEntry n d' k = dirEntry n d k
  filled : ok = true → name.Valid ∧ ∃ k < n.entryCnt, ∃ e,
    d' = d.patch (sectorSize * n.start + dirEntrySize * k) dirEntrySize (fillEntry e name sector) ∧
      (Bounces heap → inUse (dirEntry n d k) = false)
  exact_ : Bounces heap → (ok = true ↔ name.Valid ∧ ¬n.Bound d name ∧
    ∃ k < n.entryCnt, inUse (dirEntry n d k) = false)

theorem Added.mono {name : Name} {sector : Nat} {d d' : Disk} {heap heap' : Heap} {ok : Bool}
    (h : Added n name sector d heap' ok d') (hp : Later heap heap') :
    Added n name sector d heap ok d' where
  capacity := h.capacity
  failed := h.failed
  same := h.same
  filled := fun hok => by grind [h.filled, hp.bounces]
  exact_ := fun hpl => h.exact_ (hp.bounces hpl)

theorem dirAdd_spec (hopen : fs.openInodes dir.inode = some m)
    (hon : m.data.OnDisk fs.disk.capacity) (hdeny : m.denyWriteCnt = 0) (junk : Buf) (name : Name)
    (sector : Nat) : wp (dirAdd junk dir name sector) (fun ok fs' => ∃ d h,
      fs' = { fs with disk := d, heap := h } ∧ Later fs.heap h ∧
        Added m.data name sector fs.disk fs.heap ok d) fs := by
  rw [dirAdd]
  by_cases hname : name.chars = [] ∨ name.chars.length > nameMax
  · rw [if_pos hname, wp_pure]
    have hno : ¬name.Valid := fun hv => hname.elim hv.1 (by have := hv.2; omega)
    exact ⟨_, _, rfl, .refl _, rfl, fun _ _ => rfl, fun _ _ _ => rfl, fun hok => (by cases hok),
      fun _ => ⟨fun hok => (by cases hok), fun hv => absurd hv.1 hno⟩⟩
  have hv : name.Valid := ⟨fun h => hname (Or.inl h), Nat.le_of_not_lt fun h => hname (Or.inr h)⟩
  rw [if_neg hname, wp_bind]
  refine wp_mono (lookup_spec hopen hon name) ?_
  rintro r fs₁ ⟨h₁, rfl, hp₁, hfound⟩
  cases r with
  | some x =>
    obtain ⟨k, hk, -, he, hn, -⟩ := hfound
    refine wp_pure.mpr ⟨_, h₁, rfl, hp₁, rfl, fun _ _ => rfl, fun _ _ _ => rfl, fun hok => (by cases hok),
      fun _ => ⟨fun hok => (by cases hok), fun hb => absurd ⟨k, hk, ?_⟩ hb.2.1⟩⟩
    rw [← he]
    exact hn
  | none =>
    simp only [Option.isSome_none, Bool.false_eq_true, if_false, wp_bind]
    refine wp_mono (entryTurns_spec (by exact hopen)) ?_
    rintro turns fs₂ ⟨rfl, ht, h0⟩
    refine wp_mono (entryLoop_spec _ turns 0 junk _ (by exact hopen) hon ht h0) ?_
    rintro ⟨found, e, ofs⟩ fs₂ ⟨h₂, j, rfl, hp₂, hend⟩
    have hofs : ofs = dirEntrySize * j := hend.offset
    subst hofs
    refine wp_mono (@inodeWriteAt_spec { fs with heap := h₂ } dir.inode m hopen hon hdeny
      (fillEntry e name sector) dirEntrySize (dirEntrySize * j)) ?_
    rintro cnt fs₃ ⟨h₃, rfl, hm⟩
    have hsmall := hm.small (by decide)
    have hfree : Bounces fs.heap → j < m.data.entryCnt → inUse (dirEntry m.data fs.disk j) = false := by
      intro hp hj
      cases found with
      | true => grind [hend.found, inUse_readEntry]
      | false => exact absurd hj (Nat.not_lt.mpr (hend.short rfl (hp₁.bounces hp)))
    have hbefore : ∀ i < j, inUse (dirEntry m.data fs.disk i) = true := by
      intro i hi
      have hstop := (hend.before i (Nat.zero_le i) hi).2
      rwa [inUse_readEntry, Bool.not_eq_false'] at hstop
    have hle : cnt ≤ dirEntrySize := by grind [InodeDisk.want]
    refine wp_pure.mpr ⟨_, h₃, rfl, (hp₁.trans hp₂).trans hm.later, rfl, fun hok hwhole => ?_,
      fun hok i hi => ?_, fun hok => ?_, fun hp => ?_⟩
    · -- a write that did not move the whole entry moved nothing
      have hne : cnt ≠ dirEntrySize := of_decide_eq_false hok
      have hz : cnt = 0 := by grind [InodeDisk.want, InodeDisk.left, dirEntrySize]
      simp only [hz, Disk.patch_zero]
    · -- it was at the end of the directory, or moved nothing
      have hne : cnt ≠ dirEntrySize := of_decide_eq_false hok
      rcases hsmall with hw | ⟨hz, -⟩
      · grind [want_entry, dirEntry_patch_other]
      · simp only [hz, Disk.patch_zero]
    · have hc : cnt = dirEntrySize := of_decide_eq_true hok
      have hj : j < m.data.entryCnt := by
        rw [← want_entry]
        obtain hw | ⟨hz, -⟩ := hsmall
        · exact hw.symm.trans hc
        · exact absurd (hz.symm.trans hc) (by decide)
      exact ⟨hv, j, hj, e, by simp only [hc], fun hp => hfree hp hj⟩
    · have habs : ¬m.data.Bound fs.disk name := by
        rintro ⟨k, hk, hb⟩
        rw [hfound hp k hk] at hb
        cases hb
      have hcnt : cnt = m.data.want dirEntrySize (dirEntrySize * j) :=
        hsmall.resolve_right fun hc => hc.2 (hp₂.bounces (hp₁.bounces hp))
      rw [decide_eq_true_iff, hcnt, want_entry]
      constructor
      · exact fun hj => ⟨hv, habs, j, hj, hfree hp hj⟩
      · grind

end Loop

/-! A write replaces one slot. -/

section Write
variable (n : InodeDisk) (d : Disk) (k : Nat) (e : Buf)

theorem dirEntry_patch_ne (hne : i ≠ k) :
    dirEntry n (d.patch (sectorSize * n.start + dirEntrySize * k) dirEntrySize e) i =
      dirEntry n d i := dirEntry_patch_other n d e le_rfl hne

theorem dirEntry_patch_self {j : Nat} (hj : j < dirEntrySize) :
    dirEntry n (d.patch (sectorSize * n.start + dirEntrySize * k) dirEntrySize e) k j = e j := by
  simp only [dirEntry, readEntry, memcpy_start, if_pos hj, InodeDisk.bytes, Disk.patch_byte]
  rw [if_pos (by omega), Nat.add_sub_cancel_left]

theorem inUse_congr {e f : Buf} (h : ∀ j < dirEntrySize, e j = f j) : inUse e = inUse f := by
  rw [inUse, inUse, h 19 (by decide)]

theorem inodeSector_congr {e f : Buf} (h : ∀ j < dirEntrySize, e j = f j) :
    inodeSector e = inodeSector f := by
  simp only [inodeSector, word, h 0 (by decide), h (0 + 1) (by decide), h (0 + 2) (by decide),
    h (0 + 3) (by decide)]

end Write

end Pintos.Filesys
