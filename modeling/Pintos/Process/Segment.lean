import Pintos.Process.Load
import Pintos.Vm.Pages

/- Segments in memory.

   `load` computes from a program header, in 32-bit arithmetic, how many bytes of the
   segment come from the file and how many are zero, and `load_segment` fills the pages
   one by one, counting both numbers down. `validate_segment` keeps the arithmetic from
   wrapping and the region within the user's pages, so the counters reach zero together
   (`loadLoop_stops`) and the pages hold the bytes the header asks for (`segment_loaded`).

   Correspondence (C ↔ Lean):
     `load_segment`, and its loop     ↔ `loadSegment`, `loadLoop`
     `read_bytes`, `zero_bytes`       ↔ numbers modulo 2^32
     the position of `file`           ↔ `pos`
   `load_segment` runs alone here, in the state of the virtual memory code. Each turn
   takes one page and gives none back unless it fails, so no turn evicts anything if
   there is a free page for each (`freePages`). -/
namespace Pintos.Vm

open Process (Segment)

/-- The loop of `load_segment`: `none` if it is not through after so many turns, and
    `some none` where a turn has no defined outcome. -/
def loadLoop (p : Tid) (ino : Nat) (writable : Bool) (ptOk : Nat → Bool) :
    (fuel : Nat) → VmState → (pos upage readBytes zeroBytes : Nat) →
    Option (Option (VmState × Bool))
  | 0, s, _, _, readBytes, zeroBytes =>
    if 0 < readBytes ∨ 0 < zeroBytes then none else some (some (s, true))
  | fuel + 1, s, pos, upage, readBytes, zeroBytes =>
    if 0 < readBytes ∨ 0 < zeroBytes then
      let pageReadBytes := if readBytes < pgsize then readBytes else pgsize
      let pageZeroBytes := pgsize - pageReadBytes
      match loadPage s p ino pos pageReadBytes upage writable (ptOk upage) with
      | none => some none
      | some (s', false) => some (some (s', false))
      | some (s', true) =>
        loadLoop p ino writable ptOk fuel s' (pos + pageReadBytes) ((upage + pgsize) % wordSize)
          ((readBytes + (wordSize - pageReadBytes)) % wordSize)
          ((zeroBytes + (wordSize - pageZeroBytes)) % wordSize)
    else some (some (s, true))

/-- What `load_segment` asserts, and `file_seek` below it. -/
def segmentAsserts (seg : Segment) : Bool :=
  (seg.readBytes + seg.zeroBytes) % wordSize % pgsize == 0 && seg.upage % pgsize == 0 &&
    seg.ofs % pgsize == 0 && decide (0 ≤ Filesys.toInt seg.ofs)

def loadSegment (fuel : Nat) (s : VmState) (p : Tid) (ino : Nat) (seg : Segment)
    (ptOk : Nat → Bool) : Option (Option (VmState × Bool)) :=
  if segmentAsserts seg then
    loadLoop p ino seg.writable ptOk fuel s seg.ofs seg.upage seg.readBytes seg.zeroBytes
  else some none

/-! One turn. -/

/-- The pages of the user pool that are free. -/
def freePages (s : VmState) : Nat :=
  ((Finset.range s.poolSize).filter fun k => s.usedMap k = false).card

theorem exists_firstFree {s : VmState} (h : 0 < freePages s) : ∃ k, FirstFree s k := by
  obtain ⟨k, hk⟩ := Finset.card_pos.mp h
  obtain ⟨hlt, hfree⟩ := Finset.mem_filter.mp hk
  obtain ⟨hfull, -⟩ | ⟨j, hj, -⟩ := pallocGet_cases s false
  · rw [hfull k (Finset.mem_range.mp hlt)] at hfree
    cases hfree
  · exact ⟨j, hj⟩

/-- The state in which the page has been loaded into the frame `k`. -/
def loadedPage (s : VmState) (p : Tid) (buf : Buf) (u k : Nat) (w : Bool) : VmState :=
  supPageEntryCreate (mapFrame (grab s p k buf) p u k w) p u (anonEntry k)

section
variable {s s' : VmState} {p : Tid} {ino pos readBytes u k : Nat} {w ptOk : Bool} {b : Buf}

theorem loadedPage_fields : (loadedPage s p b u k w).usedMap = Function.update s.usedMap k true ∧
    (loadedPage s p b u k w).mem = Function.update s.mem k b ∧
    (loadedPage s p b u k w).inodes = s.inodes := by
  rw [loadedPage, supPageEntryCreate_eq]
  exact ⟨rfl, rfl, rfl⟩

theorem loadedPage_lookup (q : Tid) (v : Nat) :
    ((loadedPage s p b u k w).pagedir q).lookup v =
      if q = p ∧ v = u then some ⟨k, true, w, false⟩ else (s.pagedir q).lookup v := by
  rw [loadedPage, supPageEntryCreate_eq]
  show (Function.update s.pagedir p ((s.pagedir p).insert u ⟨k, true, w, false⟩) q).lookup v = _
  by_cases hq : q = p
  · subst hq
    rw [Function.update_self]
    by_cases hv : v = u
    · subst hv; simp
    · simp [hv]
  · simp [hq]

theorem loadedPage_freePages (hfree : FirstFree s k) :
    freePages (loadedPage s p b u k w) + 1 = freePages s := by
  have hmem : k ∈ (Finset.range s.poolSize).filter fun k => s.usedMap k = false :=
    Finset.mem_filter.mpr ⟨Finset.mem_range.mpr hfree.1, hfree.2.1⟩
  rw [freePages, freePages, ← Finset.card_erase_add_one hmem, loadedPage, supPageEntryCreate_eq]
  congr 2
  ext j
  show j ∈ (Finset.range s.poolSize).filter (fun j => Function.update s.usedMap k true j = false) ↔ _
  rw [Finset.mem_filter, Finset.mem_erase, Finset.mem_filter]
  by_cases hj : j = k
  · subst hj; simp
  · simp [hj]

theorem loadPage_eq (hfree : FirstFree s k) : loadPage s p ino pos readBytes u w ptOk =
    if readBytes ≤ (s.inodes ino).length - pos then
      installPage (grab s p k (segmentPage (s.inodes ino) pos readBytes)) p u k w ptOk
    else (frameTableFree (grab s p k (s.mem k)) (some k)).map fun s' => (s', false) := by
  rw [loadPage, frameTableAllocator_eq (.free hfree) hfree, Option.bind_some]
  dsimp only
  rw [fill_grab]
  rfl

theorem loadPage_true (hfree : FirstFree s k)
    (h : loadPage s p ino pos readBytes u w ptOk = some (s', true)) :
    readBytes ≤ (s.inodes ino).length - pos ∧ pagedirGetPage (s.pagedir p) u = none ∧
      s' = loadedPage s p (segmentPage (s.inodes ino) pos readBytes) u k w := by
  rw [loadPage_eq hfree] at h
  split at h
  · next hle =>
    refine ⟨hle, ?_⟩
    rw [installPage] at h
    split at h
    · rw [Option.map_eq_some_iff] at h
      obtain ⟨t, -, ht⟩ := h
      cases ht
    · next hsome =>
      rw [Option.bind_eq_some_iff] at h
      obtain ⟨⟨t, ok⟩, hset, h⟩ := h
      obtain ⟨-, hnp, ⟨rfl, rfl⟩ | ⟨rfl, rfl⟩⟩ := pagedirSetPage_cases hset
      · cases h
        exact ⟨hnp, rfl⟩
      · dsimp only at h
        rw [if_neg Bool.false_ne_true, Option.map_eq_some_iff] at h
        obtain ⟨t, -, ht⟩ := h
        cases ht
  · rw [Option.map_eq_some_iff] at h
    obtain ⟨t, -, ht⟩ := h
    cases ht

theorem frameTableFree_grab (hfree : FirstFree s k) (p : Tid) (buf : Buf) :
    frameTableFree (grab s p k buf) (some k) = some (freed (grab s p k buf) k) := by
  have hany : (grab s p k buf).frameTable.any (fun f => f.kpage == k) = true :=
    List.any_eq_true.mpr ⟨⟨p, k, none⟩, List.mem_append_right _ (List.mem_singleton_self _),
      beq_self_eq_true k⟩
  rw [frameTableFree, if_pos hany, pallocFree, if_pos ⟨hfree.1, Function.update_self ..⟩]
  rfl

theorem loadPage_defined (hfree : FirstFree s k) (hu : isUserPage u = true) :
    loadPage s p ino pos readBytes u w ptOk ≠ none := by
  rw [loadPage_eq hfree]
  split
  · rw [installPage]
    split
    · rw [frameTableFree_grab hfree]
      exact Option.some_ne_none _
    · next hsome =>
      have hnp := Option.not_isSome_iff_eq_none.mp hsome
      rw [pagedirSetPage, if_pos ⟨hu, hnp⟩]
      split
      · exact Option.some_ne_none _
      · rw [Option.bind_some]
        dsimp only
        rw [if_neg Bool.false_ne_true, frameTableFree_grab hfree]
        exact Option.some_ne_none _
  · rw [frameTableFree_grab hfree]
    exact Option.some_ne_none _

end

/-! The loop. -/

section
variable {p : Tid} {ino cnt readBytes zeroBytes upage : Nat} {w : Bool} {ptOk : Nat → Bool}

def pageRead (readBytes : Nat) : Nat := min readBytes 4096

theorem pageRead_sum (h : readBytes + zeroBytes = 4096 * (cnt + 1)) :
    readBytes - pageRead readBytes + (4096 * cnt - (readBytes - pageRead readBytes)) =
      4096 * cnt := by
  rw [pageRead]
  omega

theorem loadLoop_turn {fuel : Nat} (s : VmState) (pos : Nat)
    (hsum : readBytes + zeroBytes = 4096 * (cnt + 1)) (hend : upage + 4096 * (cnt + 1) ≤ physBase) :
    loadLoop p ino w ptOk (fuel + 1) s pos upage readBytes zeroBytes =
      match loadPage s p ino pos (pageRead readBytes) upage w (ptOk upage) with
      | none => some none
      | some (s', false) => some (some (s', false))
      | some (s', true) =>
        loadLoop p ino w ptOk fuel s' (pos + pageRead readBytes) (upage + 4096)
          (readBytes - pageRead readBytes) (4096 * cnt - (readBytes - pageRead readBytes)) := by
  have hbase : physBase = 0xc0000000 := rfl
  have hword : wordSize = 0x100000000 := rfl
  have hpage : (if readBytes < pgsize then readBytes else pgsize) = pageRead readBytes := by
    rw [pageRead, show pgsize = 4096 from rfl]
    split <;> omega
  have hle : pageRead readBytes ≤ readBytes ∧ pageRead readBytes ≤ 4096 ∧
      (pageRead readBytes = readBytes ∨ pageRead readBytes = 4096) := by
    rw [pageRead]
    omega
  have hread : (readBytes + (wordSize - pageRead readBytes)) % wordSize =
      readBytes - pageRead readBytes := by
    rw [hword]
    omega
  have hzero : (zeroBytes + (wordSize - (pgsize - pageRead readBytes))) % wordSize =
      4096 * cnt - (readBytes - pageRead readBytes) := by
    rw [hword, show pgsize = 4096 from rfl]
    omega
  have hup : (upage + pgsize) % wordSize = upage + 4096 := by
    rw [hword, show pgsize = 4096 from rfl]
    omega
  rw [loadLoop, if_pos (by omega), hpage]
  dsimp only
  rw [hread, hzero, hup]

/-- **The loop stops**: it makes one turn for each page at most. -/
theorem loadLoop_stops : ∀ {fuel cnt readBytes zeroBytes upage : Nat} (s : VmState) (pos : Nat),
    cnt ≤ fuel → readBytes + zeroBytes = 4096 * cnt → upage + 4096 * cnt ≤ physBase →
    loadLoop p ino w ptOk fuel s pos upage readBytes zeroBytes ≠ none := by
  intro fuel
  induction fuel with
  | zero =>
    intro cnt readBytes zeroBytes upage s pos hcnt hsum _
    rw [loadLoop, if_neg (by omega)]
    exact Option.some_ne_none _
  | succ fuel ih =>
    intro cnt readBytes zeroBytes upage s pos hcnt hsum hend
    cases cnt with
    | zero =>
      rw [loadLoop, if_neg (by omega)]
      exact Option.some_ne_none _
    | succ cnt =>
      rw [loadLoop_turn s pos hsum hend]
      split
      · exact Option.some_ne_none _
      · exact Option.some_ne_none _
      · exact ih _ _ (Nat.le_of_succ_le_succ hcnt) (pageRead_sum hsum) (by omega)

/-- What the loop leaves when it has gone through: `cnt` new pages from `upage` on, with
    `readBytes` bytes of the file and zeros after them. Nothing else has changed in the
    page directories, and no frame that was in use. -/
structure SegmentIn (s : VmState) (p : Tid) (nd : Inode) (pos upage readBytes cnt : Nat) (w : Bool)
    (s' : VmState) : Prop where
  absent : ∀ i < cnt, pagedirGetPage (s.pagedir p) (upage + 4096 * i) = none
  bytes : ∀ o < 4096 * cnt, userLoad s' p (upage + o) =
    some (if o < readBytes then nd.data (pos + o) else 0)
  writable : ∀ i < cnt, writableAt (s'.pagedir p) (upage + 4096 * i) = some w
  others : ∀ q v, ¬ (q = p ∧ ∃ i < cnt, v = upage + 4096 * i) →
    (s'.pagedir q).lookup v = (s.pagedir q).lookup v
  frames : ∀ k, s.usedMap k = true → s'.mem k = s.mem k

theorem loadLoop_defined : ∀ {fuel cnt readBytes zeroBytes upage : Nat} {s : VmState} {pos : Nat},
    readBytes + zeroBytes = 4096 * cnt → upage % 4096 = 0 → upage + 4096 * cnt ≤ physBase →
    cnt ≤ freePages s →
    loadLoop p ino w ptOk fuel s pos upage readBytes zeroBytes ≠ some none := by
  intro fuel
  induction fuel with
  | zero =>
    intro cnt readBytes zeroBytes upage s pos _ _ _ _
    rw [loadLoop]
    split
    · exact fun h => nomatch h
    · exact fun h => nomatch h
  | succ fuel ih =>
    intro cnt readBytes zeroBytes upage s pos hsum hmod hend hroom
    cases cnt with
    | zero =>
      rw [loadLoop, if_neg (by omega)]
      exact fun h => nomatch h
    | succ cnt =>
      have hu : isUserPage upage = true := by
        rw [show physBase = 0xc0000000 from rfl] at hend
        exact isUserPage_iff.mpr ⟨hmod, by omega⟩
      obtain ⟨k, hfree⟩ := exists_firstFree (Nat.lt_of_lt_of_le (Nat.succ_pos cnt) hroom)
      rw [loadLoop_turn s pos hsum hend]
      split
      · next hnone => exact absurd hnone (loadPage_defined hfree hu)
      · exact fun h => nomatch h
      · next s₁ hturn =>
        obtain ⟨-, -, rfl⟩ := loadPage_true hfree hturn
        have hleft := loadedPage_freePages (p := p) (b := segmentPage (s.inodes ino) pos
          (pageRead readBytes)) (u := upage) (w := w) hfree
        exact ih (pageRead_sum hsum) (by omega) (by omega) (by omega)

theorem SegmentIn.turn {s s' : VmState} {k pos : Nat} (hfree : FirstFree s k)
    (hu : isUserPage upage = true) (hnp : pagedirGetPage (s.pagedir p) upage = none)
    (h : SegmentIn (loadedPage s p (segmentPage (s.inodes ino) pos (pageRead readBytes)) upage k w) p
      (s.inodes ino) (pos + pageRead readBytes) (upage + 4096) (readBytes - pageRead readBytes) cnt
      w s') : SegmentIn s p (s.inodes ino) pos upage readBytes (cnt + 1) w s' := by
  have hlook := loadedPage_lookup (s := s) (p := p) (u := upage) (k := k) (w := w)
    (b := segmentPage (s.inodes ino) pos (pageRead readBytes))
  have hfirst : (s'.pagedir p).lookup upage = some ⟨k, true, w, false⟩ := by
    rw [h.others p upage (by rintro ⟨-, i, -, hi⟩; omega), hlook, if_pos ⟨rfl, rfl⟩]
  obtain ⟨hused, hmem, -⟩ := loadedPage_fields (s := s) (p := p) (u := upage) (k := k) (w := w)
    (b := segmentPage (s.inodes ino) pos (pageRead readBytes))
  have hnext : ∀ i, upage + 4096 * (i + 1) = upage + 4096 + 4096 * i := by omega
  refine ⟨fun i hi => ?_, fun o ho => ?_, fun i hi => ?_, fun q v hv => ?_, fun j hj => ?_⟩
  · cases i with
    | zero => exact hnp
    | succ i =>
      have habsent := h.absent i (Nat.lt_of_succ_lt_succ hi)
      rw [← hnext i, pagedirGetPage, hlook, if_neg (by rintro ⟨-, hv⟩; omega)] at habsent
      exact habsent
  · by_cases hlt : o < 4096
    · -- the page of this turn: its frame has not changed since
      obtain ⟨hround, hofs⟩ := page_ofs hu hlt
      have hframe : s'.mem k = segmentPage (s.inodes ino) pos (pageRead readBytes) := by
        rw [h.frames k (by rw [hused, Function.update_self]), hmem, Function.update_self]
      rw [userLoad, hround, hofs, getPage_eq_some.mpr ⟨_, hfirst, rfl, rfl⟩, Option.map_some, hframe,
        segmentPage]
      have hiff : o < pageRead readBytes ↔ o < readBytes := by
        rw [pageRead]
        omega
      simp only [hiff]
    · have hrest := h.bytes (o - 4096) (by omega)
      rw [show upage + 4096 + (o - 4096) = upage + o by omega] at hrest
      rw [hrest]
      by_cases hread : o < readBytes
      · have hfull : pageRead readBytes = 4096 := by
          rw [pageRead]
          omega
        rw [if_pos hread, if_pos (by omega), hfull, show pos + 4096 + (o - 4096) = pos + o by omega]
      · rw [if_neg hread, if_neg (by rw [pageRead]; omega)]
  · cases i with
    | zero => exact writableAt_eq_some.mpr ⟨_, hfirst, rfl, rfl⟩
    | succ i =>
      rw [hnext i]
      exact h.writable i (Nat.lt_of_succ_lt_succ hi)
  · rw [h.others q v, hlook, if_neg]
    · rintro ⟨hq, rfl⟩
      exact hv ⟨hq, 0, Nat.succ_pos cnt, rfl⟩
    · rintro ⟨hq, i, hi, rfl⟩
      exact hv ⟨hq, i + 1, Nat.succ_lt_succ hi, (hnext i).symm⟩
  · have hjk : j ≠ k := by
      rintro rfl
      rw [hfree.2.1] at hj
      cases hj
    rw [h.frames j (by rw [hused, Function.update_of_ne hjk]; exact hj), hmem,
      Function.update_of_ne hjk]

/-- **What a loop that goes through has loaded**, if there is a free page for each turn. -/
theorem loadLoop_true : ∀ {fuel cnt readBytes zeroBytes upage : Nat} {s s' : VmState} {pos : Nat},
    readBytes + zeroBytes = 4096 * cnt → upage % 4096 = 0 → upage + 4096 * cnt ≤ physBase →
    cnt ≤ freePages s →
    loadLoop p ino w ptOk fuel s pos upage readBytes zeroBytes = some (some (s', true)) →
    SegmentIn s p (s.inodes ino) pos upage readBytes cnt w s' := by
  intro fuel
  have hdone : ∀ {s : VmState} {pos upage readBytes : Nat},
      SegmentIn s p (s.inodes ino) pos upage readBytes 0 w s := by
    intro s pos upage readBytes
    exact ⟨fun i hi => absurd hi (Nat.not_lt_zero i), fun o ho => absurd ho (Nat.not_lt_zero o),
      fun i hi => absurd hi (Nat.not_lt_zero i), fun _ _ _ => rfl, fun _ _ => rfl⟩
  induction fuel with
  | zero =>
    intro cnt readBytes zeroBytes upage s s' pos hsum _ _ _ h
    rw [loadLoop] at h
    split at h
    · cases h
    · cases h
      obtain rfl : cnt = 0 := by omega
      exact hdone
  | succ fuel ih =>
    intro cnt readBytes zeroBytes upage s s' pos hsum hmod hend hroom h
    cases cnt with
    | zero =>
      rw [loadLoop, if_neg (by omega)] at h
      cases h
      exact hdone
    | succ cnt =>
      have hu : isUserPage upage = true := by
        rw [show physBase = 0xc0000000 from rfl] at hend
        exact isUserPage_iff.mpr ⟨hmod, by omega⟩
      obtain ⟨k, hfree⟩ := exists_firstFree (Nat.lt_of_lt_of_le (Nat.succ_pos cnt) hroom)
      rw [loadLoop_turn s pos hsum hend] at h
      split at h
      · cases h
      · cases h
      · next s₁ hturn =>
        obtain ⟨-, hnp, rfl⟩ := loadPage_true hfree hturn
        have hleft := loadedPage_freePages (p := p) (b := segmentPage (s.inodes ino) pos
          (pageRead readBytes)) (u := upage) (w := w) hfree
        have hrest := ih (pageRead_sum hsum) (by omega) (by omega) (by omega) h
        rw [loadedPage_fields.2.2] at hrest
        exact hrest.turn hfree hu hnp

end

end Pintos.Vm

namespace Pintos.Process

open Vm
open Filesys (word_lt ofInt)

variable {ph : Phdr} {n : Nat}

/-! Program headers. -/

/-- The fields of a program header are 32 bits wide. -/
def Phdr.Words (ph : Phdr) : Prop :=
  ph.offset < wordSize ∧ ph.vaddr < wordSize ∧ ph.filesz < wordSize ∧ ph.memsz < wordSize

theorem Phdr.decode_words (b : Buf) : (Phdr.decode b).Words :=
  ⟨word_lt b 4, word_lt b 8, word_lt b 16, word_lt b 20⟩

/-- How many pages the region of the header meets. -/
def Phdr.pageCnt (ph : Phdr) : Nat := (ph.vaddr % 4096 + ph.memsz + 4095) / 4096

/-- The page has an address of the region. -/
def Phdr.Meets (ph : Phdr) (u : Nat) : Prop :=
  ∃ a, ph.vaddr ≤ a ∧ a < ph.vaddr + ph.memsz ∧ pgRoundDown a = u

/-- What `validate_segment` has checked, without the wrap-around. -/
structure Phdr.Valid (ph : Phdr) (n : Nat) : Prop where
  sameOfs : ph.offset % 4096 = ph.vaddr % 4096
  inFile : ph.offset ≤ n
  sizes : ph.filesz ≤ ph.memsz ∧ 0 < ph.memsz
  user : 4096 ≤ ph.vaddr ∧ ph.vaddr + ph.memsz < 0xc0000000

theorem Phdr.Words.valid (hph : ph.Words) (hn : n < 2147483648) (h : validateSegment ph n = true) :
    ph.Valid n := by
  obtain ⟨-, hvaddr, -, hmemsz⟩ := hph
  simp only [validateSegment, Bool.and_eq_true, decide_eq_true_eq, isUserVaddr] at h
  obtain ⟨⟨⟨⟨⟨⟨⟨hofs, hin⟩, hsize⟩, hpos⟩, hlo⟩, hhi⟩, hwrap⟩, hnull⟩ := h
  rw [show wordSize = 0x100000000 from rfl] at *
  rw [show physBase = 0xc0000000 from rfl] at *
  rw [show pgsize = 4096 from rfl] at *
  have hfile : ofInt (n : Int) = n := by
    rw [ofInt, show ((wordSize : Nat) : Int) = 4294967296 from rfl]
    omega
  exact ⟨hofs, by omega, ⟨hsize, by omega⟩, hnull, by omega⟩

theorem Phdr.Valid.segment_eq (h : ph.Valid n) :
    ph.segment.readBytes = (if 0 < ph.filesz then ph.vaddr % 4096 + ph.filesz else 0) ∧
      ph.segment.readBytes + ph.segment.zeroBytes = 4096 * ph.pageCnt ∧
      ph.vaddr % 4096 + ph.memsz + 4095 < wordSize ∧
      ph.segment.upage + 4096 * ph.pageCnt ≤ physBase := by
  obtain ⟨hsize, hpos⟩ := h.sizes
  obtain ⟨hnull, hend⟩ := h.user
  rw [show wordSize = 0x100000000 from rfl, show physBase = 0xc0000000 from rfl]
  have hread : ph.segment.readBytes =
      if 0 < ph.filesz then ph.vaddr % 4096 + ph.filesz else 0 := by
    rw [Phdr.segment, show wordSize = 0x100000000 from rfl, show pgsize = 4096 from rfl]
    dsimp only
    split
    · omega
    · rfl
  have hup : pgRoundUp ((ph.vaddr % pgsize + ph.memsz) % wordSize) = 4096 * ph.pageCnt := by
    rw [pgRoundUp, Phdr.pageCnt, show wordSize = 0x100000000 from rfl,
      show pgsize = 4096 from rfl]
    omega
  have hcnt : ph.pageCnt = (ph.vaddr % 4096 + ph.memsz + 4095) / 4096 := rfl
  have hle : ph.segment.readBytes ≤ 4096 * ph.pageCnt := by
    rw [hread, hcnt]
    split <;> omega
  have hzero : ph.segment.zeroBytes = 4096 * ph.pageCnt - ph.segment.readBytes := by
    have hdef : ph.segment.zeroBytes = (4096 * ph.pageCnt + wordSize - ph.segment.readBytes) %
        wordSize := by rw [← hup]; rfl
    rw [hdef, hcnt, show wordSize = 0x100000000 from rfl] at *
    omega
  have hbase : ph.segment.upage = ph.vaddr - ph.vaddr % 4096 := rfl
  refine ⟨hread, ?_, by omega, ?_⟩
  · rw [hzero]
    omega
  · rw [hbase, hcnt]
    omega

theorem Phdr.Valid.asserts (h : ph.Valid n) (hn : n < 2147483648) :
    segmentAsserts ph.segment = true := by
  obtain ⟨-, hsum, hlt, -⟩ := h.segment_eq
  have hin := h.inFile
  have hcnt : ph.pageCnt = (ph.vaddr % 4096 + ph.memsz + 4095) / 4096 := rfl
  have hofs : ph.segment.ofs = ph.offset - ph.offset % 4096 := rfl
  have hbase : ph.segment.upage = ph.vaddr - ph.vaddr % 4096 := rfl
  simp only [segmentAsserts, Bool.and_eq_true, beq_iff_eq, decide_eq_true_eq]
  rw [hsum, hofs, hbase, Filesys.toInt]
  rw [show wordSize = 0x100000000 from rfl] at hlt ⊢
  rw [show pgsize = 4096 from rfl, if_pos (by omega)]
  refine ⟨⟨⟨?_, ?_⟩, ?_⟩, ?_⟩ <;> omega

/-! What is loaded. -/

/-- Memory as the header asks for it: the bytes of the file and zeros after them, in
    pages that were not there before, with the permission of the segment. -/
structure SegmentLoaded (s : VmState) (p : Tid) (nd : Inode) (ph : Phdr) (s' : VmState) :
    Prop where
  bytes : ∀ k < ph.memsz, userLoad s' p (ph.vaddr + k) =
    some (if k < ph.filesz then nd.data (ph.offset + k) else 0)
  pages : ∀ u, (pagedirGetPage (s.pagedir p) u = none ∧ pagedirGetPage (s'.pagedir p) u ≠ none) ↔
    ph.Meets u
  user : ∀ u, ph.Meets u → 4096 ≤ u ∧ u < physBase
  writable : ∀ u, ph.Meets u → writableAt (s'.pagedir p) u = some (ph.flags.testBit 1)
  others : ∀ q u, ¬ (q = p ∧ ph.Meets u) → (s'.pagedir q).lookup u = (s.pagedir q).lookup u

theorem Phdr.Valid.meets_iff (h : ph.Valid n) (u : Nat) :
    ph.Meets u ↔ ∃ i < ph.pageCnt, u = ph.segment.upage + 4096 * i := by
  obtain ⟨-, hpos⟩ := h.sizes
  have hbase : ph.segment.upage = ph.vaddr - ph.vaddr % 4096 := rfl
  have hcnt : ph.pageCnt = (ph.vaddr % 4096 + ph.memsz + 4095) / 4096 := rfl
  rw [hbase, hcnt]
  constructor
  · rintro ⟨a, hlo, hhi, rfl⟩
    refine ⟨(a - (ph.vaddr - ph.vaddr % 4096)) / 4096, by omega, ?_⟩
    rw [pgRoundDown, show pgsize = 4096 from rfl]
    omega
  · rintro ⟨i, hi, rfl⟩
    -- the first page has the start of the region, the others begin inside it
    refine ⟨max ph.vaddr (ph.vaddr - ph.vaddr % 4096 + 4096 * i), by omega, by omega, ?_⟩
    rw [pgRoundDown, show pgsize = 4096 from rfl]
    omega

theorem Phdr.Valid.loaded {s s' : VmState} {p : Tid} {nd : Inode} (hv : ph.Valid n)
    (h : SegmentIn s p nd ph.segment.ofs ph.segment.upage ph.segment.readBytes
      ph.pageCnt ph.segment.writable s') : SegmentLoaded s p nd ph s' := by
  obtain ⟨hread, -, -, hend⟩ := hv.segment_eq
  have hsame := hv.sameOfs
  have hofs : ph.segment.ofs = ph.offset - ph.offset % 4096 := rfl
  have hbase : ph.segment.upage = ph.vaddr - ph.vaddr % 4096 := rfl
  have hcnt : ph.pageCnt = (ph.vaddr % 4096 + ph.memsz + 4095) / 4096 := rfl
  have hperm : ph.segment.writable = ph.flags.testBit 1 := by
    rw [Nat.testBit_eq_decide_div_mod_eq]
    rfl
  have hothers : ∀ q u, ¬ (q = p ∧ ph.Meets u) →
      (s'.pagedir q).lookup u = (s.pagedir q).lookup u := by
    intro q u hno
    refine h.others q u fun hin => hno ⟨hin.1, (hv.meets_iff u).mpr hin.2⟩
  refine ⟨fun k hk => ?_, fun u => ⟨fun hnew => ?_, fun hmeets => ?_⟩, fun u hmeets => ?_,
    fun u hmeets => ?_, hothers⟩
  · have hbyte := h.bytes (ph.vaddr % 4096 + k) (by omega)
    rw [show ph.segment.upage + (ph.vaddr % 4096 + k) = ph.vaddr + k by omega] at hbyte
    rw [hbyte, hread, hofs]
    by_cases hfile : k < ph.filesz
    · rw [if_pos hfile, if_pos (by rw [if_pos (by omega)]; omega),
        show ph.offset - ph.offset % 4096 + (ph.vaddr % 4096 + k) = ph.offset + k by omega]
    · rw [if_neg hfile, if_neg (by split <;> omega)]
  · by_contra hno
    obtain ⟨hnone, hsome⟩ := hnew
    rw [pagedirGetPage, hothers p u fun hin => hno hin.2] at hsome
    exact hsome hnone
  · obtain ⟨i, hi, rfl⟩ := (hv.meets_iff u).mp hmeets
    refine ⟨h.absent i hi, fun hnone => ?_⟩
    obtain ⟨e, he, hpres, -⟩ := writableAt_eq_some.mp (h.writable i hi)
    rw [getPage_eq_some.mpr ⟨e, he, hpres, rfl⟩] at hnone
    cases hnone
  · obtain ⟨i, hi, rfl⟩ := (hv.meets_iff u).mp hmeets
    have hnull := hv.user.1
    omega
  · obtain ⟨i, hi, rfl⟩ := (hv.meets_iff u).mp hmeets
    rw [h.writable i hi, hperm]

/-- **Segments are loaded exactly.** For every state, every file and every header that
    `validate_segment` accepts: the sums that `load` computes do not wrap and the
    assertions of `load_segment` hold; its loop stops after one turn for each page of the
    region; and if there is a free page for each turn, so that nothing is evicted, then
    `load_segment` returns, and if it returns true memory is as the header asks. -/
theorem segment_loaded (b : Buf) (s : VmState) (p : Tid) (ino : Nat) (ptOk : Nat → Bool)
    (hlen : (s.inodes ino).length < 2147483648)
    (hvalid : validateSegment (Phdr.decode b) (s.inodes ino).length = true) :
    let ph := Phdr.decode b
    let seg := ph.segment
    (ph.vaddr % 4096 + ph.memsz + 4095 < wordSize ∧
      seg.readBytes = (if 0 < ph.filesz then ph.vaddr % 4096 + ph.filesz else 0) ∧
      seg.readBytes + seg.zeroBytes = 4096 * ph.pageCnt) ∧
    segmentAsserts seg = true ∧
    (∀ fuel ≥ ph.pageCnt, Vm.loadSegment fuel s p ino seg ptOk ≠ none) ∧
    (ph.pageCnt ≤ freePages s →
      (∀ fuel ≥ ph.pageCnt, ∃ s' ok, Vm.loadSegment fuel s p ino seg ptOk = some (some (s', ok))) ∧
      ∀ fuel s', Vm.loadSegment fuel s p ino seg ptOk = some (some (s', true)) →
        SegmentLoaded s p (s.inodes ino) ph s') := by
  intro ph seg
  have hv : ph.Valid (s.inodes ino).length := (Phdr.decode_words b).valid hlen hvalid
  have hasserts : segmentAsserts seg = true := hv.asserts hlen
  obtain ⟨hread, hsum, hlt, hend⟩ := hv.segment_eq
  have hmod : seg.upage % 4096 = 0 := by
    have hbase : seg.upage = ph.vaddr - ph.vaddr % 4096 := rfl
    omega
  have hloop : ∀ fuel, Vm.loadSegment fuel s p ino seg ptOk =
      loadLoop p ino seg.writable ptOk fuel s seg.ofs seg.upage seg.readBytes seg.zeroBytes :=
    fun fuel => if_pos hasserts
  have hstops : ∀ fuel ≥ ph.pageCnt, Vm.loadSegment fuel s p ino seg ptOk ≠ none := by
    intro fuel hfuel
    rw [hloop]
    exact loadLoop_stops s seg.ofs hfuel hsum hend
  refine ⟨⟨hlt, hread, hsum⟩, hasserts, hstops, fun hroom => ⟨fun fuel hfuel => ?_, ?_⟩⟩
  · have hdefined : Vm.loadSegment fuel s p ino seg ptOk ≠ some none := by
      rw [hloop]
      exact loadLoop_defined hsum hmod hend hroom
    obtain ⟨r, hr⟩ := Option.ne_none_iff_exists'.mp (hstops fuel hfuel)
    cases r with
    | none => exact absurd hr hdefined
    | some r => exact ⟨r.1, r.2, hr⟩
  · intro fuel s' h
    rw [hloop] at h
    exact hv.loaded (loadLoop_true hsum hmod hend hroom h)

/-- A header of a segment of 5000 bytes at 0x8048010, four of them from offset 16 of the
    file. -/
def sampleHeader : Buf := fun i =>
  [1, 0, 0, 0, 16, 0, 0, 0, 0x10, 0x80, 0x04, 0x08, 0, 0, 0, 0, 4, 0, 0, 0, 0x88, 0x13, 0, 0,
    6, 0, 0, 0, 0, 0x10, 0, 0].getD i 0

/-- Four pages, and files of a hundred bytes. -/
def sampleMachine : VmState :=
  boot 4 (fun _ _ => 0xcc) (fun _ => ⟨100, fun i => UInt8.ofNat i, 0⟩) ⟨8, fun _ _ => 0⟩

theorem segment_loaded_sample : ∃ s', Vm.loadSegment 2 sampleMachine 1 5
      (Phdr.decode sampleHeader).segment (fun _ => true) = some (some (s', true)) ∧
    userLoad s' 1 0x8048013 = some 19 ∧ userLoad s' 1 0x8048014 = some 0 ∧
    writableAt (s'.pagedir 1) 0x8049000 = some true := by
  have hlen : (sampleMachine.inodes 5).length < 2147483648 := by decide
  have hvalid : validateSegment (Phdr.decode sampleHeader) (sampleMachine.inodes 5).length = true := by
    decide
  have htrue : ((Vm.loadSegment 2 sampleMachine 1 5 (Phdr.decode sampleHeader).segment
      (fun _ => true)).any fun r => r.any Prod.snd) = true := by decide +kernel
  obtain ⟨r, hr, hany⟩ := (Option.any_eq_true _ _).mp htrue
  obtain ⟨⟨s', ok⟩, rfl, rfl⟩ := (Option.any_eq_true _ _).mp hany
  obtain ⟨-, -, -, hrest⟩ := segment_loaded sampleHeader sampleMachine 1 5 (fun _ => true) hlen hvalid
  have hloaded := (hrest (by decide)).2 2 s' hr
  refine ⟨s', hr, hloaded.bytes 3 (by decide), hloaded.bytes 4 (by decide), ?_⟩
  exact hloaded.writable 0x8049000 ⟨0x8049000, by decide, by decide, by decide⟩

end Pintos.Process
