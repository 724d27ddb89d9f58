import Pintos.Vm.State
import Pintos.Lib.Run

/- The virtual memory code, one operation at a time.

   Every function below takes the state to the state after it has run to
   completion, or to `none` where the kernel has no defined outcome: a failed
   `ASSERT`, a null or never written pointer that is followed, or memory of a
   thread that has exited. `step` puts them together: what one process can make
   the machine do between two points at which no kernel code is running. After a
   bad pointer the kernel ends the process and the others go on; a run of `step` is
   one in which that does not happen. The machine of `Vm.Interleave` goes on after
   it, and that of `Syscall.Os` from any state.

   Correspondence (C ↔ Lean):
     `palloc_get_multiple`, `palloc_free_page`       ↔ `pallocGet`, `pallocFree`
     `frame_entry_set_pte`, `frame_table_free`       ↔ `frameEntrySetPte`, `frameTableFree`
     `swap_out`, `swap_in`                           ↔ `swapOut`, `swapIn`
     `frame_table_allocator`                         ↔ `frameTableAllocator`
     `pagedir_set_page`, `pagedir_destroy`           ↔ `pagedirSetPage`, `pagedirDestroy`
     `sup_page_entry_create`, `sup_page_entry_delete`↔ `supPageEntryCreate`, `supPageEntryDelete`
     one turn of the loop in `load_segment`          ↔ `loadPage`
     `setup_stack_arg`, before `push_argument`       ↔ `setupStack`
     `page_fault`                                    ↔ `pageFault`
     `handle_mmap`, `handle_munmap`, `process_exit`  ↔ `handleMmap`, `handleMunmap`, `processExit`
   The kernel pool is not modelled, except that `lookup_page` may fail to get a
   page for a new page table (`ptOk`). The swap disk is there: `swap_init` asserts
   it at boot. -/
namespace Pintos.Vm

open Function

/-! The page allocator on the user pool. -/

/-- `palloc_get_multiple (flags, 1)`: the lowest free page, zeroed under `PAL_ZERO`. -/
def pallocGet (s : VmState) (zero : Bool) : Option (VmState × Nat) :=
  ((List.range s.poolSize).find? fun k => !s.usedMap k).map fun k =>
    ({ s with
        usedMap := update s.usedMap k true
        mem := if zero then update s.mem k (fun _ => 0) else s.mem }, k)

/-- `palloc_free_page`: the page is filled with `0xcc`; it must be in use. -/
def pallocFree (s : VmState) (k : Nat) : Option VmState :=
  if k < s.poolSize ∧ s.usedMap k = true then
    some { s with
      usedMap := update s.usedMap k false
      mem := update s.mem k (fun _ => 0xcc) }
  else none

/-! The frame table. -/

/-- The first entry of the list with this `kpage` gets its `upage`. -/
def setUpage (upage kpage : Nat) : List FrameEntry → List FrameEntry
  | [] => []
  | f :: rest =>
    if f.kpage = kpage then { f with upage := some upage } :: rest
    else f :: setUpage upage kpage rest

def frameEntrySetPte (s : VmState) (upage kpage : Nat) : VmState :=
  { s with frameTable := setUpage upage kpage s.frameTable }

/-- The list without its first entry with this `kpage`. -/
def dropKpage (kpage : Nat) : List FrameEntry → List FrameEntry
  | [] => []
  | f :: rest => if f.kpage = kpage then rest else f :: dropKpage kpage rest

/-- `frame_table_free`: no entry has a null `kpage`, so a null page frees nothing. -/
def frameTableFree (s : VmState) (page : Option Nat) : Option VmState :=
  match page with
  | none => some s
  | some k =>
    if s.frameTable.any (fun f => f.kpage == k) then
      pallocFree { s with frameTable := dropKpage k s.frameTable } k
    else some s

/-! Page directories and supplemental page tables. -/

/-- `pagedir_clear_page`, with its assertion. -/
def pagedirClearPage (s : VmState) (p : Tid) (upage : Nat) : Option VmState :=
  if isUserPage upage then
    some { s with pagedir := update s.pagedir p (clearPresent (s.pagedir p) upage) }
  else none

/-- Whether the page directory already has a page table for the address. -/
def hasPageTable (pd : Pagedir) (upage : Nat) : Bool :=
  pd.keys.any fun v => v / (1024 * pgsize) == upage / (1024 * pgsize)

/-- `pagedir_set_page`. It asserts that the page is a user page and not present;
    it returns false, changing nothing, if a page table is needed and `ptOk` says
    there is no memory for it. -/
def pagedirSetPage (s : VmState) (p : Tid) (upage kpage : Nat) (writable ptOk : Bool) :
    Option (VmState × Bool) :=
  if isUserPage upage = true ∧ pagedirGetPage (s.pagedir p) upage = none then
    if hasPageTable (s.pagedir p) upage || ptOk then
      let pd := (s.pagedir p).insert upage ⟨kpage, true, writable, false⟩
      some (frameEntrySetPte { s with pagedir := update s.pagedir p pd } upage kpage, true)
    else some (s, false)
  else none

/-- A supplemental page table entry is written. -/
def setSup (s : VmState) (p : Tid) (upage : Nat) (e : SupPageEntry) : VmState :=
  { s with supPageTable := update s.supPageTable p ((s.supPageTable p).insert upage e) }

/-- `hash_insert` keeps an entry that is already there. -/
def supPageEntryCreate (s : VmState) (p : Tid) (upage : Nat) (e : SupPageEntry) : VmState :=
  if ((s.supPageTable p).lookup upage).isSome then s else setSup s p upage e

/-- `sup_page_entry_delete`. Entries of mapped files have no swap slot to free. -/
def supPageEntryDelete (s : VmState) (p : Tid) (upage : Nat) : Option VmState :=
  pagedirClearPage
    { s with supPageTable := update s.supPageTable p ((s.supPageTable p).erase upage) }
    p upage

/-- The entry of an anonymous page: no file, no slot. -/
def anonEntry (kpage : Nat) : SupPageEntry := ⟨some kpage, none, none, 0⟩

/-! Swapping. -/

def freeSlot (s : VmState) : Option Nat := s.swapTable.findIdx? fun se => !se.isUsed

/-- The copy made by `swap_out` when it found the slot `i`. -/
def copyOut (s : VmState) (f : FrameEntry) (upage : Nat) (sup : SupPageEntry) (i : Nat) :
    Option VmState :=
  (s.swapTable[i]?).bind fun se =>
    (writeSectors s.swapDisk se.firstSecNo (s.mem f.kpage) 8).map fun d =>
      setSup { s with swapDisk := d, swapTable := s.swapTable.set i { se with isUsed := true } }
        f.usingThread upage { sup with swapAddress := some i }

/-- `pagedir_clear_page` and `palloc_free_page` on a victim. -/
def dropFrame (s : VmState) (f : FrameEntry) (upage : Nat) : Option VmState :=
  (pagedirClearPage s f.usingThread upage).bind fun s' => pallocFree s' f.kpage

/-- `swap_out`: when the search loop finds no free slot it falls through, and the
    page is cleared and freed all the same. -/
def swapOut (s : VmState) (f : FrameEntry) (upage : Nat) (sup : SupPageEntry) : Option VmState :=
  match freeSlot s with
  | some i => (copyOut s f upage sup i).bind fun s' => dropFrame s' f upage
  | none => dropFrame s f upage

def fileWriteAt (s : VmState) (file : Nat) (buf : Buf) (size offset : Nat) : VmState :=
  let ino := (s.files file).inode
  { s with
    inodes := update s.inodes ino
      (inodeWriteAt (s.writeBounce file) (s.inodes ino) buf size offset) }

/-- A victim of a mapped file is written back only if it is dirty. -/
def saveDirty (s : VmState) (f : FrameEntry) (upage file pos : Nat) : VmState :=
  if pagedirIsDirty (s.pagedir f.usingThread) upage then
    fileWriteAt s file (s.mem f.kpage) pgsize pos
  else s

/-- The victim is looked up in its owner's table; every pointer followed on the
    way must be good. -/
def victimPage (s : VmState) (f : FrameEntry) : Option (Nat × SupPageEntry) :=
  if s.exited f.usingThread then none
  else f.upage.bind fun u => ((s.supPageTable f.usingThread).lookup u).map fun sup => (u, sup)

/-- The eviction in `frame_table_allocator`: the front of the list goes. -/
def evictFront (s : VmState) : Option VmState :=
  match s.frameTable with
  | [] => none
  | f :: rest =>
    (victimPage s f).bind fun (u, sup) =>
      match sup.fileAddress with
      | none => swapOut { s with frameTable := rest } f u sup
      | some file => dropFrame (saveDirty { s with frameTable := rest } f u file sup.filePos) f u

/-- The new entry goes to the back of the list, its `upage` not yet written. -/
def pushFrame (s : VmState) (p : Tid) (k : Nat) : VmState :=
  { s with frameTable := s.frameTable ++ [⟨p, k, none⟩] }

def frameTableAllocator (s : VmState) (p : Tid) (zero : Bool) : Option (VmState × Nat) :=
  match pallocGet s zero with
  | some (s₁, k) => some (pushFrame s₁ p k, k)
  | none =>
    (evictFront s).bind fun s₀ => (pallocGet s₀ zero).map fun (s₁, k) => (pushFrame s₁ p k, k)

/-- The frame is filled from outside the pool. -/
def fill (s : VmState) (k : Nat) (buf : Buf) : VmState :=
  { s with mem := update s.mem k buf }

/-- `swap_in`. The slot is given back, but the entry keeps pointing at it. The page
    was installed before it was swapped out, so its page table is there. -/
def swapIn (s : VmState) (p : Tid) (upage : Nat) (writable : Bool) : Option VmState :=
  (frameTableAllocator s p false).bind fun (s₁, k) =>
    ((s₁.supPageTable p).lookup upage).bind fun sup =>
      sup.swapAddress.bind fun i =>
        (s₁.swapTable[i]?).bind fun se =>
          (readSectors s₁.swapDisk se.firstSecNo (s₁.mem k) 8).bind fun page =>
            (pagedirSetPage
              (fill { s₁ with swapTable := s₁.swapTable.set i { se with isUsed := false } } k page)
              p upage k writable true).map Prod.fst

/-- The file branch of `page_fault`: the frame is installed, noted in the entry
    and filled from the file. -/
def fileIn (s : VmState) (p : Tid) (upage : Nat) (file : Nat) (writable ptOk : Bool) :
    Option VmState :=
  (frameTableAllocator s p true).bind fun (s₁, k) =>
    (pagedirSetPage s₁ p upage k writable ptOk).bind fun (s₂, _) =>
      ((s₂.supPageTable p).lookup upage).map fun sup =>
        fill (setSup s₂ p upage { sup with kpage := some k }) k
          (inodeReadAt (s₂.readBounce file) (s₂.inodes (s₂.files file).inode) (s₂.mem k) pgsize
            sup.filePos)

/-! Loading. The Boolean is the result: on failure the frame is given back. -/

/-- `install_page`, then the new page's supplemental entry. -/
def installPage (s : VmState) (p : Tid) (upage k : Nat) (writable ptOk : Bool) :
    Option (VmState × Bool) :=
  if (pagedirGetPage (s.pagedir p) upage).isSome then
    (frameTableFree s (some k)).map fun s' => (s', false)
  else
    (pagedirSetPage s p upage k writable ptOk).bind fun (s₁, ok) =>
      if ok then some (supPageEntryCreate s₁ p upage (anonEntry k), true)
      else (frameTableFree s₁ (some k)).map fun s' => (s', false)

/-- What `load_segment` puts into a frame: `readBytes` bytes of the file at
    `offset`, then zeros. -/
def segmentPage (nd : Inode) (offset readBytes : Nat) : Buf := fun i =>
  if i < readBytes then nd.data (offset + i) else 0

/-- One turn of the loop in `load_segment`. A short read gives the frame back; so does one
    without a bounce buffer, which is the case of a `readBytes` past the end. -/
def loadPage (s : VmState) (p : Tid) (ino offset readBytes upage : Nat) (writable ptOk : Bool) :
    Option (VmState × Bool) :=
  (frameTableAllocator s p false).bind fun (s₁, k) =>
    if readBytes ≤ (s₁.inodes ino).length - offset then
      installPage (fill s₁ k (segmentPage (s₁.inodes ino) offset readBytes)) p upage k writable ptOk
    else (frameTableFree s₁ (some k)).map fun s' => (s', false)

def setupStack (s : VmState) (p : Tid) (ptOk : Bool) : Option (VmState × Bool) :=
  (frameTableAllocator s p true).bind fun (s₁, k) =>
    installPage s₁ p (physBase - pgsize) k true ptOk

/-! Mapping and unmapping files. -/

/-- The pages of a mapping at `addr`; pointers are 32 bits wide. -/
def mapPage (addr i : Nat) : Nat := (addr + pgsize * i) % wordSize

/-- How many pages a file of this length takes: the full ones, and the remainder. -/
def mapPages (filesize : Nat) : Nat :=
  filesize / pgsize + if filesize - pgsize * (filesize / pgsize) > 0 then 1 else 0

/-- The pages `handle_mmap` makes for a file of this length. -/
def madePages (addr filesize : Nat) : List Nat := (List.range (mapPages filesize)).map (mapPage addr)

/-- `handle_mmap` once the descriptor has been resolved to the inode `ino`;
    `none` in the second place is the result -1. `file_reopen` makes the new
    `struct file` before the pages are checked. -/
def handleMmap (s : VmState) (p : Tid) (ino addr : Nat) : VmState × Option Int :=
  if addr = 0 ∨ pgRoundDown addr ≠ addr then (s, none)
  else
    let target := s.nextFile
    let s₁ := { s with files := update s.files target ⟨ino, 0⟩, nextFile := target + 1 }
    let pages := List.range (mapPages (s.inodes ino).length)
    if pages.any fun i => ((s₁.supPageTable p).lookup (mapPage addr i)).isSome then (s₁, none)
    else
      let s₂ := pages.foldl (fun t i =>
        supPageEntryCreate t p (mapPage addr i) ⟨none, none, some target, pgsize * i⟩) s₁
      let newMapping := match (s.mappingList p).getLast? with
        | some f => (s.files f).mapping + 1
        | none => 0
      ({ s₂ with mappingList := update s₂.mappingList p (s₂.mappingList p ++ [target]) },
        some newMapping)

/-- The user pages backed by the file, in table order. -/
def pagesOf (t : SupPageTable) (file : Nat) : List Nat :=
  (t.entries.filter fun e => e.2.fileAddress = some file).map Sigma.fst

/-- The first loop of the unmapping code, for one page: a dirty page is written
    back from the frame its entry names. `inode_write_at` does not look at the
    buffer while writes are denied. -/
def writeBack (s : VmState) (p : Tid) (file upage : Nat) : Option VmState :=
  ((s.supPageTable p).lookup upage).bind fun sup =>
    if pagedirIsDirty (s.pagedir p) upage then
      match sup.kpage with
      | some k => some (fileWriteAt s file (s.mem k) pgsize sup.filePos)
      | none => if (s.inodes (s.files file).inode).denyWriteCnt = 0 then none else some s
    else some s

/-- The second loop, for one page: its frame and its entry go. -/
def removePage (s : VmState) (p : Tid) (upage : Nat) : Option VmState :=
  ((s.supPageTable p).lookup upage).bind fun sup =>
    (frameTableFree s sup.kpage).bind fun s' => supPageEntryDelete s' p upage

/-- The code shared by `handle_munmap` and `process_exit`: both loops over the
    pages of the file, then its element leaves the mapping list. -/
def unmapFile (s : VmState) (p : Tid) (file : Nat) : Option VmState :=
  let pages := pagesOf (s.supPageTable p) file
  (pages.foldlM (fun t u => writeBack t p file u) s).bind fun s₁ =>
    (pages.foldlM (fun t u => removePage t p u) s₁).map fun s₂ =>
      { s₂ with mappingList := update s₂.mappingList p ((s₂.mappingList p).erase file) }

/-- `handle_munmap`: the first mapping whose file carries the identifier. -/
def handleMunmap (s : VmState) (p : Tid) (mapping : Int) : Option VmState :=
  match (s.mappingList p).find? fun f => (s.files f).mapping = mapping with
  | some f => unmapFile s p f
  | none => some s

/-- `pagedir_destroy`: every present page is freed. -/
def pagedirDestroy (s : VmState) (p : Tid) : Option VmState :=
  ((s.pagedir p).entries.foldlM
      (fun t (e : Sigma fun _ : Nat => Pte) => if e.2.present then pallocFree t e.2.kpage else some t)
      s).map fun s' => { s' with pagedir := update s'.pagedir p ∅ }

/-- `file_close` of the executable in `thread_exit`: writes are allowed again. -/
def closeSelf (s : VmState) (p : Tid) : VmState :=
  match s.selfFile p with
  | some ino =>
    let nd := s.inodes ino
    { s with inodes := update s.inodes ino { nd with denyWriteCnt := nd.denyWriteCnt - 1 } }
  | none => s

/-- `process_exit` and the end of `thread_exit`: the mappings in list order, then
    the page directory. The frame table is not touched. -/
def processExit (s : VmState) (p : Tid) : Option VmState :=
  ((s.mappingList p).foldlM (fun t f => unmapFile t p f) s).bind fun s₁ =>
    (pagedirDestroy s₁ p).map fun s₂ =>
      let s₃ := closeSelf s₂ p
      { s₃ with exited := update s₃.exited p true }

/-! Page faults. -/

/-- `page_fault`'s test for stack growth; `esp - 32` wraps at 32 bits. -/
def isStackGrowth (s : VmState) (p : Tid) (addr esp : Nat) : Bool :=
  (esp + (wordSize - 32)) % wordSize ≤ addr && physBase - 8388608 ≤ addr && addr < physBase &&
    ((s.supPageTable p).lookup (pgRoundDown addr)).isNone

/-- A new page below the stack: not zeroed, and writable only if the fault was a
    write. A failed `pagedir_set_page` is ignored. -/
def growStack (s : VmState) (p : Tid) (upage : Nat) (write ptOk : Bool) : Option VmState :=
  (frameTableAllocator s p false).bind fun (s₁, k) =>
    (pagedirSetPage (supPageEntryCreate s₁ p upage (anonEntry k)) p upage k write ptOk).map Prod.fst

/-- Whether `page_fault` finds no page to bring in: the process is killed. -/
def killed (s : VmState) (p : Tid) (addr esp : Nat) : Bool :=
  !isStackGrowth s p addr esp &&
    (((s.supPageTable p).lookup (pgRoundDown addr)).isNone || physBase ≤ pgRoundDown addr ||
      (pagedirGetPage (s.pagedir p) (pgRoundDown addr)).isSome)

def pageFault (s : VmState) (p : Tid) (addr esp : Nat) (write ptOk : Bool) : Option VmState :=
  let upage := pgRoundDown addr
  let notPresent := (pagedirGetPage (s.pagedir p) upage).isNone
  if isStackGrowth s p addr esp then growStack s p upage write ptOk
  else match (s.supPageTable p).lookup upage with
    | some sup =>
      if physBase ≤ upage ∨ notPresent = false then processExit s p
      else match sup.fileAddress with
        | none => swapIn s p upage notPresent
        | some file => fileIn s p upage file notPresent ptOk
    | none => processExit s p

/-! User accesses. -/

/-- Whether an access to the address raises a page fault. -/
def faults (s : VmState) (p : Tid) (addr : Nat) (write : Bool) : Bool :=
  match (s.pagedir p).lookup (pgRoundDown addr) with
  | some e => !e.present || (write && !e.writable)
  | none => true

def userLoad (s : VmState) (p : Tid) (addr : Nat) : Option Byte :=
  (pagedirGetPage (s.pagedir p) (pgRoundDown addr)).map fun k => s.mem k (pgOfs addr)

/-- A user store: the byte goes to the frame and the CPU sets the dirty bit. -/
def userStore (s : VmState) (p : Tid) (addr : Nat) (b : Byte) : Option VmState :=
  match (s.pagedir p).lookup (pgRoundDown addr) with
  | some e =>
    if e.present && e.writable then
      some { s with
        mem := update s.mem e.kpage (update (s.mem e.kpage) (pgOfs addr) b)
        pagedir := update s.pagedir p
          ((s.pagedir p).insert (pgRoundDown addr) { e with dirty := true }) }
    else none
  | none => none

/-! The machine. -/

/-- What a process can make happen: each event runs to completion. -/
inductive Event where
  /-- `load` opens the executable and denies writes to it. -/
  | exec (p : Tid) (ino : Nat)
  | loadPage (p : Tid) (ino offset readBytes upage : Nat) (writable ptOk : Bool)
  | setupStack (p : Tid) (ptOk : Bool)
  /-- `load` has succeeded and `start_process` enters user mode. -/
  | start (p : Tid)
  | fault (p : Tid) (addr esp : Nat) (write ptOk : Bool)
  | load (p : Tid) (addr : Nat)
  | store (p : Tid) (addr : Nat) (b : Byte)
  | mmap (p : Tid) (ino addr : Nat)
  | munmap (p : Tid) (mapping : Int)
  | exit (p : Tid)
  /-- The free memory of the kernel changes: what the file's next bounce buffers get. -/
  | bounce (p : Tid) (file : Nat) (read write : Bool)
  deriving DecidableEq

/-- The process an event belongs to. -/
def Event.tid : Event → Tid
  | .exec p _ | .loadPage p _ _ _ _ _ _ | .setupStack p _ | .start p | .fault p _ _ _ _
  | .load p _ | .store p _ _ | .mmap p _ _ | .munmap p _ | .exit p | .bounce p _ _ _ => p

/-- `load` runs before the process is in user mode, system calls run after. The
    accesses of `push_argument` to the new stack are accesses like any other. -/
def Event.inPhase (s : VmState) : Event → Bool
  | .exec p _ | .loadPage p _ _ _ _ _ _ | .setupStack p _ | .start p => !s.loaded p
  | .mmap p _ _ | .munmap p _ => s.loaded p
  | .fault _ _ _ _ _ | .load _ _ | .store _ _ _ | .exit _ | .bounce _ _ _ _ => true

/-- Whether the event ends its process: an exit, or a fault that is not handled. -/
def Event.ends (s : VmState) : Event → Bool
  | .exit _ => true
  | .fault p addr esp _ _ => killed s p addr esp
  | _ => false

/-- Whether the event asks `frame_table_allocator` for a frame. -/
def Event.takesFrame (s : VmState) : Event → Bool
  | .loadPage _ _ _ _ _ _ _ | .setupStack _ _ => true
  | .fault p addr esp _ _ => !killed s p addr esp
  | _ => false

/-- The page the event makes, if it gets that far: a page of a segment, the first
    page of the stack, or a page the stack grows by. -/
def Event.creates (s : VmState) : Event → Option Nat
  | .loadPage p ino offset readBytes upage writable ptOk =>
    (Vm.loadPage s p ino offset readBytes upage writable ptOk).bind fun r =>
      if r.2 then some upage else none
  | .setupStack p ptOk =>
    (Vm.setupStack s p ptOk).bind fun r => if r.2 then some (physBase - pgsize) else none
  | .fault p addr esp _ _ => if isStackGrowth s p addr esp then some (pgRoundDown addr) else none
  | _ => none

/-- `load`: the executable becomes the process's own file and is write-protected. -/
def exec (s : VmState) (p : Tid) (ino : Nat) : Option VmState :=
  if (s.selfFile p).isNone then
    some { s with
      selfFile := update s.selfFile p (some ino)
      inodes := update s.inodes ino
        { s.inodes ino with denyWriteCnt := (s.inodes ino).denyWriteCnt + 1 } }
  else none

def setBounce (s : VmState) (file : Nat) (read write : Bool) : VmState :=
  { s with
    readBounce := update s.readBounce file read
    writeBounce := update s.writeBounce file write }

/-- The effect of an event, for a process that can raise it. -/
def Event.apply (s : VmState) : Event → Option VmState
  | .exec p ino => Vm.exec s p ino
  | .loadPage p ino offset readBytes upage writable ptOk =>
    (Vm.loadPage s p ino offset readBytes upage writable ptOk).map Prod.fst
  | .setupStack p ptOk => (Vm.setupStack s p ptOk).map Prod.fst
  | .start p => some { s with loaded := update s.loaded p true }
  | .fault p addr esp write ptOk =>
    if faults s p addr write then pageFault s p addr esp write ptOk else none
  | .load p addr => (userLoad s p addr).map fun _ => s
  | .store p addr b => userStore s p addr b
  | .mmap p ino addr => some (handleMmap s p ino addr).1
  | .munmap p mapping => handleMunmap s p mapping
  | .exit p => processExit s p
  | .bounce _ file read write => some (setBounce s file read write)

def step (s : VmState) (e : Event) : Option VmState :=
  if s.exited e.tid = false ∧ e.inPhase s = true then e.apply s else none

/-- `swap_init`: a slot every 8 sectors. -/
def swapInit (capacity : Nat) : List SwapEntry :=
  (List.range ((capacity + 7) / 8)).map fun j => ⟨false, 8 * j⟩

/-- The machine after boot: no frame handed out, no process has done anything. -/
def boot (poolSize : Nat) (mem : Nat → Buf) (inodes : Nat → Inode) (swapDisk : Disk) : VmState where
  poolSize := poolSize
  usedMap := fun _ => false
  mem := mem
  frameTable := []
  pagedir := fun _ => ∅
  supPageTable := fun _ => ∅
  mappingList := fun _ => []
  selfFile := fun _ => none
  loaded := fun _ => false
  exited := fun _ => false
  files := fun _ => ⟨0, 0⟩
  nextFile := 0
  inodes := inodes
  readBounce := fun _ => true
  writeBounce := fun _ => true
  swapTable := swapInit swapDisk.capacity
  swapDisk := swapDisk

end Pintos.Vm
