import Pintos.Process.Load
import Pintos.Process.IntrOff

/- The system calls that open and close files.

   A process reaches its open files through three fields of its thread: `file_list`,
   `mapping_list` and `self_file`. The calls are commands on the file system and the
   processes, one after the other. Of a process there are besides these fields its
   supplemental page table and its page directory; page faults and evictions may make
   anything of these two. What a mapping has to write back is an argument of the calls
   that do so.

   Correspondence (C ↔ Lean):
     `struct thread`                       ↔ `Proc`: the fields that are read
     `find_file_by_fd`                     ↔ `findFileByFd`
     `give_file_descriptor`                ↔ `nextFd` and the change to `fileList`
     `start_process`, with `load`          ↔ `startProcess`
     `thread_exit`, `process_exit`         ↔ `threadExit`, `exitFiles`
     `handle_create` … `handle_munmap`     ↔ `handleCreate` … `handleMunmap`
   The number of a descriptor is kept on the list. No code writes the `mapping` field of
   a file, which `file_open` gets as zero. Pointers that are not good end the process, as
   an empty name does: both are the end of it that `exit` is. The end in the middle of
   `lookup`, at a name that cannot be read, is `badName`. -/
namespace Pintos.Process

open Vm (Buf Tid wordSize pgsize SupPageTable Pagedir)
open Filesys
open Lib

structure Proc where
  fileList : List (Int × Nat)
  mappingList : List Nat
  selfFile : Option Nat
  supPageTable : SupPageTable
  pagedir : Pagedir

def Proc.held (P : Proc) : List Nat := P.fileList.map Prod.snd ++ P.mappingList ++ P.selfFile.toList

/-- `denied` are the files that have been passed to `file_deny_write` by others than
    `load`, and not to `file_allow_write` since. -/
structure Sys where
  fs : Fs
  procs : Tid → Option Proc
  denied : List Nat

abbrev SysM := Cmd Sys

def onFs {α : Type} (m : FsM α) : SysM α := zoom Sys.fs (fun fs x => { x with fs := fs }) m

def current (t : Tid) : SysM Proc := do follow ((← get).procs t)

def setProc (t : Tid) (P : Option Proc) : SysM Unit :=
  modify fun x => { x with procs := Function.update x.procs t P }

/-- For each mapped file, the pages that are dirty: their contents and `file_pos`. -/
abbrev Dirty := Nat → List (Buf × Nat)

/-! The end of a process. -/

/-- The loop that writes the dirty pages of a mapping back. -/
def writeBack (file : Nat) : List (Buf × Nat) → FsM Unit
  | [] => pure ()
  | (kpage, filePos) :: l => do
    discard (fileWriteAt file kpage pgsize filePos)
    writeBack file l

/-- The loop over the mappings. The files are not closed. -/
def unmapAll (dirty : Dirty) : List Nat → FsM Unit
  | [] => pure ()
  | file :: l => do
    writeBack file (dirty file)
    unmapAll dirty l

def closeAll : List Nat → FsM Unit
  | [] => pure ()
  | file :: l => do
    fileClose (some file)
    closeAll l

/-- Interrupts are off here, and `issue_pio_command` asserts that they are on. -/
def closeSelf : Option Nat → FsM Unit
  | none => pure ()
  | some file => do
    assert (!closeUsesDisk (← get) file)
    fileClose (some file)

def exitFiles (dirty : Dirty) (P : Proc) : FsM Unit := do
  unmapAll dirty P.mappingList
  closeAll (P.fileList.map Prod.snd)
  closeSelf P.selfFile

def threadExit (t : Tid) (dirty : Dirty) : SysM Unit := do
  let P ← current t
  onFs (exitFiles dirty P)
  setProc t none

/-! The calls. -/

/-- The frames `load` gets for the pages of a process, and which of these may be written. -/
structure Placing where
  kpage : Nat → Nat
  writable : Nat → Bool

def newTable (pl : Placing) (upages : List Nat) : SupPageTable :=
  upages.foldl (fun t u => t.insert u (Vm.anonEntry (pl.kpage u))) ∅

def newPagedir (pl : Placing) (upages : List Nat) : Pagedir :=
  upages.foldl (fun pd u => pd.insert u ⟨pl.kpage u, true, pl.writable u, false⟩) ∅

/-- A new process. Where `load` fails it ends at once; it has no mappings. -/
def startProcess (t : Tid) (mem : LoadMem) (pl : Placing) (name : Name) : SysM Unit := do
  let r ← onFs (load mem name)
  setProc t (some ⟨[], [], r.selfFile, newTable pl r.pages, newPagedir pl r.pages⟩)
  (if r.success then pure () else threadExit t fun _ => [])

def findFileByFd (P : Proc) (fd : Int) : Option (Int × Nat) := P.fileList.find? fun e => e.1 == fd

def nextFd (P : Proc) : Int :=
  match P.fileList.getLast? with
  | none => 2
  | some e => Int.bmod (e.1 + 1) wordSize

/-- The file that `filesys_open` opened to see whether there is one is not closed. -/
def handleCreate (t : Tid) (dirty : Dirty) (junk : Buf) (name : Name) (initialSize : Nat) :
    SysM Unit := do
  (if name.chars.length = 0 then threadExit t dirty
  else if name.chars.length > 14 then pure ()
  else do
    match ← onFs (filesysOpen name) with
    | some _ => pure ()
    | none => discard (onFs (filesysCreate junk name (toInt (initialSize % wordSize)))))

def handleOpen (t : Tid) (name : Name) : SysM Unit := do
  let P ← current t
  match ← onFs (filesysOpen name) with
  | some file => setProc t (some { P with fileList := P.fileList ++ [(nextFd P, file)] })
  | none => pure ()

def handleClose (t : Tid) (dirty : Dirty) (fd : Int) : SysM Unit := do
  let P ← current t
  match findFileByFd P fd with
  | some e =>
    setProc t (some { P with fileList := P.fileList.erase e })
    onFs (fileClose (some e.2))
  | none => threadExit t dirty

/-- The entries of the pages of a mapping; `hash_insert` keeps one that is there. -/
def enterPages (table : SupPageTable) (file : Nat) (upages : List Nat) : SupPageTable :=
  (upages.zipIdx).foldl (fun t u => if (t.lookup u.1).isSome then t
    else t.insert u.1 ⟨none, none, some file, pgsize * u.2⟩) table

/-- The pages of the file that a descriptor names, mapped at an address. There are none for
    a negative length. -/
def requestedPages (fs : Fs) (P : Proc) (fd : Int) (addr : Nat) : List Nat :=
  match findFileByFd P fd with
  | none => []
  | some e => match fileLength e.2 fs with
    | none => []
    | some r => Vm.madePages addr r.1.toNat

def overlaps (fs : Fs) (P : Proc) (fd : Int) (addr : Nat) : Bool :=
  (requestedPages fs P fd addr).any fun u => (P.supPageTable.lookup u).isSome

/-- The arguments that are refused at once. -/
abbrev BadMap (fd : Int) (addr : Nat) : Prop := fd < 2 ∨ addr = 0 ∨ addr % pgsize ≠ 0

/-- What is in `eax` afterwards, if the process is still there. For an unknown descriptor
    `file_reopen` reads through a null pointer, which ends the process. If there is no memory
    `file_length` gets a null pointer, and asserts that it is none. Where a page is taken the
    file that has been opened is not closed. -/
def handleMmap (t : Tid) (dirty : Dirty) (fd : Int) (addr : Nat) : SysM (Option Int) := do
  let P ← current t
  (if BadMap fd addr then return some (-1)
  else match findFileByFd P fd with
    | none => do
      threadExit t dirty
      return none
    | some e => do
      let file ← follow (← onFs (fileReopen e.2))
      let length ← onFs (fileLength file)
      let upages := Vm.madePages addr length.toNat
      (if upages.any fun u => (P.supPageTable.lookup u).isSome then return some (-1)
      else do
        setProc t (some { P with
          mappingList := P.mappingList ++ [file]
          supPageTable := enterPages P.supPageTable file upages })
        return some (if P.mappingList = [] then 0 else 1)))

/-- The mapping is the first file whose `mapping` field, which is zero, is the number. It is
    taken off the list, and not closed. -/
def handleMunmap (t : Tid) (dirty : Dirty) (mapping : Int) : SysM Unit := do
  let P ← current t
  match P.mappingList with
  | [] => pure ()
  | file :: l =>
    (if mapping = 0 then do
      onFs (writeBack file (dirty file))
      let upages := Vm.pagesOf P.supPageTable file
      setProc t (some { P with
        mappingList := l
        supPageTable := upages.foldl (fun t u => t.erase u) P.supPageTable
        pagedir := upages.foldl Vm.clearPresent P.pagedir })
    else pure ())

/-- `exit` stands for all the ways in which a process ends outside of `lookup`. -/
inductive SysCall where
  | exit
  | create (junk : Buf) (name : Name) (initialSize : Nat)
  | remove (name : Name)
  | openName (name : Name)
  | close (fd : Int)
  | mmap (fd : Int) (addr : Nat)
  | munmap (mapping : Int)

def SysCall.exec (t : Tid) (dirty : Dirty) : SysCall → SysM Unit
  | exit => threadExit t dirty
  | create junk name initialSize => handleCreate t dirty junk name initialSize
  | remove name => do discard (onFs (filesysRemove name))
  | openName name => handleOpen t name
  | close fd => handleClose t dirty fd
  | mmap fd addr => do discard (handleMmap t dirty fd addr)
  | munmap mapping => handleMunmap t dirty mapping

inductive SysEvent where
  /-- A process is started, with the file that the command line begins with. -/
  | start (t : Tid) (mem : LoadMem) (pl : Placing) (name : Name)
  | call (t : Tid) (dirty : Dirty) (c : SysCall)
  /-- Something is done to the file system, on behalf of no process. -/
  | file (c : Filesys.Call)
  /-- The tables of a process change: faults, evictions, stores. -/
  | tables (t : Tid) (supPageTable : SupPageTable) (pagedir : Pagedir)

/-- Who denies writes after a call. -/
def deniedBy (denied : List Nat) : Filesys.Call → List Nat
  | .denyWrite file => file :: denied
  | .allowWrite file => denied.filter (· ≠ file)
  | _ => denied

def SysEvent.exec : SysEvent → SysM Unit
  | start t mem pl name => startProcess t mem pl name
  | call t dirty c => c.exec t dirty
  | file c => do
    onFs c.exec
    modify fun x => { x with denied := deniedBy x.denied c }
  | tables t supPageTable pagedir => do
    let P ← current t
    setProc t (some { P with supPageTable := supPageTable, pagedir := pagedir })

def sysStep (x : Sys) (e : SysEvent) : Option Sys := (e.exec x).map Prod.snd

/-- A thread runs one process, and calls are made by processes. Files that are used are
    open, and not that of the free map. Nobody but the process itself has its executable,
    so others do not change its flag, and they do not close the files of a process. -/
def Allowed (x : Sys) : SysEvent → Prop
  | .start t _ _ _ => x.procs t = none
  | .call t _ _ => x.procs t ≠ none
  | .tables _ _ _ => True
  | .file c => c.size < 2147483648 ∧ ∀ f, c.file = some f → Usable x.fs f ∧
      ∀ p P, x.procs p = some P → P.selfFile ≠ some f ∧ (c = .close f → f ∉ P.held)

/-- Before the first process is started the disk may be filled. No file stays open. -/
structure Booted (x : Sys) : Prop where
  fs : ∃ fs₀, Started fs₀ ∧ Reach fsStep Legal fs₀ x.fs
  files : ∀ f, x.fs.files f ≠ none → x.fs.freeMapFile = some f
  procs : ∀ t, x.procs t = none
  denied : x.denied = []

end Pintos.Process
