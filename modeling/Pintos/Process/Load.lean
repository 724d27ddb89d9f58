import Pintos.Filesys.Runs
import Pintos.Vm.Machine

/- Loading an executable.

   `load` opens the file, checks the ELF header, makes the file the process's
   `self_file`, denies writes to it and reads its segments. Memory is not part of the
   state here: which frames are to be had and installed is an argument, and the pages
   that get an entry in the supplemental page table are listed.

   Correspondence (C ↔ Lean):
     `struct Elf32_Ehdr`, `struct Elf32_Phdr`   ↔ `Ehdr`, `Phdr`: the fields that are read
     `validate_segment`                         ↔ `validateSegment`
     the arithmetic in `load`                   ↔ `Phdr.segment`
     `load_segment`, and its loop               ↔ `loadSegment`, `loadPages`
     the loop over program headers              ↔ `loadHeaders`
     `setup_stack_arg`, before `push_argument`  ↔ the last page in `load`
   `load_segment` and `setup_stack_arg` fail where `frame_table_allocator` or
   `install_page` does. The name that is opened is the first token of the command line. -/
namespace Pintos.Process

open Vm (Byte Buf wordSize pgsize physBase isUserVaddr)
open Filesys
open Lib

/-! ELF headers. -/

/-- The 16-bit word at offset `i` of a buffer. -/
def half (b : Buf) (i : Nat) : Nat := (b i).toNat + 256 * (b (i + 1)).toNat

structure Ehdr where
  ident : List Byte
  type : Nat
  machine : Nat
  version : Nat
  phoff : Nat
  phentsize : Nat
  phnum : Nat

def ehdrSize : Nat := 52

def Ehdr.decode (b : Buf) : Ehdr where
  ident := (List.range 7).map b
  type := half b 16
  machine := half b 18
  version := word b 20
  phoff := word b 28
  phentsize := half b 42
  phnum := half b 44

def elfIdent : List Byte := [0x7f, 0x45, 0x4c, 0x46, 1, 1, 1]

def phdrSize : Nat := 32

def Ehdr.good (h : Ehdr) : Bool :=
  h.ident = elfIdent && h.type = 2 && h.machine = 3 && h.version = 1 && h.phentsize = phdrSize &&
    h.phnum ≤ 1024

structure Phdr where
  type : Nat
  offset : Nat
  vaddr : Nat
  filesz : Nat
  memsz : Nat
  flags : Nat

def Phdr.decode (b : Buf) : Phdr where
  type := word b 0
  offset := word b 4
  vaddr := word b 8
  filesz := word b 16
  memsz := word b 20
  flags := word b 24

/-- `PT_LOAD`, and the types with which `load` gives up. -/
def ptLoad : Nat := 1

def ptRefused : List Nat := [2, 3, 5]

def validateSegment (ph : Phdr) (fileLength : Int) : Bool :=
  ph.offset % pgsize = ph.vaddr % pgsize && ph.offset ≤ ofInt fileLength && ph.filesz ≤ ph.memsz &&
    ph.memsz ≠ 0 && isUserVaddr ph.vaddr && isUserVaddr ((ph.vaddr + ph.memsz) % wordSize) &&
    ph.vaddr ≤ (ph.vaddr + ph.memsz) % wordSize && pgsize ≤ ph.vaddr

def pgRoundUp (x : Nat) : Nat := (x + pgsize - 1) % wordSize / pgsize * pgsize

/-- The arguments of `load_segment`. -/
structure Segment where
  ofs : Nat
  upage : Nat
  readBytes : Nat
  zeroBytes : Nat
  writable : Bool

def Phdr.segment (ph : Phdr) : Segment :=
  let pageOffset := ph.vaddr % pgsize
  let readBytes := if 0 < ph.filesz then (pageOffset + ph.filesz) % wordSize else 0
  let pages := pgRoundUp ((pageOffset + ph.memsz) % wordSize)
  { ofs := ph.offset - ph.offset % pgsize
    upage := ph.vaddr - ph.vaddr % pgsize
    readBytes := readBytes
    zeroBytes := (pages + wordSize - readBytes) % wordSize
    writable := ph.flags / 2 % 2 = 1 }

/-! Loading. -/

/-- What `pagedir_create` and, page by page, `frame_table_allocator` and `install_page`
    say. -/
structure LoadMem where
  pagedir : Bool
  frame : Nat → Bool
  install : Nat → Bool

def fileLength (file : Nat) : FsM Int := do
  let f ← follow ((← get).files file)
  let n ← follow ((← get).openInodes f.inode)
  return n.data.length

/-- The loop of `load_segment`, with the pages that have an entry so far. -/
def loadPages (mem : LoadMem) (file : Nat) : (turns readBytes upage : Nat) → (pages : List Nat) →
    FsM (Bool × List Nat)
  | 0, _, _, pages => return (true, pages)
  | turns + 1, readBytes, upage, pages => do
    let pageReadBytes := min readBytes pgsize
    if mem.frame pages.length then
      let (k, _) ← fileRead file (fun _ => 0) pageReadBytes
      if k = pageReadBytes ∧ mem.install pages.length = true then
        loadPages mem file turns (readBytes - pageReadBytes) (upage + pgsize) (pages ++ [upage])
      else return (false, pages)
    else return (false, pages)

def loadSegment (mem : LoadMem) (file : Nat) (seg : Segment) (pages : List Nat) :
    FsM (Bool × List Nat) := do
  let bytes := (seg.readBytes + seg.zeroBytes) % wordSize
  assert (bytes % pgsize = 0)
  assert (seg.upage % pgsize = 0)
  assert (seg.ofs % pgsize = 0)
  assert (0 ≤ toInt seg.ofs)
  fileSeek file seg.ofs
  loadPages mem file (bytes / pgsize) seg.readBytes seg.upage pages

/-- The loop over the program headers; `file_ofs` is an `off_t`. -/
def loadHeaders (mem : LoadMem) (file : Nat) : (cnt : Nat) → (fileOfs : Int) → (pages : List Nat) →
    FsM (Bool × List Nat)
  | 0, _, pages => return (true, pages)
  | cnt + 1, fileOfs, pages => do
    let length ← fileLength file
    if fileOfs < 0 ∨ length < fileOfs then return (false, pages)
    else
      fileSeek file fileOfs.toNat
      let (k, b) ← fileRead file (fun _ => 0) phdrSize
      let ph := Phdr.decode b
      if k ≠ phdrSize ∨ ph.type ∈ ptRefused then return (false, pages)
      else
        let fileOfs := Int.bmod (fileOfs + phdrSize) wordSize
        if ph.type = ptLoad then
          if validateSegment ph length then
            let (ok, pages) ← loadSegment mem file ph.segment pages
            if ok then loadHeaders mem file cnt fileOfs pages else return (false, pages)
          else return (false, pages)
        else loadHeaders mem file cnt fileOfs pages

/-- What `load` leaves in the thread: whether it succeeded, `self_file` and the pages. -/
structure Loaded where
  success : Bool
  selfFile : Option Nat
  pages : List Nat

def load (mem : LoadMem) (name : Name) : FsM Loaded := do
  if mem.pagedir then
    match ← filesysOpen name with
    | none => return ⟨false, none, []⟩
    | some file =>
      let (k, b) ← fileRead file (fun _ => 0) ehdrSize
      let ehdr := Ehdr.decode b
      -- the file is closed on no path: where the header is bad nobody keeps it
      if k = ehdrSize ∧ ehdr.good = true then
        fileDenyWrite file
        let (ok, pages) ← loadHeaders mem file ehdr.phnum (toInt ehdr.phoff) []
        if ok && mem.frame pages.length && mem.install pages.length then
          return ⟨true, some file, pages ++ [physBase - pgsize]⟩
        else return ⟨false, some file, pages⟩
      else return ⟨false, none, []⟩
  else return ⟨false, none, []⟩

end Pintos.Process
