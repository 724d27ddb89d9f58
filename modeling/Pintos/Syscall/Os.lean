import Pintos.Syscall.Handlers

/- The machine that runs the handlers.

   Any number of processes, each in user mode or somewhere in the tree of its
   system call, and one node of one tree at a time. An access through a user
   pointer may fault; `page_fault` then brings the page in, grows the stack or
   kills the process, inside the call and with whatever locks it holds. A process
   that ends gives up its pages and its files, not its locks.

   An action has an outcome: the next state, or the process has to wait, or an
   `ASSERT` fails, or what happens is not defined: kernel memory is overwritten, or a
   bad pointer is followed, for which the kernel may kill the process where it is. In
   that case (`wild`) any state may follow. Where the CPU does not save `esp`, on a fault in kernel
   mode, `page_fault` compares with whatever is on the kernel stack: that word, a
   key and the result of a wait come from outside, in an `Oracle`. -/
namespace Pintos.Syscall

open Vm (Byte Tid VmState wordSize physBase pgRoundDown)
open Function

structure Os where
  vm : VmState
  info : Nat → InodeInfo
  dir : List DirEntry
  diskSize : Nat
  freeMap : Nat → Bool
  fileList : Tid → List OpenFile
  /-- The holder of the lock of `syscall.c`. -/
  lock : Option Tid
  /-- The holder of the lock of the file system disk's channel. -/
  channel : Option Tid
  /-- What is left of a process's system call. -/
  ctl : Tid → Option (Prog Eax)
  eax : Tid → Eax
  console : List Byte
  /-- Kernel memory is mapped from `PHYS_BASE` on, for this many bytes. -/
  ramSize : Nat
  kernelMem : Nat → Byte

def Os.fileSys (x : Os) : FileSys :=
  ⟨x.vm.inodes, x.info, x.dir, x.diskSize, x.freeMap, x.fileList⟩

def Os.setFileSys (x : Os) (fs : FileSys) : Os :=
  { x with
    vm := { x.vm with inodes := fs.inodes }
    info := fs.info
    dir := fs.dir
    diskSize := fs.diskSize
    freeMap := fs.freeMap
    fileList := fs.fileList }

def Os.goto (x : Os) (p : Tid) (c : Prog Eax) : Os :=
  { x with ctl := update x.ctl p (some c) }

/-- What the outside gives to one action. -/
structure Oracle where
  esp : Nat
  key : Byte
  result : Int
  deriving DecidableEq

inductive Outcome where
  | ok (x : Os)
  | blocked
  | panic
  | wild

inductive Access (α : Type) where
  | ok (x : Os) (a : α)
  | killed (x : Os)
  | panic
  | wild

/-! Memory. -/

/-- `is_invalid`: only pages that are resident pass. -/
def Os.invalid (x : Os) (p : Tid) (a : Nat) : Bool :=
  a == 0 || physBase ≤ a || (Vm.pagedirGetPage (x.vm.pagedir p) (pgRoundDown a)).isNone

/-- Whether the eviction that is due writes to the file system disk. -/
def evictsToDisk (s : VmState) : Bool :=
  (List.range s.poolSize).all (fun k => s.usedMap k) && match s.frameTable with
    | [] => false
    | f :: _ => match Vm.victimPage s f with
      | some (u, sup) => match sup.fileAddress with
        | some file => Vm.pagedirIsDirty (s.pagedir f.usingThread) u &&
            (s.inodes (s.files file).inode).denyWriteCnt == 0
        | none => false
      | none => false

/-- Whether bringing in the page of the address takes the file system disk. -/
def faultUsesDisk (s : VmState) (p : Tid) (a esp : Nat) : Bool :=
  evictsToDisk s || !Vm.isStackGrowth s p a esp &&
    match (s.supPageTable p).lookup (pgRoundDown a) with
    | some sup => sup.fileAddress.isSome
    | none => false

/-- An access by the kernel on behalf of `p`. A page fault that takes the disk while
    the process holds its channel fails the assertion of `lock_acquire`. -/
def Os.touch (x : Os) (p : Tid) (o : Oracle) (a : Nat) (write : Bool) : Access Unit :=
  if a < physBase then
    if Vm.faults x.vm p a write then
      if Vm.killed x.vm p a o.esp then .killed x
      else if x.channel = some p ∧ faultUsesDisk x.vm p a o.esp = true then .panic
      else match Vm.pageFault x.vm p a o.esp write true with
        | some vm => .ok { x with vm := vm } ()
        | none => .wild
    else .ok x ()
  else if a < physBase + x.ramSize then (if write then .wild else .ok x ())
  else .killed x

def Os.load (x : Os) (p : Tid) (o : Oracle) (a : Nat) : Access Byte :=
  match x.touch p o a false with
  | .ok y _ =>
    if a < physBase then
      match Vm.userLoad y.vm p a with
      | some b => .ok y b
      | none => .wild
    else .ok y (x.kernelMem a)
  | .killed y => .killed y
  | .panic => .panic
  | .wild => .wild

def Os.store (x : Os) (p : Tid) (o : Oracle) (a : Nat) (b : Byte) : Access Unit :=
  match x.touch p o a true with
  | .ok y _ =>
    match Vm.userStore y.vm p a b with
    | some vm => .ok { y with vm := vm } ()
    | none => .wild
  | .killed y => .killed y
  | .panic => .panic
  | .wild => .wild

/-- The bytes of a string up to its NUL. There is no way around the address space:
    the top of it is not mapped. -/
def Os.string (p : Tid) (o : Oracle) : (turns : Nat) → Os → Nat → Access (List Byte)
  | 0, x, _ => .killed x
  | n + 1, x, a => match x.load p o a with
    | .ok y b =>
      if b = 0 then .ok y []
      else match Os.string p o n y (ptr a 1) with
        | .ok z bs => .ok z (b :: bs)
        | .killed z => .killed z
        | .panic => .panic
        | .wild => .wild
    | .killed y => .killed y
    | .panic => .panic
    | .wild => .wild

/-! The end of a process. -/

/-- Whether `process_exit` has something to write to the file system disk: a dirty
    page of a mapping, or the sectors of a removed file that nobody else has open. -/
def exitUsesDisk (x : Os) (p : Tid) : Bool :=
  (x.vm.mappingList p).any (fun f => (x.vm.inodes (x.vm.files f).inode).denyWriteCnt == 0 &&
    (Vm.pagesOf (x.vm.supPageTable p) f).any fun u => Vm.pagedirIsDirty (x.vm.pagedir p) u) ||
  (x.fileList p).any fun f => (x.info f.inode).removed &&
    (x.info f.inode).openCnt ≤ (x.fileList p).countP fun g => g.inode = f.inode

/-- `file_close` of the executable in `thread_exit`. Interrupts are off there, and
    the disk may not be used: `issue_pio_command` asserts that they are on. -/
def closeSelf (fs : FileSys) (self : Option Nat) : Option FileSys :=
  match self with
  | none => some fs
  | some i =>
    if (fs.info i).removed = true ∧ (fs.info i).openCnt = 1 then none else inodeClose fs i

/-- `thread_exit`. The locks stay as they are. -/
def Os.die (x : Os) (p : Tid) : Outcome :=
  if x.channel = some p ∧ exitUsesDisk x p = true then .panic
  else match Vm.processExit x.vm p with
    | none => .wild
    | some vm =>
      match (closeAll { x with vm := vm }.fileSys p).bind fun fs => closeSelf fs (x.vm.selfFile p) with
      | none => .panic
      | some fs => .ok ({ x with
          vm := vm
          ctl := update x.ctl p none }.setFileSys fs)

/-! Starting a process. -/

/-- The first word of a command line, as `strtok_r` finds it; `none` is its null. -/
def firstToken (line : List Byte) : Option (List Byte) :=
  match line.dropWhile (· == 32) with
  | [] => none
  | b :: bs => some ((b :: bs).takeWhile (· != 32))

/-! One action. -/

def Access.andThen {α : Type} (r : Access α) (p : Tid) (k : α → Prog Eax) : Outcome :=
  match r with
  | .ok y a => .ok (y.goto p (k a))
  | .killed y => y.die p
  | .panic => .panic
  | .wild => .wild

/-- What a process does at a node of its tree. -/
def Os.op (x : Os) (p : Tid) (o : Oracle) : Prog Eax → Outcome
  | .ret r => .ok { x with
      ctl := update x.ctl p none
      eax := update x.eax p r }
  | .exit => x.die p
  | .wild => .wild
  | .assert ok k => if ok then .ok (x.goto p k) else .panic
  | .invalid a k => .ok (x.goto p (k (x.invalid p a)))
  | .load a k => (x.load p o a).andThen p k
  | .store a b k => (x.store p o a b).andThen p fun _ => k
  | .string a k => (Os.string p o wordSize x a).andThen p k
  | .acquire k => match x.lock with
    | none => .ok ({ x with lock := some p }.goto p k)
    | some q => if q = p then .panic else .blocked
  | .release k =>
    if x.lock = some p then .ok ({ x with lock := none }.goto p k) else .panic
  | .diskAcquire k => match x.channel with
    | none => .ok ({ x with channel := some p }.goto p k)
    | some q => if q = p then .panic else .blocked
  | .diskRelease k =>
    if x.channel = some p then .ok ({ x with channel := none }.goto p k) else .panic
  | .getc k => .ok (x.goto p (k o.key))
  | .putc b k => .ok ({ x with console := b :: x.console }.goto p k)
  | .files k => .ok (x.goto p (k x.fileSys))
  | .update f k => match f x.fileSys with
    | some (n, fs) => .ok ((x.setFileSys fs).goto p (k n))
    | none => .panic
  | .mmap i a k =>
    let r := Vm.handleMmap x.vm p i a
    .ok ({ x with vm := r.1 }.goto p (k r.2))
  | .munmap m k => match Vm.handleMunmap x.vm p m with
    | some vm => .ok ({ x with vm := vm }.goto p k)
    | none => .wild
  -- `load` in the new process takes 255 bytes of the line, follows the first word
  -- to its end, and copies it to the 32 bytes of `exec_name`
  | .execute line k => match firstToken (line.take 255) with
    | some token => if token.length < 32 then .ok (x.goto p (k o.result)) else .wild
    | none => .panic
  | .wait _ k => .ok (x.goto p (k o.result))

inductive Ev where
  /-- A process in user mode, or one that is being loaded. -/
  | vm (e : Vm.Event)
  | call (p : Tid) (esp : Nat)
  | run (p : Tid) (o : Oracle)
  deriving DecidableEq

/-- Whether the event is one of a process outside of its system calls. -/
def outside : Vm.Event → Bool
  | .mmap _ _ _ | .munmap _ _ | .exit _ => false
  | _ => true

/-- Whether the CPU raises the fault that the event is about. -/
def raised (s : VmState) : Vm.Event → Bool
  | .fault p addr _ write _ => Vm.faults s p addr write
  | _ => true

def openSelf (x : Os) : Vm.Event → Os
  | .exec _ ino => x.setFileSys (inodeOpen x.fileSys ino)
  | _ => x

def osAct (x : Os) : Ev → Outcome
  | .vm e =>
    if x.vm.exited e.tid = false ∧ (x.ctl e.tid).isNone = true ∧ outside e = true then
      if raised x.vm e && e.ends x.vm then x.die e.tid
      else match Vm.step x.vm e with
        | some vm => .ok (openSelf { x with vm := vm } e)
        -- no frame can be had: the allocator has followed a bad pointer
        | none => if raised x.vm e && e.inPhase x.vm && e.takesFrame x.vm then .wild else .blocked
    else .blocked
  | .call p esp =>
    if x.vm.exited p = false ∧ x.vm.loaded p = true ∧ (x.ctl p).isNone = true then
      .ok (x.goto p (syscallHandler p esp))
    else .blocked
  | .run p o => match x.ctl p with
    | some c => x.op p o c
    | none => .blocked

def osStep (x : Os) (e : Ev) : Option Os :=
  match osAct x e with
  | .ok y => some y
  | _ => none

/-- Whether the outcome of the event is not defined. -/
def wild (x : Os) (e : Ev) : Bool :=
  match osAct x e with
  | .wild => true
  | _ => false

end Pintos.Syscall
