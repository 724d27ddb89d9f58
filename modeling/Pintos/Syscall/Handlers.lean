import Pintos.Vm.Machine
import Pintos.Syscall.Prog

/- The system call handlers of `userprog/syscall.c`, one definition each.

   A handler is given the process and the user's `esp`, and its result is what it
   puts into `eax`, or `none` where it leaves it alone. Arguments are read from the
   user stack as the source reads them: some before they are checked, some never
   checked. -/
namespace Pintos.Syscall

open Vm (Tid pgRoundDown)

/-- The system call numbers that are served. -/
inductive SysNr where
  | halt | exit | exec | wait | create | remove | open | filesize | read | write | seek | tell
  | close | mmap | munmap
  deriving DecidableEq

def SysNr.ofWord : Nat → Option SysNr
  | 0 => some .halt
  | 1 => some .exit
  | 2 => some .exec
  | 3 => some .wait
  | 4 => some .create
  | 5 => some .remove
  | 6 => some .open
  | 7 => some .filesize
  | 8 => some .read
  | 9 => some .write
  | 10 => some .seek
  | 11 => some .tell
  | 12 => some .close
  | 13 => some .mmap
  | 14 => some .munmap
  | _ => none

/-- What is left in `eax`. -/
abbrev Eax := Option Nat

def isInvalid (addr : Nat) : Prog Bool := .invalid addr .ret

/-- `handle_invalid` prints, notes the status and ends the thread. -/
def handleInvalid : Prog Eax := .exit

def handleHalt : Prog Eax := .exit

def handleExit (esp : Nat) : Prog Eax := do
  if ← isInvalid (ptr esp 4) then handleInvalid
  else
    let _ ← loadWord (ptr esp 4)
    .exit

def putbuf (buffer : Nat) : Nat → Prog Unit
  | 0 => .ret ()
  | n + 1 => .load (ptr buffer 0) fun b => .putc b (putbuf (ptr buffer 1) n)

def handleWrite (p : Tid) (esp : Nat) : Prog Eax := do
  let size ← loadWord (ptr esp 12)
  let buffer ← loadWord (ptr esp 8)
  let fd ← toInt <$> loadWord (ptr esp 4)
  if ← isInvalid buffer then handleInvalid
  else if fd = 1 then
    putbuf buffer size
    return none
  else if fd > 1 then
    .files fun fs => .acquire do
      let eax ← match findFileByFd fs p fd with
        | some f =>
          if f.denyWrite then pure minusOne else fileWrite p f buffer (toInt size)
        | none => pure minusOne
      .release (.ret (some eax))
  else return some minusOne

def handleCreate (esp : Nat) : Prog Eax := do
  if ← isInvalid (ptr esp 4) then handleInvalid
  else if ← isInvalid (ptr esp 8) then handleInvalid
  else
    let file ← loadWord (ptr esp 4)
    let initialSize ← loadWord (ptr esp 8)
    .acquire do
      if ← isInvalid file then handleInvalid
      else .string file fun name =>
        if name.length = 0 then handleInvalid
        else .string file fun name =>
          if name.length > 14 then .release (.ret (some 0))
          else do
            match ← lookup file with
            | some (_, e) =>
              -- the file that `filesys_open` opened is not closed
              .modify (fun fs => some (inodeOpen fs e.inodeSector)) (.release (.ret (some 0)))
            | none =>
              .update (fun fs => filesysCreate fs name (toInt initialSize)) fun result =>
                .release (.ret (some result))

def handleOpen (p : Tid) (esp : Nat) : Prog Eax := do
  if ← isInvalid (ptr esp 4) then handleInvalid
  else
    let file ← loadWord (ptr esp 4)
    if ← isInvalid file then handleInvalid
    else .acquire do
      match ← lookup file with
      | some (_, e) =>
        .update (fun fs => some (giveFileDescriptor fs p e.inodeSector)) fun fd =>
          .release (.ret (some fd))
      | none => .release (.ret (some minusOne))

/-- `dir_remove` asserts that the name is not null. -/
def handleRemove (esp : Nat) : Prog Eax := do
  let fileName ← loadWord (ptr esp 4)
  .acquire <| .assert (fileName ≠ 0) do
    match ← lookup fileName with
    | some (slot, _) => .modify (fun fs => dirRemove fs slot) (.release (.ret none))
    | none => .release (.ret none)

def handleClose (p : Tid) (esp : Nat) : Prog Eax := do
  let fd ← toInt <$> loadWord (ptr esp 4)
  .files fun fs => match findFileByFd fs p fd with
    | some f => .modify (fun fs => closeFd fs p f) (.ret none)
    | none => .exit

/-- The loop that reads the keyboard. -/
def readKeys (buffer : Nat) : Nat → Prog Unit
  | 0 => .ret ()
  | n + 1 => .getc fun b => .store (ptr buffer 0) b (readKeys (ptr buffer 1) n)

def handleRead (p : Tid) (esp : Nat) : Prog Eax := do
  let fd ← toInt <$> loadWord (ptr esp 4)
  let buffer ← loadWord (ptr esp 8)
  let size ← loadWord (ptr esp 12)
  if ← isInvalid (ptr esp 4) then handleInvalid
  else if ← isInvalid (ptr esp 8) then handleInvalid
  else if ← isInvalid (ptr esp 12) then handleInvalid
  else .acquire do
    let eax ←
      if fd = 0 then do
        readKeys buffer size
        pure size
      else if fd > 1 then
        .files fun fs => match findFileByFd fs p fd with
          | some f => fileRead p f buffer (toInt size)
          | none => pure minusOne
      else pure minusOne
    .release (.ret (some eax))

def handleFilesize (p : Tid) (esp : Nat) : Prog Eax := do
  let fd ← toInt <$> loadWord (ptr esp 4)
  if fd > 1 then
    .files fun fs => match findFileByFd fs p fd with
      | some f => .ret (some (fs.inodes f.inode).length)
      | none => .ret (some minusOne)
  else return some minusOne

/-- `process_execute` copies the command line and `thread_create` reads it once
    more, for the thread's name. -/
def handleExec (esp : Nat) : Prog Eax := do
  if ← isInvalid (ptr esp 4) then handleInvalid
  else
    let cmdLine ← loadWord (ptr esp 4)
    if ← isInvalid cmdLine then handleInvalid
    else .string cmdLine fun line => .string cmdLine fun _ =>
      .execute (line.take 4095) fun result => .ret (some (toWord result))

def handleWait (esp : Nat) : Prog Eax := do
  let pid ← toInt <$> loadWord (ptr esp 4)
  .wait pid fun result => .ret (some (toWord result))

/-- `file_seek` asserts that there is a file and that the position is not negative. -/
def handleSeek (p : Tid) (esp : Nat) : Prog Eax := do
  let fd ← toInt <$> loadWord (ptr esp 4)
  let position ← toInt <$> loadWord (ptr esp 8)
  .files fun fs => .assert (findFileByFd fs p fd).isSome <| .assert (0 ≤ position) <|
    .modify (fun fs => some (setPos fs p fd position.toNat)) (.ret none)

def handleTell (p : Tid) (esp : Nat) : Prog Eax := do
  let fd ← toInt <$> loadWord (ptr esp 4)
  .files fun fs => match findFileByFd fs p fd with
    | some f => .ret (some f.pos)
    | none => .assert false (.ret none)

/-- For an unknown descriptor `file_reopen` reads `inode` through a null pointer;
    the field is 28 bytes into `struct file`. -/
def handleMmap (p : Tid) (esp : Nat) : Prog Eax := do
  let fd ← toInt <$> loadWord (ptr esp 4)
  let addr ← loadWord (ptr esp 8)
  if fd < 2 ∨ addr = 0 ∨ pgRoundDown addr ≠ addr then return some minusOne
  else .files fun fs => match findFileByFd fs p fd with
    | some f =>
      .modify (fun fs => some (inodeOpen fs f.inode)) <| .mmap f.inode addr fun
        | some mapping => .ret (some (toWord mapping))
        | none => .ret (some minusOne)
    | none => do
      let _ ← loadWord 28
      .wild

def handleMunmap (esp : Nat) : Prog Eax := do
  let mapping ← toInt <$> loadWord (ptr esp 4)
  .munmap mapping (.ret none)

def handler (p : Tid) (esp : Nat) : SysNr → Prog Eax
  | .exit => handleExit esp
  | .write => handleWrite p esp
  | .halt => handleHalt
  | .create => handleCreate esp
  | .open => handleOpen p esp
  | .remove => handleRemove esp
  | .close => handleClose p esp
  | .read => handleRead p esp
  | .filesize => handleFilesize p esp
  | .exec => handleExec esp
  | .wait => handleWait esp
  | .seek => handleSeek p esp
  | .tell => handleTell p esp
  | .mmap => handleMmap p esp
  | .munmap => handleMunmap esp

/-- `syscall_handler`: a number it does not know is ignored. -/
def syscallHandler (p : Tid) (esp : Nat) : Prog Eax := do
  if ← isInvalid esp then handleInvalid
  else
    let nr ← loadWord esp
    match SysNr.ofWord nr with
    | some n => handler p esp n
    | none => return none

end Pintos.Syscall
