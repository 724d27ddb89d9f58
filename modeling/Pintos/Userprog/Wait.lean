import Pintos.Lib.Run

/- Exit statuses: `process_wait`, `thread_create`, `thread_exit`.

   A thread has a `struct thread_info`, made by its parent in `thread_create`: the
   child leaves its exit status there and ups `wait_sema`, the parent downs it,
   reads the status and frees the record. The two run in any interleaving. Each
   read or write of a record and each semaphore operation is an action of its own
   here; a record that is used after it was freed is the outcome `bad`.

   Correspondence (C ↔ Lean):
     `struct thread_info`, by pointer        ↔ `ThreadInfo`, by the `tid` it is for
     `child_info_list` of a thread           ↔ `childInfoList`
     `find_child_info_by_tid`                ↔ `findChildInfo`
     `process_wait`, place by place          ↔ `WaitPc`
     `handle_exec` after `process_execute`   ↔ `ExecPc`
     `handle_exit`, `handle_invalid` and the kill in `page_fault`, the failing end of
     `handle_close`, `handle_halt`, `kill` in `exception.c`
                                             ↔ `Act.exit`, `Act.kill`, `Act.close`, `Act.halt`,
                                               `Act.exception`
     `start_process` in `load`, and its ends ↔ `Pos.loading`, `Act.loaded`, `Act.loadFail`
     `thread_exit` after `process_exit`      ↔ the action at `Pos.exiting`
   `thread_exit` has interrupts off from before its first `sema_up` until the thread
   is gone, so the two `sema_up` calls are one action. A new thread is not run and
   its record not seen by others before `thread_unblock`, so `thread_create` is one
   action too. Tids are handed out in order from 1, the initial thread's, and there
   are fewer than 2^31 of them. `thread_create` also pushes the new `struct thread` on
   `child_list`, which nothing reads and from which a thread that is gone is never
   taken: that list, and what a push to it does to the page of such a thread, is not
   part of the model. Nor is a failing `malloc`. -/
namespace Pintos.Userprog

open Function

/-- `tid_t`. -/
abbrev Tid := Int

def mainTid : Tid := 1

/-- `exit_status` is `none` until it is written. -/
structure ThreadInfo where
  loadSuccess : Bool
  exitStatus : Option Int
  waitSema : Nat
  execSema : Nat
  isWaited : Bool
  isKilled : Bool
  deriving DecidableEq

/-- The record as `thread_create` makes it. -/
def newInfo : ThreadInfo := ⟨true, none, 0, 0, false, false⟩

/-- The next thing `process_wait` does. -/
inductive WaitPc where
  | find
  | remove
  | test
  | mark
  | down
  | read
  | free (status : Option Int)
  | ret (result : Option Int)
  deriving DecidableEq

/-- The next thing `handle_exec` does once the child is made. -/
inductive ExecPc where
  | find
  | down
  | read
  deriving DecidableEq

/-- Where a thread is. -/
inductive Pos where
  | unborn
  /-- In `start_process`, before `load` has returned. -/
  | loading
  | running
  | wait (c : Tid) (pc : WaitPc)
  | exec (c : Tid) (pc : ExecPc)
  /-- `is_killed` is written, `exit_status` is not. -/
  | killing
  /-- In `thread_exit`. -/
  | exiting
  | dead
  deriving DecidableEq

/-- What has happened, newest first. Nothing reads it. -/
inductive Entry where
  | created (p c : Tid)
  /-- The exit system call has written the status. -/
  | exits (c : Tid) (status : Int)
  /-- A call of `process_wait` has returned. -/
  | returned (p c : Tid) (result : Option Int)
  deriving DecidableEq

/-- A call of `handle_exec` that has returned, and how the child's load had ended
    by then. -/
structure ExecReturn where
  parent : Tid
  child : Tid
  result : Int
  load : Option Bool
  deriving DecidableEq

structure Kernel where
  nextTid : Tid
  /-- The records that are allocated. -/
  infos : Tid → Option ThreadInfo
  childInfoList : Tid → List Tid
  pos : Tid → Pos
  log : List Entry
  /-- How the load of a process has ended. Nothing reads it, nor what follows. -/
  loads : Tid → Option Bool
  /-- How often a thread has upped its `exec_sema`. -/
  execUps : Tid → Nat
  execLog : List ExecReturn

/-- An action is done, has to wait, or uses a record that is not there. -/
inductive Outcome where
  | ok (x : Kernel)
  | blocked
  | bad

def Kernel.goto (x : Kernel) (p : Tid) (pos : Pos) : Kernel :=
  { x with pos := update x.pos p pos }

def Kernel.setInfo (x : Kernel) (c : Tid) (i : Option ThreadInfo) : Kernel :=
  { x with infos := update x.infos c i }

def Kernel.note (x : Kernel) (e : Entry) : Kernel := { x with log := e :: x.log }

def Kernel.execReturn (x : Kernel) (p c : Tid) (result : Int) : Kernel :=
  { x with execLog := ⟨p, c, result, x.loads c⟩ :: x.execLog }.goto p .running

def Kernel.access (x : Kernel) (c : Tid) (f : ThreadInfo → Outcome) : Outcome :=
  match x.infos c with
  | some i => f i
  | none => .bad

/-- `find_child_info_by_tid`: the records of the list are read up to the one it
    looks for; `none` if one of them is not there. -/
def findChildInfo (infos : Tid → Option ThreadInfo) (c : Tid) : List Tid → Option Bool
  | [] => some false
  | a :: l => if (infos a).isNone then none else if a = c then some true else findChildInfo infos c l

def waitStep (x : Kernel) (p c : Tid) : WaitPc → Outcome
  | .find => match findChildInfo x.infos c (x.childInfoList p) with
    | some true => .ok (x.goto p (.wait c .remove))
    | some false => .ok (x.goto p (.wait c (.ret (some (-1)))))
    | none => .bad
  | .remove =>
    -- `list_remove` writes to the neighbours too
    if (x.childInfoList p).all fun a => (x.infos a).isSome then
      let l := (x.childInfoList p).erase c
      .ok ({ x with childInfoList := update x.childInfoList p l }.goto p (.wait c .test))
    else .bad
  | .test => x.access c fun i =>
      .ok (x.goto p (.wait c (if i.isWaited || i.isKilled then .ret (some (-1)) else .mark)))
  | .mark => x.access c fun i =>
      .ok ((x.setInfo c (some { i with isWaited := true })).goto p (.wait c .down))
  | .down => x.access c fun i =>
      if i.waitSema = 0 then .blocked
      else .ok ((x.setInfo c (some { i with waitSema := i.waitSema - 1 })).goto p (.wait c .read))
  | .read => x.access c fun i => .ok (x.goto p (.wait c (.free i.exitStatus)))
  | .free status => x.access c fun _ => .ok ((x.setInfo c none).goto p (.wait c (.ret status)))
  | .ret result => .ok ((x.note (.returned p c result)).goto p .running)

/-- The rest of `handle_exec`, one action. -/
def execStep (x : Kernel) (p c : Tid) : ExecPc → Outcome
  | .find => match findChildInfo x.infos c (x.childInfoList p) with
    | some true => .ok (x.goto p (.exec c .down))
    | some false => .ok (x.execReturn p c c)
    | none => .bad
  | .down => x.access c fun i =>
      if i.execSema = 0 then .blocked
      else .ok ((x.setInfo c (some { i with execSema := i.execSema - 1 })).goto p (.exec c .read))
  | .read => x.access c fun i => .ok (x.execReturn p c (if i.loadSuccess then c else -1))

/-- The next action of a thread that is in the kernel. -/
def go (x : Kernel) (p : Tid) : Outcome :=
  match x.pos p with
  | .wait c pc => waitStep x p c pc
  | .exec c pc => execStep x p c pc
  | .killing => x.access p fun i =>
      .ok ((x.setInfo p (some { i with exitStatus := some (-1) })).goto p .exiting)
  | .exiting => x.access p fun i =>
      .ok (({ x with execUps := update x.execUps p (x.execUps p + 1) }.setInfo p
        (some { i with execSema := i.execSema + 1, waitSema := i.waitSema + 1 })).goto p .dead)
  | .unborn | .loading | .running | .dead => .blocked

inductive Act where
  /-- `thread_create`, from `process_execute` in `handle_exec` or elsewhere. -/
  | create (p : Tid) (fromExec : Bool)
  | wait (p c : Tid)
  | exit (p : Tid) (status : Int)
  | kill (p : Tid)
  | close (p : Tid)
  | halt (p : Tid)
  /-- A CPU exception other than a page fault, in user mode. -/
  | exception (p : Tid)
  | loaded (p : Tid)
  | loadFail (p : Tid)
  | go (p : Tid)
  deriving DecidableEq

def Act.tid : Act → Tid
  | .create p _ | .wait p _ | .exit p _ | .kill p | .close p | .halt p | .exception p | .loaded p
  | .loadFail p | .go p => p

def create (x : Kernel) (p : Tid) (pos : Tid → Pos) : Kernel :=
  let c := x.nextTid
  { x with
    nextTid := c + 1
    infos := update x.infos c (some newInfo)
    childInfoList := update x.childInfoList p (x.childInfoList p ++ [c])
    pos := update (update x.pos p (pos c)) c .loading
    log := .created p c :: x.log }

/-- What an action does. The initial thread runs no user program, so it does not
    exit through a system call. -/
def act (x : Kernel) : Act → Outcome
  | .go p => go x p
  | .create p fromExec =>
    if x.pos p = .running then
      .ok (create x p fun c => if fromExec then .exec c .find else .running)
    else .blocked
  | .wait p c => if x.pos p = .running then .ok (x.goto p (.wait c .find)) else .blocked
  | .exit p status =>
    if x.pos p = .running ∧ p ≠ mainTid then
      x.access p fun i =>
        .ok (((x.note (.exits p status)).setInfo p (some { i with exitStatus := some status })).goto
          p .exiting)
    else .blocked
  | .kill p =>
    if x.pos p = .running ∧ p ≠ mainTid then
      x.access p fun i => .ok ((x.setInfo p (some { i with isKilled := true })).goto p .killing)
    else .blocked
  | .close p =>
    if x.pos p = .running ∧ p ≠ mainTid then
      x.access p fun i =>
        .ok ((x.setInfo p (some { i with exitStatus := some (-1) })).goto p .exiting)
    else .blocked
  | .halt p => if x.pos p = .running ∧ p ≠ mainTid then .ok (x.goto p .exiting) else .blocked
  | .exception p => if x.pos p = .running ∧ p ≠ mainTid then .ok (x.goto p .exiting) else .blocked
  | .loaded p =>
    if x.pos p = .loading ∧ p ≠ mainTid then
      .ok ({ x with loads := update x.loads p (some true) }.goto p .running)
    else .blocked
  | .loadFail p =>
    if x.pos p = .loading ∧ p ≠ mainTid then
      x.access p fun i =>
        .ok (({ x with loads := update x.loads p (some false) }.setInfo p
          (some { i with loadSuccess := false })).goto p .exiting)
    else .blocked

def kernelStep (x : Kernel) (a : Act) : Option Kernel :=
  match act x a with
  | .ok y => some y
  | .blocked | .bad => none

/-- After `thread_init`: only the initial thread. -/
def kernelBoot : Kernel where
  nextTid := mainTid + 1
  infos := fun _ => none
  childInfoList := fun _ => []
  pos := update (fun _ => .unborn) mainTid .running
  log := []
  loads := fun _ => none
  execUps := fun _ => 0
  execLog := []

end Pintos.Userprog
