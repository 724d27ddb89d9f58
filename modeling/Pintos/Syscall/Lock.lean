import Pintos.Vm.FrameTable
import Pintos.Syscall.Os

/- Who holds the lock of `syscall.c`.

   `Locked h' h c` reads the tree `c` from a state of the lock: started with the
   lock held (`h = true`) or not, every path of `c` that comes to its end does so
   with the lock in state `h'`, and no path ends the thread with the lock held. Two
   branches are left out, and they are the flaw: below the lock a pointer check
   that fails, and a string that is empty. With them, and with the accesses that
   kill the process, excluded by a condition on the steps, no run in which the kernel
   stays on its tracks comes to a state in which the lock belongs to a thread that is
   gone. -/
namespace Pintos.Syscall

open Vm (Byte Tid VmState wordSize physBase)
open Function

variable {α : Type} {b : Byte} {a : Nat} {c : Prog α} {h' h : Bool}

/-! Reading a tree. -/

def Locked {α : Type} (h' : Bool) : Bool → Prog α → Prop
  | h, .ret _ => h = h'
  | h, .exit => h = false
  | _, .wild => True
  | h, .assert _ k => Locked h' h k
  | h, .invalid _ k => Locked h' h (k false) ∧ (h = false → Locked h' h (k true))
  | h, .load _ k => ∀ b, Locked h' h (k b)
  | h, .store _ _ k => Locked h' h k
  | h, .string _ k => ∀ s, (h = true → s ≠ []) → Locked h' h (k s)
  | h, .acquire k => h = false → Locked h' true k
  | h, .release k => h = true → Locked h' false k
  | h, .diskAcquire k => Locked h' h k
  | h, .diskRelease k => Locked h' h k
  | h, .getc k => ∀ b, Locked h' h (k b)
  | h, .putc _ k => Locked h' h k
  | h, .files k => ∀ fs, Locked h' h (k fs)
  | h, .update _ k => ∀ n, Locked h' h (k n)
  | h, .mmap _ _ k => ∀ r, Locked h' h (k r)
  | h, .munmap _ k => Locked h' h k
  | h, .execute _ k => ∀ r, Locked h' h (k r)
  | h, .wait _ k => ∀ r, Locked h' h (k r)

theorem Locked.bind {β : Type} (m : Bool) {g : α → Prog β} (hc : Locked m h c)
    (hg : ∀ a, Locked h' m (g a)) : Locked h' h (c >>= g) := by
  show Locked h' h (c.bind g)
  induction c generalizing h with
  | ret a => cases hc; exact hg a
  | exit => exact hc
  | wild => trivial
  | invalid a k ih => exact ⟨ih false hc.1, fun hh => ih true (hc.2 hh)⟩
  | string a k ih => exact fun s hs => ih s (hc s hs)
  | acquire k ih => exact fun hh => ih (hc hh)
  | release k ih => exact fun hh => ih (hc hh)
  | assert _ k ih | store _ _ k ih | diskAcquire k ih | diskRelease k ih | putc _ k ih
  | munmap _ k ih => exact ih hc
  | load _ k ih | getc k ih | files k ih | update _ k ih | mmap _ _ k ih | execute _ k ih
  | wait _ k ih => exact fun r => ih r (hc r)

/-- The tree has nothing to do with the lock. -/
def Neutral {α : Type} (c : Prog α) : Prop := ∀ h, Locked h h c

theorem Neutral.bind {β : Type} {g : α → Prog β} (hc : Neutral c) (hg : ∀ a, Neutral (g a)) :
    Neutral (c >>= g) :=
  fun h => (hc h).bind h fun a => hg a h

theorem Neutral.ret (a : α) : Neutral (.ret a) := fun _ => rfl

theorem Neutral.map {β : Type} {f : α → β} (hc : Neutral c) : Neutral (f <$> c) :=
  hc.bind fun a => .ret (f a)

theorem neutral_loadWord (a : Nat) : Neutral (loadWord a) := fun _ _ _ _ _ => rfl

theorem neutral_sector : Neutral sector := fun _ => rfl

theorem neutral_storeBytes : ∀ (bs : List Byte) (a : Nat), Neutral (storeBytes a bs)
  | [], _ => .ret ()
  | _ :: bs, a => neutral_storeBytes bs (ptr a 1)

theorem neutral_loadBytes : ∀ (n a : Nat), Neutral (loadBytes a n)
  | 0, _ => .ret []
  | n + 1, a => fun h _ => ((neutral_loadBytes n (ptr a 1)).bind fun _ => .ret _) h

theorem neutral_strcmp : ∀ (cs : List Byte) (a : Nat), Neutral (strcmp a cs)
  | [], _ => fun _ _ => rfl
  | c :: cs, a => fun h b => by
    show Locked h h (if b = c then strcmp (ptr a 1) cs else .ret false)
    split
    · exact neutral_strcmp cs (ptr a 1) h
    · rfl

theorem neutral_lookupFrom (a : Nat) : ∀ (es : List DirEntry) (slot : Nat),
    Neutral (lookupFrom a slot es)
  | [], _ => .ret none
  | e :: es, slot => by
    have hrest := neutral_lookupFrom a es (slot + 1)
    rw [lookupFrom]
    split
    · refine (neutral_strcmp e.name a).bind fun b => ?_
      split
      · exact .ret _
      · exact hrest
    · exact hrest

theorem neutral_lookup (a : Nat) : Neutral (lookup a) :=
  neutral_sector.bind fun _ _ fs => neutral_lookupFrom a fs.dir 0 _

theorem neutral_readLoop (i buffer : Nat) : ∀ turns size offset bytesRead : Nat,
    Neutral (readLoop i buffer turns size offset bytesRead)
  | 0, _, _, bytesRead => .ret bytesRead
  | turns + 1, size, offset, bytesRead => by
    intro h fs
    have hloop := neutral_readLoop i buffer turns
    dsimp only
    split
    · rfl
    · split
      · refine Locked.bind h ?_ fun _ => hloop _ _ _ h
        show Locked h h (storeBytes _ _ >>= fun _ => .diskRelease (.ret ()))
        exact (neutral_storeBytes _ _ h).bind h fun _ => rfl
      · exact (neutral_sector h).bind h fun _ => Locked.bind h (neutral_storeBytes _ _ h) fun _ =>
          hloop _ _ _ h

theorem neutral_writeLoop (i buffer : Nat) : ∀ turns size offset bytesWritten : Nat,
    Neutral (writeLoop i buffer turns size offset bytesWritten)
  | 0, _, _, bytesWritten => .ret bytesWritten
  | turns + 1, size, offset, bytesWritten => by
    intro h fs
    have hloop := neutral_writeLoop i buffer turns
    dsimp only
    split
    · rfl
    · split
      · refine Locked.bind h ?_ fun _ => hloop _ _ _ h
        show Locked h h (loadBytes _ _ >>= fun bs =>
          .modify (fun fs => some (writeBytes fs i offset bs)) (.diskRelease (.ret ())))
        exact (neutral_loadBytes _ _ h).bind h fun _ _ => rfl
      · refine (neutral_sector h).bind h fun _ => Locked.bind h ?_ fun _ => hloop _ _ _ h
        show Locked h h (loadBytes _ _ >>= fun bs =>
          .modify (fun fs => some (writeBytes fs i offset bs)) sector)
        exact (neutral_loadBytes _ _ h).bind h fun _ _ => rfl

theorem neutral_fileRead (p : Tid) (f : OpenFile) (buffer : Nat) (size : Int) :
    Neutral (fileRead p f buffer size) :=
  (neutral_readLoop _ _ _ _ _ _).bind fun _ _ _ => rfl

theorem neutral_fileWrite (p : Tid) (f : OpenFile) (buffer : Nat) (size : Int) :
    Neutral (fileWrite p f buffer size) := by
  intro h fs
  dsimp only
  split
  · exact (neutral_writeLoop _ _ _ _ _ _ h).bind h fun _ _ => rfl
  · exact fun _ => rfl

theorem neutral_putbuf : ∀ (n buffer : Nat), Neutral (putbuf buffer n)
  | 0, _ => .ret ()
  | n + 1, buffer => fun h _ => neutral_putbuf n (ptr buffer 1) h

theorem neutral_readKeys : ∀ (n buffer : Nat), Neutral (readKeys buffer n)
  | 0, _ => .ret ()
  | n + 1, buffer => fun h _ => neutral_readKeys n (ptr buffer 1) h

/-! The handlers. -/

theorem locked_loadWord {g : Nat → Prog α} (hg : ∀ w, Locked h' h (g w)) :
    Locked h' h (loadWord a >>= g) :=
  (neutral_loadWord a h).bind h hg

theorem locked_loadInt {g : Int → Prog α} (hg : ∀ w, Locked h' h (g w)) :
    Locked h' h ((toInt <$> loadWord a) >>= g) :=
  ((neutral_loadWord a).map h).bind h hg

theorem locked_check (hc : Locked h' false c) :
    Locked h' false (isInvalid a >>= fun r => if r then .exit else c) :=
  ⟨hc, fun _ => rfl⟩

theorem locked_handleExit (esp : Nat) : Locked false false (handleExit esp) :=
  locked_check (locked_loadWord fun _ => rfl)

theorem locked_handleWrite (p : Tid) (esp : Nat) : Locked false false (handleWrite p esp) := by
  refine locked_loadWord fun size => locked_loadWord fun buffer => locked_loadInt fun fd => ?_
  refine locked_check ?_
  split
  · exact (neutral_putbuf _ _ false).bind false fun _ => rfl
  · split
    · intro fs _
      dsimp only
      split
      · split
        · exact fun _ => rfl
        · exact (neutral_fileWrite _ _ _ _ true).bind true fun _ _ => rfl
      · exact fun _ => rfl
    · rfl

theorem locked_handleCreate (esp : Nat) : Locked false false (handleCreate esp) := by
  refine locked_check (locked_check ?_)
  refine locked_loadWord fun file => locked_loadWord fun initialSize => ?_
  refine fun _ => ⟨fun name hname => ?_, nofun⟩
  -- below the lock the string is not empty
  have hne : ¬ name.length = 0 := fun h0 => hname rfl (List.length_eq_zero_iff.mp h0)
  dsimp only
  rw [if_neg hne]
  intro name' _
  dsimp only
  split
  · exact fun _ => rfl
  · refine (neutral_lookup file true).bind true fun r => ?_
    split
    · exact fun _ _ => rfl
    · exact fun _ _ => rfl

theorem locked_handleOpen (p : Tid) (esp : Nat) : Locked false false (handleOpen p esp) := by
  refine locked_check (locked_loadWord fun file => locked_check fun _ => ?_)
  refine (neutral_lookup file true).bind true fun r => ?_
  split
  · exact fun _ _ => rfl
  · exact fun _ => rfl

theorem locked_handleRemove (esp : Nat) : Locked false false (handleRemove esp) := by
  refine locked_loadWord fun fileName _ => ?_
  refine (neutral_lookup fileName true).bind true fun r => ?_
  split
  · exact fun _ _ => rfl
  · exact fun _ => rfl

section
variable (p : Tid) (esp : Nat)
include p esp

theorem locked_handleClose : Locked false false (handleClose p esp) := by
  refine locked_loadInt fun fd fs => ?_
  dsimp only
  split
  · exact fun _ => rfl
  · rfl

theorem locked_handleRead : Locked false false (handleRead p esp) := by
  refine locked_loadInt fun fd => locked_loadWord fun buffer => locked_loadWord fun size => ?_
  refine locked_check (locked_check (locked_check fun _ => ?_))
  dsimp only
  split
  · exact (neutral_readKeys _ _ true).bind true fun _ _ => rfl
  · split
    · refine Locked.bind true (fun fs => ?_) fun _ _ => rfl
      dsimp only
      split
      · exact neutral_fileRead _ _ _ _ true
      · rfl
    · exact fun _ => rfl

theorem locked_handleFilesize : Locked false false (handleFilesize p esp) := by
  refine locked_loadInt fun fd => ?_
  split
  · intro fs
    dsimp only
    split <;> rfl
  · rfl

theorem locked_handleMmap : Locked false false (handleMmap p esp) := by
  refine locked_loadInt fun fd => locked_loadWord fun addr => ?_
  split
  · rfl
  · intro fs
    dsimp only
    split
    · intro _ r
      cases r <;> rfl
    · exact locked_loadWord fun _ => trivial

theorem locked_handler (n : SysNr) : Locked false false (handler p esp n) := by
  cases n with
  | halt => exact rfl
  | exit => exact locked_handleExit esp
  | exec =>
    exact locked_check (locked_loadWord fun _ => locked_check fun _ _ _ _ _ => rfl)
  | wait => exact locked_loadInt fun _ _ => rfl
  | create => exact locked_handleCreate esp
  | remove => exact locked_handleRemove esp
  | «open» => exact locked_handleOpen p esp
  | filesize => exact locked_handleFilesize p esp
  | read => exact locked_handleRead p esp
  | write => exact locked_handleWrite p esp
  | seek => exact locked_loadInt fun _ => locked_loadInt fun _ _ _ => rfl
  | tell =>
    refine locked_loadInt fun fd fs => ?_
    dsimp only
    split <;> rfl
  | close => exact locked_handleClose p esp
  | mmap => exact locked_handleMmap p esp
  | munmap => exact locked_loadInt fun _ => rfl

theorem locked_syscallHandler : Locked false false (syscallHandler p esp) := by
  refine locked_check (locked_loadWord fun nr => ?_)
  split
  · exact locked_handler p esp _
  · rfl

end

/-! Which threads are gone. -/

section
variable {s s' : VmState} {p : Tid}

theorem handleMunmap_exited {mapping : Int} (h : Vm.handleMunmap s p mapping = some s') :
    s'.exited = s.exited := by
  rcases Vm.handleMunmap_cases h with rfl | ⟨file, -, hun⟩
  · rfl
  · exact Vm.unmapFile_exited hun

theorem handleMmap_exited (s : VmState) (p : Tid) (ino addr : Nat) :
    (Vm.handleMmap s p ino addr).1.exited = s.exited := by
  rw [(Vm.handleMmap_spec s p ino addr).1]

theorem userStore_exited (h : Vm.userStore s p a b = some s') :
    s'.exited = s.exited := by
  obtain ⟨e, -, -, -, rfl⟩ := Vm.userStore_some h
  rfl

/-- Outside of system calls, only a fault that is not handled ends a process. -/
theorem outside_exited {e : Vm.Event} (h : Vm.step s e = some s') (hout : outside e = true)
    (hends : (raised s e && e.ends s) = false) : s'.exited = s.exited := by
  obtain hsame | ⟨hend, -⟩ := Vm.step_exited h
  · exact hsame
  · cases e with
    | exit => cases hout
    | fault q addr esp write ptOk =>
      have hfault : Vm.faults s q addr write = true := by
        unfold Vm.step at h
        split at h
        · simp only [Vm.Event.apply] at h
          split at h
          · next hf => exact hf
          · cases h
        · cases h
      rw [hend, raised, hfault] at hends
      cases hends
    | _ => cases hend

end

/-! The invariant. -/

structure LockInv (x : Os) : Prop where
  busy : ∀ p c, x.ctl p = some c → Locked false (decide (x.lock = some p)) c
  idle : ∀ p, x.ctl p = none → x.lock ≠ some p
  live : ∀ p c, x.ctl p = some c → x.vm.exited p = false

section
variable {x y : Os} {p : Tid} {c : Prog Eax}

/-- Only the process `p` has moved. -/
theorem LockInv.moved (h : LockInv x) {d : Option (Prog Eax)} (hctl : y.ctl = update x.ctl p d)
    (hlock : ∀ q ≠ p, y.lock = some q ↔ x.lock = some q)
    (hex : ∀ q ≠ p, y.vm.exited q = x.vm.exited q)
    (hbusy : ∀ k, d = some k → Locked false (decide (y.lock = some p)) k ∧ y.vm.exited p = false)
    (hidle : d = none → y.lock ≠ some p) : LockInv y := by
  have hown : y.ctl p = d := by rw [hctl, update_self]
  have hothers : ∀ q ≠ p, y.ctl q = x.ctl q := fun q hq => by rw [hctl, update_of_ne hq]
  refine ⟨fun q c hc => ?_, fun q hc => ?_, fun q c hc => ?_⟩
  · by_cases hqp : q = p
    · subst hqp
      exact (hbusy c (hown.symm.trans hc)).1
    · rw [decide_eq_decide.mpr (hlock q hqp)]
      exact h.busy q c ((hothers q hqp).symm.trans hc)
  · by_cases hqp : q = p
    · subst hqp
      exact hidle (hown.symm.trans hc)
    · rw [ne_eq, hlock q hqp]
      exact h.idle q ((hothers q hqp).symm.trans hc)
  · by_cases hqp : q = p
    · subst hqp
      exact (hbusy c (hown.symm.trans hc)).2
    · rw [hex q hqp]
      exact h.live q c ((hothers q hqp).symm.trans hc)

theorem LockInv.goto (h : LockInv x) {k : Prog Eax} (hc : x.ctl p = some c) (hctl : y.ctl = x.ctl)
    (hlock : y.lock = x.lock) (hex : y.vm.exited = x.vm.exited)
    (hk : Locked false (decide (x.lock = some p)) k) : LockInv (y.goto p k) := by
  refine h.moved (p := p) (d := some k) (by rw [← hctl]; rfl) (fun q _ => ?_) (fun q _ => ?_)
    (fun k' hk' => ?_) nofun
  · rw [← hlock]; rfl
  · rw [← hex]; rfl
  · cases hk'
    exact ⟨hlock ▸ hk, (congrFun hex p).trans (h.live p c hc)⟩

theorem die_ok (h : x.die p = .ok y) : y.lock = x.lock ∧ y.ctl = update x.ctl p none ∧
    y.vm.exited = update x.vm.exited p true := by
  unfold Os.die at h
  split at h
  · cases h
  · split at h
    · cases h
    · next vm hvm =>
      split at h
      · cases h
      · cases h
        refine ⟨rfl, rfl, ?_⟩
        show vm.exited = _
        exact Vm.processExit_exited hvm

theorem LockInv.die (h : LockInv x) (hno : x.lock ≠ some p) (hd : x.die p = .ok y) : LockInv y := by
  obtain ⟨hlock, hctl, hex⟩ := die_ok hd
  refine h.moved hctl (fun q _ => by rw [hlock]) (fun q hq => ?_) nofun fun _ => hlock ▸ hno
  rw [hex, update_of_ne hq]

/-! Accesses. -/

/-- An access changes the memory only, and ends no process. -/
structure Paged (x y : Os) : Prop where
  rest : y = { x with vm := y.vm }
  exited : y.vm.exited = x.vm.exited

theorem Paged.refl (x : Os) : Paged x x := ⟨rfl, rfl⟩

theorem Paged.trans {z : Os} (h : Paged x y) (h' : Paged y z) : Paged x z :=
  ⟨by rw [h'.rest, h.rest], h'.exited.trans h.exited⟩

theorem Paged.lock (h : Paged x y) : y.lock = x.lock := by rw [h.rest]

theorem Paged.ctl (h : Paged x y) : y.ctl = x.ctl := by rw [h.rest]

/-- The access does not kill the process: the address is the kernel's own, or its
    page is there, or `page_fault` can bring it in. -/
def Granted (x : Os) (p : Tid) (o : Oracle) (a : Nat) (write : Bool) : Prop :=
  if a < physBase then Vm.faults x.vm p a write = true → Vm.killed x.vm p a o.esp = false
  else a < physBase + x.ramSize

variable {o : Oracle} {a : Nat} {w : Bool} {u : Unit}

theorem touch_ok (h : x.touch p o a w = .ok y u) : Paged x y := by
  unfold Os.touch at h
  split at h
  · split at h
    · split at h
      · cases h
      · next hkill =>
        split at h
        · cases h
        · split at h
          · next vm hvm =>
            cases h
            rcases Vm.pageFault_cases hvm with ⟨-, halloc⟩ | ⟨hk, -⟩
            · exact ⟨rfl, (Vm.Alloc.rest halloc).exited⟩
            · exact absurd hk hkill
          · cases h
    · cases h; exact .refl x
  · split at h
    · split at h
      · cases h
      · cases h; exact .refl x
    · cases h

theorem touch_killed (h : x.touch p o a w = .killed y) : y = x ∧ ¬ Granted x p o a w := by
  unfold Os.touch at h
  unfold Granted
  split at h
  · next hu =>
    rw [if_pos hu]
    split at h
    · next hf =>
      split at h
      · next hk =>
        cases h
        exact ⟨rfl, fun hg => by rw [hg hf] at hk; cases hk⟩
      · split at h
        · cases h
        · split at h <;> cases h
    · cases h
  · next hu =>
    rw [if_neg hu]
    split at h
    · split at h <;> cases h
    · next hram => cases h; exact ⟨rfl, hram⟩

theorem load_ok (h : x.load p o a = .ok y b) : Paged x y := by
  unfold Os.load at h
  split at h
  · next z u hz =>
    have hp := touch_ok hz
    split at h
    · split at h
      · cases h; exact hp
      · cases h
    · cases h; exact hp
  all_goals cases h

theorem load_killed (h : x.load p o a = .killed y) : y = x ∧ ¬ Granted x p o a false := by
  unfold Os.load at h
  split at h
  · split at h
    · split at h <;> cases h
    · cases h
  · next z hz => cases h; exact touch_killed hz
  all_goals cases h

theorem store_ok (h : x.store p o a b = .ok y u) : Paged x y := by
  unfold Os.store at h
  split at h
  · next z v hz =>
    split at h
    · next vm hvm =>
      cases h
      have hp := touch_ok hz
      exact ⟨by rw [hp.rest], (userStore_exited hvm).trans hp.exited⟩
    · cases h
  all_goals cases h

theorem store_killed (h : x.store p o a b = .killed y) :
    y = x ∧ ¬ Granted x p o a true := by
  unfold Os.store at h
  split at h
  · split at h <;> cases h
  · next z hz => cases h; exact touch_killed hz
  all_goals cases h

theorem string_paged : ∀ (n : Nat) {x : Os} {a : Nat},
    (∀ y bs, Os.string p o n x a = .ok y bs → Paged x y) ∧
    ∀ y, Os.string p o n x a = .killed y → Paged x y
  | 0, x, a => ⟨nofun, fun y h => by cases h; exact .refl x⟩
  | n + 1, x, a => by
    rw [Os.string]
    cases hl : x.load p o a with
    | ok z b =>
      have hp := load_ok hl
      have ih := string_paged n (x := z) (a := ptr a 1)
      dsimp only
      split
      · exact ⟨fun y bs h => by cases h; exact hp, nofun⟩
      · cases hs : Os.string p o n z (ptr a 1) with
        | ok w bs => exact ⟨fun y _ h => by cases h; exact hp.trans (ih.1 _ _ hs), nofun⟩
        | killed w => exact ⟨nofun, fun y h => by cases h; exact hp.trans (ih.2 _ hs)⟩
        | panic => exact ⟨nofun, nofun⟩
        | wild => exact ⟨nofun, nofun⟩
    | killed z =>
      obtain ⟨rfl, -⟩ := load_killed hl
      exact ⟨nofun, fun y h => by cases h; exact .refl _⟩
    | panic => exact ⟨nofun, nofun⟩
    | wild => exact ⟨nofun, nofun⟩

/-- The bytes `s` and a NUL are at `a`, in pages that are resident. -/
def StringAt (x : Os) (p : Tid) : Nat → List Byte → Prop
  | a, [] => a < physBase ∧ Vm.userLoad x.vm p a = some 0
  | a, b :: bs => a < physBase ∧ Vm.userLoad x.vm p a = some b ∧ b ≠ 0 ∧ StringAt x p (ptr a 1) bs

theorem load_resident (ha : a < physBase) (hb : Vm.userLoad x.vm p a = some b) :
    x.load p o a = .ok x b := by
  have hno : Vm.faults x.vm p a false = false := by
    obtain ⟨k, hk, -⟩ := Option.map_eq_some_iff.mp hb
    obtain ⟨e, he, hp, -⟩ := Vm.getPage_eq_some.mp hk
    simp [Vm.faults, he, hp]
  simp [Os.load, Os.touch, ha, hno, hb]

theorem string_resident : ∀ (s : List Byte) (n : Nat) {a : Nat}, StringAt x p a s → s.length < n →
    Os.string p o n x a = .ok x s
  | [], n + 1, a, h, _ => by simp [Os.string, load_resident h.1 h.2]
  | b :: bs, n + 1, a, h, hn => by
    obtain ⟨ha, hb, hne, hs⟩ := h
    have ih := string_resident bs n hs (Nat.lt_of_succ_lt_succ hn)
    simp [Os.string, load_resident ha hb, hne, ih]

/-! One action. -/

/-- What is asked of a step of a process that holds the lock, by the node it is at:
    the page that is checked is resident, the string is not empty and in resident
    pages, and the access does not kill the process. -/
def LockCalm (x : Os) : Ev → Prop
  | .run p o => x.lock = some p → match x.ctl p with
    | some (.invalid a _) => x.invalid p a = false
    | some (.string a _) => ∃ s, s ≠ [] ∧ s.length < wordSize ∧ StringAt x p a s
    | some (.load a _) => Granted x p o a false
    | some (.store a _ _) => Granted x p o a true
    | _ => True
  | _ => True

theorem LockInv.paged (h : LockInv x) (hp : Paged x y) : LockInv y := by
  refine ⟨fun q d hd => ?_, fun q hq => ?_, fun q d hd => ?_⟩
  · rw [hp.lock]; exact h.busy q d (hp.ctl ▸ hd)
  · rw [hp.lock]; exact h.idle q (hp.ctl ▸ hq)
  · rw [hp.exited]; exact h.live q d (hp.ctl ▸ hd)

theorem LockInv.andThen (h : LockInv x) (hc : x.ctl p = some c) {r : Access α} {k : α → Prog Eax}
    (hok : ∀ z a, r = .ok z a → Paged x z)
    (hkill : ∀ z, r = .killed z → Paged x z ∧ x.lock ≠ some p)
    (hk : ∀ z a, r = .ok z a → Locked false (decide (x.lock = some p)) (k a))
    (hy : r.andThen p k = .ok y) : LockInv y := by
  cases r with
  | ok z a =>
    cases hy
    have hp := hok z a rfl
    exact h.goto hc hp.ctl hp.lock hp.exited (hk z a rfl)
  | killed z =>
    obtain ⟨hp, hno⟩ := hkill z rfl
    exact (h.paged hp).die (hp.lock ▸ hno) hy
  | panic => cases hy
  | wild => cases hy

theorem LockInv.op (h : LockInv x) (hc : x.ctl p = some c) (hcalm : LockCalm x (.run p o))
    (hy : x.op p o c = .ok y) : LockInv y := by
  have hl := h.busy p c hc
  -- steps that keep the lock and the memory
  have hnext : ∀ {z : Os} {k : Prog Eax}, Outcome.ok (z.goto p k) = .ok y → z.ctl = x.ctl →
      z.lock = x.lock → z.vm.exited = x.vm.exited → Locked false (decide (x.lock = some p)) k →
      LockInv y := by
    intro z k heq hctl hlock hex hk
    exact Outcome.ok.inj heq ▸ h.goto hc hctl hlock hex hk
  have hcalm' : x.lock = some p → _ := hcalm
  rw [hc] at hcalm'
  cases c with
  | ret r =>
    have hno : x.lock ≠ some p := by simpa [Locked] using hl
    cases hy
    exact h.moved (p := p) rfl (fun _ _ => Iff.rfl) (fun _ _ => rfl) nofun fun _ => hno
  | exit => exact h.die (by simpa [Locked] using hl) hy
  | wild => cases hy
  | assert ok k =>
    simp only [Os.op] at hy
    split at hy
    · exact hnext hy rfl rfl rfl hl
    · cases hy
  | invalid a k =>
    refine hnext hy rfl rfl rfl ?_
    cases hv : x.invalid p a with
    | false => exact hl.1
    | true =>
      refine hl.2 (decide_eq_false fun hlock => ?_)
      have hfalse : x.invalid p a = false := hcalm' hlock
      rw [hv] at hfalse
      cases hfalse
  | load a k =>
    refine h.andThen hc (fun z b hz => load_ok hz) (fun z hz => ?_) (fun z b _ => hl b) hy
    obtain ⟨rfl, hno⟩ := load_killed hz
    exact ⟨.refl _, fun hlock => hno (hcalm' hlock)⟩
  | store a b k =>
    refine h.andThen (k := fun _ => k) hc (fun z _ hz => store_ok hz) (fun z hz => ?_)
      (fun z _ _ => hl) hy
    obtain ⟨rfl, hno⟩ := store_killed hz
    exact ⟨.refl _, fun hlock => hno (hcalm' hlock)⟩
  | string a k =>
    refine h.andThen hc (fun z s hz => (string_paged _).1 z s hz) (fun z hz => ?_)
      (fun z s hz => hl s fun hlock => ?_) hy
    · refine ⟨(string_paged _).2 z hz, fun hlock => ?_⟩
      obtain ⟨s, -, hlen, hs⟩ := hcalm' hlock
      rw [string_resident s wordSize hs hlen] at hz
      cases hz
    · obtain ⟨s', hne, hlen, hs⟩ := hcalm' (of_decide_eq_true hlock)
      rw [string_resident s' wordSize hs hlen] at hz
      cases hz
      exact hne
  | acquire k =>
    simp only [Os.op] at hy
    split at hy
    · next hnone =>
      cases hy
      have hother : ∀ q, x.lock ≠ some q := fun q hq => by rw [hnone] at hq; cases hq
      have hk : Locked false true k := hl (decide_eq_false (hother p))
      refine h.moved (p := p) rfl (fun q hq => ?_) (fun _ _ => rfl) (fun k' hk' => ?_) nofun
      · simp [Os.goto, hother q, Ne.symm hq]
      · cases hk'
        exact ⟨by simpa [Os.goto] using hk, h.live p _ hc⟩
    · split at hy <;> cases hy
  | release k =>
    simp only [Os.op] at hy
    split at hy
    · next hheld =>
      cases hy
      have hk : Locked false false k := hl (decide_eq_true hheld)
      refine h.moved (p := p) rfl (fun q hq => ?_) (fun _ _ => rfl) (fun k' hk' => ?_) nofun
      · simp [Os.goto, hheld, Ne.symm hq]
      · cases hk'
        exact ⟨by simpa [Os.goto] using hk, h.live p _ hc⟩
    · cases hy
  | diskAcquire k =>
    simp only [Os.op] at hy
    split at hy
    · exact hnext hy rfl rfl rfl hl
    · split at hy <;> cases hy
  | diskRelease k =>
    simp only [Os.op] at hy
    split at hy
    · exact hnext hy rfl rfl rfl hl
    · cases hy
  | getc k => exact hnext hy rfl rfl rfl (hl _)
  | putc b k => exact hnext hy rfl rfl rfl hl
  | files k => exact hnext hy rfl rfl rfl (hl _)
  | update f k =>
    simp only [Os.op] at hy
    split at hy
    · exact hnext hy rfl rfl rfl (hl _)
    · cases hy
  | mmap i a k =>
    exact hnext hy rfl rfl (handleMmap_exited x.vm p i a) (hl _)
  | munmap m k =>
    simp only [Os.op] at hy
    split at hy
    · next vm hvm => exact hnext hy rfl rfl (handleMunmap_exited hvm) hl
    · cases hy
  | execute line k =>
    simp only [Os.op] at hy
    split at hy
    · split at hy
      · exact hnext hy rfl rfl rfl (hl _)
      · cases hy
    · cases hy
  | wait pid k => exact hnext hy rfl rfl rfl (hl _)

/-! All runs. -/

theorem osStep_eq_some {e : Ev} : osStep x e = some y ↔ osAct x e = .ok y := by
  rw [osStep]
  cases osAct x e <;> simp

theorem LockInv.step (h : LockInv x) {e : Ev} (hcalm : LockCalm x e) (hs : osStep x e = some y) :
    LockInv y := by
  have hact := osStep_eq_some.mp hs
  cases e with
  | vm e =>
    simp only [osAct] at hact
    split at hact
    · next hen =>
      obtain ⟨-, hidle, hout⟩ := hen
      split at hact
      · exact h.die (h.idle _ (Option.isNone_iff_eq_none.mp hidle)) hact
      · next hends =>
        split at hact
        · next vm hvm =>
          have hex := outside_exited hvm hout (Bool.not_eq_true _ ▸ hends)
          cases hact
          cases e with
          | exec q ino => exact ⟨h.busy, h.idle, fun q c hc => congrFun hex q ▸ h.live q c hc⟩
          | _ => exact ⟨h.busy, h.idle, fun q c hc => congrFun hex q ▸ h.live q c hc⟩
        · split at hact <;> cases hact
    · cases hact
  | call p esp =>
    simp only [osAct] at hact
    split at hact
    · next hen =>
      obtain ⟨hlive, -, hnone⟩ := hen
      cases hact
      have hno : x.lock ≠ some p := h.idle p (Option.isNone_iff_eq_none.mp hnone)
      refine h.moved (p := p) rfl (fun _ _ => Iff.rfl) (fun _ _ => rfl) (fun k hk => ?_) nofun
      cases hk
      exact ⟨by simpa [Os.goto, hno] using locked_syscallHandler p esp, hlive⟩
    · cases hact
  | run p o =>
    simp only [osAct] at hact
    split at hact
    · next c hc => exact h.op hc hcalm hact
    · cases hact

end

end Pintos.Syscall
