import Mathlib.Algebra.Group.Nat.Defs
import Mathlib.Algebra.Group.Int.Defs
import Pintos.Kernel.List
import Pintos.Lib.Run
import Pintos.Vm.State

/- File descriptors, in `userprog/syscall.c`.

   A `struct file` is an address. It is on the `file_list` of the process that opened it
   through its `elem_for_thread`, and has its descriptor in its field `fd`. The descriptor of
   a new file is that of the last file of the list plus one. What is written to files that
   are not open, or to memory that is no longer a file, may look like anything (`write`).

   Correspondence (C ↔ Lean):
     `thread_current()->file_list`                   ↔ the list of `links`, by the process
     `give_file_descriptor`, `find_file_by_fd`       ↔ `giveFileDescriptor`, `findFileByFd`
     `handle_open` from `filesys_open` on            ↔ `handleOpen`
     `handle_close`                                  ↔ `handleClose`
   What `process_exit` does to the `file_list` of the process that ends is left out: no other
   list is concerned. Walks count down from the number of calls and have no outcome at 0. -/
namespace Pintos.Syscall.Descriptors

open Vm (Tid wordSize)
open Lib Kernel Function

/-- The last three are not in the source: which processes there are, how many calls of `open`
    and `close` they have made, and for which descriptors `open` has returned a file that has
    not been closed since. -/
structure Files where
  links : Links Tid Nat
  fd : Nat → Int
  alive : Tid → Bool
  calls : Tid → Nat
  opened : Tid → Int → Option Nat

abbrev FilesM := Cmd Files

def onFileList {α : Type} (m : ListM Tid Nat α) : FilesM α :=
  zoom Files.links (fun L s => { s with links := L }) m

def setFd (file : Nat) (fd : Int) : FilesM Unit :=
  modify fun s => { s with fd := update s.fd file fd }

def countCall (p : Tid) : FilesM Unit :=
  modify fun s => { s with calls := update s.calls p (s.calls p + 1) }

def setOpened (p : Tid) (fd : Int) (file : Option Nat) : FilesM Unit :=
  modify fun s =>
    { s with opened := update s.opened p (update (s.opened p) fd file) }

def giveFileDescriptor (p : Tid) (file : Nat) : FilesM Int := do
  (if listEmpty (← get).links p then do
    setFd file 2
    onFileList (listPushBack p file)
  else do
    let back ← onFileList (do listEntry (← listBack p))
    setFd file (((← get).fd back + 1).bmod wordSize)
    onFileList (listPushBack p file))
  return (← get).fd file

def findFrom (p : Tid) (fd : Int) : (fuel : Nat) → Node Tid Nat → FilesM (Option Nat)
  | 0, _ => follow none
  | fuel + 1, n =>
    if n = .tail p then return none
    else do
      let f ← onFileList (listEntry n)
      if (← get).fd f = fd then return some f
      else do findFrom p fd fuel (← onFileList (listNext n))

def findFileByFd (p : Tid) (fd : Int) : FilesM (Option Nat) := do
  findFrom p fd ((← get).calls p + 1) (← onFileList (listBegin p))

/-- `file` is what `filesys_open` has returned. -/
def handleOpen (p : Tid) (file : Option Nat) : FilesM Int := do
  countCall p
  match file with
  | none => return -1
  | some f => do
    let fd ← giveFileDescriptor p f
    setOpened p fd (some f)
    return fd

def threadExit (p : Tid) : FilesM Unit :=
  modify fun s => { s with
    alive := update s.alive p false
    opened := update s.opened p fun _ => none }

/-- The loop of `handle_close`; whether it has found the file. -/
def closeFrom (p : Tid) (fd : Int) : (fuel : Nat) → Node Tid Nat → FilesM Bool
  | 0, _ => follow none
  | fuel + 1, n =>
    if n = .tail p then return false
    else do
      let f ← onFileList (listEntry n)
      if (← get).fd f = fd then do
        let _ ← onFileList (listRemove n)
        return true
      else do closeFrom p fd fuel (← onFileList (listNext n))

/-- A process that closes what is not open ends. -/
def handleClose (p : Tid) (fd : Int) : FilesM Bool := do
  countCall p
  let found ← closeFrom p fd ((← get).calls p + 1) (← onFileList (listBegin p))
  (if found then setOpened p fd none else threadExit p)
  return found

inductive FileEvent where
  | start (p : Tid)
  | openFile (p : Tid) (file : Option Nat)
  | closeFile (p : Tid) (fd : Int)
  | exit (p : Tid)
  | write (links : Links Tid Nat) (fd : Nat → Int)

def startProcess (p : Tid) : FilesM Unit := do
  onFileList (listInit p)
  modify fun s => { s with
    alive := update s.alive p true
    calls := update s.calls p 0
    opened := update s.opened p fun _ => none }

def Files.step (s : Files) : FileEvent → Option Files
  | .start p => (startProcess p s).map Prod.snd
  | .openFile p file => (handleOpen p file s).map Prod.snd
  | .closeFile p fd => (handleClose p fd s).map Prod.snd
  | .exit p => (threadExit p s).map Prod.snd
  | .write links fd => some { s with links := links, fd := fd }

/-- The file is not open. -/
def Unused (s : Files) (f : Nat) : Prop := ∀ p fd, s.opened p fd ≠ some f

/-- What is written is not a `file_list`. -/
structure Elsewhere (s : Files) (links : Links Tid Nat) (fd : Nat → Int) : Prop where
  head : ∀ p, s.alive p = true → links.next (.head p) = s.links.next (.head p) ∧
    links.prev (.head p) = s.links.prev (.head p)
  tail : ∀ p, s.alive p = true → links.next (.tail p) = s.links.next (.tail p) ∧
    links.prev (.tail p) = s.links.prev (.tail p)
  elem : ∀ f, ¬Unused s f → fd f = s.fd f ∧ links.next (.elem f) = s.links.next (.elem f) ∧
    links.prev (.elem f) = s.links.prev (.elem f)

/-- The process can make one more call. -/
def Few (s : Files) (p : Tid) : Prop := s.alive p = true ∧ s.calls p + 1 < 2 ^ 31 - 2

def Allowed (s : Files) : FileEvent → Prop
  | .start p => s.alive p = false
  | .openFile p file => Few s p ∧ ∀ f, file = some f → Unused s f
  | .closeFile p _ => Few s p
  | .exit p => s.alive p = true
  | .write links fd => Elsewhere s links fd

/-! The invariant. -/

structure FdInv (s : Files) (q : Tid → Option (List Nat)) : Prop where
  lists : Lists s.links q
  alive : ∀ {p}, s.alive p = true ↔ ∃ l, q p = some l
  sorted : ∀ {p l}, q p = some l → l.Pairwise fun f g => s.fd f < s.fd g
  bound : ∀ {p l f}, q p = some l → f ∈ l → 2 ≤ s.fd f ∧ s.fd f ≤ s.calls p + 1
  length : ∀ {p l}, q p = some l → l.length ≤ s.calls p
  opened : ∀ {p fd f}, s.opened p fd = some f ↔ ∃ l, q p = some l ∧ f ∈ l ∧ s.fd f = fd

section
variable {s s' : Files} {q : Tid → Option (List Nat)} {p : Tid} {l : List Nat} {f : Nat} {fd : Int}

theorem FdInv.loose (h : FdInv s q) (hf : Unused s f) : Loose q f := fun p l hl hmem =>
  hf p (s.fd f) (h.opened.mpr ⟨l, hl, hmem, rfl⟩)

theorem FdInv.set (h : FdInv s q) {L : Links Tid Nat} (hL : Lists L (update q p (some l)))
    {c : Nat} {o : Int → Option Nat} {g : Nat → Int}
    (hg : ∀ p' l', p' ≠ p → q p' = some l' → ∀ f ∈ l', g f = s.fd f)
    (hsorted : l.Pairwise fun f f' => g f < g f') (hbound : ∀ f ∈ l, 2 ≤ g f ∧ g f ≤ c + 1)
    (hlen : l.length ≤ c) (ho : ∀ fd f, o fd = some f ↔ f ∈ l ∧ g f = fd) :
    FdInv ⟨L, g, update s.alive p true, update s.calls p c,
      update s.opened p o⟩ (update q p (some l)) := by
  refine ⟨hL, fun {r} => ?_, fun {r m} hr => ?_, fun {r m f} hr hf => ?_, fun {r m} hr => ?_,
    fun {r fd f} => ?_⟩
  · grind [h.alive]
  · rcases eq_or_ne r p with rfl | hne
    · rw [update_self] at hr
      cases hr
      exact hsorted
    · rw [update_of_ne hne] at hr
      refine (h.sorted hr).imp_of_mem fun ha hb hab => ?_
      show g _ < g _
      rwa [hg r m hne hr _ ha, hg r m hne hr _ hb]
  · rcases eq_or_ne r p with rfl | hne
    · grind
    · rw [update_of_ne hne] at hr
      simp only [update_of_ne hne, hg r m hne hr f hf]
      exact h.bound hr hf
  · rcases eq_or_ne r p with rfl | hne
    · grind
    · rw [update_of_ne hne] at hr
      simp only [update_of_ne hne]
      exact h.length hr
  · rcases eq_or_ne r p with rfl | hne
    · simp [ho]
    · simp only [update_of_ne hne, h.opened]
      refine exists_congr fun m => and_congr_right fun hr => and_congr_right fun hf => ?_
      rw [hg r m hne hr f hf]

theorem FdInv.exit (h : FdInv s q) (p : Tid) :
    FdInv { s with
      alive := update s.alive p false
      opened := update s.opened p fun _ => none } (update q p none) := by
  have hq : ∀ {r m}, update q p none r = some m ↔ r ≠ p ∧ q r = some m := by grind
  refine ⟨h.lists.drop p, fun {r} => ?_, fun hr => h.sorted (hq.mp hr).2,
    fun hr => h.bound (hq.mp hr).2, fun hr => h.length (hq.mp hr).2, fun {r fd f} => ?_⟩
  · grind [h.alive]
  · rcases eq_or_ne r p with rfl | hne
    · simp
    · simp only [update_of_ne hne]
      exact h.opened

/-! The functions. -/

theorem wp_onFileList {α : Type} {m : ListM Tid Nat α} {Q : α → Files → Prop} :
    wp (onFileList m) Q s ↔ wp m (fun r L => Q r { s with links := L }) s.links :=
  wp_zoom

/-- A walk ends with the first file that has the descriptor. -/
theorem findFrom_spec : ∀ (m : List Nat) {l : List Nat} {fuel : Nat}, IsList s.links p (l ++ m) →
    m.length < fuel → wp (findFrom p fd fuel (firstNode m (.tail p)))
      (fun r s' => s' = s ∧ r = m.find? fun f => s.fd f = fd) s
  | [], l, fuel + 1, _, _ => by grind [firstNode, findFrom, wp_pure]
  | f :: m, l, fuel + 1, hl, hlen => by
    rw [firstNode, findFrom, if_neg (by simp), wp_bind, wp_onFileList, listEntry, wp_pure, wp_bind,
      wp_get, wp_ite, List.find?_cons]
    refine ⟨fun hf => ?_, fun hf => ?_⟩
    · rw [wp_pure, decide_eq_true hf]
      exact ⟨rfl, rfl⟩
    · rw [decide_eq_false hf, wp_bind, wp_onFileList]
      refine wp_listNext (l := l) (m := m) hl ?_
      rw [List.append_cons] at hl
      exact findFrom_spec m hl (by simpa using hlen)

theorem FdInv.fd_inj (h : FdInv s q) (hl : q p = some l) {g : Nat} (hf : f ∈ l) (hg : g ∈ l)
    (heq : s.fd f = s.fd g) : f = g := by
  have hnodup : (l.map s.fd).Nodup := List.pairwise_map.mpr ((h.sorted hl).imp Int.ne_of_lt)
  exact List.inj_on_of_nodup_map hnodup hf hg heq

theorem findFileByFd_spec (h : FdInv s q) (hp : s.alive p = true) (fd : Int) :
    wp (findFileByFd p fd) (fun r s' => s' = s ∧ r = s.opened p fd) s := by
  obtain ⟨l, hl⟩ := h.alive.mp hp
  have hlist := h.lists.list hl
  rw [findFileByFd, wp_bind, wp_get, wp_bind, wp_onFileList]
  refine wp_listBegin hlist ?_
  refine wp_mono (findFrom_spec l (l := []) hlist (Nat.lt_succ_of_le (h.length hl))) ?_
  rintro r s' ⟨hs, rfl⟩
  refine ⟨hs, ?_⟩
  cases ho : s.opened p fd with
  | none =>
    refine List.find?_eq_none.mpr fun f hf hfd => ?_
    have := h.opened.mpr ⟨l, hl, hf, of_decide_eq_true hfd⟩
    rw [ho] at this
    cases this
  | some f =>
    obtain ⟨l', hl', hf, hfd⟩ := h.opened.mp ho
    cases hl.symm.trans hl'
    cases hfind : l.find? fun f => s.fd f = fd with
    | none => exact absurd (decide_eq_true hfd) (List.find?_eq_none.mp hfind f hf)
    | some g => grind [h.fd_inj]

theorem bmod_succ {i : Int} (h₁ : 2 ≤ i) (h₂ : i + 1 < 2 ^ 31) : (i + 1).bmod wordSize = i + 1 := by
  rw [Int.bmod_def]
  simp only [wordSize]
  omega

theorem giveFileDescriptor_spec (hL : Lists s.links q) (hl : q p = some l) (hf : Loose q f)
    (hsorted : l.Pairwise fun f g => s.fd f < s.fd g) {b : Int} (hb : 2 ≤ b + 1 ∧ b + 1 < 2 ^ 31)
    (hbound : ∀ g ∈ l, 2 ≤ s.fd g ∧ s.fd g ≤ b) :
    wp (giveFileDescriptor p f) (fun r s' => 2 ≤ r ∧ r ≤ b + 1 ∧ (∀ g ∈ l, s.fd g < r) ∧
      ∃ L, s' = { s with links := L, fd := update s.fd f r } ∧
        Lists L (update q p (some (l ++ [f])))) s := by
  have hlist := hL.list hl
  simp only [giveFileDescriptor, wp_bind, wp_get, listEmpty_eq hlist, decide_eq_true_eq]
  rw [wp_ite]
  constructor
  · grind [wp_bind, setFd, wp_modify, wp_onFileList, listPushBack_spec, wp_pure]
  · intro hne
    obtain ⟨m, e, rfl⟩ := (List.eq_nil_or_concat' l).resolve_left hne
    obtain ⟨he₁, he₂⟩ := hbound e (by simp)
    rw [wp_bind, wp_onFileList, wp_bind]
    refine wp_listBack hlist ?_
    rw [listEntry, wp_pure, wp_bind, wp_get, wp_bind, setFd, wp_modify, wp_onFileList,
      bmod_succ he₁ (by omega)]
    refine wp_mono (listPushBack_spec hL hl hf) fun _ L hL' => ?_
    simp only [wp_pure, update_self]
    refine ⟨by omega, by omega, fun g hg => ?_, L, rfl, hL'⟩
    rcases List.mem_append.mp hg with hg | hg
    · grind
    · rw [List.mem_singleton.mp hg]
      omega

theorem handleOpen_spec (h : FdInv s q) (hfew : Few s p) (hf : Unused s f) :
    wp (handleOpen p (some f)) (fun r s' => 2 ≤ r ∧ s.opened p r = none ∧ (∃ q', FdInv s' q') ∧
      s'.alive p = true ∧
      s'.opened = update s.opened p (update (s.opened p) r (some f))) s := by
  obtain ⟨hp, hcalls⟩ := hfew
  obtain ⟨l, hl⟩ := h.alive.mp hp
  have hloose := h.loose hf
  have hnot : f ∉ l := hloose p l hl
  simp only [handleOpen, countCall, wp_bind, wp_modify]
  refine wp_mono (@giveFileDescriptor_spec { s with
    calls := update s.calls p (s.calls p + 1) } q p l f h.lists hl hloose (h.sorted hl)
    (s.calls p + 1) (by omega) fun g hg => h.bound hl hg) ?_
  rintro r _ ⟨hr₁, hr₂, hlt, L, rfl, hL⟩
  have hkeep : ∀ g ∈ l, update s.fd f r g = s.fd g := fun g hg =>
    update_of_ne (fun heq : g = f => hnot (heq ▸ hg)) ..
  rw [setOpened, wp_modify, wp_pure]
  refine ⟨hr₁, ?_, ⟨update q p (some (l ++ [f])), ?_⟩, hp, rfl⟩
  · by_contra hsome
    obtain ⟨g, hg⟩ := Option.ne_none_iff_exists'.mp hsome
    obtain ⟨l', hl', hgl, hgr⟩ := h.opened.mp hg
    cases hl.symm.trans hl'
    have := hlt g hgl
    exact absurd hgr (Int.ne_of_lt this)
  · have halive : s.alive = update s.alive p true := by
      rw [← hp, update_eq_self]
    have hinv := h.set (p := p) (l := l ++ [f]) (c := s.calls p + 1)
      (o := update (s.opened p) r (some f)) (g := update s.fd f r) hL
      (fun p' l' _ hl' g hg => update_of_ne (fun heq : g = f => hloose p' l' hl' (heq ▸ hg)) ..)
      ?_ ?_ ?_ ?_
    · rw [← halive] at hinv
      exact hinv
    · refine List.pairwise_append.mpr ⟨(h.sorted hl).imp_of_mem fun ha hb hab => ?_,
        List.pairwise_singleton .., fun g hg e he => ?_⟩
      · rwa [hkeep _ ha, hkeep _ hb]
      · grind
    · intro g hg
      rcases List.mem_append.mp hg with hg | hg
      · rw [hkeep g hg]
        have := h.bound hl hg
        omega
      · rw [List.mem_singleton.mp hg, update_self]
        omega
    · have := h.length hl
      simp only [List.length_append, List.length_singleton]
      omega
    · intro fd g
      rcases eq_or_ne fd r with rfl | hfd
      · grind
      · grind [h.opened]

theorem FdInv.count (h : FdInv s q) (p : Tid) :
    FdInv { s with calls := update s.calls p (s.calls p + 1) } q := by
  have hle : ∀ r, s.calls r ≤ update s.calls p (s.calls p + 1) r := by grind
  refine ⟨h.lists, h.alive, h.sorted, fun {r l f} hl hf => ?_, fun {r l} hl => ?_, h.opened⟩
  · have := h.bound hl hf
    have := hle r
    dsimp only
    omega
  · exact Nat.le_trans (h.length hl) (hle r)

theorem closeFrom_spec (hL : Lists s.links q) : ∀ (m : List Nat) {l : List Nat} {fuel : Nat},
    q p = some (l ++ m) → m.length < fuel →
    wp (closeFrom p fd fuel (firstNode m (.tail p))) (fun found s' =>
      (found = false ∧ s' = s ∧ ∀ f ∈ m, s.fd f ≠ fd) ∨
      (found = true ∧ ∃ f ∈ m, s.fd f = fd ∧ ∃ L, s' = { s with links := L } ∧
        Lists L (update q p (some ((l ++ m).erase f))))) s
  | [], l, fuel + 1, _, _ => by grind [firstNode, closeFrom, wp_pure]
  | f :: m, l, fuel + 1, hl, hlen => by
    rw [firstNode, closeFrom, if_neg (by simp), wp_bind, wp_onFileList, listEntry, wp_pure, wp_bind,
      wp_get, wp_ite]
    refine ⟨fun hf => ?_, fun hf => ?_⟩
    · rw [wp_bind, wp_onFileList]
      refine wp_mono (listRemove_spec hL hl (by simp)) fun _ L hL' => wp_pure.mpr ?_
      exact Or.inr ⟨rfl, f, List.mem_cons_self .., hf, L, rfl, hL'⟩
    · rw [wp_bind, wp_onFileList]
      refine wp_listNext (l := l) (m := m) (hL.list hl) ?_
      have hl' : q p = some ((l ++ [f]) ++ m) := by rw [hl, List.append_cons]
      refine wp_mono (closeFrom_spec hL m hl' (by simpa using hlen)) ?_
      rintro found s' (⟨rfl, hs, hno⟩ | ⟨rfl, g, hg, hfd, L, hs, hL'⟩)
      · grind
      · grind

theorem handleClose_spec (h : FdInv s q) (hp : s.alive p = true) (fd : Int) :
    wp (handleClose p fd) (fun found s' => (∃ q', FdInv s' q') ∧
      (s.opened p fd = none → found = false ∧ s'.alive p = false) ∧
      (s.opened p fd ≠ none → found = true ∧ s'.alive p = true ∧
        s'.opened = update s.opened p (update (s.opened p) fd none))) s := by
  obtain ⟨l, hl⟩ := h.alive.mp hp
  have hc := h.count p
  simp only [handleClose, countCall, wp_bind, wp_modify, wp_get]
  rw [wp_onFileList]
  refine wp_listBegin (hc.lists.list hl) ?_
  refine wp_mono (closeFrom_spec hc.lists l (l := []) hl (Nat.lt_succ_of_le (hc.length hl))) ?_
  rintro found _ (⟨rfl, rfl, hno⟩ | ⟨rfl, f, hf, hfd, L, rfl, hL⟩)
  · have hnone : s.opened p fd = none := by
      by_contra hsome
      obtain ⟨g, hg⟩ := Option.ne_none_iff_exists'.mp hsome
      obtain ⟨l', hl', hgl, hgr⟩ := h.opened.mp hg
      cases hl.symm.trans hl'
      exact hno g hgl hgr
    rw [if_neg Bool.false_ne_true, threadExit, wp_modify, wp_pure]
    exact ⟨⟨_, hc.exit p⟩, fun _ => ⟨rfl, update_self ..⟩, fun hsome => absurd hnone hsome⟩
  · have hopen : s.opened p fd = some f := h.opened.mpr ⟨l, hl, hf, hfd⟩
    rw [if_pos rfl, setOpened, wp_modify, wp_pure]
    refine ⟨⟨update q p (some (l.erase f)), ?_⟩, fun hnone => ?_, fun _ => ⟨rfl, hp, rfl⟩⟩
    · have halive : s.alive = update s.alive p true := by
        rw [← hp, update_eq_self]
      have hinv := h.set (p := p) (l := l.erase f) (c := s.calls p + 1)
        (o := update (s.opened p) fd none) (g := s.fd) hL (fun _ _ _ _ _ _ => rfl)
        ((h.sorted hl).sublist List.erase_sublist) (fun g hg => ?_) ?_ fun fd' g => ?_
      · rw [← halive] at hinv
        exact hinv
      · have := h.bound hl (List.mem_of_mem_erase hg)
        omega
      · have h₁ := h.length hl
        have h₂ : (l.erase f).length ≤ l.length := List.erase_sublist.length_le
        omega
      · rw [(h.lists.list hl).nodup.mem_erase_iff]
        rcases eq_or_ne fd' fd with rfl | hne
        · grind [h.fd_inj]
        · grind [h.opened]
    · rw [hopen] at hnone
      cases hnone

theorem startProcess_spec (h : FdInv s q) (p : Tid) :
    wp (startProcess p) (fun _ s' => ∃ q', FdInv s' q') s := by
  rw [startProcess, wp_bind, wp_onFileList]
  refine wp_mono (listInit_spec h.lists p) fun _ L hL => ?_
  rw [wp_modify]
  exact ⟨_, h.set hL (fun _ _ _ _ _ _ => rfl) List.Pairwise.nil (by simp) (Nat.zero_le _) (by simp)⟩

/-! Runs. -/

theorem FdInv.write (h : FdInv s q) {links : Links Tid Nat} {fd : Nat → Int}
    (hw : Elsewhere s links fd) : FdInv { s with links := links, fd := fd } q := by
  have hused : ∀ {p l f}, q p = some l → f ∈ l → ¬Unused s f := fun {p l f} hl hf hno =>
    hno p (s.fd f) (h.opened.mpr ⟨l, hl, hf, rfl⟩)
  have hfd : ∀ {p l f}, q p = some l → f ∈ l → fd f = s.fd f := fun hl hf =>
    (hw.elem _ (hused hl hf)).1
  refine ⟨h.lists.congr fun p l n hl hn => ?_, h.alive, fun {p l} hl => ?_, fun {p l f} hl hf => ?_,
    h.length, fun {p v f} => ?_⟩
  · have hp := h.alive.mpr ⟨l, hl⟩
    cases n with
    | head r =>
      cases hn
      exact hw.head p hp
    | tail r =>
      cases hn
      exact hw.tail p hp
    | elem f => exact (hw.elem f (hused hl hn)).2
  · refine (h.sorted hl).imp_of_mem fun ha hb hab => ?_
    show fd _ < fd _
    rwa [hfd hl ha, hfd hl hb]
  · simp only [hfd hl hf]
    exact h.bound hl hf
  · grind [h.opened]

theorem FdInv.step (h : FdInv s q) {e : FileEvent} (he : Allowed s e) (hs : s.step e = some s') :
    ∃ q', FdInv s' q' := by
  cases e with
  | start p =>
    rw [Files.step] at hs
    obtain ⟨⟨_, _⟩, hx, rfl⟩ := Option.map_eq_some_iff.mp hs
    exact wp_elim (startProcess_spec h p) hx
  | openFile p file =>
    obtain ⟨⟨_, _⟩, hx, rfl⟩ := Option.map_eq_some_iff.mp hs
    cases file with
    | none =>
      cases hx
      exact ⟨q, h.count p⟩
    | some f =>
      obtain ⟨-, -, hinv, -⟩ := wp_elim (handleOpen_spec h he.1 (he.2 f rfl)) hx
      exact hinv
  | closeFile p fd =>
    obtain ⟨⟨_, _⟩, hx, rfl⟩ := Option.map_eq_some_iff.mp hs
    exact (wp_elim (handleClose_spec h he.1 fd) hx).1
  | exit p =>
    cases hs
    exact ⟨_, h.exit p⟩
  | write links fd =>
    cases hs
    exact ⟨q, h.write he⟩

/-- Descriptors of the process `p` are handles. -/
structure Handles (s : Files) (p : Tid) : Prop where
  /-- No two files have the same descriptor. -/
  list : ∃ l, IsList s.links p l ∧ (l.Pairwise fun f g => s.fd f < s.fd g) ∧ ∀ f ∈ l, 2 ≤ s.fd f
  find : ∀ fd, wp (findFileByFd p fd) (fun r s' => s' = s ∧ r = s.opened p fd) s
  /-- What `open` returns had no meaning before, and means the file after. -/
  opens : ∀ f, Few s p → Unused s f → wp (handleOpen p (some f)) (fun r s' => 2 ≤ r ∧
    s.opened p r = none ∧ ∀ fd, wp (findFileByFd p fd)
      (fun r' _ => r' = if fd = r then some f else s.opened p fd) s') s
  /-- After `close` the others mean what they did. -/
  closes : ∀ fd, s.opened p fd ≠ none → wp (handleClose p fd) (fun found s' => found = true ∧
    ∀ fd', wp (findFileByFd p fd')
      (fun r' _ => r' = if fd' = fd then none else s.opened p fd') s') s
  /-- To close what is not open ends the process. -/
  fails : ∀ fd, s.opened p fd = none → wp (handleClose p fd) (fun found s' => found = false ∧
    s'.alive p = false) s

theorem FdInv.handles (h : FdInv s q) (hp : s.alive p = true) : Handles s p where
  list := by
    obtain ⟨l, hl⟩ := h.alive.mp hp
    exact ⟨l, h.lists.list hl, h.sorted hl, fun f hf => (h.bound hl hf).1⟩
  find := findFileByFd_spec h hp
  opens := fun f hfew hf => by
    refine wp_mono (handleOpen_spec h hfew hf) ?_
    rintro r s' ⟨hr, hnone, ⟨q', h'⟩, hp', ho⟩
    refine ⟨hr, hnone, fun fd => wp_mono (findFileByFd_spec h' hp' fd) ?_⟩
    rintro r' _ ⟨-, rfl⟩
    rw [ho, update_self, update_apply]
  closes := fun fd hsome => by
    refine wp_mono (handleClose_spec h hp fd) ?_
    rintro found s' ⟨⟨q', h'⟩, -, hclosed⟩
    obtain ⟨hfound, hp', ho⟩ := hclosed hsome
    refine ⟨hfound, fun fd' => wp_mono (findFileByFd_spec h' hp' fd') ?_⟩
    rintro r' _ ⟨-, rfl⟩
    rw [ho, update_self, update_apply]
  fails := fun fd hnone => wp_mono (handleClose_spec h hp fd) fun _ _ hr => hr.2.1 hnone

theorem noFiles_inv (links : Links Tid Nat) (fd : Nat → Int) :
    FdInv ⟨links, fd, fun _ => false, fun _ => 0, fun _ _ => none⟩ fun _ => none :=
  ⟨⟨by simp, by simp⟩, by simp, by simp, by simp, by simp, by simp⟩

/-- **File descriptors are handles**, of every process that there is in any state of any run. -/
theorem fds_are_handles {links : Links Tid Nat} {fd : Nat → Int}
    (hrun : Reach Files.step Allowed ⟨links, fd, fun _ => false, fun _ => 0, fun _ _ => none⟩ s)
    (hp : s.alive p = true) : Handles s p := by
  obtain ⟨q, h⟩ := hrun.inv (I := fun s => ∃ q, FdInv s q) ⟨_, noFiles_inv links fd⟩
    fun _ _ _ ⟨_, h⟩ he hs => h.step he hs
  exact h.handles hp

end

def noFiles : Files := ⟨⟨fun _ => none, fun _ => none⟩, fun _ => 0, fun _ => false, fun _ => 0,
  fun _ _ => none⟩

/-- Three files are opened and the first and the last closed; the next one is given the
    descriptor of the last one again. -/
def openAndClose : List FileEvent :=
  [.start 1, .openFile 1 (some 10), .openFile 1 (some 20), .openFile 1 (some 30),
    .closeFile 1 2, .closeFile 1 4, .openFile 1 (some 40)]

/-- A file that has never been on a list is not open. -/
def allowedB (s : Files) : FileEvent → Bool
  | .start p => !s.alive p
  | .openFile p file => s.alive p && decide (s.calls p + 1 < 2 ^ 31 - 2) &&
    file.all fun f => s.links.next (.elem f) = none
  | .closeFile p _ => s.alive p && decide (s.calls p + 1 < 2 ^ 31 - 2)
  | .exit p => s.alive p
  | .write .. => false

theorem allowed_of_allowedB {s : Files} {e : FileEvent} {q : Tid → Option (List Nat)}
    (h : FdInv s q) (he : allowedB s e = true) : Allowed s e := by
  cases e with
  | start p => simpa [allowedB, Allowed] using he
  | openFile p file =>
    simp only [allowedB, Bool.and_eq_true, decide_eq_true_eq] at he
    refine ⟨he.1, ?_⟩
    rintro f rfl p fd hf
    obtain ⟨l, hl, hmem, -⟩ := h.opened.mp hf
    obtain ⟨l₁, l₂, rfl⟩ := List.append_of_mem hmem
    have hnext := (linked_append.mp (h.lists.list hl).linked).2.next_eq
    have hnone : s.links.next (.elem f) = none := by simpa using he.2
    rw [hnone] at hnext
    cases hnext
  | closeFile p fd => simpa [allowedB, Allowed, Few] using he
  | exit p => exact he
  | write links fd => cases he

theorem fds_are_handles_again : ∃ s, Reach Files.step Allowed noFiles s ∧
    (s.alive 1 = true ∧ s.opened 1 2 = none ∧ s.opened 1 3 = some 20 ∧ s.opened 1 4 = some 40) ∧
    Handles s 1 := by
  obtain ⟨s, hs, hq⟩ := exists_reach_inv Files.step (C := Allowed) noFiles openAndClose
    (fun s => s.alive 1 && s.opened 1 2 = none && s.opened 1 3 = some 20 &&
      s.opened 1 4 = some 40)
    (I := fun s => ∃ q, FdInv s q) (fun _ _ _ ⟨_, h⟩ he hs => h.step he hs)
    (fun _ _ ⟨_, h⟩ he => allowed_of_allowedB h he) ⟨_, noFiles_inv ..⟩ (by decide +kernel)
    (by decide +kernel)
  simp only [Bool.and_eq_true, decide_eq_true_eq, and_assoc] at hq
  exact ⟨s, hs, hq, fds_are_handles hs hq.1⟩

end Pintos.Syscall.Descriptors
