import Pintos.Process.Holdings

/- The open files of processes, over whole runs.

   Every system call and every start of a process is a few turns (`SysCall.turns`,
   `startProcess_turns`); what is done on behalf of no process is looked at on its own
   (`Did`). So from a booted system on
     1. `Inv` holds in every state (`inv_of_reach`);
     2. `NoStray` holds as long as every step is `Tidy`. Steps that are not leave a file
        open that nobody can reach: a name that exists is created, an executable has a
        bad header, pages to be mapped are taken, a mapping is removed or is there when
        the process ends. -/
namespace Pintos.Process

open Vm (Buf Tid wordSize)
open Filesys Function
open Lib

/-! The calls. -/

section
variable {b : Prop} {t : Tid} {x : Sys} {P : Proc} {dirty : Dirty}

theorem handleOpen_turns (hx : Inv x) (hP : x.procs t = some P) (name : Name) :
    wpIf False (handleOpen t name) (fun _ x' => Turns b t x x') x := by
  rw [handleOpen, wpIf_bind]
  refine wpIf_current hP ?_
  rw [wpIf_bind, wpIf_onFs]
  refine wpIf_of_wp (wp_mono (hx.ok.filesysOpen name) ?_)
  rintro r fs' (⟨rfl, ha⟩ | ⟨rfl, s, hnew⟩)
  · exact wpIf_pure.mpr (ha.turn hx).turns
  · simp only [setProc, wpIf_modify]
    refine (hnew.grown.gives hx ?_ ?_ fun h => (by cases h)).turns
    · rw [heldBy_eq hP]
      simp only [Proc.held, List.map_append, List.append_assoc]
      exact List.perm_middle
    · exact (selfFile_eq hP).symm

theorem Proc.held_erase {P : Proc} {e : Int × Nat} (he : e ∈ P.fileList) :
    P.held.Perm (e.2 :: Proc.held { P with fileList := P.fileList.erase e }) := by
  simp only [Proc.held, ← List.cons_append]
  exact (((List.perm_cons_erase he).map Prod.snd).append_right _).append_right _

theorem handleClose_turns (hx : Inv x) (hP : x.procs t = some P) (fd : Int)
    (hb : b → findFileByFd P fd = none → P.mappingList = []) :
    wpIf False (handleClose t dirty fd) (fun _ x' => Turns b t x x') x := by
  rw [handleClose, wpIf_bind]
  refine wpIf_current hP ?_
  cases he : findFileByFd P fd with
  | none => exact threadExit_turns hx hP fun h => hb h he
  | some e =>
    have hmem : e ∈ P.fileList := List.mem_of_find?_eq_some he
    have hperm := Proc.held_erase hmem
    have hheld : e.2 ∈ P.held := hperm.mem_iff.mpr (List.mem_cons_self ..)
    obtain ⟨hout, -⟩ := List.nodup_cons.mp (hperm.nodup_iff.mp (hx.nodup_of hP))
    simp only [wpIf_bind, setProc, wpIf_modify, wpIf_onFs]
    refine wpIf_of_wp (wp_mono (hx.ok.fileClose (hx.usable_of hP _ hheld)) ?_)
    rintro - fs' ha
    refine (ha.drops hx (some { P with fileList := P.fileList.erase e }) (fun f hf => ?_) ?_
      (fun f hf => ?_) (fun f hf => (selfFile_eq hP).trans hf)
      (fun f hf _ => (selfFile_eq hP).symm.trans hf) fun _ f hf hne => ?_).turns
    · rw [List.mem_singleton.mp hf, heldBy_eq hP]
      exact hheld
    · rw [heldBy_eq hP]
      exact ((List.erase_sublist.map _).append_right _).append_right _
    · rw [List.mem_singleton.mp hf]
      exact hout
    · grind [heldBy_eq]

/-- The name is bound in the root directory. -/
def Exists (fs : Fs) (name : Name) : Prop :=
  (fs.disk.inodeAt rootDirSector).Bound fs.disk name

theorem handleCreate_turns (hx : Inv x) (hP : x.procs t = some P) (junk : Buf) (name : Name)
    (initialSize : Nat) (hb : b → (name.chars.length = 0 → P.mappingList = []) ∧
      (0 < name.chars.length → name.chars.length ≤ 14 → ¬Exists x.fs name)) :
    wpIf False (handleCreate t dirty junk name initialSize) (fun _ x' => Turns b t x x') x := by
  rw [handleCreate]
  by_cases h0 : name.chars.length = 0
  · rw [if_pos h0]
    exact threadExit_turns hx hP fun h => (hb h).1 h0
  · rw [if_neg h0]
    by_cases h14 : name.chars.length > 14
    · rw [if_pos h14]
      exact wpIf_pure.mpr .refl
    · rw [if_neg h14, wpIf_bind, wpIf_onFs]
      obtain ⟨g, hc, hf⟩ := id hx.ok
      refine wpIf_of_wp (wp_mono (wp_and (hx.ok.filesysOpen name) (hc.filesysOpen hf name)) ?_)
      rintro r fs' ⟨⟨rfl, ha⟩ | ⟨rfl, s, hnew⟩, hopen⟩
      · have hturn : Turn b t [] none x { x with fs := fs' } := ha.turn hx
        rw [wpIf_discard, wpIf_onFs]
        have hsize : toInt (initialSize % wordSize) < 2147483648 := by grind [wordSize, toInt]
        refine wpIf_mono ((hturn.inv hx).ok.filesysCreate junk name hsize) ?_
        rintro - fs'' ha'
        exact .turn hturn.turns (After.turn ha' (hturn.inv hx))
      · -- The file that was opened is not on any list.
        obtain ⟨hno, -⟩ | ⟨-, k, hk, hname, -⟩ := hopen
        · cases hno
        refine wpIf_pure.mpr (hnew.grown.leaves hx fun h => (hb h).2 (by omega) (by omega) ?_).turns
        rw [Exists, hc.rootAt]
        exact ⟨k, hk, hname⟩

theorem fileLength_eq {fs : Fs} {f : Nat} {F : File} {n : Inode} (hF : fs.files f = some F)
    (hn : fs.openInodes F.inode = some n) : fileLength f fs = some ((n.data.length : Int), fs) := by
  refine bind_eq_some.mpr ⟨fs, fs, rfl, bind_eq_some.mpr ⟨F, fs, by rw [follow, hF]; rfl, ?_⟩⟩
  exact bind_eq_some.mpr ⟨fs, fs, rfl, bind_eq_some.mpr ⟨n, fs, by rw [follow, hn]; rfl, rfl⟩⟩

/-- A file that has been reopened is as long as it was; its inode is open once more. -/
theorem fileReopen_inode {fs fs' : Fs} {f file : Nat}
    (h : fileReopen f fs = some (some file, fs')) :
    ∃ s n length, fs.openInodes s = some n ∧
      fs'.openInodes s = some { n with openCnt := n.openCnt + 1 } ∧
      fileLength f fs = some (length, fs) ∧ fileLength file fs' = some (length, fs') := by
  have hspec : wpIf False (fileReopen f) (fun r fs' => r = some file → ∃ F n,
      fs.files f = some F ∧ fs.openInodes F.inode = some n ∧
      fs'.openInodes F.inode = some { n with openCnt := n.openCnt + 1 } ∧
      fs'.files file = some ⟨F.inode, 0, false⟩) fs := by
    simp only [fileReopen, inodeReopen, setInode, wpIf_bind, wpIf_get, wpIf_follow, wpIf_modify]
    refine ⟨fun F hF => ⟨fun n hn => ?_, False.elim⟩, False.elim⟩
    rw [fileOpen, wpIf_bind]
    refine wpIf_of_wp (wp_intro rfl ?_)
    cases fs.heap.structs 0 with
    | false =>
      simp only [wpIf_bind, wpIf_pure]
      exact ⟨fun _ _ _ hno => (by cases hno), False.elim⟩
    | true => grind [newFile, wpIf_bind, wpIf_get, wpIf_modify, wpIf_pure, Option.some.injEq]
  obtain ⟨F, n, hF, hn, hn', hF'⟩ := hspec.1 _ _ h rfl
  have hlen' : fileLength file fs' = some ((n.data.length : Int), fs') :=
    (fileLength_eq hF' hn' :)
  exact ⟨F.inode, n, n.data.length, hn, hn', fileLength_eq hF hn, hlen'⟩

theorem handleMmap_cases (hP : x.procs t = some P) {fd : Int} {addr : Nat} {r : Option Int}
    {x' : Sys} (h : handleMmap t dirty fd addr x = some (r, x')) :
    (BadMap fd addr ∧ r = some (-1) ∧ x' = x) ∨
    (¬BadMap fd addr ∧ findFileByFd P fd = none ∧ r = none ∧
      threadExit t dirty x = some ((), x')) ∨
    (¬BadMap fd addr ∧ ∃ e file fs', findFileByFd P fd = some e ∧
      fileReopen e.2 x.fs = some (some file, fs') ∧
      (overlaps x.fs P fd addr = true ∧ r = some (-1) ∧ x' = { x with fs := fs' } ∨
      overlaps x.fs P fd addr = false ∧ r = some (if P.mappingList = [] then 0 else 1) ∧
        ∃ spt, x' = { x with fs := fs', procs := update x.procs t (some { P with
          mappingList := P.mappingList ++ [file], supPageTable := spt }) })) := by
  obtain ⟨P', x₁, hcur, h⟩ := bind_eq_some.mp h
  have hcur' : current t x = some (P, x) := bind_eq_some.mpr ⟨x, x, rfl, by rw [follow, hP]; rfl⟩
  rw [hcur'] at hcur
  cases hcur
  by_cases hbad : BadMap fd addr
  · rw [if_pos hbad] at h
    cases h
    exact .inl ⟨hbad, rfl, rfl⟩
  · refine .inr ?_
    rw [if_neg hbad] at h
    cases he : findFileByFd P fd with
    | none =>
      rw [he] at h
      obtain ⟨⟨⟩, x₁, hexit, h⟩ := bind_eq_some.mp h
      cases h
      exact .inl ⟨hbad, rfl, rfl, hexit⟩
    | some e =>
      rw [he] at h
      obtain ⟨o, x₁, hopen, h⟩ := bind_eq_some.mp h
      obtain ⟨⟨o', fs'⟩, hopen', heq⟩ := Option.map_eq_some_iff.mp hopen
      cases heq
      obtain ⟨file, x₁, hfile, h⟩ := bind_eq_some.mp h
      cases o' with
      | none => cases hfile
      | some o =>
        cases hfile
        obtain ⟨length, x₁, hlength, h⟩ := bind_eq_some.mp h
        obtain ⟨-, -, l, -, -, hold, hnew⟩ := fileReopen_inode hopen'
        have hlength' : onFs (fileLength file) { x with fs := fs' } = some (l, { x with fs := fs' }) := by
          rw [onFs, zoom, hnew]
          rfl
        rw [hlength'] at hlength
        cases hlength
        have hover : overlaps x.fs P fd addr = (Vm.madePages addr length.toNat).any fun u =>
            (P.supPageTable.lookup u).isSome := by
          simp only [overlaps, requestedPages, he, hold]
        rw [← hover] at h
        refine .inr ⟨hbad, e, file, fs', rfl, hopen', ?_⟩
        cases hov : overlaps x.fs P fd addr with
        | true =>
          rw [hov, if_pos rfl] at h
          cases h
          exact .inl ⟨rfl, rfl, rfl⟩
        | false =>
          rw [hov, if_neg Bool.false_ne_true] at h
          cases h
          exact .inr ⟨rfl, rfl, _, rfl⟩

theorem handleMmap_turns (hx : Inv x) (hP : x.procs t = some P) (fd : Int) (addr : Nat)
    (hb : b → ¬BadMap fd addr → (findFileByFd P fd = none → P.mappingList = []) ∧
      overlaps x.fs P fd addr = false) :
    wpIf False (handleMmap t dirty fd addr) (fun _ x' => Turns b t x x') x := by
  refine ⟨fun r x' h => ?_, False.elim⟩
  obtain ⟨-, -, rfl⟩ | ⟨hbad, he, -, hexit⟩ | ⟨hbad, e, file, fs', he, hopen, hout⟩ :=
    handleMmap_cases hP h
  · exact .refl
  · exact (threadExit_turns hx hP fun h => (hb h hbad).1 he).1 _ _ hexit
  · have hheld : e.2 ∈ P.held := by
      have hmem : e ∈ P.fileList := List.mem_of_find?_eq_some he
      exact (Proc.held_erase hmem).mem_iff.mpr (List.mem_cons_self ..)
    have hu := hx.usable_of hP _ hheld
    obtain ⟨F, hF⟩ := hu.file
    obtain ⟨hno, -⟩ | ⟨hfile, hnew⟩ := wp_elim (hx.ok.fileReopen hF hu.notMap) hopen
    · cases hno
    cases hfile
    obtain ⟨hover, -, rfl⟩ | ⟨-, -, spt, rfl⟩ := hout
    · refine (hnew.grown.leaves hx fun h => ?_).turns
      rw [(hb h hbad).2] at hover
      cases hover
    · refine (hnew.grown.gives hx ?_ ?_ fun h => (by cases h)).turns
      · grind [heldBy_eq, Proc.held]
      · exact (selfFile_eq hP).symm

theorem handleMunmap_turns (hx : Inv x) (hP : x.procs t = some P) (mapping : Int)
    (hb : b → mapping ≠ 0 ∨ P.mappingList = []) :
    wpIf False (handleMunmap t dirty mapping) (fun _ x' => Turns b t x x') x := by
  rw [handleMunmap, wpIf_bind]
  refine wpIf_current hP ?_
  cases hl : P.mappingList with
  | nil => exact wpIf_pure.mpr .refl
  | cons file l =>
    by_cases h0 : mapping = 0
    · have hheld : file ∈ P.held := by
        rw [Proc.held, hl, List.append_assoc]
        exact List.mem_append_right _ (List.mem_append_left _ (List.mem_cons_self ..))
      simp only [if_pos h0, wpIf_bind, wpIf_onFs, setProc, wpIf_modify]
      refine wpIf_of_wp (wp_mono (hx.ok.writeBack (hx.usable_of hP _ hheld) _) ?_)
      rintro - fs' ha
      refine (ha.drops hx _ (fun f hf => absurd hf List.not_mem_nil) ?_
        (fun f hf => absurd hf List.not_mem_nil) ?_ ?_ fun h => ?_).turns
      · grind [heldBy_eq, Proc.held]
      · exact fun f hf => (selfFile_eq hP).trans hf
      · exact fun f hf _ => (selfFile_eq hP).symm.trans hf
      · -- The file is off the list, and still open.
        obtain hne | hnil := hb h
        · exact absurd h0 hne
        · rw [hl] at hnil
          cases hnil
    · simp only [if_neg h0]
      exact wpIf_pure.mpr .refl

/-- The calls that leave no file open that nobody holds. -/
def TidyCall (x : Sys) (P : Proc) : SysCall → Prop
  | .exit => P.mappingList = []
  | .create _ name _ => (name.chars.length = 0 → P.mappingList = []) ∧
      (0 < name.chars.length → name.chars.length ≤ 14 → ¬Exists x.fs name)
  | .remove _ | .openName _ => True
  | .close fd => findFileByFd P fd = none → P.mappingList = []
  | .mmap fd addr => ¬BadMap fd addr → (findFileByFd P fd = none → P.mappingList = []) ∧
      overlaps x.fs P fd addr = false
  | .munmap mapping => mapping ≠ 0 ∨ P.mappingList = []

/-- A system call is a few turns of the process that makes it. -/
theorem SysCall.turns (hx : Inv x) (hP : x.procs t = some P) (c : SysCall)
    (hb : b → TidyCall x P c) : wpIf False (c.exec t dirty) (fun _ x' => Turns b t x x') x := by
  cases c with
  | exit => exact threadExit_turns hx hP hb
  | create junk name initialSize => exact handleCreate_turns hx hP junk name initialSize hb
  | remove name =>
    rw [SysCall.exec, wpIf_discard, wpIf_onFs]
    refine wpIf_of_wp (wp_mono (hx.ok.filesysRemove name) ?_)
    rintro - fs' ha
    exact (ha.turn hx).turns
  | openName name => exact handleOpen_turns hx hP name
  | close fd => exact handleClose_turns hx hP fd hb
  | mmap fd addr =>
    rw [SysCall.exec, wpIf_discard]
    exact handleMmap_turns hx hP fd addr hb
  | munmap mapping => exact handleMunmap_turns hx hP mapping hb

theorem startProcess_turns (hx : Inv x) (hP : x.procs t = none) (mem : LoadMem) (pl : Placing)
    (name : Name) (hb : b → mem.pagedir = false ∨ Loadable x.fs name) :
    wpIf False (startProcess t mem pl name) (fun _ x' => Turns b t x x') x := by
  have hheld : x.heldBy t = [] := by
    rw [Sys.heldBy, hP]
    rfl
  have hself : x.selfFile t = none := by
    rw [Sys.selfFile, hP]
    rfl
  rw [startProcess, wpIf_bind, wpIf_onFs]
  refine wpIf_mono (hx.ok.load mem name) ?_
  intro r fs' hload
  simp only [wpIf_bind, setProc, wpIf_modify]
  -- The state in which the process is there, whether or not it stays.
  obtain ⟨P, hPnew⟩ : ∃ P : Proc, P = ⟨[], [], r.selfFile, newTable pl r.pages,
    newPagedir pl r.pages⟩ := ⟨_, rfl⟩
  have hturns : Turns b t x { x with fs := fs', procs := update x.procs t (some P) } := by
    have hnone : ∀ {y : Sys}, Inv y → y.heldBy t = [] → y.selfFile t = none → r.selfFile = none →
        Turn b t [] none y { y with procs := update y.procs t (some P) } := by
      intro y hy hyheld hyself hr
      have hempty : P.held = [] ∧ P.selfFile = none := by grind [Proc.held]
      refine (After.refl hy.ok).drops hy (some P) (fun f hf => absurd hf List.not_mem_nil) ?_
        (fun f hf => absurd hf List.not_mem_nil) (fun f hf => ?_) (fun f hf => ?_) fun _ f hf => ?_
      · exact hempty.1 ▸ List.nil_sublist _
      · rw [Option.bind_some, hempty.2] at hf
        cases hf
      · rw [hyself] at hf
        cases hf
      · rw [hyheld] at hf
        cases hf
    obtain ⟨hr, ha⟩ | ⟨hr, ⟨s, hg⟩, hpd, hno⟩ | ⟨hr, s, hg⟩ := hload
    · have hturn : Turn b t [] none x { x with fs := fs' } := ha.turn hx
      exact .turn hturn.turns (hnone (hturn.inv hx) hheld hself hr)
    · have hturn : Turn b t [] (some (s, false)) x { x with fs := fs' } := by
        refine hg.leaves hx fun h => ?_
        obtain hfalse | hl := hb h
        · rw [hpd] at hfalse
          cases hfalse
        · exact hno hl
      exact .turn hturn.turns (hnone (hturn.inv hx) hheld hself hr)
    · refine (hg.gives hx ?_ ?_ fun _ => hself).turns
      · rw [hPnew, hheld, Proc.held, hr]
        exact .refl _
      · rw [hPnew, if_pos rfl]
        exact hr
  rw [← hPnew]
  cases r.success with
  | true => exact wpIf_pure.mpr hturns
  | false =>
    rw [if_neg Bool.false_ne_true]
    have hmap : P.mappingList = [] := by rw [hPnew]
    refine wpIf_mono (threadExit_turns (hturns.inv hx) (update_self ..)
      fun _ : b => hmap) ?_
    exact fun _ _ h => hturns.trans h

end

/-! What is done on behalf of no process. -/

/-- What a call of the file system may do. -/
def Did (fs : Fs) (fs' : Fs) : Filesys.Call → Prop
  | .denyWrite f => ∃ F, fs.files f = some F ∧ SetFlag fs f F true fs'
  | .allowWrite f => ∃ F, fs.files f = some F ∧ SetFlag fs f F false fs'
  | .close f => After fs fs' [f]
  | .openName _ | .reopen _ => After fs fs' [] ∨ ∃ s, Grown fs (s, false) fs'
  | _ => After fs fs' []

theorem FsOk.did {fs : Fs} (h : FsOk fs) {c : Filesys.Call} (hsize : c.size < 2147483648)
    (hu : ∀ f, c.file = some f → Usable fs f) :
    wpIf False c.exec (fun _ fs' => Did fs fs' c) fs := by
  cases c with
  | create junk name size =>
    simp only [Call.exec, wpIf_bind, wpIf_pure]
    exact h.filesysCreate junk name hsize
  | openName name =>
    simp only [Call.exec, wpIf_bind, wpIf_pure]
    refine wpIf_of_wp (wp_mono (h.filesysOpen name) ?_)
    rintro r fs' (⟨-, ha⟩ | ⟨-, s, hnew⟩)
    · exact .inl ha
    · exact .inr ⟨s, hnew.grown⟩
  | remove name =>
    simp only [Call.exec, wpIf_bind, wpIf_pure]
    exact wpIf_of_wp (h.filesysRemove name)
  | reopen f =>
    obtain ⟨F, hF⟩ := (hu f rfl).file
    simp only [Call.exec, wpIf_bind, wpIf_pure]
    refine wpIf_of_wp (wp_mono (h.fileReopen hF (hu f rfl).notMap) ?_)
    rintro r fs' (⟨-, ha⟩ | ⟨-, hnew⟩)
    · exact .inl ha
    · exact .inr ⟨_, hnew.grown⟩
  | close f => exact wpIf_of_wp (h.fileClose (hu f rfl))
  | denyWrite f =>
    obtain ⟨F, hF⟩ := (hu f rfl).file
    exact wpIf_of_wp (wp_mono (h.fileDenyWrite hF (hu f rfl).notMap) fun _ _ hs => ⟨F, hF, hs⟩)
  | allowWrite f =>
    obtain ⟨F, hF⟩ := (hu f rfl).file
    exact wpIf_of_wp (wp_mono (h.fileAllowWrite hF (hu f rfl).notMap) fun _ _ hs => ⟨F, hF, hs⟩)
  | read f buffer size =>
    simp only [Call.exec, wpIf_bind, wpIf_pure]
    exact wpIf_of_wp (h.fileRead (hu f rfl) buffer size)
  | write f buffer size =>
    simp only [Call.exec, wpIf_bind, wpIf_pure]
    exact wpIf_of_wp (h.fileWrite (hu f rfl) buffer size)
  | readAt f buffer size offset =>
    obtain ⟨g, hc, hf⟩ := h
    obtain ⟨F, hF⟩ := (hu f rfl).file
    simp only [Call.exec, wpIf_bind, wpIf_pure]
    refine wpIf_of_wp (wp_mono (hc.fileReadAt hf hF buffer size offset) ?_)
    rintro r fs' ⟨hg, hq, -⟩
    exact .of_files ⟨g, hg.core, hg.files⟩ hq.files hq.nextFile hq.freeMapFile
  | writeAt f buffer size offset =>
    simp only [Call.exec, wpIf_bind, wpIf_pure]
    exact wpIf_of_wp (h.fileWriteAt (hu f rfl) buffer size offset)
  | seek f newPos => exact wpIf_of_wp (h.fileSeek (hu f rfl) newPos)

section
variable {x : Sys} {fs' : Fs}

theorem After.inv {closed : List Nat} (ha : After x.fs fs' closed) (hx : Inv x)
    (hfree : ∀ f ∈ closed, ∀ t, f ∉ x.heldBy t) : Inv { x with fs := fs' } where
  ok := ha.ok
  usable := fun {t f} hf => ha.usable (hx.usable hf) fun hc => hfree f hc t hf
  apart := hx.apart
  nodup := hx.nodup
  self := fun {t f} hf => by
    obtain ⟨F, hF, hd⟩ := hx.self hf
    have hkept := ha.kept f fun hc => hfree f hc t (selfFile_held hf)
    obtain ⟨F', hF', -, hd'⟩ := deny_of_still hkept.symm hF
    exact ⟨F', hF', hd'.trans hd⟩
  deny := fun {f F} hF hd => by
    obtain ⟨G, hG, -, hGd⟩ := ha.file hF
    exact hx.deny hG (hGd.trans hd)

/-- A file that is no executable denies writes from now on, or does not. -/
theorem SetFlag.inv {f : Nat} {F : File} {d : Bool} (hs : SetFlag x.fs f F d fs') (hx : Inv x)
    (hself : ∀ t, x.selfFile t ≠ some f) {denied : List Nat}
    (hnew : d = true → f ∈ denied) (hold : ∀ f' ∈ x.denied, f' ≠ f → f' ∈ denied) :
    Inv { x with fs := fs', denied := denied } where
  ok := hs.ok
  usable := fun {t f'} hf' => by
    obtain ⟨hopen, hmap⟩ := hx.usable hf'
    refine ⟨fun hnone => hopen ?_, by rw [hs.mapFile]; exact hmap⟩
    rw [hs.files] at hnone
    by_cases hff : f' = f
    · rw [hff, update_self] at hnone
      cases hnone
    · rwa [update_of_ne hff] at hnone
  apart := hx.apart
  nodup := hx.nodup
  self := fun {t f'} hf' => by
    have hne : f' ≠ f := fun h => hself t (h ▸ hf')
    obtain ⟨G, hG, hd⟩ := hx.self hf'
    exact ⟨G, by rw [hs.files, update_of_ne hne]; exact hG, hd⟩
  deny := fun {f' G} hG hd => by
    rw [hs.files] at hG
    by_cases hff : f' = f
    · grind
    · rw [update_of_ne hff] at hG
      exact (hx.deny hG hd).imp (fun h => hold f' h hff) id

theorem Did.inv {c : Filesys.Call} (h : Did x.fs fs' c) (hx : Inv x) (ha : Allowed x (.file c)) :
    Inv { x with fs := fs', denied := deniedBy x.denied c } := by
  have hself : ∀ f, c.file = some f → ∀ t, x.selfFile t ≠ some f := by
    intro f hf t hself
    obtain ⟨P, hP, hPf⟩ := Option.bind_eq_some_iff.mp hself
    exact ((ha.2 f hf).2 t P hP).1 hPf
  have hopens : After x.fs fs' [] ∨ (∃ s, Grown x.fs (s, false) fs') → Inv { x with fs := fs' } := by
    rintro (h | ⟨s, hg⟩)
    · exact h.inv hx fun f hf => absurd hf List.not_mem_nil
    · exact (hg.leaves (b := False) (t := 0) hx not_false).inv hx
  cases c with
  | denyWrite f =>
    obtain ⟨F, -, hs⟩ := h
    exact hs.inv hx (hself f rfl) (fun _ => List.mem_cons_self ..)
      fun f' hf' _ => List.mem_cons_of_mem _ hf'
  | allowWrite f =>
    obtain ⟨F, -, hs⟩ := h
    refine hs.inv hx (hself f rfl) (fun hd => by cases hd) fun f' hf' hne => ?_
    exact List.mem_filter.mpr ⟨hf', decide_eq_true hne⟩
  | close f =>
    refine After.inv h hx fun f' hf' t hheld => ?_
    rw [List.mem_singleton.mp hf', Sys.heldBy] at hheld
    cases hP : x.procs t with
    | none =>
      rw [hP] at hheld
      cases hheld
    | some P =>
      rw [hP] at hheld
      exact ((ha.2 f rfl).2 t P hP).2 rfl hheld
  | openName name => exact hopens h
  | reopen f => exact hopens h
  | create junk name size => exact hopens (.inl h)
  | remove name => exact hopens (.inl h)
  | read f buffer size => exact hopens (.inl h)
  | write f buffer size => exact hopens (.inl h)
  | readAt f buffer size offset => exact hopens (.inl h)
  | writeAt f buffer size offset => exact hopens (.inl h)
  | seek f newPos => exact hopens (.inl h)

end

/-! Runs. -/

/-- The steps that leave no file open that nobody holds. -/
def Tidy (x : Sys) : SysEvent → Prop
  | .start _ mem _ name => mem.pagedir = false ∨ Loadable x.fs name
  | .call t _ c => ∀ P, x.procs t = some P → TidyCall x P c
  | .file (.openName _) | .file (.reopen _) => False
  | .file _ | .tables _ _ _ => True

section
variable {x x' : Sys} {fs' : Fs} {e : SysEvent}

theorem Did.noStray {c : Filesys.Call} (h : Did x.fs fs' c) (hx : NoStray x)
    (ht : Tidy x (.file c)) (denied : List Nat) : NoStray { x with fs := fs', denied := denied } := by
  have hafter : ∀ {l}, After x.fs fs' l → (∀ f, fs'.files f ≠ none → x.fs.files f ≠ none) ∧
      fs'.freeMapFile = x.fs.freeMapFile := by
    intro l ha
    refine ⟨fun f hf hnone => hf ?_, ha.mapFile⟩
    by_cases hl : f ∈ l
    · exact ha.gone f hl
    · exact (ha.isNone hl).mpr hnone
  have hflag : ∀ {f d}, (∃ F, x.fs.files f = some F ∧ SetFlag x.fs f F d fs') →
      (∀ f, fs'.files f ≠ none → x.fs.files f ≠ none) ∧
      fs'.freeMapFile = x.fs.freeMapFile := by
    rintro f d ⟨F, hF, hs⟩
    refine ⟨fun f' hf hnone => hf ?_, hs.mapFile⟩
    have hne : f' ≠ f := by
      rintro rfl
      rw [hF] at hnone
      cases hnone
    rw [hs.files, update_of_ne hne]
    exact hnone
  have hsame : (∀ f, fs'.files f ≠ none → x.fs.files f ≠ none) ∧
      fs'.freeMapFile = x.fs.freeMapFile := by
    cases c with
    | openName name => exact ht.elim
    | reopen f => exact ht.elim
    | denyWrite f => exact hflag h
    | allowWrite f => exact hflag h
    | close f => exact hafter h
    | create junk name size => exact hafter h
    | remove name => exact hafter h
    | read f buffer size => exact hafter h
    | write f buffer size => exact hafter h
    | readAt f buffer size offset => exact hafter h
    | writeAt f buffer size offset => exact hafter h
    | seek f newPos => exact hafter h
  intro f hf
  have hstray := hx f (hsame.1 f hf)
  rw [← hsame.2] at hstray
  exact hstray

/-- Faults, evictions and stores are none of the files' business. -/
theorem tables_turn {b : Prop} {t : Tid} {P : Proc} (hx : Inv x) (hP : x.procs t = some P)
    (spt : Vm.SupPageTable) (pd : Vm.Pagedir) :
    Turn b t [] none x { x with
      procs := update x.procs t (some { P with supPageTable := spt, pagedir := pd }) } := by
  refine (After.refl hx.ok).drops hx _ (fun f hf => absurd hf List.not_mem_nil) ?_
    (fun f hf => absurd hf List.not_mem_nil) ?_ ?_ fun _ f hf _ => ?_
  · rw [heldBy_eq hP]
    exact .refl _
  · exact fun f hf => (selfFile_eq hP).trans hf
  · exact fun f hf _ => (selfFile_eq hP).symm.trans hf
  · rw [heldBy_eq hP] at hf
    exact hf

/-- The process that takes the step. -/
def SysEvent.actor : SysEvent → Option Tid
  | start t _ _ _ | call t _ _ | tables t _ _ => some t
  | file _ => none

section
variable (hx : Inv x) (ha : Allowed x e) (hs : sysStep x e = some x')
include hx ha hs

/-- What a step can be: some turns of a process, or a call on behalf of none. -/
theorem sysStep_cases : (∃ t, e.actor = some t ∧ Turns (Tidy x e) t x x') ∨
      ∃ c, e = .file c ∧ Did x.fs x'.fs c ∧
        x' = { x with fs := x'.fs, denied := deniedBy x.denied c } := by
  obtain ⟨⟨⟨⟩, y⟩, hexec, rfl⟩ := Option.map_eq_some_iff.mp hs
  cases e with
  | start t mem pl name =>
    exact .inl ⟨t, rfl, (startProcess_turns hx ha mem pl name fun h => h).1 _ _ hexec⟩
  | call t dirty c =>
    obtain ⟨P, hP⟩ := Option.ne_none_iff_exists'.mp ha
    exact .inl ⟨t, rfl, (SysCall.turns hx hP c fun h => h P hP).1 _ _ hexec⟩
  | file c =>
    have hdid : wpIf False (SysEvent.exec (.file c)) (fun _ y => Did x.fs y.fs c ∧
        y = { x with fs := y.fs, denied := deniedBy x.denied c }) x := by
      simp only [SysEvent.exec, wpIf_bind, wpIf_onFs, wpIf_modify]
      refine wpIf_mono (hx.ok.did ha.1 fun f hf => (ha.2 f hf).1) ?_
      exact fun _ fs' h => ⟨h, trivial⟩
    exact .inr ⟨c, rfl, hdid.1 _ _ hexec⟩
  | tables t spt pd =>
    obtain ⟨P, x₁, hcur, hset⟩ := bind_eq_some.mp hexec
    obtain ⟨x₂, x₃, hget, hfollow⟩ := bind_eq_some.mp hcur
    cases hget
    obtain ⟨P', hP, heq⟩ := Option.map_eq_some_iff.mp hfollow
    cases heq
    cases hset
    exact .inl ⟨t, rfl, (tables_turn hx hP spt pd).turns⟩

theorem sysStep_keeps : Inv x' ∧ (Tidy x e → NoStray x → NoStray x') := by
  obtain ⟨t, -, hturns⟩ | ⟨c, rfl, hdid, heq⟩ := sysStep_cases hx ha hs
  · exact ⟨hturns.inv hx, fun ht hn => hturns.noStray ht hn⟩
  · grind [hdid.inv, hdid.noStray]

end

end

section
variable {x₀ x : Sys}

theorem Booted.inv (h : Booted x₀) : Inv x₀ := by
  obtain ⟨fs₀, hstart, hreach⟩ := h.fs
  obtain ⟨d, b, own, map, root, hm⟩ := hstart.mounted
  obtain ⟨g, hg⟩ := Goes.of_reach hm.core hm.files hreach
  have hheld : ∀ t, x₀.heldBy t = [] := by
    intro t
    rw [Sys.heldBy, h.procs t]
    rfl
  refine ⟨⟨g, hg.core, hg.files⟩, fun {t f} hf => ?_, fun {t u f} hf => ?_, fun t => ?_,
    fun {t f} hf => ?_, fun {f F} hF hd => ?_⟩
  · rw [hheld] at hf
    cases hf
  · rw [hheld] at hf
    cases hf
  · rw [hheld]
    exact .nil
  · have hf' := selfFile_held hf
    rw [hheld] at hf'
    cases hf'
  · -- The only open file is that of the free map, which is written by everybody.
    obtain ⟨f', F', hmap, hF', hinode⟩ := hg.core.mapFile
    have hopen := h.files f (by rw [hF]; simp)
    rw [hmap, Option.some.injEq] at hopen
    subst hopen
    rw [hF, Option.some.injEq] at hF'
    subst hF'
    have hzero := hg.core.mapAllowed
    rw [hg.files.deny] at hzero
    have := tally_pos (p := fun i => deniesWrite (x₀.fs.files i) freeMapSector) (hg.files.lt hF)
      (by simp [deniesWrite, hF, hinode, hd])
    exact absurd hzero (Nat.pos_iff_ne_zero.mp this)

theorem Booted.noStray (h : Booted x₀) : NoStray x₀ := fun f hf => .inl (h.files f hf)

/-- **What processes hold is open and held once**, in every state of a run. -/
theorem inv_of_reach (h₀ : Booted x₀) (h : Reach sysStep Allowed x₀ x) : Inv x :=
  h.inv h₀.inv fun _ _ _ hx ha hs => (sysStep_keeps hx ha hs).1

end

/-! Runs on a formatted disk with one program. -/

def programHeader : Buf
  | 0 => 0x7f | 1 => 0x45 | 2 => 0x4c | 3 => 0x46 | 4 => 1 | 5 => 1 | 6 => 1
  | 16 => 2 | 18 => 3 | 20 => 1 | 42 => 32
  | _ => 0

def program : Name := nameA

def storeProgram : List Filesys.Call :=
  [.create (fun _ => 0) program ehdrSize, .openName program, .write 2 programHeader ehdrSize, .close 2]

/-- A process that runs the program, with memory for everything. -/
def startProgram (t : Tid) : SysEvent :=
  .start t ⟨true, fun _ => true, fun _ => true⟩ ⟨fun _ => 0, fun _ => true⟩ program

/-- A system call while no page is dirty. -/
def callOf (t : Tid) (c : SysCall) : SysEvent := .call t (fun _ => []) c

def allowed (x : Sys) : SysEvent → Bool
  | .start t _ _ _ => (x.procs t).isNone
  | .call t _ _ => (x.procs t).isSome
  | .tables _ _ _ => true
  | .file _ => false

theorem allowed_sound (x : Sys) (e : SysEvent) (h : allowed x e = true) : Allowed x e := by
  cases e with
  | start t mem pl name => exact Option.isNone_iff_eq_none.mp h
  | call t dirty c => exact Option.isSome_iff_ne_none.mp h
  | file c => cases h
  | tables t spt pd => trivial

def onlyMapOpen (fs : Fs) : Bool :=
  (List.range fs.nextFile).all fun f => (fs.files f).isNone || fs.freeMapFile == some f

/-- The system before the first process. -/
def bootedSys (fs : Fs) : Sys := ⟨fs, fun _ => none, []⟩

theorem exists_booted (q : Fs → Bool)
    (h : ((filesysInit (fun _ => 0) true (boot blankDisk allGranted)).any fun y =>
      runOk fsStep legal y.2 storeProgram && (run fsStep y.2 storeProgram).any fun fs =>
        onlyMapOpen fs && q fs) = true) :
    ∃ fs, Booted (bootedSys fs) ∧ Bounces fs.heap ∧ q fs = true := by
  obtain ⟨fs₀, fs, h₀, hr, hheap, hfs⟩ := exists_run storeProgram (fun fs => onlyMapOpen fs && q fs) h
  obtain ⟨hopen, hq⟩ := (Bool.and_eq_true _ _).mp hfs
  refine ⟨fs, ⟨⟨fs₀, h₀, hr⟩, fun f hf => ?_, fun _ => rfl, rfl⟩, hheap, hq⟩
  obtain ⟨d, b, own, map, root, hm⟩ := h₀.mounted
  obtain ⟨g, hg⟩ := Goes.of_reach hm.core hm.files hr
  have hlt : f < fs.nextFile := by
    by_contra hge
    exact hf (hg.files.fresh f (Nat.le_of_not_lt hge))
  have hf' := List.all_eq_true.mp hopen f (List.mem_range.mpr hlt)
  rw [Bool.or_eq_true, Option.isNone_iff_eq_none, beq_iff_eq] at hf'
  exact hf'.resolve_left hf

theorem exists_sysRun (l : List SysEvent) (q : Sys → Bool)
    (h : ((filesysInit (fun _ => 0) true (boot blankDisk allGranted)).any fun y =>
      runOk fsStep legal y.2 storeProgram && (run fsStep y.2 storeProgram).any fun fs =>
        onlyMapOpen fs && (runOk sysStep allowed (bootedSys fs) l &&
          (run sysStep (bootedSys fs) l).any q)) = true) :
    ∃ x₀ x, Booted x₀ ∧ Reach sysStep Allowed x₀ x ∧ q x = true := by
  obtain ⟨fs, hboot, -, hq⟩ := exists_booted _ h
  obtain ⟨hok, hrun⟩ := (Bool.and_eq_true _ _).mp hq
  obtain ⟨x, hr, hx⟩ := exists_reach _ _ l q allowed_sound hok hrun
  exact ⟨_, x, hboot, hr, hx⟩

end Pintos.Process
