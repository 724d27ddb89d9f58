import Pintos.Filesys.Runs

/- What the calls of the file system do to the open files.

   For the processes that hold them, open files differ in their inode and in whether
   they deny writes. A call opens one, closes some or leaves them all as they are; it may
   always move positions. -/
namespace Pintos.Process

open Vm (Buf)
open Filesys Function
open Lib

/-- A state that the file system can be in between calls. -/
def FsOk (fs : Fs) : Prop := ∃ g, Core fs g ∧ Files fs g

/-- A file that a process may be given: it is open, and not that of the free map. -/
structure Usable (fs : Fs) (f : Nat) : Prop where
  opened : fs.files f ≠ none
  notMap : fs.freeMapFile ≠ some f

/-- What does not change when a file is read or written. -/
def still (F : File) : Nat × Bool := (F.inode, F.denyWrite)

/-- The files in `closed` have been closed, the others are as they were. -/
structure After (fs fs' : Fs) (closed : List Nat) : Prop where
  ok : FsOk fs'
  gone : ∀ x ∈ closed, fs'.files x = none
  kept : ∀ x, x ∉ closed → (fs'.files x).map still = (fs.files x).map still
  next : fs'.nextFile = fs.nextFile
  mapFile : fs'.freeMapFile = fs.freeMapFile

/-- A file has been opened on the inode in sector `s`. -/
structure NewFile (fs : Fs) (s : Nat) (fs' : Fs) : Prop where
  ok : FsOk fs'
  files : fs'.files = update fs.files fs.nextFile (some ⟨s, 0, false⟩)
  next : fs'.nextFile = fs.nextFile + 1
  mapFile : fs'.freeMapFile = fs.freeMapFile

/-- The flag of a file has been set. -/
structure SetFlag (fs : Fs) (f : Nat) (F : File) (deny : Bool) (fs' : Fs) : Prop where
  ok : FsOk fs'
  files : fs'.files = update fs.files f (some { F with denyWrite := deny })
  next : fs'.nextFile = fs.nextFile
  mapFile : fs'.freeMapFile = fs.freeMapFile

section After
variable {fs fs' fs'' : Fs} {f : Nat} {l l' : List Nat}

theorem After.refl (h : FsOk fs) : After fs fs [] :=
  ⟨h, fun _ hx => absurd hx List.not_mem_nil, fun _ _ => rfl, rfl, rfl⟩

theorem After.trans (h : After fs fs' l) (h' : After fs' fs'' l') : After fs fs'' (l ++ l') where
  ok := h'.ok
  gone := fun x hx => by
    by_cases hl : x ∈ l'
    · exact h'.gone x hl
    · have hkept := h'.kept x hl
      rw [h.gone x ((List.mem_append.mp hx).resolve_right hl)] at hkept
      exact Option.map_eq_none_iff.mp hkept
  kept := fun x hx => by grind [h'.kept, h.kept]
  next := h'.next.trans h.next
  mapFile := h'.mapFile.trans h.mapFile

theorem After.then (h : After fs fs' []) (h' : After fs' fs'' l) : After fs fs'' l := h.trans h'

theorem After.isNone (h : After fs fs' l) (hf : f ∉ l) : fs'.files f = none ↔ fs.files f = none := by
  have hkept := h.kept f hf
  constructor
  · intro hn
    rw [hn] at hkept
    exact Option.map_eq_none_iff.mp hkept.symm
  · intro hn
    rw [hn] at hkept
    exact Option.map_eq_none_iff.mp hkept

theorem After.usable (h : After fs fs' l) (hu : Usable fs f) (hf : f ∉ l) : Usable fs' f :=
  ⟨fun hn => hu.opened ((h.isNone hf).mp hn), by rw [h.mapFile]; exact hu.notMap⟩

theorem After.file (h : After fs fs' l) {F' : File} (hF : fs'.files f = some F') :
    ∃ F, fs.files f = some F ∧ F.inode = F'.inode ∧ F.denyWrite = F'.denyWrite := by
  have hl : f ∉ l := fun hl => by
    rw [h.gone f hl] at hF
    cases hF
  have hkept := h.kept f hl
  rw [hF, Option.map_some] at hkept
  obtain ⟨F, hF, hs⟩ := Option.map_eq_some_iff.mp hkept.symm
  rw [still, still, Prod.mk.injEq] at hs
  exact ⟨F, hF, hs⟩

/-- Nothing happened to the files, or only the position of one. -/
theorem After.of_files (hok : FsOk fs') (hfiles : fs'.files = fs.files)
    (hnext : fs'.nextFile = fs.nextFile) (hmap : fs'.freeMapFile = fs.freeMapFile) :
    After fs fs' [] :=
  ⟨hok, fun _ hx => absurd hx List.not_mem_nil, fun x _ => by rw [hfiles], hnext, hmap⟩

theorem After.of_seek {F : File} {pos : Nat} (hok : FsOk fs') (hF : fs.files f = some F)
    (hfiles : fs'.files = update fs.files f (some { F with pos := pos }))
    (hnext : fs'.nextFile = fs.nextFile) (hmap : fs'.freeMapFile = fs.freeMapFile) :
    After fs fs' [] := by
  refine ⟨hok, fun _ hx => absurd hx List.not_mem_nil, fun x _ => ?_, hnext, hmap⟩
  by_cases hx : x = f
  · subst hx
    rw [hfiles, update_self, hF]
    rfl
  · rw [hfiles, update_of_ne hx]

theorem Usable.file (h : Usable fs f) : ∃ F, fs.files f = some F :=
  Option.ne_none_iff_exists'.mp h.opened

end After

/-! The calls. -/

section Calls
variable {fs : Fs} {f : Nat} {F : File}

section
variable (h : FsOk fs)
include h

theorem FsOk.filesysOpen (name : Name) : wp (filesysOpen name) (fun r fs' =>
    (r = none ∧ After fs fs' []) ∨ (r = some fs.nextFile ∧ ∃ s, NewFile fs s fs')) fs := by
  obtain ⟨g, hc, hf⟩ := h
  refine wp_mono (hc.filesysOpen hf name) ?_
  rintro r fs' (⟨rfl, hq, hg, -⟩ | ⟨rfl, k, -, -, ho⟩)
  · exact Or.inl ⟨rfl, .of_files ⟨g, hg.core, hg.files⟩ hq.files hq.nextFile hq.freeMapFile⟩
  · exact Or.inr ⟨rfl, _, ⟨_, ho.goes.core, ho.goes.files⟩, ho.files, ho.next, ho.goes.mapFile⟩

theorem FsOk.filesysCreate (junk : Buf) (name : Name) {size : Int} (hsize : size < 2147483648) :
    wpIf False (filesysCreate junk name size) (fun _ fs' => After fs fs' []) fs := by
  obtain ⟨g, hc, hf⟩ := h
  have hafter : ∀ {fs' : Fs} {g' : Ghost}, Leads fs g fs' g' → g'.cnt = g.cnt → g'.deny = g.deny →
      After fs fs' [] := fun hl hcnt hdeny =>
    have hg := hl.goes hf hcnt hdeny
    .of_files ⟨_, hg.core, hg.files⟩ hl.handles.files hl.handles.nextFile hl.handles.freeMapFile
  by_cases hneg : size < 0
  · exact wpIf_mono (hc.create_neg junk name hneg) fun _ _ ⟨_, hl⟩ => hafter hl rfl rfl
  · refine wpIf_of_wp (wp_mono (hc.create junk name (by omega) hsize) ?_)
    rintro ok fs' ⟨hfail, hdone⟩
    cases ok with
    | false => exact hafter (hfail rfl).leads rfl rfl
    | true =>
      obtain ⟨sector, start, hd⟩ := hdone rfl
      exact hafter hd.leads rfl rfl

theorem FsOk.filesysRemove (name : Name) :
    wp (filesysRemove name) (fun _ fs' => After fs fs' []) fs := by
  obtain ⟨g, hc, hf⟩ := h
  refine wp_mono (hc.filesysRemove hf name) ?_
  rintro ok fs' (⟨-, hq, hg, -⟩ | ⟨-, k, g', hr⟩)
  · exact .of_files ⟨g, hg.core, hg.files⟩ hq.files hq.nextFile hq.freeMapFile
  · exact .of_files ⟨g', hr.goes.core, hr.goes.files⟩ hr.handles.files hr.handles.nextFile
      hr.handles.freeMapFile

theorem FsOk.fileReopen (hF : fs.files f = some F) (hmap : fs.freeMapFile ≠ some f) :
    wp (fileReopen f) (fun r fs' => (r = none ∧ After fs fs' []) ∨
      (r = some fs.nextFile ∧ NewFile fs F.inode fs')) fs := by
  obtain ⟨g, hc, hf⟩ := h
  refine wp_mono (hc.fileReopen hf hF hmap) ?_
  rintro r fs' (⟨rfl, -, hq, hg⟩ | ⟨rfl, ho⟩)
  · exact Or.inl ⟨rfl, .of_files ⟨g, hg.core, hg.files⟩ hq.files hq.nextFile hq.freeMapFile⟩
  · exact Or.inr ⟨rfl, ⟨_, ho.goes.core, ho.goes.files⟩, ho.files, ho.next, ho.goes.mapFile⟩

theorem FsOk.fileClose (hu : Usable fs f) :
    wp (fileClose (some f)) (fun _ fs' => After fs fs' [f]) fs := by
  obtain ⟨g, hc, hf⟩ := h
  obtain ⟨F, hF⟩ := hu.file
  refine wp_mono (hc.fileClose hf hF hu.notMap) ?_
  rintro - fs' ⟨g', hcl⟩
  refine ⟨⟨g', hcl.goes.core, hcl.goes.files⟩, fun x hx => ?_, fun x hx => ?_, hcl.next,
    hcl.goes.mapFile⟩
  · rw [List.mem_singleton] at hx
    rw [hcl.files, hx, update_self]
  · rw [hcl.files, update_of_ne (by simpa using hx)]

theorem FsOk.fileDenyWrite (hF : fs.files f = some F) (hmap : fs.freeMapFile ≠ some f) :
    wp (fileDenyWrite f) (fun _ fs' => SetFlag fs f F true fs') fs := by
  obtain ⟨g, hc, hf⟩ := h
  refine wp_mono (hc.fileDenyWrite hf hF hmap) ?_
  rintro - fs' ⟨⟨g', hg, -⟩, hset⟩
  exact ⟨⟨g', hg.core, hg.files⟩, hset.files, hset.next, hg.mapFile⟩

theorem FsOk.fileAllowWrite (hF : fs.files f = some F) (hmap : fs.freeMapFile ≠ some f) :
    wp (fileAllowWrite f) (fun _ fs' => SetFlag fs f F false fs') fs := by
  obtain ⟨g, hc, hf⟩ := h
  refine wp_mono (hc.fileAllowWrite hf hF hmap) ?_
  rintro - fs' ⟨⟨g', hg, -⟩, hset⟩
  exact ⟨⟨g', hg.core, hg.files⟩, hset.files, hset.next, hg.mapFile⟩

theorem FsOk.fileRead (hu : Usable fs f) (buffer : Buf) (size : Nat) :
    wp (fileRead f buffer size) (fun _ fs' => After fs fs' []) fs := by
  obtain ⟨g, hc, hf⟩ := h
  obtain ⟨F, hF⟩ := hu.file
  refine wp_mono (hc.fileRead hf hF hu.notMap buffer size) ?_
  rintro r fs' ⟨hg, -, hnext, -, -, hfiles⟩
  exact .of_seek ⟨g, hg.core, hg.files⟩ hF hfiles hnext hg.mapFile

theorem FsOk.fileWrite (hu : Usable fs f) (buffer : Buf) (size : Nat) :
    wp (fileWrite f buffer size) (fun _ fs' => After fs fs' []) fs := by
  obtain ⟨g, hc, hf⟩ := h
  obtain ⟨F, hF⟩ := hu.file
  refine wp_mono (hc.fileWrite hf hF hu.notMap buffer size) ?_
  rintro k fs' ⟨hw, hfiles⟩
  exact .of_seek ⟨g, hw.goes.core, hw.goes.files⟩ hF hfiles hw.next hw.goes.mapFile

theorem FsOk.fileWriteAt (hu : Usable fs f) (buffer : Buf) (size offset : Nat) :
    wp (fileWriteAt f buffer size offset) (fun _ fs' => After fs fs' []) fs := by
  obtain ⟨g, hc, hf⟩ := h
  obtain ⟨F, hF⟩ := hu.file
  refine wp_mono (hc.fileWriteAt hf hF hu.notMap buffer size offset) ?_
  rintro k fs' ⟨hw, hfiles⟩
  exact .of_files ⟨g, hw.goes.core, hw.goes.files⟩ hfiles hw.next hw.goes.mapFile

theorem FsOk.fileSeek (hu : Usable fs f) (newPos : Nat) :
    wp (fileSeek f newPos) (fun _ fs' => After fs fs' []) fs := by
  obtain ⟨g, hc, hf⟩ := h
  obtain ⟨F, hF⟩ := hu.file
  refine wp_mono (hc.fileSeek hf hF hu.notMap newPos) ?_
  rintro - fs' ⟨hg, rfl⟩
  exact .of_seek ⟨g, hg.core, hg.files⟩ hF rfl rfl rfl

end

end Calls

end Pintos.Process
