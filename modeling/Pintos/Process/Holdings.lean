import Pintos.Process.Calls

/- The open files of processes.

   A process holds the files on its two lists and its executable. `Turn` says what a call
   does to them: some that the process held are closed, one may be opened, and what the
   process holds afterwards is among these. What a process does is a few turns, one after
   the other (`Turns`), and a turn keeps
     1. `Inv`: files that are held are open and held once, executables deny writes, and a
        file that denies writes is an executable or was told to;
     2. `NoStray`: every open file is held, if it leaves none behind.
   Here are the rules by which what the file system does becomes a turn, and the two parts
   of a process that take more than a call of it: loading and the end. -/
namespace Pintos.Process

open Vm (Buf Tid pgsize)
open Filesys Function
open Lib

variable {x x' : Sys} {f : Nat} {t u : Tid} {b : Prop} {closed : List Nat}

def Sys.heldBy (x : Sys) (t : Tid) : List Nat := ((x.procs t).map Proc.held).getD []

def Sys.selfFile (x : Sys) (t : Tid) : Option Nat := (x.procs t).bind Proc.selfFile

structure Inv (x : Sys) : Prop where
  ok : FsOk x.fs
  usable : ∀ {t f}, f ∈ x.heldBy t → Usable x.fs f
  apart : ∀ {t u f}, f ∈ x.heldBy t → f ∈ x.heldBy u → t = u
  nodup : ∀ t, (x.heldBy t).Nodup
  self : ∀ {t f}, x.selfFile t = some f → ∃ F, x.fs.files f = some F ∧ F.denyWrite = true
  deny : ∀ {f F}, x.fs.files f = some F → F.denyWrite = true →
    f ∈ x.denied ∨ ∃ t, x.selfFile t = some f

/-- Every open file is held by a process, apart from that of the free map. -/
def NoStray (x : Sys) : Prop :=
  ∀ f, x.fs.files f ≠ none → x.fs.freeMapFile = some f ∨ ∃ t, f ∈ x.heldBy t

theorem selfFile_held (h : x.selfFile t = some f) :
    f ∈ x.heldBy t := by
  rw [Sys.selfFile] at h
  obtain ⟨P, hP, hf⟩ := Option.bind_eq_some_iff.mp h
  rw [Sys.heldBy, hP]
  show f ∈ P.held
  rw [Proc.held, hf]
  exact List.mem_append_right _ (List.mem_singleton.mpr rfl)

/-! Turns. -/

/-- What may happen to the files of `t`. If `b`, none that stays open is left behind. -/
structure Turn (b : Prop) (t : Tid) (closed : List Nat) (opened : Option (Nat × Bool))
    (x x' : Sys) : Prop where
  ok : FsOk x'.fs
  gone : ∀ f ∈ closed, x'.fs.files f = none
  new : ∀ F, opened = some F → (x'.fs.files x.fs.nextFile).map still = some F
  kept : ∀ f, f ∉ closed → (opened ≠ none → f ≠ x.fs.nextFile) →
    (x'.fs.files f).map still = (x.fs.files f).map still
  mapFile : x'.fs.freeMapFile = x.fs.freeMapFile
  others : ∀ u, u ≠ t → x'.procs u = x.procs u
  own : ∀ f ∈ closed, f ∈ x.heldBy t
  holds : ∀ f ∈ x'.heldBy t, f ∉ closed ∧ (f ∈ x.heldBy t ∨ opened ≠ none ∧ f = x.fs.nextFile)
  nodup : (x'.heldBy t).Nodup
  self : ∀ f, x'.selfFile t = some f → x.selfFile t = some f ∨
    ∃ s, opened = some (s, true) ∧ f = x.fs.nextFile
  selfKept : ∀ f, x.selfFile t = some f → f ∉ closed → x'.selfFile t = some f
  selfNew : ∀ s, opened = some (s, true) → x'.selfFile t = some x.fs.nextFile
  denied : x'.denied = x.denied
  tight : b → (∀ f ∈ x.heldBy t, f ∉ closed → f ∈ x'.heldBy t) ∧
    (opened ≠ none → x.fs.nextFile ∈ x'.heldBy t)

section
variable {b : Prop} {t : Tid} {closed : List Nat} {opened : Option (Nat × Bool)} {x x' : Sys}
  {fs : Fs}

theorem FsOk.fresh (h : FsOk fs) : fs.files fs.nextFile = none := by
  obtain ⟨g, -, hf⟩ := h
  exact hf.fresh _ (le_refl _)

theorem FsOk.mapLt (h : FsOk fs) : fs.freeMapFile ≠ some fs.nextFile := by
  obtain ⟨g, hc, hf⟩ := id h
  obtain ⟨f, F, hmap, hF, -⟩ := hc.mapFile
  intro heq
  rw [hmap, Option.some.injEq] at heq
  rw [heq, h.fresh] at hF
  cases hF

theorem isNone_of_still {o o' : Option File} (h : o'.map still = o.map still) :
    o' = none ↔ o = none := by
  rw [← Option.map_eq_none_iff (f := still), h, Option.map_eq_none_iff]

theorem deny_of_still {o o' : Option File} (h : o'.map still = o.map still) {F' : File}
    (hF : o' = some F') : ∃ F, o = some F ∧ F.inode = F'.inode ∧ F.denyWrite = F'.denyWrite := by
  rw [hF, Option.map_some, eq_comm, Option.map_eq_some_iff] at h
  obtain ⟨F, hF, hstill⟩ := h
  exact ⟨F, hF, congrArg Prod.fst hstill, congrArg Prod.snd hstill⟩

section
variable (h : Turn b t closed opened x x')
include h

/-- A file of another process, or one that `t` keeps, is as it was. -/
theorem Turn.kept_held (hx : Inv x) (hf : f ∈ x.heldBy u) (hc : f ∉ closed) :
    (x'.fs.files f).map still = (x.fs.files f).map still := by
  refine h.kept f hc fun _ heq => (hx.usable hf).opened ?_
  rw [heq, hx.ok.fresh]

theorem Turn.heldBy_ne (hu : u ≠ t) : x'.heldBy u = x.heldBy u ∧ x'.selfFile u = x.selfFile u := by
  rw [Sys.heldBy, Sys.selfFile, h.others u hu]
  exact ⟨rfl, rfl⟩

/-- A process other than `t` holds what it held, and none of it is closed. -/
theorem Turn.not_closed (hx : Inv x) (hu : u ≠ t) (hf : f ∈ x.heldBy u) :
    f ∉ closed := fun hc => hu (hx.apart hf (h.own f hc))

theorem Turn.inv (hx : Inv x) : Inv x' := by
  have husable : ∀ {u f}, f ∈ x.heldBy u → f ∉ closed → Usable x'.fs f := by
    intro u f hf hc
    refine ⟨fun hnone => (hx.usable hf).opened ?_, by rw [h.mapFile]; exact (hx.usable hf).notMap⟩
    exact (isNone_of_still (h.kept_held hx hf hc)).mp hnone
  have hnew : opened ≠ none → Usable x'.fs x.fs.nextFile := by
    intro ho
    obtain ⟨F, hF⟩ := Option.ne_none_iff_exists'.mp ho
    refine ⟨fun hnone => ?_, by rw [h.mapFile]; exact hx.ok.mapLt⟩
    have hn := h.new F hF
    rw [hnone] at hn
    cases hn
  have hfresh : ∀ u, x.fs.nextFile ∉ x.heldBy u := fun u hu =>
    (hx.usable hu).opened hx.ok.fresh
  refine ⟨h.ok, ?_, ?_, ?_, ?_, ?_⟩
  · grind [h.holds, h.heldBy_ne, h.not_closed]
  · -- What `t` holds was its own or is new; what others hold was theirs.
    have hcross : ∀ {u f}, u ≠ t → f ∈ x.heldBy u → f ∉ x'.heldBy t := by grind [h.holds, hx.apart]
    intro u v f hu hv
    by_cases hut : u = t
    · grind [h.heldBy_ne]
    · grind [h.heldBy_ne, hx.apart]
  · grind [h.nodup, h.heldBy_ne, hx.nodup]
  · -- An executable that was there denies writes still; a new one does.
    have hold : ∀ {u f}, x.selfFile u = some f → f ∉ closed →
        ∃ F, x'.fs.files f = some F ∧ F.denyWrite = true := by
      intro u f hself hc
      obtain ⟨F, hF, hd⟩ := hx.self hself
      have hs := h.kept_held hx (selfFile_held hself) hc
      obtain ⟨F', hF', -, hd'⟩ := deny_of_still hs.symm hF
      exact ⟨F', hF', hd'.trans hd⟩
    intro u f hf
    by_cases hu : u = t
    · subst hu
      obtain ⟨hc, -⟩ := h.holds f (selfFile_held hf)
      obtain hself | ⟨s, ho, rfl⟩ := h.self f hf
      · exact hold hself hc
      · obtain ⟨F, hF, hstill⟩ := Option.map_eq_some_iff.mp (h.new _ ho)
        exact ⟨F, hF, congrArg Prod.snd hstill⟩
    · rw [(h.heldBy_ne hu).2] at hf
      exact hold hf (h.not_closed hx hu (selfFile_held hf))
  · intro f F hF hd
    have hc : f ∉ closed := by
      intro hc
      rw [h.gone f hc] at hF
      cases hF
    by_cases hnewf : opened ≠ none ∧ f = x.fs.nextFile
    · obtain ⟨ho, rfl⟩ := hnewf
      obtain ⟨⟨s, d⟩, hopen⟩ := Option.ne_none_iff_exists'.mp ho
      have hs := h.new _ hopen
      rw [hF, Option.map_some, Option.some.injEq] at hs
      have hdt : d = true := (congrArg Prod.snd hs).symm.trans hd
      subst hdt
      exact .inr ⟨t, h.selfNew s hopen⟩
    · obtain ⟨G, hG, -, hGd⟩ := deny_of_still (h.kept f hc fun ho heq => hnewf ⟨ho, heq⟩) hF
      rw [h.denied]
      refine (hx.deny hG (hGd.trans hd)).imp id ?_
      rintro ⟨u, hu⟩
      refine ⟨u, ?_⟩
      by_cases hut : u = t
      · subst hut
        exact h.selfKept f hu hc
      · rw [(h.heldBy_ne hut).2]
        exact hu

theorem Turn.noStray (hb : b) (hx : NoStray x) : NoStray x' := by
  obtain ⟨hkeep, hadd⟩ := h.tight hb
  intro f hf
  rw [h.mapFile]
  by_cases hnewf : opened ≠ none ∧ f = x.fs.nextFile
  · obtain ⟨ho, rfl⟩ := hnewf
    exact .inr ⟨t, hadd ho⟩
  · have hc : f ∉ closed := fun hc => hf (h.gone f hc)
    have hold : x.fs.files f ≠ none := by
      intro hnone
      exact hf ((isNone_of_still (h.kept f hc fun ho heq => hnewf ⟨ho, heq⟩)).mpr hnone)
    refine (hx f hold).imp id ?_
    rintro ⟨u, hu⟩
    by_cases hut : u = t
    · subst hut
      exact ⟨u, hkeep f hu hc⟩
    · exact ⟨u, by rw [(h.heldBy_ne hut).1]; exact hu⟩

end

end

inductive Turns (b : Prop) (t : Tid) (x : Sys) : Sys → Prop
  | refl : Turns b t x x
  | turn {x' x'' : Sys} {closed : List Nat} {opened : Option (Nat × Bool)} :
    Turns b t x x' → Turn b t closed opened x' x'' → Turns b t x x''

theorem Turn.turns {opened : Option (Nat × Bool)} (h : Turn b t closed opened x x') :
    Turns b t x x' := .turn .refl h

theorem Turns.trans {x'' : Sys} (h : Turns b t x x')
    (h' : Turns b t x' x'') : Turns b t x x'' := by
  induction h' with
  | refl => exact h
  | turn _ hturn ih => exact .turn ih hturn

theorem Turns.inv (h : Turns b t x x') (hx : Inv x) : Inv x' := by
  induction h with
  | refl => exact hx
  | turn _ hturn ih => exact hturn.inv ih

theorem Turns.others (h : Turns b t x x')
    (hu : u ≠ t) : x'.procs u = x.procs u := by
  induction h with
  | refl => rfl
  | turn _ hturn ih => exact (hturn.others u hu).trans ih

theorem Turns.noStray (h : Turns b t x x') (hb : b)
    (hx : NoStray x) : NoStray x' := by
  induction h with
  | refl => exact hx
  | turn _ hturn ih => exact hturn.noStray hb ih

/-! What the file system does, as a turn. -/

/-- A file has been opened, and perhaps told to deny writes. -/
structure Grown (fs : Fs) (F : Nat × Bool) (fs' : Fs) : Prop where
  ok : FsOk fs'
  new : (fs'.files fs.nextFile).map still = some F
  kept : ∀ f, f ≠ fs.nextFile → (fs'.files f).map still = (fs.files f).map still
  mapFile : fs'.freeMapFile = fs.freeMapFile

section
variable {fs fs' fs'' : Fs} {s : Nat} {d : Bool} {F : Nat × Bool}

theorem NewFile.grown (h : NewFile fs s fs') : Grown fs (s, false) fs' where
  ok := h.ok
  new := by
    rw [h.files, update_self]
    rfl
  kept := fun f hf => by rw [h.files, update_of_ne hf]
  mapFile := h.mapFile

theorem Grown.after (h : Grown fs F fs') (ha : After fs' fs'' []) : Grown fs F fs'' where
  ok := ha.ok
  new := (ha.kept _ List.not_mem_nil).trans h.new
  kept := fun f hf => (ha.kept f List.not_mem_nil).trans (h.kept f hf)
  mapFile := ha.mapFile.trans h.mapFile

theorem Grown.usable (h : Grown fs F fs') (hfs : FsOk fs) : Usable fs' fs.nextFile where
  opened := fun hnone => by
    have hn := h.new
    rw [hnone] at hn
    cases hn
  notMap := by
    rw [h.mapFile]
    exact hfs.mapLt

theorem Grown.setFlag (h : Grown fs (s, d) fs') {G : File} (hG : fs'.files fs.nextFile = some G)
    (hset : SetFlag fs' fs.nextFile G true fs'') : Grown fs (s, true) fs'' where
  ok := hset.ok
  new := by
    have hn := h.new
    rw [hG, Option.map_some, Option.some.injEq] at hn
    rw [hset.files, update_self, Option.map_some]
    exact congrArg (fun y : Nat × Bool => some (y.1, true)) hn
  kept := fun f hf => by
    rw [hset.files, update_of_ne hf]
    exact h.kept f hf
  mapFile := hset.mapFile.trans h.mapFile

end

section
variable {b : Prop} {t : Tid} {x : Sys} {P : Proc} {fs' : Fs}

/-- The process as it is, after something has been done to the file system that closes
    nothing. -/
theorem After.turn (ha : After x.fs fs' []) (hx : Inv x) : Turn b t [] none x { x with fs := fs' } where
  ok := ha.ok
  gone := fun f hf => absurd hf List.not_mem_nil
  new := fun F hF => by cases hF
  kept := fun f _ _ => ha.kept f List.not_mem_nil
  mapFile := ha.mapFile
  others := fun _ _ => rfl
  own := fun f hf => absurd hf List.not_mem_nil
  holds := fun f hf => ⟨List.not_mem_nil, .inl hf⟩
  nodup := hx.nodup t
  self := fun f hf => .inl hf
  selfKept := fun f hf _ => hf
  selfNew := fun s hs => by cases hs
  denied := rfl
  tight := fun _ => ⟨fun f hf _ => hf, fun h => absurd rfl h⟩

theorem heldBy_update (P' : Option Proc) :
    Sys.heldBy { x with fs := fs', procs := update x.procs t P' } t =
      (P'.map Proc.held).getD [] := by
  show ((update x.procs t P' t).map Proc.held).getD [] = _
  rw [update_self]

theorem selfFile_update (P' : Option Proc) :
    Sys.selfFile { x with fs := fs', procs := update x.procs t P' } t =
      P'.bind Proc.selfFile := by
  show (update x.procs t P' t).bind Proc.selfFile = _
  rw [update_self]

theorem heldBy_eq (hP : x.procs t = some P) : x.heldBy t = P.held := by
  rw [Sys.heldBy, hP]
  rfl

theorem selfFile_eq (hP : x.procs t = some P) : x.selfFile t = P.selfFile := by
  rw [Sys.selfFile, hP]
  rfl

/-- Some of the files are closed, and the process lets go of these and perhaps of more. -/
theorem After.drops (ha : After x.fs fs' closed) (hx : Inv x) (P' : Option Proc)
    (hown : ∀ f ∈ closed, f ∈ x.heldBy t) (hsub : ((P'.map Proc.held).getD []).Sublist (x.heldBy t))
    (hclosed : ∀ f ∈ closed, f ∉ (P'.map Proc.held).getD [])
    (hself : ∀ f, P'.bind Proc.selfFile = some f → x.selfFile t = some f)
    (hkept : ∀ f, x.selfFile t = some f → f ∉ closed → P'.bind Proc.selfFile = some f)
    (htight : b → ∀ f ∈ x.heldBy t, f ∉ closed → f ∈ (P'.map Proc.held).getD []) :
    Turn b t closed none x { x with fs := fs', procs := update x.procs t P' } := by
  refine ⟨ha.ok, ha.gone, fun F hF => (by cases hF), fun f hf _ => ha.kept f hf, ha.mapFile,
    fun u hu => update_of_ne hu _ _, hown, fun f hf => ?_, ?_, fun f hf => ?_,
    fun f hf hc => ?_, fun s hs => (by cases hs), rfl, fun hb => ⟨fun f hf hc => ?_,
    fun h => absurd rfl h⟩⟩
  · grind [heldBy_update]
  · rw [heldBy_update]
    exact (hx.nodup t).sublist hsub
  · rw [selfFile_update] at hf
    exact .inl (hself f hf)
  · rw [selfFile_update]
    exact hkept f hf hc
  · rw [heldBy_update]
    exact htight hb f hf hc

/-- A file is opened, and the process gets it, as its executable if it denies writes. -/
theorem Grown.gives {F : Nat × Bool} (hg : Grown x.fs F fs') (hx : Inv x) {P' : Proc}
    (hperm : P'.held.Perm (x.fs.nextFile :: x.heldBy t))
    (hself : P'.selfFile = if F.2 then some x.fs.nextFile else x.selfFile t)
    (hnone : F.2 = true → x.selfFile t = none) :
    Turn b t [] (some F) x { x with fs := fs', procs := update x.procs t (some P') } := by
  have hfresh : x.fs.nextFile ∉ x.heldBy t := fun hf => (hx.usable hf).opened hx.ok.fresh
  have hheld' : Sys.heldBy { x with
      fs := fs', procs := update x.procs t (some P') } t = P'.held := heldBy_update _
  have hself' : Sys.selfFile { x with
      fs := fs', procs := update x.procs t (some P') } t = P'.selfFile :=
    selfFile_update _
  refine ⟨hg.ok, fun f hf => absurd hf List.not_mem_nil, fun G hG => ?_,
    fun f _ hf => hg.kept f (hf (by simp)), hg.mapFile, fun u hu => update_of_ne hu _ _,
    fun f hf => absurd hf List.not_mem_nil, fun f hf => ?_, ?_, fun f hf => ?_,
    fun f hf _ => ?_, fun s hs => ?_, rfl, fun _ => ⟨fun f hf _ => ?_, fun _ => ?_⟩⟩
  · cases hG
    exact hg.new
  · grind
  · grind [hx.nodup]
  · grind
  · grind
  · cases hs
    rw [hself', hself, if_pos rfl]
  · rw [hheld', hperm.mem_iff]
    exact List.mem_cons_of_mem _ hf
  · rw [hheld', hperm.mem_iff]
    exact List.mem_cons_self ..

theorem Grown.leaves {s : Nat} (hg : Grown x.fs (s, false) fs') (hx : Inv x) (hb : ¬b) :
    Turn b t [] (some (s, false)) x { x with fs := fs' } where
  ok := hg.ok
  gone := fun f hf => absurd hf List.not_mem_nil
  new := fun F hF => by
    cases hF
    exact hg.new
  kept := fun f _ hf => hg.kept f (hf (by simp))
  mapFile := hg.mapFile
  others := fun _ _ => rfl
  own := fun f hf => absurd hf List.not_mem_nil
  holds := fun f hf => ⟨List.not_mem_nil, .inl hf⟩
  nodup := hx.nodup t
  self := fun f hf => .inl hf
  selfKept := fun f hf _ => hf
  selfNew := fun s hs => by cases hs
  denied := rfl
  tight := fun h => absurd h hb

end

/-! Loading. -/

section
variable {fs : Fs}

section
variable (h : FsOk fs) (hu : Usable fs f)
include h hu

theorem FsOk.fileLength : wp (fileLength f) (fun _ fs' => fs' = fs) fs := by
  obtain ⟨g, hc, hf⟩ := h
  obtain ⟨F, hF⟩ := hu.file
  obtain ⟨n, hn⟩ := hc.inode (hf.pos hF)
  simp only [Process.fileLength, wp_bind, wp_get, wp_follow, wp_pure]
  exact ⟨F, hF, n, hn, trivial⟩

theorem FsOk.loadPages (mem : LoadMem) : ∀ (turns readBytes upage : Nat) (pages : List Nat),
      wp (loadPages mem f turns readBytes upage pages) (fun _ fs' => After fs fs' []) fs := by
  intro turns
  induction turns generalizing fs with
  | zero => exact fun _ _ _ => wp_pure.mpr (.refl h)
  | succ turns ih =>
    intro readBytes upage pages
    rw [Process.loadPages]
    simp only
    by_cases hframe : mem.frame pages.length = true
    · rw [if_pos hframe, wp_bind]
      refine wp_mono (h.fileRead hu _ _) ?_
      rintro ⟨k, buf⟩ fs₁ ha
      simp only
      by_cases hk : k = min readBytes pgsize ∧ mem.install pages.length = true
      · grind [wp_mono, ha.ok, ha.usable, ha.then]
      · rw [if_neg hk]
        exact wp_pure.mpr ha
    · rw [if_neg hframe]
      exact wp_pure.mpr (.refl h)

theorem FsOk.loadSegment (mem : LoadMem) (seg : Segment) (pages : List Nat) :
    wpIf False (loadSegment mem f seg pages) (fun _ fs' => After fs fs' []) fs := by
  simp only [Process.loadSegment, wpIf_bind, wpIf_assert, false_imp_iff, and_true]
  intro _ _ _ _
  refine wpIf_of_wp (wp_mono (h.fileSeek hu _) ?_)
  rintro - fs₁ ha
  refine wpIf_of_wp (wp_mono (ha.ok.loadPages (ha.usable hu List.not_mem_nil) mem _ _ _ _) ?_)
  exact fun _ _ ha' => ha.then ha'

theorem FsOk.loadHeaders (mem : LoadMem) : ∀ (cnt : Nat) (fileOfs : Int) (pages : List Nat),
      wpIf False (loadHeaders mem f cnt fileOfs pages) (fun _ fs' => After fs fs' []) fs := by
  intro cnt
  induction cnt generalizing fs with
  | zero => exact fun _ _ => wpIf_pure.mpr (.refl h)
  | succ cnt ih =>
    intro fileOfs pages
    rw [Process.loadHeaders, wpIf_bind]
    refine wpIf_of_wp (wp_mono (h.fileLength hu) ?_)
    rintro length fs₀ rfl
    by_cases hofs : fileOfs < 0 ∨ length < fileOfs
    · rw [if_pos hofs]
      exact wpIf_pure.mpr (.refl h)
    · rw [if_neg hofs, wpIf_bind]
      refine wpIf_of_wp (wp_mono (h.fileSeek hu _) ?_)
      rintro - fs₁ ha₁
      have hu₁ := ha₁.usable hu List.not_mem_nil
      rw [wpIf_bind]
      refine wpIf_of_wp (wp_mono (ha₁.ok.fileRead hu₁ _ _) ?_)
      rintro ⟨k, buf⟩ fs₂ ha₂
      have ha := ha₁.then ha₂
      have hu₂ := ha.usable hu List.not_mem_nil
      simp only
      by_cases hbad : k ≠ phdrSize ∨ (Phdr.decode buf).type ∈ ptRefused
      · rw [if_pos hbad]
        exact wpIf_pure.mpr ha
      · rw [if_neg hbad]
        by_cases hload : (Phdr.decode buf).type = ptLoad
        · rw [if_pos hload]
          by_cases hval : validateSegment (Phdr.decode buf) length = true
          · rw [if_pos hval, wpIf_bind]
            refine wpIf_mono (ha.ok.loadSegment hu₂ mem _ pages) ?_
            rintro ⟨ok, pages'⟩ fs₃ ha₃
            simp only
            cases ok with
            | false =>
              rw [if_neg Bool.false_ne_true]
              exact wpIf_pure.mpr (ha.then ha₃)
            | true =>
              rw [if_pos rfl]
              refine wpIf_mono (ih ha₃.ok (ha₃.usable hu₂ List.not_mem_nil) _ _) ?_
              exact fun _ _ ha' => (ha.then ha₃).then ha'
          · rw [if_neg hval]
            exact wpIf_pure.mpr ha
        · grind [wpIf_mono, ha.ok, ha.then]

end

theorem Ehdr.decode_congr {a c : Buf} (h : ∀ i < ehdrSize, a i = c i) :
    Ehdr.decode a = Ehdr.decode c := by
  have hhalf : ∀ i, i + 1 < ehdrSize → half a i = half c i := by
    intro i hi
    rw [half, half, h i (by omega), h (i + 1) hi]
  have hword : ∀ i, i + 3 < ehdrSize → word a i = word c i := by
    intro i hi
    simp only [word, h i (by omega), h (i + 1) (by omega), h (i + 2) (by omega), h (i + 3) hi]
  have hident : (List.range 7).map a = (List.range 7).map c := by
    refine List.map_congr_left fun i hi => h i ?_
    rw [List.mem_range] at hi
    exact Nat.lt_trans hi (by decide)
  rw [Ehdr.decode, Ehdr.decode, hident, hhalf 16 (by decide), hhalf 18 (by decide),
    hword 20 (by decide), hword 28 (by decide), hhalf 42 (by decide), hhalf 44 (by decide)]

/-- The inode in a sector is that of a file that begins with a header `load` accepts. -/
def HasHeader (d : Disk) (s : Nat) : Prop :=
  ehdrSize ≤ (d.inodeAt s).length ∧ (Ehdr.decode ((d.inodeAt s).bytes d 0)).good = true

/-- The name is that of no file, or of one with such a header, and this can be read. -/
def Loadable (fs : Fs) (name : Name) : Prop :=
  ∀ k < (fs.disk.inodeAt rootDirSector).entryCnt,
    hasName name (dirEntry (fs.disk.inodeAt rootDirSector) fs.disk k) = true →
    HasHeader fs.disk (inodeSector (dirEntry (fs.disk.inodeAt rootDirSector) fs.disk k)) ∧
      Bounces fs.heap

theorem Core.readHeader {g : Ghost} (h : Core fs g) {F : File} (hF : fs.files f = some F)
    (hpos : 0 < g.cnt F.inode) (h0 : F.pos = 0) (hb : Bounces fs.heap)
    (hh : HasHeader fs.disk F.inode) :
    wp (fileRead f (fun _ => 0) ehdrSize)
      (fun r _ => r.1 = ehdrSize ∧ (Ehdr.decode r.2).good = true) fs := by
  obtain ⟨m, hm⟩ := h.inode hpos
  have hn := (h.opened hm).1
  have hfine := h.space.fine hn
  have hstored : fs.disk.inodeAt F.inode = m.data := hfine.stored
  rw [HasHeader, hstored] at hh
  simp only [fileRead, wp_bind, wp_get, wp_follow]
  refine ⟨F, hF, wp_mono (inodeReadAt_spec hm hfine.onDisk _ _ _) ?_⟩
  rintro r fs' ⟨k, hp, rfl, rfl, hmoved⟩
  have hk : k = ehdrSize := by
    have hall := hmoved.countOf.all hb
    rw [InodeDisk.inFile, h0] at hall
    have := hh.1
    omega
  simp only [setFile, wp_modify, wp_pure]
  refine ⟨hk, ?_⟩
  rw [Ehdr.decode_congr (c := m.data.bytes fs.disk 0) fun i hi => ?_]
  · exact hh.2
  · rw [memcpy_start, if_pos (hk ▸ hi), h0]

/-- What `load` does to the open files. If the header is not good the file stays open. -/
theorem FsOk.load (h : FsOk fs) (mem : LoadMem) (name : Name) :
    wpIf False (load mem name) (fun r fs' =>
      (r.selfFile = none ∧ After fs fs' []) ∨
      (r.selfFile = none ∧ (∃ s, Grown fs (s, false) fs') ∧ mem.pagedir = true ∧
        ¬Loadable fs name) ∨
      (r.selfFile = some fs.nextFile ∧ ∃ s, Grown fs (s, true) fs')) fs := by
  rw [Process.load]
  by_cases hpd : mem.pagedir = true
  · rw [if_pos hpd, wpIf_bind]
    obtain ⟨g, hc, hf⟩ := id h
    refine wpIf_of_wp (wp_mono (wp_and (h.filesysOpen name) (hc.filesysOpen hf name)) ?_)
    rintro r fs₁ ⟨⟨rfl, ha⟩ | ⟨rfl, s, hnew⟩, hopen⟩
    · exact wpIf_pure.mpr (.inl ⟨rfl, ha⟩)
    · obtain ⟨hno, -⟩ | ⟨-, k, hk, hname, hopened⟩ := hopen
      · cases hno
      have hg := hnew.grown
      have hu := hg.usable h
      have hF₁ : fs₁.files fs.nextFile =
          some ⟨inodeSector (dirEntry g.root fs.disk k), 0, false⟩ := by
        rw [hopened.files, update_self]
      -- If the file has a header, the read gets it.
      have hread : wp (Filesys.fileRead fs.nextFile (fun _ => 0) ehdrSize) (fun r fs' =>
          After fs₁ fs' [] ∧ (Loadable fs name → r.1 = ehdrSize ∧
            (Ehdr.decode r.2).good = true)) fs₁ := by
        by_cases hload : Loadable fs name
        · obtain ⟨hh, hb⟩ := hload k (by rw [hc.rootAt]; exact hk) (by rw [hc.rootAt]; exact hname)
          rw [hc.rootAt, ← hopened.disk] at hh
          have hpos := hopened.goes.files.pos hF₁
          refine wp_mono (wp_and (hg.ok.fileRead hu _ _) (Core.readHeader hopened.goes.core hF₁
            hpos rfl (hopened.goes.later.bounces hb) (by rw [hopened.disk] at hh ⊢; exact hh))) ?_
          exact fun _ _ hr => ⟨hr.1, fun _ => hr.2⟩
        · exact wp_mono (hg.ok.fileRead hu _ _) fun _ _ ha => ⟨ha, fun hl => absurd hl hload⟩
      simp only [wpIf_bind]
      refine wpIf_of_wp (wp_mono hread ?_)
      rintro ⟨n, buf⟩ fs₂ ⟨ha₂, hgood⟩
      simp only
      have hg₂ := hg.after ha₂
      have hu₂ := hg₂.usable h
      by_cases hhead : n = ehdrSize ∧ (Ehdr.decode buf).good = true
      · rw [if_pos hhead, wpIf_bind]
        obtain ⟨G, hG⟩ := hu₂.file
        refine wpIf_of_wp (wp_mono (ha₂.ok.fileDenyWrite hG hu₂.notMap) ?_)
        rintro - fs₃ hset
        have hg₃ := hg₂.setFlag hG hset
        have hu₃ := hg₃.usable h
        rw [wpIf_bind]
        refine wpIf_mono (hset.ok.loadHeaders hu₃ mem _ _ _) ?_
        rintro ⟨ok, pages⟩ fs₄ ha₄
        simp only
        have hg₄ := hg₃.after ha₄
        by_cases hok : (ok && mem.frame pages.length && mem.install pages.length) = true
        · rw [if_pos hok]
          exact wpIf_pure.mpr (.inr (.inr ⟨rfl, _, hg₄⟩))
        · rw [if_neg hok]
          exact wpIf_pure.mpr (.inr (.inr ⟨rfl, _, hg₄⟩))
      · rw [if_neg hhead]
        exact wpIf_pure.mpr (.inr (.inl ⟨rfl, ⟨_, hg₂⟩, hpd, fun hl => hhead (hgood hl)⟩))
  · rw [if_neg hpd]
    exact wpIf_pure.mpr (.inl ⟨rfl, .refl h⟩)

end

/-! The end of a process. -/

section
variable {fs : Fs}

theorem FsOk.writeBack (h : FsOk fs) (hu : Usable fs f) : ∀ (l : List (Buf × Nat)),
    wp (writeBack f l) (fun _ fs' => After fs fs' []) fs := by
  intro l
  induction l generalizing fs with
  | nil => exact wp_pure.mpr (.refl h)
  | cons e l ih =>
    rw [Process.writeBack, wp_bind]
    show wp (Filesys.fileWriteAt f e.1 pgsize e.2 >>= fun _ => pure ()) _ fs
    rw [wp_bind]
    refine wp_mono (h.fileWriteAt hu _ _ _) ?_
    rintro k fs₁ ha
    refine wp_pure.mpr (wp_mono (ih ha.ok (ha.usable hu List.not_mem_nil)) ?_)
    exact fun _ _ ha' => ha.then ha'

theorem FsOk.unmapAll (h : FsOk fs) (dirty : Dirty) : ∀ (l : List Nat), (∀ f ∈ l, Usable fs f) →
    wp (unmapAll dirty l) (fun _ fs' => After fs fs' []) fs := by
  intro l
  induction l generalizing fs with
  | nil => exact fun _ => wp_pure.mpr (.refl h)
  | cons f l ih =>
    intro hu
    rw [Process.unmapAll, wp_bind]
    refine wp_mono (h.writeBack (hu f (List.mem_cons_self ..)) _) ?_
    rintro - fs₁ ha
    refine wp_mono (ih ha.ok fun f' hf' =>
      ha.usable (hu f' (List.mem_cons_of_mem _ hf')) List.not_mem_nil) ?_
    exact fun _ _ ha' => ha.then ha'

theorem FsOk.closeAll (h : FsOk fs) : ∀ (l : List Nat), l.Nodup → (∀ f ∈ l, Usable fs f) →
    wp (closeAll l) (fun _ fs' => After fs fs' l) fs := by
  intro l
  induction l generalizing fs with
  | nil => exact fun _ _ => wp_pure.mpr (.refl h)
  | cons f l ih =>
    intro hnd hu
    obtain ⟨hf, hnd⟩ := List.nodup_cons.mp hnd
    rw [Process.closeAll, wp_bind]
    refine wp_mono (h.fileClose (hu f (List.mem_cons_self ..))) ?_
    rintro - fs₁ ha
    refine wp_mono (ih ha.ok hnd fun f' hf' =>
      ha.usable (hu f' (List.mem_cons_of_mem _ hf')) ?_) fun _ _ ha' => ha.trans ha'
    rw [List.mem_singleton]
    rintro rfl
    exact hf hf'

theorem FsOk.closeSelf (h : FsOk fs) {o : Option Nat} (hu : ∀ f, o = some f → Usable fs f) :
    wpIf False (closeSelf o) (fun _ fs' => After fs fs' o.toList) fs := by
  cases o with
  | none => exact wpIf_pure.mpr (.refl h)
  | some f =>
    rw [Process.closeSelf, wpIf_bind, wpIf_get, wpIf_bind, wpIf_assert]
    exact ⟨fun _ => wpIf_of_wp (h.fileClose (hu f rfl)), False.elim⟩

/-- The files that are closed when a process ends. -/
def Proc.closes (P : Proc) : List Nat := P.fileList.map Prod.snd ++ P.selfFile.toList

theorem Proc.closes_sublist (P : Proc) : P.closes.Sublist P.held :=
  (List.sublist_append_left ..).append (List.Sublist.refl _)

theorem FsOk.exitFiles (h : FsOk fs) (dirty : Dirty) {P : Proc} (hnd : P.held.Nodup)
    (hu : ∀ f ∈ P.held, Usable fs f) :
    wpIf False (exitFiles dirty P) (fun _ fs' => After fs fs' P.closes) fs := by
  have hmem : ∀ f, f ∈ P.held ↔ f ∈ P.fileList.map Prod.snd ∨ f ∈ P.mappingList ∨
      f ∈ P.selfFile.toList := by grind [Proc.held]
  rw [Process.exitFiles, wpIf_bind]
  refine wpIf_of_wp (wp_mono (h.unmapAll dirty _ fun f hf =>
    hu f ((hmem f).mpr (.inr (.inl hf)))) ?_)
  rintro - fs₁ ha₁
  have hnd' := List.nodup_append'.mp (hnd.sublist P.closes_sublist)
  rw [wpIf_bind]
  refine wpIf_of_wp (wp_mono (ha₁.ok.closeAll _ hnd'.1 fun f hf =>
    ha₁.usable (hu f ((hmem f).mpr (.inl hf))) List.not_mem_nil) ?_)
  rintro - fs₂ ha₂
  refine wpIf_mono (ha₂.ok.closeSelf fun f hf => ?_) fun _ _ ha₃ => ha₁.then (ha₂.trans ha₃)
  have hself : f ∈ P.selfFile.toList := by rw [hf]; exact List.mem_singleton.mpr rfl
  exact ha₂.usable (ha₁.usable (hu f ((hmem f).mpr (.inr (.inr hself)))) List.not_mem_nil)
    fun hlist => hnd'.2.2 hlist hself

end

section
variable {t : Tid} {x : Sys} {P : Proc} {dirty : Dirty}

theorem wpIf_current {Q : Proc → Sys → Prop} (hP : x.procs t = some P) (hq : Q P x) :
    wpIf False (current t) Q x := by
  rw [current, wpIf_bind, wpIf_get, wpIf_follow]
  refine ⟨fun P' hP' => ?_, False.elim⟩
  rw [hP, Option.some.injEq] at hP'
  exact hP' ▸ hq

theorem wpIf_onFs {α : Type} {m : FsM α} {Q : α → Sys → Prop} :
    wpIf False (onFs m) Q x ↔ wpIf False m (fun r fs' => Q r { x with fs := fs' }) x.fs := wpIf_zoom

theorem Inv.usable_of (hx : Inv x) (hP : x.procs t = some P) : ∀ f ∈ P.held, Usable x.fs f :=
  fun f hf => hx.usable (t := t) (by rw [heldBy_eq hP]; exact hf)

theorem Inv.nodup_of (hx : Inv x) (hP : x.procs t = some P) : P.held.Nodup :=
  heldBy_eq hP ▸ hx.nodup t

/-- The mapped files stay open, and nobody holds them any longer. -/
theorem threadExit_turns (hx : Inv x) (hP : x.procs t = some P) (hb : b → P.mappingList = []) :
    wpIf False (threadExit t dirty) (fun _ x' => Turns b t x x') x := by
  rw [threadExit, wpIf_bind]
  refine wpIf_current hP ?_
  rw [wpIf_bind, wpIf_onFs]
  refine wpIf_mono (hx.ok.exitFiles dirty (hx.nodup_of hP) (hx.usable_of hP)) ?_
  rintro - fs' ha
  rw [setProc, wpIf_modify]
  refine (ha.drops hx none (fun f hf => ?_) (List.nil_sublist _) (fun f _ => List.not_mem_nil)
    (fun f hf => by cases hf) (fun f hf hc => absurd ?_ hc) fun hb' f hf hc => absurd ?_ hc).turns
  · rw [heldBy_eq hP]
    exact P.closes_sublist.subset hf
  · grind [selfFile_eq, Proc.closes]
  · rw [heldBy_eq hP, Proc.held, hb hb', List.append_nil] at hf
    exact hf

end

end Pintos.Process
