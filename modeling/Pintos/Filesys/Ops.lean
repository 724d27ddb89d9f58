import Pintos.Filesys.Handles

/- The operations on files.

   Each operation has an outcome, so no `ASSERT` in it fails, and leaves the invariant
   in place. What else an operation does is said as far as later results need it. -/
namespace Pintos.Filesys

open Vm (Buf)
open Lib Function

/-- An operation: the invariant holds again, and a free map that was on the disk is. -/
structure Goes (fs : Fs) (g : Ghost) (fs' : Fs) (g' : Ghost) : Prop where
  core : Core fs' g'
  files : Files fs' g'
  map : g'.map = g.map
  root : g'.root = g.root
  mapFile : fs'.freeMapFile = fs.freeMapFile
  later : Later fs.heap fs'.heap
  synced : Bounces fs.heap → Synced g.map fs.disk fs.freeMap → Synced g.map fs'.disk fs'.freeMap

section
variable {fs fs' : Fs} {g g' : Ghost} {f s k : Nat} {F : File} {m : Inode} {n : InodeDisk}

theorem Leads.goes (h : Leads fs g fs' g') (hf : Files fs g) (hcnt : g'.cnt = g.cnt)
    (hdeny : g'.deny = g.deny) : Goes fs g fs' g' := by
  have hf' := hf.congr h.handles
  exact ⟨h.core, ⟨hf'.fresh, by rw [hcnt]; exact hf'.cnt, by rw [hdeny]; exact hf'.deny, hf'.map,
    hf'.root⟩, h.map, h.root, h.handles.freeMapFile, h.handles.later, h.synced⟩

/-- A `struct file` other than that of the free map changes. -/
theorem Core.setFile (h : Core fs g) (hf : fs.freeMapFile ≠ some f) (o : Option File) :
    Core { fs with files := update fs.files f o } g :=
  { h with
    mapFile := by
      obtain ⟨x, X, hx, hX, hi⟩ := h.mapFile
      have hne : x ≠ f := fun heq => hf (heq ▸ hx)
      exact ⟨x, X, hx, by simpa only [update_of_ne hne] using hX, hi⟩ }

theorem Ghost.bump_comm (g : Ghost) {s t : Nat} (h : s ≠ t) :
    (g.bump s).bump t = (g.bump t).bump s := by
  simp only [bump, update_of_ne h, update_of_ne (Ne.symm h)]
  rw [update_comm h]

/-! Opening. -/

theorem Files.next_ne (h : Core fs g') (hf : Files fs g) : fs.freeMapFile ≠ some fs.nextFile := by
  obtain ⟨x, X, hx, hX, -⟩ := h.mapFile
  intro heq
  rw [hx, Option.some.injEq] at heq
  exact absurd (hf.lt hX) (by omega)

/-- `file_open` of an inode to which the caller has a reference: the reference becomes
    that of the new file, or is given up. -/
theorem Core.fileOpen (h : Core fs (g.bump s)) (hf : Files fs g) (hs0 : s ≠ freeMapSector)
    (hs1 : s ≠ rootDirSector) (hdeny : g.deny s ≤ g.cnt s)
    (hkept : g.cnt s = 0 → ∀ m, fs.openInodes s = some m → m.removed = false) :
    wp (fileOpen (some s)) (fun r fs' =>
      (r = none ∧ ¬Plenty fs.heap ∧ Quiet fs fs' ∧ Core fs' g) ∨
      (r = some fs.nextFile ∧ Core fs' (g.bump s) ∧ Files fs' (g.bump s) ∧
        ∃ hp, Later fs.heap hp ∧ fs' = { fs with
          heap := hp
          files := update fs.files fs.nextFile (some ⟨s, 0, false⟩)
          nextFile := fs.nextFile + 1 })) fs := by
  simp only [Filesys.fileOpen, wp_bind, wp_malloc]
  cases h0 : fs.heap.structs 0 with
  | true =>
    simp only [newFile, wp_bind, wp_get, wp_modify, wp_pure]
    have hcore := (h.setFile (hf.next_ne h) (some ⟨s, 0, false⟩)).heap fs.heap.nextStruct
    have hnew := hf.new hs0 hs1
    exact Or.inr ⟨trivial, { hcore with }, ⟨hnew.fresh, hnew.cnt, hnew.deny, hnew.map, hnew.root⟩,
      _, .nextStruct _, rfl⟩
  | false =>
    have hno : ¬Plenty fs.heap := fun hp => by simp [hp.1 0] at h0
    simp only [wp_bind]
    refine wp_mono ((h.heap fs.heap.nextStruct).closeKept hdeny hs0 hkept) ?_
    rintro - fs' ⟨hq, hc⟩
    exact wp_pure.mpr (Or.inl ⟨rfl, hno, ⟨⟨hq.files, hq.nextFile, hq.freeMapFile,
      (Later.nextStruct _).trans hq.later⟩, hq.disk, hq.freeMap⟩, hc⟩)

theorem Core.fileOpenNull (h : Core fs g) :
    wp (Filesys.fileOpen none) (fun r fs' => r = none ∧ Quiet fs fs' ∧ Core fs' g) fs := by
  simp only [Filesys.fileOpen, wp_bind, wp_malloc, Filesys.inodeClose, wp_pure]
  exact ⟨trivial, ⟨⟨rfl, rfl, rfl, .nextStruct _⟩, rfl, rfl⟩, h.heap _⟩

theorem Core.named (h : Core fs g) (hs : Named g.root fs.disk s) :
    ∃ n, g.own s = some n ∧ s ≠ freeMapSector ∧ s ≠ rootDirSector ∧
      ∀ m, fs.openInodes s = some m → m.removed = false := by
  obtain ⟨n, hn⟩ := Option.isSome_iff_exists.mp (h.listing.owned hs)
  obtain ⟨h0, h1⟩ := h.listing.proper hs
  refine ⟨n, hn, h0, h1, fun m hm => ?_⟩
  by_contra hr
  exact (h.kept hm (by simpa using hr)).2.2 hs

structure Opened (fs : Fs) (g : Ghost) (s : Nat) (fs' : Fs) : Prop where
  goes : Goes fs g fs' (g.bump s)
  files : fs'.files = update fs.files fs.nextFile (some ⟨s, 0, false⟩)
  next : fs'.nextFile = fs.nextFile + 1
  disk : fs'.disk = fs.disk
  freeMap : fs'.freeMap = fs.freeMap

/-- A name is looked up in the open root directory. -/
theorem Core.lookupRoot (h : Core fs (g.bump rootDirSector)) (name : Name) :
    wp (lookup rootDir name) (fun r fs' => Quiet fs fs' ∧ Core fs' (g.bump rootDirSector) ∧
      ((r = none ∧ (Plenty fs.heap → ¬g.root.Bound fs.disk name)) ∨
        ∃ k < g.root.entryCnt, r = some (dirEntry g.root fs.disk k, dirEntrySize * k) ∧
          hasName name (dirEntry g.root fs.disk k) = true)) fs := by
  obtain ⟨m, hm, hdata, -, hon⟩ := h.rootInode (by rw [Ghost.bump_self]; omega)
  refine wp_mono (lookup_spec hm hon name) ?_
  rintro r fs' ⟨hp, rfl, hlater, hfound⟩
  refine ⟨⟨⟨rfl, rfl, rfl, hlater⟩, rfl, rfl⟩, h.heap hp, ?_⟩
  rw [show m.data = g.root from hdata] at hfound
  cases r with
  | none =>
    refine Or.inl ⟨rfl, fun hpl => ?_⟩
    rintro ⟨k, hk, hb⟩
    rw [hfound hpl.2 k hk] at hb
    cases hb
  | some x =>
    obtain ⟨e, ofs⟩ := x
    obtain ⟨k, hk, rfl, rfl, hname, -⟩ := hfound
    exact Or.inr ⟨k, hk, rfl, hname⟩

theorem Core.filesysOpen (h : Core fs g) (hf : Files fs g) (name : Name) :
    wp (filesysOpen name) (fun r fs' =>
      (r = none ∧ Quiet fs fs' ∧ Goes fs g fs' g ∧ (Plenty fs.heap → ¬g.root.Bound fs.disk name)) ∨
      (r = some fs.nextFile ∧ ∃ k < g.root.entryCnt, hasName name (dirEntry g.root fs.disk k) = true ∧
        Opened fs g (inodeSector (dirEntry g.root fs.disk k)) fs')) fs := by
  have hquit : ∀ {fs'}, Quiet fs fs' → Core fs' g →
      (Plenty fs.heap → ¬g.root.Bound fs.disk name) → Quiet fs fs' ∧ Goes fs g fs' g ∧
        (Plenty fs.heap → ¬g.root.Bound fs.disk name) := fun hq hc hno =>
    ⟨hq, (Leads.of_quiet hq hc rfl rfl).goes hf rfl rfl, hno⟩
  rw [Filesys.filesysOpen, wp_bind]
  refine wp_mono h.openRoot ?_
  rintro dir fs₁ ⟨hq₁, ⟨rfl, hno, hc₁⟩ | ⟨rfl, hc₁⟩⟩
  · refine wp_mono hc₁.fileOpenNull ?_
    rintro r fs₂ ⟨rfl, hq₂, hc₂⟩
    exact Or.inl ⟨rfl, hquit (hq₁.trans hq₂) hc₂ fun hp => absurd hp hno⟩
  simp only [dirLookup, wp_bind]
  refine wp_mono (hc₁.lookupRoot name) ?_
  rw [hq₁.disk]
  rintro r fs₂ ⟨hq₂, hc₂, ⟨rfl, hno⟩ | ⟨k, hk, rfl, hname⟩⟩
  · simp only [wp_pure]
    refine wp_mono hc₂.closeRoot ?_
    rintro - fs₃ ⟨hq₃, hc₃⟩
    refine wp_mono hc₃.fileOpenNull ?_
    rintro r fs₄ ⟨rfl, hq₄, hc₄⟩
    exact Or.inl ⟨rfl, hquit (((hq₁.trans hq₂).trans hq₃).trans hq₄) hc₄
      fun hp => hno (hq₁.later.plenty hp)⟩
  have huse : inUse (dirEntry g.root fs.disk k) = true := (Bool.and_eq_true .. ▸ hname).1
  obtain ⟨n, hn, hs0, hs1, hkept⟩ := h.named ⟨k, hk, huse, rfl⟩
  have hq₂ := hq₁.trans hq₂
  refine wp_mono (hc₂.inodeOpen hn) ?_
  rintro r fs₃ ⟨hq₃, ⟨rfl, hno, hc₃⟩ | ⟨rfl, hc₃⟩⟩
  · refine wp_mono hc₃.closeRoot ?_
    rintro - fs₄ ⟨hq₄, hc₄⟩
    refine wp_mono hc₄.fileOpenNull ?_
    rintro r fs₅ ⟨rfl, hq₅, hc₅⟩
    exact Or.inl ⟨rfl, hquit (((hq₂.trans hq₃).trans hq₄).trans hq₅) hc₅
      fun hp => absurd (hq₂.later.plenty hp) hno⟩
  rw [Ghost.bump_comm _ (Ne.symm hs1)] at hc₃
  refine wp_mono hc₃.closeRoot ?_
  rintro - fs₄ ⟨hq₄, hc₄⟩
  have hq := (hq₂.trans hq₃).trans hq₄
  refine wp_mono (hc₄.fileOpen (hf.congr hq.toSameHandles) hs0 hs1 (h.deny_le _)
    fun _ m' hm' => ?_) ?_
  · obtain ⟨-, -, -, -, hkept₄⟩ := hc₄.named ⟨k, hk, by rw [hq.disk]; exact ⟨huse, rfl⟩⟩
    exact hkept₄ m' hm'
  · rintro r fs₅ (⟨rfl, hno, hq₅, hc₅⟩ | ⟨rfl, hc₅, hf₅, hp₅, hpl₅, rfl⟩)
    · exact Or.inl ⟨rfl, hquit (hq.trans hq₅) hc₅ fun hp => absurd (hq.later.plenty hp) hno⟩
    · refine Or.inr ⟨by rw [hq.nextFile], k, hk, hname, ⟨hc₅, hf₅, rfl, rfl, hq.freeMapFile,
        hq.later.trans hpl₅, fun hp hs => by rw [hq.disk, hq.freeMap]; exact hs⟩, ?_, ?_,
        hq.disk, hq.freeMap⟩
      · simp only [hq.files, hq.nextFile]
      · simp only [hq.nextFile]

theorem Core.fileReopen (h : Core fs g) (hf : Files fs g) (hfile : fs.files f = some F)
    (hmap : fs.freeMapFile ≠ some f) :
    wp (fileReopen f) (fun r fs' =>
      (r = none ∧ ¬Plenty fs.heap ∧ Quiet fs fs' ∧ Goes fs g fs' g) ∨
      (r = some fs.nextFile ∧ Opened fs g F.inode fs')) fs := by
  have hpos := hf.pos hfile
  have hs0 : F.inode ≠ freeMapSector := fun hi => hmap (hf.map hfile hi)
  simp only [Filesys.fileReopen, wp_bind, wp_get, wp_follow]
  refine ⟨F, hfile, wp_mono (h.inodeReopen hpos) ?_⟩
  rintro - fs₁ ⟨hq, hc⟩
  refine wp_mono (hc.fileOpen (hf.congr hq.toSameHandles) hs0 (hf.root hfile) (h.deny_le _)
    fun hz => absurd hz (by omega)) ?_
  rintro r fs₂ (⟨rfl, hno, hq₂, hc₂⟩ | ⟨rfl, hc₂, hf₂, hp₂, hpl₂, rfl⟩)
  · have hq' := hq.trans hq₂
    exact Or.inl ⟨rfl, fun hp => hno (hq.later.plenty hp), hq',
      (Leads.of_quiet hq' hc₂ rfl rfl).goes hf rfl rfl⟩
  · refine Or.inr ⟨by rw [hq.nextFile], ⟨hc₂, hf₂, rfl, rfl, hq.freeMapFile, hq.later.trans hpl₂,
      fun hp hs => by rw [hq.disk, hq.freeMap]; exact hs⟩, ?_, ?_, hq.disk, hq.freeMap⟩
    · simp only [hq.files, hq.nextFile]
    · simp only [hq.nextFile]

/-! Denying writes. -/

theorem Files.inode_ne (h : Files fs g) (hfile : fs.files f = some F)
    (hmap : fs.freeMapFile ≠ some f) : ¬(F.inode = freeMapSector ∨ F.inode = rootDirSector) := by
  rintro (hi | hi)
  · exact hmap (h.map hfile hi)
  · exact h.root hfile hi

/-- The flag of an open file and the count of its inode change together. -/
theorem Core.setDeny (h : Core fs g) (hf : Files fs g) (hfile : fs.files f = some F)
    (hmap : fs.freeMapFile ≠ some f) (hm : fs.openInodes F.inode = some m) {deny : Bool} {dc : Nat}
    (hdc : dc + F.denyWrite.toNat = g.deny F.inode + deny.toNat) (hle : dc ≤ g.cnt F.inode) :
    Goes fs g
      { fs with
        files := update fs.files f (some { F with denyWrite := deny })
        openInodes := update fs.openInodes F.inode (some { m with denyWriteCnt := dc }) }
      { g with deny := update g.deny F.inode dc } := by
  obtain ⟨ho, hc, -⟩ := h.opened hm
  have hset := (h.setFile hmap (some { F with denyWrite := deny })).setInode
    (m := { m with denyWriteCnt := dc }) ho hc (hf.pos hfile) rfl hle
    (fun hs => absurd hs (hf.inode_ne hfile hmap)) fun hr => h.kept hm hr
  rw [update_eq_self] at hset
  have hfs := hf.setDeny hfile hdc
  exact ⟨hset, ⟨hfs.fresh, hfs.cnt, hfs.deny, hfs.map, hfs.root⟩, rfl, rfl, rfl, .refl _, fun _ => id⟩

/-- The flag of an open file after `file_deny_write` or `file_allow_write`. -/
structure DenySet (fs : Fs) (f : Nat) (F : File) (deny : Bool) (fs' : Fs) : Prop where
  files : fs'.files = update fs.files f (some { F with denyWrite := deny })
  next : fs'.nextFile = fs.nextFile
  inodes : ∀ s m, fs.openInodes s = some m → ∃ m', fs'.openInodes s = some m' ∧
    m'.openCnt = m.openCnt ∧ m'.removed = m.removed ∧ m'.data = m.data
  disk : fs'.disk = fs.disk
  freeMap : fs'.freeMap = fs.freeMap

theorem DenySet.self (hfile : fs.files f = some F) : DenySet fs f F F.denyWrite fs :=
  ⟨by rw [← hfile, update_eq_self], rfl, fun _ m hm => ⟨m, hm, rfl, rfl, rfl⟩, rfl, rfl⟩

theorem DenySet.of_set (hm : fs.openInodes F.inode = some m) (deny : Bool) (dc : Nat) :
    DenySet fs f F deny { fs with
      files := update fs.files f (some { F with denyWrite := deny })
      openInodes := update fs.openInodes F.inode (some { m with denyWriteCnt := dc }) } := by
  refine ⟨rfl, rfl, fun s m' hm' => ?_, rfl, rfl⟩
  by_cases hs : s = F.inode
  · grind
  · exact ⟨m', (update_of_ne hs ..).trans hm', rfl, rfl, rfl⟩

/-- Another open file that does not deny writes leaves room for one that does. -/
theorem Files.deny_lt (h : Files fs g) (hfile : fs.files f = some F) (hd : F.denyWrite = false) :
    g.deny F.inode < g.cnt F.inode := by
  have hdrop := h.drop hfile hd
  have hle : g.deny F.inode ≤ (g.drop F.inode).cnt F.inode := by
    rw [show g.deny F.inode = _ from hdrop.deny F.inode, hdrop.cnt F.inode]
    refine tally_le fun i hi => ?_
    simp only [deniesWrite, onInode, Option.any_eq_true, Bool.and_eq_true] at hi ⊢
    obtain ⟨G, hG, hi, -⟩ := hi
    exact ⟨G, hG, hi⟩
  have hcnt : (g.drop F.inode).cnt F.inode = g.cnt F.inode - 1 := update_self ..
  have hpos := h.pos hfile
  omega

theorem Files.deny_pos (h : Files fs g) (hfile : fs.files f = some F) (hd : F.denyWrite = true) :
    0 < g.deny F.inode := by
  rw [h.deny]
  exact tally_pos (h.lt hfile) (by simp [deniesWrite, hfile, hd])

section
variable (h : Core fs g) (hf : Files fs g) (hfile : fs.files f = some F)
  (hmap : fs.freeMapFile ≠ some f)
include h hf hfile hmap

theorem Core.fileDenyWrite :
    wp (fileDenyWrite f) (fun _ fs' => (∃ g', Goes fs g fs' g' ∧ g'.cnt = g.cnt ∧ g'.own = g.own) ∧
      DenySet fs f F true fs') fs := by
  simp only [Filesys.fileDenyWrite, wp_bind, wp_get, wp_follow]
  refine ⟨F, hfile, ?_⟩
  cases hd : F.denyWrite with
  | true =>
    simp only [if_true, wp_pure]
    have hself := DenySet.self hfile
    rw [hd] at hself
    exact ⟨⟨g, ⟨h, hf, rfl, rfl, rfl, .refl _, fun _ => id⟩, rfl, rfl⟩, hself⟩
  | false =>
    obtain ⟨m, hm⟩ := h.inode (hf.pos hfile)
    obtain ⟨-, hc, hdm⟩ := h.opened hm
    have hlt := hf.deny_lt hfile hd
    simp only [Bool.false_eq_true, if_false, wp_bind, Filesys.setFile, wp_modify,
      Filesys.inodeDenyWrite, wp_get, wp_follow, Filesys.setInode, wp_assert, decide_eq_true_eq]
    refine ⟨m, hm, by omega, ⟨_, h.setDeny hf hfile hmap hm ?_ ?_, rfl, rfl⟩, .of_set hm true _⟩
    · rw [hd, hdm]
      rfl
    · omega

theorem Core.fileAllowWrite :
    wp (fileAllowWrite f) (fun _ fs' => (∃ g', Goes fs g fs' g' ∧ g'.cnt = g.cnt ∧ g'.own = g.own) ∧
      DenySet fs f F false fs') fs := by
  simp only [Filesys.fileAllowWrite, wp_bind, wp_get, wp_follow]
  refine ⟨F, hfile, ?_⟩
  cases hd : F.denyWrite with
  | false =>
    simp only [Bool.false_eq_true, if_false, wp_pure]
    have hself := DenySet.self hfile
    rw [hd] at hself
    exact ⟨⟨g, ⟨h, hf, rfl, rfl, rfl, .refl _, fun _ => id⟩, rfl, rfl⟩, hself⟩
  | true =>
    obtain ⟨m, hm⟩ := h.inode (hf.pos hfile)
    obtain ⟨-, hc, hdm⟩ := h.opened hm
    have hpos := hf.deny_pos hfile hd
    have hle := h.deny_le F.inode
    simp only [if_true, wp_bind, Filesys.setFile, wp_modify, Filesys.inodeAllowWrite, wp_get,
      wp_follow, Filesys.setInode, wp_assert, decide_eq_true_eq]
    refine ⟨m, hm, by omega, by omega, ⟨_, h.setDeny hf hfile hmap hm ?_ ?_, rfl, rfl⟩,
      .of_set hm false _⟩
    · grind
    · omega

/-! Closing. -/

/-- The result of closing an open file: its inode loses a reference, and the sectors of
    a removed inode go with the last. -/
structure Closed (fs : Fs) (g : Ghost) (f : Nat) (F : File) (fs' : Fs) (g' : Ghost) : Prop where
  goes : Goes fs g fs' g'
  files : fs'.files = update fs.files f none
  next : fs'.nextFile = fs.nextFile
  cnt : g'.cnt = (g.drop F.inode).cnt
  own : ∀ m, fs.openInodes F.inode = some m → g'.own =
    if g.cnt F.inode = 1 ∧ m.removed = true then update g.own F.inode none else g.own
  freeMap : ∀ m, fs.openInodes F.inode = some m → fs'.freeMap =
    if g.cnt F.inode = 1 ∧ m.removed = true then
      (fs.freeMap.fill F.inode 1 false).fill m.data.start m.data.sectors false
    else fs.freeMap
  disk : SameOff g.map fs.disk fs'.disk

theorem Core.fileClose :
    wp (fileClose (some f)) (fun _ fs' => ∃ g', Closed fs g f F fs' g') fs := by
  have hs0 : F.inode ≠ freeMapSector := fun hi => hmap (hf.map hfile hi)
  simp only [Filesys.fileClose, wp_bind]
  refine wp_mono (h.fileAllowWrite hf hfile hmap) ?_
  rintro - fs₁ ⟨⟨g₁, hgo, hcnt, hown⟩, hset⟩
  have hmap₁ : fs₁.freeMapFile ≠ some f := by rw [hgo.mapFile]; exact hmap
  have hfile₁ : fs₁.files f = some { F with denyWrite := false } := by
    rw [hset.files, update_self]
  simp only [wp_get, wp_follow]
  refine ⟨_, hfile₁, ?_⟩
  obtain ⟨m, hm⟩ := h.inode (hf.pos hfile)
  obtain ⟨m₁, hm₁, -, hrem, hdata⟩ := hset.inodes _ m hm
  refine wp_mono (hgo.core.inodeClose hm₁ (hgo.files.deny_lt hfile₁ rfl) fun hs => absurd hs hs0) ?_
  rintro - fs₂ ⟨hrel, hquiet⟩
  have hdrop : ∀ {fs' : Fs} {g' : Ghost}, SameHandles fs₁ fs' → g'.cnt = (g₁.drop F.inode).cnt →
      g'.deny = g₁.deny → Files { fs' with files := update fs'.files f none } g' := by
    intro fs' g' hs hc hd
    have hfs := (hgo.files.congr hs).drop (by rw [hs.files]; exact hfile₁) rfl
    exact ⟨hfs.fresh, by rw [hc]; exact hfs.cnt, by rw [hd]; exact hfs.deny, hfs.map, hfs.root⟩
  have hfiles : update fs₁.files f none = update fs.files f none := by
    rw [hset.files, update_idem]
  simp only [Filesys.setFile, wp_modify]
  by_cases hlast : g₁.cnt F.inode = 1 ∧ m₁.removed = true
  · have hr := hrel hlast
    have hc := hr.core.setFile (f := f) (by rw [hr.handles.freeMapFile]; exact hmap₁) none
    have hcond : g.cnt F.inode = 1 ∧ m.removed = true := ⟨hcnt ▸ hlast.1, hrem ▸ hlast.2⟩
    refine ⟨_, ⟨hc, hdrop hr.handles rfl rfl, hgo.map, hgo.root,
      hr.handles.freeMapFile.trans hgo.mapFile, hgo.later.trans hr.handles.later,
      fun hp hs => by
        have hs₁ := hgo.synced hp hs
        rw [← hgo.map] at hs₁ ⊢
        exact hr.synced (hgo.later.bounces hp) hs₁⟩, ?_,
      hr.handles.nextFile.trans hset.next, ?_, fun m' hm' => ?_, fun m' hm' => ?_, ?_⟩
    · simp only [hr.handles.files, hfiles]
    · simp only [Ghost.drop, hcnt]
    · grind [Ghost.drop]
    · grind [hr.freeMap, hset.freeMap]
    · grind [hr.disk, hset.disk, Ghost.drop, hgo.map]
  · obtain ⟨hq, hc₂⟩ := hquiet hlast
    have hc := hc₂.setFile (f := f) (by rw [hq.freeMapFile]; exact hmap₁) none
    have hcond : ¬(g.cnt F.inode = 1 ∧ m.removed = true) := fun hcd =>
      hlast ⟨hcnt.symm ▸ hcd.1, hrem.symm ▸ hcd.2⟩
    refine ⟨_, ⟨hc, hdrop hq.toSameHandles rfl rfl, hgo.map, hgo.root,
      hq.freeMapFile.trans hgo.mapFile, hgo.later.trans hq.later, fun hp hs => ?_⟩, ?_,
      hq.nextFile.trans hset.next, ?_, fun m' hm' => ?_, fun m' hm' => ?_, ?_⟩
    · simp only [hq.disk, hq.freeMap]
      exact hgo.synced hp hs
    · simp only [hq.files, hfiles]
    · simp only [Ghost.drop, hcnt]
    · rw [hm, Option.some.injEq] at hm'
      subst hm'
      rw [if_neg hcond]
      exact hown
    · grind [hq.freeMap, hset.freeMap]
    · rw [show _ = fs.disk from hq.disk.trans hset.disk]
      exact .refl _ _

end

/-! Removing. -/

theorem Core.inodeRemove (h : Core fs g) (hm : fs.openInodes s = some m) (hs0 : s ≠ freeMapSector)
    (hs1 : s ≠ rootDirSector) (hnamed : ¬Named g.root fs.disk s) :
    wp (inodeRemove s) (fun _ fs' => Quiet fs fs' ∧ Core fs' g ∧
      fs'.openInodes s = some { m with removed := true }) fs := by
  obtain ⟨ho, hc, hd⟩ := h.opened hm
  have hpos : 0 < g.cnt s := by grind [h.closed]
  simp only [Filesys.inodeRemove, wp_bind, wp_get, wp_follow, Filesys.setInode, wp_modify]
  refine ⟨m, hm, ⟨⟨rfl, rfl, rfl, .refl _⟩, rfl, rfl⟩, ?_, update_self ..⟩
  have hset := h.setInode (m := { m with removed := true }) ho hc hpos hd (h.deny_le s)
    h.sys_allowed fun _ => ⟨hs0, hs1, hnamed⟩
  rwa [update_eq_self, update_eq_self] at hset

structure Cleared (n : InodeDisk) (d : Disk) (k : Nat) (d' : Disk) : Prop where
  free : inUse (dirEntry n d' k) = false
  others : ∀ j < n.entryCnt, j ≠ k → dirEntry n d' j = dirEntry n d j

/-- The result of removing the file in slot `k`: its name is gone, and so are its sectors
    if nobody has it open. -/
structure Removed (fs : Fs) (g : Ghost) (name : Name) (k : Nat) (fs' : Fs) (g' : Ghost) : Prop where
  goes : Goes fs g fs' g'
  handles : SameHandles fs fs'
  cnt : g'.cnt = g.cnt
  lt : k < g.root.entryCnt
  name : hasName name (dirEntry g.root fs.disk k) = true
  cleared : Cleared g.root fs.disk k fs'.disk
  own : g'.own = if g.cnt (inodeSector (dirEntry g.root fs.disk k)) = 0 then
      update g.own (inodeSector (dirEntry g.root fs.disk k)) none
    else g.own

theorem cleared_patch (n : InodeDisk) (d : Disk) (k : Nat) (e : Buf) :
    Cleared n d k
      (d.patch (sectorSize * n.start + dirEntrySize * k) dirEntrySize (clearEntry e)) := by
  refine ⟨?_, fun j _ hj => dirEntry_patch_ne _ _ _ _ hj⟩
  rw [inUse_congr fun j hj => dirEntry_patch_self _ _ _ _ hj]
  exact inUse_clearEntry e

theorem Cleared.not_named {d d' : Disk} {own : Nat → Option InodeDisk} (h : Cleared n d k d')
    (hlist : Listing n d own) (hk : k < n.entryCnt) (huse : inUse (dirEntry n d k) = true) :
    ¬Named n d' (inodeSector (dirEntry n d k)) := by
  rintro ⟨j, hj, hu, hs⟩
  by_cases hjk : j = k
  · rw [hjk, h.free] at hu
    cases hu
  · grind [h.others, hlist.distinct]

theorem Cleared.congr {d e d' : Disk} (h : Cleared n d k e) (hk : k < n.entryCnt)
    (hs : SameEntries n e d') : Cleared n d k d' :=
  ⟨by rw [hs k hk]; exact h.free, fun j hj hjk => (hs j hj).trans (h.others j hj hjk)⟩

/-- The end of `dir_remove`, with the inode open: the entry is erased, the inode marked and
    closed. -/
theorem Core.eraseEntry (h : Core fs (g.bump s)) (hroot : 0 < g.cnt rootDirSector)
    (hk : k < g.root.entryCnt) (huse : inUse (dirEntry g.root fs.disk k) = true)
    (hs : inodeSector (dirEntry g.root fs.disk k) = s) (hdeny : g.deny s ≤ g.cnt s) : wp (do
        let cnt ← inodeWriteAt rootDirSector (clearEntry (dirEntry g.root fs.disk k)) dirEntrySize
          (dirEntrySize * k)
        (if cnt = dirEntrySize then Filesys.inodeRemove s else pure ())
        Filesys.inodeClose (some s)
        return decide (cnt = dirEntrySize))
      (fun ok fs' =>
        (ok = false ∧ ¬Plenty fs.heap ∧ Quiet fs fs' ∧ Core fs' g) ∨
        (ok = true ∧ Cleared g.root fs.disk k fs'.disk ∧ Leads fs g fs' { g with
          own := if g.cnt s = 0 then update g.own s none else g.own })) fs := by
  obtain ⟨n, hn, hs0, hs1, hkept⟩ := h.named ⟨k, hk, huse, hs⟩
  have hlist : Listing g.root fs.disk g.own := h.listing
  obtain ⟨m, hm, hdata, hdw, hon⟩ := h.rootInode (by rw [Ghost.bump_ne _ (Ne.symm hs1)]; exact hroot)
  have hdata : m.data = g.root := hdata
  rw [wp_bind]
  refine wp_mono (inodeWriteAt_spec hm hon hdw _ dirEntrySize (dirEntrySize * k)) ?_
  rintro cnt fs₁ ⟨hp, rfl, hmv⟩
  rw [hdata] at hmv ⊢
  have hcnt : cnt = dirEntrySize ∨ (cnt = 0 ∧ ¬Bounces fs.heap) := by
    rw [← (want_entry g.root k).mpr hk]
    exact hmv.small (by decide)
  rcases hcnt with rfl | ⟨rfl, hno⟩
  · -- the entry is erased: the file has no name any more
    have hclr := cleared_patch g.root fs.disk k (dirEntry g.root fs.disk k)
    have hnamed := hclr.not_named hlist hk huse
    rw [hs] at hnamed
    have hc₁ := (h.setSlot hk (e := clearEntry (dirEntry g.root fs.disk k))
      (fun hu => by rw [inUse_clearEntry] at hu; cases hu) rfl).heap hp
    obtain ⟨mi, hmi⟩ := hc₁.inode (s := s) (by rw [Ghost.bump_self]; omega)
    simp only [if_true, decide_true, wp_bind]
    refine wp_mono (hc₁.inodeRemove hmi hs0 hs1 hnamed) ?_
    rintro - fs₂ ⟨hq₂, hc₂, hm₂⟩
    refine wp_mono (hc₂.inodeClose hm₂ (by rw [Ghost.bump_self]; exact Nat.lt_succ_of_le hdeny)
      fun hs' => absurd hs' hs0) ?_
    rintro - fs₃ ⟨hrel, hquiet⟩
    rw [Ghost.bump_self, Ghost.drop_bump] at hrel hquiet
    refine wp_pure.mpr (Or.inr ⟨rfl, ?_⟩)
    by_cases hz : g.cnt s = 0
    · have hr := hrel ⟨by rw [hz], rfl⟩
      refine ⟨(hclr.congr hk (hq₂.entries _)).congr hk (hc₂.mapEntries hr.disk), ?_⟩
      rw [if_pos hz]
      exact ⟨hr.core, ⟨hr.handles.files.trans hq₂.files, hr.handles.nextFile.trans hq₂.nextFile,
        hr.handles.freeMapFile.trans hq₂.freeMapFile, (hmv.later.trans hq₂.later).trans hr.handles.later⟩,
        rfl, rfl, fun hpl hst => hr.synced (hq₂.later.bounces (hmv.later.bounces hpl)) (by
          rw [hq₂.disk, hq₂.freeMap]
          exact h.syncedSlot hk _ hst)⟩
    · obtain ⟨hq₃, hc₃⟩ := hquiet fun hc => hz (by omega)
      have hq := hq₂.trans hq₃
      refine ⟨hclr.congr hk (hq.entries _), ?_⟩
      rw [if_neg hz]
      refine ⟨hc₃, ⟨hq.files, hq.nextFile, hq.freeMapFile, hmv.later.trans hq.later⟩, rfl, rfl,
        fun _ hst => ?_⟩
      rw [hq.disk, hq.freeMap]
      exact h.syncedSlot hk _ hst
  · -- nothing was written
    simp only [Disk.patch_zero, if_neg (show ¬0 = dirEntrySize by decide), wp_bind, wp_pure]
    refine wp_mono ((h.heap hp).closeKept hdeny hs0 fun _ => hkept) ?_
    rintro - fs₂ ⟨hq, hc⟩
    exact Or.inl ⟨rfl, fun hpl => hno hpl.2, ⟨⟨hq.files, hq.nextFile, hq.freeMapFile,
      hmv.later.trans hq.later⟩, hq.disk, hq.freeMap⟩, hc⟩

theorem Core.filesysRemove (h : Core fs g) (hf : Files fs g) (name : Name) :
    wp (filesysRemove name) (fun ok fs' =>
      (ok = false ∧ Quiet fs fs' ∧ Goes fs g fs' g ∧ (Plenty fs.heap → ¬g.root.Bound fs.disk name)) ∨
      (ok = true ∧ ∃ k g', Removed fs g name k fs' g')) fs := by
  have hquit : ∀ {fs'}, Quiet fs fs' → Core fs' g →
      (Plenty fs.heap → ¬g.root.Bound fs.disk name) → false = false ∧ Quiet fs fs' ∧
        Goes fs g fs' g ∧ (Plenty fs.heap → ¬g.root.Bound fs.disk name) := fun hq hc hno =>
    ⟨rfl, hq, (Leads.of_quiet hq hc rfl rfl).goes hf rfl rfl, hno⟩
  rw [Filesys.filesysRemove, wp_bind]
  refine wp_mono h.openRoot ?_
  rintro dir fs₁ ⟨hq₁, ⟨rfl, hno, hc₁⟩ | ⟨rfl, hc₁⟩⟩
  · exact wp_pure.mpr (Or.inl (hquit hq₁ hc₁ fun hp => absurd hp hno))
  simp only [dirRemove, wp_bind]
  refine wp_mono (hc₁.lookupRoot name) ?_
  rw [hq₁.disk]
  rintro r fs₂ ⟨hq₂, hc₂, ⟨rfl, hno⟩ | ⟨k, hk, rfl, hname⟩⟩
  · refine wp_pure.mpr (wp_mono hc₂.closeRoot ?_)
    rintro - fs₃ ⟨hq₃, hc₃⟩
    exact wp_pure.mpr (Or.inl (hquit ((hq₁.trans hq₂).trans hq₃) hc₃
      fun hp => hno (hq₁.later.plenty hp)))
  have huse : inUse (dirEntry g.root fs.disk k) = true := (Bool.and_eq_true .. ▸ hname).1
  obtain ⟨n, hn, hs0, hs1, hkept⟩ := h.named ⟨k, hk, huse, rfl⟩
  have hq₂ := hq₁.trans hq₂
  simp only [wp_bind]
  refine wp_mono (hc₂.inodeOpen hn) ?_
  rintro r fs₃ ⟨hq₃, ⟨rfl, hno, hc₃⟩ | ⟨rfl, hc₃⟩⟩
  · refine wp_pure.mpr (wp_mono hc₃.closeRoot ?_)
    rintro - fs₄ ⟨hq₄, hc₄⟩
    exact wp_pure.mpr (Or.inl (hquit ((hq₂.trans hq₃).trans hq₄) hc₄
      fun hp => absurd (hq₂.later.plenty hp) hno))
  have hq := hq₂.trans hq₃
  have hcnt : (g.bump rootDirSector).cnt (inodeSector (dirEntry g.root fs.disk k)) =
    g.cnt (inodeSector (dirEntry g.root fs.disk k)) := Ghost.bump_ne _ hs1
  have herase := hc₃.eraseEntry (k := k) (by rw [Ghost.bump_self]; omega) hk
    (by rw [hq.disk]; exact huse) (by rw [hq.disk]; rfl) (by rw [hcnt]; exact h.deny_le _)
  rw [hq.disk] at herase
  refine wp_mono herase ?_
  rintro ok fs₄ (⟨rfl, hno, hq₄, hc₄⟩ | ⟨rfl, hclr, hl₄⟩)
  · refine wp_mono hc₄.closeRoot ?_
    rintro - fs₅ ⟨hq₅, hc₅⟩
    exact wp_pure.mpr (Or.inl (hquit ((hq.trans hq₄).trans hq₅) hc₅
      fun hp => absurd (hq.later.plenty hp) hno))
  · rw [hcnt] at hl₄
    refine wp_mono (Core.closeRoot (g := { g with
      own := if g.cnt (inodeSector (dirEntry g.root fs.disk k)) = 0 then
          update g.own (inodeSector (dirEntry g.root fs.disk k)) none
        else g.own }) hl₄.core) ?_
    rintro - fs₅ ⟨hq₅, hc₅⟩
    have hh := (hq.toSameHandles.trans hl₄.handles).trans hq₅.toSameHandles
    have hl : Leads fs g fs₅ _ := ⟨hc₅, hh, rfl, rfl, fun hp hs => by
      rw [hq₅.disk, hq₅.freeMap]
      exact hl₄.synced (hq.later.bounces hp) (by rw [hq.disk, hq.freeMap]; exact hs)⟩
    exact wp_pure.mpr (Or.inr ⟨rfl, k, _, hl.goes hf rfl rfl, hh, rfl, hk, hname,
      hclr.congr hk (hq₅.entries _), rfl⟩)

/-! Reading and writing. -/

theorem Core.inodeWriteAt (h : Core fs g) (hpos : 0 < g.cnt s) (hs0 : s ≠ freeMapSector)
    (hs1 : s ≠ rootDirSector) (buffer : Buf) (size offset : Nat) :
    wp (inodeWriteAt s buffer size offset) (fun k fs' => Leads fs g fs' g ∧
      fs'.openInodes = fs.openInodes ∧ fs'.freeMap = fs.freeMap ∧
      (g.deny s ≠ 0 → k = 0 ∧ fs' = fs) ∧
      ∀ m, fs.openInodes s = some m → SameOff m.data fs.disk fs'.disk) fs := by
  obtain ⟨m, hm⟩ := h.inode hpos
  obtain ⟨hn, -, hd⟩ := h.opened hm
  by_cases hdeny : m.denyWriteCnt = 0
  · refine wp_mono (inodeWriteAt_spec hm (h.space.fine hn).onDisk hdeny buffer size offset) ?_
    rintro k fs' ⟨hp, rfl, hk⟩
    have hoff := SameOff.patch hk.countOf fs.disk buffer
    refine ⟨⟨(h.write hn hs1 hoff).heap hp, ⟨rfl, rfl, rfl, hk.later⟩, rfl, rfl, fun _ hst => ?_⟩,
      rfl, rfl, fun hne => absurd (hd ▸ hdeny) hne, fun m' hm' => ?_⟩
    · exact hst.congr h.mapSize fun a ha =>
        hoff.byte a (h.space.data_apart hn h.mapNode hs0 ha)
    · rw [hm, Option.some.injEq] at hm'
      exact hm' ▸ hoff
  · refine wp_mono (inodeWriteAt_denied hm hdeny buffer size offset) ?_
    rintro k fs' ⟨rfl, rfl⟩
    exact ⟨⟨h, .refl _, rfl, rfl, fun _ => id⟩, rfl, rfl, fun _ => ⟨rfl, rfl⟩,
      fun _ _ => .refl _ _⟩

theorem Core.inodeReadAt (h : Core fs g) (hpos : 0 < g.cnt s) (buffer : Buf) (size offset : Nat) :
    wp (inodeReadAt s buffer size offset) (fun _ fs' => Quiet fs fs' ∧ Core fs' g ∧
      fs'.openInodes = fs.openInodes) fs := by
  obtain ⟨m, hm⟩ := h.inode hpos
  have hn := (h.opened hm).1
  refine wp_mono (inodeReadAt_spec hm (h.space.fine hn).onDisk buffer size offset) ?_
  rintro r fs' ⟨k, hp, rfl, rfl, hk⟩
  exact ⟨⟨⟨rfl, rfl, rfl, hk.later⟩, rfl, rfl⟩, h.heap hp, rfl⟩

theorem Goes.seek (h : Goes fs g fs' g') (hmap : fs.freeMapFile ≠ some f)
    (hfile : fs'.files f = some F) (pos : Nat) :
    Goes fs g { fs' with files := update fs'.files f (some { F with pos := pos }) } g' :=
  have hf := h.files.seek hfile pos
  ⟨h.core.setFile (by rw [h.mapFile]; exact hmap) _,
    ⟨hf.fresh, hf.cnt, hf.deny, hf.map, hf.root⟩, h.map, h.root, h.mapFile, h.later, h.synced⟩

/-- What a write through an open file does. -/
structure FileWritten (fs : Fs) (g : Ghost) (F : File) (k : Nat) (fs' : Fs) : Prop where
  goes : Goes fs g fs' g
  next : fs'.nextFile = fs.nextFile
  inodes : fs'.openInodes = fs.openInodes
  freeMap : fs'.freeMap = fs.freeMap
  disk : ∀ m, fs.openInodes F.inode = some m → SameOff m.data fs.disk fs'.disk
  denied : g.deny F.inode ≠ 0 → k = 0 ∧ fs'.disk = fs.disk

section
variable (h : Core fs g) (hf : Files fs g) (hfile : fs.files f = some F)
include h hf hfile

theorem Core.fileWriteAt (hmap : fs.freeMapFile ≠ some f) (buffer : Buf) (size offset : Nat) :
    wp (fileWriteAt f buffer size offset) (fun k fs' => FileWritten fs g F k fs' ∧
      fs'.files = fs.files) fs := by
  have hs := hf.inode_ne hfile hmap
  rw [not_or] at hs
  simp only [Filesys.fileWriteAt, wp_bind, wp_get, wp_follow]
  refine ⟨F, hfile, wp_mono (h.inodeWriteAt (hf.pos hfile) hs.1 hs.2 buffer size offset) ?_⟩
  rintro k fs' ⟨hl, hi, hfm, hdeny, hoff⟩
  exact ⟨⟨hl.goes hf rfl rfl, hl.handles.nextFile, hi, hfm, hoff,
    fun hd => ⟨(hdeny hd).1, by rw [(hdeny hd).2]⟩⟩, hl.handles.files⟩

theorem Core.fileReadAt (buffer : Buf) (size offset : Nat) :
    wp (fileReadAt f buffer size offset) (fun _ fs' => Goes fs g fs' g ∧ Quiet fs fs' ∧
      fs'.openInodes = fs.openInodes) fs := by
  simp only [Filesys.fileReadAt, wp_bind, wp_get, wp_follow]
  refine ⟨F, hfile, wp_mono (h.inodeReadAt (hf.pos hfile) buffer size offset) ?_⟩
  rintro r fs' ⟨hq, hc, hi⟩
  exact ⟨(Leads.of_quiet hq hc rfl rfl).goes hf rfl rfl, hq, hi⟩

theorem Core.fileWrite (hmap : fs.freeMapFile ≠ some f) (buffer : Buf) (size : Nat) :
    wp (fileWrite f buffer size) (fun k fs' => FileWritten fs g F k fs' ∧
      fs'.files = update fs.files f (some { F with pos := F.pos + k })) fs := by
  have hs := hf.inode_ne hfile hmap
  rw [not_or] at hs
  simp only [Filesys.fileWrite, wp_bind, wp_get, wp_follow]
  refine ⟨F, hfile, wp_mono (h.inodeWriteAt (hf.pos hfile) hs.1 hs.2 buffer size F.pos) ?_⟩
  rintro k fs' ⟨hl, hi, hfm, hdeny, hoff⟩
  simp only [Filesys.setFile, wp_modify, wp_pure]
  refine ⟨⟨(hl.goes hf rfl rfl).seek hmap (by rw [hl.handles.files]; exact hfile) _,
    hl.handles.nextFile, hi, hfm, hoff, fun hd => ⟨(hdeny hd).1, by rw [(hdeny hd).2]⟩⟩, ?_⟩
  rw [hl.handles.files]

theorem Core.fileRead (hmap : fs.freeMapFile ≠ some f) (buffer : Buf) (size : Nat) :
    wp (fileRead f buffer size) (fun r fs' => Goes fs g fs' g ∧ fs'.disk = fs.disk ∧
      fs'.nextFile = fs.nextFile ∧ fs'.openInodes = fs.openInodes ∧ fs'.freeMap = fs.freeMap ∧
      fs'.files = update fs.files f (some { F with pos := F.pos + r.1 })) fs := by
  simp only [Filesys.fileRead, wp_bind, wp_get, wp_follow]
  refine ⟨F, hfile, wp_mono (h.inodeReadAt (hf.pos hfile) buffer size F.pos) ?_⟩
  rintro r fs' ⟨hq, hc, hi⟩
  simp only [Filesys.setFile, wp_modify, wp_pure]
  refine ⟨((Leads.of_quiet hq hc rfl rfl).goes hf rfl rfl).seek hmap
    (by rw [hq.files]; exact hfile) _, hq.disk, hq.nextFile, hi, hq.freeMap, ?_⟩
  rw [hq.files]

theorem Core.fileSeek (hmap : fs.freeMapFile ≠ some f) (newPos : Nat) :
    wp (fileSeek f newPos) (fun _ fs' => Goes fs g fs' g ∧ fs' = { fs with
      files := update fs.files f (some { F with pos := newPos }) }) fs := by
  simp only [Filesys.fileSeek, wp_bind, wp_get, wp_follow, Filesys.setFile, wp_modify]
  exact ⟨F, hfile, (show Goes fs g fs g from ⟨h, hf, rfl, rfl, rfl, .refl _, fun _ => id⟩).seek hmap
    hfile newPos, rfl⟩

end

end

end Pintos.Filesys
