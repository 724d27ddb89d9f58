import Pintos.Vm.Mapping

/- Mapping identifiers.

   `handle_mmap` computes the identifier it returns from the `mapping` field of the
   last file on the list, and `handle_munmap` looks for a file with that field. No
   code writes the field: it stays as `calloc` left it. So the first mapping of a
   process is called 0, one that is made while another is live is called 1, and
   `munmap` knows the front of the list as 0 and nothing else.

   `MapState` puts beside the machine what each call of `mmap` returned and which
   pages it made; nothing in the kernel reads it. -/
namespace Pintos.Vm

open Function

/-- The machine, and for each `struct file` made by `handle_mmap` the identifier that
    was returned and the pages that were made. -/
structure MapState where
  vm : VmState
  id : Nat → Int
  pages : Nat → List Nat

variable {s s' : VmState} {addr file ino u : Nat} {p : Tid} {x y : MapState} {e : Event}

def idStep (x : MapState) (e : Event) : Option MapState :=
  (step x.vm e).map fun s' => match e with
    | .mmap p ino addr => match (handleMmap x.vm p ino addr).2 with
      | some id =>
        { vm := s'
          id := update x.id x.vm.nextFile id
          pages := update x.pages x.vm.nextFile (madePages addr (x.vm.inodes ino).length) }
      | none => { x with vm := s' }
    | _ => { x with vm := s' }

/-- What a process may expect of the identifiers. A mapping is live while its file is
    on the mapping list. -/
structure IdsNameMappings (x : MapState) : Prop where
  /-- No two live mappings of a process were given the same identifier. -/
  distinct : ∀ p, x.vm.exited p = false → ((x.vm.mappingList p).map x.id).Nodup
  /-- `munmap` of a live mapping's identifier returns, and takes its pages from the table,
      all of them and nothing else. -/
  removes : ∀ p id file, x.vm.exited p = false → file ∈ x.vm.mappingList p → x.id file = id →
    Unmappable x.vm p file → ∃ s', handleMunmap x.vm p id = some s' ∧
      ∀ q u, (s'.supPageTable q).lookup u =
        if q = p ∧ u ∈ x.pages file then none else (x.vm.supPageTable q).lookup u
  /-- `munmap` of any other identifier changes nothing. -/
  keeps : ∀ p id, x.vm.exited p = false → (∀ file ∈ x.vm.mappingList p, x.id file ≠ id) →
    handleMunmap x.vm p id = some x.vm

/-- Whether `handle_mmap` refuses the range: a bad address, or a page that is taken. -/
def refused (s : VmState) (p : Tid) (ino addr : Nat) : Bool :=
  decide (addr = 0 ∨ pgRoundDown addr ≠ addr) ||
    (madePages addr (s.inodes ino).length).any fun u => ((s.supPageTable p).lookup u).isSome

/-- A process maps a file only while it has no live mapping. -/
def OneAtATime (x : MapState) : Event → Prop
  | .mmap p ino addr => x.vm.mappingList p = [] ∨ refused x.vm p ino addr = true
  | _ => True

/-! `handle_mmap` in one piece. -/

theorem createPages_some (p : Tid) (addr target : Nat) : ∀ (l : List Nat) (s : VmState) (u : Nat),
    (u ∈ l.map (mapPage addr) ∨ (s.supPageTable p).lookup u ≠ none) →
    ((l.foldl (fun t i => supPageEntryCreate t p (mapPage addr i)
      ⟨none, none, some target, pgsize * i⟩) s).supPageTable p).lookup u ≠ none
  | [], s, u, h => by
    rcases h with h | h
    · cases h
    · exact h
  | i :: l, s, u, h => by
    rw [List.foldl_cons]
    refine createPages_some p addr target l _ u ?_
    rw [supPageEntryCreate_lookup]
    rw [List.map_cons, List.mem_cons] at h
    by_cases hu : u = mapPage addr i
    · grind
    · grind

theorem refused_iff :
    (handleMmap s p ino addr).2 = none ↔ refused s p ino addr = true := by
  unfold handleMmap refused madePages
  split
  · next h => simp [h]
  · next h =>
    dsimp only
    rw [decide_eq_false h, Bool.false_or, List.any_map]
    split
    · next hany => simpa [comp_def] using hany
    · next hany => simpa [comp_def] using hany

/-- A mapping that is made: the list grows by the new file, and the table by pages of
    that file, those of the range. -/
theorem handleMmap_made
    (h : refused s p ino addr = false) :
    (handleMmap s p ino addr).1.mappingList =
        update s.mappingList p (s.mappingList p ++ [s.nextFile]) ∧
      (handleMmap s p ino addr).1.nextFile = s.nextFile + 1 ∧
      (∀ u ∈ madePages addr (s.inodes ino).length, ∃ pos,
        PageAt (handleMmap s p ino addr).1 p u s.nextFile pos) ∧
      ∀ q u sup, ((handleMmap s p ino addr).1.supPageTable q).lookup u = some sup →
        (s.supPageTable q).lookup u = some sup ∨
          (q = p ∧ u ∈ madePages addr (s.inodes ino).length ∧ sup.fileAddress = some s.nextFile) := by
  unfold refused at h
  rw [Bool.or_eq_false_iff] at h
  obtain ⟨haddr, hany⟩ := h
  have hfree : ∀ u ∈ madePages addr (s.inodes ino).length, (s.supPageTable p).lookup u = none := by
    intro u hu
    have := List.any_eq_false.mp hany u hu
    simpa using this
  unfold handleMmap
  rw [if_neg (of_decide_eq_false haddr)]
  dsimp only
  rw [madePages, List.any_map] at hany
  rw [if_neg (by simpa [comp_def] using hany)]
  obtain ⟨heq, hl⟩ := createPages_spec p addr s.nextFile
    (List.range (mapPages (s.inodes ino).length))
    { s with files := update s.files s.nextFile ⟨ino, 0⟩, nextFile := s.nextFile + 1 }
  have hsome := createPages_some p addr s.nextFile (List.range (mapPages (s.inodes ino).length))
    { s with files := update s.files s.nextFile ⟨ino, 0⟩, nextFile := s.nextFile + 1 }
  refine ⟨by rw [heq], by rw [heq], fun u hu => ?_, fun q u sup hsup => ?_⟩
  · rcases hl p u with hold | ⟨-, -, i, -, -, hnew⟩
    · exact absurd (hold.trans (hfree u hu)) (hsome u (.inl hu))
    · exact ⟨pgsize * i, _, hnew, rfl, rfl⟩
  · rcases hl q u with hold | ⟨hq, -, i, hi, hu, hnew⟩
    · exact .inl (hold ▸ hsup)
    · refine .inr ⟨hq, List.mem_map.mpr ⟨i, hi, hu.symm⟩, ?_⟩
      have hs := hnew.symm.trans hsup
      cases hs
      rfl

theorem handleMmap_refused
    (h : refused s p ino addr = true) :
    (handleMmap s p ino addr).1.mappingList = s.mappingList ∧
      (handleMmap s p ino addr).1.supPageTable = s.supPageTable := by
  unfold refused madePages at h
  unfold handleMmap
  split
  · exact ⟨rfl, rfl⟩
  · next haddr =>
    rw [decide_eq_false haddr, Bool.false_or, List.any_map] at h
    dsimp only
    rw [if_pos (by simpa [comp_def] using h)]
    exact ⟨rfl, rfl⟩

theorem handleMmap_mapping (h : ∀ f, (s.files f).mapping = 0) (p : Tid)
    (ino addr f : Nat) : ((handleMmap s p ino addr).1.files f).mapping = 0 := by
  have hnew : (update s.files s.nextFile ⟨ino, 0⟩ f).mapping = 0 := by grind
  unfold handleMmap
  split
  · exact h f
  · dsimp only
    split
    · exact hnew
    · obtain ⟨heq, -⟩ := createPages_spec p addr s.nextFile
        (List.range (mapPages (s.inodes ino).length))
        { s with files := update s.files s.nextFile ⟨ino, 0⟩, nextFile := s.nextFile + 1 }
      rw [heq]
      exact hnew

theorem handleMmap_first (hnil : s.mappingList p = [])
    (h : refused s p ino addr = false) : (handleMmap s p ino addr).2 = some 0 := by
  unfold refused madePages at h
  rw [Bool.or_eq_false_iff, List.any_map] at h
  unfold handleMmap
  rw [if_neg (of_decide_eq_false h.1)]
  dsimp only
  rw [if_neg (by simpa [comp_def] using h.2), hnil]
  rfl

/-! Unmapping. -/

theorem unmapFile_lookup (h : unmapFile s p file = some s') :
    (∀ q u, (s'.supPageTable q).lookup u =
      if q = p ∧ u ∈ pagesOf (s.supPageTable p) file then none else (s.supPageTable q).lookup u) ∧
    s'.mappingList = update s.mappingList p ((s.mappingList p).erase file) ∧
    s'.files = s.files ∧ s'.nextFile = s.nextFile ∧ s'.exited = s.exited := by
  obtain ⟨t, ⟨ht, hrest⟩, hno, rfl⟩ := unmapFile_inv (I := fun t =>
    (∀ q u, (t.supPageTable q).lookup u = (s.supPageTable q).lookup u ∨
      (q = p ∧ u ∈ pagesOf (s.supPageTable p) file ∧ (t.supPageTable q).lookup u = none)) ∧
    SameRest s t) h ⟨fun _ _ => .inl rfl, .refl s⟩
    (fun _ _ ht => ⟨ht.1, ht.2.trans ⟨rfl, rfl, rfl, rfl, rfl, rfl, rfl, rfl⟩⟩) (by
      rintro t u sup t' ⟨ht, hrest⟩ hsup hfile hR
      refine ⟨fun q v => ?_, hrest.trans hR.rest.1⟩
      rw [hR.lookup]
      split
      · next hqv =>
        obtain ⟨rfl, rfl⟩ := hqv
        refine .inr ⟨rfl, ?_, rfl⟩
        rcases ht q v with hold | ⟨-, hmem, -⟩
        · exact mem_pagesOf.mpr ⟨sup, hold ▸ hsup, hfile⟩
        · exact hmem
      · exact ht q v)
  refine ⟨fun q u => ?_, ?_, hrest.files, hrest.nextFile, hrest.exited⟩
  · show (t.supPageTable q).lookup u = _
    split
    · next hqu =>
      obtain ⟨rfl, hmem⟩ := hqu
      rcases ht q u with hold | ⟨-, -, hnone⟩
      · obtain ⟨sup, hsup, hfile⟩ := mem_pagesOf.mp hmem
        exact absurd hfile (hno u sup (hold.trans hsup))
      · exact hnone
    · grind
  · simp only [unlisted, hrest.mappingList]

/-! Steps that map and unmap nothing. -/

/-- Lists, files and what each page shows are the same. -/
structure SameMaps (s s' : VmState) : Prop where
  mappingList : s'.mappingList = s.mappingList
  files : s'.files = s.files
  nextFile : s'.nextFile = s.nextFile
  exited : s'.exited = s.exited
  pageAt : ∀ p u file pos, PageAt s' p u file pos ↔ PageAt s p u file pos

theorem Alloc.sameMaps {c : Option Nat} (h : Alloc s p c s') : SameMaps s s' := by
  have hrest := h.rest
  obtain ⟨s₀, k, hroom, -, hop⟩ := h
  exact ⟨hrest.mappingList, hrest.files, hrest.nextFile, hrest.exited, fun q v file pos =>
    (hop.pageAt q v file pos).trans (pageAt_congr (hroom.lookup_sup q v))⟩

/-! What is kept. -/

structure IdInv (x : MapState) : Prop where
  zero : ∀ f, (x.vm.files f).mapping = 0
  single : ∀ p, x.vm.exited p = false →
    x.vm.mappingList p = [] ∨ ∃ f, x.vm.mappingList p = [f] ∧ x.id f = 0
  fresh : ∀ p f, f ∈ x.vm.mappingList p → f < x.vm.nextFile
  known : ∀ p u f pos, PageAt x.vm p u f pos → f < x.vm.nextFile
  pages : ∀ p f, x.vm.exited p = false → f ∈ x.vm.mappingList p →
    ∀ u, u ∈ x.pages f ↔ ∃ pos, PageAt x.vm p u f pos

theorem IdInv.same (h : IdInv x) (hs : SameMaps x.vm s') :
    IdInv { x with vm := s' } where
  zero := by simp only [hs.files]; exact h.zero
  single := by simp only [hs.exited, hs.mappingList]; exact h.single
  fresh := by simp only [hs.mappingList, hs.nextFile]; exact h.fresh
  known := by simp only [hs.pageAt, hs.nextFile]; exact h.known
  pages := by simp only [hs.exited, hs.mappingList, hs.pageAt]; exact h.pages

theorem mem_pagesOf_iff : u ∈ pagesOf (s.supPageTable p) file ↔ ∃ pos, PageAt s p u file pos := by
  rw [mem_pagesOf]
  constructor
  · rintro ⟨sup, hs, hf⟩
    exact ⟨sup.filePos, sup, hs, hf, rfl⟩
  · rintro ⟨pos, sup, hs, hf, -⟩
    exact ⟨sup, hs, hf⟩

theorem pageAt_unmap (h : unmapFile s p file = some s') {q : Tid} {f pos : Nat} :
    PageAt s' q u f pos ↔ PageAt s q u f pos ∧ ¬ (q = p ∧ f = file) := by
  obtain ⟨hl, -⟩ := unmapFile_lookup h
  unfold PageAt
  rw [hl q u]
  constructor
  · rintro ⟨sup, hs, hf, hpos⟩
    split at hs
    · cases hs
    · next hno =>
      refine ⟨⟨sup, hs, hf, hpos⟩, ?_⟩
      rintro ⟨rfl, rfl⟩
      exact hno ⟨rfl, mem_pagesOf.mpr ⟨sup, hs, hf⟩⟩
  · rintro ⟨⟨sup, hs, hf, hpos⟩, hno⟩
    refine ⟨sup, ?_, hf, hpos⟩
    rw [if_neg]
    · exact hs
    · rintro ⟨rfl, hmem⟩
      obtain ⟨sup', hs', hf'⟩ := mem_pagesOf.mp hmem
      rw [hs] at hs'
      cases hs'
      exact hno ⟨rfl, Option.some.inj (hf.symm.trans hf')⟩

theorem IdInv.unmap (h : IdInv x)
    (hs : unmapFile x.vm p file = some s') : IdInv { x with vm := s' } := by
  obtain ⟨-, hml, hf, hn, hex⟩ := unmapFile_lookup hs
  have hsub : ∀ q f, f ∈ s'.mappingList q → f ∈ x.vm.mappingList q := by
    intro q f hmem
    rw [hml] at hmem
    by_cases hq : q = p
    · grind
    · rwa [update_of_ne hq] at hmem
  refine ⟨fun f => by simp only [hf]; exact h.zero f, fun q hq => ?_, fun q f hmem => ?_,
    fun q u f pos hp => ?_, fun q f hq hmem u => ?_⟩
  · simp only [hex] at hq
    simp only [hml]
    rcases h.single q hq with hnil | ⟨f, hone, hid⟩
    · grind
    · grind
  · simp only [hn]; exact h.fresh q f (hsub q f hmem)
  · simp only [hn]; exact h.known q u f pos ((pageAt_unmap hs).mp hp).1
  · simp only [hex] at hq
    have hold : f ∈ x.vm.mappingList q := hsub q f hmem
    rw [h.pages q f hq hold u]
    simp only [pageAt_unmap hs]
    -- the file that went is not on the list any more
    have hne : ¬ (q = p ∧ f = file) := by
      rintro ⟨rfl, rfl⟩
      simp only [hml, update_self] at hmem
      rcases h.single q hq with hnil | ⟨g, hone, -⟩
      · rw [hnil] at hmem; simp at hmem
      · grind
    simp [hne]

theorem IdInv.exit (h : IdInv x)
    (hs : processExit x.vm p = some s') : IdInv { x with vm := s' } := by
  obtain ⟨t, used, mem, nodes, ht, rfl⟩ := processExit_inv (I := fun t => IdInv { x with vm := t })
    hs h fun {t _ _} ht hu => IdInv.unmap (x := { x with vm := t }) ht hu
  have hlive : ∀ q, update t.exited p true q = false → t.exited q = false := by
    intro q hq
    have hqp : q ≠ p := by
      rintro rfl
      simp at hq
    simpa [hqp] using hq
  exact { ht with
    single := fun q hq => ht.single q (hlive q hq)
    pages := fun q f hq => ht.pages q f (hlive q hq) }

theorem IdInv.mmap (h : IdInv x)
    (hnil : x.vm.mappingList p = []) (hok : refused x.vm p ino addr = false) :
    IdInv {
      vm := (handleMmap x.vm p ino addr).1
      id := update x.id x.vm.nextFile 0
      pages := update x.pages x.vm.nextFile
        (madePages addr (x.vm.inodes ino).length) } := by
  obtain ⟨hml, hnext, hmade, hlook⟩ := handleMmap_made hok
  have hex : (handleMmap x.vm p ino addr).1.exited = x.vm.exited := by
    rw [(handleMmap_spec x.vm p ino addr).1]
  have hother : ∀ q ≠ p, (handleMmap x.vm p ino addr).1.mappingList q = x.vm.mappingList q :=
    fun q hq => by rw [hml, update_of_ne hq]
  have hself : (handleMmap x.vm p ino addr).1.mappingList p = [x.vm.nextFile] := by
    rw [hml, update_self, hnil]
    rfl
  -- a page of a file that was there before was there before
  have hold : ∀ q u f pos, f ≠ x.vm.nextFile →
      (PageAt (handleMmap x.vm p ino addr).1 q u f pos ↔ PageAt x.vm q u f pos) := by
    intro q u f pos hf
    refine ⟨fun hp => ?_, pageAt_mmap x.vm p ino addr⟩
    rcases mmap_pageAt x.vm p ino addr hp with hp | ⟨heq, -⟩
    · exact hp
    · exact absurd heq hf
  have hnone : ∀ q u pos, ¬ PageAt x.vm q u x.vm.nextFile pos :=
    fun q u pos hp => Nat.lt_irrefl _ (h.known q u _ pos hp)
  refine ⟨handleMmap_mapping h.zero p ino addr, fun q hq => ?_, fun q f hf => ?_,
    fun q u f pos hp => ?_, fun q f hq hf u => ?_⟩
  · grind [h.single]
  · simp only [hnext]
    by_cases hqp : q = p
    · grind
    · simp only [hother q hqp] at hf
      exact Nat.lt_succ_of_lt (h.fresh q f hf)
  · simp only [hnext]
    by_cases hf : f = x.vm.nextFile
    · omega
    · exact Nat.lt_succ_of_lt (h.known q u f pos ((hold q u f pos hf).mp hp))
  · by_cases hqp : q = p
    · subst hqp
      simp only [hself, List.mem_singleton] at hf
      subst hf
      simp only [update_self]
      refine ⟨hmade u, ?_⟩
      rintro ⟨pos, sup, hsup, hfile, hpos⟩
      rcases hlook q u sup hsup with hs | ⟨-, hu, -⟩
      · exact absurd ⟨sup, hs, hfile, hpos⟩ (hnone q u pos)
      · exact hu
    · simp only [hother q hqp] at hf
      have hlt := Nat.ne_of_lt (h.fresh q f hf)
      simp only [update_of_ne hlt]
      rw [h.pages q f (hex ▸ hq) hf u]
      exact exists_congr fun pos => (hold q u f pos hlt).symm

theorem idStep_cases (h : idStep x e = some y) :
    ∃ s', step x.vm e = some s' ∧ y.vm = s' ∧ ((∀ p ino addr, e ≠ .mmap p ino addr) →
      y = { x with vm := s' }) := by
  rw [idStep, Option.map_eq_some_iff] at h
  obtain ⟨s', hs, rfl⟩ := h
  refine ⟨s', hs, ?_, fun hne => ?_⟩
  · split
    · split <;> rfl
    · rfl
  · split
    · next p ino addr => exact absurd rfl (hne p ino addr)
    · rfl

theorem IdInv.step (h : IdInv x) (hone : OneAtATime x e) (hy : idStep x e = some y) : IdInv y := by
  obtain ⟨s', hs, -, hplain⟩ := idStep_cases hy
  obtain ⟨-, -, hcase⟩ := step_cases hs
  have hnot : e.soils = false → y = { x with vm := s' } := fun hsoils =>
    hplain fun p ino addr he => by rw [he] at hsoils; cases hsoils
  cases hcase with
  | alloc htake halloc =>
    rw [hplain fun p ino addr he => by rw [he] at htake; cases htake]
    exact h.same halloc.sameMaps
  | quiet hq =>
    rw [hnot hq.soils, hq.rest]
    exact h.same ⟨rfl, rfl, rfl, rfl, fun _ _ _ _ => Iff.rfl⟩
  | store addr b he hst =>
    rw [hplain fun p ino addr hm => by rw [hm] at he; cases he]
    obtain ⟨pte, -, -, -, rfl⟩ := userStore_some hst
    exact h.same ⟨rfl, rfl, rfl, rfl, fun _ _ _ _ => Iff.rfl⟩
  | mmap ino addr he heq =>
    generalize e.tid = p at he heq
    subst he heq
    rw [idStep, hs, Option.map_some] at hy
    cases hr : refused x.vm p ino addr with
    | true =>
      simp only [refused_iff.mpr hr, Option.some.injEq] at hy
      obtain ⟨hml, hsup⟩ := handleMmap_refused hr
      subst hy
      obtain ⟨hfiles, hnext, -⟩ := handleMmap_files x.vm p ino addr
      refine ⟨handleMmap_mapping h.zero p ino addr, ?_, fun q f hf => ?_, fun q u f pos hp => ?_, ?_⟩
      · grind [handleMmap, handleMmap_spec, h.single]
      · simp only [hml] at hf
        exact Nat.lt_of_lt_of_le (h.fresh q f hf) hnext
      · unfold PageAt at hp
        simp only [hsup] at hp
        exact Nat.lt_of_lt_of_le (h.known q u f pos hp) hnext
      · have hex : (handleMmap x.vm p ino addr).1.exited = x.vm.exited := by
          rw [(handleMmap_spec x.vm p ino addr).1]
        simp only [hml, hex, PageAt, hsup]
        exact h.pages
    | false => grind [hone.resolve_right, handleMmap_first, h.mmap]
  | unmap file _ hsoils _ hun =>
    rw [hnot hsoils]
    exact h.unmap hun
  | exit hend hexit =>
    rw [hplain fun p ino addr he => by rw [he] at hend; cases hend]
    exact h.exit hexit

/-- What the identifiers are worth where every list has one element at most. -/
theorem IdInv.names (h : IdInv x) : IdsNameMappings x where
  distinct := fun p hp => by grind [h.single]
  removes := fun p id file hp hmem hid hun => by
    rcases h.single p hp with hnil | ⟨f, hone, hzero⟩
    · rw [hnil] at hmem; cases hmem
    · rw [hone, List.mem_singleton] at hmem
      subst hmem
      have hfind : handleMunmap x.vm p id = unmapFile x.vm p file := by
        simp [handleMunmap, hone, h.zero, ← hid, hzero]
      obtain ⟨s', hs⟩ := hun.defined
      refine ⟨s', hfind.trans hs, fun q u => ?_⟩
      rw [(unmapFile_lookup hs).1 q u]
      have hpages := h.pages p file hp (by rw [hone]; exact List.mem_singleton.mpr rfl) u
      have hiff : u ∈ pagesOf (x.vm.supPageTable p) file ↔ u ∈ x.pages file :=
        mem_pagesOf_iff.trans hpages.symm
      simp only [hiff]
  keeps := fun p id hp hno => by grind [h.single, handleMunmap, h.zero]

/-- The machine after boot, before any mapping. -/
def mapBoot (poolSize : Nat) (mem : Nat → Buf) (inodes : Nat → Inode) (swapDisk : Disk) : MapState :=
  ⟨boot poolSize mem inodes swapDisk, fun _ => 0, fun _ => []⟩

theorem idInv_boot (poolSize : Nat) (mem : Nat → Buf) (inodes : Nat → Inode) (swapDisk : Disk) :
    IdInv (mapBoot poolSize mem inodes swapDisk) where
  zero := fun _ => rfl
  single := fun _ _ => .inl rfl
  fresh := fun _ _ hf => by cases hf
  known := fun _ _ _ _ hp => by obtain ⟨sup, hs, -⟩ := hp; cases hs
  pages := fun _ _ _ hf => by cases hf

/-- **Identifiers name mappings** in every run in which a process maps a file only
    while it has no live mapping. -/
theorem ids_name_mappings {poolSize : Nat} {mem : Nat → Buf} {inodes : Nat → Inode}
    {swapDisk : Disk} {x : MapState}
    (h : Lib.Reach idStep OneAtATime (mapBoot poolSize mem inodes swapDisk) x) :
    IdsNameMappings x :=
  (h.inv (idInv_boot ..) fun _ _ _ hx hone hy => hx.step hone hy).names

/-- One frame and a file of three bytes. -/
def smallMaps : MapState := mapBoot 1 (fun _ _ => 0) (fun _ => ⟨3, fun _ => 1, 0⟩) ⟨8, fun _ _ => 0⟩

/-- A file is mapped, unmapped and mapped again elsewhere. -/
theorem ids_name_mappings_again : ∃ x, Lib.Reach idStep OneAtATime smallMaps x ∧
    x.vm.mappingList 1 = [1] ∧ x.pages 1 = [8192] ∧ IdsNameMappings x := by
  obtain ⟨x, hx, hq⟩ := Lib.exists_reach idStep (C := OneAtATime) smallMaps
    (c := fun x e => match e with
      | .mmap p _ _ => (x.vm.mappingList p).isEmpty
      | _ => true)
    [.start 1, .mmap 1 0 4096, .munmap 1 0, .mmap 1 0 8192]
    (fun x => decide (x.vm.mappingList 1 = [1]) && decide (x.pages 1 = [8192]))
    (fun x e he => by
      cases e with
      | mmap p ino addr => exact .inl (List.isEmpty_iff.mp he)
      | _ => trivial) (by decide) (by decide)
  rw [Bool.and_eq_true, decide_eq_true_eq, decide_eq_true_eq] at hq
  exact ⟨x, hx, hq.1, hq.2, ids_name_mappings hx⟩

/-- No page of the process has been touched: a mapping that can be removed. -/
def untouched (s : VmState) (p : Tid) : Bool :=
  (s.supPageTable p).entries.all fun e =>
    isUserPage e.1 && !pagedirIsDirty (s.pagedir p) e.1 && e.2.kpage.isNone

theorem untouched_sound (h : untouched s p = true) (file : Nat) : Unmappable s p file := by
  have hall : ∀ u sup, (s.supPageTable p).lookup u = some sup →
      (isUserPage u = true ∧ pagedirIsDirty (s.pagedir p) u = false) ∧ sup.kpage = none := by
    intro u sup hs
    simpa using List.all_eq_true.mp h ⟨u, sup⟩ (AList.mem_lookup_iff.mp hs)
  refine ⟨fun u sup hs _ => ⟨(hall u sup hs).1.1, fun hd => ?_⟩, fun u sup k hs _ hk => ?_⟩
  · rw [(hall u sup hs).1.2] at hd
    cases hd
  · rw [(hall u sup hs).2] at hk
    cases hk

/-- A process maps two files. The second mapping is called 1, and `munmap (1)` leaves
    its page where it is. -/
theorem ids_do_not_name_mappings : ∃ x, Lib.Reach idStep Lib.anyStep smallMaps x ∧
    x.vm.mappingList 1 = [0, 1] ∧ x.id 1 = 1 ∧ x.pages 1 = [8192] ∧ Unmappable x.vm 1 1 ∧
    (∃ s', handleMunmap x.vm 1 1 = some s' ∧ (s'.supPageTable 1).lookup 8192 ≠ none) ∧
    ¬ IdsNameMappings x := by
  obtain ⟨x, hx, hq⟩ := Lib.exists_reach idStep (C := Lib.anyStep) (c := fun _ _ => true) smallMaps
    [.start 1, .mmap 1 0 4096, .mmap 1 0 8192]
    (fun x => decide (x.vm.exited 1 = false) && decide (x.vm.mappingList 1 = [0, 1]) &&
      decide (x.id 1 = 1) && decide (x.pages 1 = [8192]) && untouched x.vm 1 &&
      (handleMunmap x.vm 1 1).any fun s' => ((s'.supPageTable 1).lookup 8192).isSome)
    (fun _ _ _ => trivial) (by decide) (by decide)
  simp only [Bool.and_eq_true, decide_eq_true_eq, Option.any_eq_true] at hq
  obtain ⟨⟨⟨⟨⟨hlive, hlist⟩, hid⟩, hpages⟩, hun⟩, s', hs, hsome⟩ := hq
  have hun := untouched_sound hun 1
  have hleft : (s'.supPageTable 1).lookup 8192 ≠ none := Option.isSome_iff_ne_none.mp hsome
  refine ⟨x, hx, hlist, hid, hpages, hun, ⟨s', hs, hleft⟩, fun h => hleft ?_⟩
  obtain ⟨t, ht, hgone⟩ := h.removes 1 1 1 hlive (by simp [hlist]) hid hun
  obtain rfl : t = s' := Option.some.inj (ht.symm.trans hs)
  rw [hgone 1 8192, hpages, if_pos (by simp)]

end Pintos.Vm
