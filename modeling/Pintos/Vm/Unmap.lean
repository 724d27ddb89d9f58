import Pintos.Vm.Steps

/- Unmapping and exiting, in terms of what happens to single pages.

   `handle_munmap` and `process_exit` run the same two loops over the pages of a
   mapping. `removePage_cases` says what the second loop does to one page,
   `unmapFile_inv` is the rule for both loops, and `processExit_cases` takes the
   exit apart into the unmappings and the destruction of the page directory. -/
namespace Pintos.Vm

open Function

/-- No entry of the frame table names the frame. -/
def Unnamed (s : VmState) (k : Nat) : Prop := ∀ f ∈ s.frameTable, f.kpage ≠ k

/-- The frame is given back and its entry leaves the table. -/
def freed (s : VmState) (k : Nat) : VmState :=
  { s with
    frameTable := dropKpage k s.frameTable
    usedMap := update s.usedMap k false
    mem := update s.mem k (fun _ => 0xcc) }

/-- The page's entry goes, and the page is no longer present. -/
def forgotten (s : VmState) (p : Tid) (u : Nat) : VmState :=
  { s with
    supPageTable := update s.supPageTable p ((s.supPageTable p).erase u)
    pagedir := update s.pagedir p (clearPresent (s.pagedir p) u) }

/-! The frame list. -/

theorem dropKpage_sublist (k : Nat) : ∀ l : List FrameEntry, (dropKpage k l).Sublist l
  | [] => .slnil
  | f :: rest => by
    rw [dropKpage]
    split
    · exact List.sublist_cons_self f rest
    · exact (dropKpage_sublist k rest).cons_cons f

theorem mem_dropKpage_of_ne {k : Nat} {f : FrameEntry} (hk : f.kpage ≠ k) :
    ∀ {l : List FrameEntry}, f ∈ l → f ∈ dropKpage k l
  | g :: rest, h => by
    rw [dropKpage]
    rcases List.mem_cons.mp h with rfl | h
    · rw [if_neg hk]; exact List.mem_cons_self ..
    · split
      · exact h
      · exact List.mem_cons_of_mem _ (mem_dropKpage_of_ne hk h)

/-- With distinct frames the entry that goes is the only one. -/
theorem kpage_ne_of_mem_dropKpage {k : Nat} : ∀ {l : List FrameEntry},
    (l.map FrameEntry.kpage).Nodup → ∀ {f : FrameEntry}, f ∈ dropKpage k l → f.kpage ≠ k
  | [], _, f, h => by cases h
  | g :: rest, hnd, f, h => by
    rw [List.map_cons, List.nodup_cons] at hnd
    rw [dropKpage] at h
    split at h
    · grind
    · next hg =>
      rcases List.mem_cons.mp h with rfl | h
      · exact hg
      · exact kpage_ne_of_mem_dropKpage hnd.2 h

theorem setUpage_append {k u : Nat} {p : Tid} : ∀ {l : List FrameEntry},
    (∀ f ∈ l, f.kpage ≠ k) → setUpage u k (l ++ [⟨p, k, none⟩]) = l ++ [⟨p, k, some u⟩]
  | [], _ => by simp [setUpage]
  | f :: rest, h => by
    have hf : f.kpage ≠ k := h f (List.mem_cons_self ..)
    have hrest := setUpage_append (u := u) (p := p) fun g hg => h g (List.mem_cons_of_mem _ hg)
    simp [setUpage, hf, hrest]

theorem dropKpage_append {k : Nat} {p : Tid} : ∀ {l : List FrameEntry},
    (∀ f ∈ l, f.kpage ≠ k) → dropKpage k (l ++ [⟨p, k, none⟩]) = l
  | [], _ => by simp [dropKpage]
  | f :: rest, h => by
    have hf : f.kpage ≠ k := h f (List.mem_cons_self ..)
    have hrest := dropKpage_append (p := p) fun g hg => h g (List.mem_cons_of_mem _ hg)
    simp [dropKpage, hf, hrest]

/-! One page. -/

variable {s s' : VmState} {p : Tid} {file u : Nat} {sup : SupPageEntry} {I : VmState → Prop}

theorem frameTableFree_cases {page : Option Nat} (h : frameTableFree s page = some s') :
    (s' = s ∧ ∀ k, page = some k → Unnamed s k) ∨
    ∃ k, page = some k ∧ ¬ Unnamed s k ∧ k < s.poolSize ∧ s.usedMap k = true ∧
      s' = freed s k := by
  unfold frameTableFree at h
  split at h
  · cases h; exact .inl ⟨rfl, by simp⟩
  · next k =>
    split at h
    · next hany =>
      obtain ⟨f, hf, hfk⟩ := List.any_eq_true.mp hany
      unfold pallocFree at h
      split at h
      · next hused =>
        cases h
        exact .inr ⟨k, rfl, fun hun => hun f hf (by simpa using hfk), hused.1, hused.2, rfl⟩
      · cases h
    · next hany =>
      cases h
      refine .inl ⟨rfl, ?_⟩
      rintro k' ⟨⟩ f hf rfl
      exact hany (List.any_eq_true.mpr ⟨f, hf, by simp⟩)

/-- What the second loop does to the page `u` with entry `sup`. -/
inductive Remove (s : VmState) (p : Tid) (u : Nat) (sup : SupPageEntry) : VmState → Prop
  | keep : (∀ k, sup.kpage = some k → Unnamed s k) → Remove s p u sup (forgotten s p u)
  | free (k : Nat) : sup.kpage = some k → ¬ Unnamed s k → k < s.poolSize → s.usedMap k = true →
      Remove s p u sup (forgotten (freed s k) p u)

theorem removePage_cases (h : removePage s p u = some s') :
    ∃ sup, (s.supPageTable p).lookup u = some sup ∧ isUserPage u = true ∧
      Remove s p u sup s' := by
  simp only [removePage, Option.bind_eq_some_iff] at h
  obtain ⟨sup, hsup, t, hfree, hdel⟩ := h
  unfold supPageEntryDelete pagedirClearPage at hdel
  split at hdel
  · next hu =>
    cases hdel
    refine ⟨sup, hsup, hu, ?_⟩
    obtain ⟨rfl, hun⟩ | ⟨k, hk, hnamed, hpool, hused, rfl⟩ := frameTableFree_cases hfree
    · exact .keep hun
    · exact .free k hk hnamed hpool hused
  · cases hdel

theorem Remove.rest (h : Remove s p u sup s') : SameRest s s' ∧ s'.inodes = s.inodes := by
  cases h <;> exact ⟨⟨rfl, rfl, rfl, rfl, rfl, rfl, rfl, rfl⟩, rfl⟩

theorem Remove.lookup (h : Remove s p u sup s') (q : Tid) (v : Nat) : (s'.supPageTable q).lookup v =
      if q = p ∧ v = u then none else (s.supPageTable q).lookup v := by
  have key : (update s.supPageTable p ((s.supPageTable p).erase u) q).lookup v =
      if q = p ∧ v = u then none else (s.supPageTable q).lookup v := by
    by_cases hq : q = p
    · subst hq
      by_cases hv : v = u
      · subst hv; simp
      · simp [hv]
    · simp [hq]
  cases h <;> exact key

theorem Remove.getPage (h : Remove s p u sup s') (q : Tid) (v : Nat) :
    pagedirGetPage (s'.pagedir q) v =
      if q = p ∧ v = u then none else pagedirGetPage (s.pagedir q) v := by
  have key : pagedirGetPage (update s.pagedir p (clearPresent (s.pagedir p) u) q) v =
      if q = p ∧ v = u then none else pagedirGetPage (s.pagedir q) v := by
    grind [getPage_clearPresent]
  cases h <;> exact key

/-! The two loops. -/

theorem mem_pagesOf {t : SupPageTable} :
    u ∈ pagesOf t file ↔ ∃ sup, t.lookup u = some sup ∧ sup.fileAddress = some file := by
  unfold pagesOf
  simp only [List.mem_map, List.mem_filter, decide_eq_true_eq, Sigma.exists]
  constructor
  · rintro ⟨v, sup, ⟨hmem, hfile⟩, rfl⟩
    exact ⟨sup, AList.mem_lookup_iff.mpr hmem, hfile⟩
  · rintro ⟨sup, hsup, hfile⟩
    exact ⟨u, sup, ⟨AList.mem_lookup_iff.mp hsup, hfile⟩, rfl⟩

theorem nodup_pagesOf (t : SupPageTable) (file : Nat) : (pagesOf t file).Nodup :=
  (List.Sublist.map Sigma.fst List.filter_sublist).nodup t.nodupKeys

theorem writeBack_eq (h : writeBack s p file u = some s') :
    s' = { s with inodes := s'.inodes } := by
  rw [writeBack, Option.bind_eq_some_iff] at h
  obtain ⟨sup, -, h⟩ := h
  split at h
  · split at h
    · cases h; rfl
    · split at h
      · cases h
      · cases h; rfl
  · cases h; rfl

/-- No page of `p` is backed by the file. -/
def NoPagesOf (s : VmState) (p : Tid) (file : Nat) : Prop :=
  ∀ u sup, (s.supPageTable p).lookup u = some sup → sup.fileAddress ≠ some file

/-- The mapping list of `p` without the file's element. -/
def unlisted (s : VmState) (p : Tid) (file : Nat) : VmState :=
  { s with mappingList := update s.mappingList p ((s.mappingList p).erase file) }

theorem unmapFile_loops (h : unmapFile s p file = some s') :
    ∃ s₁ t, (pagesOf (s.supPageTable p) file).foldlM (fun t u => writeBack t p file u) s = some s₁ ∧
      (pagesOf (s.supPageTable p) file).foldlM (fun t u => removePage t p u) s₁ = some t ∧
      s' = unlisted t p file := by
  simp only [unmapFile, Option.bind_eq_some_iff, Option.map_eq_some_iff] at h
  obtain ⟨s₁, hwrite, t, hrem, rfl⟩ := h
  exact ⟨s₁, t, hwrite, hrem, rfl⟩

/-- The rule for the second loop: what removing single pages of the file keeps
    holds at the end, and no page of the file is left. -/
theorem removeLoop_inv
    (h : (pagesOf (s.supPageTable p) file).foldlM (fun t u => removePage t p u) s = some s')
    (hI : I s)
    (hremove : ∀ t u sup t', I t → (t.supPageTable p).lookup u = some sup →
      sup.fileAddress = some file → Remove t p u sup t' → I t') : I s' ∧ NoPagesOf s' p file := by
  -- the pages still to be removed are exactly the pages of the file that are left
  obtain ⟨hs', -, hleft⟩ := Lib.foldlM_todo
    (I := fun l t => I t ∧ l.Nodup ∧ ∀ u, u ∈ l ↔ u ∈ pagesOf (t.supPageTable p) file)
    (by
      rintro u l t t' ⟨hIt, hnd, hl⟩ hrem
      obtain ⟨sup, hsup, -, hR⟩ := removePage_cases hrem
      obtain ⟨sup', hsup', hfile⟩ := mem_pagesOf.mp ((hl u).mp (List.mem_cons_self ..))
      obtain rfl : sup = sup' := Option.some.inj (hsup.symm.trans hsup')
      rw [List.nodup_cons] at hnd
      refine ⟨hremove t u sup t' hIt hsup hfile hR, hnd.2, fun v => ?_⟩
      by_cases hv : v = u
      · grind [mem_pagesOf, hR.lookup]
      · rw [mem_pagesOf, hR.lookup, if_neg (by simp [hv]), ← mem_pagesOf, ← hl v]
        simp [hv])
    _ ⟨hI, nodup_pagesOf _ _, fun u => Iff.rfl⟩ h
  refine ⟨hs', fun u sup hsup hfile => ?_⟩
  have hmem : u ∈ pagesOf (s'.supPageTable p) file := mem_pagesOf.mpr ⟨sup, hsup, hfile⟩
  simp [← hleft u] at hmem

theorem writeLoop_eq {s₁ : VmState} {l : List Nat}
    (h : l.foldlM (fun t u => writeBack t p file u) s = some s₁) :
    s₁ = { s with inodes := s₁.inodes } := by
  refine Lib.foldlM_inv (I := fun t => t = { s with inodes := t.inodes }) l ?_ rfl h
  rintro u - t t' ht hw
  rw [writeBack_eq hw, ht]

/-- The rule for unmapping: what writing to inodes and removing single pages of
    the file keeps holds once the loops are done. -/
theorem unmapFile_inv (h : unmapFile s p file = some s') (hI : I s)
    (hinodes : ∀ t nodes, I t → I { t with inodes := nodes })
    (hremove : ∀ t u sup t', I t → (t.supPageTable p).lookup u = some sup →
      sup.fileAddress = some file → Remove t p u sup t' → I t') :
    ∃ t, I t ∧ NoPagesOf t p file ∧ s' = unlisted t p file := by
  obtain ⟨s₁, t, hwrite, hrem, rfl⟩ := unmapFile_loops h
  have heq := writeLoop_eq hwrite
  have h₁ : I s₁ := heq ▸ hinodes s _ hI
  have hsup : s.supPageTable = s₁.supPageTable := by rw [heq]
  rw [hsup] at hrem
  obtain ⟨ht, hno⟩ := removeLoop_inv hrem h₁ hremove
  exact ⟨t, ht, hno, rfl⟩

theorem unmapFile_rest (h : unmapFile s p file = some s') :
    ∃ t, SameRest s t ∧ s' = unlisted t p file := by
  obtain ⟨t, ht, -, hs'⟩ := unmapFile_inv (I := SameRest s) h (.refl s)
    (fun _ _ ht => ht.trans ⟨rfl, rfl, rfl, rfl, rfl, rfl, rfl, rfl⟩)
    (fun _ _ _ _ ht _ _ hR => ht.trans hR.rest.1)
  exact ⟨t, ht, hs'⟩

theorem unmapFile_exited (h : unmapFile s p file = some s') : s'.exited = s.exited := by
  obtain ⟨t, ht, rfl⟩ := unmapFile_rest h
  exact ht.exited

/-! Unmapping that comes to its end. -/

/-- The frames that pages of files name are in the frame table once at most, and only
    while they are in use. -/
def FramesListed (s : VmState) (p : Tid) : Prop :=
  ∀ u sup k, (s.supPageTable p).lookup u = some sup → sup.fileAddress ≠ none →
    sup.kpage = some k → s.frameTable.countP (fun f => f.kpage = k) ≤ 1 ∧
      (¬ Unnamed s k → k < s.poolSize ∧ s.usedMap k = true)

theorem countP_dropKpage_ne {k k' : Nat} (hk : k' ≠ k) : ∀ l : List FrameEntry,
    (dropKpage k l).countP (fun f => f.kpage = k') = l.countP (fun f => f.kpage = k')
  | [] => rfl
  | f :: rest => by
    rw [dropKpage]
    split
    · grind
    · rw [List.countP_cons, List.countP_cons, countP_dropKpage_ne hk rest]

theorem unnamed_dropKpage {k : Nat} : ∀ {l : List FrameEntry},
    l.countP (fun f => f.kpage = k) ≤ 1 → ∀ f ∈ dropKpage k l, f.kpage ≠ k
  | [], _, f, hf => by cases hf
  | g :: rest, h, f, hf => by
    rw [List.countP_cons] at h
    rw [dropKpage] at hf
    split at hf
    · next hg =>
      have hzero : rest.countP (fun f => f.kpage = k) = 0 := by simpa [hg] using h
      simpa using List.countP_eq_zero.mp hzero f hf
    · next hg =>
      obtain rfl | hf := List.mem_cons.mp hf
      · exact hg
      · exact unnamed_dropKpage (by simpa [hg] using h) f hf

theorem FramesListed.remove (hl : FramesListed s p) (hs : (s.supPageTable p).lookup u = some sup)
    (hfile : sup.fileAddress ≠ none) (h : Remove s p u sup s') : FramesListed s' p := by
  intro v sup' k' hs' hfile' hk'
  have hv : (s.supPageTable p).lookup v = some sup' := by grind [h.lookup]
  obtain ⟨hcount, hheld⟩ := hl v sup' k' hv hfile' hk'
  cases h with
  | keep => exact ⟨hcount, hheld⟩
  | free k hk =>
    by_cases hkk : k' = k
    · -- the frame was listed once, and has been given back
      subst hkk
      have hun : ∀ f ∈ dropKpage k' s.frameTable, f.kpage ≠ k' :=
        unnamed_dropKpage (hl u sup k' hs hfile hk).1
      refine ⟨?_, fun hn => absurd hun hn⟩
      show (dropKpage k' s.frameTable).countP _ ≤ 1
      rw [List.countP_eq_zero.mpr fun f hf => by simpa using hun f hf]
      exact Nat.zero_le 1
    · refine ⟨?_, fun hn => ?_⟩
      · show (dropKpage k s.frameTable).countP _ ≤ 1
        rw [countP_dropKpage_ne hkk]
        exact hcount
      · obtain ⟨hpool, hused⟩ := hheld fun hun => hn fun f hf =>
          hun f ((dropKpage_sublist k _).subset hf)
        refine ⟨hpool, ?_⟩
        show update s.usedMap k false k' = true
        rw [update_of_ne hkk]
        exact hused

theorem removePage_defined (hs : (s.supPageTable p).lookup u = some sup)
    (hfile : sup.fileAddress ≠ none) (hu : isUserPage u = true) (hl : FramesListed s p) :
    ∃ s', removePage s p u = some s' := by
  have hfree : ∃ t, frameTableFree s sup.kpage = some t := by
    unfold frameTableFree
    cases hk : sup.kpage with
    | none => exact ⟨s, rfl⟩
    | some k =>
      dsimp only
      split
      · next hany =>
        obtain ⟨f, hf, hfk⟩ := List.any_eq_true.mp hany
        have hheld := (hl u sup k hs hfile hk).2 fun hun => hun f hf (by simpa using hfk)
        unfold pallocFree
        rw [if_pos hheld]
        exact ⟨_, rfl⟩
      · exact ⟨s, rfl⟩
  obtain ⟨t, ht⟩ := hfree
  rw [removePage, hs, Option.bind_some, ht, Option.bind_some, supPageEntryDelete,
    pagedirClearPage, if_pos hu]
  exact ⟨_, rfl⟩

/-- All pages of a list can be removed, one after the other. -/
theorem removeLoop_defined : ∀ {l : List Nat} {s : VmState}, l.Nodup →
    (∀ u ∈ l, isUserPage u = true ∧ ∃ sup, (s.supPageTable p).lookup u = some sup ∧
      sup.fileAddress ≠ none) → FramesListed s p →
    ∃ s', l.foldlM (fun t u => removePage t p u) s = some s'
  | [], s, _, _, _ => ⟨s, rfl⟩
  | u :: l, s, hnd, hpages, hl => by
    obtain ⟨hu, sup, hs, hfile⟩ := hpages u (List.mem_cons_self ..)
    obtain ⟨t, ht⟩ := removePage_defined hs hfile hu hl
    obtain ⟨sup', hs', -, hR⟩ := removePage_cases ht
    obtain rfl : sup = sup' := Option.some.inj (hs.symm.trans hs')
    obtain ⟨hnot, hnd'⟩ := List.nodup_cons.mp hnd
    rw [List.foldlM_cons, ht]
    refine removeLoop_defined hnd' ?_ (hl.remove hs hfile hR)
    -- the pages still to come keep their entries
    intro v hv
    obtain ⟨hvu, sup', hs', hfile'⟩ := hpages v (List.mem_cons_of_mem _ hv)
    refine ⟨hvu, sup', ?_, hfile'⟩
    rw [hR.lookup, if_neg]
    · exact hs'
    · rintro ⟨-, rfl⟩
      exact hnot hv

theorem writeLoop_defined (file : Nat) : ∀ {l : List Nat} {s : VmState}, (∀ u ∈ l, ∃ sup,
      (s.supPageTable p).lookup u = some sup ∧
      (pagedirIsDirty (s.pagedir p) u = true → sup.kpage ≠ none)) →
    ∃ s₁, l.foldlM (fun t u => writeBack t p file u) s = some s₁
  | [], s, _ => ⟨s, rfl⟩
  | u :: l, s, h => by
    obtain ⟨sup, hs, hnoted⟩ := h u (List.mem_cons_self ..)
    have hone : ∃ t, writeBack s p file u = some t := by
      rw [writeBack, hs, Option.bind_some]
      split
      · next hd =>
        obtain ⟨k, hk⟩ := Option.ne_none_iff_exists'.mp (hnoted hd)
        rw [hk]
        exact ⟨_, rfl⟩
      · exact ⟨s, rfl⟩
    obtain ⟨t, ht⟩ := hone
    rw [List.foldlM_cons, ht]
    refine writeLoop_defined file fun v hv => ?_
    rw [writeBack_eq ht]
    exact h v (List.mem_cons_of_mem _ hv)

/-- Nothing stops the loops: the pages of the file are user pages, the frame of one that is
    dirty is noted, and the frame table knows the frames. -/
structure Unmappable (s : VmState) (p : Tid) (file : Nat) : Prop where
  pages : ∀ u sup, (s.supPageTable p).lookup u = some sup → sup.fileAddress = some file →
    isUserPage u = true ∧ (pagedirIsDirty (s.pagedir p) u = true → sup.kpage ≠ none)
  frames : FramesListed s p

theorem Unmappable.defined (h : Unmappable s p file) : ∃ s', unmapFile s p file = some s' := by
  obtain ⟨s₁, hwrite⟩ := writeLoop_defined (p := p) file
      (l := pagesOf (s.supPageTable p) file) (s := s) fun u hu => by
    obtain ⟨sup, hs, hfile⟩ := mem_pagesOf.mp hu
    exact ⟨sup, hs, (h.pages u sup hs hfile).2⟩
  have heq := writeLoop_eq hwrite
  have hframes : FramesListed s₁ p := by
    rw [heq]
    exact h.frames
  obtain ⟨t, ht⟩ := removeLoop_defined (nodup_pagesOf (s.supPageTable p) file) (fun u hu => by
    obtain ⟨sup, hs, hfile⟩ := mem_pagesOf.mp hu
    refine ⟨(h.pages u sup hs hfile).1, sup, ?_, by simp [hfile]⟩
    rw [heq]
    exact hs) hframes
  refine ⟨unlisted t p file, ?_⟩
  rw [unmapFile, hwrite, Option.bind_some, ht]
  rfl

/-! The exit. -/

/-- Everything `pagedir_destroy` leaves alone: frames of other pages, and all but
    the pool and the page directory. -/
theorem pagedirDestroy_some (h : pagedirDestroy s p = some s') : s' = { s with
      usedMap := s'.usedMap
      mem := s'.mem
      pagedir := update s.pagedir p ∅ } ∧
    ∀ k, (∀ u, pagedirGetPage (s.pagedir p) u ≠ some k) →
      s'.usedMap k = s.usedMap k ∧ s'.mem k = s.mem k := by
  rw [pagedirDestroy, Option.map_eq_some_iff] at h
  obtain ⟨t, ht, rfl⟩ := h
  have hinv : t = { s with usedMap := t.usedMap, mem := t.mem } ∧
      ∀ k, (∀ u, pagedirGetPage (s.pagedir p) u ≠ some k) →
        t.usedMap k = s.usedMap k ∧ t.mem k = s.mem k := by
    refine Lib.foldlM_inv (I := fun t => t = { s with usedMap := t.usedMap, mem := t.mem } ∧
      ∀ k, (∀ u, pagedirGetPage (s.pagedir p) u ≠ some k) →
        t.usedMap k = s.usedMap k ∧ t.mem k = s.mem k) _ ?_ ⟨rfl, fun _ _ => ⟨rfl, rfl⟩⟩ ht
    rintro ⟨v, e⟩ hmem t t' ⟨heq, hkeep⟩ hstep
    dsimp only at hstep
    split at hstep
    · next hp =>
      have hget : pagedirGetPage (s.pagedir p) v = some e.kpage :=
        getPage_eq_some.mpr ⟨e, AList.mem_lookup_iff.mpr hmem, hp, rfl⟩
      unfold pallocFree at hstep
      split at hstep
      · cases hstep
        refine ⟨by rw [heq], fun k hk => ?_⟩
        have hne : k ≠ e.kpage := fun heq => hk v (heq ▸ hget)
        simpa [hne] using hkeep k hk
      · cases hstep
    · cases hstep; exact ⟨heq, hkeep⟩
  refine ⟨?_, hinv.2⟩
  rw [hinv.1]

/-- The state once `pagedir_destroy` is done and the thread is gone. -/
def gone (s : VmState) (p : Tid) : VmState :=
  { closeSelf s p with exited := update s.exited p true }

theorem closeSelf_eq (s : VmState) (p : Tid) :
    closeSelf s p = { s with inodes := (closeSelf s p).inodes } := by
  unfold closeSelf; split <;> rfl

theorem gone_eq (h : pagedirDestroy s p = some s') : gone s' p = { s with
    usedMap := s'.usedMap
    mem := s'.mem
    pagedir := update s.pagedir p ∅
    inodes := (closeSelf s' p).inodes
    exited := update s.exited p true } := by
  rw [gone, closeSelf_eq, (pagedirDestroy_some h).1]

theorem processExit_cases (h : processExit s p = some s') :
    ∃ t t', (s.mappingList p).foldlM (fun t f => unmapFile t p f) s = some t ∧
      pagedirDestroy t p = some t' ∧ s' = gone t' p := by
  simp only [processExit, Option.bind_eq_some_iff, Option.map_eq_some_iff] at h
  obtain ⟨t, ht, t', ht', rfl⟩ := h
  refine ⟨t, t', ht, ht', ?_⟩
  rw [gone, closeSelf_eq]

/-- The rule for the exit: what unmapping files keeps holds until the page directory and the
    thread are gone. -/
theorem processExit_inv (h : processExit s p = some s') (hI : I s)
    (hunmap : ∀ {t t' file}, I t → unmapFile t p file = some t' → I t') :
    ∃ t used mem nodes, I t ∧ s' = { t with
      usedMap := used
      mem := mem
      pagedir := update t.pagedir p ∅
      inodes := nodes
      exited := update t.exited p true } := by
  obtain ⟨t, t', hall, hdestroy, rfl⟩ := processExit_cases h
  have ht : I t := Lib.foldlM_inv _ (fun _ _ _ _ ht hu => hunmap ht hu) hI hall
  exact ⟨t, _, _, _, ht, gone_eq hdestroy⟩

theorem processExit_exited (h : processExit s p = some s') :
    s'.exited = update s.exited p true := by
  obtain ⟨t, used, mem, nodes, ht, rfl⟩ := processExit_inv (I := fun t => t.exited = s.exited) h
    rfl fun ht hu => (unmapFile_exited hu).trans ht
  simp only [ht]

theorem handleMunmap_cases {mapping : Int} (h : handleMunmap s p mapping = some s') :
    s' = s ∨ ∃ file ∈ s.mappingList p, unmapFile s p file = some s' := by
  unfold handleMunmap at h
  split at h
  · next f hf => exact .inr ⟨f, List.mem_of_find?_eq_some hf, h⟩
  · cases h; exact .inl rfl

end Pintos.Vm
