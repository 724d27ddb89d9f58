import Pintos.Vm.Mapping

/- Removing mappings.

   `handle_munmap` and `process_exit` write a mapping's dirty pages back, free the
   frames its entries name and forget its pages. `pagedir_clear_page` keeps the
   dirty bit of an evicted page and the page's entry keeps naming its old frame, so
   removing a mapping with such a page writes and frees a frame that may be another
   page's by then (`unmap_not_exact`). `unmap_exact` is for the runs in which this
   does not happen; `Faithful` lists the conditions. -/
namespace Pintos.Vm

variable {s s' t s₁ t' : VmState} {file u k : Nat} {p q : Tid} {w : Want} {e : Event}
  {sup : SupPageEntry} {l : List Nat}

/-! Removing a mapping. -/

/-- A mapping that can be removed without harm: its pages that are out are clean
    and name no frame of the table, and if a page is dirty it can be written. -/
structure CleanUnmap (s : VmState) (p : Tid) (file : Nat) : Prop where
  out : ∀ u sup, (s.supPageTable p).lookup u = some sup → sup.fileAddress = some file →
    pagedirGetPage (s.pagedir p) u = none →
    pagedirIsDirty (s.pagedir p) u = false ∧ ∀ k, sup.kpage = some k → Unnamed s k
  writable : (∃ u pos, PageAt s p u file pos ∧ pagedirIsDirty (s.pagedir p) u = true) →
    Writable s file

/-- A dirty page of such a mapping is present, in the frame its entry names. -/
theorem CleanUnmap.present
    (hc : CleanUnmap s p file) (hinv : SupInv s) (hs : (s.supPageTable p).lookup u = some sup)
    (hfile : sup.fileAddress = some file) (hd : pagedirIsDirty (s.pagedir p) u = true) :
    ∃ k, sup.kpage = some k ∧ pagedirGetPage (s.pagedir p) u = some k := by
  cases hget : pagedirGetPage (s.pagedir p) u with
  | none => rw [(hc.out u sup hs hfile hget).1] at hd; cases hd
  | some k =>
    obtain ⟨sup', hs', hk⟩ := hinv.resident p u k hget
    obtain rfl : sup = sup' := Option.some.inj (hs.symm.trans hs')
    exact ⟨k, hk (by simp [hfile]), rfl⟩

/-- What the first loop may have changed once the pages `l` are left: the file has
    the wanted bytes wherever no page of `l` is dirty. -/
structure Writing (s : VmState) (w : Want) (p : Tid) (file : Nat) (l : List Nat) (t : VmState) :
    Prop where
  only : t = { s with inodes := t.inodes }
  length : ∀ g, (fileInode t g).length = (fileInode s g).length
  deny : ∀ g, (fileInode t g).denyWriteCnt = (fileInode s g).denyWriteCnt
  others : ∀ q g o, g ∈ s.mappingList q → g ≠ file → o < (fileInode s g).length →
    (fileInode t g).data o = (fileInode s g).data o
  right : ∀ o < (fileInode s file).length,
    (∀ u ∈ l, ∀ pos, PageAt s p u file pos → OnPage pos o →
      pagedirIsDirty (s.pagedir p) u = false) → (fileInode t file).data o = w file o

theorem Writing.step (hinv : MapInv s) (hb : Bytes s w) (hc : CleanUnmap s p file)
    (hlist : file ∈ s.mappingList p) (hu : u ∈ pagesOf (s.supPageTable p) file)
    (h : Writing s w p file (u :: l) t) (hw : writeBack t p file u = some t') :
    Writing s w p file l t' := by
  obtain ⟨sup, hs, hfile⟩ := mem_pagesOf.mp hu
  have hspt : t.supPageTable = s.supPageTable := by rw [h.only]
  have hpd : t.pagedir = s.pagedir := by rw [h.only]
  have hmem : t.mem = s.mem := by rw [h.only]
  have hml : t.mappingList = s.mappingList := by rw [h.only]
  have hfiles : t.files = s.files := by rw [h.only]
  rw [writeBack, hspt, hs, Option.bind_some, hpd] at hw
  split at hw
  · next hd =>
    obtain ⟨k, hk, hget⟩ := hc.present hinv.sups hs hfile hd
    rw [hk] at hw
    cases hw
    have hwr : Writable s file := hc.writable ⟨u, sup.filePos, ⟨sup, hs, hfile, rfl⟩, hd⟩
    have hwt : Writable t file := by
      refine ⟨(h.deny file).trans hwr.1, ?_⟩
      rw [Sole, hml, hfiles, show t.writeBounce = s.writeBounce by rw [h.only]]
      exact hwr.2
    have hdata : ∀ q g o, g ∈ s.mappingList q → o < (fileInode s g).length →
        (fileInode (fileWriteAt t file (t.mem k) pgsize sup.filePos) g).data o =
          if g = file ∧ OnPage sup.filePos o then s.mem k (o - sup.filePos)
          else (fileInode t g).data o := by
      intro q g o hg ho
      rw [fileWriteAt_data hwt (hml ▸ hg) (by rw [h.length]; exact ho), hmem]
    refine ⟨by rw [h.only]; rfl, fun g => (fileWriteAt_length g).trans (h.length g),
      fun g => (fileWriteAt_denyWriteCnt g).trans (h.deny g), fun q g o hg hne ho => ?_,
      fun o ho hclean => ?_⟩
    · rw [hdata q g o hg ho, if_neg fun hc => hne hc.1]
      exact h.others q g o hg hne ho
    · rw [hdata p file o hlist ho]
      by_cases hon : OnPage sup.filePos o
      · rw [if_pos ⟨rfl, hon⟩]
        exact hb.frame p u file _ k o ⟨sup, hs, hfile, rfl⟩ hget hon ho
      · rw [if_neg fun hc => hon hc.2]
        refine h.right o ho fun v hv pos hp hon' => ?_
        rcases List.mem_cons.mp hv with rfl | hv
        · obtain ⟨sup', hs', -, rfl⟩ := hp
          obtain rfl : sup = sup' := Option.some.inj (hs.symm.trans hs')
          exact absurd hon' hon
        · exact hclean v hv pos hp hon'
  · next hd =>
    cases hw
    refine ⟨h.only, h.length, h.deny, h.others, fun o ho hclean => h.right o ho ?_⟩
    intro v hv pos hp hon
    rcases List.mem_cons.mp hv with rfl | hv
    · simpa using hd
    · exact hclean v hv pos hp hon

theorem writeLoop_right (hinv : MapInv s) (hb : Bytes s w) (hc : CleanUnmap s p file)
    (hlist : file ∈ s.mappingList p)
    (h : (pagesOf (s.supPageTable p) file).foldlM (fun t u => writeBack t p file u) s = some s₁) :
    Writing s w p file [] s₁ := by
  have hstart : Writing s w p file (pagesOf (s.supPageTable p) file) s := by
    refine ⟨rfl, fun _ => rfl, fun _ => rfl, fun _ _ _ _ _ _ => rfl, fun o ho hclean => ?_⟩
    refine hb.file p file o hlist ho fun u pos hp hon => .inl (hclean u ?_ pos hp hon)
    obtain ⟨sup, hs, hf, -⟩ := hp
    exact mem_pagesOf.mpr ⟨sup, hs, hf⟩
  refine (Lib.foldlM_todo (I := fun l t => (∀ u ∈ l, u ∈ pagesOf (s.supPageTable p) file) ∧
    Writing s w p file l t) ?_ _ ⟨fun u hu => hu, hstart⟩ h).2
  rintro u l t t' ⟨hsub, hW⟩ hw
  exact ⟨fun v hv => hsub v (List.mem_cons_of_mem _ hv),
    hW.step hinv hb hc hlist (hsub u (List.mem_cons_self ..)) hw⟩

theorem Remove.isDirty
    (h : Remove s p u sup s') (q : Tid) (v : Nat) :
    pagedirIsDirty (s'.pagedir q) v = pagedirIsDirty (s.pagedir q) v := by
  have key : pagedirIsDirty (Function.update s.pagedir p (clearPresent (s.pagedir p) u) q) v =
      pagedirIsDirty (s.pagedir q) v := by
    by_cases hq : q = p
    · subst hq; simp [isDirty_clearPresent]
    · simp [hq]
  cases h <;> exact key

theorem Remove.pageAt
    (h : Remove s p u sup s') (q : Tid) (v file pos : Nat) :
    PageAt s' q v file pos ↔ ¬(q = p ∧ v = u) ∧ PageAt s q v file pos := by
  unfold PageAt
  rw [h.lookup]
  by_cases hqv : q = p ∧ v = u
  · simp [hqv]
  · simp [hqv]

section
variable {s s' : VmState} {p : Tid} {u : Nat} {sup : SupPageEntry}

/-- The entry names the frame the page is in, or no frame of the table. -/
def Named (s : VmState) (p : Tid) (u : Nat) (sup : SupPageEntry) : Prop :=
  ∀ k, sup.kpage = some k → pagedirGetPage (s.pagedir p) u = some k ∨ Unnamed s k

theorem Remove.freed_own (h : Remove s p u sup s') (hk : Named s p u sup)
    (hused : s.usedMap k = true) (hfree : s'.usedMap k = false) :
    pagedirGetPage (s.pagedir p) u = some k := by
  cases h with
  | keep => exact absurd (hused.symm.trans hfree) (by decide)
  | free j hj hnamed _ _ =>
    rcases hk j hj with hget | hun
    · by_cases hkj : k = j
      · exact hkj ▸ hget
      · have : s.usedMap k = false := by simpa [forgotten, freed, hkj] using hfree
        exact absurd (hused.symm.trans this) (by decide)
    · exact absurd hun hnamed

/-- Frames of other pages keep their entries and their bytes. -/
theorem Remove.others (h : Remove s p u sup s') (hinv : MapInv s) (hk : Named s p u sup) {v : Nat}
    (hqv : ¬(q = p ∧ v = u)) (hget : pagedirGetPage (s.pagedir q) v = some k) :
    ⟨q, k, some v⟩ ∈ s'.frameTable ∧ s'.mem k = s.mem k := by
  have hmem := hinv.backed q v k hget
  cases h with
  | keep => exact ⟨hmem, rfl⟩
  | free j hj hnamed _ _ =>
    rcases hk j hj with hown | hun
    · have hne : k ≠ j := by
        rintro rfl
        exact hqv (hinv.backed.page_eq hinv.frames hget hown)
      exact ⟨mem_dropKpage_of_ne hne hmem, by simp [forgotten, freed, hne]⟩
    · exact absurd hun hnamed

theorem MapInv.remove (hinv : MapInv s) (hs : (s.supPageTable p).lookup u = some sup)
    (hfile : sup.fileAddress ≠ none) (hk : Named s p u sup) (h : Remove s p u sup s') :
    MapInv s' := by
  refine hinv.rest h.rest.1 (hinv.frames.remove hinv.sups hs hfile h) (hinv.sups.remove h)
    (fun q v k hget => ?_) (fun q v _ hnone => ?_) fun q v file pos hp => ((h.pageAt ..).mp hp).2
  · rw [h.getPage] at hget
    split at hget
    · cases hget
    · next hqv => exact (h.others hinv hk hqv hget).1
  · rw [h.getPage]
    split
    · rfl
    · exact hnone

theorem Bytes.remove (hinv : MapInv s) (hb : Bytes s w)
    (hs : (s.supPageTable p).lookup u = some sup) (hfile : sup.fileAddress = some file)
    (hk : Named s p u sup)
    (hright : ∀ o < (fileInode s file).length, (fileInode s file).data o = w file o)
    (h : Remove s p u sup s') : Bytes s' w := by
  obtain ⟨hrest, hinodes⟩ := h.rest
  have hino : fileInode s' = fileInode s := by funext g; rw [fileInode, hinodes, hrest.files]; rfl
  refine ⟨fun q v g pos k o hp hget ho hlt => ?_, fun q g o hg hlt hset => ?_⟩
  · obtain ⟨hqv, hp⟩ := (h.pageAt ..).mp hp
    rw [h.getPage, if_neg hqv] at hget
    rw [(h.others hinv hk hqv hget).2]
    exact hb.frame q v g pos k o hp hget ho (hino ▸ hlt)
  · rw [hino] at hlt ⊢
    rw [hrest.mappingList] at hg
    by_cases hgf : g = file
    · subst hgf; exact hright o hlt
    · refine hb.file q g o hg hlt fun v pos hp ho => ?_
      have hqv : ¬(q = p ∧ v = u) := by
        rintro ⟨rfl, rfl⟩
        obtain ⟨sup', hs', hf', -⟩ := hp
        obtain rfl : sup = sup' := Option.some.inj (hs.symm.trans hs')
        exact hgf (Option.some.inj (hf'.symm.trans hfile))
      have hst := hset v pos ((h.pageAt ..).mpr ⟨hqv, hp⟩) ho
      rwa [Settled, h.getPage, if_neg hqv, h.isDirty] at hst

end

/-- The state during the second loop, which began in `s`. -/
structure Removing (s : VmState) (w : Want) (p : Tid) (file : Nat) (t : VmState) : Prop where
  inv : MapInv t
  bytes : Bytes t w
  inodes : fileInode t = fileInode s
  rest : SameRest s t
  table : ∀ f ∈ t.frameTable, f ∈ s.frameTable
  lookup : ∀ u sup, (t.supPageTable p).lookup u = some sup → (s.supPageTable p).lookup u = some sup
  getPage : ∀ u sup, (t.supPageTable p).lookup u = some sup →
    pagedirGetPage (t.pagedir p) u = pagedirGetPage (s.pagedir p) u
  dirty : ∀ u, pagedirIsDirty (t.pagedir p) u = pagedirIsDirty (s.pagedir p) u
  released : ∀ k, s.usedMap k = true → t.usedMap k = false →
    ∃ u pos, PageAt s p u file pos ∧ pagedirGetPage (s.pagedir p) u = some k

theorem Unnamed.mono (h : Unnamed s k) (hsub : ∀ f ∈ t.frameTable, f ∈ s.frameTable) :
    Unnamed t k := fun f hf => h f (hsub f hf)

theorem Removing.step
    (hright : ∀ o < (fileInode s file).length, (fileInode s file).data o = w file o)
    (hnamed : ∀ u sup, (s.supPageTable p).lookup u = some sup → sup.fileAddress = some file →
      Named s p u sup) (h : Removing s w p file t) (hs : (t.supPageTable p).lookup u = some sup)
    (hfile : sup.fileAddress = some file) (hR : Remove t p u sup t') : Removing s w p file t' := by
  obtain ⟨hrest, hinodes⟩ := hR.rest
  have hino : fileInode t' = fileInode t := by funext g; rw [fileInode, hinodes, hrest.files]; rfl
  have hs' := h.lookup u sup hs
  have hk : Named t p u sup := by
    intro k hk
    rw [h.getPage u sup hs]
    rcases hnamed u sup hs' hfile k hk with hget | hun
    · exact .inl hget
    · exact .inr (hun.mono h.table)
  have hlookup : ∀ v sup', (t'.supPageTable p).lookup v = some sup' →
      v ≠ u ∧ (t.supPageTable p).lookup v = some sup' := by
    intro v sup' hv
    rw [hR.lookup] at hv
    split at hv
    · cases hv
    · next hqv => exact ⟨fun hvu => hqv ⟨rfl, hvu⟩, hv⟩
  refine ⟨h.inv.remove hs (by simp [hfile]) hk hR,
    h.bytes.remove h.inv hs hfile hk (by rw [h.inodes]; exact hright) hR,
    hino.trans h.inodes, h.rest.trans hrest,
    fun f hf => h.table f (hR.mem_frameTable h.inv.frames hf).1,
    fun v sup' hv => h.lookup v sup' (hlookup v sup' hv).2, fun v sup' hv => ?_,
    fun v => (hR.isDirty p v).trans (h.dirty v), fun k hused hfree => ?_⟩
  · obtain ⟨hne, hv'⟩ := hlookup v sup' hv
    rw [hR.getPage, if_neg fun hc => hne hc.2]
    exact h.getPage v sup' hv'
  · cases hkt : t.usedMap k with
    | false => exact h.released k hused hkt
    | true =>
      refine ⟨u, sup.filePos, ⟨sup, hs', hfile, rfl⟩, ?_⟩
      rw [← h.getPage u sup hs]
      exact hR.freed_own hk hkt hfree

/-- Removing a mapping, done right: the file ends up with the wanted bytes, dirty
    pages are written from the frames they are in, and only frames the mapping's
    pages are in are released. -/
structure ExactUnmap (w : Want) (s : VmState) (p : Tid) (file : Nat) (s' : VmState) : Prop where
  bytes : ∀ o < (fileInode s file).length, (fileInode s' file).data o = w file o
  source : ∀ u sup, (s.supPageTable p).lookup u = some sup → sup.fileAddress = some file →
    pagedirIsDirty (s.pagedir p) u = true →
    ∃ k, sup.kpage = some k ∧ pagedirGetPage (s.pagedir p) u = some k
  released : ∀ k, s.usedMap k = true → s'.usedMap k = false →
    ∃ u pos, PageAt s p u file pos ∧ pagedirGetPage (s.pagedir p) u = some k

theorem mem_unlisted {g : Nat} (hg : g ∈ (unlisted s p file).mappingList q) :
    g ∈ s.mappingList q := by
  by_cases hq : q = p
  · subst hq
    exact List.mem_of_mem_erase (by simpa [unlisted] using hg)
  · simpa [unlisted, hq] using hg

theorem MapInv.unlisted (hinv : MapInv s)
    (hno : NoPagesOf s p file) : MapInv (unlisted s p file) := by
  refine ⟨⟨hinv.frames.distinct, hinv.frames.held, hinv.frames.installed⟩, hinv.sups.unlisted hno,
    hinv.backed, fun q hq => ?_, fun q g hg => hinv.fresh q g (mem_unlisted hg),
    fun q r g hq hr => hinv.owner q r g (mem_unlisted hq) (mem_unlisted hr), hinv.place⟩
  obtain ⟨hnil, hnone⟩ := hinv.dead q hq
  refine ⟨List.eq_nil_iff_forall_not_mem.mpr fun g hg => ?_, hnone⟩
  have := mem_unlisted hg
  simp [hnil] at this

/-- Between the loops: the files have changed, and nothing else. -/
theorem Writing.done (hinv : MapInv s) (hb : Bytes s w) (hW : Writing s w p file [] s₁) :
    MapInv s₁ ∧ Bytes s₁ w := by
  have hlen := hW.length
  have hothers := hW.others
  have hright := hW.right
  rw [hW.only] at hlen hothers hright ⊢
  refine ⟨⟨⟨hinv.frames.distinct, hinv.frames.held, hinv.frames.installed⟩,
    ⟨hinv.sups.resident, hinv.sups.loading, hinv.sups.listed⟩, hinv.backed, hinv.dead, hinv.fresh,
    hinv.owner, hinv.place⟩, fun q v g pos k o hp hk ho hlt => ?_, fun q g o hg hlt hset => ?_⟩
  · exact hb.frame q v g pos k o hp hk ho (hlen g ▸ hlt)
  · rw [hlen] at hlt
    by_cases hgf : g = file
    · subst hgf
      exact hright o hlt (by simp)
    · rw [hothers q g o hg hgf hlt]
      exact hb.file q g o hg hlt hset

/-- **One mapping is removed exactly**, and what is left is as before. -/
theorem unmapFile_exact (hinv : MapInv s)
    (hb : Bytes s w) (hc : CleanUnmap s p file) (hlist : file ∈ s.mappingList p)
    (h : unmapFile s p file = some s') : MapInv s' ∧ Bytes s' w ∧ ExactUnmap w s p file s' ∧
      s'.exited = s.exited ∧ ∀ g, CleanUnmap s p g → CleanUnmap s' p g := by
  obtain ⟨s₁, t, hwrite, hrem, rfl⟩ := unmapFile_loops h
  have hW := writeLoop_right hinv hb hc hlist hwrite
  obtain ⟨hinv₁, hb₁⟩ := hW.done hinv hb
  have hspt : s₁.supPageTable = s.supPageTable := by rw [hW.only]
  have hpd : s₁.pagedir = s.pagedir := by rw [hW.only]
  have hft : s₁.frameTable = s.frameTable := by rw [hW.only]
  have hmap : s₁.usedMap = s.usedMap := by rw [hW.only]
  have hright : ∀ o < (fileInode s₁ file).length, (fileInode s₁ file).data o = w file o :=
    fun o ho => hW.right o (hW.length file ▸ ho) (by simp)
  have hnamed : ∀ u sup, (s₁.supPageTable p).lookup u = some sup → sup.fileAddress = some file →
      Named s₁ p u sup := by
    intro u sup hs hfile k hk
    rw [hspt] at hs
    rw [hpd]
    cases hget : pagedirGetPage (s.pagedir p) u with
    | none => exact .inr (((hc.out u sup hs hfile hget).2 k hk).mono (by rw [hft]; simp))
    | some k' =>
      obtain ⟨sup', hs', hk'⟩ := hinv.sups.resident p u k' hget
      obtain rfl : sup = sup' := Option.some.inj (hs.symm.trans hs')
      exact .inl ((hk' (by simp [hfile])).symm.trans hk)
  have hstart : Removing s₁ w p file s₁ :=
    ⟨hinv₁, hb₁, rfl, .refl s₁, fun _ hf => hf, fun _ _ hs => hs, fun _ _ _ => rfl,
      fun _ => rfl, fun k hu hn => absurd (hu.symm.trans hn) (by decide)⟩
  rw [← hspt] at hrem
  obtain ⟨hR, hno⟩ := removeLoop_inv hrem hstart fun t u sup t' hI hs hf hRem =>
    hI.step hright hnamed hs hf hRem
  refine ⟨hR.inv.unlisted hno, ⟨hR.bytes.frame, fun q g o hg => hR.bytes.file q g o (mem_unlisted hg)⟩,
    ⟨fun o ho => ?_, fun u sup hs hfile hd => hc.present hinv.sups hs hfile hd, fun k hk hk' => ?_⟩,
    hR.rest.exited.trans (by rw [hW.only]), fun g hcg => ⟨fun u sup hs hg hget => ?_, ?_⟩⟩
  · rw [show fileInode (unlisted t p file) = fileInode s₁ from hR.inodes]
    exact hright o (hW.length file ▸ ho)
  · obtain ⟨u, pos, hp, hget⟩ := hR.released k (hmap ▸ hk) hk'
    rw [PageAt, hspt] at hp
    exact ⟨u, pos, hp, hpd ▸ hget⟩
  · have hs' := hR.lookup u sup hs
    have hget' := (hR.getPage u sup hs).symm.trans hget
    rw [hspt] at hs'
    rw [hpd] at hget'
    obtain ⟨hd, hun⟩ := hcg.out u sup hs' hg hget'
    refine ⟨(hR.dirty u).trans (hpd ▸ hd), fun k hk => (hun k hk).mono fun f hf => ?_⟩
    exact hft ▸ hR.table f hf
  · rintro ⟨u, pos, ⟨sup, hs, hg, hpos⟩, hd⟩
    have hs' := hR.lookup u sup hs
    have hd' := (hR.dirty u).symm.trans hd
    rw [hspt] at hs'
    rw [hpd] at hd'
    obtain ⟨hdeny, hsole, hbounce⟩ := hcg.writable ⟨u, pos, ⟨sup, hs', hg, hpos⟩, hd'⟩
    have hfiles : t.files = s.files := hR.rest.files.trans (by rw [hW.only])
    have hlists : t.mappingList = s.mappingList := hR.rest.mappingList.trans (by rw [hW.only])
    refine ⟨?_, fun q g' hg' heq => hsole q g' (hlists ▸ mem_unlisted hg') ?_, ?_⟩
    · rw [show fileInode (unlisted t p file) = fileInode s₁ from hR.inodes, hW.deny]
      exact hdeny
    · simpa [unlisted, hfiles] using heq
    · rw [show (unlisted t p file).writeBounce = s₁.writeBounce from hR.rest.writeBounce, hW.only]
      exact hbounce

/-! All mappings an event removes. -/

/-- The removals of the files `l`, one after the other, with the states before
    and after each. -/
def unmapTrace (p : Tid) : VmState → List Nat → List (VmState × Nat × VmState)
  | _, [] => []
  | s, file :: l => match unmapFile s p file with
    | some s' => (s, file, s') :: unmapTrace p s' l
    | none => []

theorem Event.removes_of_ends (h : e.ends s = true) :
    e.removes s = s.mappingList e.tid := by
  cases e with
  | munmap p mapping => simp [Event.ends] at h
  | _ => simp [Event.removes, h]

theorem unmapTrace_complete : ∀ {l : List Nat} {s t : VmState},
    l.foldlM (fun t f => unmapFile t p f) s = some t → (unmapTrace p s l).map (fun r => r.2.1) = l
  | [], _, _, _ => rfl
  | file :: l, s, t, h => by
    rw [List.foldlM_cons] at h
    obtain ⟨s', hs', hl⟩ := Option.bind_eq_some_iff.mp h
    simp [unmapTrace, hs', unmapTrace_complete hl]

theorem subperm_unlisted (h : (file :: l).Subperm (s.mappingList p)) :
    l.Subperm ((s.mappingList p).erase file) := by
  have := h.erase file
  rwa [List.erase_cons_head] at this

theorem unmapTrace_exact : ∀ {l : List Nat} {s : VmState}, MapInv s →
    Bytes s w → l.Subperm (s.mappingList p) → (∀ file ∈ l, CleanUnmap s p file) →
    ∀ r ∈ unmapTrace p s l, ExactUnmap w r.1 p r.2.1 r.2.2
  | [], _, _, _, _, _, r, hr => by cases hr
  | file :: l, s, hinv, hb, hsub, hc, r, hr => by
    have hlist : file ∈ s.mappingList p := hsub.subset (List.mem_cons_self ..)
    rw [unmapTrace] at hr
    split at hr
    · next s' hs' =>
      obtain ⟨hinv', hb', hexact, -, hkeep⟩ :=
        unmapFile_exact hinv hb (hc file (List.mem_cons_self ..)) hlist hs'
      rcases List.mem_cons.mp hr with rfl | hr
      · exact hexact
      · refine unmapTrace_exact hinv' hb' ?_ (fun g hg => hkeep g (hc g (List.mem_cons_of_mem _ hg)))
          r hr
        rw [unmapFile_mappingList hs']
        exact subperm_unlisted hsub
    · cases hr

theorem unmapAll_exact (hinv : MapInv s) (hb : Bytes s w)
    (hc : ∀ file ∈ s.mappingList p, CleanUnmap s p file)
    (h : (s.mappingList p).foldlM (fun t f => unmapFile t p f) s = some t) :
    MapInv t ∧ Bytes t w ∧ t.exited = s.exited ∧ t.mappingList p = [] := by
  obtain ⟨h1, h2, h3, h4, -⟩ := Lib.foldlM_todo
    (I := fun l t => MapInv t ∧ Bytes t w ∧ t.exited = s.exited ∧ t.mappingList p = l ∧
      ∀ file ∈ l, CleanUnmap t p file) (by
      rintro file l r r' ⟨hinv, hb, hex, hl, hc⟩ hu
      have hlist : file ∈ r.mappingList p := by rw [hl]; exact List.mem_cons_self ..
      obtain ⟨hinv', hb', -, hex', hkeep⟩ :=
        unmapFile_exact hinv hb (hc file (List.mem_cons_self ..)) hlist hu
      refine ⟨hinv', hb', hex'.trans hex, ?_, fun g hg => hkeep g (hc g (List.mem_cons_of_mem _ hg))⟩
      rw [unmapFile_mappingList hu, hl, List.erase_cons_head])
    _ ⟨hinv, hb, rfl, rfl, hc⟩ h
  exact ⟨h1, h2, h3, h4⟩

/-! The end of a process. -/

theorem closeSelf_inode (s : VmState) (p : Tid) (i : Nat) :
    ((closeSelf s p).inodes i).data = (s.inodes i).data ∧
      ((closeSelf s p).inodes i).length = (s.inodes i).length := by
  unfold closeSelf
  split
  · next ino _ =>
    by_cases hi : i = ino
    · subst hi; simp
    · simp [hi]
  · exact ⟨rfl, rfl⟩

section
variable {s s' : VmState} {p : Tid}

theorem MapInv.destroy (hinv : MapInv s) (hnil : s.mappingList p = [])
    (h : pagedirDestroy s p = some s') : MapInv (gone s' p) := by
  have hown : ∀ u k, pagedirGetPage (s.pagedir p) u = some k → ∀ f ∈ s.frameTable, f.kpage = k →
      f.usingThread = p := by
    intro u k hget f hf hk
    rw [hinv.frames.eq_of_kpage hf (hinv.backed p u k hget) hk]
  have hframes := hinv.frames.destroy h hown
  have hsups := hinv.sups.destroy h
  rw [gone_eq h] at hframes hsups ⊢
  refine ⟨hframes, hsups, fun q u k hget => ?_, fun q hq => ?_, hinv.fresh, hinv.owner, hinv.place⟩
  · by_cases hq : q = p
    · subst hq; simp at hget
    · exact hinv.backed q u k (by simpa [hq] using hget)
  · by_cases hqp : q = p
    · subst hqp; exact ⟨hnil, by simp⟩
    · obtain ⟨hnil', hnone⟩ := hinv.dead q (by simpa [hqp] using hq)
      exact ⟨hnil', fun u => by simpa [hqp] using hnone u⟩

theorem Bytes.destroy (hinv : MapInv s) (hb : Bytes s w) (hnil : s.mappingList p = [])
    (h : pagedirDestroy s p = some s') : Bytes (gone s' p) w := by
  obtain ⟨heq, hkeep⟩ := pagedirDestroy_some h
  have hino : ∀ g, (fileInode (gone s' p) g).data = (fileInode s g).data ∧
      (fileInode (gone s' p) g).length = (fileInode s g).length := by
    intro g
    have hi : s'.inodes = s.inodes := by rw [heq]
    have hf : (gone s' p).files = s.files := by rw [gone_eq h]
    have hc := closeSelf_inode s' p ((s.files g).inode)
    rw [fileInode, hf, fileInode, ← hi]
    exact hc
  have hpd : ∀ q, q ≠ p → (gone s' p).pagedir q = s.pagedir q := by
    intro q hq
    rw [gone_eq h]
    exact Function.update_of_ne hq _ _
  have hmem : (gone s' p).mem = s'.mem := by rw [gone_eq h]
  have hspt : (gone s' p).supPageTable = s.supPageTable := by rw [gone_eq h]
  have hml : (gone s' p).mappingList = s.mappingList := by rw [gone_eq h]
  have hself : ∀ u, pagedirGetPage ((gone s' p).pagedir p) u = none := by
    intro u
    rw [gone_eq h]
    simp
  refine ⟨fun q v g pos k o hp hget ho hlt => ?_, fun q g o hg hlt hset => ?_⟩
  · have hq : q ≠ p := by rintro rfl; rw [hself] at hget; cases hget
    rw [hpd q hq] at hget
    rw [PageAt, hspt] at hp
    rw [(hino g).2] at hlt
    have hk : ∀ u, pagedirGetPage (s.pagedir p) u ≠ some k := fun u hu =>
      hq (hinv.backed.page_eq hinv.frames hget hu).1
    rw [hmem, (hkeep k hk).2]
    exact hb.frame q v g pos k o hp hget ho hlt
  · rw [hml] at hg
    have hq : q ≠ p := by rintro rfl; rw [hnil] at hg; cases hg
    rw [(hino g).2] at hlt
    rw [(hino g).1]
    refine hb.file q g o hg hlt fun v pos hv ho => ?_
    have hs := hset v pos (by rw [PageAt, hspt]; exact hv) ho
    rwa [Settled, hpd q hq] at hs

end

/-! Runs. -/

/-- The steps for which removing mappings stays exact:
    a free frame that is handed out is not named by an entry an exited process
    left behind; a page of a mapped file that is brought in is read to its end; a dirty
    victim of a mapped file can be written back; and a mapping that is removed has no page
    that was evicted dirty or whose old frame is another page's by now. -/
structure Faithful (s : VmState) (e : Event) : Prop where
  fresh : e.takesFrame s = true → ∀ k, FirstFree s k → Unnamed s k
  reads : e.takesFrame s = true → ∀ file ∈ s.mappingList e.tid, s.readBounce file = true
  evict : e.takesFrame s = true → PoolFull s → ∀ f rest u sup file, Victim s f rest u sup →
    sup.fileAddress = some file → pagedirIsDirty (s.pagedir f.usingThread) u = true →
    Writable s file
  unmap : ∀ file ∈ e.removes s, CleanUnmap s e.tid file

/-- The machine with the wanted contents of the mapped files beside it. -/
def mapStep (x : VmState × Want) (e : Event) : Option (VmState × Want) :=
  (step x.1 e).map fun s' => (s', wantStep x.2 x.1 e)

theorem MapInv.alloc (hinv : MapInv s) (hb : Bytes s w)
    (hlive : s.exited e.tid = false) (hc : Faithful s e) (htake : e.takesFrame s = true)
    (h : Alloc s e.tid (e.creates s) s') : MapInv s' ∧ Bytes s' w := by
  obtain ⟨s₀, k, hroom, hfree, hop⟩ := h
  have hun : Unnamed s₀ k := hroom.unnamed hinv.frames hfree (hc.fresh htake)
  have hlive₀ : s₀.exited e.tid = false := (congrFun hroom.rest.exited e.tid).trans hlive
  have hread₀ : ∀ file ∈ s₀.mappingList e.tid, s₀.readBounce file = true := by
    rw [hroom.rest.readBounce, hroom.rest.mappingList]
    exact hc.reads htake
  have h₀ : MapInv s₀ ∧ Bytes s₀ w := by
    cases hroom with
    | free => exact ⟨hinv, hb⟩
    | evict hfull hev =>
      have hE := evictFront_cases hev
      exact ⟨hinv.evict hE, hb.evict hinv hE (hc.evict htake hfull)⟩
  exact ⟨h₀.1.pageOp hlive₀ hfree hun hop, h₀.2.pageOp h₀.1 hread₀ hfree hop⟩

theorem Bytes.same (hb : Bytes s w)
    (hspt : t.supPageTable = s.supPageTable) (hpd : t.pagedir = s.pagedir) (hmem : t.mem = s.mem)
    (hml : t.mappingList = s.mappingList)
    (hino : ∀ g, (fileInode t g).data = (fileInode s g).data ∧
      (fileInode t g).length = (fileInode s g).length) : Bytes t w := by
  refine ⟨fun q v g pos k o hp hget ho hlt => ?_, fun q g o hg hlt hset => ?_⟩
  · rw [PageAt, hspt] at hp
    rw [hmem]
    exact hb.frame q v g pos k o hp (hpd ▸ hget) ho ((hino g).2 ▸ hlt)
  · rw [(hino g).1]
    refine hb.file q g o (hml ▸ hg) ((hino g).2 ▸ hlt) fun v pos hv ho => ?_
    have hs := hset v pos (by rw [PageAt, hspt]; exact hv) ho
    rwa [Settled, hpd] at hs

theorem wantStep_of_not_soils (h : e.soils = false) (w : Want) (s : VmState) :
    wantStep w s e = w := by
  cases e with
  | store => cases h
  | mmap => cases h
  | _ => rfl

theorem MapInv.step (hinv : MapInv s) (hb : Bytes s w)
    (hc : Faithful s e) (h : Vm.step s e = some s') : MapInv s' ∧ Bytes s' (wantStep w s e) := by
  obtain ⟨hlive, hphase, hcase⟩ := step_cases h
  cases hcase with
  | alloc htake h =>
    have hw : wantStep w s e = w := by cases e <;> first | rfl | cases htake
    rw [hw]
    exact hinv.alloc hb hlive hc htake h
  | quiet hq =>
    rw [wantStep_of_not_soils hq.soils]
    exact ⟨hinv.same hq.sameFrames (hinv.sups.quiet hq) (by rw [hq.rest]) (by rw [hq.rest])
      (by rw [hq.rest]), hb.same (by rw [hq.rest]) (by rw [hq.rest]) (by rw [hq.rest])
      (by rw [hq.rest]) fun g => by rw [fileInode, fileInode, hq.rest]; exact hq.inode _⟩
  | store addr b he h =>
    have hbytes := hb.store hinv h
    have hsame := userStore_sameFrames h
    rw [show wantStep w s e = wantStep w s (.store e.tid addr b) from congrArg _ he]
    refine ⟨?_, hbytes⟩
    obtain ⟨pte, -, -, -, rfl⟩ := userStore_some h
    exact hinv.same hsame ⟨fun q v k hg => hinv.sups.resident q v k (hsame.getPage q v ▸ hg),
      hinv.sups.loading, hinv.sups.listed⟩ rfl rfl rfl
  | mmap ino addr he h =>
    have hload : s.loaded e.tid = true := by rw [he] at hphase; exact hphase
    rw [show wantStep w s e = wantStep w s (.mmap e.tid ino addr) from congrArg _ he]
    subst h
    exact ⟨hinv.mmap hlive hload ino addr, hb.mmap hinv ino addr⟩
  | unmap file hfile hsoils hrem h =>
    rw [wantStep_of_not_soils hsoils]
    obtain ⟨h1, h2, -⟩ := unmapFile_exact hinv hb
      (hc.unmap file (by rw [hrem]; exact List.mem_singleton_self file)) hfile h
    exact ⟨h1, h2⟩
  | exit hend h =>
    have hw : wantStep w s e = w := by cases e <;> first | rfl | cases hend
    rw [hw]
    obtain ⟨t, t', hall, hdestroy, rfl⟩ := processExit_cases h
    have hclean := hc.unmap
    rw [Event.removes_of_ends hend] at hclean
    obtain ⟨h1, h2, -, hnil⟩ := unmapAll_exact hinv hb hclean hall
    exact ⟨h1.destroy hnil hdestroy, h2.destroy h1 hnil hdestroy⟩

theorem MapInv.boot (poolSize : Nat) (mem : Nat → Buf) (inodes : Nat → Inode) (swapDisk : Disk)
    (w : Want) : MapInv (boot poolSize mem inodes swapDisk) ∧
      Bytes (boot poolSize mem inodes swapDisk) w := by
  have ht := TableInv.boot poolSize mem inodes swapDisk
  refine ⟨⟨ht.frames, ht.sups, ?_, ?_, ?_, ?_, fun _ => ⟨0, ?_⟩⟩, ?_, ?_⟩ <;>
    simp [Vm.boot, Backed, PageAt]

theorem mapStep_inv (x : VmState × Want) (e : Event) (x' : VmState × Want)
    (hx : MapInv x.1 ∧ Bytes x.1 x.2) (hc : Faithful x.1 e) (h : mapStep x e = some x') :
    MapInv x'.1 ∧ Bytes x'.1 x'.2 := by
  obtain ⟨s', hs', rfl⟩ := Option.map_eq_some_iff.mp h
  exact hx.1.step hx.2 hc hs'

theorem Event.removes_subperm (s : VmState) (e : Event) :
    (e.removes s).Subperm (s.mappingList e.tid) := by
  cases e with
  | munmap p mapping =>
    simp only [Event.removes, Event.tid]
    cases hf : (s.mappingList p).find? fun f => (s.files f).mapping = mapping with
    | none => exact List.nil_subperm
    | some f => exact List.singleton_subperm_iff.mpr (List.mem_of_find?_eq_some hf)
  | _ =>
    simp only [Event.removes]
    split
    · exact List.Subperm.refl _
    · exact List.nil_subperm

theorem Event.ends_of_takesFrame (h : e.takesFrame s = true) :
    e.ends s = false := by
  cases e with
  | fault p addr esp write ptOk => simpa [Event.takesFrame, Event.ends] using h
  | exit p => cases h
  | _ => rfl

theorem step_removes (h : step s e = some s') :
    (unmapTrace e.tid s (e.removes s)).map (fun r => r.2.1) = e.removes s := by
  obtain ⟨-, -, hcase⟩ := step_cases h
  cases hcase with
  | alloc htake _ =>
    rw [Event.removes_of_not_ends (Event.ends_of_takesFrame htake)]
    · rfl
    · rintro p mapping rfl
      cases htake
  | quiet hq => rw [hq.removes]; rfl
  | store addr b he _ => rw [he]; rfl
  | mmap ino addr he _ => rw [he]; rfl
  | unmap file _ _ hrem hu => simp [hrem, unmapTrace, hu]
  | exit hend hx =>
    rw [Event.removes_of_ends hend]
    obtain ⟨t, t', hall, -, -⟩ := processExit_cases hx
    exact unmapTrace_complete hall

/-- **Mapped files are written back exactly in every run of faithful steps.** Each
    mapping that `munmap` or the end of a process removes has its last stored
    bytes in the file, and the bytes of the file it was mapped with elsewhere; it
    was written from the frames its pages are in, and only these are released. -/
theorem unmap_exact {poolSize : Nat} {mem : Nat → Buf} {inodes : Nat → Inode} {swapDisk : Disk}
    {w₀ w : Want} {s s' : VmState} {e : Event}
    (h : Lib.Reach mapStep (fun x e => Faithful x.1 e) (boot poolSize mem inodes swapDisk, w₀) (s, w))
    (hc : Faithful s e) (hstep : step s e = some s') :
    (unmapTrace e.tid s (e.removes s)).map (fun r => r.2.1) = e.removes s ∧
      ∀ r ∈ unmapTrace e.tid s (e.removes s), ExactUnmap w r.1 e.tid r.2.1 r.2.2 := by
  have hinv := h.inv (I := fun x => MapInv x.1 ∧ Bytes x.1 x.2) (MapInv.boot ..) mapStep_inv
  exact ⟨step_removes hstep, unmapTrace_exact hinv.1 hinv.2 (e.removes_subperm s) hc.unmap⟩

/-- A machine with one file of three bytes, all 1. -/
def fileMachine (poolSize : Nat) : VmState :=
  boot poolSize (fun _ _ => 0) (fun _ => ⟨3, fun _ => 1, 0⟩) ⟨8, fun _ _ => 0⟩

/-- A check for runs that make one mapping, never evict, and unmap only what is
    resident. -/
def faithful (s : VmState) (e : Event) : Bool :=
  (!e.takesFrame s || match (List.range s.poolSize).find? fun k => !s.usedMap k with
    | some k => (s.frameTable.all fun f => f.kpage != k) && (s.mappingList e.tid).all s.readBounce
    | none => false) &&
  (e.removes s).all fun file => s.nextFile == 1 && (fileInode s file).denyWriteCnt == 0 &&
    s.writeBounce file &&
    (pagesOf (s.supPageTable e.tid) file).all fun u =>
      (pagedirGetPage (s.pagedir e.tid) u).isSome

theorem faithful_sound (hinv : MapInv s) (e : Event) (h : faithful s e = true) :
    Faithful s e := by
  simp only [faithful, Bool.and_eq_true, Bool.or_eq_true, Bool.not_eq_true', List.all_eq_true] at h
  obtain ⟨htake, hrem⟩ := h
  have hfree : e.takesFrame s = true → ∃ k, FirstFree s k ∧ Unnamed s k ∧
      ∀ file ∈ s.mappingList e.tid, s.readBounce file = true := by
    intro ht
    rcases htake with hno | hyes
    · rw [ht] at hno; cases hno
    · split at hyes
      · next k hk =>
        simp only [Bool.and_eq_true, List.all_eq_true] at hyes
        exact ⟨k, find_free_some hk, fun f hf => by simpa using hyes.1 f hf, hyes.2⟩
      · cases hyes
  refine ⟨fun ht k hk => ?_, fun ht => ?_, fun ht hfull => ?_,
    fun file hfile => ⟨fun u sup hs hf hget => ?_, ?_⟩⟩
  · obtain ⟨j, hj, hun, -⟩ := hfree ht
    obtain rfl : k = j := by
      rcases Nat.lt_trichotomy k j with hlt | heq | hlt
      · exact absurd ((hj.2.2 k hlt).symm.trans hk.2.1) (by decide)
      · exact heq
      · exact absurd ((hk.2.2 j hlt).symm.trans hj.2.1) (by decide)
    exact hun
  · obtain ⟨-, -, -, hread⟩ := hfree ht
    exact hread
  · obtain ⟨j, hj, -⟩ := hfree ht
    exact absurd ((hfull j hj.1).symm.trans hj.2.1) (by decide)
  · have hpage := (hrem file hfile).2 u (mem_pagesOf.mpr ⟨sup, hs, hf⟩)
    rw [hget] at hpage
    cases hpage
  · rintro -
    obtain ⟨⟨⟨hone, hdeny⟩, hbounce⟩, -⟩ := hrem file hfile
    refine ⟨by simpa using hdeny, fun q g hg _ => ?_, hbounce⟩
    -- only one `struct file` was ever made for a mapping
    have hnext : s.nextFile = 1 := by simpa using hone
    have hlt := hinv.fresh q g hg
    have hlt' := hinv.fresh e.tid file ((e.removes_subperm s).subset hfile)
    omega

/-- A byte is stored through a mapping whose page stays resident. -/
theorem unmap_exact_resident : ∃ s w s',
    Lib.Reach mapStep (fun x e => Faithful x.1 e) (fileMachine 2, fun _ _ => 0) (s, w) ∧
    Faithful s (.munmap 1 0) ∧ step s (.munmap 1 0) = some s' ∧
    (Event.munmap 1 0).removes s = [0] ∧ w 0 0 = 7 ∧
    ∀ r ∈ unmapTrace 1 s [0], ExactUnmap w r.1 1 r.2.1 r.2.2 := by
  obtain ⟨⟨s, w⟩, hs, hq⟩ := Lib.exists_reach_inv mapStep (fileMachine 2, fun _ _ => 0)
    [.start 1, .mmap 1 5 0x1000, .fault 1 0x1000 0 true true, .store 1 0x1000 7]
    (fun x => faithful x.1 (.munmap 1 0) && (step x.1 (.munmap 1 0)).isSome &&
      (Event.munmap 1 0).removes x.1 == [0] && x.2 0 0 == 7)
    (c := fun x e => faithful x.1 e) mapStep_inv (fun x e hx => faithful_sound hx.1 e)
    (MapInv.boot ..) (by decide) (by decide)
  simp only [Bool.and_eq_true, beq_iff_eq, Option.isSome_iff_exists] at hq
  obtain ⟨⟨⟨hf, s', hs'⟩, hrem⟩, hw⟩ := hq
  have hinv := hs.inv (I := fun x => MapInv x.1 ∧ Bytes x.1 x.2) (MapInv.boot ..) mapStep_inv
  have hfaithful : Faithful s (.munmap 1 0) := faithful_sound hinv.1 _ hf
  have hexact := (unmap_exact hs hfaithful hs').2
  rw [hrem] at hexact
  exact ⟨s, w, s', hs, hfaithful, hs', hrem, hw, hexact⟩

/-- A page that was stored to is evicted, and written back, before the mapping is
    removed. The removal writes the frame once more, which holds the stack of the
    second process by then, and frees it. -/
theorem unmap_not_exact : ∃ s w s',
    Lib.Reach mapStep Lib.anyStep (fileMachine 1, fun _ _ => 0) (s, w) ∧
    step s (.munmap 1 0) = some s' ∧ unmapTrace 1 s ((Event.munmap 1 0).removes s) = [(s, 0, s')] ∧
    ¬ ExactUnmap w s 1 0 s' := by
  obtain ⟨⟨s, w⟩, hs, hq⟩ := Lib.exists_reach (C := Lib.anyStep) (c := fun _ _ => true) mapStep
    (fileMachine 1, fun _ _ => 0)
    [.start 1, .mmap 1 5 0x1000, .fault 1 0x1000 0 true true, .store 1 0x1000 7,
      .setupStack 2 true]
    (fun x => (Event.munmap 1 0).removes x.1 == [0] && x.2 0 0 == 7 &&
      (fileInode x.1 0).length == 3 && !x.1.exited 1 && x.1.loaded 1 &&
      (unmapFile x.1 1 0).any fun s' => (fileInode s' 0).data 0 == 0)
    (fun _ _ _ => trivial) (by decide) (by decide)
  simp only [Bool.and_eq_true, beq_iff_eq, Option.any_eq_true] at hq
  obtain ⟨⟨⟨⟨⟨hrem, hw⟩, hlen⟩, hlive⟩, hload⟩, s', hs', hzero⟩ := hq
  refine ⟨s, w, s', hs, ?_, by simp [hrem, unmapTrace, hs'], fun hexact => ?_⟩
  · have hfind := Option.toList_eq_singleton_iff.mp hrem
    simp only [Bool.not_eq_true'] at hlive
    simp [step, Event.tid, Event.inPhase, Event.apply, handleMunmap, hlive, hload, hfind, hs']
  · have hbyte := hexact.bytes 0 (by rw [hlen]; decide)
    rw [hzero, hw] at hbyte
    cases hbyte

end Pintos.Vm
