import Pintos.Vm.Unmap

/- The frame table against the pool and the page directories.

   What an operation that takes a frame does is said once for each table:
   `PageOp.frame` for the frame table, `PageOp.lookup` for the supplemental tables,
   `PageOp.fills` for the page directories and the frame itself. The invariants of
   this and the later modules are read off these.

   `FrameInv` is what holds of the entries whose owner is alive, `SupInv` ties
   the present pages to the supplemental tables. Both are kept by every step that
   hands out a frame no entry names. A process that exits leaves its entries
   behind, since `process_exit` frees frames through the page directory only; the
   table as a whole is consistent in the runs in which no process ends with an
   anonymous page resident (`frameTable_consistent`). -/
namespace Pintos.Vm

open Function

variable {s s' s₀ t : VmState} {p : Tid} {file k u : Nat} {c : Option Nat} {sup : SupPageEntry}
  {g : FrameEntry} {I : VmState → Prop}

/-- The entry's frame is in the pool and marked used. -/
def Held (s : VmState) (f : FrameEntry) : Prop :=
  f.kpage < s.poolSize ∧ s.usedMap f.kpage = true

structure FrameInv (s : VmState) : Prop where
  distinct : (s.frameTable.map FrameEntry.kpage).Nodup
  held : ∀ f ∈ s.frameTable, s.exited f.usingThread = false → Held s f
  installed : ∀ f ∈ s.frameTable, s.exited f.usingThread = false → ∀ u, f.upage = some u →
    pagedirGetPage (s.pagedir f.usingThread) u = some f.kpage

structure SupInv (s : VmState) : Prop where
  resident : ∀ p u k, pagedirGetPage (s.pagedir p) u = some k →
    ∃ sup, (s.supPageTable p).lookup u = some sup ∧ (sup.fileAddress ≠ none → sup.kpage = some k)
  /-- Files are mapped by system calls, so not before the process runs. -/
  loading : ∀ p, s.loaded p = false → ∀ u sup, (s.supPageTable p).lookup u = some sup →
    sup.fileAddress = none
  listed : ∀ p u sup file, (s.supPageTable p).lookup u = some sup →
    sup.fileAddress = some file → file ∈ s.mappingList p

theorem FrameInv.eq_of_kpage (h : FrameInv s) {f : FrameEntry}
    (hf : f ∈ s.frameTable) (hg : g ∈ s.frameTable) (hk : f.kpage = g.kpage) : f = g :=
  List.inj_on_of_nodup_map h.distinct hf hg hk

/-! Evictions. -/

theorem FrameInv.victim {f : FrameEntry} {rest : List FrameEntry} (hinv : FrameInv s)
    (hv : Victim s f rest u sup) : pagedirGetPage (s.pagedir f.usingThread) u = some f.kpage :=
  hinv.installed f (hv.front ▸ List.mem_cons_self ..) hv.live u hv.upage

theorem Evict.mem_frameTable (h : Evict s s₀) (hinv : FrameInv s)
    (hg : g ∈ s₀.frameTable) : g ∈ s.frameTable ∧ (Held s g → Held s₀ g) := by
  obtain ⟨f, rest, u, sup, hv, heq⟩ := h.core
  rw [heq] at hg ⊢
  have hnd := hinv.distinct
  rw [hv.front, List.map_cons, List.nodup_cons] at hnd
  have hne : g.kpage ≠ f.kpage := fun hk => hnd.1 (hk ▸ List.mem_map_of_mem hg)
  refine ⟨by rw [hv.front]; exact List.mem_cons_of_mem _ hg, fun hh => ⟨hh.1, ?_⟩⟩
  simpa [evicted, hne] using hh.2

theorem FrameInv.evict (hinv : FrameInv s) (h : Evict s s₀) : FrameInv s₀ := by
  have hmem := fun {g} => h.mem_frameTable hinv (g := g)
  obtain ⟨f, rest, u, sup, hv, heq⟩ := h.core
  have hex := h.rest.exited
  have hnd := hinv.distinct
  rw [hv.front, List.map_cons, List.nodup_cons] at hnd
  refine ⟨by rw [heq]; exact hnd.2, fun g hg hlive => ?_, fun g hg hlive v hv' => ?_⟩
  · exact (hmem hg).2 (hinv.held g (hmem hg).1 (hex ▸ hlive))
  · have hmap := hinv.installed g (hmem hg).1 (hex ▸ hlive) v hv'
    have hpd : s₀.pagedir = (evicted s f rest u).pagedir := by rw [heq]
    rw [hpd, evicted_getPage, if_neg, hmap]
    -- another entry for the victim's page would name the victim's frame
    rintro ⟨hq, rfl⟩
    have hfmap := hinv.victim hv
    rw [← hq, hmap] at hfmap
    rw [heq] at hg
    exact hnd.1 (Option.some.inj hfmap ▸ List.mem_map_of_mem hg)

theorem SupInv.evict (hinv : SupInv s) (h : Evict s s₀) : SupInv s₀ := by
  refine ⟨fun p v k hget => ?_, fun p hl v sup₀ h₀ => ?_, fun p v sup₀ file h₀ hfile => ?_⟩
  · obtain ⟨sup₁, hs₁, hk₁⟩ := hinv.resident p v k (h.getPage_some hget)
    obtain ⟨sup₀, hs₀, hk, hfile⟩ := h.lookup_kept hs₁
    exact ⟨sup₀, hs₀, fun hne => hk.trans (hk₁ (hfile ▸ hne))⟩
  · obtain ⟨sup, hs, -, hfile⟩ := h.lookup_some h₀
    exact hfile.trans (hinv.loading p (h.rest.loaded ▸ hl) v sup hs)
  · obtain ⟨sup, hs, -, hf⟩ := h.lookup_some h₀
    exact h.rest.mappingList ▸ hinv.listed p v sup file hs (hf ▸ hfile)

theorem Room.of_evict (hroom : Room s s₀) (hI : I s) (hev : Evict s s₀ → I s₀) : I s₀ := by
  cases hroom with
  | free => exact hI
  | evict _ he => exact hev (evictFront_cases he)

/-! New frames. -/

/-- The frame is taken for the page `u`, or not installed if there is none. -/
def pushed (s : VmState) (p : Tid) (k : Nat) (u : Option Nat) : List FrameEntry :=
  s.frameTable ++ [⟨p, k, u⟩]

theorem PageOp.rest (hop : PageOp s p k c s') : SameRest s s' ∧ s'.inodes = s.inodes := by
  cases hop with
  | newPage => rw [supPageEntryCreate_eq]; exact ⟨⟨rfl, rfl, rfl, rfl, rfl, rfl, rfl, rfl⟩, rfl⟩
  | giveBack buf hback =>
    obtain ⟨rfl, -⟩ | ⟨k', -, -, -, -, rfl⟩ := frameTableFree_cases hback <;>
      exact ⟨⟨rfl, rfl, rfl, rfl, rfl, rfl, rfl, rfl⟩, rfl⟩
  | _ => exact ⟨⟨rfl, rfl, rfl, rfl, rfl, rfl, rfl, rfl⟩, rfl⟩

theorem Alloc.rest (h : Alloc s p c s') : SameRest s s' := by
  obtain ⟨s₀, k, hroom, -, hop⟩ := h
  exact hroom.rest.trans hop.rest.1

/-- What an operation does to the frame table and the page directories. Nothing
    but the owner's own page changes. -/
theorem PageOp.frame (hop : PageOp s p k c s')
    (hfree : FirstFree s k) (hun : Unnamed s k) :
    (s'.frameTable = s.frameTable ∧ s'.usedMap = s.usedMap ∧ s'.pagedir = s.pagedir) ∨
      (s'.usedMap = update s.usedMap k true ∧
        ((s'.frameTable = pushed s p k none ∧ s'.pagedir = s.pagedir) ∨
          ∃ u w, pagedirGetPage (s.pagedir p) u = none ∧ s'.frameTable = pushed s p k (some u) ∧
            s'.pagedir = update s.pagedir p
              ((s.pagedir p).insert u ⟨k, true, w, false⟩))) := by
  have hset := fun u => setUpage_append (u := u) (p := p) hun
  cases hop with
  | newPage u w buf _ hnp =>
    rw [supPageEntryCreate_eq]
    exact .inr ⟨rfl, .inr ⟨u, w, hnp, hset u, rfl⟩⟩
  | swapIn u i w sup se _ hnp => exact .inr ⟨rfl, .inr ⟨u, w, hnp, hset u, rfl⟩⟩
  | fileIn u file w sup _ hnp => exact .inr ⟨rfl, .inr ⟨u, w, hnp, hset u, rfl⟩⟩
  | growFail u buf => exact .inr ⟨rfl, .inl ⟨rfl, rfl⟩⟩
  | fileFail u file sup => exact .inr ⟨rfl, .inl ⟨rfl, rfl⟩⟩
  | giveBack buf hback =>
    obtain ⟨rfl, hno⟩ | ⟨k', hk', -, -, -, rfl⟩ := frameTableFree_cases hback
    · exact absurd rfl (hno k rfl ⟨p, k, none⟩ (by simp [grab]))
    · cases hk'
      refine .inl ⟨dropKpage_append hun, ?_, rfl⟩
      simp [freed, grab, ← hfree.2.1]

theorem PageOp.mem_frameTable (hop : PageOp s p k c s')
    (hfree : FirstFree s k) (hun : Unnamed s k) (hg : g ∈ s'.frameTable) :
    (g ∈ s.frameTable ∧ (Held s g → Held s' g)) ∨ (g.usingThread = p ∧ g.kpage = k ∧ Held s' g) := by
  have hpool := hop.rest.1.poolSize
  obtain ⟨hft, hmap, -⟩ | ⟨hmap, hpd⟩ := hop.frame hfree hun
  · exact .inl ⟨hft ▸ hg, fun hh => ⟨hpool ▸ hh.1, hmap ▸ hh.2⟩⟩
  · obtain ⟨o, hft⟩ : ∃ o, s'.frameTable = pushed s p k o := by
      obtain ⟨hft, -⟩ | ⟨u, w, -, hft, -⟩ := hpd
      · exact ⟨_, hft⟩
      · exact ⟨_, hft⟩
    rw [hft, pushed, List.mem_append, List.mem_singleton] at hg
    rcases hg with hg | rfl
    · refine .inl ⟨hg, fun hh => ⟨hpool ▸ hh.1, ?_⟩⟩
      rw [hmap, update_of_ne (hun g hg), hh.2]
    · exact .inr ⟨rfl, rfl, hpool ▸ hfree.1, by rw [hmap, update_self]⟩

theorem FrameInv.nodup_pushed (hinv : FrameInv s) (hun : Unnamed s k)
    (p : Tid) (u : Option Nat) : ((pushed s p k u).map FrameEntry.kpage).Nodup := by
  rw [pushed, List.map_append, List.nodup_append]
  refine ⟨hinv.distinct, by simp, ?_⟩
  intro a ha b hb
  obtain ⟨f, hf, rfl⟩ := List.mem_map.mp ha
  obtain rfl : b = k := by simpa using hb
  exact hun f hf

theorem FrameInv.pageOp (hinv : FrameInv s)
    (hfree : FirstFree s k) (hun : Unnamed s k) (hop : PageOp s p k c s') : FrameInv s' := by
  have hmem := fun {g} => hop.mem_frameTable hfree hun (g := g)
  have hcase := hop.frame hfree hun
  have hex := hop.rest.1.exited
  have hdistinct := hinv.nodup_pushed hun p
  refine ⟨?_, fun g hg hlive => ?_, fun g hg hlive v hv => ?_⟩
  · grind [hinv.distinct]
  · grind [hinv.held]
  · obtain ⟨hft, -, hpd⟩ | ⟨-, ⟨hft, hpd⟩ | ⟨u, w, hnp, hft, hpd⟩⟩ := hcase
    · rw [hpd]; exact hinv.installed g (hft ▸ hg) (hex ▸ hlive) v hv
    · rw [hft, pushed, List.mem_append, List.mem_singleton] at hg
      rcases hg with hg | rfl
      · rw [hpd]; exact hinv.installed g hg (hex ▸ hlive) v hv
      · cases hv
    · rw [hft, pushed, List.mem_append, List.mem_singleton] at hg
      rw [hpd]
      rcases hg with hg | rfl
      · have hmap := hinv.installed g hg (hex ▸ hlive) v hv
        by_cases hq : g.usingThread = p
        · rw [hq] at hmap ⊢
          -- the page of an entry is present, so it is not the page installed now
          have hne : v ≠ u := by rintro rfl; rw [hnp] at hmap; cases hmap
          rw [update_self, getPage_insert, if_neg hne, hmap]
        · rw [update_of_ne hq, hmap]
      · cases hv
        simp [getPage_insert]

theorem mapFrame_getPage (s : VmState) (p : Tid) (u k : Nat) (w : Bool) (q : Tid) (v : Nat) :
    pagedirGetPage ((mapFrame s p u k w).pagedir q) v =
      if q = p ∧ v = u then some k else pagedirGetPage (s.pagedir q) v := by
  by_cases hq : q = p
  · subst hq; simp [mapFrame, getPage_insert]
  · simp [mapFrame, hq]

theorem setSup_lookup (s : VmState) (p : Tid) (u : Nat) (e : SupPageEntry) (q : Tid) (v : Nat) :
    ((setSup s p u e).supPageTable q).lookup v =
      if q = p ∧ v = u then some e else (s.supPageTable q).lookup v := by
  by_cases hq : q = p
  · subst hq
    by_cases hv : v = u
    · subst hv; simp [setSup]
    · simp [setSup, hv]
  · simp [setSup, hq]

/-- The entry a page that is not present gets with the frame `k`: a new one, or, if it is
    a page of a file, its own with the frame in it. -/
def GivenEntry (s : VmState) (p : Tid) (u k : Nat) (e : SupPageEntry) : Prop :=
  pagedirGetPage (s.pagedir p) u = none ∧
    (((s.supPageTable p).lookup u = none ∧ isUserPage u = true ∧ e = anonEntry k) ∨
      ∃ sup, (s.supPageTable p).lookup u = some sup ∧ sup.fileAddress ≠ none ∧
        e = { sup with kpage := some k })

theorem setSup_given {e : SupPageEntry} (ht : t.supPageTable = s.supPageTable)
    (he : GivenEntry s p u k e) (q : Tid) (v : Nat) :
    ((setSup t p u e).supPageTable q).lookup v = (s.supPageTable q).lookup v ∨
      q = p ∧ ∃ e', ((setSup t p u e).supPageTable q).lookup v = some e' ∧ GivenEntry s q v k e' := by
  rw [setSup_lookup, ht]
  split
  · next hqv =>
    obtain ⟨rfl, rfl⟩ := hqv
    exact .inr ⟨rfl, e, rfl, he⟩
  · exact .inl rfl

theorem PageOp.lookup (hop : PageOp s p k c s') (q : Tid) (v : Nat) :
    (s'.supPageTable q).lookup v = (s.supPageTable q).lookup v ∨
      q = p ∧ ∃ e, (s'.supPageTable q).lookup v = some e ∧ GivenEntry s q v k e := by
  cases hop with
  | newPage u w buf hu hnp _ =>
    cases hs : (s.supPageTable p).lookup u with
    | none =>
      rw [supPageEntryCreate_of_none (s := mapFrame (grab s p k buf) p u k w) hs]
      exact setSup_given rfl ⟨hnp, .inl ⟨hs, hu, rfl⟩⟩ q v
    | some sup =>
      refine .inl ((supPageEntryCreate_lookup ..).trans (if_neg fun h => ?_))
      exact absurd (hs.symm.trans h.2.2) (by simp)
  | fileIn u file w sup _ hnp hs hf =>
    exact setSup_given rfl ⟨hnp, .inr ⟨sup, hs, by simp [hf], rfl⟩⟩ q v
  | giveBack buf hback =>
    obtain ⟨rfl, -⟩ | ⟨k', -, -, -, -, rfl⟩ := frameTableFree_cases hback <;> exact .inl rfl
  | growFail u buf hu hs hnp => exact setSup_given rfl ⟨hnp, .inl ⟨hs, hu, rfl⟩⟩ q v
  | fileFail u file sup hnp hs hf =>
    exact setSup_given rfl ⟨hnp, .inr ⟨sup, hs, by simp [hf], rfl⟩⟩ q v
  | swapIn => exact .inl rfl

/-- The entry of an anonymous page stays. -/
theorem PageOp.lookup_of_anon {q : Tid} {v : Nat} (hop : PageOp s p k c s')
    (hs : (s.supPageTable q).lookup v = some sup) (hanon : sup.fileAddress = none) :
    (s'.supPageTable q).lookup v = some sup := by
  obtain hl | ⟨rfl, e, -, -, ⟨hno, -⟩ | ⟨sup', hs', hf, -⟩⟩ := hop.lookup q v
  · exact hl.trans hs
  · rw [hs] at hno; cases hno
  · cases hs.symm.trans hs'; exact absurd hanon hf

/-- How the page `u` came into the frame `k` by an operation that makes the page `c`: it
    is new, or read from its slot or from its file. -/
inductive Brought (s : VmState) (p : Tid) (k u : Nat) (s' : VmState) : Option Nat → Prop
  | made (hold : (s.supPageTable p).lookup u = none ∨ s.loaded p = false)
      (hsome : ((s'.supPageTable p).lookup u).isSome) : Brought s p k u s' (some u)
  | fromSlot {i : Nat} {sup : SupPageEntry} {se : SwapEntry}
      (hs : (s.supPageTable p).lookup u = some sup) (hanon : sup.fileAddress = none)
      (hi : sup.swapAddress = some i) (hse : s.swapTable[i]? = some se)
      (hs' : (s'.supPageTable p).lookup u = some sup) (hmem : s'.mem k = slotPage s k se) :
      Brought s p k u s' none
  | fromFile {file : Nat} {sup : SupPageEntry}
      (hs : (s.supPageTable p).lookup u = some sup) (hfile : sup.fileAddress = some file)
      (hs' : (s'.supPageTable p).lookup u = some { sup with kpage := some k })
      (hmem : s'.mem k = filePage s file sup.filePos) : Brought s p k u s' none

/-- What an operation that takes a frame puts into it, if it installs it. -/
theorem PageOp.fills (hop : PageOp s p k c s') : (∀ j, j ≠ k → s'.mem j = s.mem j) ∧
    (s'.pagedir = s.pagedir ∨ ∃ u w, pagedirGetPage (s.pagedir p) u = none ∧
      s'.pagedir = (mapFrame s p u k w).pagedir ∧ Brought s p k u s' c) := by
  have hmem : ∀ (b : Buf) (j : Nat), j ≠ k → update s.mem k b j = s.mem j :=
    fun b j hj => update_of_ne hj ..
  cases hop with
  | newPage u w buf _ hnp hold =>
    refine ⟨by rw [supPageEntryCreate_eq]; exact hmem buf, .inr ⟨u, w, hnp,
      by rw [supPageEntryCreate_eq]; rfl, .made hold ?_⟩⟩
    rw [supPageEntryCreate_lookup]
    split
    · rfl
    · next hne => exact Option.isSome_iff_ne_none.mpr fun h => hne ⟨rfl, rfl, h⟩
  | swapIn u i w sup se _ hnp hs hanon hi hse =>
    exact ⟨hmem _, .inr ⟨u, w, hnp, rfl, .fromSlot hs hanon hi hse hs (update_self ..)⟩⟩
  | fileIn u file w sup _ hnp hs hfile =>
    exact ⟨hmem _, .inr ⟨u, w, hnp, rfl, .fromFile hs hfile
      ((setSup_lookup ..).trans (if_pos ⟨rfl, rfl⟩)) (update_self ..)⟩⟩
  | giveBack buf hback =>
    obtain ⟨rfl, -⟩ | ⟨j, hj, -, -, -, rfl⟩ := frameTableFree_cases hback
    · exact ⟨hmem buf, .inl rfl⟩
    · cases hj
      refine ⟨fun i hi => ?_, .inl rfl⟩
      exact (update_of_ne hi ..).trans (hmem buf i hi)
  | growFail u buf => exact ⟨hmem buf, .inl rfl⟩
  | fileFail u file sup => exact ⟨hmem _, .inl rfl⟩

theorem PageOp.getPage (hop : PageOp s p k c s') (q : Tid) (v : Nat) :
    pagedirGetPage (s'.pagedir q) v = pagedirGetPage (s.pagedir q) v ∨
      q = p ∧ pagedirGetPage (s.pagedir q) v = none ∧
        pagedirGetPage (s'.pagedir q) v = some k ∧ Brought s q k v s' c := by
  obtain hpd | ⟨u, w, hnp, hpd, hb⟩ := hop.fills.2
  · rw [hpd]; exact .inl rfl
  · rw [hpd, mapFrame_getPage]
    split
    · next hqv =>
      obtain ⟨rfl, rfl⟩ := hqv
      exact .inr ⟨rfl, hnp, rfl, hb⟩
    · exact .inl rfl

theorem PageOp.getPage_none (hop : PageOp s p k c s') {q : Tid} {v : Nat}
    (h : pagedirGetPage (s'.pagedir q) v = none) : pagedirGetPage (s.pagedir q) v = none := by
  obtain hsame | ⟨-, hnp, -⟩ := hop.getPage q v
  · exact hsame ▸ h
  · exact hnp

theorem SupInv.pageOp (hinv : SupInv s)
    (hop : PageOp s p k c s') : SupInv s' := by
  have hrest := hop.rest.1
  refine ⟨fun q v j hget => ?_, fun q hq v sup hs => ?_, fun q v sup file hs hf => ?_⟩
  · obtain hsame | ⟨rfl, -, hk, hb⟩ := hop.getPage q v
    · rw [hsame] at hget
      obtain ⟨sup, hs, hk⟩ := hinv.resident q v j hget
      obtain hl | ⟨rfl, -, -, hnp, -⟩ := hop.lookup q v
      · exact ⟨sup, hl.trans hs, hk⟩
      · rw [hnp] at hget; cases hget
    · cases hk.symm.trans hget
      cases hb with
      | made hold hsome =>
        obtain ⟨e, he⟩ := Option.isSome_iff_exists.mp hsome
        refine ⟨e, he, fun hne => ?_⟩
        obtain hl | ⟨-, e', hl, -, ⟨-, -, rfl⟩ | ⟨sup, -, -, rfl⟩⟩ := hop.lookup q v
        · -- only the loader finds an entry, and it is that of a page of its own
          rw [hl] at he
          rcases hold with hnone | hload
          · rw [hnone] at he; cases he
          · exact absurd (hinv.loading q hload v e he) hne
        · cases he.symm.trans hl; exact absurd rfl hne
        · cases he.symm.trans hl; rfl
      | fromSlot _ hanon _ _ hs' _ => exact ⟨_, hs', fun hne => absurd hanon hne⟩
      | fromFile _ _ hs' _ => exact ⟨_, hs', fun _ => rfl⟩
  · rw [hrest.loaded] at hq
    obtain hl | ⟨rfl, e, hl, -, ⟨-, -, rfl⟩ | ⟨sup₀, hs₀, hf₀, -⟩⟩ := hop.lookup q v
    · exact hinv.loading q hq v sup (hl ▸ hs)
    · cases hs.symm.trans hl; rfl
    · exact absurd (hinv.loading q hq v sup₀ hs₀) hf₀
  · rw [hrest.mappingList]
    obtain hl | ⟨rfl, e, hl, -, ⟨-, -, rfl⟩ | ⟨sup₀, hs₀, -, rfl⟩⟩ := hop.lookup q v
    · exact hinv.listed q v sup file (hl ▸ hs) hf
    · cases hs.symm.trans hl; cases hf
    · cases hs.symm.trans hl; exact hinv.listed q v sup₀ file hs₀ hf

/-! Frames that are in use have an entry. -/

/-- Every frame in a page directory has its entry in the frame table. -/
def Backed (s : VmState) : Prop :=
  ∀ p u k, pagedirGetPage (s.pagedir p) u = some k → ⟨p, k, some u⟩ ∈ s.frameTable

theorem Backed.page_eq (hb : Backed s) (hf : FrameInv s) {q : Tid} {v : Nat}
    (hp : pagedirGetPage (s.pagedir p) u = some k) (hq : pagedirGetPage (s.pagedir q) v = some k) :
    p = q ∧ u = v := by
  have heq := hf.eq_of_kpage (hb p u k hp) (hb q v k hq) rfl
  simpa using heq

theorem Backed.evict (hb : Backed s) (h : Evict s s₀) : Backed s₀ := by
  obtain ⟨f, rest, u, sup, hv, heq⟩ := h.core
  rw [heq]
  intro p v k hget
  have hget' := (evicted_getPage s f rest u p v).symm.trans hget
  split at hget'
  · cases hget'
  · next hpv =>
    have hmem := hb p v k hget'
    rw [hv.front, List.mem_cons] at hmem
    rcases hmem with rfl | hmem
    · exact absurd ⟨rfl, Option.some.inj hv.upage⟩ hpv
    · exact hmem

theorem Backed.pageOp (hb : Backed s)
    (hfree : FirstFree s k) (hun : Unnamed s k) (hop : PageOp s p k c s') : Backed s' := by
  obtain ⟨hft, -, hpd⟩ | ⟨-, ⟨hft, hpd⟩ | ⟨u, w, -, hft, hpd⟩⟩ := hop.frame hfree hun
  · intro q v k' hget
    rw [hft]; exact hb q v k' (hpd ▸ hget)
  · intro q v k' hget
    rw [hft]; exact List.mem_append_left _ (hb q v k' (hpd ▸ hget))
  · intro q v k' hget
    rw [hft, pushed, List.mem_append, List.mem_singleton]
    rw [hpd] at hget
    by_cases hq : q = p
    · subst hq
      rw [update_self, getPage_insert] at hget
      split at hget
      · next hv => cases hget; subst hv; exact .inr rfl
      · exact .inl (hb q v k' hget)
    · rw [update_of_ne hq] at hget
      exact .inl (hb q v k' hget)

/-! Unmapping and exiting. -/

theorem Remove.mem_frameTable
    (h : Remove s p u sup s') (hinv : FrameInv s) (hg : g ∈ s'.frameTable) :
    g ∈ s.frameTable ∧ sup.kpage ≠ some g.kpage ∧ (Held s g → Held s' g) := by
  cases h with
  | keep hun => exact ⟨hg, fun hk => hun _ hk g hg rfl, id⟩
  | free k hk =>
    have hne : g.kpage ≠ k := kpage_ne_of_mem_dropKpage hinv.distinct hg
    refine ⟨(dropKpage_sublist k _).subset hg, fun h => hne (Option.some.inj (h.symm.trans hk)),
      fun hh => ⟨hh.1, ?_⟩⟩
    simpa [forgotten, freed, hne] using hh.2

theorem FrameInv.remove
    (hinv : FrameInv s) (hsup : SupInv s) (hs : (s.supPageTable p).lookup u = some sup)
    (hfile : sup.fileAddress ≠ none) (h : Remove s p u sup s') : FrameInv s' := by
  have hmem := fun {g} => h.mem_frameTable hinv (g := g)
  refine ⟨?_, fun g hg hlive => ?_, fun g hg hlive v hv => ?_⟩
  · cases h with
    | keep => exact hinv.distinct
    | free k => exact ((dropKpage_sublist k _).map _).nodup hinv.distinct
  · exact (hmem hg).2.2 (hinv.held g (hmem hg).1 (h.rest.1.exited ▸ hlive))
  · have hmap := hinv.installed g (hmem hg).1 (h.rest.1.exited ▸ hlive) v hv
    rw [h.getPage, if_neg, hmap]
    -- the entry of a present page names its frame, so the page's entry is gone
    rintro ⟨rfl, rfl⟩
    obtain ⟨sup', hs', hk⟩ := hsup.resident _ _ _ hmap
    obtain rfl : sup = sup' := Option.some.inj (hs.symm.trans hs')
    exact (hmem hg).2.1 (hk hfile)

theorem SupInv.remove (hinv : SupInv s)
    (h : Remove s p u sup s') : SupInv s' := by
  have hl := h.rest.1.loaded
  have hml := h.rest.1.mappingList
  refine ⟨fun q v k hget => ?_, fun q hq v e he => ?_, fun q v e file he hf => ?_⟩
  · grind [h.getPage, h.lookup, hinv.resident]
  · rw [h.lookup] at he
    split at he
    · cases he
    · exact hinv.loading q (hl ▸ hq) v e he
  · rw [h.lookup] at he
    split at he
    · cases he
    · exact hml ▸ hinv.listed q v e file he hf

theorem SupInv.unlisted (hinv : SupInv s)
    (hno : NoPagesOf s p file) : SupInv (unlisted s p file) := by
  refine ⟨hinv.resident, hinv.loading, fun q v e f he hf => ?_⟩
  have hmem := hinv.listed q v e f he hf
  by_cases hq : q = p
  · subst hq
    have hne : f ≠ file := by rintro rfl; exact hno v e he hf
    simpa [Vm.unlisted, List.mem_erase_of_ne hne] using hmem
  · simpa [Vm.unlisted, update_of_ne hq] using hmem

/-- Both invariants go through an unmapping, with any property `I` that the
    removal of single pages keeps. -/
theorem unmapFile_frames (h : unmapFile s p file = some s') (hf : FrameInv s) (hs : SupInv s)
    (hI : I s) (hinodes : ∀ t nodes, I t → I { t with inodes := nodes })
    (hremove : ∀ t u sup t', FrameInv t → I t → Remove t p u sup t' → I t')
    (hunlist : ∀ t, I t → I (unlisted t p file)) : FrameInv s' ∧ SupInv s' ∧ I s' := by
  obtain ⟨t, ⟨hft, hst, hIt⟩, hno, rfl⟩ := unmapFile_inv
    (I := fun t => FrameInv t ∧ SupInv t ∧ I t) h ⟨hf, hs, hI⟩
    (fun t nodes ⟨h1, h2, h3⟩ =>
      ⟨⟨h1.distinct, h1.held, h1.installed⟩, ⟨h2.resident, h2.loading, h2.listed⟩,
        hinodes t nodes h3⟩)
    (fun t u sup t' ⟨h1, h2, h3⟩ hl hfile hR =>
      ⟨h1.remove h2 hl (by simp [hfile]) hR, h2.remove hR, hremove t u sup t' h1 h3 hR⟩)
  exact ⟨⟨hft.distinct, hft.held, hft.installed⟩, hst.unlisted hno, hunlist t hIt⟩

theorem unmapFile_mappingList
    (h : unmapFile s p file = some s') : s'.mappingList p = (s.mappingList p).erase file := by
  obtain ⟨t, ht, rfl⟩ := unmapFile_rest h
  simp [Vm.unlisted, ht.mappingList]

theorem unmapAll_frames (h : (s.mappingList p).foldlM (fun t f => unmapFile t p f) s = some s')
    (hf : FrameInv s) (hs : SupInv s) (hI : I s)
    (hinodes : ∀ t nodes, I t → I { t with inodes := nodes })
    (hremove : ∀ t u sup t', FrameInv t → I t → Remove t p u sup t' → I t')
    (hunlist : ∀ t file, I t → I (unlisted t p file)) :
    FrameInv s' ∧ SupInv s' ∧ I s' ∧ s'.mappingList p = [] := by
  refine Lib.foldlM_todo
    (I := fun l t => FrameInv t ∧ SupInv t ∧ I t ∧ t.mappingList p = l) ?_ _ ⟨hf, hs, hI, rfl⟩ h
  rintro f l t t' ⟨h1, h2, h3, hl⟩ hu
  obtain ⟨h1', h2', h3'⟩ := unmapFile_frames hu h1 h2 h3 hinodes hremove (fun t => hunlist t f)
  refine ⟨h1', h2', h3', ?_⟩
  rw [unmapFile_mappingList hu, hl, List.erase_cons_head]

/-- A dead process's entries are not looked at any more; the frames of the others
    are not the ones that are freed. -/
theorem FrameInv.destroy (hinv : FrameInv s)
    (h : pagedirDestroy s p = some s')
    (hown : ∀ u k, pagedirGetPage (s.pagedir p) u = some k → ∀ f ∈ s.frameTable, f.kpage = k →
      f.usingThread = p) : FrameInv (gone s' p) := by
  obtain ⟨-, hkeep⟩ := pagedirDestroy_some h
  rw [gone_eq h]
  have halive : ∀ g : FrameEntry, update s.exited p true g.usingThread = false →
      g.usingThread ≠ p ∧ s.exited g.usingThread = false := by
    intro g hg
    have hne : g.usingThread ≠ p := by
      intro heq
      rw [heq, update_self] at hg
      cases hg
    exact ⟨hne, by rwa [update_of_ne hne] at hg⟩
  refine ⟨hinv.distinct, fun g hg hlive => ?_, fun g hg hlive v hv => ?_⟩
  · obtain ⟨hne, hl⟩ := halive g hlive
    have hheld := hinv.held g hg hl
    have hused := (hkeep g.kpage fun u hu => hne (hown u _ hu g hg rfl)).1
    exact ⟨hheld.1, hused.trans hheld.2⟩
  · obtain ⟨hne, hl⟩ := halive g hlive
    simp only [update_of_ne hne]
    exact hinv.installed g hg hl v hv

theorem SupInv.destroy (hinv : SupInv s)
    (h : pagedirDestroy s p = some s') : SupInv (gone s' p) := by
  rw [gone_eq h]
  refine ⟨fun q v k hget => ?_, hinv.loading, hinv.listed⟩
  by_cases hq : q = p
  · subst hq; simp at hget
  · exact hinv.resident q v k (by simpa [hq] using hget)

/-! Operations that take no frame and free none. -/

structure SameFrames (s t : VmState) : Prop where
  frameTable : t.frameTable = s.frameTable
  poolSize : t.poolSize = s.poolSize
  usedMap : t.usedMap = s.usedMap
  exited : t.exited = s.exited
  getPage : ∀ q v, pagedirGetPage (t.pagedir q) v = pagedirGetPage (s.pagedir q) v

theorem FrameInv.same (hinv : FrameInv s) (h : SameFrames s t) : FrameInv t := by
  refine ⟨by rw [h.frameTable]; exact hinv.distinct, fun g hg hl => ?_, fun g hg hl v hv => ?_⟩
  · rw [Held, h.poolSize, h.usedMap]
    exact hinv.held g (h.frameTable ▸ hg) (h.exited ▸ hl)
  · rw [h.getPage]
    exact hinv.installed g (h.frameTable ▸ hg) (h.exited ▸ hl) v hv

theorem Backed.same (hb : Backed s) (h : SameFrames s t) : Backed t := by
  intro p u k hget
  rw [h.getPage] at hget
  rw [h.frameTable]
  exact hb p u k hget

theorem userStore_sameFrames {addr : Nat} {b : Byte}
    (h : userStore s p addr b = some s') : SameFrames s s' := by
  have hget := userStore_getPage h
  obtain ⟨e, -, -, -, rfl⟩ := userStore_some h
  exact ⟨rfl, rfl, rfl, rfl, hget⟩

theorem Quiet.sameFrames {e : Event} (h : Quiet s e s') : SameFrames s s' := by
  rw [h.rest]
  exact ⟨rfl, rfl, rfl, rfl, fun _ _ => rfl⟩

theorem handleMmap_sameFrames (s : VmState) (p : Tid) (ino addr : Nat) :
    SameFrames s (handleMmap s p ino addr).1 := by
  rw [(handleMmap_spec s p ino addr).1]
  exact ⟨rfl, rfl, rfl, rfl, fun _ _ => rfl⟩

theorem SupInv.quiet {e : Event} (hinv : SupInv s) (h : Quiet s e s') : SupInv s' := by
  have hload := fun q => h.unloaded (q := q)
  rw [h.rest]
  exact ⟨hinv.resident, fun q hq => hinv.loading q (hload q hq), hinv.listed⟩

theorem SupInv.mmap (hinv : SupInv s) (hload : s.loaded p = true)
    (ino addr : Nat) : SupInv (handleMmap s p ino addr).1 := by
  obtain ⟨heq, hml, hl⟩ := handleMmap_spec s p ino addr
  have hpd : (handleMmap s p ino addr).1.pagedir = s.pagedir := by rw [heq]
  have hld : (handleMmap s p ino addr).1.loaded = s.loaded := by rw [heq]
  refine ⟨fun q v k hget => ?_, fun q hq v sup hs => ?_, fun q v sup file hs hf => ?_⟩
  · obtain ⟨sup, hs, hk⟩ := hinv.resident q v k (hpd ▸ hget)
    rcases hl q v with h | ⟨-, hnone, -⟩
    · exact ⟨sup, h.trans hs, hk⟩
    · rw [hs] at hnone; cases hnone
  · rcases hl q v with h | ⟨rfl, -⟩
    · exact hinv.loading q (hld ▸ hq) v sup (h ▸ hs)
    · rw [hld, hload] at hq; cases hq
  · grind [hinv.listed]

/-- The steps of the machine by what they do to the frames. -/
inductive FrameCase (s : VmState) (e : Event) (s' : VmState) : Prop
  | alloc (htake : e.takesFrame s = true) (h : Alloc s e.tid (e.creates s) s')
  | quiet (h : SameFrames s s') (hsup : SupInv s → SupInv s')
  | unmap (file : Nat) (hfile : file ∈ s.mappingList e.tid) (h : unmapFile s e.tid file = some s')
  | exit (hend : e.ends s = true) (h : processExit s e.tid = some s')

theorem SameFrames.refl (s : VmState) : SameFrames s s := ⟨rfl, rfl, rfl, rfl, fun _ _ => rfl⟩

theorem StepCase.frameCase {e : Event} (h : StepCase s e s')
    (hphase : e.inPhase s = true) : FrameCase s e s' := by
  cases h with
  | alloc htake h => exact .alloc htake h
  | quiet h => exact .quiet h.sameFrames fun hs => hs.quiet h
  | store addr b _ h =>
    have hsame := userStore_sameFrames h
    obtain ⟨pte, -, -, -, rfl⟩ := userStore_some h
    exact .quiet hsame
      fun hs => ⟨fun q v k hg => hs.resident q v k (hsame.getPage q v ▸ hg), hs.loading, hs.listed⟩
  | mmap ino addr he h =>
    have hload : s.loaded e.tid = true := by rw [he] at hphase; exact hphase
    subst h
    exact .quiet (handleMmap_sameFrames ..) fun hs => hs.mmap hload ino addr
  | unmap file hfile _ _ h => exact .unmap file hfile h
  | exit hend h => exact .exit hend h

theorem step_exited {e : Event} (h : step s e = some s') : s'.exited = s.exited ∨
    e.ends s = true ∧ s'.exited = update s.exited e.tid true := by
  obtain ⟨-, hphase, hcase⟩ := step_cases h
  cases hcase.frameCase hphase with
  | alloc _ h => exact .inl h.rest.exited
  | quiet hsame _ => exact .inl hsame.exited
  | unmap file _ h => exact .inl (unmapFile_exited h)
  | exit hend h => exact .inr ⟨hend, processExit_exited h⟩

/-! The whole table. -/

/-- Every entry whose page has been installed belongs to a live process that maps
    the page to the entry's frame, and the frames are used and distinct. -/
structure Consistent (s : VmState) : Prop where
  live : ∀ f ∈ s.frameTable, f.upage ≠ none → s.exited f.usingThread = false
  used : ∀ f ∈ s.frameTable, f.upage ≠ none → f.kpage < s.poolSize ∧ s.usedMap f.kpage = true
  distinct : (s.frameTable.map FrameEntry.kpage).Nodup
  mapped : ∀ f ∈ s.frameTable, ∀ u, f.upage = some u →
    pagedirGetPage (s.pagedir f.usingThread) u = some f.kpage

/-- A process that ends has no anonymous page resident. -/
def EndsWithoutAnon (s : VmState) (e : Event) : Prop :=
  e.ends s = true → ∀ u k, pagedirGetPage (s.pagedir e.tid) u = some k →
    ∃ sup, (s.supPageTable e.tid).lookup u = some sup ∧ sup.fileAddress ≠ none

structure TableInv (s : VmState) : Prop where
  frames : FrameInv s
  sups : SupInv s
  held : ∀ f ∈ s.frameTable, Held s f
  owners : ∀ f ∈ s.frameTable, f.upage ≠ none → s.exited f.usingThread = false

theorem TableInv.unnamed (h : TableInv s) (hk : s.usedMap k = false) :
    Unnamed s k := by
  rintro f hf rfl
  rw [(h.held f hf).2] at hk
  cases hk

theorem TableInv.evict (hinv : TableInv s) (h : Evict s s₀) : TableInv s₀ := by
  have hmem := fun {g} => h.mem_frameTable hinv.frames (g := g)
  have hex := h.rest.exited
  exact ⟨hinv.frames.evict h, hinv.sups.evict h,
    fun g hg => (hmem hg).2 (hinv.held g (hmem hg).1),
    fun g hg hu => hex ▸ hinv.owners g (hmem hg).1 hu⟩

theorem TableInv.pageOp (hinv : TableInv s)
    (hlive : s.exited p = false) (hfree : FirstFree s k) (hop : PageOp s p k c s') :
    TableInv s' := by
  have hun : Unnamed s k := hinv.unnamed hfree.2.1
  have hmem := fun {g} => hop.mem_frameTable hfree hun (g := g)
  have hex := hop.rest.1.exited
  refine ⟨hinv.frames.pageOp hfree hun hop, hinv.sups.pageOp hop, fun g hg => ?_, fun g hg hu => ?_⟩
  · grind [hinv.held]
  · rw [hex]
    rcases hmem hg with ⟨hold, -⟩ | ⟨hp, -, -⟩
    · exact hinv.owners g hold hu
    · exact hp ▸ hlive

theorem TableInv.alloc (hinv : TableInv s)
    (hlive : s.exited p = false) (h : Alloc s p c s') : TableInv s' := by
  obtain ⟨s₀, k, hroom, hfree, hop⟩ := h
  have h₀ : TableInv s₀ := hroom.of_evict hinv hinv.evict
  exact h₀.pageOp ((congrFun hroom.rest.exited p).trans hlive) hfree hop

/-- The part of the invariant that is about single entries. -/
def EntriesOk (s : VmState) : Prop :=
  (∀ f ∈ s.frameTable, Held s f) ∧
    ∀ f ∈ s.frameTable, f.upage ≠ none → s.exited f.usingThread = false

theorem EntriesOk.remove
    (h : EntriesOk s) (hinv : FrameInv s) (hR : Remove s p u sup s') : EntriesOk s' := by
  have hmem := fun {g} => hR.mem_frameTable hinv (g := g)
  exact ⟨fun g hg => (hmem hg).2.2 (h.1 g (hmem hg).1),
    fun g hg hu => hR.rest.1.exited ▸ h.2 g (hmem hg).1 hu⟩

theorem TableInv.unmap (hinv : TableInv s)
    (h : unmapFile s p file = some s') : TableInv s' := by
  obtain ⟨hf, hs, hI⟩ := unmapFile_frames (I := EntriesOk) h hinv.frames hinv.sups
    ⟨hinv.held, hinv.owners⟩ (fun _ _ h => h) (fun _ _ _ _ hft hI hR => hI.remove hft hR)
    (fun _ h => h)
  exact ⟨hf, hs, hI.1, hI.2⟩

/-- No anonymous page of the process is resident. -/
def NoAnon (p : Tid) (s : VmState) : Prop :=
  ∀ u k sup, pagedirGetPage (s.pagedir p) u = some k → (s.supPageTable p).lookup u = some sup →
    sup.fileAddress ≠ none

/-- Unmapping everything leaves no page of the process present, so the page
    directory frees nothing and no entry of the process is left. -/
theorem TableInv.exit (hinv : TableInv s) (hanon : NoAnon p s)
    (h : processExit s p = some s') : TableInv s' := by
  obtain ⟨t, t', hall, hdestroy, rfl⟩ := processExit_cases h
  obtain ⟨hf, hs, ⟨hent, hno⟩, hml⟩ := unmapAll_frames (I := fun t => EntriesOk t ∧ NoAnon p t)
    hall hinv.frames hinv.sups ⟨⟨hinv.held, hinv.owners⟩, hanon⟩ (fun _ _ h => h)
    (fun t u sup t' hft ⟨hent, hno⟩ hR => by
      refine ⟨hent.remove hft hR, fun v k e hget he => ?_⟩
      rw [hR.getPage] at hget
      rw [hR.lookup] at he
      split at hget
      · cases hget
      · next hqv => rw [if_neg hqv] at he; exact hno v k e hget he)
    (fun _ _ h => h)
  have hnone : ∀ u k, pagedirGetPage (t.pagedir p) u ≠ some k := by
    intro u k hget
    obtain ⟨sup, hl, -⟩ := hs.resident p u k hget
    obtain ⟨file, hfile⟩ := Option.ne_none_iff_exists'.mp (hno u k sup hget hl)
    have := hs.listed p u sup file hl hfile
    simp [hml] at this
  have hgone := hf.destroy hdestroy fun u k hget => absurd hget (hnone u k)
  have hsgone := hs.destroy hdestroy
  obtain ⟨-, hkeep⟩ := pagedirDestroy_some hdestroy
  have hused : t'.usedMap = t.usedMap := funext fun k => (hkeep k fun u => hnone u k).1
  refine ⟨hgone, hsgone, fun g hg => ?_, fun g hg hu => ?_⟩
  · rw [gone_eq hdestroy] at hg ⊢
    have hheld := hent.1 g hg
    exact ⟨hheld.1, (congrFun hused g.kpage).trans hheld.2⟩
  · rw [gone_eq hdestroy] at hg ⊢
    have hlive : t.exited g.usingThread = false := hent.2 g hg hu
    obtain ⟨u, hu'⟩ := Option.ne_none_iff_exists'.mp hu
    have hmap := hf.installed g hg hlive u hu'
    have hne : g.usingThread ≠ p := by
      intro hp
      rw [hp] at hmap
      exact hnone u _ hmap
    simpa [hne] using hlive

theorem TableInv.step {e : Event} (hinv : TableInv s) (hc : EndsWithoutAnon s e)
    (h : Vm.step s e = some s') : TableInv s' := by
  obtain ⟨hlive, hphase, hcase⟩ := step_cases h
  cases hcase.frameCase hphase with
  | alloc _ ha => exact hinv.alloc hlive ha
  | quiet hsame hsup =>
    refine ⟨hinv.frames.same hsame, hsup hinv.sups, fun g hg => ?_, fun g hg hu => ?_⟩
    · rw [Held, hsame.poolSize, hsame.usedMap]
      exact hinv.held g (hsame.frameTable ▸ hg)
    · exact hsame.exited ▸ hinv.owners g (hsame.frameTable ▸ hg) hu
  | unmap file _ hu => exact hinv.unmap hu
  | exit hend hx =>
    refine hinv.exit (fun u k sup hget hl => ?_) hx
    obtain ⟨sup', hl', hfile⟩ := hc hend u k hget
    exact Option.some.inj (hl'.symm.trans hl) ▸ hfile

theorem TableInv.boot (poolSize : Nat) (mem : Nat → Buf) (inodes : Nat → Inode) (swapDisk : Disk) :
    TableInv (boot poolSize mem inodes swapDisk) := by
  refine ⟨⟨.nil, ?_, ?_⟩, ⟨?_, ?_, ?_⟩, ?_, ?_⟩ <;> simp [Vm.boot]

/-- **The frame table is consistent in every run in which no process ends with an
    anonymous page resident.** Any number of processes may load, grow their stacks,
    fault, evict each other's pages, map, unmap and exit in any order. -/
theorem frameTable_consistent {poolSize : Nat} {mem : Nat → Buf} {inodes : Nat → Inode}
    {swapDisk : Disk} {s : VmState}
    (h : Lib.Reach step EndsWithoutAnon (boot poolSize mem inodes swapDisk) s) : Consistent s := by
  have hinv : TableInv s := h.inv (TableInv.boot ..) fun _ _ _ hi hc hs => hi.step hc hs
  refine ⟨hinv.owners, fun f hf _ => hinv.held f hf, hinv.frames.distinct, fun f hf u hu => ?_⟩
  exact hinv.frames.installed f hf (hinv.owners f hf (by simp [hu])) u hu

/-- A machine with a pool of one page and one swap slot. -/
def smallMachine : VmState :=
  boot 1 (fun _ _ => 0) (fun _ => ⟨0, fun _ => 0, 0⟩) ⟨8, fun _ _ => 0⟩

/-- The check of the pages present in the directory of a process that ends. -/
def endsWithoutAnon (s : VmState) (e : Event) : Bool :=
  !e.ends s || (s.pagedir e.tid).entries.all fun pte =>
    !pte.2.present || match (s.supPageTable e.tid).lookup pte.1 with
      | some sup => sup.fileAddress.isSome
      | none => false

theorem endsWithoutAnon_sound (s : VmState) (e : Event) (h : endsWithoutAnon s e = true) :
    EndsWithoutAnon s e := by
  intro hend u k hget
  obtain ⟨pte, hl, hp, -⟩ := getPage_eq_some.mp hget
  simp only [endsWithoutAnon, hend, Bool.not_true, Bool.false_or, List.all_eq_true] at h
  have hpage := h ⟨u, pte⟩ (AList.mem_lookup_iff.mp hl)
  cases hs : (s.supPageTable e.tid).lookup u with
  | none => simp [hp, hs] at hpage
  | some sup => exact ⟨sup, rfl, by simpa [hp, hs, Option.isSome_iff_ne_none] using hpage⟩

/-- The stack of the first process is swapped out for the second one's before the
    first one exits. -/
theorem frameTable_consistent_smallMachine : ∃ s, Lib.Reach step EndsWithoutAnon smallMachine s ∧
    s.exited 1 = true ∧ s.frameTable = [⟨2, 0, some (physBase - pgsize)⟩] ∧ Consistent s := by
  obtain ⟨s, hs, hq⟩ := Lib.exists_reach step smallMachine
    [.setupStack 1 true, .start 1, .setupStack 2 true, .exit 1]
    (fun s => s.exited 1 && s.frameTable == [⟨2, 0, some (physBase - pgsize)⟩])
    endsWithoutAnon_sound (by decide) (by decide)
  simp only [Bool.and_eq_true, beq_iff_eq] at hq
  exact ⟨s, hs, hq.1, hq.2, frameTable_consistent hs⟩

/-- A process that exits with its stack resident leaves its entry in the table:
    the owner is dead and the frame is free. -/
theorem frameTable_not_consistent :
    ∃ s, Lib.Reach step Lib.anyStep smallMachine s ∧ ¬ Consistent s := by
  obtain ⟨s, hs, hq⟩ := Lib.exists_reach (C := Lib.anyStep) (c := fun _ _ => true) step smallMachine
    [.setupStack 1 true, .start 1, .exit 1]
    (fun s => s.exited 1 && !s.usedMap 0 && s.frameTable == [⟨1, 0, some (physBase - pgsize)⟩])
    (fun _ _ _ => trivial) (by decide) (by decide)
  simp only [Bool.and_eq_true, beq_iff_eq] at hq
  refine ⟨s, hs, fun hcon => ?_⟩
  have hlive := hcon.live ⟨1, 0, some (physBase - pgsize)⟩ (by simp [hq.2]) (by simp)
  rw [hq.1.1] at hlive
  cases hlive

end Pintos.Vm
