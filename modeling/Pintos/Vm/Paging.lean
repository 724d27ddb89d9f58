import Pintos.Vm.Swap

/- Paging against a flat memory.

   A process sees bytes by address; the kernel keeps them in frames and swap
   slots. `Flat` is the process's view: a byte is there from the moment its page
   is made and changes when the process stores to it. The shadow machine runs the
   kernel with a flat memory beside it, and `MemInv` says that the two agree: a
   resident page holds the flat bytes in its frame, a page that is out holds them
   in the slot its entry names. Only anonymous pages are looked at here: no file
   is mapped and no process ends. -/
namespace Pintos.Vm

open Function

/-- A byte of a process by address; `none` where no page was made. -/
abbrev Flat := Tid → Nat → Option Byte

variable {s s' t : VmState} {k u a i : Nat} {m : Flat} {p : Tid} {c : Option Nat} {b : Byte}
  {f : FrameEntry} {se : SwapEntry}

/-- The bytes a new page starts with are the ones its frame holds. -/
def flatCreate (m : Flat) (p : Tid) (c : Option Nat) (s' : VmState) : Flat :=
  match c with
  | some u => update m p fun a => if pgRoundDown a = u then userLoad s' p a else m p a
  | none => m

/-- The flat memory after an event that took the machine from `s` to `s'`. -/
def flatStep (m : Flat) (s : VmState) (e : Event) (s' : VmState) : Flat :=
  match e with
  | .store p addr b => update m p (update (m p) addr (some b))
  | e => flatCreate m e.tid (e.creates s) s'

/-- The machine with a flat memory beside it, which it does not read. -/
def shadowStep (x : VmState × Flat) (e : Event) : Option (VmState × Flat) :=
  (step x.1 e).map fun s' => (s', flatStep x.2 x.1 e s')

/-- A resident page holds the flat bytes in its frame, a page that is out holds
    them in its slot, and there are no others. -/
structure Agrees (s : VmState) (m : Flat) : Prop where
  resident : ∀ p a k, pagedirGetPage (s.pagedir p) (pgRoundDown a) = some k →
    m p a = some (s.mem k (pgOfs a))
  out : ∀ p a i, OutAt s p (pgRoundDown a) i →
    m p a = some (Lib.readChunks diskSectorSize s.swapDisk.sector (8 * i) (pgOfs a))
  mapped : ∀ p a b, m p a = some b → (∃ k, pagedirGetPage (s.pagedir p) (pgRoundDown a) = some k) ∨
    ∃ i, OutAt s p (pgRoundDown a) i

structure MemInv (s : VmState) (m : Flat) : Prop where
  table : TableInv s
  slots : SlotInv s
  backed : Backed s
  anon : ∀ p u sup, (s.supPageTable p).lookup u = some sup → sup.fileAddress = none
  shape : ∀ i se, s.swapTable[i]? = some se →
    se.firstSecNo = 8 * i ∧ 8 * i + 8 ≤ s.swapDisk.capacity
  user : ∀ p u sup, (s.supPageTable p).lookup u = some sup → isUserPage u = true
  /-- A used frame is in the table. -/
  kept : ∀ k < s.poolSize, s.usedMap k = true → ∃ f ∈ s.frameTable, f.kpage = k
  pool : 0 < s.poolSize
  live : ∀ p, s.exited p = false
  agrees : Agrees s m

theorem pgOfs_lt (a : Nat) : pgOfs a < 8 * diskSectorSize := Nat.mod_lt a (by decide)

theorem eq_of_page {b : Nat} (hp : pgRoundDown a = pgRoundDown b) (ho : pgOfs a = pgOfs b) :
    a = b := by
  unfold pgRoundDown at hp
  unfold pgOfs at ho
  have ha := Nat.mod_le a pgsize
  have hb := Nat.mod_le b pgsize
  omega

/-! Evictions. -/

theorem slots_apart {j : Nat} (h : j ≠ i) : 8 * j + 8 ≤ 8 * i ∨ 8 * i + 8 ≤ 8 * j := by omega

theorem MemInv.swapOut (hinv : MemInv s m) {rest : List FrameEntry} {sup : SupPageEntry}
    (hv : Victim s f rest u sup) (hi : freeSlot s = some i) (hse : s.swapTable[i]? = some se) :
    Agrees (evicted (saved s f u sup i se) f rest u) m := by
  have hfmap := hinv.table.frames.victim hv
  have hsec : se.firstSecNo = 8 * i := (hinv.shape i se hse).1
  have hget := evicted_getPage (saved s f u sup i se) f rest u
  refine ⟨fun p a k hk => ?_, fun p a j hout => ?_, fun p a b hb => ?_⟩
  · rw [hget] at hk
    split at hk
    · cases hk
    · next hpa =>
      -- the frame that is freed backs the victim's page only
      have hne : k ≠ f.kpage := by
        rintro rfl
        exact hpa (hinv.backed.page_eq hinv.table.frames hk hfmap)
      rw [hinv.agrees.resident p a k hk]
      simp [evicted, saved, setSup, hne]
  · rcases outAt_saved hout with ⟨rfl, rfl, rfl⟩ | ⟨-, hold⟩
    · rw [hinv.agrees.resident _ a f.kpage hfmap, ← hsec]
      exact congrArg some (Lib.readChunks_writeChunks _ _ _ _ (pgOfs_lt a)).symm
    · have hne : j ≠ i := by
        rintro rfl
        exact freeSlot_some hi (hinv.slots.used _ _ _ hold)
      rw [hinv.agrees.out p a j hold]
      refine congrArg some (Eq.symm ?_)
      exact Lib.readChunks_writeChunks_disjoint _ _ _ (pgOfs_lt a) (hsec ▸ slots_apart hne)
  · -- the victim's page is out now, every other page is where it was
    have hl := saved_lookup (s := s) f u i sup se
    have hanon : sup.fileAddress = none := hinv.anon _ _ _ hv.sup
    by_cases hpa : p = f.usingThread ∧ pgRoundDown a = u
    · refine .inr ⟨i, hpa.1 ▸ hv.live, (hget p _).trans (if_pos hpa), _,
        (hl p _).trans (if_pos hpa), hanon, rfl⟩
    · rcases hinv.agrees.mapped p a b hb with ⟨k, hk⟩ | ⟨j, hlive, hnp, sup', hs, hanon, hj⟩
      · exact .inl ⟨k, (hget p _).trans ((if_neg hpa).trans hk)⟩
      · exact .inr ⟨j, hlive, (hget p _).trans ((if_neg hpa).trans hnp), sup',
          (hl p _).trans ((if_neg hpa).trans hs), hanon, hj⟩

theorem MemInv.evict {s₀ : VmState} (hinv : MemInv s m) (h : Evict s s₀)
    (hslot : ∀ f rest u sup, Victim s f rest u sup → sup.fileAddress = none → freeSlot s ≠ none) :
    MemInv s₀ m := by
  have hagrees : Agrees s₀ m := by
    cases h with
    | swap hv _ hi hse => exact hinv.swapOut hv hi hse
    | lost hv hanon hnone => exact absurd hnone (hslot _ _ _ _ hv hanon)
    | file hv hfile => rw [hinv.anon _ _ _ hv.sup] at hfile; cases hfile
  refine ⟨hinv.table.evict h, hinv.slots.evict h hslot, hinv.backed.evict h, fun p u sup₀ hs => ?_,
    fun i se hse => ?_, fun p u sup₀ hs => ?_, h.kept hinv.kept, ?_, fun p => ?_, hagrees⟩
  · grind [h.lookup_some, hinv.anon]
  · cases h with
    | @swap f rest u sup j se₀ hv _ hi hse₀ =>
      have hse' := (saved_slot f u sup hse₀ i).symm.trans hse
      split at hse'
      · next hij => cases hse'; subst hij; exact hinv.shape i se₀ hse₀
      · exact hinv.shape i se hse'
    | lost => exact hinv.shape i se hse
    | file hv hfile => rw [hinv.anon _ _ _ hv.sup] at hfile; cases hfile
  · grind [h.lookup_some, hinv.user]
  · rw [h.rest.poolSize]; exact hinv.pool
  · rw [h.rest.exited]; exact hinv.live p

/-! New frames. -/

theorem MemInv.ne_of_free (hinv : MemInv s m) {k' : Nat}
    (hk : s.usedMap k = false) (hget : pagedirGetPage (s.pagedir p) u = some k') : k' ≠ k := by
  rintro rfl
  rw [(hinv.table.held _ (hinv.backed p u k' hget)).2] at hk
  cases hk

/-- A page that is made is not out: it is present, or its entry names no slot. -/
theorem PageOp.made_in (hop : PageOp s p k (some u) s') (i : Nat) : ¬ OutAt s' p u i := by
  cases hop with
  | newPage _ w buf =>
    refine not_outAt_of_present (k := k) ?_ i
    rw [supPageEntryCreate_eq]
    exact (mapFrame_getPage (grab s p k buf) p u k w p u).trans (if_pos ⟨rfl, rfl⟩)
  | growFail =>
    exact not_outAt_of_entry ((setSup_lookup ..).trans (if_pos ⟨rfl, rfl⟩)) (.inr rfl) i

theorem MemInv.agrees_pageOp
    (hinv : MemInv s m) (hfree : FirstFree s k) (hop : PageOp s p k c s') :
    Agrees s' (flatCreate m p c s') := by
  have hself : ∀ {a}, c = some (pgRoundDown a) → flatCreate m p c s' p a = userLoad s' p a := by
    rintro a rfl
    simp [flatCreate]
  have hother : ∀ {q a}, ¬(q = p ∧ c = some (pgRoundDown a)) → flatCreate m p c s' q a = m q a := by
    intro q a hqa
    cases c with
    | none => rfl
    | some u =>
      by_cases hq : q = p
      · subst hq
        have ha : pgRoundDown a ≠ u := fun ha => hqa ⟨rfl, congrArg some ha.symm⟩
        simp [flatCreate, ha]
      · simp [flatCreate, hq]
  refine ⟨fun q a j hget => ?_, fun q a i hout => ?_, fun q a b hb => ?_⟩
  · by_cases hc : q = p ∧ c = some (pgRoundDown a)
    · rw [hc.1, hself hc.2, userLoad, ← hc.1, hget]; rfl
    rw [hother hc]
    obtain hsame | ⟨rfl, hnp, hk, hb⟩ := hop.getPage q (pgRoundDown a)
    · rw [hsame] at hget
      rw [hinv.agrees.resident q a j hget, hop.fills.1 j (hinv.ne_of_free hfree.2.1 hget)]
    · cases hk.symm.trans hget
      cases hb with
      | made => exact absurd ⟨rfl, rfl⟩ hc
      | fromSlot hs hanon hi hse _ hmem =>
        -- what is read from the slot is what went out
        rw [hinv.agrees.out q a _ ⟨hinv.live q, hnp, _, hs, hanon, hi⟩, hmem, slotPage,
          if_pos (show pgOfs a < pgsize from pgOfs_lt a), (hinv.shape _ _ hse).1]
      | fromFile hs hfile => rw [hinv.anon _ _ _ hs] at hfile; cases hfile
  · have hc : ¬(q = p ∧ c = some (pgRoundDown a)) := by
      rintro ⟨rfl, rfl⟩
      exact hop.made_in i hout
    rw [hother hc, hop.slots.1]
    exact hinv.agrees.out q a i (hop.outAt hout)
  · by_cases hc : q = p ∧ c = some (pgRoundDown a)
    · obtain ⟨rfl, hc⟩ := hc
      rw [hself hc, userLoad, Option.map_eq_some_iff] at hb
      obtain ⟨j, hj, -⟩ := hb
      exact .inl ⟨j, hj⟩
    rw [hother hc] at hb
    cases hget : pagedirGetPage (s'.pagedir q) (pgRoundDown a) with
    | some j => exact .inl ⟨j, rfl⟩
    | none =>
      rcases hinv.agrees.mapped q a b hb with ⟨j, hj⟩ | ⟨i, hlive, hnp, sup, hs, hanon, hi⟩
      · rw [hop.getPage_none hget] at hj; cases hj
      · exact .inr ⟨i, (congrFun hop.rest.1.exited q).trans hlive, hget, sup,
          hop.lookup_of_anon hs hanon, hanon, hi⟩

theorem PageOp.lookup_anon
    (hop : PageOp s p k c s')
    (hanon : ∀ q v sup, (s.supPageTable q).lookup v = some sup → sup.fileAddress = none)
    (q : Tid) (v : Nat) (sup : SupPageEntry) (hs : (s'.supPageTable q).lookup v = some sup) :
    (s.supPageTable q).lookup v = some sup ∨ (sup = anonEntry k ∧ isUserPage v = true) := by
  obtain hl | ⟨rfl, e, hl, -, ⟨-, hu, rfl⟩ | ⟨sup₀, hs₀, hfile, -⟩⟩ := hop.lookup q v
  · exact .inl (hl ▸ hs)
  · exact .inr ⟨Option.some.inj (hs.symm.trans hl), hu⟩
  · exact absurd (hanon q v sup₀ hs₀) hfile

theorem MemInv.pageOp
    (hinv : MemInv s m) (hfree : FirstFree s k) (hop : PageOp s p k c s') :
    MemInv s' (flatCreate m p c s') := by
  have hun : Unnamed s k := hinv.table.unnamed hfree.2.1
  have hframe := hop.frame hfree hun
  have hpool := hop.rest.1.poolSize
  have hex := hop.rest.1.exited
  obtain ⟨hdisk, hslots⟩ := hop.slots
  refine ⟨hinv.table.pageOp (hinv.live p) hfree hop, hinv.slots.pageOp (hinv.live p) hop,
    hinv.backed.pageOp hfree hun hop, fun q v sup hs => ?_, fun i se hse => ?_,
    fun q v sup hs => ?_, fun j hj hused => ?_, hpool ▸ hinv.pool, fun q => hex ▸ hinv.live q,
    hinv.agrees_pageOp hfree hop⟩
  · rcases hop.lookup_anon hinv.anon q v sup hs with hold | ⟨rfl, -⟩
    · exact hinv.anon q v sup hold
    · rfl
  · obtain ⟨se₀, hse₀, heq⟩ := slot_of_firstSecNo hslots hse
    rw [hdisk, ← heq]
    exact hinv.shape i se₀ hse₀
  · rcases hop.lookup_anon hinv.anon q v sup hs with hold | ⟨-, hu⟩
    · exact hinv.user q v sup hold
    · exact hu
  · rw [hpool] at hj
    obtain ⟨hft, hmap, -⟩ | ⟨hmap, hcase⟩ := hframe
    · rw [hft]; exact hinv.kept j hj (hmap ▸ hused)
    · obtain ⟨o, hft⟩ : ∃ o, s'.frameTable = pushed s p k o := by
        obtain ⟨hft, -⟩ | ⟨u, w, -, hft, -⟩ := hcase
        · exact ⟨_, hft⟩
        · exact ⟨_, hft⟩
      rw [hft, pushed]
      by_cases hjk : j = k
      · exact ⟨_, List.mem_append_right _ (List.mem_singleton_self _), hjk.symm⟩
      · rw [hmap, update_of_ne hjk] at hused
        obtain ⟨g, hg, hgk⟩ := hinv.kept j hj hused
        exact ⟨g, List.mem_append_left _ hg, hgk⟩

/-! Stores. -/

theorem MemInv.store {addr : Nat} (hinv : MemInv s m) (h : userStore s p addr b = some s') :
    Agrees s' (update m p (update (m p) addr (some b))) := by
  have hget := userStore_getPage h
  obtain ⟨e, he, hp, -, rfl⟩ := userStore_some h
  have hpage : pagedirGetPage (s.pagedir p) (pgRoundDown addr) = some e.kpage :=
    getPage_eq_some.mpr ⟨e, he, hp, rfl⟩
  have hother : ∀ q a, ¬(q = p ∧ a = addr) →
      update m p (update (m p) addr (some b)) q a = m q a := by
    intro q a hqa
    by_cases hq : q = p
    · subst hq
      have ha : a ≠ addr := fun ha => hqa ⟨rfl, ha⟩
      simp [ha]
    · simp [hq]
  refine ⟨fun q a k hk => ?_, fun q a i hout => ?_, fun q a c hc => ?_⟩
  · rw [hget] at hk
    by_cases hqa : q = p ∧ a = addr
    · obtain ⟨rfl, rfl⟩ := hqa
      obtain rfl : e.kpage = k := Option.some.inj (hpage.symm.trans hk)
      simp
    · rw [hother q a hqa, hinv.agrees.resident q a k hk]
      by_cases hke : k = e.kpage
      · -- the same page, so another offset
        subst hke
        obtain ⟨rfl, hpg⟩ := hinv.backed.page_eq hinv.table.frames hk hpage
        have hofs : pgOfs a ≠ pgOfs addr := fun ho => hqa ⟨rfl, eq_of_page hpg ho⟩
        simp [hofs]
      · simp [hke]
  · grind [OutAt, hinv.agrees.out]
  · by_cases hqa : q = p ∧ a = addr
    · grind
    · rw [hother q a hqa] at hc
      rcases hinv.agrees.mapped q a c hc with ⟨k, hk⟩ | ⟨i, hi⟩
      · exact .inl ⟨k, (hget q _).trans hk⟩
      · exact .inr ⟨i, hi.1, (hget q _).trans hi.2.1, hi.2.2⟩

/-! Runs. -/

/-- No file is mapped and no process ends. -/
def AnonOnly (s : VmState) (e : Event) : Prop :=
  e.ends s = false ∧ (∀ p ino addr, e ≠ .mmap p ino addr) ∧ ∀ p mapping, e ≠ .munmap p mapping

theorem MemInv.step {e : Event} (hinv : MemInv s m)
    (hanon : AnonOnly s e) (hslot : SlotAtSwap s e) (h : Vm.step s e = some s') :
    MemInv s' (flatStep m s e s') := by
  obtain ⟨hends, hmmap, hmunmap⟩ := hanon
  obtain ⟨hlive, hphase, hcase⟩ := step_cases h
  have htable : TableInv s' := hinv.table.step (fun he => by rw [hends] at he; cases he) h
  have hslots : SlotInv s' := hinv.slots.step hslot h
  cases hcase with
  | alloc htake h =>
    obtain ⟨s₀, k, hroom, hfree, hop⟩ := h
    have hflat : flatStep m s e s' = flatCreate m e.tid (e.creates s) s' := by
      cases e <;> first | rfl | cases htake
    have h₀ : MemInv s₀ m := by
      cases hroom with
      | free => exact hinv
      | evict hfull hev => exact hinv.evict (evictFront_cases hev) (hslot htake hfull)
    rw [hflat]
    exact h₀.pageOp hfree hop
  | quiet hq =>
    have hflat : flatStep m s e s' = m := by
      have hcreate : flatCreate m e.tid (e.creates s) s' = m := by rw [hq.creates]; rfl
      cases e with
      | store => cases hq.soils
      | _ => exact hcreate
    rw [hflat]
    rw [hq.rest] at htable hslots ⊢
    exact ⟨htable, hslots, hinv.backed, hinv.anon, hinv.shape, hinv.user, hinv.kept, hinv.pool,
      hinv.live, hinv.agrees.resident, hinv.agrees.out, hinv.agrees.mapped⟩
  | store addr b he hx =>
    have hflat : flatStep m s e s' =
        update m e.tid (update (m e.tid) addr (some b)) := by rw [he]; rfl
    have hget := userStore_getPage hx
    have hagrees := hinv.store hx
    rw [hflat]
    obtain ⟨pte, -, -, -, rfl⟩ := userStore_some hx
    exact ⟨htable, hslots, fun q v k hk => hinv.backed q v k ((hget q v).symm.trans hk), hinv.anon,
      hinv.shape, hinv.user, hinv.kept, hinv.pool, hinv.live, hagrees⟩
  | mmap ino addr he _ => exact absurd he (hmmap _ _ _)
  | unmap file _ _ hrem _ =>
    rw [Event.removes_of_not_ends hends hmunmap] at hrem
    cases hrem
  | exit hend _ => rw [hends] at hend; cases hend

theorem swapInit_slot {capacity : Nat} (hcap : capacity % 8 = 0)
    (h : (swapInit capacity)[i]? = some se) : se.firstSecNo = 8 * i ∧ 8 * i + 8 ≤ capacity := by
  obtain ⟨hlt, hget⟩ := List.getElem?_eq_some_iff.mp h
  have hi : i < (capacity + 7) / 8 := by simpa [swapInit] using hlt
  have hse : se = ⟨false, 8 * i⟩ := by rw [← hget]; simp [swapInit]
  exact ⟨by rw [hse], by omega⟩

theorem MemInv.boot {poolSize : Nat} {mem : Nat → Buf} {inodes : Nat → Inode} {swapDisk : Disk}
    (hpool : 0 < poolSize) (hcap : swapDisk.capacity % 8 = 0) :
    MemInv (boot poolSize mem inodes swapDisk) fun _ _ => none := by
  refine ⟨.boot .., .boot .., ?_, ?_, fun i se h => swapInit_slot hcap h, ?_, ?_, hpool,
    fun _ => rfl, ?_, ?_, ?_⟩ <;> simp [Vm.boot, Backed, OutAt]

/-! Page-in completes. -/

/-- Every frame handed out was installed: no page table allocation has failed. -/
def AllInstalled (s : VmState) : Prop := ∀ f ∈ s.frameTable, f.upage ≠ none

theorem MemInv.victim (hinv : MemInv s m) (hall : AllInstalled s)
    (hfull : PoolFull s) : ∃ f rest u sup, Victim s f rest u sup := by
  obtain ⟨f₀, hf₀, -⟩ := hinv.kept 0 hinv.pool (hfull 0 hinv.pool)
  obtain ⟨f, rest, hfront⟩ := List.exists_cons_of_ne_nil (List.ne_nil_of_mem hf₀)
  have hf : f ∈ s.frameTable := hfront ▸ List.mem_cons_self ..
  obtain ⟨u, hu⟩ := Option.ne_none_iff_exists'.mp (hall f hf)
  have hget := hinv.table.frames.installed f hf (hinv.live _) u hu
  obtain ⟨sup, hs, -⟩ := hinv.table.sups.resident _ u _ hget
  have hheld := hinv.table.held f hf
  exact ⟨f, rest, u, sup, hfront, hinv.live _, hu, hs, hinv.user _ u sup hs, hheld.1, hheld.2⟩

theorem MemInv.evict_defined (hinv : MemInv s m) (hall : AllInstalled s)
    (hfull : PoolFull s) : ∃ s₀, evictFront s = some s₀ := by
  obtain ⟨f, rest, u, sup, hv⟩ := hinv.victim hall hfull
  refine hv.evictFront_defined fun _ i se _ hse => ?_
  obtain ⟨hsec, hcap⟩ := hinv.shape i se hse
  rw [hsec]
  exact hcap

/-- Room can be made, and nothing the process has is lost by it. -/
theorem MemInv.room (hinv : MemInv s m) (hall : AllInstalled s)
    (hslot : PoolFull s → ∀ f rest u sup, Victim s f rest u sup → sup.fileAddress = none →
      freeSlot s ≠ none) :
    ∃ s₀ k, Room s s₀ ∧ FirstFree s₀ k ∧ MemInv s₀ m := by
  rcases pallocGet_cases s false with ⟨hfull, -⟩ | ⟨k, hk, -⟩
  · obtain ⟨s₀, hev⟩ := hinv.evict_defined hall hfull
    have hE := evictFront_cases hev
    obtain ⟨k, hk⟩ := hE.firstFree
    exact ⟨s₀, k, .evict hfull hev, hk, hinv.evict hE (hslot hfull)⟩
  · exact ⟨s, k, .free hk, hk, hinv⟩

theorem MemInv.swapIn_defined (hinv : MemInv s m) (hall : AllInstalled s) (hb : m p a = some b)
    (hnp : pagedirGetPage (s.pagedir p) (pgRoundDown a) = none) (w : Bool)
    (hslot : PoolFull s → ∀ f rest u sup, Victim s f rest u sup → sup.fileAddress = none →
      freeSlot s ≠ none) :
    ∃ s', Vm.swapIn s p (pgRoundDown a) w = some s' ∧ userLoad s' p a = some b := by
  obtain ⟨s₀, k, hroom, hfree, h₀⟩ := hinv.room hall hslot
  have hnp₀ : pagedirGetPage (s₀.pagedir p) (pgRoundDown a) = none := by
    exact hroom.of_evict (I := fun t => pagedirGetPage (t.pagedir p) (pgRoundDown a) = none) hnp
      fun hE => hE.getPage_none hnp
  rcases h₀.agrees.mapped p a b hb with ⟨j, hj⟩ | ⟨i, hlive, -, sup, hs, hanon, hi⟩
  · rw [hnp₀] at hj; cases hj
  · obtain ⟨se, hse, -⟩ := h₀.slots.used p _ i ⟨hlive, hnp₀, sup, hs, hanon, hi⟩
    obtain ⟨hsec, hcap⟩ := h₀.shape i se hse
    have huser := h₀.user p _ sup hs
    have hcap' : se.firstSecNo + 8 ≤ s₀.swapDisk.capacity := by rw [hsec]; exact hcap
    have hop := PageOp.swapIn (s := s₀) (k := k) _ i w sup se huser hnp₀ hs hanon hi hse hcap'
    have hafter := h₀.agrees_pageOp hfree hop
    refine ⟨_, swapIn_eq hroom hfree huser hnp₀ hs hi hse hcap' w, ?_⟩
    have hself := (mapFrame_getPage (grab s₀ p k (slotPage s₀ k se)) p (pgRoundDown a) k w p
      (pgRoundDown a)).trans (if_pos ⟨rfl, rfl⟩)
    have hbyte := hafter.resident p a k hself
    rw [flatCreate, hb] at hbyte
    exact (congrArg (Option.map _) hself).trans hbyte.symm

/-- Loads from pages a process has return the flat byte, resident or not: in the
    second case the fault the load raises is handled, and then it does. -/
theorem MemInv.load (hinv : MemInv s m) (hb : m p a = some b) (hall : AllInstalled s) :
    userLoad s p a = some b ∨ ∀ esp ptOk, SlotAtSwap s (.fault p a esp false ptOk) →
      ∃ s', Vm.step s (.fault p a esp false ptOk) = some s' ∧ userLoad s' p a = some b := by
  cases hget : pagedirGetPage (s.pagedir p) (pgRoundDown a) with
  | some k => grind [hinv.agrees.resident, userLoad]
  | none =>
    refine .inr fun esp ptOk hslot => ?_
    rcases hinv.agrees.mapped p a b hb with ⟨k, hk⟩ | ⟨i, -, -, sup, hs, hanon, -⟩
    · rw [hget] at hk; cases hk
    · have huser : ¬ physBase ≤ pgRoundDown a := by
        have := hinv.user p _ sup hs
        simp only [isUserPage, isUserVaddr, Bool.and_eq_true, decide_eq_true_eq] at this
        omega
      have hgrow : isStackGrowth s p a esp = false := by simp [isStackGrowth, hs]
      have hkill : killed s p a esp = false := by simp [killed, hgrow, hs, hget, huser]
      have hfault : faults s p a false = true := by grind [faults, pagedirGetPage]
      obtain ⟨s', hs', hload⟩ := hinv.swapIn_defined hall hb hget true
        (hslot (by simp [Event.takesFrame, hkill]))
      refine ⟨s', ?_, hload⟩
      simp [Vm.step, Event.tid, hinv.live, Event.inPhase, Event.apply, hfault, pageFault, hgrow, hs,
        hget, huser, hanon, hs']

/-- **Paging does not show.** In every run of any number of processes that map no
    files and do not end, with a free slot at every `swap_out`: a byte that is
    loaded is the byte last stored there, or put there when the page was made;
    and, unless a page table could not be allocated, a load from a page the
    process has returns it, after a page fault that is handled if the page is out. -/
theorem paging_transparent {poolSize : Nat} {mem : Nat → Buf} {inodes : Nat → Inode}
    {swapDisk : Disk} {s : VmState} {m : Flat} (hpool : 0 < poolSize)
    (hcap : swapDisk.capacity % 8 = 0)
    (h : Lib.Reach shadowStep (fun x e => AnonOnly x.1 e ∧ SlotAtSwap x.1 e)
      (boot poolSize mem inodes swapDisk, fun _ _ => none) (s, m)) :
    (∀ p a b, userLoad s p a = some b → m p a = some b) ∧
    ∀ p a b, m p a = some b → AllInstalled s →
      userLoad s p a = some b ∨ ∀ esp ptOk, SlotAtSwap s (.fault p a esp false ptOk) →
        ∃ s', step s (.fault p a esp false ptOk) = some s' ∧ userLoad s' p a = some b := by
  have hinv : MemInv s m := by
    refine h.inv (I := fun x => MemInv x.1 x.2) (.boot hpool hcap) ?_
    rintro ⟨t, m⟩ e ⟨t', m'⟩ hi ⟨hanon, hslot⟩ hstep
    obtain ⟨r, hr, heq⟩ := Option.map_eq_some_iff.mp hstep
    cases heq
    exact hi.step hanon hslot hr
  refine ⟨fun p a b hload => ?_, fun p a b hb hall => hinv.load hb hall⟩
  obtain ⟨k, hk, rfl⟩ := Option.map_eq_some_iff.mp hload
  exact hinv.agrees.resident p a k hk

def anonOnly : Event → Bool
  | .mmap _ _ _ | .munmap _ _ => false
  | _ => true

theorem anonOnly_sound (x : VmState × Flat) (e : Event)
    (h : (!e.ends x.1 && anonOnly e && slotAtSwap x.1 e) = true) :
    AnonOnly x.1 e ∧ SlotAtSwap x.1 e := by
  simp only [Bool.and_eq_true, Bool.not_eq_true'] at h
  refine ⟨⟨h.1.1, ?_, ?_⟩, slotAtSwap_sound x.1 e h.2⟩
  · rintro p ino addr rfl; cases h.1.2
  · rintro p mapping rfl; cases h.1.2

/-- One frame and two slots for the stacks of two processes: the first one's goes
    out with the byte it stored, and comes back with it. -/
theorem paging_transparent_twoStacks : ∃ s m,
    Lib.Reach shadowStep (fun x e => AnonOnly x.1 e ∧ SlotAtSwap x.1 e)
      (boot 1 (fun _ _ => 0) (fun _ => ⟨0, fun _ => 0, 0⟩) ⟨16, fun _ _ => 0⟩, fun _ _ => none)
      (s, m) ∧
    (s.supPageTable 1).lookup (physBase - pgsize) = some ⟨some 0, some 0, none, 0⟩ ∧
    userLoad s 1 (physBase - 4) = some 7 ∧ m 1 (physBase - 4) = some 7 := by
  obtain ⟨⟨s, m⟩, hs, hq⟩ := Lib.exists_reach shadowStep
    (boot 1 (fun _ _ => 0) (fun _ => ⟨0, fun _ => 0, 0⟩) ⟨16, fun _ _ => 0⟩, fun _ _ => none)
    [.setupStack 1 true, .start 1, .store 1 (physBase - 4) 7, .setupStack 2 true, .start 2,
      .fault 1 (physBase - 4) (physBase - 8) false true]
    (fun x => (x.1.supPageTable 1).lookup (physBase - pgsize) == some ⟨some 0, some 0, none, 0⟩ &&
      userLoad x.1 1 (physBase - 4) == some 7)
    anonOnly_sound (by decide) (by decide)
  simp only [Bool.and_eq_true, beq_iff_eq] at hq
  exact ⟨s, m, hs, hq.1, hq.2, (paging_transparent (by decide) (by decide) hs).1 _ _ _ hq.2⟩

end Pintos.Vm
