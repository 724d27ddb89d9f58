import Pintos.Vm.Pages

/- Read-only pages.

   `load_segment` installs a page with the permission its segment asks for. The
   supplemental page table has no room for it, and `page_fault` passes `swap_in` its
   `not_present`, which is true there: a page that comes back from a slot is writable,
   whatever it was before (`readOnly_lost`). The permission is kept as long as no page
   that was loaded read-only is brought in again, nor loaded over (`readOnly_kept`). -/
namespace Pintos.Vm

open Function

/-- The pages that `load_segment` has installed read-only. -/
abbrev ReadOnly := Tid → Nat → Bool

variable {s s' : VmState} {p : Tid} {ro : ReadOnly} {u : Nat} {e : Event}

def readOnlyNext (ro : ReadOnly) (s : VmState) (e : Event) : ReadOnly :=
  match e with
  | .loadPage p _ _ _ upage false _ =>
    if e.creates s = some upage then update ro p (update (ro p) upage true)
    else ro
  | _ => ro

/-- The machine with the set of these pages beside it. -/
def readOnlyStep (x : VmState × ReadOnly) (e : Event) : Option (VmState × ReadOnly) :=
  (step x.1 e).map fun s' => (s', readOnlyNext x.2 x.1 e)

/-- The event does not install a writable page where `load_segment` has installed a
    read-only one: no such page is swapped in, or loaded a second time. -/
def LeavesReadOnly (x : VmState × ReadOnly) (e : Event) : Prop :=
  ∀ v, e.installs x.1 v true → x.2 e.tid v = false

structure ReadOnlyInv (s : VmState) (ro : ReadOnly) : Prop where
  sups : SupInv s
  pages : ∀ p u, ro p u = true → AnonAt s p u ∧ writableAt (s.pagedir p) u ≠ some true

/-- A page that `load_segment` made has the permission of its segment, and an entry. -/
theorem loadPage_made {ino offset readBytes : Nat} {w ptOk : Bool}
    (h : loadPage s p ino offset readBytes u w ptOk = some (s', true)) :
    writableAt (s'.pagedir p) u = some w ∧ (s'.supPageTable p).lookup u ≠ none := by
  rw [loadPage, Option.bind_eq_some_iff] at h
  obtain ⟨⟨s₁, k⟩, -, h⟩ := h
  dsimp only at h
  split at h
  · unfold installPage at h
    split at h
    · simp at h
    · rw [Option.bind_eq_some_iff] at h
      obtain ⟨⟨s₂, ok⟩, hset, h⟩ := h
      dsimp only at h
      split at h
      · next hok =>
        cases h
        obtain ⟨-, -, ⟨-, rfl⟩ | ⟨hno, -⟩⟩ := pagedirSetPage_cases hset
        · refine ⟨?_, ?_⟩
          · rw [supPageEntryCreate_eq]
            show writableAt ((mapFrame _ p u k w).pagedir p) u = some w
            rw [mapFrame_writableAt, if_pos ⟨rfl, rfl⟩]
          · grind [supPageEntryCreate_lookup]
        · rw [hok] at hno
          cases hno
      · simp at h
  · simp at h

theorem step_loadPage {ino offset readBytes : Nat} {w ptOk : Bool}
    (h : step s (.loadPage p ino offset readBytes u w ptOk) = some s')
    (hmade : (Event.loadPage p ino offset readBytes u w ptOk).creates s = some u) :
    writableAt (s'.pagedir p) u = some w ∧ (s'.supPageTable p).lookup u ≠ none ∧
      s'.loaded p = false := by
  obtain ⟨hlive, hphase, -⟩ := step_cases h
  have hloaded : s'.loaded p = false := by grind [step_loaded, Event.inPhase]
  simp only [step, hlive, hphase, and_self, if_true, Event.apply, Option.map_eq_some_iff] at h
  obtain ⟨⟨t, ok⟩, ht, rfl⟩ := h
  have hok : ok = true := by grind [Event.creates]
  subst hok
  obtain ⟨hw, hl⟩ := loadPage_made ht
  exact ⟨hw, hl, hloaded⟩

theorem readOnlyNext_new (hold : ¬ ro p u = true) (hnew : readOnlyNext ro s e p u = true) :
    ∃ ino offset readBytes ptOk, e = .loadPage p ino offset readBytes u false ptOk ∧
      e.creates s = some u := by
  unfold readOnlyNext at hnew
  split at hnew
  · next q ino offset readBytes upage ptOk =>
    split at hnew
    · next hmade =>
      by_cases hp : p = q
      · subst hp
        rw [update_self] at hnew
        by_cases hu : u = upage
        · grind
        · rw [update_of_ne hu] at hnew
          exact absurd hnew hold
      · rw [update_of_ne hp] at hnew
        exact absurd hnew hold
    · exact absurd hnew hold
  · exact absurd hnew hold

theorem ReadOnlyInv.step (hinv : ReadOnlyInv s ro) (hc : LeavesReadOnly (s, ro) e)
    (h : Vm.step s e = some s') : ReadOnlyInv s' (readOnlyNext ro s e) := by
  have hsups : SupInv s' := hinv.sups.step h
  refine ⟨hsups, fun p u hro => ?_⟩
  by_cases hold : ro p u = true
  · obtain ⟨hanon, hperm⟩ := hinv.pages p u hold
    refine ⟨step_anonAt h hanon, fun hw => ?_⟩
    obtain hw | ⟨rfl, hinst⟩ := step_writableAt h hw
    · exact hperm hw
    · have hfree : ro e.tid u = false := hc u hinst
      rw [hfree] at hold
      cases hold
  · -- the page has just been loaded
    obtain ⟨ino, offset, readBytes, ptOk, rfl, hmade⟩ := readOnlyNext_new hold hro
    obtain ⟨hw, hl, hunloaded⟩ := step_loadPage h hmade
    obtain ⟨sup, hs⟩ := Option.ne_none_iff_exists'.mp hl
    refine ⟨⟨sup, hs, hsups.loading p hunloaded u sup hs⟩, ?_⟩
    rw [hw]
    simp

theorem ReadOnlyInv.boot (poolSize : Nat) (mem : Nat → Buf) (inodes : Nat → Inode)
    (swapDisk : Disk) :
    ReadOnlyInv (Vm.boot poolSize mem inodes swapDisk) fun _ _ => false :=
  ⟨.boot poolSize mem inodes swapDisk, fun _ _ h => Bool.noConfusion h⟩

theorem readOnlyStep_inv (x : VmState × ReadOnly) (e : Event) (x' : VmState × ReadOnly)
    (hx : ReadOnlyInv x.1 x.2) (hc : LeavesReadOnly x e) (h : readOnlyStep x e = some x') :
    ReadOnlyInv x'.1 x'.2 := by
  obtain ⟨s', hs', rfl⟩ := Option.map_eq_some_iff.mp h
  exact hx.step hc hs'

/-- A store to a page that is present and read-only raises a fault, and the fault kills
    the process. -/
theorem store_kills {addr : Nat} (hanon : AnonAt s p (pgRoundDown addr))
    (hperm : writableAt (s.pagedir p) (pgRoundDown addr) = some false) :
    faults s p addr true = true ∧ ∀ esp ptOk, killed s p addr esp = true ∧
      pageFault s p addr esp true ptOk = processExit s p := by
  obtain ⟨e, he, hpres, hwr⟩ := writableAt_eq_some.mp hperm
  obtain ⟨sup, hs, -⟩ := hanon
  have hget : pagedirGetPage (s.pagedir p) (pgRoundDown addr) = some e.kpage :=
    getPage_eq_some.mpr ⟨e, he, hpres, rfl⟩
  refine ⟨by simp [faults, he, hwr], fun esp ptOk => ?_⟩
  have hgrow : isStackGrowth s p addr esp = false := by simp [isStackGrowth, hs]
  refine ⟨by simp [killed, hgrow, hget], ?_⟩
  simp [pageFault, hgrow, hs, hget]

/-- **Pages loaded read-only stay read-only in every run that does not bring one in
    again.** The page table entry of such a page, when it is present, does not allow
    writes; a store to the page does not go through, and where the page is present it
    kills the process. -/
theorem readOnly_kept {poolSize : Nat} {mem : Nat → Buf} {inodes : Nat → Inode} {swapDisk : Disk}
    {s : VmState} {ro : ReadOnly} {p : Tid} {u : Nat}
    (hreach : Lib.Reach readOnlyStep LeavesReadOnly
      (boot poolSize mem inodes swapDisk, fun _ _ => false) (s, ro)) (hro : ro p u = true) :
    (∀ e, (s.pagedir p).lookup u = some e → e.present = true → e.writable = false) ∧
    ∀ addr, pgRoundDown addr = u → (∀ b, userStore s p addr b = none) ∧
      (pagedirGetPage (s.pagedir p) u ≠ none → faults s p addr true = true ∧
        ∀ esp ptOk, killed s p addr esp = true ∧
          pageFault s p addr esp true ptOk = processExit s p) := by
  have hinv : ReadOnlyInv s ro := hreach.inv (I := fun x => ReadOnlyInv x.1 x.2)
    (.boot poolSize mem inodes swapDisk) readOnlyStep_inv
  obtain ⟨hanon, hperm⟩ := hinv.pages p u hro
  have hbit : ∀ e, (s.pagedir p).lookup u = some e → e.present = true → e.writable = false := by
    intro e he hpres
    by_contra hw
    exact hperm (writableAt_eq_some.mpr ⟨e, he, hpres, by simpa using hw⟩)
  refine ⟨hbit, ?_⟩
  rintro addr rfl
  constructor
  · intro b
    by_contra hsome
    obtain ⟨s', hs'⟩ := Option.ne_none_iff_exists'.mp hsome
    obtain ⟨e, he, hpres, hw, -⟩ := userStore_some hs'
    rw [hbit e he hpres] at hw
    cases hw
  · intro hget
    obtain ⟨k, hk⟩ := Option.ne_none_iff_exists'.mp hget
    obtain ⟨e, he, hpres, -⟩ := getPage_eq_some.mp hk
    exact store_kills hanon (writableAt_eq_some.mpr ⟨e, he, hpres, hbit e he hpres⟩)

/-- A pool of one page, two swap slots and executables of three bytes. -/
def codeMachine : VmState :=
  boot 1 (fun _ _ => 0) (fun _ => ⟨3, fun _ => 1, 0⟩) ⟨16, fun _ _ => 0⟩

def leavesReadOnly (x : VmState × ReadOnly) : Event → Bool
  | .loadPage p _ _ _ upage writable _ => !writable || !x.2 p upage
  | .setupStack p _ => !x.2 p (physBase - pgsize)
  | .fault p addr esp _ _ => killed x.1 p addr esp || !x.2 p (pgRoundDown addr)
  | _ => true

theorem leavesReadOnly_sound (x : VmState × ReadOnly) (e : Event) (h : leavesReadOnly x e = true) :
    LeavesReadOnly x e := by
  intro v hinst
  cases e with
  | loadPage p ino offset readBytes u w ptOk =>
    obtain ⟨rfl, rfl⟩ := hinst
    simpa [leavesReadOnly, Event.tid] using h
  | setupStack p ptOk =>
    obtain ⟨rfl, -⟩ := hinst
    simpa [leavesReadOnly, Event.tid] using h
  | fault p addr esp write ptOk =>
    obtain ⟨hkill, rfl, -⟩ := hinst
    simpa [leavesReadOnly, Event.tid, hkill] using h
  | _ => cases hinst

/-- A page of code is loaded and stays resident; a store to it does not go through. -/
theorem readOnly_kept_codeMachine : ∃ s ro,
    Lib.Reach readOnlyStep LeavesReadOnly (codeMachine, fun _ _ => false) (s, ro) ∧
    ro 1 0x8048000 = true ∧ userLoad s 1 0x8048000 = some 1 ∧
    userStore s 1 0x8048000 7 = none ∧ killed s 1 0x8048000 physBase = true := by
  obtain ⟨⟨s, ro⟩, hs, hq⟩ := Lib.exists_reach readOnlyStep (codeMachine, fun _ _ => false)
    [.loadPage 1 5 0 3 0x8048000 false true, .start 1]
    (fun x => x.2 1 0x8048000 && userLoad x.1 1 0x8048000 == some 1 &&
      (pagedirGetPage (x.1.pagedir 1) 0x8048000).isSome)
    leavesReadOnly_sound (by decide) (by decide)
  simp only [Bool.and_eq_true, beq_iff_eq, Option.isSome_iff_ne_none] at hq
  obtain ⟨⟨hro, hload⟩, hpres⟩ := hq
  obtain ⟨-, hstore⟩ := readOnly_kept hs hro
  obtain ⟨hnone, hkill⟩ := hstore 0x8048000 rfl
  exact ⟨s, ro, hs, hro, hload, hnone 7, ((hkill hpres).2 physBase true).1⟩

/-- The page of code goes to a slot when a second process needs the frame. It comes back
    writable, and the store goes through. -/
theorem readOnly_lost : ∃ s ro,
    Lib.Reach readOnlyStep Lib.anyStep (codeMachine, fun _ _ => false) (s, ro) ∧
    ro 1 0x8048000 = true ∧
    (∃ e, (s.pagedir 1).lookup 0x8048000 = some e ∧ e.present = true ∧ e.writable = true) ∧
    step s (.store 1 0x8048000 7) ≠ none := by
  obtain ⟨⟨s, ro⟩, hs, hq⟩ := Lib.exists_reach (C := Lib.anyStep) (c := fun _ _ => true)
    readOnlyStep (codeMachine, fun _ _ => false)
    [.loadPage 1 5 0 3 0x8048000 false true, .start 1, .setupStack 2 true,
      .fault 1 0x8048000 physBase false true]
    (fun x => x.2 1 0x8048000 && writableAt (x.1.pagedir 1) 0x8048000 == some true &&
      (step x.1 (.store 1 0x8048000 7)).isSome)
    (fun _ _ _ => trivial) (by decide) (by decide)
  simp only [Bool.and_eq_true, beq_iff_eq, Option.isSome_iff_ne_none] at hq
  obtain ⟨⟨hro, hperm⟩, hstore⟩ := hq
  exact ⟨s, ro, hs, hro, writableAt_eq_some.mp hperm, hstore⟩

end Pintos.Vm
