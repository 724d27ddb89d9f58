import Pintos.Userprog.ExitStatus

/- Every action of the kernel keeps the invariant, and none of them follows a
   record that has been freed. From this the results on `process_wait`: what a
   call returns, and that a call whose child has ended, or whose tid is not a
   child, returns without anybody else's help. -/
namespace Pintos.Userprog

open Function

variable {x : Kernel} {pc : WaitPc} {pos : Pos} {c p : Tid} {f : ThreadInfo → Outcome}
  {i : ThreadInfo} {o : Outcome} {P : Prop} {s : Int}

/-- The action keeps the invariant and follows no record that is not there. -/
def Outcome.Keeps : Outcome → Prop
  | .ok y => Inv y
  | .blocked => True
  | .bad => False

theorem Kernel.access_keeps (hi : x.infos c = some i) (hf : (f i).Keeps) :
    (x.access c f).Keeps := by
  rw [Kernel.access, hi]
  exact hf

theorem keeps_guard [Decidable P] (h : P → o.Keeps) : (if P then o else .blocked).Keeps := by
  split
  · next hp => exact h hp
  · trivial

theorem Inv.ghost (h : Inv x) (loads : Tid → Option Bool) (execUps : Tid → Nat)
    (execLog : List ExecReturn) :
    Inv { x with loads := loads, execUps := execUps, execLog := execLog } :=
  ⟨h.fresh, h.next, h.main, h.parent, h.apart, h.born, h.kids, h.nodup, h.stranger, h.execs,
    h.pairs, h.once, h.past, h.delivered⟩

theorem Kernel.setInfo_self (x : Kernel) (c : Tid) : x.setInfo c (x.infos c) = x := by
  simp [Kernel.setInfo]

section
variable {x y : Kernel} {p q c d : Tid} {a : Act}

/-! The records that are there. -/

theorem Inv.listed_some (h : Inv x) (hc : c ∈ x.childInfoList p) : (x.infos c).isSome = true := by
  have hview := h.pairs p c (h.kids p c hc)
  have hl : (view x p c).listed = true := by simp [view, hc]
  exact Option.isSome_iff_ne_none.mpr (hview.listed hl).2.2.1

theorem Inv.own_some (h : Inv x) (hmain : q ≠ mainTid) (hborn : x.pos q ≠ .unborn)
    (hlife : (x.pos q).life ≠ .dead) : ∃ i, x.infos q = some i := by
  obtain ⟨p, hp⟩ := h.born q hborn hmain
  obtain ⟨i, hi, -⟩ := (h.pairs p q hp).live hlife
  exact ⟨i, hi⟩

theorem findChildInfo_eq {infos : Tid → Option ThreadInfo} (c : Tid) : ∀ {l : List Tid},
    (∀ a ∈ l, (infos a).isSome = true) → findChildInfo infos c l = some (decide (c ∈ l))
  | [], _ => by simp [findChildInfo]
  | a :: l, hl => by
    have hsome : (infos a).isNone = false := by grind [Option.not_isSome]
    have ih := findChildInfo_eq c fun b hb => hl b (List.mem_cons_of_mem _ hb)
    rw [findChildInfo, hsome, if_neg Bool.false_ne_true]
    by_cases hac : a = c
    · simp [hac]
    · rw [if_neg hac, ih]
      simp [Ne.symm hac]

theorem Inv.find (h : Inv x) (p c : Tid) : findChildInfo x.infos c (x.childInfoList p) =
    some (decide (c ∈ x.childInfoList p)) :=
  findChildInfo_eq c fun _ ha => h.listed_some ha

/-! Actions of a parent. -/

/-- The parent goes on with its child `d`, and changes the child's record. -/
theorem Inv.parentStep (h : Inv x) (hold : (x.pos q).On d) (hnew : pos.On d)
    {i : Option ThreadInfo} (hchild : IsChild q d x.log)
    (hview : ViewOk { view x q d with stage := pos.stage d, info := i }) :
    Inv ((x.setInfo d i).goto q pos) := by
  have hqd : d ≠ q := Ne.symm (h.apart q d hchild).1
  refine h.ofParent rfl (fun p hp => update_of_ne hp ..)
    (fun c hc => update_of_ne hc ..) (fun _ _ => rfl) (List.Sublist.refl _)
    (fun _ _ hc => hc) hold ?_ (.inl rfl) (fun hno => absurd hchild hno) fun _ => ?_
  · simpa [Kernel.goto] using hnew
  · simp only [view, Kernel.goto, Kernel.setInfo, update_self, update_of_ne hqd]
    exact hview

theorem Inv.parentGoto (h : Inv x) (hold : (x.pos q).On d) (hnew : pos.On d)
    (hchild : IsChild q d x.log) (hview : ViewOk { view x q d with stage := pos.stage d }) :
    Inv (x.goto q pos) := by
  have hinv := h.parentStep (i := x.infos d) hold hnew hchild hview
  rw [Kernel.setInfo_self] at hinv
  exact hinv

theorem Inv.strangerGoto (h : Inv x) (hold : (x.pos q).On d) (hno : ¬ IsChild q d x.log)
    (hpos : pos = .wait d .find ∨ pos = .wait d (.ret (some (-1)))) : Inv (x.goto q pos) := by
  have hself : (x.goto q pos).pos q = pos := update_self ..
  have hnew : pos.On d := by
    rcases hpos with hr | hr
    · exact .inr (.inl ⟨_, hr⟩)
    · exact .inr (.inl ⟨_, hr⟩)
  refine h.ofParent rfl (fun p hp => update_of_ne hp ..) (fun _ _ => rfl) (fun _ _ => rfl)
    (List.Sublist.refl _) (fun _ _ hc => hc) hold ?_ (.inl rfl) (fun _ => ⟨rfl, .inr ?_⟩)
    fun hchild => absurd hchild hno
  · rw [hself]; exact hnew
  · rw [hself]; exact hpos

theorem stage_waiting (hpos : x.pos q = .wait d pc) :
    (view x q d).stage = .waiting pc := by
  simp [view, hpos, Pos.stage]

theorem stage_wait (d : Tid) (pc : WaitPc) : (Pos.wait d pc).stage d = .waiting pc := if_pos rfl

theorem stage_exec (d : Tid) (pc : ExecPc) : (Pos.exec d pc).stage d = .execing pc := if_pos rfl

section
variable (h : Inv x)
include h

theorem Inv.child_of_wait (hpos : x.pos q = .wait d pc) (hfind : pc ≠ .find)
    (hret : ∀ r, pc ≠ .ret r) : IsChild q d x.log := by
  by_contra hno
  rcases h.stranger q d pc hpos hno with hr | hr
  · exact hfind hr
  · exact hret _ hr

theorem Inv.held_some (hpos : x.pos q = .wait d pc) (hh : pc.holds = true) :
    IsChild q d x.log ∧ ∃ i, x.infos d = some i := by
  have hchild : IsChild q d x.log := by
    refine h.child_of_wait hpos (fun hr => ?_) fun r hr => ?_
    · rw [hr] at hh; cases hh
    · rw [hr] at hh; cases hh
  exact ⟨hchild, Option.ne_none_iff_exists'.mp
    ((h.pairs q d hchild).holds pc (stage_waiting hpos) hh).2⟩

theorem Inv.waitFind (hpos : x.pos q = .wait d .find) : (waitStep x q d .find).Keeps := by
  have hold : (x.pos q).On d := .inr (.inl ⟨_, hpos⟩)
  rw [waitStep, h.find q d]
  by_cases hl : d ∈ x.childInfoList q
  · rw [decide_eq_true hl]
    have hchild := h.kids q d hl
    have hview := (h.pairs q d hchild).found (stage_waiting hpos) (by simp [view, hl])
    exact h.parentGoto hold (.inr (.inl ⟨_, rfl⟩)) hchild (stage_wait d _ ▸ hview)
  · rw [decide_eq_false hl]
    by_cases hchild : IsChild q d x.log
    · have hview := (h.pairs q d hchild).notFound (stage_waiting hpos) (by simp [view, hl])
      exact h.parentGoto hold (.inr (.inl ⟨_, rfl⟩)) hchild (stage_wait d _ ▸ hview)
    · exact h.strangerGoto hold hchild (.inr rfl)

theorem Inv.waitRemove (hpos : x.pos q = .wait d .remove) : (waitStep x q d .remove).Keeps := by
  have hchild : IsChild q d x.log := h.child_of_wait hpos nofun nofun
  have hall : ((x.childInfoList q).all fun a => (x.infos a).isSome) = true :=
    List.all_eq_true.mpr fun a ha => h.listed_some ha
  have hqd : d ≠ q := Ne.symm (h.apart q d hchild).1
  rw [waitStep, if_pos hall]
  refine h.ofParent (d := d) rfl (fun p hp => update_of_ne hp ..) (fun _ _ => rfl)
    (fun p hp => update_of_ne hp ..) ?_ (fun c hc hin => ?_) (.inr (.inl ⟨_, hpos⟩)) ?_
    (.inl rfl) (fun hno => absurd hchild hno) fun _ => ?_
  · simp [Kernel.goto, List.erase_sublist]
  · simpa [Kernel.goto, List.mem_erase_of_ne hc] using hin
  · simp [Kernel.goto, Pos.On]
  · have hgone : d ∉ (x.childInfoList q).erase d := fun hin =>
      ((h.nodup q).mem_erase_iff.mp hin).1 rfl
    have hview := (h.pairs q d hchild).removed (stage_waiting hpos)
    simpa only [view, Kernel.goto, update_self, update_of_ne hqd, stage_wait,
      decide_eq_false hgone] using hview

theorem Inv.waitTest (hpos : x.pos q = .wait d .test) : (waitStep x q d .test).Keeps := by
  obtain ⟨hchild, i, hi⟩ := h.held_some hpos rfl
  have hold : (x.pos q).On d := .inr (.inl ⟨_, hpos⟩)
  have hst := stage_waiting hpos
  refine Kernel.access_keeps hi ?_
  by_cases hk : (i.isWaited || i.isKilled) = true
  · rw [if_pos hk]
    have hview := (h.pairs q d hchild).refused hst hi hk
    exact h.parentGoto hold (.inr (.inl ⟨_, rfl⟩)) hchild (stage_wait d _ ▸ hview)
  · rw [if_neg hk]
    have hview := (h.pairs q d hchild).hold .mark i hst rfl rfl nofun hi rfl rfl
      (fun _ => rfl) nofun (fun _ => ⟨rfl, rfl⟩) nofun
    have hinv := h.parentStep (i := some i) hold (.inr (.inl ⟨_, rfl⟩)) hchild
      (stage_wait d .mark ▸ hview)
    rw [← hi, Kernel.setInfo_self] at hinv
    exact hinv

theorem Inv.waitMark (hpos : x.pos q = .wait d .mark) : (waitStep x q d .mark).Keeps := by
  obtain ⟨hchild, i, hi⟩ := h.held_some hpos rfl
  refine Kernel.access_keeps hi ?_
  have hview := (h.pairs q d hchild).hold .down { i with isWaited := true }
    (stage_waiting hpos) rfl rfl nofun hi rfl rfl (fun _ => rfl) nofun (fun _ => ⟨rfl, rfl⟩) nofun
  exact h.parentStep (.inr (.inl ⟨_, hpos⟩)) (.inr (.inl ⟨_, rfl⟩)) hchild
    (stage_wait d .down ▸ hview)

theorem Inv.waitDown (hpos : x.pos q = .wait d .down) : (waitStep x q d .down).Keeps := by
  obtain ⟨hchild, i, hi⟩ := h.held_some hpos rfl
  refine Kernel.access_keeps hi ?_
  by_cases hz : i.waitSema = 0
  · rw [if_pos hz]; trivial
  rw [if_neg hz]
  have hdead : (view x q d).life = .dead := by
    by_contra hlife
    obtain ⟨j, hj, hzero⟩ := (h.pairs q d hchild).live hlife
    obtain rfl : i = j := Option.some.inj (hi.symm.trans hj)
    exact hz hzero
  have hview := (h.pairs q d hchild).hold .read { i with waitSema := i.waitSema - 1 }
    (stage_waiting hpos) rfl rfl nofun hi rfl rfl
    (fun hl => absurd hdead hl) (fun _ => hdead) nofun nofun
  exact h.parentStep (.inr (.inl ⟨_, hpos⟩)) (.inr (.inl ⟨_, rfl⟩)) hchild
    (stage_wait d .read ▸ hview)

theorem Inv.waitRead (hpos : x.pos q = .wait d .read) : (waitStep x q d .read).Keeps := by
  obtain ⟨hchild, i, hi⟩ := h.held_some hpos rfl
  refine Kernel.access_keeps hi ?_
  have hst := stage_waiting hpos
  have hdead : (view x q d).life = .dead := (h.pairs q d hchild).downed _ hst rfl
  have hview := (h.pairs q d hchild).hold (.free i.exitStatus) i hst rfl rfl nofun hi
    rfl rfl (fun _ => rfl) (fun _ => hdead) nofun fun s hs => by cases hs; rfl
  have hinv := h.parentStep (i := some i) (.inr (.inl ⟨_, hpos⟩)) (.inr (.inl ⟨_, rfl⟩)) hchild
    (stage_wait d (.free i.exitStatus) ▸ hview)
  rw [← hi, Kernel.setInfo_self] at hinv
  exact hinv

theorem Inv.waitFree {s : Option Int} (hpos : x.pos q = .wait d (.free s)) :
    (waitStep x q d (.free s)).Keeps := by
  obtain ⟨hchild, i, hi⟩ := h.held_some hpos rfl
  refine Kernel.access_keeps hi ?_
  have hview := (h.pairs q d hchild).freed (stage_waiting hpos)
  exact h.parentStep (.inr (.inl ⟨_, hpos⟩)) (.inr (.inl ⟨_, rfl⟩)) hchild
    (stage_wait d (.ret s) ▸ hview)

theorem Inv.waitRet {r : Option Int} (hpos : x.pos q = .wait d (.ret r)) :
    (waitStep x q d (.ret r)).Keeps := by
  have hself : ((x.note (.returned q d r)).goto q .running).pos q = .running :=
    update_self ..
  refine h.ofParent (d := d) rfl (fun p hp => update_of_ne hp ..) (fun _ _ => rfl)
    (fun _ _ => rfl) (List.Sublist.refl _) (fun _ _ hc => hc) (.inr (.inl ⟨_, hpos⟩)) (.inl hself)
    (.inr ⟨r, rfl, hpos⟩) (fun _ => ⟨rfl, .inl hself⟩) fun hchild => ?_
  have hqd : d ≠ q := Ne.symm (h.apart q d hchild).1
  have hview := (h.pairs q d hchild).returned (stage_waiting hpos)
  simp only [view, Kernel.goto, Kernel.note, update_self, update_of_ne hqd,
    waited, beq_self_eq_true, Bool.and_self, Bool.true_or]
  exact hview

theorem Inv.waitStep_keeps (hpos : x.pos q = .wait d pc) : (waitStep x q d pc).Keeps := by
  cases pc with
  | find => exact h.waitFind hpos
  | remove => exact h.waitRemove hpos
  | test => exact h.waitTest hpos
  | mark => exact h.waitMark hpos
  | down => exact h.waitDown hpos
  | read => exact h.waitRead hpos
  | free s => exact h.waitFree hpos
  | ret r => exact h.waitRet hpos

/-- `handle_exec` goes on with its child, which is listed as long as it is at it. -/
theorem Inv.execGoto {pc : ExecPc} (hpos : x.pos q = .exec d pc)
    (hnew : pos = .running ∨ ∃ pc', pos = .exec d pc') {i' : ThreadInfo} (hi : x.infos d = some i)
    (hexit : i'.exitStatus = i.exitStatus) (hkill : i'.isKilled = i.isKilled)
    (hwaited : i'.isWaited = i.isWaited) (hsema : i'.waitSema = i.waitSema) :
    Inv ((x.setInfo d (some i')).goto q pos) := by
  have hchild := h.execs q d pc hpos
  have hv := h.pairs q d hchild
  have hl : (view x q d).listed = true := hv.exec pc (by simp [view, hpos, Pos.stage])
  have hst : ∀ pc', pos.stage d ≠ .waiting pc' := by
    intro pc' hpc
    rcases hnew with rfl | ⟨pc₁, rfl⟩
    · cases hpc
    · rw [stage_exec] at hpc; cases hpc
  have hon : pos.On d := by
    rcases hnew with hr | ⟨pc₁, hr⟩
    · exact .inl hr
    · exact .inr (.inr ⟨pc₁, hr⟩)
  exact h.parentStep (.inr (.inr ⟨pc, hpos⟩)) hon hchild
    (hv.atExec hl hst hi hexit hkill hwaited hsema)

theorem Inv.execStep_keeps {pc : ExecPc} (hpos : x.pos q = .exec d pc) :
    (execStep x q d pc).Keeps := by
  have hchild := h.execs q d pc hpos
  have hl : d ∈ x.childInfoList q := by
    have hl := (h.pairs q d hchild).exec pc (by simp [view, hpos, Pos.stage])
    simpa [view] using hl
  obtain ⟨i, hi⟩ := Option.isSome_iff_exists.mp (h.listed_some hl)
  have hset : x.setInfo d (some i) = x := by rw [← hi, Kernel.setInfo_self]
  cases pc with
  | find =>
    rw [execStep, h.find q d, decide_eq_true hl]
    have hinv := h.execGoto hpos (.inr ⟨.down, rfl⟩) hi rfl rfl rfl rfl
    rw [hset] at hinv
    exact hinv
  | down =>
    refine Kernel.access_keeps hi ?_
    by_cases hz : i.execSema = 0
    · rw [if_pos hz]; trivial
    · rw [if_neg hz]
      exact h.execGoto hpos (.inr ⟨.read, rfl⟩) hi rfl rfl rfl rfl
  | read =>
    refine Kernel.access_keeps hi ?_
    have hinv := h.execGoto hpos (.inl rfl) hi rfl rfl rfl rfl
    rw [hset] at hinv
    exact hinv.ghost _ _ _

/-! Actions of a child. -/

theorem Inv.statusOf_none (hmain : q ≠ mainTid) (hborn : x.pos q ≠ .unborn)
    (hlife : (x.pos q).life ≠ .exiting) (hdead : (x.pos q).life ≠ .dead) :
    statusOf q x.log = none := by
  obtain ⟨p, hp⟩ := h.born q hborn hmain
  refine Option.eq_none_iff_forall_ne_some.mpr fun s hs => ?_
  rcases ((h.pairs p q hp).status s hs).1 with hl | hl
  · exact hlife hl
  · exact hdead hl

theorem Inv.childStep (hmain : q ≠ mainTid)
    (hold : x.pos q = .running ∨ x.pos q = .killing ∨ x.pos q = .exiting ∨ x.pos q = .loading)
    (hnew : pos = .killing ∨ pos = .exiting ∨ pos = .dead) (i' : ThreadInfo)
    (hi : x.infos q = some i) (hwaited : i'.isWaited = i.isWaited)
    (hsema : (pos ≠ .dead ∧ i'.waitSema = i.waitSema) ∨ (pos = .dead ∧ 0 < i'.waitSema))
    {log : List Entry} (hlog : log = x.log ∨ ∃ s, log = .exits q s :: x.log ∧ x.pos q = .running)
    (hst : ∀ s, statusOf q log = some s →
      pos ≠ .killing ∧ i'.exitStatus = some s ∧ i'.isKilled = false) :
    Inv (({ x with log := log }.setInfo q (some i')).goto q pos) := by
  have hout : x.pos q ≠ .unborn ∧ (x.pos q).life ≠ .dead ∧ ∀ c, (x.pos q).stage c = .out := by
    rcases hold with hr | hr | hr | hr <;> rw [hr] <;> exact ⟨nofun, nofun, fun _ => rfl⟩
  have hout' : pos.life ≠ .live ∧ ∀ c, pos.stage c = .out := by
    rcases hnew with rfl | rfl | rfl <;> exact ⟨nofun, fun _ => rfl⟩
  have hself : (({ x with log := log }.setInfo q (some i')).goto q pos).pos q = pos :=
    update_self ..
  refine h.ofChild hmain rfl (fun p hp => update_of_ne hp ..)
    (fun c hc => update_of_ne hc ..) rfl ⟨hout.1, hout.2.2⟩ (by rw [hself]; exact hout')
    hlog fun p hp => ?_
  have hpq : p ≠ q := (h.apart p q hp).1
  have hwait : waited p q log = waited p q x.log := by
    rcases hlog with rfl | ⟨s, rfl, -⟩ <;> rfl
  have hret : (view x p q).life = .live ∨ statusOf q log = (view x p q).status := by
    grind [view, Pos.life]
  have hdead : pos.life = .dead ↔ pos = .dead := by
    rcases hnew with rfl | rfl | rfl <;> simp [Pos.life]
  have hlast : pos ≠ .killing → pos.life = .exiting ∨ pos.life = .dead := by
    intro hk
    rcases hnew with rfl | rfl | rfl
    · exact absurd rfl hk
    · exact .inl rfl
    · exact .inr rfl
  have hview := (h.pairs p q hp).ends (l := pos.life) hout.2.1 hout'.1 hi hwaited
    (by rw [Ne, hdead]; exact hsema) (fun s hs => ⟨hlast (hst s hs).1, (hst s hs).2⟩) hret
  simp only [view, Kernel.goto, Kernel.setInfo, update_self, update_of_ne hpq,
    hwait]
  exact hview

/-- The first action of a loading or running thread on its way out. It has recorded
    nothing and was not killed before. -/
theorem Inv.leave (hpos : x.pos q = .running ∨ x.pos q = .loading) (hmain : q ≠ mainTid) :
    ∃ i, x.infos q = some i ∧ i.isKilled = false ∧ statusOf q x.log = none := by
  have hlive : x.pos q ≠ .unborn ∧ (x.pos q).life = .live := by
    rcases hpos with hr | hr <;> rw [hr] <;> exact ⟨nofun, rfl⟩
  obtain ⟨hborn, hlife⟩ := hlive
  obtain ⟨i, hi⟩ := h.own_some hmain hborn (by rw [hlife]; exact nofun)
  refine ⟨i, hi, ?_, h.statusOf_none hmain hborn (by rw [hlife]; exact nofun)
    (by rw [hlife]; exact nofun)⟩
  obtain ⟨p, hp⟩ := h.born q hborn hmain
  cases hk : i.isKilled with
  | false => rfl
  | true => exact absurd hlife ((h.pairs p q hp).killed i hi hk)

theorem Inv.leaving (hpos : x.pos q = .killing ∨ x.pos q = .exiting) :
    q ≠ mainTid ∧ x.pos q ≠ .unborn ∧ ∃ i, x.infos q = some i := by
  have hlife : (x.pos q).life ≠ .live ∧ x.pos q ≠ .unborn ∧ (x.pos q).life ≠ .dead := by
    rcases hpos with hr | hr <;> rw [hr] <;> exact ⟨nofun, nofun, nofun⟩
  have hmain : q ≠ mainTid := fun heq => hlife.1 (heq ▸ h.main)
  exact ⟨hmain, hlife.2.1, h.own_some hmain hlife.2.1 hlife.2.2⟩

theorem Inv.go_keeps (q : Tid) : (go x q).Keeps := by
  cases hpos : x.pos q with
  | wait c pc =>
    simp only [go, hpos]
    exact h.waitStep_keeps hpos
  | exec c pc =>
    simp only [go, hpos]
    exact h.execStep_keeps hpos
  | killing =>
    obtain ⟨hmain, hborn, i, hi⟩ := h.leaving (.inl hpos)
    have hnone := h.statusOf_none hmain hborn (by rw [hpos]; exact nofun) (by rw [hpos]; exact nofun)
    simp only [go, hpos]
    refine Kernel.access_keeps hi ?_
    refine h.childStep hmain (.inr (.inl hpos)) (.inr (.inl rfl)) { i with exitStatus := some (-1) }
      hi rfl (.inl ⟨nofun, rfl⟩) (.inl rfl) fun s hs => ?_
    rw [hnone] at hs
    cases hs
  | exiting =>
    obtain ⟨hmain, hborn, i, hi⟩ := h.leaving (.inr hpos)
    obtain ⟨p, hp⟩ := h.born q hborn hmain
    simp only [go, hpos]
    refine Kernel.access_keeps hi ?_
    have hinv := h.childStep hmain (.inr (.inr (.inl hpos))) (.inr (.inr rfl))
      { i with execSema := i.execSema + 1, waitSema := i.waitSema + 1 } hi rfl
      (.inr ⟨rfl, Nat.succ_pos _⟩) (.inl rfl)
      fun s hs => ⟨nofun, ((h.pairs p q hp).status s hs).2 i hi⟩
    exact hinv.ghost _ _ _
  | unborn => simp only [go, hpos, Outcome.Keeps]
  | loading => simp only [go, hpos, Outcome.Keeps]
  | running => simp only [go, hpos, Outcome.Keeps]
  | dead => simp only [go, hpos, Outcome.Keeps]

/-- A thread leaves without a status: it does not load, is killed or halts. -/
theorem Inv.leaves {f : ThreadInfo → ThreadInfo} (hold : x.pos q = .running ∨ x.pos q = .loading)
    (hmain : q ≠ mainTid) (hnew : pos = .killing ∨ pos = .exiting)
    (hwaited : ∀ i, (f i).isWaited = i.isWaited) (hsema : ∀ i, (f i).waitSema = i.waitSema) :
    (x.access q fun i => .ok ((x.setInfo q (some (f i))).goto q pos)).Keeps := by
  obtain ⟨i, hi, -, hnone⟩ := h.leave hold hmain
  refine Kernel.access_keeps hi ?_
  have hnew' : pos = .killing ∨ pos = .exiting ∨ pos = .dead := by grind
  have hold' : x.pos q = .running ∨ x.pos q = .killing ∨ x.pos q = .exiting ∨
      x.pos q = .loading := by grind
  have hne : pos ≠ .dead := by
    rcases hnew with rfl | rfl <;> exact nofun
  refine h.childStep hmain hold' hnew' (f i) hi (hwaited i) (.inl ⟨hne, hsema i⟩) (.inl rfl)
    fun s hs => ?_
  rw [hnone] at hs
  cases hs

theorem Inv.leavesBare (hrun : x.pos q = .running) (hmain : q ≠ mainTid) :
    Inv (x.goto q .exiting) := by
  obtain ⟨i, hi, -, -⟩ := h.leave (.inl hrun) hmain
  have hinv := h.leaves (f := id) (.inl hrun) hmain (.inr rfl) (fun _ => rfl) fun _ => rfl
  rw [Kernel.access, hi] at hinv
  have hset : x.setInfo q (some i) = x := by rw [← hi, Kernel.setInfo_self]
  rw [← hset]
  exact hinv

theorem Inv.enter (hpos : x.pos q = .loading) (hmain : q ≠ mainTid) : Inv (x.goto q .running) := by
  have hne : ∀ c, c ≠ q → (x.goto q .running).pos c = x.pos c := fun c hc =>
    update_of_ne hc ..
  have hq : (x.goto q .running).pos q = .running := update_self ..
  have hborn : ∀ c, (x.goto q .running).pos c = .unborn ↔ x.pos c = .unborn := by grind
  have hlife : ∀ c, ((x.goto q .running).pos c).life = (x.pos c).life := by
    intro c
    by_cases hc : c = q
    · subst hc; rw [hq, hpos]; rfl
    · rw [hne c hc]
  have hstage : ∀ p c, ((x.goto q .running).pos p).stage c = (x.pos p).stage c := by
    intro p c
    by_cases hp : p = q
    · subst hp; rw [hq, hpos]; rfl
    · rw [hne p hp]
  have hview : ∀ p c, view (x.goto q .running) p c = view x p c := by
    intro p c
    simp only [view, hlife, hstage]
    rfl
  have hat : ∀ p pos, (∀ r : Pos, r = .running → r ≠ pos) → (x.goto q .running).pos p = pos →
      x.pos p = pos := by grind
  exact {
    fresh := fun c hc => ⟨(hborn c).mpr (h.fresh c hc).1, (h.fresh c hc).2⟩
    next := h.next
    main := by rw [hlife]; exact h.main
    parent := h.parent
    apart := fun p c hpc => ⟨(h.apart p c hpc).1, (h.apart p c hpc).2.1,
      fun hu => (h.apart p c hpc).2.2 ((hborn c).mp hu)⟩
    born := fun c hc => h.born c fun hu => hc ((hborn c).mpr hu)
    kids := h.kids
    nodup := h.nodup
    stranger := fun p c pc hp => h.stranger p c pc (hat p _ (fun _ hr => by rw [hr]; intro hx; cases hx) hp)
    execs := fun p c pc hp => h.execs p c pc (hat p _ (fun _ hr => by rw [hr]; intro hx; cases hx) hp)
    pairs := fun p c hpc => hview p c ▸ h.pairs p c hpc
    once := h.once
    past := fun newer older p c r hlog hc => hlife c ▸ h.past newer older p c r hlog hc
    delivered := h.delivered }

theorem Inv.act_keeps (a : Act) : (act x a).Keeps := by
  cases a with
  | go p => exact h.go_keeps p
  | create p fromExec =>
    refine keeps_guard fun hrun => h.ofCreate hrun ?_
    cases fromExec with
    | true => exact .inr rfl
    | false => exact .inl rfl
  | wait p c =>
    refine keeps_guard fun hrun => ?_
    by_cases hchild : IsChild p c x.log
    · have hview := (h.pairs p c hchild).call (by simp [view, hrun, Pos.stage])
      exact h.parentGoto (.inl hrun) (.inr (.inl ⟨_, rfl⟩)) hchild (stage_wait c _ ▸ hview)
    · exact h.strangerGoto (.inl hrun) hchild (.inl rfl)
  | exit p status =>
    refine keeps_guard fun hrun => ?_
    obtain ⟨i, hi, hkill, -⟩ := h.leave (.inl hrun.1) hrun.2
    refine Kernel.access_keeps hi ?_
    refine h.childStep hrun.2 (.inl hrun.1) (.inr (.inl rfl)) { i with exitStatus := some status }
      hi rfl (.inl ⟨Pos.noConfusion, rfl⟩) (.inr ⟨status, rfl, hrun.1⟩)
      fun s hs => ⟨Pos.noConfusion, ?_, hkill⟩
    rw [statusOf, if_pos rfl] at hs
    exact hs
  | kill p =>
    exact keeps_guard fun hrun =>
      h.leaves (.inl hrun.1) hrun.2 (.inl rfl) (fun _ => rfl) fun _ => rfl
  | close p =>
    exact keeps_guard fun hrun =>
      h.leaves (.inl hrun.1) hrun.2 (.inr rfl) (fun _ => rfl) fun _ => rfl
  | halt p => exact keeps_guard fun hrun => h.leavesBare hrun.1 hrun.2
  | exception p => exact keeps_guard fun hrun => h.leavesBare hrun.1 hrun.2
  | loaded p => exact keeps_guard fun hload => (h.ghost _ _ _).enter hload.1 hload.2
  | loadFail p =>
    refine keeps_guard fun hload => ?_
    have hghost := h.ghost (update x.loads p (some false)) x.execUps x.execLog
    exact hghost.leaves (f := fun i => { i with loadSuccess := false }) (.inr hload.1) hload.2
      (.inr rfl) (fun _ => rfl) fun _ => rfl

end

theorem kernelStep_eq_some : kernelStep x a = some y ↔ act x a = .ok y := by
  rw [kernelStep]
  cases act x a <;> simp

theorem Inv.step (h : Inv x) (hy : kernelStep x a = some y) : Inv y := by
  have hk := h.act_keeps a
  rw [kernelStep_eq_some.mp hy] at hk
  exact hk

theorem Inv.run (h : Inv x) (acts : List Act) (hy : Lib.run kernelStep x acts = some y) : Inv y :=
  Lib.run_inv (I := fun _ z => Inv z) (l := []) (fun _ _ _ _ ht hs => ht.step hs) acts h hy

end

theorem kernelBoot_pos (hp : p ≠ mainTid) : kernelBoot.pos p = .unborn := by
  simp [kernelBoot, update_of_ne hp]

theorem inv_boot : Inv kernelBoot where
  fresh := fun c hc => by
    have hne : c ≠ mainTid := Int.ne_of_gt (Int.lt_of_add_one_le hc)
    exact ⟨kernelBoot_pos hne, rfl, nofun, nofun⟩
  next := by decide
  main := rfl
  parent := nofun
  apart := nofun
  born := fun c hc hm => absurd (kernelBoot_pos hm) hc
  kids := nofun
  nodup := fun _ => List.nodup_nil
  stranger := fun p c pc hp => by
    by_cases hm : p = mainTid
    · subst hm; cases hp
    · rw [kernelBoot_pos hm] at hp; cases hp
  execs := fun p c pc hp => by
    by_cases hm : p = mainTid
    · subst hm; cases hp
    · rw [kernelBoot_pos hm] at hp; cases hp
  pairs := nofun
  once := nofun
  past := fun newer older p c r hs => by cases newer <;> cases hs
  delivered := fun newer older p c r hs => by cases newer <;> cases hs

theorem inv_reach (h : Lib.Reach kernelStep Lib.anyStep kernelBoot x) : Inv x :=
  h.inv inv_boot fun _ _ _ hs _ he => hs.step he

/-! A call returns. -/

/-- How many actions `process_wait` has left at most. -/
def WaitPc.left : WaitPc → Nat
  | .find => 7
  | .remove => 6
  | .test => 5
  | .mark => 4
  | .down => 3
  | .read => 2
  | .free _ => 1
  | .ret _ => 0

section
variable {y : Kernel}

theorem access_ok (h : x.access c f = .ok y) : ∃ i, x.infos c = some i ∧ f i = .ok y := by
  rw [Kernel.access] at h
  cases hi : x.infos c with
  | none => simp only [hi] at h; cases h
  | some i =>
    simp only [hi] at h
    exact ⟨i, rfl, h⟩

theorem guard_ok [Decidable P] (h : (if P then o else .blocked) = .ok y) : P ∧ o = .ok y := by
  split at h
  · next hp => exact ⟨hp, h⟩
  · cases h

theorem waitStep_ok (h : waitStep x p c pc = .ok y) (hret : ∀ r, pc ≠ .ret r) :
    ∃ pc', y.pos = update x.pos p (.wait c pc') ∧ y.log = x.log ∧ pc'.left < pc.left := by
  cases pc with
  | find =>
    rw [waitStep] at h
    cases hf : findChildInfo x.infos c (x.childInfoList p) with
    | none => simp only [hf] at h; cases h
    | some b =>
      cases b with
      | true => simp only [hf] at h; cases h; exact ⟨.remove, rfl, rfl, by decide⟩
      | false => simp only [hf] at h; cases h; exact ⟨.ret (some (-1)), rfl, rfl, by decide⟩
  | remove =>
    rw [waitStep] at h
    split at h
    · cases h; exact ⟨.test, rfl, rfl, by decide⟩
    · cases h
  | test =>
    obtain ⟨i, -, hf⟩ := access_ok h
    cases hf
    by_cases hk : (i.isWaited || i.isKilled) = true
    · rw [if_pos hk]; exact ⟨.ret (some (-1)), rfl, rfl, by decide⟩
    · rw [if_neg hk]; exact ⟨.mark, rfl, rfl, by decide⟩
  | mark =>
    obtain ⟨i, -, hf⟩ := access_ok h
    cases hf
    exact ⟨.down, rfl, rfl, by decide⟩
  | down =>
    obtain ⟨i, -, hf⟩ := access_ok h
    split at hf
    · cases hf
    · cases hf; exact ⟨.read, rfl, rfl, by decide⟩
  | read =>
    obtain ⟨i, -, hf⟩ := access_ok h
    cases hf
    exact ⟨.free i.exitStatus, rfl, rfl, by simp [WaitPc.left]⟩
  | free s =>
    obtain ⟨i, -, hf⟩ := access_ok h
    cases hf
    exact ⟨.ret s, rfl, rfl, by simp [WaitPc.left]⟩
  | ret r => exact absurd rfl (hret r)

/-- A call for a child that has ended, or was waited for before, is not blocked. -/
theorem Inv.waitStep_ne_blocked (h : Inv x) (hpos : x.pos p = .wait c pc)
    (hend : IsChild p c x.log → waited p c x.log = true ∨ x.pos c = .dead) :
    waitStep x p c pc ≠ .blocked := by
  intro hb
  cases pc with
  | find => grind [waitStep]
  | remove =>
    rw [waitStep] at hb
    split at hb <;> cases hb
  | down =>
    obtain ⟨hchild, i, hi⟩ := h.held_some hpos rfl
    have hv := h.pairs p c hchild
    have hst := stage_waiting hpos
    have hlife : (view x p c).life = .dead := by
      rcases hend hchild with hw | hd
      · -- a second call does not come this far
        rcases (hv.done hw).2.2 _ hst with hr | hr <;> cases hr
      · simp [view, hd, Pos.life]
    have hup : 0 < i.waitSema := by
      refine hv.upped hlife (fun pc hpc => ?_) i hi
      rw [hst] at hpc
      cases hpc
      rfl
    simp only [waitStep, Kernel.access, hi, if_neg (Nat.ne_of_gt hup)] at hb
    cases hb
  | test | mark | read | free s => grind [waitStep, Kernel.access]
  | ret r => cases hb

theorem Inv.returns (n : Nat) : ∀ {x : Kernel} {pc : WaitPc}, Inv x → x.pos p = .wait c pc →
    pc.left ≤ n → (IsChild p c x.log → waited p c x.log = true ∨ x.pos c = .dead) →
    ∃ m y r, Lib.run kernelStep x (List.replicate m (.go p)) = some y ∧
      y.log = .returned p c r :: x.log := by
  induction n with
  | zero =>
    intro x pc h hpos hn hend
    obtain ⟨r, rfl⟩ : ∃ r, pc = .ret r := by
      cases pc with
      | ret r => exact ⟨r, rfl⟩
      | _ => cases hn
    refine ⟨1, (x.note (.returned p c r)).goto p .running, r, ?_, rfl⟩
    simp [Lib.run, kernelStep, act, go, hpos, waitStep]
  | succ n ih =>
    intro x pc h hpos hn hend
    by_cases hret : ∃ r, pc = .ret r
    · obtain ⟨r, rfl⟩ := hret
      exact ih h hpos (Nat.zero_le _) hend
    · have hkeep := h.waitStep_keeps hpos
      have hgo : act x (.go p) = waitStep x p c pc := by simp only [act, go, hpos]
      cases hw : waitStep x p c pc with
      | bad => rw [hw] at hkeep; exact hkeep.elim
      | blocked => exact absurd hw (h.waitStep_ne_blocked hpos hend)
      | ok y =>
        obtain ⟨pc', hpos', hlog, hlt⟩ := waitStep_ok hw fun r hr => hret ⟨r, hr⟩
        have hstep : kernelStep x (.go p) = some y := kernelStep_eq_some.mpr (hgo.trans hw)
        have hend' : IsChild p c y.log → waited p c y.log = true ∨ y.pos c = .dead := by
          intro hchild
          rw [hlog] at hchild ⊢
          have hcp : c ≠ p := Ne.symm (h.apart p c hchild).1
          rw [hpos', update_of_ne hcp]
          exact hend hchild
        have hat : y.pos p = .wait c pc' := by rw [hpos', update_self]
        have hle : pc'.left ≤ n := Nat.le_of_lt_succ (Nat.lt_of_lt_of_le hlt hn)
        obtain ⟨m, z, r, hrun, hz⟩ := ih (h.step hstep) hat hle hend'
        refine ⟨m + 1, z, r, ?_, by rw [hz, hlog]⟩
        rw [List.replicate_succ, Lib.run, hstep]
        exact hrun

end

/-- What callers of `process_wait` rely on. -/
structure ExactlyOnce (x : Kernel) : Prop where
  /-- A call with a tid that is not a child, and every call for a child but the first,
      has returned -1; the first call for a child that records a status in the exit
      system call has returned it, after it was recorded. -/
  delivered : Delivered x.log
  /-- No action follows a record that was freed. -/
  safe : ∀ a, act x a ≠ .bad
  /-- A call that is not the first for a child returns -1 by the caller's actions alone. -/
  other : ∀ p c pc, x.pos p = .wait c pc → (IsChild p c x.log → waited p c x.log = true) →
    ∃ n y, Lib.run kernelStep x (List.replicate n (.go p)) = some y ∧
      y.log = .returned p c (some (-1)) :: x.log
  /-- A call for a child that has recorded its status returns it, once the child has
      taken its last action. -/
  first : ∀ p c pc s, x.pos p = .wait c pc → IsChild p c x.log → waited p c x.log = false →
    .exits c s ∈ x.log →
    ∃ acts y, (∀ a ∈ acts, a = .go c ∨ a = .go p) ∧ Lib.run kernelStep x acts = some y ∧
      y.log = .returned p c (some s) :: x.log

theorem Inv.other (h : Inv x) (hpos : x.pos p = .wait c pc)
    (hw : IsChild p c x.log → waited p c x.log = true) :
    ∃ n y, Lib.run kernelStep x (List.replicate n (.go p)) = some y ∧
      y.log = .returned p c (some (-1)) :: x.log := by
  obtain ⟨n, y, r, hrun, hlog⟩ := h.returns pc.left hpos (Nat.le_refl _) fun hc => .inl (hw hc)
  obtain ⟨h1, h2, -⟩ := (h.run _ hrun).delivered [] x.log p c r hlog
  have hr : r = some (-1) := by grind
  exact ⟨n, y, hrun, hr ▸ hlog⟩

theorem Inv.first_dead (h : Inv x) (hpos : x.pos p = .wait c pc) (hc : IsChild p c x.log)
    (hw : waited p c x.log = false) (hs : .exits c s ∈ x.log) (hdead : x.pos c = .dead) :
    ∃ n y, Lib.run kernelStep x (List.replicate n (.go p)) = some y ∧
      y.log = .returned p c (some s) :: x.log := by
  obtain ⟨n, y, r, hrun, hlog⟩ := h.returns pc.left hpos (Nat.le_refl _) fun _ => .inr hdead
  obtain ⟨-, -, h3⟩ := (h.run _ hrun).delivered [] x.log p c r hlog
  have hin : Entry.exits c s ∈ y.log := hlog ▸ List.mem_cons_of_mem _ hs
  exact ⟨n, y, hrun, (h3 hc hw s hin).2 ▸ hlog⟩

theorem Pos.life_dead (h : pos.life = .dead) : pos = .dead := by
  cases pos <;> first | rfl | cases h

theorem Pos.life_exiting (h : pos.life = .exiting) : pos = .exiting := by
  cases pos <;> first | rfl | cases h

theorem Inv.first (h : Inv x) (hpos : x.pos p = .wait c pc) (hc : IsChild p c x.log)
    (hw : waited p c x.log = false) (hs : .exits c s ∈ x.log) :
    ∃ acts y, (∀ a ∈ acts, a = .go c ∨ a = .go p) ∧ Lib.run kernelStep x acts = some y ∧
      y.log = .returned p c (some s) :: x.log := by
  obtain ⟨hpc, hmain, hborn⟩ := h.apart p c hc
  rcases ((h.pairs p c hc).status s (h.once c s hs)).1 with hl | hl
  · -- the child has one action left
    have hexit : x.pos c = .exiting := Pos.life_exiting hl
    obtain ⟨i, hi⟩ := h.own_some hmain hborn (by rw [hexit]; exact nofun)
    let i' := { i with execSema := i.execSema + 1, waitSema := i.waitSema + 1 }
    let z := ({ x with execUps := update x.execUps c (x.execUps c + 1) }.setInfo c
      (some i')).goto c .dead
    have hstep : kernelStep x (.go c) = some z := by
      simp only [kernelStep, act, go, hexit, Kernel.access, hi, z, i']
    have hzpos : z.pos p = .wait c pc := (update_of_ne hpc ..).trans hpos
    obtain ⟨n, y, hrun, hlog⟩ := (h.step hstep).first_dead hzpos hc hw hs (update_self ..)
    refine ⟨.go c :: List.replicate n (.go p), y, fun a ha => ?_, ?_, hlog⟩
    · grind
    · rw [Lib.run, hstep]
      exact hrun
  · obtain ⟨n, y, hrun, hlog⟩ := h.first_dead hpos hc hw hs (Pos.life_dead hl)
    exact ⟨_, y, fun a ha => .inr (List.eq_of_mem_replicate ha), hrun, hlog⟩

/-- Exit statuses are delivered exactly once, in every interleaving. -/
theorem exit_status_delivered {x : Kernel} (hx : Lib.Reach kernelStep Lib.anyStep kernelBoot x) :
    ExactlyOnce x where
  delivered := (inv_reach hx).delivered
  safe := fun a hbad => by
    have hk := (inv_reach hx).act_keeps a
    rw [hbad] at hk
    exact hk
  other := fun _ _ _ hpos hw => (inv_reach hx).other hpos hw
  first := fun _ _ _ _ hpos hc hw hs => (inv_reach hx).first hpos hc hw hs

/-- The initial thread makes a process and waits for it; the process exits with 7
    while its parent is between the search and the wait. -/
theorem exit_status_delivered_seven :
    ∃ x, Lib.Reach kernelStep Lib.anyStep kernelBoot x ∧ .exits 2 7 ∈ x.log ∧
      x.pos mainTid = .wait 2 .test ∧ ExactlyOnce x := by
  obtain ⟨x, hx, hq⟩ := Lib.exists_reach kernelStep (C := Lib.anyStep) (c := fun _ _ => true)
    kernelBoot [.create mainTid false, .wait mainTid 2, .go mainTid, .loaded 2, .go mainTid, .exit 2 7]
    (fun x => decide (.exits 2 7 ∈ x.log) && decide (x.pos mainTid = .wait 2 .test))
    (fun _ _ _ => trivial) (by decide) (by decide)
  rw [Bool.and_eq_true, decide_eq_true_eq, decide_eq_true_eq] at hq
  exact ⟨x, hx, hq.1, hq.2, exit_status_delivered hx⟩

end Pintos.Userprog
