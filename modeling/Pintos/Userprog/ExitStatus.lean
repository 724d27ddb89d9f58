import Pintos.Userprog.Wait

/- Exit statuses are delivered exactly once.

   What matters of the whole kernel to one parent and one of its children is a
   small record, `View`: where the parent is as far as this child is concerned,
   how far the child is, the child's `thread_info`, whether it is still listed,
   whether a wait for it has returned and which status it has recorded. `ViewOk`
   says which views there are. Every action of the kernel changes the view of one
   pair only, and there it keeps `ViewOk` (`Inv.ofParent`, `Inv.ofChild` and
   `Inv.ofCreate`, by who acts); `exit_status_delivered` reads off the views what holds
   after every interleaving. -/
namespace Pintos.Userprog

open Function

/-! The view of one parent and one child. -/

/-- Where a parent is, as far as one child is concerned. -/
inductive Stage where
  | out
  | waiting (pc : WaitPc)
  | execing (pc : ExecPc)
  deriving DecidableEq

variable {c d p q : Tid} {log : List Entry} {i i' : ThreadInfo} {r : Option Int} {x y : Kernel}
  {st : Stage} {s : Int}

def Pos.stage (c : Tid) : Pos → Stage
  | .wait d pc => if d = c then .waiting pc else .out
  | .exec d pc => if d = c then .execing pc else .out
  | _ => .out

/-- How far a thread is on its way out. -/
inductive Life where
  | live
  | killing
  | exiting
  | dead
  deriving DecidableEq

def Pos.life : Pos → Life
  | .killing => .killing
  | .exiting => .exiting
  | .dead => .dead
  | _ => .live

/-- `p` made `c`. -/
def IsChild (p c : Tid) (log : List Entry) : Prop := .created p c ∈ log

/-- Whether a wait of `p` for `c` has returned since `c` was made. -/
def waited (p c : Tid) : List Entry → Bool
  | [] => false
  | .returned q d _ :: l => (q == p && d == c) || waited p c l
  | .created q d :: l => !(q == p && d == c) && waited p c l
  | .exits _ _ :: l => waited p c l

/-- The status a thread has recorded through the exit system call. -/
def statusOf (c : Tid) : List Entry → Option Int
  | [] => none
  | .exits d s :: l => if d = c then some s else statusOf c l
  | _ :: l => statusOf c l

structure View where
  stage : Stage
  life : Life
  info : Option ThreadInfo
  listed : Bool
  waited : Bool
  status : Option Int

def view (x : Kernel) (p c : Tid) : View where
  stage := (x.pos p).stage c
  life := (x.pos c).life
  info := x.infos c
  listed := decide (c ∈ x.childInfoList p)
  waited := waited p c x.log
  status := statusOf c x.log

/-- The parent has taken the record off its list and has not freed it. -/
@[grind] def WaitPc.holds : WaitPc → Bool
  | .test | .mark | .down | .read | .free _ => true
  | _ => false

/-- The parent has downed `wait_sema`. -/
@[grind] def WaitPc.downed : WaitPc → Bool
  | .read | .free _ => true
  | _ => false

@[grind cases] structure ViewOk (v : View) : Prop where
  /-- A listed child has not been waited for, and its record is there. -/
  listed : v.listed = true → v.waited = false ∧ (∀ i, v.info = some i → i.isWaited = false) ∧
    v.info ≠ none ∧ ∀ pc, v.stage = .waiting pc → pc = .find ∨ pc = .remove
  /-- A child that is neither listed nor waited for is in the hands of its parent. -/
  taken : v.listed = false → v.waited = false →
    ∃ pc, v.stage = .waiting pc ∧ (pc.holds = true ∨ ∃ r, pc = .ret r)
  done : v.waited = true → v.listed = false ∧ v.life ≠ .live ∧
    ∀ pc, v.stage = .waiting pc → pc = .find ∨ pc = .ret (some (-1))
  exec : ∀ pc, v.stage = .execing pc → v.listed = true
  remove : v.stage = .waiting .remove → v.listed = true
  holds : ∀ pc, v.stage = .waiting pc → pc.holds = true → v.listed = false ∧ v.info ≠ none
  test : v.stage = .waiting .test → ∀ i, v.info = some i → i.isWaited = false
  downed : ∀ pc, v.stage = .waiting pc → pc.downed = true → v.life = .dead
  free : ∀ s, v.stage = .waiting (.free s) → ∀ i, v.info = some i → s = i.exitStatus
  ret : ∀ r, v.stage = .waiting (.ret r) → v.waited = false →
    v.life ≠ .live ∧ ∀ s, v.status = some s → r = some s
  /-- A child that has not ended has its record, and has not upped `wait_sema`. -/
  live : v.life ≠ .dead → ∃ i, v.info = some i ∧ i.waitSema = 0
  upped : v.life = .dead → (∀ pc, v.stage = .waiting pc → pc.downed = false) →
    ∀ i, v.info = some i → 0 < i.waitSema
  status : ∀ s, v.status = some s → (v.life = .exiting ∨ v.life = .dead) ∧
    ∀ i, v.info = some i → i.exitStatus = some s ∧ i.isKilled = false
  killed : ∀ i, v.info = some i → i.isKilled = true → v.life ≠ .live

/-! What the parent does. -/

section
variable {v : View} {pc : WaitPc}

section
variable (h : ViewOk v)
include h

theorem ViewOk.call (hst : v.stage = .out) : ViewOk { v with stage := .waiting .find } := by
  constructor <;> grind

theorem ViewOk.found (hst : v.stage = .waiting .find) (hl : v.listed = true) :
    ViewOk { v with stage := .waiting .remove } := by
  have hw := (h.listed hl).1
  constructor <;> grind

theorem ViewOk.notFound (hst : v.stage = .waiting .find) (hl : v.listed = false) :
    ViewOk { v with stage := .waiting (.ret (some (-1))) } := by
  -- nobody has taken the record, so the child was waited for before
  have hw : v.waited = true := by grind
  constructor <;> grind

theorem ViewOk.removed (hst : v.stage = .waiting .remove) :
    ViewOk { v with stage := .waiting .test, listed := false } := by
  obtain ⟨hw, hnot, hsome, -⟩ := h.listed (h.remove hst)
  constructor <;> grind

theorem ViewOk.held (hst : v.stage = .waiting pc) (hh : pc.holds = true) :
    v.listed = false ∧ v.waited = false := by
  grind

/-- The test fails for a child that was killed: it will not record a status. -/
theorem ViewOk.refused (hst : v.stage = .waiting .test) (hi : v.info = some i)
    (hkill : (i.isWaited || i.isKilled) = true) :
    ViewOk { v with stage := .waiting (.ret (some (-1))) } := by
  obtain ⟨hl, hw⟩ := h.held hst rfl
  have hk : i.isKilled = true := by
    rw [h.test hst i hi, Bool.false_or] at hkill
    exact hkill
  constructor <;> grind

/-- Between two places at which the parent holds the record, with a change to it
    that the child does not notice. -/
theorem ViewOk.hold (pc' : WaitPc) (i' : ThreadInfo) (hst : v.stage = .waiting pc)
    (hh : pc.holds = true) (hh' : pc'.holds = true) (htest : pc' ≠ .test) (hi : v.info = some i)
    (hexit : i'.exitStatus = i.exitStatus) (hkill : i'.isKilled = i.isKilled)
    (hlive : v.life ≠ .dead → i'.waitSema = i.waitSema) (hdown : pc'.downed = true → v.life = .dead)
    (hup : pc'.downed = false → pc.downed = false ∧ i'.waitSema = i.waitSema)
    (hfree : ∀ s, pc' = .free s → s = i'.exitStatus) :
    ViewOk { v with stage := .waiting pc', info := some i' } := by
  obtain ⟨hl, hw⟩ := h.held hst hh
  constructor <;> grind

theorem ViewOk.freed {s : Option Int} (hst : v.stage = .waiting (.free s)) :
    ViewOk { v with stage := .waiting (.ret s), info := none } := by
  obtain ⟨hl, hw⟩ := h.held hst rfl
  have hdead : v.life = .dead := h.downed _ hst rfl
  obtain ⟨i, hi⟩ := Option.ne_none_iff_exists'.mp (h.holds _ hst rfl).2
  constructor <;> grind

theorem ViewOk.returned (hst : v.stage = .waiting (.ret r)) :
    ViewOk { v with stage := .out, waited := true } := by
  have hl : v.listed = false := by grind
  have hpast : v.life ≠ .live := by grind
  constructor <;> grind

/-- `handle_exec` with a listed child, whose record changes in nothing that counts. -/
theorem ViewOk.atExec (hl : v.listed = true) (hst : ∀ pc, st ≠ .waiting pc) (hi : v.info = some i)
    (hexit : i'.exitStatus = i.exitStatus) (hkill : i'.isKilled = i.isKilled)
    (hwaited : i'.isWaited = i.isWaited) (hsema : i'.waitSema = i.waitSema) :
    ViewOk { v with stage := st, info := some i' } := by
  obtain ⟨hw, hnot, -, hpc⟩ := h.listed hl
  constructor <;> grind

/-! What the child does. -/

/-- The child goes on towards its end: it writes to its record, and ups `wait_sema`
    when it dies. -/
theorem ViewOk.ends (hlife : v.life ≠ .dead) {l : Life} (hl : l ≠ .live) (hi : v.info = some i)
    (hwaited : i'.isWaited = i.isWaited)
    (hsema : (l ≠ .dead ∧ i'.waitSema = i.waitSema) ∨ (l = .dead ∧ 0 < i'.waitSema))
    {st : Option Int}
    (hst : ∀ s, st = some s →
      (l = .exiting ∨ l = .dead) ∧ i'.exitStatus = some s ∧ i'.isKilled = false)
    (hret : v.life = .live ∨ st = v.status) :
    ViewOk { v with life := l, info := some i', status := st } := by
  -- the parent cannot have downed a semaphore that has not been upped
  have hno : ∀ pc, v.stage = .waiting pc → pc.downed = false := by grind
  constructor <;> grind

end

end

theorem viewOk_new (hst : ∀ pc, st ≠ .waiting pc) :
    ViewOk ⟨st, .live, some newInfo, true, false, none⟩ := by
  constructor <;> grind [newInfo]

/-! The whole kernel. -/

/-- What each returned call returned, in terms of what had happened before it. -/
def Delivered (log : List Entry) : Prop :=
  ∀ newer older p c r, log = newer ++ .returned p c r :: older →
    (¬ IsChild p c older → r = some (-1)) ∧
    (IsChild p c older → waited p c older = true → r = some (-1)) ∧
    (IsChild p c older → waited p c older = false → ∀ s, .exits c s ∈ log →
      .exits c s ∈ older ∧ r = some s)

structure Inv (x : Kernel) : Prop where
  fresh : ∀ c, x.nextTid ≤ c → x.pos c = .unborn ∧ x.childInfoList c = [] ∧
    (∀ p, ¬ IsChild p c x.log) ∧ ∀ s, .exits c s ∉ x.log
  next : mainTid < x.nextTid
  main : (x.pos mainTid).life = .live
  parent : ∀ p q c, IsChild p c x.log → IsChild q c x.log → p = q
  apart : ∀ p c, IsChild p c x.log → p ≠ c ∧ c ≠ mainTid ∧ x.pos c ≠ .unborn
  born : ∀ c, x.pos c ≠ .unborn → c ≠ mainTid → ∃ p, IsChild p c x.log
  kids : ∀ p c, c ∈ x.childInfoList p → IsChild p c x.log
  nodup : ∀ p, (x.childInfoList p).Nodup
  stranger : ∀ p c pc, x.pos p = .wait c pc → ¬ IsChild p c x.log →
    pc = .find ∨ pc = .ret (some (-1))
  execs : ∀ p c pc, x.pos p = .exec c pc → IsChild p c x.log
  pairs : ∀ p c, IsChild p c x.log → ViewOk (view x p c)
  once : ∀ c s, .exits c s ∈ x.log → statusOf c x.log = some s
  past : ∀ newer older p c r, x.log = newer ++ .returned p c r :: older → IsChild p c older →
    (x.pos c).life ≠ .live
  delivered : Delivered x.log

theorem mem_of_statusOf : ∀ {log : List Entry}, statusOf c log = some s →
    .exits c s ∈ log
  | .exits d t :: l, h => by
    rw [statusOf] at h
    split at h
    · next hd => cases h; rw [hd]; exact List.mem_cons_self ..
    · exact List.mem_cons_of_mem _ (mem_of_statusOf h)
  | .created _ _ :: l, h => List.mem_cons_of_mem _ (mem_of_statusOf (show statusOf c l = some s from h))
  | .returned _ _ _ :: l, h => List.mem_cons_of_mem _ (mem_of_statusOf (show statusOf c l = some s from h))

theorem isChild_returned : IsChild p c (.returned q d r :: log) ↔ IsChild p c log := by
  simp [IsChild]

theorem isChild_exits : IsChild p c (.exits q s :: log) ↔ IsChild p c log := by
  simp [IsChild]

theorem waited_returned_ne (h : ¬(q = p ∧ d = c)) :
    waited p c (.returned q d r :: log) = waited p c log := by
  have hno : (q == p && d == c) = false := by simpa using h
  rw [waited, hno, Bool.false_or]

theorem split_cons {e e' : Entry} {newer older : List Entry}
    (h : e :: log = newer ++ e' :: older) :
    (newer = [] ∧ e = e' ∧ log = older) ∨ ∃ newer', newer = e :: newer' ∧
      log = newer' ++ e' :: older := by
  cases newer with
  | nil =>
    cases h
    exact .inl ⟨rfl, rfl, rfl⟩
  | cons a newer => grind

/-- The thread is running, or at work on the child `d`. -/
def Pos.On (d : Tid) (pos : Pos) : Prop :=
  pos = .running ∨ (∃ pc, pos = .wait d pc) ∨ ∃ pc, pos = .exec d pc

theorem Pos.On.facts {pos : Pos} (h : pos.On d) :
    pos ≠ .unborn ∧ pos.life = .live ∧ ∀ c ≠ d, pos.stage c = .out := by
  rcases h with rfl | ⟨pc, rfl⟩ | ⟨pc, rfl⟩
  · exact ⟨nofun, rfl, fun _ _ => rfl⟩
  · exact ⟨nofun, rfl, fun c hc => if_neg (Ne.symm hc)⟩
  · exact ⟨nofun, rfl, fun c hc => if_neg (Ne.symm hc)⟩

/-- The rule for an action of a parent `q` on its child `d`, or on a tid `d` that
    is not its child. -/
theorem Inv.ofParent (h : Inv x) (hnext : y.nextTid = x.nextTid) (hpos : ∀ p ≠ q, y.pos p = x.pos p)
    (hinfos : ∀ c ≠ d, y.infos c = x.infos c)
    (hlist : ∀ p ≠ q, y.childInfoList p = x.childInfoList p)
    (hsub : (y.childInfoList q).Sublist (x.childInfoList q))
    (hkeep : ∀ c ≠ d, c ∈ x.childInfoList q → c ∈ y.childInfoList q) (hold : (x.pos q).On d)
    (hnew : (y.pos q).On d)
    (hlog : y.log = x.log ∨ ∃ r, y.log = .returned q d r :: x.log ∧ x.pos q = .wait d (.ret r))
    (hstr : ¬ IsChild q d x.log → y.infos d = x.infos d ∧ (y.pos q = .running ∨
      y.pos q = .wait d .find ∨ y.pos q = .wait d (.ret (some (-1)))))
    (hview : IsChild q d x.log → ViewOk (view y q d)) : Inv y := by
  obtain ⟨hborn, hlive, hstage⟩ := hold.facts
  obtain ⟨hborn', hlive', hstage'⟩ := hnew.facts
  have hchild : ∀ {p c}, IsChild p c y.log ↔ IsChild p c x.log := by grind [isChild_returned]
  have hexits : ∀ {c s}, Entry.exits c s ∈ y.log ↔ Entry.exits c s ∈ x.log := by grind
  have hstatus : ∀ c, statusOf c y.log = statusOf c x.log := by
    intro c
    rcases hlog with hl | ⟨r, hl, -⟩
    · rw [hl]
    · rw [hl]; rfl
  have hwaited : ∀ p c, ¬(q = p ∧ d = c) → waited p c y.log = waited p c x.log := by
    grind [waited_returned_ne]
  have hlife : ∀ c, (y.pos c).life = (x.pos c).life := by grind
  have hunborn : ∀ c, y.pos c = .unborn ↔ x.pos c = .unborn := by grind
  constructor
  case fresh => grind [h.fresh]
  case next => exact hnext ▸ h.next
  case main => exact (hlife mainTid).trans h.main
  case parent => grind [h.parent]
  case apart => grind [h.apart]
  case born => grind [h.born]
  case kids => grind [h.kids, hsub.subset]
  case nodup => grind [h.nodup, hsub.nodup]
  case stranger => grind [h.stranger, Pos.On]
  case execs => grind [h.execs, Pos.On]
  case pairs =>
    intro p c hp
    have hpx := hchild.mp hp
    by_cases hpc : q = p ∧ d = c
    · obtain ⟨rfl, rfl⟩ := hpc
      exact hview hpx
    · suffices heq : view y p c = view x p c by rw [heq]; exact h.pairs p c hpx
      have hinfo : y.infos c = x.infos c := by grind [h.parent]
      have hst : (y.pos p).stage c = (x.pos p).stage c := by grind
      have hin : c ∈ y.childInfoList p ↔ c ∈ x.childInfoList p := by grind
      simp only [view, hst, hlife c, hinfo, hin, hwaited p c hpc, hstatus c]
  case once => exact fun c s hs => (hstatus c).trans (h.once c s (hexits.mp hs))
  case past =>
    intro newer older p c r hs hp
    rw [hlife c]
    rcases hlog with hl | ⟨r', hl, hret⟩
    · exact h.past newer older p c r (hl ▸ hs) hp
    · rw [hl] at hs
      rcases split_cons hs with ⟨-, heq, rfl⟩ | ⟨newer', -, hs'⟩
      · cases heq
        have hv := h.pairs q d hp
        have hst : (view x q d).stage = .waiting (.ret r) := by simp [view, hret, Pos.stage]
        cases hw : (view x q d).waited with
        | true => exact (hv.done hw).2.1
        | false => exact (hv.ret r hst hw).1
      · exact h.past newer' older p c r hs' hp
  case delivered =>
    intro newer older p c r hs
    rcases hlog with hl | ⟨r', hl, hret⟩
    · rw [hl] at hs ⊢
      exact h.delivered newer older p c r hs
    · rw [hl] at hs
      rcases split_cons hs with ⟨-, heq, rfl⟩ | ⟨newer', -, hs'⟩
      · cases heq
        have hst : (view x q d).stage = .waiting (.ret r) := by simp [view, hret, Pos.stage]
        refine ⟨fun hno => ?_, fun hc hw => ?_, fun hc hw s hin => ?_⟩
        · grind [h.stranger]
        · rcases ((h.pairs q d hc).done hw).2.2 _ hst with hr | hr
          · cases hr
          · cases hr; rfl
        · have hin' : Entry.exits d s ∈ x.log := hexits.mp hin
          exact ⟨hin', ((h.pairs q d hc).ret r hst hw).2 s (h.once d s hin')⟩
      · obtain ⟨h1, h2, h3⟩ := h.delivered newer' older p c r hs'
        exact ⟨h1, h2, fun hc hw s hin => h3 hc hw s (hexits.mp hin)⟩

theorem Inv.ofChild (h : Inv x) (hmain : q ≠ mainTid) (hnext : y.nextTid = x.nextTid)
    (hpos : ∀ p ≠ q, y.pos p = x.pos p) (hinfos : ∀ c ≠ q, y.infos c = x.infos c)
    (hlist : y.childInfoList = x.childInfoList)
    (hold : x.pos q ≠ .unborn ∧ ∀ c, (x.pos q).stage c = .out)
    (hnew : (y.pos q).life ≠ .live ∧ ∀ c, (y.pos q).stage c = .out)
    (hlog : y.log = x.log ∨ ∃ s, y.log = .exits q s :: x.log ∧ x.pos q = .running)
    (hview : ∀ p, IsChild p q x.log → ViewOk (view y p q)) : Inv y := by
  have hborn' : y.pos q ≠ .unborn := fun hu => hnew.1 (by rw [hu]; rfl)
  have hchild : ∀ {p c}, IsChild p c y.log ↔ IsChild p c x.log := by grind [isChild_exits]
  have hwaited : ∀ p c, waited p c y.log = waited p c x.log := by
    intro p c
    rcases hlog with hl | ⟨s, hl, -⟩
    · rw [hl]
    · rw [hl]; rfl
  have hstatus : ∀ c ≠ q, statusOf c y.log = statusOf c x.log := by
    intro c hc
    rcases hlog with hl | ⟨s, hl, -⟩
    · rw [hl]
    · rw [hl]; exact if_neg (Ne.symm hc)
  have hexits : ∀ {c s}, Entry.exits c s ∈ y.log →
      Entry.exits c s ∈ x.log ∨ (c = q ∧ x.pos q = .running ∧ statusOf q y.log = some s) := by
    intro c s hin
    rcases hlog with hl | ⟨s', hl, hrun⟩
    · exact .inl (hl ▸ hin)
    · rw [hl] at hin
      rcases List.mem_cons.mp hin with heq | hin
      · cases heq
        exact .inr ⟨rfl, hrun, by rw [hl]; exact if_pos rfl⟩
      · exact .inl hin
  -- a thread that is still running has recorded nothing
  have hnone : x.pos q = .running → ∀ s, Entry.exits q s ∉ x.log := by
    intro hrun s hs
    obtain ⟨p, hp⟩ := h.born q hold.1 hmain
    have hst : (view x p q).status = some s := h.once q s hs
    rcases ((h.pairs p q hp).status s hst).1 with hl | hl
    · simp [view, hrun, Pos.life] at hl
    · simp [view, hrun, Pos.life] at hl
  have hunborn : ∀ c, y.pos c = .unborn ↔ x.pos c = .unborn := by grind
  -- the thread is at work on no child
  have hidle : ∀ c, (∀ pc, y.pos q ≠ .wait c pc) ∧ ∀ pc, y.pos q ≠ .exec c pc := by
    intro c
    have hst := hnew.2 c
    constructor <;> intro pc hq <;> simp [hq, Pos.stage] at hst
  constructor
  case fresh => grind [h.fresh]
  case next => exact hnext ▸ h.next
  case main => exact hpos mainTid (Ne.symm hmain) ▸ h.main
  case parent => grind [h.parent]
  case apart => grind [h.apart]
  case born => grind [h.born]
  case kids => exact fun p c hc => hchild.mpr (h.kids p c (hlist ▸ hc))
  case nodup => exact fun p => hlist ▸ h.nodup p
  case stranger => grind [h.stranger]
  case execs => grind [h.execs]
  case pairs =>
    intro p c hp
    have hpx := hchild.mp hp
    by_cases hc : c = q
    · subst hc
      exact hview p hpx
    · suffices heq : view y p c = view x p c by rw [heq]; exact h.pairs p c hpx
      have hst : (y.pos p).stage c = (x.pos p).stage c := by grind
      simp only [view, hst, hpos c hc, hinfos c hc, hlist, hwaited p c, hstatus c hc]
  case once =>
    intro c s hs
    rcases hexits hs with hin | ⟨rfl, -, hst⟩
    · grind [h.once]
    · exact hst
  case past =>
    intro newer older p c r hs hp
    by_cases hc : c = q
    · rw [hc]; exact hnew.1
    · grind [h.past, split_cons]
  case delivered =>
    intro newer older p c r hs
    have hsplit : ∃ newer', x.log = newer' ++ .returned p c r :: older := by grind [split_cons]
    obtain ⟨newer', hs'⟩ := hsplit
    obtain ⟨h1, h2, h3⟩ := h.delivered newer' older p c r hs'
    refine ⟨h1, h2, fun hc hw s hin => ?_⟩
    rcases hexits hin with hin | ⟨rfl, hrun, -⟩
    · exact h3 hc hw s hin
    · -- a wait for it has returned, so it is not running any more
      have hl := h.past newer' older p c r hs' hc
      rw [hrun] at hl
      exact absurd rfl hl

theorem Inv.ofCreate (h : Inv x) (hrun : x.pos p = .running) {pos : Tid → Pos}
    (hpos : pos x.nextTid = .running ∨ pos x.nextTid = .exec x.nextTid .find) :
    Inv (create x p pos) := by
  obtain ⟨hun, hnil, hnoparent, hnoexit⟩ := h.fresh x.nextTid (Int.le_refl _)
  have hpc : p ≠ x.nextTid := by
    intro heq
    rw [heq, hun] at hrun
    cases hrun
  have hon : (pos x.nextTid).On x.nextTid := by
    rcases hpos with hr | hr
    · exact .inl hr
    · exact .inr (.inr ⟨_, hr⟩)
  obtain ⟨hborn, hlive, hstage⟩ := hon.facts
  have hchild : ∀ {q c}, IsChild q c (create x p pos).log ↔
      (q = p ∧ c = x.nextTid) ∨ IsChild q c x.log := by
    intro q c
    simp [create, IsChild]
  have hposc : (create x p pos).pos x.nextTid = .loading := update_self ..
  have hposp : (create x p pos).pos p = pos x.nextTid := by
    simp [create, update_of_ne hpc]
  have hposo : ∀ q, q ≠ p → q ≠ x.nextTid → (create x p pos).pos q = x.pos q := by
    intro q hqp hqc
    simp [create, update_of_ne hqc, update_of_ne hqp]
  have hexits : ∀ {c s}, Entry.exits c s ∈ (create x p pos).log ↔ Entry.exits c s ∈ x.log := by
    intro c s
    simp [create]
  have hunborn : ∀ c ≠ x.nextTid, ((create x p pos).pos c = .unborn ↔ x.pos c = .unborn) := by grind
  have hlife : ∀ c ≠ x.nextTid, ((create x p pos).pos c).life = (x.pos c).life := by
    intro c hc
    by_cases hcp : c = p
    · rw [hcp, hposp, hlive, hrun]; rfl
    · rw [hposo c hcp hc]
  have hnew : IsChild p x.nextTid (create x p pos).log := hchild.mpr (.inl ⟨rfl, rfl⟩)
  have hnext : (create x p pos).nextTid = x.nextTid + 1 := rfl
  have hlistp : (create x p pos).childInfoList p = x.childInfoList p ++ [x.nextTid] :=
    update_self ..
  have hlisto : ∀ q ≠ p, (create x p pos).childInfoList q = x.childInfoList q :=
    fun q hq => update_of_ne hq ..
  constructor
  case fresh => grind [h.fresh]
  case next => exact Int.lt_add_one_of_le (Int.le_of_lt h.next)
  case main => rw [hlife mainTid (Int.ne_of_lt h.next)]; exact h.main
  case parent => grind [h.parent]
  case apart => grind [h.apart, h.next]
  case born => grind [h.born]
  case kids => grind [h.kids]
  case nodup =>
    intro q
    by_cases hqp : q = p
    · subst hqp
      rw [hlistp, List.nodup_append]
      refine ⟨h.nodup q, by simp, fun a ha b hb heq => ?_⟩
      rw [List.mem_singleton] at hb
      exact hnoparent q (hb ▸ heq ▸ h.kids q a ha)
    · exact hlisto q hqp ▸ h.nodup q
  case stranger => grind [h.stranger]
  case execs => grind [h.execs]
  case pairs =>
    intro q c hq
    rcases hchild.mp hq with ⟨rfl, rfl⟩ | hq
    · have hst : statusOf x.nextTid x.log = none := by
        refine Option.eq_none_iff_forall_ne_some.mpr fun s hs => hnoexit s ?_
        exact mem_of_statusOf hs
      have hv : view (create x q pos) q x.nextTid =
          ⟨(pos x.nextTid).stage x.nextTid, .live, some newInfo, true, false, none⟩ := by
        simp only [view, hposp, hposc]
        simp [create, Pos.life, waited, statusOf, hst]
      rw [hv]
      refine viewOk_new fun pc hpc' => ?_
      rcases hpos with hr | hr
      · rw [hr] at hpc'; cases hpc'
      · rw [hr, Pos.stage, if_pos rfl] at hpc'; cases hpc'
    · have hcn : c ≠ x.nextTid := fun heq => hnoparent q (heq ▸ hq)
      suffices heq : view (create x p pos) q c = view x q c by rw [heq]; exact h.pairs q c hq
      have hst : ((create x p pos).pos q).stage c = (x.pos q).stage c := by
        by_cases hqn : q = x.nextTid
        · rw [hqn, hposc, hun]; rfl
        · by_cases hqp : q = p
          · rw [hqp, hposp, hstage c hcn, hrun]; rfl
          · rw [hposo q hqp hqn]
      have hin : c ∈ (create x p pos).childInfoList q ↔ c ∈ x.childInfoList q := by grind
      have hinfo : (create x p pos).infos c = x.infos c := update_of_ne hcn ..
      have hw : waited q c (create x p pos).log = waited q c x.log := by
        simp [create, waited, Ne.symm hcn]
      have hs : statusOf c (create x p pos).log = statusOf c x.log := rfl
      simp only [view, hst, hlife c hcn, hinfo, hin, hw, hs]
  case once => exact fun c s hs => h.once c s (hexits.mp hs)
  case past =>
    intro newer older q c r hs hq
    rcases split_cons hs with ⟨-, heq, -⟩ | ⟨newer', -, hs'⟩
    · cases heq
    · have hqx : IsChild q c x.log := by
        rw [hs']
        exact List.mem_append_right _ (List.mem_cons_of_mem _ hq)
      rw [hlife c fun heq => hnoparent q (heq ▸ hqx)]
      exact h.past newer' older q c r hs' hq
  case delivered =>
    intro newer older q c r hs
    rcases split_cons hs with ⟨-, heq, -⟩ | ⟨newer', -, hs'⟩
    · cases heq
    · obtain ⟨h1, h2, h3⟩ := h.delivered newer' older q c r hs'
      exact ⟨h1, h2, fun hc hw s hin => h3 hc hw s (hexits.mp hin)⟩

end Pintos.Userprog
