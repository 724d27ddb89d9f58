import Pintos.Userprog.Delivery

/- The handshake of `handle_exec` with the process it makes.

   The parent downs the child's `exec_sema` and then reads `load_success`. Only
   `thread_exit` ups that semaphore: `start_process` does so on its failing path,
   through `thread_exit`, but goes to user mode without it when the load succeeds.
   So the parent never resumes too early and reports what became of the load, and it
   waits for the child's life. -/
namespace Pintos.Userprog

open Function

/-- A thread that is alive and past its load. -/
def Pos.past : Pos → Bool
  | .unborn | .loading | .dead => false
  | _ => true

structure ExecInv (x : Kernel) : Prop where
  alive : ∀ c, x.pos c ≠ .dead → x.execUps c = 0
  dead : ∀ c, x.pos c = .dead → x.execUps c = 1
  sema : ∀ c i, x.infos c = some i → i.execSema ≤ x.execUps c
  flag : ∀ c i, x.infos c = some i → (i.loadSuccess = false ↔ x.loads c = some false)
  early : ∀ c, x.pos c = .loading ∨ x.pos c = .unborn → x.loads c = none
  decided : ∀ c, x.pos c ≠ .loading → x.pos c ≠ .unborn → c ≠ mainTid → x.loads c ≠ none
  waits : ∀ p c pc, x.pos p = .exec c pc → mainTid < c
  reads : ∀ p c, x.pos p = .exec c .read → x.pos c = .dead
  returned : ∀ e ∈ x.execLog, mainTid < e.child ∧
    ∃ ok, e.load = some ok ∧ e.result = if ok then e.child else -1

section
variable {x y : Kernel} {p q d : Tid} {pos : Pos} {i i' : ThreadInfo} {log : List Entry}
  {ok : Bool}

/-- A thread past its load moves on. It may write to records or free them, but takes
    no flag back and ups no semaphore. -/
theorem ExecInv.moves (h : ExecInv x) (hold : (x.pos q).past = true) (hnew : pos.past = true)
    (hpos : y.pos = update x.pos q pos) (hloads : y.loads = x.loads) (hups : y.execUps = x.execUps)
    (hlog : y.execLog = x.execLog)
    (hinfo : ∀ c i, y.infos c = some i → ∃ i', x.infos c = some i' ∧ i.execSema ≤ i'.execSema ∧
      i.loadSuccess = i'.loadSuccess)
    (hexec : ∀ c pc, pos = .exec c pc → mainTid < c ∧ (pc = .read → x.pos c = .dead)) :
    ExecInv y := by
  have hq : y.pos q = pos := by rw [hpos, update_self]
  have hne : ∀ c ≠ q, y.pos c = x.pos c := fun c hc => by rw [hpos, update_of_ne hc]
  have hdead : ∀ c, y.pos c = .dead ↔ x.pos c = .dead := by
    intro c
    by_cases hc : c = q
    · subst hc
      rw [hq]
      constructor
      · rintro rfl; cases hnew
      · intro hd; rw [hd] at hold; cases hold
    · rw [hne c hc]
  have hearly : ∀ c, y.pos c = .loading ∨ y.pos c = .unborn ↔ x.pos c = .loading ∨ x.pos c = .unborn := by
    intro c
    by_cases hc : c = q
    · subst hc
      rw [hq]
      constructor
      · rintro (rfl | rfl) <;> cases hnew
      · rintro (hd | hd) <;> rw [hd] at hold <;> cases hold
    · rw [hne c hc]
  have hat : ∀ p c pc, y.pos p = .exec c pc → mainTid < c ∧ (pc = .read → x.pos c = .dead) := by
    grind [h.waits, h.reads]
  refine ⟨fun c hc => ?_, fun c hc => ?_, fun c i hi => ?_, fun c i hi => ?_, fun c hc => ?_,
    fun c h₁ h₂ => ?_, fun p c pc hp => (hat p c pc hp).1, fun p c hp => ?_, ?_⟩
  · rw [hups]; exact h.alive c fun hd => hc ((hdead c).mpr hd)
  · rw [hups]; exact h.dead c ((hdead c).mp hc)
  · obtain ⟨i', hi', hle, -⟩ := hinfo c i hi
    rw [hups]
    exact Nat.le_trans hle (h.sema c i' hi')
  · obtain ⟨i', hi', -, heq⟩ := hinfo c i hi
    rw [hloads, heq]
    exact h.flag c i' hi'
  · rw [hloads]; exact h.early c ((hearly c).mp hc)
  · rw [hloads]
    have hpast : ¬ (x.pos c = .loading ∨ x.pos c = .unborn) := fun ho =>
      ((hearly c).mpr ho).elim h₁ h₂
    exact h.decided c (fun ho => hpast (.inl ho)) fun ho => hpast (.inr ho)
  · exact (hdead c).mpr ((hat p c .read hp).2 rfl)
  · rw [hlog]; exact h.returned

/-- Only `q` has changed. It does not wait for a child, and if it was dead it still is. -/
theorem ExecInv.alone (h : ExecInv x)
    (hsame : ∀ c ≠ q, y.pos c = x.pos c ∧ y.infos c = x.infos c ∧ y.loads c = x.loads c ∧
      y.execUps c = x.execUps c) (hlog : y.execLog = x.execLog)
    (hups : y.execUps q = if y.pos q = .dead then 1 else 0)
    (hinfo : ∀ i, y.infos q = some i → i.execSema ≤ y.execUps q ∧
      (i.loadSuccess = false ↔ y.loads q = some false))
    (hearly : y.pos q = .loading ∨ y.pos q = .unborn → y.loads q = none)
    (hdecided : y.pos q ≠ .loading → y.pos q ≠ .unborn → q ≠ mainTid → y.loads q ≠ none)
    (hexec : ∀ c pc, y.pos q ≠ .exec c pc) (hdead : x.pos q = .dead → y.pos q = .dead) :
    ExecInv y := by
  have hwaits : ∀ p c pc, y.pos p = .exec c pc → x.pos p = .exec c pc := by
    intro p c pc hp
    have hpq : p ≠ q := fun heq => hexec c pc (heq ▸ hp)
    exact (hsame p hpq).1 ▸ hp
  have hgone : ∀ c, x.pos c = .dead → y.pos c = .dead := by
    intro c hc
    by_cases hcq : c = q
    · exact hcq ▸ hdead (hcq ▸ hc)
    · rw [(hsame c hcq).1, hc]
  have hone : ∀ c, (y.pos c ≠ .dead → y.execUps c = 0) ∧ (y.pos c = .dead → y.execUps c = 1) ∧
      (∀ i, y.infos c = some i → i.execSema ≤ y.execUps c ∧
        (i.loadSuccess = false ↔ y.loads c = some false)) ∧
      (y.pos c = .loading ∨ y.pos c = .unborn → y.loads c = none) ∧
      (y.pos c ≠ .loading → y.pos c ≠ .unborn → c ≠ mainTid → y.loads c ≠ none) := by
    intro c
    by_cases hcq : c = q
    · subst hcq
      exact ⟨fun hc => by rw [hups, if_neg hc], fun hc => by rw [hups, if_pos hc], hinfo, hearly,
        hdecided⟩
    · obtain ⟨hp, hi, hl, hu⟩ := hsame c hcq
      rw [hp, hi, hl, hu]
      exact ⟨h.alive c, h.dead c, fun i hi => ⟨h.sema c i hi, h.flag c i hi⟩, h.early c, h.decided c⟩
  exact ⟨fun c => (hone c).1, fun c => (hone c).2.1, fun c i hi => ((hone c).2.2.1 i hi).1,
    fun c i hi => ((hone c).2.2.1 i hi).2, fun c => (hone c).2.2.2.1, fun c => (hone c).2.2.2.2,
    fun p c pc hp => h.waits p c pc (hwaits p c pc hp),
    fun p c hp => hgone c (h.reads p c (hwaits p c .read hp)), hlog ▸ h.returned⟩

theorem ExecInv.ends (h : ExecInv x) (hpos : x.pos q = .exiting) (hi : x.infos q = some i) :
    ExecInv (({ x with execUps := update x.execUps q (x.execUps q + 1) }.setInfo q
      (some { i with execSema := i.execSema + 1, waitSema := i.waitSema + 1 })).goto q .dead) := by
  have hups : x.execUps q = 0 := h.alive q (by simp [hpos])
  have hloads : q ≠ mainTid → x.loads q ≠ none := h.decided q (by simp [hpos]) (by simp [hpos])
  refine h.alone (q := q) (fun c hc => ?_) rfl ?_ (fun j hj => ?_) ?_ ?_ ?_ ?_
  all_goals simp only [Kernel.goto, Kernel.setInfo, update_self] at *
  · simp [hc]
  · simp [hups]
  · obtain rfl := Option.some.inj hj
    exact ⟨Nat.succ_le_succ (h.sema q i hi), h.flag q i hi⟩
  · rintro (hc | hc) <;> cases hc
  · exact fun _ _ => hloads
  · exact fun _ _ => Pos.noConfusion
  · exact fun _ => trivial

theorem ExecInv.returns (h : ExecInv x) (hold : (x.pos q).past = true) (hd : mainTid < d)
    (hload : x.loads d = some ok) : ExecInv (x.execReturn q d (if ok then d else -1)) := by
  have hmoves := h.moves (y := x.goto q .running) hold rfl rfl rfl rfl rfl
    (fun c i hi => ⟨i, hi, Nat.le_refl _, rfl⟩) fun _ _ hp => by cases hp
  refine ⟨hmoves.alive, hmoves.dead, hmoves.sema, hmoves.flag, hmoves.early, hmoves.decided,
    hmoves.waits, hmoves.reads, fun e he => ?_⟩
  rcases List.mem_cons.mp he with rfl | he
  · exact ⟨hd, ok, hload, rfl⟩
  · exact h.returned e he

/-- Records are only written below what the handshake looks at. -/
def KeepsLoads (x y : Kernel) : Prop :=
  y.loads = x.loads ∧ y.execUps = x.execUps ∧ y.execLog = x.execLog ∧
    ∀ c i, y.infos c = some i → ∃ i', x.infos c = some i' ∧ i.execSema ≤ i'.execSema ∧
      i.loadSuccess = i'.loadSuccess

theorem keepsLoads_goto : KeepsLoads x (x.goto q pos) :=
  ⟨rfl, rfl, rfl, fun _ i hi => ⟨i, hi, Nat.le_refl _, rfl⟩⟩

theorem keepsLoads_set {o : Option ThreadInfo}
    (ho : ∀ i', o = some i' → ∃ i, x.infos d = some i ∧ i'.execSema ≤ i.execSema ∧
      i'.loadSuccess = i.loadSuccess) :
    KeepsLoads x (({ x with log := log }.setInfo d o).goto q pos) := by
  refine ⟨rfl, rfl, rfl, fun c i hi => ?_⟩
  by_cases hcd : c = d
  · subst hcd
    exact ho i (by simpa [Kernel.goto, Kernel.setInfo] using hi)
  · exact ⟨i, by simpa [Kernel.goto, Kernel.setInfo, hcd] using hi, Nat.le_refl _, rfl⟩

theorem keepsLoads_write (hi : x.infos d = some i) (hsema : i'.execSema ≤ i.execSema)
    (hflag : i'.loadSuccess = i.loadSuccess) :
    KeepsLoads x (({ x with log := log }.setInfo d (some i')).goto q pos) :=
  keepsLoads_set fun _ hj => by cases hj; exact ⟨i, hi, hsema, hflag⟩

theorem waitStep_keepsLoads {pc : WaitPc} (hy : waitStep x q d pc = .ok y) :
    KeepsLoads x y ∧ ∃ pos : Pos, pos.past = true ∧ (∀ c pc, pos ≠ .exec c pc) ∧
      y.pos = update x.pos q pos := by
  have hwait : ∀ {pc' : WaitPc} {z : Kernel}, KeepsLoads x z →
      z.pos = update x.pos q (.wait d pc') → KeepsLoads x z ∧ ∃ pos : Pos,
        pos.past = true ∧ (∀ c pc, pos ≠ .exec c pc) ∧ z.pos = update x.pos q pos :=
    fun {pc'} _ hk hz => ⟨hk, .wait d pc', rfl, fun _ _ => Pos.noConfusion, hz⟩
  cases pc with
  | find =>
    simp only [waitStep] at hy
    split at hy
    · cases hy; exact hwait keepsLoads_goto rfl
    · cases hy; exact hwait keepsLoads_goto rfl
    · cases hy
  | remove =>
    simp only [waitStep] at hy
    split at hy
    · cases hy
      exact hwait ⟨rfl, rfl, rfl, fun _ i hi => ⟨i, hi, Nat.le_refl _, rfl⟩⟩ rfl
    · cases hy
  | test =>
    obtain ⟨i, hi, hy⟩ := access_ok hy
    cases hy
    exact hwait keepsLoads_goto rfl
  | mark =>
    obtain ⟨i, hi, hy⟩ := access_ok hy
    cases hy
    exact hwait (keepsLoads_write hi (Nat.le_refl _) rfl) rfl
  | down =>
    obtain ⟨i, hi, hy⟩ := access_ok hy
    split at hy
    · cases hy
    · cases hy
      exact hwait (keepsLoads_write hi (Nat.le_refl _) rfl) rfl
  | read =>
    obtain ⟨i, hi, hy⟩ := access_ok hy
    cases hy
    exact hwait keepsLoads_goto rfl
  | free s =>
    obtain ⟨i, hi, hy⟩ := access_ok hy
    cases hy
    exact hwait (keepsLoads_set fun i' hi' => by cases hi') rfl
  | ret r =>
    cases hy
    exact ⟨⟨rfl, rfl, rfl, fun _ i hi => ⟨i, hi, Nat.le_refl _, rfl⟩⟩, .running, rfl,
      fun _ _ => Pos.noConfusion, rfl⟩

/-! One action. -/

theorem ExecInv.execStep (h : ExecInv x) (hinv : Inv x) {pc : ExecPc} (hpos : x.pos q = .exec d pc)
    (hy : execStep x q d pc = .ok y) : ExecInv y := by
  have hpast : (x.pos q).past = true := by rw [hpos]; rfl
  have hd : mainTid < d := h.waits q d pc hpos
  cases pc with
  | find =>
    -- the child is on the list: only its parent takes it off, and it is here
    have hchild := hinv.execs q d .find hpos
    have hl : d ∈ x.childInfoList q := by
      have hl := (hinv.pairs q d hchild).exec .find (by simp [view, hpos, Pos.stage])
      simpa [view] using hl
    rw [Userprog.execStep, hinv.find q d, decide_eq_true hl] at hy
    cases hy
    exact h.moves hpast rfl rfl rfl rfl rfl (fun c i hi => ⟨i, hi, Nat.le_refl _, rfl⟩)
      fun c pc hp => by cases hp; exact ⟨hd, fun hr => by cases hr⟩
  | down =>
    obtain ⟨i, hi, hy⟩ := access_ok hy
    split at hy
    · cases hy
    · next hz =>
      cases hy
      -- the semaphore is up, so the child has ended
      have hdead : x.pos d = .dead := by
        by_contra hno
        have hle := h.sema d i hi
        rw [h.alive d hno] at hle
        omega
      have hk : KeepsLoads x ((x.setInfo d (some { i with execSema := i.execSema - 1 })).goto q
          (.exec d .read)) := keepsLoads_write (x := x) hi (Nat.sub_le ..) rfl
      exact h.moves hpast rfl rfl rfl rfl rfl hk.2.2.2
        fun c pc hp => by cases hp; exact ⟨hd, fun _ => hdead⟩
  | read =>
    obtain ⟨i, hi, hy⟩ := access_ok hy
    have hdead := h.reads q d hpos
    have hmain : d ≠ mainTid := fun heq => by rw [heq] at hd; exact Int.lt_irrefl _ hd
    obtain ⟨ok, hok⟩ := Option.ne_none_iff_exists'.mp
      (h.decided d (by rw [hdead]; exact Pos.noConfusion) (by rw [hdead]; exact Pos.noConfusion) hmain)
    have hflag : i.loadSuccess = ok := by grind [h.flag]
    rw [hflag] at hy
    cases hy
    exact h.returns hpast hd hok

theorem ExecInv.go (h : ExecInv x) (hinv : Inv x) (hy : go x q = .ok y) : ExecInv y := by
  cases hpos : x.pos q with
  | wait c pc =>
    simp only [Userprog.go, hpos] at hy
    obtain ⟨⟨hloads, hups, hlog, hinfo⟩, pos, hpast, hexec, hp⟩ := waitStep_keepsLoads hy
    exact h.moves (by rw [hpos]; rfl) hpast hp hloads hups hlog hinfo
      fun c pc hp => absurd hp (hexec c pc)
  | exec c pc => grind [Userprog.go, h.execStep]
  | killing =>
    simp only [Userprog.go, hpos] at hy
    obtain ⟨i, hi, hy⟩ := access_ok hy
    cases hy
    have hk : KeepsLoads x ((x.setInfo q (some { i with exitStatus := some (-1) })).goto q .exiting) :=
      keepsLoads_write (x := x) hi (Nat.le_refl _) rfl
    exact h.moves (by rw [hpos]; rfl) rfl rfl rfl rfl rfl hk.2.2.2 fun _ _ hp => by cases hp
  | exiting => grind [Userprog.go, access_ok, h.ends]
  | unborn => simp only [Userprog.go, hpos] at hy; cases hy
  | loading => simp only [Userprog.go, hpos] at hy; cases hy
  | running => simp only [Userprog.go, hpos] at hy; cases hy
  | dead => simp only [Userprog.go, hpos] at hy; cases hy

theorem ExecInv.loads (h : ExecInv x) (hpos : x.pos q = .loading)
    (hnew : pos = .running ∨ pos = .exiting) (hi : x.infos q = some i)
    (hsema : i'.execSema = i.execSema) (hok : i'.loadSuccess = ok) :
    ExecInv (({ x with loads := update x.loads q (some ok) }.setInfo q (some i')).goto
      q pos) := by
  have hups : x.execUps q = 0 := h.alive q (by simp [hpos])
  refine h.alone (q := q) (fun c hc => ?_) rfl ?_ (fun j hj => ?_) ?_ ?_ ?_ ?_
  all_goals simp only [Kernel.goto, Kernel.setInfo, update_self] at *
  · simp [hc]
  · rw [hups, if_neg]
    rcases hnew with rfl | rfl <;> exact Pos.noConfusion
  · obtain rfl := Option.some.inj hj
    exact ⟨hsema ▸ h.sema q i hi, by rw [hok, Option.some.injEq]⟩
  · rcases hnew with rfl | rfl <;> rintro (hc | hc) <;> cases hc
  · exact fun _ _ _ => Option.some_ne_none ok
  · rcases hnew with rfl | rfl <;> exact fun _ _ => Pos.noConfusion
  · exact fun hc => absurd (hpos.symm.trans hc) Pos.noConfusion

/-- `thread_create`: the parent goes on and the new thread loads. -/
theorem ExecInv.create (h : ExecInv x) (hinv : Inv x) (hrun : x.pos p = .running)
    {pos : Tid → Pos} (hnew : pos x.nextTid = .running ∨ pos x.nextTid = .exec x.nextTid .find) :
    ExecInv (create x p pos) := by
  have hun := (hinv.fresh x.nextTid (Int.le_refl _)).1
  have hpc : p ≠ x.nextTid := fun heq => by rw [heq, hun] at hrun; cases hrun
  have hpast : (pos x.nextTid).past = true := by rcases hnew with hr | hr <;> rw [hr] <;> rfl
  have hmoves : ExecInv (x.goto p (pos x.nextTid)) := by
    refine h.moves (by rw [hrun]; rfl) hpast rfl rfl rfl rfl
      (fun c i hi => ⟨i, hi, Nat.le_refl _, rfl⟩) fun c pc hp => ?_
    rcases hnew with hr | hr
    · rw [hr] at hp; cases hp
    · grind [hinv.next]
  -- afterwards only the new thread differs
  have hnone : x.loads x.nextTid = none := h.early _ (.inr hun)
  have hups : x.execUps x.nextTid = 0 := h.alive _ (by simp [hun])
  refine hmoves.alone (q := x.nextTid) (fun c hc => ?_) rfl ?_ (fun i hi => ?_) (fun _ => hnone) ?_ ?_
    fun hd => ?_
  all_goals simp only [Userprog.create, Kernel.goto, update_self] at *
  · simp [hc]
  · simpa using hups
  · obtain rfl := Option.some.inj hi
    exact ⟨Nat.zero_le _, by simp [hnone, newInfo]⟩
  · exact fun hl => absurd rfl hl
  · exact fun _ _ => Pos.noConfusion
  · rw [update_of_ne hpc.symm, hun] at hd
    cases hd

theorem ExecInv.leaves (h : ExecInv x) (hrun : x.pos q = .running)
    (hnew : pos = .killing ∨ pos = .exiting ∨ ∃ c pc, pos = .wait c pc) (hk : KeepsLoads x y)
    (hp : y.pos = update x.pos q pos) : ExecInv y := by
  obtain ⟨hloads, hups, hlog, hinfo⟩ := hk
  have hpast : pos.past = true ∧ ∀ c pc, pos ≠ .exec c pc := by
    rcases hnew with rfl | rfl | ⟨c, pc, rfl⟩ <;> exact ⟨rfl, fun _ _ => Pos.noConfusion⟩
  exact h.moves (by rw [hrun]; rfl) hpast.1 hp hloads hups hlog hinfo
    fun c pc hq => absurd hq (hpast.2 c pc)

theorem ExecInv.act (h : ExecInv x) (hinv : Inv x) {a : Act} (hy : act x a = .ok y) :
    ExecInv y := by
  cases a with
  | go p => exact h.go hinv hy
  | create p fromExec => grind [Userprog.act, h.create]
  | wait p c =>
    obtain ⟨hrun, hy⟩ := guard_ok hy
    cases hy
    exact h.leaves hrun (.inr (.inr ⟨_, _, rfl⟩)) keepsLoads_goto rfl
  | exit p status =>
    obtain ⟨hrun, hy⟩ := guard_ok hy
    obtain ⟨i, hi, hy⟩ := access_ok hy
    cases hy
    exact h.leaves hrun.1 (.inr (.inl rfl)) (keepsLoads_write hi (Nat.le_refl _) rfl) rfl
  | kill p =>
    obtain ⟨hrun, hy⟩ := guard_ok hy
    obtain ⟨i, hi, hy⟩ := access_ok hy
    cases hy
    exact h.leaves hrun.1 (.inl rfl) (keepsLoads_write (x := x) hi (Nat.le_refl _) rfl) rfl
  | close p =>
    obtain ⟨hrun, hy⟩ := guard_ok hy
    obtain ⟨i, hi, hy⟩ := access_ok hy
    cases hy
    exact h.leaves hrun.1 (.inr (.inl rfl)) (keepsLoads_write (x := x) hi (Nat.le_refl _) rfl) rfl
  | halt p =>
    obtain ⟨hrun, hy⟩ := guard_ok hy
    cases hy
    exact h.leaves hrun.1 (.inr (.inl rfl)) keepsLoads_goto rfl
  | exception p =>
    obtain ⟨hrun, hy⟩ := guard_ok hy
    cases hy
    exact h.leaves hrun.1 (.inr (.inl rfl)) keepsLoads_goto rfl
  | loaded p =>
    obtain ⟨hload, hy⟩ := guard_ok hy
    cases hy
    obtain ⟨i, hi, -, -⟩ := hinv.leave (.inr hload.1) hload.2
    have hflag : i.loadSuccess = true := by
      have hiff := h.flag p i hi
      rw [h.early p (.inl hload.1)] at hiff
      cases hs : i.loadSuccess with
      | true => rfl
      | false => exact absurd (hiff.mp hs) (Option.some_ne_none _).symm
    have hloads := h.loads hload.1 (.inl rfl) hi (show i.execSema = i.execSema from rfl) hflag
    rwa [← hi, Kernel.setInfo_self] at hloads
  | loadFail p => grind [Userprog.act, access_ok, h.loads]

/-! All runs. -/

end

end Pintos.Userprog
