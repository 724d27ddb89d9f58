import Pintos.Userprog.Delivery

/- What a parent is told of a process that did not call `exit`.

   `thread_create` leaves `exit_status` unwritten. `handle_invalid`, the kill in
   `page_fault` and the failing end of `handle_close` write -1 before they end the
   thread; `handle_halt`, `kill` and the failing end of `start_process` do not write
   it. In runs that keep clear of the latter three no wait returns an unwritten
   status, and the wait for a child that did not call `exit` returns -1. -/
namespace Pintos.Userprog

open Function

/-- The thread ends with its status written. -/
def Act.RecordsStatus : Kernel → Act → Prop
  | _, .halt _ | _, .exception _ | _, .loadFail _ => False
  | _, _ => True

/-- A result a parent may be told of `c`: -1, or what `c` passed to `exit`. -/
def Honest (log : List Entry) (c : Tid) (r : Option Int) : Prop :=
  r = some (-1) ∨ ∃ s, .exits c s ∈ log ∧ r = some s

def Pos.ended : Pos → Bool
  | .exiting | .dead => true
  | _ => false

/-- Every result on its way to a parent is honest. -/
structure Reported (x : Kernel) : Prop where
  ended : ∀ c i, (x.pos c).ended = true → x.infos c = some i → Honest x.log c i.exitStatus
  free : ∀ p c s, x.pos p = .wait c (.free s) → Honest x.log c s
  ret : ∀ p c r, x.pos p = .wait c (.ret r) → Honest x.log c r
  returned : ∀ p c r, .returned p c r ∈ x.log → Honest x.log c r

theorem Honest.mono {log log' : List Entry} {c : Tid} {r : Option Int} (h : Honest log c r)
    (hsub : log ⊆ log') : Honest log' c r := by
  rcases h with hr | ⟨s, hs, hr⟩
  · exact .inl hr
  · exact .inr ⟨s, hsub hs, hr⟩

section
variable {x y : Kernel} {q c d : Tid} {pos : Pos} {log : List Entry}

/-- What one thread's action may do to the results on their way. -/
theorem Reported.local (h : Reported x) (q : Tid) (hpos : ∀ p ≠ q, y.pos p = x.pos p)
    (hlog : x.log ⊆ y.log)
    (hnew : ∀ p c r, .returned p c r ∈ y.log → .returned p c r ∈ x.log ∨ Honest y.log c r)
    (hfree : ∀ c s, y.pos q = .wait c (.free s) → Honest y.log c s)
    (hret : ∀ c r, y.pos q = .wait c (.ret r) → Honest y.log c r)
    (hself : ∀ i, (y.pos q).ended = true → y.infos q = some i → Honest y.log q i.exitStatus)
    (hinfo : ∀ c ≠ q, ∀ i, y.infos c = some i →
      ∃ i', x.infos c = some i' ∧ i'.exitStatus = i.exitStatus) : Reported y where
  ended := fun c i hc hi => by
    by_cases hcq : c = q
    · subst hcq; exact hself i hc hi
    · obtain ⟨i', hi', hst⟩ := hinfo c hcq i hi
      rw [hpos c hcq] at hc
      exact hst ▸ (h.ended c i' hc hi').mono hlog
  free := fun p c s hp => by
    by_cases hpq : p = q
    · subst hpq; exact hfree c s hp
    · exact (h.free p c s (hpos p hpq ▸ hp)).mono hlog
  ret := fun p c r hp => by
    by_cases hpq : p = q
    · subst hpq; exact hret c r hp
    · exact (h.ret p c r (hpos p hpq ▸ hp)).mono hlog
  returned := fun p c r hr => by
    rcases hnew p c r hr with hr | hr
    · exact (h.returned p c r hr).mono hlog
    · exact hr

/-- A thread that is alive afterwards moves on, and may write to a record or free it,
    but not to its status. -/
theorem Reported.moves (h : Reported x) {o : Option ThreadInfo}
    (hinfo : ∀ i', o = some i' → ∃ i, x.infos d = some i ∧ i.exitStatus = i'.exitStatus)
    (hlive : pos.ended = false) (hfree : ∀ c s, pos = .wait c (.free s) → Honest x.log c s)
    (hret : ∀ c r, pos = .wait c (.ret r) → Honest x.log c r) :
    Reported ((x.setInfo d o).goto q pos) := by
  have hq : ((x.setInfo d o).goto q pos).pos q = pos := update_self ..
  refine h.local q (fun p hp => update_of_ne hp ..) (fun _ he => he)
    (fun _ _ _ hr => .inl hr) (fun c s hp => hfree c s (hq ▸ hp)) (fun c r hp => hret c r (hq ▸ hp))
    (fun i hi => ?_) fun c _ i hi => ?_
  · rw [hq, hlive] at hi
    cases hi
  · by_cases hcd : c = d
    · subst hcd
      exact hinfo i (by simpa [Kernel.goto, Kernel.setInfo] using hi)
    · exact ⟨i, by simpa [Kernel.goto, Kernel.setInfo, hcd] using hi, rfl⟩

theorem Reported.goes (h : Reported x) (hlive : pos.ended = false)
    (hfree : ∀ c s, pos = .wait c (.free s) → Honest x.log c s)
    (hret : ∀ c r, pos = .wait c (.ret r) → Honest x.log c r) : Reported (x.goto q pos) := by
  have hmoves := h.moves (d := q) (q := q) (o := x.infos q) (fun i hi => ⟨i, hi, rfl⟩) hlive hfree hret
  rwa [Kernel.setInfo_self] at hmoves

theorem Reported.quiet (h : Reported x) (hlive : pos.ended = false)
    (hpos : ∀ c s, pos ≠ .wait c (.free s) ∧ pos ≠ .wait c (.ret s)) : Reported (x.goto q pos) :=
  h.goes hlive (fun c s hp => absurd hp (hpos c s).1) fun c r hp => absurd hp (hpos c r).2

theorem Reported.leaves (h : Reported x) {t : Pos} (hpos : ∀ c pc, t ≠ .wait c pc) {i : ThreadInfo}
    (hlog : x.log ⊆ log) (hnew : ∀ p c r, .returned p c r ∈ log → .returned p c r ∈ x.log)
    (hst : t.ended = true → Honest log q i.exitStatus) :
    Reported (({ x with log := log }.setInfo q (some i)).goto q t) := by
  have hq : (({ x with log := log }.setInfo q (some i)).goto q t).pos q = t :=
    update_self ..
  refine h.local q (fun p hp => update_of_ne hp ..) hlog
    (fun p c r hr => .inl (hnew p c r hr)) (fun c s hp => absurd (hq ▸ hp) (hpos _ _))
    (fun c r hp => absurd (hq ▸ hp) (hpos _ _)) (fun i' hi hi' => ?_) fun c hc i' hi' => ?_
  · rw [hq] at hi
    have hii : i = i' := by simpa [Kernel.goto, Kernel.setInfo] using hi'
    subst hii
    exact hst hi
  · exact ⟨i', by simpa [Kernel.goto, Kernel.setInfo, hc] using hi', rfl⟩

theorem Reported.congr (h : Reported x) (hpos : y.pos = x.pos) (hinfos : y.infos = x.infos)
    (hlog : y.log = x.log) : Reported y where
  ended := by rw [hpos, hinfos, hlog]; exact h.ended
  free := by rw [hpos, hlog]; exact h.free
  ret := by rw [hpos, hlog]; exact h.ret
  returned := by rw [hlog]; exact h.returned

/-! One action. -/

theorem honest_failed : Honest log c (some (-1)) := .inl rfl

theorem Reported.waitStep (h : Reported x) (hinv : Inv x) {pc : WaitPc} (hpos : x.pos q = .wait d pc)
    (hy : waitStep x q d pc = .ok y) : Reported y := by
  cases pc with
  | find =>
    simp only [Userprog.waitStep] at hy
    split at hy
    · cases hy
      exact h.quiet rfl (by simp)
    · cases hy
      refine h.goes rfl (fun _ _ hp => by cases hp) fun c r hp => ?_
      cases hp
      exact honest_failed
    · cases hy
  | remove =>
    simp only [Userprog.waitStep] at hy
    split at hy
    · cases hy
      have hgoes : Reported (x.goto q (.wait d .test)) := h.quiet rfl (by simp)
      exact hgoes.congr rfl rfl rfl
    · cases hy
  | test =>
    obtain ⟨i, hi, hy⟩ := access_ok hy
    cases hy
    refine h.goes ?_ (fun c s hp => ?_) fun c r hp => ?_
    · split <;> rfl
    · split at hp <;> cases hp
    · grind [honest_failed]
  | mark =>
    obtain ⟨i, hi, hy⟩ := access_ok hy
    cases hy
    exact h.moves (fun i' hi' => by cases hi'; exact ⟨i, hi, rfl⟩) rfl (fun _ _ hp => by cases hp)
      fun _ _ hp => by cases hp
  | down =>
    obtain ⟨i, hi, hy⟩ := access_ok hy
    split at hy
    · cases hy
    · cases hy
      exact h.moves (fun i' hi' => by cases hi'; exact ⟨i, hi, rfl⟩) rfl
        (fun _ _ hp => by cases hp) fun _ _ hp => by cases hp
  | read =>
    obtain ⟨i, hi, hy⟩ := access_ok hy
    cases hy
    -- the semaphore was up: the child has ended
    have hchild : IsChild q d x.log := hinv.child_of_wait hpos (by simp) (by simp)
    have hdead : (x.pos d).ended = true := by
      have hlife := (hinv.pairs q d hchild).downed .read (by simp [view, hpos, Pos.stage]) rfl
      rw [Pos.life_dead hlife]
      rfl
    refine h.goes rfl (fun c s hp => ?_) fun _ _ hp => by cases hp
    cases hp
    exact h.ended d i hdead hi
  | free s =>
    obtain ⟨i, hi, hy⟩ := access_ok hy
    cases hy
    refine h.moves (fun i' hi' => by cases hi') rfl (fun _ _ hp => by cases hp) fun c r hp => ?_
    cases hp
    exact h.free q d s hpos
  | ret r =>
    cases hy
    have hhon : Honest (.returned q d r :: x.log) d r :=
      (h.ret q d r hpos).mono (List.subset_cons_self ..)
    refine h.local q (fun p hp => update_of_ne hp ..) (List.subset_cons_self ..)
      (fun p c r' hr => ?_) (fun c s hp => ?_) (fun c r' hp => ?_) (fun i hi _ => ?_)
      fun c _ i hi => ⟨i, hi, rfl⟩
    · rcases List.mem_cons.mp hr with heq | hr
      · cases heq
        exact .inr hhon
      · exact .inl hr
    · exact absurd ((update_self ..).symm.trans hp) (by simp)
    · exact absurd ((update_self ..).symm.trans hp) (by simp)
    · simp [Kernel.goto, Pos.ended] at hi

theorem Reported.execStep (h : Reported x) {pc : ExecPc} (hy : execStep x q d pc = .ok y) :
    Reported y := by
  cases pc with
  | find =>
    simp only [Userprog.execStep] at hy
    split at hy
    · cases hy
      exact h.quiet rfl (by simp)
    · cases hy
      have hgoes : Reported (x.goto q .running) := h.quiet rfl (by simp)
      exact hgoes.congr rfl rfl rfl
    · cases hy
  | down =>
    obtain ⟨i, hi, hy⟩ := access_ok hy
    split at hy
    · cases hy
    · cases hy
      exact h.moves (fun i' hi' => by cases hi'; exact ⟨i, hi, rfl⟩) rfl
        (fun _ _ hp => by cases hp) fun _ _ hp => by cases hp
  | read =>
    obtain ⟨i, hi, hy⟩ := access_ok hy
    cases hy
    have hgoes : Reported (x.goto q .running) := h.quiet rfl (by simp)
    exact hgoes.congr rfl rfl rfl

theorem Reported.go (h : Reported x) (hinv : Inv x) (hy : go x q = .ok y) : Reported y := by
  cases hpos : x.pos q with
  | wait c pc => grind [Userprog.go, h.waitStep]
  | exec c pc =>
    simp only [Userprog.go, hpos] at hy
    exact h.execStep hy
  | killing =>
    simp only [Userprog.go, hpos] at hy
    obtain ⟨i, hi, hy⟩ := access_ok hy
    cases hy
    exact h.leaves (fun _ _ hp => by cases hp) (List.Subset.refl _) (fun _ _ _ hr => hr)
      fun _ => honest_failed
  | exiting =>
    simp only [Userprog.go, hpos] at hy
    obtain ⟨i, hi, hy⟩ := access_ok hy
    cases hy
    have hleaves := h.leaves (q := q) (t := .dead)
      (i := { i with execSema := i.execSema + 1, waitSema := i.waitSema + 1 })
      (fun _ _ hp => by cases hp) (List.Subset.refl _) (fun _ _ _ hr => hr)
      fun _ => h.ended q i (by rw [hpos]; rfl) hi
    exact hleaves.congr rfl rfl rfl
  | unborn => simp only [Userprog.go, hpos] at hy; cases hy
  | loading => simp only [Userprog.go, hpos] at hy; cases hy
  | running => simp only [Userprog.go, hpos] at hy; cases hy
  | dead => simp only [Userprog.go, hpos] at hy; cases hy

theorem Reported.act (h : Reported x) (hinv : Inv x) {a : Act} (hrec : a.RecordsStatus x)
    (hy : act x a = .ok y) : Reported y := by
  cases a with
  | go p => exact h.go hinv hy
  | create p fromExec =>
    obtain ⟨hrun, hy⟩ := guard_ok hy
    cases hy
    have hun := (hinv.fresh x.nextTid (Int.le_refl _)).1
    have hpc : p ≠ x.nextTid := fun heq => by rw [heq, hun] at hrun; cases hrun
    have hparent : Reported (x.goto p (if fromExec then .exec x.nextTid .find else .running)) := h.goes
      (by split <;> rfl) (fun _ _ hp => by split at hp <;> cases hp)
      fun _ _ hp => by split at hp <;> cases hp
    have hlog : x.log ⊆ Entry.created p x.nextTid :: x.log := List.subset_cons_self ..
    refine hparent.local x.nextTid (fun q hq => update_of_ne hq ..) hlog
      (fun q c r hr => .inl ?_) (fun c s hp => ?_) (fun c r hp => ?_) (fun i hi _ => ?_)
      fun c hc i hi => ⟨i, ?_, rfl⟩
    · rcases List.mem_cons.mp hr with heq | hr
      · cases heq
      · exact hr
    · simp [Userprog.create] at hp
    · simp [Userprog.create] at hp
    · simp [Userprog.create, Pos.ended] at hi
    · simpa [Userprog.create, Kernel.goto, hc] using hi
  | wait p c =>
    obtain ⟨-, hy⟩ := guard_ok hy
    cases hy
    exact h.quiet rfl (by simp)
  | exit p status =>
    obtain ⟨-, hy⟩ := guard_ok hy
    obtain ⟨i, hi, hy⟩ := access_ok hy
    cases hy
    refine h.leaves (fun _ _ hp => by cases hp) (List.subset_cons_self ..) (fun q c r hr => ?_)
      fun _ => .inr ⟨status, List.mem_cons_self .., rfl⟩
    rcases List.mem_cons.mp hr with heq | hr
    · cases heq
    · exact hr
  | kill p =>
    obtain ⟨-, hy⟩ := guard_ok hy
    obtain ⟨i, hi, hy⟩ := access_ok hy
    cases hy
    exact h.leaves (fun _ _ hp => by cases hp) (List.Subset.refl _) (fun _ _ _ hr => hr)
      fun hk => by cases hk
  | close p =>
    obtain ⟨-, hy⟩ := guard_ok hy
    obtain ⟨i, hi, hy⟩ := access_ok hy
    cases hy
    exact h.leaves (fun _ _ hp => by cases hp) (List.Subset.refl _) (fun _ _ _ hr => hr)
      fun _ => honest_failed
  | loaded p =>
    obtain ⟨-, hy⟩ := guard_ok hy
    cases hy
    have hgoes : Reported (x.goto p .running) := h.quiet rfl (by simp)
    exact hgoes.congr rfl rfl rfl
  | halt p => exact hrec.elim
  | exception p => exact hrec.elim
  | loadFail p => exact hrec.elim

/-! All runs. -/

theorem reported_boot : Reported kernelBoot where
  ended := fun c i _ hi => by cases hi
  free := fun p c s hp => by
    by_cases hm : p = mainTid
    · subst hm; simp [kernelBoot] at hp
    · rw [kernelBoot_pos hm] at hp; cases hp
  ret := fun p c r hp => by
    by_cases hm : p = mainTid
    · subst hm; simp [kernelBoot] at hp
    · rw [kernelBoot_pos hm] at hp; cases hp
  returned := fun p c r hr => by cases hr

theorem reported_reach (h : Lib.Reach kernelStep Act.RecordsStatus kernelBoot x) :
    Inv x ∧ Reported x := by
  refine h.inv (I := fun x => Inv x ∧ Reported x) ⟨inv_boot, reported_boot⟩ ?_
  intro x a y hx hrec hy
  exact ⟨hx.1.step hy, hx.2.act hx.1 hrec (kernelStep_eq_some.mp hy)⟩

end

/-- What a parent is told of a process that did not call `exit`. -/
structure AbnormalEndReported (x : Kernel) : Prop where
  /-- Every wait for it that has returned has returned -1. -/
  failed : ∀ p c r, .returned p c r ∈ x.log → (∀ s, .exits c s ∉ x.log) → r = some (-1)
  /-- No wait has returned a status that was not written. -/
  written : ∀ p c, .returned p c none ∉ x.log
  /-- A wait for it that is under way returns -1, by the caller's actions alone. -/
  returns : ∀ p c pc, x.pos p = .wait c pc → x.pos c = .dead → (∀ s, .exits c s ∉ x.log) →
    ∃ n y, Lib.run kernelStep x (List.replicate n (.go p)) = some y ∧
      y.log = .returned p c (some (-1)) :: x.log

theorem Honest.failed {log : List Entry} {c : Tid} {r : Option Int} (h : Honest log c r)
    (hno : ∀ s, .exits c s ∉ log) : r = some (-1) := by
  rcases h with hr | ⟨s, hs, -⟩
  · exact hr
  · exact absurd hs (hno s)

/-- **An end without `exit` is reported as -1**, in every interleaving in which no
    process halts, is ended by `kill` or fails to load. -/
theorem abnormal_end_reported {x : Kernel}
    (hx : Lib.Reach kernelStep Act.RecordsStatus kernelBoot x) : AbnormalEndReported x := by
  obtain ⟨hinv, hrep⟩ := reported_reach hx
  refine ⟨fun p c r hr hno => (hrep.returned p c r hr).failed hno, fun p c hr => ?_, ?_⟩
  · rcases hrep.returned p c none hr with heq | ⟨s, -, heq⟩
    · cases heq
    · cases heq
  · intro p c pc hpos hdead hno
    obtain ⟨n, y, r, hrun, hlog⟩ := hinv.returns pc.left hpos (Nat.le_refl _) fun _ => .inr hdead
    have hy : Lib.Reach kernelStep Act.RecordsStatus kernelBoot y := by
      refine hx.trans (Lib.reach_of_all (fun a ha _ => ?_) hrun)
      rw [List.eq_of_mem_replicate ha]
      trivial
    have hno' : ∀ s, .exits c s ∉ y.log := by grind
    have hr := ((reported_reach hy).2.returned p c r (hlog ▸ List.mem_cons_self ..)).failed hno'
    exact ⟨n, y, hrun, hr ▸ hlog⟩

/-- Process 2 passes a bad pointer to a system call and is killed while its parent is
    between the search and the wait. -/
theorem abnormal_end_reported_killed :
    ∃ x, Lib.Reach kernelStep Act.RecordsStatus kernelBoot x ∧ x.pos mainTid = .wait 2 .down ∧
      x.pos 2 = .dead ∧ AbnormalEndReported x := by
  obtain ⟨x, hx, hq⟩ := Lib.exists_reach kernelStep (C := Act.RecordsStatus)
    (c := fun _ a => match a with | .halt _ | .exception _ | .loadFail _ => false | _ => true)
    kernelBoot [.create mainTid false, .loaded 2, .wait mainTid 2, .go mainTid, .go mainTid,
      .go mainTid, .go mainTid, .kill 2, .go 2, .go 2]
    (fun x => decide (x.pos mainTid = .wait 2 .down) && decide (x.pos 2 = .dead))
    (fun _ a ha => by cases a <;> trivial) (by decide) (by decide)
  rw [Bool.and_eq_true, decide_eq_true_eq, decide_eq_true_eq] at hq
  exact ⟨x, hx, hq.1, hq.2, abnormal_end_reported hx⟩

/-- Process 2 divides by zero: `kill` ends it, and its parent reads a status that
    nobody wrote. -/
theorem abnormal_end_not_reported :
    ∃ x, Lib.Reach kernelStep Lib.anyStep kernelBoot x ∧ (∀ s, .exits 2 s ∉ x.log) ∧
      .returned mainTid 2 none ∈ x.log ∧ ¬ AbnormalEndReported x := by
  obtain ⟨x, hx, hq⟩ := Lib.exists_reach kernelStep (C := Lib.anyStep) (c := fun _ _ => true)
    kernelBoot ([.create mainTid false, .loaded 2, .exception 2, .go 2, .wait mainTid 2] ++
      List.replicate 8 (.go mainTid))
    (fun x => decide (x.log = [.returned mainTid 2 none, .created mainTid 2]))
    (fun _ _ _ => trivial) (by decide) (by decide)
  rw [decide_eq_true_eq] at hq
  have hret : .returned mainTid 2 none ∈ x.log := by rw [hq]; exact List.mem_cons_self ..
  exact ⟨x, hx, fun s => by simp [hq], hret, fun h => h.written mainTid 2 hret⟩

end Pintos.Userprog
