import Pintos.Process.HeldRuns

/- Executables that run are not written.

   `load` denies writes to the executable through the `struct file` that the process
   keeps; the flag is per file, the counter per inode, and `file_close` takes the file
   out of the count. Over every run of processes, with any other calls that open, reopen,
   close, deny and allow in between:
     1. the counter of an inode is the number of its open files that deny writes, and at
        most `open_cnt`, so that no assertion about it fails;
     2. while a process runs the file, `inode_write_at` changes no byte of its inode or
        data, whichever inode it is called for;
     3. a file that no process runs, and that nobody else denies, can be written.

   Correspondence (C ↔ Lean):
     `deny_write_cnt`, `open_cnt`         ↔ `Inode.denyWriteCnt`, `Inode.openCnt`
     `self_file`                          ↔ `Proc.selfFile`
     `inode_write_at`                     ↔ `inodeWriteAt` -/
namespace Pintos.Process

open Vm (Buf)
open Filesys
open Lib

/-- The open files of an inode that deny writes. -/
def denying (fs : Fs) (s : Nat) : Set Nat :=
  {f | ∃ F, fs.files f = some F ∧ F.inode = s ∧ F.denyWrite = true}

structure WriteProtected (x : Sys) : Prop where
  counted : ∀ {s n}, x.fs.openInodes s = some n →
    n.denyWriteCnt = (denying x.fs s).ncard ∧ n.denyWriteCnt ≤ n.openCnt
  asserts : ∀ {f}, Usable x.fs f → wp (fileDenyWrite f) (fun _ _ => True) x.fs ∧
    wp (fileAllowWrite f) (fun _ _ => True) x.fs ∧ wp (fileClose (some f)) (fun _ _ => True) x.fs
  running : ∀ {t f}, x.selfFile t = some f → ∃ F, x.fs.files f = some F ∧
    ∀ s, x.fs.openInodes s ≠ none → ∀ buffer size offset,
      wp (inodeWriteAt s buffer size offset) (fun _ fs' =>
        ∀ a, Occupies F.inode (x.fs.disk.inodeAt F.inode) (a / sectorSize) →
          fs'.disk.byte a = x.fs.disk.byte a) x.fs
  again : ∀ {s n}, x.fs.openInodes s = some n →
    (∀ t f F, x.selfFile t = some f → x.fs.files f = some F → F.inode ≠ s) →
    (∀ f ∈ x.denied, ∀ F, x.fs.files f = some F → F.inode ≠ s) → ∀ buffer size offset,
      wp (inodeWriteAt s buffer size offset) (fun k fs' =>
        fs'.disk = x.fs.disk.patch (sectorSize * n.data.start + offset) k buffer ∧
        (Bounces x.fs.heap → k = n.data.want size offset)) x.fs

section
variable {fs : Fs} {g : Ghost} {s : Nat} {n : Inode}

theorem denyCnt_eq (h : Core fs g) (hf : Files fs g) (hn : fs.openInodes s = some n) :
    n.denyWriteCnt = (denying fs s).ncard := by
  have hmem : ∀ f, deniesWrite (fs.files f) s = true ↔ f ∈ denying fs s := by
    intro f
    rw [deniesWrite, Option.any_eq_true]
    refine exists_congr fun F => and_congr_right fun _ => ?_
    rw [Bool.and_eq_true, decide_eq_true_eq]
  rw [(h.opened hn).2.2, hf.deny, Fs.deniers, tally_eq_ncard fun f hd => ?_]
  · exact congrArg Set.ncard (Set.ext hmem)
  · obtain ⟨F, hF, -⟩ := (hmem f).mp hd
    exact hf.lt hF

theorem denyCnt_ne_zero (h : Core fs g) (hf : Files fs g) (hn : fs.openInodes s = some n) {f : Nat}
    (hd : f ∈ denying fs s) : n.denyWriteCnt ≠ 0 := by
  rw [denyCnt_eq h hf hn]
  have hfin : (denying fs s).Finite := by
    refine (Set.finite_lt_nat fs.nextFile).subset ?_
    rintro f ⟨F, hF, -⟩
    exact hf.lt hF
  exact Set.ncard_ne_zero_of_mem hd hfin

/-- A write to an inode leaves the sectors of the others alone, and those of its own if
    it is denied. -/
theorem write_apart (h : Core fs g) (hn : fs.openInodes s = some n) {t : Nat} {m : Inode}
    (hm : fs.openInodes t = some m) (hdeny : s = t → n.denyWriteCnt ≠ 0) (buffer : Buf)
    (size offset : Nat) :
    wp (inodeWriteAt s buffer size offset) (fun _ fs' => ∀ a,
      Occupies t m.data (a / sectorSize) → fs'.disk.byte a = fs.disk.byte a) fs := by
  by_cases hd : n.denyWriteCnt = 0
  · have hne : s ≠ t := fun heq => hdeny heq hd
    have hs := (h.opened hn).1
    have ht := (h.opened hm).1
    have hfine := h.space.fine hs
    refine wp_mono (inodeWriteAt_spec hn hfine.onDisk hd buffer size offset) ?_
    rintro k fs' ⟨heap, rfl, hmoved⟩ a hocc
    refine (SameOff.patch hmoved.countOf fs.disk buffer).byte a fun hdata => hne ?_
    exact h.space.excl.apart hs ht (.inr (hfine.holds_of_data hdata)) hocc
  · grind [wp_mono, inodeWriteAt_denied]

end

/-- **Running executables are write-protected**, in every state of every run. -/
theorem write_protected {x₀ x : Sys} (h₀ : Booted x₀) (h : Reach sysStep Allowed x₀ x) :
    WriteProtected x := by
  have hx := inv_of_reach h₀ h
  obtain ⟨g, hc, hf⟩ := id hx.ok
  refine ⟨fun {s n} hn => ⟨denyCnt_eq hc hf hn, ?_⟩, fun {f} hu => ?_, fun {t f} hself => ?_,
    fun {s n} hn hrun hden buffer size offset => ?_⟩
  · obtain ⟨-, hcnt, hdeny⟩ := hc.opened hn
    rw [hcnt, hdeny]
    exact hc.deny_le s
  · grind [hu.file, wp_mono, hx.ok.fileDenyWrite, hu.notMap, hx.ok.fileAllowWrite, hx.ok.fileClose]
  · obtain ⟨F, hF, hd⟩ := hx.self hself
    refine ⟨F, hF, fun s hs buffer size offset => ?_⟩
    obtain ⟨n, hn⟩ := Option.ne_none_iff_exists'.mp hs
    obtain ⟨m, hm⟩ := hc.inode (hf.pos hF)
    rw [show x.fs.disk.inodeAt F.inode = m.data from (hc.space.fine (hc.opened hm).1).stored]
    refine write_apart hc hn hm (fun heq => ?_) buffer size offset
    exact denyCnt_ne_zero hc hf hn ⟨F, hF, heq.symm, hd⟩
  · -- A file that denied writes would be an executable that runs, or one of `denied`.
    have hzero : n.denyWriteCnt = 0 := by
      have hempty : denying x.fs s = ∅ := by
        refine Set.eq_empty_of_forall_notMem ?_
        rintro f ⟨F, hF, hinode, hd⟩
        obtain hmem | ⟨t, ht⟩ := hx.deny hF hd
        · exact hden f hmem F hF hinode
        · exact hrun t f F ht hF hinode
      rw [denyCnt_eq hc hf hn, hempty, Set.ncard_empty]
    have hfine := hc.space.fine (hc.opened hn).1
    refine wp_mono (inodeWriteAt_spec hn hfine.onDisk hzero buffer size offset) ?_
    rintro k fs' ⟨heap, rfl, hmoved⟩
    refine ⟨rfl, fun hb => ?_⟩
    obtain hk | ⟨-, -, hno⟩ := hmoved.count
    · exact hk
    · exact absurd hb hno

/-- A process runs the program, and has it open for writing. -/
theorem write_protected_program : ∃ x₀ x, Booted x₀ ∧ Reach sysStep Allowed x₀ x ∧
    (x.selfFile 1).isSome = true ∧ (x.fs.openInodes 4).isSome = true ∧ WriteProtected x := by
  obtain ⟨x₀, x, h₀, hr, hx⟩ := exists_sysRun [startProgram 1, callOf 1 (.openName program)]
    (fun x => (x.selfFile 1).isSome && (x.fs.openInodes 4).isSome) (by decide +kernel)
  rw [Bool.and_eq_true] at hx
  exact ⟨x₀, x, h₀, hr, hx.1, hx.2, write_protected h₀ hr⟩

end Pintos.Process
