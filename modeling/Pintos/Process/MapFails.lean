import Pintos.Process.HeldRuns

/- A system call `mmap` that fails.

   `handle_mmap` returns -1 for a descriptor below two, an address that is null or not
   that of a page, and if a page of the file would lie where there is one. Of the first
   three nothing is left. In the last case the file has been reopened to see how long it
   is, and is not closed: `open_cnt` stays one higher, and nobody can reach the file.
   So a call that fails leaves everything as it was exactly if it does not fail for this
   reason (`mmap_fails_cleanly_iff`), whatever the state of the process and of the file
   system.

   Correspondence (C ↔ Lean):
     `handle_mmap` with -1 in `eax`             ↔ `handleMmap … = some (some (-1), _)`
     `sup_page_table_lookup` over the range     ↔ `overlaps` -/
namespace Pintos.Process

open Vm (Tid)
open Filesys
open Lib

/-- The tables and the mappings of all processes, the counts of the inodes and the open
    files are as they were. -/
structure Untouched (x x' : Sys) : Prop where
  supPageTable : ∀ p, (x'.procs p).map Proc.supPageTable = (x.procs p).map Proc.supPageTable
  mappingList : ∀ p, (x'.procs p).map Proc.mappingList = (x.procs p).map Proc.mappingList
  pagedir : ∀ p, (x'.procs p).map Proc.pagedir = (x.procs p).map Proc.pagedir
  openCnt : ∀ s, (x'.fs.openInodes s).map Inode.openCnt = (x.fs.openInodes s).map Inode.openCnt
  files : ∀ f, x'.fs.files f = none ↔ x.fs.files f = none

/-- A call that returns -1 changes nothing, and one for pages that are taken does. -/
structure FailsCleanly (t : Tid) (dirty : Dirty) (fd : Int) (addr : Nat) (x : Sys) (P : Proc) :
    Prop where
  untouched : ∀ x', handleMmap t dirty fd addr x = some (some (-1), x') → Untouched x x'
  refused : overlaps x.fs P fd addr = true →
    ∃ x', handleMmap t dirty fd addr x = some (some (-1), x')

section
variable {t : Tid} {dirty : Dirty} {fd : Int} {addr : Nat} {x : Sys} {P : Proc}

theorem Untouched.refl (x : Sys) : Untouched x x :=
  ⟨fun _ => rfl, fun _ => rfl, fun _ => rfl, fun _ => rfl, fun _ => Iff.rfl⟩

theorem handleMmap_bad (hP : x.procs t = some P) (hbad : BadMap fd addr) :
    handleMmap t dirty fd addr x = some (some (-1), x) := by
  refine bind_eq_some.mpr ⟨P, x, bind_eq_some.mpr ⟨x, x, rfl, by rw [follow, hP]; rfl⟩, ?_⟩
  rw [if_pos hbad]
  rfl

theorem not_untouched_reopen {f file : Nat} {fs' : Fs}
    (h : fileReopen f x.fs = some (some file, fs')) : ¬Untouched x { x with fs := fs' } := by
  intro hu
  obtain ⟨s, n, -, hn, hn', -, -⟩ := fileReopen_inode h
  have hcnt := hu.openCnt s
  rw [hn, show ({ x with fs := fs' } : Sys).fs.openInodes s = _ from hn', Option.map_some,
    Option.map_some, Option.some.injEq] at hcnt
  exact absurd hcnt (Nat.succ_ne_self _)

/-- **Exactly the calls that find a page taken do not fail cleanly.** -/
theorem mmap_fails_cleanly_iff (hP : x.procs t = some P) :
    FailsCleanly t dirty fd addr x P ↔ BadMap fd addr ∨ overlaps x.fs P fd addr = false := by
  constructor
  · intro h
    by_cases hbad : BadMap fd addr
    · exact .inl hbad
    refine .inr (Bool.eq_false_iff.mpr fun hover => ?_)
    -- It has to return -1, and then has reopened the file.
    obtain ⟨x', hx'⟩ := h.refused hover
    obtain ⟨hbad', -⟩ | ⟨-, -, hno, -⟩ | ⟨-, e, file, fs', -, hopen, hout⟩ :=
      handleMmap_cases hP hx'
    · exact hbad hbad'
    · cases hno
    · grind [not_untouched_reopen, h.untouched]
  · rintro (hbad | hfree)
    · refine ⟨fun x' hx' => ?_, fun _ => ⟨x, handleMmap_bad hP hbad⟩⟩
      rw [handleMmap_bad hP hbad] at hx'
      cases hx'
      exact .refl x
    · refine ⟨fun x' hx' => ?_, fun hover => ?_⟩
      · obtain ⟨-, -, rfl⟩ | ⟨-, -, hno, -⟩ | ⟨-, e, file, fs', -, -, hout⟩ :=
          handleMmap_cases hP hx'
        · exact .refl x'
        · cases hno
        · obtain ⟨hover, -⟩ | ⟨-, hret, -⟩ := hout
          · rw [hfree] at hover
            cases hover
          · -- The numbers of mappings are not negative.
            rw [Option.some.injEq] at hret
            split at hret <;> cases hret
      · rw [hfree] at hover
        cases hover

end

/-- A process opens its own program. -/
def openProgram : List SysEvent := [startProgram 1, callOf 1 (.openName program)]

/-- A page that is free when a process starts. -/
def freePage : Nat := 0x10000000

theorem mmap_fails_cleanly_free : ∃ x₀ x P, Booted x₀ ∧ Reach sysStep Allowed x₀ x ∧
    x.procs 1 = some P ∧ overlaps x.fs P 2 freePage = false ∧
    FailsCleanly 1 (fun _ => []) 2 freePage x P := by
  obtain ⟨x₀, x, h₀, hr, hx⟩ := exists_sysRun openProgram (fun x => (x.procs 1).any fun P =>
    !overlaps x.fs P 2 freePage) (by decide +kernel)
  obtain ⟨P, hP, hfree⟩ := (Option.any_eq_true _ _).mp hx
  rw [Bool.not_eq_true'] at hfree
  exact ⟨x₀, x, P, h₀, hr, hP, hfree, (mmap_fails_cleanly_iff hP).mpr (.inr hfree)⟩

def mapProgram : List SysEvent := openProgram ++ [callOf 1 (.mmap 2 freePage)]

/-- **Mapping the file twice at one address leaves a file open.** The second call returns
    -1, and file 6 is there afterwards. -/
theorem mmap_overlap_leaves_file : ∃ x₀ x P, Booted x₀ ∧ Reach sysStep Allowed x₀ x ∧
    x.procs 1 = some P ∧ overlaps x.fs P 2 freePage = true ∧
    ¬FailsCleanly 1 (fun _ => []) 2 freePage x P := by
  obtain ⟨x₀, x, h₀, hr, hx⟩ := exists_sysRun mapProgram (fun x => (x.procs 1).any fun P =>
    overlaps x.fs P 2 freePage && (x.fs.files 6).isNone &&
      (handleMmap 1 (fun _ => []) 2 freePage x).any fun r =>
        r.1 == some (-1) && (r.2.fs.files 6).isSome) (by decide +kernel)
  obtain ⟨P, hP, hx⟩ := (Option.any_eq_true _ _).mp hx
  rw [Bool.and_eq_true, Bool.and_eq_true, Option.isNone_iff_eq_none] at hx
  obtain ⟨⟨hover, hnone⟩, hmap⟩ := hx
  obtain ⟨⟨r, x'⟩, hr', hout⟩ := (Option.any_eq_true _ _).mp hmap
  rw [Bool.and_eq_true, beq_iff_eq] at hout
  obtain ⟨rfl, hopen⟩ := hout
  refine ⟨x₀, x, P, h₀, hr, hP, hover, fun h => ?_⟩
  rw [((h.untouched x' hr').files 6).mpr hnone] at hopen
  cases hopen

end Pintos.Process
