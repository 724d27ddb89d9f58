import Pintos.Filesys.Create
import Pintos.Lib.Tally

/- Open files.

   Between operations every reference to an inode is that of a `struct file`: `Files`
   says that the counts of an inode are the numbers of its open files and of those that
   deny writes. With the invariant of the previous modules this is kept by every
   operation on files. -/
namespace Pintos.Filesys

open Lib Function

/-- A `struct file` is one of this inode; it denies writes to it. -/
def onInode (o : Option File) (s : Nat) : Bool := o.any fun f => f.inode = s

def deniesWrite (o : Option File) (s : Nat) : Bool := o.any fun f => f.inode = s && f.denyWrite

/-- The open files of an inode, and those among them that deny writes. -/
def Fs.openFiles (fs : Fs) (s : Nat) : Nat := tally (fun f => onInode (fs.files f) s) fs.nextFile

def Fs.deniers (fs : Fs) (s : Nat) : Nat := tally (fun f => deniesWrite (fs.files f) s) fs.nextFile

structure Files (fs : Fs) (g : Ghost) : Prop where
  fresh : ∀ f, fs.nextFile ≤ f → fs.files f = none
  cnt : ∀ s, g.cnt s = fs.openFiles s
  deny : ∀ s, g.deny s = fs.deniers s
  map : ∀ {f F}, fs.files f = some F → F.inode = freeMapSector → fs.freeMapFile = some f
  root : ∀ {f F}, fs.files f = some F → F.inode ≠ rootDirSector

section
variable {fs fs' : Fs} {g : Ghost} {f : Nat} {F : File}

theorem Files.lt (h : Files fs g) (hf : fs.files f = some F) : f < fs.nextFile := by
  by_contra hlt
  rw [h.fresh f (by omega)] at hf
  cases hf

theorem Files.pos (h : Files fs g) (hf : fs.files f = some F) : 0 < g.cnt F.inode := by
  rw [h.cnt]
  exact tally_pos (h.lt hf) (by simp [onInode, hf])

theorem Files.congr (h : Files fs g) (hs : SameHandles fs fs') : Files fs' g where
  fresh := by rw [hs.files, hs.nextFile]; exact h.fresh
  cnt := fun s => by rw [h.cnt, Fs.openFiles, Fs.openFiles, hs.files, hs.nextFile]
  deny := fun s => by rw [h.deny, Fs.deniers, Fs.deniers, hs.files, hs.nextFile]
  map := by rw [hs.files, hs.freeMapFile]; exact h.map
  root := by rw [hs.files]; exact h.root

/-- The state with a new `struct file`. -/
def Fs.addFile (fs : Fs) (F : File) : Fs :=
  { fs with
    files := update fs.files fs.nextFile (some F)
    nextFile := fs.nextFile + 1 }

theorem Fs.addFile_cases {x : Nat} {G : File} (hx : (fs.addFile F).files x = some G) :
    (x = fs.nextFile ∧ G = F) ∨ fs.files x = some G := by
  by_cases hxn : x = fs.nextFile
  · subst hxn
    simp only [addFile, update_self, Option.some.injEq] at hx
    exact Or.inl ⟨rfl, hx.symm⟩
  · simp only [addFile, update_of_ne hxn] at hx
    exact Or.inr hx

theorem Fs.openFiles_add (fs : Fs) (F : File) (t : Nat) :
    (fs.addFile F).openFiles t = fs.openFiles t + (onInode (some F) t).toNat :=
  tally_push (onInode · t) fs.files _

theorem Fs.deniers_add (fs : Fs) (F : File) (t : Nat) :
    (fs.addFile F).deniers t = fs.deniers t + (deniesWrite (some F) t).toNat :=
  tally_push (deniesWrite · t) fs.files _

theorem Files.new (h : Files fs g) {s : Nat} (hs0 : s ≠ freeMapSector) (hs1 : s ≠ rootDirSector) :
    Files (fs.addFile ⟨s, 0, false⟩) (g.bump s) := by
  refine ⟨fun x hx => ?_, fun t => ?_, fun t => ?_, fun {x G} hx hi => ?_, fun {x G} hx => ?_⟩
  · have hne : x ≠ fs.nextFile := Nat.ne_of_gt hx
    simp only [Fs.addFile, update_of_ne hne]
    exact h.fresh x (Nat.le_of_succ_le hx)
  · grind [Fs.openFiles_add, onInode, Ghost.bump_self, h.cnt, Ghost.bump_ne]
  · rw [Fs.deniers_add]
    simp only [deniesWrite, Option.any_some, Bool.and_false]
    exact h.deny t
  · rcases Fs.addFile_cases hx with ⟨-, rfl⟩ | hx
    · exact absurd hi hs0
    · exact h.map hx hi
  · rcases Fs.addFile_cases hx with ⟨-, rfl⟩ | hx
    · exact hs1
    · exact h.root hx

theorem Fs.openFiles_set (hf : f < fs.nextFile) (o : Option File) (t : Nat) :
    Fs.openFiles { fs with files := update fs.files f o } t +
      (onInode (fs.files f) t).toNat = fs.openFiles t + (onInode o t).toNat :=
  tally_update (onInode · t) fs.files hf o

theorem Fs.deniers_set (hf : f < fs.nextFile) (o : Option File) (t : Nat) :
    Fs.deniers { fs with files := update fs.files f o } t +
      (deniesWrite (fs.files f) t).toNat = fs.deniers t + (deniesWrite o t).toNat :=
  tally_update (deniesWrite · t) fs.files hf o

section
variable (h : Files fs g) (hf : fs.files f = some F)
include h hf

theorem Files.set {o : Option File} {c dc : Nat → Nat}
    (hinode : ∀ G, o = some G → G.inode = F.inode)
    (hc : ∀ t, c t + (onInode (some F) t).toNat = g.cnt t + (onInode o t).toNat)
    (hd : ∀ t, dc t + (deniesWrite (some F) t).toNat = g.deny t + (deniesWrite o t).toNat) :
    Files { fs with files := update fs.files f o } { g with cnt := c, deny := dc } := by
  have hcases : ∀ {x G}, update fs.files f o x = some G →
      ∃ G', fs.files x = some G' ∧ G.inode = G'.inode := by grind
  refine ⟨fun x hx => ?_, fun t => ?_, fun t => ?_, fun hx hi => ?_, fun hx => ?_⟩
  · grind [h.fresh]
  · grind [Fs.openFiles_set, h.lt, h.cnt]
  · grind [Fs.deniers_set, h.lt, h.deny]
  · obtain ⟨G', hG, heq⟩ := hcases hx
    exact h.map hG (heq ▸ hi)
  · obtain ⟨G', hG, heq⟩ := hcases hx
    exact heq ▸ h.root hG

theorem Files.drop (hdeny : F.denyWrite = false) :
    Files { fs with files := update fs.files f none } (g.drop F.inode) := by
  have hpos := h.pos hf
  refine h.set hf (fun G hG => (by cases hG)) (fun t => ?_) fun t => ?_
  · grind [onInode]
  · simp only [deniesWrite, Option.any_some, Option.any_none, hdeny, Bool.and_false]

theorem Files.seek (pos : Nat) :
    Files { fs with files := update fs.files f (some { F with pos := pos }) } g :=
  h.set hf (fun G hG => by cases hG; rfl) (fun _ => rfl) fun _ => rfl

theorem Files.setDeny {deny : Bool} {dc : Nat}
    (hdc : dc + F.denyWrite.toNat = g.deny F.inode + deny.toNat) :
    Files { fs with files := update fs.files f (some { F with denyWrite := deny }) }
      { g with deny := update g.deny F.inode dc } := by
  refine h.set hf (fun G hG => by cases hG; rfl) (fun _ => rfl) fun t => ?_
  simp only [deniesWrite, Option.any_some]
  by_cases ht : t = F.inode
  · grind
  · simp only [update_of_ne ht, decide_eq_false (Ne.symm ht), Bool.false_and]

end

end

end Pintos.Filesys
