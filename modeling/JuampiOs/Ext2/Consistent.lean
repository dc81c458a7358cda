import JuampiOs.Ext2.DirOps
import JuampiOs.Ext2.Truncate

/-!
# Consistent file systems

What an ext2 image promises between calls. `Core` collects what every call relies on and keeps:
well-formed directories that form a tree, counters that agree with the bitmaps, link counts of
files (`Sane`), and blocks with one owner each. `Consistent` adds the link counts of directories
and that no block is lost.
-/

namespace JuampiOs.Ext2

open Lib Inode

variable {fs : Fs} {G : Layout fs} {v v' : View}

/-! ## Inodes and their blocks -/

def S_IFIFO : UInt16 := 0x1000

def S_IFCHR : UInt16 := 0x2000

def S_IFBLK : UInt16 := 0x6000

def S_IFLNK : UInt16 := 0xA000

def S_IFSOCK : UInt16 := 0xC000

/-- Whether the pointers of an inode are block numbers. They are not in a device, a fifo or a
socket, nor in a symbolic link that has its text in their place: one with no blocks besides that
of its extended attributes. -/
def Inode.holdsBlocks (fs : Fs) (ino : Inode) : Bool :=
  let fmt := ino.mode &&& S_IFMT
  let acl := if ino.fileAcl = 0 then 0 else UInt32.ofNat (fs.blockSize / 512)
  !(fmt == S_IFIFO || fmt == S_IFCHR || fmt == S_IFBLK || fmt == S_IFSOCK ||
    (fmt == S_IFLNK && ino.blocks == acl))

/-- The inodes that hold blocks: allocated ones whose pointers are block numbers. -/
def logical (fs : Fs) (v : View) (x : Nat) : Option Inode :=
  if v.live fs x && (v.inode x).holdsBlocks fs then some (v.inode x) else none

variable {ino : Inode}

theorem holdsBlocks_of_isDir (h : ino.isDir = true) : ino.holdsBlocks fs = true := by
  unfold holdsBlocks
  rw [beq_iff_eq.mp h]
  simp [S_IFDIR, S_IFIFO, S_IFCHR, S_IFBLK, S_IFSOCK, S_IFLNK]

theorem holdsBlocks_of_isReg (h : ino.isReg = true) : ino.holdsBlocks fs = true := by
  unfold holdsBlocks
  rw [beq_iff_eq.mp h]
  simp [S_IFREG, S_IFIFO, S_IFCHR, S_IFBLK, S_IFSOCK, S_IFLNK]

variable {x : Nat}

theorem logical_of_live (hx : v.live fs x = true)
    (hb : (v.inode x).holdsBlocks fs = true) : logical fs v x = some (v.inode x) := by
  simp [logical, hx, hb]

theorem logical_eq_some (hx : v.live fs x = true) (hino : v.inode x = ino)
    (hb : ino.holdsBlocks fs = true) : logical fs v x = some ino := by
  subst hino
  exact logical_of_live hx hb

theorem logical_of_liveDir (hx : v.liveDir fs x = true) :
    logical fs v x = some (v.inode x) :=
  logical_of_live (liveDir_iff.mp hx).1 (holdsBlocks_of_isDir (liveDir_iff.mp hx).2)

theorem logical_of_not_live (hx : v.live fs x = false) : logical fs v x = none := by
  simp [logical, hx]

theorem logical_some (h : logical fs v x = some ino) :
    v.live fs x = true ∧ ino = v.inode x ∧ ino.holdsBlocks fs = true := by
  unfold logical at h
  split at h
  · rename_i hc
    obtain ⟨hlive, hb⟩ := Bool.and_eq_true_iff.mp hc
    obtain rfl := Option.some.inj h
    exact ⟨hlive, rfl, hb⟩
  · cases h

theorem View.live_congr (h : v'.iused x = v.iused x) : v'.live fs x = v.live fs x := by
  unfold View.live
  rw [h]

/-! ## Consistency -/

/-- The first inode that is not reserved: `first_ino` of the superblock, 11 in revision 0. -/
def Fs.firstIno (fs : Fs) : Nat :=
  if 1 ≤ (fs.raw.get32 76).toNat then (fs.raw.get32 84).toNat else 11

/-- All inode numbers. -/
def Fs.inodes (fs : Fs) : Finset Nat := Finset.range (fs.groups * fs.inodesPerGroup + 1)

/-- The allocated directories of group `g`. -/
def View.dirsIn (fs : Fs) (v : View) (g : Nat) : Nat :=
  count fs.inodesPerGroup fun i => v.liveDir fs (fs.inodeNo g i)

/-- The counters of directories agree with the inodes. -/
def DirCount (fs : Fs) (v : View) : Prop :=
  ∀ g, g < fs.groups → (v.gd g).usedDirsCount.toNat = v.dirsIn fs g

/-- Names and inodes: the directories form a tree, and the counters agree with it. -/
structure Sane (fs : Fs) (v : View) : Prop where
  inodeBits : InodeBits fs v
  dirCount : DirCount fs v
  dirs : ∀ x, v.liveDir fs x = true → DirOk fs v.data (v.inode x)
  files : ∀ x, v.live fs x = true → (v.inode x).isReg = true →
    inodeFileSize fs (v.inode x) < 2 ^ 41
  tree : (v.tree fs).Ok conv
  targets : ∀ x name y, (name, y) ∈ (v.tree fs).ents x → v.live fs y = true
  reserved : ∀ x, fs.ValidIno x → x < fs.firstIno → v.iused x = true
  /-- reserved inodes have no names -/
  unreserved : ∀ x name y, conv.Named name → (name, y) ∈ (v.tree fs).ents x → fs.firstIno ≤ y
  reach : ∀ x, v.live fs x = true → fs.firstIno ≤ x → (v.tree fs).Reach conv x
  links : ∀ x, v.live fs x = true → (v.inode x).isDir = false → fs.firstIno ≤ x →
    (v.inode x).linksCount.toNat = (v.tree fs).refs fs.inodes x

/-- What every call relies on and keeps. -/
structure Core (G : Layout fs) (v : View) : Prop extends Sane fs v where
  world : World G (logical fs v) v

/-- The link count of a directory: its own ".", its entry in the parent, and a ".." for each
subdirectory. -/
def DirLinks (fs : Fs) (v : View) : Prop :=
  ∀ x, v.liveDir fs x = true → (v.inode x).linksCount.toNat = 2 + (v.tree fs).subdirs conv x

/-- There are regular files and directories only, reserved inodes apart. -/
def Plain (fs : Fs) (v : View) : Prop :=
  ∀ x, v.live fs x = true → fs.firstIno ≤ x → (v.inode x).isReg = true ∨ (v.inode x).isDir = true

/-- A consistent file system. -/
structure Consistent (G : Layout fs) (v : View) : Prop extends Core G v where
  dirLinks : DirLinks fs v
  noLeak : ∀ b, ¬ Leaked G (logical fs v) v b

theorem Core.readable (h : Core G v) : Readable G v :=
  ⟨h.tree.root, fun x hx => ⟨h.world.blocks.mapped (logical_of_liveDir hx), h.dirs x hx⟩,
    fun x hx hreg => ⟨h.world.blocks.mapped (logical_of_live hx (holdsBlocks_of_isReg hreg)),
      h.files x hx hreg⟩, h.targets⟩

/-! ## Inodes that are left alone -/

/-- Inode `x` is left alone, with everything it holds. -/
structure Frame (fs : Fs) (v v' : View) (x : Nat) : Prop where
  iused : v'.iused x = v.iused x
  inode : v'.inode x = v.inode x
  data : ∀ σ b, At fs (logical fs v) v.data x σ b → v'.data b = v.data b

namespace Frame

variable {x : Nat}

section

variable (h : Frame fs v v' x)
include h

theorem live : v'.live fs x = v.live fs x := View.live_congr h.iused

theorem liveDir : v'.liveDir fs x = v.liveDir fs x := by
  unfold View.liveDir
  rw [h.live, h.inode]

theorem logical : logical fs v' x = logical fs v x := by
  unfold Ext2.logical
  rw [h.live, h.inode]

theorem at_iff (σ : PtrSlot) (b : Nat) :
    At fs (Ext2.logical fs v') v'.data x σ b ↔ At fs (Ext2.logical fs v) v.data x σ b :=
  at_congr h.logical (fun τ c hc _ => h.data τ c hc) σ b

end

variable (hx : v.live fs x = true) (hb : (v.inode x).holdsBlocks fs = true)

include hx hb

section

variable (h : Frame fs v v' x)
include h

theorem fileBlk_eq (i : Nat) :
    fileBlk fs v'.data (v.inode x) i = fileBlk fs v.data (v.inode x) i := by
  have hI := logical_of_live hx hb
  unfold fileBlk
  cases hi : fileSlot fs i with
  | none => rfl
  | some σ =>
    exact ref_congr (fun τ hτ _ hτ0 => h.data τ _ ((Ext2.at_iff hI).mpr ⟨hτ, rfl, hτ0⟩)) σ
      (fileSlot_ok hi)

theorem data_fileBlk {i : Nat} (h0 : fileBlk fs v.data (v.inode x) i ≠ 0) :
    v'.data (fileBlk fs v.data (v.inode x) i) = v.data (fileBlk fs v.data (v.inode x) i) := by
  obtain ⟨σ, _, hat⟩ := at_fileBlk (logical_of_live hx hb) h0
  exact h.data σ _ hat

theorem fileBlock_eq (i : Nat) :
    fileBlock fs v'.data (v.inode x) i = fileBlock fs v.data (v.inode x) i :=
  fileBlock_congr (h.fileBlk_eq hx hb i) (h.data_fileBlk hx hb)

theorem bytes : v'.bytes fs x = v.bytes fs x := by
  unfold View.bytes fileBytes
  rw [h.inode]
  simp only [h.fileBlock_eq hx hb]

theorem dirEntries_eq : dirEntries fs v'.data (v'.inode x) = dirEntries fs v.data (v.inode x) := by
  unfold dirEntries
  rw [h.inode]
  simp only [h.fileBlock_eq hx hb]

theorem dirOk (hok : DirOk fs v.data (v.inode x)) : DirOk fs v'.data (v'.inode x) := by
  have hnames := h.dirEntries_eq hx hb ▸ hok.names
  rw [h.inode] at hnames ⊢
  refine ⟨⟨hok.isDir, hok.size, fun i hi h0 => ?_, fun i hi => ?_⟩, hnames⟩
  · rw [h.fileBlk_eq hx hb] at h0 ⊢
    rw [h.data_fileBlk hx hb h0]
    exact hok.blocks i hi h0
  · rw [h.fileBlk_eq hx hb]
    exact hok.beyond i hi

end

omit hx hb

theorem ents (h : Frame fs v v' x) : (v'.tree fs).ents x = (v.tree fs).ents x := by
  unfold View.tree
  simp only [h.liveDir]
  split
  · rename_i hd
    obtain ⟨hlive, hdir⟩ := liveDir_iff.mp hd
    rw [h.dirEntries_eq hlive (holdsBlocks_of_isDir hdir)]
  · rfl

theorem refl (fs : Fs) (v : View) (x : Nat) : Frame fs v v x := ⟨rfl, rfl, fun _ _ _ => rfl⟩

end Frame

/-! ## Counting directories -/

theorem dirsIn_congr (h : ∀ x, fs.ValidIno x → v'.liveDir fs x = v.liveDir fs x) {g : Nat}
    (hg : g < fs.groups) : v'.dirsIn fs g = v.dirsIn fs g :=
  count_congr fun _ hi => h _ (validIno_inodeNo hg hi)

theorem dirsIn_step (G : Layout fs) (hx : fs.ValidIno x) (hnew : v'.liveDir fs x = true)
    (hold : v.liveDir fs x = false) (hother : ∀ y, y ≠ x → v'.liveDir fs y = v.liveDir fs y) :
    v'.dirsIn fs (fs.inoGroup x) = v.dirsIn fs (fs.inoGroup x) + 1 ∧
      ∀ g, g ≠ fs.inoGroup x → v'.dirsIn fs g = v.dirsIn fs g := by
  obtain ⟨_, hlt, hno⟩ := inoPlace_lt G hx
  refine count_group_step (p := v'.liveDir fs) (q := v.liveDir fs) inodeNo_inj hlt ?_ ?_ ?_ <;>
    rw [Fs.inoGroup, hno]
  · exact hnew
  · exact hold
  · exact hother

end JuampiOs.Ext2
