import JuampiOs.Ext2.Fsck
import JuampiOs.Ext2.Mounted

/-!
# Checked images

A device whose bytes pass `imageCheck` holds a consistent file system, and mounting it shows that
file system (`Checked.shows`). `SmallImage` builds such devices: one group of 1 KiB blocks with
sixteen inodes, as `mke2fs` lays them out.
-/

namespace JuampiOs.Ext2

open Lib BlockDev Buf

/-! ## Devices that pass the checks -/

/-- The superblock on a device, its counters, and its parameters. -/
def sbOf (dev : BlockDev) : Buf := Buf.take 1024 fun i => dev.disk (1024 + i)

def fsOf (dev : BlockDev) : Fs := Fs.ofSuperblock (sbOf dev)

/-- The file system the bytes of a device decode to. -/
def diskView (dev : BlockDev) (P : Places) : View :=
  viewOf (fsOf dev) P ⟨dev.block (fsOf dev).blockSize, Counts.ofSuperblock (sbOf dev)⟩

/-- Whether a device can be mounted and holds a consistent file system. -/
def imageCheck (dev : BlockDev) (P : Places) (sys : List Nat) (depth : Nat) : Bool :=
  decide (dev.nsectors ≠ 0) && decide ((sbOf dev).get16 56 = EXT2_MAGIC) &&
    decide (PlacesOk (fsOf dev) P (diskView dev P)) && fsck (fsOf dev) sys depth (diskView dev P)

theorem raw_param (sb : Buf) {i : Nat} (hi : Param i) : (Fs.ofSuperblock sb).raw i = sb i := by
  unfold Param at hi
  show ((sb.take sbBytes).put32 12 0).put32 16 0 i = sb i
  unfold put32
  have hlt : i < sbBytes := by
    unfold sbBytes at hi ⊢
    omega
  rw [blit_of_notMem (by omega), blit_of_notMem (by omega), take_of_lt _ hlt]

/-- With the counters put back the parameters in memory are the superblock. -/
theorem superblock_ofSuperblock (sb : Buf) {i : Nat} (hi : i < sbBytes) :
    (Fs.ofSuperblock sb).superblock (Counts.ofSuperblock sb) i = sb i := by
  by_cases hp : Param i
  · rw [superblock_param _ hp, raw_param sb hp]
  have h12 : 12 ≤ i ∧ i < 20 := by
    unfold Param at hp
    omega
  unfold Fs.superblock Counts.ofSuperblock put32
  by_cases h16 : 16 ≤ i
  · rw [blit_of_mem (by omega), le32_get32 _ _ _ (by omega), Nat.add_sub_cancel' h16]
  · rw [blit_of_notMem (by omega), blit_of_mem (by omega),
      le32_get32 _ _ _ (by omega), Nat.add_sub_cancel' h12.1]

theorem fromDisk_ofSuperblock {sb : Buf} (hmagic : sb.get16 56 = EXT2_MAGIC) :
    (Fs.ofSuperblock sb).FromDisk where
  params := ofSuperblock_congr fun _ hi => raw_param sb hi
  magic := by
    rw [← hmagic]
    exact get16_congr fun k hk => raw_param sb (Or.inr (by unfold sbBytes; omega))

section Checked

variable {dev : BlockDev} {P : Places} {sys : List Nat} {depth : Nat}

/-- A device whose layout and contents pass the checks. -/
structure Checked (dev : BlockDev) (P : Places) (sys : List Nat) (depth : Nat) : Prop where
  layout : layoutOk (fsOf dev) P sys = true
  image : imageCheck dev P sys depth = true

namespace Checked

/-- The layout of a checked device. -/
def toLayout (h : Checked dev P sys depth) : Layout (fsOf dev) := Layout.ofCheck h.layout

theorem consistent (h : Checked dev P sys depth) : Consistent h.toLayout (diskView dev P) := by
  have himage := h.image
  simp only [imageCheck, Bool.and_eq_true] at himage
  exact consistent_of_fsck (fun b => Iff.rfl) himage.2

theorem onDisk (h : Checked dev P sys depth) : OnDisk h.toLayout dev (diskView dev P) := by
  have himage := h.image
  simp only [imageCheck, Bool.and_eq_true, decide_eq_true_eq] at himage
  refine abs_viewOf h.toLayout _ himage.1.2 fun i hi => ?_
  have hle := h.toLayout.blockSize.sb_le
  have haddr := BlockSizeOk.sb_addr (fsOf dev).blockSize
  have hlt : i < 104 := hi
  show dev.block (fsOf dev).blockSize (sbBlk (fsOf dev).blockSize) _ =
    (Fs.ofSuperblock (sbOf dev)).superblock (Counts.ofSuperblock (sbOf dev)) i
  rw [superblock_ofSuperblock _ hi, BlockDev.block, take_of_lt _ (by omega), sbOf,
    take_of_lt _ (by omega)]
  congr 1
  omega

/-- **Mounting a checked device shows its file system.** -/
theorem shows (h : Checked dev P sys depth) (hr : dev.ReadsOk) (hw : dev.WritesOk) (st : Mount) :
    (ext2Mount st dev).1 = true ∧ Shows h.toLayout (ext2Mount st dev).2 (diskView dev P) := by
  have himage := h.image
  simp only [imageCheck, Bool.and_eq_true, decide_eq_true_eq] at himage
  exact mount_shows (fromDisk_ofSuperblock himage.1.1.2) h.onDisk himage.1.1.1 hr hw st

end Checked

end Checked

/-! ## Small images -/

/-- One group of 1 KiB blocks and sixteen inodes: the superblock is block 1, the group
descriptors are block 2, the bitmaps blocks 3 and 4, the inode table blocks 5 and 6, and data
starts at block 7. -/
structure SmallImage where
  blocksCount : Nat
  blocksPerGroup : Nat
  /-- the inodes in use from 11 on, and the root -/
  inodes : List (Nat × Inode)
  /-- the data blocks in use -/
  blocks : List (Nat × Buf)

namespace SmallImage

variable (m : SmallImage)

/-- A bitmap of `n` bits. -/
def bitmap (n : Nat) (used : Nat → Bool) : Buf := fun i =>
  UInt8.ofNat (((List.range 8).map fun k => if 8 * i + k < n ∧ used (8 * i + k) then 2 ^ k else 0).sum)

def blockUsed (i : Nat) : Bool :=
  decide (i + 1 < 7) || decide (m.blocksCount ≤ i + 1) || (m.blocks.map Prod.fst).contains (i + 1)

def inodeUsed (i : Nat) : Bool :=
  decide (i + 1 < 11) || (m.inodes.map Prod.fst).contains (i + 1)

def freeBlocks : Nat := (List.range m.blocksPerGroup).countP fun i => !m.blockUsed i

def freeInodes : Nat := (List.range 16).countP fun i => !m.inodeUsed i

def sb : Buf :=
  Buf.zero |>.put32 0 16 |>.put32 4 (UInt32.ofNat m.blocksCount)
    |>.put32 12 (UInt32.ofNat m.freeBlocks) |>.put32 16 (UInt32.ofNat m.freeInodes)
    |>.put32 20 1 |>.put32 32 (UInt32.ofNat m.blocksPerGroup) |>.put32 40 16
    |>.put16 56 EXT2_MAGIC

def gd : GroupDesc :=
  { blockBitmap := 3, inodeBitmap := 4, inodeTable := 5
    freeBlocksCount := UInt16.ofNat m.freeBlocks
    freeInodesCount := UInt16.ofNat m.freeInodes
    usedDirsCount := UInt16.ofNat ((m.inodes.filter fun q => q.2.isDir).length)
    pad := 0, reserved := fun _ => 0 }

/-- The inode table, as one run of bytes. -/
def table : Buf := fun i => ((m.inodes.lookup (i / 128 + 1)).getD Inode.zero).encode (i % 128)

def block (b : Nat) : Buf :=
  if b = 1 then m.sb
  else if b = 2 then m.gd.encode
  else if b = 3 then bitmap m.blocksPerGroup m.blockUsed
  else if b = 4 then bitmap 16 m.inodeUsed
  else if b = 5 then m.table
  else if b = 6 then fun i => m.table (1024 + i)
  else (m.blocks.lookup b).getD Buf.zero

/-- The device, whose writes fail as `writeFault` says. -/
def dev (writeFault : Nat → Option Torn) : BlockDev :=
  { disk := fun a => m.block (a / 1024) (a % 1024), nsectors := 2 * m.blocksCount
    readFault := fun _ => false, writeFault := writeFault, nreads := 0, nwrites := 0 }

def places : Places := ⟨fun _ => 3, fun _ => 4, fun _ => 5⟩

def sys : List Nat := [1, 2, 3, 4, 5, 6]

/-- The parameters all small images have. -/
def smallFs : Fs :=
  { raw := Buf.zero, blocksCount := 0, blocksPerGroup := 0, inodesPerGroup := 0, firstDataBlock := 1
    blockSize := 1024, inodeSize := 128, groups := 1, hasFiletype := false, largeFile := false }

/-- An inode that holds the `n` blocks from `first` on. -/
def inode (mode : UInt16) (links size first n : Nat) : Inode := { Inode.zero with
  mode := mode
  linksCount := UInt16.ofNat links
  size := UInt32.ofNat size
  blocks := UInt32.ofNat (2 * n)
  block := fun i => if i < n then UInt32.ofNat (first + i) else 0 }

/-- A directory block of four records, which leaves no room for a long name. -/
def fourRecords (es : List (List UInt8 × Nat)) : Buf := fun i =>
  match es[i / 256]? with
  | some (name, ino) =>
    if i % 256 < 8 then
      (Buf.zero |>.put32 0 (UInt32.ofNat ino) |>.put16 4 256
        |>.put8 6 (UInt8.ofNat name.length)) (i % 256)
    else name.getD (i % 256 - 8) 0
  | none => 0

/-- A volume with an empty root directory. -/
def empty (blocksCount : Nat) : SmallImage where
  blocksCount := blocksCount
  blocksPerGroup := 24
  inodes := [(2, inode (S_IFDIR ||| 0o755) 2 1024 7 1)]
  blocks := [(7, initDirBlock smallFs 2 2)]

/-- The state before anything is mounted. -/
def boot (dev : BlockDev) : Mount := ⟨false, smallFs, ⟨0, 0⟩, none, dev⟩

/-- The state after the image was mounted, with a device that works. -/
def mount : Mount := (ext2Mount (boot (m.dev fun _ => none)) (m.dev fun _ => none)).2

/-- The file system of the image. -/
abbrev fs : Fs := fsOf (m.dev fun _ => none)

def view : View := diskView (m.dev fun _ => none) places

variable {m} {depth : Nat}

theorem shows (h : Checked (m.dev fun _ => none) places sys depth) :
    Shows h.toLayout m.mount m.view :=
  (h.shows (fun _ => rfl) (fun _ _ => rfl) _).2

theorem checked_empty : Checked ((empty 24).dev fun _ => none) places sys 0 :=
  ⟨by decide +kernel, by decide +kernel⟩

theorem checked_tight : Checked ((empty 9).dev fun _ => none) places sys 0 :=
  ⟨by decide +kernel, by decide +kernel⟩

end SmallImage

end JuampiOs.Ext2
