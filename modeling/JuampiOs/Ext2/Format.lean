import JuampiOs.Lib.Bytes

/-!
# The ext2 disk format

The packed structures of `src/ext2.c` and the bytes they stand for. A group descriptor and
an inode are decoded into records and encoded back (`GroupDesc.decode_encode`,
`Inode.decode_encode`); directory records are read and written in place; the superblock
stays as its 104 bytes, of which only the two free counters ever change after the mount.
-/

namespace JuampiOs.Ext2

open Buf

def EXT2_CACHE_BLOCKS : Nat := 256

def EXT2_MAGIC : UInt16 := 0xEF53

def EXT2_ROOT_INO : Nat := 2

def S_IFMT : UInt16 := 0xF000

def S_IFDIR : UInt16 := 0x4000

def S_IFREG : UInt16 := 0x8000

def INCOMPAT_FILETYPE : UInt32 := 0x0002

def RO_COMPAT_LARGE_FILE : UInt32 := 0x0002

def FT_REG : UInt8 := 1

def FT_DIR : UInt8 := 2

/-- The fields of a record of `n` bytes are read from those bytes. -/
theorem gets_congr {a b : Buf} {i j n : Nat} (h : ∀ k, k < n → a (i + k) = b (j + k)) :
    (∀ o, o + 2 ≤ n → a.get16 (i + o) = b.get16 (j + o)) ∧
      ∀ o, o + 4 ≤ n → a.get32 (i + o) = b.get32 (j + o) := by
  have hfield : ∀ o k, o + k < n → a (i + o + k) = b (j + o + k) := fun o k hk => by
    rw [add_assoc, add_assoc]
    exact h _ hk
  exact ⟨fun o ho => get16_congr fun k hk => hfield o k (by omega),
    fun o ho => get32_congr fun k hk => hfield o k (by omega)⟩

/-! ## Group descriptors -/

/-- `struct group_desc`. -/
@[ext]
structure GroupDesc where
  blockBitmap : UInt32
  inodeBitmap : UInt32
  inodeTable : UInt32
  freeBlocksCount : UInt16
  freeInodesCount : UInt16
  usedDirsCount : UInt16
  pad : UInt16
  reserved : Fin 3 → UInt32

namespace GroupDesc

/-- `sizeof(struct group_desc)`. -/
def bytes : Nat := 32

/-- The descriptor at byte `off` of a block. -/
def decode (b : Buf) (off : Nat) : GroupDesc where
  blockBitmap := b.get32 off
  inodeBitmap := b.get32 (off + 4)
  inodeTable := b.get32 (off + 8)
  freeBlocksCount := b.get16 (off + 12)
  freeInodesCount := b.get16 (off + 14)
  usedDirsCount := b.get16 (off + 16)
  pad := b.get16 (off + 18)
  reserved := fun i => b.get32 (off + 20 + 4 * i)

def encode (gd : GroupDesc) : Buf :=
  zero |>.put32 0 gd.blockBitmap |>.put32 4 gd.inodeBitmap |>.put32 8 gd.inodeTable
    |>.put16 12 gd.freeBlocksCount |>.put16 14 gd.freeInodesCount |>.put16 16 gd.usedDirsCount
    |>.put16 18 gd.pad
    |>.blit 20 12 (words fun i => if h : i < 3 then gd.reserved ⟨i, h⟩ else 0)

theorem decode_congr {a b : Buf} {i j : Nat} (h : ∀ k, k < bytes → a (i + k) = b (j + k)) :
    decode a i = decode b j := by
  obtain ⟨h16, h32⟩ := gets_congr h
  have h0 := h32 0 (by decide)
  simp only [add_zero] at h0
  ext
  all_goals simp only [decode]
  · rw [h0]
  · rw [h32 4 (by decide)]
  · rw [h32 8 (by decide)]
  · rw [h16 12 (by decide)]
  · rw [h16 14 (by decide)]
  · rw [h16 16 (by decide)]
  · rw [h16 18 (by decide)]
  · rename_i k
    have hk := k.isLt
    rw [add_assoc, add_assoc, h32 (20 + 4 * k) (by simp only [bytes]; omega)]

theorem decode_encode (gd : GroupDesc) : decode gd.encode 0 = gd := by
  ext
  all_goals
    simp (disch := omega) only [decode, encode, get32_blit_out, get16_blit_out, get32_put32,
      get16_put16, get32_put32_of_ne, get32_put16_of_ne, get16_put16_of_ne, zero_add]
  rename_i k
  have hk := k.isLt
  rw [get32_blit_in rfl (by omega), get32_words, dif_pos hk]

theorem decode_blit (b : Buf) (off : Nat) (gd : GroupDesc) :
    decode (b.blit off bytes gd.encode) off = gd := by
  refine (decode_congr fun k hk => ?_).trans gd.decode_encode
  rw [blit_of_mem (by omega), Nat.zero_add, Nat.add_sub_cancel_left]

theorem decode_blit_of_ne {b src : Buf} {off n i : Nat} (h : i + bytes ≤ off ∨ off + n ≤ i) :
    decode (b.blit off n src) i = decode b i :=
  decode_congr fun k hk => by rw [blit_of_notMem (by omega)]

end GroupDesc

/-! ## Inodes -/

/-- `struct inode`. -/
@[ext]
structure Inode where
  mode : UInt16
  uid : UInt16
  /-- low 32 bits -/
  size : UInt32
  atime : UInt32
  ctime : UInt32
  mtime : UInt32
  dtime : UInt32
  gid : UInt16
  linksCount : UInt16
  blocks : UInt32
  flags : UInt32
  osd1 : UInt32
  /-- 0-11 direct, 12 single, 13 double, 14 triple indirect -/
  block : Fin 15 → UInt32
  generation : UInt32
  fileAcl : UInt32
  /-- for regular files: high 32 bits of the size (`large_file`) -/
  dirAcl : UInt32

namespace Inode

/-- `sizeof(struct inode)`. -/
def bytes : Nat := 112

/-- The inode at byte `off` of a block. -/
def decode (b : Buf) (off : Nat) : Inode where
  mode := b.get16 off
  uid := b.get16 (off + 2)
  size := b.get32 (off + 4)
  atime := b.get32 (off + 8)
  ctime := b.get32 (off + 12)
  mtime := b.get32 (off + 16)
  dtime := b.get32 (off + 20)
  gid := b.get16 (off + 24)
  linksCount := b.get16 (off + 26)
  blocks := b.get32 (off + 28)
  flags := b.get32 (off + 32)
  osd1 := b.get32 (off + 36)
  block := fun i => b.get32 (off + 40 + 4 * i)
  generation := b.get32 (off + 100)
  fileAcl := b.get32 (off + 104)
  dirAcl := b.get32 (off + 108)

def encode (ino : Inode) : Buf :=
  zero |>.put16 0 ino.mode |>.put16 2 ino.uid |>.put32 4 ino.size |>.put32 8 ino.atime
    |>.put32 12 ino.ctime |>.put32 16 ino.mtime |>.put32 20 ino.dtime |>.put16 24 ino.gid
    |>.put16 26 ino.linksCount |>.put32 28 ino.blocks |>.put32 32 ino.flags |>.put32 36 ino.osd1
    |>.blit 40 60 (words fun i => if h : i < 15 then ino.block ⟨i, h⟩ else 0)
    |>.put32 100 ino.generation |>.put32 104 ino.fileAcl |>.put32 108 ino.dirAcl

theorem decode_congr {a b : Buf} {i j : Nat} (h : ∀ k, k < bytes → a (i + k) = b (j + k)) :
    decode a i = decode b j := by
  obtain ⟨h16, h32⟩ := gets_congr h
  have h0 := h16 0 (by decide)
  simp only [add_zero] at h0
  ext
  all_goals simp only [decode]
  · rw [h0]
  · rw [h16 2 (by decide)]
  · rw [h32 4 (by decide)]
  · rw [h32 8 (by decide)]
  · rw [h32 12 (by decide)]
  · rw [h32 16 (by decide)]
  · rw [h32 20 (by decide)]
  · rw [h16 24 (by decide)]
  · rw [h16 26 (by decide)]
  · rw [h32 28 (by decide)]
  · rw [h32 32 (by decide)]
  · rw [h32 36 (by decide)]
  · rename_i k
    have hk := k.isLt
    rw [add_assoc, add_assoc, h32 (40 + 4 * k) (by simp only [bytes]; omega)]
  · rw [h32 100 (by decide)]
  · rw [h32 104 (by decide)]
  · rw [h32 108 (by decide)]

theorem decode_encode (ino : Inode) : decode ino.encode 0 = ino := by
  ext
  case block k =>
    have hk := k.isLt
    simp (disch := omega) only [decode, encode, get32_put32_of_ne, zero_add]
    rw [get32_blit_in rfl (by omega), get32_words, dif_pos hk]
  all_goals
    simp (disch := omega) only [decode, encode, get32_blit_out, get16_blit_out, get32_put32,
      get16_put16, get32_put32_of_ne, get32_put16_of_ne, get16_put16_of_ne, get16_put32_of_ne,
      zero_add]

theorem decode_blit (b : Buf) (off : Nat) (ino : Inode) :
    decode (b.blit off bytes ino.encode) off = ino := by
  refine (decode_congr fun k hk => ?_).trans ino.decode_encode
  rw [blit_of_mem (by omega), Nat.zero_add, Nat.add_sub_cancel_left]

theorem decode_blit_of_ne {b src : Buf} {off n i : Nat} (h : i + bytes ≤ off ∨ off + n ≤ i) :
    decode (b.blit off n src) i = decode b i :=
  decode_congr fun k hk => by rw [blit_of_notMem (by omega)]

/-- `memset(&in, 0, sizeof(in))`. -/
def zero : Inode where
  mode := 0
  uid := 0
  size := 0
  atime := 0
  ctime := 0
  mtime := 0
  dtime := 0
  gid := 0
  linksCount := 0
  blocks := 0
  flags := 0
  osd1 := 0
  block := fun _ => 0
  generation := 0
  fileAcl := 0
  dirAcl := 0

def isDir (ino : Inode) : Bool := ino.mode &&& S_IFMT == S_IFDIR

def isReg (ino : Inode) : Bool := ino.mode &&& S_IFMT == S_IFREG

/-- `in->block[n]` as a block number; the driver never asks for `n ≥ 15`. -/
def ptr (ino : Inode) (n : Nat) : Nat := if h : n < 15 then (ino.block ⟨n, h⟩).toNat else 0

/-- `in->block[n] = blk`. -/
def setPtr (ino : Inode) (n blk : Nat) : Inode :=
  { ino with block := fun i => if i.val = n then UInt32.ofNat blk else ino.block i }

theorem ptr_lt (ino : Inode) (n : Nat) : ino.ptr n < 2 ^ 32 := by
  unfold ptr
  split
  · exact (ino.block _).toNat_lt
  · decide

theorem ptr_setPtr {ino : Inode} {n m blk : Nat} (hn : n < 15) (hblk : blk < 2 ^ 32) :
    (ino.setPtr n blk).ptr m = if m = n then blk else ino.ptr m := by
  unfold ptr setPtr
  by_cases hm : m < 15
  · by_cases hmn : m = n
    · subst hmn
      simpa [hm] using hblk
    · simp [hm, hmn]
  · have hmn : m ≠ n := by omega
    simp [hm, hmn]

end Inode

/-! ## Directory records -/

/-- `struct dirent` at a byte offset of a directory block. -/
structure Dirent where
  inode : Nat
  recLen : Nat
  nameLen : Nat
  fileType : UInt8
deriving DecidableEq, Repr

/-- The fixed part of the record at byte `off`. -/
def Dirent.at (b : Buf) (off : Nat) : Dirent where
  inode := (b.get32 off).toNat
  recLen := (b.get16 (off + 4)).toNat
  nameLen := (b (off + 6)).toNat
  fileType := b (off + 7)

/-- `len` bytes of the name of the record at byte `off`. -/
def nameAt (b : Buf) (off len : Nat) : List UInt8 := (List.range len).map fun i => b (off + 8 + i)

/-- Fill in the record at byte `off`, name included. -/
def putDirent (b : Buf) (off : Nat) (inode recLen : Nat) (name : List UInt8) (fileType : UInt8) :
    Buf :=
  b |>.put32 off (UInt32.ofNat inode) |>.put16 (off + 4) (UInt16.ofNat recLen)
    |>.put8 (off + 6) (UInt8.ofNat name.length) |>.put8 (off + 7) fileType
    |>.blit (off + 8) name.length fun i => name.getD i 0

/-! ## The superblock -/

/-- `sizeof(struct superblock)`. -/
def sbBytes : Nat := 104

/-- The two superblock fields that change after the mount. -/
@[ext]
structure Counts where
  freeBlocks : UInt32
  freeInodes : UInt32
deriving DecidableEq, Repr

/-- What `ext2_mount` keeps of the superblock, and what it derives from it. `raw` holds the
104 bytes as they were read, with the two counters of `Counts` blanked. -/
structure Fs where
  raw : Buf
  blocksCount : Nat
  firstDataBlock : Nat
  blocksPerGroup : Nat
  inodesPerGroup : Nat
  blockSize : Nat
  inodeSize : Nat
  /-- number of block groups -/
  groups : Nat
  hasFiletype : Bool
  largeFile : Bool

/-- The parameters `ext2_mount` takes from the 104 superblock bytes. -/
def Fs.ofSuperblock (sb : Buf) : Fs :=
  let blocksCount := (sb.get32 4).toNat
  let firstDataBlock := (sb.get32 20).toNat
  let logBlockSize := (sb.get32 24).toNat
  let blocksPerGroup := (sb.get32 32).toNat
  let revLevel := (sb.get32 76).toNat
  let sbInodeSize := (sb.get16 88).toNat
  -- rev 0 has no inode_size field and uses a fixed 128-byte inode
  let inodeSize := if 1 ≤ revLevel ∧ sbInodeSize ≠ 0 then sbInodeSize else 128
  { raw := sb.take sbBytes |>.put32 12 0 |>.put32 16 0
    blocksCount := blocksCount
    firstDataBlock := firstDataBlock
    blocksPerGroup := blocksPerGroup
    inodesPerGroup := (sb.get32 40).toNat
    blockSize := 1024 * 2 ^ logBlockSize % 2 ^ 32
    inodeSize := max inodeSize Inode.bytes
    groups := (2 ^ 32 + blocksCount - firstDataBlock + blocksPerGroup - 1) % 2 ^ 32 / blocksPerGroup
    hasFiletype := sb.get32 96 &&& INCOMPAT_FILETYPE != 0
    largeFile := sb.get32 100 &&& RO_COMPAT_LARGE_FILE != 0 }

/-- The counters `ext2_mount` takes from the 104 superblock bytes. -/
def Counts.ofSuperblock (sb : Buf) : Counts := ⟨sb.get32 12, sb.get32 16⟩

/-- `sb` as it stands in memory: the bytes of the mount with the current counters. -/
def Fs.superblock (fs : Fs) (c : Counts) : Buf :=
  fs.raw |>.put32 12 c.freeBlocks |>.put32 16 c.freeInodes

end JuampiOs.Ext2
