import JuampiOs.Ext2.Read

/-!
# The write side of the driver

`src/ext2.c` from `roundup4` to `remove_impl`, function by function. As in the source, most
results of `write_block` and `write_superblock` are dropped.
-/

namespace JuampiOs.Ext2

def roundup4 (x : Nat) : Nat := (x + 3) / 4 * 4

variable (fs : Fs)

/-! ## Metadata -/

def writeGroupDesc (group : Nat) (gd : GroupDesc) : Io Bool := do
  let some blk ← readBlock (gdPlace fs group).1 | return false
  writeBlock (gdPlace fs group).1 (blk.blit (gdPlace fs group).2 GroupDesc.bytes gd.encode)

def writeInode (ino : Nat) (inode : Inode) : Io Bool := do
  let some gd ← readGroupDesc fs (inoPlace fs ino).1 | return false
  let byte := u32 ((inoPlace fs ino).2 * fs.inodeSize)
  let b := u32 (gd.inodeTable.toNat + byte / fs.blockSize)
  let some blk ← readBlock b | return false
  writeBlock b (blk.blit (byte % fs.blockSize) Inode.bytes inode.encode)

/-- Write the superblock back, preserving the bytes of its 1 KiB that the driver does not
know. -/
def writeSuperblock : Io Bool := do
  let some buf ← readSb | return false
  let c ← getCounts
  writeSb (buf.blit 0 sbBytes (fs.superblock c))

/-! ## Allocation -/

/-- Set the first free bit below `nbits` of a bitmap block and return it. -/
def bitmapAlloc (bitmapBlock nbits : Nat) : Io (Option Nat) := do
  let some bm ← readBlock bitmapBlock | return none
  match (List.range nbits).find? fun i => !bm.bit i with
  | none => return none
  | some i =>
    let _ ← writeBlock bitmapBlock (bm.setBit i)
    return some i

def bitmapFree (bitmapBlock bit : Nat) : Io Unit := do
  let some bm ← readBlock bitmapBlock | return ()
  let _ ← writeBlock bitmapBlock (bm.clearBit bit)

/-- The group loop of `alloc_block`. -/
def allocBlockIn : List Nat → Io Nat
  | [] => return 0
  | g :: gs => do
    match ← readGroupDesc fs g with
    | none => allocBlockIn gs
    | some gd =>
      if gd.freeBlocksCount = 0 then allocBlockIn gs
      else
        match ← bitmapAlloc gd.blockBitmap.toNat fs.blocksPerGroup with
        | none => allocBlockIn gs
        | some bit =>
          let _ ← writeGroupDesc fs g { gd with freeBlocksCount := gd.freeBlocksCount - 1 }
          let c ← getCounts
          setCounts { c with freeBlocks := c.freeBlocks - 1 }
          let _ ← writeSuperblock fs
          let blk := u32 (fs.firstDataBlock + g * fs.blocksPerGroup + bit)
          let _ ← writeBlock blk Buf.zero
          return blk

/-- Allocate a zeroed data block; 0 on failure. -/
def allocBlock : Io Nat := allocBlockIn fs (List.range fs.groups)

def freeBlock (blk : Nat) : Io Unit := do
  if blk < fs.firstDataBlock then return ()
  let rel := blk - fs.firstDataBlock
  let g := rel / fs.blocksPerGroup
  if fs.groups ≤ g then return ()
  let some gd ← readGroupDesc fs g | return ()
  bitmapFree gd.blockBitmap.toNat (rel % fs.blocksPerGroup)
  let _ ← writeGroupDesc fs g { gd with freeBlocksCount := gd.freeBlocksCount + 1 }
  let c ← getCounts
  setCounts { c with freeBlocks := c.freeBlocks + 1 }
  let _ ← writeSuperblock fs

/-- The group loop of `alloc_inode`. -/
def allocInodeIn (isDir : Bool) : List Nat → Io Nat
  | [] => return 0
  | g :: gs => do
    match ← readGroupDesc fs g with
    | none => allocInodeIn isDir gs
    | some gd =>
      if gd.freeInodesCount = 0 then allocInodeIn isDir gs
      else
        match ← bitmapAlloc gd.inodeBitmap.toNat fs.inodesPerGroup with
        | none => allocInodeIn isDir gs
        | some bit =>
          let gd := { gd with freeInodesCount := gd.freeInodesCount - 1 }
          let gd := if isDir then { gd with usedDirsCount := gd.usedDirsCount + 1 } else gd
          let _ ← writeGroupDesc fs g gd
          let c ← getCounts
          setCounts { c with freeInodes := c.freeInodes - 1 }
          let _ ← writeSuperblock fs
          return u32 (g * fs.inodesPerGroup + bit + 1)

def allocInode (isDir : Bool) : Io Nat := allocInodeIn fs isDir (List.range fs.groups)

def freeInode (ino : Nat) (wasDir : Bool) : Io Unit := do
  let g := (inoPlace fs ino).1
  if fs.groups ≤ g then return ()
  let some gd ← readGroupDesc fs g | return ()
  bitmapFree gd.inodeBitmap.toNat (inoPlace fs ino).2
  let gd := { gd with freeInodesCount := gd.freeInodesCount + 1 }
  let gd := if wasDir && 0 < gd.usedDirsCount
    then { gd with usedDirsCount := gd.usedDirsCount - 1 } else gd
  let _ ← writeGroupDesc fs g gd
  let c ← getCounts
  setCounts { c with freeInodes := c.freeInodes + 1 }
  let _ ← writeSuperblock fs

/-! ## Block maps -/

/-- `in->blocks += block_size / 512`. -/
def Inode.addBlock (ino : Inode) : Inode :=
  { ino with blocks := ino.blocks + UInt32.ofNat (fs.blockSize / 512) }

/-- The second half of `set_block_of`: store to slot `n` of the single-indirect block. -/
def setIndirect (ino : Inode) (n blk : Nat) : Io (Bool × Inode) := do
  let some tmp ← readBlock (ino.ptr 12) | return (false, ino)
  let ok ← writeBlock (ino.ptr 12) (tmp.putWord n (UInt32.ofNat blk))
  return (ok, ino.addBlock fs)

/-- Map logical block `n` to `blk`, allocating the single-indirect block on demand. False
beyond direct plus single indirect. -/
def setBlockOf (ino : Inode) (n blk : Nat) : Io (Bool × Inode) := do
  if n < 12 then return (true, (ino.setPtr n blk).addBlock fs)
  let n := n - 12
  if fs.per ≤ n then return (false, ino)
  if ino.ptr 12 = 0 then
    let ind ← allocBlock fs
    if ind = 0 then return (false, ino)
    setIndirect fs ((ino.setPtr 12 ind).addBlock fs) n blk
  else setIndirect fs ino n blk

/-- Free the nonzero block numbers of a list. -/
def freeEach : List Nat → Io Unit
  | [] => return ()
  | b :: bs => do
    if b ≠ 0 then freeBlock fs b
    freeEach bs

/-- The pointers of an indirect block. -/
def ptrsOf (tmp : Buf) : List Nat := (List.range fs.per).map (ptrAt tmp)

/-- Free the blocks an indirect block points to, if it can be read, and the block itself. -/
def freeIndirect (b : Nat) : Io Unit := do
  if let some tmp ← readBlock b then freeEach fs (ptrsOf fs tmp)
  freeBlock fs b

/-- The loop of `free_all_blocks` over the pointers of the double-indirect block. -/
def freeDouble : List Nat → Io Unit
  | [] => return ()
  | b :: bs => do
    if b ≠ 0 then freeIndirect fs b
    freeDouble bs

/-- Free every block of an inode: direct, single and double indirect. -/
def freeAllBlocks (ino : Inode) : Io Inode := do
  freeEach fs ((List.range 12).map ino.ptr)
  if ino.ptr 12 ≠ 0 then freeIndirect fs (ino.ptr 12)
  if ino.ptr 13 ≠ 0 then
    if let some l1 ← readBlock (ino.ptr 13) then freeDouble fs (ptrsOf fs l1)
    freeBlock fs (ino.ptr 13)
  return { ino with
    block := fun i => if i.val < 14 then 0 else ino.block i
    blocks := 0 }

/-! ## Directories -/

def dirFind (dir : Inode) (name : List UInt8) : Io Nat := walkDir fs dir (matchEntry name) 0

/-- The type byte of a new record. -/
def typeByte (type : UInt8) : UInt8 := if fs.hasFiletype then type else 0

/-- The record loop of `dir_add` over one block: the block with the new record in it, or `none`
when no record of the block has room. -/
def addInBlock (block : Buf) (name : List UInt8) (child : Nat) (type : UInt8) :
    Nat → Nat → Option Buf
  | 0, _ => none
  | fuel + 1, off =>
    if off + 8 ≤ fs.blockSize then
      let de := Dirent.at block off
      if de.recLen < 8 then none
      else
        let used := if de.inode = 0 then 0 else roundup4 (8 + de.nameLen)
        if roundup4 (8 + name.length) ≤ u32 (2 ^ 32 + de.recLen - used) then
          if de.inode = 0 then
            -- reuse the whole empty slot
            some (putDirent block off child de.recLen name (typeByte fs type))
          else
            let block := block.put16 (off + 4) (UInt16.ofNat used)
            some (putDirent block (off + used) child (u32 (2 ^ 32 + de.recLen - used)) name
              (typeByte fs type))
        else addInBlock block name child type fuel (off + de.recLen)
    else none

/-- The block loop of `dir_add` from block `bi` on: whether a block took the record. -/
def addInBlocks (dir : Inode) (name : List UInt8) (child : Nat) (type : UInt8) :
    Nat → Nat → Io Bool
  | 0, _ => return false
  | fuel + 1, bi => do
    let phys ← blockOf fs dir bi
    if phys = 0 then addInBlocks dir name child type fuel (bi + 1)
    else
      match ← readBlock phys with
      | none => addInBlocks dir name child type fuel (bi + 1)
      | some block =>
        match addInBlock fs block name child type fs.maxRecords 0 with
        | none => addInBlocks dir name child type fuel (bi + 1)
        | some block =>
          let _ ← writeBlock phys block
          return true

/-- The second half of `dir_add`: a fresh block that holds the record alone. -/
def dirGrow (dirIno : Nat) (dir : Inode) (name : List UInt8) (child : Nat)
    (type : UInt8) : Io (Bool × Inode) := do
  let blk ← allocBlock fs
  if blk = 0 then return (false, dir)
  let (ok, dir) ← setBlockOf fs dir (u32 (inodeFileSize fs dir / fs.blockSize)) blk
  if !ok then return (false, dir)
  let _ ← writeBlock blk (putDirent Buf.zero 0 child fs.blockSize name (typeByte fs type))
  let dir := { dir with size := dir.size + UInt32.ofNat fs.blockSize }
  let _ ← writeInode fs dirIno dir
  return (true, dir)

/-- Add an entry to directory `dir`, growing it by a block if needed. Returns the success flag
and the directory's inode as the caller's copy then is. -/
def dirAdd (dirIno : Nat) (dir : Inode) (name : List UInt8) (child : Nat)
    (type : UInt8) : Io (Bool × Inode) := do
  let done ← addInBlocks fs dir name child type (dirBlocks fs dir) 0
  if done then return (true, dir)
  dirGrow fs dirIno dir name child type

/-- The record loop of `dir_remove` over one block. `prev` is the offset of the record before
`off`, if there is one. -/
def removeInBlock (block : Buf) (name : List UInt8) :
    Nat → Nat → Option Nat → Option Buf
  | 0, _, _ => none
  | fuel + 1, off, prev =>
    if off + 8 ≤ fs.blockSize then
      let de := Dirent.at block off
      if de.recLen < 8 then none
      else if de.inode ≠ 0 ∧ nameAt block off de.nameLen = name then
        match prev with
        | some p =>
          some (block.put16 (p + 4) (UInt16.ofNat ((Dirent.at block p).recLen + de.recLen)))
        | none => some (block.put32 off 0)
      else removeInBlock block name fuel (off + de.recLen) (some off)
    else none

/-- The block loop of `dir_remove` from block `bi` on. -/
def removeInBlocks (dir : Inode) (name : List UInt8) : Nat → Nat → Io Bool
  | 0, _ => return false
  | fuel + 1, bi => do
    let phys ← blockOf fs dir bi
    if phys = 0 then removeInBlocks dir name fuel (bi + 1)
    else
      match ← readBlock phys with
      | none => removeInBlocks dir name fuel (bi + 1)
      | some block =>
        match removeInBlock fs block name fs.maxRecords 0 none with
        | none => removeInBlocks dir name fuel (bi + 1)
        | some block =>
          let _ ← writeBlock phys block
          return true

def dirRemove (dir : Inode) (name : List UInt8) : Io Bool :=
  removeInBlocks fs dir name (dirBlocks fs dir) 0

/-- Split a path into the text that leads to its parent directory and its last component;
`none` when there is no last component, or one of the two is too long. -/
def splitPath (path : List UInt8) : Option (List UInt8 × List UInt8) :=
  -- ignore trailing slashes
  let trimmed := (path.reverse.dropWhile (· == slash)).reverse
  let base := (trimmed.reverse.takeWhile (· != slash)).reverse
  let slashAt := trimmed.length - base.length
  if trimmed = [] then none
  else if base.length = 0 ∨ 255 < base.length then none
  else if slashAt = 0 then some ([slash], base)
  else if 256 ≤ slashAt then none
  else some (path.take slashAt, base)

/-- The parent directory of a path (which must exist) and the final component. -/
def resolveParent (path : List UInt8) : Io (Option (Nat × Inode × List UInt8)) := do
  let some (pbuf, base) := splitPath path | return none
  let some (parentIno, parent) ← resolve fs pbuf | return none
  if !parent.isDir then return none
  return some (parentIno, parent, base)

/-! ## The bodies of the public calls -/

/-- The block loop of `write_file_impl` from block `bi` on. -/
def writeBlocks (data : List UInt8) : Nat → Nat → Inode → Io (Bool × Inode)
  | 0, _, ino => return (true, ino)
  | fuel + 1, bi, ino => do
    let blk ← allocBlock fs
    if blk = 0 then return (false, ino)
    let chunk := min (u32 (data.length - bi * fs.blockSize)) fs.blockSize
    let _ ← writeBlock blk
      (Buf.zero.blit 0 chunk fun i => data.getD (bi * fs.blockSize + i) 0)
    let (ok, ino) ← setBlockOf fs ino bi blk
    if !ok then
      freeBlock fs blk
      return (false, ino)
    writeBlocks data fuel (bi + 1) ino

/-- The second half of `write_file_impl`: fill the truncated file and write its inode. -/
def fillFile (num : Nat) (ino : Inode) (data : List UInt8) : Io Bool := do
  let nblocks := u32 ((data.length + fs.blockSize - 1) % 2 ^ 64 / fs.blockSize)
  let (ok, ino) ← writeBlocks fs data nblocks 0 ino
  let _ ← writeInode fs num { ino with size := UInt32.ofNat data.length }
  return ok

def writeFileImpl (path data : List UInt8) : Io Bool := do
  let some (parentIno, parent, base) ← resolveParent fs path | return false
  let num ← dirFind fs parent base
  if num ≠ 0 then
    let some ino ← readInode fs num | return false
    if !ino.isReg then return false -- won't overwrite a directory
    -- truncate to empty, then rewrite
    let ino ← freeAllBlocks fs ino
    fillFile fs num { ino with size := 0, dirAcl := 0 } data
  else
    let num ← allocInode fs false
    if num = 0 then return false
    let ino := { Inode.zero with mode := S_IFREG ||| 0o644, linksCount := 1 }
    let (ok, _) ← dirAdd fs parentIno parent base num FT_REG
    if !ok then
      freeInode fs num false
      return false
    fillFile fs num ino data

/-- The first block of a new directory: "." for itself and ".." for its parent. -/
def initDirBlock (num parentIno : Nat) : Buf :=
  let dotLen := roundup4 (8 + 1)
  let block := putDirent Buf.zero 0 num dotLen [46] (typeByte fs FT_DIR)
  putDirent block dotLen parentIno (fs.blockSize - dotLen) [46, 46] (typeByte fs FT_DIR)

def mkdirImpl (path : List UInt8) : Io Bool := do
  let some (parentIno, parent, base) ← resolveParent fs path | return false
  let found ← dirFind fs parent base
  if found ≠ 0 then return false -- already exists
  let num ← allocInode fs true
  if num = 0 then return false
  let blk ← allocBlock fs
  if blk = 0 then
    freeInode fs num true
    return false
  let _ ← writeBlock blk (initDirBlock fs num parentIno)
  let ino := { Inode.zero with
    mode := S_IFDIR ||| 0o755
    linksCount := 2 -- "." and the entry in the parent
    size := UInt32.ofNat fs.blockSize
    blocks := UInt32.ofNat (fs.blockSize / 512) }
  let _ ← writeInode fs num (ino.setPtr 0 blk)
  let (ok, parent) ← dirAdd fs parentIno parent base num FT_DIR
  if !ok then
    freeBlock fs blk
    freeInode fs num true
    return false
  -- the new directory's ".." links back to the parent
  let _ ← writeInode fs parentIno { parent with linksCount := parent.linksCount + 1 }
  return true

/-- The callback of `remove_impl`: count entries other than "." and "..", and stop at one. -/
def countCb (n : Nat) (e : Entry) : Nat × Bool :=
  if e.name = [46] then (n, false)
  else if e.name = [46, 46] then (n, false)
  else (n + 1, true)

/-- `in->links_count--`, unless it is 0. -/
def Inode.dropLink (ino : Inode) : Inode :=
  { ino with linksCount := if 0 < ino.linksCount then ino.linksCount - 1 else ino.linksCount }

/-- Free an inode with everything it holds; a zeroed inode is an unused inode. -/
def releaseInode (num : Nat) (ino : Inode) (isDir : Bool) : Io Unit := do
  let _ ← freeAllBlocks fs ino
  let _ ← writeInode fs num Inode.zero
  freeInode fs num isDir

def removeImpl (path : List UInt8) : Io Bool := do
  let some (parentIno, parent, base) ← resolveParent fs path | return false
  let num ← dirFind fs parent base
  if num = 0 then return false
  let some ino ← readInode fs num | return false
  let n ← if ino.isDir then walkDir fs ino countCb 0 else pure 0
  if n ≠ 0 then return false -- directory not empty
  let removed ← dirRemove fs parent base
  if !removed then return false
  if ino.isDir then
    releaseInode fs num ino true
    -- lose the removed directory's ".."
    let _ ← writeInode fs parentIno parent.dropLink
    return true
  let ino := ino.dropLink
  if ino.linksCount = 0 then releaseInode fs num ino false
  else
    let _ ← writeInode fs num ino
  return true

end JuampiOs.Ext2
