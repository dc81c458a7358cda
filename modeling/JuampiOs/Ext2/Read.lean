import JuampiOs.Ext2.Io

/-!
# The read side of the driver

`src/ext2.c` from `read_group_desc` to `list_impl`, function by function. Scratch memory from
the file-system heap comes zeroed, and the heap is taken to be large enough. A buffer whose
read fails keeps what it held.

Block numbers are natural numbers; `u32` stands wherever the C arithmetic on them could wrap.
Loops over directory records take as many rounds as there are record headers in a block, since
each round advances by at least one header.
-/

namespace JuampiOs.Ext2

open Buf

-- what the source keeps in globals once the volume is mounted
variable (fs : Fs)

/-! ## Metadata -/

/-- The block that holds descriptor `group`, and the byte of it there. The table starts in the
block after the superblock. -/
def gdPlace (group : Nat) : Nat × Nat :=
  let byte := u32 (group * GroupDesc.bytes)
  (u32 (u32 (fs.firstDataBlock + 1) + byte / fs.blockSize), byte % fs.blockSize)

def readGroupDesc (group : Nat) : Io (Option GroupDesc) := do
  let some blk ← readBlock (gdPlace fs group).1 | return none
  return some (GroupDesc.decode blk (gdPlace fs group).2)

/-- The group of an inode and its index in the group's table. -/
def inoPlace (ino : Nat) : Nat × Nat :=
  ((ino - 1) / fs.inodesPerGroup, (ino - 1) % fs.inodesPerGroup)

def readInode (ino : Nat) : Io (Option Inode) := do
  if ino = 0 then return none
  let some gd ← readGroupDesc fs (inoPlace fs ino).1 | return none
  let byte := u32 ((inoPlace fs ino).2 * fs.inodeSize)
  let some blk ← readBlock (u32 (gd.inodeTable.toNat + byte / fs.blockSize)) | return none
  return some (Inode.decode blk (byte % fs.blockSize))

/-! ## Block maps -/

/-- Pointers in an indirect block. -/
def Fs.per : Nat := fs.blockSize / 4

/-- `tmp[n]` of a buffer of block pointers. -/
def ptrAt (tmp : Buf) (n : Nat) : Nat := (tmp.word n).toNat

/-- Map logical file block `n` to its disk block; 0 is a hole or out of range. -/
def blockOf (ino : Inode) (n : Nat) : Io Nat := do
  if n < 12 then return ino.ptr n
  let n := n - 12
  if n < fs.per then
    if ino.ptr 12 = 0 then return 0
    let tmp := (← readBlock (ino.ptr 12)).getD zero
    return ptrAt tmp n
  let n := n - fs.per
  if n < u32 (fs.per * fs.per) ∧ ino.ptr 13 ≠ 0 then
    let tmp := (← readBlock (ino.ptr 13)).getD zero
    let dbl := ptrAt tmp (n / fs.per)
    if dbl = 0 then return 0
    let tmp := (← readBlock dbl).getD tmp
    return ptrAt tmp (n % fs.per)
  return 0

def inodeFileSize (ino : Inode) : Nat :=
  if ino.isReg && fs.largeFile then ino.size.toNat + ino.dirAcl.toNat * 2 ^ 32
  else ino.size.toNat

/-- Store the pointers of `tmp` to `phys[base ..]`, one indirect block of them and none at `n`
or beyond. -/
def storePtrs (n base : Nat) (tmp : Buf) (phys : Nat → Nat) : Nat → Nat :=
  fun i => if base ≤ i ∧ i < base + fs.per ∧ i < n then ptrAt tmp (i - base) else phys i

/-- The double-indirect loop of `map_blocks` from its `j`-th round on. -/
def mapDouble (n : Nat) (l1 : Buf) : Nat → Nat → Buf → (Nat → Nat) → Io (Nat → Nat)
  | 0, _, _, phys => return phys
  | fuel + 1, j, l2, phys => do
    let base := 12 + fs.per + j * fs.per
    if n ≤ base then return phys
    if ptrAt l1 j = 0 then mapDouble n l1 fuel (j + 1) l2 phys
    else do
      let l2 := (← readBlock (ptrAt l1 j)).getD l2
      mapDouble n l1 fuel (j + 1) l2 (storePtrs fs n base l2 phys)

/-- The first half of `map_blocks`: direct and single-indirect blocks. Also returns the scratch
block, which the second half reuses. -/
def mapSingle (ino : Inode) (n : Nat) : Io (Buf × (Nat → Nat)) := do
  let phys := fun i => if i < 12 ∧ i < n then ino.ptr i else 0
  if 12 < n ∧ ino.ptr 12 ≠ 0 then
    let l1 := (← readBlock (ino.ptr 12)).getD zero
    return (l1, storePtrs fs n 12 l1 phys)
  return (zero, phys)

/-- The disk blocks of the first `n` logical blocks, reading each indirect block once. -/
def mapBlocks (ino : Inode) (n : Nat) : Io (Nat → Nat) := do
  let (l1, phys) ← mapSingle fs ino n
  if 12 + fs.per < n ∧ ino.ptr 13 ≠ 0 then
    let l1 := (← readBlock (ino.ptr 13)).getD l1
    mapDouble fs n l1 fs.per 0 zero phys
  else return phys

/-! ## File contents -/

/-- Extend a physically contiguous run of `run` blocks from `phys[i]` on. -/
def extendRun (phys : Nat → Nat) (full i : Nat) : Nat → Nat → Nat
  | 0, run => run
  | fuel + 1, run =>
    if i + run < full ∧ phys (i + run) = u32 (phys i + run) then
      extendRun phys full i fuel (run + 1)
    else run

/-- The whole blocks of a file from logical block `i` on, one transfer per contiguous run. What
a failing transfer does not deliver stays zero. -/
def readWhole (phys : Nat → Nat) (full : Nat) : Nat → Nat → Io (List Buf)
  | 0, _ => return []
  | fuel + 1, i => do
    if i < full then
      if phys i = 0 then
        let rest ← readWhole phys full fuel (i + 1)
        return zero :: rest
      else
        let run := extendRun phys full i full 1
        let got ← readRun (phys i) run
        let rest ← readWhole phys full fuel (i + run)
        return (List.range run).map (fun j => got.getD j zero) ++ rest
    else return []

/-- An inode's data: exactly `size` bytes. -/
def readFile (ino : Inode) (size : Nat) : Io (List UInt8) := do
  let nblocks := u32 ((size + fs.blockSize - 1) % 2 ^ 64 / fs.blockSize)
  let full := u32 (size / fs.blockSize)
  let rem := size % fs.blockSize
  let phys ← mapBlocks fs ino nblocks
  let blocks ← readWhole phys full full 0
  let whole := blocks.flatMap fun b => b.bytes fs.blockSize
  -- the partial last block goes through a scratch block
  if 0 < rem then
    if phys full = 0 then return whole ++ zero.bytes rem
    else
      let block := (← readBlock (phys full)).getD zero
      return whole ++ block.bytes rem
  else return whole

/-! ## Directories -/

/-- What a callback of `walk_dir` is shown. -/
structure Entry where
  name : List UInt8
  inode : Nat
  type : UInt8
deriving DecidableEq, Repr

/-- The entry the record at `off` stands for. Without the filetype feature the type byte is the
high byte of the name length. -/
def entryAt (block : Buf) (off : Nat) : Entry :=
  let de := Dirent.at block off
  if fs.hasFiletype then ⟨nameAt block off de.nameLen, de.inode, de.fileType⟩
  else ⟨nameAt block off (de.nameLen + de.fileType.toNat * 256), de.inode, 0⟩

/-- The record loop of `walk_dir` over one block. The callback `fn` gets its context and the
entry; it returns the new context and whether to stop. -/
def walkRecords {σ : Type} (block : Buf) (fn : σ → Entry → σ × Bool) :
    Nat → Nat → σ → σ × Bool
  | 0, _, ctx => (ctx, false)
  | fuel + 1, off, ctx =>
    if off + 8 ≤ fs.blockSize then
      let de := Dirent.at block off
      if de.recLen < 8 then (ctx, false) -- corrupt record
      else if de.inode = 0 then walkRecords block fn fuel (off + de.recLen) ctx
      else
        match fn ctx (entryAt fs block off) with
        | (ctx, true) => (ctx, true)
        | (ctx, false) => walkRecords block fn fuel (off + de.recLen) ctx
    else (ctx, false)

/-- Record headers that fit in a block. -/
def Fs.maxRecords : Nat := fs.blockSize / 8

/-- Blocks a directory loop visits: `bi` with `bi * block_size < size`. -/
def dirBlocks (dir : Inode) : Nat :=
  (inodeFileSize fs dir + fs.blockSize - 1) / fs.blockSize

/-- The block loop of `walk_dir` from block `bi` on. -/
def walkBlocks {σ : Type} (dir : Inode) (fn : σ → Entry → σ × Bool) :
    Nat → Nat → σ → Io σ
  | 0, _, ctx => return ctx
  | fuel + 1, bi, ctx => do
    let phys ← blockOf fs dir bi
    if phys = 0 then walkBlocks dir fn fuel (bi + 1) ctx
    else
      match ← readBlock phys with
      | none => walkBlocks dir fn fuel (bi + 1) ctx
      | some block =>
        match walkRecords fs block fn fs.maxRecords 0 ctx with
        | (ctx, true) => return ctx
        | (ctx, false) => walkBlocks dir fn fuel (bi + 1) ctx

def walkDir {σ : Type} (dir : Inode) (fn : σ → Entry → σ × Bool) (ctx : σ) : Io σ := do
  if !dir.isDir then return ctx
  walkBlocks fs dir fn (dirBlocks fs dir) 0 ctx

/-! ## Path resolution -/

/-- The callback of `resolve` and `dir_find`; its context is `l.found`. -/
def matchEntry (name : List UInt8) (found : Nat) (e : Entry) : Nat × Bool :=
  if e.name = name then (e.inode, true) else (found, false)

/-- `'/'`. -/
def slash : UInt8 := 47

/-- The components of a path: the maximal runs of bytes other than a slash. `cur` is the
component being scanned, reversed. -/
def compsFrom : List UInt8 → List UInt8 → List (List UInt8)
  | cur, [] => if cur = [] then [] else [cur.reverse]
  | cur, c :: p =>
    if c = slash then
      if cur = [] then compsFrom [] p else cur.reverse :: compsFrom [] p
    else compsFrom (c :: cur) p

def comps (path : List UInt8) : List (List UInt8) := compsFrom [] path

/-- The loop of `resolve` over the components still ahead. -/
def resolveFrom : List (List UInt8) → Nat → Inode → Io (Option (Nat × Inode))
  | [], ino, cur => return some (ino, cur)
  | name :: rest, _, cur => do
    let found ← walkDir fs cur (matchEntry name) 0
    if found = 0 then return none
    let some next ← readInode fs found | return none
    resolveFrom rest found next

/-- Resolve `path` to its inode number and inode. -/
def resolve (path : List UInt8) : Io (Option (Nat × Inode)) := do
  let some cur ← readInode fs EXT2_ROOT_INO | return none
  resolveFrom fs (comps path) EXT2_ROOT_INO cur

/-! ## The bodies of the public calls -/

def readPathImpl (path : List UInt8) : Io (Option (List UInt8)) := do
  let some (_, ino) ← resolve fs path | return none
  if !ino.isReg then return none
  let data ← readFile fs ino (inodeFileSize fs ino)
  return some data

/-- `struct ext2_stat`. -/
structure Stat where
  size : Nat
  inode : Nat
  mode : UInt16
  isDir : Bool
deriving DecidableEq, Repr

def statPathImpl (path : List UInt8) : Io (Option Stat) := do
  let some (num, ino) ← resolve fs path | return none
  return some ⟨inodeFileSize fs ino, num, ino.mode, ino.isDir⟩

/-- The callback of `list_impl`: names are cut at 255 bytes. -/
def emitEntry (out : List Entry) (e : Entry) : List Entry × Bool :=
  (out ++ [{ e with name := e.name.take 255 }], false)

/-- The entries `ext2_list` emits, in order; `none` is its `-1`. -/
def listImpl (path : List UInt8) : Io (Option (List Entry)) := do
  let some (_, ino) ← resolve fs path | return none
  if !ino.isDir then return none
  let out ← walkDir fs ino emitEntry []
  return some out

end JuampiOs.Ext2
