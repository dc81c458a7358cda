import JuampiOs.Ext2.Volume
import JuampiOs.Ext2.Write

/-!
# The file system a volume holds

A `View` is what the metadata blocks of a volume say, taken apart: group descriptors, inodes,
the two bitmaps by block and inode number, and the blocks that are left for data. `Layout`
says where the metadata of a mounted file system lies, and `Abs` that a volume stands for a
view. The rest of the development reads and writes metadata through the rules at the end of
this module and never looks at the bytes of a metadata block again.
-/

namespace JuampiOs.Ext2

open Function

/-! ## Where the metadata lies -/

/-- The metadata blocks the driver addresses. -/
inductive Role where
  /-- block `k` of the group descriptor table -/
  | gdt (k : Nat)
  /-- the block bitmap of group `g` -/
  | blockBitmap (g : Nat)
  /-- the inode bitmap of group `g` -/
  | inodeBitmap (g : Nat)
  /-- block `k` of the inode table of group `g` -/
  | inodeTable (g k : Nat)

/-- The roles there are. -/
def Role.Valid (fs : Fs) : Role → Prop
  | .gdt k => k * fs.blockSize < fs.groups * GroupDesc.bytes
  | .blockBitmap g => g < fs.groups
  | .inodeBitmap g => g < fs.groups
  | .inodeTable g k => g < fs.groups ∧ k * fs.blockSize < fs.inodesPerGroup * fs.inodeSize

/-- Where the bitmaps and inode tables of the groups are. -/
structure Places where
  blockBitmap : Nat → Nat
  inodeBitmap : Nat → Nat
  inodeTable : Nat → Nat

/-- The block with role `r`. -/
def Places.loc (fs : Fs) (P : Places) : Role → Nat
  | .gdt k => fs.firstDataBlock + 1 + k
  | .blockBitmap g => P.blockBitmap g
  | .inodeBitmap g => P.inodeBitmap g
  | .inodeTable g k => P.inodeTable g + k

/-- The layout of a mounted file system. -/
structure Layout (fs : Fs) extends Places where
  /-- blocks that belong to the file system itself: the metadata above, the superblock, the
  backups of either, and blocks of extended attributes -/
  sys : Nat → Prop
  blockSize : BlockSizeOk fs.blockSize
  blockSize_le : fs.blockSize ≤ 32768
  inodeSize_ge : Inode.bytes ≤ fs.inodeSize
  inodeSize_dvd : fs.inodeSize ∣ fs.blockSize
  blocksPerGroup_pos : 0 < fs.blocksPerGroup
  blocksPerGroup_le : fs.blocksPerGroup ≤ 8 * fs.blockSize
  blocksPerGroup_lt : fs.blocksPerGroup < 2 ^ 16
  inodesPerGroup_pos : 0 < fs.inodesPerGroup
  inodesPerGroup_le : fs.inodesPerGroup ≤ 8 * fs.blockSize
  inodesPerGroup_lt : fs.inodesPerGroup < 2 ^ 16
  firstDataBlock : fs.firstDataBlock = sbBlk fs.blockSize
  /-- the groups cover the volume; the last one may be partial -/
  blocksCount_le : fs.blocksCount ≤ fs.firstDataBlock + fs.groups * fs.blocksPerGroup
  blocksCount_lt : fs.blocksCount < 2 ^ 32
  inodesCount_lt : fs.groups * fs.inodesPerGroup < 2 ^ 32
  gdtBytes_lt : fs.groups * GroupDesc.bytes < 2 ^ 32
  /-- every role has a block of its own, and none is the superblock's -/
  loc_inj : ∀ r r', r.Valid fs → r'.Valid fs → toPlaces.loc fs r = toPlaces.loc fs r' → r = r'
  loc_ne_sb : ∀ r, r.Valid fs → toPlaces.loc fs r ≠ sbBlk fs.blockSize
  sys_loc : ∀ r, r.Valid fs → sys (toPlaces.loc fs r)
  sys_sb : sys (sbBlk fs.blockSize)
  sys_lt : ∀ b, sys b → b < fs.blocksCount

/-! ## Views -/

/-- The contents of the file system, taken apart. -/
structure View where
  gd : Nat → GroupDesc
  inode : Nat → Inode
  /-- the block bitmaps, by block number -/
  bused : Nat → Bool
  /-- the inode bitmaps, by inode number -/
  iused : Nat → Bool
  data : Nat → Buf
  counts : Counts

/-- Bit `i` of the block bitmap of group `g` stands for this block. -/
def Fs.blockNo (fs : Fs) (g i : Nat) : Nat := fs.firstDataBlock + g * fs.blocksPerGroup + i

/-- Entry `i` of the inode table of group `g` is this inode. -/
def Fs.inodeNo (fs : Fs) (g i : Nat) : Nat := g * fs.inodesPerGroup + i + 1

/-- The inode numbers of the file system. -/
def Fs.ValidIno (fs : Fs) (x : Nat) : Prop := 1 ≤ x ∧ x ≤ fs.groups * fs.inodesPerGroup

section

variable {fs : Fs} (G : Layout fs)

/-- The block with role `r`. -/
def Layout.loc (r : Role) : Nat := G.toPlaces.loc fs r

/-- Blocks without a role, left for data. -/
def Layout.IsData (b : Nat) : Prop :=
  b ≠ sbBlk fs.blockSize ∧ ∀ r, Role.Valid fs r → G.loc r ≠ b

/-- The bytes `b` of the block with role `r` say what the view says. -/
def RoleOk (fs : Fs) (v : View) (b : Buf) : Role → Prop
  | .gdt k => ∀ g, g < fs.groups → g * GroupDesc.bytes / fs.blockSize = k →
    GroupDesc.decode b (g * GroupDesc.bytes % fs.blockSize) = v.gd g
  | .blockBitmap g => ∀ i, i < fs.blocksPerGroup → b.bit i = v.bused (fs.blockNo g i)
  | .inodeBitmap g => ∀ i, i < fs.inodesPerGroup → b.bit i = v.iused (fs.inodeNo g i)
  | .inodeTable g k => ∀ i, i < fs.inodesPerGroup → i * fs.inodeSize / fs.blockSize = k →
    Inode.decode b (i * fs.inodeSize % fs.blockSize) = v.inode (fs.inodeNo g i)

/-- The volume `s` stands for the view `v`. -/
structure Abs (s : Vol) (v : View) : Prop where
  role : ∀ r, Role.Valid fs r → RoleOk fs v (s.blocks (G.loc r)) r
  data : ∀ b, G.IsData b → s.blocks b = v.data b
  blockBitmap : ∀ g, g < fs.groups → (v.gd g).blockBitmap.toNat = G.blockBitmap g
  inodeBitmap : ∀ g, g < fs.groups → (v.gd g).inodeBitmap.toNat = G.inodeBitmap g
  inodeTable : ∀ g, g < fs.groups → (v.gd g).inodeTable.toNat = G.inodeTable g
  counts : s.counts = v.counts
  /-- the superblock on the volume is the one in memory -/
  superblock : ∀ i, i < sbBytes →
    s.blocks (sbBlk fs.blockSize) (sbOff fs.blockSize + i) = fs.superblock v.counts i

/-- A triple about views of a file system with layout `G`. -/
abbrev Layout.Spec {α : Type} (p : Io α) (v : View) (Q : α → View → Prop) : Prop :=
  Lib.Prog.Spec (volSpec fs.blockSize) (Abs G) p v Q

/-- The program returns `a` and leaves the view at `v'`. -/
abbrev Layout.Exact {α : Type} (p : Io α) (v : View) (a : α) (v' : View) : Prop :=
  Lib.Prog.Exact (volSpec fs.blockSize) (Abs G) p v a v'

end

section

variable {fs : Fs} {G : Layout fs} {v : View}

theorem Layout.isData_of_not_sys {b : Nat} (hb : ¬ G.sys b) : G.IsData b :=
  ⟨fun h => hb (h ▸ G.sys_sb), fun r hr h => hb (h ▸ G.sys_loc r hr)⟩

variable {r : Role} {α : Type}

theorem Layout.loc_ne (hr : r.Valid fs) : G.loc r ≠ sbBlk fs.blockSize :=
  G.loc_ne_sb r hr

theorem Layout.loc_lt (hr : r.Valid fs) : G.loc r < 2 ^ 32 :=
  (G.sys_lt _ (G.sys_loc r hr)).trans G.blocksCount_lt

theorem Layout.blockSize_pos (G : Layout fs) : 0 < fs.blockSize := by
  have := G.blockSize.ge
  omega

/-! ## Rules -/

theorem Spec.seq {β : Type} {p : Io α} {f : α → Io β} {Q : α → View → Prop}
    {Q' : β → View → Prop} (h : G.Spec p v Q) (hf : ∀ a v', Q a v' → G.Spec (f a) v' Q') :
    G.Spec (p >>= f) v Q' :=
  Lib.Prog.Spec.bind (volSpec_mono _) h hf

theorem Spec.weaken {p : Io α} {Q Q' : α → View → Prop} (h : G.Spec p v Q)
    (hQ : ∀ a v', Q a v' → Q' a v') : G.Spec p v Q' :=
  Lib.Prog.Spec.mono (volSpec_mono _) h hQ

theorem Exact.seq {β : Type} {p : Io α} {f : α → Io β} {a : α} {v' : View}
    {Q : β → View → Prop} (h : G.Exact p v a v') (hf : G.Spec (f a) v' Q) :
    G.Spec (p >>= f) v Q :=
  Lib.Prog.Exact.seq (volSpec_mono _) h hf

theorem Spec.ret {a : α} {Q : α → View → Prop} (h : Q a v) : G.Spec (pure a : Io α) v Q :=
  Lib.Prog.Spec.pure h

theorem Exact.ret (a : α) : G.Exact (pure a : Io α) v a v :=
  Spec.ret ⟨rfl, rfl⟩

theorem readBlock_any (b : Nat) :
    G.Spec (readBlock b) v fun r v' => v' = v ∧ ∃ buf, r = some buf := by
  intro s hs
  show (volSpec fs.blockSize) (.readBlock b) s _
  simp only [volSpec]
  split
  · exact fun buf => ⟨v, hs, rfl, buf, rfl⟩
  · exact ⟨v, hs, rfl, _, rfl⟩

theorem readBlock_role (hr : r.Valid fs) :
    G.Spec (readBlock (G.loc r)) v fun o v' => v' = v ∧ ∃ b, o = some b ∧ RoleOk fs v b r := by
  intro s hs
  show (volSpec fs.blockSize) (.readBlock _) s _
  simp only [volSpec]
  rw [if_neg (Layout.loc_ne hr)]
  exact ⟨v, hs, rfl, _, rfl, hs.role r hr⟩

theorem readBlock_data {b : Nat} (hb : G.IsData b) :
    G.Exact (readBlock b) v (some (v.data b)) v := by
  intro s hs
  show (volSpec fs.blockSize) (.readBlock b) s _
  simp only [volSpec]
  rw [if_neg hb.1, hs.data b hb]
  exact ⟨v, hs, rfl, rfl⟩

/-- Store the bytes of a data block. -/
@[simps -fullyApplied gd inode bused iused data counts]
def View.setData (v : View) (b : Nat) (buf : Buf) : View :=
  { v with data := update v.data b buf }

theorem writeBlock_data {b : Nat} (hb : G.IsData b) (buf : Buf) :
    G.Exact (writeBlock b buf) v true (v.setData b (buf.take fs.blockSize)) := by
  intro s hs
  refine ⟨hb.1, v.setData b (buf.take fs.blockSize),
      ⟨fun r hr => ?_, fun b' hb' => ?_, hs.blockBitmap, hs.inodeBitmap,
    hs.inodeTable, hs.counts, fun i hi => ?_⟩, rfl, rfl⟩
  · have hne : G.loc r ≠ b := hb.2 r hr
    simp only [Vol.setBlock, update_of_ne hne]
    have := hs.role r hr
    cases r <;> exact this
  · simp only [Vol.setBlock, View.setData]
    by_cases h : b' = b
    · subst h
      simp
    · rw [update_of_ne h, update_of_ne h]
      exact hs.data b' hb'
  · simp only [Vol.setBlock, View.setData, update_of_ne (Ne.symm hb.1)]
    exact hs.superblock i hi

/-- Nothing but the block with role `r` tells the two views apart. -/
structure RoleStep (fs : Fs) (v v' : View) (r : Role) : Prop where
  other : ∀ r' b, r' ≠ r → RoleOk fs v b r' → RoleOk fs v' b r'
  data : v'.data = v.data
  counts : v'.counts = v.counts
  blockBitmap : ∀ g, (v'.gd g).blockBitmap = (v.gd g).blockBitmap
  inodeBitmap : ∀ g, (v'.gd g).inodeBitmap = (v.gd g).inodeBitmap
  inodeTable : ∀ g, (v'.gd g).inodeTable = (v.gd g).inodeTable

theorem writeBlock_role (hr : r.Valid fs) {buf : Buf} {v' : View}
    (hok : RoleOk fs v' (buf.take fs.blockSize) r) (hstep : RoleStep fs v v' r) :
    G.Exact (writeBlock (G.loc r) buf) v true v' := by
  intro s hs
  refine ⟨Layout.loc_ne hr, v', ⟨fun r' hr' => ?_, fun b hb => ?_, fun g hg => ?_, fun g hg => ?_,
    fun g hg => ?_, ?_, fun i hi => ?_⟩, rfl, rfl⟩
  · simp only [Vol.setBlock]
    by_cases h : r' = r
    · subst h
      rw [update_self]
      exact hok
    · have hne : G.loc r' ≠ G.loc r := fun heq => h (G.loc_inj r' r hr' hr heq)
      rw [update_of_ne hne]
      exact hstep.other r' _ h (hs.role r' hr')
  · have hne : b ≠ G.loc r := fun h => hb.2 r hr h.symm
    simp only [Vol.setBlock, update_of_ne hne, hstep.data]
    exact hs.data b hb
  · rw [hstep.blockBitmap]
    exact hs.blockBitmap g hg
  · rw [hstep.inodeBitmap]
    exact hs.inodeBitmap g hg
  · rw [hstep.inodeTable]
    exact hs.inodeTable g hg
  · rw [hstep.counts]
    exact hs.counts
  · simp only [Vol.setBlock, update_of_ne (Ne.symm (Layout.loc_ne (G := G) hr)), hstep.counts]
    exact hs.superblock i hi

end

end JuampiOs.Ext2
