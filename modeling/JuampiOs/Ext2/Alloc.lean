import Mathlib.Algebra.Order.BigOperators.Group.Finset
import JuampiOs.Ext2.Metadata

/-!
# The allocators

`alloc_block`, `free_block`, `alloc_inode` and `free_inode` on views, and the agreement of
bitmaps and counters they keep (`BlockBits`, `InodeBits`).
-/

namespace JuampiOs.Ext2

open Function List View Spec
open Buf Lib

variable {fs : Fs} {G : Layout fs} {v : View}

/-! ## Blocks and their bits -/

variable {g i b : Nat}

theorem blockNo_inj {h j : Nat} (hi : i < fs.blocksPerGroup) (hj : j < fs.blocksPerGroup)
    (heq : fs.blockNo g i = fs.blockNo h j) : g = h ∧ i = j :=
  group_index_inj hi hj (by unfold Fs.blockNo at heq; omega)

/-- The group of a block. -/
def Fs.groupOf (fs : Fs) (b : Nat) : Nat := (b - fs.firstDataBlock) / fs.blocksPerGroup

/-- The blocks that have a bit in some bitmap. -/
def Fs.HasBit (fs : Fs) (b : Nat) : Prop := fs.firstDataBlock ≤ b ∧ fs.groupOf b < fs.groups

theorem groupOf_blockNo (hi : i < fs.blocksPerGroup) : fs.groupOf (fs.blockNo g i) = g := by
  unfold Fs.groupOf Fs.blockNo
  rw [show fs.firstDataBlock + g * fs.blocksPerGroup + i - fs.firstDataBlock
    = fs.blocksPerGroup * g + i by rw [mul_comm]; omega,
    Nat.mul_add_div (by omega), Nat.div_eq_of_lt hi, add_zero]

theorem hasBit_blockNo (hg : g < fs.groups) (hi : i < fs.blocksPerGroup) :
    fs.HasBit (fs.blockNo g i) :=
  ⟨by unfold Fs.blockNo; omega, by rw [groupOf_blockNo hi]; exact hg⟩

theorem blockNo_groupOf (G : Layout fs) (hb : fs.HasBit b) :
    (b - fs.firstDataBlock) % fs.blocksPerGroup < fs.blocksPerGroup ∧
      fs.blockNo (fs.groupOf b) ((b - fs.firstDataBlock) % fs.blocksPerGroup) = b := by
  refine ⟨Nat.mod_lt _ G.blocksPerGroup_pos, ?_⟩
  have hdiv := Nat.div_add_mod (b - fs.firstDataBlock) fs.blocksPerGroup
  have := hb.1
  unfold Fs.blockNo Fs.groupOf
  rw [mul_comm] at hdiv
  omega

theorem hasBit_of_lt (G : Layout fs) (h1 : fs.firstDataBlock ≤ b)
    (h2 : b < fs.blocksCount) : fs.HasBit b := by
  refine ⟨h1, ?_⟩
  unfold Fs.groupOf
  rw [Nat.div_lt_iff_lt_mul G.blocksPerGroup_pos]
  have := G.blocksCount_le
  omega

@[simps -fullyApplied gd inode bused iused data counts]
def View.setBused (v : View) (b : Nat) (used : Bool) : View :=
  { v with bused := update v.bused b used }

theorem roleStep_setBused (hi : i < fs.blocksPerGroup) (used : Bool) :
    RoleStep fs v (v.setBused (fs.blockNo g i) used) (.blockBitmap g) := by
  refine ⟨fun r b hr hok => ?_, rfl, rfl, fun _ => rfl, fun _ => rfl, fun _ => rfl⟩
  cases r with
  | gdt | inodeBitmap | inodeTable => exact hok
  | blockBitmap h =>
    intro j hj
    have hne : fs.blockNo h j ≠ fs.blockNo g i := by
      intro heq
      obtain ⟨rfl, _⟩ := blockNo_inj hj hi heq
      exact hr rfl
    simpa [setBused, hne] using hok j hj

theorem roleOk_setBused (G : Layout fs) (hi : i < fs.blocksPerGroup) {b : Buf}
    (hb : RoleOk fs v b (.blockBitmap g)) :
    RoleOk fs (v.setBused (fs.blockNo g i) true) ((b.setBit i).take fs.blockSize)
      (.blockBitmap g) ∧
    RoleOk fs (v.setBused (fs.blockNo g i) false) ((b.clearBit i).take fs.blockSize)
      (.blockBitmap g) := by
  have hinj : ∀ j, j < fs.blocksPerGroup → fs.blockNo g j = fs.blockNo g i → j = i :=
    fun j hj heq => (blockNo_inj hj hi heq).2
  exact ⟨fun j hj => (bit_update G.blocksPerGroup_le hinj hb hj).1,
    fun j hj => (bit_update G.blocksPerGroup_le hinj hb hj).2⟩

/-! ## Counters of free blocks -/

/-- Free blocks of group `g`: the clear bits of its bitmap. -/
def View.freeIn (fs : Fs) (v : View) (g : Nat) : Nat :=
  count fs.blocksPerGroup fun i => !v.bused (fs.blockNo g i)

/-- The counters of free blocks agree with the bitmaps. -/
abbrev BlockBits (fs : Fs) (v : View) : Prop :=
  Tally fs.groups (fun g => (v.gd g).freeBlocksCount) v.counts.freeBlocks (v.freeIn fs)

/-- Take block `b`: its bit and the counters. -/
@[simps -fullyApplied gd inode bused iused data counts]
def View.useBlock (fs : Fs) (v : View) (b : Nat) : View :=
  { v with
    bused := update v.bused b true
    gd := update v.gd (fs.groupOf b) { v.gd (fs.groupOf b) with
      freeBlocksCount := (v.gd (fs.groupOf b)).freeBlocksCount - 1 }
    counts := { v.counts with freeBlocks := v.counts.freeBlocks - 1 } }

/-- Give block `b` back. -/
@[simps -fullyApplied gd inode bused iused data counts]
def View.unuseBlock (fs : Fs) (v : View) (b : Nat) : View :=
  { v with
    bused := update v.bused b false
    gd := update v.gd (fs.groupOf b) { v.gd (fs.groupOf b) with
      freeBlocksCount := (v.gd (fs.groupOf b)).freeBlocksCount + 1 }
    counts := { v.counts with freeBlocks := v.counts.freeBlocks + 1 } }

theorem freeIn_le (fs : Fs) (v : View) (g : Nat) : v.freeIn fs g ≤ fs.blocksPerGroup :=
  count_le _ _

variable {v' : View} {x : Nat}

theorem freeIn_step (G : Layout fs) {v : View} (hb : fs.HasBit b)
    (hfree : v.bused b = false) (hbused : v'.bused = update v.bused b true) :
    v.freeIn fs (fs.groupOf b) = v'.freeIn fs (fs.groupOf b) + 1 ∧
      ∀ g, g ≠ fs.groupOf b → v.freeIn fs g = v'.freeIn fs g := by
  obtain ⟨hlt, hno⟩ := blockNo_groupOf G hb
  refine count_group_step (p := fun b => !v.bused b) (q := fun b => !v'.bused b) blockNo_inj hlt
    ?_ ?_ ?_ <;> rw [hno]
  · simp [hfree]
  · simp [hbused]
  · exact fun y hy => by rw [hbused, update_of_ne hy]

theorem BlockBits.useBlock (G : Layout fs) (h : BlockBits fs v) (hb : fs.HasBit b)
    (hfree : v.bused b = false) : BlockBits fs (v.useBlock fs b) := by
  obtain ⟨hself, hother⟩ := freeIn_step G hb hfree (useBlock_bused fs v b)
  exact h.pred hb.2 (fun g hg => by simp [hg]) hself hother (by simp)

/-- The file system's own blocks and the padding bits past the end of the volume are marked
used. -/
structure Reserved (G : Layout fs) (v : View) : Prop where
  used : ∀ b, fs.HasBit b → G.sys b ∨ fs.blocksCount ≤ b → v.bused b = true

/-- A block whose bit is clear. -/
def View.Free (fs : Fs) (v : View) (b : Nat) : Prop := fs.HasBit b ∧ v.bused b = false

namespace Reserved

variable (h : Reserved G v)
include h

theorem not_sys (hb : v.Free fs b) : ¬ G.sys b := fun hs => by
  have := h.used b hb.1 (.inl hs)
  rw [hb.2] at this
  cases this

theorem lt (hb : v.Free fs b) : b < fs.blocksCount := by
  by_contra hge
  have := h.used b hb.1 (.inr (by omega))
  rw [hb.2] at this
  cases this

theorem ne_zero (hb : v.Free fs b) : b ≠ 0 := by
  rintro rfl
  refine h.not_sys hb ?_
  have hsb : sbBlk fs.blockSize = 0 := by
    have := hb.1.1
    rw [← G.firstDataBlock]
    omega
  rw [← hsb]
  exact G.sys_sb

/-- The free blocks are blocks of the volume, so there are fewer than `2 ^ 32`. -/
theorem sum_lt : ∑ g ∈ Finset.range fs.groups, v.freeIn fs g < 2 ^ 32 := by
  refine lt_of_le_of_lt ?_ G.blocksCount_lt
  have hsum : ∑ g ∈ Finset.range fs.groups, v.freeIn fs g =
      ((Finset.range fs.groups).sigma fun g => (Finset.range fs.blocksPerGroup).filter
        fun i => (!v.bused (fs.blockNo g i)) = true).card := by
    rw [Finset.card_sigma]
    rfl
  rw [hsum, ← Finset.card_range fs.blocksCount]
  refine Finset.card_le_card_of_injOn (fun p => fs.blockNo p.1 p.2) ?_ ?_
  · rintro ⟨g, i⟩ hp
    simp only [Finset.coe_sigma, Set.mem_sigma_iff, Finset.coe_range, Set.mem_Iio,
      Finset.coe_filter, Finset.mem_range, Set.mem_ofPred_eq, Bool.not_eq_true'] at hp
    simp only [Finset.coe_range, Set.mem_Iio]
    exact h.lt ⟨hasBit_blockNo hp.1 hp.2.1, hp.2.2⟩
  · rintro ⟨g, i⟩ hp ⟨g', i'⟩ hp' heq
    simp only [Finset.coe_sigma, Set.mem_sigma_iff, Finset.coe_range, Set.mem_Iio,
      Finset.coe_filter, Finset.mem_range, Set.mem_ofPred_eq, Bool.not_eq_true'] at hp hp'
    obtain ⟨rfl, rfl⟩ := blockNo_inj hp.2.1 hp'.2.1 heq
    rfl

theorem useBlock (b : Nat) : Reserved G (v.useBlock fs b) := by
  refine ⟨fun c hc hsys => ?_⟩
  by_cases hcb : c = b
  · subst hcb
    simp
  · simpa [hcb] using h.used c hc hsys

theorem unuseBlock (hb : ¬ G.sys b) (hlt : b < fs.blocksCount) :
    Reserved G (v.unuseBlock fs b) := by
  refine ⟨fun c hc hsys => ?_⟩
  have hcb : c ≠ b := by
    rintro rfl
    rcases hsys with hs | hs
    · exact hb hs
    · omega
  simpa [hcb] using h.used c hc hsys

theorem congr (hb : v'.bused = v.bused) : Reserved G v' :=
  ⟨fun c hc hsys => by rw [hb]; exact h.used c hc hsys⟩

end Reserved

theorem BlockBits.unuseBlock (G : Layout fs) (h : BlockBits fs v) (hb : fs.HasBit b)
    (hused : v.bused b = true) (hres : Reserved G (v.unuseBlock fs b)) :
    BlockBits fs (v.unuseBlock fs b) := by
  have hback : v.bused = update (v.unuseBlock fs b).bused b true := by
    rw [unuseBlock_bused, update_idem, ← hused, update_eq_self]
  obtain ⟨hself, hother⟩ := freeIn_step G hb (by simp) hback
  exact h.succ hb.2 (fun g hg => by simp [hg]) hself hother (by simp)
    ((freeIn_le ..).trans_lt G.blocksPerGroup_lt) hres.sum_lt

theorem BlockBits.congr (h : BlockBits fs v) (hb : v'.bused = v.bused)
    (hgd : ∀ g, (v'.gd g).freeBlocksCount = (v.gd g).freeBlocksCount)
    (hc : v'.counts.freeBlocks = v.counts.freeBlocks) : BlockBits fs v' := by
  have hfree : v'.freeIn fs = v.freeIn fs := by
    unfold freeIn
    rw [hb]
  rwa [BlockBits, hfree, hc, funext hgd]

/-! ## `alloc_block` and `free_block` -/

theorem setGd_samePlaces (gd : GroupDesc) (n : UInt16) :
    gd.SamePlaces { gd with freeBlocksCount := n } := ⟨rfl, rfl, rfl⟩

/-- What `alloc_block` does when it finds block `b`. -/
def View.allocBlock (fs : Fs) (v : View) (b : Nat) : View := (v.useBlock fs b).setData b Buf.zero

theorem allocBlockIn_spec (hbits : BlockBits fs v) (hres : Reserved G v) :
    ∀ gs : List Nat, (∀ g ∈ gs, g < fs.groups) →
      G.Spec (allocBlockIn fs gs) v fun r v' =>
        (r = 0 ∧ v' = v ∧ ∀ g ∈ gs, ∀ i, i < fs.blocksPerGroup →
          v.bused (fs.blockNo g i) = true) ∨
        (v.Free fs r ∧ v' = v.allocBlock fs r)
  | [], _ => ret (.inl ⟨rfl, rfl, by simp⟩)
  | g :: gs, hgs => by
    have hg : g < fs.groups := hgs g mem_cons_self
    have ih := allocBlockIn_spec hbits hres gs fun h hh => hgs h (mem_cons_of_mem g hh)
    refine of_places fun hplaces => ?_
    refine allocRound_spec (r := .blockBitmap g) hg hg (hplaces g hg).1 (hbits.group g hg)
      (fun b hb => hb) (fun i => v.setBused (fs.blockNo g i) true)
      (fun b i hb hi => (roleOk_setBused G hi hb).1) (fun i hi => roleStep_setBused hi true)
      (fun hfull => weaken ih fun r v' hr => ?_) fun i hi hclear => ?_
    · -- the group is full
      exact hr.imp_left fun ⟨h0, hv, hall⟩ => ⟨h0, hv, forall_mem_cons.mpr ⟨hfull, hall⟩⟩
    · have hfree : v.Free fs (fs.blockNo g i) := ⟨hasBit_blockNo hg hi, hclear⟩
      have hlt := (hres.lt hfree).trans G.blocksCount_lt
      refine Exact.seq (writeGroupDesc_exact hg (setGd_samePlaces _ _)) ?_
      refine updateCounts_seq _ ?_
      rw [show u32 (fs.firstDataBlock + g * fs.blocksPerGroup + i) = fs.blockNo g i from u32_of_lt hlt]
      refine Exact.seq (writeBlock_data (Layout.isData_of_not_sys (hres.not_sys hfree)) Buf.zero) ?_
      refine ret (.inr ⟨hfree, ?_⟩)
      rw [Buf.take_zero]
      unfold View.allocBlock View.useBlock
      rw [groupOf_blockNo hi]
      rfl

/-- **`alloc_block`** takes a free block and zeroes it, and fails only when no block is free. -/
theorem allocBlock_spec (hbits : BlockBits fs v) (hres : Reserved G v) :
    G.Spec (allocBlock fs) v fun r v' =>
      (r = 0 ∧ v' = v ∧ ∀ b, ¬ v.Free fs b) ∨ (r ≠ 0 ∧ v.Free fs r ∧ v' = v.allocBlock fs r) := by
  refine weaken (allocBlockIn_spec hbits hres _ fun g hg => mem_range.mp hg) fun r v' hr => ?_
  rcases hr with ⟨h0, hv, hall⟩ | ⟨hfree, hv⟩
  · refine .inl ⟨h0, hv, fun b hb => ?_⟩
    obtain ⟨hi, hno⟩ := blockNo_groupOf G hb.1
    have := hall (fs.groupOf b) (mem_range.mpr hb.1.2) _ hi
    rw [hno, hb.2] at this
    cases this
  · exact .inr ⟨hres.ne_zero hfree, hfree, hv⟩

/-- What `free_block` does to a view: nothing for a block without a bit. -/
def View.dropBlock (fs : Fs) (v : View) (b : Nat) : View :=
  if b < fs.firstDataBlock ∨ fs.groups ≤ fs.groupOf b then v else v.unuseBlock fs b

theorem dropBlock_of_hasBit (hb : fs.HasBit b) : v.dropBlock fs b = v.unuseBlock fs b := by
  unfold dropBlock
  obtain ⟨h1, h2⟩ := hb
  rw [if_neg (by omega)]

/-- **`free_block`**, for any block number. -/
theorem freeBlock_exact (b : Nat) : G.Exact (freeBlock fs b) v () (v.dropBlock fs b) := by
  refine of_places fun hplaces => ?_
  unfold freeBlock
  by_cases h1 : b < fs.firstDataBlock
  · rw [if_pos h1]
    unfold dropBlock
    rw [if_pos (Or.inl h1)]
    exact Exact.ret ()
  rw [if_neg h1]
  by_cases h2 : fs.groups ≤ fs.groupOf b
  · unfold dropBlock
    rw [if_pos (Or.inr h2)]
    unfold Fs.groupOf at h2
    rw [if_pos h2]
    exact Exact.ret ()
  have hb : fs.HasBit b := ⟨by omega, by omega⟩
  rw [dropBlock_of_hasBit hb]
  obtain ⟨hi, hno⟩ := blockNo_groupOf G hb
  dsimp only
  rw [show (b - fs.firstDataBlock) / fs.blocksPerGroup = fs.groupOf b from rfl, if_neg h2]
  refine Exact.seq (readGroupDesc_exact hb.2) ?_
  dsimp only
  rw [(hplaces _ hb.2).1]
  refine Exact.seq (bitmapFree_exact (r := .blockBitmap (fs.groupOf b)) hb.2
    (fun buf hbuf => (roleOk_setBused G hi hbuf).2) (roleStep_setBused hi false)) ?_
  rw [hno]
  refine Exact.seq (writeGroupDesc_exact (G := G) hb.2 (setGd_samePlaces _ _)) ?_
  exact updateCounts_seq _ (Exact.ret ())

/-! ## Inodes and their bits -/

@[simps -fullyApplied gd inode bused iused data counts]
def View.setIused (v : View) (x : Nat) (used : Bool) : View :=
  { v with iused := update v.iused x used }

theorem validIno_inodeNo (hg : g < fs.groups) (hi : i < fs.inodesPerGroup) :
    fs.ValidIno (fs.inodeNo g i) := by
  refine ⟨by unfold Fs.inodeNo; omega, ?_⟩
  have : (g + 1) * fs.inodesPerGroup ≤ fs.groups * fs.inodesPerGroup :=
    Nat.mul_le_mul_right _ hg
  rw [add_mul, one_mul] at this
  unfold Fs.inodeNo
  omega

theorem inoPlace_inodeNo (hi : i < fs.inodesPerGroup) : inoPlace fs (fs.inodeNo g i) = (g, i) := by
  unfold inoPlace Fs.inodeNo
  rw [Nat.add_sub_cancel, Nat.mul_comm, Nat.mul_add_div (by omega), Nat.div_eq_of_lt hi,
    Nat.mul_add_mod, Nat.mod_eq_of_lt hi, add_zero]

theorem roleStep_setIused (hi : i < fs.inodesPerGroup) (used : Bool) :
    RoleStep fs v (v.setIused (fs.inodeNo g i) used) (.inodeBitmap g) := by
  refine ⟨fun r b hr hok => ?_, rfl, rfl, fun _ => rfl, fun _ => rfl, fun _ => rfl⟩
  cases r with
  | gdt | blockBitmap | inodeTable => exact hok
  | inodeBitmap h =>
    intro j hj
    have hne : fs.inodeNo h j ≠ fs.inodeNo g i := by
      intro heq
      obtain ⟨rfl, _⟩ := inodeNo_inj hj hi heq
      exact hr rfl
    simpa [hne] using hok j hj

theorem roleOk_setIused (G : Layout fs) (hi : i < fs.inodesPerGroup) {b : Buf}
    (hb : RoleOk fs v b (.inodeBitmap g)) :
    RoleOk fs (v.setIused (fs.inodeNo g i) true) ((b.setBit i).take fs.blockSize)
      (.inodeBitmap g) ∧
    RoleOk fs (v.setIused (fs.inodeNo g i) false) ((b.clearBit i).take fs.blockSize)
      (.inodeBitmap g) := by
  have hinj : ∀ j, j < fs.inodesPerGroup → fs.inodeNo g j = fs.inodeNo g i → j = i :=
    fun j hj heq => (inodeNo_inj hj hi heq).2
  exact ⟨fun j hj => (bit_update G.inodesPerGroup_le hinj hb hj).1,
    fun j hj => (bit_update G.inodesPerGroup_le hinj hb hj).2⟩

/-! ## Counters of free inodes -/

/-- Free inodes of group `g`: the clear bits of its bitmap. -/
def View.freeInodesIn (fs : Fs) (v : View) (g : Nat) : Nat :=
  count fs.inodesPerGroup fun i => !v.iused (fs.inodeNo g i)

/-- The counters of free inodes agree with the bitmaps. -/
abbrev InodeBits (fs : Fs) (v : View) : Prop :=
  Tally fs.groups (fun g => (v.gd g).freeInodesCount) v.counts.freeInodes (v.freeInodesIn fs)

/-- The group of an inode. -/
def Fs.inoGroup (fs : Fs) (x : Nat) : Nat := (inoPlace fs x).1

/-- Take inode `x`: its bit and the counters. -/
@[simps -fullyApplied gd inode bused iused data counts]
def View.useInode (fs : Fs) (v : View) (x : Nat) (isDir : Bool) : View :=
  let gd := v.gd (fs.inoGroup x)
  { v with
    iused := update v.iused x true
    gd := update v.gd (fs.inoGroup x) { gd with
      freeInodesCount := gd.freeInodesCount - 1
      usedDirsCount := if isDir then gd.usedDirsCount + 1 else gd.usedDirsCount }
    counts := { v.counts with freeInodes := v.counts.freeInodes - 1 } }

/-- Give inode `x` back. -/
@[simps -fullyApplied gd inode bused iused data counts]
def View.unuseInode (fs : Fs) (v : View) (x : Nat) (wasDir : Bool) : View :=
  let gd := v.gd (fs.inoGroup x)
  { v with
    iused := update v.iused x false
    gd := update v.gd (fs.inoGroup x) { gd with
      freeInodesCount := gd.freeInodesCount + 1
      usedDirsCount := if wasDir && 0 < gd.usedDirsCount then gd.usedDirsCount - 1
        else gd.usedDirsCount }
    counts := { v.counts with freeInodes := v.counts.freeInodes + 1 } }

theorem freeInodesIn_step (G : Layout fs) {v : View} (hx : fs.ValidIno x)
    (hfree : v.iused x = false) (hiused : v'.iused = update v.iused x true) :
    v.freeInodesIn fs (fs.inoGroup x) = v'.freeInodesIn fs (fs.inoGroup x) + 1 ∧
      ∀ g, g ≠ fs.inoGroup x → v.freeInodesIn fs g = v'.freeInodesIn fs g := by
  obtain ⟨_, hlt, hno⟩ := inoPlace_lt G hx
  refine count_group_step (p := fun x => !v.iused x) (q := fun x => !v'.iused x) inodeNo_inj hlt
    ?_ ?_ ?_ <;> rw [Fs.inoGroup, hno]
  · simp [hfree]
  · simp [hiused]
  · exact fun y hy => by rw [hiused, update_of_ne hy]

theorem InodeBits.useInode (G : Layout fs) (h : InodeBits fs v) (hx : fs.ValidIno x)
    (hfree : v.iused x = false) (isDir : Bool) : InodeBits fs (v.useInode fs x isDir) := by
  obtain ⟨hself, hother⟩ := freeInodesIn_step G hx hfree (useInode_iused fs v x isDir)
  exact h.pred (x := fs.inoGroup x) (inoPlace_lt G hx).1 (fun g hg => by simp [hg]) hself hother
    (by simp)

theorem freeInodes_sum_lt (G : Layout fs) (v : View) :
    ∑ g ∈ Finset.range fs.groups, v.freeInodesIn fs g < 2 ^ 32 := by
  refine lt_of_le_of_lt ?_ G.inodesCount_lt
  calc ∑ g ∈ Finset.range fs.groups, v.freeInodesIn fs g
      ≤ ∑ _g ∈ Finset.range fs.groups, fs.inodesPerGroup :=
        Finset.sum_le_sum fun g _ => count_le _ _
    _ = fs.groups * fs.inodesPerGroup := by rw [Finset.sum_const, Finset.card_range]; rfl

theorem InodeBits.unuseInode (G : Layout fs) (h : InodeBits fs v) (hx : fs.ValidIno x)
    (hused : v.iused x = true) (wasDir : Bool) : InodeBits fs (v.unuseInode fs x wasDir) := by
  have hback : v.iused = update (v.unuseInode fs x wasDir).iused x true := by
    rw [unuseInode_iused, update_idem, ← hused, update_eq_self]
  obtain ⟨hself, hother⟩ := freeInodesIn_step G hx (by simp) hback
  exact h.succ (x := fs.inoGroup x) (inoPlace_lt G hx).1 (fun g hg => by simp [hg]) hself hother
    (by simp)
    ((count_le _ _).trans_lt G.inodesPerGroup_lt) (freeInodes_sum_lt G _)

theorem InodeBits.congr (h : InodeBits fs v) (hi : v'.iused = v.iused)
    (hgd : ∀ g, (v'.gd g).freeInodesCount = (v.gd g).freeInodesCount)
    (hc : v'.counts.freeInodes = v.counts.freeInodes) : InodeBits fs v' := by
  have hfree : v'.freeInodesIn fs = v.freeInodesIn fs := by
    unfold freeInodesIn
    rw [hi]
  rwa [InodeBits, hfree, hc, funext hgd]

/-! ## `alloc_inode` and `free_inode` -/

theorem allocInodeIn_spec (hbits : InodeBits fs v) (isDir : Bool) :
    ∀ gs : List Nat, (∀ g ∈ gs, g < fs.groups) →
      G.Spec (allocInodeIn fs isDir gs) v fun r v' =>
        (r = 0 ∧ v' = v ∧ ∀ g ∈ gs, ∀ i, i < fs.inodesPerGroup →
          v.iused (fs.inodeNo g i) = true) ∨
        (fs.ValidIno r ∧ v.iused r = false ∧ v' = v.useInode fs r isDir)
  | [], _ => ret (.inl ⟨rfl, rfl, by simp⟩)
  | g :: gs, hgs => by
    have hg : g < fs.groups := hgs g mem_cons_self
    have ih := allocInodeIn_spec hbits isDir gs fun h hh => hgs h (mem_cons_of_mem g hh)
    refine of_places fun hplaces => ?_
    refine allocRound_spec (r := .inodeBitmap g) hg hg (hplaces g hg).2.1 (hbits.group g hg)
      (fun b hb => hb) (fun i => v.setIused (fs.inodeNo g i) true)
      (fun b i hb hi => (roleOk_setIused G hi hb).1) (fun i hi => roleStep_setIused hi true)
      (fun hfull => weaken ih fun r v' hr => ?_) fun i hi hclear => ?_
    · exact hr.imp_left fun ⟨h0, hv, hall⟩ => ⟨h0, hv, forall_mem_cons.mpr ⟨hfull, hall⟩⟩
    · have hvalid : fs.ValidIno (fs.inodeNo g i) := validIno_inodeNo hg hi
      have hlt : fs.inodeNo g i < 2 ^ 32 := lt_of_le_of_lt hvalid.2 G.inodesCount_lt
      refine Exact.seq (writeGroupDesc_exact hg ?_) ?_
      · cases isDir <;> exact ⟨rfl, rfl, rfl⟩
      refine updateCounts_seq _ ?_
      rw [show u32 (g * fs.inodesPerGroup + i + 1) = fs.inodeNo g i from u32_of_lt hlt]
      refine ret (.inr ⟨hvalid, hclear, ?_⟩)
      unfold useInode Fs.inoGroup
      rw [inoPlace_inodeNo hi]
      cases isDir <;> rfl

/-- **`alloc_inode`** takes a free inode, and fails only when none is free. -/
theorem allocInode_spec (hbits : InodeBits fs v) (isDir : Bool) :
    G.Spec (allocInode fs isDir) v fun r v' =>
      (r = 0 ∧ v' = v ∧ ∀ x, fs.ValidIno x → v.iused x = true) ∨
      (r ≠ 0 ∧ fs.ValidIno r ∧ v.iused r = false ∧ v' = v.useInode fs r isDir) := by
  refine weaken (allocInodeIn_spec hbits isDir _ fun g hg => mem_range.mp hg) fun r v' hr => ?_
  rcases hr with ⟨h0, hv, hall⟩ | ⟨hvalid, hfree, hv⟩
  · refine .inl ⟨h0, hv, fun x hx => ?_⟩
    obtain ⟨hg, hi, hno⟩ := inoPlace_lt G hx
    have := hall _ (mem_range.mpr hg) _ hi
    rwa [hno] at this
  · exact .inr ⟨by have := hvalid.1; omega, hvalid, hfree, hv⟩

/-- **`free_inode`** on an inode of the file system. -/
theorem freeInode_exact (hx : fs.ValidIno x) (wasDir : Bool) :
    G.Exact (freeInode fs x wasDir) v () (v.unuseInode fs x wasDir) := by
  obtain ⟨hg, hi, hno⟩ := inoPlace_lt G hx
  refine of_places fun hplaces => ?_
  unfold freeInode
  rw [if_neg (by omega)]
  refine Exact.seq (readGroupDesc_exact hg) ?_
  dsimp only
  rw [(hplaces _ hg).2.1]
  refine Exact.seq (bitmapFree_exact (r := .inodeBitmap (inoPlace fs x).1) hg
    (fun buf hbuf => (roleOk_setIused G hi hbuf).2) (roleStep_setIused hi false)) ?_
  rw [hno]
  refine Exact.seq (writeGroupDesc_exact (G := G) hg ?_) ?_
  · split <;> exact ⟨rfl, rfl, rfl⟩
  refine updateCounts_seq _ (ret ⟨rfl, ?_⟩)
  unfold unuseInode Fs.inoGroup
  dsimp only
  split <;> rfl

end JuampiOs.Ext2
